import Mathlib.Data.Int.DivMod
import OsMaterial.Bitmap

/-!
# Inodes and their Data

The state of the file system, the block device, and the transfer loops of `filesys/inode.c`. The
device is one flat image of bytes, so that the loops amount to one `slice` and one `patch`. An inode
in memory is named by an address. The state carries the answers of the calls of `malloc` still to
come.

* `inodeReadAt_returns`, `inodeWriteAt_returns`: **exactly the bytes** from the offset on, clipped
  at the length of the file, are transferred.
-/

namespace OsMaterial

open List

/-! ### The state -/

structure InodeDisk where
  start : ℕ
  length : ℤ
  magic : ℕ
  deriving DecidableEq

structure Inode where
  sector : ℕ
  openCnt : ℤ
  removed : Bool
  denyWriteCnt : ℤ
  data : InodeDisk
  deriving DecidableEq

structure File where
  inode : ℕ
  pos : ℕ
  denyWrite : Bool
  deriving DecidableEq

structure FsState where
  size : ℕ
  disk : ℕ → UInt8
  freeMap : Bitmap
  freeMapFile : Option File
  inodes : ℕ → Option Inode
  openInodes : List ℕ
  nextInode : ℕ
  mallocs : ℕ → Bool

abbrev Fs (α : Type) : Type := Call Panic FsState α

/-- `malloc` or `calloc`: whether the memory was obtained. -/
def malloc : Fs Bool := do
  let s ← get
  set { s with mallocs := fun n => s.mallocs (n + 1) }
  return s.mallocs 0

def FsState.MallocsSucceed (s : FsState) : Prop :=
  ∀ n, s.mallocs n = true

def FsState.spend (s : FsState) : FsState :=
  { s with mallocs := fun n => s.mallocs (n + 1) }

theorem returns_malloc_eq (s : FsState) (Q : Bool → FsState → Prop) :
    Returns malloc s Q ↔ Q (s.mallocs 0) s.spend := by
  rw [malloc]
  simp only [returns_bind, returns_get, returns_set, returns_pure, FsState.spend]

variable {s : FsState} {offset rounds size a x written : ℕ} {buffer : Bytes} {ino : Inode}
  {bounce : Bool} {Q : ℕ → FsState → Prop}

theorem FsState.MallocsSucceed.spend_eq (hm : s.MallocsSucceed) : s.spend = s := by
  have hmallocs : (fun n => s.mallocs (n + 1)) = s.mallocs := funext fun n => by rw [hm, hm]
  rw [FsState.spend, hmallocs]

theorem returns_malloc (hm : s.MallocsSucceed) (Q : Bool → FsState → Prop) :
    Returns malloc s Q ↔ Q true s := by
  rw [returns_malloc_eq, hm.spend_eq, hm 0]

def inodeAt (inode : ℕ) : Fs Inode := do
  match (← get).inodes inode with
  | some ino => return ino
  | none => throw .badPointer

theorem returns_inodeAt (ha : s.inodes a = some ino) (Q : Inode → FsState → Prop) :
    Returns (inodeAt a) s Q ↔ Q ino s := by
  rw [inodeAt]
  simp only [returns_bind, returns_get, ha, returns_pure]

/-! ### The block device -/

def sectorBytes (disk : ℕ → UInt8) (sector : ℕ) : Bytes :=
  slice disk (512 * sector) 512

def blockRead (sector : ℕ) : Fs Bytes := do
  let s ← get
  assert (sector < s.size) .sectorRange
  return sectorBytes s.disk sector

def blockWrite (sector : ℕ) (buffer : Bytes) : Fs Unit := do
  let s ← get
  assert (sector < s.size) .sectorRange
  set { s with disk := patch s.disk (512 * sector) buffer }

theorem returns_blockRead (hx : x < s.size) (Q : Bytes → FsState → Prop) :
    Returns (blockRead x) s Q ↔ Q (sectorBytes s.disk x) s := by
  rw [blockRead]
  simp only [returns_bind, returns_get, returns_assert, hx, true_and, returns_pure]

theorem returns_blockWrite (hx : x < s.size) (buffer : Bytes) (Q : Unit → FsState → Prop) :
    Returns (blockWrite x buffer) s Q ↔ Q () { s with disk := patch s.disk (512 * x) buffer } := by
  rw [blockWrite]
  simp only [returns_bind, returns_get, returns_assert, hx, true_and, returns_set]

/-! ### Inodes on the device -/

def inodeMagic : ℕ := 0x494e4f44

def offOfWord (n : ℕ) : ℤ := Int.bmod n wordSize

def encodeInode (d : InodeDisk) : Bytes :=
  toLe 4 d.start ++ toLe 4 (d.length % wordSize).toNat ++ toLe 4 d.magic ++ replicate 500 0

def decodeInode (bytes : Bytes) : InodeDisk where
  start := ofLe (bytes.take 4)
  length := offOfWord (ofLe ((bytes.drop 4).take 4))
  magic := ofLe ((bytes.drop 8).take 4)

@[simp] theorem length_encodeInode (d : InodeDisk) : (encodeInode d).length = 512 := by
  simp only [encodeInode, length_append, length_toLe, length_replicate]

theorem offOfWord_toNat {n : ℤ} (h0 : 0 ≤ n) (hn : n < 2 ^ 31) :
    offOfWord (n % wordSize).toNat = n := by
  have hw : (wordSize : ℤ) = 4294967296 := rfl
  have hmod : n % wordSize = n := Int.emod_eq_of_lt h0 (by omega)
  rw [offOfWord, hmod, Int.toNat_of_nonneg h0]
  exact Int.bmod_eq_of_le (by rw [hw]; omega) (by rw [hw]; omega)

/-- **An inode is read back** as it was written. -/
theorem decodeInode_encodeInode {d : InodeDisk} (hstart : d.start < wordSize) (h0 : 0 ≤ d.length)
    (hlen : d.length < 2 ^ 31) (hmagic : d.magic < wordSize) : decodeInode (encodeInode d) = d := by
  have hword : (d.length % wordSize).toNat < wordSize := by
    have := Int.emod_lt_of_pos d.length (show (0 : ℤ) < wordSize by decide)
    omega
  have h₁ : (encodeInode d).take 4 = toLe 4 d.start := by simp [encodeInode, -reduceReplicate]
  have h₂ : ((encodeInode d).drop 4).take 4 = toLe 4 (d.length % wordSize).toNat := by
    simp [encodeInode, -reduceReplicate]
  have h₃ : ((encodeInode d).drop 8).take 4 = toLe 4 d.magic := by
    rw [encodeInode, append_assoc, drop_left' (by simp), take_left' (by simp)]
  rw [decodeInode, h₁, h₂, h₃, ofLe_toLe hstart, ofLe_toLe hword, ofLe_toLe hmagic,
    offOfWord_toNat h0 hlen]

def inodeOn (disk : ℕ → UInt8) (sector : ℕ) : InodeDisk :=
  decodeInode (sectorBytes disk sector)

theorem inodeOn_eq (disk : ℕ → UInt8) (sector : ℕ) :
    inodeOn disk sector = decodeInode (sectorBytes disk sector) :=
  rfl

-- so that no proof computes with the 512 bytes of a sector
attribute [irreducible] inodeOn

/-- `bytes_to_sectors`: `DIV_ROUND_UP` computes in `int`, and the result is converted to
`size_t`. -/
def bytesToSectors (size : ℤ) : ℕ :=
  ((Int.bmod (size + 511) wordSize).tdiv 512 % wordSize).toNat

/-- `byte_to_sector`; the result is a `block_sector_t`, and `-1` is the last of them. -/
def byteToSector (data : InodeDisk) (pos : ℕ) : ℕ :=
  if (pos : ℤ) < data.length then (data.start + pos / 512) % wordSize else wordSize - 1

theorem bytesToSectors_eq {size : ℤ} (h0 : 0 ≤ size) (h : size + 511 < 2 ^ 31) :
    bytesToSectors size = (size.toNat + 511) / 512 := by
  have hw : (wordSize : ℤ) = 4294967296 := rfl
  have hbmod : Int.bmod (size + 511) wordSize = size + 511 :=
    Int.bmod_eq_of_le (by rw [hw]; omega) (by rw [hw]; omega)
  rw [bytesToSectors, hbmod, Int.tdiv_eq_ediv_of_nonneg (by omega), hw]
  omega

theorem le_bytesToSectors {size : ℤ} (h0 : 0 ≤ size) (h : size < 2 ^ 31) :
    (size.toNat + 511) / 512 ≤ bytesToSectors size := by
  by_cases hsmall : size + 511 < 2 ^ 31
  · exact (bytesToSectors_eq h0 hsmall).ge
  · -- the sum wraps to a negative number, and the quotient to a huge count
    have hw : (wordSize : ℤ) = 4294967296 := rfl
    have hbmod : Int.bmod (size + 511) wordSize = -(4294967296 - (size + 511)) := by
      rw [← Int.sub_bmod_right, hw, Int.bmod_eq_of_le (by rw [hw]; omega) (by rw [hw]; omega)]
      omega
    rw [bytesToSectors, hbmod, Int.neg_tdiv, Int.tdiv_eq_ediv_of_nonneg (by omega), hw]
    omega

/-! ### The transfer loops -/

def chunkSize (data : InodeDisk) (size offset : ℕ) : ℕ :=
  let sectorOfs := offset % 512
  let inodeLeft := data.length.toNat - offset
  let sectorLeft := 512 - sectorOfs
  let minLeft := if inodeLeft < sectorLeft then inodeLeft else sectorLeft
  if size < minLeft then size else minLeft

/-- The loop of `inode_read_at`; `bounce` says whether there is a bounce buffer. A round copies at
least one byte, so `size` rounds are enough. -/
def readLoop (data : InodeDisk) :
    (rounds size offset : ℕ) → (bounce : Bool) → Bytes → Fs Bytes
  | 0, _, _, _, buffer => return buffer
  | rounds + 1, size, offset, bounce, buffer => do
      let sectorIdx := byteToSector data offset
      let sectorOfs := offset % 512
      let chunk := chunkSize data size offset
      if chunk = 0 then
        return buffer
      else if sectorOfs = 0 ∧ chunk = 512 then
        let bytes ← blockRead sectorIdx
        readLoop data rounds (size - chunk) (offset + chunk) bounce (buffer ++ bytes)
      else
        let bounce ← if bounce then pure true else malloc
        if bounce then
          let bytes ← blockRead sectorIdx
          readLoop data rounds (size - chunk) (offset + chunk) true
            (buffer ++ (bytes.drop sectorOfs).take chunk)
        else
          return buffer

/-- `inode_read_at`; it returns the bytes that were read. A `size` that is not positive
is the case of `0`. -/
def inodeReadAt (inode size offset : ℕ) : Fs Bytes := do
  let ino ← inodeAt inode
  readLoop ino.data size size offset false []

def writeLoop (data : InodeDisk) :
    (rounds : ℕ) → (buffer : Bytes) → (offset : ℕ) → (bounce : Bool) → (bytesWritten : ℕ) → Fs ℕ
  | 0, _, _, _, bytesWritten => return bytesWritten
  | rounds + 1, buffer, offset, bounce, bytesWritten => do
      let sectorIdx := byteToSector data offset
      let sectorOfs := offset % 512
      let sectorLeft := 512 - sectorOfs
      let chunk := chunkSize data buffer.length offset
      if chunk = 0 then
        return bytesWritten
      else if sectorOfs = 0 ∧ chunk = 512 then
        blockWrite sectorIdx (buffer.take chunk)
        writeLoop data rounds (buffer.drop chunk) (offset + chunk) bounce (bytesWritten + chunk)
      else
        let bounce ← if bounce then pure true else malloc
        if bounce then
          -- the sector is read unless the chunk covers all of it
          let bytes ← if 0 < sectorOfs ∨ chunk < sectorLeft then blockRead sectorIdx
            else pure (replicate 512 0)
          blockWrite sectorIdx (overwrite bytes sectorOfs (buffer.take chunk))
          writeLoop data rounds (buffer.drop chunk) (offset + chunk) true (bytesWritten + chunk)
        else
          return bytesWritten

def inodeWriteAt (inode : ℕ) (buffer : Bytes) (offset : ℕ) : Fs ℕ := do
  let ino ← inodeAt inode
  if ino.denyWriteCnt ≠ 0 then
    return 0
  else
    writeLoop ino.data buffer.length buffer offset false 0

def FsState.Fits (s : FsState) (data : InodeDisk) : Prop :=
  ∀ pos : ℕ, pos < data.length.toNat → data.start + pos / 512 < s.size

def clip (data : InodeDisk) (size offset : ℕ) : ℕ :=
  min size (data.length.toNat - offset)

section

variable (data : InodeDisk)

theorem chunkSize_le (size offset : ℕ) : chunkSize data size offset ≤ clip data size offset := by
  simp only [chunkSize, clip]
  split_ifs <;> omega

theorem chunkSize_le_sector (size offset : ℕ) :
    offset % 512 + chunkSize data size offset ≤ 512 := by
  simp only [chunkSize]
  split_ifs <;> omega

theorem clip_eq_zero (h : chunkSize data size offset = 0) : clip data size offset = 0 := by
  simp only [chunkSize] at h
  simp only [clip]
  split_ifs at h <;> omega

theorem clip_step (size offset : ℕ) :
    clip data size offset = chunkSize data size offset +
      clip data (size - chunkSize data size offset) (offset + chunkSize data size offset) := by
  have := chunkSize_le data size offset
  simp only [clip] at *
  omega

end

section

variable {s : FsState} {data : InodeDisk}

theorem readLoop_zero (data : InodeDisk) (rounds offset : ℕ) (bounce : Bool)
    (buffer : Bytes) : readLoop data rounds 0 offset bounce buffer = pure buffer := by
  cases rounds <;> simp [readLoop, chunkSize]

theorem writeLoop_nil (data : InodeDisk) (rounds offset : ℕ) (bounce : Bool) (written : ℕ) :
    writeLoop data rounds [] offset bounce written = pure written := by
  cases rounds <;> simp [writeLoop, chunkSize]

theorem FsState.Fits.byteToSector_eq (hfit : s.Fits data) (hsize : s.size ≤ wordSize)
    (h : chunkSize data size offset ≠ 0) :
    byteToSector data offset = data.start + offset / 512 ∧ data.start + offset / 512 < s.size := by
  have hle := chunkSize_le data size offset
  have hlt : offset < data.length.toNat := by
    simp only [clip] at hle
    omega
  have hdev := hfit offset hlt
  refine ⟨?_, hdev⟩
  rw [byteToSector, if_pos (by omega), Nat.mod_eq_of_lt (by omega)]

theorem sectorBytes_drop_take (data : InodeDisk) (disk : ℕ → UInt8) (start size offset : ℕ) :
    ((sectorBytes disk (start + offset / 512)).drop (offset % 512)).take
        (chunkSize data size offset) =
      slice disk (512 * start + offset) (chunkSize data size offset) := by
  have hle := chunkSize_le_sector data size offset
  rw [sectorBytes, drop_slice (by omega), take_slice (by omega)]
  congr 1
  omega

theorem slice_clip (data : InodeDisk) (disk : ℕ → UInt8) (size offset : ℕ) :
    slice disk (512 * data.start + offset) (clip data size offset) =
      slice disk (512 * data.start + offset) (chunkSize data size offset) ++
        slice disk (512 * data.start + (offset + chunkSize data size offset))
          (clip data (size - chunkSize data size offset)
            (offset + chunkSize data size offset)) := by
  rw [← Nat.add_assoc, ← slice_add, ← clip_step]

/-- **A round of a read** of `c` bytes: only a part of a sector needs memory. -/
theorem readLoop_round {c : ℕ} (hfit : s.Fits data) (hsize : s.size ≤ wordSize)
    (hc : chunkSize data size offset = c) (h0 : c ≠ 0) (Q : Bytes → FsState → Prop) :
    Returns (readLoop data (rounds + 1) size offset bounce buffer) s Q ↔
      if bounce = true ∨ c = 512 ∨ s.mallocs 0 = true then
        Returns (readLoop data rounds (size - c) (offset + c) (bounce || decide (c ≠ 512))
          (buffer ++ slice s.disk (512 * data.start + offset) c))
          (if bounce = true ∨ c = 512 then s else s.spend) Q
      else Q buffer s.spend := by
  subst hc
  obtain ⟨hidx, hdev⟩ := hfit.byteToSector_eq hsize h0
  have hcopy := sectorBytes_drop_take data s.disk data.start size offset
  have hle := chunkSize_le_sector data size offset
  rw [readLoop]
  simp only [if_neg h0, hidx]
  by_cases hfull : chunkSize data size offset = 512
  · -- the whole sector is the chunk
    have hofs : offset % 512 = 0 := by omega
    have hwhole : sectorBytes s.disk (data.start + offset / 512) =
        slice s.disk (512 * data.start + offset) 512 := by
      rw [hofs, hfull, drop_zero, take_of_length_le (by simp [sectorBytes])] at hcopy
      exact hcopy
    simp [hofs, hfull, returns_bind, returns_blockRead hdev, hwhole]
  · have hdev' : data.start + offset / 512 < s.spend.size := hdev
    have hdisk : s.spend.disk = s.disk := rfl
    cases bounce with
    | true => simp [hfull, returns_bind, returns_blockRead hdev, hcopy]
    | false =>
      cases hmalloc : s.mallocs 0 <;>
        simp [hfull, returns_bind, returns_malloc_eq, hmalloc, returns_blockRead hdev', hdisk,
          hcopy]

theorem readLoop_returns (hm : s.MallocsSucceed) (hfit : s.Fits data) (hsize : s.size ≤ wordSize)
    (hrounds : size ≤ rounds) (offset : ℕ) (bounce : Bool) (buffer : Bytes) :
    Returns (readLoop data rounds size offset bounce buffer) s fun bytes t =>
      bytes = buffer ++ slice s.disk (512 * data.start + offset) (clip data size offset) ∧
        t = s := by
  induction rounds generalizing size offset bounce buffer with
  | zero =>
    obtain rfl : size = 0 := by omega
    simp [readLoop, clip]
  | succ rounds ih =>
    by_cases h0 : chunkSize data size offset = 0
    · rw [readLoop, clip_eq_zero data h0]
      simp [h0]
    · rw [readLoop_round hfit hsize rfl h0, if_pos (.inr (.inr (hm 0))), hm.spend_eq, ite_self]
      refine (ih (by omega) _ _ _).mono ?_
      rintro bytes t ⟨rfl, rfl⟩
      rw [append_assoc, ← slice_clip]
      exact ⟨rfl, rfl⟩

/-- **A read** of `inode_read_at` returns the bytes of the file from the offset on, clipped
at its length, and changes nothing. -/
theorem inodeReadAt_returns (hm : s.MallocsSucceed) (ha : s.inodes a = some ino)
    (hfit : s.Fits ino.data) (hsize : s.size ≤ wordSize) (size offset : ℕ)
    (Q : Bytes → FsState → Prop) :
    Returns (inodeReadAt a size offset) s Q ↔
      Q (slice s.disk (512 * ino.data.start + offset) (clip ino.data size offset)) s := by
  rw [inodeReadAt, returns_bind, returns_inodeAt ha]
  exact returns_iff_of_run (readLoop_returns hm hfit hsize le_rfl offset false []).run_eq Q

def FsState.patchDisk (s : FsState) (ofs : ℕ) (bytes : Bytes) : FsState :=
  { s with disk := patch s.disk ofs bytes }

theorem patch_bounce (data : InodeDisk) (disk : ℕ → UInt8) (start size offset : ℕ)
    (chunk : Bytes) (hchunk : chunk.length = chunkSize data size offset) :
    patch disk (512 * (start + offset / 512))
        (overwrite (sectorBytes disk (start + offset / 512)) (offset % 512) chunk) =
      patch disk (512 * start + offset) chunk := by
  have hle := chunkSize_le_sector data size offset
  rw [sectorBytes, patch_overwrite (by omega)]
  congr 1
  omega

/-- **A round of a write** of `c` bytes: only a part of a sector needs memory. -/
theorem writeLoop_round {c : ℕ} (hfit : s.Fits data) (hsize : s.size ≤ wordSize)
    (hc : chunkSize data buffer.length offset = c) (h0 : c ≠ 0) (Q : ℕ → FsState → Prop) :
    Returns (writeLoop data (rounds + 1) buffer offset bounce written) s Q ↔
      if bounce = true ∨ c = 512 ∨ s.mallocs 0 = true then
        Returns (writeLoop data rounds (buffer.drop c) (offset + c) (bounce || decide (c ≠ 512))
          (written + c)) ((if bounce = true ∨ c = 512 then s else s.spend).patchDisk
            (512 * data.start + offset) (buffer.take c)) Q
      else Q written s.spend := by
  subst hc
  obtain ⟨hidx, hdev⟩ := hfit.byteToSector_eq hsize h0
  have hle : chunkSize data buffer.length offset ≤ buffer.length :=
    (chunkSize_le data buffer.length offset).trans (Nat.min_le_left _ _)
  have hbounce := patch_bounce data s.disk data.start buffer.length offset
    (buffer.take (chunkSize data buffer.length offset)) (by simpa using hle)
  have hsector := chunkSize_le_sector data buffer.length offset
  rw [writeLoop]
  simp only [if_neg h0, hidx]
  by_cases hfull : chunkSize data buffer.length offset = 512
  · have hmod : offset % 512 = 0 := by omega
    have hofs : 512 * (data.start + offset / 512) = 512 * data.start + offset := by omega
    simp [hmod, hfull, returns_bind, returns_blockWrite hdev, hofs, FsState.patchDisk]
  · -- a chunk that covers the sector is one that was written directly
    have hpart : 0 < offset % 512 ∨ chunkSize data buffer.length offset < 512 - offset % 512 := by
      omega
    have hdev' : data.start + offset / 512 < s.spend.size := hdev
    have hdisk : s.spend.disk = s.disk := rfl
    cases bounce with
    | true =>
      simp only [hfull, and_false, or_false, if_false, if_true, returns_bind, returns_pure,
        if_pos hpart, returns_blockRead hdev, returns_blockWrite hdev, hbounce]
      rfl
    | false =>
      simp only [hfull, and_false, Bool.false_eq_true, false_or, if_false, returns_bind,
        returns_malloc_eq]
      cases hmalloc : s.mallocs 0 with
      | true =>
        simp only [if_true, returns_bind, if_pos hpart, returns_blockRead hdev',
          returns_blockWrite hdev', hdisk, hbounce, FsState.patchDisk, Bool.false_or,
          decide_eq_true hfull, ne_eq]
      | false => simp only [Bool.false_eq_true, if_false, returns_pure]

theorem writeLoop_returns (hm : s.MallocsSucceed) (hfit : s.Fits data) (hsize : s.size ≤ wordSize)
    (hrounds : buffer.length ≤ rounds) (offset : ℕ) (bounce : Bool) (written : ℕ) :
    Returns (writeLoop data rounds buffer offset bounce written) s fun n t =>
      n = written + clip data buffer.length offset ∧
        t = s.patchDisk (512 * data.start + offset)
          (buffer.take (clip data buffer.length offset)) := by
  induction rounds generalizing s buffer offset bounce written with
  | zero =>
    obtain rfl : buffer = [] := length_eq_zero_iff.mp (by omega)
    simp [writeLoop, clip, FsState.patchDisk]
  | succ rounds ih =>
    by_cases h0 : chunkSize data buffer.length offset = 0
    · rw [writeLoop, clip_eq_zero data h0]
      simp [h0, FsState.patchDisk]
    · rw [writeLoop_round hfit hsize rfl h0, if_pos (.inr (.inr (hm 0))), hm.spend_eq, ite_self]
      have hle : chunkSize data buffer.length offset ≤ buffer.length :=
        (chunkSize_le data buffer.length offset).trans (Nat.min_le_left _ _)
      refine (ih (s := s.patchDisk _ _) hm hfit hsize (by rw [length_drop]; omega)
        _ _ _).mono ?_
      rintro n t ⟨rfl, rfl⟩
      refine ⟨?_, ?_⟩
      · rw [clip_step data buffer.length offset, length_drop, Nat.add_assoc]
      · rw [clip_step data buffer.length offset, length_drop, take_add]
        simp only [FsState.patchDisk, ← patch_append, length_take, Nat.min_eq_left hle,
          Nat.add_assoc]

/-- **A write** of `inode_write_at`, unless writes are denied, changes the bytes of the file
from the offset on, clipped at its length, and nothing else. -/
theorem inodeWriteAt_returns (hm : s.MallocsSucceed) (ha : s.inodes a = some ino)
    (hdeny : ino.denyWriteCnt = 0) (hfit : s.Fits ino.data) (hsize : s.size ≤ wordSize)
    (buffer : Bytes) (offset : ℕ) (Q : ℕ → FsState → Prop) :
    Returns (inodeWriteAt a buffer offset) s Q ↔
      Q (clip ino.data buffer.length offset)
        (s.patchDisk (512 * ino.data.start + offset)
          (buffer.take (clip ino.data buffer.length offset))) := by
  rw [inodeWriteAt, returns_bind, returns_inodeAt ha, if_neg (by simpa using hdeny)]
  have hloop := writeLoop_returns hm hfit hsize (le_refl buffer.length) offset false 0
  simp only [Nat.zero_add] at hloop
  exact returns_iff_of_run hloop.run_eq Q

end

end OsMaterial
