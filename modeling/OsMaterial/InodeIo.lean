import OsMaterial.Inode

/-!
# Byte-Accurate File Transfers

`inode_read_at` and `inode_write_at` with the types of the source: `off_t` and `int` have 32 bits
and a sign, and a result that does not fit is a panic. Bytes of the caller's buffer that are not
delivered stay as they were. The test for the direct path may be any that is false for partial
chunks (`DirectPath`).

* `inode_io_exact`: **byte-accurate file I/O**.
-/

namespace OsMaterial

open List

variable {offset size a : ℕ} {buffer : Bytes} {ino : Inode}

/-! ### The functions -/

def checkInt (n : ℤ) : Fs Unit := assert (-2 ^ 31 ≤ n ∧ n < 2 ^ 31) .overflow

def checkSector (n : ℤ) : Fs Unit := assert (0 ≤ n ∧ n < 2 ^ 32) .overflow

def sectorOf (data : InodeDisk) (pos : ℤ) : Fs ℕ :=
  if pos < data.length then do
    checkSector (data.start + pos.tdiv 512)
    return (data.start + pos.tdiv 512).toNat
  else
    return wordSize - 1

structure TransferRound where
  sectorIdx : ℕ
  sectorOfs : ℤ
  sectorLeft : ℤ
  chunkSize : ℤ

def transferRound (data : InodeDisk) (size offset : ℤ) : Fs TransferRound := do
  let sectorIdx ← sectorOf data offset
  let sectorOfs := offset.tmod 512
  let inodeLeft := data.length - offset
  checkInt inodeLeft
  let sectorLeft := 512 - sectorOfs
  checkInt sectorLeft
  let minLeft := if inodeLeft < sectorLeft then inodeLeft else sectorLeft
  return ⟨sectorIdx, sectorOfs, sectorLeft, if size < minLeft then size else minLeft⟩

def checkAdvance (size offset bytes chunkSize : ℤ) : Fs Unit := do
  checkInt (size - chunkSize)
  checkInt (offset + chunkSize)
  checkInt (bytes + chunkSize)

/-- A test of the chunks that are copied directly, by `sector_ofs` and `chunk_size`. -/
structure DirectPath where
  takes : ℤ → ℤ → Bool
  whole : ∀ sectorOfs chunkSize, takes sectorOfs chunkSize = true → sectorOfs = 0 ∧ chunkSize = 512

def sourcePath : DirectPath where
  takes := fun sectorOfs chunkSize => decide (sectorOfs = 0 ∧ chunkSize = 512)
  whole := fun _ _ htakes => of_decide_eq_true htakes

def getBounce (bounce : Bool) : Fs Bool := if bounce then pure true else malloc

def readChunk (path : DirectPath) (r : TransferRound) (bounce : Bool) (bytesRead : ℤ)
    (buffer : Bytes) : Fs (Option (Bool × Bytes)) := do
  if path.takes r.sectorOfs r.chunkSize then
    let bytes ← blockRead r.sectorIdx
    return some (bounce, overwrite buffer bytesRead.toNat bytes)
  else
    if ← getBounce bounce then
      let bytes ← blockRead r.sectorIdx
      return some (true, overwrite buffer bytesRead.toNat
        ((bytes.drop r.sectorOfs.toNat).take r.chunkSize.toNat))
    else
      return none

def readRounds (path : DirectPath) (data : InodeDisk) (size offset bytesRead : ℤ) (bounce : Bool)
    (buffer : Bytes) : Fs (ℤ × Bytes) :=
  if _hsize : 0 < size then do
    let r ← transferRound data size offset
    if _hchunk : r.chunkSize ≤ 0 then
      return (bytesRead, buffer)
    else
      match ← readChunk path r bounce bytesRead buffer with
      | none => return (bytesRead, buffer)
      | some (bounce, buffer) =>
        checkAdvance size offset bytesRead r.chunkSize
        readRounds path data (size - r.chunkSize) (offset + r.chunkSize)
          (bytesRead + r.chunkSize) bounce buffer
  else
    return (bytesRead, buffer)
termination_by size.toNat
decreasing_by omega

def readAt (path : DirectPath) (inode : ℕ) (buffer : Bytes) (size offset : ℤ) :
    Fs (ℤ × Bytes) := do
  let ino ← inodeAt inode
  readRounds path ino.data size offset 0 false buffer

def writeChunk (path : DirectPath) (r : TransferRound) (bounce : Bool) (bytesWritten : ℤ)
    (buffer : Bytes) : Fs (Option Bool) := do
  if path.takes r.sectorOfs r.chunkSize then
    blockWrite r.sectorIdx ((buffer.drop bytesWritten.toNat).take 512)
    return some bounce
  else
    if ← getBounce bounce then
      -- the sector is read unless the chunk covers all of it
      let bytes ← if 0 < r.sectorOfs ∨ r.chunkSize < r.sectorLeft then blockRead r.sectorIdx
        else pure (replicate 512 0)
      blockWrite r.sectorIdx (overwrite bytes r.sectorOfs.toNat
        ((buffer.drop bytesWritten.toNat).take r.chunkSize.toNat))
      return some true
    else
      return none

def writeRounds (path : DirectPath) (data : InodeDisk) (buffer : Bytes)
    (size offset bytesWritten : ℤ) (bounce : Bool) : Fs ℤ :=
  if _hsize : 0 < size then do
    let r ← transferRound data size offset
    if _hchunk : r.chunkSize ≤ 0 then
      return bytesWritten
    else
      match ← writeChunk path r bounce bytesWritten buffer with
      | none => return bytesWritten
      | some bounce =>
        checkAdvance size offset bytesWritten r.chunkSize
        writeRounds path data buffer (size - r.chunkSize) (offset + r.chunkSize)
          (bytesWritten + r.chunkSize) bounce
  else
    return bytesWritten
termination_by size.toNat
decreasing_by omega

def writeAt (path : DirectPath) (inode : ℕ) (buffer : Bytes) (size offset : ℤ) : Fs ℤ := do
  let ino ← inodeAt inode
  if ino.denyWriteCnt ≠ 0 then
    return 0
  else
    writeRounds path ino.data buffer size offset 0 false

/-! ### One round -/

section

variable {s : FsState} {data : InodeDisk} {path : DirectPath}

theorem returns_checkInt {n : ℤ} (hn : -2 ^ 31 ≤ n ∧ n < 2 ^ 31) (Q : Unit → FsState → Prop) :
    Returns (checkInt n) s Q ↔ Q () s := by
  rw [checkInt, returns_assert]
  exact and_iff_right hn

theorem returns_getBounce (hm : s.MallocsSucceed) (bounce : Bool) (Q : Bool → FsState → Prop) :
    Returns (getBounce bounce) s Q ↔ Q true s := by
  cases bounce with
  | true => rw [getBounce, if_pos rfl, returns_pure]
  | false => rw [getBounce, if_neg Bool.false_ne_true, returns_malloc hm]

structure ValidLength (data : InodeDisk) : Prop where
  nonneg : 0 ≤ data.length
  lt : data.length < 2 ^ 31

def expectedRound (data : InodeDisk) (size offset : ℕ) : TransferRound where
  sectorIdx := if (offset : ℤ) < data.length then data.start + offset / 512 else wordSize - 1
  sectorOfs := (offset % 512 : ℕ)
  sectorLeft := (512 - offset % 512 : ℕ)
  chunkSize :=
    if data.length ≤ offset then data.length - offset else chunkSize data size offset

theorem chunkSize_cast (h0 : 0 ≤ data.length) (hsize : 0 < size) {left : ℤ}
    (hleft : left = if data.length - offset < 512 - (offset % 512 : ℕ) then data.length - offset
      else 512 - (offset % 512 : ℕ)) :
    (if (size : ℤ) < left then (size : ℤ) else left) =
      if data.length ≤ offset then data.length - offset else chunkSize data size offset := by
  simp only [chunkSize]
  split_ifs at * <;> omega

theorem transferRound_returns (hv : ValidLength data) (hfit : s.Fits data)
    (hdev : s.size ≤ wordSize) (hsize : 0 < size) (ho : offset < 2 ^ 31)
    (Q : TransferRound → FsState → Prop) :
    Returns (transferRound data size offset) s Q ↔ Q (expectedRound data size offset) s := by
  obtain ⟨h0, hL⟩ := hv
  have htdiv : (offset : ℤ).tdiv 512 = (offset / 512 : ℕ) := rfl
  have htmod : (offset : ℤ).tmod 512 = (offset % 512 : ℕ) := rfl
  have hsector : ∀ R : ℕ → FsState → Prop, Returns (sectorOf data offset) s R ↔
      R (if (offset : ℤ) < data.length then data.start + offset / 512 else wordSize - 1) s := by
    intro R
    by_cases hlt : (offset : ℤ) < data.length
    · have hin := hfit offset (by omega)
      have hword : wordSize = 2 ^ 32 := rfl
      rw [sectorOf, if_pos hlt, if_pos hlt, htdiv, returns_bind, checkSector, returns_assert,
        returns_pure, and_iff_right ⟨by omega, by omega⟩]
      rfl
    · rw [sectorOf, if_neg hlt, if_neg hlt, returns_pure]
  rw [transferRound]
  simp only [returns_bind, hsector, htmod, returns_pure]
  rw [returns_checkInt ⟨by omega, by omega⟩, returns_checkInt ⟨by omega, by omega⟩]
  rw [chunkSize_cast h0 hsize rfl]
  have hleft : 512 - ((offset % 512 : ℕ) : ℤ) = (512 - offset % 512 : ℕ) := by omega
  rw [hleft]
  rfl

theorem expectedRound_eq (h0 : chunkSize data size offset ≠ 0) :
    expectedRound data size offset = ⟨data.start + offset / 512, (offset % 512 : ℕ),
      (512 - offset % 512 : ℕ), chunkSize data size offset⟩ := by
  have hle := chunkSize_le data size offset
  have hlt : offset < data.length.toNat := by
    simp only [clip] at hle
    omega
  rw [expectedRound, if_pos (by omega), if_neg (by omega)]

theorem expectedRound_chunkSize_le (h0 : chunkSize data size offset = 0) :
    (expectedRound data size offset).chunkSize ≤ 0 := by
  simp only [expectedRound]
  split <;> omega

theorem checkAdvance_returns {bytes chunk : ℕ} (hc : chunk ≤ size) (ho : offset + chunk < 2 ^ 31)
    (hb : bytes + size < 2 ^ 31) (Q : Unit → FsState → Prop) :
    Returns (checkAdvance size offset bytes chunk) s Q ↔ Q () s := by
  rw [checkAdvance, returns_bind, returns_checkInt ⟨by omega, by omega⟩, returns_bind,
    returns_checkInt ⟨by omega, by omega⟩, returns_checkInt ⟨by omega, by omega⟩]

theorem readChunk_returns (hm : s.MallocsSucceed) (hfit : s.Fits data)
    (h0 : chunkSize data size offset ≠ 0) (bounce : Bool) (bytesRead : ℕ) (buffer : Bytes) :
    Returns (readChunk path ⟨data.start + offset / 512, (offset % 512 : ℕ),
      (512 - offset % 512 : ℕ), chunkSize data size offset⟩ bounce bytesRead buffer) s fun r t =>
      ∃ bounce', r = some (bounce', overwrite buffer bytesRead
        (slice s.disk (512 * data.start + offset) (chunkSize data size offset))) ∧ t = s := by
  have hle := chunkSize_le data size offset
  have hdev := hfit offset (by
    simp only [clip] at hle
    omega)
  have hcopy := sectorBytes_drop_take data s.disk data.start size offset
  rw [readChunk]
  by_cases htakes : path.takes (offset % 512 : ℕ) (chunkSize data size offset) = true
  · obtain ⟨hofs, hwhole⟩ := path.whole _ _ htakes
    have hofs' : offset % 512 = 0 := by omega
    have hwhole' : chunkSize data size offset = 512 := by omega
    rw [hofs', hwhole', drop_zero, take_of_length_le (by simp [sectorBytes])] at hcopy
    rw [if_pos htakes, returns_bind, returns_blockRead hdev, returns_pure]
    exact ⟨bounce, by rw [hcopy, hwhole', Int.toNat_natCast], rfl⟩
  · rw [if_neg htakes, returns_bind, returns_getBounce hm, if_pos rfl, returns_bind,
      returns_blockRead hdev, returns_pure]
    refine ⟨true, ?_, rfl⟩
    simp only [Int.toNat_natCast, hcopy]

theorem writeChunk_returns (hm : s.MallocsSucceed) (hfit : s.Fits data)
    (h0 : chunkSize data size offset ≠ 0) (bounce : Bool) (bytesWritten : ℕ)
    (hbuf : bytesWritten + size ≤ buffer.length) :
    Returns (writeChunk path ⟨data.start + offset / 512, (offset % 512 : ℕ),
      (512 - offset % 512 : ℕ), chunkSize data size offset⟩ bounce bytesWritten buffer) s fun r t =>
      (∃ bounce', r = some bounce') ∧ t = s.patchDisk (512 * data.start + offset)
        ((buffer.drop bytesWritten).take (chunkSize data size offset)) := by
  have hle := chunkSize_le data size offset
  have hdev := hfit offset (by
    simp only [clip] at hle
    omega)
  have hlen : ((buffer.drop bytesWritten).take (chunkSize data size offset)).length =
      chunkSize data size offset := by
    simp only [clip] at hle
    rw [length_take, length_drop]
    omega
  have hbounce := patch_bounce data s.disk data.start size offset _ hlen
  rw [writeChunk]
  by_cases htakes : path.takes (offset % 512 : ℕ) (chunkSize data size offset) = true
  · obtain ⟨hofs, hwhole⟩ := path.whole _ _ htakes
    have hplace : 512 * (data.start + offset / 512) = 512 * data.start + offset := by omega
    have hwhole' : chunkSize data size offset = 512 := by omega
    rw [if_pos htakes, returns_bind, returns_blockWrite hdev, returns_pure]
    exact ⟨⟨bounce, rfl⟩, by rw [hplace, hwhole', Int.toNat_natCast, FsState.patchDisk]⟩
  · rw [if_neg htakes, returns_bind, returns_getBounce hm, if_pos rfl]
    by_cases hpart : 0 < ((offset % 512 : ℕ) : ℤ) ∨
        ((chunkSize data size offset : ℕ) : ℤ) < (512 - offset % 512 : ℕ)
    · simp only [if_pos hpart, returns_blockRead hdev, returns_bind, returns_blockWrite hdev,
        returns_pure, Int.toNat_natCast, hbounce]
      exact ⟨⟨true, rfl⟩, rfl⟩
    · -- the chunk covers the sector, and the zeros are overwritten
      have hsector := chunkSize_le_sector data size offset
      have hwhole' : chunkSize data size offset = 512 := by omega
      have hplace : 512 * (data.start + offset / 512) = 512 * data.start + offset := by omega
      have hofs : offset % 512 = 0 := by omega
      have hover : overwrite (replicate 512 0) 0
          ((buffer.drop bytesWritten).take (chunkSize data size offset)) =
          (buffer.drop bytesWritten).take (chunkSize data size offset) :=
        overwrite_all (by rw [hlen, hwhole', length_replicate])
      simp only [if_neg hpart, returns_bind, returns_pure, returns_blockWrite hdev]
      refine ⟨⟨true, rfl⟩, ?_⟩
      simp only [Int.toNat_natCast, hofs, hplace, hover, FsState.patchDisk]

/-! ### The loops -/

theorem ValidLength.chunk_lt (hv : ValidLength data) (ho : offset < 2 ^ 31) :
    offset + chunkSize data size offset < 2 ^ 31 := by
  have hle := chunkSize_le data size offset
  have := hv.lt
  simp only [clip] at hle
  omega

/-- **The loop of `inode_read_at`** delivers what is left of the transfer. -/
theorem readRounds_returns (path : DirectPath) (bytesRead : ℕ) (hm : s.MallocsSucceed)
    (hv : ValidLength data) (hfit : s.Fits data) (hdev : s.size ≤ wordSize) (ho : offset < 2 ^ 31)
    (hs : bytesRead + size < 2 ^ 31) (bounce : Bool) (hbuf : bytesRead + size ≤ buffer.length) :
    Returns (readRounds path data size offset bytesRead bounce buffer) s fun r t =>
      r.1 = (bytesRead + clip data size offset : ℕ) ∧
        r.2 = overwrite buffer bytesRead
          (slice s.disk (512 * data.start + offset) (clip data size offset)) ∧ t = s := by
  induction size using Nat.strongRecOn generalizing offset bytesRead bounce buffer with
  | ind size ih =>
    rw [readRounds]
    by_cases hpos : 0 < size
    · rw [dif_pos (by omega), returns_bind, transferRound_returns hv hfit hdev hpos ho]
      by_cases h0 : chunkSize data size offset = 0
      · rw [dif_pos (expectedRound_chunkSize_le h0), returns_pure, clip_eq_zero data h0,
          slice_zero, overwrite_nil]
        exact ⟨rfl, rfl, rfl⟩
      · have hle := chunkSize_le data size offset
        have hclip : clip data size offset ≤ size := Nat.min_le_left _ _
        have hchunk : ¬ ((chunkSize data size offset : ℕ) : ℤ) ≤ 0 := by omega
        rw [expectedRound_eq h0, dif_neg hchunk, returns_bind]
        refine (readChunk_returns hm hfit h0 bounce bytesRead buffer).mono ?_
        rintro _ t ⟨bounce', rfl, rfl⟩
        simp only [returns_bind]
        rw [checkAdvance_returns (by omega) (hv.chunk_lt ho) hs]
        have hsize' : (size : ℤ) - chunkSize data size offset =
            (size - chunkSize data size offset : ℕ) := by omega
        have hlen : (overwrite buffer bytesRead (slice t.disk (512 * data.start + offset)
            (chunkSize data size offset))).length = buffer.length :=
          length_overwrite (by rw [length_slice]; omega)
        rw [hsize', ← Nat.cast_add, ← Nat.cast_add]
        refine (ih _ (by omega) _ (hv.chunk_lt ho) (by omega) bounce' (by omega)).mono ?_
        rintro _ _ ⟨hcnt, hbytes, ht⟩
        refine ⟨?_, ?_, ht⟩
        · rw [hcnt, clip_step data size offset, Nat.add_assoc]
        · have hstep := clip_step data size offset
          rw [hbytes, slice_clip data t.disk size offset, ← overwrite_overwrite, length_slice]
          rw [length_slice, length_slice]
          omega
    · obtain rfl : size = 0 := by omega
      have hzero : clip data 0 offset = 0 := Nat.zero_min _
      rw [dif_neg (by omega), returns_pure, hzero, slice_zero, overwrite_nil]
      exact ⟨rfl, rfl, rfl⟩

/-- **The loop of `inode_write_at`** writes what is left of the transfer. -/
theorem writeRounds_returns (path : DirectPath) (bytesWritten : ℕ) (hm : s.MallocsSucceed)
    (hv : ValidLength data) (hfit : s.Fits data) (hdev : s.size ≤ wordSize) (ho : offset < 2 ^ 31)
    (hs : bytesWritten + size < 2 ^ 31) (bounce : Bool)
    (hbuf : bytesWritten + size ≤ buffer.length) :
    Returns (writeRounds path data buffer size offset bytesWritten bounce) s fun n t =>
      n = (bytesWritten + clip data size offset : ℕ) ∧
        t = s.patchDisk (512 * data.start + offset)
          ((buffer.drop bytesWritten).take (clip data size offset)) := by
  induction size using Nat.strongRecOn generalizing s offset bytesWritten bounce with
  | ind size ih =>
    rw [writeRounds]
    by_cases hpos : 0 < size
    · rw [dif_pos (by omega), returns_bind, transferRound_returns hv hfit hdev hpos ho]
      by_cases h0 : chunkSize data size offset = 0
      · rw [dif_pos (expectedRound_chunkSize_le h0), returns_pure, clip_eq_zero data h0,
          take_zero, FsState.patchDisk, patch_nil]
        exact ⟨rfl, rfl⟩
      · have hle := chunkSize_le data size offset
        have hclip : clip data size offset ≤ size := Nat.min_le_left _ _
        have hchunk : ¬ ((chunkSize data size offset : ℕ) : ℤ) ≤ 0 := by omega
        rw [expectedRound_eq h0, dif_neg hchunk, returns_bind]
        refine (writeChunk_returns hm hfit h0 bounce bytesWritten hbuf).mono ?_
        rintro _ _ ⟨⟨bounce', rfl⟩, rfl⟩
        simp only [returns_bind]
        rw [checkAdvance_returns (by omega) (hv.chunk_lt ho) hs]
        have hsize' : (size : ℤ) - chunkSize data size offset =
            (size - chunkSize data size offset : ℕ) := by omega
        rw [hsize', ← Nat.cast_add, ← Nat.cast_add]
        refine (ih _ (by omega) (s := s.patchDisk _ _) _ hm hfit hdev (hv.chunk_lt ho) (by omega)
          bounce' (by omega)).mono ?_
        rintro _ _ ⟨rfl, rfl⟩
        have hlen : ((buffer.drop bytesWritten).take (chunkSize data size offset)).length =
            chunkSize data size offset := by
          rw [length_take, length_drop]
          omega
        refine ⟨?_, ?_⟩
        · rw [clip_step data size offset, Nat.add_assoc]
        · rw [clip_step data size offset, take_add, drop_drop, FsState.patchDisk,
            FsState.patchDisk, FsState.patchDisk, ← patch_append, hlen, Nat.add_assoc]
    · obtain rfl : size = 0 := by omega
      have hzero : clip data 0 offset = 0 := Nat.zero_min _
      rw [dif_neg (by omega), returns_pure, hzero, take_zero, FsState.patchDisk, patch_nil]
      exact ⟨rfl, rfl⟩

/-! ### The transfers -/

theorem clip_cast (hv : ValidLength data) (size offset : ℕ) :
    ((clip data size offset : ℕ) : ℤ) = max 0 (min (size : ℤ) (data.length - offset)) := by
  have := hv.nonneg
  rw [clip]
  omega

section

variable (path : DirectPath) (hm : s.MallocsSucceed) (ha : s.inodes a = some ino)
  (hv : ValidLength ino.data) (hfit : s.Fits ino.data) (hdev : s.size ≤ wordSize)
  (ho : offset < 2 ^ 31)

include hm ha hv hfit hdev ho

theorem readAt_returns (hs : size < 2 ^ 31) (hbuf : size ≤ buffer.length) :
    Returns (readAt path a buffer size offset) s fun r t =>
      r.1 = (clip ino.data size offset : ℕ) ∧
        r.2 = overwrite buffer 0
          (slice s.disk (512 * ino.data.start + offset) (clip ino.data size offset)) ∧ t = s := by
  rw [readAt, returns_bind, returns_inodeAt ha]
  have hloop := readRounds_returns path 0 hm hv hfit hdev ho (by omega) false
    (by omega : 0 + size ≤ buffer.length)
  rw [Nat.zero_add] at hloop
  exact hloop

theorem writeAt_returns (hdeny : ino.denyWriteCnt = 0) (hs : size < 2 ^ 31)
    (hbuf : size ≤ buffer.length) :
    Returns (writeAt path a buffer size offset) s fun n t =>
      n = (clip ino.data size offset : ℕ) ∧
        t = s.patchDisk (512 * ino.data.start + offset)
          (buffer.take (clip ino.data size offset)) := by
  rw [writeAt, returns_bind, returns_inodeAt ha, if_neg (not_not.mpr hdeny)]
  have hloop := writeRounds_returns path 0 hm hv hfit hdev ho (by omega) false
    (by omega : 0 + size ≤ buffer.length)
  rw [Nat.zero_add, drop_zero] at hloop
  exact hloop

theorem readAt_refines (hs : size < 2 ^ 31) (hbuf : size ≤ buffer.length) :
    Returns (readAt path a buffer size offset) s fun r t =>
      Returns (inodeReadAt a size offset) s fun bytes u =>
        r = ((bytes.length : ℤ), overwrite buffer 0 bytes) ∧ t = u := by
  refine (readAt_returns path hm ha hv hfit hdev ho hs hbuf).mono fun r t hr => ?_
  obtain ⟨hcnt, hbytes, rfl⟩ := hr
  rw [inodeReadAt_returns hm ha hfit hdev, length_slice]
  exact ⟨Prod.ext hcnt hbytes, rfl⟩

theorem writeAt_refines (hdeny : ino.denyWriteCnt = 0) (hs : buffer.length < 2 ^ 31) :
    Returns (writeAt path a buffer buffer.length offset) s fun n t =>
      Returns (inodeWriteAt a buffer offset) s fun m u => n = m ∧ t = u := by
  refine (writeAt_returns path hm ha hv hfit hdev ho hdeny hs le_rfl).mono fun n t hr => ?_
  rw [inodeWriteAt_returns hm ha hdeny hfit hdev]
  exact hr

end

/-- **Byte-accurate file I/O.** The bytes that are both requested and in the file are transferred,
and nothing else changes, whichever chunks are copied directly. -/
theorem inode_io_exact {a : ℕ} {ino : Inode} {size offset : ℤ} {buffer : Bytes} (path : DirectPath)
    (hm : s.MallocsSucceed) (ha : s.inodes a = some ino) (hv : ValidLength ino.data)
    (hfit : s.Fits ino.data) (hdev : s.size ≤ wordSize) (hsize : 0 ≤ size ∧ size < 2 ^ 31)
    (hoffset : 0 ≤ offset ∧ offset < 2 ^ 31) (hbuf : size ≤ buffer.length) :
    (Returns (readAt path a buffer size offset) s fun r t =>
      r.1 = max 0 (min size (ino.data.length - offset)) ∧ r.2.length = buffer.length ∧
        (∀ i : ℕ, r.2[i]? = if (i : ℤ) < r.1 then
          some (s.disk (512 * ino.data.start + offset.toNat + i)) else buffer[i]?) ∧ t = s) ∧
      (ino.denyWriteCnt = 0 → Returns (writeAt path a buffer size offset) s fun n t =>
        n = max 0 (min size (ino.data.length - offset)) ∧
          (∀ i : ℕ, (i : ℤ) < n →
            some (t.disk (512 * ino.data.start + offset.toNat + i)) = buffer[i]?) ∧
          (∀ p : ℕ, (∀ i : ℕ, (i : ℤ) < n → p ≠ 512 * ino.data.start + offset.toNat + i) →
            t.disk p = s.disk p) ∧
          t = { s with disk := t.disk }) := by
  obtain ⟨size, rfl⟩ := Int.eq_ofNat_of_zero_le hsize.1
  obtain ⟨offset, rfl⟩ := Int.eq_ofNat_of_zero_le hoffset.1
  have hs : size < 2 ^ 31 := by omega
  have ho : offset < 2 ^ 31 := by omega
  have hbuf' : size ≤ buffer.length := by omega
  have hclip : clip ino.data size offset ≤ size := Nat.min_le_left _ _
  rw [← clip_cast hv, Int.toNat_natCast]
  constructor
  · refine (readAt_returns path hm ha hv hfit hdev ho hs hbuf').mono fun r t hr => ?_
    obtain ⟨hcnt, hbytes, rfl⟩ := hr
    have hroom : 0 + (slice t.disk (512 * ino.data.start + offset)
        (clip ino.data size offset)).length ≤ buffer.length := by
      rw [length_slice]
      omega
    refine ⟨hcnt, by rw [hbytes, length_overwrite hroom], fun i => ?_, rfl⟩
    rw [hbytes, hcnt, getElem?_overwrite hroom, length_slice]
    by_cases hi : i < clip ino.data size offset
    · have hi' : i < (slice t.disk (512 * ino.data.start + offset)
          (clip ino.data size offset)).length := by rwa [length_slice]
      rw [if_pos (by omega), if_pos (by omega), Nat.sub_zero, getElem?_eq_getElem hi',
        getElem_slice]
    · rw [if_neg (by omega), if_neg (by omega)]
  · intro hdeny
    refine (writeAt_returns path hm ha hv hfit hdev ho hdeny hs hbuf').mono fun n t hr => ?_
    obtain ⟨rfl, rfl⟩ := hr
    have hlen : (buffer.take (clip ino.data size offset)).length = clip ino.data size offset := by
      rw [length_take]
      omega
    refine ⟨rfl, fun i hi => ?_, fun p hp => ?_, rfl⟩
    · have hplace : 512 * ino.data.start + offset + i - (512 * ino.data.start + offset) = i := by
        omega
      have hmem : 512 * ino.data.start + offset + i - (512 * ino.data.start + offset) <
          (buffer.take (clip ino.data size offset)).length := by omega
      have hdisk : (s.patchDisk (512 * ino.data.start + offset)
          (buffer.take (clip ino.data size offset))).disk (512 * ino.data.start + offset + i) =
          (buffer.take (clip ino.data size offset))[i] :=
        (patch_of_mem (by omega) hmem).trans (by simp only [hplace])
      rw [hdisk, getElem_take, ← getElem?_eq_getElem]
    · rcases Nat.lt_or_ge p (512 * ino.data.start + offset) with hlt | hge
      · exact patch_of_lt hlt
      · refine patch_of_ge ?_
        by_contra hin
        exact hp (p - (512 * ino.data.start + offset)) (by omega) (by omega)

def ioInode : Inode := ⟨1, 1, false, 0, ⟨2, 700, inodeMagic⟩⟩

def ioState : FsState where
  size := 4
  disk := fun _ => 0
  freeMap := ⟨0, fun _ => 0, by decide⟩
  freeMapFile := none
  inodes := fun a => if a = 0 then some ioInode else none
  openInodes := [0]
  nextInode := 1
  mallocs := fun _ => true

theorem ioState_fits : ioState.Fits ioInode.data := by
  intro pos hpos
  have hlt : pos < 700 := hpos
  have hfit : 2 + pos / 512 < 4 := by omega
  exact hfit

/-- 600 bytes from the middle of a file of 700. -/
theorem inode_io_exact_ioState :
    (Returns (readAt sourcePath 0 (replicate 600 1) 600 300) ioState fun r t =>
      r.1 = max 0 (min 600 (ioInode.data.length - 300)) ∧
        r.2.length = (replicate 600 (1 : UInt8)).length ∧
        (∀ i : ℕ, r.2[i]? = if (i : ℤ) < r.1 then
          some (ioState.disk (512 * ioInode.data.start + (300 : ℤ).toNat + i))
          else (replicate 600 1)[i]?) ∧ t = ioState) ∧
      (ioInode.denyWriteCnt = 0 →
        Returns (writeAt sourcePath 0 (replicate 600 1) 600 300) ioState fun n t =>
          n = max 0 (min 600 (ioInode.data.length - 300)) ∧
            (∀ i : ℕ, (i : ℤ) < n →
              some (t.disk (512 * ioInode.data.start + (300 : ℤ).toNat + i)) =
                (replicate 600 1)[i]?) ∧
            (∀ p : ℕ, (∀ i : ℕ, (i : ℤ) < n →
              p ≠ 512 * ioInode.data.start + (300 : ℤ).toNat + i) →
              t.disk p = ioState.disk p) ∧
            t = { ioState with disk := t.disk }) :=
  inode_io_exact sourcePath (fun _ => rfl) rfl ⟨by decide, by decide⟩ ioState_fits (by decide)
    (by decide) (by decide) (by rw [length_replicate]; decide)

end

end OsMaterial
