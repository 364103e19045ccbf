import OsMaterial.FreeMap

/-!
# Allocations that Fail

`free_map_allocate` without memory for the bounce buffer of `inode_write_at`: the whole sectors of
the free map have been written with the new bits, which are taken back in memory only.

* `failed_allocation_iff`: **when a failed allocation leaves no trace.**
-/

namespace OsMaterial

open List

variable {b map b' : Bitmap} {k cnt size ofs i n rounds : ℕ} {bytes buffer : Bytes}

def freeMapAllocateAt (cnt sectorp : ℕ) : Fs (Bool × ℕ) := do
  match ← freeMapAllocate cnt with
  | some sector => return (true, sector)
  | none => return (false, sectorp)

/-! ### Writes of a whole file -/

/-- The bytes that a write of a whole file of `size` bytes puts there: all of them if there is no
part of a sector at the end, or memory for the bounce buffer. -/
def FsState.transferred (s : FsState) (size : ℕ) : ℕ :=
  if size % 512 = 0 ∨ s.mallocs 0 = true then size else 512 * (size / 512)

def FsState.bounced (s : FsState) (size : ℕ) : FsState := if size % 512 = 0 then s else s.spend

section

variable {s : FsState} {data : InodeDisk} {start : ℕ} {file : File} {ino : Inode}

theorem FsState.transferred_eq_iff (s : FsState) (size : ℕ) :
    s.transferred size = size ↔ size % 512 = 0 ∨ s.mallocs 0 = true := by
  rw [transferred]
  split
  · rename_i h
    exact iff_of_true rfl h
  · rename_i h
    refine iff_of_false (fun heq => h (.inl ?_)) h
    omega

theorem FsState.transferred_step (h : 512 ≤ size) :
    s.transferred size = 512 + (s.patchDisk ofs bytes).transferred (size - 512) := by
  have hmod : (size - 512) % 512 = size % 512 := by omega
  have hmallocs : (s.patchDisk ofs bytes).mallocs 0 = s.mallocs 0 := rfl
  rw [transferred, transferred, hmod, hmallocs]
  split
  · omega
  · omega

theorem FsState.bounced_step (h : 512 ≤ size) :
    (s.patchDisk ofs bytes).bounced (size - 512) = (s.bounced size).patchDisk ofs bytes := by
  have hmod : (size - 512) % 512 = size % 512 := by omega
  rw [bounced, bounced, hmod]
  split <;> rfl

theorem FsState.patchDisk_append (s : FsState) (ofs : ℕ) (bytes more : Bytes) :
    (s.patchDisk ofs bytes).patchDisk (ofs + bytes.length) more =
      s.patchDisk ofs (bytes ++ more) := by
  simp only [patchDisk, patch_append]

theorem chunkSize_whole (hlen : 512 * i + size = data.length.toNat) :
    chunkSize data size (512 * i) = min size 512 := by
  simp only [chunkSize, ← hlen, Nat.mul_mod_right, Nat.add_sub_cancel_left]
  split_ifs <;> omega

theorem writeLoop_last (hfit : s.Fits data) (hsize : s.size ≤ wordSize) (hpos : 0 < buffer.length)
    (hpart : buffer.length < 512) (hlen : 512 * i + buffer.length = data.length.toNat)
    (written : ℕ) :
    Returns (writeLoop data (rounds + 1) buffer (512 * i) false written) s fun n t =>
      n = written + s.transferred buffer.length ∧
        t = (s.bounced buffer.length).patchDisk (512 * data.start + 512 * i)
          (buffer.take (s.transferred buffer.length)) := by
  have hchunk : chunkSize data buffer.length (512 * i) = buffer.length := by
    rw [chunkSize_whole hlen]
    omega
  have hmod : buffer.length % 512 ≠ 0 := by omega
  have hnone : 512 * (buffer.length / 512) = 0 := by omega
  rw [writeLoop_round hfit hsize hchunk hpos.ne']
  simp only [drop_length, take_length, writeLoop_nil, returns_pure, hpart.ne, Bool.false_eq_true,
    false_or, or_self, if_false, FsState.transferred, FsState.bounced, hmod]
  split
  · exact ⟨rfl, by rw [take_length]⟩
  · rw [hnone, take_zero, FsState.patchDisk, patch_nil]
    exact ⟨rfl, rfl⟩

/-- **A write of what is left of a file**, from the start of a sector on. -/
theorem writeLoop_whole (hfit : s.Fits data) (hsize : s.size ≤ wordSize)
    (hrounds : buffer.length ≤ rounds) (hlen : 512 * i + buffer.length = data.length.toNat)
    (written : ℕ) :
    Returns (writeLoop data rounds buffer (512 * i) false written) s fun n t =>
      n = written + s.transferred buffer.length ∧
        t = (s.bounced buffer.length).patchDisk (512 * data.start + 512 * i)
          (buffer.take (s.transferred buffer.length)) := by
  induction rounds generalizing s buffer i written with
  | zero =>
    obtain rfl : buffer = [] := length_eq_zero_iff.mp (by omega)
    simp [writeLoop, FsState.transferred, FsState.bounced, FsState.patchDisk]
  | succ rounds ih =>
    by_cases hzero : buffer.length = 0
    · obtain rfl := length_eq_zero_iff.mp hzero
      rw [writeLoop_nil, returns_pure]
      simp [FsState.transferred, FsState.bounced, FsState.patchDisk]
    · by_cases hpart : buffer.length < 512
      · exact writeLoop_last hfit hsize (Nat.pos_of_ne_zero hzero) hpart hlen written
      · have hchunk : chunkSize data buffer.length (512 * i) = 512 := by
          rw [chunkSize_whole hlen]
          omega
        have hdrop : (buffer.drop 512).length = buffer.length - 512 := length_drop
        have hnext : 512 * (i + 1) + (buffer.drop 512).length = data.length.toNat := by omega
        rw [writeLoop_round hfit hsize hchunk (by decide), if_pos (.inr (.inl rfl)),
          if_pos (.inr rfl)]
        refine (ih (s := s.patchDisk (512 * data.start + 512 * i) (buffer.take 512)) hfit hsize
          (by omega) hnext (written + 512)).mono ?_
        rintro n t ⟨rfl, rfl⟩
        rw [hdrop, FsState.transferred_step (Nat.le_of_not_lt hpart), FsState.bounced_step
          (Nat.le_of_not_lt hpart), Nat.add_assoc, take_add]
        refine ⟨rfl, ?_⟩
        have hchunklen : (buffer.take 512).length = 512 := by
          rw [length_take]
          omega
        have hofs : 512 * data.start + 512 * (i + 1) =
            512 * data.start + 512 * i + (buffer.take 512).length := by omega
        rw [hofs, FsState.patchDisk_append]

theorem bitmapWrite_any (hf : s.MapFile start file ino) (hb : b.bitCnt = s.freeMap.bitCnt)
    (Q : Bool → FsState → Prop) :
    Returns (bitmapWrite b file) s Q ↔
      Q (decide (byteCnt b.bitCnt % 512 = 0 ∨ s.mallocs 0 = true))
        ((s.bounced (byteCnt b.bitCnt)).patchDisk (512 * start)
          (b.bytes.take (s.transferred (byteCnt b.bitCnt)))) := by
  have hlen : 512 * 0 + b.bytes.length = ino.data.length.toNat := by
    rw [hf.length_eq, b.length_bytes, hb]
    simp
  have hloop := writeLoop_whole hf.fits hf.size_le le_rfl hlen 0
  rw [hf.start_eq, b.length_bytes, Nat.zero_add, Nat.mul_zero, Nat.add_zero] at hloop
  rw [bitmapWrite, returns_bind, fileWriteAt, inodeWriteAt, returns_bind,
    returns_inodeAt hf.inode_eq, if_neg (not_not.mpr hf.writable), b.length_bytes,
    returns_iff_of_run hloop.run_eq, returns_pure, decide_eq_decide.mpr (s.transferred_eq_iff _)]

/-! ### Bitmaps with the same bits -/

theorem Bitmap.eq_of_bit_eq (hcnt : b'.bitCnt = b.bitCnt) (hbits : ∀ j, b'.bit j = b.bit j) :
    b' = b := by
  have hwords : b'.bits = b.bits := by
    funext w
    refine BitVec.eq_of_getLsbD_eq fun k hk => ?_
    have hbit := hbits (32 * w + k)
    have hdiv : (32 * w + k) / 32 = w := by omega
    have hmod : (32 * w + k) % 32 = k := by omega
    rwa [bit, bit, bitOf, bitOf, hdiv, hmod] at hbit
  cases b
  cases b'
  subst hcnt
  subst hwords
  rfl

theorem Bitmap.IsSet.unique {map' : Bitmap} {v : Bool} (h : b.IsSet k cnt v map)
    (h' : b.IsSet k cnt v map') : map = map' :=
  eq_of_bit_eq (h.bitCnt_eq.trans h'.bitCnt_eq.symm) fun j => by rw [h.bit_eq, h'.bit_eq]

theorem Bitmap.IsSet.undo (hrun : b.Run k cnt false) (hset : b.IsSet k cnt true map)
    (hundo : map.IsSet k cnt false b') : b' = b := by
  refine eq_of_bit_eq (hundo.bitCnt_eq.trans hset.bitCnt_eq) fun j => ?_
  rw [hundo.bit_eq, hset.bit_eq]
  split
  · rename_i hj
    have hbit := hrun.2 (j - k) (by omega)
    rw [Nat.add_sub_cancel' hj.1] at hbit
    exact hbit.symm
  · rfl

theorem take_bytesOfWords (words : List (BitVec 32)) (n : ℕ) :
    (bytesOfWords words).take (4 * n) = bytesOfWords (words.take n) := by
  induction n generalizing words with
  | zero => rfl
  | succ n ih =>
    cases words with
    | nil => rfl
    | cons w words =>
      have hfour : 4 * (n + 1) = (toLe 4 w.toNat).length + 4 * n := by
        rw [length_toLe]
        ring
      rw [bytesOfWords_cons, hfour, take_length_add_append, ih, take_succ_cons, bytesOfWords_cons]

theorem Bitmap.take_bytes (b : Bitmap) (hn : n ≤ elemCnt b.bitCnt) :
    b.bytes.take (4 * n) = bytesOfWords ((range n).map b.bits) := by
  rw [bytes, take_bytesOfWords, ← map_take, take_range, Nat.min_eq_left hn]

theorem Bitmap.take_bytes_eq_iff (hcnt : b'.bitCnt = b.bitCnt) (hn : n ≤ elemCnt b.bitCnt) :
    b'.bytes.take (4 * n) = b.bytes.take (4 * n) ↔ ∀ j < 32 * n, b'.bit j = b.bit j := by
  rw [b.take_bytes hn, b'.take_bytes (by rwa [hcnt])]
  constructor
  · intro heq j hj
    have hwords := congrArg wordsOfBytes heq
    rw [wordsOfBytes_bytesOfWords, wordsOfBytes_bytesOfWords, map_inj_left] at hwords
    rw [bit, bit, bitOf, bitOf, hwords (j / 32) (mem_range.mpr (by omega))]
  · intro hbits
    refine congrArg bytesOfWords (map_congr_left fun w hw => ?_)
    have hw := mem_range.mp hw
    refine BitVec.eq_of_getLsbD_eq fun k hk => ?_
    have hbit := hbits (32 * w + k) (by omega)
    have hdiv : (32 * w + k) / 32 = w := by omega
    have hmod : (32 * w + k) % 32 = k := by omega
    rwa [bit, bit, bitOf, bitOf, hdiv, hmod] at hbit

theorem Bitmap.IsSet.same_below_iff {m : ℕ} (hrun : b.Run k cnt false)
    (hset : b.IsSet k cnt true map) : (∀ j < m, map.bit j = b.bit j) ↔ cnt = 0 ∨ m ≤ k := by
  constructor
  · intro hsame
    by_contra hnot
    rw [not_or, Nat.not_le] at hnot
    have hbit := hsame k hnot.2
    have hfree := hrun.2 0 (Nat.pos_of_ne_zero hnot.1)
    rw [hset.bit_eq, if_pos ⟨le_rfl, by omega⟩, ← Nat.add_zero k, hfree] at hbit
    cases hbit
  · intro hout j hj
    rw [hset.bit_eq, if_neg (by omega)]

/-! ### Failed allocations -/

theorem freeMapAllocate_any (hf : s.MapFile start file ino) (cnt : ℕ) :
    Returns (freeMapAllocate cnt) s fun r t =>
      ((∀ k, ¬ s.freeMap.Run k cnt false) ∧ r = none ∧ t = s) ∨
      ∃ k map, s.freeMap.FirstRun k cnt false ∧ s.freeMap.IsSet k cnt true map ∧
        if byteCnt s.freeMap.bitCnt % 512 = 0 ∨ s.mallocs 0 = true then r = some k
        else r = none ∧ t = s.spend.patchDisk (512 * start)
          (map.bytes.take (512 * (byteCnt s.freeMap.bitCnt / 512))) := by
  rw [freeMapAllocate]
  simp only [returns_bind, returns_get]
  obtain ⟨k, map, hflip, hfirst, hset⟩ | ⟨hflip, hnone⟩ := bitmapScanAndFlip_eq s.freeMap cnt false
  · have hmallocs : (s.setFreeMap map).mallocs 0 = s.mallocs 0 := rfl
    simp only [hflip, returns_liftM_ok, returns_set, returns_bind, hf.file_eq]
    rw [bitmapWrite_any (s := s.setFreeMap map) (b := map) (hf.setFreeMap hset.bitCnt_eq) rfl,
      hset.bitCnt_eq, hmallocs]
    by_cases hwritten : byteCnt s.freeMap.bitCnt % 512 = 0 ∨ s.mallocs 0 = true
    · rw [decide_eq_true hwritten, if_pos rfl, returns_pure]
      refine .inr ⟨k, map, hfirst, hset, ?_⟩
      rw [if_pos hwritten]
    · have hrange : k + cnt ≤ map.bitCnt := by
        rw [hset.bitCnt_eq]
        exact hfirst.1.1
      obtain ⟨b', hundo, hb'⟩ := bitmapSetMultiple_eq hrange false
      obtain rfl := hset.undo hfirst.1 hb'
      rw [decide_eq_false hwritten, if_neg Bool.false_ne_true]
      simp only [returns_bind, hundo, returns_liftM_ok, returns_modify, returns_pure]
      refine .inr ⟨k, map, hfirst, hset, ?_⟩
      rw [if_neg hwritten, FsState.bounced, if_neg (not_or.mp hwritten).1, FsState.transferred,
        hmallocs, if_neg hwritten]
      exact ⟨trivial, rfl⟩
  · simp only [hflip, returns_liftM_ok, returns_set, returns_pure]
    exact .inl ⟨hnone, trivial, rfl⟩

def FsState.mapBytes (s : FsState) (start : ℕ) : Bytes :=
  slice s.disk (512 * start) (byteCnt s.freeMap.bitCnt)

theorem slice_patch_eq_iff {image : ℕ → UInt8} (h : bytes.length ≤ n) :
    slice (patch image ofs bytes) ofs n = slice image ofs n ↔
      slice image ofs bytes.length = bytes := by
  obtain ⟨rest, rfl⟩ := Nat.exists_eq_add_of_le h
  have hrest : slice (patch image ofs bytes) (ofs + bytes.length) rest =
      slice image (ofs + bytes.length) rest := slice_patch_of_disjoint (.inr le_rfl)
  rw [slice_add, slice_add, slice_patch_eq, hrest]
  constructor
  · intro heq
    exact (append_inj_left heq (by rw [length_slice])).symm
  · intro heq
    rw [heq]

theorem FsState.mapBytes_patch_iff (s : FsState) (start : ℕ)
    (hcnt : map.bitCnt = s.freeMap.bitCnt) :
    (s.spend.patchDisk (512 * start)
        (map.bytes.take (512 * (byteCnt s.freeMap.bitCnt / 512)))).mapBytes start =
      s.mapBytes start ↔
    slice s.disk (512 * start) (512 * (byteCnt s.freeMap.bitCnt / 512)) =
      map.bytes.take (512 * (byteCnt s.freeMap.bitCnt / 512)) := by
  have hle : 512 * (byteCnt s.freeMap.bitCnt / 512) ≤ byteCnt s.freeMap.bitCnt := by omega
  have hlen : (map.bytes.take (512 * (byteCnt s.freeMap.bitCnt / 512))).length =
      512 * (byteCnt s.freeMap.bitCnt / 512) := by
    rw [length_take, map.length_bytes, hcnt, Nat.min_eq_left hle]
  have hiff : (slice (patch s.disk (512 * start) _) _ _ = _ ↔ _) :=
    slice_patch_eq_iff (hlen.trans_le hle)
  rwa [hlen] at hiff

theorem FsState.whole_sectors_iff (hsync : s.mapBytes start = s.freeMap.bytes)
    (hrun : s.freeMap.Run k cnt false) (hset : s.freeMap.IsSet k cnt true map) :
    slice s.disk (512 * start) (512 * (byteCnt s.freeMap.bitCnt / 512)) =
        map.bytes.take (512 * (byteCnt s.freeMap.bitCnt / 512)) ↔
      cnt = 0 ∨ 4096 * (byteCnt s.freeMap.bitCnt / 512) ≤ k := by
  have hle : 512 * (byteCnt s.freeMap.bitCnt / 512) ≤ byteCnt s.freeMap.bitCnt := by omega
  have hfour : 512 * (byteCnt s.freeMap.bitCnt / 512) =
      4 * (128 * (byteCnt s.freeMap.bitCnt / 512)) := by omega
  have hbits : 4096 * (byteCnt s.freeMap.bitCnt / 512) =
      32 * (128 * (byteCnt s.freeMap.bitCnt / 512)) := by omega
  have helems : 128 * (byteCnt s.freeMap.bitCnt / 512) ≤ elemCnt s.freeMap.bitCnt := by
    rw [byteCnt]
    omega
  rw [mapBytes] at hsync
  rw [← take_slice hle, hsync, hfour, eq_comm, Bitmap.take_bytes_eq_iff hset.bitCnt_eq helems,
    hset.same_below_iff hrun, hbits]

/-- **When a failed allocation leaves no trace**: exactly when the whole sectors of the file held
already what the map, with the run marked, has there. -/
theorem failed_allocation_iff (s : FsState) (cnt sectorp : ℕ) :
    (s.freeMapFile = none → Returns (freeMapAllocateAt cnt sectorp) s fun r t => r.1 = false →
      t = s ∧ r.2 = sectorp) ∧
    ∀ start file ino, s.MapFile start file ino →
      Returns (freeMapAllocateAt cnt sectorp) s fun r t => r.1 = false →
        t.freeMap = s.freeMap ∧ r.2 = sectorp ∧
        (t.mapBytes start = s.mapBytes start ↔
          ∀ k map, s.freeMap.FirstRun k cnt false → s.freeMap.IsSet k cnt true map →
            slice s.disk (512 * start) (512 * (byteCnt s.freeMap.bitCnt / 512)) =
              map.bytes.take (512 * (byteCnt s.freeMap.bitCnt / 512))) ∧
        (s.mapBytes start = s.freeMap.bytes →
          (t.mapBytes start = s.mapBytes start ↔
            ∀ k, s.freeMap.FirstRun k cnt false →
              cnt = 0 ∨ 4096 * (byteCnt s.freeMap.bitCnt / 512) ≤ k)) := by
  constructor
  · intro hnull
    rw [freeMapAllocateAt, returns_bind]
    refine (freeMapAllocate_null_returns hnull cnt).mono fun r t hr => ?_
    obtain ⟨k, map, rfl, -⟩ | ⟨rfl, -, rfl⟩ := hr
    · rw [returns_pure]
      rintro ⟨⟩
    · rw [returns_pure]
      exact fun _ => ⟨rfl, rfl⟩
  · intro start file ino hf
    rw [freeMapAllocateAt, returns_bind]
    refine (freeMapAllocate_any hf cnt).mono fun r t hr => ?_
    cases r with
    | some k =>
      rw [returns_pure]
      rintro ⟨⟩
    | none =>
      rw [returns_pure]
      intro _
      rcases hr with ⟨hnone, -, rfl⟩ | ⟨k, map, hfirst, hset, hcase⟩
      · exact ⟨rfl, rfl, iff_of_true rfl fun k _ hfirst => absurd hfirst.1 (hnone k),
          fun _ => iff_of_true rfl fun k hfirst => absurd hfirst.1 (hnone k)⟩
      · split at hcase
        · cases hcase
        obtain ⟨-, rfl⟩ := hcase
        have hiff := s.mapBytes_patch_iff start hset.bitCnt_eq
        refine ⟨rfl, rfl, hiff.trans ⟨fun heq k' map' hfirst' hset' => ?_, fun h => ?_⟩,
          fun hsync => hiff.trans ⟨fun heq k' hfirst' => ?_, fun h => ?_⟩⟩
        · obtain rfl := hfirst.unique hfirst'
          rw [heq, hset'.unique hset]
        · exact h k map hfirst hset
        · obtain rfl := hfirst.unique hfirst'
          exact (FsState.whole_sectors_iff hsync hfirst.1 hset).mp heq
        · exact (FsState.whole_sectors_iff hsync hfirst.1 hset).mpr (h k hfirst)

end

/-! ### A device with more than 4096 sectors -/

theorem wide_le : 4128 + 32 ≤ wordSize := by decide

def wideDevice : FsState where
  size := 4128
  disk := patch (fun _ => 0) 1024 [0x0f]
  freeMap := ⟨4128, fun w => if w = 0 then 0x0f#32 else 0#32, wide_le⟩
  freeMapFile := some ⟨0, 0, false⟩
  inodes := fun a =>
    if a = 0 then some ⟨0, 1, false, 0, ⟨2, 516, inodeMagic⟩⟩ else none
  openInodes := [0]
  nextInode := 1
  mallocs := fun _ => false

theorem wideDevice_mapFile (disk : ℕ → UInt8) (bits : ℕ → BitVec 32) :
    FsState.MapFile { wideDevice with disk, freeMap := ⟨4128, bits, wide_le⟩ } 2 ⟨0, 0, false⟩
      ⟨0, 1, false, 0, ⟨2, 516, inodeMagic⟩⟩ where
  file_eq := rfl
  inode_eq := rfl
  writable := rfl
  start_eq := rfl
  length_eq := show (516 : ℤ) = byteCnt 4128 by decide
  fits := by
    intro pos hpos
    have hlt : pos < 516 := hpos
    have hsector : 2 + pos / 512 < 4128 := by omega
    exact hsector
  size_le := show 4128 ≤ wordSize by decide

/-- Only the last 32 sectors are free, and the bits of these are behind the whole sectors of the
file. -/
def fullDevice : FsState :=
  { wideDevice with
    disk := fun i => if 1024 ≤ i ∧ i < 1536 then 0xff else 0
    freeMap := ⟨4128, fun w => if w < 128 then 0xffffffff#32 else 0#32, wide_le⟩ }

theorem fullDevice_firstRun : fullDevice.freeMap.FirstRun 4096 1 false := by
  refine ⟨by decide, fun j hj hrun => ?_⟩
  have hbit : fullDevice.freeMap.bit j = false := hrun.2 0 Nat.one_pos
  have hword : fullDevice.freeMap.bits (j / 32) = BitVec.allOnes 32 := if_pos (by omega)
  rw [Bitmap.bit, bitOf, hword, BitVec.getLsbD_allOnes, decide_eq_false_iff_not] at hbit
  omega

/-- The write fails for want of memory, and it was for nothing but the sector behind the whole
ones. -/
theorem failed_allocation_fullDevice :
    Returns (freeMapAllocateAt 1 7) fullDevice fun r t => r = (false, 7) ∧
      t.freeMap = fullDevice.freeMap ∧ t.mapBytes 2 = fullDevice.mapBytes 2 := by
  have hfile : fullDevice.MapFile 2 ⟨0, 0, false⟩ ⟨0, 1, false, 0, ⟨2, 516, inodeMagic⟩⟩ :=
    wideDevice_mapFile _ _
  have hsync : fullDevice.mapBytes 2 = fullDevice.freeMap.bytes := by decide +kernel
  have hfails : Returns (freeMapAllocateAt 1 7) fullDevice fun r _ => r.1 = false := by
    rw [freeMapAllocateAt, returns_bind]
    refine (freeMapAllocate_any hfile 1).mono fun r t hr => ?_
    rcases hr with ⟨hnone, -⟩ | ⟨k, map, -, -, hcase⟩
    · exact absurd fullDevice_firstRun.1 (hnone 4096)
    · rw [if_neg (by decide)] at hcase
      obtain ⟨rfl, -⟩ := hcase
      rw [returns_pure]
  refine (hfails.and ((failed_allocation_iff fullDevice 1 7).2 2 _ _ hfile)).mono ?_
  rintro ⟨ok, sector⟩ t ⟨hok, h⟩
  obtain ⟨hmap, hsector, -, hiff⟩ := h hok
  refine ⟨Prod.ext hok hsector, hmap, (hiff hsync).mpr fun k hfirst => .inr ?_⟩
  rw [hfirst.unique fullDevice_firstRun]
  decide

/-- **One sector is asked for and no memory is to be had**: the allocation fails, but the file of
the free map, which was in step with the map, has the sector marked. -/
theorem failed_allocation_trace :
    wideDevice.mapBytes 2 = wideDevice.freeMap.bytes ∧
    Returns (freeMapAllocateAt 1 7) wideDevice fun r t => r = (false, 7) ∧
      t.freeMap = wideDevice.freeMap ∧ t.mapBytes 2 ≠ wideDevice.mapBytes 2 := by
  have hsync : wideDevice.mapBytes 2 = wideDevice.freeMap.bytes := by decide +kernel
  have hfour : wideDevice.freeMap.FirstRun 4 1 false := ⟨by decide, by decide⟩
  refine ⟨hsync, ?_⟩
  rw [freeMapAllocateAt, returns_bind]
  refine (freeMapAllocate_any (wideDevice_mapFile _ _) 1).mono fun r t hr => ?_
  rcases hr with ⟨hnone, -⟩ | ⟨k, map, hfirst, hset, hcase⟩
  · exact absurd hfour.1 (hnone 4)
  · obtain rfl := hfirst.unique hfour
    rw [if_neg (by decide)] at hcase
    obtain ⟨rfl, rfl⟩ := hcase
    rw [returns_pure]
    refine ⟨rfl, rfl, fun heq => ?_⟩
    have hwhole := (wideDevice.mapBytes_patch_iff 2 hset.bitCnt_eq).mp heq
    rw [FsState.whole_sectors_iff hsync hfour.1 hset] at hwhole
    revert hwhole
    decide

end OsMaterial
