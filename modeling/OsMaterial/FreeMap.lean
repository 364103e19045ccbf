import OsMaterial.Inode

/-!
# The Free Map and the Life of an Inode

`filesys/free-map.c`, the part of `filesys/inode.c` that creates, opens, and closes inodes, and
`filesys/file.c`: an allocation writes the free map through its inode, and closing a removed inode
for the last time releases its sectors.

* `freeMapAllocate_returns`: an allocation takes the **first run that is free** and writes the map.
-/

namespace OsMaterial

open List

/-! ### The free map file -/

def fileReadAt (file : File) (size fileOfs : ℕ) : Fs Bytes :=
  inodeReadAt file.inode size fileOfs

def fileWriteAt (file : File) (buffer : Bytes) (fileOfs : ℕ) : Fs ℕ :=
  inodeWriteAt file.inode buffer fileOfs

def Bitmap.load (b : Bitmap) (bytes : Bytes) : Bitmap :=
  { b with bits := fun j => (wordsOfBytes (overwrite b.bytes 0 bytes)).getD j (b.bits j) }

def bitmapRead (b : Bitmap) (file : File) : Fs (Bool × Bitmap) := do
  if 0 < b.bitCnt then
    let size := byteCnt b.bitCnt
    let bytes ← fileReadAt file size 0
    let b := b.load bytes
    let last := elemCnt b.bitCnt - 1
    return (bytes.length = size,
      { b with bits := Function.update b.bits last (b.bits last &&& lastMask b) })
  else
    return (true, b)

def bitmapWrite (b : Bitmap) (file : File) : Fs Bool := do
  let size := byteCnt b.bitCnt
  let written ← fileWriteAt file b.bytes 0
  return written = size

/-! ### Allocating sectors -/

def FsState.setFreeMap (s : FsState) (map : Bitmap) : FsState :=
  { s with freeMap := map }

/-- `free_map_allocate`. -/
def freeMapAllocate (cnt : ℕ) : Fs (Option ℕ) := do
  let s ← get
  let (sector, map) ← bitmapScanAndFlip s.freeMap 0 cnt false
  set (s.setFreeMap map)
  match sector, s.freeMapFile with
  | some sector, some file =>
    if ← bitmapWrite map file then
      return some sector
    else
      let map ← bitmapSetMultiple map sector cnt false
      modify fun s => s.setFreeMap map
      return none
  | sector, _ => return sector

/-- `free_map_release`. -/
def freeMapRelease (sector cnt : ℕ) : Fs Unit := do
  let s ← get
  let all ← bitmapAll s.freeMap sector cnt
  assert (all = true) .notAllocated
  let map ← bitmapSetMultiple s.freeMap sector cnt false
  set (s.setFreeMap map)
  match s.freeMapFile with
  | some file =>
    let _ ← bitmapWrite map file
  | none => throw .badPointer

/-! ### Inodes -/

def zeros : Bytes := replicate 512 0

def zeroSectors (start sectors : ℕ) : Fs Unit :=
  forM (range sectors) fun i => blockWrite ((start + i) % wordSize) zeros

/-- `inode_create`. -/
def inodeCreate (sector : ℕ) (length : ℤ) : Fs Bool := do
  assert (0 ≤ length) .negativeLength
  if ← malloc then
    let sectors := bytesToSectors length
    match ← freeMapAllocate sectors with
    | some start =>
      blockWrite sector (encodeInode { start, length, magic := inodeMagic })
      zeroSectors start sectors
      return true
    | none => return false
  else
    return false

def FsState.setInode (s : FsState) (inode : ℕ) (ino : Option Inode) : FsState :=
  { s with inodes := Function.update s.inodes inode ino }

/-- `inode_reopen`. -/
def inodeReopen (inode : ℕ) : Fs ℕ := do
  let ino ← inodeAt inode
  modify fun s => s.setInode inode (some { ino with openCnt := ino.openCnt + 1 })
  return inode

/-- `inode_open`. -/
def inodeOpen (sector : ℕ) : Fs (Option ℕ) := do
  let s ← get
  match s.openInodes.find? fun a => (s.inodes a).any fun ino => ino.sector = sector with
  | some inode => return some (← inodeReopen inode)
  | none =>
    if ← malloc then
      let s ← get
      let inode := s.nextInode
      set { s with openInodes := inode :: s.openInodes, nextInode := inode + 1 }
      let bytes ← blockRead sector
      modify fun s => s.setInode inode (some
        { sector, openCnt := 1, removed := false, denyWriteCnt := 0, data := decodeInode bytes })
      return some inode
    else
      return none

/-- `inode_close`. -/
def inodeClose (inode : Option ℕ) : Fs Unit := do
  match inode with
  | none => return ()
  | some inode =>
    let ino ← inodeAt inode
    let openCnt := ino.openCnt - 1
    modify fun s => s.setInode inode (some { ino with openCnt })
    if openCnt = 0 then
      modify fun s => { s with openInodes := s.openInodes.erase inode }
      if ino.removed then
        freeMapRelease ino.sector 1
        freeMapRelease ino.data.start (bytesToSectors ino.data.length)
      modify fun s => s.setInode inode none

/-- `inode_remove`. -/
def inodeRemove (inode : ℕ) : Fs Unit := do
  let ino ← inodeAt inode
  modify fun s => s.setInode inode (some { ino with removed := true })

def inodeDenyWrite (inode : ℕ) : Fs Unit := do
  let ino ← inodeAt inode
  modify fun s => s.setInode inode (some { ino with denyWriteCnt := ino.denyWriteCnt + 1 })
  assert (ino.denyWriteCnt + 1 ≤ ino.openCnt) .denyCount

def inodeAllowWrite (inode : ℕ) : Fs Unit := do
  let ino ← inodeAt inode
  assert (0 < ino.denyWriteCnt) .notDenied
  assert (ino.denyWriteCnt ≤ ino.openCnt) .denyCount
  modify fun s => s.setInode inode (some { ino with denyWriteCnt := ino.denyWriteCnt - 1 })

/-! ### Files -/

/-- `file_open`. -/
def fileOpen (inode : Option ℕ) : Fs (Option File) := do
  let file ← malloc
  match inode, file with
  | some inode, true => return some { inode, pos := 0, denyWrite := false }
  | inode, _ =>
    inodeClose inode
    return none

def fileReopen (file : File) : Fs (Option File) := do
  fileOpen (some (← inodeReopen file.inode))

def fileDenyWrite (file : File) : Fs File := do
  if file.denyWrite then
    return file
  else
    inodeDenyWrite file.inode
    return { file with denyWrite := true }

def fileAllowWrite (file : File) : Fs File := do
  if file.denyWrite then
    inodeAllowWrite file.inode
    return { file with denyWrite := false }
  else
    return file

/-- `file_close`. -/
def fileClose (file : File) : Fs Unit := do
  let file ← fileAllowWrite file
  inodeClose (some file.inode)

/-- `file_read`. -/
def fileRead (file : File) (size : ℕ) : Fs (Bytes × File) := do
  let bytes ← inodeReadAt file.inode size file.pos
  return (bytes, { file with pos := file.pos + bytes.length })

/-- `file_write`. -/
def fileWrite (file : File) (buffer : Bytes) : Fs (ℕ × File) := do
  let written ← inodeWriteAt file.inode buffer file.pos
  return (written, { file with pos := file.pos + written })

/-- `file_seek`. -/
def fileSeek (file : File) (newPos : ℤ) : Fs File := do
  assert (0 ≤ newPos) .negativePosition
  return { file with pos := newPos.toNat }

/-! ### Making, opening, and closing the free map -/

/-- `bitmap_create`; `fill` is what the memory held before. With more bits `byte_cnt` is zero, and
`malloc (0)` returns a null pointer. -/
def bitmapCreate (bitCnt : ℕ) (fill : ℕ → BitVec 32) : Fs (Option Bitmap) := do
  if ← malloc then
    let bits ← if byteCnt bitCnt = 0 then pure false else malloc
    if h : bitCnt + 32 ≤ wordSize ∧ (bits = true ∨ bitCnt = 0) then
      let b ← bitmapSetAll ⟨bitCnt, fill, h.1⟩ false
      return some b
    else
      return none
  else
    return none

/-- `free_map_init`. -/
def freeMapInit (fill : ℕ → BitVec 32) : Fs Unit := do
  let s ← get
  match ← bitmapCreate s.size fill with
  | none => throw .bitmapCreation
  | some b =>
    let b ← bitmapMark b 0
    let b ← bitmapMark b 1
    modify fun s => s.setFreeMap b

/-- `free_map_open`. -/
def freeMapOpen : Fs Unit := do
  let file ← fileOpen (← inodeOpen 0)
  modify fun s => { s with freeMapFile := file }
  match file with
  | none => throw .freeMapOpen
  | some file =>
    let (success, map) ← bitmapRead (← get).freeMap file
    modify fun s => s.setFreeMap map
    assert (success = true) .freeMapRead

/-- `free_map_close`. -/
def freeMapClose : Fs Unit := do
  match (← get).freeMapFile with
  | none => return ()
  | some file => fileClose file

/-- `free_map_create`. -/
def freeMapCreate : Fs Unit := do
  let created ← inodeCreate 0 (byteCnt (← get).freeMap.bitCnt)
  assert (created = true) .freeMapCreation
  let file ← fileOpen (← inodeOpen 0)
  modify fun s => { s with freeMapFile := file }
  match file with
  | none => throw .freeMapOpen
  | some file =>
    let success ← bitmapWrite (← get).freeMap file
    assert (success = true) .freeMapWrite

/-! ### What an allocation and a release do -/

/-- The map's file is open, and has the map's length. -/
structure FsState.MapFile (s : FsState) (start : ℕ) (file : File) (ino : Inode) : Prop where
  file_eq : s.freeMapFile = some file
  inode_eq : s.inodes file.inode = some ino
  writable : ino.denyWriteCnt = 0
  start_eq : ino.data.start = start
  length_eq : ino.data.length = byteCnt s.freeMap.bitCnt
  fits : s.Fits ino.data
  size_le : s.size ≤ wordSize

/-- The map is changed **in memory and in its file**. -/
def FsState.withMap (s : FsState) (start : ℕ) (map : Bitmap) : FsState :=
  (s.setFreeMap map).patchDisk (512 * start) map.bytes

theorem FsState.withMap_withMap (s : FsState) (start : ℕ) {map map' : Bitmap}
    (hcnt : map'.bitCnt = map.bitCnt) :
    (s.withMap start map).withMap start map' = s.withMap start map' := by
  simp only [FsState.withMap, FsState.patchDisk, FsState.setFreeMap]
  rw [patch_patch_eq (by rw [map'.length_bytes, map.length_bytes, hcnt])]

section

variable {s : FsState} {start : ℕ} {file : File} {ino : Inode}

theorem FsState.MapFile.setFreeMap (hf : s.MapFile start file ino) {map : Bitmap}
    (hcnt : map.bitCnt = s.freeMap.bitCnt) : (s.setFreeMap map).MapFile start file ino :=
  { hf with length_eq := by rw [FsState.setFreeMap, hcnt, hf.length_eq] }

theorem bitmapWrite_returns (hm : s.MallocsSucceed) (hf : s.MapFile start file ino) {b : Bitmap}
    (hb : b.bitCnt = s.freeMap.bitCnt) (Q : Bool → FsState → Prop) :
    Returns (bitmapWrite b file) s Q ↔ Q true (s.patchDisk (512 * start) b.bytes) := by
  have hclip : clip ino.data b.bytes.length 0 = byteCnt b.bitCnt := by
    rw [clip, hf.length_eq, b.length_bytes, hb]
    simp
  rw [bitmapWrite, returns_bind, fileWriteAt,
    inodeWriteAt_returns hm hf.inode_eq hf.writable hf.fits hf.size_le, returns_pure, hclip,
    hf.start_eq, take_of_length_le (by simp)]
  simp

def FsState.Allocated (s : FsState) (start cnt : ℕ) (r : Option ℕ) (t : FsState) : Prop :=
  match r with
  | some k => ∃ map, s.freeMap.FirstRun k cnt false ∧ s.freeMap.IsSet k cnt true map ∧
      t = s.withMap start map
  | none => (∀ k, ¬ s.freeMap.Run k cnt false) ∧ t = s

/-- **Allocation**: the first run that is free is marked, in memory and in the file. -/
theorem freeMapAllocate_returns (hm : s.MallocsSucceed) (hf : s.MapFile start file ino)
    (cnt : ℕ) : Returns (freeMapAllocate cnt) s (s.Allocated start cnt) := by
  rw [freeMapAllocate]
  simp only [returns_bind, returns_get]
  obtain ⟨k, map, hflip, hfirst, hset⟩ | ⟨hflip, hnone⟩ := bitmapScanAndFlip_eq s.freeMap cnt false
  · simp only [hflip, returns_liftM_ok, returns_set, returns_bind, hf.file_eq]
    rw [bitmapWrite_returns (s := s.setFreeMap map) (b := map) hm
      (hf.setFreeMap hset.bitCnt_eq) rfl]
    simp only [if_true, returns_pure]
    exact ⟨map, hfirst, hset, rfl⟩
  · simp only [hflip, returns_liftM_ok, returns_set, returns_pure]
    exact ⟨hnone, rfl⟩

/-- While the map's file is **not open** the allocation is made in memory only. -/
theorem freeMapAllocate_null_returns (hnull : s.freeMapFile = none) (cnt : ℕ) :
    Returns (freeMapAllocate cnt) s fun r t =>
      (∃ k map, r = some k ∧ s.freeMap.FirstRun k cnt false ∧ s.freeMap.IsSet k cnt true map ∧
        t = s.setFreeMap map) ∨
      (r = none ∧ (∀ k, ¬ s.freeMap.Run k cnt false) ∧ t = s) := by
  rw [freeMapAllocate]
  simp only [returns_bind, returns_get]
  obtain ⟨k, map, hflip, hfirst, hset⟩ | ⟨hflip, hnone⟩ := bitmapScanAndFlip_eq s.freeMap cnt false
  · simp only [hflip, returns_liftM_ok, returns_set, hnull, returns_pure]
    exact .inl ⟨k, map, rfl, hfirst, hset, rfl⟩
  · simp only [hflip, returns_liftM_ok, returns_set, returns_pure]
    exact .inr ⟨trivial, hnone, rfl⟩

/-- **Release** of marked sectors: they are cleared, in memory and in the file. -/
theorem freeMapRelease_returns (hm : s.MallocsSucceed) (hf : s.MapFile start file ino)
    {sector cnt : ℕ} (hrun : s.freeMap.Run sector cnt true) :
    Returns (freeMapRelease sector cnt) s fun _ t =>
      ∃ map, s.freeMap.IsSet sector cnt false map ∧ t = s.withMap start map := by
  obtain ⟨map, hset, hmap⟩ := bitmapSetMultiple_eq hrun.1 false
  rw [freeMapRelease]
  simp only [returns_bind, returns_get, bitmapAll_eq hrun.1, returns_liftM_ok, returns_assert,
    hrun, decide_true, true_and, hset, returns_set, hf.file_eq]
  rw [bitmapWrite_returns (s := s.setFreeMap map) (b := map) hm
    (hf.setFreeMap hmap.bitCnt_eq) rfl, returns_pure]
  exact ⟨map, hmap, rfl⟩

theorem zeroSectors_returns {sectors : ℕ} (hfit : start + sectors ≤ s.size)
    (hsize : s.size ≤ wordSize) :
    Returns (zeroSectors start sectors) s fun _ t =>
      t = s.patchDisk (512 * start) (replicate (512 * sectors) 0) := by
  refine returns_forM_range (fun i t => t = s.patchDisk (512 * start) (replicate (512 * i) 0)) ?_ ?_
  · simp [FsState.patchDisk]
  · rintro i hi t rfl
    have hmod : (start + i) % wordSize = start + i := Nat.mod_eq_of_lt (by omega)
    rw [hmod, returns_blockWrite (s := s.patchDisk _ _) (show start + i < s.size by omega)]
    simp only [FsState.patchDisk]
    have hofs : 512 * (start + i) =
        512 * start + (replicate (512 * i) (0 : UInt8)).length := by
      rw [length_replicate]
      omega
    rw [hofs, patch_append, zeros, replicate_append_replicate]
    rfl

variable {s₁ : FsState} {length : ℤ}

theorem inodeCreate_of_allocate {x : ℕ} (hm : s.MallocsSucceed) (h0 : 0 ≤ length)
    (halloc : (freeMapAllocate (bytesToSectors length)).run s = .ok (some start, s₁))
    (hlt : x < s₁.size) (hfit : start + bytesToSectors length ≤ s₁.size)
    (hsize : s₁.size ≤ wordSize) :
    Returns (inodeCreate x length) s fun ok t => ok = true ∧
      t = (s₁.patchDisk (512 * x) (encodeInode { start, length, magic := inodeMagic })).patchDisk
        (512 * start) (replicate (512 * bytesToSectors length) 0) := by
  rw [inodeCreate]
  simp only [returns_bind, returns_assert, h0, true_and, returns_malloc hm, if_true]
  rw [returns_iff_of_run halloc]
  simp only [returns_bind]
  rw [returns_blockWrite hlt]
  refine (zeroSectors_returns (s := s₁.patchDisk (512 * x) _) hfit hsize).mono ?_
  rintro _ t rfl
  exact (returns_pure ..).mpr ⟨rfl, rfl⟩

theorem inodeCreate_of_full {x : ℕ} (hm : s.MallocsSucceed)
    (h0 : 0 ≤ length) (halloc : (freeMapAllocate (bytesToSectors length)).run s = .ok (none, s₁)) :
    Returns (inodeCreate x length) s fun ok t => ok = false ∧ t = s₁ := by
  rw [inodeCreate]
  simp only [returns_bind, returns_assert, h0, true_and, returns_malloc hm, if_true]
  rw [returns_iff_of_run halloc, returns_pure]
  exact ⟨rfl, rfl⟩

end

end OsMaterial
