import OsMaterial.FileCalls

/-!
# Formatting, Mounting, and Shutting Down

`filesys_init (true)` formats the device: it writes the free map while `free_map_file` is still
null, then the root directory with the free map written through, and mounts the device.
`filesys_init (false)` mounts it as it is, and `filesys_done` closes the free map.

* `remount_returns`: mounting takes the free map of the device **whatever was in memory before**.
* `filesysInit_format_returns`: a formatted device has the invariant and an empty directory.
-/

namespace OsMaterial

open List

variable {size n m : ℕ} {b : Bitmap} {Q : Unit → FsState → Prop} {file : File} {ino : Inode}
  {fill : ℕ → BitVec 32}

open FsState

section

variable {s t u : FsState} {a : ℕ}

/-! ### Reading the free map -/

theorem getLsbD_lastMask {i : ℕ} (hi : i < b.bitCnt) (hlast : i / 32 = elemCnt b.bitCnt - 1) :
    (lastMask b).getLsbD (i % 32) = true := by
  have hmod := Nat.mod_lt i (show 0 < 32 by decide)
  rw [elemCnt_eq] at hlast
  rw [lastMask]
  split
  · next h =>
    have hlt : i % 32 < b.bitCnt % 32 := by omega
    have hpow : ((1#32 <<< (b.bitCnt % 32)) - 1#32).toNat = 2 ^ (b.bitCnt % 32) - 1 := by
      have hlt' : 2 ^ (b.bitCnt % 32) < 2 ^ 32 := Nat.pow_lt_pow_right (by decide) (by omega)
      have hpos := Nat.two_pow_pos (b.bitCnt % 32)
      rw [BitVec.toNat_sub, BitVec.toNat_shiftLeft, BitVec.toNat_ofNat, Nat.shiftLeft_eq]
      omega
    rw [BitVec.getLsbD, hpow, Nat.testBit_two_pow_sub_one]
    exact decide_eq_true hlt
  · rw [BitVec.getLsbD_allOnes]
    exact decide_eq_true hmod

theorem bitmapRead_returns (hm : s.MallocsSucceed) (hino : s.inodes file.inode = some ino)
    (hlen : ino.data.length = byteCnt b.bitCnt) (hfit : s.Fits ino.data) (hsize : s.size ≤ wordSize)
    (hpos : 0 < b.bitCnt) :
    Returns (bitmapRead b file) s fun r t => t = s ∧ r.1 = true ∧ r.2.bitCnt = b.bitCnt ∧
      ∀ i < b.bitCnt, r.2.bit i = bitOf (fun j => (wordsOfBytes
        (slice s.disk (512 * ino.data.start) (byteCnt b.bitCnt))).getD j 0) i := by
  set bytes := slice s.disk (512 * ino.data.start) (byteCnt b.bitCnt) with hbytes
  have hlength : bytes.length = byteCnt b.bitCnt := length_slice
  have hclip : clip ino.data (byteCnt b.bitCnt) 0 = byteCnt b.bitCnt := by
    rw [clip, hlen]
    simp
  rw [bitmapRead, if_pos hpos, returns_bind, fileReadAt,
    inodeReadAt_returns hm hino hfit hsize, hclip, Nat.add_zero, ← hbytes, returns_pure]
  refine ⟨rfl, by simp [hlength], rfl, fun i hi => ?_⟩
  have hidx : i / 32 < elemCnt b.bitCnt := elemIdx_lt hi
  have hover : overwrite b.bytes 0 bytes = bytes := by
    rw [overwrite, take_zero, nil_append, Nat.zero_add,
      drop_of_length_le (by rw [b.length_bytes, hlength]), append_nil]
  have hload : (b.load bytes).bits (i / 32) = (wordsOfBytes bytes).getD (i / 32) 0 := by
    have hlt : i / 32 < (wordsOfBytes bytes).length := by
      rw [length_wordsOfBytes (n := elemCnt b.bitCnt) hlength]
      exact hidx
    simp only [Bitmap.load, hover, getD_eq_getElem _ _ hlt]
  simp only [Bitmap.bit, bitOf]
  rw [← hload]
  by_cases hlast : i / 32 = elemCnt b.bitCnt - 1
  · have hmask : lastMask (b.load bytes) = lastMask b := rfl
    have hcnt : (b.load bytes).bitCnt = b.bitCnt := rfl
    rw [hcnt, hlast, Function.update_self, BitVec.getLsbD_and, hmask, getLsbD_lastMask hi hlast,
      Bool.and_true]
  · have hcnt : (b.load bytes).bitCnt = b.bitCnt := rfl
    rw [hcnt, Function.update_of_ne hlast]

/-! ### Mounting -/

def oneRef (a : ℕ) : ℕ → ℕ := bump (fun _ => 0) a

theorem oneRef_pos_iff (a b : ℕ) : 0 < oneRef a b ↔ b = a := by
  by_cases hb : b = a <;> simp [oneRef, bump, hb]

/-- `t` is `u` **after a mount**. -/
structure Mounted (u t : FsState) : Prop where
  inv : ∃ a, FsInv (oneRef a) t
  size_eq : t.size = u.size
  disk_eq : t.disk = u.disk
  bit_eq : ∀ i < u.size, t.freeMap.bit i = u.freeMap.bit i

def FsState.openMap (s : FsState) : FsState :=
  { s.addInode 0 with
    freeMapFile := some { inode := s.nextInode, pos := 0, denyWrite := false } }

theorem fileOpen_returns_of_empty (hm : s.MallocsSucceed) (hopen : s.openInodes = [])
    (hpos : 0 < s.size) (Q : Option File → FsState → Prop) :
    Returns (inodeOpen 0 >>= fileOpen) s Q ↔
      Q (some { inode := s.nextInode, pos := 0, denyWrite := false }) (s.addInode 0) := by
  have hdecode : decodeInode (sectorBytes s.disk 0) = inodeOn s.disk 0 := (inodeOn_eq s.disk 0).symm
  have hm₁ : (s.addInode 0).MallocsSucceed := hm
  simp only [returns_bind, inodeOpen, returns_get, hopen, find?_nil, returns_malloc hm,
    if_true, returns_set]
  rw [returns_blockRead (s := { s with openInodes := [s.nextInode], nextInode := s.nextInode + 1 })
    hpos]
  simp only [returns_modify, returns_pure, hdecode]
  simp only [addInode, hopen] at hm₁ ⊢
  simp only [fileOpen, returns_bind, returns_malloc hm₁, returns_pure]

theorem FsState.inodes_openMap (s : FsState) :
    s.openMap.inodes s.nextInode = some { sector := 0, openCnt := 1, removed := false,
                                          denyWriteCnt := 0, data := inodeOn s.disk 0 } :=
  Function.update_self ..

theorem FsState.openInodes_openMap (hopen : s.openInodes = []) :
    s.openMap.openInodes = [s.nextInode] :=
  congrArg (s.nextInode :: ·) hopen

/-- **`free_map_open`** on a device with the invariant. -/
theorem freeMapOpen_returns (h : VolInv u) (hdisk : s.disk = u.disk) (hsize : s.size = u.size)
    (hm : s.MallocsSucceed) (hopen : s.openInodes = []) (hcnt : s.freeMap.bitCnt = s.size) :
    Returns freeMapOpen s fun _ t => Mounted u t := by
  have hle := h.size_le
  have hpos : 0 < s.size := hsize ▸ h.owner_lt VolInv.holds_zero
  have hino := s.inodes_openMap
  have hlen : (inodeOn s.disk 0).length = byteCnt s.freeMap.bitCnt := by
    rw [hcnt, hsize, hdisk, h.freeMap_length]
  have hfit : s.openMap.Fits (inodeOn s.disk 0) := by
    rw [hdisk]
    exact fun pos hlt => hsize ▸ h.fits (.inl rfl) pos hlt
  rw [freeMapOpen, ← bind_assoc, returns_bind, fileOpen_returns_of_empty hm hopen hpos]
  simp only [returns_bind, returns_modify, returns_get, returns_assert]
  refine (bitmapRead_returns (b := s.freeMap) (s := s.openMap) hm hino hlen hfit
    (show s.size ≤ wordSize by omega) (by omega)).mono ?_
  rintro ⟨ok, map⟩ _ ⟨rfl, rfl, hmap, hbits⟩
  refine ⟨rfl, ?_⟩
  set t := s.openMap.setFreeMap map
  have hopen' : t.openInodes = [s.nextInode] := openInodes_openMap hopen
  have hdiskBit : ∀ i, t.diskBit i = u.diskBit i := fun i => by
    have h₁ : t.disk = u.disk := hdisk
    have h₂ : t.size = u.size := hsize
    rw [diskBit, h₁, h₂, diskBit]
  have hbit : ∀ i < u.size, t.freeMap.bit i = u.freeMap.bit i := fun i hi => by
    rw [← h.diskBit_eq hi, ← hdiskBit]
    refine (hbits i (by rw [hcnt, hsize]; exact hi)).trans ?_
    rw [hcnt]
    rfl
  have hnone : ∀ x, ¬ t.Orphan x := by
    rintro x ⟨b, hb, ino, hb', -, hremoved⟩
    rw [hopen', mem_singleton] at hb
    subst hb
    obtain rfl := Option.some.inj (hino.symm.trans hb')
    cases hremoved
  refine ⟨⟨s.nextInode, ?_, ?_⟩, hsize, hdisk, hbit⟩
  · refine h.of_agree (t := t) hsize ?_ (fun x hx => absurd hx (hnone x)) ?_ (fun ho => ?_)
      fun i hi => ?_
    · rw [h.bitCnt_eq, ← hsize, ← hcnt]
      exact hmap
    · rw [show t.disk = u.disk from hdisk]
      exact .refl _ _
    · rw [hbit _ (h.owner_lt ho)]
      exact h.owner_marked ho
    · have hi : i < u.size := hsize ▸ hi
      rw [hdiskBit, hbit i hi]
      exact h.diskBit_eq hi
  · have hmem : ∀ b, b ∈ t.openInodes ↔ b = s.nextInode := fun b => by rw [hopen', mem_singleton]
    exact
      { mallocs := hm
        nodup := hopen' ▸ pairwise_singleton _ _
        fresh := fun hb => by
          rw [(hmem _).mp hb]
          exact Nat.lt_succ_self _
        mem_iff := fun b => (hmem b).trans (oneRef_pos_iff _ b).symm
        node := fun hb => by
          rw [(hmem _).mp hb]
          exact ⟨_, hino, by simp [oneRef, bump], fun _ => rfl, rfl, .inl rfl⟩
        sector_inj := fun hb hc _ _ => by rw [(hmem _).mp hb, (hmem _).mp hc]
        mapFile := ⟨_, _, rfl, rfl, (hmem _).mpr rfl, target_eq hino⟩ }

/-! ### Shutting down -/

theorem freeMapClose_returns (hfile : s.freeMapFile = some file) (hdeny : file.denyWrite = false)
    (hino : s.inodes file.inode = some ino) (hcnt : ino.openCnt = 1)
    (hremoved : ino.removed = false) :
    Returns freeMapClose s fun _ t => SameVolume s t ∧ t.mallocs = s.mallocs ∧
      t.openInodes = s.openInodes.erase file.inode := by
  rw [freeMapClose]
  simp only [returns_bind, returns_get, hfile]
  rw [fileClose, returns_bind, fileAllowWrite, if_neg (by rw [hdeny]; decide), returns_pure,
    inodeClose]
  simp only [returns_bind, returns_inodeAt hino, returns_modify]
  rw [if_pos (by omega)]
  simp only [returns_bind, returns_modify]
  rw [if_neg (by rw [hremoved]; decide)]
  simp only [returns_modify]
  exact ⟨⟨rfl, rfl, rfl, rfl⟩, rfl, rfl⟩

/-! ### Making the free map -/

theorem not_returns_liftM_error {α : Type} (e : Panic) (Q : α → FsState → Prop) :
    ¬ Returns (liftM (Except.error e : Except Panic α) : Fs α) s Q := by
  rintro ⟨b, t, h, -⟩
  cases h

theorem freeMapInit_returns (fill : ℕ → BitVec 32) (hm : s.MallocsSucceed) (hpos : 0 < s.size)
    (hsize : s.size + 32 ≤ wordSize) :
    Returns (freeMapInit fill) s fun _ t => ∃ map : Bitmap, t = s.setFreeMap map ∧
      map.bitCnt = s.size ∧ ∀ k < s.size, map.bit k = decide (k < 2) := by
  have helem : elemCnt s.size = (s.size + 31) / 32 := elemCnt_eq ⟨s.size, fill, hsize⟩
  have hbytes : byteCnt s.size ≠ 0 := by
    rw [byteCnt, helem]
    omega
  obtain ⟨b, hb, hcnt, hbits⟩ := bitmapSetMultiple_eq
    (show 0 + s.size ≤ (⟨s.size, fill, hsize⟩ : Bitmap).bitCnt by simp) false
  obtain ⟨b₁, hb₁, hcnt₁, hbits₁⟩ := bitmapMark_eq (b := b) (i := 0) (by
    rw [hcnt]
    show 0 / 32 < elemCnt s.size
    omega)
  obtain ⟨b₂, hb₂, hcnt₂, hbits₂⟩ := bitmapMark_eq (b := b₁) (i := 1) (by
    rw [hcnt₁, hcnt]
    show 1 / 32 < elemCnt s.size
    omega)
  have hall : bitmapSetAll ⟨s.size, fill, hsize⟩ false = .ok b := hb
  rw [freeMapInit]
  simp only [returns_bind, returns_get, bitmapCreate, returns_malloc hm, if_true, if_neg hbytes]
  rw [dif_pos ⟨hsize, .inl trivial⟩]
  simp only [returns_bind, hall, returns_liftM_ok, returns_pure, hb₁, hb₂, returns_modify]
  refine ⟨b₂, rfl, hcnt₂.trans (hcnt₁.trans hcnt), fun k hk => ?_⟩
  rw [hbits₂, hbits₁, hbits, if_pos (show 0 ≤ k ∧ k < 0 + s.size by omega)]
  split_ifs with h₁ h₀
  · simp [h₁]
  · simp [h₀]
  · exact (decide_eq_false (by omega)).symm

theorem size_of_freeMapInit (hm : s.MallocsSucceed) (h : Returns (freeMapInit fill) s Q) :
    0 < s.size ∧ s.size + 32 ≤ wordSize := by
  rw [freeMapInit] at h
  simp only [returns_bind, returns_get, bitmapCreate, returns_malloc hm, if_true] at h
  have hsize : s.size + 32 ≤ wordSize := by
    by_contra hbig
    split_ifs at h <;> simp [hbig, returns_malloc hm] at h
  refine ⟨Nat.pos_of_ne_zero fun h0 => ?_, hsize⟩
  obtain ⟨b, hb, hcnt, -⟩ := bitmapSetMultiple_eq
    (show 0 + s.size ≤ (⟨s.size, fill, hsize⟩ : Bitmap).bitCnt by simp) false
  have hall : bitmapSetAll ⟨s.size, fill, hsize⟩ false = .ok b := hb
  have hmark : bitmapMark b 0 = .error .elemIndex := by
    exact if_neg (by rw [hcnt]; simp only [h0]; decide)
  rw [if_pos (by rw [h0]; decide)] at h
  simp only [returns_bind, returns_pure] at h
  rw [dif_pos ⟨hsize, .inr h0⟩] at h
  simp only [returns_bind, hall, returns_liftM_ok, returns_pure, hmark] at h
  exact not_returns_liftM_error _ _ h

/-! ### Formatting -/

def mapSectors (size : ℕ) : ℕ := bytesToSectors (byteCnt size)

theorem byteCnt_eq (hsize : size + 32 ≤ wordSize) : byteCnt size = 4 * ((size + 31) / 32) := by
  rw [byteCnt, elemCnt_eq ⟨size, fun _ => 0, hsize⟩]

theorem mapSectors_eq (hsize : size + 32 ≤ wordSize) :
    mapSectors size = (4 * ((size + 31) / 32) + 511) / 512 := by
  have hw : wordSize = 4294967296 := rfl
  rw [mapSectors, byteCnt_eq hsize, bytesToSectors_eq (by omega) (by omega)]
  rfl

def Bitmap.MarkedBelow (b : Bitmap) (m : ℕ) : Prop :=
  ∀ k < b.bitCnt, b.bit k = decide (k < m)

theorem Bitmap.MarkedBelow.firstRun_iff {k : ℕ} (h : b.MarkedBelow m) (hn : 0 < n) :
    b.FirstRun k n false ↔ k = m ∧ m + n ≤ b.bitCnt := by
  have hfree : ∀ {j}, b.Run j n false → m ≤ j := by
    intro j hj
    have h0 := hj.2 0 hn
    rw [h _ (by have := hj.1; omega)] at h0
    have := of_decide_eq_false h0
    omega
  have hrun : m + n ≤ b.bitCnt → b.Run m n false := fun hfit =>
    ⟨hfit, fun i hi => by
      rw [h _ (by omega)]
      exact decide_eq_false (by omega)⟩
  constructor
  · rintro ⟨hk, hfirst⟩
    have hle := hfree hk
    have hfit := hk.1
    rcases Nat.eq_or_lt_of_le hle with rfl | hlt
    · exact ⟨rfl, hfit⟩
    · exact absurd (hrun (by omega)) (hfirst m hlt)
  · rintro ⟨rfl, hfit⟩
    exact ⟨hrun hfit, fun j hj hr => by have := hfree hr; omega⟩

theorem Bitmap.MarkedBelow.isSet {b' : Bitmap} (h : b.MarkedBelow m) (hset : b.IsSet m n true b') :
    b'.MarkedBelow (m + n) := by
  intro k hk
  rw [hset.bitCnt_eq] at hk
  rw [hset.bit_eq, h k hk]
  split
  · exact (decide_eq_true (by omega)).symm
  · congr 1
    rw [eq_iff_iff]
    omega

structure MapInode (size : ℕ) (s : FsState) : Prop where
  mallocs : s.MallocsSucceed
  size_eq : s.size = size
  bitCnt_eq : s.freeMap.bitCnt = size
  marked : s.freeMap.MarkedBelow (2 + mapSectors size)
  fits : 2 + mapSectors size ≤ size
  inodeOn_eq : inodeOn s.disk 0 = { start := 2, length := byteCnt size, magic := inodeMagic }

theorem inodeCreate_map_returns (hm : s.MallocsSucceed) (hsize : s.size + 32 ≤ wordSize)
    (hcnt : s.freeMap.bitCnt = s.size) (hmarked : s.freeMap.MarkedBelow 2)
    (hnull : s.freeMapFile = none) (hfits : 2 + mapSectors s.size ≤ s.size) :
    Returns (inodeCreate 0 (byteCnt s.size)) s fun ok t => ok = true ∧ MapInode s.size t ∧
      t.openInodes = s.openInodes := by
  have hn : 0 < mapSectors s.size := by
    rw [mapSectors_eq hsize]
    omega
  have hbytes := byteCnt_eq hsize
  have hw : wordSize = 4294967296 := rfl
  obtain ⟨_, _, halloc, ⟨k, map, rfl, hfirst, hset, rfl⟩ | ⟨rfl, hnone, -⟩⟩ :=
    freeMapAllocate_null_returns hnull (mapSectors s.size)
  · obtain ⟨rfl, -⟩ := (hmarked.firstRun_iff hn).mp hfirst
    refine (inodeCreate_of_allocate (x := 0) hm (show 0 ≤ (byteCnt s.size : ℤ) by omega) halloc
      (show 0 < s.size by omega) hfits (show s.size ≤ wordSize by omega)).mono ?_
    rintro _ _ ⟨rfl, rfl⟩
    set d : InodeDisk := { start := 2, length := byteCnt s.size, magic := inodeMagic }
    have hinode := inodeOn_made (d := d) (x := 0) (n := mapSectors s.size) s.disk
      (show 2 < wordSize by omega) (show (0 : ℤ) ≤ byteCnt s.size by omega)
      (show (byteCnt s.size : ℤ) < 2 ^ 31 by omega) rfl fun k hk _ => by
        have : 2 ≤ k := hk
        omega
    exact ⟨rfl, ⟨hm, rfl, hset.bitCnt_eq.trans hcnt, hmarked.isSet hset, hfits, hinode⟩, rfl⟩
  · have hfirst := (hmarked.firstRun_iff (k := 2) hn).mpr ⟨rfl, by rw [hcnt]; exact hfits⟩
    exact absurd hfirst.1 (hnone 2)

structure MapMade (size : ℕ) (s : FsState) (a : ℕ) : Prop extends MapInode size s where
  file_eq : s.freeMapFile = some { inode := a, pos := 0, denyWrite := false }
  inode_eq : s.inodes a = some { sector := 0, openCnt := 1, removed := false, denyWriteCnt := 0,
                                 data := inodeOn s.disk 0 }
  open_eq : s.openInodes = [a]

theorem MapMade.mapFile (hmade : MapMade size s a) (hsize : size + 32 ≤ wordSize) :
    s.MapFile 2 { inode := a, pos := 0, denyWrite := false }
      { sector := 0, openCnt := 1, removed := false, denyWriteCnt := 0,
        data := inodeOn s.disk 0 } :=
  { file_eq := hmade.file_eq
    inode_eq := hmade.inode_eq
    writable := rfl
    start_eq := by rw [hmade.inodeOn_eq]
    length_eq := by rw [hmade.inodeOn_eq, hmade.bitCnt_eq]
    fits := fun pos hpos => by
      have hfits := hmade.fits
      rw [mapSectors_eq hsize] at hfits
      rw [hmade.inodeOn_eq] at hpos ⊢
      simp only [byteCnt_eq hsize, Int.toNat_natCast] at hpos
      show 2 + pos / 512 < s.size
      rw [hmade.size_eq]
      omega
    size_le := by rw [hmade.size_eq]; omega }

theorem inodeOn_withMap_two (s : FsState) (map : Bitmap) :
    inodeOn (s.withMap 2 map).disk 0 = inodeOn s.disk 0 := by
  have hagree : AgreeOn (· = 0) s.disk (s.withMap 2 map).disk :=
    agreeOn_patch fun i h₁ h₂ h0 => by omega
  exact hagree.inodeOn_eq rfl

theorem freeMapCreate_returns (hm : s.MallocsSucceed) (hsize : s.size + 32 ≤ wordSize)
    (hcnt : s.freeMap.bitCnt = s.size) (hmarked : s.freeMap.MarkedBelow 2)
    (hnull : s.freeMapFile = none) (hopen : s.openInodes = [])
    (hfits : 2 + mapSectors s.size ≤ s.size) :
    Returns freeMapCreate s fun _ t => ∃ a, MapMade s.size t a := by
  rw [freeMapCreate]
  simp only [returns_bind, returns_get, hcnt]
  refine (inodeCreate_map_returns hm hsize hcnt hmarked hnull hfits).mono ?_
  rintro _ s₁ ⟨rfl, hs₁, hopen₁⟩
  have hpos : 0 < s₁.size := by
    rw [hs₁.size_eq]
    omega
  have hfile := fileOpen_returns_of_empty hs₁.mallocs (hopen₁.trans hopen) hpos
  simp only [returns_bind] at hfile
  simp only [returns_assert, true_and]
  rw [hfile]
  simp only [returns_bind, returns_modify, returns_get]
  have hmade : MapMade s.size s₁.openMap s₁.nextInode :=
    { hs₁ with
      file_eq := rfl
      inode_eq := s₁.inodes_openMap
      open_eq := openInodes_openMap (hopen₁.trans hopen) }
  have hwrite := bitmapWrite_returns (s := s₁.openMap) (b := s₁.freeMap) hs₁.mallocs
    (hmade.mapFile hsize) rfl
  refine (hwrite _).mpr ((returns_assert ..).mpr ⟨rfl, s₁.nextInode, ?_⟩)
  have hsame : inodeOn (s₁.openMap.patchDisk (512 * 2) s₁.freeMap.bytes).disk 0 =
      inodeOn s₁.disk 0 := inodeOn_withMap_two s₁.openMap s₁.freeMap
  exact { hmade with
    inodeOn_eq := hsame.trans hs₁.inodeOn_eq
    inode_eq := by
      rw [hsame]
      exact s₁.inodes_openMap }

theorem size_of_freeMapCreate (hm : s.MallocsSucceed) (hsize : s.size + 32 ≤ wordSize)
    (hpos : 0 < s.size) (hcnt : s.freeMap.bitCnt = s.size) (hmarked : s.freeMap.MarkedBelow 2)
    (hnull : s.freeMapFile = none) (h : Returns freeMapCreate s Q) :
    2 + mapSectors s.size ≤ s.size := by
  have hn : 0 < mapSectors s.size := by
    rw [mapSectors_eq hsize]
    omega
  rw [freeMapCreate] at h
  simp only [returns_bind, returns_get, hcnt] at h
  obtain ⟨_, _, halloc, ⟨k, map, rfl, hfirst, -, -⟩ | ⟨rfl, -⟩⟩ :=
    freeMapAllocate_null_returns hnull (mapSectors s.size)
  · have hfits := ((hmarked.firstRun_iff hn).mp hfirst).2
    rwa [hcnt] at hfits
  · obtain ⟨_, t, hrun, rfl, -⟩ := inodeCreate_of_full (x := 0) hm
      (show 0 ≤ (byteCnt s.size : ℤ) by omega) halloc
    rw [returns_iff_of_run hrun, returns_assert] at h
    exact absurd h.1 (by decide)

theorem decodeEntry_zeros : (decodeEntry (replicate 20 0)).inUse = false := by decide

theorem VolInv.of_empty (hcnt : s.freeMap.bitCnt = s.size) (hn : n = mapSectors s.size)
    (hfits : 3 + n ≤ s.size) (hmarked : s.freeMap.MarkedBelow (3 + n))
    (hzero : inodeOn s.disk 0 = { start := 2, length := byteCnt s.size, magic := inodeMagic })
    (hone : inodeOn s.disk 1 = { start := 2 + n, length := 320, magic := inodeMagic })
    (hmap : slice s.disk (512 * 2) (byteCnt s.size) = s.freeMap.bytes)
    (hslot : ∀ i < 16, s.slot i = none) (horphan : ∀ x, ¬ s.Orphan x) : VolInv s := by
  have hnone : ∀ {x}, ¬ s.IsFile x := by
    rintro x (⟨i, hi, name, hx⟩ | hx)
    · rw [hslot i hi] at hx
      cases hx
    · exact horphan x hx
  have hdata : bytesToSectors (byteCnt s.size) = n := hn.symm
  have hholds : ∀ {o : Owner} {k}, o.Holds s k → (o = .freeMapInode ∧ k = 0) ∨
      (o = .rootDirInode ∧ k = 1) ∨ (o = .freeMapData ∧ 2 ≤ k ∧ k < 2 + n) ∨
      (o = .rootDirData ∧ k = 2 + n) := by
    rintro o k ⟨hpresent, h₁, h₂⟩
    cases o with
    | freeMapInode | rootDirInode =>
      simp only [Owner.extent] at h₁ h₂
      simp
      omega
    | freeMapData =>
      simp only [Owner.extent, dataRun, hzero, hdata] at h₁ h₂
      exact .inr (.inr (.inl ⟨rfl, h₁, h₂⟩))
    | rootDirData =>
      simp only [Owner.extent, dataRun, hone, bytesToSectors_rootDir] at h₁ h₂
      exact .inr (.inr (.inr ⟨rfl, by omega⟩))
    | fileInode x | fileData x => exact absurd hpresent hnone
  exact
    { bitCnt_eq := hcnt
      freeMap_length := by rw [hzero]
      rootDir_length := by rw [hone]
      file_length := fun hx => absurd hx hnone
      file_run_le := fun hx => absurd hx hnone
      owner_eq := fun {o p k} ho hp => by
        obtain ⟨rfl, h₁⟩ | ⟨rfl, h₁⟩ | ⟨rfl, h₁⟩ | ⟨rfl, h₁⟩ := hholds ho <;>
          obtain ⟨rfl, h₂⟩ | ⟨rfl, h₂⟩ | ⟨rfl, h₂⟩ | ⟨rfl, h₂⟩ := hholds hp <;>
          first | rfl | omega
      owner_lt := fun {o k} ho => by
        obtain ⟨-, h₁⟩ | ⟨-, h₁⟩ | ⟨-, h₁⟩ | ⟨-, h₁⟩ := hholds ho <;> omega
      owner_marked := fun {o k} ho => by
        have hlt : k < 3 + n := by
          obtain ⟨-, h₁⟩ | ⟨-, h₁⟩ | ⟨-, h₁⟩ | ⟨-, h₁⟩ := hholds ho <;> omega
        rw [hmarked k (by omega)]
        exact decide_eq_true hlt
      name_valid := fun hi hx => by
        rw [hslot _ hi] at hx
        cases hx
      name_inj := fun hi _ hx _ => by
        rw [hslot _ hi] at hx
        cases hx
      sector_inj := fun hi _ hx _ => by
        rw [hslot _ hi] at hx
        cases hx
      orphan_unbound := fun hx => absurd hx (horphan _)
      diskBit_eq := fun {i} hi => by
        rw [diskBit, hzero, hmap]
        exact VolInv.bitOf_bytes (by omega) }

structure RootMade (size : ℕ) (s : FsState) (a : ℕ) : Prop where
  vol : VolInv s
  mallocs : s.MallocsSucceed
  size_eq : s.size = size
  marked : s.freeMap.MarkedBelow (3 + mapSectors size)
  slot_eq : ∀ i < 16, s.slot i = none
  file_eq : s.freeMapFile = some { inode := a, pos := 0, denyWrite := false }
  inode_eq : ∃ data, s.inodes a = some { sector := 0, openCnt := 1, removed := false,
                                         denyWriteCnt := 0, data }
  open_eq : s.openInodes = [a]

theorem root_disk {d : InodeDisk} (disk : ℕ → UInt8) (hn : 2 + n < wordSize)
    (hstart : d.start = 2 + n) (hlen : d.length = 320) (hmagic : d.magic = inodeMagic)
    {disk' : ℕ → UInt8} (hdisk : disk' = patch (patch disk (512 * 1) (encodeInode d))
      (512 * (2 + n)) (replicate (512 * 1) 0)) :
    inodeOn disk' 1 = d ∧ AgreeOn (fun k => k ≠ 1 ∧ k < 2 + n) disk disk' ∧
      ∀ i < 16, slice disk' (512 * (2 + n) + 20 * i) 20 = replicate 20 0 := by
  subst hdisk
  refine ⟨?_, ?_, fun i hi => ?_⟩
  · have hmade := inodeOn_made (x := 1) (n := 1) disk (by omega) (by omega) (by omega) hmagic
      fun k hk _ => by omega
    rwa [hstart] at hmade
  · refine (agreeOn_patch fun i h₁ h₂ h => ?_).trans (agreeOn_patch fun i h₁ h₂ h => ?_)
    · rw [length_encodeInode] at h₂
      omega
    · rw [length_replicate] at h₂
      omega
  · have hall := slice_zeros (patch disk (512 * 1) (encodeInode d)) (512 * (2 + n))
      (le_refl (512 * 1))
    rw [← take_slice (n := 512 - 20 * i) (by omega), ← drop_slice (n := 512 * 1) (by omega), hall,
      drop_replicate, take_replicate, show min 20 (512 * 1 - 20 * i) = 20 by omega]

theorem dirCreate_root_returns (hmade : MapMade size s a) (hsize : size + 32 ≤ wordSize)
    (hfits : 3 + mapSectors size ≤ size) :
    Returns (dirCreate 1 16) s fun ok t => ok = true ∧ RootMade size t a := by
  have hcnt := hmade.bitCnt_eq
  have hsz := hmade.size_eq
  have hbelow := hmade.marked
  obtain ⟨n, hn⟩ : ∃ n, mapSectors size = n := ⟨_, rfl⟩
  rw [hn] at hbelow hfits
  obtain ⟨_ | k, s₁, halloc, hs₁⟩ := freeMapAllocate_returns hmade.mallocs (hmade.mapFile hsize) 1
  · have hfirst := (hbelow.firstRun_iff (k := 2 + n) (n := 1) Nat.one_pos).mpr ⟨rfl, by omega⟩
    exact absurd hfirst.1 (hs₁.1 _)
  · obtain ⟨map, hfirst, hset, hwith⟩ := hs₁
    obtain ⟨rfl, -⟩ := (hbelow.firstRun_iff Nat.one_pos).mp hfirst
    have hsz₁ : s₁.size = size := by
      rw [hwith]
      exact hsz
    have hsectors : bytesToSectors ((16 * 20 : ℕ) : ℤ) = 1 := bytesToSectors_rootDir
    refine (inodeCreate_of_allocate (x := 1) hmade.mallocs (show 0 ≤ ((16 * 20 : ℕ) : ℤ) by omega)
      (by rw [hsectors]; exact halloc) (by omega) (by rw [hsectors]; omega) (by omega)).mono ?_
    rintro _ t ⟨rfl, ht⟩
    obtain ⟨hone, hagree, hdata⟩ := root_disk (n := n) (d := ⟨2 + n, (16 * 20 : ℕ), inodeMagic⟩)
      s₁.disk (by omega) rfl rfl rfl (congrArg FsState.disk ht)
    have hmap : t.freeMap = map := by
      rw [ht, hwith]
      rfl
    have hcnt' : map.bitCnt = size := hset.bitCnt_eq.trans hcnt
    have hzero : inodeOn t.disk 0 = inodeOn s.disk 0 := by
      rw [hagree.inodeOn_eq ⟨by omega, by omega⟩, hwith]
      exact inodeOn_withMap_two s map
    have hsz' : t.size = size := by
      rw [ht]
      exact hsz₁
    have hinode : t.inodes a = some { sector := 0, openCnt := 1, removed := false,
                                      denyWriteCnt := 0, data := inodeOn s.disk 0 } := by
      rw [ht, hwith]
      exact hmade.inode_eq
    have hopen : t.openInodes = [a] := by
      rw [ht, hwith]
      exact hmade.open_eq
    have hmarked : t.freeMap.MarkedBelow (3 + n) := by
      rw [hmap, show 3 + n = 2 + n + 1 by omega]
      exact hbelow.isSet hset
    have hslot : ∀ i < 16, t.slot i = none := by
      intro i hi
      rw [slot_eq_none_iff, entry, slotOfs, hone]
      rw [hdata i hi]
      exact decodeEntry_zeros
    have hbytes : slice t.disk (512 * 2) (byteCnt size) = map.bytes := by
      have hroom := mapSectors_eq hsize
      rw [hagree.slice_eq (a := 2) (c := n) (fun k h₁ h₂ => ⟨by omega, by omega⟩)
        le_rfl (by rw [byteCnt_eq hsize]; omega), hwith, ← hcnt', ← map.length_bytes]
      exact slice_patch_eq
    have horphan : ∀ x, ¬ t.Orphan x := by
      rintro x ⟨b, hb, ino, hb', -, hremoved⟩
      rw [hopen, mem_singleton] at hb
      subst hb
      obtain rfl := Option.some.inj (hinode.symm.trans hb')
      cases hremoved
    refine ⟨rfl, ?_, ?_, hsz', by rw [hn]; exact hmarked, hslot, ?_, ⟨_, hinode⟩, hopen⟩
    · refine VolInv.of_empty (n := n) ?_ ?_ ?_ hmarked ?_ ?_ ?_ hslot horphan
      · rw [hmap, hcnt', hsz']
      · rw [hsz', hn]
      · rw [hsz']
        exact hfits
      · rw [hzero, hmade.inodeOn_eq, hsz']
      · rw [hone]
        rfl
      · rw [hsz', hbytes, hmap]
    · rw [ht, hwith]
      exact hmade.mallocs
    · rw [ht, hwith]
      exact hmade.file_eq

theorem dirCreate_root_full (hmade : MapMade size s a) (hsize : size + 32 ≤ wordSize)
    (hfull : ¬ 3 + mapSectors size ≤ size) : Returns (dirCreate 1 16) s fun ok _ => ok = false := by
  have hsectors : bytesToSectors ((16 * 20 : ℕ) : ℤ) = 1 := bytesToSectors_rootDir
  obtain ⟨_ | k, s₁, halloc, hs₁⟩ := freeMapAllocate_returns hmade.mallocs (hmade.mapFile hsize) 1
  · refine (inodeCreate_of_full (x := 1) hmade.mallocs (show 0 ≤ ((16 * 20 : ℕ) : ℤ) by omega)
      (by rw [hsectors]; exact halloc)).mono ?_
    rintro _ t ⟨rfl, -⟩
    rfl
  · obtain ⟨map, hfirst, -, -⟩ := hs₁
    have hfit := ((hmade.marked.firstRun_iff Nat.one_pos).mp hfirst).2
    rw [hmade.bitCnt_eq] at hfit
    omega

/-- **A formatted device**: nothing but the free map is open, the directory is empty, and
the marked sectors are those of the free map and of the root directory. -/
structure Formatted (size : ℕ) (s : FsState) : Prop where
  inv : ∃ a, FsInv (oneRef a) s
  size_eq : s.size = size
  slot_eq : ∀ i < 16, s.slot i = none
  marked : s.freeMap.MarkedBelow (3 + mapSectors size)

def boot (size : ℕ) (disk : ℕ → UInt8) : FsState where
  size
  disk
  freeMap := ⟨0, fun _ => 0, (Nat.lt_two_pow_self (n := 32)).le⟩
  freeMapFile := none
  inodes := fun _ => none
  openInodes := []
  nextInode := 0
  mallocs := fun _ => true

/-- **Formatting** a device with room for the free map and the root directory. -/
theorem filesysInit_format_returns (disk : ℕ → UInt8) (fill : ℕ → BitVec 32)
    (hsize : size + 32 ≤ wordSize) (hfits : 3 + mapSectors size ≤ size) :
    Returns (filesysInit fill true) (boot size disk) fun _ t => Formatted size t := by
  have hm : (boot size disk).MallocsSucceed := fun _ => rfl
  rw [filesysInit]
  simp only [returns_bind, returns_modify]
  refine (freeMapInit_returns (s := boot size disk) fill hm (show 0 < size by omega) hsize).mono ?_
  rintro _ _ ⟨map, rfl, hcnt, hmarked⟩
  have hbelow : map.MarkedBelow 2 := fun k hk => hmarked k (hcnt ▸ hk)
  simp only [if_true, doFormat, returns_bind]
  refine (freeMapCreate_returns (s := (boot size disk).setFreeMap map) hm hsize hcnt hbelow rfl rfl
    (show 2 + mapSectors size ≤ size by omega)).mono ?_
  rintro _ s₁ ⟨a, hmade⟩
  refine (dirCreate_root_returns hmade hsize hfits).mono ?_
  rintro _ s₂ ⟨rfl, hroot⟩
  obtain ⟨data, hinode⟩ := hroot.inode_eq
  rw [returns_assert]
  refine ⟨rfl, (freeMapClose_returns hroot.file_eq rfl hinode rfl rfl).mono ?_⟩
  rintro _ s₃ ⟨hv, hmallocs, hopen⟩
  have hm₃ : s₃.MallocsSucceed := fun n => by rw [hmallocs, hroot.mallocs n]
  have hopen₃ : s₃.openInodes = [] := by
    rw [hopen, hroot.open_eq]
    exact erase_cons_head ..
  refine (freeMapOpen_returns hroot.vol hv.disk_eq hv.size_eq hm₃ hopen₃ ?_).mono ?_
  · rw [hv.freeMap_eq, hv.size_eq, hroot.vol.bitCnt_eq]
  · rintro _ t ⟨hinv, hsize', hdisk, hbit⟩
    have hslot : ∀ i < 16, t.slot i = none := fun i hi => by
      rw [slot, entry, slotOfs, hdisk, ← slotOfs, ← entry, ← slot]
      exact hroot.slot_eq i hi
    refine ⟨hinv, hsize'.trans hroot.size_eq, hslot, fun k hk => ?_⟩
    obtain ⟨b, hinv⟩ := hinv
    rw [hinv.vol.bitCnt_eq, hsize'] at hk
    rw [hbit k hk]
    exact hroot.marked k (by rw [hroot.vol.bitCnt_eq]; exact hk)

theorem size_of_format {disk : ℕ → UInt8} (h : Returns (filesysInit fill true) (boot size disk) Q) :
    size + 32 ≤ wordSize ∧ 3 + mapSectors size ≤ size := by
  have hm : (boot size disk).MallocsSucceed := fun _ => rfl
  rw [filesysInit] at h
  simp only [returns_bind, returns_modify] at h
  obtain ⟨hpos, hsize⟩ := size_of_freeMapInit (s := boot size disk) hm h
  refine ⟨hsize, ?_⟩
  obtain ⟨_, _, hrun, map, rfl, hcnt, hmarked⟩ :=
    freeMapInit_returns (s := boot size disk) fill hm hpos hsize
  have hbelow : map.MarkedBelow 2 := fun k hk => hmarked k (hcnt ▸ hk)
  have h := (returns_iff_of_run hrun _).mp h
  simp only [if_true, doFormat, returns_bind] at h
  have hfits : 2 + mapSectors size ≤ size :=
    size_of_freeMapCreate (s := (boot size disk).setFreeMap map) hm hsize hpos hcnt hbelow rfl h
  obtain ⟨_, s₁, hrun₁, a, hmade⟩ := freeMapCreate_returns (s := (boot size disk).setFreeMap map) hm
    hsize hcnt hbelow rfl rfl hfits
  rw [returns_iff_of_run hrun₁] at h
  by_contra hfull
  obtain ⟨_, s₂, hrun₂, rfl⟩ := dirCreate_root_full hmade hsize hfull
  rw [returns_iff_of_run hrun₂, returns_assert] at h
  exact absurd h.1 (by decide)

theorem fits_iff (hsize : size + 32 ≤ wordSize) : 3 + mapSectors size ≤ size ↔ 4 ≤ size := by
  rw [mapSectors_eq hsize]
  omega

/-- A state that **formatting** a device leaves. -/
def JustFormatted (s : FsState) : Prop :=
  ∃ size disk fill, (filesysInit fill true).run (boot size disk) = .ok ((), s)

theorem JustFormatted.formatted (h : JustFormatted s) : Formatted s.size s := by
  obtain ⟨size, disk, fill, hrun⟩ := h
  obtain ⟨hsize, hfits⟩ := size_of_format ((returns_iff_of_run hrun fun _ _ => True).mpr trivial)
  have hf := (filesysInit_format_returns disk fill hsize hfits).of_run hrun
  exact hf.size_eq ▸ hf

theorem exists_justFormatted (size : ℕ) (h4 : 4 ≤ size) (hsize : size + 32 ≤ wordSize) :
    ∃ s, JustFormatted s ∧ s.size = size := by
  obtain ⟨_, s, hrun, hf⟩ := filesysInit_format_returns (fun _ => 0) (fun _ => 0) hsize
    ((fits_iff hsize).mpr h4)
  exact ⟨s, ⟨size, _, _, hrun⟩, hf.size_eq⟩

/-! ### Shutting down and mounting again -/

/-- **Shutting down and mounting again**, with whatever else is open or in memory: free map
and device are those from before. -/
theorem remount_returns {refs : ℕ → ℕ} (hinv : FsInv refs s)
    (hone : ∀ {b v}, b ∈ s.openInodes → s.target b = some (0, v) → refs b = 1) :
    Returns filesysDone s fun _ t => ∀ (u : FsState) (fill : ℕ → BitVec 32),
      u.disk = t.disk → u.size = t.size → u.MallocsSucceed →
        Returns (filesysInit fill false) u fun _ v => Mounted s v := by
  obtain ⟨file, v, hfile, hdeny, hmem, hzero⟩ := hinv.table.mapFile
  obtain ⟨ino, hino, hcnt, -⟩ := hinv.table.node hmem
  have hrefs := hone hmem hzero
  have hremoved : ino.removed = false := by
    rw [target_eq hino] at hzero
    obtain ⟨hz, -⟩ := Prod.mk.inj (Option.some.inj hzero)
    exact hinv.not_removed (.inl hz) hmem (target_eq hino)
  refine (freeMapClose_returns hfile hdeny hino (by rw [hcnt, hrefs]; rfl) hremoved).mono ?_
  rintro _ t ⟨hv, -, -⟩ u fill hdisk hsize hm
  have hdisk' : u.disk = s.disk := hdisk.trans hv.disk_eq
  have hsize' : u.size = s.size := hsize.trans hv.size_eq
  have hpos : 0 < u.size := hsize' ▸ hinv.vol.owner_lt VolInv.holds_zero
  rw [filesysInit]
  simp only [returns_bind, returns_modify]
  refine (freeMapInit_returns (s := { u with openInodes := [] }) fill hm hpos
    (hsize' ▸ hinv.vol.size_le)).mono ?_
  rintro _ _ ⟨map, rfl, hmap, -⟩
  simp only [Bool.false_eq_true, if_false]
  exact freeMapOpen_returns (s := { u with openInodes := [] }.setFreeMap map) hinv.vol hdisk' hsize'
    hm rfl hmap

end

end OsMaterial
