import OsMaterial.OpenInodes

/-!
# What the File System Calls Do

What `lookup` and `filesys_create` do, from any state with the invariant: they return, the invariant
holds again, and the old state determines the result.

* `filesysCreate_returns`: every way `filesys_create` can end, with the free map after it.
-/

namespace OsMaterial

open List

variable {x i n : ℕ} {size : ℤ} {u : FsState} {map : Bitmap} {name : CString} {e : DirEntry}

open FsState

section

variable {refs : ℕ → ℕ} {s t : FsState} {a : ℕ}

/-! ### What is kept -/

/-- **Every file keeps its bytes.** -/
structure Keeps (s t : FsState) : Prop where
  isFile : ∀ {x}, s.IsFile x → t.IsFile x
  contents_eq : ∀ {x}, s.IsFile x → t.contents x = s.contents x

theorem Keeps.refl (s : FsState) : Keeps s s := ⟨id, fun _ => rfl⟩

theorem Keeps.trans (h : Keeps s t) (h' : Keeps t u) : Keeps s u :=
  ⟨fun hx => h'.isFile (h.isFile hx), fun hx => (h'.contents_eq (h.isFile hx)).trans
    (h.contents_eq hx)⟩

theorem VolInv.contents_eq (h : VolInv s) (hx : s.IsFile x)
    (hdisk : AgreeOn (s.OwnedBy fun o => o = .fileInode x ∨ o = .fileData x) s.disk t.disk) :
    t.contents x = s.contents x := by
  have hinode : inodeOn t.disk x = inodeOn s.disk x :=
    hdisk.inodeOn_eq ⟨.fileInode x, .inl rfl, holds_fileInode hx⟩
  have hroom := le_bytesToSectors (h.file_length hx) (inodeOn_length_lt s.disk x)
  rw [FsState.contents, hinode, FsState.contents]
  exact hdisk.slice_eq (a := (inodeOn s.disk x).start)
    (c := bytesToSectors (inodeOn s.disk x).length)
    (fun k h₁ h₂ => ⟨.fileData x, .inr rfl, hx, h₁, h₂⟩) le_rfl (by omega)

theorem VolInv.keeps (h : VolInv s) (hfile : ∀ {x}, s.IsFile x → t.IsFile x)
    (hdisk : AgreeOn (s.OwnedBy fun o => ∃ x, o = .fileInode x ∨ o = .fileData x) s.disk t.disk) :
    Keeps s t :=
  ⟨hfile, fun {x} hx => h.contents_eq hx (hdisk.mono fun _ ⟨o, ho, hk⟩ => ⟨o, ⟨x, ho⟩, hk⟩)⟩

theorem SameVolume.keeps (hv : SameVolume s t) (horphan : ∀ x, s.Orphan x → t.Orphan x) :
    Keeps s t :=
  ⟨fun {x} => Or.imp (hv.bound_iff x).mpr (horphan x), fun {x} _ => by
    rw [FsState.contents, hv.disk_eq, FsState.contents]⟩

theorem VolInv.keeps_withMap (h : VolInv s) (hcnt : map.bitCnt = s.freeMap.bitCnt) :
    Keeps s (s.withMap (inodeOn s.disk 0).start map) := by
  have hbound := bound_iff_of_slot fun i hi => h.slot_eq_of_agree (h.agreeOn_meta_withMap hcnt) hi
  refine h.keeps (fun {x} => Or.imp_left (hbound x).mpr) ((h.agreeOn_withMap hcnt).mono ?_)
  rintro k ⟨o, ⟨x, rfl | rfl⟩, hk⟩
  · exact ⟨_, by simp, hk⟩
  · exact ⟨_, by simp, hk⟩

/-! ### Reading the directory -/

/-- Inode `a` is the open root directory. -/
structure IsRoot (refs : ℕ → ℕ) (s : FsState) (a : ℕ) : Prop where
  open_pos : 0 < refs a
  target_eq : ∃ d, s.target a = some (1, false, d)

theorem IsRoot.node (hroot : IsRoot refs s a) (h : FsInv refs s) :
    ∃ ino, s.inodes a = some ino ∧ ino.denyWriteCnt = 0 ∧ ino.data = inodeOn s.disk 1 := by
  obtain ⟨ino, hino, -, hdeny, hdata, -⟩ := h.table.node ((h.table.mem_iff a).mpr hroot.open_pos)
  obtain ⟨d, htarget⟩ := hroot.target_eq
  rw [FsState.target_eq hino] at htarget
  obtain ⟨hsector, -⟩ := Prod.mk.inj (Option.some.inj htarget)
  exact ⟨ino, hino, hdeny (by omega), hsector ▸ hdata⟩

/-- The result of a search that began at entry `i`: the first entry that `stop` holds of,
or none. -/
def Scanned (s : FsState) (stop : DirEntry → Bool) (i : ℕ) (r : Bool × DirEntry × ℕ) : Prop :=
  (∃ j < 16, stop (s.entry j) = true ∧ (∀ k, i ≤ k → k < j → stop (s.entry k) = false) ∧
    r = (true, s.entry j, 20 * j)) ∨
  ((∀ j < 16, i ≤ j → stop (s.entry j) = false) ∧ ∃ e, r = (false, e, 320))

theorem scanEntries_returns (hroot : IsRoot refs s a) (h : FsInv refs s) (stop : DirEntry → Bool) :
    Returns (scanEntries a stop) s fun r t => Scanned s stop 0 r ∧ t = s := by
  obtain ⟨ino, hino, -, hdata⟩ := hroot.node h
  have hsize := h.vol.size_le
  have hslots : (inodeOn s.disk 1).slots = 16 := by
    rw [InodeDisk.slots, h.vol.rootDir_length]
    rfl
  have hscan := scanEntries_found h.table.mallocs hino (hdata ▸ h.vol.fits (.inr (.inl rfl)))
    (by omega) stop
  rw [hdata] at hscan
  refine hscan.mono ?_
  rintro q t ⟨rfl, r, hfound, hq⟩
  refine ⟨?_, rfl⟩
  cases hfound with
  | @entry j hj _ hstop hfirst => exact .inl ⟨j, hslots ▸ hj, hstop, hfirst, hq⟩
  | none hrest =>
    rw [InodeDisk.Scan, hslots] at hq
    exact .inr ⟨fun j hj => hrest j (hslots ▸ hj), hq⟩

/-! ### Names -/

def FsState.BoundName (s : FsState) (name : CString) : Prop :=
  ∃ i < 16, ∃ x, s.slot i = some (name.bytes, x)

def FsState.DirFull (s : FsState) : Prop :=
  ∀ i < 16, s.slot i ≠ none

theorem slot_eq_none_iff : s.slot i = none ↔ (s.entry i).inUse = false := by
  rw [slot]
  cases (s.entry i).inUse <;> simp

theorem matches_iff : (s.entry i).Matches name = true ↔ ∃ x, s.slot i = some (name.bytes, x) := by
  rw [slot, DirEntry.Matches]
  cases (s.entry i).inUse <;> simp [eq_comm]

theorem inodeSector_of_slot {name : Bytes} (h : s.slot i = some (name, x)) :
    (s.entry i).inodeSector = x := by
  rw [slot] at h
  split at h
  · exact congrArg Prod.snd (Option.some.inj h)
  · cases h

def LookedUp (s : FsState) (name : CString) (r : Option (DirEntry × ℕ)) : Prop :=
  (∃ i < 16, ∃ x, s.slot i = some (name.bytes, x) ∧ (s.entry i).inodeSector = x ∧
    r = some (s.entry i, 20 * i)) ∨ (¬ s.BoundName name ∧ r = none)

/-- **`lookup`** finds the entry that binds the name. -/
theorem lookup_returns (hroot : IsRoot refs s a) (h : FsInv refs s) (pos : ℕ) (name : CString) :
    Returns (lookup ⟨a, pos⟩ name) s fun r t => LookedUp s name r ∧ t = s := by
  rw [lookup, returns_bind]
  refine (scanEntries_returns hroot h _).mono ?_
  rintro r t ⟨⟨i, hi, hmatch, -, rfl⟩ | ⟨hnone, e, rfl⟩, rfl⟩
  · obtain ⟨x, hx⟩ := matches_iff.mp hmatch
    rw [returns_pure, if_pos rfl]
    exact ⟨.inl ⟨i, hi, x, hx, inodeSector_of_slot hx, rfl⟩, rfl⟩
  · rw [returns_pure, if_neg (by decide)]
    refine ⟨.inr ⟨?_, rfl⟩, rfl⟩
    rintro ⟨i, hi, hx⟩
    exact Bool.false_ne_true ((hnone i hi (Nat.zero_le i)).symm.trans (matches_iff.mpr hx))

/-! ### Writing the directory -/

@[simp] theorem FsState.patchDisk_nil (s : FsState) (ofs : ℕ) : s.patchDisk ofs [] = s := by
  simp only [patchDisk, patch_nil]

theorem IsRoot.inodeWriteAt_returns (hroot : IsRoot refs s a) (h : FsInv refs s)
    (hname : e.name.length = 15) (hi : i < 16) (Q : ℕ → FsState → Prop) :
    Returns (inodeWriteAt a (encodeEntry e) (20 * i)) s Q ↔
      Q 20 (s.patchDisk (s.slotOfs i) (encodeEntry e)) := by
  obtain ⟨ino, hino, hdeny, hdata⟩ := hroot.node h
  have hsize := h.vol.size_le
  have hlen := length_encodeEntry hname
  have hclip : clip ino.data (encodeEntry e).length (20 * i) = 20 := by
    rw [clip, hdata, h.vol.rootDir_length, hlen, show ((320 : ℤ)).toNat = 320 from rfl]
    omega
  rw [OsMaterial.inodeWriteAt_returns h.table.mallocs hino hdeny
    (hdata ▸ h.vol.fits (.inr (.inl rfl))) (by omega), hclip, hdata, slotOfs,
    take_of_length_le (by omega)]

theorem IsRoot.inodeWriteAt_end_returns (hroot : IsRoot refs s a) (h : FsInv refs s)
    (buffer : Bytes) (Q : ℕ → FsState → Prop) :
    Returns (inodeWriteAt a buffer 320) s Q ↔ Q 0 s := by
  obtain ⟨ino, hino, hdeny, hdata⟩ := hroot.node h
  have hsize := h.vol.size_le
  have hclip : clip ino.data buffer.length 320 = 0 := by
    rw [clip, hdata, h.vol.rootDir_length]
    exact Nat.min_zero _
  rw [OsMaterial.inodeWriteAt_returns h.table.mallocs hino hdeny
    (hdata ▸ h.vol.fits (.inr (.inl rfl))) (by omega), hclip, take_zero,
    patchDisk_nil]

theorem FsState.Fresh.contents_eq (hfresh : s.Fresh x)
    (hdisk : AgreeOn (fun k => ∀ o : Owner, ¬ o.Holds s k) s.disk t.disk) :
    t.contents x = s.contents x := by
  have hinode : inodeOn t.disk x = inodeOn s.disk x := hdisk.inodeOn_eq hfresh.sector_unowned
  have hroom := le_bytesToSectors hfresh.length_nonneg (inodeOn_length_lt s.disk x)
  rw [FsState.contents, hinode, FsState.contents]
  exact hdisk.slice_eq (a := (inodeOn s.disk x).start)
    (c := bytesToSectors (inodeOn s.disk x).length)
    (fun k h₁ h₂ => hfresh.run_unowned k h₁ h₂) le_rfl (by omega)

structure SlotBound (s : FsState) (i : ℕ) (name : CString) (x : ℕ) (t : FsState) : Prop where
  lt : i < 16
  free : s.slot i = none
  slot_eq : t.slot i = some (name.bytes, x)
  slot_other : ∀ j < 16, j ≠ i → t.slot j = s.slot j

theorem FsInv.bind (h : FsInv refs s) (hfresh : s.Fresh x) (hi : i < 16) (hfree : s.slot i = none)
    (hvalid : name.Valid) (hunbound : ¬ s.BoundName name) (hlen : e.name.length = 15)
    (huse : e.inUse = true) (hname : cstring e.name = name.bytes) (hsector : e.inodeSector = x) :
    FsInv refs (s.patchDisk (s.slotOfs i) (encodeEntry e)) ∧
      SlotBound s i name x (s.patchDisk (s.slotOfs i) (encodeEntry e)) ∧
      Keeps s (s.patchDisk (s.slotOfs i) (encodeEntry e)) ∧
      (s.patchDisk (s.slotOfs i) (encodeEntry e)).contents x = s.contents x := by
  set t := s.patchDisk (s.slotOfs i) (encodeEntry e) with ht
  have hsize := h.vol.size_le
  obtain ⟨hself, hother⟩ := VolInv.slot_patch_of_start_ne (t := t) h.vol.rootDir_start_ne hi hlen
    (by rw [hsector]; have := hfresh.sector_lt; omega) rfl
  rw [if_pos huse, hname, hsector] at hself
  have hfile : ∀ y, s.IsFile y → t.IsFile y := by
    rintro y (⟨j, hj, n, hn⟩ | hy)
    · have hji : j ≠ i := by
        rintro rfl
        rw [hfree] at hn
        cases hn
      exact .inl ⟨j, hj, n, (hother j hj hji).trans hn⟩
    · exact .inr hy
  have hvol : VolInv t := h.vol.bind hfresh hi hfree hvalid
    (fun j hj y hy => hunbound ⟨j, hj, y, hy⟩) hlen huse hname hsector
  refine ⟨⟨hvol, h.table.of_disk rfl rfl rfl rfl rfl
      (h.vol.frame_entry (t := t) hi hlen rfl rfl rfl).1 hfile⟩,
    ⟨hi, hfree, hself, hother⟩, h.vol.keeps (fun {y} => hfile y) ?_, hfresh.contents_eq ?_⟩
  · refine (h.vol.agreeOn_entry hi hlen).mono ?_
    rintro k ⟨o, ⟨y, rfl | rfl⟩, hk⟩
    · exact ⟨_, by simp, hk⟩
    · exact ⟨_, by simp, hk⟩
  · refine agreeOn_patch fun j h₁ h₂ hunowned => ?_
    rw [length_encodeEntry hlen, slotOfs] at h₂
    rw [slotOfs] at h₁
    have hk : j / 512 = (inodeOn s.disk 1).start := by omega
    exact hunowned _ (hk ▸ h.vol.holds_rootDirData)

def Added (refs : ℕ → ℕ) (s : FsState) (name : CString) (x : ℕ) (ok : Bool) (t : FsState) :
    Prop :=
  (ok = true ∧ name.Valid ∧ ¬ s.BoundName name ∧ FsInv refs t ∧ Keeps s t ∧
    t.contents x = s.contents x ∧ ∃ i e, SlotBound s i name x t ∧
      t = s.patchDisk (s.slotOfs i) (encodeEntry e)) ∨
  (ok = false ∧ (¬ name.Valid ∨ s.BoundName name ∨ s.DirFull) ∧ t = s)

theorem dirAdd_returns (hroot : IsRoot refs s a) (h : FsInv refs s) (hfresh : s.Fresh x) (pos : ℕ)
    (name : CString) : Returns (dirAdd ⟨a, pos⟩ name x) s (Added refs s name x) := by
  rw [dirAdd]
  by_cases hvalid : name.Valid
  · rw [if_pos hvalid, returns_bind]
    refine (lookup_returns hroot h pos name).mono ?_
    rintro r t ⟨⟨i, hi, y, hslot, -, rfl⟩ | ⟨hunbound, rfl⟩, rfl⟩
    · exact (returns_pure ..).mpr (.inr ⟨rfl, .inr (.inl ⟨i, hi, y, hslot⟩), rfl⟩)
    · simp only [returns_bind]
      refine (scanEntries_returns hroot h _).mono ?_
      rintro r s ⟨⟨i, hi, hfree, -, rfl⟩ | ⟨hfull, e, rfl⟩, rfl⟩
      · have hlen : (s.entry i).name.length = 15 := by simp [FsState.entry, decodeEntry]
        obtain ⟨hcopy, hread⟩ := hvalid.strlcpy hlen
        rw [hroot.inodeWriteAt_returns h hcopy hi, returns_pure]
        obtain ⟨hinv, hbound, hkeeps, hcontents⟩ := h.bind hfresh hi
          (slot_eq_none_iff.mpr (by simpa using hfree)) hvalid hunbound
          (e := { s.entry i with inUse := true, name := strlcpy (s.entry i).name name,
                                 inodeSector := x })
          hcopy rfl hread rfl
        exact .inl ⟨rfl, hvalid, hunbound, hinv, hkeeps, hcontents, i, _, hbound, rfl⟩
      · rw [hroot.inodeWriteAt_end_returns h, returns_pure]
        refine .inr ⟨rfl, .inr (.inr fun i hi hnone => ?_), rfl⟩
        have := hfull i hi (Nat.zero_le i)
        rw [slot_eq_none_iff] at hnone
        simp [hnone] at this
  · rw [if_neg hvalid]
    exact (returns_pure ..).mpr (.inr ⟨rfl, .inl hvalid, rfl⟩)

/-! ### Making a file -/

structure SameTable (s t : FsState) : Prop where
  inodes_eq : t.inodes = s.inodes
  openInodes_eq : t.openInodes = s.openInodes

theorem SameTable.trans (h : SameTable s t) (h' : SameTable t u) : SameTable s u :=
  ⟨h'.1.trans h.1, h'.2.trans h.2⟩

theorem SameTable.target_eq (h : SameTable s t) (b : ℕ) : t.target b = s.target b := by
  rw [target, h.inodes_eq, target]

structure Kept (refs : ℕ → ℕ) (s t : FsState) : Prop where
  inv : FsInv refs t
  keeps : Keeps s t
  table : SameTable s t
  size_eq : t.size = s.size
  slot_eq : ∀ i < 16, t.slot i = s.slot i
  owner : ∀ {o : Owner} {k}, o.Holds t k → o.Holds s k

theorem Kept.trans (h : Kept refs s t) (h' : Kept refs t u) : Kept refs s u :=
  ⟨h'.inv, h.keeps.trans h'.keeps, h.table.trans h'.table, h'.size_eq.trans h.size_eq,
    fun i hi => (h'.slot_eq i hi).trans (h.slot_eq i hi), fun ho => h.owner (h'.owner ho)⟩

theorem FsInv.kept_withMap (h : FsInv refs s) (hcnt : map.bitCnt = s.freeMap.bitCnt)
    (hmarked : ∀ {o : Owner} {k}, o.Holds s k → map.bit k = true) :
    Kept refs s (s.withMap (inodeOn s.disk 0).start map) :=
  ⟨h.withMap hcnt hmarked, h.vol.keeps_withMap hcnt, ⟨rfl, rfl⟩, rfl,
    fun _ hi => h.vol.slot_eq_of_agree (h.vol.agreeOn_meta_withMap hcnt) hi,
    fun ho => h.vol.holds_of_withMap hcnt ho⟩

theorem FsInv.kept_patchDisk (h : FsInv refs s) {ofs : ℕ} {bytes : Bytes}
    (hunowned : ∀ i, ofs ≤ i → i < ofs + bytes.length → ∀ o : Owner, ¬ o.Holds s (i / 512)) :
    Kept refs s (s.patchDisk ofs bytes) := by
  have hdisk : ∀ P, AgreeOn (s.OwnedBy P) s.disk (s.patchDisk ofs bytes).disk := fun P =>
    agreeOn_patch fun i h₁ h₂ ⟨o, _, ho⟩ => hunowned i h₁ h₂ o ho
  have hslot := fun i hi => h.vol.slot_eq_of_agree (i := i) (hdisk _) hi
  have hbound := VolInv.bound_iff_of_slot hslot
  have hinode := fun x => VolInv.inodeOn_eq_of_agree (x := x) (hdisk Owner.IsMeta)
  exact ⟨⟨h.vol.patchData (hdisk _), h.table.of_disk rfl rfl rfl rfl rfl hinode
      fun x => Or.imp_left (hbound x).mpr⟩,
    h.vol.keeps (fun {x} => Or.imp_left (hbound x).mpr) (hdisk _), ⟨rfl, rfl⟩, rfl, hslot,
    fun ho => VolInv.holds_of_holds (s := s) (t := s.patchDisk ofs bytes)
      (fun x => Or.imp_left (hbound x).mp) hinode ho⟩

theorem FsInv.freeMapAllocate_returns (h : FsInv refs s) (cnt : ℕ) :
    Returns (freeMapAllocate cnt) s fun r t =>
      (∃ k map, r = some k ∧ s.freeMap.FirstRun k cnt false ∧ s.freeMap.IsSet k cnt true map ∧
        t = s.withMap (inodeOn s.disk 0).start map ∧ Kept refs s t) ∨
      (r = none ∧ (∀ k, ¬ s.freeMap.Run k cnt false) ∧ t = s) := by
  obtain ⟨file, ino, hf⟩ := h.exists_mapFile
  refine (OsMaterial.freeMapAllocate_returns h.table.mallocs hf cnt).mono ?_
  rintro (_ | k) t ht
  · exact .inr ⟨rfl, ht.1, ht.2⟩
  · obtain ⟨map, hfirst, hset, rfl⟩ := ht
    refine .inl ⟨k, map, rfl, hfirst, hset, rfl, h.kept_withMap hset.bitCnt_eq fun {o k} ho => ?_⟩
    rw [hset.bit_eq]
    split
    · rfl
    · exact h.vol.owner_marked ho

def InodeMade (refs : ℕ → ℕ) (s : FsState) (x : ℕ) (length : ℤ) (ok : Bool) (t : FsState) :
    Prop :=
  (ok = true ∧ Kept refs s t ∧ t.Fresh x ∧ t.contents x = replicate length.toNat 0 ∧
    ∃ start, s.freeMap.FirstRun start (bytesToSectors length) false ∧
      s.freeMap.IsSet start (bytesToSectors length) true t.freeMap) ∨
  (ok = false ∧ (∀ k, ¬ s.freeMap.Run k (bytesToSectors length) false) ∧ t = s)

theorem inodeOn_made (disk : ℕ → UInt8) {d : InodeDisk} (hstart : d.start < wordSize)
    (h0 : 0 ≤ d.length) (hlen : d.length < 2 ^ 31) (hmagic : d.magic = inodeMagic)
    (hne : ∀ k, d.start ≤ k → k < d.start + n → k ≠ x) :
    inodeOn (patch (patch disk (512 * x) (encodeInode d)) (512 * d.start)
      (replicate (512 * n) 0)) x = d := by
  have happart : x < d.start ∨ d.start + n ≤ x := by
    by_contra hin
    exact hne x (by omega) (by omega) rfl
  rw [inodeOn_eq, sectorBytes, slice_patch_of_disjoint (by rw [length_replicate]; omega),
    ← length_encodeInode d, slice_patch_eq,
    decodeInode_encodeInode hstart h0 hlen (by rw [hmagic]; decide)]

theorem slice_zeros (disk : ℕ → UInt8) (ofs : ℕ) {m : ℕ} (hmn : m ≤ n) :
    slice (patch disk ofs (replicate n 0)) ofs m = replicate m 0 := by
  have hall : slice (patch disk ofs (replicate n 0)) ofs
      (replicate n (0 : UInt8)).length = replicate n 0 := slice_patch_eq
  rw [length_replicate] at hall
  rw [← take_slice hmn, hall, take_replicate, Nat.min_eq_left hmn]

theorem inodeCreate_returns {length : ℤ} (h : FsInv refs s) (h0 : 0 ≤ length)
    (hlen : length < 2 ^ 31) (hlt : x < s.size) (hmarked : s.freeMap.bit x = true)
    (hunowned : ∀ o : Owner, ¬ o.Holds s x) :
    Returns (inodeCreate x length) s (InodeMade refs s x length) := by
  have hsize := h.vol.size_le
  obtain ⟨_, _, halloc, ⟨start, map, rfl, hfirst, hset, rfl, hk₁⟩ | ⟨rfl, hnone, rfl⟩⟩ :=
    h.freeMapAllocate_returns (bytesToSectors length)
  · have hrun := hfirst.1
    have hfit : start + bytesToSectors length ≤ s.size := h.vol.bitCnt_eq ▸ hrun.1
    refine (inodeCreate_of_allocate h.table.mallocs h0 halloc hlt hfit
      (show s.size ≤ wordSize by omega)).mono ?_
    rintro _ _ ⟨rfl, rfl⟩
    set n := bytesToSectors length
    set d : InodeDisk := { start, length, magic := inodeMagic }
    -- the inode
    set s₁ := s.withMap (inodeOn s.disk 0).start map
    have hx₁ : ∀ o : Owner, ¬ o.Holds s₁ x := fun o ho => hunowned o (hk₁.owner ho)
    have hk₂ : Kept refs s₁ (s₁.patchDisk (512 * x) (encodeInode d)) := by
      refine hk₁.inv.kept_patchDisk fun i h₁ h₂ => ?_
      rw [length_encodeInode] at h₂
      have hi : i / 512 = x := by omega
      exact hi ▸ hx₁
    set s₂ := s₁.patchDisk (512 * x) (encodeInode d) with hs₂
    -- the data
    set t := s₂.patchDisk (512 * start) (replicate (512 * n) 0) with ht
    have hfree : ∀ k, start ≤ k → k < start + n → s.freeMap.bit k = false := by
      intro k h₁ h₂
      have := hrun.2 (k - start) (by omega)
      rwa [show start + (k - start) = k by omega] at this
    have hrun_unowned : ∀ k, start ≤ k → k < start + n → ∀ o : Owner, ¬ o.Holds s₂ k := by
      intro k h₁ h₂ o ho
      have := h.vol.owner_marked ((hk₁.trans hk₂).owner ho)
      rw [hfree k h₁ h₂] at this
      cases this
    have hk₃ : Kept refs s₂ t := by
      refine hk₂.inv.kept_patchDisk fun i h₁ h₂ => ?_
      rw [length_replicate] at h₂
      exact hrun_unowned _ (by omega) (by omega)
    have hkept : Kept refs s t := (hk₁.trans hk₂).trans hk₃
    have hne : ∀ k, start ≤ k → k < start + n → k ≠ x := by
      rintro k h₁ h₂ rfl
      rw [hfree k h₁ h₂] at hmarked
      cases hmarked
    have hinode : inodeOn t.disk x = d :=
      inodeOn_made (d := d) (n := n) s₁.disk (show start < wordSize by omega) h0 hlen rfl hne
    have hdata : dataRun t.disk x = (start, n) := by rw [dataRun, hinode]
    have hroom := le_bytesToSectors h0 hlen
    refine .inl ⟨rfl, hkept, ?_, ?_, start, hfirst, hset⟩
    · refine ⟨hinode ▸ h0, hlt, ?_, fun o ho => hx₁ o ((hk₂.trans hk₃).owner ho), ?_, ?_, ?_, ?_⟩
        <;> rw [hdata] at *
      · exact (hset.bit_eq x).trans (by split <;> simp [hmarked])
      · exact hfit
      · exact fun k h₁ h₂ => (hset.bit_eq k).trans (if_pos ⟨h₁, h₂⟩)
      · exact fun k h₁ h₂ o ho => hrun_unowned k h₁ h₂ o (hk₃.owner ho)
      · exact hne
    · rw [FsState.contents, hinode]
      exact slice_zeros s₂.disk (512 * start) (show length.toNat ≤ 512 * n by omega)
  · refine (inodeCreate_of_full h.table.mallocs h0 halloc).mono ?_
    rintro _ _ ⟨rfl, rfl⟩
    exact .inr ⟨rfl, hnone, rfl⟩

/-! ### `filesys_create` -/

/-- The free map has room for a file of `n` sectors: a free sector for the inode, of which
the first is taken, and then `n` free sectors in a row. -/
def FsState.Room (s : FsState) (n : ℕ) : Prop :=
  ∃ x, s.freeMap.FirstRun x 1 false ∧
    ∃ start, start + n ≤ s.size ∧ ∀ k, start ≤ k → k < start + n → s.freeMap.bit k = false ∧ k ≠ x

theorem VolInv.room_iff (h : VolInv s) (hfirst : s.freeMap.FirstRun x 1 false)
    (hset : s.freeMap.IsSet x 1 true map) : s.Room n ↔ ∃ start, map.Run start n false := by
  have hbit : ∀ k, map.bit k = false ↔ s.freeMap.bit k = false ∧ k ≠ x := by
    intro k
    rw [hset.bit_eq]
    split
    · simp only [Bool.true_eq_false, false_iff]
      omega
    · have : k ≠ x := by omega
      simp [this]
  constructor
  · rintro ⟨y, hy, start, hfit, hfree⟩
    obtain rfl := hy.unique hfirst
    refine ⟨start, by rw [hset.bitCnt_eq, h.bitCnt_eq]; exact hfit, fun i hi => ?_⟩
    exact (hbit _).mpr (hfree (start + i) (by omega) (by omega))
  · rintro ⟨start, hfit, hfree⟩
    rw [hset.bitCnt_eq, h.bitCnt_eq] at hfit
    refine ⟨x, hfirst, start, hfit, fun k h₁ h₂ => (hbit k).mp ?_⟩
    have := hfree (k - start) (by omega)
    rwa [show start + (k - start) = k by omega] at this

/-- The sectors of a new file: the first that is free, and then the first `n` free ones in a row. -/
def Bitmap.Takes (b : Bitmap) (n : ℕ) (b' : Bitmap) : Prop :=
  ∃ x map start, b.FirstRun x 1 false ∧ b.IsSet x 1 true map ∧ map.FirstRun start n false ∧
    map.IsSet start n true b'

inductive CreatedIn (refs : ℕ → ℕ) (s : FsState) (name : CString) (size : ℤ) :
    Bool × ℕ → FsState → Prop
  | done {x i : ℕ} {t : FsState} (inv : FsInv refs t) (keeps : Keeps s t) (table : SameTable s t)
      (size_eq : t.size = s.size) (valid : name.Valid) (unbound : ¬ s.BoundName name)
      (room : s.Room (bytesToSectors size)) (bound : SlotBound s i name x t)
      (new : ¬ s.IsFile x) (contents : t.contents x = replicate size.toNat 0)
      (takes : s.freeMap.Takes (bytesToSectors size) t.freeMap) :
      CreatedIn refs s name size (true, x) t
  | noSector (room : ¬ s.Room (bytesToSectors size)) : CreatedIn refs s name size (false, 0) s
  | undone {x start m : ℕ} {t : FsState} (kept : Kept refs s t) (x_ne : x ≠ 0) (x_lt : x < s.size)
      (x_free : s.freeMap.bit x = false) (unowned : ∀ o : Owner, ¬ o.Holds t x)
      (fits : start + m ≤ s.size)
      (bit_eq : ∀ k, t.freeMap.bit k =
        if k = x ∨ (start ≤ k ∧ k < start + m) then true else s.freeMap.bit k)
      (free : ∀ k, start ≤ k → k < start + m → s.freeMap.bit k = false ∧ k ≠ x)
      (why : (m = 0 ∧ ¬ s.Room (bytesToSectors size)) ∨
        (m = bytesToSectors size ∧ s.Room (bytesToSectors size) ∧
          (¬ name.Valid ∨ s.BoundName name ∨ s.DirFull))) :
      CreatedIn refs s name size (false, x) t

theorem Kept.boundName_iff (h : Kept refs s t) (name : CString) :
    t.BoundName name ↔ s.BoundName name := by
  refine exists_congr fun i => and_congr_right fun hi => ?_
  rw [h.slot_eq i hi]

theorem Kept.dirFull_iff (h : Kept refs s t) : t.DirFull ↔ s.DirFull :=
  forall₂_congr fun i hi => by rw [h.slot_eq i hi]

theorem createIn_returns (hroot : IsRoot refs s a) (h : FsInv refs s) (pos : ℕ) (name : CString)
    (h0 : 0 ≤ size) (hsize : size < 2 ^ 31) :
    Returns (createIn ⟨a, pos⟩ name size) s (CreatedIn refs s name size) := by
  rw [createIn, returns_bind]
  refine (h.freeMapAllocate_returns 1).mono ?_
  rintro _ s₁ (⟨x, map, rfl, hfirst, hset, hs₁, hk₁⟩ | ⟨rfl, hnone, rfl⟩)
  · -- a sector for the inode was taken
    have hmap : s₁.freeMap = map := by rw [hs₁]; rfl
    have hfree : s.freeMap.bit x = false := by simpa using hfirst.1.2 0 Nat.one_pos
    have hlt : x < s.size := by have := hfirst.1.1; rw [h.vol.bitCnt_eq] at this; omega
    have hx0 : x ≠ 0 := by
      rintro rfl
      rw [h.vol.owner_marked VolInv.holds_zero] at hfree
      cases hfree
    have hunowned : ∀ o : Owner, ¬ o.Holds s₁ x := fun o ho => by
      rw [h.vol.owner_marked (hk₁.owner ho)] at hfree
      cases hfree
    have hroom := h.vol.room_iff (n := bytesToSectors size) hfirst hset
    rw [← hmap] at hset hroom
    have hroot₁ : IsRoot refs s₁ a := ⟨hroot.open_pos, hk₁.table.target_eq a ▸ hroot.target_eq⟩
    simp only [returns_bind]
    refine (inodeCreate_returns hk₁.inv h0 hsize (hk₁.size_eq ▸ hlt)
      ((hset.bit_eq x).trans (if_pos ⟨le_rfl, Nat.lt_succ_self x⟩)) hunowned).mono ?_
    rintro _ s₂ (⟨rfl, hk₂, hfresh, hzero, start, hfirst₂, hset₂⟩ | ⟨rfl, hnone, rfl⟩)
    · -- the inode was made
      have hrun := hfirst₂.1
      have hk := hk₁.trans hk₂
      have hroot₂ : IsRoot refs s₂ a := ⟨hroot.open_pos, hk₂.table.target_eq a ▸ hroot₁.target_eq⟩
      simp only [if_true, returns_bind, returns_pure]
      refine (dirAdd_returns hroot₂ hk₂.inv hfresh pos name).mono ?_
      rintro _ t (⟨rfl, hvalid, hunbound, hinv, hkeeps, hcontents, i, e, hbound, ht⟩ |
        ⟨rfl, hwhy, rfl⟩)
      · refine .done hinv (hk.keeps.trans hkeeps)
          (hk.table.trans ⟨by rw [ht]; rfl, by rw [ht]; rfl⟩)
          ((show t.size = s₂.size by rw [ht]; rfl).trans hk.size_eq) hvalid
          ((hk.boundName_iff name).not.mp hunbound) (hroom.mpr ⟨start, hrun⟩) (i := i) ?_
          (fun hx => hfresh.sector_unowned _ (VolInv.holds_fileInode (hk.keeps.isFile hx)))
          (hcontents.trans hzero) ⟨x, _, start, hfirst, hset, hfirst₂, by rw [ht]; exact hset₂⟩
        exact ⟨hbound.lt, hk.slot_eq i hbound.lt ▸ hbound.free, hbound.slot_eq,
          fun j hj hji => (hbound.slot_other j hj hji).trans (hk.slot_eq j hj)⟩
      · refine .undone hk hx0 hlt hfree hfresh.sector_unowned
          (show start + bytesToSectors size ≤ s.size from ?_) (fun k => ?_) (fun k h₁ h₂ => ?_)
          (.inr ⟨rfl, hroom.mpr ⟨start, hrun⟩,
            hwhy.imp_right (.imp (hk.boundName_iff name).mp hk.dirFull_iff.mp)⟩)
        · rw [← hk₁.size_eq, ← hk₁.inv.vol.bitCnt_eq]
          exact hrun.1
        · rw [hset₂.bit_eq, hset.bit_eq]
          split_ifs <;> first | rfl | omega
        · have := hrun.2 (k - start) (by omega)
          rw [show start + (k - start) = k by omega, hset.bit_eq] at this
          split at this
          · cases this
          · exact ⟨this, by omega⟩
    · simp only [Bool.false_eq_true, if_false, returns_pure]
      refine .undone hk₁ hx0 hlt hfree hunowned (show 0 + 0 ≤ s.size from Nat.zero_le _)
        (fun k => ?_) (fun k h₁ h₂ => by omega) (.inl ⟨rfl, fun hr => ?_⟩)
      · rw [hset.bit_eq]
        split_ifs <;> first | rfl | omega
      · obtain ⟨start, hrun⟩ := hroom.mp hr
        exact hnone start hrun
  · refine (returns_pure ..).mpr (.noSector ?_)
    rintro ⟨x, hx, -⟩
    exact hnone x hx.1

/-! ### Opening and closing the root directory -/

theorem SameVolume.boundName_iff (hv : SameVolume s t) (name : CString) :
    t.BoundName name ↔ s.BoundName name := by
  refine exists_congr fun i => and_congr_right fun _ => ?_
  rw [hv.slot_eq]

theorem SameVolume.dirFull_iff (hv : SameVolume s t) : t.DirFull ↔ s.DirFull :=
  forall₂_congr fun i _ => by rw [hv.slot_eq]

theorem SameVolume.room_iff (hv : SameVolume s t) (n : ℕ) : t.Room n ↔ s.Room n := by
  rw [Room, hv.freeMap_eq, hv.size_eq, Room]

theorem SameVolume.contents_eq (hv : SameVolume s t) (x : ℕ) : t.contents x = s.contents x := by
  rw [FsState.contents, hv.disk_eq, FsState.contents]

theorem SameVolume.isFile_iff (hv : SameVolume s t) (horphan : ∀ x, t.Orphan x ↔ s.Orphan x)
    (x : ℕ) : t.IsFile x ↔ s.IsFile x :=
  or_congr (hv.bound_iff x) (horphan x)

theorem Opened.orphan_iff (ho : Opened refs s x a t) (h : FsInv refs s) (y : ℕ) :
    t.Orphan y ↔ s.Orphan y := by
  rw [OsMaterial.orphan_iff, OsMaterial.orphan_iff]
  constructor
  · rintro ⟨b, hb, d, hy⟩
    by_cases hba : b = a
    · obtain ⟨e, hself, -⟩ := ho.target_self
      rw [hba, hself] at hy
      cases hy
    · have hpos := (ho.inv.table.mem_iff b).mp hb
      rw [bump, Function.update_of_ne hba] at hpos
      exact ⟨b, (h.table.mem_iff b).mpr hpos, d, ho.target_eq b hpos ▸ hy⟩
  · rintro ⟨b, hb, d, hy⟩
    have hpos := (h.table.mem_iff b).mp hb
    exact ⟨b, (ho.inv.table.mem_iff b).mpr (hpos.trans_le (le_bump refs a b)), d,
      (ho.target_eq b hpos).trans hy⟩

theorem dirOpenRoot_returns (h : FsInv refs s) :
    Returns dirOpenRoot s fun r t => ∃ a, r = some ⟨a, 0⟩ ∧ Opened refs s 1 a t := by
  rw [dirOpenRoot, returns_bind]
  refine (inodeOpen_returns h (.inr (.inl rfl))).mono ?_
  rintro _ t ⟨a, rfl, ho⟩
  rw [dirOpen, returns_bind, returns_malloc ho.inv.table.mallocs, returns_pure]
  exact ⟨a, rfl, ho⟩

theorem Opened.isRoot (ho : Opened refs s 1 a t) : IsRoot (bump refs a) t a :=
  ⟨by rw [bump, Function.update_self]; omega, ho.target_self.imp fun _ hd => hd.1⟩

theorem IsRoot.dirClose_returns (hroot : IsRoot refs s a) (h : FsInv refs s) (pos : ℕ) :
    Returns (dirClose (some ⟨a, pos⟩)) s fun _ t => FsInv (unref refs a) t ∧ SameVolume s t ∧
      (∀ x, t.Orphan x ↔ s.Orphan x) ∧ ∀ b, 0 < unref refs a b → t.target b = s.target b := by
  obtain ⟨d, htarget⟩ := hroot.target_eq
  refine (inodeClose_returns h hroot.open_pos htarget Nat.one_ne_zero).mono ?_
  rintro _ t ⟨hinv, hsame, ⟨hv, horphan⟩ | ⟨x, e, -, hx, -⟩⟩
  · exact ⟨hinv, hv, horphan, hsame⟩
  · rw [htarget] at hx
    cases hx

/-- The ways in which `filesys_create` ends. When the name cannot be added to the directory,
the sector of the inode is given back, but **the sectors of the data stay marked**. -/
inductive CreateEnd (s : FsState) (name : CString) (size : ℤ) : Bool → FsState → Prop
  | made {i x : ℕ} {t : FsState} (valid : name.Valid) (unbound : ¬ s.BoundName name)
      (room : s.Room (bytesToSectors size)) (bound : SlotBound s i name x t)
      (new : ¬ s.IsFile x) (contents : t.contents x = replicate size.toNat 0) :
      CreateEnd s name size true t
  | noRoom {t : FsState} (room : ¬ s.Room (bytesToSectors size))
      (slot_eq : ∀ i < 16, t.slot i = s.slot i) (bit_eq : ∀ k, t.freeMap.bit k = s.freeMap.bit k) :
      CreateEnd s name size false t
  | notAdded {start : ℕ} {t : FsState} (room : s.Room (bytesToSectors size))
      (why : ¬ name.Valid ∨ s.BoundName name ∨ s.DirFull)
      (slot_eq : ∀ i < 16, t.slot i = s.slot i) (fits : start + bytesToSectors size ≤ s.size)
      (free : ∀ k, start ≤ k → k < start + bytesToSectors size → s.freeMap.bit k = false)
      (bit_eq : ∀ k, t.freeMap.bit k =
        if start ≤ k ∧ k < start + bytesToSectors size then true else s.freeMap.bit k) :
      CreateEnd s name size false t

theorem CreateEnd.of_sameVolume {s' t' : FsState} {ok : Bool} (h : CreateEnd s' name size ok t')
    (hs : SameVolume s s') (horphan : ∀ x, s'.Orphan x ↔ s.Orphan x) (ht : SameVolume t' t) :
    CreateEnd s name size ok t := by
  have hslot : ∀ {i}, t'.slot i = s'.slot i → t.slot i = s.slot i := fun {i} heq =>
    (ht.slot_eq i).trans (heq.trans (hs.slot_eq i))
  cases h with
  | made valid unbound room bound new contents =>
    refine .made valid ((hs.boundName_iff name).not.mp unbound) ((hs.room_iff _).mp room)
      ⟨bound.lt, (hs.slot_eq _).symm.trans bound.free, (ht.slot_eq _).trans bound.slot_eq,
        fun j hj hji => hslot (bound.slot_other j hj hji)⟩
      ((hs.isFile_iff horphan _).not.mp new) ((ht.contents_eq _).trans contents)
  | noRoom room slot_eq bit_eq =>
    refine .noRoom ((hs.room_iff _).not.mp room) (fun i hi => hslot (slot_eq i hi)) fun k => ?_
    rw [ht.freeMap_eq, bit_eq, hs.freeMap_eq]
  | notAdded room why slot_eq fits free bit_eq =>
    refine .notAdded ((hs.room_iff _).mp room)
      (why.imp_right (.imp (hs.boundName_iff name).mp hs.dirFull_iff.mp))
      (fun i hi => hslot (slot_eq i hi)) (hs.size_eq ▸ fits)
      (fun k h₁ h₂ => hs.freeMap_eq ▸ free k h₁ h₂) fun k => ?_
    rw [ht.freeMap_eq, bit_eq, hs.freeMap_eq]

structure Framed (refs : ℕ → ℕ) (s t : FsState) : Prop where
  inv : FsInv refs t
  keeps : Keeps s t
  target_eq : ∀ b, 0 < refs b → t.target b = s.target b
  size_eq : t.size = s.size

theorem Framed.of_root {s₁ s₂ : FsState} (h : FsInv refs s) (ho : Opened refs s 1 a s₁)
    (hkeeps : Keeps s₁ s₂) (htarget : ∀ b, 0 < bump refs a b → s₂.target b = s₁.target b)
    (hsize : s₂.size = s₁.size) (hinv : FsInv (unref (bump refs a) a) t) (hv : SameVolume s₂ t)
    (horphan : ∀ x, t.Orphan x ↔ s₂.Orphan x)
    (hclosed : ∀ b, 0 < unref (bump refs a) a b → t.target b = s₂.target b) : Framed refs s t := by
  rw [unref_bump] at hinv hclosed
  refine ⟨hinv, ?_, fun b hb => ?_, by rw [hv.size_eq, hsize, ho.volume.size_eq]⟩
  · exact ((ho.volume.keeps fun x => (ho.orphan_iff h x).mpr).trans hkeeps).trans
      (hv.keeps fun x => (horphan x).mpr)
  · rw [hclosed b hb, htarget b (hb.trans_le (le_bump refs a b)), ho.target_eq b hb]

theorem Kept.release_returns (hk : Kept refs s t) (hlt : x < s.size)
    (hmarked : t.freeMap.bit x = true) (hunowned : ∀ o : Owner, ¬ o.Holds t x) :
    Returns (freeMapRelease x 1) t fun _ u => Kept refs s u ∧
      ∀ k, u.freeMap.bit k = if k = x then false else t.freeMap.bit k := by
  have hrun : t.freeMap.Run x 1 true := by
    refine ⟨by rw [hk.inv.vol.bitCnt_eq, hk.size_eq]; exact hlt, fun i hi => ?_⟩
    obtain rfl : i = 0 := by omega
    exact hmarked
  have hself : ∀ k, x ≤ k → k < x + 1 → ∀ o : Owner, ¬ o.Holds t k := fun k h₁ h₂ => by
    obtain rfl : k = x := by omega
    exact hunowned
  refine (hk.inv.freeMapRelease_returns hrun hself).mono ?_
  rintro _ u ⟨-, map, hset, rfl⟩
  refine ⟨hk.trans (hk.inv.kept_withMap hset.bitCnt_eq fun {o k} ho => ?_), fun k => ?_⟩
  · rw [hset.bit_eq, if_neg fun hx => hself k hx.1 hx.2 o ho]
    exact hk.inv.vol.owner_marked ho
  · refine (hset.bit_eq k).trans (if_congr ?_ rfl rfl)
    omega

/-- **`filesys_create`.** -/
theorem filesysCreate_returns (h : FsInv refs s) (name : CString) (h0 : 0 ≤ size)
    (hsize : size < 2 ^ 31) :
    Returns (filesysCreate name size) s fun ok t =>
      Framed refs s t ∧ CreateEnd s name size ok t ∧
        (ok = true → s.freeMap.Takes (bytesToSectors size) t.freeMap) := by
  rw [filesysCreate, returns_bind]
  refine (dirOpenRoot_returns h).mono ?_
  rintro _ s₁ ⟨a, rfl, ho⟩
  have horphan := ho.orphan_iff h
  simp only [returns_bind]
  refine (createIn_returns ho.isRoot ho.inv 0 name h0 hsize).mono ?_
  -- the directory is closed in the same way after every end
  have hclose : ∀ {s₂ : FsState} {ok : Bool}, FsInv (bump refs a) s₂ → Keeps s₁ s₂ →
      SameTable s₁ s₂ → s₂.size = s₁.size → CreateEnd s₁ name size ok s₂ →
      (ok = true → s₁.freeMap.Takes (bytesToSectors size) s₂.freeMap) →
      Returns (dirClose (some ⟨a, 0⟩)) s₂ fun _ t => Framed refs s t ∧
        CreateEnd s name size ok t ∧
          (ok = true → s.freeMap.Takes (bytesToSectors size) t.freeMap) := by
    intro s₂ ok hinv hkeeps htable hs₂ hend htakes
    have hroot : IsRoot (bump refs a) s₂ a :=
      ⟨ho.isRoot.open_pos, htable.target_eq a ▸ ho.isRoot.target_eq⟩
    refine (hroot.dirClose_returns hinv 0).mono ?_
    rintro _ t ⟨hinv', hv, horphan', hclosed⟩
    exact ⟨.of_root h ho hkeeps (fun b _ => htable.target_eq b) hs₂ hinv' hv horphan' hclosed,
      hend.of_sameVolume ho.volume horphan hv, ho.volume.freeMap_eq ▸ hv.freeMap_eq ▸ htakes⟩
  rintro _ s₂ (⟨hinv, hkeeps, htable, hs₂, hvalid, hunbound, hroom, hbound, hnew, hzero, htakes⟩ |
    ⟨hroom⟩ | ⟨hk, hx0, hlt, hxfree, hunowned, hfits, hbit, hfree, hwhy⟩)
  · rw [if_neg (by simp)]
    simpa only [returns_bind, returns_pure] using
      hclose hinv hkeeps htable hs₂ (.made hvalid hunbound hroom hbound hnew hzero) fun _ => htakes
  · rw [if_neg (by simp)]
    simp only [returns_bind, returns_pure]
    exact hclose ho.inv (.refl _) ⟨rfl, rfl⟩ rfl (.noRoom hroom (fun _ _ => rfl) fun _ => rfl)
      (absurd · Bool.false_ne_true)
  · rw [if_pos ⟨rfl, hx0⟩]
    simp only [returns_bind, returns_pure]
    refine (hk.release_returns hlt (by rw [hbit, if_pos (.inl rfl)]) hunowned).mono ?_
    rintro _ s₃ ⟨hk₃, hbit₃⟩
    refine hclose hk₃.inv hk₃.keeps hk₃.table hk₃.size_eq ?_ (absurd · Bool.false_ne_true)
    rcases hwhy with ⟨rfl, hroom⟩ | ⟨rfl, hroom, hwhy⟩
    · refine .noRoom hroom hk₃.slot_eq fun k => ?_
      rw [hbit₃, hbit]
      split_ifs with h₁ h₂
      · rw [h₁, hxfree]
      · omega
      · rfl
    · refine .notAdded hroom hwhy hk₃.slot_eq (ho.volume.size_eq ▸ hfits)
        (fun k h₁ h₂ => (hfree k h₁ h₂).1) fun k => ?_
      rw [hbit₃, hbit]
      split_ifs with h₁ h₂ h₃ h₄
      · exact absurd h₁ (hfree k h₂.1 h₂.2).2
      · rw [h₁, hxfree]
      all_goals first | rfl | omega

theorem filesysCreate_negative (h : FsInv refs s) (name : CString) (hneg : size < 0) :
    (Returns (filesysCreate name size) s fun ok t => ok = false ∧ Framed refs s t) ∨
      Panics (filesysCreate name size) s .negativeLength := by
  obtain ⟨_, s₁, hopen, a, rfl, ho⟩ := dirOpenRoot_returns h
  obtain ⟨_, _, halloc, ⟨x, map, rfl, -⟩ | ⟨rfl, -, rfl⟩⟩ := ho.inv.freeMapAllocate_returns 1
  · right
    refine panics_bind ⟨_, s₁, hopen, Panics.bind ?_ _⟩
    refine panics_bind ⟨_, _, halloc, Panics.bind ?_ _⟩
    exact (panics_assert (by omega) _ _).bind _
  · left
    rw [filesysCreate, returns_bind, returns_iff_of_run hopen]
    simp only [returns_bind, createIn]
    rw [returns_iff_of_run halloc, returns_pure, if_neg (by simp)]
    simp only [returns_bind, returns_pure]
    refine (ho.isRoot.dirClose_returns ho.inv 0).mono ?_
    rintro _ t ⟨hinv, hv, horphan, hclosed⟩
    exact ⟨trivial, .of_root h ho (.refl _) (fun _ _ => rfl) rfl hinv hv horphan hclosed⟩

/-! ### Listing the directory -/

theorem dirReaddir_returns (hroot : IsRoot refs s a) (h : FsInv refs s) (pos : ℕ) :
    Returns (dirReaddir ⟨a, pos⟩) s fun r t => r.2.inode = a ∧ t = s := by
  obtain ⟨ino, hino, -, hdata⟩ := hroot.node h
  have hsize := h.vol.size_le
  have hloop : ∀ rounds pos, Returns (readdirLoop a rounds pos) s fun _ t => t = s := by
    intro rounds
    induction rounds with
    | zero => exact fun pos => (returns_pure ..).mpr rfl
    | succ rounds ih =>
      intro pos
      rw [readdirLoop, returns_bind, OsMaterial.inodeReadAt_returns h.table.mallocs hino
        (hdata ▸ h.vol.fits (.inr (.inl rfl))) (by omega)]
      simp only
      split_ifs
      · exact (returns_pure ..).mpr rfl
      · exact ih _
      · exact (returns_pure ..).mpr rfl
  rw [dirReaddir, returns_bind, returns_inodeAt hino, returns_bind]
  refine (hloop _ pos).mono ?_
  rintro r t rfl
  exact (returns_pure ..).mpr ⟨rfl, rfl⟩

end

end OsMaterial
