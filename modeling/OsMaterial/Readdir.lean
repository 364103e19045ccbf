import OsMaterial.DirFailures

/-!
# Listing a Directory that Changes

`dir_readdir` returns the name in the first entry in use from the position on. Between its calls,
`dir_add` and `dir_remove` may bind and erase names. A directory here is any open inode whose data
are read as entries. An entry stays where it is: `dir_add` writes a free entry, `dir_remove` clears
one, and the free map lies elsewhere.

* `readdir_traversal`: a name that stays bound to one entry is listed **exactly once**.
-/

namespace OsMaterial

open List
open Function (update update_of_ne update_self)

variable {i b : ℕ} {k' : ℕ → ℤ} {e : DirEntry} {ino : Inode} {name : Bytes}
variable {data : InodeDisk}

/-! ### The entries of a directory -/

namespace InodeDisk

structure Binds (data : InodeDisk) (disk : ℕ → UInt8) (i : ℕ) (name : Bytes) : Prop where
  lt : i < data.slots
  inUse : (data.entry disk i).inUse = true
  name_eq : cstring (data.entry disk i).name = name

/-- **The names of a directory** are bound once, and fit into an entry with their null. -/
structure Names (data : InodeDisk) (disk : ℕ → UInt8) : Prop where
  inj : ∀ {i j name}, data.Binds disk i name → data.Binds disk j name → i = j
  length_le : ∀ {i name}, data.Binds disk i name → name.length ≤ 14

def Apart (data d : InodeDisk) : Prop :=
  512 * data.start + data.length.toNat ≤ 512 * d.start ∨
    512 * d.start + d.length.toNat ≤ 512 * data.start

def SameData (data : InodeDisk) (d d' : ℕ → UInt8) : Prop :=
  ∀ i < data.length.toNat, d' (512 * data.start + i) = d (512 * data.start + i)

variable {d d' d'' : ℕ → UInt8} {j : ℕ}

theorem SameData.refl (data : InodeDisk) (d : ℕ → UInt8) : data.SameData d d :=
  fun _ _ => rfl

theorem SameData.trans (h : data.SameData d d') (h' : data.SameData d' d'') : data.SameData d d'' :=
  fun i hi => (h' i hi).trans (h i hi)

theorem SameData.entry_eq (h : data.SameData d d') (hi : i < data.slots) :
    data.entry d' i = data.entry d i := by
  rw [slots] at hi
  rw [entry, entry]
  congr 1
  refine slice_congr fun k h₁ h₂ => ?_
  obtain ⟨m, rfl⟩ := Nat.exists_eq_add_of_le (show 512 * data.start ≤ k by omega)
  exact h m (by omega)

theorem Binds.of_entry_eq (hb : data.Binds d' i name) (h : data.entry d' i = data.entry d i) :
    data.Binds d i name :=
  ⟨hb.lt, h ▸ hb.inUse, h ▸ hb.name_eq⟩

theorem Names.of_entries (h : data.Names d)
    (hentry : ∀ i < data.slots, i ≠ j → data.entry d' i = data.entry d i)
    (hnew : ∀ {name}, data.Binds d' j name →
      name.length ≤ 14 ∧ ∀ i, i ≠ j → ¬ data.Binds d i name) : data.Names d' := by
  have hold : ∀ {i name}, data.Binds d' i name → i ≠ j → data.Binds d i name :=
    fun hb hij => hb.of_entry_eq (hentry _ hb.lt hij)
  refine ⟨fun {i k name} hi hk => ?_, fun {i name} hi => ?_⟩
  · by_cases hij : i = j
    · subst hij
      by_contra hne
      exact (hnew hi).2 k (Ne.symm hne) (hold hk (Ne.symm hne))
    · by_cases hkj : k = j
      · subst hkj
        exact absurd (hold hi hij) ((hnew hk).2 i hij)
      · exact h.inj (hold hi hij) (hold hk hkj)
  · by_cases hij : i = j
    · subst hij
      exact (hnew hi).1
    · exact h.length_le (hold hi hij)

theorem Names.of_sameData (h : data.Names d) (hsame : data.SameData d d') : data.Names d' := by
  have hold : ∀ {i name}, data.Binds d' i name → data.Binds d i name :=
    fun hb => hb.of_entry_eq (hsame.entry_eq hb.lt)
  exact ⟨fun hi hk => h.inj (hold hi) (hold hk), fun hi => h.length_le (hold hi)⟩

theorem entry_patch (d : ℕ → UInt8) (hname : e.name.length = 15) :
    ((data.entry (patch d (512 * data.start + 20 * j) (encodeEntry e)) j).name = e.name ∧
      (data.entry (patch d (512 * data.start + 20 * j) (encodeEntry e)) j).inUse = e.inUse) ∧
    ∀ i, i ≠ j → data.entry (patch d (512 * data.start + 20 * j) (encodeEntry e)) i =
      data.entry d i := by
  have hlen := length_encodeEntry hname
  refine ⟨?_, fun i hij => ?_⟩
  · have hread : data.entry (patch d (512 * data.start + 20 * j) (encodeEntry e)) j =
        decodeEntry (encodeEntry e) := by
      rw [entry, ← hlen, slice_patch_eq]
    rw [hread]
    exact ⟨name_decodeEntry_encodeEntry hname, inUse_decodeEntry_encodeEntry hname⟩
  · rw [entry, slice_patch_of_disjoint, entry]
    omega

theorem length_name_entry (data : InodeDisk) (d : ℕ → UInt8) (i : ℕ) :
    (data.entry d i).name.length = 15 := by
  simp [entry, decodeEntry]

theorem matches_entry_iff {name : CString} (hi : i < data.slots) :
    (data.entry d i).Matches name = true ↔ data.Binds d i name.bytes := by
  rw [DirEntry.Matches, Bool.and_eq_true, decide_eq_true_eq]
  constructor
  · rintro ⟨huse, hname⟩
    exact ⟨hi, huse, hname.symm⟩
  · intro hb
    exact ⟨hb.inUse, hb.name_eq.symm⟩

end InodeDisk

/-! ### Open directories -/

structure FsState.Held (s : FsState) (a : ℕ) (d : InodeDisk) (k : ℤ) : Prop where
  lt_next : a < s.nextInode
  node : ∃ ino, s.inodes a = some ino ∧ ino.data = d ∧ k < ino.openCnt

/-- **An open directory** with memory to spare: its inode is at `a`, and its data are on the device,
apart from those of the free map file. Of the references to the inode at `c`, `k c` are still to
be closed. -/
structure OpenDir (data : InodeDisk) (a : ℕ) (k : ℕ → ℤ) (s : FsState) : Prop where
  mallocs : s.MallocsSucceed
  size_le : s.size ≤ wordSize
  fits : s.Fits data
  held : s.Held a data (k a)
  map : ∀ file, s.freeMapFile = some file →
    ∃ d, s.Held file.inode d (k file.inode) ∧ s.Fits d ∧ data.Apart d

section

variable {a : ℕ} {k : ℕ → ℤ} {s t : FsState}

theorem inodeAt_ensures (s : FsState) (b : ℕ) :
    Ensures (inodeAt b) s fun ino t => t = s ∧ s.inodes b = some ino := by
  rw [inodeAt, ensures_get_bind]
  cases hb : s.inodes b with
  | some ino => exact ((returns_pure ..).mpr ⟨rfl, rfl⟩).ensures
  | none => exact ensures_throw _ _ _

theorem blockRead_ensures (s : FsState) (x : ℕ) : Ensures (blockRead x) s fun _ t => t = s := by
  rw [blockRead, ensures_get_bind]
  refine (ensures_assert _ _ _).bind ?_
  rintro _ t rfl
  exact ((returns_pure (sectorBytes t.disk x) t fun _ u => u = t).mpr rfl).ensures

namespace OpenDir

section

variable (h : OpenDir data a k s)

include h

theorem scanEntries_returns (stop : DirEntry → Bool) :
    Returns (scanEntries a stop) s fun q t => t = s ∧ ∃ r, data.Found s.disk stop 0 r ∧
      data.Scan s.disk r q := by
  obtain ⟨ino, hino, rfl, -⟩ := h.held.node
  exact scanEntries_found h.mallocs hino h.fits h.size_le stop

theorem dirReaddir_returns (hi : i ≤ data.slots) :
    Returns (dirReaddir ⟨a, 20 * i⟩) s fun q t => t = s ∧
      ∃ r, data.Found s.disk DirEntry.inUse i r ∧
        q = ((data.listed s.disk r).1, ⟨a, (data.listed s.disk r).2⟩) := by
  obtain ⟨ino, hino, rfl, -⟩ := h.held.node
  exact dirReaddir_found h.mallocs hino h.fits h.size_le hi

/-! ### Binding a name -/

theorem of_held (hmallocs : t.mallocs = s.mallocs) (hsize : t.size = s.size)
    (hfile : t.freeMapFile = s.freeMapFile)
    (hheld : ∀ {c d}, s.Held c d (k c) → t.Held c d (k' c)) : OpenDir data a k' t := by
  have hfits : ∀ {d}, s.Fits d → t.Fits d := fun hd pos hpos => hsize ▸ hd pos hpos
  refine ⟨fun n => by rw [hmallocs, h.mallocs n], hsize ▸ h.size_le, hfits h.fits, hheld h.held,
    fun file hf => ?_⟩
  obtain ⟨d, hd, hdfits, hapart⟩ := h.map file (hfile ▸ hf)
  exact ⟨d, hheld hd, hfits hdfits, hapart⟩

theorem patchDisk (ofs : ℕ) (bytes : Bytes) : OpenDir data a k (s.patchDisk ofs bytes) :=
  h.of_held rfl rfl rfl fun hheld => ⟨hheld.lt_next, hheld.node⟩

theorem inodeWriteAt_returns {c : ℕ} {d : InodeDisk} {n : ℤ} (hheld : s.Held c d n)
    (hfits : s.Fits d) (buffer : Bytes) (ofs : ℕ) :
    Returns (inodeWriteAt c buffer ofs) s fun n t =>
      t = s.patchDisk (512 * d.start + ofs) (buffer.take n) ∧
        (n = 0 ∨ n = clip d buffer.length ofs) := by
  obtain ⟨ino, hino, rfl, -⟩ := hheld.node
  by_cases hdeny : ino.denyWriteCnt = 0
  · rw [OsMaterial.inodeWriteAt_returns h.mallocs hino hdeny hfits h.size_le]
    exact ⟨rfl, .inr rfl⟩
  · rw [inodeWriteAt, returns_bind, returns_inodeAt hino, if_pos hdeny, returns_pure]
    exact ⟨by simp, .inl rfl⟩

theorem writeEntry_returns {j : ℕ} (hj : j < data.slots) (hname : e.name.length = 15) :
    Returns (inodeWriteAt a (encodeEntry e) (20 * j)) s fun n t =>
      (n = 0 ∧ t = s) ∨ (n = 20 ∧ t = s.patchDisk (512 * data.start + 20 * j) (encodeEntry e)) := by
  have hlen := length_encodeEntry hname
  have hclip : clip data (encodeEntry e).length (20 * j) = 20 := by
    rw [InodeDisk.slots] at hj
    rw [clip, hlen]
    omega
  refine (h.inodeWriteAt_returns h.held h.fits (encodeEntry e) (20 * j)).mono ?_
  rw [hclip]
  rintro n t ⟨rfl, rfl | rfl⟩
  · exact .inl ⟨rfl, by simp⟩
  · exact .inr ⟨rfl, by rw [take_of_length_le hlen.le]⟩

end

theorem names_patch_end (hnames : data.Names s.disk) (bytes : Bytes) :
    data.Names (s.patchDisk (512 * data.start + 20 * data.slots) bytes).disk := by
  have hentry : ∀ i < data.slots, data.entry
      (s.patchDisk (512 * data.start + 20 * data.slots) bytes).disk i = data.entry s.disk i := by
    intro i hi
    rw [InodeDisk.entry, FsState.patchDisk, slice_patch_of_disjoint (.inl (by omega)),
      InodeDisk.entry]
  refine hnames.of_entries (j := data.slots) (fun i hi _ => hentry i hi) fun hb => ?_
  exact absurd hb.lt (lt_irrefl _)

section

variable (h : OpenDir data a k s)

include h

theorem dirAdd_returns (hnames : data.Names s.disk) (pos : ℕ) (name : CString) (x : ℕ) :
    Returns (dirAdd ⟨a, pos⟩ name x) s fun _ t => OpenDir data a k t ∧ data.Names t.disk := by
  rw [dirAdd]
  by_cases hvalid : name.Valid
  · rw [if_pos hvalid, returns_bind, lookup, returns_bind]
    refine (h.scanEntries_returns _).mono ?_
    rintro q t ⟨rfl, r, hfound, hq⟩
    cases hfound with
    | @entry i =>
      obtain rfl := hq
      exact (returns_pure ..).mpr ((returns_pure ..).mpr ⟨h, hnames⟩)
    | none hunbound =>
      obtain ⟨e, rfl⟩ := hq
      rw [returns_pure]
      simp only [Bool.false_eq_true, if_false, returns_bind]
      refine (h.scanEntries_returns _).mono ?_
      rintro q u ⟨rfl, r, hfound, hq⟩
      cases hfound with
      | @entry j hj _ hfree =>
        obtain rfl := hq
        obtain ⟨hcopy, hread⟩ := hvalid.strlcpy (data.length_name_entry u.disk j)
        refine (h.writeEntry_returns hj hcopy).mono ?_
        rintro n v (⟨rfl, rfl⟩ | ⟨rfl, rfl⟩)
        · exact (returns_pure ..).mpr ⟨h, hnames⟩
        · refine (returns_pure ..).mpr ⟨h.patchDisk _ _, ?_⟩
          obtain ⟨⟨hname, -⟩, hother⟩ := data.entry_patch (j := j) u.disk
            (e := { data.entry u.disk j with
              inUse := true, name := strlcpy (data.entry u.disk j).name name,
              inodeSector := x }) hcopy
          refine hnames.of_entries (j := j) (fun i _ hij => hother i hij) fun {n} hb => ?_
          obtain rfl : name.bytes = n := by
            rw [← hb.name_eq]
            exact ((congrArg cstring hname).trans hread).symm
          refine ⟨hvalid.2, fun i _ hbound => ?_⟩
          have := hunbound i hbound.lt (Nat.zero_le i)
          rw [(InodeDisk.matches_entry_iff hbound.lt).mpr hbound] at this
          cases this
      | none =>
        obtain ⟨e, rfl⟩ := hq
        refine (h.inodeWriteAt_returns h.held h.fits _ _).mono ?_
        rintro n v ⟨rfl, -⟩
        exact (returns_pure ..).mpr ⟨h.patchDisk _ _, names_patch_end hnames _⟩
  · rw [if_neg hvalid]
    exact (returns_pure ..).mpr ⟨h, hnames⟩

/-! ### Erasing a name -/

theorem setInode {ino' : Inode} (hino : s.inodes b = some ino) (hdata : ino'.data = ino.data)
    (hk : ∀ c, k' c ≤ k c + if c = b then ino'.openCnt - ino.openCnt else 0) :
    OpenDir data a k' (s.setInode b (some ino')) := by
  have hheld : ∀ {c d}, s.Held c d (k c) → (s.setInode b (some ino')).Held c d (k' c) := by
    rintro c d ⟨hlt, ino₁, hino₁, hd, hcnt⟩
    have hkc := hk c
    by_cases hcb : c = b
    · subst hcb
      obtain rfl : ino = ino₁ := Option.some.inj (hino.symm.trans hino₁)
      exact ⟨hlt, ino', update_self .., hdata.trans hd, by omega⟩
    · rw [if_neg hcb] at hkc
      exact ⟨hlt, ino₁, (update_of_ne hcb ..).trans hino₁, hd, by omega⟩
  exact h.of_held rfl rfl rfl hheld

theorem freeInode (hk : ∀ c, 0 ≤ k c) (hino : s.inodes b = some ino) (hcnt : ino.openCnt = 0) :
    OpenDir data a k (s.setInode b none) := by
  have hheld : ∀ {c d}, s.Held c d (k c) → (s.setInode b none).Held c d (k c) := by
    rintro c d ⟨hlt, ino₁, hino₁, hd, hcnt₁⟩
    have hcb : c ≠ b := by
      rintro rfl
      obtain rfl : ino = ino₁ := Option.some.inj (hino.symm.trans hino₁)
      have := hk c
      omega
    exact ⟨hlt, ino₁, (update_of_ne hcb ..).trans hino₁, hd, hcnt₁⟩
  exact h.of_held rfl rfl rfl hheld

theorem inodeOpen_ensures (x : ℕ) :
    Ensures (inodeOpen x) s fun r t => t.disk = s.disk ∧
      ∃ b, r = some b ∧ OpenDir data a (update k b (k b + 1)) t := by
  have hbump : ∀ b c, update k b (k b + 1) c = k c + if c = b then 1 else 0 := by
    intro b c
    by_cases hcb : c = b
    · rw [hcb, update_self, if_pos rfl]
    · rw [update_of_ne hcb, if_neg hcb, add_zero]
  rw [inodeOpen, ensures_get_bind]
  split
  · next b hfind =>
    obtain ⟨ino, hino, -⟩ : ∃ ino, s.inodes b = some ino ∧ ino.sector = x := by
      simpa [Option.any_eq_true] using find?_some hfind
    refine Returns.ensures ?_
    rw [inodeReopen]
    simp only [returns_bind, returns_inodeAt hino, returns_modify, returns_pure]
    refine ⟨rfl, b, rfl, h.setInode hino rfl fun c => ?_⟩
    rw [hbump]
    simp
  · refine Ensures.bind ((returns_malloc h.mallocs fun r t => r = true ∧ t = s).mpr
      ⟨rfl, rfl⟩).ensures ?_
    rintro r t ⟨rfl, rfl⟩
    rw [if_pos rfl, ensures_get_bind, ensures_set_bind]
    refine (blockRead_ensures _ x).bind ?_
    rintro bytes u rfl
    refine ((returns_pure ..).mpr ⟨rfl, t.nextInode, rfl, ?_⟩).ensures
    refine h.of_held rfl rfl rfl ?_
    -- the new inode is none of those that are held
    rintro c d ⟨hlt, ino, hino, hrest⟩
    have hne : c ≠ t.nextInode := by omega
    rw [hbump, if_neg hne, add_zero]
    exact ⟨Nat.lt_succ_of_lt hlt, ino, (update_of_ne hne ..).trans hino, hrest⟩

theorem freeMapRelease_ensures (sector cnt : ℕ) :
    Ensures (freeMapRelease sector cnt) s fun _ t =>
      OpenDir data a k t ∧ data.SameData s.disk t.disk ∧ t.inodes = s.inodes := by
  rw [freeMapRelease, ensures_get_bind]
  refine (ensures_liftM _ s).bind ?_
  rintro all _ rfl
  refine (ensures_assert _ _ _).bind ?_
  rintro _ s rfl
  refine (ensures_liftM _ s).bind ?_
  rintro map t rfl
  rw [ensures_set_bind]
  cases hfile : t.freeMapFile with
  | none => exact ensures_throw _ _ _
  | some file =>
    obtain ⟨d, hheld, hfits, hapart⟩ := h.map file hfile
    have hset : OpenDir data a k (t.setFreeMap map) :=
      h.of_held rfl rfl rfl fun hheld => ⟨hheld.lt_next, hheld.node⟩
    refine Returns.ensures ?_
    simp only [bitmapWrite, fileWriteAt, returns_bind, returns_pure]
    refine (hset.inodeWriteAt_returns (d := d) ⟨hheld.lt_next, hheld.node⟩ hfits _ _).mono ?_
    rintro n u ⟨rfl, hn⟩
    refine ⟨hset.patchDisk _ _, fun i hi => ?_, rfl⟩
    have hclip : n ≤ d.length.toNat := by
      rcases hn with rfl | rfl
      · exact Nat.zero_le _
      · rw [clip]
        omega
    rcases hapart with hbefore | hafter
    · exact patch_of_lt (by omega)
    · refine patch_of_ge ?_
      rw [length_take]
      omega

theorem inodeClose_ensures (h0 : ∀ c, 0 ≤ k' c) (hk : ∀ c, k' c + (if c = b then 1 else 0) ≤ k c) :
    Ensures (inodeClose (some b)) s fun _ t =>
      OpenDir data a k' t ∧ data.SameData s.disk t.disk := by
  refine (inodeAt_ensures s b).bind ?_
  rintro ino s ⟨rfl, hino⟩
  rw [ensures_modify_bind]
  set t := s.setInode b (some { ino with openCnt := ino.openCnt - 1 })
  have hclosed : OpenDir data a k' t := by
    refine h.setInode hino rfl fun c => ?_
    have := hk c
    change k' c ≤ k c + if c = b then ino.openCnt - 1 - ino.openCnt else 0
    split_ifs at this ⊢ <;> omega
  have hnode : t.inodes b = some { ino with openCnt := ino.openCnt - 1 } := update_self ..
  by_cases hcnt : ino.openCnt - 1 = 0
  · rw [if_pos hcnt, ensures_modify_bind]
    have herased : OpenDir data a k' { t with openInodes := t.openInodes.erase b } :=
      hclosed.of_held rfl rfl rfl fun hheld => ⟨hheld.lt_next, hheld.node⟩
    have hfree : ∀ u, OpenDir data a k' u → data.SameData s.disk u.disk → u.inodes = t.inodes →
        Ensures (modify fun s => s.setInode b none : Fs PUnit) u fun _ v =>
          OpenDir data a k' v ∧ data.SameData s.disk v.disk := by
      intro u hu hsame hinodes
      have hb := (congrFun hinodes b).trans hnode
      exact ((returns_modify ..).mpr ⟨hu.freeInode h0 hb hcnt, hsame⟩).ensures
    split
    · refine (herased.freeMapRelease_ensures ino.sector 1).bind ?_
      rintro _ u ⟨hu, hsame, hinodes⟩
      refine (hu.freeMapRelease_ensures _ _).bind ?_
      rintro _ v ⟨hv, hsame', hinodes'⟩
      exact hfree v hv (hsame.trans hsame') (hinodes'.trans hinodes)
    · exact hfree _ herased (.refl _ _) rfl
  · rw [if_neg hcnt]
    exact ((returns_pure ..).mpr ⟨hclosed, .refl _ _⟩).ensures

theorem inodeRemove_ensures (b : ℕ) :
    Ensures (inodeRemove b) s fun _ t => OpenDir data a k t ∧ t.disk = s.disk := by
  refine (inodeAt_ensures s b).bind ?_
  rintro ino s ⟨rfl, hino⟩
  refine ((returns_modify ..).mpr ⟨h.setInode hino rfl fun c => ?_, rfl⟩).ensures
  split_ifs <;> simp

end

theorem dirRemove_ensures (h : OpenDir data a 0 s) (hnames : data.Names s.disk) (pos : ℕ)
    (name : CString) :
    Ensures (dirRemove ⟨a, pos⟩ name) s fun _ t => OpenDir data a 0 t ∧ data.Names t.disk := by
  rw [dirRemove, lookup]
  refine Ensures.bind (Q := fun r t => t = s ∧ ∀ e ofs, r = some (e, ofs) →
    ∃ j < data.slots, e = data.entry s.disk j ∧ ofs = 20 * j) (Returns.ensures ?_) ?_
  · rw [returns_bind]
    refine (h.scanEntries_returns _).mono ?_
    rintro q t ⟨rfl, r, hfound, hq⟩
    refine (returns_pure ..).mpr ⟨rfl, fun e ofs heq => ?_⟩
    cases hfound with
    | @entry j hj =>
      obtain rfl := hq
      obtain ⟨rfl, rfl⟩ := Prod.mk.inj (Option.some.inj heq)
      exact ⟨j, hj, rfl, rfl⟩
    | none =>
      obtain ⟨e, rfl⟩ := hq
      cases heq
  · rintro r t ⟨rfl, hr⟩
    cases r with
    | none => exact ((returns_pure ..).mpr ⟨h, hnames⟩).ensures
    | some q =>
      obtain ⟨j, hj, he, hofs⟩ := hr q.1 q.2 rfl
      refine (h.inodeOpen_ensures q.1.inodeSector).bind ?_
      rintro r u ⟨hdisk, b, rfl, hu⟩
      have hlen : ({ q.1 with inUse := false } : DirEntry).name.length = 15 := by
        rw [he]
        exact data.length_name_entry t.disk j
      have hk : ∀ c, (0 : ℕ → ℤ) c + (if c = b then 1 else 0) ≤
          update (0 : ℕ → ℤ) b ((0 : ℕ → ℤ) b + 1) c := by
        intro c
        by_cases hcb : c = b
        · rw [hcb, update_self, if_pos rfl]
        · rw [update_of_ne hcb, if_neg hcb, add_zero]
      rw [hofs]
      -- whether the entry was cleared or not, the inode is closed at the end
      have hclose : ∀ (ok : Bool) v, OpenDir data a (update 0 b ((0 : ℕ → ℤ) b + 1)) v →
          data.Names v.disk → Ensures (inodeClose (some b) >>= fun _ => pure ok) v
            fun _ w => OpenDir data a 0 w ∧ data.Names w.disk := by
        intro ok v hv hnames'
        refine (hv.inodeClose_ensures (fun _ => le_rfl) hk).bind ?_
        rintro _ w ⟨hw, hsame⟩
        exact ((returns_pure ..).mpr ⟨hw, hnames'.of_sameData hsame⟩).ensures
      rw [← hdisk] at hnames
      refine (hu.writeEntry_returns hj hlen).ensures.bind ?_
      rintro n v (⟨rfl, rfl⟩ | ⟨rfl, rfl⟩)
      · rw [if_neg (by decide)]
        exact hclose false v hu hnames
      · rw [if_pos rfl]
        refine ((hu.patchDisk _ _).inodeRemove_ensures b).bind ?_
        rintro _ v ⟨hv, hdisk'⟩
        refine hclose true v hv ?_
        obtain ⟨⟨-, huse⟩, hother⟩ := data.entry_patch (j := j) u.disk hlen
        rw [hdisk']
        refine hnames.of_entries (j := j) (fun i _ hij => hother i hij) fun hb => ?_
        exact absurd (huse.symm.trans hb.inUse) Bool.false_ne_true

end OpenDir

/-! ### Traversals -/

structure Traversal where
  fs : FsState
  dir : Dir
  names : List Bytes
  ended : Bool

inductive TraversalCall where
  | readdir
  | add (handle : Dir) (name : CString) (inodeSector : ℕ)
  | remove (handle : Dir) (name : CString)

namespace Traversal

def call {α : Type} (t : Traversal) (x : Fs α) (k : α → FsState → Traversal) :
    Outcome Panic Traversal :=
  match x.run t.fs with
  | .ok (r, s) => .next (k r s)
  | .error e => .fault e

def read (t : Traversal) (r : Option Bytes × Dir) (s : FsState) : Traversal :=
  match r.1 with
  | some name => { fs := s, dir := r.2, names := t.names ++ [name], ended := false }
  | none => { fs := s, dir := r.2, names := t.names, ended := true }

/-- The calls, one after the other. The traversal ends with the first `dir_readdir` that returns
false; the other calls are made through handles of the same directory. -/
def step (t : Traversal) : TraversalCall → Outcome Panic Traversal
  | .readdir => if t.ended then .blocked else t.call (dirReaddir t.dir) t.read
  | .add handle name inodeSector =>
    if handle.inode = t.dir.inode then
      t.call (dirAdd handle name inodeSector) fun _ s => { t with fs := s }
    else
      .blocked
  | .remove handle name =>
    if handle.inode = t.dir.inode then
      t.call (dirRemove handle name) fun _ s => { t with fs := s }
    else
      .blocked

theorem call_eq_next {α : Type} {t t' : Traversal} {x : Fs α} {k : α → FsState → Traversal}
    {Q : α → FsState → Prop} (hx : Ensures x t.fs Q) (h : t.call x k = .next t') :
    ∃ r s, Q r s ∧ t' = k r s := by
  rw [call] at h
  cases hrun : x.run t.fs with
  | error e =>
    rw [hrun] at h
    cases h
  | ok q =>
    rw [hrun] at h
    cases h
    exact ⟨q.1, q.2, hx q.1 q.2 hrun, rfl⟩

end Traversal

def readdirMachine (s : FsState) (a : ℕ) : Machine Traversal TraversalCall Panic where
  start := { fs := s, dir := ⟨a, 0⟩, names := [], ended := false }
  step := Traversal.step

/-- **The invariant of a traversal**: the position is before entry `p`, and at most `p` names were
returned. -/
structure TraversalInv (data : InodeDisk) (a p : ℕ) (t : Traversal) : Prop where
  openDir : OpenDir data a 0 t.fs
  names : data.Names t.fs.disk
  dir_eq : t.dir = ⟨a, 20 * p⟩
  le_slots : p ≤ data.slots
  length_le : t.names.length ≤ p

section

variable {p : ℕ} {t t' : Traversal}

inductive ReadStep (data : InodeDisk) (a p : ℕ) (t : Traversal) : ℕ → Traversal → Prop
  | listed {j : ℕ} {name : Bytes} (le : p ≤ j) (binds : data.Binds t.fs.disk j name)
      (first : ∀ i, p ≤ i → i < j → (data.entry t.fs.disk i).inUse = false) :
      ReadStep data a p t (j + 1) ⟨t.fs, ⟨a, 20 * (j + 1)⟩, t.names ++ [name], false⟩
  | ended (rest : ∀ i < data.slots, p ≤ i → (data.entry t.fs.disk i).inUse = false) :
      ReadStep data a p t data.slots ⟨t.fs, ⟨a, 20 * data.slots⟩, t.names, true⟩

theorem TraversalInv.readdir (h : TraversalInv data a p t) (hended : t.ended = false) :
    ∃ p' t', t.step .readdir = .next t' ∧ ReadStep data a p t p' t' := by
  obtain ⟨q, u, hrun, rfl, r, hfound, rfl⟩ := h.openDir.dirReaddir_returns h.le_slots
  have hstep : t.step .readdir = .next (t.read ((data.listed t.fs.disk r).1,
      ⟨a, (data.listed t.fs.disk r).2⟩) t.fs) := by
    rw [Traversal.step, if_neg (by rw [hended]; exact Bool.false_ne_true), h.dir_eq, Traversal.call,
      hrun]
  cases hfound with
  | @entry j hj hle huse hfirst =>
    have hbinds : data.Binds t.fs.disk j _ := ⟨hj, huse, rfl⟩
    have htake := take_of_length_le (h.names.length_le hbinds)
    refine ⟨j + 1, _, hstep, ?_⟩
    rw [Traversal.read, InodeDisk.listed, htake]
    exact .listed hle hbinds hfirst
  | none hrest => exact ⟨_, _, hstep, .ended hrest⟩

theorem TraversalInv.step (h : TraversalInv data a p t) {call : TraversalCall}
    (hstep : t.step call = .next t') :
    (∃ p', TraversalInv data a p' t' ∧ ReadStep data a p t p' t') ∨
      (TraversalInv data a p t' ∧ t'.names = t.names ∧ t'.ended = t.ended) := by
  cases call with
  | readdir =>
    cases hended : t.ended with
    | true =>
      rw [Traversal.step, hended, if_pos rfl] at hstep
      cases hstep
    | false =>
      obtain ⟨p', u, hu, hread⟩ := h.readdir hended
      obtain rfl : u = t' := Outcome.next.inj (hu.symm.trans hstep)
      refine .inl ?_
      have hlen := h.length_le
      cases hread with
      | @listed j name hle hbinds hfirst =>
        refine ⟨j + 1, ⟨h.openDir, h.names, rfl, hbinds.lt, ?_⟩, .listed hle hbinds hfirst⟩
        rw [length_append, length_singleton]
        omega
      | ended hrest =>
        exact ⟨data.slots, ⟨h.openDir, h.names, rfl, le_rfl, hlen.trans h.le_slots⟩, .ended hrest⟩
  | add handle name x =>
    rw [Traversal.step] at hstep
    split at hstep
    · next hinode =>
      rw [h.dir_eq] at hinode
      obtain ⟨b, pos⟩ := handle
      obtain rfl : b = a := hinode
      obtain ⟨_, u, ⟨hopen, hnames⟩, rfl⟩ := Traversal.call_eq_next
        (h.openDir.dirAdd_returns h.names pos name x).ensures hstep
      exact .inr ⟨⟨hopen, hnames, h.dir_eq, h.le_slots, h.length_le⟩, rfl, rfl⟩
    · cases hstep
  | remove handle name =>
    rw [Traversal.step] at hstep
    split at hstep
    · next hinode =>
      rw [h.dir_eq] at hinode
      obtain ⟨b, pos⟩ := handle
      obtain rfl : b = a := hinode
      obtain ⟨_, u, ⟨hopen, hnames⟩, rfl⟩ := Traversal.call_eq_next
        (h.openDir.dirRemove_ensures h.names pos name) hstep
      exact .inr ⟨⟨hopen, hnames, h.dir_eq, h.le_slots, h.length_le⟩, rfl, rfl⟩
    · cases hstep

theorem traversalInv_start (h : OpenDir data a 0 s) (hnames : data.Names s.disk) :
    TraversalInv data a 0 (readdirMachine s a).start :=
  ⟨h, hnames, rfl, Nat.zero_le _, le_rfl⟩

theorem traversalInv_of_reachable (h : OpenDir data a 0 s) (hnames : data.Names s.disk)
    (ht : (readdirMachine s a).Reachable t) : ∃ p, TraversalInv data a p t := by
  refine ht.invariant (P := fun t => ∃ p, TraversalInv data a p t)
    ⟨0, traversalInv_start h hnames⟩ ?_
  rintro t t' call - ⟨p, hp⟩ - hstep
  rcases hp.step hstep with ⟨p', hp', -⟩ | ⟨hp', -⟩
  · exact ⟨p', hp'⟩
  · exact ⟨p, hp'⟩

theorem ReadStep.count_eq {p' : ℕ} (h : TraversalInv data a p t) (hread : ReadStep data a p t p' t')
    (hi : data.Binds t.fs.disk i name) (hcount : t.names.count name = if i < p then 1 else 0) :
    t'.names.count name = (if i < p' then 1 else 0) ∧ (t'.ended = true → i < p') := by
  cases hread with
  | @listed j name' hle hbinds hfirst =>
    refine ⟨?_, fun hended => absurd hended Bool.false_ne_true⟩
    rw [count_append, hcount, count_singleton]
    have hnot : p ≤ i → j ≤ i := by
      intro hpi
      by_contra hlt
      have hfree := hfirst i hpi (by omega)
      rw [hi.inUse] at hfree
      cases hfree
    by_cases hij : i = j
    · subst hij
      have heq : name' = name := hbinds.name_eq.symm.trans hi.name_eq
      rw [heq, beq_self_eq_true, if_pos rfl, if_neg (not_lt.mpr hle), if_pos (Nat.lt_succ_self i)]
    · have hne : (name' == name) = false := by
        refine beq_eq_false_iff_ne.mpr fun heq => hij ?_
        exact h.names.inj hi (heq ▸ hbinds)
      rw [hne, if_neg Bool.false_ne_true, add_zero]
      by_cases hip : i < p
      · rw [if_pos hip, if_pos (by omega)]
      · have := hnot (by omega)
        rw [if_neg hip, if_neg (by omega)]
  | ended hrest =>
    have hip : i < p := by
      by_contra hpi
      have hfree := hrest i hi.lt (by omega)
      rw [hi.inUse] at hfree
      cases hfree
    have := hi.lt
    rw [if_pos hip] at hcount
    exact ⟨by rw [if_pos (by omega)]; exact hcount, fun _ => by omega⟩

theorem count_of_reachable (h : OpenDir data a 0 s) (hnames : data.Names s.disk)
    (ht : (readdirMachine s a).ReachableUnder (fun u _ => data.Binds u.fs.disk i name) t) :
    ∃ p, TraversalInv data a p t ∧ t.names.count name = (if i < p then 1 else 0) ∧
      (t.ended = true → i < p) := by
  refine ht.invariant (P := fun t => ∃ p, TraversalInv data a p t ∧
    t.names.count name = (if i < p then 1 else 0) ∧ (t.ended = true → i < p))
    ⟨0, traversalInv_start h hnames, rfl, fun hend => absurd hend Bool.false_ne_true⟩ ?_
  rintro t t' call - ⟨p, hp, hcount, hend⟩ hi hstep
  rcases hp.step hstep with ⟨p', hp', hread⟩ | ⟨hp', hsame, hended⟩
  · exact ⟨p', hp', hread.count_eq hp hi hcount⟩
  · exact ⟨p, hp', hsame ▸ hcount, fun he => hend (hended ▸ he)⟩

theorem VolInv.rootDir_apart (h : VolInv s) : (inodeOn s.disk 1).Apart (inodeOn s.disk 0) := by
  by_contra hnot
  rw [InodeDisk.Apart, h.rootDir_length] at hnot
  -- the first sector of the directory would be one of the free map
  obtain ⟨n, hn⟩ := Nat.exists_eq_add_of_le (show (inodeOn s.disk 0).start ≤
    (inodeOn s.disk 1).start by omega)
  have hpos : 512 * n < (inodeOn s.disk 0).length.toNat := by omega
  have hbyte := h.holds_byte (o := .freeMapData) (.inl rfl) trivial rfl hpos
  rw [show (512 * (inodeOn s.disk 0).start + 512 * n) / 512 = (inodeOn s.disk 1).start by omega]
    at hbyte
  cases h.owner_eq hbyte h.holds_rootDirData

theorem ClientInv.openDir {c : Client} {m d : ℕ} {dir : Dir} (hc : ClientInv m c)
    (hdir : c.dirs[d]? = some (some dir)) :
    OpenDir (inodeOn c.fs.disk 1) dir.inode 0 c.fs ∧ (inodeOn c.fs.disk 1).Names c.fs.disk := by
  have hvol := hc.inv.vol
  have htable := hc.inv.table
  have hroot := hc.isRoot hdir
  have hheld : ∀ {b}, b ∈ c.fs.openInodes → ∀ {ino}, c.fs.inodes b = some ino →
      c.fs.Held b ino.data 0 := by
    intro b hb ino hino
    obtain ⟨ino', hino', hcnt, -⟩ := htable.node hb
    obtain rfl : ino = ino' := Option.some.inj (hino.symm.trans hino')
    have := (htable.mem_iff b).mp hb
    exact ⟨htable.fresh hb, ino, hino, rfl, by omega⟩
  have hslots : (inodeOn c.fs.disk 1).slots = 16 := by
    rw [InodeDisk.slots, hvol.rootDir_length]
    rfl
  have hslot : ∀ {i name}, (inodeOn c.fs.disk 1).Binds c.fs.disk i name → i < 16 ∧
      ∃ x, c.fs.slot i = some (name, x) := by
    intro i name hb
    refine ⟨hslots ▸ hb.lt, (c.fs.entry i).inodeSector, ?_⟩
    rw [FsState.slot, if_pos (show (c.fs.entry i).inUse = true from hb.inUse)]
    exact congrArg (fun n => some (n, _)) hb.name_eq
  refine ⟨⟨htable.mallocs, by have := hvol.size_le; omega, hvol.fits (.inr (.inl rfl)), ?_, ?_⟩,
    ?_, ?_⟩
  · obtain ⟨ino, hino, -, hdata⟩ := hroot.node hc.inv
    exact hdata ▸ hheld ((htable.mem_iff _).mpr hroot.open_pos) hino
  · intro file hfile
    obtain ⟨file', ino, hmap, hdata⟩ := hc.inv.mapFile_data
    obtain rfl : file = file' := Option.some.inj (hfile.symm.trans hmap.file_eq)
    obtain ⟨file', _, hfile', -, hmem, -⟩ := htable.mapFile
    obtain rfl : file = file' := Option.some.inj (hfile.symm.trans hfile')
    exact ⟨ino.data, hheld hmem hmap.inode_eq, hmap.fits, hdata ▸ hvol.rootDir_apart⟩
  · intro i j name hi hj
    obtain ⟨hi16, x, hx⟩ := hslot hi
    obtain ⟨hj16, y, hy⟩ := hslot hj
    exact hvol.name_inj hi16 hj16 hx hy
  · intro i name hi
    obtain ⟨hi16, x, hx⟩ := hslot hi
    exact (hvol.name_valid hi16 hx).2

/-- **Listing a directory while it changes**: a name that is bound to one entry all the time has
been returned **exactly once** at the end. -/
theorem readdir_traversal (h : OpenDir data a 0 s) (hnames : data.Names s.disk) :
    (∀ t, (readdirMachine s a).Reachable t → t.names.length ≤ data.slots ∧
      (t.ended = false → ∃ t', (readdirMachine s a).step t .readdir = .next t' ∧
        ((∃ i name, data.Binds t.fs.disk i name ∧ t'.names = t.names ++ [name] ∧
            t'.ended = false) ∨
          (t'.names = t.names ∧ t'.ended = true)))) ∧
    ∀ i name t, (readdirMachine s a).ReachableUnder (fun u _ => data.Binds u.fs.disk i name) t →
      data.Binds t.fs.disk i name → t.ended = true → t.names.count name = 1 := by
  refine ⟨fun t ht => ?_, fun i name t ht hbinds hended => ?_⟩
  · obtain ⟨p, hp⟩ := traversalInv_of_reachable h hnames ht
    refine ⟨hp.length_le.trans hp.le_slots, fun hended => ?_⟩
    obtain ⟨p', t', hstep, hread⟩ := hp.readdir hended
    refine ⟨t', hstep, ?_⟩
    cases hread with
    | listed _ hbinds _ => exact .inl ⟨_, _, hbinds, rfl, rfl⟩
    | ended _ => exact .inr ⟨rfl, rfl⟩
  · obtain ⟨p, -, hcount, hend⟩ := count_of_reachable h hnames ht
    rw [hcount, if_pos (hend hended)]

/-- The root directory with one file that stays. -/
theorem readdir_traversal_root : ∃ (s₀ : FsState) (c : Client) (dir : Dir) (i : ℕ),
    JustFormatted s₀ ∧ (fsMachine s₀).Reachable c ∧ c.dirs[0]? = some (some dir) ∧
      (inodeOn c.fs.disk 1).Binds c.fs.disk i [0x61] ∧
      ∀ t, (readdirMachine c.fs dir.inode).ReachableUnder
          (fun u _ => (inodeOn c.fs.disk 1).Binds u.fs.disk i [0x61]) t →
        (inodeOn c.fs.disk 1).Binds t.fs.disk i [0x61] → t.ended = true →
        t.names.count [0x61] = 1 := by
  obtain ⟨s₀, c, dir, i, x, hs, hc, hdir, hi, hslot, -⟩ :=
    exists_dir_with_file ⟨[0x61], by decide⟩ (by decide)
  obtain ⟨m, hinv⟩ := clientInv_of_reachable hs hc
  obtain ⟨hopen, hnames⟩ := hinv.openDir hdir
  have huse : (c.fs.entry i).inUse = true := by
    by_contra hfree
    rw [slot_eq_none_iff.mpr (by simpa using hfree)] at hslot
    cases hslot
  refine ⟨s₀, c, dir, i, hs, hc, hdir, ⟨?_, huse, ?_⟩,
    fun t => (readdir_traversal hopen hnames).2 i [0x61] t⟩
  · rw [InodeDisk.slots, hinv.inv.vol.rootDir_length]
    exact hi
  · rw [FsState.slot, if_pos huse] at hslot
    exact congrArg Prod.fst (Option.some.inj hslot)

end

end

end OsMaterial
