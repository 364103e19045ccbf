import OsMaterial.FilesysCalls

/-!
# Opening, Removing, and Using Files

What the calls on files do, from any state with the invariant. While a removed file is open its
sectors stay owned. The files after a call were there before, with their contents (`Inherits`),
apart from the one that the call writes.

* `filesysOpen_returns`, `filesysRemove_returns`: the calls by name.
* `fileRead_returns`, `fileWrite_returns`: **exactly the bytes** at the position are transferred.
-/

namespace OsMaterial

open List
open Function (update_of_ne update_self)

variable {file : File} {b i : ℕ} {ino : Inode} {name : Bytes} {e : DirEntry}

open FsState

section

variable {refs : ℕ → ℕ} {s t : FsState} {a x : ℕ}

/-! ### What is left of the files -/

/-- The files of `t` are files of `s`, with the same contents. -/
def Inherits (s t : FsState) : Prop :=
  ∀ x, t.IsFile x → s.IsFile x ∧ t.contents x = s.contents x

theorem Inherits.trans {u : FsState} (h : Inherits s t) (h' : Inherits t u) : Inherits s u :=
  fun x hx => ⟨(h x (h' x hx).1).1, (h' x hx).2.trans (h x (h' x hx).1).2⟩

theorem Keeps.inherits (hk : Keeps s t) (hfile : ∀ x, t.IsFile x → s.IsFile x) : Inherits s t :=
  fun x hx => ⟨hfile x hx, hk.contents_eq (hfile x hx)⟩

theorem SameVolume.inherits (hv : SameVolume s t) (horphan : ∀ x, t.Orphan x → s.Orphan x) :
    Inherits s t :=
  fun x hx => ⟨hx.imp (hv.bound_iff x).mp (horphan x), hv.contents_eq x⟩

theorem Framed.inherits (hf : Framed refs s t) (h : FsInv refs s)
    (hslot : ∀ i < 16, t.slot i = s.slot i) : Inherits s t := by
  refine hf.keeps.inherits fun x => Or.imp (VolInv.bound_iff_of_slot hslot x).mp ?_
  rw [orphan_iff, orphan_iff]
  rintro ⟨b, hb, d, hx⟩
  have hpos := (hf.inv.table.mem_iff b).mp hb
  exact ⟨b, (h.table.mem_iff b).mpr hpos, d, hf.target_eq b hpos ▸ hx⟩

theorem unref_le (refs : ℕ → ℕ) (a b : ℕ) : unref refs a b ≤ refs b := by
  by_cases hb : b = a
  · rw [hb, unref, update_self]
    omega
  · rw [unref, update_of_ne hb]

theorem Closed.frame (hc : Closed refs s a t) (h : FsInv refs s) :
    Inherits s t ∧ (∀ i < 16, t.slot i = s.slot i) ∧ t.size = s.size := by
  have horphan : ∀ y, t.Orphan y → s.Orphan y := by
    intro y
    rw [orphan_iff, orphan_iff]
    rintro ⟨b, hb, d, hy⟩
    have hpos := (hc.inv.table.mem_iff b).mp hb
    exact ⟨b, (h.table.mem_iff b).mpr (hpos.trans_le (unref_le refs a b)), d,
      hc.target_eq b hpos ▸ hy⟩
  obtain ⟨hv, -⟩ | ⟨y, d, -, -, ⟨map, hcnt, -, hv⟩, -⟩ := hc.effect
  · exact ⟨hv.inherits horphan, fun i _ => hv.slot_eq i, hv.size_eq⟩
  · -- the free map was written, which nobody sees in a file or in the directory
    have hslot := fun i hi => h.vol.slot_eq_of_agree (i := i) (h.vol.agreeOn_meta_withMap hcnt) hi
    refine ⟨fun z hz => ?_, fun i hi => (hv.slot_eq i).trans (hslot i hi), hv.size_eq⟩
    have hfile : s.IsFile z := by
      refine hz.imp (fun hb => ?_) (horphan z)
      exact (VolInv.bound_iff_of_slot hslot z).mp ((hv.bound_iff z).mp hb)
    exact ⟨hfile, (hv.contents_eq z).trans ((h.vol.keeps_withMap hcnt).contents_eq hfile)⟩

/-! ### Opening by name -/

theorem IsRoot.of_target_eq {refs' : ℕ → ℕ} (hroot : IsRoot refs s a) (hpos : 0 < refs' a)
    (htarget : t.target a = s.target a) : IsRoot refs' t a :=
  ⟨hpos, htarget ▸ hroot.target_eq⟩

theorem IsRoot.of_opened (hroot : IsRoot refs s a) (ho : Opened refs s x b t) :
    IsRoot (bump refs b) t a :=
  hroot.of_target_eq (hroot.open_pos.trans_le (le_bump _ _ _)) (ho.target_eq a hroot.open_pos)

theorem Opened.node (ho : Opened refs s x b t) :
    ∃ ino d, 0 < bump refs b b ∧ t.inodes b = some ino ∧ ino.sector = x ∧
      t.target b = some (x, false, d) := by
  have hpos : 0 < bump refs b b := by rw [bump, update_self]; omega
  obtain ⟨ino, hino, -⟩ := ho.inv.table.node ((ho.inv.table.mem_iff b).mpr hpos)
  obtain ⟨d, hself, -⟩ := ho.target_self
  exact ⟨ino, d, hpos, hino, (target_inj (FsState.target_eq hino) hself).1, hself⟩

theorem Opened.of_root {s₁ s₂ : FsState} (ho : Opened refs s 1 a s₁)
    (ho' : Opened (bump refs a) s₁ x b s₂) (hx : x ≠ 1)
    (hinv : FsInv (unref (bump (bump refs a) b) a) t) (hv : SameVolume s₂ t)
    (hclosed : ∀ c, 0 < unref (bump (bump refs a) b) a c → t.target c = s₂.target c) :
    Opened refs s x b t := by
  rw [bump_comm, unref_bump] at hinv hclosed
  obtain ⟨d, hself, hzero⟩ := ho'.target_self
  have hba : b ≠ a := by
    rintro rfl
    obtain ⟨e, hroot, -⟩ := ho.target_self
    rw [ho'.target_eq b ho.isRoot.open_pos] at hself
    exact hx (target_inj hself hroot).1
  refine ⟨hinv, (ho.volume.trans ho'.volume).trans hv, ⟨d, ?_, fun hb => hzero ?_⟩, fun c hc => ?_⟩
  · rw [hclosed b (by rw [bump, update_self]; omega), hself]
  · rw [bump, update_of_ne hba, hb]
  · rw [hclosed c (hc.trans_le (le_bump refs b c)),
      ho'.target_eq c (hc.trans_le (le_bump refs a c)), ho.target_eq c hc]

/-- **`filesys_open`** succeeds exactly when the name is bound. -/
theorem filesysOpen_returns (h : FsInv refs s) (name : CString) :
    Returns (filesysOpen name) s fun r t =>
      (∃ i < 16, ∃ x b, s.slot i = some (name.bytes, x) ∧
        r = some { inode := b, pos := 0, denyWrite := false } ∧ Opened refs s x b t) ∨
      (¬ s.BoundName name ∧ r = none ∧ SameVolume s t ∧ Framed refs s t) := by
  rw [filesysOpen, returns_bind]
  refine (dirOpenRoot_returns h).mono ?_
  rintro _ s₁ ⟨a, rfl, ho⟩
  simp only [returns_bind, dirLookup]
  refine (lookup_returns ho.isRoot ho.inv 0 name).mono ?_
  rintro _ s₂ ⟨⟨i, hi, x, hslot, hx, rfl⟩ | ⟨hunbound, rfl⟩, rfl⟩
  · have hbound : s₂.Bound x := ⟨i, hi, _, hslot⟩
    have h2 := ho.inv.vol.two_le (.inl hbound)
    simp only [hx]
    refine (inodeOpen_returns ho.inv (.inr (.inr hbound))).mono ?_
    rintro _ s₃ ⟨b, rfl, ho'⟩
    refine ((ho.isRoot.of_opened ho').dirClose_returns ho'.inv 0).mono ?_
    rintro _ t ⟨hinv, hv, -, hclosed⟩
    rw [fileOpen, returns_bind, returns_malloc hinv.table.mallocs, returns_pure]
    exact .inl ⟨i, hi, x, b, (ho.volume.slot_eq i) ▸ hslot, rfl,
      ho.of_root ho' (by omega) hinv hv hclosed⟩
  · simp only [returns_pure]
    refine (ho.isRoot.dirClose_returns ho.inv 0).mono ?_
    rintro _ t ⟨hinv, hv, horphan, hclosed⟩
    simp only [fileOpen, returns_bind, returns_malloc hinv.table.mallocs, inodeClose, returns_pure]
    exact .inr ⟨(ho.volume.boundName_iff name).not.mp hunbound, trivial, ho.volume.trans hv,
      .of_root h ho (.refl _) (fun _ _ => rfl) rfl hinv hv horphan hclosed⟩

/-! ### Removing -/

/-- The state after entry `i` was overwritten with `e` and the inode at `b` was marked as
removed. -/
def FsState.unlink (s : FsState) (i : ℕ) (e : DirEntry) (b : ℕ) (ino : Inode) : FsState :=
  (s.patchDisk (s.slotOfs i) (encodeEntry e)).setInode b (some { ino with removed := true })

structure Removed (refs : ℕ → ℕ) (s : FsState) (i x : ℕ) (t : FsState) : Prop where
  inv : FsInv refs t
  slot_self : t.slot i = none
  slot_other : ∀ j < 16, j ≠ i → t.slot j = s.slot j
  inherits : Inherits s t
  target_eq : ∀ b y v d, 0 < refs b → s.target b = some (y, v, d) → ∃ w, t.target b = some (y, w, d)
  size_eq : t.size = s.size

theorem isFile_unlink (hi : i < 16) (hslot : s.slot i = some (name, ino.sector))
    (hb : b ∈ s.openInodes) (hino : s.inodes b = some ino)
    (hself : (s.unlink i e b ino).slot i = none)
    (hother : ∀ j < 16, j ≠ i → (s.unlink i e b ino).slot j = s.slot j) (y : ℕ) :
    ((s.unlink i e b ino).Orphan y ↔ s.Orphan y ∨ y = ino.sector) ∧
      ((s.unlink i e b ino).IsFile y ↔ s.IsFile y) := by
  have horphan : (s.unlink i e b ino).Orphan y ↔ s.Orphan y ∨ y = ino.sector := by
    constructor
    · rintro ⟨c, hc, jno, hjno, rfl, hremoved⟩
      by_cases hcb : c = b
      · rw [hcb, show (s.unlink i e b ino).inodes b = _ from update_self ..] at hjno
        obtain rfl := Option.some.inj hjno
        exact .inr rfl
      · exact .inl ⟨c, hc, jno, (update_of_ne hcb ..).symm.trans hjno, rfl, hremoved⟩
    · rintro (⟨c, hc, jno, hjno, rfl, hremoved⟩ | rfl)
      · by_cases hcb : c = b
        · subst hcb
          obtain rfl : ino = jno := Option.some.inj (hino.symm.trans hjno)
          exact ⟨c, hc, _, update_self .., rfl, rfl⟩
        · exact ⟨c, hc, jno, (update_of_ne hcb ..).trans hjno, rfl, hremoved⟩
      · exact ⟨b, hb, _, update_self .., rfl, rfl⟩
  refine ⟨horphan, ?_⟩
  constructor
  · rintro (⟨j, hj, n, hn⟩ | hy)
    · have hji : j ≠ i := by
        rintro rfl
        rw [hself] at hn
        cases hn
      exact .inl ⟨j, hj, n, hother j hj hji ▸ hn⟩
    · obtain hy | rfl := horphan.mp hy
      · exact .inr hy
      · exact .inl ⟨i, hi, name, hslot⟩
  · rintro (⟨j, hj, n, hn⟩ | hy)
    · by_cases hji : j = i
      · rw [hji, hslot] at hn
        exact .inr (horphan.mpr (.inr (congrArg Prod.snd (Option.some.inj hn)).symm))
      · exact .inl ⟨j, hj, n, (hother j hj hji).trans hn⟩
    · exact .inr (horphan.mpr (.inl hy))

theorem FsInv.unlink (h : FsInv refs s) (hi : i < 16) (hslot : s.slot i = some (name, ino.sector))
    (hb : 0 < refs b) (hino : s.inodes b = some ino) (hlen : e.name.length = 15)
    (hsector : e.inodeSector < wordSize) (huse : e.inUse = false) :
    Removed refs s i ino.sector (s.unlink i e b ino) := by
  have hmem := (h.table.mem_iff b).mpr hb
  set t := s.unlink i e b ino with ht
  obtain ⟨hself, hother⟩ := VolInv.slot_patch_of_start_ne (t := t) h.vol.rootDir_start_ne hi hlen
    hsector rfl
  rw [huse, if_neg (by decide)] at hself
  obtain ⟨hinode, -⟩ := h.vol.frame_entry (t := t) hi hlen rfl rfl rfl
  have hfiles := fun y => isFile_unlink hi hslot hmem hino hself hother y
  have hknown : ∀ y, s.Known y → t.Known y := fun y => Or.imp_right (.imp_right (hfiles y).2.mpr)
  have hvol : VolInv t := h.vol.unbind hi hslot hlen hsector huse rfl rfl rfl
    fun y => (hfiles y).1.mp
  have hkeeps : Keeps s t := by
    refine h.vol.keeps (fun {y} => (hfiles y).2.mpr) ((h.vol.agreeOn_entry hi hlen).mono ?_)
    rintro k ⟨o, ⟨y, rfl | rfl⟩, hk⟩
    · exact ⟨_, by simp, hk⟩
    · exact ⟨_, by simp, hk⟩
  have htself : t.target b = some (ino.sector, true, ino.denyWriteCnt) := by
    simp [ht, FsState.unlink, target, setInode]
  have htother : ∀ c, c ≠ b → t.target c = s.target c := fun c hc => by
    simp [ht, FsState.unlink, target, setInode, patchDisk, hc]
  have htarget : ∀ c y v, t.target c = some (y, v) → ∃ w, s.target c = some (y, w) := by
    intro c y v hc
    by_cases hcb : c = b
    · rw [hcb, htself] at hc
      obtain ⟨rfl, -⟩ := Prod.mk.inj (Option.some.inj hc)
      exact ⟨_, hcb ▸ FsState.target_eq hino⟩
    · exact ⟨v, htother c hcb ▸ hc⟩
  refine ⟨⟨hvol, ?_⟩, hself, hother, hkeeps.inherits fun y => (hfiles y).2.mp, ?_, rfl⟩
  · exact
      { h.table with
        node := fun {c} hc => by
          obtain ⟨jno, hjno, hcnt, hdeny, hdata, hy⟩ := h.table.node hc
          by_cases hcb : c = b
          · subst hcb
            obtain rfl : ino = jno := Option.some.inj (hino.symm.trans hjno)
            exact ⟨_, update_self .., hcnt, hdeny, hdata.trans (hinode _ hy).symm, hknown _ hy⟩
          · exact ⟨jno, (update_of_ne hcb ..).trans hjno, hcnt, hdeny,
              hdata.trans (hinode _ hy).symm, hknown _ hy⟩
        sector_inj := fun {c c' y v w} hc hc' hcy hcy' => by
          obtain ⟨v', hcy⟩ := htarget c y v hcy
          obtain ⟨w', hcy'⟩ := htarget c' y w hcy'
          exact h.table.sector_inj hc hc' hcy hcy'
        mapFile := by
          obtain ⟨file, v, hfile, hdeny, hc, hzero⟩ := h.table.mapFile
          have hne : file.inode ≠ b := by
            intro heq
            have hz := (target_inj (FsState.target_eq hino) (heq ▸ hzero)).1
            have := h.vol.two_le (.inl ⟨i, hi, name, hslot⟩)
            omega
          exact ⟨file, v, hfile, hdeny, hc, (htother _ hne).trans hzero⟩ }
  · intro c y v d _ hc
    by_cases hcb : c = b
    · subst hcb
      rw [FsState.target_eq hino] at hc
      obtain ⟨rfl, hvd⟩ := Prod.mk.inj (Option.some.inj hc)
      obtain ⟨-, rfl⟩ := Prod.mk.inj hvd
      exact ⟨true, htself⟩
    · exact ⟨v, (htother c hcb).trans hc⟩

theorem dirRemove_returns (hroot : IsRoot refs s a) (h : FsInv refs s) (pos : ℕ) (name : CString) :
    Returns (dirRemove ⟨a, pos⟩ name) s fun ok t =>
      (ok = true ∧ ∃ i < 16, ∃ x, s.slot i = some (name.bytes, x) ∧ Removed refs s i x t) ∨
      (ok = false ∧ ¬ s.BoundName name ∧ t = s) := by
  rw [dirRemove, returns_bind]
  refine (lookup_returns hroot h pos name).mono ?_
  rintro _ s₁ ⟨⟨i, hi, x, hslot, hx, rfl⟩ | ⟨hunbound, rfl⟩, rfl⟩
  · have hbound : s₁.Bound x := ⟨i, hi, _, hslot⟩
    have hsize := h.vol.size_le
    have hlt := h.vol.owner_lt (VolInv.holds_fileInode (.inl hbound))
    simp only [returns_bind, hx]
    refine (inodeOpen_returns h (.inr (.inr hbound))).mono ?_
    rintro _ s₂ ⟨b, rfl, ho⟩
    have hlen : (s₁.entry i).name.length = 15 := by simp [entry, decodeEntry]
    -- the entry was read before the inode was opened, which did not change it
    have hslot₂ : s₂.slot i = some (name.bytes, x) := (ho.volume.slot_eq i).trans hslot
    obtain ⟨ino, d, hpos, hino, rfl, hself⟩ := ho.node
    have hrem := ho.inv.unlink (e := ⟨ino.sector, (s₁.entry i).name, false⟩) hi hslot₂ hpos hino
      hlen (show ino.sector < wordSize by omega) rfl
    simp only [returns_bind]
    rw [(hroot.of_opened ho).inodeWriteAt_returns ho.inv
      (e := ⟨ino.sector, (s₁.entry i).name, false⟩) hlen hi, if_pos rfl]
    simp only [returns_bind, inodeRemove, returns_modify, returns_pure]
    rw [returns_inodeAt (s := s₂.patchDisk _ _) (show _ = some ino from hino)]
    obtain ⟨w, htarget⟩ := hrem.target_eq b _ _ _ hpos hself
    have h2 := ho.inv.vol.two_le (.inl ⟨i, hi, _, hslot₂⟩)
    refine (inodeClose_returns hrem.inv hpos htarget (by omega)).mono ?_
    rintro _ t hc
    obtain ⟨hinh, hslots, hsz⟩ := hc.frame hrem.inv
    have hinv := hc.inv
    have hclosed := hc.target_eq
    rw [unref_bump] at hinv hclosed
    have hinh₁ := ho.volume.inherits fun y => (ho.orphan_iff h y).mp
    refine .inl ⟨trivial, i, hi, ino.sector, hslot, hinv, (hslots i hi).trans hrem.slot_self,
      fun j hj hji => ?_, (hinh₁.trans hrem.inherits).trans hinh, fun c y v e hc' hcy => ?_, ?_⟩
    · rw [hslots j hj, hrem.slot_other j hj hji, ho.volume.slot_eq]
    · obtain ⟨u, hu⟩ := hrem.target_eq c y v e (hc'.trans_le (le_bump _ _ _))
        ((ho.target_eq c hc').trans hcy)
      exact ⟨u, (hclosed c hc').trans hu⟩
    · rw [hsz, hrem.size_eq, ho.volume.size_eq]
  · exact (returns_pure ..).mpr (.inr ⟨rfl, hunbound, rfl⟩)

theorem Removed.isRoot (hrem : Removed refs s i x t) (hroot : IsRoot refs s a) :
    IsRoot refs t a := by
  obtain ⟨d, htarget⟩ := hroot.target_eq
  obtain ⟨w, hw⟩ := hrem.target_eq a _ _ _ hroot.open_pos htarget
  have hmem := (hrem.inv.table.mem_iff a).mpr hroot.open_pos
  obtain rfl := hrem.inv.not_removed (.inr (.inl rfl)) hmem hw
  exact ⟨hroot.open_pos, d, hw⟩

/-- **`filesys_remove`** succeeds exactly when the name is bound. -/
theorem filesysRemove_returns (h : FsInv refs s) (name : CString) :
    Returns (filesysRemove name) s fun ok t =>
      (ok = true ∧ ∃ i < 16, ∃ x, s.slot i = some (name.bytes, x) ∧ Removed refs s i x t) ∨
      (ok = false ∧ ¬ s.BoundName name ∧ SameVolume s t ∧ Framed refs s t) := by
  rw [filesysRemove, returns_bind]
  refine (dirOpenRoot_returns h).mono ?_
  rintro _ s₁ ⟨a, rfl, ho⟩
  simp only [returns_bind]
  refine (dirRemove_returns ho.isRoot ho.inv 0 name).mono ?_
  rintro _ s₂ (⟨rfl, i, hi, x, hslot, hrem⟩ | ⟨rfl, hunbound, rfl⟩)
  · refine ((hrem.isRoot ho.isRoot).dirClose_returns hrem.inv 0).mono ?_
    rintro _ t ⟨hinv, hv, horphan, hclosed⟩
    rw [unref_bump] at hinv hclosed
    have hinh := (ho.volume.inherits fun y => (ho.orphan_iff h y).mp).trans hrem.inherits
    refine (returns_pure ..).mpr (.inl ⟨rfl, i, hi, x, (ho.volume.slot_eq i) ▸ hslot, hinv, ?_,
      fun j hj hji => ?_, hinh.trans (hv.inherits fun y => (horphan y).mp),
      fun b y v e hb hby => ?_, ?_⟩)
    · rw [hv.slot_eq, hrem.slot_self]
    · rw [hv.slot_eq, hrem.slot_other j hj hji, ho.volume.slot_eq]
    · obtain ⟨u, hu⟩ := hrem.target_eq b y v e (hb.trans_le (le_bump _ _ _))
        ((ho.target_eq b hb).trans hby)
      exact ⟨u, (hclosed b hb).trans hu⟩
    · rw [hv.size_eq, hrem.size_eq, ho.volume.size_eq]
  · refine (ho.isRoot.dirClose_returns ho.inv 0).mono ?_
    rintro _ t ⟨hinv, hv, horphan, hclosed⟩
    exact (returns_pure ..).mpr (.inr ⟨rfl, (ho.volume.boundName_iff name).not.mp hunbound,
      ho.volume.trans hv, .of_root h ho (.refl _) (fun _ _ => rfl) rfl hinv hv horphan hclosed⟩)

/-! ### Open files -/

structure IsOpen (refs : ℕ → ℕ) (s : FsState) (a x : ℕ) (d : ℤ) : Prop where
  open_pos : 0 < refs a
  target_eq : ∃ v, s.target a = some (x, v, d)
  two_le : 2 ≤ x

section

variable {d : ℤ}

theorem IsOpen.node (hf : IsOpen refs s a x d) (h : FsInv refs s) :
    ∃ ino, s.inodes a = some ino ∧ ino.openCnt = refs a ∧ ino.sector = x ∧
      ino.denyWriteCnt = d ∧ ino.data = inodeOn s.disk x ∧ s.IsFile x := by
  obtain ⟨ino, hino, hcnt, -, hdata, hknown⟩ := h.table.node ((h.table.mem_iff a).mpr hf.open_pos)
  obtain ⟨v, htarget⟩ := hf.target_eq
  rw [FsState.target_eq hino] at htarget
  obtain ⟨rfl, hvd⟩ := Prod.mk.inj (Option.some.inj htarget)
  obtain ⟨-, rfl⟩ := Prod.mk.inj hvd
  have h2 := hf.two_le
  rcases hknown with h0 | h1 | hfile
  · omega
  · omega
  · exact ⟨ino, hino, hcnt, rfl, rfl, hdata, hfile⟩

theorem IsOpen.isFile (hf : IsOpen refs s a x d) (h : FsInv refs s) : s.IsFile x := by
  obtain ⟨ino, -, -, -, -, -, hfile⟩ := hf.node h
  exact hfile

theorem length_contents (s : FsState) (x : ℕ) :
    (s.contents x).length = (inodeOn s.disk x).length.toNat := by
  rw [FsState.contents, length_slice]

theorem slice_contents (s : FsState) (x size offset : ℕ) :
    slice s.disk (512 * (inodeOn s.disk x).start + offset) (clip (inodeOn s.disk x) size offset) =
      ((s.contents x).drop offset).take size := by
  rw [FsState.contents, clip]
  rcases Nat.lt_or_ge (inodeOn s.disk x).length.toNat offset with h | h
  · rw [drop_of_length_le (by rw [length_slice]; omega),
      show min size ((inodeOn s.disk x).length.toNat - offset) = 0 by omega, slice_zero, take_nil]
  · rw [drop_slice h, ← take_slice (Nat.min_le_right size _), ← take_take,
      take_of_length_le (l := slice _ _ _) (by rw [length_slice])]

theorem IsOpen.inodeReadAt_returns (hf : IsOpen refs s a x d) (h : FsInv refs s)
    (size offset : ℕ) (Q : Bytes → FsState → Prop) :
    Returns (inodeReadAt a size offset) s Q ↔ Q (((s.contents x).drop offset).take size) s := by
  obtain ⟨ino, hino, -, -, -, hdata, hfile⟩ := hf.node h
  have hsize := h.vol.size_le
  rw [OsMaterial.inodeReadAt_returns h.table.mallocs hino
    (hdata ▸ h.vol.fits (.inr (.inr hfile))) (by omega), hdata, slice_contents]

structure Wrote (refs : ℕ → ℕ) (s : FsState) (x offset : ℕ) (bytes : Bytes) (t : FsState) :
    Prop where
  inv : FsInv refs t
  contents_self : t.contents x = overwrite (s.contents x) offset bytes
  contents_other : ∀ y, s.IsFile y → y ≠ x → t.contents y = s.contents y
  slot_eq : ∀ i < 16, t.slot i = s.slot i
  isFile_iff : ∀ y, t.IsFile y ↔ s.IsFile y
  target_eq : ∀ b, t.target b = s.target b
  size_eq : t.size = s.size

theorem FsInv.patchFile {offset : ℕ} {bytes : Bytes} (h : FsInv refs s) (hx : s.IsFile x)
    (hfit : bytes = [] ∨ offset + bytes.length ≤ (s.contents x).length) :
    Wrote refs s x offset bytes (s.patchDisk (512 * (inodeOn s.disk x).start + offset) bytes) := by
  set t := s.patchDisk (512 * (inodeOn s.disk x).start + offset) bytes with ht
  have hagree : AgreeOn (s.OwnedBy (· ≠ .fileData x)) s.disk t.disk := by
    refine h.vol.agreeOn_patch fun i h₁ h₂ => ?_
    obtain rfl | hfit := hfit
    · rw [length_nil] at h₂
      omega
    · rw [length_contents] at hfit
      have hbyte := h.vol.holds_byte (o := .fileData x) (.inr (.inr hx)) hx rfl
        (show i - 512 * (inodeOn s.disk x).start < (inodeOn s.disk x).length.toNat by omega)
      rwa [show 512 * (inodeOn s.disk x).start + (i - 512 * (inodeOn s.disk x).start) = i by
        omega] at hbyte
  have hmeta : AgreeOn (s.OwnedBy Owner.IsMeta) s.disk t.disk := by
    refine hagree.mono ?_
    rintro k ⟨o, hmeta, ho⟩
    refine ⟨o, ?_, ho⟩
    rintro rfl
    exact hmeta
  have hinode := fun y => VolInv.inodeOn_eq_of_agree (x := y) hmeta
  have hslot := fun i hi => h.vol.slot_eq_of_agree (i := i) hmeta hi
  have hfile : ∀ y, t.IsFile y ↔ s.IsFile y := fun y =>
    or_congr (VolInv.bound_iff_of_slot hslot y) Iff.rfl
  refine ⟨⟨h.vol.patchData (hagree.mono ?_), h.table.of_disk rfl rfl rfl rfl rfl hinode fun y =>
    (hfile y).mpr⟩, ?_, fun y hy hne => ?_, hslot, hfile, fun b => rfl, rfl⟩
  · rintro k ⟨o, ho, hk⟩
    exact ⟨o, ho x, hk⟩
  · rw [FsState.contents, hinode x (.inr (.inr hx)), FsState.contents]
    obtain rfl | hfit := hfit
    · simp [ht, patchDisk, overwrite]
    · rw [length_contents] at hfit
      exact slice_patch_of_inside hfit
  · refine h.vol.contents_eq hy (hagree.mono ?_)
    rintro k ⟨o, rfl | rfl, hk⟩
    · exact ⟨_, by simp, hk⟩
    · exact ⟨_, by simpa using hne, hk⟩

theorem IsOpen.inodeWriteAt_returns (hf : IsOpen refs s a x 0) (h : FsInv refs s)
    (buffer : Bytes) (offset : ℕ) :
    Returns (inodeWriteAt a buffer offset) s fun n t =>
      n = (buffer.take ((s.contents x).length - offset)).length ∧
        Wrote refs s x offset (buffer.take ((s.contents x).length - offset)) t := by
  obtain ⟨ino, hino, -, -, hdeny, hdata, hfile⟩ := hf.node h
  have hsize := h.vol.size_le
  have hlen := length_contents s x
  rw [OsMaterial.inodeWriteAt_returns h.table.mallocs hino hdeny
    (hdata ▸ h.vol.fits (.inr (.inr hfile))) (by omega), hdata, clip, ← hlen,
    Nat.min_comm, ← take_eq_take_min, ← length_take]
  refine ⟨rfl, h.patchFile hfile ?_⟩
  rcases Nat.lt_or_ge (s.contents x).length offset with hlt | hle
  · left
    rw [show (s.contents x).length - offset = 0 by omega, take_zero]
  · right
    rw [length_take]
    omega

theorem IsOpen.inodeWriteAt_denied (hf : IsOpen refs s a x d) (h : FsInv refs s) (hd : d ≠ 0)
    (buffer : Bytes) (offset : ℕ) (Q : ℕ → FsState → Prop) :
    Returns (inodeWriteAt a buffer offset) s Q ↔ Q 0 s := by
  obtain ⟨ino, hino, -, -, hdeny, -⟩ := hf.node h
  rw [inodeWriteAt, returns_bind, returns_inodeAt hino, if_pos (hdeny ▸ hd), returns_pure]

/-! ### The calls on an open file -/

/-- **`file_read`.** -/
theorem fileRead_returns (hf : IsOpen refs s file.inode x d) (h : FsInv refs s) (size : ℕ) :
    Returns (fileRead file size) s fun r t => t = s ∧
      r = (((s.contents x).drop file.pos).take size,
        { file with pos := file.pos + (((s.contents x).drop file.pos).take size).length }) := by
  rw [fileRead, returns_bind, hf.inodeReadAt_returns h, returns_pure]
  exact ⟨rfl, rfl⟩

/-- **`file_write`.** -/
theorem fileWrite_returns (hf : IsOpen refs s file.inode x 0) (h : FsInv refs s) (buffer : Bytes) :
    Returns (fileWrite file buffer) s fun r t =>
      Wrote refs s x file.pos (buffer.take ((s.contents x).length - file.pos)) t ∧
      r = ((buffer.take ((s.contents x).length - file.pos)).length, { file with
        pos := file.pos + (buffer.take ((s.contents x).length - file.pos)).length }) := by
  rw [fileWrite, returns_bind]
  refine (hf.inodeWriteAt_returns h buffer file.pos).mono ?_
  rintro _ t ⟨rfl, hwrote⟩
  exact (returns_pure ..).mpr ⟨hwrote, rfl⟩

theorem fileWrite_denied (hf : IsOpen refs s file.inode x d) (h : FsInv refs s) (hd : d ≠ 0)
    (buffer : Bytes) : Returns (fileWrite file buffer) s fun r t => t = s ∧ r = (0, file) := by
  rw [fileWrite, returns_bind, hf.inodeWriteAt_denied h hd, returns_pure]
  exact ⟨rfl, rfl⟩

/-- **`file_reopen`** makes a second handle for the same file. -/
theorem fileReopen_returns (h : FsInv refs s) (hopen : 0 < refs file.inode) :
    Returns (fileReopen file) s fun r t =>
      r = some { inode := file.inode, pos := 0, denyWrite := false } ∧
        FsInv (bump refs file.inode) t ∧ SameVolume s t ∧ ∀ b, t.target b = s.target b := by
  rw [fileReopen, returns_bind]
  refine (inodeReopen_returns h hopen).mono ?_
  rintro _ t ⟨rfl, hinv, hv, htarget⟩
  rw [fileOpen, returns_bind, returns_malloc hinv.table.mallocs, returns_pure]
  exact ⟨rfl, hinv, hv, htarget⟩

structure DenialsSet (refs : ℕ → ℕ) (s : FsState) (a x : ℕ) (d : ℤ) (t : FsState) : Prop where
  inv : FsInv refs t
  volume : SameVolume s t
  isOpen : IsOpen refs t a x d
  orphan_iff : ∀ y, t.Orphan y ↔ s.Orphan y
  target_self : ∀ y v e, s.target a = some (y, v, e) → t.target a = some (y, v, d)
  target_other : ∀ b, b ≠ a → t.target b = s.target b

theorem IsOpen.setDenials (hf : IsOpen refs s a x d) (h : FsInv refs s)
    (hino : s.inodes a = some ino) (e : ℤ) :
    DenialsSet refs s a x e (s.setInode a (some { ino with denyWriteCnt := e })) := by
  obtain ⟨jno, hjno, hcnt, rfl, -, -, hfile⟩ := hf.node h
  obtain rfl : ino = jno := Option.some.inj (hino.symm.trans hjno)
  have h2 := hf.two_le
  obtain ⟨hinv, hself, hother⟩ := h.setCounts refs hino hf.open_pos hf.open_pos
    (fun _ _ => rfl) hcnt fun hlt => by omega
  refine ⟨hinv, ⟨rfl, rfl, rfl, rfl⟩, ⟨hf.open_pos, ⟨_, hself⟩, h2⟩, fun y => ?_,
    fun y v e' hy => ?_, hother⟩
  · refine exists_congr fun b => and_congr_right fun _ => ?_
    by_cases hba : b = a
    · simp [setInode, hba, hino]
    · simp [setInode, hba]
  · rw [FsState.target_eq hino] at hy
    obtain ⟨rfl, hv⟩ := Prod.mk.inj (Option.some.inj hy)
    obtain ⟨rfl, -⟩ := Prod.mk.inj hv
    exact hself

section

variable (hf : IsOpen refs s file.inode x d) (h : FsInv refs s)

include hf h

theorem fileDenyWrite_returns (hfile : file.denyWrite = false) (hd : d + 1 ≤ refs file.inode) :
    Returns (fileDenyWrite file) s fun r t => r = { file with denyWrite := true } ∧
      DenialsSet refs s file.inode x (d + 1) t := by
  obtain ⟨ino, hino, hcnt, -, rfl, -⟩ := hf.node h
  rw [fileDenyWrite, if_neg (by rw [hfile]; decide)]
  simp only [inodeDenyWrite, returns_bind, returns_inodeAt hino, returns_modify, returns_assert,
    returns_pure]
  exact ⟨by omega, trivial, hf.setDenials h hino _⟩

theorem fileAllowWrite_returns (hfile : file.denyWrite = true) (h0 : 0 < d)
    (hd : d ≤ refs file.inode) :
    Returns (fileAllowWrite file) s fun r t => r = { file with denyWrite := false } ∧
      DenialsSet refs s file.inode x (d - 1) t := by
  obtain ⟨ino, hino, hcnt, -, rfl, -⟩ := hf.node h
  rw [fileAllowWrite, if_pos hfile]
  simp only [inodeAllowWrite, returns_bind, returns_inodeAt hino, returns_modify, returns_assert,
    returns_pure]
  exact ⟨h0, by omega, trivial, hf.setDenials h hino _⟩

/-- **`file_close`** gives back the denial of the file and its reference. -/
theorem fileClose_returns (hdeny : file.denyWrite = true → 0 < d ∧ d ≤ refs file.inode) :
    Returns (fileClose file) s fun _ t => ∃ s₁, Closed refs s₁ file.inode t ∧
      if file.denyWrite then DenialsSet refs s file.inode x (d - 1) s₁ else s₁ = s := by
  have h2 := hf.two_le
  rw [fileClose, returns_bind]
  cases hfile : file.denyWrite with
  | true =>
    obtain ⟨h0, hd⟩ := hdeny hfile
    refine (fileAllowWrite_returns hf h hfile h0 hd).mono ?_
    rintro _ s₁ ⟨rfl, hs₁⟩
    obtain ⟨v, htarget⟩ := hs₁.isOpen.target_eq
    exact (inodeClose_returns hs₁.inv hf.open_pos htarget (by omega)).mono
      fun _ t hc => ⟨s₁, hc, hs₁⟩
  | false =>
    obtain ⟨v, htarget⟩ := hf.target_eq
    rw [fileAllowWrite, if_neg (by rw [hfile]; decide), returns_pure]
    exact (inodeClose_returns h hf.open_pos htarget (by omega)).mono fun _ t hc => ⟨s, hc, rfl⟩

end

end

end

end OsMaterial
