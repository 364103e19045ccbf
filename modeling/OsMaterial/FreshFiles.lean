import OsMaterial.FsRuns
import Mathlib.Data.List.Perm.Subperm

/-!
# Filling a Fresh File System

In a file system in which nothing was ever removed, the sectors in use come first. It is filled
**one file at a time**: `Stores` says which files there are and how many sectors are used.

* `Idle.create_returns`, `Idle.open_returns`, `Writing.write_returns`, `Writing.close_returns`: the
  four steps, none of which fails when there is room.
-/

namespace OsMaterial

open List

/-! ### The free map -/

theorem Bitmap.MarkedBelow.of_firstRun {b b' : Bitmap} {m n k : ℕ} (h : b.MarkedBelow m)
    (hfirst : b.FirstRun k n false) (hset : b.IsSet k n true b') : b'.MarkedBelow (m + n) := by
  rcases Nat.eq_zero_or_pos n with rfl | hn
  · intro j hj
    rw [hset.bitCnt_eq] at hj
    rw [hset.bit_eq, if_neg (by omega)]
    exact h j hj
  · obtain ⟨rfl, -⟩ := (h.firstRun_iff hn).mp hfirst
    exact h.isSet hset

theorem Bitmap.MarkedBelow.of_takes {b b' : Bitmap} {m n : ℕ} (h : b.MarkedBelow m)
    (ht : b.Takes n b') : b'.MarkedBelow (m + 1 + n) := by
  obtain ⟨x, map, start, hfirst, hset, hfirst', hset'⟩ := ht
  exact (h.of_firstRun hfirst hset).of_firstRun hfirst' hset'

variable {file : File}

section

variable {refs : ℕ → ℕ} {s t : FsState} {a m x : ℕ}

theorem fileWrite_freeMap (hf : IsOpen refs s file.inode x 0) (h : FsInv refs s)
    (buffer : Bytes) : Returns (fileWrite file buffer) s fun _ t => t.freeMap = s.freeMap := by
  obtain ⟨ino, hino, -, -, hdeny, hdata, hfile⟩ := hf.node h
  have hsize := h.vol.size_le
  rw [fileWrite, returns_bind, inodeWriteAt_returns h.table.mallocs hino hdeny
    (hdata ▸ h.vol.fits (.inr (.inr hfile))) (by omega), returns_pure]
  rfl

end

/-! ### A file system and its files -/

structure StoredFile where
  name : CString
  bytes : Bytes

/-- An entry binds the name to a file with these bytes. -/
def FsState.HasFile (s : FsState) (name bytes : Bytes) : Prop :=
  ∃ i < 16, ∃ x, s.slot i = some (name, x) ∧ s.contents x = bytes

/-- The file system **has exactly the files** of the list, and its first `m` sectors are the
ones in use. -/
structure Stores (files : List StoredFile) (m : ℕ) (s : FsState) : Prop where
  marked : s.freeMap.MarkedBelow m
  hasFile_iff : ∀ name bytes, s.HasFile name bytes ↔
    ∃ f ∈ files, f.name.bytes = name ∧ f.bytes = bytes
  used : ∃ l : List ℕ, l.length = files.length ∧ ∀ i < 16, s.slot i ≠ none → i ∈ l

section

variable {files : List StoredFile} {f : StoredFile} {a b m x : ℕ} {s t : FsState}

theorem SameVolume.hasFile_iff (h : SameVolume s t) (name bytes : Bytes) :
    t.HasFile name bytes ↔ s.HasFile name bytes := by
  simp only [FsState.HasFile, h.slot_eq, h.contents_eq]

theorem Stores.of_sameVolume (h : Stores files m s) (hv : SameVolume s t) : Stores files m t := by
  obtain ⟨l, hlen, hused⟩ := h.used
  refine ⟨hv.freeMap_eq ▸ h.marked, fun name bytes => ?_, l, hlen, fun i hi => ?_⟩
  · rw [hv.hasFile_iff, h.hasFile_iff]
  · rw [hv.slot_eq]
    exact hused i hi

theorem Stores.not_dirFull (h : Stores files m s) (hlen : files.length < 16) : ¬ s.DirFull := by
  intro hfull
  obtain ⟨l, hl, hused⟩ := h.used
  have hsubset : range 16 ⊆ l := fun i hi =>
    have hi := mem_range.mp hi
    hused i hi (hfull i hi)
  have := (subperm_of_subset nodup_range hsubset).length_le
  rw [length_range] at this
  omega

theorem Stores.not_boundName (h : Stores files m s) {name : CString}
    (hnew : ∀ g ∈ files, g.name ≠ name) : ¬ s.BoundName name := by
  rintro ⟨i, hi, x, hslot⟩
  obtain ⟨g, hg, hname, -⟩ := (h.hasFile_iff _ _).mp ⟨i, hi, x, hslot, rfl⟩
  exact hnew g hg (CString.ext hname)

theorem Stores.contents_last (h : Stores (files ++ [f]) m s) (hnew : ∀ g ∈ files, g.name ≠ f.name)
    {i : ℕ} (hi : i < 16) (hslot : s.slot i = some (f.name.bytes, x)) : s.contents x = f.bytes := by
  obtain ⟨g, hg, hname, hbytes⟩ := (h.hasFile_iff _ _).mp ⟨i, hi, x, hslot, rfl⟩
  rcases mem_append.mp hg with hg | hg
  · exact absurd (CString.ext hname) (hnew g hg)
  · rw [← hbytes, mem_singleton.mp hg]

structure Idle (a : ℕ) (files : List StoredFile) (m : ℕ) (s : FsState) : Prop where
  inv : FsInv (oneRef a) s
  map : ∃ v, s.target a = some (0, v)
  stores : Stores files m s

structure Writing (a : ℕ) (files : List StoredFile) (f : StoredFile) (b x m : ℕ) (s : FsState) :
    Prop where
  inv : FsInv (bump (oneRef a) b) s
  map : ∃ v, s.target a = some (0, v)
  target : s.target b = some (x, false, 0)
  bound : ∃ i < 16, s.slot i = some (f.name.bytes, x)
  stores : Stores (files ++ [f]) m s

theorem Formatted.idle {size : ℕ} (h : Formatted size s) :
    ∃ a, Idle a [] (3 + mapSectors size) s := by
  obtain ⟨a, hinv⟩ := h.inv
  refine ⟨a, hinv, (clientInv_start hinv).map, h.marked, fun name bytes => ?_, [], rfl,
    fun i hi hne => absurd (h.slot_eq i hi) hne⟩
  constructor
  · rintro ⟨i, hi, x, hslot, -⟩
    rw [h.slot_eq i hi] at hslot
    cases hslot
  · rintro ⟨g, hg, -⟩
    cases hg

/-- **Making a file** in a file system with room for it. -/
theorem Idle.create_returns (h : Idle a files m s) (name : CString) (size : ℕ)
    (hvalid : name.Valid) (hnew : ∀ g ∈ files, g.name ≠ name) (hlen : files.length < 16)
    (hsize : size < 2 ^ 31) (hroom : m + 1 + bytesToSectors size ≤ s.size) :
    Returns (filesysCreate name size) s fun ok t => ok = true ∧ t.size = s.size ∧
      Idle a (files ++ [⟨name, replicate size 0⟩]) (m + 1 + bytesToSectors size) t := by
  have h0 : (0 : ℤ) ≤ size := Int.natCast_nonneg size
  have hsize' : (size : ℤ) < 2 ^ 31 := by omega
  refine (filesysCreate_returns h.inv name h0 hsize').mono ?_
  rintro _ t ⟨hframed, hend, htakes⟩
  cases hend with
  | @made i x _ _ _ _ hbound _ hcontents =>
    obtain ⟨l, hl, hused⟩ := h.stores.used
    obtain ⟨v, hv⟩ := h.map
    have hmap : t.target a = some (0, v) :=
      (hframed.target_eq a ((oneRef_pos_iff a a).mpr rfl)).trans hv
    -- the entries other than the new one are those of before
    have hother : ∀ {j y name'}, j < 16 → j ≠ i → t.slot j = some (name', y) →
        s.slot j = some (name', y) ∧ t.contents y = s.contents y := by
      intro j y name' hj hji hslot
      rw [hbound.slot_other j hj hji] at hslot
      exact ⟨hslot, hframed.keeps.contents_eq (.inl ⟨j, hj, name', hslot⟩)⟩
    refine ⟨rfl, hframed.size_eq, hframed.inv, ⟨v, hmap⟩, h.stores.marked.of_takes (htakes rfl),
      fun name' bytes => ?_, i :: l, by simp [hl], fun j hj hne => ?_⟩
    · constructor
      · rintro ⟨j, hj, y, hslot, rfl⟩
        rcases eq_or_ne j i with rfl | hji
        · rw [hbound.slot_eq] at hslot
          obtain ⟨rfl, rfl⟩ := Prod.mk.inj (Option.some.inj hslot)
          exact ⟨_, mem_append_right _ (mem_singleton_self _), rfl,
            by rw [hcontents, Int.toNat_natCast]⟩
        · obtain ⟨hslot, hsame⟩ := hother hj hji hslot
          obtain ⟨g, hg, hname, hbytes⟩ := (h.stores.hasFile_iff _ _).mp ⟨j, hj, y, hslot, rfl⟩
          exact ⟨g, mem_append_left _ hg, hname, hbytes.trans hsame.symm⟩
      · rintro ⟨g, hg, rfl, rfl⟩
        rcases mem_append.mp hg with hg | hg
        · obtain ⟨j, hj, y, hslot, hbytes⟩ := (h.stores.hasFile_iff _ _).mpr ⟨g, hg, rfl, rfl⟩
          have hji : j ≠ i := by
            rintro rfl
            rw [hbound.free] at hslot
            cases hslot
          exact ⟨j, hj, y, (hbound.slot_other j hj hji).trans hslot,
            (hframed.keeps.contents_eq (.inl ⟨j, hj, _, hslot⟩)).trans hbytes⟩
        · rw [mem_singleton.mp hg]
          exact ⟨i, hbound.lt, x, hbound.slot_eq, by rw [hcontents, Int.toNat_natCast]⟩
    · rcases eq_or_ne j i with rfl | hji
      · exact mem_cons_self
      · rw [hbound.slot_other j hj hji] at hne
        exact mem_cons_of_mem _ (hused j hj hne)
  | noRoom hfull => exact absurd ((h.inv.vol.room_iff_of_marked h.stores.marked).mpr hroom) hfull
  | notAdded _ hwhy =>
    rcases hwhy with hinvalid | hbound | hfull
    · exact absurd hvalid hinvalid
    · exact absurd hbound (h.stores.not_boundName hnew)
    · exact absurd hfull (h.stores.not_dirFull hlen)

/-- **Opening the file that was made.** -/
theorem Idle.open_returns (h : Idle a (files ++ [f]) m s) :
    Returns (filesysOpen f.name) s fun r t => ∃ b x,
      r = some { inode := b, pos := 0, denyWrite := false } ∧ t.size = s.size ∧
        Writing a files f b x m t := by
  have hfile : s.HasFile f.name.bytes f.bytes := (h.stores.hasFile_iff _ _).mpr
    ⟨f, mem_append_right _ (mem_singleton_self _), rfl, rfl⟩
  obtain ⟨j, hj, y, hslot, -⟩ := hfile
  refine (filesysOpen_returns h.inv f.name).mono ?_
  rintro _ t (⟨i, hi, x, b, hbound, rfl, ho⟩ | ⟨hunbound, -⟩)
  · obtain ⟨v, hv⟩ := h.map
    have hmap : t.target a = some (0, v) := (ho.target_eq a ((oneRef_pos_iff a a).mpr rfl)).trans hv
    have h2 : 2 ≤ x := h.inv.vol.two_le (.inl ⟨i, hi, _, hbound⟩)
    obtain ⟨d, htarget, hzero⟩ := ho.target_self
    have hba : b ≠ a := by
      rintro rfl
      have := (FsState.target_inj hmap htarget).1
      omega
    have hclosed : oneRef a b = 0 :=
      Nat.eq_zero_of_not_pos fun hpos => hba ((oneRef_pos_iff a b).mp hpos)
    refine ⟨b, x, rfl, ho.volume.size_eq, ho.inv, ⟨v, hmap⟩, hzero hclosed ▸ htarget,
      ⟨i, hi, (ho.volume.slot_eq i).trans hbound⟩, h.stores.of_sameVolume ho.volume⟩
  · exact absurd ⟨j, hj, y, hslot⟩ hunbound

theorem Writing.isOpen (h : Writing a files f b x m s) : IsOpen (bump (oneRef a) b) s b x 0 := by
  obtain ⟨i, hi, hslot⟩ := h.bound
  exact ⟨by simp [bump], ⟨false, h.target⟩, h.inv.vol.two_le (.inl ⟨i, hi, _, hslot⟩)⟩

/-- **Writing inside the open file.** -/
theorem Writing.write_returns (file : File) (buffer : Bytes)
    (h : Writing a files f file.inode x m s) (hnew : ∀ g ∈ files, g.name ≠ f.name)
    (hfit : file.pos + buffer.length ≤ f.bytes.length) :
    Returns (fileWrite file buffer) s fun r t =>
      r = (buffer.length, { file with pos := file.pos + buffer.length }) ∧ t.size = s.size ∧
        Writing a files ⟨f.name, overwrite f.bytes file.pos buffer⟩ file.inode x m t := by
  obtain ⟨i, hi, hbound⟩ := h.bound
  have hcontents := h.stores.contents_last hnew hi hbound
  have htake : buffer.take ((s.contents x).length - file.pos) = buffer :=
    take_of_length_le (by rw [hcontents]; omega)
  refine ((fileWrite_returns h.isOpen h.inv buffer).and
    (fileWrite_freeMap h.isOpen h.inv buffer)).mono ?_
  rintro _ t ⟨⟨hw, rfl⟩, hmap⟩
  rw [htake] at hw ⊢
  obtain ⟨l, hl, hused⟩ := h.stores.used
  obtain ⟨v, hv⟩ := h.map
  -- the files other than the open one keep their bytes
  have hother : ∀ {j y name}, j < 16 → s.slot j = some (name, y) → j ≠ i →
      t.contents y = s.contents y := by
    intro j y name hj hslot hji
    refine hw.contents_other y (.inl ⟨j, hj, name, hslot⟩) ?_
    rintro rfl
    exact hji (h.inv.vol.sector_inj hj hi hslot hbound)
  refine ⟨rfl, hw.size_eq, hw.inv, ⟨v, (hw.target_eq a).trans hv⟩,
    (hw.target_eq _).trans h.target, ⟨i, hi, (hw.slot_eq i hi).trans hbound⟩,
    hmap ▸ h.stores.marked, fun name bytes => ?_, l, by simpa using hl, fun j hj hne => ?_⟩
  · constructor
    · rintro ⟨j, hj, y, hslot, rfl⟩
      rw [hw.slot_eq j hj] at hslot
      rcases eq_or_ne j i with rfl | hji
      · rw [hbound] at hslot
        obtain ⟨rfl, rfl⟩ := Prod.mk.inj (Option.some.inj hslot)
        exact ⟨_, mem_append_right _ (mem_singleton_self _), rfl,
          by rw [hw.contents_self, hcontents]⟩
      · obtain ⟨g, hg, hname, hbytes⟩ := (h.stores.hasFile_iff _ _).mp ⟨j, hj, y, hslot, rfl⟩
        rcases mem_append.mp hg with hg | hg
        · exact ⟨g, mem_append_left _ hg, hname, hbytes.trans (hother hj hslot hji).symm⟩
        · rw [← hname, mem_singleton.mp hg] at hslot
          exact absurd (h.inv.vol.name_inj hj hi hslot hbound) hji
    · rintro ⟨g, hg, rfl, rfl⟩
      rcases mem_append.mp hg with hg | hg
      · obtain ⟨j, hj, y, hslot, hbytes⟩ :=
          (h.stores.hasFile_iff _ _).mpr ⟨g, mem_append_left _ hg, rfl, rfl⟩
        have hji : j ≠ i := by
          rintro rfl
          rw [hbound] at hslot
          obtain ⟨hname, -⟩ := Prod.mk.inj (Option.some.inj hslot)
          exact hnew g hg (CString.ext hname.symm)
        exact ⟨j, hj, y, (hw.slot_eq j hj).trans hslot, (hother hj hslot hji).trans hbytes⟩
      · rw [mem_singleton.mp hg]
        exact ⟨i, hi, x, (hw.slot_eq i hi).trans hbound, by rw [hw.contents_self, hcontents]⟩
  · rw [hw.slot_eq j hj] at hne
    exact hused j hj hne

/-- **Closing the file that was written.** -/
theorem Writing.close_returns (h : Writing a files f file.inode x m s)
    (hdeny : file.denyWrite = false) :
    Returns (fileClose file) s fun _ t => t.size = s.size ∧ Idle a (files ++ [f]) m t := by
  refine (fileClose_returns h.isOpen h.inv (by simp [hdeny])).mono ?_
  rintro _ t ⟨s₁, hc, hs₁⟩
  rw [if_neg (by simp [hdeny])] at hs₁
  subst hs₁
  obtain ⟨v, hv⟩ := h.map
  obtain ⟨hinv, htarget, ⟨hvol, -⟩ | ⟨y, d, -, hremoved, -⟩⟩ := hc
  · rw [unref_bump] at hinv htarget
    exact ⟨hvol.size_eq, hinv,
      ⟨v, (htarget a ((oneRef_pos_iff a a).mpr rfl)).trans hv⟩, h.stores.of_sameVolume hvol⟩
  · rw [h.target] at hremoved
    cases hremoved

end

end OsMaterial
