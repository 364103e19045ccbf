import OsMaterial.Volume

/-!
# The Table of Open Inodes

The invariant of `open_inodes` (`TableInv`): an inode is in the list as long as there are references
to it, `open_cnt` is their number, **no sector has two inodes**, and the copy in memory is the one
on the device. The references are a function, so that a call can count its own. `FsInv` joins it
with the invariant of the volume.

* `inodeOpen_returns`: opening never makes a second inode for a sector.
* `inodeClose_returns`: the assertion of `free_map_release` **holds** when it releases sectors.
-/

namespace OsMaterial

open List
open Function (update update_apply update_of_ne update_self)

variable {x : ℕ} {d : ℤ} {ino : Inode} {v : Bool × ℤ}

def FsState.target (s : FsState) (a : ℕ) : Option (ℕ × Bool × ℤ) :=
  (s.inodes a).map fun ino => (ino.sector, ino.removed, ino.denyWriteCnt)

/-- The inode in sector `x` belongs to the free map, to the root directory, or to a file. -/
def FsState.Known (s : FsState) (x : ℕ) : Prop :=
  x = 0 ∨ x = 1 ∨ s.IsFile x

/-- **The invariant of the open inodes**; `refs a` is the number of references to the inode
at address `a`. -/
structure TableInv (refs : ℕ → ℕ) (s : FsState) : Prop where
  mallocs : s.MallocsSucceed
  nodup : s.openInodes.Nodup
  fresh : ∀ {a}, a ∈ s.openInodes → a < s.nextInode
  mem_iff : ∀ a, a ∈ s.openInodes ↔ 0 < refs a
  node : ∀ {a}, a ∈ s.openInodes → ∃ ino, s.inodes a = some ino ∧ ino.openCnt = refs a ∧
    (ino.sector < 2 → ino.denyWriteCnt = 0) ∧ ino.data = inodeOn s.disk ino.sector ∧
    s.Known ino.sector
  /-- **No sector has two inodes.** -/
  sector_inj : ∀ {a b x v w}, a ∈ s.openInodes → b ∈ s.openInodes → s.target a = some (x, v) →
    s.target b = some (x, w) → a = b
  mapFile : ∃ file v, s.freeMapFile = some file ∧ file.denyWrite = false ∧
    file.inode ∈ s.openInodes ∧ s.target file.inode = some (0, v)

/-- **The invariant of the file system.** -/
structure FsInv (refs : ℕ → ℕ) (s : FsState) : Prop where
  vol : VolInv s
  table : TableInv refs s

def bump (refs : ℕ → ℕ) (a : ℕ) : ℕ → ℕ := update refs a (refs a + 1)

def unref (refs : ℕ → ℕ) (a : ℕ) : ℕ → ℕ := update refs a (refs a - 1)

@[simp] theorem unref_bump (refs : ℕ → ℕ) (a : ℕ) : unref (bump refs a) a = refs := by
  simp [unref, bump]

theorem bump_comm (refs : ℕ → ℕ) (a b : ℕ) : bump (bump refs a) b = bump (bump refs b) a := by
  funext c
  by_cases hab : a = b
  · rw [hab]
  · by_cases hca : c = a <;> by_cases hcb : c = b <;> simp_all [bump, update_apply, eq_comm]

theorem le_bump (refs : ℕ → ℕ) (a b : ℕ) : refs b ≤ bump refs a b := by
  by_cases h : b = a <;> simp [bump, h]

open FsState

theorem orphan_iff {s : FsState} :
    s.Orphan x ↔ ∃ a ∈ s.openInodes, ∃ d, s.target a = some (x, true, d) := by
  refine exists_congr fun a => and_congr_right fun _ => ?_
  constructor
  · rintro ⟨ino, hino, rfl, hremoved⟩
    exact ⟨ino.denyWriteCnt, by rw [target, hino, Option.map_some, hremoved]⟩
  · rintro ⟨d, hd⟩
    obtain ⟨ino, hino, heq⟩ := Option.map_eq_some_iff.mp hd
    simp only [Prod.mk.injEq] at heq
    exact ⟨ino, hino, heq.1, heq.2.1⟩

open VolInv

section

variable {refs : ℕ → ℕ} {s t : FsState} {a : ℕ}

/-! ### Consequences -/

theorem FsState.target_eq (ha : s.inodes a = some ino) :
    s.target a = some (ino.sector, ino.removed, ino.denyWriteCnt) := by
  rw [target, ha, Option.map_some]

theorem FsState.target_inj {y : ℕ} {v w : Bool} {d e : ℤ} (h : s.target a = some (x, v, d))
    (h' : s.target a = some (y, w, e)) : x = y ∧ v = w ∧ d = e := by
  simpa using h.symm.trans h'

theorem FsInv.isFile_of_removed (h : FsInv refs s) (ha : a ∈ s.openInodes)
    (hx : s.target a = some (x, true, d)) : s.IsFile x ∧ ¬ s.Bound x :=
  have horphan := orphan_iff.mpr ⟨a, ha, d, hx⟩
  ⟨.inr horphan, h.vol.orphan_unbound horphan⟩

theorem FsInv.not_removed {v : Bool} (h : FsInv refs s) (hx : x = 0 ∨ x = 1 ∨ s.Bound x)
    (ha : a ∈ s.openInodes) (hav : s.target a = some (x, v, d)) : v = false := by
  rw [Bool.eq_false_iff]
  rintro rfl
  obtain ⟨hfile, hunbound⟩ := h.isFile_of_removed ha hav
  have := h.vol.two_le hfile
  rcases hx with rfl | rfl | hx
  · omega
  · omega
  · exact hunbound hx

theorem FsInv.exists_mapFile (h : FsInv refs s) :
    ∃ file ino, s.MapFile (inodeOn s.disk 0).start file ino := by
  obtain ⟨file, v, hfile, -, hmem, htarget⟩ := h.table.mapFile
  obtain ⟨ino, hino, -, hdeny, hdata, -⟩ := h.table.node hmem
  have hsector : ino.sector = 0 := (target_inj (FsState.target_eq hino) htarget).1
  rw [hsector] at hdata
  have hsize := h.vol.size_le
  exact ⟨file, ino,
    { file_eq := hfile
      inode_eq := hino
      writable := hdeny (by omega)
      start_eq := by rw [hdata]
      length_eq := by rw [hdata, h.vol.freeMap_length, h.vol.bitCnt_eq]
      fits := hdata ▸ h.vol.fits (.inl rfl)
      size_le := by omega }⟩

theorem TableInv.of_disk (h : TableInv refs s) (hinodes : t.inodes = s.inodes)
    (hopen : t.openInodes = s.openInodes) (hnext : t.nextInode = s.nextInode)
    (hfile : t.freeMapFile = s.freeMapFile) (hmallocs : t.mallocs = s.mallocs)
    (hinode : ∀ x, s.Known x → inodeOn t.disk x = inodeOn s.disk x)
    (hknown : ∀ x, s.IsFile x → t.IsFile x) : TableInv refs t := by
  have htarget : t.target = s.target := by
    funext a
    rw [target, hinodes, target]
  exact
    { mallocs := by rw [MallocsSucceed, hmallocs]; exact h.mallocs
      nodup := hopen ▸ h.nodup
      fresh := fun ha => by rw [hnext]; exact h.fresh (hopen ▸ ha)
      mem_iff := fun a => by rw [hopen]; exact h.mem_iff a
      node := fun {a} ha => by
        obtain ⟨ino, hino, hcnt, hdeny, hdata, hx⟩ := h.node (hopen ▸ ha)
        refine ⟨ino, hinodes ▸ hino, hcnt, hdeny, ?_, hx.imp_right (.imp_right (hknown _))⟩
        rw [hdata, hinode _ hx]
      sector_inj := fun ha hb => by
        rw [htarget]
        exact h.sector_inj (hopen ▸ ha) (hopen ▸ hb)
      mapFile := by
        rw [htarget, hopen, hfile]
        exact h.mapFile }

/-! ### Steps that change the table only -/

structure SameVolume (s t : FsState) : Prop where
  size_eq : t.size = s.size
  disk_eq : t.disk = s.disk
  freeMap_eq : t.freeMap = s.freeMap
  freeMapFile_eq : t.freeMapFile = s.freeMapFile

theorem SameVolume.trans {u : FsState} (h : SameVolume s t) (h' : SameVolume t u) :
    SameVolume s u :=
  ⟨h'.1.trans h.1, h'.2.trans h.2, h'.3.trans h.3, h'.4.trans h.4⟩

theorem SameVolume.slot_eq (h : SameVolume s t) (i : ℕ) : t.slot i = s.slot i := by
  have hentry : t.entry i = s.entry i := by rw [entry, slotOfs, h.disk_eq, ← slotOfs, entry]
  rw [slot, hentry, slot]

theorem SameVolume.bound_iff (h : SameVolume s t) (x : ℕ) : t.Bound x ↔ s.Bound x :=
  bound_iff_of_slot (fun i _ => h.slot_eq i) x

theorem orphan_iff_of_target (hopen : t.openInodes = s.openInodes)
    (htarget : ∀ b ∈ s.openInodes, t.target b = s.target b) (x : ℕ) : t.Orphan x ↔ s.Orphan x := by
  rw [orphan_iff, orphan_iff, hopen]
  exact exists_congr fun b => and_congr_right fun hb => by rw [htarget b hb]

theorem VolInv.of_sameVolume (h : VolInv s) (hv : SameVolume s t)
    (horphan : ∀ x, t.Orphan x → s.Orphan x) : VolInv t := by
  refine h.of_agree hv.size_eq (by rw [hv.freeMap_eq]) horphan ?_
    (fun ho => by rw [hv.freeMap_eq]; exact h.owner_marked ho) fun i hi => ?_
  · rw [hv.disk_eq]
    exact .refl _ _
  · have hbit : t.diskBit i = s.diskBit i := by simp only [diskBit, hv.disk_eq, hv.size_eq]
    rw [hbit, hv.freeMap_eq]
    exact h.diskBit_eq (hv.size_eq ▸ hi)

theorem FsInv.setCounts {cnt deny : ℤ} (h : FsInv refs s) (refs' : ℕ → ℕ)
    (hino : s.inodes a = some ino) (hpos : 0 < refs a) (hpos' : 0 < refs' a)
    (hother : ∀ b, b ≠ a → refs' b = refs b) (hcnt : cnt = refs' a)
    (hdeny : ino.sector < 2 → deny = 0) :
    FsInv refs' (s.setInode a (some { ino with openCnt := cnt, denyWriteCnt := deny })) ∧
      (s.setInode a (some { ino with openCnt := cnt, denyWriteCnt := deny })).target a =
        some (ino.sector, ino.removed, deny) ∧
      ∀ b, b ≠ a →
        (s.setInode a (some { ino with openCnt := cnt, denyWriteCnt := deny })).target b =
          s.target b := by
  have ha := (h.table.mem_iff a).mpr hpos
  set t := s.setInode a (some { ino with openCnt := cnt, denyWriteCnt := deny }) with ht
  have hself : t.target a = some (ino.sector, ino.removed, deny) := by simp [ht, target, setInode]
  have hsame : ∀ b, b ≠ a → t.target b = s.target b := fun b hb => by
    simp [ht, target, setInode, hb]
  -- the sector of every inode is the one it was
  have hsector : ∀ {b x v}, t.target b = some (x, v) → ∃ w, s.target b = some (x, w) := by
    intro b x v hb
    by_cases hba : b = a
    · subst hba
      rw [hself] at hb
      obtain ⟨rfl, -⟩ := Prod.mk.inj (Option.some.inj hb)
      exact ⟨_, FsState.target_eq hino⟩
    · exact ⟨v, hsame b hba ▸ hb⟩
  have hv : SameVolume s t := ⟨rfl, rfl, rfl, rfl⟩
  have horphan : ∀ x, t.Orphan x ↔ s.Orphan x := by
    intro x
    refine exists_congr fun b => and_congr_right fun _ => ?_
    by_cases hba : b = a
    · simp [ht, setInode, hba, hino]
    · simp [ht, setInode, hba]
  have hfile : ∀ x, s.IsFile x → t.IsFile x := fun x => Or.imp (hv.bound_iff x).mpr (horphan x).mpr
  refine ⟨⟨h.vol.of_sameVolume hv fun x => (horphan x).mp, ?_⟩, hself, hsame⟩
  exact
    { h.table with
      mem_iff := fun b => by
        by_cases hb : b = a
        · rw [hb]
          exact iff_of_true ha hpos'
        · rw [hother b hb]
          exact h.table.mem_iff b
      node := fun {b} hb => by
        obtain ⟨jno, hjno, hcnt', hdeny', hdata, hx⟩ := h.table.node hb
        by_cases hba : b = a
        · subst hba
          obtain rfl : ino = jno := Option.some.inj (hino.symm.trans hjno)
          exact ⟨_, update_self .., hcnt, hdeny, hdata, hx.imp_right (.imp_right (hfile _))⟩
        · refine ⟨jno, (update_of_ne hba ..).trans hjno, ?_, hdeny', hdata,
            hx.imp_right (.imp_right (hfile _))⟩
          rw [hcnt', hother b hba]
      sector_inj := fun {b c x v w} hb hc hbx hcx => by
        obtain ⟨v', hbx⟩ := hsector hbx
        obtain ⟨w', hcx⟩ := hsector hcx
        exact h.table.sector_inj hb hc hbx hcx
      mapFile := by
        obtain ⟨file, v, hfile, hdeny', hmem, hzero⟩ := h.table.mapFile
        by_cases hfa : file.inode = a
        · rw [hfa, FsState.target_eq hino] at hzero
          obtain ⟨hz, -⟩ := Prod.mk.inj (Option.some.inj hzero)
          exact ⟨file, _, hfile, hdeny', hmem, by rw [hfa, hself, hz]⟩
        · exact ⟨file, v, hfile, hdeny', hmem, (hsame _ hfa).trans hzero⟩ }

theorem FsInv.setOpenCnt (h : FsInv refs s) (refs' : ℕ → ℕ) (hino : s.inodes a = some ino)
    (hpos : 0 < refs a) (hpos' : 0 < refs' a) (hother : ∀ b, b ≠ a → refs' b = refs b) :
    FsInv refs' (s.setInode a (some { ino with openCnt := refs' a })) ∧
      ∀ b, (s.setInode a (some { ino with openCnt := refs' a })).target b = s.target b := by
  obtain ⟨jno, hjno, -, hdeny, -⟩ := h.table.node ((h.table.mem_iff a).mpr hpos)
  obtain rfl : ino = jno := Option.some.inj (hino.symm.trans hjno)
  obtain ⟨hinv, hself, hsame⟩ := h.setCounts refs' hino hpos hpos' hother rfl hdeny
  refine ⟨hinv, fun b => ?_⟩
  by_cases hb : b = a
  · rw [hb, FsState.target_eq hino]
    exact hself
  · exact hsame b hb

theorem inodeReopen_returns (h : FsInv refs s) (ha : 0 < refs a) :
    Returns (inodeReopen a) s fun r t => r = a ∧ FsInv (bump refs a) t ∧ SameVolume s t ∧
      ∀ b, t.target b = s.target b := by
  obtain ⟨ino, hino, hcnt, -⟩ := h.table.node ((h.table.mem_iff a).mpr ha)
  have hbump : bump refs a a = refs a + 1 := update_self ..
  obtain ⟨hinv, htarget⟩ := h.setOpenCnt (bump refs a) hino ha (by omega)
    fun b hb => update_of_ne hb ..
  have hcnt' : ino.openCnt + 1 = (bump refs a a : ℤ) := by
    rw [hbump, hcnt]
    rfl
  rw [inodeReopen]
  simp only [returns_bind, returns_inodeAt hino, returns_modify, returns_pure, hcnt']
  exact ⟨trivial, hinv, ⟨rfl, rfl, rfl, rfl⟩, htarget⟩

/-! ### Opening -/

theorem FsState.Known.lt (hx : s.Known x) (h : VolInv s) : x < s.size := by
  rcases hx with rfl | rfl | hx
  · exact h.owner_lt holds_zero
  · exact h.owner_lt holds_one
  · exact h.owner_lt (holds_fileInode hx)

def FsState.addInode (s : FsState) (x : ℕ) : FsState :=
  { s with openInodes := s.nextInode :: s.openInodes, nextInode := s.nextInode + 1 }.setInode
    s.nextInode (some
      { sector := x, openCnt := 1, removed := false, denyWriteCnt := 0, data := inodeOn s.disk x })

theorem FsInv.addInode (h : FsInv refs s) (hx : s.Known x)
    (hnone : ∀ b ∈ s.openInodes, ∀ v, s.target b ≠ some (x, v)) :
    FsInv (bump refs s.nextInode) (s.addInode x) ∧
      (s.addInode x).target s.nextInode = some (x, false, 0) ∧
      ∀ b, 0 < refs b → (s.addInode x).target b = s.target b := by
  have hnew : s.nextInode ∉ s.openInodes := fun hmem => (h.table.fresh hmem).false
  have hzero : refs s.nextInode = 0 := by
    have := (h.table.mem_iff s.nextInode).not.mp hnew
    omega
  have hself : (s.addInode x).target s.nextInode = some (x, false, 0) := by
    simp [FsState.addInode, setInode, target]
  have hother : ∀ b, b ≠ s.nextInode → (s.addInode x).target b = s.target b := fun b hb => by
    simp [FsState.addInode, setInode, target, hb]
  have hne : ∀ b ∈ s.openInodes, b ≠ s.nextInode := fun b hb heq => hnew (heq ▸ hb)
  have hv : SameVolume s (s.addInode x) := ⟨rfl, rfl, rfl, rfl⟩
  have horphan : ∀ y, (s.addInode x).Orphan y ↔ s.Orphan y := fun y => by
    rw [orphan_iff, orphan_iff]
    constructor
    · rintro ⟨b, hb, d, hy⟩
      obtain rfl | hb := mem_cons.mp hb
      · rw [hself] at hy
        cases hy
      · exact ⟨b, hb, d, hother b (hne b hb) ▸ hy⟩
    · rintro ⟨b, hb, d, hy⟩
      exact ⟨b, mem_cons_of_mem _ hb, d, (hother b (hne b hb)).trans hy⟩
  have hknown : ∀ y, s.Known y → (s.addInode x).Known y := fun y =>
    Or.imp_right (.imp_right (Or.imp (hv.bound_iff y).mpr (horphan y).mpr))
  refine ⟨⟨h.vol.of_sameVolume hv fun y => (horphan y).mp, ?_⟩, hself, fun b hb =>
    hother b (hne b ((h.table.mem_iff b).mpr hb))⟩
  exact
    { mallocs := h.table.mallocs
      nodup := nodup_cons.mpr ⟨hnew, h.table.nodup⟩
      fresh := fun {b} hb => by
        obtain rfl | hb := mem_cons.mp hb
        · exact Nat.lt_succ_self _
        · exact (h.table.fresh hb).trans (Nat.lt_succ_self _)
      mem_iff := fun b => by
        by_cases hb : b = s.nextInode
        · subst hb
          simp [FsState.addInode, setInode, bump]
        · rw [bump, update_of_ne hb, ← h.table.mem_iff b]
          simp [FsState.addInode, setInode, hb]
      node := fun {b} hb => by
        obtain rfl | hb := mem_cons.mp hb
        · exact ⟨_, update_self .., by simp [bump, hzero], fun _ => rfl, rfl, hknown x hx⟩
        · obtain ⟨ino, hino, hcnt, hdeny, hdata, hy⟩ := h.table.node hb
          refine ⟨ino, (update_of_ne (hne b hb) ..).trans hino, ?_, hdeny, hdata, hknown _ hy⟩
          rw [hcnt, bump, update_of_ne (hne b hb)]
      sector_inj := fun {b c y v w} hb hc hbv hcw => by
        obtain rfl | hb := mem_cons.mp hb <;> obtain hcb | hc := mem_cons.mp hc
        · exact hcb.symm
        · rw [hself] at hbv
          rw [hother c (hne c hc)] at hcw
          obtain ⟨rfl, -⟩ := Prod.mk.inj (Option.some.inj hbv)
          exact absurd hcw (hnone c hc w)
        · rw [hcb, hself] at hcw
          rw [hother b (hne b hb)] at hbv
          obtain ⟨rfl, -⟩ := Prod.mk.inj (Option.some.inj hcw)
          exact absurd hbv (hnone b hb v)
        · rw [hother b (hne b hb)] at hbv
          rw [hother c (hne c hc)] at hcw
          exact h.table.sector_inj hb hc hbv hcw
      mapFile := by
        obtain ⟨file, v, hfile, hdeny, hmem, htarget⟩ := h.table.mapFile
        exact ⟨file, v, hfile, hdeny, mem_cons_of_mem _ hmem,
          (hother _ (hne _ hmem)).trans htarget⟩ }

structure Opened (refs : ℕ → ℕ) (s : FsState) (x a : ℕ) (t : FsState) : Prop where
  inv : FsInv (bump refs a) t
  volume : SameVolume s t
  target_self : ∃ d, t.target a = some (x, false, d) ∧ (refs a = 0 → d = 0)
  target_eq : ∀ b, 0 < refs b → t.target b = s.target b

/-- **Opening** the inode of the free map, of the root directory, or of a bound file: a
sector that has an inode gets no second one. -/
theorem inodeOpen_returns (h : FsInv refs s) (hx : x = 0 ∨ x = 1 ∨ s.Bound x) :
    Returns (inodeOpen x) s fun r t => ∃ a, r = some a ∧ Opened refs s x a t := by
  have hknown : s.Known x := hx.imp_right (.imp_right .inl)
  rw [inodeOpen]
  simp only [returns_bind, returns_get]
  cases hfind : s.openInodes.find? fun a => (s.inodes a).any fun ino => ino.sector = x with
  | some a =>
    obtain ⟨ino, hino, hsector⟩ : ∃ ino, s.inodes a = some ino ∧ ino.sector = x := by
      have := find?_some hfind
      simpa [Option.any_eq_true] using this
    have hmem := mem_of_find?_eq_some hfind
    have htarget : s.target a = some (x, ino.removed, ino.denyWriteCnt) := by
      rw [FsState.target_eq hino, hsector]
    have hpos := (h.table.mem_iff a).mp hmem
    have hkept := h.not_removed hx hmem htarget
    simp only [returns_bind, returns_pure]
    refine (inodeReopen_returns h hpos).mono ?_
    rintro _ t ⟨rfl, hinv, hv, hsame⟩
    exact ⟨_, rfl, hinv, hv, ⟨_, by rw [hsame, htarget, hkept], fun hzero => by omega⟩,
      fun b _ => hsame b⟩
  | none =>
    have hnone : ∀ b ∈ s.openInodes, ∀ v, s.target b ≠ some (x, v) := by
      intro b hb v hbv
      obtain ⟨ino, hino, -⟩ := h.table.node hb
      have hno := find?_eq_none.mp hfind b hb
      simp only [hino, Option.any_some, decide_eq_true_eq] at hno
      exact hno (target_inj (FsState.target_eq hino) hbv).1
    obtain ⟨hinv, hself, hother⟩ := h.addInode hknown hnone
    simp only [returns_bind, returns_malloc h.table.mallocs, if_true, returns_get, returns_set]
    rw [returns_blockRead (s := { s with
      openInodes := s.nextInode :: s.openInodes, nextInode := s.nextInode + 1 })
      (hknown.lt h.vol)]
    have hdecode : decodeInode (sectorBytes s.disk x) = inodeOn s.disk x :=
      (inodeOn_eq s.disk x).symm
    simp only [returns_modify, returns_pure, hdecode]
    exact ⟨_, rfl, hinv, ⟨rfl, rfl, rfl, rfl⟩, ⟨0, hself, fun _ => rfl⟩, hother⟩

/-! ### Writing the free map with inodes open -/

theorem FsInv.withMap (h : FsInv refs s) {map : Bitmap} (hcnt : map.bitCnt = s.freeMap.bitCnt)
    (hmarked : ∀ {o : Owner} {k}, o.Holds s k → map.bit k = true) :
    FsInv refs (s.withMap (inodeOn s.disk 0).start map) := by
  have hdisk := h.vol.agreeOn_meta_withMap hcnt
  refine ⟨h.vol.withMap hcnt hmarked, h.table.of_disk rfl rfl rfl rfl rfl
    (fun x hx => inodeOn_eq_of_agree hdisk hx) fun x hx => ?_⟩
  exact hx.imp_left (bound_iff_of_slot (fun i hi => h.vol.slot_eq_of_agree hdisk hi) x).mpr

theorem FsInv.freeMapRelease_returns {sector cnt : ℕ} (h : FsInv refs s)
    (hrun : s.freeMap.Run sector cnt true)
    (hunowned : ∀ k, sector ≤ k → k < sector + cnt → ∀ o : Owner, ¬ o.Holds s k) :
    Returns (freeMapRelease sector cnt) s fun _ t => FsInv refs t ∧
      ∃ map, s.freeMap.IsSet sector cnt false map ∧ t = s.withMap (inodeOn s.disk 0).start map := by
  obtain ⟨file, ino, hf⟩ := h.exists_mapFile
  refine (OsMaterial.freeMapRelease_returns h.table.mallocs hf hrun).mono ?_
  rintro _ t ⟨map, hmap, rfl⟩
  refine ⟨h.withMap hmap.bitCnt_eq fun {o k} ho => ?_, map, hmap, rfl⟩
  rw [hmap.bit_eq, if_neg fun hk => hunowned k hk.1 hk.2 o ho]
  exact h.vol.owner_marked ho

/-! ### Closing -/

def FsState.dropInode (s : FsState) (a : ℕ) (ino : Option Inode) : FsState :=
  { s.setInode a ino with openInodes := s.openInodes.erase a }

theorem target_dropInode (ino : Option Inode) {b : ℕ} (hb : b ≠ a) :
    (s.dropInode a ino).target b = s.target b := by
  simp [FsState.dropInode, setInode, target, hb]

theorem FsInv.orphan_dropInode (h : FsInv refs s) (ino : Option Inode) {y : ℕ}
    (hy : (s.dropInode a ino).Orphan y) : s.Orphan y := by
  rw [orphan_iff] at hy ⊢
  obtain ⟨b, hb, d, hy⟩ := hy
  obtain ⟨hne, hb⟩ := h.table.nodup.mem_erase_iff.mp hb
  exact ⟨b, hb, d, target_dropInode ino hne ▸ hy⟩

theorem FsInv.dropInode (h : FsInv refs s) (ha : refs a = 1) (hav : s.target a = some (x, v))
    (hx : x ≠ 0) (ino : Option Inode) : FsInv (unref refs a) (s.dropInode a ino) := by
  have hmem_iff : ∀ b, b ∈ (s.dropInode a ino).openInodes ↔ b ≠ a ∧ b ∈ s.openInodes :=
    fun b => h.table.nodup.mem_erase_iff
  have hv : SameVolume s (s.dropInode a ino) := ⟨rfl, rfl, rfl, rfl⟩
  -- another inode is one of another sector, so its file is still there
  have hknown : ∀ b, b ≠ a → b ∈ s.openInodes → ∀ y w, s.target b = some (y, w) → s.Known y →
      (s.dropInode a ino).Known y := by
    intro b hne hb y w hbw hy
    refine hy.imp_right (.imp_right (Or.imp (hv.bound_iff y).mpr fun horph => ?_))
    rw [orphan_iff] at horph ⊢
    obtain ⟨c, hc, d, hcy⟩ := horph
    obtain rfl := h.table.sector_inj hc hb hcy hbw
    exact ⟨c, (hmem_iff c).mpr ⟨hne, hc⟩, d, (target_dropInode ino hne).trans hcy⟩
  refine ⟨h.vol.of_sameVolume hv fun _ => h.orphan_dropInode ino, ?_⟩
  exact
    { mallocs := h.table.mallocs
      nodup := h.table.nodup.erase a
      fresh := fun hb => h.table.fresh (mem_of_mem_erase hb)
      mem_iff := fun b => by
        rw [hmem_iff, h.table.mem_iff]
        by_cases hb : b = a
        · simp [hb, unref, ha]
        · rw [unref, update_of_ne hb]
          exact and_iff_right hb
      node := fun {b} hb => by
        obtain ⟨hne, hb⟩ := (hmem_iff b).mp hb
        obtain ⟨jno, hjno, hcnt, hdeny, hdata, hy⟩ := h.table.node hb
        refine ⟨jno, (update_of_ne hne ..).trans hjno, ?_, hdeny, hdata,
          hknown b hne hb _ _ (FsState.target_eq hjno) hy⟩
        rw [hcnt, unref, update_of_ne hne]
      sector_inj := fun {b c y v w} hb hc hbv hcw => by
        obtain ⟨hne, hb⟩ := (hmem_iff b).mp hb
        obtain ⟨hne', hc⟩ := (hmem_iff c).mp hc
        rw [target_dropInode ino hne] at hbv
        rw [target_dropInode ino hne'] at hcw
        exact h.table.sector_inj hb hc hbv hcw
      mapFile := by
        obtain ⟨file, w, hfile, hdeny, hb, htarget⟩ := h.table.mapFile
        have hne : file.inode ≠ a := by
          intro heq
          exact hx (target_inj hav (heq ▸ htarget)).1
        exact ⟨file, w, hfile, hdeny, (hmem_iff _).mpr ⟨hne, hb⟩,
          (target_dropInode ino hne).trans htarget⟩ }

theorem FsInv.setInode_of_notMem (h : FsInv refs s) (ha : a ∉ s.openInodes) (ino : Option Inode) :
    FsInv refs (s.setInode a ino) ∧
      (∀ b ∈ s.openInodes, (s.setInode a ino).target b = s.target b) ∧
      ∀ x, (s.setInode a ino).Orphan x ↔ s.Orphan x := by
  have htarget : ∀ b ∈ s.openInodes, (s.setInode a ino).target b = s.target b := by
    intro b hb
    have hne : b ≠ a := fun heq => ha (heq ▸ hb)
    simp [setInode, target, hne]
  have hv : SameVolume s (s.setInode a ino) := ⟨rfl, rfl, rfl, rfl⟩
  have horphan := orphan_iff_of_target (s := s) (t := s.setInode a ino) rfl htarget
  refine ⟨⟨h.vol.of_sameVolume hv fun x => (horphan x).mp, ?_⟩, htarget, horphan⟩
  exact
    { h.table with
      node := fun {b} hb => by
        obtain ⟨jno, hjno, hcnt, hdeny, hdata, hy⟩ := h.table.node hb
        have hne : b ≠ a := fun heq => ha (heq ▸ hb)
        exact ⟨jno, (update_of_ne hne ..).trans hjno, hcnt, hdeny, hdata,
          hy.imp_right (.imp_right (Or.imp (hv.bound_iff _).mpr (horphan _).mpr))⟩
      sector_inj := fun {b c y v w} hb hc hbv hcw => by
        rw [htarget b hb] at hbv
        rw [htarget c hc] at hcw
        exact h.table.sector_inj hb hc hbv hcw
      mapFile := by
        obtain ⟨file, w, hfile, hdeny, hb, hzero⟩ := h.table.mapFile
        exact ⟨file, w, hfile, hdeny, hb, (htarget _ hb).trans hzero⟩ }

theorem FsInv.not_isFile_dropInode (h : FsInv refs s) (hmem : a ∈ s.openInodes)
    (hx : s.target a = some (x, true, d)) (ino : Option Inode) :
    ¬ (s.dropInode a ino).IsFile x := by
  have hv : SameVolume s (s.dropInode a ino) := ⟨rfl, rfl, rfl, rfl⟩
  rintro (hbound | horphan)
  · exact (h.isFile_of_removed hmem hx).2 ((hv.bound_iff x).mp hbound)
  · obtain ⟨b, hb, e, hbx⟩ := orphan_iff.mp horphan
    obtain ⟨hne, hb⟩ := h.table.nodup.mem_erase_iff.mp hb
    rw [target_dropInode ino hne] at hbx
    exact hne (h.table.sector_inj hb hmem hbx hx)

theorem VolInv.holds_of_sameVolume (hv : SameVolume s t) (horphan : ∀ x, t.Orphan x → s.Orphan x)
    {o : Owner} {k : ℕ} (ho : o.Holds t k) : o.Holds s k :=
  holds_of_holds (fun x => Or.imp (hv.bound_iff x).mp (horphan x))
    (fun x _ => by rw [hv.disk_eq]) ho

/-- Sector `k` belongs to the inode or to the data of the file in sector `x`. -/
def FsState.FileSector (s : FsState) (x k : ℕ) : Prop :=
  k = x ∨ ((dataRun s.disk x).1 ≤ k ∧ k < (dataRun s.disk x).1 + (dataRun s.disk x).2)

instance FsState.decidableFileSector (s : FsState) (x k : ℕ) : Decidable (s.FileSector x k) :=
  inferInstanceAs (Decidable (_ ∨ _))

/-- The sectors of the file in sector `x` were made free, and nothing else changed. -/
def Freed (s : FsState) (x : ℕ) (t : FsState) : Prop :=
  ∃ map : Bitmap, map.bitCnt = s.freeMap.bitCnt ∧
    (∀ k, map.bit k = if s.FileSector x k then false else s.freeMap.bit k) ∧
    SameVolume (s.withMap (inodeOn s.disk 0).start map) t

structure Closed (refs : ℕ → ℕ) (s : FsState) (a : ℕ) (t : FsState) : Prop where
  inv : FsInv (unref refs a) t
  target_eq : ∀ b, 0 < unref refs a b → t.target b = s.target b
  effect : (SameVolume s t ∧ ∀ x, t.Orphan x ↔ s.Orphan x) ∨
    ∃ x d, refs a = 1 ∧ s.target a = some (x, true, d) ∧ Freed s x t ∧ ¬ t.IsFile x

theorem FsInv.release_returns {data : InodeDisk} (h : FsInv refs s) (ino : Option Inode)
    (ha : refs a = 1) (hx : s.target a = some (x, true, d)) (hdata : data = inodeOn s.disk x) :
    Returns (do
      freeMapRelease x 1
      freeMapRelease data.start (bytesToSectors data.length)) (s.dropInode a ino)
      fun _ t => FsInv (unref refs a) t ∧ t.openInodes = s.openInodes.erase a ∧
        Freed s x t ∧ ¬ t.IsFile x ∧ ∀ b, t.inodes b = (s.dropInode a ino).inodes b := by
  have hmem : a ∈ s.openInodes := (h.table.mem_iff a).mpr (by omega)
  have hfile := (h.isFile_of_removed hmem hx).1
  have h2 := h.vol.two_le hfile
  set s₁ := s.dropInode a ino
  have h₁ : FsInv (unref refs a) s₁ := h.dropInode ha hx (by omega) ino
  have hv : SameVolume s s₁ := ⟨rfl, rfl, rfl, rfl⟩
  have hgone : ¬ s₁.IsFile x := h.not_isFile_dropInode hmem hx ino
  have horphan : ∀ y, s₁.Orphan y → s.Orphan y := fun _ => h.orphan_dropInode ino
  -- nobody owns the sectors of the file any more
  have hunowned : ∀ k, s.FileSector x k → ∀ o : Owner, ¬ o.Holds s₁ k := by
    intro k hk o ho
    have ho' := holds_of_sameVolume hv horphan ho
    rcases hk with rfl | hk
    · obtain rfl := h.vol.owner_eq ho' (holds_fileInode hfile)
      exact hgone ho.1
    · obtain rfl := h.vol.owner_eq ho' (p := .fileData x) ⟨hfile, hk⟩
      exact hgone ho.1
  have hmarked : ∀ k, s.FileSector x k → k < s.size ∧ s.freeMap.bit k = true := by
    rintro k (rfl | hk)
    · have := holds_fileInode hfile
      exact ⟨h.vol.owner_lt this, h.vol.owner_marked this⟩
    · have : (Owner.fileData x).Holds s k := ⟨hfile, hk⟩
      exact ⟨h.vol.owner_lt this, h.vol.owner_marked this⟩
  have hrun₁ : s₁.freeMap.Run x 1 true := by
    have hm := hmarked x (.inl rfl)
    refine ⟨by rw [h₁.vol.bitCnt_eq]; exact hm.1, fun i hi => ?_⟩
    obtain rfl : i = 0 := by omega
    exact hm.2
  rw [returns_bind]
  refine (h₁.freeMapRelease_returns hrun₁ fun k h₁ h₂ => hunowned k (.inl (by omega))).mono ?_
  rintro _ _ ⟨h₂, map₁, hmap₁, rfl⟩
  set s₂ := s₁.withMap (inodeOn s₁.disk 0).start map₁ with hs₂
  have hzero : inodeOn s₂.disk 0 = inodeOn s.disk 0 :=
    inodeOn_eq_of_agree (s := s₁) (h₁.vol.agreeOn_meta_withMap hmap₁.bitCnt_eq) (.inl rfl)
  have hrun₂ : s₂.freeMap.Run (dataRun s.disk x).1 (dataRun s.disk x).2 true := by
    refine ⟨?_, fun i hi => ?_⟩
    · rw [h₂.vol.bitCnt_eq]
      exact h.vol.file_run_le hfile
    · -- the sector of the inode is not one of the data
      have hk : (Owner.fileData x).Holds s ((dataRun s.disk x).1 + i) :=
        ⟨hfile, Nat.le_add_right _ _, Nat.add_lt_add_left hi _⟩
      have hne : (dataRun s.disk x).1 + i ≠ x := fun heq => by
        cases h.vol.owner_eq hk (heq ▸ holds_fileInode hfile)
      refine (hmap₁.bit_eq _).trans ?_
      rw [if_neg (by omega)]
      exact h.vol.owner_marked hk
  have hunowned₂ : ∀ k, (dataRun s.disk x).1 ≤ k →
      k < (dataRun s.disk x).1 + (dataRun s.disk x).2 → ∀ o : Owner, ¬ o.Holds s₂ k :=
    fun k hk₁ hk₂ o ho =>
      hunowned k (.inr ⟨hk₁, hk₂⟩) o (h₁.vol.holds_of_withMap hmap₁.bitCnt_eq ho)
  rw [hdata]
  refine (h₂.freeMapRelease_returns hrun₂ hunowned₂).mono ?_
  rintro _ _ ⟨h₃, map₂, hmap₂, rfl⟩
  have hcollapse : s₂.withMap (inodeOn s₂.disk 0).start map₂ =
      s₁.withMap (inodeOn s.disk 0).start map₂ := by
    rw [hzero, hs₂]
    exact s₁.withMap_withMap _ hmap₂.bitCnt_eq
  rw [hcollapse] at h₃ ⊢
  have hcnt : map₂.bitCnt = s₁.freeMap.bitCnt := hmap₂.bitCnt_eq.trans hmap₁.bitCnt_eq
  refine ⟨h₃, rfl, ⟨map₂, hcnt, fun k => ?_, rfl, rfl, rfl, rfl⟩, ?_, fun b => rfl⟩
  · have hbit := (hmap₂.bit_eq k).trans (if_congr Iff.rfl rfl (hmap₁.bit_eq k))
    rw [hbit]
    by_cases hk : s.FileSector x k <;> simp only [hk, if_true, if_false] <;>
      simp only [FileSector] at hk <;> split_ifs <;> first | rfl | omega
  · -- writing the free map does not bring the file back
    have hslot := fun i hi => h₁.vol.slot_eq_of_agree (i := i) (h₁.vol.agreeOn_meta_withMap hcnt) hi
    exact fun hy => hgone (hy.imp_left (bound_iff_of_slot hslot x).mp)

/-- **Closing** an inode other than the one of the free map. -/
theorem inodeClose_returns (h : FsInv refs s) (ha : 0 < refs a) (hav : s.target a = some (x, v))
    (hx : x ≠ 0) : Returns (inodeClose (some a)) s fun _ t => Closed refs s a t := by
  have hmem := (h.table.mem_iff a).mpr ha
  obtain ⟨ino, hino, hcnt, -, hdata, -⟩ := h.table.node hmem
  obtain ⟨rfl, rfl⟩ : ino.sector = x ∧ (ino.removed, ino.denyWriteCnt) = v := by
    rw [FsState.target_eq hino] at hav
    exact Prod.mk.inj (Option.some.inj hav)
  rw [inodeClose]
  simp only [returns_bind, returns_inodeAt hino, returns_modify]
  by_cases hlast : refs a = 1
  · have hzero : ino.openCnt - 1 = 0 := by omega
    have hdrop := h.dropInode hlast hav hx (some { ino with openCnt := ino.openCnt - 1 })
    have hpos : ∀ b, 0 < unref refs a b → b ≠ a := by
      rintro b hb rfl
      simp [unref, hlast] at hb
    rw [if_pos hzero]
    simp only [returns_bind, returns_modify]
    by_cases hremoved : ino.removed = true
    · rw [hremoved] at hav
      have hrel := h.release_returns (some { ino with openCnt := ino.openCnt - 1 }) hlast hav hdata
      rw [returns_bind] at hrel
      rw [if_pos hremoved]
      simp only [returns_bind, returns_modify]
      refine hrel.mono fun _ t₁ h₁ => h₁.mono ?_
      rintro _ t ⟨hinv, hopen, hfreed, hgone, hinodes⟩
      have hnot : a ∉ t.openInodes := hopen ▸ h.table.nodup.not_mem_erase
      obtain ⟨hinv', htarget, horphan⟩ := hinv.setInode_of_notMem hnot none
      refine ⟨hinv', fun b hb => ?_, .inr ⟨ino.sector, _, hlast, hav, ?_, ?_⟩⟩
      · rw [htarget b ((hinv.table.mem_iff b).mpr hb), target, hinodes,
          ← target, target_dropInode _ (hpos b hb)]
      · obtain ⟨map, hmap, hbits, hv⟩ := hfreed
        exact ⟨map, hmap, hbits, hv.trans ⟨rfl, rfl, rfl, rfl⟩⟩
      · exact fun hfile => hgone (hfile.imp id (horphan _).mp)
    · have hnot : a ∉ s.openInodes.erase a := h.table.nodup.not_mem_erase
      obtain ⟨hinv, htarget, horphan⟩ := hdrop.setInode_of_notMem hnot none
      rw [if_neg hremoved]
      simp only [returns_modify]
      refine ⟨hinv, fun b hb => ?_, .inl ⟨⟨rfl, rfl, rfl, rfl⟩, fun y => ?_⟩⟩
      · exact (htarget b ((hdrop.table.mem_iff b).mpr hb)).trans (target_dropInode _ (hpos b hb))
      · -- the inode that goes was not a removed one
        refine (horphan y).trans ⟨h.orphan_dropInode _, fun hy => ?_⟩
        rw [orphan_iff] at hy ⊢
        obtain ⟨b, hb, d, hy⟩ := hy
        have hne : b ≠ a := by
          rintro rfl
          exact hremoved (target_inj hav hy).2.1
        exact ⟨b, h.table.nodup.mem_erase_iff.mpr ⟨hne, hb⟩, d, (target_dropInode _ hne).trans hy⟩
  · have hunref : unref refs a a = refs a - 1 := update_self ..
    obtain ⟨hinv, htarget⟩ := h.setOpenCnt (unref refs a) hino ha (by omega)
      fun b hb => update_of_ne hb ..
    have hcnt' : ino.openCnt - 1 = (unref refs a a : ℤ) := by omega
    rw [if_neg (by omega)]
    simp only [returns_pure, hcnt']
    exact ⟨hinv, fun b _ => htarget b, .inl ⟨⟨rfl, rfl, rfl, rfl⟩,
      orphan_iff_of_target (s := s) rfl fun b _ => htarget b⟩⟩

end

end OsMaterial
