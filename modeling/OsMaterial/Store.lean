import Mathlib.Data.Finmap
import OsMaterial.FsRuns

/-!
# The File System as an Abstract Store

What the file system is for: a finite map from names to objects, arrays of bytes of a fixed length,
and handles with a position. An object is never deleted, so a removed file needs no special case.
Whether there is room for an object is an argument of `Store.exec` (`roomFor`). The simulation
(`Sim`) is along a map from inode sectors to objects.

* `Sim.step`: a call of the file system is a call of the store.
* `fs_refines_store`: along every sequence of calls, both return the same.
-/

namespace OsMaterial

open List
open Function (update update_of_ne update_self)

/-! ### The store -/

/-- **The abstract store.** A handle is an object with a position in it. -/
structure Store where
  names : Finmap fun _ : Bytes => ℕ
  objects : List Bytes
  handles : List (Option (ℕ × ℕ))
  valid : ∀ name ∈ names, name ≠ [] ∧ name.length ≤ 14
  card_le : names.keys.card ≤ 16

namespace Store

def empty : Store where
  names := ∅
  objects := []
  handles := []
  valid := fun _ h => absurd h Finmap.notMem_empty
  card_le := by simp

theorem card_insert_le (names : Finmap fun _ : Bytes => ℕ) (name : Bytes) (o : ℕ) :
    (names.insert name o).keys.card ≤ names.keys.card + 1 := by
  have hkeys : (names.insert name o).keys = insert name names.keys := by
    ext other
    simp [Finmap.mem_keys, Finmap.mem_insert]
  rw [hkeys]
  exact Finset.card_insert_le _ _

def create (σ : Store) (name : CString) (size : ℕ) (hvalid : name.Valid)
    (hcard : σ.names.keys.card < 16) : Store where
  names := σ.names.insert name.bytes σ.objects.length
  objects := σ.objects ++ [replicate size 0]
  handles := σ.handles
  valid := fun other h => by
    rcases Finmap.mem_insert.mp h with rfl | h
    · exact hvalid
    · exact σ.valid other h
  card_le := (card_insert_le _ _ _).trans hcard

def remove (σ : Store) (name : CString) : Store where
  names := σ.names.erase name.bytes
  objects := σ.objects
  handles := σ.handles
  valid := fun other h => σ.valid other (Finmap.mem_erase.mp h).2
  card_le := by
    rw [Finmap.keys_erase]
    exact (Finset.card_erase_le).trans σ.card_le

def setHandles (σ : Store) (handles : List (Option (ℕ × ℕ))) : Store := { σ with handles }

def setObject (σ : Store) (o : ℕ) (bytes : Bytes) : Store :=
  { σ with objects := σ.objects.set o bytes }

def withHandle (σ : Store) (h : ℕ) (k : ℕ → ℕ → FsResult × Store) : Option (FsResult × Store) :=
  match σ.handles[h]? with
  | some (some (o, pos)) => some (k o pos)
  | _ => none

def object (σ : Store) (o : ℕ) : Bytes := σ.objects[o]?.getD []

/-- Issue a call to the store; `room` says whether there is room for a new object. A call
that needs a handle is not issued without one. -/
def exec (σ : Store) (room : Bool) : FsOp → Option (FsResult × Store)
  | .create name size =>
    if h : name.Valid ∧ name.bytes ∉ σ.names ∧ σ.names.keys.card < 16 ∧ room = true then
      some (.flag true, σ.create name size.toInt.toNat h.1 h.2.2.1)
    else some (.flag false, σ)
  | .openFile name =>
    match σ.names.lookup name.bytes with
    | some o => some (.handle (some σ.handles.length), σ.setHandles (σ.handles ++ [some (o, 0)]))
    | none => some (.handle none, σ)
  | .remove name =>
    if name.bytes ∈ σ.names then some (.flag true, σ.remove name) else some (.flag false, σ)
  | .reopen h => σ.withHandle h fun o _ =>
    (.handle (some σ.handles.length), σ.setHandles (σ.handles ++ [some (o, 0)]))
  | .close h => σ.withHandle h fun _ _ => (.done, σ.setHandles (σ.handles.set h none))
  | .seek h newPos => σ.withHandle h fun o _ =>
    (.done, σ.setHandles (σ.handles.set h (some (o, newPos.toInt.toNat))))
  | .read h size => σ.withHandle h fun o pos =>
    let bytes := ((σ.object o).drop pos).take size
    (.bytes bytes, σ.setHandles (σ.handles.set h (some (o, pos + bytes.length))))
  | .write h buffer => σ.withHandle h fun o pos =>
    let bytes := buffer.take ((σ.object o).length - pos)
    (.count bytes.length,
      (σ.setObject o (overwrite (σ.object o) pos bytes)).setHandles
        (σ.handles.set h (some (o, pos + bytes.length))))
  | _ => none

end Store

def FsOp.IsStoreOp : FsOp → Prop
  | .create _ size => 0 ≤ size.toInt
  | .seek _ newPos => 0 ≤ newPos.toInt
  | .openFile _ | .remove _ | .reopen _ | .close _ | .read .. | .write .. => True
  | _ => False

instance FsOp.decidableIsStoreOp : DecidablePred FsOp.IsStoreOp := fun op => by
  cases op <;> dsimp only [FsOp.IsStoreOp] <;> infer_instance

open Classical in
/-- Whether the device has room for a new file: a free sector for the inode, and a free run
of sectors for the data. -/
noncomputable def roomFor (s : FsState) : FsOp → Bool
  | .create _ size => decide (s.Room (bytesToSectors size.toInt))
  | _ => true

variable {x h i n : ℕ} {t s : FsState} {v : Bool × ℤ} {name : CString} {op : FsOp}

theorem roomFor_create_iff {size : Int32} :
    roomFor s (.create name size) = true ↔ s.Room (bytesToSectors size.toInt) := by
  simp only [roomFor, decide_eq_true_eq]

/-- **The results agree**: each call of the list returns the same from the file system and
from the store. A call on a handle that is not open is issued to neither, and no call
panics. -/
def Agree : Client → Store → List FsOp → Prop
  | _, _, [] => True
  | c, σ, op :: ops =>
    match c.exec op, σ.exec (roomFor c.fs op) op with
    | .next (r, c'), some (r', σ') => r = r' ∧ Agree c' σ' ops
    | .blocked, none => Agree c σ ops
    | _, _ => False

/-! ### Handles -/

section

variable {s t : FsState} {files : List (Option File)} {γ γ' : ℕ → ℕ} {h : ℕ} {file : File}

def FsState.sectorAt (s : FsState) (a : ℕ) : ℕ := ((s.target a).map Prod.fst).getD 0

theorem FsState.sectorAt_eq {a : ℕ} (ha : s.target a = some (x, v)) : s.sectorAt a = x := by
  rw [FsState.sectorAt, ha]
  rfl

def view (γ : ℕ → ℕ) (s : FsState) (files : List (Option File)) : List (Option (ℕ × ℕ)) :=
  files.map (Option.map fun file => (γ (s.sectorAt file.inode), file.pos))

@[simp] theorem length_view : (view γ s files).length = files.length := length_map ..

theorem getElem?_view (hfile : files[h]? = some (some file)) :
    (view γ s files)[h]? = some (some (γ (s.sectorAt file.inode), file.pos)) := by
  rw [view, getElem?_map, hfile]
  rfl

theorem view_set (o : Option File) : view γ s (files.set h o) =
    (view γ s files).set h (o.map fun file => (γ (s.sectorAt file.inode), file.pos)) :=
  map_set

theorem view_append (file : File) : view γ s (files ++ [some file]) =
    view γ s files ++ [some (γ (s.sectorAt file.inode), file.pos)] :=
  map_append

theorem view_congr (heq : ∀ {h : ℕ} {file : File}, files[h]? = some (some file) →
    γ' (t.sectorAt file.inode) = γ (s.sectorAt file.inode)) :
    view γ' t files = view γ s files := by
  refine map_congr_left fun o ho => ?_
  cases o with
  | none => rfl
  | some file =>
    obtain ⟨h, hh⟩ := mem_iff_getElem?.mp ho
    simp only [Option.map_some, heq hh]

end

/-! ### The simulation -/

/-- **The file system simulates the store.** -/
structure Sim (m : ℕ) (γ : ℕ → ℕ) (c : Client) (σ : Store) : Prop where
  inv : ClientInv m c
  allows : ∀ {h : ℕ} {file : File}, c.files[h]? = some (some file) → file.denyWrite = false
  names : ∀ {i name x}, i < 16 → c.fs.slot i = some (name, x) → σ.names.lookup name = some (γ x)
  bound : ∀ {name}, name ∈ σ.names → ∃ i < 16, ∃ x, c.fs.slot i = some (name, x)
  objects : ∀ {x}, c.fs.IsFile x → σ.objects[γ x]? = some (c.fs.contents x)
  inj : ∀ {x y}, c.fs.IsFile x → c.fs.IsFile y → γ x = γ y → x = y
  handles : σ.handles = view γ c.fs c.files

open Client

namespace Sim

variable {m : ℕ} {γ : ℕ → ℕ} {c c' : Client} {σ : Store}

section

variable (hsim : Sim m γ c σ)

include hsim

theorem mem_names_iff (name : CString) : name.bytes ∈ σ.names ↔ c.fs.BoundName name := by
  refine ⟨hsim.bound, ?_⟩
  rintro ⟨i, hi, x, hslot⟩
  exact Finmap.mem_iff.mpr ⟨γ x, hsim.names hi hslot⟩

theorem keys_eq : σ.names.keys =
    ((Finset.range 16).filter fun i => (c.fs.slot i).isSome).image
      fun i => ((c.fs.slot i).map Prod.fst).getD [] := by
  ext name
  simp only [Finmap.mem_keys, Finset.mem_image, Finset.mem_filter, Finset.mem_range]
  constructor
  · intro hname
    obtain ⟨i, hi, x, hslot⟩ := hsim.bound hname
    exact ⟨i, ⟨hi, by rw [hslot]; rfl⟩, by rw [hslot]; rfl⟩
  · rintro ⟨i, ⟨hi, hsome⟩, rfl⟩
    obtain ⟨⟨name, x⟩, hslot⟩ := Option.isSome_iff_exists.mp hsome
    rw [hslot]
    exact Finmap.mem_iff.mpr ⟨γ x, hsim.names hi hslot⟩

theorem card_lt_iff : σ.names.keys.card < 16 ↔ ¬ c.fs.DirFull := by
  have hinj : Set.InjOn (fun i => ((c.fs.slot i).map Prod.fst).getD [])
      ((Finset.range 16).filter fun i => (c.fs.slot i).isSome) := by
    intro i hi j hj heq
    simp only [Finset.coe_filter, Finset.mem_range, Set.mem_ofPred_eq] at hi hj
    obtain ⟨⟨name, x⟩, hx⟩ := Option.isSome_iff_exists.mp hi.2
    obtain ⟨⟨name', y⟩, hy⟩ := Option.isSome_iff_exists.mp hj.2
    simp only [hx, hy, Option.map_some, Option.getD_some] at heq
    exact hsim.inv.inv.vol.name_inj hi.1 hj.1 hx (heq ▸ hy)
  rw [hsim.keys_eq, Finset.card_image_of_injOn hinj]
  constructor
  · intro hlt hfull
    rw [Finset.filter_true_of_mem fun i hi =>
      Option.isSome_iff_ne_none.mpr (hfull i (Finset.mem_range.mp hi)), Finset.card_range] at hlt
    exact Nat.lt_irrefl _ hlt
  · intro hfree
    simp only [FsState.DirFull, not_forall, not_not] at hfree
    obtain ⟨i, hi, hnone⟩ := hfree
    refine (Finset.card_lt_card ⟨Finset.filter_subset _ _, fun hsub => ?_⟩).trans_eq
      (Finset.card_range 16)
    have hmem := (Finset.mem_filter.mp (hsub (Finset.mem_range.mpr hi))).2
    rw [hnone] at hmem
    cases hmem

theorem file {file : File} (hfile : c.files[h]? = some (some file)) :
    ∃ x v, c.fs.target file.inode = some (x, v) ∧ c.fs.IsFile x ∧
      σ.handles[h]? = some (some (γ x, file.pos)) ∧ σ.object (γ x) = c.fs.contents x := by
  obtain ⟨x, v, h2, hx⟩ := hsim.inv.file hfile
  have hopen : IsOpen (c.refs m) c.fs file.inode x (c.denials file.inode) :=
    ⟨refs_pos_of_file hfile, ⟨v, hx⟩, h2⟩
  have hisFile := hopen.isFile hsim.inv.inv
  refine ⟨x, _, hx, hisFile, ?_, ?_⟩
  · rw [hsim.handles, getElem?_view hfile, FsState.sectorAt_eq hx]
  · rw [Store.object, hsim.objects hisFile, Option.getD_some]

theorem denials_eq_zero (a : ℕ) : c.denials a = 0 := by
  by_contra hne
  obtain ⟨h, file, hfile, hdeny⟩ := exists_of_countHandles_pos (Nat.pos_of_ne_zero hne)
  have hallow := hsim.allows hfile
  rw [(denies_iff.mp hdeny).2] at hallow
  cases hallow

theorem frame {handles : List (Option (ℕ × ℕ))} (hinv : ClientInv m c')
    (hslot : ∀ i < 16, c'.fs.slot i = c.fs.slot i) (hinh : Inherits c.fs c'.fs)
    (hallows : ∀ {h : ℕ} {file : File}, c'.files[h]? = some (some file) → file.denyWrite = false)
    (hhandles : handles = view γ c'.fs c'.files) : Sim m γ c' (σ.setHandles handles) where
  inv := hinv
  allows := hallows
  names := fun hi hx => hsim.names hi (hslot _ hi ▸ hx)
  bound := fun hname => by
    obtain ⟨i, hi, x, hx⟩ := hsim.bound hname
    exact ⟨i, hi, x, (hslot i hi).trans hx⟩
  objects := fun {x} hx => by
    obtain ⟨hx', heq⟩ := hinh x hx
    rw [heq]
    exact hsim.objects hx'
  inj := fun {x y} hx hy => hsim.inj (hinh x hx).1 (hinh y hy).1
  handles := hhandles

theorem setFs (hinv : ClientInv m (c.setFs t)) (hslot : ∀ i < 16, t.slot i = c.fs.slot i)
    (hinh : Inherits c.fs t) (htarget : ∀ b, 0 < c.refs m b → t.target b = c.fs.target b) :
    Sim m γ (c.setFs t) σ := by
  refine hsim.frame hinv hslot hinh hsim.allows (show σ.handles = _ from ?_)
  rw [hsim.handles]
  refine (view_congr (t := t) fun {h file} hfile => ?_).symm
  rw [FsState.sectorAt, htarget _ (refs_pos_of_file hfile), FsState.sectorAt]

theorem create {size : ℕ} (hvalid : name.Valid) (hcard : σ.names.keys.card < 16)
    (hinv : ClientInv m (c.setFs t)) (hframed : Framed (c.refs m) c.fs t)
    (hbound : SlotBound c.fs i name x t) (hnew : ¬ c.fs.IsFile x)
    (hzero : t.contents x = replicate size 0) :
    Sim m (update γ x σ.objects.length) (c.setFs t) (σ.create name size hvalid hcard) := by
  -- the files are those from before and the new one
  have hfiles : ∀ {y}, t.IsFile y → y = x ∨ c.fs.IsFile y := by
    rintro y (⟨j, hj, name', hslot⟩ | horphan)
    · by_cases hji : j = i
      · rw [hji, hbound.slot_eq] at hslot
        exact .inl (Prod.mk.inj (Option.some.inj hslot)).2.symm
      · exact .inr (.inl ⟨j, hj, name', hbound.slot_other j hj hji ▸ hslot⟩)
    · obtain ⟨b, hb, d, hy⟩ := orphan_iff.mp horphan
      have hpos := (hframed.inv.table.mem_iff b).mp hb
      exact .inr (.inr (orphan_iff.mpr
        ⟨b, (hsim.inv.inv.table.mem_iff b).mpr hpos, d, hframed.target_eq b hpos ▸ hy⟩))
  have hold : ∀ {y}, c.fs.IsFile y → update γ x σ.objects.length y = γ y := by
    rintro y hy
    refine update_of_ne ?_ _ _
    rintro rfl
    exact hnew hy
  have hlt : ∀ {y}, c.fs.IsFile y → γ y < σ.objects.length := fun hy =>
    (List.getElem?_eq_some_iff.mp (hsim.objects hy)).1
  refine ⟨hinv, hsim.allows, fun {j name' y} hj hslot => ?_, fun {name'} hname => ?_,
    fun {y} hy => ?_, fun {y z} hy hz heq => ?_, ?_⟩
  · change t.slot j = _ at hslot
    by_cases hji : j = i
    · rw [hji, hbound.slot_eq] at hslot
      obtain ⟨rfl, rfl⟩ := Prod.mk.inj (Option.some.inj hslot)
      rw [update_self]
      exact Finmap.lookup_insert _
    · have hslot' := hbound.slot_other j hj hji ▸ hslot
      have hne : name' ≠ name.bytes := by
        rintro rfl
        exact hji (hframed.inv.vol.name_inj hj hbound.lt hslot hbound.slot_eq)
      rw [hold (.inl ⟨j, hj, name', hslot'⟩)]
      exact (Finmap.lookup_insert_of_ne _ hne).trans (hsim.names hj hslot')
  · rcases Finmap.mem_insert.mp hname with rfl | hname
    · exact ⟨i, hbound.lt, x, hbound.slot_eq⟩
    · obtain ⟨j, hj, y, hslot⟩ := hsim.bound hname
      have hji : j ≠ i := by
        rintro rfl
        rw [hbound.free] at hslot
        cases hslot
      exact ⟨j, hj, y, (hbound.slot_other j hj hji).trans hslot⟩
  · rcases hfiles hy with rfl | hy
    · rw [update_self]
      change (σ.objects ++ [replicate size 0])[σ.objects.length]? = some (t.contents y)
      rw [getElem?_concat_length, hzero]
    · rw [hold hy]
      change (σ.objects ++ [replicate size 0])[γ y]? = some (t.contents y)
      rw [getElem?_append_left (hlt hy), hframed.keeps.contents_eq hy, hsim.objects hy]
  · rcases hfiles hy with rfl | hy <;> rcases hfiles hz with rfl | hz
    · rfl
    · rw [update_self, hold hz] at heq
      have := hlt hz
      omega
    · rw [update_self, hold hy] at heq
      have := hlt hy
      omega
    · rw [hold hy, hold hz] at heq
      exact hsim.inj hy hz heq
  · change σ.handles = view _ t c.files
    rw [hsim.handles]
    refine (view_congr fun {h f} hf => ?_).symm
    obtain ⟨y, v, hy, hisFile, -⟩ := hsim.file hf
    rw [FsState.sectorAt_eq ((hframed.target_eq _ (refs_pos_of_file hf)).trans hy),
      hold hisFile, FsState.sectorAt_eq hy]

theorem remove (hi : i < 16) (hslot : c.fs.slot i = some (name.bytes, x))
    (hinv : ClientInv m (c.setFs t)) (hremoved : Removed (c.refs m) c.fs i x t) :
    Sim m γ (c.setFs t) (σ.remove name) := by
  have hother : ∀ {j name' y}, j < 16 → t.slot j = some (name', y) →
      c.fs.slot j = some (name', y) ∧ name' ≠ name.bytes := by
    intro j name' y hj hy
    have hji : j ≠ i := by
      rintro rfl
      rw [hremoved.slot_self] at hy
      cases hy
    rw [hremoved.slot_other j hj hji] at hy
    refine ⟨hy, ?_⟩
    rintro rfl
    exact hji (hsim.inv.inv.vol.name_inj hj hi hy hslot)
  refine ⟨hinv, hsim.allows, fun {j name' y} hj hy => ?_, fun {name'} hname => ?_,
    fun {y} hy => ?_, fun {y z} hy hz => ?_, ?_⟩
  · obtain ⟨hy', hne⟩ := hother hj hy
    exact (Finmap.lookup_erase_ne hne).trans (hsim.names hj hy')
  · obtain ⟨hne, hmem⟩ := Finmap.mem_erase.mp hname
    obtain ⟨j, hj, y, hy⟩ := hsim.bound hmem
    have hji : j ≠ i := by
      rintro rfl
      rw [hslot] at hy
      exact hne (Prod.mk.inj (Option.some.inj hy)).1.symm
    exact ⟨j, hj, y, (hremoved.slot_other j hj hji).trans hy⟩
  · obtain ⟨hy', heq⟩ := hremoved.inherits y hy
    exact (hsim.objects hy').trans (congrArg some heq.symm)
  · exact hsim.inj (hremoved.inherits y hy).1 (hremoved.inherits z hz).1
  · change σ.handles = view γ t c.files
    rw [hsim.handles]
    refine (view_congr fun {h f} hf => ?_).symm
    obtain ⟨y, ⟨v, d⟩, hy, -⟩ := hsim.file hf
    obtain ⟨w, hw⟩ := hremoved.target_eq _ _ _ _ (refs_pos_of_file hf) hy
    rw [FsState.sectorAt_eq hw, FsState.sectorAt_eq hy]

theorem write {bytes : Bytes} {file : File} (hfile : c.files[h]? = some (some file))
    (hx : c.fs.target file.inode = some (x, v)) (hisFile : c.fs.IsFile x)
    (hinv : ClientInv m (c.setFile h (some { file with pos := n }) t))
    (hwrote : Wrote (c.refs m) c.fs x file.pos bytes t) :
    Sim m γ (c.setFile h (some { file with pos := n }) t)
      ((σ.setObject (γ x) (overwrite (c.fs.contents x) file.pos bytes)).setHandles
        (σ.handles.set h (some (γ x, n)))) := by
  have hlt := (List.getElem?_eq_some_iff.mp (hsim.objects hisFile)).1
  refine ⟨hinv, fun {k f} hf => ?_, fun {j name y} hj hy => ?_, fun {name} hname => ?_,
    fun {y} hy => ?_, fun {y z} hy hz => ?_, ?_⟩
  · obtain ⟨-, heq⟩ | ⟨-, hf⟩ := getElem?_set_cases hf
    · obtain rfl := Option.some.inj heq
      exact (hsim.allows hfile :)
    · exact hsim.allows hf
  · exact hsim.names hj (hwrote.slot_eq j hj ▸ hy)
  · obtain ⟨j, hj, y, hy⟩ := hsim.bound hname
    exact ⟨j, hj, y, (hwrote.slot_eq j hj).trans hy⟩
  · have hy' := (hwrote.isFile_iff y).mp hy
    change (σ.objects.set (γ x) _)[γ y]? = some (t.contents y)
    by_cases hyx : y = x
    · rw [hyx, getElem?_set_self hlt, hwrote.contents_self]
    · rw [getElem?_set_ne fun heq => hyx (hsim.inj hy' hisFile heq.symm),
        hwrote.contents_other y hy' hyx]
      exact hsim.objects hy'
  · exact hsim.inj ((hwrote.isFile_iff y).mp hy) ((hwrote.isFile_iff z).mp hz)
  · change σ.handles.set h _ = view γ t (c.files.set h _)
    have hview : view γ t c.files = view γ c.fs c.files := view_congr fun {k f} _ => by
      rw [FsState.sectorAt, hwrote.target_eq, FsState.sectorAt]
    rw [view_set, hview, hsim.handles, Option.map_some,
      FsState.sectorAt_eq ((hwrote.target_eq _).trans hx)]

theorem setPos {file : File} (hfile : c.files[h]? = some (some file))
    (hx : c.fs.target file.inode = some (x, v))
    (hinv : ClientInv m (c.setFile h (some { file with pos := n }) c.fs)) :
    Sim m γ (c.setFile h (some { file with pos := n }) c.fs)
      (σ.setHandles (σ.handles.set h (some (γ x, n)))) := by
  refine hsim.frame hinv (fun _ _ => rfl) (fun y hy => ⟨hy, rfl⟩) (fun {k f} hf => ?_) ?_
  · obtain ⟨-, heq⟩ | ⟨-, hf⟩ := getElem?_set_cases hf
    · obtain rfl := Option.some.inj heq
      exact (hsim.allows hfile :)
    · exact hsim.allows hf
  · change _ = view γ c.fs (c.files.set h _)
    rw [view_set, hsim.handles, Option.map_some, FsState.sectorAt_eq hx]

theorem addFile {a : ℕ}
    (hinv : ClientInv m (c.addFile (some { inode := a, pos := 0, denyWrite := false }) t).2)
    (hslot : ∀ i < 16, t.slot i = c.fs.slot i) (hinh : Inherits c.fs t)
    (htarget : ∀ b, 0 < c.refs m b → t.target b = c.fs.target b)
    (hself : t.target a = some (x, v)) :
    Sim m γ (c.addFile (some { inode := a, pos := 0, denyWrite := false }) t).2
      (σ.setHandles (σ.handles ++ [some (γ x, 0)])) := by
  refine hsim.frame hinv hslot hinh (fun {k f} hf => ?_) ?_
  · obtain ⟨-, rfl⟩ | hf := getElem?_append_cases hf
    · rfl
    · exact hsim.allows hf
  · change _ = view γ t (c.files ++ [some _])
    have hview : view γ t c.files = view γ c.fs c.files := view_congr fun {k f} hf => by
      rw [FsState.sectorAt, htarget _ (refs_pos_of_file hf), FsState.sectorAt]
    rw [view_append, hview, hsim.handles, FsState.sectorAt_eq hself]

theorem close {file : File} (hfile : c.files[h]? = some (some file))
    (hinv : ClientInv m (c.setFile h none t)) (hclosed : Closed (c.refs m) c.fs file.inode t) :
    Sim m γ (c.setFile h none t) (σ.setHandles (σ.handles.set h none)) := by
  obtain ⟨hinh, hslot, -⟩ := hclosed.frame hsim.inv.inv
  have hrefs := refs_closeFile (m := m) hfile t
  refine hsim.frame hinv hslot hinh (fun {k f} hf => ?_) ?_
  · obtain ⟨-, heq⟩ | ⟨-, hf⟩ := getElem?_set_cases hf
    · cases heq
    · exact hsim.allows hf
  · change _ = view γ t (c.files.set h none)
    have hview : view γ t (c.files.set h none) = view γ c.fs (c.files.set h none) :=
      view_congr fun {k f} hf => by
        have hpos := refs_pos_of_file (c := c.setFile h none t) (m := m) hf
        rw [FsState.sectorAt, hclosed.target_eq _ (hrefs ▸ hpos), FsState.sectorAt]
    rw [hview, view_set, hsim.handles, Option.map_none]

theorem step {r : FsResult} (hop : op.IsStoreOp) (he : Ends m c op r c') :
    ∃ γ' σ', σ.exec (roomFor c.fs op) op = some (r, σ') ∧ Sim m γ' c' σ' := by
  have hinv := he.inv hsim.inv
  cases he with
  | @create name size _ t _ hf hend =>
    cases hend with
    | made hvalid hunbound room hbound hnew hzero =>
      have hcard := hsim.card_lt_iff.mpr fun hfull => hfull _ hbound.lt hbound.free
      have hcan : name.Valid ∧ name.bytes ∉ σ.names ∧ σ.names.keys.card < 16 ∧
          roomFor c.fs (.create name size) = true :=
        ⟨hvalid, (hsim.mem_names_iff name).not.mpr hunbound, hcard, roomFor_create_iff.mpr room⟩
      exact ⟨_, _, by rw [Store.exec, dif_pos hcan],
        hsim.create hvalid hcard hinv hf hbound hnew hzero⟩
    | noRoom room hslot _ =>
      refine ⟨γ, σ, ?_, hsim.setFs hinv hslot (hf.inherits hsim.inv.inv hslot) hf.target_eq⟩
      rw [Store.exec, dif_neg fun hcan => room (roomFor_create_iff.mp hcan.2.2.2)]
    | notAdded _ why hslot _ _ _ =>
      refine ⟨γ, σ, ?_, hsim.setFs hinv hslot (hf.inherits hsim.inv.inv hslot) hf.target_eq⟩
      rw [Store.exec, dif_neg]
      rintro ⟨hvalid, hunbound, hcard, -⟩
      rcases why with hv | hb | hfull
      · exact hv hvalid
      · exact hunbound ((hsim.mem_names_iff name).mpr hb)
      · exact hsim.card_lt_iff.mp hcard hfull
  | createNegative hneg _ => exact absurd hneg (not_lt.mpr hop)
  | @opened name i x b t hi hslot ho =>
    obtain ⟨d, hself, -⟩ := ho.target_self
    refine ⟨γ, _, ?_, hsim.addFile hinv (fun j _ => ho.volume.slot_eq j)
      (ho.volume.inherits fun y => (ho.orphan_iff hsim.inv.inv y).mp) ho.target_eq hself⟩
    simp only [Store.exec, hsim.names hi hslot, hsim.handles, length_view]
  | @notOpened name t hunbound hsame hf =>
    have hslot : ∀ i < 16, t.slot i = c.fs.slot i := fun i _ => hsame.slot_eq i
    refine ⟨γ, σ, ?_, hsim.setFs hinv hslot (hf.inherits hsim.inv.inv hslot) hf.target_eq⟩
    have hnone := Finmap.lookup_eq_none.mpr ((hsim.mem_names_iff name).not.mpr hunbound)
    simp only [Store.exec, hnone]
  | @removed name i x t hi hslot hr =>
    refine ⟨γ, _, ?_, hsim.remove hi hslot hinv hr⟩
    rw [Store.exec, if_pos ((hsim.mem_names_iff name).mpr ⟨i, hi, x, hslot⟩)]
  | @notRemoved name t hunbound hsame hf =>
    have hslot : ∀ i < 16, t.slot i = c.fs.slot i := fun i _ => hsame.slot_eq i
    refine ⟨γ, σ, ?_, hsim.setFs hinv hslot (hf.inherits hsim.inv.inv hslot) hf.target_eq⟩
    rw [Store.exec, if_neg ((hsim.mem_names_iff name).not.mpr hunbound)]
  | @reopened h file t hfile hfs hsame htarget =>
    obtain ⟨x, v, hx, -, hh, -⟩ := hsim.file hfile
    refine ⟨γ, _, ?_, hsim.addFile hinv (fun j _ => hsame.slot_eq j)
      (hsame.inherits fun y => ?_) (fun b _ => htarget b) ((htarget _).trans hx)⟩
    · simp only [Store.exec, Store.withHandle, hh]
      rw [hsim.handles, length_view]
    · rw [orphan_iff, orphan_iff]
      rintro ⟨b, hb, d, hy⟩
      have hpos := (hfs.table.mem_iff b).mp hb
      refine ⟨b, (hsim.inv.inv.table.mem_iff b).mpr ?_, d, htarget b ▸ hy⟩
      by_cases hb' : b = file.inode
      · rw [hb']
        exact refs_pos_of_file hfile
      · rwa [bump, update_of_ne hb'] at hpos
  | @closed h file x s₁ t hfile hdenials hclosed =>
    obtain ⟨y, v, hy, -, hh, -⟩ := hsim.file hfile
    rw [hsim.allows hfile, if_neg Bool.false_ne_true] at hdenials
    subst hdenials
    refine ⟨γ, _, ?_, hsim.close hfile hinv hclosed⟩
    simp only [Store.exec, Store.withHandle, hh]
  | @read h size file x hfile hopen =>
    obtain ⟨y, v, hy, -, hh, hobject⟩ := hsim.file hfile
    obtain ⟨w, hw⟩ := hopen.target_eq
    obtain ⟨rfl, -⟩ := FsState.target_inj hw hy
    refine ⟨γ, _, ?_, hsim.setPos hfile hy hinv⟩
    simp only [Store.exec, Store.withHandle, hh, hobject]
  | @wrote h buffer file x t hfile hopen _ hwrote =>
    obtain ⟨y, v, hy, hisFile, hh, hobject⟩ := hsim.file hfile
    obtain ⟨w, hw⟩ := hopen.target_eq
    obtain ⟨rfl, -⟩ := FsState.target_inj hw hy
    refine ⟨γ, _, ?_, hsim.write hfile hy hisFile hinv hwrote⟩
    simp only [Store.exec, Store.withHandle, hh, hobject]
  | writeDenied hfile hd => exact absurd (hsim.denials_eq_zero _) hd
  | @seek h newPos file hfile _ =>
    obtain ⟨x, v, hx, -, hh, -⟩ := hsim.file hfile
    refine ⟨γ, _, ?_, hsim.setPos hfile hx hinv⟩
    simp only [Store.exec, Store.withHandle, hh]
  | readAt | wroteAt | writeAtDenied | denied | deniedBefore | allowed | allowedBefore
  | openedDir | reopenedDir | closedDir | readDir => exact hop.elim

theorem exec_of_blocked {room : Bool} (hop : op.IsStoreOp) (hexec : c.exec op = .blocked) :
    σ.exec room op = none := by
  have hcall : ∀ {α : Type} {x : Fs α} {k : α → FsState → FsResult × Client},
      c.call x k ≠ .blocked := by
    intro α x k hblocked
    rw [call] at hblocked
    split at hblocked <;> cases hblocked
  have hhandle : ∀ {h : ℕ} {k : ℕ → ℕ → FsResult × Store}
      {k' : File → Outcome Panic (FsResult × Client)}, (∀ file, k' file ≠ .blocked) →
      c.withFile h k' = .blocked → σ.withHandle h k = none := by
    intro h k k' hk hblocked
    rw [withFile] at hblocked
    rw [Store.withHandle, hsim.handles, view, getElem?_map]
    rcases hfile : c.files[h]? with - | - | file
    · rfl
    · rfl
    · rw [hfile] at hblocked
      exact absurd hblocked (hk file)
  cases op with
  | create | openFile | remove => exact absurd hexec hcall
  | reopen | close | read | write | seek => exact hhandle (fun _ => hcall) hexec
  | readAt | writeAt | denyWrite | allowWrite | openDir | reopenDir | closeDir | readDir =>
    exact hop.elim

theorem agree {ops : List FsOp} (hops : ∀ op ∈ ops, op.IsStoreOp) : Agree c σ ops := by
  induction ops generalizing γ c σ with
  | nil => exact trivial
  | cons op ops ih =>
    have hop := hops op mem_cons_self
    have hrest := fun op' h => hops op' (mem_cons_of_mem op h)
    have hcases := c.exec_cases hsim.inv op
    rw [Agree]
    generalize hexec : c.exec op = outcome at hcases
    cases hcases with
    | blocked =>
      rw [hsim.exec_of_blocked hop hexec]
      exact ih hsim hrest
    | negativeLength op_eq hneg =>
      subst op_eq
      exact absurd hneg (not_lt.mpr hop)
    | negativePosition op_eq hneg =>
      subst op_eq
      exact absurd hneg (not_lt.mpr hop)
    | next hends =>
      obtain ⟨γ', σ', hstore, hsim'⟩ := hsim.step hop hends
      rw [hstore]
      exact ⟨rfl, ih hsim' hrest⟩

end

end Sim

theorem sim_start (hs : JustFormatted s) : ∃ m, Sim m id ⟨s, [], []⟩ .empty := by
  obtain ⟨a, ha⟩ := hs.formatted.inv
  have hslot := hs.formatted.slot_eq
  have hfile : ∀ {x}, ¬ s.IsFile x := by
    rintro x (⟨i, hi, name, hx⟩ | horphan)
    · rw [hslot i hi] at hx
      cases hx
    · obtain ⟨b, hb, d, hx⟩ := orphan_iff.mp horphan
      obtain rfl := (oneRef_pos_iff a b).mp ((ha.table.mem_iff b).mp hb)
      obtain ⟨v, hv⟩ := (clientInv_start ha).map
      have h0 := (FsState.target_inj hx hv).1
      have := ha.vol.two_le (.inr horphan)
      omega
  exact ⟨a, clientInv_start ha, by simp, fun hi hx => by simp [hslot _ hi] at hx,
    fun hname => absurd hname Finmap.notMem_empty, fun hx => absurd hx hfile,
    fun hx => absurd hx hfile, rfl⟩

/-- **The file system refines the store**, on a device of any size and for every sequence of calls.
-/
theorem fs_refines_store (hs : JustFormatted s) (ops : List FsOp)
    (hops : ∀ op ∈ ops, op.IsStoreOp) : Agree ⟨s, [], []⟩ .empty ops := by
  obtain ⟨m, hsim⟩ := sim_start hs
  exact hsim.agree hops

/-- **A volume of four sectors** has no room for an empty file. -/
theorem create_fails_without_room : ∃ (s : FsState) (c' : Client), JustFormatted s ∧
    CString.a.Valid ∧ ¬ s.BoundName .a ∧
    (⟨s, [], []⟩ : Client).exec (.create .a 0) = .next (.flag false, c') := by
  obtain ⟨s, hs, hsize⟩ := exists_justFormatted 4 (by decide) (by decide)
  obtain ⟨m, hinv⟩ := clientInv_of_reachable hs (c := ⟨s, [], []⟩) .start
  have hroom : ¬ s.Room (bytesToSectors (0 : Int32).toInt) := by
    rw [(hsize ▸ hs.formatted : Formatted 4 s).room_iff, mapSectors_eq (by decide)]
    decide
  obtain ⟨ok, t, hrun, -, hend, -⟩ := filesysCreate_returns hinv.inv .a
    (show 0 ≤ (0 : Int32).toInt by decide) (0 : Int32).toInt_lt
  refine ⟨s, ⟨t, [], []⟩, hs, by decide, ?_, ?_⟩
  · rintro ⟨i, hi, x, hx⟩
    rw [hs.formatted.slot_eq i hi] at hx
    cases hx
  · rw [Client.exec, call, hrun]
    cases hend with
    | made _ _ room => exact absurd room hroom
    | noRoom => rfl
    | notAdded room => exact absurd room hroom

/-- A file is removed while it is open, and made again. -/
theorem fs_refines_store_removed : ∃ s, JustFormatted s ∧ Agree ⟨s, [], []⟩ .empty
    [.create .a 3, .openFile .a, .write 0 [1, 2], .remove .a, .seek 0 0, .read 0 3,
      .create .a 3, .openFile .a, .read 1 3, .close 0] := by
  obtain ⟨s, hs, -⟩ := exists_justFormatted 8 (by decide) (by decide)
  exact ⟨s, hs, fs_refines_store hs _ (by decide)⟩

end OsMaterial
