import Mathlib.Algebra.GroupWithZero.Nat
import Mathlib.Data.List.Nodup
import Mathlib.Tactic.Common

/-!
# Records of Fixed Fields

A record is a sequence of fields of fixed widths (`RecordLayout`). A program sees it as its bytes
(`Record.flat`), and finds a field by its offset (`RecordLayout.get`).

* `Record.get_flat`: a field is found at its offset.
* `Record.splice_flat`: writing over the bytes at the offset of a field sets the field.
-/

namespace OsMaterial

open List

/-- **The fields of a record**, in their order, with their widths. -/
structure RecordLayout (F : Type*) where
  fields : List F
  width : F → ℕ
  mem_fields : ∀ f, f ∈ fields
  nodup : fields.Nodup

/-- **A record**: a value of the right width for every field. -/
structure Record {F : Type*} (L : RecordLayout F) (α : Type*) where
  field : F → List α
  length_field : ∀ f, (field f).length = L.width f

section Record

variable {F : Type*} {α : Type*} {L : RecordLayout F} {r : Record L α}

def RecordLayout.size (L : RecordLayout F) : ℕ := (L.fields.map L.width).sum

def Record.flat (r : Record L α) : List α := L.fields.flatMap r.field

theorem length_flatMap_field (r : Record L α) (fields : List F) :
    (fields.flatMap r.field).length = (fields.map L.width).sum := by
  induction fields with
  | nil => rfl
  | cons f fields ih =>
    rw [flatMap_cons, length_append, ih, r.length_field, map_cons, sum_cons]

theorem Record.length_flat (r : Record L α) : r.flat.length = L.size :=
  length_flatMap_field r L.fields

variable [DecidableEq F] {f g : F} {data data' : List α}

def RecordLayout.offset (L : RecordLayout F) (f : F) : ℕ :=
  ((L.fields.take (L.fields.idxOf f)).map L.width).sum

/-- The field of a record, in its bytes. -/
def RecordLayout.get (L : RecordLayout F) (bytes : List α) (f : F) : List α :=
  (bytes.drop (L.offset f)).take (L.width f)

def Record.set (r : Record L α) (f : F) (data : List α) (hdata : data.length = L.width f) :
    Record L α where
  field := Function.update r.field f data
  length_field g := by
    by_cases hg : g = f
    · rw [hg, Function.update_self, hdata]
    · rw [Function.update_of_ne hg, r.length_field]

@[simp] theorem Record.field_set_self (hdata : data.length = L.width f) :
    (r.set f data hdata).field f = data :=
  Function.update_self ..

@[simp] theorem Record.field_set_ne (hdata : data.length = L.width f) (h : g ≠ f) :
    (r.set f data hdata).field g = r.field g :=
  Function.update_of_ne h ..

theorem Record.set_set (hdata : data.length = L.width f) (hdata' : data'.length = L.width f) :
    (r.set f data hdata).set f data' hdata' = r.set f data' hdata' := by
  simp only [Record.set, Function.update_idem]

theorem RecordLayout.exists_split (L : RecordLayout F) (f : F) :
    ∃ before after, L.fields = before ++ f :: after ∧ L.offset f = (before.map L.width).sum ∧
      f ∉ before ∧ f ∉ after := by
  have hlt := idxOf_lt_length_of_mem (L.mem_fields f)
  have hsplit : L.fields = L.fields.take (L.fields.idxOf f) ++
      f :: L.fields.drop (L.fields.idxOf f + 1) := by
    conv_lhs => rw [← take_append_drop (L.fields.idxOf f) L.fields]
    rw [drop_eq_getElem_cons hlt, getElem_idxOf]
  have hn := L.nodup
  rw [hsplit, nodup_append, nodup_cons] at hn
  exact ⟨_, _, hsplit, rfl, fun hmem => hn.2.2 f hmem f mem_cons_self rfl, hn.2.1.1⟩

/-- **A field is found at its offset.** -/
theorem Record.get_flat (r : Record L α) (f : F) : L.get r.flat f = r.field f := by
  obtain ⟨before, after, hfields, hofs, -, -⟩ := L.exists_split f
  have hlen := length_flatMap_field r before
  rw [RecordLayout.get, Record.flat, hfields, hofs, flatMap_append, flatMap_cons, ← hlen,
    drop_left, ← r.length_field f, take_left]

/-- **Writing at the offset of a field** sets the field. -/
theorem Record.splice_flat (r : Record L α) (hdata : data.length = L.width f) :
    r.flat.take (L.offset f) ++ data ++ r.flat.drop (L.offset f + L.width f) =
      (r.set f data hdata).flat := by
  obtain ⟨before, after, hfields, hofs, hbefore, hafter⟩ := L.exists_split f
  have hlen := length_flatMap_field r before
  have hkeep : ∀ l : List F, f ∉ l →
      l.flatMap (r.set f data hdata).field = l.flatMap r.field := fun l hl =>
    flatMap_congr fun g hg => Record.field_set_ne hdata fun heq => hl (heq ▸ hg)
  rw [Record.flat, Record.flat, hfields, hofs, flatMap_append, flatMap_append, flatMap_cons,
    flatMap_cons, hkeep before hbefore, hkeep after hafter, Record.field_set_self, ← hlen,
    take_left, ← drop_drop, drop_left, ← r.length_field f, drop_left, append_assoc]

end Record

end OsMaterial
