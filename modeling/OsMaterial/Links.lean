import Mathlib.Data.List.Chain
import Mathlib.Data.List.Nodup
import Mathlib.Logic.Function.Basic

/-!
# Doubly Linked Cells

A heap of cells with a forward and a backward link each. A `Spine` is a sequence of cells linked
both ways, without repetitions; a list with two sentinels (`IsList`) is one with null outer links.

* `Spine.join`, `Spine.cut`: **linking in** cells between two neighbours, and **linking out**.
* `Spine.reverse`: a spine read backwards.
-/

namespace OsMaterial

open Function (update)
open List

/-- The two pointers of each cell. -/
@[ext]
structure Links (α : Type*) where
  next : α → Option α
  prev : α → Option α

namespace Links

variable {α : Type*}

section Assignments

variable [DecidableEq α]

def setNext (h : Links α) (a : α) (b : Option α) : Links α :=
  { h with next := update h.next a b }

def setPrev (h : Links α) (a : α) (b : Option α) : Links α :=
  { h with prev := update h.prev a b }

section

variable (h : Links α) (a : α) (b : Option α)

include h a b

@[simp] theorem setNext_next : (h.setNext a b).next = update h.next a b := rfl

@[simp] theorem setNext_prev : (h.setNext a b).prev = h.prev := rfl

@[simp] theorem setPrev_next : (h.setPrev a b).next = h.next := rfl

@[simp] theorem setPrev_prev : (h.setPrev a b).prev = update h.prev a b := rfl

end

/-- The cells `a` and `b` become neighbours. -/
abbrev link (h : Links α) (a b : α) : Links α := (h.setNext a (some b)).setPrev b (some a)

/-- The cells from `f` to `z` are linked in between `a` and `b`. -/
abbrev relink (h : Links α) (a f z b : α) : Links α :=
  (((h.setPrev f (some a)).setNext z (some b)).setNext a (some f)).setPrev b (some z)

end Assignments

def Linked (h : Links α) (a b : α) : Prop :=
  h.next a = some b ∧ h.prev b = some a

/-- A **spine**: a sequence of distinct cells, each linked both ways with the next. -/
structure Spine (h : Links α) (l : List α) : Prop where
  chain : l.IsChain h.Linked
  nodup : l.Nodup

variable {mid : List α}

namespace Spine

variable {h h' : Links α} {l l₁ l₂ : List α} {a b e : α}

theorem congr (hs : h.Spine l) (hnext : ∀ x ∈ l.dropLast, h'.next x = h.next x)
    (hprev : ∀ x ∈ l.tail, h'.prev x = h.prev x) : h'.Spine l := by
  refine ⟨?_, hs.nodup⟩
  have hchain := hs.chain
  clear hs
  induction l with
  | nil => exact .nil
  | cons x l ih =>
    cases l with
    | nil => exact .singleton x
    | cons y l =>
      rw [isChain_cons_cons] at hchain ⊢
      obtain ⟨⟨hn, hp⟩, hrest⟩ := hchain
      refine ⟨⟨?_, ?_⟩, ih ?_ ?_ hrest⟩
      · rw [hnext x (by simp), hn]
      · rw [hprev y (by simp), hp]
      · exact fun z hz => hnext z (by simp [hz])
      · exact fun z hz => hprev z (by simpa using .inr hz)

theorem split : h.Spine (l₁ ++ a :: b :: l₂) ↔
    h.Spine (l₁ ++ [a]) ∧ h.Linked a b ∧ h.Spine (b :: l₂) ∧ ∀ x ∈ l₁ ++ [a], x ∉ b :: l₂ := by
  constructor
  · rintro ⟨hchain, hnodup⟩
    obtain ⟨h₁, hab, h₂⟩ := isChain_append_cons_cons.mp hchain
    rw [append_cons, nodup_append] at hnodup
    exact ⟨⟨h₁, hnodup.1⟩, hab, ⟨h₂, hnodup.2.1⟩, fun x hx hx' => hnodup.2.2 x hx x hx' rfl⟩
  · rintro ⟨⟨h₁, hn₁⟩, hab, ⟨h₂, hn₂⟩, hdisj⟩
    refine ⟨isChain_append_cons_cons.mpr ⟨h₁, hab, h₂⟩, ?_⟩
    rw [append_cons, nodup_append]
    exact ⟨hn₁, hn₂, fun x hx y hy hxy => hdisj x hx (hxy ▸ hy)⟩

theorem parts (hs : h.Spine (l₁ ++ l₂)) : h.Spine l₁ ∧ h.Spine l₂ ∧ ∀ x ∈ l₁, x ∉ l₂ := by
  obtain ⟨hn₁, hn₂, hdisj⟩ := nodup_append.mp hs.nodup
  exact ⟨⟨hs.chain.left_of_append, hn₁⟩, ⟨hs.chain.right_of_append, hn₂⟩,
    fun x hx hx' => hdisj x hx x hx' rfl⟩

theorem reverse (hs : h.Spine l) : (Links.mk h.prev h.next).Spine l.reverse := by
  refine ⟨?_, nodup_reverse.mpr hs.nodup⟩
  rw [isChain_reverse]
  exact hs.chain.imp fun a b hab => ⟨hab.2, hab.1⟩

variable [DecidableEq α]

theorem cut (hs : h.Spine (l₁ ++ a :: (mid ++ b :: l₂))) :
    (h.link a b).Spine (l₁ ++ a :: b :: l₂) ∧ (h.link a b).Spine mid := by
  rw [append_cons] at hs
  obtain ⟨h₁, hs₂, hdisj⟩ := hs.parts
  obtain ⟨hmid, h₂, hdisj₂⟩ := hs₂.parts
  have hn₁ := h₁.nodup
  have hn₂ := h₂.nodup
  have hmid_a : ∀ x ∈ mid, x ≠ a := fun x hx hxa =>
    hdisj a (by simp) (mem_append_left _ (hxa ▸ hx))
  have hmid_b : ∀ x ∈ mid, x ≠ b := fun x hx hxb => hdisj₂ x hx (by simp [hxb])
  refine ⟨split.mpr ⟨h₁.congr ?_ ?_, ⟨by simp, by simp⟩, h₂.congr ?_ ?_, ?_⟩, hmid.congr ?_ ?_⟩
  · intro x hx
    rw [dropLast_concat] at hx
    have hxa : x ≠ a := (nodup_append.mp hn₁).2.2 x hx a (by simp)
    simp [hxa]
  · intro x hx
    have hxb : x ≠ b := fun hxb => hdisj x (mem_of_mem_tail hx) (by simp [hxb])
    simp [hxb]
  · intro x hx
    have hxa : x ≠ a := by
      rintro rfl
      exact hdisj x (by simp) (mem_append_right _ (dropLast_subset _ hx))
    simp [hxa]
  · intro x hx
    have hxb : x ≠ b := by
      rintro rfl
      exact (nodup_cons.mp hn₂).1 hx
    simp [hxb]
  · exact fun x hx hx' => hdisj x hx (mem_append_right _ hx')
  · exact fun x hx => by simp [hmid_a x (dropLast_subset _ hx)]
  · exact fun x hx => by simp [hmid_b x (mem_of_mem_tail hx)]

theorem join {m m' : List α} {f z : α} (hs : h.Spine (l₁ ++ a :: b :: l₂)) (hmid : h.Spine mid)
    (hdisj : ∀ x ∈ mid, x ∉ l₁ ++ a :: b :: l₂) (hf : mid = f :: m) (hz : mid = m' ++ [z]) :
    (h.relink a f z b).Spine (l₁ ++ a :: (mid ++ b :: l₂)) := by
  obtain ⟨h₁, -, h₂, hdisj₁⟩ := split.mp hs
  have hn₁ := h₁.nodup
  have hn₂ := h₂.nodup
  have hnmid := hmid.nodup
  have hout : ∀ x ∈ mid, x ∉ l₁ ++ [a] ∧ x ∉ b :: l₂ := by
    intro x hx
    have := hdisj x hx
    rw [append_cons, mem_append, not_or] at this
    exact this
  have hfm : f ∈ mid := by simp [hf]
  have hzm : z ∈ mid := by simp [hz]
  have hna : ∀ x ∈ mid, x ≠ a := fun x hx hxa => (hout x hx).1 (by simp [hxa])
  have hnb : ∀ x ∈ mid, x ≠ b := fun x hx hxb => (hout x hx).2 (by simp [hxb])
  have hright : (h.relink a f z b).Spine (mid ++ b :: l₂) := by
    rw [hz, append_assoc, singleton_append, split, ← hz]
    refine ⟨hmid.congr ?_ ?_, ⟨by simp [hna z hzm], by simp⟩, h₂.congr ?_ ?_,
      fun x hx => (hout x hx).2⟩
    · intro x hx
      have hxa := hna x (dropLast_subset _ hx)
      rw [hz, dropLast_concat] at hx
      have hxz : x ≠ z := by
        rw [hz] at hnmid
        exact (nodup_append.mp hnmid).2.2 x hx z (by simp)
      simp [hxa, hxz]
    · intro x hx
      have hxb := hnb x (mem_of_mem_tail hx)
      rw [hf, tail_cons] at hx
      have hxf : x ≠ f := by
        rintro rfl
        rw [hf] at hnmid
        exact (nodup_cons.mp hnmid).1 hx
      simp [hxb, hxf]
    · intro x hx
      have hx' := dropLast_subset _ hx
      have hxa : x ≠ a := fun hxa => hdisj₁ a (by simp) (hxa ▸ hx')
      have hxz : x ≠ z := fun hxz => (hout z hzm).2 (hxz ▸ hx')
      simp [hxa, hxz]
    · intro x hx
      have hxb : x ≠ b := by
        rintro rfl
        exact (nodup_cons.mp hn₂).1 hx
      have hxf : x ≠ f := fun hxf => (hout f hfm).2 (mem_cons_of_mem _ (hxf ▸ hx))
      simp [hxb, hxf]
  rw [hf, cons_append, split, ← cons_append, ← hf]
  refine ⟨h₁.congr ?_ ?_, ⟨by simp, by simp [hnb f hfm]⟩, hright, fun x hx hx' => ?_⟩
  · intro x hx
    rw [dropLast_concat] at hx
    have hxa : x ≠ a := (nodup_append.mp hn₁).2.2 x hx a (by simp)
    have hxz : x ≠ z := fun hxz => (hout z hzm).1 (mem_append_left _ (hxz ▸ hx))
    simp [hxa, hxz]
  · intro x hx
    have hx' := mem_of_mem_tail hx
    have hxb : x ≠ b := fun hxb => hdisj₁ x hx' (by simp [hxb])
    have hxf : x ≠ f := fun hxf => (hout f hfm).1 (hxf ▸ hx')
    simp [hxb, hxf]
  · rcases mem_append.mp hx' with hxm | hxr
    · exact (hout x hxm).1 hx
    · exact hdisj₁ x hx hxr

end Spine

/-- A list with sentinels `head` and `tail`, and the cells `xs` between them. -/
structure IsList (h : Links α) (head tail : α) (xs : List α) : Prop where
  spine : h.Spine (head :: xs ++ [tail])
  head_prev : h.prev head = none
  tail_next : h.next tail = none

namespace IsList

variable {h h' : Links α} {head tail e : α} {xs ys : List α}

theorem congr (hl : h.IsList head tail xs)
    (heq : ∀ x ∈ head :: xs ++ [tail], h'.next x = h.next x ∧ h'.prev x = h.prev x) :
    h'.IsList head tail xs := by
  refine ⟨hl.spine.congr ?_ ?_, ?_, ?_⟩
  · exact fun x hx => (heq x (dropLast_subset _ hx)).1
  · exact fun x hx => (heq x (mem_of_mem_tail hx)).2
  · rw [(heq head (by simp)).2, hl.head_prev]
  · rw [(heq tail (by simp)).1, hl.tail_next]

theorem exists_last (head : α) (xs : List α) : ∃ l a, head :: xs = l ++ [a] :=
  ⟨_, _, (dropLast_concat_getLast (cons_ne_nil head xs)).symm⟩

theorem last (hl : h.IsList head tail xs) :
    ∃ l a, head :: xs = l ++ [a] ∧ h.prev tail = some a ∧ a ≠ tail := by
  obtain ⟨l, a, ha⟩ := exists_last head xs
  have hs := hl.spine
  rw [ha, append_assoc] at hs
  obtain ⟨-, ⟨-, hprev⟩, -, hdisj⟩ := Spine.split.mp hs
  exact ⟨l, a, ha, hprev, fun hat => hdisj a (by simp) (by simp [hat])⟩

theorem exists_first (tail : α) (ys : List α) : ∃ b l, ys ++ [tail] = b :: l := by
  cases ys with
  | nil => exact ⟨tail, [], rfl⟩
  | cons b ys => exact ⟨b, ys ++ [tail], rfl⟩

theorem neighbours (hl : h.IsList head tail (xs ++ e :: ys)) :
    ∃ l₁ a b l₂, head :: xs = l₁ ++ [a] ∧ ys ++ [tail] = b :: l₂ ∧
      h.Spine (l₁ ++ a :: e :: b :: l₂) := by
  obtain ⟨l₁, a, ha⟩ := exists_last head xs
  obtain ⟨b, l₂, hb⟩ := exists_first tail ys
  refine ⟨l₁, a, b, l₂, ha, hb, ?_⟩
  have hs : h.Spine ((head :: xs) ++ e :: (ys ++ [tail])) := by simpa using hl.spine
  rwa [ha, hb, append_assoc] at hs

theorem cells_eq {l₁ l₂ p q : List α} {a b : α} (ha : head :: l₁ = p ++ [a])
    (hb : l₂ ++ [tail] = b :: q) (mid : List α) :
    head :: (l₁ ++ mid ++ l₂) ++ [tail] = p ++ a :: (mid ++ b :: q) := by
  rw [← hb, append_cons p a, ← ha]
  simp

theorem place {l₁ l₂ p q : List α} {a b : α} (hl : h.IsList head tail (l₁ ++ mid ++ l₂))
    (ha : head :: l₁ = p ++ [a]) (hb : l₂ ++ [tail] = b :: q) :
    h.Spine (p ++ a :: (mid ++ b :: q)) := by
  have hs := hl.spine
  rwa [cells_eq ha hb] at hs

theorem place_links {l₁ l₂ p q m m' : List α} {a b f z : α}
    (hl : h.IsList head tail (l₁ ++ mid ++ l₂)) (ha : head :: l₁ = p ++ [a])
    (hb : l₂ ++ [tail] = b :: q) (hf : mid = f :: m) (hz : mid = m' ++ [z]) :
    h.Linked a f ∧ h.Linked z b := by
  have hs := hl.place ha hb
  constructor
  · rw [hf, cons_append] at hs
    exact (Spine.split.mp hs).2.1
  · rw [hz, append_assoc, singleton_append, ← cons_append, ← append_assoc] at hs
    exact (Spine.split.mp hs).2.1

theorem sentinels (hl : h.IsList head tail xs) : head ≠ tail ∧ head ∉ xs ∧ tail ∉ xs := by
  have hn := hl.spine.nodup
  rw [cons_append, nodup_cons, nodup_append, mem_append, not_or] at hn
  refine ⟨fun heq => hn.1.2 (by simp [heq]), hn.1.1, fun hmem => ?_⟩
  exact hn.2.2.2 tail hmem tail (by simp) rfl

section Edits

variable [DecidableEq α]

theorem cut {l₁ l₂ p q : List α} {a b : α} (hl : h.IsList head tail (l₁ ++ mid ++ l₂))
    (ha : head :: l₁ = p ++ [a]) (hb : l₂ ++ [tail] = b :: q) :
    (h.link a b).IsList head tail (l₁ ++ l₂) ∧ (h.link a b).Spine mid := by
  have hs := hl.place ha hb
  obtain ⟨hcut, hmid⟩ := hs.cut
  obtain ⟨-, -, -, hdisj⟩ := Spine.split.mp hcut
  refine ⟨⟨?_, ?_, ?_⟩, hmid⟩
  · rw [← append_nil l₁, cells_eq ha hb]
    exact hcut
  · have hhb : head ≠ b := by
      rintro rfl
      exact hdisj head (ha ▸ mem_cons_self) (by simp)
    simp [hhb, hl.head_prev]
  · have hta : tail ≠ a := by
      rintro rfl
      exact hdisj tail (by simp) (hb ▸ by simp)
    simp [hta, hl.tail_next]

theorem join {l₁ l₂ p q m m' : List α} {a b f z : α} (hl : h.IsList head tail (l₁ ++ l₂))
    (ha : head :: l₁ = p ++ [a]) (hb : l₂ ++ [tail] = b :: q) (hmid : h.Spine mid)
    (hdisj : ∀ x ∈ mid, x ∉ head :: (l₁ ++ l₂) ++ [tail]) (hf : mid = f :: m)
    (hz : mid = m' ++ [z]) :
    (h.relink a f z b).IsList head tail (l₁ ++ mid ++ l₂) := by
  have hs := hl.spine
  rw [← append_nil l₁, cells_eq ha hb, nil_append] at hs hdisj
  obtain ⟨-, -, -, hdisj₁⟩ := Spine.split.mp hs
  have hhead : head ∈ p ++ [a] := ha ▸ mem_cons_self
  have htail : tail ∈ b :: q := hb ▸ by simp
  refine ⟨?_, ?_, ?_⟩
  · have hjoin := hs.join hmid hdisj hf hz
    rw [cells_eq ha hb]
    exact hjoin
  · have hhb : head ≠ b := by
      rintro rfl
      exact hdisj₁ head hhead (by simp)
    have hhf : head ≠ f := by
      rintro rfl
      refine hdisj head (by simp [hf]) ?_
      rw [append_cons]
      exact mem_append_left _ hhead
    simp [hhb, hhf, hl.head_prev]
  · have hta : tail ≠ a := by
      rintro rfl
      exact hdisj₁ tail (by simp) htail
    have htz : tail ≠ z := by
      rintro rfl
      refine hdisj tail (by simp [hz]) ?_
      rw [append_cons]
      exact mem_append_right _ htail
    simp [hta, htz, hl.tail_next]

end Edits

end IsList

end Links

end OsMaterial
