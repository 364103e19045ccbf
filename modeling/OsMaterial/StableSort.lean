import Mathlib.Data.List.Sort
import Mathlib.Data.List.Chain

/-!
# Stable Sorting of Sequences

A strict weak order `less` on some set, and sequences over the set. Elements are tied if neither is
less. A rearrangement is **stable** if tied elements stay in order (`StablePerm`). A pass of a
**natural merge sort** (`MergePass`) merges the maximal sorted runs in pairs; a last odd run stays.

* `StableSort.unique`: **at most one stable sorted rearrangement**.
* `MergePass.stablePerm`, `MergePass.two_mul_le`: a pass is stable, and halves the runs.
-/

namespace OsMaterial

open List

variable {α : Type*} {less : α → α → Bool} {S : Set α}

def tied (less : α → α → Bool) (a b : α) : Bool := !less a b && !less b a

/-- A **strict weak order** on `S`. -/
structure StrictWeakOn (less : α → α → Bool) (S : Set α) : Prop where
  irrefl : ∀ a ∈ S, less a a = false
  trans : ∀ a ∈ S, ∀ b ∈ S, ∀ c ∈ S, less a b = true → less b c = true → less a c = true
  tied_trans : ∀ a ∈ S, ∀ b ∈ S, ∀ c ∈ S,
    tied less a b = true → tied less b c = true → tied less a c = true

abbrev NotAbove (less : α → α → Bool) (a b : α) : Prop := less b a = false

/-- `ys` has the elements of `xs`, and those tied with any element of `S` in the same order. -/
structure StablePerm (less : α → α → Bool) (S : Set α) (xs ys : List α) : Prop where
  perm : ys.Perm xs
  filter_tied : ∀ c ∈ S, ys.filter (tied less c) = xs.filter (tied less c)

/-- **Sorted**, and ties in their old order. -/
structure StableSort (less : α → α → Bool) (xs ys : List α) : Prop
    extends StablePerm less {a | a ∈ xs} xs ys where
  sorted : ys.Pairwise (NotAbove less)

theorem tied_iff {a b : α} : tied less a b = true ↔ less a b = false ∧ less b a = false := by
  rw [tied, Bool.and_eq_true, Bool.not_eq_true', Bool.not_eq_true']

variable {x : α}

namespace StrictWeakOn

variable (hw : StrictWeakOn less S) {a b c : α}

include hw

theorem asymm (ha : a ∈ S) (hb : b ∈ S) (hab : less a b = true) : less b a = false := by
  rw [← Bool.not_eq_true]
  intro hba
  have := hw.trans a ha b hb a ha hab hba
  rw [hw.irrefl a ha] at this
  cases this

theorem notAbove_trans (ha : a ∈ S) (hb : b ∈ S) (hc : c ∈ S) (hab : NotAbove less a b)
    (hbc : NotAbove less b c) : NotAbove less a c := by
  by_contra hca
  rw [Bool.not_eq_false] at hca
  have htied_ab : tied less a b = true := by
    refine tied_iff.mpr ⟨?_, hab⟩
    rw [← Bool.not_eq_true]
    intro hlt
    have := hw.trans c hc a ha b hb hca hlt
    rw [hbc] at this
    cases this
  have htied_bc : tied less b c = true := by
    refine tied_iff.mpr ⟨?_, hbc⟩
    rw [← Bool.not_eq_true]
    intro hlt
    have := hw.trans b hb c hc a ha hlt hca
    rw [hab] at this
    cases this
  have := (tied_iff.mp (hw.tied_trans a ha b hb c hc htied_ab htied_bc)).2
  rw [hca] at this
  cases this

theorem tied_refl (ha : a ∈ S) : tied less a a = true :=
  tied_iff.mpr ⟨hw.irrefl a ha, hw.irrefl a ha⟩

theorem not_tied_of_less (ha : a ∈ S) (hb : b ∈ S) (hc : c ∈ S) (hx : x ∈ S) (hba : less b a = true)
    (hax : NotAbove less a x) (hcb : tied less c b = true) : tied less c x = false := by
  rw [← Bool.not_eq_true]
  intro hcx
  have hxc := (tied_iff.mp hcx).1
  have hcb' := (tied_iff.mp hcb).2
  have : less b a = false := hw.notAbove_trans ha hx hb hax (hw.notAbove_trans hx hc hb hxc hcb')
  rw [hba] at this
  cases this

theorem sorted_of_isChain {xs : List α} (hxs : ∀ a ∈ xs, a ∈ S)
    (hchain : xs.IsChain (NotAbove less)) : xs.Pairwise (NotAbove less) := by
  induction xs with
  | nil => exact .nil
  | cons x xs ih =>
    have hrest := ih (fun a ha => hxs a (.tail x ha)) hchain.of_cons
    refine pairwise_cons.mpr ⟨?_, hrest⟩
    cases xs with
    | nil => exact fun a ha => absurd ha not_mem_nil
    | cons y xs =>
      have hxy := (isChain_cons_cons.mp hchain).1
      intro a ha
      rcases mem_cons.mp ha with rfl | ha'
      · exact hxy
      · exact hw.notAbove_trans (hxs x (by simp)) (hxs y (by simp)) (hxs a (by simp [ha']))
          hxy ((pairwise_cons.mp hrest).1 a ha')

end StrictWeakOn

theorem strictWeakOn_key {κ : Type*} [LinearOrder κ] (key : α → κ) (S : Set α) :
    StrictWeakOn (fun a b => decide (key a < key b)) S where
  irrefl := fun a _ => decide_eq_false (lt_irrefl _)
  trans := fun a _ b _ c _ hab hbc =>
    decide_eq_true ((of_decide_eq_true hab).trans (of_decide_eq_true hbc))
  tied_trans := by
    intro a _ b _ c _ hab hbc
    simp only [tied_iff, decide_eq_false_iff_not, not_lt] at hab hbc ⊢
    exact ⟨hbc.1.trans hab.1, hab.2.trans hbc.2⟩

/-! ### Stable rearrangements -/

namespace StablePerm

variable {xs ys zs : List α}

theorem refl (xs : List α) : StablePerm less S xs xs := ⟨.rfl, fun _ _ => rfl⟩

theorem trans (h₁ : StablePerm less S xs ys) (h₂ : StablePerm less S ys zs) :
    StablePerm less S xs zs :=
  ⟨h₂.perm.trans h₁.perm, fun c hc => (h₂.filter_tied c hc).trans (h₁.filter_tied c hc)⟩

theorem append {xs' ys' : List α} (h₁ : StablePerm less S xs ys)
    (h₂ : StablePerm less S xs' ys') : StablePerm less S (xs ++ xs') (ys ++ ys') :=
  ⟨h₁.perm.append h₂.perm, fun c hc => by
    rw [filter_append, filter_append, h₁.filter_tied c hc, h₂.filter_tied c hc]⟩

end StablePerm

theorem eq_of_filter_tied {ys zs : List α} (hw : StrictWeakOn less S) (hys : ∀ a ∈ ys, a ∈ S)
    (hzs : ∀ a ∈ zs, a ∈ S) (hsy : ys.Pairwise (NotAbove less)) (hsz : zs.Pairwise (NotAbove less))
    (hclass : ∀ c ∈ S, ys.filter (tied less c) = zs.filter (tied less c)) : ys = zs := by
  induction ys generalizing zs with
  | nil =>
    cases zs with
    | nil => rfl
    | cons b zs =>
      have hb := hzs b (by simp)
      have := hclass b hb
      rw [filter_nil, filter_cons_of_pos (hw.tied_refl hb)] at this
      cases this
  | cons a ys ih =>
    have ha := hys a (by simp)
    have hhead := hclass a ha
    rw [filter_cons_of_pos (hw.tied_refl ha)] at hhead
    cases zs with
    | nil => cases hhead
    | cons b zs =>
      have hb := hzs b (by simp)
      -- each head occurs in the other sequence, so neither is above the other
      have hab : NotAbove less a b := by
        have hmem : b ∈ (a :: ys).filter (tied less b) := by
          rw [hclass b hb]
          exact mem_filter.mpr ⟨by simp, hw.tied_refl hb⟩
        rcases mem_cons.mp (mem_filter.mp hmem).1 with heq | hmem'
        · rw [heq]
          exact hw.irrefl a ha
        · exact (pairwise_cons.mp hsy).1 b hmem'
      have hba : NotAbove less b a := by
        have hmem : a ∈ (b :: zs).filter (tied less a) := by
          rw [← hhead]
          exact mem_cons_self
        rcases mem_cons.mp (mem_filter.mp hmem).1 with heq | hmem'
        · rw [heq]
          exact hw.irrefl b hb
        · exact (pairwise_cons.mp hsz).1 a hmem'
      rw [filter_cons_of_pos (tied_iff.mpr ⟨hba, hab⟩)] at hhead
      obtain rfl : a = b := (List.cons.inj hhead).1
      refine congrArg (a :: ·) (ih (fun x hx => hys x (.tail a hx))
        (fun x hx => hzs x (.tail a hx)) (pairwise_cons.mp hsy).2
        (pairwise_cons.mp hsz).2 fun c hc => ?_)
      have hc' := hclass c hc
      by_cases htied : tied less c a = true
      · rw [filter_cons_of_pos htied, filter_cons_of_pos htied] at hc'
        exact (List.cons.inj hc').2
      · rwa [filter_cons_of_neg htied, filter_cons_of_neg htied] at hc'

/-- **At most one stable sorted rearrangement.** -/
theorem StableSort.unique {xs ys zs : List α} (hw : StrictWeakOn less {a | a ∈ xs})
    (hy : StableSort less xs ys) (hz : StableSort less xs zs) : ys = zs :=
  eq_of_filter_tied hw (fun _ ha => hy.perm.mem_iff.mp ha) (fun _ ha => hz.perm.mem_iff.mp ha)
    hy.sorted hz.sorted fun c hc => (hy.filter_tied c hc).trans (hz.filter_tied c hc).symm

/-! ### Merging -/

/-- The comparison with which `List.merge` prefers the first sequence on ties. -/
abbrev notAbove (less : α → α → Bool) (a b : α) : Bool := !less b a

theorem sorted_merge {xs ys : List α} (hw : StrictWeakOn less S) (hxs : ∀ a ∈ xs, a ∈ S)
    (hys : ∀ a ∈ ys, a ∈ S) (hsx : xs.Pairwise (NotAbove less))
    (hsy : ys.Pairwise (NotAbove less)) :
    (xs.merge ys (notAbove less)).Pairwise (NotAbove less) := by
  induction xs generalizing ys with
  | nil => rwa [nil_merge]
  | cons x xs ihx =>
    induction ys with
    | nil => rwa [merge_right]
    | cons y ys ihy =>
      obtain ⟨hx, hsx'⟩ := pairwise_cons.mp hsx
      obtain ⟨hy, hsy'⟩ := pairwise_cons.mp hsy
      have hxS := hxs x (by simp)
      have hyS := hys y (by simp)
      rw [cons_merge_cons]
      cases hlt : less y x with
      | false =>
        rw [if_pos (by rw [notAbove, hlt]; rfl)]
        refine pairwise_cons.mpr ⟨fun a ha => ?_, ihx (fun a ha => hxs a (.tail x ha)) hys hsx' hsy⟩
        rcases mem_merge.mp ha with ha | ha
        · exact hx a ha
        · rcases mem_cons.mp ha with rfl | ha
          · exact hlt
          · exact hw.notAbove_trans hxS hyS (hys a (.tail y ha)) hlt (hy a ha)
      | true =>
        rw [if_neg (by rw [notAbove, hlt]; exact Bool.false_ne_true)]
        refine pairwise_cons.mpr ⟨fun a ha => ?_, ihy (fun a ha => hys a (.tail y ha)) hsy'⟩
        have hyx := hw.asymm hyS hxS hlt
        rcases mem_merge.mp ha with ha | ha
        · rcases mem_cons.mp ha with rfl | ha
          · exact hyx
          · exact hw.notAbove_trans hyS hxS (hxs a (.tail x ha)) hyx (hx a ha)
        · exact hy a ha

/-- **Merging is stable**: an element of the second sequence is only put before larger ones. -/
theorem StablePerm.merge {xs ys : List α} (hw : StrictWeakOn less S) (hxs : ∀ a ∈ xs, a ∈ S)
    (hys : ∀ a ∈ ys, a ∈ S) (hsx : xs.Pairwise (NotAbove less)) :
    StablePerm less S (xs ++ ys) (xs.merge ys (notAbove less)) := by
  refine ⟨merge_perm_append _, fun c hc => ?_⟩
  induction xs generalizing ys with
  | nil => rw [nil_merge, nil_append]
  | cons x xs ihx =>
    induction ys with
    | nil => rw [merge_right, append_nil]
    | cons y ys ihy =>
      have hsx' := (pairwise_cons.mp hsx).2
      rw [cons_merge_cons]
      cases hlt : less y x with
      | false =>
        rw [if_pos (by rw [notAbove, hlt]; rfl), cons_append, filter_cons,
          filter_cons, ihx (fun a ha => hxs a (.tail x ha)) hys hsx']
      | true =>
        rw [if_neg (by rw [notAbove, hlt]; exact Bool.false_ne_true), filter_cons,
          ihy (fun a ha => hys a (.tail y ha)), filter_append, filter_append, filter_cons (x := y)]
        by_cases htied : tied less c y = true
        · have hnone : (x :: xs).filter (tied less c) = [] := by
            refine filter_eq_nil_iff.mpr fun a ha => ?_
            rw [Bool.not_eq_true]
            refine hw.not_tied_of_less (hxs x (by simp)) (hys y (by simp)) hc (hxs a ha) hlt
              ?_ htied
            rcases mem_cons.mp ha with rfl | ha
            · exact hw.irrefl a (hxs a (by simp))
            · exact (pairwise_cons.mp hsx).1 a ha
          rw [hnone, nil_append, nil_append]
        · rw [if_neg htied, if_neg htied]

/-! ### Natural runs -/

def runs (less : α → α → Bool) : List α → ℕ
  | [] => 0
  | [_] => 1
  | x :: y :: l => if less y x then runs less (y :: l) + 1 else runs less (y :: l)

def Breaks (less : α → α → Bool) (xs ys : List α) : Prop :=
  ∀ x ∈ xs.getLast?, ∀ y ∈ ys.head?, less y x = true

theorem runs_le_length (l : List α) : runs less l ≤ l.length := by
  induction l with
  | nil => exact Nat.le_refl 0
  | cons x l ih =>
    cases l with
    | nil => exact Nat.le_refl 1
    | cons y l =>
      rw [runs, length_cons]
      split
      · exact Nat.succ_le_succ ih
      · exact ih.trans (Nat.le_succ _)

variable {l : List α}

theorem runs_pos (less : α → α → Bool) (hl : l ≠ []) : 1 ≤ runs less l := by
  induction l with
  | nil => exact absurd rfl hl
  | cons x l ih =>
    cases l with
    | nil => exact Nat.le_refl 1
    | cons y l =>
      rw [runs]
      split
      · exact Nat.le_add_left 1 _
      · exact ih (cons_ne_nil y l)

theorem isChain_of_runs (hl : runs less l ≤ 1) : l.IsChain (NotAbove less) := by
  induction l with
  | nil => exact .nil
  | cons x l ih =>
    cases l with
    | nil => exact .singleton x
    | cons y l =>
      rw [runs] at hl
      cases hlt : less y x with
      | false =>
        rw [hlt] at hl
        exact isChain_cons_cons.mpr ⟨hlt, ih hl⟩
      | true =>
        have := runs_pos less (cons_ne_nil y l)
        rw [hlt, if_pos rfl] at hl
        omega

theorem runs_append_le {xs : List α} (hxs : xs.IsChain (NotAbove less)) (ys : List α) :
    runs less (xs ++ ys) ≤ runs less ys + 1 := by
  induction xs with
  | nil => exact Nat.le_succ _
  | cons x xs ih =>
    cases xs with
    | nil =>
      cases ys with
      | nil => exact Nat.le_refl 1
      | cons y ys =>
        rw [singleton_append, runs]
        split
        · exact Nat.le_refl _
        · exact Nat.le_succ _
    | cons y xs =>
      obtain ⟨hxy, hrest⟩ := isChain_cons_cons.mp hxs
      rw [cons_append, cons_append, runs, hxy, if_neg Bool.false_ne_true]
      exact ih hrest

theorem runs_append {xs ys : List α} (hne : xs ≠ []) (hxs : xs.IsChain (NotAbove less))
    (hbreak : Breaks less xs ys) : runs less (xs ++ ys) = runs less ys + 1 := by
  induction xs with
  | nil => exact absurd rfl hne
  | cons x xs ih =>
    cases xs with
    | nil =>
      cases ys with
      | nil => rfl
      | cons y ys => rw [singleton_append, runs, if_pos (hbreak x rfl y rfl)]
    | cons y xs =>
      obtain ⟨hxy, hrest⟩ := isChain_cons_cons.mp hxs
      rw [cons_append, cons_append, runs, hxy, if_neg Bool.false_ne_true]
      exact ih (cons_ne_nil y xs) hrest hbreak

/-! ### Natural merge sort -/

/-- **One pass** over a sequence: what it becomes, and how many runs are written. -/
inductive MergePass (less : α → α → Bool) : List α → List α → ℕ → Prop
  | nil : MergePass less [] [] 0
  | last {xs : List α} (hne : xs ≠ []) (hxs : xs.IsChain (NotAbove less)) : MergePass less xs xs 1
  | merge {xs ys rest out : List α} {n : ℕ} (hxne : xs ≠ []) (hyne : ys ≠ [])
      (hxs : xs.IsChain (NotAbove less)) (hys : ys.IsChain (NotAbove less))
      (hbreak : Breaks less xs ys) (hbreak' : Breaks less ys rest)
      (hrest : MergePass less rest out n) :
      MergePass less (xs ++ (ys ++ rest)) (xs.merge ys (notAbove less) ++ out) (n + 1)

namespace MergePass

variable {xs out : List α} {n : ℕ}

theorem stablePerm (hp : MergePass less xs out n) (hw : StrictWeakOn less S)
    (hS : ∀ a ∈ xs, a ∈ S) : StablePerm less S xs out := by
  induction hp with
  | nil => exact .refl []
  | last => exact .refl _
  | merge hxne hyne hxs hys hbreak hbreak' hrest ih =>
    simp only [mem_append] at hS
    rw [← append_assoc]
    exact (StablePerm.merge hw (fun a ha => hS a (.inl ha)) (fun a ha => hS a (.inr (.inl ha)))
      (hw.sorted_of_isChain (fun a ha => hS a (.inl ha)) hxs)).append
      (ih fun a ha => hS a (.inr (.inr ha)))

theorem runs_le (hp : MergePass less xs out n) (hw : StrictWeakOn less S)
    (hS : ∀ a ∈ xs, a ∈ S) : runs less out ≤ n := by
  induction hp with
  | nil => exact Nat.le_refl 0
  | last hne hxs =>
    have := runs_append_le hxs []
    rwa [append_nil] at this
  | merge hxne hyne hxs hys hbreak hbreak' hrest ih =>
    simp only [mem_append] at hS
    have hx := hw.sorted_of_isChain (fun a ha => hS a (.inl ha)) hxs
    have hy := hw.sorted_of_isChain (fun a ha => hS a (.inr (.inl ha))) hys
    have hmerge := sorted_merge hw (fun a ha => hS a (.inl ha))
      (fun a ha => hS a (.inr (.inl ha))) hx hy
    exact (runs_append_le hmerge.isChain _).trans
      (Nat.succ_le_succ (ih fun a ha => hS a (.inr (.inr ha))))

theorem two_mul_le (hp : MergePass less xs out n) : 2 * n ≤ runs less xs + 1 := by
  induction hp with
  | nil => exact Nat.zero_le 1
  | last hne hxs =>
    have := runs_pos less hne
    omega
  | @merge xs ys rest out n hxne hyne hxs hys hbreak hbreak' hrest ih =>
    have hbreak'' : Breaks less xs (ys ++ rest) := fun x hx y hy =>
      hbreak x hx y (by rwa [head?_append_of_ne_nil _ hyne] at hy)
    rw [runs_append hxne hxs hbreak'', runs_append hyne hys hbreak']
    omega

end MergePass

/-! ### Insertion -/

theorem sorted_orderedInsert (hw : StrictWeakOn less S) (hx : x ∈ S)
    (hl : ∀ a ∈ l, a ∈ S) (hs : l.Pairwise (NotAbove less)) :
    (l.orderedInsert (fun a b => less a b = true) x).Pairwise (NotAbove less) := by
  induction l with
  | nil => exact pairwise_singleton _ x
  | cons y l ih =>
    obtain ⟨hy, hs'⟩ := pairwise_cons.mp hs
    rw [List.orderedInsert]
    split
    · next hlt =>
      have hxy := hw.asymm hx (hl y (by simp)) hlt
      refine pairwise_cons.mpr ⟨fun a ha => ?_, hs⟩
      rcases mem_cons.mp ha with rfl | ha
      · exact hxy
      · exact hw.notAbove_trans hx (hl y (by simp)) (hl a (by simp [ha])) hxy (hy a ha)
    · next hlt =>
      refine pairwise_cons.mpr ⟨fun a ha => ?_, ih (fun a ha => hl a (.tail y ha)) hs'⟩
      rcases (mem_orderedInsert _).mp ha with rfl | ha
      · exact Bool.eq_false_of_not_eq_true hlt
      · exact hy a ha

theorem StablePerm.orderedInsert (hw : StrictWeakOn less S) (hx : x ∈ S)
    (hl : ∀ a ∈ l, a ∈ S) (hs : l.Pairwise (NotAbove less)) :
    StablePerm less S (l ++ [x]) (l.orderedInsert (fun a b => less a b = true) x) := by
  refine ⟨(perm_orderedInsert _ x l).trans (perm_append_singleton x l).symm, fun c hc => ?_⟩
  induction l with
  | nil => rfl
  | cons y l ih =>
    rw [List.orderedInsert]
    split
    · next hlt =>
      rw [filter_cons, filter_append, filter_singleton]
      by_cases htied : tied less c x = true
      · have hnone : (y :: l).filter (tied less c) = [] := by
          refine filter_eq_nil_iff.mpr fun a ha => ?_
          rw [Bool.not_eq_true]
          refine hw.not_tied_of_less (hl y (by simp)) hx hc (hl a ha) hlt ?_ htied
          rcases mem_cons.mp ha with rfl | ha
          · exact hw.irrefl a (hl a (by simp))
          · exact (pairwise_cons.mp hs).1 a ha
        rw [hnone, htied]
        rfl
      · rw [if_neg htied, Bool.eq_false_of_not_eq_true htied, cond_false, append_nil]
    · rw [cons_append, filter_cons, filter_cons,
        ih (fun a ha => hl a (.tail y ha)) (pairwise_cons.mp hs).2]

theorem stableSort_foldl_orderedInsert {xs : List α} (hw : StrictWeakOn less {a | a ∈ xs}) :
    StableSort less xs
      (xs.foldl (fun l x => l.orderedInsert (fun a b => less a b = true) x) []) := by
  -- the first part of the sequence is sorted stably, with respect to the classes of all of it
  have hpart : ∀ ys : List α, (∀ a ∈ ys, a ∈ xs) →
      StablePerm less {a | a ∈ xs} ys
        (ys.foldl (fun l x => l.orderedInsert (fun a b => less a b = true) x) []) ∧
      (ys.foldl (fun l x => l.orderedInsert (fun a b => less a b = true) x) []).Pairwise
        (NotAbove less) := by
    intro ys
    induction ys using reverseRecOn with
    | nil => exact fun _ => ⟨.refl [], .nil⟩
    | append_singleton ys x ih =>
      intro hys
      obtain ⟨hperm, hsorted⟩ := ih fun a ha => hys a (mem_append_left _ ha)
      have hx : x ∈ xs := hys x (by simp)
      have hmem : ∀ a ∈ ys.foldl (fun l x => l.orderedInsert (fun a b => less a b = true) x) [],
          a ∈ xs := fun a ha => hys a (mem_append_left _ (hperm.perm.mem_iff.mp ha))
      rw [foldl_append, foldl_cons, foldl_nil]
      exact ⟨(hperm.append (.refl [x])).trans (.orderedInsert hw hx hmem hsorted),
        sorted_orderedInsert hw hx hmem hsorted⟩
  obtain ⟨hperm, hsorted⟩ := hpart xs fun _ ha => ha
  exact ⟨hperm, hsorted⟩

end OsMaterial
