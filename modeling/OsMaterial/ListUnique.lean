import OsMaterial.ListSort

/-!
# Adjacent Duplicates

`list_unique` of `lib/kernel/list.c`, on a family of lists. The second list, if there is one, is
given by its tail.

* `list_unique_correct`: **exactly the adjacent duplicates** are removed.
-/

namespace OsMaterial

open Function (update update_of_ne update_self)
open List

variable {ι α : Type*} [DecidableEq ι] [DecidableEq α] (less : α → α → Bool)

/-- `list_remove (next)`, and `list_push_back (duplicates, next)`. -/
def moveCell (duplicates : Option α) (h : Links α) (next : α) : Outcome ListFault (Links α) :=
  (listRemove h next).bind fun r =>
    match duplicates with
    | none => .next r.1
    | some last => listPushBack r.1 last next

def uniqueLoop (tail : α) (duplicates : Option α) : ℕ → Links α → α → Outcome ListFault (Links α)
  | 0, _, _ => .blocked
  | fuel + 1, h, elem =>
    (listNext h elem).bind fun next =>
      if next = tail then .next h
      else if !less elem next && !less next elem then
        (moveCell duplicates h next).bind fun h => uniqueLoop tail duplicates fuel h elem
      else uniqueLoop tail duplicates fuel h next

def listUnique (fuel : ℕ) (h : Links α) (head tail : α) (duplicates : Option α) :
    Outcome ListFault (Links α) :=
  if listEmpty h head tail then .next h
  else (followLink (h.next head)).bind fun elem => uniqueLoop less tail duplicates fuel h elem

/-- The cells of `xs` that are tied with the cell before them, which is `prev` for the first, or
those that are not. -/
def cellsAfter (isTied : Bool) (prev : α) (xs : List α) : List α :=
  (((prev :: xs).zip xs).filter fun p => tied less p.1 p.2 == isTied).map Prod.snd

/-- The first cell of every block of tied cells. -/
def firstCells : List α → List α
  | [] => []
  | x :: xs => x :: cellsAfter less false x xs

def otherCells : List α → List α
  | [] => []
  | x :: xs => cellsAfter less true x xs

variable {less} {S : Set α} {h : Links α} {head tail : ι → α} {xs : ι → List α} {i : ι}
  {rest : List α} {prev elem : α}

omit [DecidableEq α] in
theorem cellsAfter_cons (isTied : Bool) (b : α) : cellsAfter less isTied prev (b :: rest) =
    (if tied less prev b == isTied then [b] else []) ++ cellsAfter less isTied b rest := by
  rw [cellsAfter, zip_cons_cons, filter_cons]
  split <;> rfl

omit [DecidableEq α] in
/-- A cell may be compared with any other cell of the block. -/
theorem tied_congr {b : α} (hw : StrictWeakOn less S) (hp : prev ∈ S) (he : elem ∈ S) (hb : b ∈ S)
    (htied : tied less elem prev = true) : tied less prev b = tied less elem b := by
  have hsymm : tied less prev elem = true := (Bool.and_comm ..).trans htied
  rw [Bool.eq_iff_iff]
  exact ⟨hw.tied_trans _ he _ hp _ hb htied, hw.tied_trans _ hp _ he _ hb hsymm⟩

variable {l : List α} {duplicates : Option ι}

theorem moveCell_eq {b : α} (hF : ListFamily h head tail xs)
    (hi : xs i = l ++ b :: rest) (hd : duplicates ≠ some i) :
    ∃ h' xs', moveCell (duplicates.map tail) h b = .next h' ∧ ListFamily h' head tail xs' ∧
      xs' i = l ++ rest ∧
      ∀ k ≠ i, xs' k = xs k ++ if duplicates = some k then [b] else [] := by
  have hnext := headD_cons_tail rest (tail i)
  obtain ⟨h₁, hremove, hF₁, -⟩ := hF.listRemove hi hnext
  rw [moveCell, hremove, Outcome.bind_next]
  cases duplicates with
  | none =>
    refine ⟨h₁, _, rfl, hF₁, update_self .., fun k hk => ?_⟩
    rw [update_of_ne hk, if_neg (Option.some_ne_none k).symm, append_nil]
  | some j =>
    have hj : j ≠ i := fun heq => hd (congrArg some heq)
    have hplace : update xs i (l ++ rest) j = xs j ++ [] := by rw [update_of_ne hj, append_nil]
    have hfresh : ∀ k, b ∉ listCells head tail (update xs i (l ++ rest)) k := by
      obtain ⟨p, a, ha⟩ := Links.IsList.exists_last (head i) l
      have hi' : xs i = l ++ [b] ++ rest := by rw [hi, append_assoc]; rfl
      exact (hF.cut hi' ha hnext).2.2 b (mem_singleton_self b)
    obtain ⟨h', hpush, hF', -⟩ := hF₁.listInsert hplace rfl hfresh
    refine ⟨h', _, hpush, hF', ?_, fun k hk => ?_⟩
    · rw [update_of_ne hj.symm, update_self]
    · by_cases hkj : k = j
      · rw [hkj, update_self, if_pos rfl]
      · rw [update_of_ne hkj, update_of_ne hk, if_neg fun heq => hkj (Option.some.inj heq).symm,
          append_nil]

theorem uniqueLoop_eq (hw : StrictWeakOn less S) (hd : duplicates ≠ some i) {fuel : ℕ}
    (hF : ListFamily h head tail xs) (hi : xs i = l ++ elem :: rest) (hp : prev ∈ S) (he : elem ∈ S)
    (hr : ∀ a ∈ rest, a ∈ S) (htied : tied less elem prev = true) (hf : rest.length < fuel) :
    ∃ h' xs', uniqueLoop less (tail i) (duplicates.map tail) fuel h elem = .next h' ∧
      ListFamily h' head tail xs' ∧ xs' i = l ++ elem :: cellsAfter less false prev rest ∧
      ∀ k ≠ i, xs' k =
        xs k ++ if duplicates = some k then cellsAfter less true prev rest else [] := by
  induction rest generalizing h xs l elem prev fuel with
  | nil =>
    obtain ⟨fuel, rfl⟩ := Nat.exists_add_one_eq.mpr (Nat.zero_lt_of_lt hf)
    refine ⟨h, xs, ?_, hF, hi, fun k _ => ?_⟩
    · rw [uniqueLoop, listNext_place (hi ▸ hF.isList i), Outcome.bind_next, headD_nil, if_pos rfl]
    · split <;> exact (append_nil _).symm
  | cons b rest ih =>
    obtain ⟨fuel, rfl⟩ := Nat.exists_add_one_eq.mpr (Nat.zero_lt_of_lt hf)
    obtain ⟨hb, hr⟩ := forall_mem_cons.mp hr
    have hmem : b ∈ xs i := by rw [hi]; simp
    have htail : b ≠ tail i := fun heq => (hF.isList i).sentinels.2.2 (heq ▸ hmem)
    have hi' : xs i = (l ++ [elem]) ++ b :: rest := by rw [hi, append_assoc]; rfl
    have hlen : rest.length < fuel := Nat.lt_of_succ_lt_succ hf
    have htest : (!less elem b && !less b elem) = tied less elem b := rfl
    rw [uniqueLoop, listNext_place (hi ▸ hF.isList i), Outcome.bind_next, headD_cons,
      if_neg htail, htest, cellsAfter_cons, cellsAfter_cons, tied_congr hw hp he hb htied]
    cases heb : tied less elem b with
    | true =>
      obtain ⟨h₁, xs₁, hmove, hF₁, hi₁, hk₁⟩ := moveCell_eq hF hi' hd
      obtain ⟨h', xs', hrun, hF', hi', hk'⟩ := ih hF₁ (hi₁.trans (append_assoc ..)) hb he hr
        heb hlen
      refine ⟨h', xs', ?_, hF', hi', fun k hk => ?_⟩
      · rw [if_pos rfl, hmove, Outcome.bind_next, hrun]
      · rw [hk' k hk, hk₁ k hk, append_assoc]
        split <;> rfl
    | false =>
      obtain ⟨h', xs', hrun, hF', hi', hk'⟩ := ih hF hi' hb hb hr (hw.tied_refl hb) hlen
      refine ⟨h', xs', ?_, hF', ?_, hk'⟩
      · rw [if_neg Bool.false_ne_true, hrun]
      · rw [hi', append_assoc]
        rfl

omit [DecidableEq α] in
theorem isChain_cellsAfter (hw : StrictWeakOn less S) (hp : prev ∈ S) (he : elem ∈ S)
    (hr : ∀ a ∈ rest, a ∈ S) (htied : tied less elem prev = true) :
    (elem :: cellsAfter less false prev rest).IsChain (tied less · · = false) := by
  induction rest generalizing elem prev with
  | nil => exact .singleton elem
  | cons b rest ih =>
    obtain ⟨hb, hr⟩ := forall_mem_cons.mp hr
    rw [cellsAfter_cons, tied_congr hw hp he hb htied]
    cases heb : tied less elem b with
    | true => exact ih hb he hr heb
    | false => exact isChain_cons_cons.mpr ⟨heb, ih hb hb hr (hw.tied_refl hb)⟩

omit [DecidableEq α] in
theorem cellsAfter_sublist (less : α → α → Bool) (isTied : Bool) (prev : α) (xs : List α) :
    (cellsAfter less isTied prev xs).Sublist xs := by
  have hsub : (cellsAfter less isTied prev xs).Sublist (((prev :: xs).zip xs).map Prod.snd) :=
    filter_sublist.map Prod.snd
  rwa [map_snd_zip (by simp)] at hsub

omit [DecidableEq α] in
theorem perm_cellsAfter (less : α → α → Bool) (prev : α) (xs : List α) :
    (cellsAfter less false prev xs ++ cellsAfter less true prev xs).Perm xs := by
  induction xs generalizing prev with
  | nil => exact .refl []
  | cons b xs ih =>
    rw [cellsAfter_cons, cellsAfter_cons]
    cases tied less prev b with
    | false => exact (ih b).cons b
    | true => exact perm_middle.trans ((ih b).cons b)

omit [DecidableEq α] in
/-- In a sorted sequence, tied elements are adjacent. -/
theorem pairwise_of_isChain {xs : List α} (hw : StrictWeakOn less S) (hS : ∀ a ∈ xs, a ∈ S)
    (hsorted : xs.Pairwise (NotAbove less)) (hchain : xs.IsChain (tied less · · = false)) :
    xs.Pairwise (tied less · · = false) := by
  induction xs with
  | nil => exact .nil
  | cons a xs ih =>
    obtain ⟨ha, hsorted⟩ := pairwise_cons.mp hsorted
    refine pairwise_cons.mpr ⟨fun b hb => ?_, ih (fun x hx => hS x (.tail _ hx)) hsorted
      hchain.of_cons⟩
    cases xs with
    | nil => exact absurd hb not_mem_nil
    | cons c xs =>
      have hac := (isChain_cons_cons.mp hchain).1
      rcases mem_cons.mp hb with rfl | hb
      · exact hac
      · rw [← Bool.not_eq_true] at hac ⊢
        intro hab
        have hcb := (pairwise_cons.mp hsorted).1 b hb
        have hca : NotAbove less c a := hw.notAbove_trans (hS c (by simp)) (hS b (by simp [hb]))
          (hS a (by simp)) hcb (tied_iff.mp hab).1
        exact hac (tied_iff.mpr ⟨hca, ha c mem_cons_self⟩)

/-- **Exactly the adjacent duplicates are removed**: the list `i` keeps the first cell of every
block of tied cells, and the others go to `duplicates`. -/
theorem list_unique_correct (hF : ListFamily h head tail xs) (hw : StrictWeakOn less {a | a ∈ xs i})
    {duplicates : Option ι} (hd : duplicates ≠ some i) {fuel : ℕ} (hf : (xs i).length ≤ fuel) :
    ∃ h' xs', listUnique less fuel h (head i) (tail i) (duplicates.map tail) = .next h' ∧
      ListFamily h' head tail xs' ∧ xs' i = firstCells less (xs i) ∧
      (∀ k ≠ i, xs' k = xs k ++ if duplicates = some k then otherCells less (xs i) else []) ∧
      (duplicates = none → ∀ x ∈ otherCells less (xs i), ∀ k, x ∉ listCells head tail xs' k) ∧
      (xs' i).IsChain (tied less · · = false) ∧
      ((xs i).Pairwise (NotAbove less) → (xs' i).Pairwise (tied less · · = false)) := by
  have hl := hF.isList i
  cases hxs : xs i with
  | nil =>
    refine ⟨h, xs, ?_, hF, hxs, fun k _ => ?_, fun _ x hx => ?_, hxs ▸ .nil, fun _ => hxs ▸ .nil⟩
    · rw [listUnique, listEmpty_nil (hxs ▸ hl), if_pos rfl]
    · split <;> exact (append_nil _).symm
    · cases hx
  | cons x l =>
    rw [hxs] at hw hf
    have hx : x ∈ {a | a ∈ x :: l} := mem_cons_self
    have hr : ∀ a ∈ l, a ∈ {a | a ∈ x :: l} := fun a => mem_cons_of_mem x
    have htied := hw.tied_refl hx
    obtain ⟨h', xs', hrun, hF', hi', hk'⟩ := uniqueLoop_eq (l := []) hw hd hF hxs hx hx hr htied hf
    rw [nil_append] at hi'
    have hchain := isChain_cellsAfter hw hx hx hr htied
    have hsub := (cellsAfter_sublist less false x l).cons_cons x
    refine ⟨h', xs', ?_, hF', hi', hk', fun hnone y hy k hk => ?_, hi' ▸ hchain, fun hsorted => ?_⟩
    · rw [listUnique, listEmpty_of_ne_nil hl hxs, if_neg Bool.false_ne_true, next_head hl, hxs]
      exact hrun
    · have hmem : y ∈ xs i := hxs ▸ .tail x ((cellsAfter_sublist less true x l).subset hy)
      rcases eq_or_ne k i with rfl | hne
      · have hnodup := ((perm_cellsAfter less x l).cons x).nodup_iff.mpr
          (hxs ▸ hl.spine.nodup.of_append_left.of_cons)
        rw [← cons_append] at hnodup
        rcases mem_listCells.mp hk with rfl | hk | rfl
        · exact hl.sentinels.2.1 hmem
        · exact (nodup_append.mp hnodup).2.2 y (hi' ▸ hk) y hy rfl
        · exact hl.sentinels.2.2 hmem
      · rw [listCells, hk' k hne, hnone, if_neg (Option.some_ne_none k).symm, append_nil] at hk
        exact hF.disjoint i k hne.symm y (mem_listCells.mpr (.inr (.inl hmem))) hk
    · rw [hi']
      exact pairwise_of_isChain hw (fun a ha => hsub.subset ha) (hsorted.sublist hsub) hchain

/-- Two equal cells, of which one stays. -/
theorem list_unique_correct_oneTwo :
    ∃ h', listUnique (fun a b => decide (a / 3 < b / 3)) 2 oneTwo 0 3 none = .next h' ∧
      h'.IsList 0 3 [1] := by
  obtain ⟨h', xs', hrun, hF, hi, -⟩ := list_unique_correct oneTwo_family
    (strictWeakOn_key (· / 3) _) (Option.some_ne_none ()).symm le_rfl
  have hl := hF.isList ()
  rw [hi] at hl
  exact ⟨h', hrun, hl⟩

end OsMaterial
