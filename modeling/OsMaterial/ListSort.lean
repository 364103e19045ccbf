import OsMaterial.ListFamily
import OsMaterial.StableSort

/-!
# Sorting Kernel Lists

`list_sort` and `list_insert_ordered` of `lib/kernel/list.c`: a natural merge sort that moves single
cells (`inplaceMerge`). A loop that does not end within `fuel` tests blocks. In a list `l₁ ++ l₂`
the cell after `l₁` is `l₂.headD tail`.

* `list_sort_stable`: **`list_sort` is a stable sort** and ends.
* `insert_ordered_agrees`: **ordered insertion agrees with sorting**.
-/

namespace OsMaterial

open List

variable {α : Type*}

/-! ### The functions -/

section Functions

variable [DecidableEq α] (less : α → α → Bool)

def isSortedLoop (h : Links α) (b : α) : ℕ → α → Outcome ListFault Bool
  | 0, _ => .blocked
  | fuel + 1, a =>
    (listNext h a).bind fun a =>
      if a = b then
        .next true
      else
        (listPrev h a).bind fun prev =>
          if less a prev then .next false else isSortedLoop h b fuel a

def isSorted (fuel : ℕ) (h : Links α) (a b : α) : Outcome ListFault Bool :=
  if a ≠ b then isSortedLoop less h b fuel a else .next true

def findEndOfRunLoop (h : Links α) (b : α) : ℕ → α → Outcome ListFault α
  | 0, _ => .blocked
  | fuel + 1, a =>
    (listNext h a).bind fun a =>
      if a = b then
        .next a
      else
        (listPrev h a).bind fun prev =>
          if less a prev then .next a else findEndOfRunLoop h b fuel a

def findEndOfRun (fuel : ℕ) (h : Links α) (a b : α) : Outcome ListFault α :=
  if a ≠ b then findEndOfRunLoop less h b fuel a else .fault .emptyRange

def mergeLoop (b1 : α) : ℕ → Links α → α → α → Outcome ListFault (Links α)
  | 0, _, _, _ => .blocked
  | fuel + 1, h, a0, a1b0 =>
    if a0 ≠ a1b0 ∧ a1b0 ≠ b1 then
      if less a1b0 a0 = false then
        (listNext h a0).bind fun a0 => mergeLoop b1 fuel h a0 a1b0
      else
        (listNext h a1b0).bind fun a1b0 =>
          (listPrev h a1b0).bind fun first =>
            (listSplice h a0 first a1b0).bind fun h => mergeLoop b1 fuel h a0 a1b0
    else
      .next h

def inplaceMerge (fuel : ℕ) (h : Links α) (a0 a1b0 b1 : α) : Outcome ListFault (Links α) :=
  (isSorted less fuel h a0 a1b0).bind fun sorted =>
    if sorted then
      (isSorted less fuel h a1b0 b1).bind fun sorted =>
        if sorted then mergeLoop less b1 fuel h a0 a1b0 else .fault .notSorted
    else
      .fault .notSorted

def sortPass (fuel : ℕ) (tail : α) : ℕ → Links α → α → ℕ → Outcome ListFault (Links α × ℕ)
  | 0, _, _, _ => .blocked
  | n + 1, h, a0, outputRunCnt =>
    if a0 = tail then
      .next (h, outputRunCnt)
    else
      (findEndOfRun less fuel h a0 tail).bind fun a1b0 =>
        if a1b0 = tail then
          .next (h, outputRunCnt + 1)
        else
          (findEndOfRun less fuel h a1b0 tail).bind fun b1 =>
            (inplaceMerge less fuel h a0 a1b0 b1).bind fun h =>
              sortPass fuel tail n h b1 (outputRunCnt + 1)

def sortLoop (fuel : ℕ) (head tail : α) : ℕ → Links α → Outcome ListFault (Links α)
  | 0, _ => .blocked
  | n + 1, h =>
    (followLink (h.next head)).bind fun a0 =>
      (sortPass less fuel tail fuel h a0 0).bind fun r =>
        if 1 < r.2 then sortLoop fuel head tail n r.1 else .next r.1

def listSort (fuel : ℕ) (h : Links α) (head tail : α) : Outcome ListFault (Links α) :=
  (sortLoop less fuel head tail fuel h).bind fun h =>
    (followLink (h.next head)).bind fun a =>
      (isSorted less fuel h a tail).bind fun sorted =>
        if sorted then .next h else .fault .notSorted

def insertOrderedLoop (h : Links α) (tail elem : α) : ℕ → α → Outcome ListFault α
  | 0, _ => .blocked
  | fuel + 1, e =>
    if e = tail then
      .next e
    else if less elem e then
      .next e
    else
      (listNext h e).bind fun e => insertOrderedLoop h tail elem fuel e

def listInsertOrdered (fuel : ℕ) (h : Links α) (head tail elem : α) :
    Outcome ListFault (Links α) :=
  (followLink (h.next head)).bind fun e =>
    (insertOrderedLoop less h tail elem fuel e).bind fun e => listInsert h e elem

end Functions

/-! ### Cells by their place -/

section Places

variable {h : Links α} {head tail a : α} {l₁ l₂ l₃ : List α}

theorem headD_cons_tail (l : List α) (tail : α) :
    l ++ [tail] = l.headD tail :: (l ++ [tail]).tail := by
  cases l with
  | nil => rfl
  | cons b l => rfl

theorem next_head (hl : h.IsList head tail l₁) : h.next head = some (l₁.headD tail) :=
  (linked_of_place hl (nil_append [head]).symm (headD_cons_tail l₁ tail)).1

theorem linked_place (hl : h.IsList head tail (l₁ ++ a :: l₂)) : h.Linked a (l₂.headD tail) := by
  have hl' : h.IsList head tail (l₁ ++ [a] ++ l₂) := by rwa [append_assoc]
  exact linked_of_place hl' (cons_append ..).symm (headD_cons_tail l₂ tail)

theorem listNext_place (hl : h.IsList head tail (l₁ ++ a :: l₂)) :
    listNext h a = .next (l₂.headD tail) := by
  rw [listNext, if_pos (.inr (isInterior_of_mem hl (by simp))), (linked_place hl).1, followLink]

theorem listPrev_place (hl : h.IsList head tail (l₁ ++ a :: l₂)) :
    listPrev h (l₂.headD tail) = .next a := by
  have hprev := (linked_place hl).2
  rw [listPrev, if_pos (interior_or_tail hprev), hprev, followLink]

theorem ne_later (hl : h.IsList head tail (l₁ ++ a :: (l₂ ++ l₃))) : a ≠ l₃.headD tail := by
  have hn := hl.spine.nodup
  rw [cons_append, append_assoc, cons_append, append_assoc, headD_cons_tail l₃ tail] at hn
  have hn' := (nodup_append.mp (nodup_cons.mp hn).2).2.1
  intro heq
  exact (nodup_cons.mp hn').1 (mem_append_right _ (by rw [heq]; exact mem_cons_self))

end Places

/-! ### Runs -/

open Outcome

variable {fuel : ℕ}

section Runs

variable [DecidableEq α] {less : α → α → Bool} {h : Links α} {head tail a : α} {l₁ l₂ l₃ : List α}

theorem isSortedLoop_eq (hl : h.IsList head tail (l₁ ++ a :: (l₂ ++ l₃)))
    (hchain : (a :: l₂).IsChain (NotAbove less)) (hf : l₂.length < fuel) :
    isSortedLoop less h (l₃.headD tail) fuel a = .next true := by
  induction l₂ generalizing l₁ a fuel with
  | nil =>
    obtain ⟨fuel, rfl⟩ := Nat.exists_add_one_eq.mpr (Nat.zero_lt_of_lt hf)
    rw [isSortedLoop, listNext_place hl, bind_next, nil_append, if_pos rfl]
  | cons b l₂ ih =>
    obtain ⟨fuel, rfl⟩ := Nat.exists_add_one_eq.mpr (Nat.zero_lt_of_lt hf)
    obtain ⟨hab, hrest⟩ := isChain_cons_cons.mp hchain
    have hl' : h.IsList head tail ((l₁ ++ [a]) ++ b :: (l₂ ++ l₃)) := by rwa [append_assoc]
    have hprev : listPrev h b = .next a := listPrev_place hl
    rw [isSortedLoop, listNext_place hl, bind_next, cons_append, headD_cons,
      if_neg (ne_later hl'), hprev, bind_next, hab, if_neg Bool.false_ne_true]
    exact ih hl' hrest (Nat.lt_of_succ_lt_succ hf)

theorem isSorted_eq (fuel : ℕ) (hl : h.IsList head tail (l₁ ++ (l₂ ++ l₃)))
    (hchain : l₂.IsChain (NotAbove less)) (hf : l₂.length ≤ fuel) :
    isSorted less fuel h ((l₂ ++ l₃).headD tail) (l₃.headD tail) = .next true := by
  cases l₂ with
  | nil => rw [isSorted, nil_append, if_neg (not_not.mpr rfl)]
  | cons a l₂ =>
    rw [isSorted, cons_append, headD_cons, if_pos (ne_later hl)]
    exact isSortedLoop_eq hl hchain hf

theorem findEndOfRunLoop_eq (less : α → α → Bool) (hl : h.IsList head tail (l₁ ++ a :: l₂))
    (hf : l₂.length < fuel) :
    ∃ run rest, l₂ = run ++ rest ∧ (a :: run).IsChain (NotAbove less) ∧
      Breaks less (a :: run) rest ∧
      findEndOfRunLoop less h tail fuel a = .next (rest.headD tail) := by
  induction l₂ generalizing l₁ a fuel with
  | nil =>
    obtain ⟨fuel, rfl⟩ := Nat.exists_add_one_eq.mpr (Nat.zero_lt_of_lt hf)
    refine ⟨[], [], rfl, .singleton a, nofun, ?_⟩
    rw [findEndOfRunLoop, listNext_place hl, bind_next, headD_nil, if_pos rfl]
  | cons b l₂ ih =>
    obtain ⟨fuel, rfl⟩ := Nat.exists_add_one_eq.mpr (Nat.zero_lt_of_lt hf)
    have hl' : h.IsList head tail ((l₁ ++ [a]) ++ b :: l₂) := by rwa [append_assoc]
    have hb : b ≠ tail := by
      rw [← append_nil l₂] at hl'
      exact ne_later hl'
    have hprev : listPrev h b = .next a := listPrev_place hl
    have hstep : findEndOfRunLoop less h tail (fuel + 1) a =
        if less b a then .next b else findEndOfRunLoop less h tail fuel b := by
      rw [findEndOfRunLoop, listNext_place hl, bind_next, headD_cons, if_neg hb, hprev, bind_next]
    cases hlt : less b a with
    | true =>
      refine ⟨[], b :: l₂, rfl, .singleton a, ?_, ?_⟩
      · intro x hx y hy
        cases hx
        cases hy
        exact hlt
      · rw [hstep, hlt, if_pos rfl, headD_cons]
    | false =>
      obtain ⟨run, rest, rfl, hchain, hbreak, heq⟩ := ih hl' (Nat.lt_of_succ_lt_succ hf)
      refine ⟨b :: run, rest, rfl, isChain_cons_cons.mpr ⟨hlt, hchain⟩, ?_, ?_⟩
      · intro x hx
        exact hbreak x hx
      · rw [hstep, hlt, if_neg Bool.false_ne_true, heq]

theorem findEndOfRun_eq (less : α → α → Bool) (fuel : ℕ) (hl : h.IsList head tail (l₁ ++ l₂))
    (hne : l₂ ≠ []) (hf : l₂.length ≤ fuel) :
    ∃ run rest, l₂ = run ++ rest ∧ run ≠ [] ∧ run.IsChain (NotAbove less) ∧
      Breaks less run rest ∧
      findEndOfRun less fuel h (l₂.headD tail) tail = .next (rest.headD tail) := by
  cases l₂ with
  | nil => exact absurd rfl hne
  | cons a l₂ =>
    obtain ⟨run, rest, rfl, hchain, hbreak, heq⟩ := findEndOfRunLoop_eq less hl hf
    have ha : a ≠ tail := by
      have hl' : h.IsList head tail (l₁ ++ a :: (run ++ rest ++ [])) := by rwa [append_nil]
      exact ne_later hl'
    refine ⟨a :: run, rest, rfl, cons_ne_nil a run, hchain, hbreak, ?_⟩
    rw [findEndOfRun, headD_cons, if_pos ha, heq]

end Runs

/-! ### Merging in place -/

section Merging

variable {less : α → α → Bool} {h : Links α} {head tail a b : α} {l₁ l₂ xs ys : List α}

structure Relinked (h h' : Links α) (head tail : α) (xs ys : List α) : Prop where
  isList : h'.IsList head tail ys
  perm : ys.Perm xs
  frame : ∀ x, x ∉ head :: xs ++ [tail] → h'.next x = h.next x ∧ h'.prev x = h.prev x

theorem Relinked.refl (hl : h.IsList head tail xs) : Relinked h h head tail xs xs :=
  ⟨hl, .rfl, fun _ _ => ⟨rfl, rfl⟩⟩

theorem not_mem_cells (hperm : ys.Perm xs) {x : α} (hx : x ∉ head :: xs ++ [tail]) :
    x ∉ head :: ys ++ [tail] := by
  simp only [cons_append, mem_cons, mem_append] at hx ⊢
  rwa [hperm.mem_iff]

theorem Relinked.trans {h' h'' : Links α} {zs : List α} (h₁ : Relinked h h' head tail xs ys)
    (h₂ : Relinked h' h'' head tail ys zs) : Relinked h h'' head tail xs zs := by
  refine ⟨h₂.isList, h₂.perm.trans h₁.perm, fun x hx => ?_⟩
  obtain ⟨hnext, hprev⟩ := h₂.frame x (not_mem_cells h₁.perm hx)
  obtain ⟨hnext', hprev'⟩ := h₁.frame x hx
  exact ⟨hnext.trans hnext', hprev.trans hprev'⟩

theorem Relinked.unique {h₁ h₂ : Links α} (hr₁ : Relinked h h₁ head tail xs ys)
    (hr₂ : Relinked h h₂ head tail xs ys) : h₁ = h₂ := by
  have hnext : ∀ x, h₁.next x = h₂.next x := by
    intro x
    by_cases hx : x ∈ head :: ys ++ [tail]
    · simp only [cons_append, mem_cons, mem_append, not_mem_nil, or_false] at hx
      rcases hx with rfl | hx | rfl
      · rw [next_head hr₁.isList, next_head hr₂.isList]
      · obtain ⟨l, r, rfl⟩ := append_of_mem hx
        rw [(linked_place hr₁.isList).1, (linked_place hr₂.isList).1]
      · rw [hr₁.isList.tail_next, hr₂.isList.tail_next]
    · rw [(hr₁.frame x (not_mem_cells hr₁.perm.symm hx)).1,
        (hr₂.frame x (not_mem_cells hr₂.perm.symm hx)).1]
  have hprev : ∀ x, h₁.prev x = h₂.prev x := by
    intro x
    by_cases hx : x ∈ head :: ys ++ [tail]
    · rw [cons_append] at hx
      rcases mem_cons.mp hx with rfl | hx
      · rw [hr₁.isList.head_prev, hr₂.isList.head_prev]
      · obtain ⟨l, r, hsplit⟩ := append_of_mem hx
        obtain ⟨p, a, ha⟩ := Links.IsList.exists_last head l
        have hcells : head :: ys ++ [tail] = p ++ a :: x :: r := by
          rw [cons_append, hsplit, ← cons_append, ha, append_assoc, singleton_append]
        have hlinked : ∀ {h' : Links α}, h'.IsList head tail ys → h'.Linked a x := by
          intro h' hl'
          have hs := hl'.spine
          rw [hcells] at hs
          exact (Links.Spine.split.mp hs).2.1
        rw [(hlinked hr₁.isList).2, (hlinked hr₂.isList).2]
    · rw [(hr₁.frame x (not_mem_cells hr₁.perm.symm hx)).2,
        (hr₂.frame x (not_mem_cells hr₂.perm.symm hx)).2]
  exact Links.ext (funext hnext) (funext hprev)

variable [DecidableEq α]

theorem listSplice_cell (l₂ : List α) (hl : h.IsList head tail (l₁ ++ a :: (xs ++ b :: l₂))) :
    ∃ h', listSplice h a b (l₂.headD tail) = .next h' ∧
      Relinked h h' head tail (l₁ ++ a :: (xs ++ b :: l₂)) (l₁ ++ b :: a :: (xs ++ l₂)) := by
  have hF : ListFamily h (fun _ : Unit => head) (fun _ => tail)
      (fun _ => l₁ ++ a :: (xs ++ b :: l₂)) := ⟨fun _ => hl, fun _ _ hij => absurd rfl hij⟩
  have hi : l₁ ++ a :: (xs ++ b :: l₂) = (l₁ ++ a :: xs) ++ [b] ++ l₂ := by simp
  have hj : (l₁ ++ a :: xs) ++ l₂ = l₁ ++ a :: (xs ++ l₂) := by simp
  obtain ⟨h', hsplice, hF', -, hframe⟩ := hF.listSplice (i := ()) (j := ()) hi rfl
    (headD_cons_tail l₂ tail) ((Function.update_self ..).trans hj) (cons_append ..)
  have hl' := hF'.isList ()
  rw [Function.update_self, append_assoc, singleton_append] at hl'
  have hperm : (l₁ ++ b :: a :: (xs ++ l₂)).Perm (l₁ ++ a :: (xs ++ b :: l₂)) := by
    refine List.Perm.append_left l₁ ((List.Perm.swap a b _).trans (List.Perm.cons a ?_))
    exact perm_middle.symm
  refine ⟨h', hsplice, hl', hperm, fun x hx => hframe x fun j _ => ⟨hx, ?_⟩⟩
  obtain rfl : j = () := rfl
  rw [listCells_update_self, append_assoc l₁ [b], singleton_append]
  exact not_mem_cells hperm hx

/-- **The loop of `inplace_merge`** merges two adjacent parts of a list. -/
theorem mergeLoop_eq (hl : h.IsList head tail (l₁ ++ (xs ++ (ys ++ l₂))))
    (hf : xs.length + ys.length < fuel) :
    ∃ h', mergeLoop less (l₂.headD tail) fuel h ((xs ++ (ys ++ l₂)).headD tail)
        ((ys ++ l₂).headD tail) = .next h' ∧
      Relinked h h' head tail (l₁ ++ (xs ++ (ys ++ l₂)))
        (l₁ ++ (xs.merge ys (notAbove less) ++ l₂)) := by
  induction fuel generalizing h l₁ xs ys with
  | zero => exact absurd hf (Nat.not_lt_zero _)
  | succ fuel ih =>
    cases xs with
    | nil =>
      refine ⟨h, ?_, ?_⟩
      · rw [mergeLoop, nil_append, if_neg fun hne => hne.1 rfl]
      · rw [nil_merge]
        exact .refl hl
    | cons a xs =>
      cases ys with
      | nil =>
        refine ⟨h, ?_, ?_⟩
        · rw [mergeLoop, nil_append, if_neg fun hne => hne.2 rfl]
        · rw [merge_right]
          exact .refl hl
      | cons b ys =>
        have hab : a ≠ b := ne_later hl
        have hlb : h.IsList head tail ((l₁ ++ a :: xs) ++ b :: (ys ++ l₂)) := by rwa [append_assoc]
        have htest : a ≠ b ∧ b ≠ l₂.headD tail := ⟨hab, ne_later hlb⟩
        simp only [length_cons] at hf
        cases hlt : less b a with
        | false =>
          have hl' : h.IsList head tail ((l₁ ++ [a]) ++ (xs ++ (b :: ys ++ l₂))) := by
            rwa [append_assoc]
          obtain ⟨h', heq, hrel⟩ := ih hl' (by simp; omega)
          refine ⟨h', ?_, ?_⟩
          · rw [mergeLoop, cons_append, cons_append, headD_cons, headD_cons, if_pos htest,
              if_pos hlt, listNext_place hl, bind_next]
            exact heq
          · rw [cons_merge_cons_pos _ _ _ (by rw [notAbove, hlt]; rfl)]
            simpa only [append_assoc, cons_append, nil_append] using hrel
        | true =>
          obtain ⟨h₁, hsplice, hrel₁⟩ := listSplice_cell (ys ++ l₂) hl
          have hl' : h₁.IsList head tail ((l₁ ++ [b]) ++ (a :: xs ++ (ys ++ l₂))) := by
            rw [append_assoc]
            exact hrel₁.isList
          obtain ⟨h', heq, hrel⟩ := ih hl' (by simp; omega)
          refine ⟨h', ?_, ?_⟩
          · have hne : ¬ less b a = false := by rwa [Bool.not_eq_false]
            rw [mergeLoop, cons_append, cons_append, headD_cons, headD_cons, if_pos htest,
              if_neg hne, listNext_place hlb, bind_next, listPrev_place hlb, bind_next, hsplice,
              bind_next]
            exact heq
          · rw [cons_merge_cons_neg _ _ _ (by
              rw [notAbove, hlt]
              exact Bool.false_ne_true)]
            refine hrel₁.trans ?_
            simpa only [append_assoc, cons_append, nil_append] using hrel

theorem inplaceMerge_eq (fuel : ℕ) (hl : h.IsList head tail (l₁ ++ (xs ++ (ys ++ l₂))))
    (hxs : xs.IsChain (NotAbove less)) (hys : ys.IsChain (NotAbove less))
    (hf : xs.length + ys.length < fuel) :
    ∃ h', inplaceMerge less fuel h ((xs ++ (ys ++ l₂)).headD tail) ((ys ++ l₂).headD tail)
        (l₂.headD tail) = .next h' ∧
      Relinked h h' head tail (l₁ ++ (xs ++ (ys ++ l₂)))
        (l₁ ++ (xs.merge ys (notAbove less) ++ l₂)) := by
  have hl' : h.IsList head tail ((l₁ ++ xs) ++ (ys ++ l₂)) := by rwa [append_assoc]
  rw [inplaceMerge, isSorted_eq fuel hl hxs (by omega), bind_next, if_pos rfl,
    isSorted_eq fuel hl' hys (by omega), bind_next, if_pos rfl]
  exact mergeLoop_eq hl hf

end Merging

/-! ### Passes -/

section Passes

variable [DecidableEq α] {less : α → α → Bool} {h : Links α} {head tail : α} {xs ys : List α}
  {S : Set α}

theorem sortPass_eq (less : α → α → Bool) (fuel : ℕ) {n : ℕ} (cnt : ℕ) {done : List α}
    (hl : h.IsList head tail (done ++ xs)) (hn : xs.length < n) (hf : xs.length < fuel) :
    ∃ h' out k, sortPass less fuel tail n h (xs.headD tail) cnt = .next (h', cnt + k) ∧
      MergePass less xs out k ∧ Relinked h h' head tail (done ++ xs) (done ++ out) := by
  induction n generalizing h xs done cnt with
  | zero => exact absurd hn (Nat.not_lt_zero _)
  | succ n ih =>
    rw [sortPass]
    by_cases hnil : xs = []
    · subst hnil
      exact ⟨h, [], 0, if_pos rfl, .nil, .refl hl⟩
    · obtain ⟨run, rest, rfl, hne, hrun, hbreak, hfind⟩ := findEndOfRun_eq less fuel hl hnil hf.le
      have hlater : ∀ {l r : List α}, h.IsList head tail (l ++ r) → r ≠ [] →
          r.headD tail ≠ tail := by
        intro l r hr hrne
        cases r with
        | nil => exact absurd rfl hrne
        | cons a r =>
          rw [← append_nil r] at hr
          exact ne_later hr
      rw [if_neg (hlater hl hnil), hfind, bind_next]
      by_cases hrest : rest = []
      · subst hrest
        refine ⟨h, run, 1, if_pos rfl, ?_, ?_⟩
        · rw [append_nil]
          exact .last hne hrun
        · rw [append_nil] at hl ⊢
          exact .refl hl
      · have hl₁ : h.IsList head tail ((done ++ run) ++ rest) := by rwa [append_assoc]
        simp only [length_append] at hn hf
        obtain ⟨run₂, rest₂, rfl, hne₂, hrun₂, hbreak₂, hfind₂⟩ :=
          findEndOfRun_eq less fuel hl₁ hrest (by omega)
        simp only [length_append] at hn hf
        obtain ⟨h₁, hmerge, hrel₁⟩ := inplaceMerge_eq fuel hl hrun hrun₂ (by omega)
        rw [if_neg (hlater hl₁ hrest), hfind₂, bind_next, hmerge, bind_next]
        have hl₂ : h₁.IsList head tail
            ((done ++ run.merge run₂ (notAbove less)) ++ rest₂) := by
          rw [append_assoc]
          exact hrel₁.isList
        have hpos := length_pos_of_ne_nil hne
        obtain ⟨h', out, k, hpass, hmp, hrel⟩ := ih (cnt + 1) hl₂ (by omega) (by omega)
        refine ⟨h', run.merge run₂ (notAbove less) ++ out, k + 1, ?_, ?_, ?_⟩
        · rw [hpass, Nat.add_assoc, Nat.add_comm 1 k]
        · have hbreak' : Breaks less run run₂ := fun x hx y hy =>
            hbreak x hx y (by rwa [head?_append_of_ne_nil _ hne₂])
          exact .merge hne hne₂ hrun hrun₂ hbreak' hbreak₂ hmp
        · rw [append_assoc, append_assoc] at hrel
          exact hrel₁.trans hrel

theorem sortLoop_eq {n : ℕ} (hw : StrictWeakOn less S) (hS : ∀ a ∈ xs, a ∈ S)
    (hl : h.IsList head tail xs) (hn : runs less xs ≤ n) (hpos : 0 < n) (hf : xs.length < fuel) :
    ∃ h' ys, sortLoop less fuel head tail n h = .next h' ∧ Relinked h h' head tail xs ys ∧
      StablePerm less S xs ys ∧ ys.IsChain (NotAbove less) := by
  induction n generalizing h xs with
  | zero => exact absurd hpos (Nat.lt_irrefl 0)
  | succ n ih =>
    have hl' : h.IsList head tail ([] ++ xs) := hl
    obtain ⟨h₁, out, k, hpass, hmp, hrel⟩ := sortPass_eq less fuel 0 hl' hf hf
    have hstable := hmp.stablePerm hw hS
    have hruns := hmp.runs_le hw hS
    have hhalf := hmp.two_mul_le
    rw [Nat.zero_add] at hpass
    rw [sortLoop, next_head hl, followLink, bind_next, hpass, bind_next]
    by_cases hk : 1 < k
    · rw [if_pos hk]
      obtain ⟨h', ys, hloop, hrel', hstable', hsorted⟩ := ih
        (fun a ha => hS a (hstable.perm.mem_iff.mp ha)) hrel.isList (by omega) (by omega)
        (by rwa [hstable.perm.length_eq])
      exact ⟨h', ys, hloop, hrel.trans hrel', hstable.trans hstable', hsorted⟩
    · rw [if_neg hk]
      exact ⟨h₁, out, rfl, hrel, hstable, isChain_of_runs (by omega)⟩

theorem listSort_eq (hw : StrictWeakOn less {a | a ∈ xs}) (hl : h.IsList head tail xs)
    (hf : xs.length < fuel) :
    ∃ h' ys, listSort less fuel h head tail = .next h' ∧ Relinked h h' head tail xs ys ∧
      StableSort less xs ys := by
  obtain ⟨h', ys, hloop, hrel, hstable, hchain⟩ := sortLoop_eq (n := fuel) hw (fun _ ha => ha) hl
    ((runs_le_length xs).trans hf.le) (Nat.zero_lt_of_lt hf) hf
  refine ⟨h', ys, ?_, hrel, hstable, ?_⟩
  · have hl' : h'.IsList head tail ([] ++ (ys ++ [])) := by
      rw [nil_append, append_nil]
      exact hrel.isList
    have hsorted := isSorted_eq fuel hl' hchain (by
      rw [hstable.perm.length_eq]
      exact hf.le)
    rw [append_nil, headD_nil] at hsorted
    rw [listSort, hloop, bind_next, next_head hrel.isList, followLink, bind_next,
      hsorted, bind_next, if_pos rfl]
  · exact hw.sorted_of_isChain (fun a ha => hstable.perm.mem_iff.mp ha) hchain

theorem listSort_spec (hw : StrictWeakOn less {a | a ∈ xs}) (hl : h.IsList head tail xs) :
    ∃ h' ys, (∀ fuel, xs.length < fuel → listSort less fuel h head tail = .next h') ∧
      Relinked h h' head tail xs ys ∧ StableSort less xs ys := by
  obtain ⟨h', ys, -, hrel, hsort⟩ := listSort_eq hw hl (Nat.lt_succ_self xs.length)
  refine ⟨h', ys, fun fuel hf => ?_, hrel, hsort⟩
  obtain ⟨h₁, zs, heq, hrel₁, hsort₁⟩ := listSort_eq hw hl hf
  obtain rfl : zs = ys := hsort₁.unique hw hsort
  rw [heq, hrel₁.unique hrel]

/-- **`list_sort` is a stable sort**, and cells outside the list are as they were. -/
theorem list_sort_stable (hl : h.IsList head tail xs) (hw : StrictWeakOn less {a | a ∈ xs}) :
    ∃ h' ys, (∀ fuel, xs.length < fuel → listSort less fuel h head tail = .next h') ∧
      h'.IsList head tail ys ∧ ys.Perm xs ∧ ys.Pairwise (fun a b => less b a = false) ∧
      (∀ c ∈ xs, ys.filter (tied less c) = xs.filter (tied less c)) ∧
      ∀ x, x ∉ head :: xs ++ [tail] → h'.next x = h.next x ∧ h'.prev x = h.prev x := by
  obtain ⟨h', ys, hsort, hrel, hstable⟩ := listSort_spec hw hl
  exact ⟨h', ys, hsort, hrel.isList, hrel.perm, hstable.sorted, hstable.filter_tied, hrel.frame⟩

/-- Two cells, sorted by parity. -/
theorem list_sort_stable_oneTwo :
    ∃ h' ys, (∀ fuel, [1, 2].length < fuel →
        listSort (fun a b => decide (a % 2 < b % 2)) fuel oneTwo 0 3 = .next h') ∧
      h'.IsList 0 3 ys ∧ ys.Perm [1, 2] ∧
      ys.Pairwise (fun a b => decide (b % 2 < a % 2) = false) ∧
      (∀ c ∈ [1, 2], ys.filter (tied (fun a b => decide (a % 2 < b % 2)) c) =
        [1, 2].filter (tied (fun a b => decide (a % 2 < b % 2)) c)) ∧
      ∀ x, x ∉ 0 :: [1, 2] ++ [3] → h'.next x = oneTwo.next x ∧ h'.prev x = oneTwo.prev x :=
  list_sort_stable oneTwo_isList (strictWeakOn_key (· % 2) _)

end Passes

/-! ### Ordered insertion -/

section Insertion

variable [DecidableEq α] {less : α → α → Bool} {h : Links α} {head tail e : α} {l xs : List α}

theorem insertOrderedLoop_eq (less : α → α → Bool) (e : α) {l₁ : List α}
    (hl : h.IsList head tail (l₁ ++ l)) :
    ∃ m₁ m₂, l = m₁ ++ m₂ ∧
      l.orderedInsert (fun a b => less a b = true) e = m₁ ++ e :: m₂ ∧
      ∀ fuel, l.length < fuel →
        insertOrderedLoop less h tail e fuel (l.headD tail) = .next (m₂.headD tail) := by
  induction l generalizing l₁ with
  | nil =>
    refine ⟨[], [], rfl, rfl, fun fuel hf => ?_⟩
    obtain ⟨fuel, rfl⟩ := Nat.exists_add_one_eq.mpr (Nat.zero_lt_of_lt hf)
    rw [insertOrderedLoop, headD_nil, if_pos rfl]
  | cons a l ih =>
    have hne : a ≠ tail := by
      have hl' : h.IsList head tail (l₁ ++ a :: (l ++ [])) := by rwa [append_nil]
      exact ne_later hl'
    cases hlt : less e a with
    | true =>
      refine ⟨[], a :: l, rfl, ?_, fun fuel hf => ?_⟩
      · rw [orderedInsert, if_pos hlt, nil_append]
      · obtain ⟨fuel, rfl⟩ := Nat.exists_add_one_eq.mpr (Nat.zero_lt_of_lt hf)
        rw [insertOrderedLoop, headD_cons, if_neg hne, if_pos hlt]
    | false =>
      have hl' : h.IsList head tail ((l₁ ++ [a]) ++ l) := by rwa [append_assoc]
      have hnot : ¬ less e a = true := by rwa [Bool.not_eq_true]
      obtain ⟨m₁, m₂, rfl, hins, hloop⟩ := ih hl'
      refine ⟨a :: m₁, m₂, rfl, ?_, fun fuel hf => ?_⟩
      · rw [orderedInsert, if_neg hnot, hins, cons_append]
      · obtain ⟨fuel, rfl⟩ := Nat.exists_add_one_eq.mpr (Nat.zero_lt_of_lt hf)
        rw [insertOrderedLoop, headD_cons, if_neg hne, if_neg hnot, listNext_place hl, bind_next]
        exact hloop fuel (Nat.lt_of_succ_lt_succ hf)

theorem listInsert_place {l₁ l₂ : List α} (hl : h.IsList head tail (l₁ ++ l₂))
    (he : e ∉ head :: (l₁ ++ l₂) ++ [tail]) :
    ∃ h', listInsert h (l₂.headD tail) e = .next h' ∧ h'.IsList head tail (l₁ ++ e :: l₂) := by
  have hF : ListFamily h (fun _ : Unit => head) (fun _ => tail) (fun _ => l₁ ++ l₂) :=
    ⟨fun _ => hl, fun _ _ hij => absurd rfl hij⟩
  obtain ⟨h', hins, hF', -⟩ := hF.listInsert (i := ()) rfl (headD_cons_tail l₂ tail) fun _ => he
  have hl' := hF'.isList ()
  exact ⟨h', hins, hl'⟩

theorem listInsertOrdered_eq (less : α → α → Bool) (hl : h.IsList head tail l)
    (he : e ∉ head :: l ++ [tail]) :
    ∃ h', (∀ fuel, l.length < fuel → listInsertOrdered less fuel h head tail e = .next h') ∧
      h'.IsList head tail (l.orderedInsert (fun a b => less a b = true) e) := by
  have hl' : h.IsList head tail ([] ++ l) := hl
  obtain ⟨m₁, m₂, rfl, hins, hloop⟩ := insertOrderedLoop_eq less e hl'
  obtain ⟨h', hinsert, hlist⟩ := listInsert_place hl he
  refine ⟨h', fun fuel hf => ?_, hins ▸ hlist⟩
  rw [listInsertOrdered, next_head hl, followLink, bind_next, hloop fuel hf, bind_next, hinsert]

def forEachCell (f : Links α → α → Outcome ListFault (Links α)) :
    Links α → List α → Outcome ListFault (Links α)
  | h, [] => .next h
  | h, x :: xs => (f h x).bind fun h => forEachCell f h xs

omit [DecidableEq α] in
theorem forEachCell_eq (f : ℕ → Links α → α → Outcome ListFault (Links α))
    (place : List α → α → List α) (hperm : ∀ l x, (place l x).Perm (x :: l))
    (hstep : ∀ {h : Links α} {l : List α} {x : α}, h.IsList head tail l → x ∉ head :: l ++ [tail] →
      ∃ h', (∀ fuel, l.length < fuel → f fuel h x = .next h') ∧ h'.IsList head tail (place l x))
    (hl : h.IsList head tail l) (hxs : ∀ x ∈ xs, x ∉ head :: l ++ [tail]) (hnodup : xs.Nodup) :
    ∃ h', (∀ fuel, l.length + xs.length < fuel → forEachCell (f fuel) h xs = .next h') ∧
      h'.IsList head tail (xs.foldl place l) := by
  induction xs generalizing h l with
  | nil => exact ⟨h, fun _ _ => rfl, hl⟩
  | cons x xs ih =>
    obtain ⟨hx, hnodup'⟩ := nodup_cons.mp hnodup
    obtain ⟨h₁, hf, hl₁⟩ := hstep hl (hxs x mem_cons_self)
    have hfresh : ∀ y ∈ xs, y ∉ head :: place l x ++ [tail] := by
      intro y hy
      have hyl := hxs y (mem_cons_of_mem x hy)
      have hyx : y ≠ x := fun heq => hx (heq ▸ hy)
      simp only [cons_append, mem_cons, mem_append, (hperm l x).mem_iff, not_or]
        at hyl ⊢
      exact ⟨hyl.1, ⟨hyx, hyl.2.1⟩, hyl.2.2⟩
    obtain ⟨h', hrest, hlist⟩ := ih hl₁ hfresh hnodup'
    refine ⟨h', fun fuel hfuel => ?_, hlist⟩
    rw [length_cons] at hfuel
    rw [forEachCell, hf fuel (by omega), bind_next]
    exact hrest fuel (by rw [(hperm l x).length_eq, length_cons]; omega)

omit [DecidableEq α] in
theorem foldl_concat (l xs : List α) : xs.foldl (fun l x => l ++ [x]) l = l ++ xs := by
  induction xs generalizing l with
  | nil => rw [foldl_nil, append_nil]
  | cons x xs ih => rw [foldl_cons, ih, append_assoc, singleton_append]

/-- **Ordered insertion agrees with sorting**: cells inserted one by one end up in the order in
which cells pushed to the back are sorted. -/
theorem insert_ordered_agrees {h₁ h₂ : Links α} {head₁ tail₁ head₂ tail₂ : α}
    (hl₁ : h₁.IsList head₁ tail₁ []) (hl₂ : h₂.IsList head₂ tail₂ []) (hnodup : xs.Nodup)
    (hxs₁ : ∀ x ∈ xs, x ≠ head₁ ∧ x ≠ tail₁) (hxs₂ : ∀ x ∈ xs, x ≠ head₂ ∧ x ≠ tail₂)
    (hw : StrictWeakOn less {a | a ∈ xs}) :
    ∃ ys h₁' h₂' h₃',
      (∀ fuel, xs.length < fuel →
        forEachCell (fun h => listInsertOrdered less fuel h head₁ tail₁) h₁ xs = .next h₁') ∧
      h₁'.IsList head₁ tail₁ ys ∧
      forEachCell (fun h => listPushBack h tail₂) h₂ xs = .next h₂' ∧
      (∀ fuel, xs.length < fuel → listSort less fuel h₂' head₂ tail₂ = .next h₃') ∧
      h₃'.IsList head₂ tail₂ ys := by
  have hfresh : ∀ {head tail : α}, (∀ x ∈ xs, x ≠ head ∧ x ≠ tail) →
      ∀ x ∈ xs, x ∉ head :: [] ++ [tail] := by
    intro head tail hxs x hx hmem
    rcases mem_cons.mp hmem with heq | hmem
    · exact (hxs x hx).1 heq
    · exact (hxs x hx).2 (mem_singleton.mp hmem)
  obtain ⟨h₁', hinsert, hlist₁⟩ := forEachCell_eq
    (fun fuel h => listInsertOrdered less fuel h head₁ tail₁)
    (fun l x => l.orderedInsert (fun a b => less a b = true) x)
    (fun l x => perm_orderedInsert _ x l) (listInsertOrdered_eq less) hl₁ (hfresh hxs₁) hnodup
  obtain ⟨h₂', hpush, hlist₂⟩ := forEachCell_eq (fun _ h => listPushBack h tail₂)
    (fun l x => l ++ [x]) (fun l x => perm_append_singleton x l)
    (fun hl he => by
      obtain ⟨h', hins, -, hl'⟩ := listInsert_back hl he
      exact ⟨h', fun _ _ => hins, hl'⟩) hl₂ (hfresh hxs₂) hnodup
  rw [foldl_concat, nil_append] at hlist₂
  obtain ⟨h₃', ys, hsort, hrel, hstable⟩ := listSort_spec hw hlist₂
  obtain rfl := hstable.unique hw (stableSort_foldl_orderedInsert hw)
  rw [length_nil, Nat.zero_add] at hinsert hpush
  exact ⟨_, h₁', h₂', h₃', hinsert, hlist₁, hpush _ (Nat.lt_succ_self _), hsort, hrel.isList⟩

/-- Two cells, inserted by parity. -/
theorem insert_ordered_agrees_twoCells :
    ∃ ys h₁' h₂' h₃',
      (∀ fuel, [1, 2].length < fuel →
        forEachCell (fun h => listInsertOrdered (fun a b => decide (a % 2 < b % 2)) fuel h 0 3)
          (listInit ⟨fun _ => none, fun _ => none⟩ 0 3) [1, 2] = .next h₁') ∧
      h₁'.IsList 0 3 ys ∧
      forEachCell (fun h => listPushBack h 3)
        (listInit ⟨fun _ => none, fun _ => none⟩ 0 3) [1, 2] = .next h₂' ∧
      (∀ fuel, [1, 2].length < fuel →
        listSort (fun a b => decide (a % 2 < b % 2)) fuel h₂' 0 3 = .next h₃') ∧
      h₃'.IsList 0 3 ys :=
  insert_ordered_agrees (listInit_isList _ (by decide)) (listInit_isList _ (by decide))
    (by decide) (by decide) (by decide) (strictWeakOn_key (· % 2) _)

end Insertion

end OsMaterial
