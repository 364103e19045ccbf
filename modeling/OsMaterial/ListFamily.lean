import OsMaterial.KernelList

/-!
# Families of Kernel Lists

What the operations of `lib/kernel/list.c` do to a heap with any number of lists: the abstract state
is one sequence of cells for each list, and `ListOp.Acts` says what an operation does to them. All
but `list_reverse` link cells out (`ListFamily.cut`) or in (`ListFamily.join`).

* `list_ops_correct`: every operation acts on the sequences as specified, and on no other cell.
* `listSplice_before_first`: `list_splice` of cells before the first of them leaves no list.
-/

namespace OsMaterial

open Function (update update_eq_self update_of_ne update_self)
open List

inductive ListOp (ι α : Type*) where
  | insert (before elem : α)
  | pushFront (i : ι) (elem : α)
  | pushBack (i : ι) (elem : α)
  | remove (elem : α)
  | popFront (i : ι)
  | popBack (i : ι)
  | reverse (i : ι)
  | splice (before first last : α)

section

variable {ι α : Type*}

def listCells (head tail : ι → α) (xs : ι → List α) (i : ι) : List α :=
  head i :: xs i ++ [tail i]

/-- **A family of lists**: well-formed lists without common cells. -/
structure ListFamily (h : Links α) (head tail : ι → α) (xs : ι → List α) : Prop where
  isList : ∀ i, h.IsList (head i) (tail i) (xs i)
  disjoint : ∀ i j, i ≠ j → ∀ x ∈ listCells head tail xs i, x ∉ listCells head tail xs j

def ListOp.exec [DecidableEq α] (fuel : ℕ) (head tail : ι → α) (h : Links α) :
    ListOp ι α → Outcome ListFault (Links α × Option α)
  | insert before elem => (listInsert h before elem).bind fun h => .next (h, none)
  | pushFront i elem => (listPushFront h (head i) elem).bind fun h => .next (h, none)
  | pushBack i elem => (listPushBack h (tail i) elem).bind fun h => .next (h, none)
  | remove elem => listRemove h elem
  | popFront i => (listPopFront h (head i) (tail i)).bind fun r => .next (r.1, some r.2)
  | popBack i => (listPopBack h (head i) (tail i)).bind fun r => .next (r.1, some r.2)
  | reverse i => (listReverse fuel h (head i) (tail i)).bind fun h => .next (h, none)
  | splice before first last => (listSplice h before first last).bind fun h => .next (h, none)

/-- **What the operations do to the sequences**: on `xs`, the operation is allowed, involves the
lists `js`, makes the sequences `xs'` and returns `r`. A place in list `i` is a way to write its
sequence as `l₁ ++ l₂`. -/
inductive ListOp.Acts [DecidableEq ι] (head tail : ι → α) (xs : ι → List α) :
    ListOp ι α → List ι → (ι → List α) → Option α → Prop where
  | insert {i : ι} {l₁ l₂ q : List α} {before elem : α} (place : xs i = l₁ ++ l₂)
      (after : l₂ ++ [tail i] = before :: q) (fresh : ∀ j, elem ∉ listCells head tail xs j) :
      Acts head tail xs (.insert before elem) [i] (update xs i (l₁ ++ elem :: l₂)) none
  | pushFront {i : ι} {elem : α} (fresh : ∀ j, elem ∉ listCells head tail xs j) :
      Acts head tail xs (.pushFront i elem) [i] (update xs i (elem :: xs i)) none
  | pushBack {i : ι} {elem : α} (fresh : ∀ j, elem ∉ listCells head tail xs j) :
      Acts head tail xs (.pushBack i elem) [i] (update xs i (xs i ++ [elem])) none
  | remove {i : ι} {l₁ l₂ q : List α} {elem next : α} (place : xs i = l₁ ++ elem :: l₂)
      (after : l₂ ++ [tail i] = next :: q) :
      Acts head tail xs (.remove elem) [i] (update xs i (l₁ ++ l₂)) (some next)
  | popFront {i : ι} {l : List α} {elem : α} (place : xs i = elem :: l) :
      Acts head tail xs (.popFront i) [i] (update xs i l) (some elem)
  | popBack {i : ι} {l : List α} {elem : α} (place : xs i = l ++ [elem]) :
      Acts head tail xs (.popBack i) [i] (update xs i l) (some elem)
  | reverse {i : ι} :
      Acts head tail xs (.reverse i) [i] (update xs i (xs i).reverse) none
  | spliceNone {i : ι} {l₁ l₂ q : List α} {before first : α} (place : xs i = l₁ ++ l₂)
      (after : l₂ ++ [tail i] = before :: q) :
      Acts head tail xs (.splice before first first) [] xs none
  | splice {i j : ι} {l₁ mid l₂ m q m₁ m₂ q' : List α} {before first last : α}
      (range : xs i = l₁ ++ mid ++ l₂) (first_eq : mid = first :: m)
      (last_eq : l₂ ++ [tail i] = last :: q)
      (place : update xs i (l₁ ++ l₂) j = m₁ ++ m₂)
      (after : m₂ ++ [tail j] = before :: q') :
      Acts head tail xs (.splice before first last) [i, j]
        (update (update xs i (l₁ ++ l₂)) j (m₁ ++ mid ++ m₂)) none

end

/-! ### The two edits -/

open Links

section Edits

variable {ι α : Type*} [DecidableEq ι] {h h' : Links α} {head tail : ι → α}
  {xs : ι → List α} {i : ι} {ys : List α}

omit [DecidableEq ι] in
theorem mem_listCells {x : α} :
    x ∈ listCells head tail xs i ↔ x = head i ∨ x ∈ xs i ∨ x = tail i := by
  simp [listCells]

theorem listCells_update_self :
    listCells head tail (update xs i ys) i = head i :: ys ++ [tail i] := by
  simp [listCells]

theorem listCells_update_of_ne {j : ι} (hj : j ≠ i) :
    listCells head tail (update xs i ys) j = listCells head tail xs j := by
  simp [listCells, hj]

theorem ListFamily.edit (hF : ListFamily h head tail xs) (hl : h'.IsList (head i) (tail i) ys)
    (hnew : ∀ x ∈ ys, x ∉ xs i → ∀ j, x ∉ listCells head tail xs j)
    (hframe : ∀ x, x ∉ listCells head tail xs i → x ∉ ys →
      h'.next x = h.next x ∧ h'.prev x = h.prev x) : ListFamily h' head tail (update xs i ys) := by
  -- A cell of another list is in neither version of list `i`.
  have hother : ∀ k, k ≠ i → ∀ x ∈ listCells head tail xs k,
      x ∉ listCells head tail xs i ∧ x ∉ ys := by
    intro k hk x hx
    have hxi := hF.disjoint k i hk x hx
    refine ⟨hxi, fun hxy => hnew x hxy (fun hmem => hxi ?_) k hx⟩
    exact mem_listCells.mpr (Or.inr (Or.inl hmem))
  have hcells : ∀ k, k ≠ i → ∀ x ∈ listCells head tail xs k, x ∉ head i :: ys ++ [tail i] := by
    intro k hk x hx hmem
    obtain ⟨hxi, hxy⟩ := hother k hk x hx
    rw [mem_listCells, not_or, not_or] at hxi
    simp only [cons_append, mem_cons, mem_append, not_mem_nil, or_false] at hmem
    rcases hmem with hmem | hmem | hmem
    · exact hxi.1 hmem
    · exact hxy hmem
    · exact hxi.2.2 hmem
  constructor
  · intro k
    by_cases hk : k = i
    · subst hk
      rwa [update_self]
    · rw [update_of_ne hk]
      refine (hF.isList k).congr fun x hx => ?_
      obtain ⟨hxi, hxy⟩ := hother k hk x hx
      exact hframe x hxi hxy
  · intro j k hjk x hxj hxk
    by_cases hj : j = i
    · subst hj
      rw [listCells_update_self] at hxj
      rw [listCells_update_of_ne hjk.symm] at hxk
      exact hcells k hjk.symm x hxk hxj
    · rw [listCells_update_of_ne hj] at hxj
      by_cases hk : k = i
      · subst hk
        rw [listCells_update_self] at hxk
        exact hcells j hj x hxj hxk
      · rw [listCells_update_of_ne hk] at hxk
        exact hF.disjoint j k hjk x hxj hxk

variable [DecidableEq α] {l₁ l₂ mid p q m m' : List α} {a b f z : α}

omit [DecidableEq ι] [DecidableEq α] in
theorem mem_listCells_of_place (hi : xs i = l₁ ++ mid ++ l₂) (ha : head i :: l₁ = p ++ [a])
    (hb : l₂ ++ [tail i] = b :: q) :
    a ∈ listCells head tail xs i ∧ b ∈ listCells head tail xs i := by
  rw [listCells, hi, IsList.cells_eq ha hb]
  simp

/-- **Cells are linked out**, and are in no list then. -/
theorem ListFamily.cut (hF : ListFamily h head tail xs) (hi : xs i = l₁ ++ mid ++ l₂)
    (ha : head i :: l₁ = p ++ [a]) (hb : l₂ ++ [tail i] = b :: q) :
    ListFamily (h.link a b) head tail (update xs i (l₁ ++ l₂)) ∧ (h.link a b).Spine mid ∧
      ∀ x ∈ mid, ∀ j, x ∉ listCells head tail (update xs i (l₁ ++ l₂)) j := by
  have hl := hF.isList i
  rw [hi] at hl
  obtain ⟨hcut, hmid⟩ := hl.cut ha hb
  obtain ⟨hai, hbi⟩ := mem_listCells_of_place hi ha hb
  refine ⟨hF.edit hcut ?_ ?_, hmid, fun x hx j hj => ?_⟩
  · intro x hx hxi
    rw [hi] at hxi
    simp only [mem_append, not_or] at hx hxi
    tauto
  · intro x hx _
    have hxa : x ≠ a := fun hxa => hx (hxa ▸ hai)
    have hxb : x ≠ b := fun hxb => hx (hxb ▸ hbi)
    simp [hxa, hxb]
  · by_cases hji : j = i
    · subst hji
      have hs := hl.place ha hb
      rw [listCells_update_self, ← append_nil l₁, IsList.cells_eq ha hb,
        nil_append, append_cons] at hj
      rw [append_cons] at hs
      obtain ⟨-, hs₂, hdisj⟩ := hs.parts
      obtain ⟨-, -, hdisj₂⟩ := hs₂.parts
      rcases mem_append.mp hj with hj | hj
      · exact hdisj x hj (mem_append_left _ hx)
      · exact hdisj₂ x hx hj
    · rw [listCells_update_of_ne hji] at hj
      refine hF.disjoint i j (Ne.symm hji) x ?_ hj
      rw [mem_listCells, hi]
      simp [hx]

/-- **Cells that are in no list are linked in.** -/
theorem ListFamily.join (hF : ListFamily h head tail xs) (hi : xs i = l₁ ++ l₂)
    (ha : head i :: l₁ = p ++ [a]) (hb : l₂ ++ [tail i] = b :: q) (hmid : h.Spine mid)
    (hout : ∀ x ∈ mid, ∀ j, x ∉ listCells head tail xs j) (hf : mid = f :: m)
    (hz : mid = m' ++ [z]) :
    ListFamily (h.relink a f z b) head tail (update xs i (l₁ ++ mid ++ l₂)) := by
  have hl := hF.isList i
  have hdisj : ∀ x ∈ mid, x ∉ head i :: xs i ++ [tail i] := fun x hx => hout x hx i
  rw [hi] at hl hdisj
  have hi' : xs i = l₁ ++ [] ++ l₂ := by rw [hi, append_nil]
  obtain ⟨hai, hbi⟩ := mem_listCells_of_place hi' ha hb
  refine hF.edit (hl.join ha hb hmid hdisj hf hz) ?_ ?_
  · intro x hx hxi j
    rw [hi] at hxi
    simp only [mem_append, not_or] at hx hxi
    exact hout x (by tauto) j
  · intro x hx hxy
    simp only [mem_append, not_or] at hxy
    have hxa : x ≠ a := fun hxa => hx (hxa ▸ hai)
    have hxb : x ≠ b := fun hxb => hx (hxb ▸ hbi)
    have hxf : x ≠ f := fun hxf => hxy.1.2 (by simp [hxf, hf])
    have hxz : x ≠ z := fun hxz => hxy.1.2 (by simp [hxz, hz])
    simp [hxa, hxb, hxf, hxz]

end Edits

/-! ### The operations as edits -/

section Operations

variable {α : Type*} [DecidableEq α] {h : Links α} {head tail : α} {xs l₁ l₂ p q : List α}
  {a b e f z : α}

omit [DecidableEq α] in
theorem interior_or_tail (hprev : h.prev b = some a) : isInterior h b ∨ isTail h b := by
  by_cases hnext : h.next b = none
  · exact Or.inr ⟨by simp [hprev], hnext⟩
  · exact Or.inl ⟨by simp [hprev], hnext⟩

omit [DecidableEq α] in
theorem linked_of_place (hl : h.IsList head tail (l₁ ++ l₂)) (ha : head :: l₁ = p ++ [a])
    (hb : l₂ ++ [tail] = b :: q) : h.Linked a b := by
  have hl' : h.IsList head tail (l₁ ++ [] ++ l₂) := by rwa [append_nil]
  exact (Spine.split.mp (hl'.place ha hb)).2.1

omit [DecidableEq α] in
theorem isInterior_of_mem (hl : h.IsList head tail xs) (he : e ∈ xs) : isInterior h e := by
  obtain ⟨l, r, rfl⟩ := append_of_mem he
  obtain ⟨l₁, a, b, l₂, -, -, hs⟩ := hl.neighbours
  obtain ⟨-, hae, hs₂, -⟩ := Spine.split.mp hs
  have heb := (isChain_cons_cons.mp hs₂.chain).1
  exact ⟨by simp [hae.2], by simp [heb.1]⟩

theorem listInsert_eq (hprev : h.prev b = some a) (hne : e ≠ b) :
    listInsert h b e = .next (h.relink a e e b) := by
  rw [listInsert, if_pos (interior_or_tail hprev), insert_assignments hprev hne]

theorem spliceCells_eq {c : α} (hprev : h.prev f = some a) (hnext : h.next z = some b) (hza : z ≠ a)
    (hbefore : (h.link a b).prev c = some e) (hcf : c ≠ f) :
    spliceCells h c f z = .next ((h.link a b).relink e f z c) := by
  have hA : (h.setNext a (some b)).next z = some b := by simp [hza, hnext]
  have hB : (h.setNext a (some b)).prev f = some a := hprev
  have hC : (((h.link a b).setPrev f (some e)).setNext z (some c)).prev c = some e := by
    rw [setNext_prev, setPrev_prev, update_of_ne hcf]
    exact hbefore
  simp only [spliceCells, followLink, hprev, hnext, Outcome.bind_next, hA, hB, hbefore, hC]

end Operations

/-! ### Reversal -/

section Reverse

variable {α : Type*} [DecidableEq α] {h : Links α} {head tail : α} {xs : List α}

def swapCells (h : Links α) (xs : List α) : Links α where
  next x := if x ∈ xs then h.prev x else h.next x
  prev x := if x ∈ xs then h.next x else h.prev x

theorem swapCells_swapLinks {x : α} (hx : x ∉ xs) :
    swapCells (swapLinks h x) xs = swapCells h (x :: xs) := by
  ext1 <;> funext y
  · by_cases hy : y = x
    · simp [swapCells, swapLinks, hy, hx]
    · simp [swapCells, swapLinks, hy]
  · by_cases hy : y = x
    · simp [swapCells, swapLinks, hy, hx]
    · simp [swapCells, swapLinks, hy]

variable {fuel : ℕ}

theorem reverseLoop_eq (hf : xs.length < fuel) {first : α} {rest : List α}
    (hfirst : xs ++ [tail] = first :: rest) (hn : (xs ++ [tail]).Nodup)
    (hchain : (xs ++ [tail]).IsChain fun a b => h.next a = some b) :
    reverseLoop tail fuel first h = .next (swapCells h xs) := by
  induction xs generalizing h fuel first rest with
  | nil =>
    obtain ⟨fuel, rfl⟩ : ∃ n, fuel = n + 1 := ⟨fuel - 1, by simp at hf; omega⟩
    obtain ⟨rfl, -⟩ := List.cons.inj hfirst
    rw [reverseLoop, if_pos rfl]
    rfl
  | cons x xs ih =>
    obtain ⟨fuel, rfl⟩ : ∃ n, fuel = n + 1 := ⟨fuel - 1, by simp at hf; omega⟩
    obtain ⟨rfl, -⟩ := List.cons.inj hfirst
    obtain ⟨y, l, hy⟩ := IsList.exists_first tail xs
    rw [cons_append, nodup_cons, mem_append, not_or] at hn
    rw [cons_append, hy, isChain_cons_cons, ← hy] at hchain
    have hxt : x ≠ tail := fun hxt => hn.1.2 (by simp [hxt])
    have hprev : (swapLinks h x).prev x = some y := by simp [swapLinks, hchain.1]
    have hchain' : (xs ++ [tail]).IsChain fun a b => (swapLinks h x).next a = some b := by
      refine hchain.2.imp_of_mem_imp fun a b ha _ hab => ?_
      have hax : a ≠ x := by
        rintro rfl
        exact (mem_append.mp ha).elim hn.1.1 hn.1.2
      simpa [swapLinks, hax] using hab
    rw [reverseLoop, if_neg hxt]
    change (followLink ((swapLinks h x).prev x)).bind _ = _
    rw [hprev, followLink, Outcome.bind_next, ih (by simpa using hf) hy hn.2 hchain',
      swapCells_swapLinks hn.1.1]

omit [DecidableEq α] in
theorem sentinel_links {f z : α} {m m' : List α} (hl : h.IsList head tail xs) (hf : xs = f :: m)
    (hz : xs = m' ++ [z]) : h.Linked head f ∧ h.Linked z tail := by
  have hl' : h.IsList head tail ([] ++ xs ++ []) := by simpa using hl
  exact hl'.place_links (p := []) rfl rfl hf hz

theorem listEmpty_nil (hl : h.IsList head tail []) : listEmpty h head tail = true :=
  decide_eq_true (isChain_cons_cons.mp hl.spine.chain).1.1

theorem listEmpty_of_ne_nil {f : α} {m : List α} (hl : h.IsList head tail xs)
    (hf : xs = f :: m) : listEmpty h head tail = false := by
  obtain ⟨m', z, hz⟩ : ∃ m' z, xs = m' ++ [z] := by
    rw [hf]
    exact IsList.exists_last f m
  obtain ⟨hlink, -⟩ := sentinel_links hl hf hz
  have hft : f ≠ tail := by
    rintro rfl
    exact hl.sentinels.2.2 (by simp [hf])
  rw [listEmpty, hlink.1, decide_eq_false_iff_not, Option.some_inj]
  exact hft

def reversed (h : Links α) (head tail f z : α) (xs : List α) : Links α :=
  ((((swapCells h xs).setNext head (some z)).setPrev tail (some f)).setPrev z
    (some head)).setNext f (some tail)

theorem listReverse_eq {f z : α} {m m' : List α} (hl : h.IsList head tail xs) (hf : xs = f :: m)
    (hz : xs = m' ++ [z]) (hfuel : xs.length < fuel) :
    listReverse fuel h head tail = .next (reversed h head tail f z xs) := by
  obtain ⟨⟨hnext, hfprev⟩, ⟨hznext, hprev⟩⟩ := sentinel_links hl hf hz
  obtain ⟨hht, hhead, htail⟩ := hl.sentinels
  have hfm : f ∈ xs := by simp [hf]
  have hzm : z ∈ xs := by simp [hz]
  have hfh : f ≠ head := fun hfh => hhead (hfh ▸ hfm)
  have hzt : z ≠ tail := fun hzt => htail (hzt ▸ hzm)
  have hloop : reverseLoop tail fuel f h = .next (swapCells h xs) :=
    reverseLoop_eq hfuel (by rw [hf, cons_append]) hl.spine.nodup.of_cons
      (hl.spine.chain.tail.imp fun a b hab => hab.1)
  have hnext₁ : (swapCells h xs).next head = some f := by simp [swapCells, hhead, hnext]
  have hprev₁ : (swapCells h xs).prev tail = some z := by simp [swapCells, htail, hprev]
  have hnext₂ : (((swapCells h xs).setNext head (some z)).setPrev tail (some f)).next f =
      some head := by
    simp [hfh, swapCells, hfm, hfprev]
  have hprev₂ : (((swapCells h xs).setNext head (some z)).setPrev tail (some f)).prev z =
      some tail := by
    simp [hzt, swapCells, hzm, hznext]
  rw [listReverse, listEmpty_of_ne_nil hl hf, if_neg Bool.false_ne_true, hnext]
  simp only [followLink, Outcome.bind_next, hloop, hnext₁, hprev₁]
  have hhead₂ : (((swapCells h xs).setNext head (some z)).setPrev tail (some f)).next head =
      some z := by simp
  have htail₂ : (((swapCells h xs).setNext head (some z)).setPrev tail (some f)).prev tail =
      some f := by simp
  simp only [hhead₂, htail₂, Outcome.bind_next, hprev₂, hnext₂, reversed]

theorem reversed_frame {f z x : α} (hx : x ∉ head :: xs ++ [tail]) (hf : f ∈ xs) (hz : z ∈ xs) :
    (reversed h head tail f z xs).next x = h.next x ∧
      (reversed h head tail f z xs).prev x = h.prev x := by
  simp only [cons_append, mem_cons, mem_append, not_mem_nil, or_false, not_or] at hx
  have hxf : x ≠ f := fun hxf => hx.2.1 (hxf ▸ hf)
  have hxz : x ≠ z := fun hxz => hx.2.1 (hxz ▸ hz)
  simp [reversed, swapCells, hx, hxf, hxz]

theorem isList_reversed {f z : α} {m m' : List α} (hl : h.IsList head tail xs) (hf : xs = f :: m)
    (hz : xs = m' ++ [z]) : (reversed h head tail f z xs).IsList head tail xs.reverse := by
  obtain ⟨hht, hhead, htail⟩ := hl.sentinels
  have hfm : f ∈ xs := by simp [hf]
  have hzm : z ∈ xs := by simp [hz]
  have hfh : f ≠ head := fun hfh => hhead (hfh ▸ hfm)
  have hft : f ≠ tail := fun hft => htail (hft ▸ hfm)
  have hzh : z ≠ head := fun hzh => hhead (hzh ▸ hzm)
  have hzt : z ≠ tail := fun hzt => htail (hzt ▸ hzm)
  have hrf : xs.reverse = m.reverse ++ [f] := by rw [hf, reverse_cons]
  have hrz : xs.reverse = z :: m'.reverse := by rw [hz, reverse_append]; rfl
  have hcells : h.Spine ([head] ++ (xs ++ [tail])) := hl.spine
  have hspine := hcells.parts.2.1.parts.1
  have hnodup := nodup_reverse.mpr hspine.nodup
  -- The cells of the list are linked backwards; only the outer links are new.
  have hinner : (reversed h head tail f z xs).Spine xs.reverse := by
    refine hspine.reverse.congr ?_ ?_
    · intro x hx
      have hxs : x ∈ xs := mem_reverse.mp (dropLast_subset _ hx)
      have hxf : x ≠ f := by
        rw [hrf] at hnodup hx
        rw [dropLast_concat] at hx
        exact (nodup_append.mp hnodup).2.2 x hx f (by simp)
      have hxh : x ≠ head := fun hxh => hhead (hxh ▸ hxs)
      simp [reversed, swapCells, hxf, hxh, hxs]
    · intro x hx
      have hxs : x ∈ xs := mem_reverse.mp (mem_of_mem_tail hx)
      have hxz : x ≠ z := by
        rintro rfl
        rw [hrz] at hnodup hx
        exact (nodup_cons.mp hnodup).1 hx
      have hxt : x ≠ tail := fun hxt => htail (hxt ▸ hxs)
      simp [reversed, swapCells, hxz, hxt, hxs]
  have hlast : (reversed h head tail f z xs).Spine (xs.reverse ++ [tail]) := by
    rw [hrf, append_assoc, singleton_append, Spine.split, ← hrf]
    refine ⟨hinner, ⟨by simp [reversed], by simp [reversed, hzt.symm]⟩,
      ⟨.singleton tail, nodup_singleton tail⟩, fun x hx hxt => ?_⟩
    rw [mem_singleton.mp hxt, mem_reverse] at hx
    exact htail hx
  refine ⟨?_, ?_, ?_⟩
  · rw [hrz, cons_append, cons_append, ← nil_append (head :: _), Spine.split, ← cons_append, ← hrz]
    refine ⟨⟨.singleton head, nodup_singleton head⟩,
      ⟨by simp [reversed, hfh.symm], by simp [reversed]⟩, hlast, fun x hx hxr => ?_⟩
    rw [mem_singleton.mp hx, mem_append, mem_reverse] at hxr
    rcases hxr with hxr | hxr
    · exact hhead hxr
    · exact hht (mem_singleton.mp hxr)
  · simp [reversed, hzh.symm, hht, swapCells, hhead, hl.head_prev]
  · simp [reversed, hft.symm, hht.symm, swapCells, htail, hl.tail_next]

end Reverse

/-! ### Every operation -/

section Correct

variable {ι α : Type*} [DecidableEq ι] [DecidableEq α] {h : Links α} {head tail : ι → α}
  {xs : ι → List α} {i : ι} {l₁ l₂ q : List α} {b e : α}

/-- What an operation has to do: it ends with the heap `h'`, which holds the sequences `xs'`, and
the cells outside the lists `js` are as they were. -/
def ListFamily.Ends (h : Links α) (head tail : ι → α) (xs : ι → List α) (js : List ι)
    (xs' : ι → List α) (h' : Links α) : Prop :=
  ListFamily h' head tail xs' ∧ (∀ k, k ∉ js → xs' k = xs k) ∧
    ∀ x, (∀ j ∈ js, x ∉ listCells head tail xs j ∧ x ∉ listCells head tail xs' j) →
      h'.next x = h.next x ∧ h'.prev x = h.prev x

section

variable (hF : ListFamily h head tail xs)

include hF

theorem ListFamily.listInsert (hi : xs i = l₁ ++ l₂) (hb : l₂ ++ [tail i] = b :: q)
    (hfresh : ∀ j, e ∉ listCells head tail xs j) :
    ∃ h', OsMaterial.listInsert h b e = .next h' ∧
      ListFamily.Ends h head tail xs [i] (update xs i (l₁ ++ e :: l₂)) h' := by
  obtain ⟨p, a, ha⟩ := IsList.exists_last (head i) l₁
  have hl := hF.isList i
  rw [hi] at hl
  have hlink := linked_of_place hl ha hb
  have hi' : xs i = l₁ ++ [] ++ l₂ := by rw [hi, append_nil]
  obtain ⟨hai, hbi⟩ := mem_listCells_of_place hi' ha hb
  have hjoin := hF.join hi ha hb ⟨.singleton e, nodup_singleton e⟩
    (fun x hx => mem_singleton.mp hx ▸ hfresh) rfl (nil_append [e]).symm
  rw [append_assoc, singleton_append] at hjoin
  refine ⟨_, listInsert_eq hlink.2 (fun heb => hfresh i (heb ▸ hbi)), hjoin, ?_, ?_⟩
  · intro k hk
    exact update_of_ne (by simpa using hk) ..
  · intro x hx
    obtain ⟨hx₁, hx₂⟩ := hx i (by simp)
    rw [listCells_update_self] at hx₂
    have hxa : x ≠ a := fun hxa => hx₁ (hxa ▸ hai)
    have hxb : x ≠ b := fun hxb => hx₁ (hxb ▸ hbi)
    have hxe : x ≠ e := by
      rintro rfl
      simp at hx₂
    simp [hxa, hxb, hxe]

theorem ListFamily.listRemove (hi : xs i = l₁ ++ e :: l₂) (hb : l₂ ++ [tail i] = b :: q) :
    ∃ h', OsMaterial.listRemove h e = .next (h', some b) ∧
      ListFamily.Ends h head tail xs [i] (update xs i (l₁ ++ l₂)) h' := by
  obtain ⟨p, a, ha⟩ := IsList.exists_last (head i) l₁
  have hi' : xs i = l₁ ++ [e] ++ l₂ := by rw [hi, append_assoc]; rfl
  have hl := hF.isList i
  have hint := isInterior_of_mem hl (by rw [hi]; simp : e ∈ xs i)
  rw [hi'] at hl
  obtain ⟨hae, heb⟩ := hl.place_links ha hb rfl (nil_append [e]).symm
  obtain ⟨hai, hbi⟩ := mem_listCells_of_place hi' ha hb
  have hne : e ≠ a := by
    rintro rfl
    obtain ⟨-, -, hdisj⟩ := (append_cons p e _ ▸ hl.place ha hb).parts
    exact hdisj e (by simp) (by simp)
  refine ⟨_, listRemove_eq hint hae.2 heb.1 hne, (hF.cut hi' ha hb).1, ?_, ?_⟩
  · intro k hk
    exact update_of_ne (by simpa using hk) ..
  · intro x hx
    obtain ⟨hx₁, -⟩ := hx i (by simp)
    have hxa : x ≠ a := fun hxa => hx₁ (hxa ▸ hai)
    have hxb : x ≠ b := fun hxb => hx₁ (hxb ▸ hbi)
    simp [hxa, hxb]

theorem ListFamily.listReverse (i : ι) :
    ∃ h', (∀ fuel, (xs i).length < fuel →
        OsMaterial.listReverse fuel h (head i) (tail i) = .next h') ∧
      ListFamily.Ends h head tail xs [i] (update xs i (xs i).reverse) h' := by
  have hl := hF.isList i
  have hkeep : ∀ k, k ∉ [i] → update xs i (xs i).reverse k = xs k := fun k hk =>
    update_of_ne (by simpa using hk) ..
  cases hxs : xs i with
  | nil =>
    have hl' : h.IsList (head i) (tail i) [] := hxs ▸ hl
    have hsame : update xs i [].reverse = xs := by rw [reverse_nil, ← hxs, update_eq_self]
    refine ⟨h, fun fuel _ => ?_, ?_⟩
    · rw [OsMaterial.listReverse, listEmpty_nil hl', if_pos rfl]
    · rw [hsame]
      exact ⟨hF, fun _ _ => rfl, fun _ _ => ⟨rfl, rfl⟩⟩
  | cons f m =>
    obtain ⟨m', z, hz⟩ := IsList.exists_last f m
    have hz' : xs i = m' ++ [z] := hxs.trans hz
    have hframe : ∀ x, x ∉ listCells head tail xs i →
        (reversed h (head i) (tail i) f z (xs i)).next x = h.next x ∧
          (reversed h (head i) (tail i) f z (xs i)).prev x = h.prev x := fun x hx =>
      reversed_frame hx (by simp [hxs]) (by simp [hz'])
    rw [← hxs]
    refine ⟨_, fun fuel hfuel => listReverse_eq hl hxs hz' hfuel, ?_, hkeep, ?_⟩
    · refine hF.edit (isList_reversed hl hxs hz') ?_ fun x hx _ => hframe x hx
      exact fun x hx hxi => absurd (mem_reverse.mp hx) hxi
    · exact fun x hx => hframe x (hx i (by simp)).1

theorem ListFamily.listSplice {j : ι} {mid m m₁ m₂ q' : List α} {before first last : α}
    (hi : xs i = l₁ ++ mid ++ l₂) (hf : mid = first :: m) (hb : l₂ ++ [tail i] = last :: q)
    (hj : update xs i (l₁ ++ l₂) j = m₁ ++ m₂) (hbefore : m₂ ++ [tail j] = before :: q') :
    ∃ h', OsMaterial.listSplice h before first last = .next h' ∧
      ListFamily.Ends h head tail xs [i, j]
        (update (update xs i (l₁ ++ l₂)) j (m₁ ++ mid ++ m₂)) h' := by
  obtain ⟨p, a, ha⟩ := IsList.exists_last (head i) l₁
  obtain ⟨m', z, hz⟩ : ∃ m' z, mid = m' ++ [z] := by
    rw [hf]
    exact IsList.exists_last first m
  obtain ⟨p', a', ha'⟩ := IsList.exists_last (head j) m₁
  have hl := hF.isList i
  have hfm : first ∈ mid := by simp [hf]
  have hzm : z ∈ mid := by simp [hz]
  have hmem : ∀ x ∈ mid, x ∈ xs i := fun x hx => by simp [hi, hx]
  have hintf := isInterior_of_mem hl (hmem first hfm)
  have hintz := isInterior_of_mem hl (hmem z hzm)
  rw [hi] at hl
  obtain ⟨haf, hzb⟩ := hl.place_links ha hb hf hz
  obtain ⟨hai, hbi⟩ := mem_listCells_of_place hi ha hb
  -- What is left, and the place in it.
  obtain ⟨hcut, hspine, hout⟩ := hF.cut hi ha hb
  have hlj := hcut.isList j
  rw [hj] at hlj
  have hlink := linked_of_place hlj ha' hbefore
  have hj' : update xs i (l₁ ++ l₂) j = m₁ ++ [] ++ m₂ := by rw [hj, append_nil]
  obtain ⟨haj, hbj⟩ := mem_listCells_of_place hj' ha' hbefore
  have hfirst_last : first ≠ last := by
    rintro rfl
    refine hout first hfm i ?_
    rw [listCells_update_self, ← append_nil l₁, IsList.cells_eq ha hb]
    simp
  have hza : z ≠ a := by
    rintro rfl
    refine hout z hzm i ?_
    rw [listCells_update_self, ← append_nil l₁, IsList.cells_eq ha hb]
    simp
  have hbf : before ≠ first := fun heq => hout first hfm j (heq ▸ hbj)
  refine ⟨_, ?_, hcut.join hj ha' hbefore hspine hout hf hz, ?_, ?_⟩
  · obtain ⟨c, hc⟩ : ∃ c, h.prev before = some c := by
      by_cases hbl : before = last
      · exact ⟨z, hbl ▸ hzb.2⟩
      · have hprev := hlink.2
        rw [setPrev_prev, update_of_ne hbl, setNext_prev] at hprev
        exact ⟨a', hprev⟩
    rw [OsMaterial.listSplice, if_pos (interior_or_tail hc), if_neg hfirst_last, listPrev,
      if_pos (interior_or_tail hzb.2), hzb.2, followLink, Outcome.bind_next, if_pos hintf,
      if_pos hintz]
    exact spliceCells_eq haf.2 hzb.1 hza hlink.2 hbf
  · intro k hk
    simp only [mem_cons, not_mem_nil, or_false, not_or] at hk
    rw [update_of_ne hk.2, update_of_ne hk.1]
  · intro x hx
    have hxi := (hx i (by simp)).1
    have hxj : x ∉ listCells head tail (update xs i (l₁ ++ l₂)) j := by
      by_cases hji : j = i
      · subst hji
        rw [mem_listCells, hi] at hxi
        rw [mem_listCells, update_self]
        simp only [mem_append, not_or] at hxi ⊢
        tauto
      · rw [listCells_update_of_ne hji]
        exact (hx j (by simp)).1
    have hne : ∀ y, y ∈ listCells head tail xs i → x ≠ y := fun y hy hxy => hxi (hxy ▸ hy)
    have hmem' : ∀ y ∈ mid, y ∈ listCells head tail xs i := fun y hy =>
      mem_listCells.mpr (Or.inr (Or.inl (hmem y hy)))
    have hxa' : x ≠ a' := fun hxa => hxj (hxa ▸ haj)
    have hxb' : x ≠ before := fun hxb => hxj (hxb ▸ hbj)
    simp [hne a hai, hne last hbi, hne first (hmem' first hfm), hne z (hmem' z hzm), hxa', hxb']

end

/-- **Every operation is correct**: an operation that is allowed ends and leaves a family with the
specified sequences; other lists and cells are as they were. -/
theorem list_ops_correct {op : ListOp ι α} {js : List ι} {xs' : ι → List α} {r : Option α}
    (hF : ListFamily h head tail xs) (hop : op.Acts head tail xs js xs' r) :
    ∃ h', (∃ n, ∀ fuel, n ≤ fuel → op.exec fuel head tail h = .next (h', r)) ∧
      ListFamily h' head tail xs' ∧ (∀ k, k ∉ js → xs' k = xs k) ∧
      ∀ x, (∀ j ∈ js, x ∉ listCells head tail xs j ∧ x ∉ listCells head tail xs' j) →
        h'.next x = h.next x ∧ h'.prev x = h.prev x := by
  cases hop with
  | insert place after fresh =>
    obtain ⟨h', heq, hends⟩ := hF.listInsert place after fresh
    exact ⟨h', ⟨0, fun _ _ => by rw [ListOp.exec, heq, Outcome.bind_next]⟩, hends⟩
  | @pushFront i elem fresh =>
    obtain ⟨b, q, hb⟩ := IsList.exists_first (tail i) (xs i)
    have hl : h.IsList (head i) (tail i) ([] ++ xs i) := hF.isList i
    have hlink := linked_of_place (p := []) hl rfl hb
    have hplace : xs i = [] ++ xs i := rfl
    obtain ⟨h', heq, hends⟩ := hF.listInsert hplace hb fresh
    refine ⟨h', ⟨0, fun _ _ => ?_⟩, hends⟩
    rw [ListOp.exec, listPushFront, hlink.1, followLink, Outcome.bind_next, heq, Outcome.bind_next]
  | pushBack fresh =>
    obtain ⟨h', heq, hends⟩ := hF.listInsert (append_nil _).symm rfl fresh
    exact ⟨h', ⟨0, fun _ _ => by rw [ListOp.exec, listPushBack, heq, Outcome.bind_next]⟩, hends⟩
  | remove place after =>
    obtain ⟨h', heq, hends⟩ := hF.listRemove place after
    exact ⟨h', ⟨0, fun _ _ => heq⟩, hends⟩
  | @popFront i l elem place =>
    obtain ⟨b, q, hb⟩ := IsList.exists_first (tail i) l
    have hl := hF.isList i
    obtain ⟨m', z, hz⟩ := IsList.exists_last elem l
    have hlink := (sentinel_links hl place (place.trans hz)).1
    have hplace : xs i = [] ++ elem :: l := place
    obtain ⟨h', heq, hends⟩ := hF.listRemove hplace hb
    refine ⟨h', ⟨0, fun _ _ => ?_⟩, hends⟩
    rw [ListOp.exec, listPopFront, listFront, listEmpty_of_ne_nil hl place,
      if_neg Bool.false_ne_true, hlink.1, followLink, Outcome.bind_next, heq]
    rfl
  | @popBack i l elem place =>
    have hl := hF.isList i
    obtain ⟨f, m, hf⟩ := IsList.exists_first elem l
    have hlink := (sentinel_links hl (place.trans hf) place).2
    have hplace : xs i = l ++ elem :: [] := place
    obtain ⟨h', heq, hends⟩ := hF.listRemove hplace rfl
    rw [append_nil] at hends
    refine ⟨h', ⟨0, fun _ _ => ?_⟩, hends⟩
    rw [ListOp.exec, listPopBack, listBack, listEmpty_of_ne_nil hl (place.trans hf),
      if_neg Bool.false_ne_true, hlink.2, followLink, Outcome.bind_next, heq]
    rfl
  | @reverse i =>
    obtain ⟨h', heq, hends⟩ := hF.listReverse i
    refine ⟨h', ⟨(xs i).length + 1, fun fuel hfuel => ?_⟩, hends⟩
    rw [ListOp.exec, heq fuel hfuel, Outcome.bind_next]
  | @spliceNone i l₁ l₂ q before first place after =>
    obtain ⟨p, a, ha⟩ := IsList.exists_last (head i) l₁
    have hlink := linked_of_place (place ▸ hF.isList i) ha after
    refine ⟨h, ⟨0, fun _ _ => ?_⟩, hF, fun _ _ => rfl, fun _ _ => ⟨rfl, rfl⟩⟩
    rw [ListOp.exec, OsMaterial.listSplice, if_pos (interior_or_tail hlink.2), if_pos rfl,
      Outcome.bind_next]
  | splice range first_eq last_eq place after =>
    obtain ⟨h', heq, hends⟩ := hF.listSplice range first_eq last_eq place after
    exact ⟨h', ⟨0, fun _ _ => by rw [ListOp.exec, heq, Outcome.bind_next]⟩, hends⟩

end Correct

def oneTwo : Links ℕ where
  next x := if x < 3 then some (x + 1) else none
  prev x := if x = 0 then none else some (x - 1)

theorem oneTwo_isList : oneTwo.IsList 0 3 [1, 2] := by
  refine ⟨⟨?_, by decide⟩, rfl, rfl⟩
  simp [Linked, oneTwo]

theorem oneTwo_family : ListFamily oneTwo (fun _ : Unit => 0) (fun _ => 3) (fun _ => [1, 2]) :=
  ⟨fun _ => oneTwo_isList, fun _ _ hij => absurd rfl hij⟩

/-- A list of two cells, one of which is spliced to the end. -/
theorem list_ops_correct_oneTwo :
    ∃ h', listSplice oneTwo 3 1 2 = .next h' ∧ h'.IsList 0 3 [2, 1] := by
  have hacts : (ListOp.splice 3 1 2 : ListOp Unit ℕ).Acts (fun _ => 0) (fun _ => 3)
      (fun _ => [1, 2]) [(), ()]
      (update (update (fun _ => [1, 2]) () ([] ++ [2])) () ([2] ++ [1] ++ []))
      none :=
    .splice (show [1, 2] = [] ++ [1] ++ [2] from rfl) rfl rfl
      (show update (fun _ => [1, 2]) () ([] ++ [2]) () = [2] ++ [] from rfl) rfl
  obtain ⟨h', ⟨n, hexec⟩, hF, -⟩ := list_ops_correct oneTwo_family hacts
  refine ⟨h', ?_, hF.isList ()⟩
  have hn := hexec n le_rfl
  rw [ListOp.exec] at hn
  obtain ⟨h₁, hsplice, hnext⟩ := Outcome.bind_eq_next.mp hn
  cases hnext
  exact hsplice

/-- **`list_splice` before the first of the cells it moves**: the cells form a cycle, and the heap
holds no list from the head to the tail. -/
theorem listSplice_before_first :
    oneTwo.IsList 0 3 [1, 2] ∧
      ∃ h', listSplice oneTwo 1 1 3 = .next h' ∧ ∀ xs, ¬ h'.IsList 0 3 xs := by
  refine ⟨oneTwo_isList, _, rfl, fun xs hl => ?_⟩
  obtain ⟨b, q, hb⟩ := IsList.exists_first 3 xs
  have hplace : 0 :: [] = [] ++ [0] := rfl
  obtain ⟨hnext, hprev⟩ := linked_of_place hl hplace hb
  have hb1 : b = 1 := by
    have h1 : some b = some 1 := hnext.symm.trans (by decide)
    exact Option.some_inj.mp h1
  subst hb1
  have h2 : some 2 = some 0 := Eq.trans (by decide) hprev
  cases h2

end OsMaterial
