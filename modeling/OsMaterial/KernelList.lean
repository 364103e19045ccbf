import Mathlib.Data.Fintype.Defs
import Mathlib.Data.Finset.Insert
import OsMaterial.Links
import OsMaterial.Machine

/-!
# Kernel Lists

The lists of `lib/kernel/list.c`, over an explicit heap of `list_elem` cells. `list_insert` is
defined from its four assignments (`insertAssign`). An assertion that fails, or a null link that is
followed, is a fault.

* `listInsert_back`, `listRemove_spec`: a well-formed list with a cell more or less.
* `listWalk_eq`: the loop from `list_begin` to `list_end` visits each cell once, and ends.
-/

namespace OsMaterial

open List

inductive ListFault where
  | notBefore
  | notInterior
  | empty
  | nullDereference
  | notAfter
  | emptyRange
  | notSorted
  deriving DecidableEq

section KernelList

variable {α : Type*} [DecidableEq α] {h : Links α} {head tail e : α} {xs ys : List α}

def isHead (h : Links α) (elem : α) : Prop :=
  h.prev elem = none ∧ h.next elem ≠ none

def isInterior (h : Links α) (elem : α) : Prop :=
  h.prev elem ≠ none ∧ h.next elem ≠ none

def isTail (h : Links α) (elem : α) : Prop :=
  h.prev elem ≠ none ∧ h.next elem = none

instance (h : Links α) (elem : α) : Decidable (isHead h elem) :=
  inferInstanceAs (Decidable (_ ∧ _))

instance (h : Links α) (elem : α) : Decidable (isInterior h elem) :=
  inferInstanceAs (Decidable (_ ∧ _))

instance (h : Links α) (elem : α) : Decidable (isTail h elem) :=
  inferInstanceAs (Decidable (_ ∧ _))

/-! ### The operations -/

def listInit (h : Links α) (head tail : α) : Links α :=
  (((h.setPrev head none).setNext head (some tail)).setPrev tail (some head)).setNext tail none

/-- The assignments of `list_insert`, in order: `elem->prev`, `elem->next`, `before->prev->next` and
`before->prev`. -/
inductive InsertStep where
  | elemPrev
  | elemNext
  | prevNext
  | beforePrev
  deriving DecidableEq

instance : Fintype InsertStep where
  elems := {.elemPrev, .elemNext, .prevNext, .beforePrev}
  complete k := by cases k <;> decide

def InsertStep.next : InsertStep → InsertStep
  | elemPrev => elemNext
  | elemNext => prevNext
  | prevNext | beforePrev => beforePrev

/-- A single assignment of `list_insert`. -/
def insertAssign (h : Links α) (before elem : α) : InsertStep → Outcome ListFault (Links α)
  | .elemPrev => .next (h.setPrev elem (h.prev before))
  | .elemNext => .next (h.setNext elem (some before))
  | .prevNext =>
    match h.prev before with
    | none => .fault .nullDereference
    | some prev => .next (h.setNext prev (some elem))
  | .beforePrev => .next (h.setPrev before (some elem))

/-- The assignments of `list_insert` before one of them. -/
def insertUpTo (h : Links α) (before elem : α) : InsertStep → Outcome ListFault (Links α)
  | .elemPrev => .next h
  | .elemNext => insertAssign h before elem .elemPrev
  | .prevNext => (insertAssign h before elem .elemPrev).bind (insertAssign · before elem .elemNext)
  | .beforePrev => ((insertAssign h before elem .elemPrev).bind
      (insertAssign · before elem .elemNext)).bind (insertAssign · before elem .prevNext)

theorem insertUpTo_next {h₁ : Links α} {before elem : α} {k : InsertStep} (hk : k ≠ .beforePrev)
    (h₀ : insertUpTo h before elem k = .next h₁) :
    insertUpTo h before elem k.next = insertAssign h₁ before elem k := by
  cases k with
  | elemPrev =>
    simp only [insertUpTo, Outcome.next.injEq] at h₀
    exact h₀ ▸ rfl
  | elemNext => exact congrArg (Outcome.bind · (insertAssign · before elem .elemNext)) h₀
  | prevNext => exact congrArg (Outcome.bind · (insertAssign · before elem .prevNext)) h₀
  | beforePrev => exact absurd rfl hk

def listInsert (h : Links α) (before elem : α) : Outcome ListFault (Links α) :=
  if isInterior h before ∨ isTail h before then
    (insertUpTo h before elem .beforePrev).bind (insertAssign · before elem .beforePrev)
  else
    .fault .notBefore

def listRemove (h : Links α) (elem : α) : Outcome ListFault (Links α × Option α) :=
  if isInterior h elem then
    match h.prev elem with
    | none => .fault .nullDereference
    | some prev =>
      let h := h.setNext prev (h.next elem)
      match h.next elem with
      | none => .fault .nullDereference
      | some next =>
        let h := h.setPrev next (h.prev elem)
        .next (h, h.next elem)
  else
    .fault .notInterior

def followLink : Option α → Outcome ListFault α
  | some elem => .next elem
  | none => .fault .nullDereference

def listNext (h : Links α) (elem : α) : Outcome ListFault α :=
  if isHead h elem ∨ isInterior h elem then followLink (h.next elem) else .fault .notAfter

def listPrev (h : Links α) (elem : α) : Outcome ListFault α :=
  if isInterior h elem ∨ isTail h elem then followLink (h.prev elem) else .fault .notBefore

def listEmpty (h : Links α) (head tail : α) : Bool := h.next head = some tail

def listPushFront (h : Links α) (head elem : α) : Outcome ListFault (Links α) :=
  (followLink (h.next head)).bind fun first => listInsert h first elem

def listPushBack (h : Links α) (tail elem : α) : Outcome ListFault (Links α) :=
  listInsert h tail elem

def listFront (h : Links α) (head tail : α) : Outcome ListFault α :=
  if listEmpty h head tail then .fault .empty else followLink (h.next head)

def listBack (h : Links α) (head tail : α) : Outcome ListFault α :=
  if listEmpty h head tail then .fault .empty else followLink (h.prev tail)

def listPopFront (h : Links α) (head tail : α) : Outcome ListFault (Links α × α) :=
  (listFront h head tail).bind fun front =>
    (listRemove h front).bind fun r => .next (r.1, front)

def listPopBack (h : Links α) (head tail : α) : Outcome ListFault (Links α × α) :=
  (listBack h head tail).bind fun back =>
    (listRemove h back).bind fun r => .next (r.1, back)

def spliceCells (h : Links α) (before first last : α) : Outcome ListFault (Links α) :=
  -- Cleanly remove the cells from their current list.
  (followLink (h.prev first)).bind fun prev =>
    let h := h.setNext prev (h.next last)
    (followLink (h.next last)).bind fun next =>
      let h := h.setPrev next (h.prev first)
      -- Splice them into the new list.
      let h := h.setPrev first (h.prev before)
      let h := h.setNext last (some before)
      (followLink (h.prev before)).bind fun prev =>
        let h := h.setNext prev (some first)
        .next (h.setPrev before (some last))

def listSplice (h : Links α) (before first last : α) : Outcome ListFault (Links α) :=
  if isInterior h before ∨ isTail h before then
    if first = last then
      .next h
    else
      (listPrev h last).bind fun last =>
        if isInterior h first then
          if isInterior h last then spliceCells h before first last else .fault .notInterior
        else
          .fault .notInterior
  else
    .fault .notBefore

def swapLinks (h : Links α) (e : α) : Links α :=
  (h.setPrev e (h.next e)).setNext e (h.prev e)

def reverseLoop (tail : α) : ℕ → α → Links α → Outcome ListFault (Links α)
  | 0, _, _ => .blocked
  | fuel + 1, e, h =>
    if e = tail then
      .next h
    else
      let h := swapLinks h e
      (followLink (h.prev e)).bind fun e => reverseLoop tail fuel e h

def listReverse (fuel : ℕ) (h : Links α) (head tail : α) : Outcome ListFault (Links α) :=
  if listEmpty h head tail then
    .next h
  else
    (followLink (h.next head)).bind fun e =>
      (reverseLoop tail fuel e h).bind fun h =>
        -- swap (&list->head.next, &list->tail.prev)
        let t := h.next head
        let h := (h.setNext head (h.prev tail)).setPrev tail t
        -- swap (&list->head.next->prev, &list->tail.prev->next)
        (followLink (h.next head)).bind fun first =>
          (followLink (h.prev tail)).bind fun last =>
            let t := h.prev first
            .next ((h.setPrev first (h.next last)).setNext last t)

/-- The loop `for (e = elem; e != list_end (&list); e = list_next (e))`: the cells it visits, or
`none` if it does not end within `fuel` tests or an assertion fails. -/
def listWalk (h : Links α) (tail : α) : ℕ → α → Option (List α)
  | 0, _ => none
  | fuel + 1, elem =>
    if elem = tail then
      some []
    else if isHead h elem ∨ isInterior h elem then
      (h.next elem).bind fun next => (listWalk h tail fuel next).map (elem :: ·)
    else
      none

/-! ### Well-formed lists -/

theorem listInit_isList (h : Links α) (hne : head ≠ tail) :
    (listInit h head tail).IsList head tail [] := by
  refine ⟨⟨?_, by simpa using hne⟩, ?_, ?_⟩
  · simp [listInit, Links.Linked, hne]
  · simp [listInit, hne]
  · simp [listInit]

omit [DecidableEq α] in
theorem isTail_of_isList (hl : h.IsList head tail xs) : isTail h tail := by
  obtain ⟨-, a, -, ha, -⟩ := hl.last
  exact ⟨by simp [ha], hl.tail_next⟩

theorem insert_assignments {a : α} (hprev : h.prev tail = some a) (hne : e ≠ tail) :
    ((insertUpTo h tail e .beforePrev).bind (insertAssign · tail e .beforePrev)) =
      .next (h.relink a e e tail) := by
  simp [insertUpTo, insertAssign, hprev, hne.symm]

/-- **`list_push_back`** appends a cell that is not in the list. -/
theorem listInsert_back (hl : h.IsList head tail xs) (he : e ∉ head :: xs ++ [tail]) :
    ∃ h', listInsert h tail e = .next h' ∧
      ((insertUpTo h tail e .beforePrev).bind (insertAssign · tail e .beforePrev)) = .next h' ∧
      h'.IsList head tail (xs ++ [e]) := by
  obtain ⟨l, a, ha, hprev, -⟩ := hl.last
  have heq := insert_assignments hprev (e := e) (by rintro rfl; simp at he)
  refine ⟨_, ?_, heq, ?_⟩
  · rw [listInsert, if_pos (.inr (isTail_of_isList hl)), heq]
  · have hl' : h.IsList head tail (xs ++ []) := by rwa [append_nil]
    have hjoin := hl'.join ha rfl ⟨.singleton e, nodup_singleton e⟩
      (fun x hx => by rw [mem_singleton.mp hx, append_nil]; exact he) rfl
      (nil_append [e]).symm
    rwa [append_nil] at hjoin

theorem listRemove_eq {a b : α} (hint : isInterior h e) (hprev : h.prev e = some a)
    (hnext : h.next e = some b) (hne : e ≠ a) :
    listRemove h e = .next ((h.setNext a (some b)).setPrev b (some a), some b) := by
  simp [listRemove, if_pos hint, hprev, hnext, hne]

/-- **`list_remove`** takes a cell of a list out of it. -/
theorem listRemove_spec (hl : h.IsList head tail (xs ++ e :: ys)) :
    ∃ h' next, listRemove h e = .next (h', next) ∧ h'.IsList head tail (xs ++ ys) := by
  obtain ⟨l₁, a, b, l₂, ha, hb, hs⟩ := hl.neighbours
  obtain ⟨-, ⟨-, hea⟩, hs₂, hdisj⟩ := Links.Spine.split.mp hs
  obtain ⟨heb, -⟩ := (isChain_cons_cons.mp hs₂.chain).1
  have hne : e ≠ a := fun hea' => hdisj a (by simp) (by simp [hea'])
  have hint : isInterior h e := ⟨by simp [hea], by simp [heb]⟩
  have hl' : h.IsList head tail (xs ++ [e] ++ ys) := by rwa [append_assoc]
  exact ⟨_, _, listRemove_eq hint hea heb hne, (hl'.cut ha hb).1⟩

theorem listWalk_spine (hs : h.Spine (xs ++ [tail])) (hprev : ∀ x ∈ xs, h.prev x ≠ none)
    {fuel : ℕ} (hf : xs.length < fuel) {first : α} {rest : List α}
    (hfirst : xs ++ [tail] = first :: rest) : listWalk h tail fuel first = some xs := by
  induction xs generalizing fuel first rest with
  | nil =>
    obtain ⟨fuel, rfl⟩ : ∃ n, fuel = n + 1 := ⟨fuel - 1, by simp at hf; omega⟩
    simp only [nil_append, List.cons.injEq] at hfirst
    simp [listWalk, hfirst.1]
  | cons x xs ih =>
    obtain ⟨fuel, rfl⟩ : ∃ n, fuel = n + 1 := ⟨fuel - 1, by simp at hf; omega⟩
    obtain ⟨rfl, hrest⟩ := List.cons.inj hfirst
    obtain ⟨y, l, hy⟩ := Links.IsList.exists_first tail xs
    have hs' := hs
    rw [cons_append, hy] at hs
    have hlink := (isChain_cons_cons.mp hs.chain).1
    have htail : h.Spine (xs ++ [tail]) := ⟨hs'.chain.tail, hs'.nodup.of_cons⟩
    have hne : x ≠ tail := by
      rintro rfl
      simpa using hs'.nodup
    have hint : isInterior h x := ⟨hprev x (by simp), by simp [hlink.1]⟩
    rw [listWalk, if_neg hne, if_pos (.inr hint), hlink.1, Option.bind_some,
      ih htail (fun z hz => hprev z (by simp [hz])) (by simpa using hf) hy, Option.map_some]

/-- **The loop from `list_begin` to `list_end`** visits every cell once, in order. -/
theorem listWalk_eq (hl : h.IsList head tail xs) :
    ∃ first, h.next head = some first ∧
      ∀ fuel, xs.length < fuel → listWalk h tail fuel first = some xs := by
  obtain ⟨first, rest, hfirst⟩ := Links.IsList.exists_first tail xs
  have hs := hl.spine
  rw [cons_append, hfirst] at hs
  have hlink := (isChain_cons_cons.mp hs.chain).1
  refine ⟨first, hlink.1, fun fuel hf => listWalk_spine ?_ ?_ hf hfirst⟩
  · exact ⟨hl.spine.chain.tail, hl.spine.nodup.of_cons⟩
  · intro x hx
    obtain ⟨as, bs, rfl⟩ := append_of_mem hx
    obtain ⟨l₁, a, b, l₂, -, -, hs'⟩ := hl.neighbours
    simp [(Links.Spine.split.mp hs').2.1.2]

end KernelList

end OsMaterial
