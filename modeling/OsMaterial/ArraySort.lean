import Mathlib.Data.List.Range
import Mathlib.Data.Set.Insert
import OsMaterial.BinaryHeap
import OsMaterial.Machine
import OsMaterial.Words

/-!
# Sorting and Searching Arrays

`sort`, `qsort`, `binary_search` and `bsearch` of `lib/stdlib.c`, on the bytes of an array of less
than `2 ^ 31` bytes (`ObjectArray`). Indexes and offsets wrap around at 32 bits, an access outside
the array is a fault, and a loop that does not end within `fuel` tests blocks.

* `heapsort_correct`: **`sort` and `qsort`** sort every array.
* `binary_search_correct`: **`binary_search` and `bsearch`** find an element equal to the key.
-/

namespace OsMaterial

open List

/-! ### The functions -/

inductive ArrayFault where
  | outOfBounds
  | zeroSize
  deriving DecidableEq

def sizeT (n : ℕ) : ℕ := n % 2 ^ 32

def byteAt (array : Bytes) (pos : ℕ) : Outcome ArrayFault UInt8 :=
  match array[pos]? with
  | some b => .next b
  | none => .fault .outOfBounds

def elementAt (array : Bytes) (offset size : ℕ) : Outcome ArrayFault Bytes :=
  if offset + size ≤ array.length then .next ((array.drop offset).take size)
  else .fault .outOfBounds

def elementOffset (idx size : ℕ) : ℕ := sizeT ((idx + (2 ^ 32 - 1)) * size)

def swapLoop (a b : ℕ) : ℕ → ℕ → Bytes → Outcome ArrayFault Bytes
  | 0, _, array => .next array
  | n + 1, i, array =>
    (byteAt array (a + i)).bind fun t =>
      (byteAt array (b + i)).bind fun u =>
        swapLoop a b n (i + 1) ((array.set (a + i) u).set (b + i) t)

def doSwap (array : Bytes) (aIdx bIdx size : ℕ) : Outcome ArrayFault Bytes :=
  swapLoop (elementOffset aIdx size) (elementOffset bIdx size) size 0 array

section Sorting

variable (compare : Bytes → Bytes → ℤ)

def doCompare (array : Bytes) (aIdx bIdx size : ℕ) : Outcome ArrayFault ℤ :=
  (elementAt array (elementOffset aIdx size) size).bind fun a =>
    (elementAt array (elementOffset bIdx size) size).bind fun b => .next (compare a b)

def largerOf (array : Bytes) (cnt size idx max : ℕ) : Outcome ArrayFault ℕ :=
  if idx ≤ cnt then
    (doCompare compare array idx max size).bind fun r => .next (if 0 < r then idx else max)
  else
    .next max

def heapify (cnt size : ℕ) : ℕ → ℕ → Bytes → Outcome ArrayFault Bytes
  | 0, _, _ => .blocked
  | fuel + 1, i, array =>
    let left := sizeT (2 * i)
    let right := sizeT (2 * i + 1)
    (largerOf compare array cnt size left i).bind fun max =>
      (largerOf compare array cnt size right max).bind fun max =>
        if max = i then
          .next array
        else
          (doSwap array i max size).bind fun array => heapify cnt size fuel max array

def buildHeap (fuel cnt size : ℕ) : ℕ → Bytes → Outcome ArrayFault Bytes
  | 0, array => .next array
  | i + 1, array =>
    (heapify compare cnt size fuel (i + 1) array).bind fun array =>
      buildHeap fuel cnt size i array

def sortHeap (fuel size : ℕ) : ℕ → Bytes → Outcome ArrayFault Bytes
  | 0, array => .next array
  | 1, array => .next array
  | i + 2, array =>
    (doSwap array 1 (i + 2) size).bind fun array =>
      (heapify compare (i + 1) size fuel 1 array).bind fun array =>
        sortHeap fuel size (i + 1) array

def sort (fuel : ℕ) (array : Bytes) (cnt size : ℕ) : Outcome ArrayFault Bytes :=
  if 0 < size then
    (buildHeap compare fuel cnt size (cnt / 2) array).bind fun array =>
      sortHeap compare fuel size cnt array
  else
    .fault .zeroSize

end Sorting

def compareThunk (compare : Bytes → Bytes → ℤ) (a b : Bytes) : ℤ := compare a b

def qsort (compare : Bytes → Bytes → ℤ) (fuel : ℕ) (array : Bytes) (cnt size : ℕ) :
    Outcome ArrayFault Bytes :=
  sort (compareThunk compare) fuel array cnt size

section Searching

variable (compare : Bytes → Bytes → ℤ)

def searchLoop (key array : Bytes) (size : ℕ) : ℕ → ℕ → ℕ → Outcome ArrayFault (Option ℕ)
  | 0, _, _ => .blocked
  | fuel + 1, first, last =>
    if first < last then
      let range := (last - first) / size
      let middle := first + sizeT (range / 2 * size)
      (elementAt array middle size).bind fun elem =>
        let cmp := compare key elem
        if cmp < 0 then
          searchLoop key array size fuel first middle
        else if 0 < cmp then
          searchLoop key array size fuel (middle + size) last
        else
          .next (some middle)
    else
      .next none

def binarySearch (fuel : ℕ) (key array : Bytes) (cnt size : ℕ) :
    Outcome ArrayFault (Option ℕ) :=
  searchLoop compare key array size fuel 0 (sizeT (size * cnt))

def bsearch (fuel : ℕ) (key array : Bytes) (cnt size : ℕ) :
    Outcome ArrayFault (Option ℕ) :=
  binarySearch (compareThunk compare) fuel key array cnt size

end Searching

/-! ### Arrays and their elements -/

/-- An array of `cnt` elements of `size` bytes, not larger than `PTRDIFF_MAX`: with one-byte
elements and a larger array the index `2 * i` of `heapify` could wrap around. -/
structure ObjectArray (cnt size : ℕ) where
  bytes : Bytes
  length_eq : bytes.length = cnt * size
  fits : cnt * size < 2 ^ 31

def element (array : Bytes) (size k : ℕ) : Bytes := (array.drop (k * size)).take size

def elements (array : Bytes) (cnt size : ℕ) : List Bytes :=
  (List.range cnt).map (element array size)

/-- The comparison **orders** the elements of `S`. -/
structure SignOrderOn {β : Type*} (compare : β → β → ℤ) (S : Set β) : Prop where
  sign_swap : ∀ a ∈ S, ∀ b ∈ S, 0 < compare a b ↔ compare b a < 0
  trans : ∀ a ∈ S, ∀ b ∈ S, ∀ c ∈ S, compare a b ≤ 0 → compare b c ≤ 0 → compare a c ≤ 0

variable {array : Bytes} {cnt size i : ℕ}

section Bytes

variable {j k : ℕ}

theorem sizeT_of_lt {n : ℕ} (hn : n < 2 ^ 32) : sizeT n = n := Nat.mod_eq_of_lt hn

theorem elementOffset_eq (hk : k * size < 2 ^ 32) : elementOffset (k + 1) size = k * size := by
  have hsplit : (k + 1 + (2 ^ 32 - 1)) * size = k * size + 2 ^ 32 * size := by
    rw [← Nat.add_mul, Nat.add_assoc, Nat.add_sub_cancel' (Nat.one_le_two_pow)]
  rw [elementOffset, sizeT, hsplit, Nat.add_mul_mod_self_left, Nat.mod_eq_of_lt hk]

theorem elementAt_eq (hlen : array.length = cnt * size) (hk : k < cnt) :
    elementAt array (k * size) size = .next (element array size k) := by
  have hle : (k + 1) * size ≤ cnt * size := Nat.mul_le_mul_right size hk
  rw [Nat.add_mul, Nat.one_mul] at hle
  rw [elementAt, if_pos (by omega), element]

theorem byteAt_eq {pos : ℕ} (hpos : pos < array.length) : byteAt array pos = .next array[pos] := by
  rw [byteAt, getElem?_eq_getElem hpos]

theorem getElem?_element {q : ℕ} :
    (element array size k)[q]? = if q < size then array[k * size + q]? else none := by
  rw [element, getElem?_take, getElem?_drop]

theorem swapLoop_eq (array : Bytes) (a b n i : ℕ) (ha : a + i + n ≤ array.length)
    (hb : b + i + n ≤ array.length) (hdisj : a + i + n ≤ b + i ∨ b + i + n ≤ a + i) :
    ∃ array', swapLoop a b n i array = .next array' ∧ array'.length = array.length ∧
      ∀ p, array'[p]? = if a + i ≤ p ∧ p < a + i + n then array[p - a + b]?
        else if b + i ≤ p ∧ p < b + i + n then array[p - b + a]? else array[p]? := by
  induction n generalizing i array with
  | zero =>
    refine ⟨array, rfl, rfl, fun p => ?_⟩
    rw [if_neg (by omega), if_neg (by omega)]
  | succ n ih =>
    rw [swapLoop, byteAt_eq (by omega), Outcome.bind_next, byteAt_eq (by omega), Outcome.bind_next]
    generalize hnew : (array.set (a + i) array[b + i]).set (b + i) array[a + i] = array₁
    have hlen : array₁.length = array.length := by rw [← hnew, length_set, length_set]
    have hget : ∀ p, array₁[p]? = if p = a + i then array[b + i]?
        else if p = b + i then array[a + i]? else array[p]? := by
      intro p
      rw [← hnew, getElem?_set, getElem?_set, length_set]
      by_cases hpa : p = a + i
      · subst hpa
        rw [if_neg (by omega), if_pos rfl, if_pos (by omega), if_pos rfl, getElem?_eq_getElem]
      · by_cases hpb : p = b + i
        · subst hpb
          rw [if_pos rfl, if_pos (by omega), if_neg hpa, if_pos rfl, getElem?_eq_getElem]
        · rw [if_neg (Ne.symm hpb), if_neg (Ne.symm hpa), if_neg hpa, if_neg hpb]
    obtain ⟨array', hloop, hlen', hget'⟩ := ih array₁ (i + 1) (by omega) (by omega) (by omega)
    refine ⟨array', hloop, hlen'.trans hlen, fun p => ?_⟩
    rw [hget']
    by_cases hpa : a + i ≤ p ∧ p < a + i + (n + 1)
    · rw [if_pos hpa]
      by_cases hfirst : p = a + i
      · subst hfirst
        rw [if_neg (by omega), if_neg (by omega), hget, if_pos rfl]
        congr 1
        omega
      · rw [if_pos (by omega), hget, if_neg (by omega), if_neg (by omega)]
    · rw [if_neg hpa, if_neg (by omega)]
      by_cases hpb : b + i ≤ p ∧ p < b + i + (n + 1)
      · rw [if_pos hpb]
        by_cases hfirst : p = b + i
        · subst hfirst
          rw [if_neg (by omega), hget, if_neg (by omega), if_pos rfl]
          congr 1
          omega
        · rw [if_pos (by omega), hget, if_neg (by omega), if_neg (by omega)]
      · rw [if_neg hpb, if_neg (by omega), hget, if_neg (by omega), if_neg (by omega)]

def contents (array : Bytes) (size : ℕ) : ℕ → Bytes
  | 0 => []
  | k + 1 => element array size k

theorem elements_eq_map (array : Bytes) (cnt size : ℕ) :
    elements array cnt size = (range' 1 cnt).map (contents array size) := by
  rw [range'_eq_map_range, map_map, elements]
  refine map_congr_left fun k _ => ?_
  rw [Function.comp_apply, Nat.add_comm 1 k, contents]

theorem element_disjoint (size : ℕ) (hij : i ≠ j) :
    i * size + size ≤ j * size ∨ j * size + size ≤ i * size := by
  rcases Nat.lt_or_gt_of_ne hij with hlt | hgt
  · have := Nat.mul_le_mul_right size (Nat.succ_le_of_lt hlt)
    rw [Nat.succ_mul] at this
    exact .inl this
  · have := Nat.mul_le_mul_right size (Nat.succ_le_of_lt hgt)
    rw [Nat.succ_mul] at this
    exact .inr this

theorem element_end_le (hk : k < cnt) : k * size + size ≤ cnt * size := by
  have := Nat.mul_le_mul_right size (Nat.succ_le_of_lt hk)
  rwa [Nat.succ_mul] at this

/-- **`do_swap`** exchanges two elements. -/
theorem doSwap_eq (hlen : array.length = cnt * size) (hfits : cnt * size < 2 ^ 31)
    (hi : 1 ≤ i ∧ i ≤ cnt) (hj : 1 ≤ j ∧ j ≤ cnt) (hij : i ≠ j) :
    ∃ array', doSwap array i j size = .next array' ∧ array'.length = cnt * size ∧
      contents array' size = exchanged (contents array size) i j := by
  obtain ⟨i, rfl⟩ := Nat.exists_eq_add_of_le' hi.1
  obtain ⟨j, rfl⟩ := Nat.exists_eq_add_of_le' hj.1
  have hi' : i * size + size ≤ cnt * size := element_end_le (by omega)
  have hj' : j * size + size ≤ cnt * size := element_end_le (by omega)
  have hdisj : i * size + size ≤ j * size ∨ j * size + size ≤ i * size :=
    element_disjoint size (by omega)
  rw [doSwap, elementOffset_eq (by omega), elementOffset_eq (by omega)]
  obtain ⟨array', hloop, hlen', hget⟩ :=
    swapLoop_eq array (i * size) (j * size) size 0 (by omega) (by omega) (by omega)
  refine ⟨array', hloop, hlen'.trans hlen, ?_⟩
  funext k
  cases k with
  | zero => rw [exchanged_of_ne _ (by omega) (by omega), contents, contents]
  | succ k =>
    -- compare the two elements byte by byte
    have hbyte : ∀ m, (∀ q < size, array'[k * size + q]? = array[m * size + q]?) →
        element array' size k = element array size m := by
      intro m hm
      refine ext_getElem? fun q => ?_
      rw [getElem?_element, getElem?_element]
      split
      · next hq => exact hm q hq
      · rfl
    by_cases hki : k = i
    · subst hki
      rw [exchanged_left, contents, contents]
      refine hbyte j fun q hq => ?_
      rw [hget, if_pos (by omega)]
      congr 1
      omega
    · by_cases hkj : k = j
      · subst hkj
        rw [exchanged_right, contents, contents]
        refine hbyte i fun q hq => ?_
        rw [hget, if_neg (by omega), if_pos (by omega)]
        congr 1
        omega
      · rw [exchanged_of_ne _ (by omega) (by omega), contents, contents]
        refine hbyte k fun q hq => ?_
        have hdi := element_disjoint size hki
        have hdj := element_disjoint size hkj
        rw [hget, if_neg (by omega), if_neg (by omega)]

end Bytes

/-! ### Sifting -/

section Heapsort

variable {compare : Bytes → Bytes → ℤ} {S : Set Bytes} {n : ℕ}

abbrev Below (compare : Bytes → Bytes → ℤ) (a b : Bytes) : Prop := compare a b ≤ 0

theorem SignOrderOn.refl (ho : SignOrderOn compare S) : ∀ a ∈ S, Below compare a a := by
  intro a ha
  have := ho.sign_swap a ha a ha
  omega

theorem SignOrderOn.of_pos (ho : SignOrderOn compare S) {a b : Bytes} (ha : a ∈ S)
    (hb : b ∈ S) (hpos : 0 < compare a b) : Below compare b a :=
  ((ho.sign_swap a ha b hb).mp hpos).le

def AllIn (S : Set Bytes) (array : Bytes) (cnt size : ℕ) : Prop :=
  ∀ k, 1 ≤ k ∧ k ≤ cnt → contents array size k ∈ S

theorem AllIn.rearranged {array' : Bytes} (hS : AllIn S array cnt size)
    (hr : RearrangedTo cnt (contents array size) (contents array' size)) :
    AllIn S array' cnt size := by
  intro k hk
  obtain ⟨j, hj, heq⟩ := hr.exists_source hk
  rw [heq]
  exact hS j hj

theorem doCompare_eq (hlen : array.length = cnt * size) (hfits : cnt * size < 2 ^ 31) {j : ℕ}
    (hi : 1 ≤ i ∧ i ≤ cnt) (hj : 1 ≤ j ∧ j ≤ cnt) :
    doCompare compare array i j size =
      .next (compare (contents array size i) (contents array size j)) := by
  obtain ⟨i, rfl⟩ := Nat.exists_eq_add_of_le' hi.1
  obtain ⟨j, rfl⟩ := Nat.exists_eq_add_of_le' hj.1
  have hi' : i * size + size ≤ cnt * size := element_end_le (by omega)
  have hj' : j * size + size ≤ cnt * size := element_end_le (by omega)
  rw [doCompare, elementOffset_eq (by omega), elementOffset_eq (by omega),
    elementAt_eq hlen (by omega), Outcome.bind_next, elementAt_eq hlen (by omega),
    Outcome.bind_next, contents, contents]

section Loops

variable (ho : SignOrderOn compare S) (hlen : array.length = cnt * size)
  (hfits : cnt * size < 2 ^ 31) (hpos : 0 < size) (hS : AllIn S array cnt size)

include ho hlen hfits hS

theorem largerOf_eq (hn : n ≤ cnt) (idx : ℕ) {max : ℕ} (hidx : 1 ≤ idx)
    (hmax : 1 ≤ max ∧ max ≤ cnt) :
    ∃ m, largerOf compare array n size idx max = .next m ∧ (m = max ∨ m = idx ∧ idx ≤ n) ∧
      Below compare (contents array size max) (contents array size m) ∧
      (idx ≤ n → Below compare (contents array size idx) (contents array size m)) := by
  have hmaxS := hS max hmax
  by_cases hle : idx ≤ n
  · have hidx' : 1 ≤ idx ∧ idx ≤ cnt := ⟨hidx, hle.trans hn⟩
    have hidxS := hS idx hidx'
    rw [largerOf, if_pos hle, doCompare_eq hlen hfits hidx' hmax, Outcome.bind_next]
    by_cases hpos : 0 < compare (contents array size idx) (contents array size max)
    · rw [if_pos hpos]
      exact ⟨idx, rfl, .inr ⟨rfl, hle⟩, ho.of_pos hidxS hmaxS hpos, fun _ => ho.refl _ hidxS⟩
    · rw [if_neg hpos]
      exact ⟨max, rfl, .inl rfl, ho.refl _ hmaxS, fun _ => not_lt.mp hpos⟩
  · rw [largerOf, if_neg hle]
    exact ⟨max, rfl, .inl rfl, ho.refl _ hmaxS, fun h => absurd h hle⟩

include hpos

theorem heapify_eq (hn : n ≤ cnt) (hi : 1 ≤ i ∧ i ≤ cnt) :
    ∃ array', (∀ fuel, cnt < i + fuel → heapify compare n size fuel i array = .next array') ∧
      array'.length = cnt * size ∧
      Sift (Below compare) n (contents array size) i (contents array' size) := by
  induction hd : cnt - i using Nat.strongRecOn generalizing i array with
  | ind d ih =>
    have hcnt : cnt ≤ cnt * size := Nat.le_mul_of_pos_right cnt hpos
    have hleft : sizeT (2 * i) = 2 * i := sizeT_of_lt (by omega)
    have hright : sizeT (2 * i + 1) = 2 * i + 1 := sizeT_of_lt (by omega)
    obtain ⟨m₁, hm₁, hcase₁, hle₁, hleft₁⟩ := largerOf_eq ho hlen hfits hS hn (2 * i) (by omega) hi
    have hm₁' : 1 ≤ m₁ ∧ m₁ ≤ cnt := by rcases hcase₁ with rfl | ⟨rfl, hle⟩ <;> omega
    obtain ⟨m₂, hm₂, hcase₂, hle₂, hright₂⟩ := largerOf_eq ho hlen hfits hS hn
      (2 * i + 1) (by omega) hm₁'
    have hm₂' : 1 ≤ m₂ ∧ m₂ ≤ cnt := by rcases hcase₂ with rfl | ⟨rfl, hle⟩ <;> omega
    have hstep : ∀ fuel, heapify compare n size (fuel + 1) i array =
        if m₂ = i then .next array
        else (doSwap array i m₂ size).bind fun array => heapify compare n size fuel m₂ array := by
      intro fuel
      rw [heapify, hleft, hright, hm₁, Outcome.bind_next, hm₂, Outcome.bind_next]
    have hiS := hS i hi
    have hm₁S := hS m₁ hm₁'
    have hm₂S := hS m₂ hm₂'
    have hchildren : ∀ c, IsChild c i → c ≤ n →
        Below compare (contents array size c) (contents array size m₂) := by
      intro c hc hcn
      rcases hc with rfl | rfl
      · exact ho.trans _ (hS _ (by omega)) _ hm₁S _ hm₂S (hleft₁ hcn) hle₂
      · exact hright₂ hcn
    by_cases hdone : m₂ = i
    · refine ⟨array, fun fuel hf => ?_, hlen, .stop (hdone ▸ hchildren)⟩
      obtain ⟨fuel, rfl⟩ := Nat.exists_eq_succ_of_ne_zero (by omega : fuel ≠ 0)
      rw [hstep, if_pos hdone]
    · have hchild : IsChild m₂ i ∧ m₂ ≤ n := by
        rw [IsChild]
        omega
      obtain ⟨array₁, hswap, hlen₁, hcontents⟩ := doSwap_eq hlen hfits hi hm₂' (by omega)
      have hS₁ : AllIn S array₁ cnt size :=
        hS.rearranged (hcontents ▸ RearrangedTo.exchanged hi hm₂' _)
      obtain ⟨array', hrest, hlen', hsift⟩ := ih (cnt - m₂) (by omega) hlen₁ hS₁ hm₂' rfl
      refine ⟨array', fun fuel hf => ?_, hlen', ?_⟩
      · obtain ⟨fuel, rfl⟩ := Nat.exists_eq_succ_of_ne_zero (by omega : fuel ≠ 0)
        rw [hstep, if_neg hdone, hswap, Outcome.bind_next]
        exact hrest fuel (by omega)
      · rw [hcontents] at hsift
        exact .down hchild.1 hchild.2 (ho.trans _ hiS _ hm₁S _ hm₂S hle₁ hle₂) hchildren hsift

/-! ### The two loops of `sort` -/

theorem buildHeap_eq (hi : i ≤ cnt)
    (hheap : HeapFrom (Below compare) (i + 1) cnt (contents array size)) :
    ∃ array', (∀ fuel, cnt < fuel → buildHeap compare fuel cnt size i array = .next array') ∧
      array'.length = cnt * size ∧
      HeapFrom (Below compare) 1 cnt (contents array' size) ∧
      RearrangedTo cnt (contents array size) (contents array' size) := by
  induction i generalizing array with
  | zero => exact ⟨array, fun _ _ => rfl, hlen, hheap, .refl cnt _⟩
  | succ i ih =>
    have hi' : 1 ≤ i + 1 ∧ i + 1 ≤ cnt := ⟨Nat.le_add_left 1 i, hi⟩
    obtain ⟨array₁, hheapify, hlen₁, hsift⟩ := heapify_eq ho hlen hfits hpos hS le_rfl hi'
    have hr₁ := hsift.rearrangedTo hi'.1
    obtain ⟨array', hbuild, hlen', hheap', hr⟩ := ih hlen₁ (hS.rearranged hr₁) (by omega)
      (hsift.heapFrom hi'.1 hheap)
    refine ⟨array', fun fuel hf => ?_, hlen', hheap', hr₁.trans hr⟩
    rw [buildHeap, hheapify fuel (by omega), Outcome.bind_next]
    exact hbuild fuel hf

theorem sortHeap_eq (hi : i ≤ cnt) (hheap : HeapFrom (Below compare) 1 i (contents array size))
    (hsorted : SortedAfter (Below compare) i cnt (contents array size)) :
    ∃ array', (∀ fuel, cnt < fuel → sortHeap compare fuel size i array = .next array') ∧
      array'.length = cnt * size ∧ SortedAfter (Below compare) 1 cnt (contents array' size) ∧
      RearrangedTo cnt (contents array size) (contents array' size) := by
  induction i generalizing array with
  | zero =>
    refine ⟨array, fun _ _ => rfl, hlen, fun j k hj hjk hk => ?_, .refl cnt _⟩
    exact hsorted j k hj hjk (by omega)
  | succ i ih =>
    cases i with
    | zero => exact ⟨array, fun _ _ => rfl, hlen, hsorted, .refl cnt _⟩
    | succ i =>
      have hroot : 1 ≤ 1 ∧ 1 ≤ cnt := by omega
      obtain ⟨array₁, hswap, hlen₁, hcontents⟩ :=
        doSwap_eq hlen hfits hroot ⟨by omega, hi⟩ (by omega : 1 ≠ i + 2)
      have hr₁ : RearrangedTo cnt (contents array size) (contents array₁ size) :=
        hcontents ▸ RearrangedTo.exchanged hroot ⟨by omega, hi⟩ _
      have hS₁ := hS.rearranged hr₁
      obtain ⟨hsorted₁, hheap₁⟩ := hsorted.step hheap
        (fun k hk => hS k ⟨hk.1, hk.2.trans hi⟩) ho.refl ho.trans
      rw [← hcontents] at hsorted₁ hheap₁
      obtain ⟨array₂, hheapify, hlen₂, hsift⟩ :=
        heapify_eq ho hlen₁ hfits hpos hS₁ (by omega : i + 1 ≤ cnt) hroot
      have hr₂ := hsift.rearrangedTo le_rfl
      have hr₂' : RearrangedTo cnt (contents array₁ size) (contents array₂ size) :=
        hr₂.mono (by omega)
      obtain ⟨array', hsort, hlen', hsorted', hr⟩ := ih hlen₂ (hS₁.rearranged hr₂') (by omega)
        (hsift.heapFrom le_rfl hheap₁) (hsorted₁.rearranged hr₂)
      refine ⟨array', fun fuel hf => ?_, hlen', hsorted', (hr₁.trans hr₂').trans hr⟩
      rw [sortHeap, hswap, Outcome.bind_next, hheapify fuel (by omega), Outcome.bind_next]
      exact hsort fuel hf

end Loops

theorem mem_range'_places {k : ℕ} : k ∈ range' 1 cnt ↔ 1 ≤ k ∧ k ≤ cnt := by
  rw [mem_range'_1]
  omega

theorem allIn_elements (array : Bytes) (cnt size : ℕ) :
    AllIn {e | e ∈ elements array cnt size} array cnt size := by
  intro k hk
  have hmem : contents array size k ∈ elements array cnt size := by
    rw [elements_eq_map]
    exact mem_map_of_mem (mem_range'_places.mpr hk)
  exact hmem

/-- **`sort` and `qsort` are correct**: with enough fuel they end and access no byte outside the
array, and the elements are a permutation of what they were, in nondecreasing order. -/
theorem heapsort_correct (array : ObjectArray cnt size) (hsize : 0 < size)
    (ho : SignOrderOn compare {e | e ∈ elements array.bytes cnt size}) :
    ∃ array' : ObjectArray cnt size,
      (∀ fuel, cnt < fuel →
        sort compare fuel array.bytes cnt size = .next array'.bytes ∧
          qsort compare fuel array.bytes cnt size = .next array'.bytes) ∧
      (elements array'.bytes cnt size).Perm (elements array.bytes cnt size) ∧
      (elements array'.bytes cnt size).Pairwise fun a b => compare a b ≤ 0 := by
  have hS := allIn_elements array.bytes cnt size
  obtain ⟨array₁, hbuild, hlen₁, hheap, hr₁⟩ := buildHeap_eq ho array.length_eq array.fits hsize hS
    (Nat.div_le_self cnt 2) (by
      intro i hi c hc hcn
      rcases hc with rfl | rfl <;> omega)
  obtain ⟨array', hsort, hlen', hsorted, hr₂⟩ := sortHeap_eq ho hlen₁ array.fits hsize
    (hS.rearranged hr₁) le_rfl hheap (fun j k _ _ hk hkt => absurd hkt (by omega))
  refine ⟨⟨array', hlen', array.fits⟩, fun fuel hf => ?_, ?_, ?_⟩
  · have hrun : sort compare fuel array.bytes cnt size = .next array' := by
      rw [sort, if_pos hsize, hbuild fuel hf, Outcome.bind_next, hsort fuel hf]
    exact ⟨hrun, hrun⟩
  · rw [elements_eq_map, elements_eq_map]
    exact (hr₁.trans hr₂).perm_map
  · rw [elements_eq_map, pairwise_map]
    refine (pairwise_lt_range' 1).imp_of_mem fun {j k} hj hk hjk => ?_
    rw [mem_range'_places] at hj hk
    exact hsorted j k hj.1 hjk (by omega) hk.2

def threePairs : ObjectArray 3 2 := ⟨[2, 7, 1, 8, 2, 6], rfl, by decide⟩

def firstByteDiff (a b : Bytes) : ℤ := (a.headD 0).toNat - (b.headD 0).toNat

theorem signOrderOn_firstByteDiff (S : Set Bytes) : SignOrderOn firstByteDiff S where
  sign_swap := by
    intro a _ b _
    rw [firstByteDiff, firstByteDiff]
    omega
  trans := by
    intro a _ b _ c _ hab hbc
    rw [firstByteDiff] at *
    omega

/-- Three pairs, sorted by their first bytes. -/
theorem heapsort_correct_threePairs :
    0 < 2 ∧ ∃ array' : ObjectArray 3 2,
      (∀ fuel, 3 < fuel →
        sort firstByteDiff fuel threePairs.bytes 3 2 = .next array'.bytes ∧
          qsort firstByteDiff fuel threePairs.bytes 3 2 = .next array'.bytes) ∧
      (elements array'.bytes 3 2).Perm (elements threePairs.bytes 3 2) ∧
      (elements array'.bytes 3 2).Pairwise fun a b => firstByteDiff a b ≤ 0 :=
  ⟨by decide, heapsort_correct threePairs (by decide) (signOrderOn_firstByteDiff _)⟩

end Heapsort

/-! ### Binary search -/

section BinarySearch

variable {compare : Bytes → Bytes → ℤ} {key : Bytes}

def KeyFits (compare : Bytes → Bytes → ℤ) (key : Bytes) (S : Set Bytes) :
    Prop :=
  ∀ a ∈ S, ∀ b ∈ S, compare a b ≤ 0 →
    (compare key a < 0 → compare key b < 0) ∧ (0 < compare key b → 0 < compare key a)

theorem SignOrderOn.keyFits {S : Set Bytes} (ho : SignOrderOn compare (insert key S)) :
    KeyFits compare key S := by
  intro a ha b hb hab
  have hkey : key ∈ insert key S := Set.mem_insert key S
  have ha' : a ∈ insert key S := Set.mem_insert_of_mem key ha
  have hb' : b ∈ insert key S := Set.mem_insert_of_mem key hb
  constructor
  · intro hlt
    by_contra hge
    have hbk : compare b key ≤ 0 := by
      have := ho.sign_swap b hb' key hkey
      omega
    have hak := ho.trans a ha' b hb' key hkey hab hbk
    have := ho.sign_swap a ha' key hkey
    omega
  · intro hpos
    by_contra hle
    have := ho.trans key hkey a ha' b hb' (by omega) hab
    omega

structure SearchRange (compare : Bytes → Bytes → ℤ) (key array : Bytes)
    (cnt size f l : ℕ) : Prop where
  le : f ≤ l
  le_cnt : l ≤ cnt
  below : ∀ k, k < f → 0 < compare key (element array size k)
  above : ∀ k, l ≤ k → k < cnt → compare key (element array size k) < 0

variable {f l : ℕ}
  (hmono : ∀ j k, j ≤ k → k < cnt →
    (compare key (element array size j) < 0 → compare key (element array size k) < 0) ∧
    (0 < compare key (element array size k) → 0 < compare key (element array size j)))

include hmono in
theorem SearchRange.probe {m : ℕ} (hr : SearchRange compare key array cnt size f l)
    (hm : f ≤ m ∧ m < l) :
    (compare key (element array size m) < 0 → SearchRange compare key array cnt size f m) ∧
      (0 < compare key (element array size m) →
        SearchRange compare key array cnt size (m + 1) l) := by
  obtain ⟨hle, hcnt, hbelow, habove⟩ := hr
  constructor
  · intro hlt
    exact ⟨hm.1, by omega, hbelow, fun k hk hkc => (hmono m k hk hkc).1 hlt⟩
  · intro hgt
    exact ⟨hm.2, hcnt, fun k hk => (hmono k m (by omega) (by omega)).2 hgt, habove⟩

include hmono in
theorem searchLoop_eq (hlen : array.length = cnt * size) (hfits : cnt * size < 2 ^ 31)
    (hsize : 0 < size) (hr : SearchRange compare key array cnt size f l) :
    ∃ r, (∀ fuel, l < f + fuel →
        searchLoop compare key array size fuel (f * size) (l * size) = .next r) ∧
      (∀ p, r = some p → ∃ k < cnt, p = k * size ∧ compare key (element array size k) = 0) ∧
      (r = none → ∀ k < cnt, compare key (element array size k) ≠ 0) := by
  induction hd : l - f using Nat.strongRecOn generalizing f l with
  | ind d ih =>
    have hcnt := hr.le_cnt
    by_cases hlt : f < l
    · obtain ⟨m, hm⟩ : ∃ m, m = f + (l - f) / 2 := ⟨_, rfl⟩
      have hm' : f ≤ m ∧ m < l := by omega
      have hmul : m * size ≤ cnt * size := Nat.mul_le_mul_right size (by omega)
      have hrange : (l * size - f * size) / size = l - f := by
        rw [← Nat.sub_mul, Nat.mul_div_cancel _ hsize]
      have hmid : f * size + sizeT ((l - f) / 2 * size) = m * size := by
        have hsplit : m * size = f * size + (l - f) / 2 * size := by rw [hm, Nat.add_mul]
        rw [sizeT_of_lt (by omega), hsplit]
      have hstep : ∀ fuel,
          searchLoop compare key array size (fuel + 1) (f * size) (l * size) =
            if compare key (element array size m) < 0 then
              searchLoop compare key array size fuel (f * size) (m * size)
            else if 0 < compare key (element array size m) then
              searchLoop compare key array size fuel ((m + 1) * size) (l * size)
            else .next (some (m * size)) := by
        intro fuel
        rw [searchLoop, if_pos (Nat.mul_lt_mul_of_pos_right hlt hsize)]
        simp only [hrange, hmid]
        rw [elementAt_eq hlen (by omega), Outcome.bind_next, Nat.succ_mul]
      obtain ⟨hdown, hup⟩ := hr.probe hmono hm'
      by_cases hneg : compare key (element array size m) < 0
      · obtain ⟨r, hrun, hfound⟩ := ih (m - f) (by omega) (hdown hneg) rfl
        refine ⟨r, fun fuel hf => ?_, hfound⟩
        obtain ⟨fuel, rfl⟩ := Nat.exists_eq_succ_of_ne_zero (by omega : fuel ≠ 0)
        rw [hstep, if_pos hneg]
        exact hrun fuel (by omega)
      · by_cases hgt : 0 < compare key (element array size m)
        · obtain ⟨r, hrun, hfound⟩ := ih (l - (m + 1)) (by omega) (hup hgt) rfl
          refine ⟨r, fun fuel hf => ?_, hfound⟩
          obtain ⟨fuel, rfl⟩ := Nat.exists_eq_succ_of_ne_zero (by omega : fuel ≠ 0)
          rw [hstep, if_neg hneg, if_pos hgt]
          exact hrun fuel (by omega)
        · refine ⟨some (m * size), fun fuel hf => ?_, ?_, nofun⟩
          · obtain ⟨fuel, rfl⟩ := Nat.exists_eq_succ_of_ne_zero (by omega : fuel ≠ 0)
            rw [hstep, if_neg hneg, if_neg hgt]
          · intro p hp
            cases hp
            exact ⟨m, by omega, rfl, by omega⟩
    · have hfl : f = l := Nat.le_antisymm hr.le (by omega)
      refine ⟨none, fun fuel hf => ?_, nofun, fun _ k hk => ?_⟩
      · obtain ⟨fuel, rfl⟩ := Nat.exists_eq_succ_of_ne_zero (by omega : fuel ≠ 0)
        rw [searchLoop, hfl, if_neg (Nat.lt_irrefl _)]
      · rcases Nat.lt_or_ge k f with hkf | hkf
        · exact (hr.below k hkf).ne'
        · exact (hr.above k (by omega) hk).ne

/-- **`binary_search` and `bsearch`** return an element that compares equal to the key if there is
one, and null otherwise. -/
theorem binary_search_correct (array : ObjectArray cnt size) (hsize : 0 < size)
    (hsorted : (elements array.bytes cnt size).Pairwise fun a b => compare a b ≤ 0)
    (hkey : KeyFits compare key {e | e ∈ elements array.bytes cnt size}) :
    ∃ r, (∀ fuel, cnt < fuel →
        binarySearch compare fuel key array.bytes cnt size = .next r ∧
          bsearch compare fuel key array.bytes cnt size = .next r) ∧
      ((∃ k < cnt, compare key (element array.bytes size k) = 0) →
        ∃ k < cnt, r = some (k * size) ∧ compare key (element array.bytes size k) = 0) ∧
      ((∀ k < cnt, compare key (element array.bytes size k) ≠ 0) → r = none) := by
  have hmem : ∀ k < cnt, element array.bytes size k ∈ elements array.bytes cnt size :=
    fun k hk => mem_map_of_mem (mem_range.mpr hk)
  have hmono : ∀ j k, j ≤ k → k < cnt →
      (compare key (element array.bytes size j) < 0 →
        compare key (element array.bytes size k) < 0) ∧
      (0 < compare key (element array.bytes size k) →
        0 < compare key (element array.bytes size j)) := by
    intro j k hjk hk
    rcases Nat.lt_or_eq_of_le hjk with hlt | rfl
    · refine hkey _ (hmem j (by omega)) _ (hmem k hk) ?_
      rw [elements, pairwise_map, pairwise_iff_getElem] at hsorted
      have := hsorted j k (by rw [length_range]; omega) (by rwa [length_range]) hlt
      rwa [getElem_range, getElem_range] at this
    · exact ⟨id, id⟩
  have hall : SearchRange compare key array.bytes cnt size 0 cnt :=
    ⟨Nat.zero_le cnt, le_rfl, fun k hk => absurd hk (Nat.not_lt_zero k),
      fun k hk hkc => absurd hkc (by omega)⟩
  obtain ⟨r, hrun, hsome, hnone⟩ := searchLoop_eq hmono array.length_eq array.fits hsize hall
  refine ⟨r, fun fuel hf => ?_, ?_, ?_⟩
  · have hsearch : binarySearch compare fuel key array.bytes cnt size = .next r := by
      have hfits := array.fits
      rw [binarySearch, Nat.mul_comm, sizeT_of_lt (by omega)]
      have := hrun fuel (by omega)
      rwa [Nat.zero_mul] at this
    exact ⟨hsearch, hsearch⟩
  · rintro ⟨k, hk, hequal⟩
    cases hres : r with
    | none => exact absurd hequal (hnone hres k hk)
    | some p =>
      obtain ⟨j, hj, rfl, hj0⟩ := hsome p hres
      exact ⟨j, hj, rfl, hj0⟩
  · intro hdiffer
    cases hres : r with
    | none => rfl
    | some p =>
      obtain ⟨j, hj, -, hj0⟩ := hsome p hres
      exact absurd hj0 (hdiffer j hj)

def threePairsSorted : ObjectArray 3 2 := ⟨[1, 8, 2, 7, 2, 6], rfl, by decide⟩

/-- A key among three sorted pairs. -/
theorem binary_search_correct_threePairs :
    ∃ r, (∀ fuel, 3 < fuel →
        binarySearch firstByteDiff fuel [2] threePairsSorted.bytes 3 2 = .next r ∧
          bsearch firstByteDiff fuel [2] threePairsSorted.bytes 3 2 = .next r) ∧
      ((∃ k < 3, firstByteDiff [2] (element threePairsSorted.bytes 2 k) = 0) →
        ∃ k < 3, r = some (k * 2) ∧
          firstByteDiff [2] (element threePairsSorted.bytes 2 k) = 0) ∧
      ((∀ k < 3, firstByteDiff [2] (element threePairsSorted.bytes 2 k) ≠ 0) → r = none) :=
  binary_search_correct threePairsSorted (by decide) (by decide)
    (signOrderOn_firstByteDiff _).keyFits

end BinarySearch

end OsMaterial
