import Mathlib.Algebra.Group.End
import Mathlib.Algebra.Order.Group.Nat
import Mathlib.Data.List.Nodup
import Mathlib.Data.List.Perm.Subperm

/-!
# Binary Heaps

The elements of a binary heap by their places, which count from 1; only those up to some `n` matter.
Sifting down (`Sift`) exchanges an element with its largest child until no child is larger.

* `Sift.heapFrom`: **sifting down** extends a heap by the place where it starts.
* `SortedAfter.step`: moving the root behind the heap.
-/

namespace OsMaterial

open List

variable {k i j m total : ℕ}
variable {α : Type*}

def IsChild (c i : ℕ) : Prop := c = 2 * i ∨ c = 2 * i + 1

def exchanged (a : ℕ → α) (i j : ℕ) : ℕ → α := a ∘ Equiv.swap i j

theorem exchanged_left (a : ℕ → α) (i j : ℕ) : exchanged a i j i = a j :=
  congrArg a (Equiv.swap_apply_left i j)

theorem exchanged_right (a : ℕ → α) (i j : ℕ) : exchanged a i j j = a i :=
  congrArg a (Equiv.swap_apply_right i j)

theorem exchanged_of_ne (a : ℕ → α) (hi : k ≠ i) (hj : k ≠ j) : exchanged a i j k = a k :=
  congrArg a (Equiv.swap_apply_of_ne_of_ne hi hj)

/-! ### Rearrangements -/

/-- `b` is `a` with the elements of the places from 1 to `n` rearranged. -/
def RearrangedTo (n : ℕ) (a b : ℕ → α) : Prop :=
  ∃ σ : Equiv.Perm ℕ, (∀ k, ¬ (1 ≤ k ∧ k ≤ n) → σ k = k) ∧ b = a ∘ σ

namespace RearrangedTo

variable {n : ℕ} {a b c : ℕ → α}

theorem refl (n : ℕ) (a : ℕ → α) : RearrangedTo n a a := ⟨1, fun _ _ => rfl, rfl⟩

theorem trans (hab : RearrangedTo n a b) (hbc : RearrangedTo n b c) : RearrangedTo n a c := by
  obtain ⟨σ, hσ, rfl⟩ := hab
  obtain ⟨τ, hτ, rfl⟩ := hbc
  refine ⟨σ * τ, fun k hk => ?_, rfl⟩
  rw [Equiv.Perm.mul_apply, hτ k hk, hσ k hk]

theorem exchanged (hi : 1 ≤ i ∧ i ≤ n) (hj : 1 ≤ j ∧ j ≤ n) (a : ℕ → α) :
    RearrangedTo n a (exchanged a i j) := by
  refine ⟨Equiv.swap i j, fun k hk => Equiv.swap_apply_of_ne_of_ne ?_ ?_, rfl⟩
  · rintro rfl
    exact hk hi
  · rintro rfl
    exact hk hj

theorem mono (hmn : m ≤ n) (hab : RearrangedTo m a b) : RearrangedTo n a b := by
  obtain ⟨σ, hσ, rfl⟩ := hab
  exact ⟨σ, fun k hk => hσ k fun hk' => hk ⟨hk'.1, hk'.2.trans hmn⟩, rfl⟩

theorem of_outside (hab : RearrangedTo n a b) (hk : ¬ (1 ≤ k ∧ k ≤ n)) : b k = a k := by
  obtain ⟨σ, hσ, rfl⟩ := hab
  exact congrArg a (hσ k hk)

theorem place_of_place {σ : Equiv.Perm ℕ} (hσ : ∀ k, ¬ (1 ≤ k ∧ k ≤ n) → σ k = k)
    (hk : 1 ≤ k ∧ k ≤ n) : 1 ≤ σ k ∧ σ k ≤ n := by
  by_contra hout
  have hfix : σ (σ k) = σ k := hσ (σ k) hout
  rw [σ.injective hfix] at hout
  exact hout hk

theorem exists_source (hab : RearrangedTo n a b) (hk : 1 ≤ k ∧ k ≤ n) :
    ∃ j, (1 ≤ j ∧ j ≤ n) ∧ b k = a j := by
  obtain ⟨σ, hσ, rfl⟩ := hab
  exact ⟨σ k, place_of_place hσ hk, rfl⟩

theorem perm_map (hab : RearrangedTo n a b) : ((range' 1 n).map b).Perm ((range' 1 n).map a) := by
  obtain ⟨σ, hσ, rfl⟩ := hab
  have hmem : ∀ k, k ∈ range' 1 n ↔ 1 ≤ k ∧ k ≤ n := by
    intro k
    rw [mem_range'_1]
    omega
  have hσperm : ((range' 1 n).map σ).Perm (range' 1 n) := by
    have hnodup : ((range' 1 n).map σ).Nodup :=
      List.Nodup.map σ.injective (nodup_range' 1 (Nat.one_pos))
    refine (subperm_of_subset hnodup ?_).perm_of_length_le (by rw [length_map])
    intro k hk
    obtain ⟨j, hj, rfl⟩ := mem_map.mp hk
    exact (hmem _).mpr (place_of_place hσ ((hmem j).mp hj))
  rw [← map_map]
  exact hσperm.map a

end RearrangedTo

/-! ### Heaps -/

section Heaps

variable (le : α → α → Prop)

/-- **The heap order** from place `lo` on. -/
def HeapFrom (lo n : ℕ) (a : ℕ → α) : Prop :=
  ∀ i, lo ≤ i → ∀ c, IsChild c i → c ≤ n → le (a c) (a i)

/-- The heap order, but for the children of `hole`. -/
structure HeapExcept (lo n hole : ℕ) (a : ℕ → α) : Prop where
  other : ∀ i, lo ≤ i → i ≠ hole → ∀ c, IsChild c i → c ≤ n → le (a c) (a i)
  grand : ∀ i, lo ≤ i → IsChild hole i → ∀ c, IsChild c hole → c ≤ n → le (a c) (a i)

/-- **Sifting down** from a place, as far as it goes. -/
inductive Sift (n : ℕ) : (ℕ → α) → ℕ → (ℕ → α) → Prop
  | stop {a : ℕ → α} {i : ℕ} (hmax : ∀ c, IsChild c i → c ≤ n → le (a c) (a i)) : Sift n a i a
  | down {a b : ℕ → α} {i m : ℕ} (hm : IsChild m i) (hn : m ≤ n) (hle : le (a i) (a m))
      (hmax : ∀ c, IsChild c i → c ≤ n → le (a c) (a m)) (hrest : Sift n (exchanged a i m) m b) :
      Sift n a i b

variable {le} {lo n i : ℕ} {a b : ℕ → α}

theorem HeapExcept.down (he : HeapExcept le lo n i a) (hlo : 1 ≤ lo) (hi : lo ≤ i)
    (hm : IsChild m i) (hn : m ≤ n) (hle : le (a i) (a m))
    (hmax : ∀ c, IsChild c i → c ≤ n → le (a c) (a m)) :
    HeapExcept le lo n m (exchanged a i m) := by
  have him : i < m := by rcases hm with rfl | rfl <;> omega
  constructor
  · intro j hj hjm c hc hcn
    have hcj : j < c := by rcases hc with rfl | rfl <;> omega
    by_cases hji : j = i
    · -- the children of `i`: the old element of `i`, and the other child
      subst hji
      rw [exchanged_left]
      by_cases hcm : c = m
      · rw [hcm, exchanged_right]
        exact hle
      · rw [exchanged_of_ne a (by omega) hcm]
        exact hmax c hc hcn
    · rw [exchanged_of_ne a hji hjm]
      by_cases hci : c = i
      · rw [hci, exchanged_left]
        rw [hci] at hc
        exact he.grand j hj hc m hm hn
      · have hcm : c ≠ m := by
          rintro rfl
          rcases hm with rfl | rfl <;> rcases hc with hc | hc <;> omega
        rw [exchanged_of_ne a hci hcm]
        exact he.other j hj hji c hc hcn
  · intro j hj hmj c hc hcn
    have hji : j = i := by rcases hm with rfl | rfl <;> rcases hmj with hmj | hmj <;> omega
    have hmc : m < c := by rcases hc with rfl | rfl <;> omega
    rw [hji, exchanged_left, exchanged_of_ne a (by omega) (by omega)]
    exact he.other m (by omega) (by omega) c hc hcn

theorem Sift.heapFrom_of_except (hs : Sift le n a i b) (hlo : 1 ≤ lo) (hi : lo ≤ i)
    (he : HeapExcept le lo n i a) : HeapFrom le lo n b := by
  induction hs with
  | @stop a i hmax =>
    intro j hj c hc hcn
    by_cases hji : j = i
    · subst hji
      exact hmax c hc hcn
    · exact he.other j hj hji c hc hcn
  | @down a b i m hm hn hle hmax hrest ih =>
    refine ih ?_ (he.down hlo hi hm hn hle hmax)
    rcases hm with rfl | rfl <;> omega

/-- **Sifting down** extends a heap by the place where it starts. -/
theorem Sift.heapFrom (hs : Sift le n a i b) (hi : 1 ≤ i) (ha : HeapFrom le (i + 1) n a) :
    HeapFrom le i n b := by
  refine hs.heapFrom_of_except hi le_rfl ⟨?_, ?_⟩
  · exact fun j hj hji c hc hcn => ha j (by omega) c hc hcn
  · intro j hj hij
    rcases hij with hij | hij <;> omega

theorem Sift.rearrangedTo (hs : Sift le n a i b) (hi : 1 ≤ i) : RearrangedTo n a b := by
  induction hs with
  | stop => exact .refl n _
  | @down a b i m hm hn hle hmax hrest ih =>
    have him : i < m := by rcases hm with rfl | rfl <;> omega
    exact (RearrangedTo.exchanged ⟨hi, by omega⟩ ⟨by omega, hn⟩ a).trans (ih (by omega))

variable {S : Set α}

theorem HeapFrom.le_root (ha : HeapFrom le 1 n a) (hS : ∀ k, 1 ≤ k ∧ k ≤ n → a k ∈ S)
    (hrefl : ∀ x ∈ S, le x x) (htrans : ∀ x ∈ S, ∀ y ∈ S, ∀ z ∈ S, le x y → le y z → le x z)
    (hk : 1 ≤ k ∧ k ≤ n) : le (a k) (a 1) := by
  induction k using Nat.strongRecOn with
  | ind k ih =>
    by_cases hone : k = 1
    · rw [hone]
      exact hrefl _ (hS 1 (by omega))
    · have hchild : IsChild k (k / 2) := by
        rw [IsChild]
        omega
      have hparent : 1 ≤ k / 2 ∧ k / 2 ≤ n := by omega
      exact htrans _ (hS k hk) _ (hS (k / 2) hparent) _ (hS 1 (by omega))
        (ha (k / 2) hparent.1 k hchild hk.2) (ih (k / 2) (by omega) hparent)

/-! ### Moving the root behind the heap -/

/-- The places behind `n`, up to `total`, are sorted and not below those up to `n`. -/
def SortedAfter (le : α → α → Prop) (n total : ℕ) (a : ℕ → α) : Prop :=
  ∀ j k, 1 ≤ j → j < k → n < k → k ≤ total → le (a j) (a k)

theorem SortedAfter.rearranged (hs : SortedAfter le n total a) (hab : RearrangedTo n a b) :
    SortedAfter le n total b := by
  intro j k hj hjk hk hkt
  rw [hab.of_outside (k := k) (by omega)]
  by_cases hjn : j ≤ n
  · obtain ⟨j', hj', heq⟩ := hab.exists_source ⟨hj, hjn⟩
    rw [heq]
    exact hs j' k hj'.1 (by omega) hk hkt
  · rw [hab.of_outside (k := j) (by omega)]
    exact hs j k hj hjk hk hkt

/-- **Moving the root** of a heap behind it. -/
theorem SortedAfter.step (hs : SortedAfter le (n + 1) total a)
    (ha : HeapFrom le 1 (n + 1) a) (hS : ∀ k, 1 ≤ k ∧ k ≤ n + 1 → a k ∈ S) (hrefl : ∀ x ∈ S, le x x)
    (htrans : ∀ x ∈ S, ∀ y ∈ S, ∀ z ∈ S, le x y → le y z → le x z) :
    SortedAfter le n total (exchanged a 1 (n + 1)) ∧ HeapFrom le 2 n (exchanged a 1 (n + 1)) := by
  have hswap : RearrangedTo (n + 1) a (exchanged a 1 (n + 1)) :=
    .exchanged ⟨le_rfl, by omega⟩ ⟨by omega, le_rfl⟩ a
  constructor
  · intro j k hj hjk hk hkt
    by_cases hlast : k = n + 1
    · rw [hlast, exchanged_right]
      have hjn : 1 ≤ j ∧ j ≤ n + 1 := by omega
      obtain ⟨j', hj', heq⟩ := hswap.exists_source hjn
      rw [heq]
      exact ha.le_root hS hrefl htrans hj'
    · exact hs.rearranged hswap j k hj hjk (by omega) hkt
  · intro i hi c hc hcn
    have hic : i < c := by rcases hc with rfl | rfl <;> omega
    rw [exchanged_of_ne a (by omega) (by omega), exchanged_of_ne a (by omega) (by omega)]
    exact ha i (by omega) c hc (by omega)

end Heaps

end OsMaterial
