import Mathlib.Data.List.Basic
import Mathlib.Data.List.Pairwise
import Mathlib.Data.List.Perm.Basic
import Mathlib.Data.Set.Insert
import Mathlib.Data.Nat.Bitwise
import Mathlib.Order.Bounds.Defs
import OsMaterial.Machine

/-!
# Hash Tables

The hash table of `lib/kernel/hash.c`: buckets as sequences of cells, which is what
`lib/kernel/list.c` keeps (`ListFamily`). An element is in one list at most; `hash` and `less` look
at its contents. Whether `rehash` finds memory is a part of each operation.

* `rehash_best`: **the number of buckets** that `rehash` chooses.
* `hash_correct`: in every state reached, every operation acts as on a finite set.
-/

namespace OsMaterial

open List

/-- **A hash and a strict weak order** of which equal elements have equal hashes. -/
structure HashFuncs (α : Type*) where
  hash : α → UInt32
  less : α → α → Bool
  less_irrefl : ∀ a, less a a = false
  less_trans : ∀ a b c, less a b = true → less b c = true → less a c = true
  incomp_trans : ∀ a b c, less a b = false ∧ less b a = false →
    less b c = false ∧ less c b = false → less a c = false ∧ less c a = false
  hash_eq : ∀ a b, less a b = false ∧ less b a = false → hash a = hash b

/-- `struct hash`. -/
structure Hash (α : Type*) where
  elemCnt : ℕ
  bucketCnt : ℕ
  buckets : List (List α)

/-- The calls, each with the answer of `malloc` if `rehash` asks for memory. -/
inductive HashOp (α : Type*) where
  | insert (new : α) (memory : Bool)
  | replace (new : α) (memory : Bool)
  | find (e : α)
  | delete (e : α) (memory : Bool)
  | clear

/-! ### The number of buckets -/

/-- `turn_off_least_1bit`. -/
def turnOffLeast1bit (x : ℕ) : ℕ := x &&& (x - 1)

/-- `is_power_of_2`. -/
def isPowerOf2 (x : ℕ) : Bool := x ≠ 0 ∧ turnOffLeast1bit x = 0

theorem turnOffLeast1bit_lt {x : ℕ} (hx : x ≠ 0) : turnOffLeast1bit x < x :=
  lt_of_le_of_lt Nat.and_le_right (Nat.sub_one_lt hx)

/-- The loop of `rehash` that turns bits off until a power of two is left. -/
def powerOf2 : ℕ → ℕ → ℕ
  | 0, x => x
  | fuel + 1, x => if isPowerOf2 x then x else powerOf2 fuel (turnOffLeast1bit x)

/-- The number of buckets that `rehash` computes: `BEST_ELEMS_PER_BUCKET` is two. -/
def newBucketCnt (elemCnt : ℕ) : ℕ :=
  let cnt := elemCnt / 2
  let cnt := if cnt < 4 then 4 else cnt
  powerOf2 cnt cnt

theorem isPowerOf2_iff {x : ℕ} : isPowerOf2 x = true ↔ ∃ k, x = 2 ^ k := by
  rw [isPowerOf2, decide_eq_true_iff, turnOffLeast1bit,
    Nat.ne_zero_and_sub_one_eq_zero_iff_isPowerOfTwo]
  rfl

theorem log2_turnOffLeast1bit {x : ℕ} (hx : x ≠ 0) (hpow : ¬ isPowerOf2 x = true) :
    turnOffLeast1bit x ≠ 0 ∧ (turnOffLeast1bit x).log2 = x.log2 := by
  have hbit : (turnOffLeast1bit x).testBit x.log2 = true :=
    Nat.and_sub_one_testBit_log2 hx fun h => hpow (isPowerOf2_iff.mpr h)
  have hle := Nat.ge_two_pow_of_testBit hbit
  have hne : turnOffLeast1bit x ≠ 0 := (lt_of_lt_of_le (Nat.two_pow_pos _) hle).ne'
  refine ⟨hne, le_antisymm ?_ ((Nat.le_log2 hne).mpr hle)⟩
  exact (Nat.le_log2 hx).mpr ((Nat.log2_self_le hne).trans (turnOffLeast1bit_lt hx).le)

theorem powerOf2_eq {fuel x : ℕ} (hx : x ≠ 0) (hfuel : x ≤ fuel) :
    powerOf2 fuel x = 2 ^ x.log2 := by
  induction fuel generalizing x with
  | zero => omega
  | succ fuel ih =>
    rw [powerOf2]
    split
    · next hpow =>
      obtain ⟨j, rfl⟩ := isPowerOf2_iff.mp hpow
      rw [Nat.log2_two_pow]
    · next hpow =>
      obtain ⟨hne, hlog⟩ := log2_turnOffLeast1bit hx hpow
      have hlt := turnOffLeast1bit_lt hx
      rw [ih hne (by omega), hlog]

theorem newBucketCnt_eq (elemCnt : ℕ) : newBucketCnt elemCnt = 2 ^ (max 4 (elemCnt / 2)).log2 := by
  have hmax : (if elemCnt / 2 < 4 then 4 else elemCnt / 2) = max 4 (elemCnt / 2) := by
    split <;> omega
  rw [newBucketCnt, hmax]
  exact powerOf2_eq (by omega) le_rfl

theorem newBucketCnt_spec (elemCnt : ℕ) : ∃ k, 2 ≤ k ∧ newBucketCnt elemCnt = 2 ^ k :=
  ⟨_, (Nat.le_log2 (by omega)).mpr (le_max_left 4 _), newBucketCnt_eq elemCnt⟩

/-! ### The operations -/

section Operations

variable {α : Type*} (F : HashFuncs α) (h : Hash α)

/-- Neither element is less than the other. -/
def HashFuncs.equiv (a b : α) : Bool := !F.less a b && !F.less b a

/-- The bucket of an element, when there are `cnt`. -/
def HashFuncs.index (cnt : ℕ) (e : α) : ℕ := (F.hash e).toNat &&& (cnt - 1)

namespace Hash

/-- The elements of a bucket. -/
def bucket (i : ℕ) : List α := h.buckets.getD i []

/-- The elements, bucket after bucket. -/
def elems : List α := h.buckets.flatten

/-- `find_bucket`. -/
def findBucket (e : α) : ℕ := F.index h.bucketCnt e

/-- `find_elem`. -/
def findElem (i : ℕ) (e : α) : Option α := (h.bucket i).find? fun hi => F.equiv hi e

/-- `hash_clear`, without a destructor. -/
def hashClear : Hash α := { h with buckets := replicate h.bucketCnt [], elemCnt := 0 }

/-- `hash_init`. -/
def hashInit : Hash α := hashClear ⟨0, 4, []⟩

/-- `rehash` moves an element to the front of its new bucket. -/
def moveElem (cnt : ℕ) (buckets : List (List α)) (e : α) : List (List α) :=
  buckets.modify (F.index cnt e) (e :: ·)

/-- `rehash`: the elements move when the number of buckets changes and there is memory. -/
def rehash (memory : Bool) : Hash α :=
  let cnt := newBucketCnt h.elemCnt
  if cnt = h.bucketCnt then
    h
  else if memory then
    { h with
      bucketCnt := cnt
      buckets := h.buckets.foldl (fun new old => old.foldl (moveElem F cnt) new)
        (replicate cnt []) }
  else
    h

/-- `insert_elem`. -/
def insertElem (i : ℕ) (e : α) : Hash α :=
  { h with elemCnt := h.elemCnt + 1, buckets := h.buckets.modify i (e :: ·) }

variable [DecidableEq α]

/-- `remove_elem`. -/
def removeElem (e : α) : Hash α :=
  { h with elemCnt := h.elemCnt - 1, buckets := h.buckets.map (·.filter (· ≠ e)) }

/-- `hash_insert`. -/
def hashInsert (new : α) (memory : Bool) : Hash α × Option α :=
  let bucket := h.findBucket F new
  let old := h.findElem F bucket new
  let h := if old = none then h.insertElem bucket new else h
  (h.rehash F memory, old)

/-- `hash_replace`. -/
def hashReplace (new : α) (memory : Bool) : Hash α × Option α :=
  let bucket := h.findBucket F new
  let old := h.findElem F bucket new
  let h := match old with
    | some old => h.removeElem old
    | none => h
  ((h.insertElem bucket new).rehash F memory, old)

omit [DecidableEq α] in
/-- `hash_find`. -/
def hashFind (e : α) : Option α := h.findElem F (h.findBucket F e) e

/-- `hash_delete`. -/
def hashDelete (e : α) (memory : Bool) : Hash α × Option α :=
  let found := h.findElem F (h.findBucket F e) e
  match found with
  | some old => ((h.removeElem old).rehash F memory, found)
  | none => (h, found)

def exec : HashOp α → Hash α × Option α
  | .insert new memory => h.hashInsert F new memory
  | .replace new memory => h.hashReplace F new memory
  | .find e => (h, h.hashFind F e)
  | .delete e memory => h.hashDelete F e memory
  | .clear => (h.hashClear, none)

end Hash

end Operations

/-- **A hash table in use.** -/
def hashMachine {α : Type*} [DecidableEq α] (F : HashFuncs α) :
    Machine (Hash α) (HashOp α) Empty where
  start := Hash.hashInit
  step h op := .next (h.exec F op).1

/-! ### The set -/

section Spec

variable {α : Type*} (F : HashFuncs α)

/-- The answer of a search in a set of elements. -/
def HashFuncs.Found (S : Set α) (e : α) (r : Option α) : Prop :=
  ∀ x, r = some x ↔ x ∈ S ∧ F.equiv x e = true

/-- **What the operations do to the set of elements**: `S` before, `S'` after, and the result. -/
def HashOp.Acts (S S' : Set α) (r : Option α) : HashOp α → Prop
  | .insert new _ => F.Found S new r ∧ ∀ x, x ∈ S' ↔ x ∈ S ∨ r = none ∧ x = new
  | .replace new _ => F.Found S new r ∧ ∀ x, x ∈ S' ↔ x = new ∨ x ∈ S ∧ r ≠ some x
  | .find e => F.Found S e r ∧ S' = S
  | .delete e _ => F.Found S e r ∧ ∀ x, x ∈ S' ↔ x ∈ S ∧ r ≠ some x
  | .clear => S' = ∅

end Spec

/-! ### The buckets -/

section Buckets

variable {α : Type*} {F : HashFuncs α} {buckets : List (List α)} {cnt : ℕ}

/-- Every element is in its bucket. -/
def Placed (F : HashFuncs α) (cnt : ℕ) (buckets : List (List α)) : Prop :=
  ∀ i, ∀ e ∈ buckets.getD i [], F.index cnt e = i

theorem HashFuncs.index_lt {k : ℕ} (e : α) : F.index (2 ^ k) e < 2 ^ k := by
  rw [HashFuncs.index, Nat.and_two_pow_sub_one_eq_mod]
  exact Nat.mod_lt _ (Nat.two_pow_pos k)

theorem placed_replicate (F : HashFuncs α) (cnt : ℕ) : Placed F cnt (replicate cnt []) := by
  intro i e he
  rw [getD_eq_getElem?_getD, getElem?_replicate] at he
  split at he <;> cases he

theorem Placed.moveElem (h : Placed F cnt buckets) (e : α) :
    Placed F cnt (Hash.moveElem F cnt buckets e) := by
  intro i x hx
  rw [Hash.moveElem, getD_eq_getElem?_getD, getElem?_modify] at hx
  have hi := h i x
  rw [getD_eq_getElem?_getD] at hi
  cases hget : buckets[i]? with
  | none =>
    rw [hget] at hx
    split at hx <;> cases hx
  | some bucket =>
    rw [hget] at hx hi
    split at hx
    · next heq =>
      rcases mem_cons.mp hx with rfl | hx
      · exact heq
      · exact hi hx
    · exact hi hx

theorem flatten_modify_cons (e : α) {i : ℕ} (hi : i < buckets.length) :
    (buckets.modify i (e :: ·)).flatten.Perm (e :: buckets.flatten) := by
  induction buckets generalizing i with
  | nil => cases hi
  | cons b bs ih =>
    cases i with
    | zero => exact List.Perm.refl _
    | succ i =>
      refine ((ih (Nat.lt_of_succ_lt_succ hi)).append_left b).trans ?_
      exact perm_middle

theorem foldl_moveElem {k : ℕ} (xs : List α) (hplaced : Placed F (2 ^ k) buckets)
    (hlen : buckets.length = 2 ^ k) :
    Placed F (2 ^ k) (xs.foldl (Hash.moveElem F (2 ^ k)) buckets) ∧
      (xs.foldl (Hash.moveElem F (2 ^ k)) buckets).length = 2 ^ k ∧
      (xs.foldl (Hash.moveElem F (2 ^ k)) buckets).flatten.Perm (xs ++ buckets.flatten) := by
  induction xs generalizing buckets with
  | nil => exact ⟨hplaced, hlen, List.Perm.refl _⟩
  | cons e xs ih =>
    have hlen' : (Hash.moveElem F (2 ^ k) buckets e).length = 2 ^ k := by
      rw [Hash.moveElem, length_modify, hlen]
    obtain ⟨hp, hl, hperm⟩ := ih (hplaced.moveElem e) hlen'
    refine ⟨hp, hl, hperm.trans ?_⟩
    have hlt : F.index (2 ^ k) e < buckets.length := by
      rw [hlen]
      exact HashFuncs.index_lt e
    have hone := flatten_modify_cons e hlt
    exact (hone.append_left xs).trans perm_middle

end Buckets

/-! ### The invariant -/

section Invariant

variable {α : Type*} {F : HashFuncs α} {h : Hash α} {e x y : α}

theorem HashFuncs.equiv_iff : F.equiv x y = true ↔ F.less x y = false ∧ F.less y x = false := by
  simp [HashFuncs.equiv]

theorem HashFuncs.equiv_refl (x : α) : F.equiv x x = true :=
  equiv_iff.mpr ⟨F.less_irrefl x, F.less_irrefl x⟩

theorem HashFuncs.equiv_symm (hxy : F.equiv x y = true) : F.equiv y x = true :=
  equiv_iff.mpr (equiv_iff.mp hxy).symm

theorem HashFuncs.equiv_trans (hxe : F.equiv x e = true) (hey : F.equiv e y = true) :
    F.equiv x y = true :=
  equiv_iff.mpr (F.incomp_trans x e y (equiv_iff.mp hxe) (equiv_iff.mp hey))

/-- **The invariant of a table.** -/
structure HashInv (F : HashFuncs α) (h : Hash α) : Prop where
  pow : ∃ k, 2 ≤ k ∧ h.bucketCnt = 2 ^ k
  length : h.buckets.length = h.bucketCnt
  placed : Placed F h.bucketCnt h.buckets
  apart : h.elems.Pairwise fun a b => F.equiv a b = false
  count : h.elemCnt = h.elems.length

theorem not_equiv_symm (hxy : F.equiv x y = false) : F.equiv y x = false :=
  Bool.eq_false_iff.mpr fun hyx => Bool.eq_false_iff.mp hxy (F.equiv_symm hyx)

theorem HashInv.eq_of_equiv (hinv : HashInv F h) (hx : x ∈ h.elems) (hy : y ∈ h.elems)
    (hxy : F.equiv x y = true) : x = y := by
  by_contra hne
  have : Std.Symm fun a b => F.equiv a b = false := ⟨fun _ _ => not_equiv_symm⟩
  have hfalse := hinv.apart.forall hx hy hne
  rw [hxy] at hfalse
  cases hfalse

theorem HashInv.nodup (hinv : HashInv F h) : h.elems.Nodup := by
  refine hinv.apart.imp fun {a b} hab => ?_
  rintro rfl
  rw [F.equiv_refl] at hab
  cases hab

theorem HashInv.mem_bucket (hinv : HashInv F h) (hx : x ∈ h.elems) :
    x ∈ h.bucket (h.findBucket F x) := by
  obtain ⟨b, hb, hxb⟩ := mem_flatten.mp hx
  obtain ⟨i, hi, rfl⟩ := getElem_of_mem hb
  have hmem : x ∈ h.bucket i := by rwa [Hash.bucket, getD_eq_getElem?_getD, getElem?_eq_getElem hi]
  rw [Hash.findBucket, hinv.placed i x hmem]
  exact hmem

theorem mem_elems_of_mem_bucket {i : ℕ} (hx : x ∈ h.bucket i) : x ∈ h.elems := by
  rw [Hash.bucket, getD_eq_getElem?_getD] at hx
  cases hget : h.buckets[i]? with
  | none =>
    rw [hget] at hx
    cases hx
  | some b =>
    rw [hget] at hx
    exact mem_flatten.mpr ⟨b, mem_of_getElem? hget, hx⟩

theorem HashInv.found (hinv : HashInv F h) (e : α) :
    F.Found {x | x ∈ h.elems} e (h.findElem F (h.findBucket F e) e) := by
  intro x
  constructor
  · intro hfind
    have hmem := mem_of_find?_eq_some hfind
    have hequiv := find?_some (p := fun hi => F.equiv hi e) hfind
    exact ⟨mem_elems_of_mem_bucket hmem, hequiv⟩
  · rintro ⟨hx, hequiv⟩
    -- The equivalent element has the same hash value, so the search meets it.
    have hbucket : h.findBucket F x = h.findBucket F e := by
      rw [Hash.findBucket, Hash.findBucket, HashFuncs.index, HashFuncs.index,
        F.hash_eq x e (HashFuncs.equiv_iff.mp hequiv)]
    have hmem := hinv.mem_bucket hx
    rw [hbucket] at hmem
    cases hfind : h.findElem F (h.findBucket F e) e with
    | none => exact absurd hequiv (find?_eq_none.mp hfind x hmem)
    | some y =>
      have hy := mem_elems_of_mem_bucket (mem_of_find?_eq_some hfind)
      have hye := find?_some (p := fun hi => F.equiv hi e) hfind
      rw [hinv.eq_of_equiv hy hx (F.equiv_trans hye (F.equiv_symm hequiv))]

theorem HashInv.of_perm {h' : Hash α} (hinv : HashInv F h)
    (hpow : ∃ k, 2 ≤ k ∧ h'.bucketCnt = 2 ^ k)
    (hlength : h'.buckets.length = h'.bucketCnt) (hplaced : Placed F h'.bucketCnt h'.buckets)
    (hperm : h'.elems.Perm h.elems) (hcount : h'.elemCnt = h.elemCnt) : HashInv F h' where
  pow := hpow
  length := hlength
  placed := hplaced
  apart := (hperm.pairwise_iff fun {_ _} => not_equiv_symm).mpr hinv.apart
  count := by rw [hcount, hinv.count, hperm.length_eq]

/-- **`rehash`** keeps the elements, whether it finds memory or not. -/
theorem HashInv.rehash (hinv : HashInv F h) (memory : Bool) :
    HashInv F (h.rehash F memory) ∧ (h.rehash F memory).elems.Perm h.elems := by
  have hsame : HashInv F h ∧ h.elems.Perm h.elems := ⟨hinv, List.Perm.refl _⟩
  simp only [Hash.rehash]
  split
  · exact hsame
  · split
    · obtain ⟨k, hk, hcnt⟩ := newBucketCnt_spec h.elemCnt
      rw [hcnt, ← foldl_flatten]
      obtain ⟨hplaced, hlen, hperm⟩ := foldl_moveElem h.buckets.flatten
        (placed_replicate F (2 ^ k)) length_replicate
      rw [flatten_replicate_nil, append_nil] at hperm
      exact ⟨hinv.of_perm ⟨k, hk, rfl⟩ hlen hplaced hperm rfl, hperm⟩
    · exact hsame

/-- **`rehash` chooses the greatest power of two** up to half the number of elements, or four, and
keeps the elements, each in its bucket. -/
theorem rehash_best (hinv : HashInv F h) (memory : Bool) :
    (∀ fuel, max 4 (h.elemCnt / 2) ≤ fuel →
      powerOf2 fuel (max 4 (h.elemCnt / 2)) = newBucketCnt h.elemCnt) ∧
    (if memory = true ∨ newBucketCnt h.elemCnt = h.bucketCnt then
        IsGreatest {p | (∃ k, p = 2 ^ k) ∧ p ≤ max 4 (h.elemCnt / 2)}
          (h.rehash F memory).bucketCnt ∧ h.elemCnt < 4 * (h.rehash F memory).bucketCnt
      else (h.rehash F memory).bucketCnt = h.bucketCnt) ∧
    (h.rehash F memory).elems.Perm h.elems ∧
    (h.rehash F memory).buckets.length = (h.rehash F memory).bucketCnt ∧
    ∀ i, ∀ e ∈ (h.rehash F memory).bucket i, (h.rehash F memory).findBucket F e = i := by
  obtain ⟨hinv', hperm⟩ := hinv.rehash memory
  have hne : max 4 (h.elemCnt / 2) ≠ 0 := by omega
  have heq := newBucketCnt_eq h.elemCnt
  refine ⟨fun fuel hfuel => by rw [heq, powerOf2_eq hne hfuel], ?_, hperm, hinv'.length,
    hinv'.placed⟩
  split
  · next hor =>
    have hcnt : (h.rehash F memory).bucketCnt = 2 ^ (max 4 (h.elemCnt / 2)).log2 := by
      rw [← heq, Hash.rehash]
      rcases hor with rfl | hsame
      · split <;> simp_all
      · rw [if_pos hsame, hsame]
    have hlt := Nat.lt_log2_self (n := max 4 (h.elemCnt / 2))
    rw [pow_succ] at hlt
    rw [hcnt]
    refine ⟨⟨⟨⟨_, rfl⟩, Nat.log2_self_le hne⟩, ?_⟩, by omega⟩
    rintro _ ⟨⟨k, rfl⟩, hk⟩
    exact Nat.pow_le_pow_right Nat.two_pos ((Nat.le_log2 hne).mpr hk)
  · next hor =>
    obtain ⟨hmemory, hcnt⟩ := not_or.mp hor
    rw [Hash.rehash, if_neg hcnt, if_neg hmemory]

theorem HashInv.insertElem (hinv : HashInv F h) (hnew : ∀ x ∈ h.elems, F.equiv x e = false) :
    HashInv F (h.insertElem (h.findBucket F e) e) ∧
      (h.insertElem (h.findBucket F e) e).elems.Perm (e :: h.elems) := by
  obtain ⟨k, hk, hcnt⟩ := hinv.pow
  have hlt : h.findBucket F e < h.buckets.length := by
    rw [hinv.length, Hash.findBucket, hcnt]
    exact HashFuncs.index_lt e
  have hperm : (h.insertElem (h.findBucket F e) e).elems.Perm (e :: h.elems) :=
    flatten_modify_cons e hlt
  refine ⟨⟨hinv.pow, ?_, hinv.placed.moveElem e, ?_, ?_⟩, hperm⟩
  · exact (length_modify _ _ _).trans hinv.length
  · refine (hperm.pairwise_iff fun {_ _} => not_equiv_symm).mpr ?_
    exact pairwise_cons.mpr ⟨fun x hx => not_equiv_symm (hnew x hx), hinv.apart⟩
  · rw [hperm.length_eq]
    exact congrArg (· + 1) hinv.count

variable [DecidableEq α]

theorem HashInv.removeElem (hinv : HashInv F h) (he : e ∈ h.elems) :
    HashInv F (h.removeElem e) ∧ (h.removeElem e).elems = h.elems.filter (· ≠ e) := by
  have helems : (h.removeElem e).elems = h.elems.filter (· ≠ e) := filter_flatten.symm
  refine ⟨⟨hinv.pow, ?_, ?_, ?_, ?_⟩, helems⟩
  · exact (length_map _).trans hinv.length
  · intro i x hx
    refine hinv.placed i x ?_
    change x ∈ (h.buckets.map (·.filter (· ≠ e))).getD i [] at hx
    rw [getD_eq_getElem?_getD, getElem?_map] at hx
    rw [getD_eq_getElem?_getD]
    cases hget : h.buckets[i]? with
    | none =>
      rw [hget] at hx
      cases hx
    | some b =>
      rw [hget] at hx
      exact mem_of_mem_filter hx
  · rw [helems]
    exact hinv.apart.filter _
  · have hlen := length_erase_of_mem he
    rw [hinv.nodup.erase_eq_filter] at hlen
    have hfilter : h.elems.filter (· ≠ e) = h.elems.filter (· != e) := by
      refine filter_congr fun y _ => ?_
      rw [Bool.eq_iff_iff, decide_eq_true_iff, bne_iff_ne]
    rw [helems, hfilter, hlen, ← hinv.count]
    rfl

omit [DecidableEq α] in
theorem hashInv_hashClear (hpow : ∃ k, 2 ≤ k ∧ h.bucketCnt = 2 ^ k) :
    HashInv F h.hashClear ∧ h.hashClear.elems = [] := by
  have helems : h.hashClear.elems = [] := flatten_replicate_nil
  refine ⟨⟨hpow, length_replicate, placed_replicate F _, ?_, ?_⟩, helems⟩
  · rw [helems]
    exact List.Pairwise.nil
  · rw [helems]
    rfl

section

variable (hinv : HashInv F h)

include hinv

omit [DecidableEq α] in
theorem HashInv.not_equiv_of_none (hnone : h.findElem F (h.findBucket F e) e = none) :
    ∀ x ∈ h.elems, F.equiv x e = false := by
  intro x hx
  rw [Bool.eq_false_iff]
  intro hequiv
  have hsome := (hinv.found e x).mpr ⟨hx, hequiv⟩
  rw [hnone] at hsome
  cases hsome

omit [DecidableEq α] in
theorem HashInv.not_equiv_of_some (hsome : h.findElem F (h.findBucket F e) e = some y)
    (hx : x ∈ h.elems) (hne : x ≠ y) : F.equiv x e = false := by
  rw [Bool.eq_false_iff]
  intro hequiv
  have hx' := (hinv.found e x).mpr ⟨hx, hequiv⟩
  rw [hsome, Option.some_inj] at hx'
  exact hne hx'.symm

omit [DecidableEq α] in
theorem HashInv.hashInsert (new : α) (memory : Bool) :
    HashInv F (h.hashInsert F new memory).1 ∧
      ∀ x, x ∈ (h.hashInsert F new memory).1.elems ↔
        x ∈ h.elems ∨ (h.hashInsert F new memory).2 = none ∧ x = new := by
  simp only [Hash.hashInsert]
  cases hfind : h.findElem F (h.findBucket F new) new with
  | none =>
    obtain ⟨hinv₁, hperm₁⟩ := hinv.insertElem (hinv.not_equiv_of_none hfind)
    obtain ⟨hinv', hperm'⟩ := hinv₁.rehash memory
    rw [if_pos rfl]
    refine ⟨hinv', fun x => ?_⟩
    rw [(hperm'.trans hperm₁).mem_iff, mem_cons]
    simp only [true_and, or_comm]
  | some y =>
    obtain ⟨hinv', hperm'⟩ := hinv.rehash memory
    rw [if_neg (Option.some_ne_none y)]
    refine ⟨hinv', fun x => ?_⟩
    rw [hperm'.mem_iff]
    simp

theorem HashInv.hashReplace (new : α) (memory : Bool) :
    HashInv F (h.hashReplace F new memory).1 ∧
      ∀ x, x ∈ (h.hashReplace F new memory).1.elems ↔
        x = new ∨ x ∈ h.elems ∧ (h.hashReplace F new memory).2 ≠ some x := by
  simp only [Hash.hashReplace]
  cases hfind : h.findElem F (h.findBucket F new) new with
  | none =>
    obtain ⟨hinv₁, hperm₁⟩ := hinv.insertElem (hinv.not_equiv_of_none hfind)
    obtain ⟨hinv', hperm'⟩ := hinv₁.rehash memory
    refine ⟨hinv', fun x => ?_⟩
    rw [(hperm'.trans hperm₁).mem_iff, mem_cons]
    simp
  | some y =>
    have hy := ((hinv.found new y).mp hfind).1
    obtain ⟨hinv₁, helems₁⟩ := hinv.removeElem hy
    have hmem₁ : ∀ x, x ∈ (h.removeElem y).elems ↔ x ∈ h.elems ∧ x ≠ y := by
      intro x
      rw [helems₁, mem_filter, decide_eq_true_iff]
    -- Removing does not change the number of buckets, so the bucket is still the right one.
    obtain ⟨hinv₂, hperm₂⟩ := hinv₁.insertElem (e := new) fun x hx =>
      hinv.not_equiv_of_some hfind ((hmem₁ x).mp hx).1 ((hmem₁ x).mp hx).2
    obtain ⟨hinv', hperm'⟩ := hinv₂.rehash memory
    refine ⟨hinv', fun x => ?_⟩
    have hmem := (hperm'.trans hperm₂).mem_iff (a := x)
    rw [mem_cons, hmem₁] at hmem
    refine hmem.trans ?_
    simp only [ne_eq, Option.some_inj, eq_comm]

theorem HashInv.hashDelete (e : α) (memory : Bool) :
    HashInv F (h.hashDelete F e memory).1 ∧
      ∀ x, x ∈ (h.hashDelete F e memory).1.elems ↔
        x ∈ h.elems ∧ (h.hashDelete F e memory).2 ≠ some x := by
  simp only [Hash.hashDelete]
  cases hfind : h.findElem F (h.findBucket F e) e with
  | none => exact ⟨hinv, fun x => by simp⟩
  | some y =>
    have hy := ((hinv.found e y).mp hfind).1
    obtain ⟨hinv₁, helems₁⟩ := hinv.removeElem hy
    obtain ⟨hinv', hperm'⟩ := hinv₁.rehash memory
    refine ⟨hinv', fun x => ?_⟩
    rw [hperm'.mem_iff, helems₁, mem_filter, decide_eq_true_iff]
    simp only [ne_eq, Option.some_inj, eq_comm]

theorem HashInv.exec (op : HashOp α) :
    HashInv F (h.exec F op).1 ∧
      op.Acts F {x | x ∈ h.elems} {x | x ∈ (h.exec F op).1.elems} (h.exec F op).2 := by
  cases op with
  | insert new memory =>
    obtain ⟨hinv', hmem⟩ := hinv.hashInsert new memory
    exact ⟨hinv', hinv.found new, hmem⟩
  | replace new memory =>
    obtain ⟨hinv', hmem⟩ := hinv.hashReplace new memory
    exact ⟨hinv', hinv.found new, hmem⟩
  | find e => exact ⟨hinv, hinv.found e, rfl⟩
  | delete e memory =>
    obtain ⟨hinv', hmem⟩ := hinv.hashDelete e memory
    refine ⟨hinv', ?_, hmem⟩
    have hfound := hinv.found e
    change F.Found _ e (h.hashDelete F e memory).2
    rw [Hash.hashDelete]
    cases hfind : h.findElem F (h.findBucket F e) e with
    | none => rwa [hfind] at hfound
    | some y => rwa [hfind] at hfound
  | clear =>
    obtain ⟨hinv', helems⟩ := hashInv_hashClear (F := F) hinv.pow
    refine ⟨hinv', ?_⟩
    change {x | x ∈ h.hashClear.elems} = ∅
    rw [helems]
    simp

end

theorem hashInv_start : HashInv F (hashMachine F).start :=
  (hashInv_hashClear ⟨2, le_rfl, rfl⟩).1

theorem hashInv_of_reachable (hr : (hashMachine F).Reachable h) : HashInv F h := by
  refine hr.invariant hashInv_start fun s s' op _ hinv _ hstep => ?_
  cases hstep
  exact (hinv.exec op).1

end Invariant

/-- **The hash table is correct**, in every state reached from `hash_init`, with any failures of
`malloc`. -/
theorem hash_correct {α : Type*} [DecidableEq α] (F : HashFuncs α) (h : Hash α)
    (hr : (hashMachine F).Reachable h) :
    (∃ k, 2 ≤ k ∧ h.bucketCnt = 2 ^ k) ∧ h.buckets.length = h.bucketCnt ∧
      (∀ i, ∀ e ∈ h.bucket i, (F.hash e).toNat &&& (h.bucketCnt - 1) = i) ∧
      (h.elems.Pairwise fun a b => F.equiv a b = false) ∧ h.elemCnt = h.elems.length ∧
      ∀ op : HashOp α,
        op.Acts F {x | x ∈ h.elems} {x | x ∈ (h.exec F op).1.elems} (h.exec F op).2 := by
  have hinv := hashInv_of_reachable hr
  exact ⟨hinv.pow, hinv.length, hinv.placed, hinv.apart, hinv.count, fun op => (hinv.exec op).2⟩

/-- Numbers, by their tens. -/
def tens : HashFuncs ℕ where
  hash a := (a / 10).toUInt32
  less a b := a / 10 < b / 10
  less_irrefl a := by simp
  less_trans a b c hab hbc := by
    simp only [decide_eq_true_eq] at hab hbc ⊢
    omega
  incomp_trans a b c hab hbc := by
    simp only [decide_eq_false_iff_not] at hab hbc ⊢
    omega
  hash_eq a b hab := by
    simp only [decide_eq_false_iff_not] at hab
    rw [show a / 10 = b / 10 by omega]

/-- Twenty insertions, all of them without memory for more buckets. -/
def crowdedTens : List (HashOp ℕ) := (range 20).map fun i => .insert (10 * i) false

theorem crowdedTens_run :
    ∃ h, (hashMachine tens).run (hashMachine tens).start crowdedTens = .next h ∧
      h.bucketCnt = 4 ∧ h.elemCnt = 20 ∧ (h.rehash tens true).bucketCnt = 8 := by
  refine ⟨_, rfl, ?_⟩
  decide +kernel

/-- Twenty elements in four buckets are put into eight. -/
theorem rehash_best_tens :
    ∃ h, (hashMachine tens).run (hashMachine tens).start crowdedTens = .next h ∧
      h.bucketCnt = 4 ∧ h.elemCnt = 20 ∧ (h.rehash tens true).bucketCnt = 8 ∧
      IsGreatest {p | (∃ k, p = 2 ^ k) ∧ p ≤ max 4 (h.elemCnt / 2)} (h.rehash tens true).bucketCnt ∧
      (h.rehash tens true).elems.Perm h.elems := by
  obtain ⟨h, hrun, hbuckets, hcnt, hnew⟩ := crowdedTens_run
  refine ⟨h, hrun, hbuckets, hcnt, hnew, ?_⟩
  have hbest := rehash_best (hashInv_of_reachable (Machine.reachable_of_run hrun)) true
  rw [if_pos (.inl rfl)] at hbest
  exact ⟨hbest.2.1.1, hbest.2.2.1⟩

/-- Two insertions, and a replacement of the first element. -/
def replaceTens : List (HashOp ℕ) := [.insert 42 true, .insert 17 true, .replace 45 false]

/-- Numbers with equal tens replace each other. -/
theorem hash_correct_replaceTens :
    ∃ h, (hashMachine tens).run (hashMachine tens).start replaceTens = .next h ∧
      h.elems = [45, 17] ∧ h.elemCnt = h.elems.length := by
  refine ⟨_, rfl, by decide, ?_⟩
  have hok := Machine.guardedRun_true (M := hashMachine tens) (hashMachine tens).start replaceTens
  exact (hash_correct tens _ (Machine.ReachableUnder.start.of_run hok rfl)).2.2.2.2.1

end OsMaterial
