import OsMaterial.Hash

/-!
# Visiting a Hash Table

The iterator of `lib/kernel/hash.c`, `hash_apply`, and `hash_clear` with a destructor. A place in a
bucket is counted from its head, at 0; `list_next` fails behind the tail.

* `hash_visits_once`: **every element is visited once**, in each of the three ways.
-/

namespace OsMaterial

open List

variable {α σ : Type*}

namespace Hash

structure Iterator where
  bucket : ℕ
  elem : Option ℕ

def hashFirst : Iterator := ⟨0, some 0⟩

def nextLoop (h : Hash α) : ℕ → ℕ → ℕ → Option Iterator
  | 0, _, _ => none
  | fuel + 1, bucket, elem =>
    (h.buckets[bucket]?).bind fun list =>
      if elem = list.length + 1 then
        if h.bucketCnt ≤ bucket + 1 then some ⟨bucket + 1, none⟩
        else nextLoop h fuel (bucket + 1) 1
      else
        some ⟨bucket, some elem⟩

def hashNext (h : Hash α) (i : Iterator) : Option Iterator :=
  i.elem.bind fun elem =>
    (h.buckets[i.bucket]?).bind fun list =>
      if elem ≤ list.length then nextLoop h h.bucketCnt i.bucket (elem + 1) else none

def hashCur (h : Hash α) (i : Iterator) : Option α :=
  i.elem.bind fun elem => (h.bucket i.bucket)[elem - 1]?

def iterate (h : Hash α) : ℕ → Iterator → Option (List α)
  | 0, _ => none
  | fuel + 1, i =>
    (hashNext h i).bind fun i =>
      if i.elem = none then some []
      else (h.hashCur i).bind fun e => (iterate h fuel i).map (e :: ·)

def hashApply (h : Hash α) (action : α → σ → σ) (s : σ) : σ :=
  (range h.bucketCnt).foldl (fun s i => (h.bucket i).foldl (fun s elem => action elem s) s) s

def popAll (destructor : α → σ → σ) : List α → σ → σ
  | [], s => s
  | elem :: bucket, s => popAll destructor bucket (destructor elem s)

def clearWith (h : Hash α) (destructor : Option (α → σ → σ)) (s : σ) : Hash α × σ :=
  let (buckets, s) := (range h.bucketCnt).foldl (fun st i =>
    (st.1.set i [], match destructor with
      | some destructor => popAll destructor (st.1.getD i []) st.2
      | none => st.2)) (h.buckets, s)
  ({ h with buckets, elemCnt := 0 }, s)

/-! ### The iterator -/

variable {h : Hash α} {b p fuel : ℕ} {list : List α}

def elemsFrom (h : Hash α) (b p : ℕ) : List α :=
  (h.bucket b).drop (p - 1) ++ (h.buckets.drop (b + 1)).flatten

theorem elemsFrom_tail (h : Hash α) (b : ℕ) :
    h.elemsFrom b ((h.bucket b).length + 1) = (h.buckets.drop (b + 1)).flatten := by
  rw [elemsFrom, Nat.add_sub_cancel, drop_length, nil_append]

theorem elemsFrom_one (hb : b < h.buckets.length) :
    h.elemsFrom b 1 = (h.buckets.drop b).flatten := by
  rw [elemsFrom, drop_eq_getElem_cons hb, flatten_cons, bucket,
    getD_eq_getElem _ _ hb, Nat.sub_self, drop_zero]

theorem nextLoop_spec (hlen : h.buckets.length = h.bucketCnt) (hb : b < h.bucketCnt)
    (hp : p ≤ (h.bucket b).length + 1) (hfuel : h.bucketCnt - b ≤ fuel) :
    ∃ i, nextLoop h fuel b p = some i ∧
      (i.elem = none ∧ h.elemsFrom b p = [] ∨
        ∃ q, i.elem = some q ∧ i.bucket < h.bucketCnt ∧ q ≤ (h.bucket i.bucket).length ∧
          h.elemsFrom i.bucket q = h.elemsFrom b p ∧ (1 ≤ p → 1 ≤ q)) := by
  induction fuel generalizing b p with
  | zero => omega
  | succ fuel ih =>
    have hget : h.buckets[b]? = some (h.bucket b) := by
      rw [bucket, getD_eq_getElem _ _ (by omega), getElem?_eq_getElem]
    rw [nextLoop, hget, Option.bind_some]
    by_cases htail : p = (h.bucket b).length + 1
    · rw [if_pos htail, htail, elemsFrom_tail]
      by_cases hlast : h.bucketCnt ≤ b + 1
      · refine ⟨_, if_pos hlast, .inl ⟨rfl, ?_⟩⟩
        rw [drop_eq_nil_of_le (by omega), flatten_nil]
      · rw [if_neg hlast, ← elemsFrom_one (by omega)]
        obtain ⟨i, hi, hspec⟩ := ih (b := b + 1) (p := 1) (by omega) (by omega) (by omega)
        refine ⟨i, hi, hspec.imp_right ?_⟩
        rintro ⟨q, hq, hib, hle, heq, hpos⟩
        exact ⟨q, hq, hib, hle, heq, fun _ => hpos le_rfl⟩
    · have hle : p ≤ (h.bucket b).length := by omega
      exact ⟨_, if_neg htail, .inr ⟨p, rfl, hb, hle, rfl, id⟩⟩

theorem iterate_eq (hlen : h.buckets.length = h.bucketCnt) (hb : b < h.bucketCnt)
    (hp : p ≤ (h.bucket b).length) (hfuel : (h.elemsFrom b (p + 1)).length < fuel) :
    iterate h fuel ⟨b, some p⟩ = some (h.elemsFrom b (p + 1)) := by
  induction fuel generalizing b p with
  | zero => omega
  | succ fuel ih =>
    have hget : h.buckets[b]? = some (h.bucket b) := by
      rw [bucket, getD_eq_getElem _ _ (by omega), getElem?_eq_getElem]
    obtain ⟨⟨b', elem⟩, hi, hspec⟩ := nextLoop_spec (p := p + 1) hlen hb (by omega) (Nat.sub_le _ _)
    have hnext : hashNext h ⟨b, some p⟩ = some ⟨b', elem⟩ := by
      rw [hashNext, Option.bind_some, hget, Option.bind_some, if_pos hp, hi]
    rw [iterate, hnext, Option.bind_some]
    obtain ⟨rfl, hnil⟩ | ⟨q, rfl, hib, hle, heq, hpos⟩ := hspec
    · rw [if_pos rfl, hnil]
    · have hq1 := hpos (by omega)
      have hq : q - 1 < (h.bucket b').length := Nat.lt_of_lt_of_le (by omega) hle
      have hcur : h.hashCur ⟨b', some q⟩ = some ((h.bucket b').get ⟨q - 1, hq⟩) :=
        getElem?_eq_getElem hq
      have hcons : h.elemsFrom b' q = (h.bucket b').get ⟨q - 1, hq⟩ :: h.elemsFrom b' (q + 1) := by
        rw [elemsFrom, drop_eq_getElem_cons hq, Nat.sub_add_cancel hq1]
        rfl
      rw [← heq, hcons, length_cons] at hfuel
      rw [if_neg (Option.some_ne_none q), hcur, Option.bind_some, ← heq, hcons,
        ih (b := b') hib hle (by omega)]
      rfl

/-! ### Actions and destructors -/

theorem hashApply_eq (hlen : h.buckets.length = h.bucketCnt) (action : α → σ → σ) (s : σ) :
    h.hashApply action s = h.elems.foldl (fun s elem => action elem s) s := by
  have hbuckets : (range h.bucketCnt).map h.bucket = h.buckets := by
    refine ext_getElem (by simp [hlen]) fun i _ hi => ?_
    rw [getElem_map, getElem_range, bucket, getD_eq_getElem _ _ hi]
  rw [hashApply, elems, foldl_flatten, ← hbuckets, foldl_map]

theorem popAll_eq (destructor : α → σ → σ) (list : List α) (s : σ) :
    popAll destructor list s = list.foldl (fun s elem => destructor elem s) s := by
  induction list generalizing s with
  | nil => rfl
  | cons elem list ih => exact ih _

theorem clearWith_eq (hlen : h.buckets.length = h.bucketCnt) (destructor : α → σ → σ) (s : σ) :
    h.clearWith (some destructor) s =
      (h.hashClear, h.elems.foldl (fun s elem => destructor elem s) s) := by
  have hloop (n : ℕ) (hn : n ≤ h.buckets.length) :
      (range n).foldl (fun st i => (st.1.set i [], popAll destructor (st.1.getD i []) st.2))
          (h.buckets, s) =
        (replicate n [] ++ h.buckets.drop n,
          (h.buckets.take n).flatten.foldl (fun s elem => destructor elem s) s) := by
    induction n with
    | zero => rfl
    | succ n ih =>
      have hlast : (replicate n [] ++ h.buckets.drop n).getD n [] = h.buckets[n] := by
        rw [getD_append_right _ _ _ _ (by simp), length_replicate, Nat.sub_self,
          drop_eq_getElem_cons hn, getD_cons_zero]
      rw [range_succ, foldl_append, ih (by omega), foldl_cons, foldl_nil, hlast, popAll_eq,
        take_succ_eq_append_getElem hn, flatten_append, flatten_singleton, foldl_append,
        set_append_right _ _ (by simp), length_replicate, Nat.sub_self, drop_eq_getElem_cons hn,
        set_cons_zero, replicate_succ', append_assoc, singleton_append]
  rw [clearWith, ← hlen, hloop _ le_rfl, drop_length, take_length, append_nil, hlen]
  rfl

end Hash

/-- **Every element is visited once**: by an iterator, by `hash_apply`, and by `hash_clear`. -/
theorem hash_visits_once {α : Type*} {F : HashFuncs α} {h : Hash α} (hinv : HashInv F h) :
    ∃ visited : List α, visited.Nodup ∧ (∀ e, e ∈ visited ↔ ∃ bucket ∈ h.buckets, e ∈ bucket) ∧
      visited.length = h.elemCnt ∧
      (∀ fuel, h.elemCnt < fuel → h.iterate fuel Hash.hashFirst = some visited) ∧
      (∀ {σ : Type*} (action : α → σ → σ) (s : σ),
        h.hashApply action s = visited.foldl (fun s e => action e s) s) ∧
      (∀ {σ : Type*} (destructor : α → σ → σ) (s : σ),
        (h.clearWith (some destructor) s).2 = visited.foldl (fun s e => destructor e s) s ∧
        (h.clearWith (some destructor) s).1.elems = [] ∧
        (h.clearWith (some destructor) s).1.elemCnt = 0) := by
  obtain ⟨k, -, hk⟩ := hinv.pow
  have hpos : 0 < h.bucketCnt := hk ▸ Nat.two_pow_pos k
  have hfrom : h.elemsFrom 0 1 = h.elems := h.elemsFrom_one (hinv.length.symm ▸ hpos)
  refine ⟨h.elems, ?_, fun e => mem_flatten, hinv.count.symm, fun fuel hfuel => ?_,
    fun action s => h.hashApply_eq hinv.length action s, fun destructor s => ?_⟩
  · refine hinv.apart.imp fun {a b} hab heq => ?_
    subst heq
    simp [HashFuncs.equiv, F.less_irrefl] at hab
  · rw [← hfrom]
    refine Hash.iterate_eq hinv.length hpos (Nat.zero_le _) ?_
    rw [Nat.zero_add, hfrom, ← hinv.count]
    exact hfuel
  · rw [h.clearWith_eq hinv.length]
    exact ⟨rfl, by simp [Hash.hashClear, Hash.elems], rfl⟩

/-- Twenty elements in four buckets. -/
theorem hash_visits_once_tens : ∃ (h : Hash ℕ) (visited : List ℕ),
    (hashMachine tens).run (hashMachine tens).start crowdedTens = .next h ∧ visited.Nodup ∧
      visited.length = 20 ∧ h.iterate 21 Hash.hashFirst = some visited := by
  obtain ⟨h, hrun, -, hcnt, -⟩ := crowdedTens_run
  obtain ⟨visited, hnodup, -, hlen, hiterate, -⟩ :=
    hash_visits_once.{0, 0, 0} (hashInv_of_reachable (Machine.reachable_of_run hrun))
  exact ⟨h, visited, hrun, hnodup, hlen.trans hcnt, hiterate 21 (by omega)⟩

end OsMaterial
