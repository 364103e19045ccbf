import OsMaterial.LibStrings
import OsMaterial.Machine

/-!
# Moving Bytes and Splitting Strings

`memmove` and `strtok_r` of `lib/string.c`. Memory is a function from addresses to bytes; address 0
is the null pointer. `memmove` returns the pointer that it has moved while copying. `strtok_r` works
in an array that ends with the null of the string; a read past its end has no result.

* `memmove_returns_iff`: **the bytes are moved**, and `dst` is returned unless that is below `src`.
* `strtok_exact`: **the tokens of a string** are its runs of other characters than delimiters.
-/

namespace OsMaterial

open List
open Function (update update_apply)

/-! ### `memmove` -/

inductive MemmoveFault where
  /-- `ASSERT (dst != NULL || size == 0)`. -/
  | dst
  /-- `ASSERT (src != NULL || size == 0)`. -/
  | src
  deriving DecidableEq

def copyUp (mem : ℕ → UInt8) (dst src : ℕ) : ℕ → (ℕ → UInt8) × ℕ
  | 0 => (mem, dst)
  | size + 1 => copyUp (update mem dst (mem src)) (dst + 1) (src + 1) size

def copyDown (mem : ℕ → UInt8) (dst src : ℕ) : ℕ → (ℕ → UInt8) × ℕ
  | 0 => (mem, dst)
  | size + 1 => copyDown (update mem (dst - 1) (mem (src - 1))) (dst - 1) (src - 1) size

def memmove (mem : ℕ → UInt8) (dst src size : ℕ) : Outcome MemmoveFault ((ℕ → UInt8) × ℕ) :=
  if ¬ (dst ≠ 0 ∨ size = 0) then .fault .dst
  else if ¬ (src ≠ 0 ∨ size = 0) then .fault .src
  else if dst < src then .next (copyUp mem dst src size)
  else .next (copyDown mem (dst + size) (src + size) size)

def moved (mem : ℕ → UInt8) (dst src size : ℕ) : ℕ → UInt8 :=
  fun x => if dst ≤ x ∧ x < dst + size then mem (src + (x - dst)) else mem x

theorem moved_zero (mem : ℕ → UInt8) (dst src : ℕ) : moved mem dst src 0 = mem := by
  funext x
  exact if_neg (by omega)

theorem moved_update (mem : ℕ → UInt8) (dst src size d s n k : ℕ)
    (hlater : ∀ i < n, s + i ≠ dst + k)
    (hrest : ∀ x, dst ≤ x ∧ x < dst + size ↔ d ≤ x ∧ x < d + n ∨ x = dst + k)
    (hshift : ∀ i < n, s + i = src + (d + i - dst)) :
    moved (update mem (dst + k) (mem (src + k))) d s n = moved mem dst src size := by
  funext x
  simp only [moved, hrest]
  by_cases hx : d ≤ x ∧ x < d + n
  · have hi : x - d < n := by omega
    rw [if_pos hx, if_pos (.inl hx), update_apply, if_neg (hlater _ hi), hshift _ hi,
      Nat.add_sub_cancel' hx.1]
  · rw [if_neg hx, update_apply]
    by_cases hxk : x = dst + k
    · rw [if_pos hxk, if_pos (.inr hxk), hxk, Nat.add_sub_cancel_left]
    · rw [if_neg hxk, if_neg (by tauto)]

theorem copyUp_eq (mem : ℕ → UInt8) {dst src : ℕ} (h : dst ≤ src) (size : ℕ) :
    copyUp mem dst src size = (moved mem dst src size, dst + size) := by
  induction size generalizing mem dst src with
  | zero => rw [copyUp, moved_zero, Nat.add_zero]
  | succ size ih =>
    rw [copyUp, ih _ (by omega), Nat.add_right_comm]
    have hmoved := moved_update mem dst src (size + 1) (dst + 1) (src + 1) size 0 (by omega)
      (by omega) (by omega)
    exact congrArg (·, dst + size + 1) hmoved

theorem copyDown_eq (mem : ℕ → UInt8) {dst src : ℕ} (h : src ≤ dst) (size : ℕ) :
    copyDown mem (dst + size) (src + size) size = (moved mem dst src size, dst) := by
  induction size generalizing mem with
  | zero => rw [copyDown, moved_zero, Nat.add_zero]
  | succ size ih =>
    change copyDown (update mem (dst + size) (mem (src + size))) (dst + size) (src + size) size = _
    rw [ih, moved_update mem dst src (size + 1) dst src size size (by omega) (by omega) (by omega)]

/-- **Moving bytes**, as through a temporary. If they move to a lower address, the pointer behind
the last byte is returned. -/
theorem memmove_returns_iff (mem : ℕ → UInt8) (dst src size : ℕ) :
    (dst ≠ 0 → src ≠ 0 → memmove mem dst src size =
      .next (moved mem dst src size, if dst < src then dst + size else dst)) ∧
    (memmove mem dst src size = .next (moved mem dst src size, dst) ↔
      size = 0 ∨ src ≠ 0 ∧ src ≤ dst) := by
  have heq (hd : dst ≠ 0 ∨ size = 0) (hs : src ≠ 0 ∨ size = 0) : memmove mem dst src size =
      .next (moved mem dst src size, if dst < src then dst + size else dst) := by
    rw [memmove, if_neg (not_not_intro hd), if_neg (not_not_intro hs)]
    split
    · rw [copyUp_eq mem (by omega)]
    · rw [copyDown_eq mem (by omega)]
  refine ⟨fun hd hs => heq (.inl hd) (.inl hs), ⟨fun hret => ?_, fun h => ?_⟩⟩
  · by_cases hd : dst ≠ 0 ∨ size = 0
    · by_cases hs : src ≠ 0 ∨ size = 0
      · rw [heq hd hs] at hret
        have hptr := congrArg Prod.snd (Outcome.next.inj hret)
        change (if dst < src then dst + size else dst) = dst at hptr
        split at hptr <;> omega
      · rw [memmove, if_neg (not_not_intro hd), if_pos hs] at hret
        cases hret
    · rw [memmove, if_pos hd] at hret
      cases hret
  · rw [heq (by omega) (by omega)]
    split
    · rw [show size = 0 by omega, Nat.add_zero]
    · rfl

/-- One byte moved from address 2 to address 1: the pointer returned is 2. -/
theorem memmove_returns_end : ∃ mem, memmove (fun _ => 0) 1 2 1 = .next (mem, 2) :=
  ⟨_, rfl⟩

/-- One byte, to a higher address. -/
theorem memmove_returns_iff_up : memmove (fun _ => 0) 2 1 1 = .next (moved (fun _ => 0) 2 1 1, 2) :=
  (memmove_returns_iff (fun _ => 0) 2 1 1).2.mpr (by decide)

/-! ### `strtok_r` -/

def strchr (c : UInt8) : Bytes → Option (Option Bytes)
  | [] => none
  | x :: string =>
    if x = c then some (some (x :: string)) else if x = 0 then some none else strchr c string

def skipDelimiters (d : Bytes) : Bytes → ℕ → Option (Bool × ℕ)
  | [], _ => none
  | c :: rest, s =>
    (strchr c d).bind fun found =>
      if found ≠ none then
        if c = 0 then some (false, s) else skipDelimiters d rest (s + 1)
      else
        some (true, s)

def skipToken (d : Bytes) : Bytes → ℕ → Option ℕ
  | [], _ => none
  | c :: rest, s =>
    (strchr c d).bind fun found => if found = none then skipToken d rest (s + 1) else some s

def strtokCall (array : Bytes) (s : ℕ) (d : Bytes) :
    Option (Option ℕ × Bytes × ℕ) :=
  (skipDelimiters d (array.drop s) s).bind fun (begins, token) =>
    if begins then
      (skipToken d (array.drop token) token).bind fun s =>
        (array[s]?).bind fun c =>
          if c ≠ 0 then some (some token, array.set s 0, s + 1) else some (some token, array, s)
    else
      some (none, array, token)

/-- Calls of `strtok_r` with the delimiters `ds`, one after the other: the tokens as strings. -/
def strtokRun : Bytes → ℕ → List CString → Option (List (Option Bytes))
  | _, _, [] => some []
  | array, s, d :: ds =>
    (strtokCall array s (d.bytes ++ [0])).bind fun (p, array, s) =>
      (strtokRun array s ds).map (p.map (fun token => cstring (array.drop token)) :: ·)

def tokensFrom : Bytes → List CString → List (Option Bytes)
  | _, [] => []
  | s, d :: ds => (strtokR s d.bytes).1 :: tokensFrom (strtokR s d.bytes).2 ds

def delimitedRuns (s d : Bytes) : List Bytes := (s.splitOnP (· ∈ d)).filter (· ≠ [])

theorem strchr_delimiters (c : UInt8) (d : CString) :
    ∃ found, strchr c (d.bytes ++ [0]) = some found ∧ (found = none ↔ ¬ (c ∈ d.bytes ∨ c = 0)) := by
  obtain ⟨bytes, h0⟩ := d
  induction bytes with
  | nil =>
    by_cases hc : 0 = c
    · exact ⟨some [0], if_pos hc, by simp [hc]⟩
    · exact ⟨none, if_neg hc, by simp [Ne.symm hc]⟩
  | cons x bytes ih =>
    obtain ⟨hx, h0⟩ := not_or.mp (mem_cons.not.mp h0)
    by_cases hxc : x = c
    · exact ⟨_, if_pos hxc, by simp [hxc]⟩
    · obtain ⟨found, heq, hfound⟩ := ih h0
      refine ⟨found, ?_, by simpa [Ne.symm hxc] using hfound⟩
      rw [cons_append, strchr, if_neg hxc, if_neg (Ne.symm hx), heq]

variable {d : CString}

theorem skipDelimiters_eq (h0 : 0 ∉ s) (i : ℕ) :
    skipDelimiters (d.bytes ++ [0]) (s ++ [0]) i =
      some (decide (s.dropWhile (· ∈ d.bytes) ≠ []), i + (s.takeWhile (· ∈ d.bytes)).length) := by
  induction s generalizing i with
  | nil =>
    obtain ⟨found, heq, hfound⟩ := strchr_delimiters 0 d
    simp [skipDelimiters, heq, hfound]
  | cons c s ih =>
    obtain ⟨hc, h0⟩ := not_or.mp (mem_cons.not.mp h0)
    obtain ⟨found, heq, hfound⟩ := strchr_delimiters c d
    by_cases hd : c ∈ d.bytes
    · simp [skipDelimiters, heq, hfound, hd, Ne.symm hc, ih h0, Nat.add_assoc, Nat.add_comm 1]
    · simp [skipDelimiters, heq, hfound, hd, Ne.symm hc]

theorem skipToken_eq (h0 : 0 ∉ s) (i : ℕ) :
    skipToken (d.bytes ++ [0]) (s ++ [0]) i = some (i + (s.takeWhile (· ∉ d.bytes)).length) := by
  induction s generalizing i with
  | nil =>
    obtain ⟨found, heq, hfound⟩ := strchr_delimiters 0 d
    simp [skipToken, heq, hfound]
  | cons c s ih =>
    obtain ⟨hc, h0⟩ := not_or.mp (mem_cons.not.mp h0)
    obtain ⟨found, heq, hfound⟩ := strchr_delimiters c d
    by_cases hd : c ∈ d.bytes
    · simp [skipToken, heq, hfound, hd]
    · simp [skipToken, heq, hfound, hd, Ne.symm hc, ih h0, Nat.add_assoc, Nat.add_comm 1]

theorem strtokCall_eq (pre : Bytes) (h0 : 0 ∉ s) (d : CString) :
    ∃ p pre', strtokCall (pre ++ (s ++ [0])) pre.length (d.bytes ++ [0]) =
        some (p, pre' ++ ((strtokR s d.bytes).2 ++ [0]), pre'.length) ∧
      p.map (fun token => cstring ((pre' ++ ((strtokR s d.bytes).2 ++ [0])).drop token)) =
        (strtokR s d.bytes).1 ∧ 0 ∉ (strtokR s d.bytes).2 := by
  have hsplit := takeWhile_append_dropWhile (p := (· ∈ d.bytes)) (l := s)
  rw [strtokCall, drop_left, skipDelimiters_eq h0, Option.bind_some, strtokR]
  generalize s.takeWhile (· ∈ d.bytes) = skipped at hsplit ⊢
  cases hrest : s.dropWhile (· ∈ d.bytes) with
  | nil =>
    obtain rfl : skipped = s := by rw [← hsplit, hrest, append_nil]
    exact ⟨none, pre ++ skipped, by simp, rfl, not_mem_nil⟩
  | cons c t =>
    have hc : c ∉ d.bytes := by
      have := head?_dropWhile_not (· ∈ d.bytes) s
      rw [hrest] at this
      exact of_decide_eq_false this
    rw [hrest] at hsplit
    obtain ⟨-, h0t⟩ := not_or.mp (mem_append.not.mp (hsplit.symm ▸ h0))
    have hdrop : (pre ++ (s ++ [0])).drop (pre.length + skipped.length) = c :: t ++ [0] := by
      rw [← hsplit, append_assoc, ← append_assoc pre, drop_left' (by simp)]
    have htake : (c :: t).takeWhile (· ∉ d.bytes) = c :: t.takeWhile (· ∉ d.bytes) :=
      takeWhile_cons_of_pos (decide_eq_true hc)
    have hstop := takeWhile_append_dropWhile (p := (· ∉ d.bytes)) (l := t)
    simp only [if_true, decide_true, ne_eq, reduceCtorEq, not_false_eq_true, hdrop,
      skipToken_eq h0t, Option.bind_some, htake]
    generalize t.takeWhile (· ∉ d.bytes) = word at hstop ⊢
    generalize t.dropWhile (· ∉ d.bytes) = left at hstop ⊢
    subst hstop hsplit
    have h0w : 0 ∉ c :: word := fun h => h0t (mem_append_left left h)
    have hlen : pre.length + skipped.length + (c :: word).length =
        (pre ++ skipped ++ (c :: word)).length := by simp [Nat.add_assoc]
    have harray : pre ++ (skipped ++ c :: (word ++ left) ++ [0]) =
        pre ++ skipped ++ (c :: word) ++ (left ++ [0]) := by simp
    rw [harray, hlen, getElem?_append_right le_rfl, Nat.sub_self]
    cases left with
    | nil =>
      refine ⟨some (pre ++ skipped).length, pre ++ skipped ++ (c :: word), by simp, ?_, by simp⟩
      rw [tail_nil, nil_append, append_assoc, Option.map_some, drop_left, cstring_append ⟨_, h0w⟩]
    | cons x left =>
      have hx : x ≠ 0 := fun h => h0t (by simp [h])
      refine ⟨some (pre ++ skipped).length, pre ++ skipped ++ (c :: word) ++ [0],
        by simp [hx, Nat.add_assoc], ?_, fun h => h0t (by simp [show 0 ∈ left from h])⟩
      rw [tail_cons, append_assoc, append_assoc (pre ++ skipped), Option.map_some,
        drop_left, singleton_append, cstring_append ⟨_, h0w⟩]

theorem strtokRun_eq (pre : Bytes) (h0 : 0 ∉ s) (ds : List CString) :
    strtokRun (pre ++ (s ++ [0])) pre.length ds = some (tokensFrom s ds) := by
  induction ds generalizing pre s with
  | nil => rfl
  | cons d ds ih =>
    obtain ⟨p, pre', hcall, htoken, h0'⟩ := strtokCall_eq pre h0 d
    simp only [strtokRun, hcall, Option.bind_some, ih pre' h0', htoken]
    rfl

theorem delimitedRuns_eq (s d : Bytes) :
    (strtokR s d).1 = (delimitedRuns s d).head? ∧
      delimitedRuns (strtokR s d).2 d = (delimitedRuns s d).tail := by
  induction s with
  | nil => simp [strtokR, delimitedRuns]
  | cons c s ih =>
    by_cases hc : c ∈ d
    · have hruns : delimitedRuns (c :: s) d = delimitedRuns s d := by
        simp [delimitedRuns, splitOnP_cons_eq_if_modifyHead, hc]
      have htok : strtokR (c :: s) d = strtokR s d := by
        simp only [strtokR, dropWhile_cons, hc, decide_true, if_true]
      rw [hruns, htok]
      exact ih
    · rw [strtokR, dropWhile_cons_of_neg (by simpa using hc)]
      have hsplit := takeWhile_append_dropWhile (p := (· ∉ d)) (l := s)
      have hword : ∀ x ∈ c :: s.takeWhile (· ∉ d), decide (x ∈ d) = false := by
        rintro x (_ | ⟨_, hx⟩)
        · exact decide_eq_false hc
        · simpa using mem_takeWhile_imp hx
      change some (c :: s.takeWhile (· ∉ d)) = _ ∧ delimitedRuns (s.dropWhile (· ∉ d)).tail d = _
      have hnext := head?_dropWhile_not (· ∉ d) s
      generalize s.takeWhile (· ∉ d) = word at hsplit hword ⊢
      generalize s.dropWhile (· ∉ d) = left at hsplit hnext ⊢
      subst hsplit
      cases left with
      | nil => simp [delimitedRuns, splitOnP_eq_singleton hword]
      | cons x left =>
        have hx : decide (x ∈ d) = true := by simpa using hnext
        rw [← cons_append, delimitedRuns.eq_def (c :: word ++ x :: left),
          splitOnP_append_cons_of_forall_mem hword x hx]
        simp [delimitedRuns]

/-- **Splitting a string**: no call leaves the array, and with the same delimiters the tokens are
the maximal runs of other characters. -/
theorem strtok_exact (s : CString) (ds : List CString) (d : CString) (n : ℕ) :
    strtokRun (s.bytes ++ [0]) 0 ds = some (tokensFrom s.bytes ds) ∧
      tokensFrom s.bytes (replicate n d) =
        (range n).map fun i => (delimitedRuns s.bytes d.bytes)[i]? := by
  refine ⟨strtokRun_eq [] s.nul_notMem ds, ?_⟩
  generalize s.bytes = t
  induction n generalizing t with
  | zero => rfl
  | succ n ih =>
    obtain ⟨htoken, hrest⟩ := delimitedRuns_eq t d.bytes
    rw [replicate_succ, tokensFrom, ih, htoken, hrest, range_succ_eq_map, map_cons,
      map_map, head?_eq_getElem?]
    congr 1
    exact map_congr_left fun i _ => by simp

end OsMaterial
