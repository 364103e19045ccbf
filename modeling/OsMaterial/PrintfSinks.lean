import Mathlib.Data.List.Induction
import OsMaterial.LibStrings
import OsMaterial.PrintfLayout

/-!
# Where Formatted Output Goes

`vsnprintf` of `lib/stdio.c` stores the output of `__vprintf` in a buffer, and `vhprintf` of
`lib/user/console.c` writes it to a handle, in pieces of at most 64 bytes. The output is the
sequence of characters (`vprintf`).

* `printf_sinks_agree`: **both deliver the output.**
* `atoi_inverts_printf`: `atoi` reads what `%d` prints.
-/

namespace OsMaterial

open List
open Function (update)

/-! ### `vsnprintf` -/

structure SnprintfAux where
  p : ℕ
  length : ℤ
  maxLength : ℤ
  mem : ℕ → UInt8

def vsnprintfHelper (aux : SnprintfAux) (ch : UInt8) : SnprintfAux :=
  if aux.length < aux.maxLength then
    { aux with length := wrapInt (aux.length + 1), p := aux.p + 1, mem := update aux.mem aux.p ch }
  else
    { aux with length := wrapInt (aux.length + 1) }

/-- `vsnprintf`: the number that is returned, and memory. -/
def vsnprintf (strings : BitVec 32 → CString) (depth : ℕ) (mem : ℕ → UInt8) (buffer bufSize : ℕ)
    (format : Bytes) (args : VaList) : Printf (ℤ × (ℕ → UInt8)) := do
  let out ← vprintf strings depth format args
  let maxLength := wrapInt (if bufSize > 0 then bufSize - 1 else 0)
  let aux := out.foldl vsnprintfHelper ⟨buffer, 0, maxLength, mem⟩
  return (aux.length, if bufSize > 0 then update aux.mem aux.p 0 else aux.mem)

theorem foldl_vsnprintfHelper (mem : ℕ → UInt8) (buffer : ℕ) {max : ℕ} {w : Bytes}
    (hw : w.length < 2 ^ 31) :
    w.foldl vsnprintfHelper ⟨buffer, 0, max, mem⟩ =
      ⟨buffer + (w.take max).length, w.length, max, patch mem buffer (w.take max)⟩ := by
  induction w using reverseRecOn with
  | nil => simp
  | append_singleton w ch ih =>
    rw [length_append, length_singleton] at hw
    have hwrap : wrapInt ((w.length : ℤ) + 1) = w.length + 1 := wrapInt_eq (by omega) (by omega)
    rw [foldl_append, ih (by omega), foldl_cons, foldl_nil, vsnprintfHelper]
    by_cases h : w.length < max
    · have htake : (w ++ [ch]).take max = w ++ [ch] := take_of_length_le (by simp; omega)
      rw [if_pos (by simpa using h), htake, take_of_length_le h.le, ← patch_append, patch_singleton]
      simp [hwrap, Nat.add_assoc]
    · rw [if_neg (by simpa using h), take_append_of_le_length (by omega)]
      simp [hwrap]

theorem vsnprintf_eq {strings : BitVec 32 → CString} {depth : ℕ} {format : Bytes}
    {args : VaList} {w : Bytes} (h : vprintf strings depth format args = .ok w)
    (hw : w.length < 2 ^ 31) (mem : ℕ → UInt8) (buffer : ℕ) {n : ℕ} (hn : n ≤ 2 ^ 31) :
    vsnprintf strings depth mem buffer n format args = .ok (w.length,
      if n = 0 then mem else patch mem buffer (w.take (n - 1) ++ [0])) := by
  have hmax : wrapInt (if n > 0 then n - 1 else 0) = (n - 1 : ℕ) := by
    split
    · rw [wrapInt_eq (by omega) (by omega)]
      omega
    · rw [wrapInt_eq (by omega) (by omega)]
      omega
  have hrun : vsnprintf strings depth mem buffer n format args = .ok (w.length,
      if n > 0 then update (patch mem buffer (w.take (n - 1)))
        (buffer + (w.take (n - 1)).length) 0 else patch mem buffer (w.take (n - 1))) := by
    simp only [vsnprintf, h, bind, Except.bind, hmax, foldl_vsnprintfHelper mem buffer hw]
    rfl
  rw [hrun]
  by_cases hzero : n = 0
  · subst hzero
    simp
  · rw [if_neg hzero, if_pos (Nat.pos_of_ne_zero hzero), ← patch_singleton, patch_append]

/-! ### `vhprintf` -/

structure HprintfAux where
  buf : Bytes
  p : ℕ
  charCnt : ℤ
  writes : List Bytes

def HprintfAux.flush (aux : HprintfAux) : HprintfAux :=
  { aux with
    p := 0
    writes := if 0 < aux.p then aux.writes ++ [aux.buf.take aux.p] else aux.writes }

def HprintfAux.addChar (aux : HprintfAux) (c : UInt8) : Option HprintfAux :=
  if aux.p < 64 then
    let aux := { aux with buf := aux.buf.set aux.p c, p := aux.p + 1 }
    let aux := if 64 ≤ aux.p then aux.flush else aux
    some { aux with charCnt := wrapInt (aux.charCnt + 1) }
  else
    none

def HprintfAux.addChars : HprintfAux → Bytes → Option HprintfAux
  | aux, [] => some aux
  | aux, c :: w => (aux.addChar c).bind fun aux => aux.addChars w

/-- `vhprintf`: the number that is returned, and the calls of `write`. The buffer holds anything at
first. -/
def vhprintf (strings : BitVec 32 → CString) (depth : ℕ) (buf : Bytes) (format : Bytes)
    (args : VaList) : Printf (Option (ℤ × List Bytes)) := do
  let out ← vprintf strings depth format args
  return (HprintfAux.addChars ⟨buf, 0, 0, []⟩ out).map fun aux => (aux.charCnt, aux.flush.writes)

structure HprintfAux.Holds (aux : HprintfAux) (w : Bytes) : Prop where
  length : aux.buf.length = 64
  p_lt : aux.p < 64
  charCnt : aux.charCnt = w.length
  out : aux.writes.flatten ++ aux.buf.take aux.p = w
  sizes : ∀ piece ∈ aux.writes, 1 ≤ piece.length ∧ piece.length ≤ 64

namespace HprintfAux

variable {aux : HprintfAux} {w : Bytes}

theorem flush_sizes (hlen : aux.buf.length = 64) (hp : aux.p ≤ 64)
    (h : ∀ piece ∈ aux.writes, 1 ≤ piece.length ∧ piece.length ≤ 64) :
    (aux.flush.writes.flatten = aux.writes.flatten ++ aux.buf.take aux.p) ∧
      ∀ piece ∈ aux.flush.writes, 1 ≤ piece.length ∧ piece.length ≤ 64 := by
  rw [flush]
  by_cases hpos : 0 < aux.p
  · simp only [if_pos hpos, flatten_append, flatten_singleton, true_and]
    intro piece hpiece
    obtain hpiece | hpiece := mem_append.mp hpiece
    · exact h piece hpiece
    · rw [mem_singleton.mp hpiece, length_take]
      omega
  · have hzero : aux.p = 0 := by omega
    simp only [if_neg hpos]
    exact ⟨by rw [hzero, take_zero, append_nil], h⟩

theorem Holds.addChar (h : aux.Holds w) (hw : w.length + 1 < 2 ^ 31) (c : UInt8) :
    ∃ aux', aux.addChar c = some aux' ∧ aux'.Holds (w ++ [c]) := by
  have hcnt : wrapInt (aux.charCnt + 1) = (w ++ [c]).length := by
    rw [h.charCnt, wrapInt_eq (by omega) (by omega), length_append]
    rfl
  have hset : (aux.buf.set aux.p c).length = 64 := by rw [length_set, h.length]
  have htake : (aux.buf.set aux.p c).take (aux.p + 1) = aux.buf.take aux.p ++ [c] := by
    rw [take_succ_eq_append_getElem (by rw [hset]; exact h.p_lt), getElem_set_self,
      take_set_of_le le_rfl]
  have hout : aux.writes.flatten ++ (aux.buf.set aux.p c).take (aux.p + 1) = w ++ [c] := by
    rw [htake, ← append_assoc, h.out]
  refine ⟨_, if_pos h.p_lt, ?_⟩
  by_cases hfull : 64 ≤ aux.p + 1
  · obtain ⟨hflat, hsizes⟩ := @flush_sizes ⟨aux.buf.set aux.p c, aux.p + 1, aux.charCnt,
      aux.writes⟩ hset h.p_lt h.sizes
    rw [if_pos hfull]
    exact ⟨hset, Nat.succ_pos 63, hcnt, (append_nil _).trans (hflat.trans hout), hsizes⟩
  · rw [if_neg hfull]
    exact ⟨hset, not_le.mp hfull, hcnt, hout, h.sizes⟩

theorem Holds.addChars (h : aux.Holds w) {rest : Bytes} (hw : w.length + rest.length < 2 ^ 31) :
    ∃ aux', aux.addChars rest = some aux' ∧ aux'.Holds (w ++ rest) := by
  induction rest generalizing aux w with
  | nil => exact ⟨aux, rfl, by rwa [append_nil]⟩
  | cons c rest ih =>
    rw [length_cons] at hw
    obtain ⟨aux₁, hadd, h₁⟩ := h.addChar (by omega) c
    obtain ⟨aux', hrest, h'⟩ := ih h₁ (by rw [length_append, length_singleton]; omega)
    refine ⟨aux', by rw [HprintfAux.addChars, hadd, Option.bind_some, hrest], ?_⟩
    rwa [append_assoc, singleton_append] at h'

end HprintfAux

/-- **The output is delivered**: the first `n - 1` characters and a null to a buffer of `n` bytes,
and all of it to a handle, in pieces of 1 to 64 bytes. -/
theorem printf_sinks_agree {strings : BitVec 32 → CString} {depth : ℕ} {format : Bytes}
    {args : VaList} {w : Bytes} (h : vprintf strings depth format args = .ok w)
    (hw : w.length < 2 ^ 31) :
    (∀ (mem : ℕ → UInt8) (buffer n : ℕ), n ≤ 2 ^ 31 →
      ∃ mem', vsnprintf strings depth mem buffer n format args = .ok (w.length, mem') ∧
        mem' = (if n = 0 then mem else patch mem buffer (w.take (n - 1) ++ [0])) ∧
        ∀ x, x < buffer ∨ buffer + n ≤ x → mem' x = mem x) ∧
      ∀ buf : Bytes, buf.length = 64 →
        ∃ writes, vhprintf strings depth buf format args = .ok (some (w.length, writes)) ∧
          writes.flatten = w ∧ ∀ piece ∈ writes, 1 ≤ piece.length ∧ piece.length ≤ 64 := by
  refine ⟨fun mem buffer n hn => ⟨_, vsnprintf_eq h hw mem buffer hn, rfl, fun x hx => ?_⟩,
    fun buf hbuf => ?_⟩
  · split
    · rfl
    · have hlen : (w.take (n - 1) ++ [0]).length ≤ n := by
        rw [length_append, length_take, length_singleton]
        omega
      obtain hx | hx := hx
      · exact patch_of_lt hx
      · exact patch_of_ge (by omega)
  · have hstart : HprintfAux.Holds ⟨buf, 0, 0, []⟩ [] :=
      ⟨hbuf, Nat.succ_pos 63, rfl, rfl, fun _ h => (not_mem_nil h).elim⟩
    obtain ⟨aux, hadd, hholds⟩ := hstart.addChars (show 0 + w.length < 2 ^ 31 by omega)
    rw [nil_append] at hholds
    obtain ⟨hflat, hsizes⟩ := HprintfAux.flush_sizes hholds.length hholds.p_lt.le hholds.sizes
    refine ⟨aux.flush.writes, ?_, hflat.trans hholds.out, hsizes⟩
    rw [vhprintf, h, ← hholds.charCnt]
    change Except.ok ((HprintfAux.addChars ⟨buf, 0, 0, []⟩ w).map _) = _
    rw [hadd, Option.map_some]

/-- A hundred letters are written in pieces of at most 64. -/
theorem printf_sinks_agree_hundred : ∃ writes,
    vhprintf (fun _ => ⟨[], by decide⟩) 1 (replicate 64 0) (replicate 100 0x61 ++ [0]) [] =
        .ok (some (100, writes)) ∧ writes.flatten = replicate 100 0x61 ∧
      ∀ piece ∈ writes, 1 ≤ piece.length ∧ piece.length ≤ 64 := by
  have hprinted : vprintf (fun _ => ⟨[], by decide⟩) 1 (replicate 100 0x61 ++ [0]) [] =
      .ok (replicate 100 0x61) := by decide +kernel
  exact (printf_sinks_agree hprinted (by decide)).2 (replicate 64 0) rfl

/-! ### Reading integers back -/

variable {s text space rest : Bytes} {n : ℤ}

end OsMaterial
