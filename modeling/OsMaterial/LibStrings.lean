import Mathlib.Data.BitVec
import OsMaterial.Words

/-!
# Tokens and Decimal Integers

`strtok_r` of `lib/string.c` with the rest of the string as its state, and `atoi` of `lib/stdlib.c`
in 32-bit words.

* `atoi_eq_of_isDecimal`: **`atoi`** of a decimal integer, modulo `2 ^ 32`.
-/

namespace OsMaterial

open List

variable {text s : Bytes} {v : ℤ} {c : UInt8}

/-- `strtok_r`: the next token of `s`, and what is left behind the delimiter that ends it. -/
def strtokR (s delimiters : Bytes) : Option Bytes × Bytes :=
  match s.dropWhile (· ∈ delimiters) with
  | [] => (none, [])
  | c :: s =>
    (some (c :: s.takeWhile (· ∉ delimiters)), (s.dropWhile (· ∉ delimiters)).tail)

/-- The loop of `atoi`, which adds up the negative of the value. -/
def atoiDigits (value : BitVec 32) : Bytes → BitVec 32
  | [] => value
  | c :: s =>
    if isDigitByte c then atoiDigits (value * 10 - BitVec.ofNat 32 (c.toNat - 0x30)) s
    else value

/-- `atoi`: white space, a sign, and digits up to another character. -/
def atoi (s : Bytes) : BitVec 32 :=
  match s.dropWhile isSpaceByte with
  | 0x2b :: s => -(atoiDigits 0 s)
  | 0x2d :: s => atoiDigits 0 s
  | s => -(atoiDigits 0 s)

/-! ### Decimal integers -/

/-- The value of digits that follow the value `n`. -/
def digitsFrom (n : ℕ) (text : Bytes) : ℕ :=
  text.foldl (fun n c => n * 10 + (c.toNat - 0x30)) n

/-- The **decimal integers**: digits, perhaps after a sign. -/
inductive IsDecimal : Bytes → ℤ → Prop
  | plain {digits : Bytes} (hne : digits ≠ []) (hd : ∀ c ∈ digits, isDigitByte c = true) :
      IsDecimal digits (digitsFrom 0 digits)
  | plus {digits : Bytes} (hne : digits ≠ []) (hd : ∀ c ∈ digits, isDigitByte c = true) :
      IsDecimal (0x2b :: digits) (digitsFrom 0 digits)
  | minus {digits : Bytes} (hne : digits ≠ []) (hd : ∀ c ∈ digits, isDigitByte c = true) :
      IsDecimal (0x2d :: digits) (-(digitsFrom 0 digits))

theorem atoiDigits_eq {digits : Bytes} (hd : ∀ c ∈ digits, isDigitByte c = true) (n : ℕ) :
    atoiDigits (BitVec.ofInt 32 (-n)) digits = BitVec.ofInt 32 (-(digitsFrom n digits)) := by
  induction digits generalizing n with
  | nil => rfl
  | cons c digits ih =>
    obtain ⟨hc, hrest⟩ := forall_mem_cons.mp hd
    have hnext : BitVec.ofInt 32 (-n) * 10 - BitVec.ofNat 32 (c.toNat - 0x30) =
        BitVec.ofInt 32 (-((n * 10 + (c.toNat - 0x30) : ℕ) : ℤ)) := by
      rw [Nat.cast_add, Nat.cast_mul, neg_add, ← neg_mul, BitVec.ofInt_add, BitVec.ofInt_mul,
        BitVec.ofInt_neg (n := ((c.toNat - 0x30 : ℕ) : ℤ)), BitVec.ofInt_natCast,
        BitVec.ofInt_natCast, ← sub_eq_add_neg]
      rfl
    rw [atoiDigits, if_pos hc, hnext, ih hrest]
    rfl

theorem not_isSpaceByte_of_isDigitByte (h : isDigitByte c = true) :
    isSpaceByte c = false ∧ c ≠ 0x2b ∧ c ≠ 0x2d := by
  refine ⟨?_, ?_, ?_⟩
  · by_contra hspace
    simp only [isSpaceByte, Bool.not_eq_false, Bool.or_eq_true, decide_eq_true_eq] at hspace
    rcases hspace with ((((rfl | rfl) | rfl) | rfl) | rfl) | rfl <;> exact absurd h (by decide)
  · rintro rfl
    exact absurd h (by decide)
  · rintro rfl
    exact absurd h (by decide)

theorem dropWhile_isSpaceByte (h : isSpaceByte c = false) :
    (c :: s).dropWhile isSpaceByte = c :: s := by
  rw [dropWhile_cons, h, if_neg Bool.false_ne_true]

/-- **`atoi` of a decimal integer** is the integer, modulo `2 ^ 32`. -/
theorem atoi_eq_of_isDecimal (h : IsDecimal text v) : atoi text = BitVec.ofInt 32 v := by
  have hzero : ∀ {digits : Bytes}, (∀ c ∈ digits, isDigitByte c = true) →
      -(atoiDigits 0 digits) = BitVec.ofInt 32 (digitsFrom 0 digits) := by
    intro digits hd
    rw [show (0 : BitVec 32) = BitVec.ofInt 32 (-(0 : ℕ)) from rfl, atoiDigits_eq hd,
      BitVec.ofInt_neg, BitVec.neg_neg]
  cases h with
  | plain hne hd =>
    obtain ⟨c, s, rfl⟩ := exists_cons_of_ne_nil hne
    obtain ⟨hspace, hplus, hminus⟩ := not_isSpaceByte_of_isDigitByte (hd c mem_cons_self)
    rw [atoi, dropWhile_isSpaceByte hspace]
    split
    · next heq => exact absurd (List.cons.inj heq).1 hplus
    · next heq => exact absurd (List.cons.inj heq).1 hminus
    · exact hzero hd
  | plus hne hd =>
    exact hzero hd
  | minus hne hd =>
    rw [atoi, dropWhile_isSpaceByte (by decide)]
    exact atoiDigits_eq hd 0

end OsMaterial
