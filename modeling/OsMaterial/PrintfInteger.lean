import OsMaterial.Numeral
import OsMaterial.Printf

/-!
# Printing Integers

What `format_integer` of `lib/stdio.c` prints. The digits of a value are written into a buffer of 64
bytes, from the last one on, with commas if the flag `'` is given; zeros are appended while there is
room for one more.

* `accumulateDigits_eq`: **what is in the buffer**; nothing is written behind its end.
* `format_integer_correct`: the digits denote the value, and the commas group them.
-/

namespace OsMaterial

open List

variable {buf : Bytes} {rounds value : ℕ} {c : Conversion}

/-! ### Bases -/

structure IntegerBase.Proper (b : IntegerBase) : Prop where
  eight_le : 8 ≤ b.base
  group_pos : 0 < b.group
  digit_zero : b.digit 0 = 0x30
  digit_ne_comma : ∀ d < b.base, b.digit d ≠ 0x2c
  digit_ne_zero : ∀ d < b.base, d ≠ 0 → b.digit d ≠ 0x30

def integerBases : List IntegerBase := [baseD, baseO, baseLowerX, baseUpperX]

theorem proper_of_mem {b : IntegerBase} (hb : b ∈ integerBases) : b.Proper := by
  rcases mem_cons.mp hb with rfl | hb
  · exact ⟨by decide, by decide, by decide, by decide, by decide⟩
  rcases mem_cons.mp hb with rfl | hb
  · exact ⟨by decide, by decide, by decide, by decide, by decide⟩
  rcases mem_cons.mp hb with rfl | hb
  · exact ⟨by decide, by decide, by decide, by decide, by decide⟩
  · obtain rfl := mem_singleton.mp hb
    exact ⟨by decide, by decide, by decide, by decide, by decide⟩

variable {b : IntegerBase}

namespace IntegerBase

def numeral (b : IntegerBase) (n : ℕ) : Bytes := ((Nat.digits b.base n).map b.digit).reverse

def digitText (b : IntegerBase) (group : Bool) (n : ℕ) : Bytes :=
  writeDigits 0x2c (fun i => group && atGroup b.group i) 0 ((Nat.digits b.base n).map b.digit) []

/-- **A numeral of the base** denotes a number. -/
def Denotes (b : IntegerBase) (numeral : Bytes) (n : ℕ) : Prop :=
  ∃ ds : List ℕ, (∀ d ∈ ds, d < b.base) ∧ ds.map b.digit = numeral ∧
    Nat.ofDigits b.base ds.reverse = n

theorem digitText_false (b : IntegerBase) (n : ℕ) : b.digitText false n = b.numeral n := by
  have hnone : ∀ i, (false && atGroup b.group i) = false := fun _ => rfl
  rw [digitText, writeDigits_eq_reverse _ hnone, append_nil, numeral]

section

variable (hb : b.Proper)

include hb

theorem Proper.grouped_digitText (n : ℕ) :
    Grouped 0x2c b.group (b.numeral n) (b.digitText true n) := by
  have hnil : Grouped (0x2c : UInt8) b.group [] [] := .short (Nat.zero_le b.group)
  have hgroup := grouped_writeDigits hb.group_pos hnil ((Nat.digits b.base n).map b.digit)
  rw [append_nil] at hgroup
  exact hgroup

theorem Proper.comma_notMem_numeral (n : ℕ) : 0x2c ∉ b.numeral n := by
  intro hmem
  rw [numeral, mem_reverse, mem_map] at hmem
  obtain ⟨d, hd, hcomma⟩ := hmem
  have := hb.eight_le
  exact hb.digit_ne_comma d (Nat.digits_lt_base (by omega) hd) hcomma

theorem Proper.filter_digitText (group : Bool) (n : ℕ) :
    (b.digitText group n).filter (· ≠ 0x2c) = b.numeral n := by
  cases group with
  | true => exact (hb.grouped_digitText n).filter_eq (hb.comma_notMem_numeral n)
  | false =>
    rw [digitText_false]
    refine filter_eq_self.mpr fun ch hch => decide_eq_true ?_
    rintro rfl
    exact hb.comma_notMem_numeral n hch

theorem Proper.length_digits_le (value : BitVec 64) :
    (Nat.digits b.base value.toNat).length ≤ 22 := by
  have h8 := hb.eight_le
  rw [Nat.digits_length_le_iff (by omega)]
  calc value.toNat < 2 ^ 64 := value.isLt
    _ ≤ 8 ^ 22 := by decide
    _ ≤ b.base ^ 22 := Nat.pow_le_pow_left h8 22

theorem Proper.length_digitText_lt (group : Bool) (value : BitVec 64) :
    (b.digitText group value.toNat).length < 63 := by
  have hdigits := hb.length_digits_le value
  have hle := length_writeDigits_le 0x2c (fun i => group && atGroup b.group i) 0
    ((Nat.digits b.base value.toNat).map b.digit) []
  rw [length_nil, length_map] at hle
  exact lt_of_le_of_lt hle (by omega)

theorem Proper.length_digitText (group : Bool) (n : ℕ) :
    (b.numeral n).length ≤ (b.digitText group n).length ∧
      ((b.digitText group n).length = (b.numeral n).length ↔
        (group = true → (b.numeral n).length ≤ b.group)) := by
  cases group with
  | false =>
    rw [digitText_false]
    exact ⟨le_rfl, iff_of_true rfl fun h => absurd h Bool.false_ne_true⟩
  | true =>
    have hgrouped := hb.grouped_digitText n
    rw [hgrouped.length_eq_iff]
    exact ⟨hgrouped.length_le, fun h _ => h, fun h => h rfl⟩

theorem Proper.head?_digitText_ne (group : Bool) (n : ℕ) :
    (b.digitText group n).head? ≠ some 0x30 := by
  have h8 := hb.eight_le
  rw [digitText, head?_writeDigits, head?_nil, Option.or_none, getLast?_map]
  rcases Nat.eq_zero_or_pos n with rfl | hpos
  · rw [Nat.digits_zero]
    simp
  · have hne : Nat.digits b.base n ≠ [] := Nat.digits_ne_nil_iff_ne_zero.mpr (by omega)
    rw [getLast?_eq_some_getLast hne, Option.map_some]
    intro hzero
    exact hb.digit_ne_zero _ (Nat.digits_lt_base (by omega) (getLast_mem hne))
      (Nat.getLast_digit_ne_zero b.base (by omega)) (Option.some.inj hzero)

theorem Proper.denotes (k n : ℕ) : b.Denotes (replicate k 0x30 ++ b.numeral n) n := by
  have h8 := hb.eight_le
  refine ⟨replicate k 0 ++ (Nat.digits b.base n).reverse, fun d hd => ?_, ?_, ?_⟩
  · rcases mem_append.mp hd with hd | hd
    · rw [eq_of_mem_replicate hd]
      omega
    · exact Nat.digits_lt_base (by omega) (mem_reverse.mp hd)
  · rw [map_append, map_replicate, hb.digit_zero, map_reverse, numeral]
  · rw [ofDigits_zeros_append, reverse_reverse, Nat.ofDigits_digits]

end

end IntegerBase

/-! ### The buffer -/

section

theorem pushChar_eq (ch : UInt8) (h : buf.length < 64) : pushChar ch buf = .ok (ch :: buf) :=
  if_pos h

/-- **The loop over the digits** writes them, with at most one comma for each. -/
theorem digitLoop_eq (hb : b.Proper) (group : Bool) (cnt : ℕ)
    (hrounds : (Nat.digits b.base value).length ≤ rounds)
    (hlen : buf.length + 2 * (Nat.digits b.base value).length ≤ 64) :
    digitLoop b group rounds value cnt buf =
      .ok (writeDigits 0x2c (fun i => group && atGroup b.group i) cnt
        ((Nat.digits b.base value).map b.digit) buf) := by
  have h8 := hb.eight_le
  induction rounds generalizing value cnt buf with
  | zero =>
    have hnil := eq_nil_of_length_eq_zero (Nat.le_zero.mp hrounds)
    rw [digitLoop, if_pos (Nat.digits_eq_nil_iff_eq_zero.mp hnil), hnil]
    rfl
  | succ rounds ih =>
    rw [digitLoop]
    rcases Nat.eq_zero_or_pos value with rfl | hpos
    · rw [if_neg (lt_irrefl 0), Nat.digits_zero]
      rfl
    · rw [Nat.digits_def' (by omega) hpos, length_cons] at hrounds hlen
      rw [if_pos hpos, Nat.digits_def' (by omega) hpos, map_cons, writeDigits]
      by_cases hsep : group = true ∧ 0 < cnt ∧ cnt % b.group = 0
      · have hsep' : (group && atGroup b.group cnt) = true := by simpa [atGroup] using hsep
        rw [if_pos hsep, if_pos hsep', pushChar_eq _ (by omega)]
        simp only [bind, Except.bind]
        rw [pushChar_eq _ (by rw [length_cons]; omega)]
        exact ih (cnt + 1) (by omega) (by rw [length_cons, length_cons]; omega)
      · have hsep' : ¬ (group && atGroup b.group cnt) = true := by simpa [atGroup] using hsep
        rw [if_neg hsep, if_neg hsep']
        simp only [bind, Except.bind, pure, Except.pure]
        rw [pushChar_eq _ (by omega)]
        exact ih (cnt + 1) (by omega) (by rw [length_cons]; omega)

/-- **The loop over the zeros** of a precision stops one byte before the end of the buffer. -/
theorem zeroLoop_eq (precision : ℤ) (hrounds : min precision.toNat 63 - buf.length < rounds) :
    zeroLoop precision rounds buf =
      .ok (replicate (min precision.toNat 63 - buf.length) 0x30 ++ buf) := by
  induction rounds generalizing buf with
  | zero => omega
  | succ rounds ih =>
    rw [zeroLoop]
    by_cases hmore : buf.length < precision ∧ buf.length < 63
    · have hcnt : min precision.toNat 63 - buf.length =
          min precision.toNat 63 - (0x30 :: buf).length + 1 := by
        rw [length_cons]
        omega
      rw [if_pos hmore, pushChar_eq _ (by omega)]
      simp only [bind, Except.bind]
      rw [ih (by omega), hcnt, replicate_succ', append_assoc]
      rfl
    · have hcnt : min precision.toNat 63 - buf.length = 0 := by omega
      rw [if_neg hmore, hcnt]
      rfl

/-- The number of zeros in front of `len` characters: up to the precision, and at least one for an
octal number with the flag `#`. -/
def leadingZeros (b : IntegerBase) (c : Conversion) (len : ℕ) : ℕ :=
  let zeros := min (if c.precision < 0 then 1 else c.precision).toNat 63 - len
  if c.flags.pound = true ∧ b.base = 8 ∧ zeros = 0 then 1 else zeros

/-- **What is in the buffer** when all digits are accumulated. -/
theorem accumulateDigits_eq (hb : b.Proper) (value : BitVec 64) (c : Conversion) :
    accumulateDigits value b c =
      .ok (replicate
          (leadingZeros b c (b.digitText c.flags.group value.toNat).length) 0x30 ++
        b.digitText c.flags.group value.toNat) := by
  have hdigits := hb.length_digits_le value
  have hloop : digitLoop b c.flags.group 64 value.toNat 0 [] =
      .ok (b.digitText c.flags.group value.toNat) :=
    digitLoop_eq hb _ 0 (by omega) (by rw [length_nil]; omega)
  set own := b.digitText c.flags.group value.toNat
  set precision := if c.precision < 0 then 1 else c.precision with hprecision
  have hzeros : zeroLoop precision 64 own =
      .ok (replicate (min precision.toNat 63 - own.length) 0x30 ++ own) :=
    zeroLoop_eq precision (by omega)
  rw [accumulateDigits, hloop]
  simp only [bind, Except.bind]
  rw [← hprecision, hzeros, leadingZeros]
  simp only [← hprecision]
  have hhead : (replicate (min precision.toNat 63 - own.length) (0x30 : UInt8) ++ own).head? ≠
      some 0x30 ↔ min precision.toNat 63 - own.length = 0 := by
    cases hk : min precision.toNat 63 - own.length with
    | zero =>
      exact iff_of_true (hb.head?_digitText_ne _ _) rfl
    | succ k => exact iff_of_false (fun h => h rfl) (Nat.succ_ne_zero k)
  by_cases hoctal : c.flags.pound = true ∧ b.base = 8 ∧ min precision.toNat 63 - own.length = 0
  · rw [if_pos ⟨hoctal.1, hoctal.2.1, hhead.mpr hoctal.2.2⟩, if_pos hoctal, hoctal.2.2,
      replicate_zero, nil_append, pushChar_eq]
    · rfl
    · exact lt_of_lt_of_le (hb.length_digitText_lt _ value) (by omega)
  · rw [if_neg fun h => hoctal ⟨h.1, h.2.1, hhead.mp h.2.2⟩, if_neg hoctal]
    rfl

/-! ### What is printed -/

/-- **The text of an integer** `n`: padding, a sign, a prefix, and the digits of `n`, with zeros in
front of them and commas between complete groups for the flag `'`. -/
def IntegerText (b : IntegerBase) (c : Conversion) (n : ℕ) (sign x : UInt8) (out : Bytes) :
    Prop :=
  ∃ (left zeros lead right : ℕ) (own : Bytes),
    out = replicate left 0x20 ++ signText sign ++ xText x ++ replicate zeros 0x30 ++
      (replicate lead 0x30 ++ own) ++ replicate right 0x20 ∧
    b.Denotes ((replicate lead 0x30 ++ own).filter (· ≠ 0x2c)) n ∧
    (replicate lead 0x30 ++ own = [] → n = 0 ∧ c.precision = 0) ∧
    (c.flags.group = true → Grouped 0x2c b.group (b.numeral n) own) ∧
    (c.flags.group = false → own = b.numeral n)

theorem formatInteger_eq {value : BitVec 64} (hbuf : accumulateDigits value b c = .ok buf)
    (isSigned negative : Bool) :
    ∃ pad, pad = padCnt c (signChar isSigned negative c.flags) (xChar value b c.flags) buf ∧
      formatInteger value isSigned negative b c =
        .ok (replicate (if c.flags.minus = true ∨ c.flags.zero = true then 0 else pad) 0x20 ++
          signText (signChar isSigned negative c.flags) ++ xText (xChar value b c.flags) ++
          replicate (if c.flags.zero = true then pad else 0) 0x30 ++ buf ++
          replicate (if c.flags.minus = true then pad else 0) 0x20) := by
  refine ⟨_, rfl, ?_⟩
  have hdup : ∀ (p : Prop) [Decidable p] (ch : UInt8) (n : ℕ),
      (if p then outputDup ch n else []) = replicate (if p then n else 0) ch := by
    intro p _ ch n
    split <;> rfl
  have hleft : ∀ (p : Prop) [Decidable p] (ch : UInt8) (n : ℕ),
      (if p then [] else outputDup ch n) = replicate (if p then 0 else n) ch := by
    intro p _ ch n
    split <;> rfl
  rw [formatInteger, hbuf]
  simp only [bind, Except.bind, pure, Except.pure, hdup, hleft]

theorem eq_zero_of_empty (hb : b.Proper) (hown : b.digitText c.flags.group value = [])
    (hlead : leadingZeros b c (b.digitText c.flags.group value).length = 0) :
    value = 0 ∧ c.precision = 0 := by
  constructor
  · have hnumeral := hb.filter_digitText c.flags.group value
    rw [hown, filter_nil, IntegerBase.numeral, eq_comm, reverse_eq_nil_iff,
      map_eq_nil_iff] at hnumeral
    exact Nat.digits_eq_nil_iff_eq_zero.mp hnumeral
  · rw [hown, length_nil, leadingZeros] at hlead
    split_ifs at hlead <;> omega

theorem formatInteger_text (hb : b.Proper) (value : BitVec 64) (isSigned negative : Bool)
    (c : Conversion) :
    ∃ out, formatInteger value isSigned negative b c = .ok out ∧
      IntegerText b c value.toNat (signChar isSigned negative c.flags) (xChar value b c.flags)
        out := by
  have hbuf := accumulateDigits_eq hb value c
  obtain ⟨pad, -, hout⟩ := formatInteger_eq hbuf isSigned negative
  set own := b.digitText c.flags.group value.toNat with hown
  set lead := leadingZeros b c own.length
  refine ⟨_, hout, _, _, lead, _, own, rfl, ?_, fun hnil => ?_, fun hgroup => ?_, fun hgroup => ?_⟩
  · have hfilter : (replicate lead (0x30 : UInt8) ++ own).filter (· ≠ 0x2c) =
        replicate lead 0x30 ++ b.numeral value.toNat := by
      rw [filter_append, hown, hb.filter_digitText, filter_replicate_of_pos (by decide)]
    rw [hfilter]
    exact hb.denotes lead value.toNat
  · obtain ⟨hzero, hempty⟩ := append_eq_nil_iff.mp hnil
    exact eq_zero_of_empty hb hempty ((replicate_eq_nil_iff _).mp hzero)
  · rw [hown, hgroup]
    exact hb.grouped_digitText value.toNat
  · rw [hown, hgroup, IntegerBase.digitText_false]

theorem toNat_absolute (value : BitVec 64) :
    (if value.toInt < 0 then -value else value).toNat = value.toInt.natAbs := by
  rw [apply_ite BitVec.toNat, BitVec.toNat_neg, BitVec.toInt_eq_toNat_cond]
  split_ifs <;> omega

theorem signChar_eq_minus_iff (negative : Bool) (flags : ConversionFlags) :
    signChar true negative flags = 0x2d ↔ negative = true := by
  cases negative <;> cases hplus : flags.plus <;> cases hspace : flags.space <;>
    simp [signChar, hplus, hspace]

/-- **Digits of integers**: `format_integer` stays within its buffer and prints the text of the
value. -/
theorem format_integer_correct (strings : BitVec 32 → CString)
    (printf : Bytes → VaList → Printf Bytes) (b : IntegerBase)
    (hb : b ∈ integerBases) (c : Conversion) :
    (∀ (value : BitVec 64) (isSigned negative : Bool),
      ∃ out, formatInteger value isSigned negative b c = .ok out ∧
        IntegerText b c value.toNat (signChar isSigned negative c.flags) (xChar value b c.flags)
          out) ∧
    ∀ (args more : VaList) (value : BitVec 64), signedArg c.type args = .ok (value, more) →
      ∃ out sign x, convert strings printf 0x64 c args = .ok (out, more) ∧
        IntegerText baseD c value.toInt.natAbs sign x out ∧ (sign = 0x2d ↔ value.toInt < 0) := by
  refine ⟨fun value isSigned negative => formatInteger_text (proper_of_mem hb) ..,
    fun args more value hvalue => ?_⟩
  have hd : baseD ∈ integerBases := mem_cons_self
  obtain ⟨out, hout, htext⟩ := formatInteger_text (proper_of_mem hd)
    (if value.toInt < 0 then -value else value) true (decide (value.toInt < 0)) c
  rw [toNat_absolute] at htext
  refine ⟨out, _, _, ?_, htext, ?_⟩
  · rw [convert, if_pos (.inl rfl), convertSigned, hvalue]
    simp only [bind, Except.bind, pure, Except.pure]
    rw [hout]
  · rw [signChar_eq_minus_iff, decide_eq_true_eq]

/-- The least of the 64-bit integers, in groups. -/
theorem format_integer_correct_smallest :
    baseD ∈ integerBases ∧ ∃ out sign x,
      convert (fun _ => ⟨[], not_mem_nil⟩) (fun _ _ => .ok []) 0x64
        ⟨{ group := true }, 0, -1, .longlong⟩ [0, 0x80000000] = .ok (out, []) ∧
      IntegerText baseD ⟨{ group := true }, 0, -1, .longlong⟩ (2 ^ 63) sign x out ∧
      sign = 0x2d := by
  have hb : baseD ∈ integerBases := mem_cons_self
  obtain ⟨-, hsigned⟩ := format_integer_correct (fun _ => ⟨[], not_mem_nil⟩)
    (fun _ _ => .ok []) baseD hb ⟨{ group := true }, 0, -1, .longlong⟩
  obtain ⟨out, sign, x, hout, htext, hsign⟩ := hsigned [0, 0x80000000] [] (0x8000000000000000) rfl
  exact ⟨hb, out, sign, x, hout, htext, hsign.mpr (by decide)⟩

end

end OsMaterial
