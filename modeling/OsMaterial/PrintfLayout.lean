import OsMaterial.PrintfFormat

/-!
# Fields of Integer Conversions

How `printf` lays out an integer conversion, from its text to the characters that are printed. The
flag `-` overrides the flag `0` as soon as the flags are read; a negative width for `*` stands for
`-` as well, but is read later: the field is padded **on both sides**. The zeros for a precision
stop at the end of the buffer.

* `printf_layout_iff`: a conversion is laid out as it should be **exactly when** it has no flag `0`
  with a negative width, and its precision fits.
-/

namespace OsMaterial

open List

/-! ### Flags -/

inductive Flag where
  | minus
  | plus
  | space
  | pound
  | zero
  | group
  deriving DecidableEq

def Flag.char : Flag → UInt8
  | minus => 0x2d
  | plus => 0x2b
  | space => 0x20
  | pound => 0x23
  | zero => 0x30
  | group => 0x27

def ConversionFlags.add (flags : ConversionFlags) : Flag → ConversionFlags
  | .minus => { flags with minus := true }
  | .plus => { flags with plus := true }
  | .space => { flags with space := true }
  | .pound => { flags with pound := true }
  | .zero => { flags with zero := true }
  | .group => { flags with group := true }

def flagsOf (fs : List Flag) : ConversionFlags where
  minus := decide (.minus ∈ fs)
  plus := decide (.plus ∈ fs)
  space := decide (.space ∈ fs)
  pound := decide (.pound ∈ fs)
  zero := decide (.zero ∈ fs)
  group := decide (.group ∈ fs)

theorem ConversionFlags.set_char (flags : ConversionFlags) (f : Flag) :
    flags.set f.char = some (flags.add f) := by
  cases f <;> rfl

theorem foldl_add (fs : List Flag) : fs.foldl ConversionFlags.add {} = flagsOf fs := by
  induction fs using reverseRecOn with
  | nil => rfl
  | append_singleton fs f ih =>
    rw [foldl_append, foldl_cons, foldl_nil, ih]
    cases f <;> simp [ConversionFlags.add, flagsOf]

variable {ch : UInt8} {n : ℕ} {more : VaList} {out digits : Bytes}

theorem parseFlags_eq (fs : List Flag) (hch : isFlagChar ch = false) (rest : Bytes) :
    parseFlags {} (fs.map Flag.char ++ ch :: rest) = .ok (flagsOf fs, ch :: rest) := by
  have hloop : ∀ (fs : List Flag) (flags : ConversionFlags),
      parseFlags flags (fs.map Flag.char ++ ch :: rest) =
        .ok (fs.foldl ConversionFlags.add flags, ch :: rest) := by
    intro fs
    induction fs with
    | nil =>
      intro flags
      rw [map_nil, nil_append, parseFlags, (flags.set_eq_none_iff ch).mpr hch]
      rfl
    | cons f fs ih =>
      intro flags
      rw [map_cons, cons_append, parseFlags, flags.set_char]
      exact ih (flags.add f)
  rw [hloop, foldl_add]

/-! ### Widths and precisions -/

inductive Field where
  | literal (digits : List (Fin 10))
  | star (w : BitVec 32)

namespace Field

def decimal (digits : List (Fin 10)) (n : ℕ) : ℕ :=
  digits.foldl (fun n (d : Fin 10) => 10 * n + d.val) n

def text : Field → Bytes
  | literal digits => digits.map fun d : Fin 10 => baseD.digit d.val
  | star _ => [0x2a]

def args : Field → VaList
  | literal _ => []
  | star w => [w]

def value : Field → ℤ
  | literal digits => decimal digits 0
  | star w => w.toInt

theorem le_decimal (digits : List (Fin 10)) (n : ℕ) : n ≤ decimal digits n := by
  induction digits generalizing n with
  | nil => exact le_rfl
  | cons d digits ih =>
    have := ih (10 * n + d)
    rw [decimal, foldl_cons, ← decimal]
    omega

theorem neg_le_value (f : Field) : -2 ^ 31 ≤ f.value := by
  cases f with
  | literal digits =>
    rw [value]
    omega
  | star w => exact w.le_toInt

end Field

theorem wrapInt_eq {n : ℤ} (hlo : -2 ^ 31 ≤ n) (hhi : n < 2 ^ 31) : wrapInt n = n := by
  have hw : (wordSize : ℤ) = 4294967296 := rfl
  exact Int.bmod_eq_of_le (by rw [hw]; omega) (by rw [hw]; omega)

theorem digit_facts (d : Fin 10) : isDigitByte (baseD.digit d) = true ∧
    (baseD.digit d).toNat = 0x30 + d ∧ baseD.digit d ≠ 0x2a ∧ baseD.digit d ≠ 0x25 ∧
      (d ≠ 0 → isFlagChar (baseD.digit d) = false) := by
  revert d
  decide

theorem parseDigits_eq (digits : List (Fin 10)) (hch : isDigitByte ch = false) (rest : Bytes)
    (h : Field.decimal digits n < 2 ^ 31) :
    parseDigits n ((digits.map fun d : Fin 10 => baseD.digit d.val) ++ ch :: rest) =
      .ok ((Field.decimal digits n : ℕ), ch :: rest) := by
  induction digits generalizing n with
  | nil =>
    rw [map_nil, nil_append, parseDigits, hch, if_neg Bool.false_ne_true]
    rfl
  | cons d digits ih =>
    obtain ⟨hdigit, hval, -⟩ := digit_facts d
    have hle := Field.le_decimal digits (10 * n + d)
    rw [Field.decimal, foldl_cons, ← Field.decimal] at h
    have hnext : wrapInt (n * 10 + (baseD.digit d).toNat - 0x30) = ((10 * n + d : ℕ) : ℤ) := by
      rw [hval, wrapInt_eq (by omega) (by omega)]
      omega
    rw [map_cons, cons_append, parseDigits, hdigit, if_pos rfl, hnext, ih h]
    rfl

theorem parseField_eq (f : Field) (hf : f.value < 2 ^ 31) (hdigit : isDigitByte ch = false)
    (hstar : ch ≠ 0x2a) (rest : Bytes) (args : VaList) :
    parseField (f.text ++ ch :: rest) (f.args ++ args) = .ok (f.value, ch :: rest, args) := by
  cases f with
  | star w => rfl
  | literal digits =>
    have hlt : Field.decimal digits 0 < 2 ^ 31 := by
      rw [Field.value] at hf
      omega
    have hloop := parseDigits_eq digits hdigit rest hlt
    rw [Nat.cast_zero] at hloop
    cases digits with
    | nil =>
      rw [Field.text, map_nil, nil_append] at *
      rw [parseField, if_neg hstar, hloop]
      rfl
    | cons d digits =>
      rw [map_cons, cons_append] at hloop
      rw [Field.text, map_cons, cons_append, parseField, if_neg (digit_facts d).2.2.1, hloop]
      rfl

def precisionText : Option Field → Bytes
  | none => []
  | some f => 0x2e :: f.text

def precisionArgs : Option Field → VaList
  | none => []
  | some f => f.args

def precisionValue : Option Field → ℤ
  | none => -1
  | some f => if f.value < 0 then -1 else f.value

def precisionGiven : Option Field → Option ℕ
  | none => none
  | some f => if f.value < 0 then none else some f.value.toNat

variable {p : Option Field}

theorem precisionValue_of_none (h : precisionGiven p = none) : precisionValue p = -1 := by
  cases p with
  | none => rfl
  | some f =>
    rw [precisionGiven] at h
    split_ifs at h with hneg
    rw [precisionValue, if_pos hneg]

theorem precisionValue_of_some (h : precisionGiven p = some n) : precisionValue p = n := by
  cases p with
  | none => exact absurd h.symm (Option.some_ne_none n)
  | some f =>
    rw [precisionGiven] at h
    split_ifs at h with hneg
    rw [precisionValue, if_neg hneg]
    have := Option.some.inj h
    omega

theorem precisionValue_neg_iff (p : Option Field) :
    precisionValue p < 0 ↔ precisionGiven p = none := by
  cases h : precisionGiven p with
  | none => exact iff_of_true (by rw [precisionValue_of_none h]; omega) rfl
  | some n => exact iff_of_false (by rw [precisionValue_of_some h]; omega) (Option.some_ne_none n)

theorem parsePrecision_eq (p : Option Field) (hp : ∀ f, p = some f → f.value < 2 ^ 31)
    (hdigit : isDigitByte ch = false) (hstar : ch ≠ 0x2a) (hperiod : ch ≠ 0x2e) (rest : Bytes)
    (args : VaList) :
    parsePrecision (precisionText p ++ ch :: rest) (precisionArgs p ++ args) =
      .ok (precisionValue p, ch :: rest, args) := by
  cases p with
  | none =>
    rw [precisionText, nil_append, parsePrecision, if_neg hperiod]
    rfl
  | some f =>
    rw [precisionText, cons_append, parsePrecision, if_pos rfl, precisionArgs,
      parseField_eq f (hp f rfl) hdigit hstar]
    rfl

/-! ### Integer conversions -/

inductive IntegerConv where
  | d
  | i
  | o
  | u
  | x
  | upperX
  deriving DecidableEq

namespace IntegerConv

def char : IntegerConv → UInt8
  | d => 0x64
  | i => 0x69
  | o => 0x6f
  | u => 0x75
  | x => 0x78
  | upperX => 0x58

def base : IntegerConv → IntegerBase
  | d | i | u => baseD
  | o => baseO
  | x => baseLowerX
  | upperX => baseUpperX

def isSigned : IntegerConv → Bool
  | d | i => true
  | o | u | x | upperX => false

def fetch (conv : IntegerConv) (type : ArgType) (args : VaList) : Printf (BitVec 64 × VaList) :=
  if conv.isSigned then signedArg type args else unsignedArg type args

def negative (conv : IntegerConv) (value : BitVec 64) : Bool :=
  conv.isSigned && decide (value.toInt < 0)

def magnitude (conv : IntegerConv) (value : BitVec 64) : BitVec 64 :=
  if conv.negative value then -value else value

theorem base_mem (conv : IntegerConv) : conv.base ∈ integerBases := by
  cases conv <;> simp [base, integerBases]

end IntegerConv

def ArgType.text : ArgType → Bytes
  | char => [0x68, 0x68]
  | short => [0x68]
  | int => []
  | intmax => [0x6a]
  | long => [0x6c]
  | longlong => [0x6c, 0x6c]
  | ptrdifft => [0x74]
  | sizet => [0x7a]

/-- **An integer conversion.** A width that is written out does not start with a zero, which would
be a flag, and both numbers are of type `int`. -/
structure IntegerSpec where
  flags : List Flag
  width : Field
  precision : Option Field
  type : ArgType
  conv : IntegerConv
  width_lt : width.value < 2 ^ 31
  width_head : ∀ digits, width = .literal digits → digits.head? ≠ some 0
  precision_lt : ∀ f, precision = some f → f.value < 2 ^ 31

namespace IntegerSpec

def options (spec : IntegerSpec) : Bytes :=
  spec.flags.map Flag.char ++ (spec.width.text ++ (precisionText spec.precision ++ spec.type.text))

def text (spec : IntegerSpec) : Bytes := 0x25 :: (spec.options ++ [spec.conv.char])

def starArgs (spec : IntegerSpec) : VaList :=
  spec.width.args ++ precisionArgs spec.precision

def conversion (spec : IntegerSpec) : Conversion :=
  let negated := negateWidth spec.width.value (flagsOf spec.flags).settle
  { flags := { negated.2 with
      zero := negated.2.zero && decide (precisionValue spec.precision < 0) }
    width := negated.1
    precision := precisionValue spec.precision
    type := spec.type }

end IntegerSpec

theorem type_start (type : ArgType) (conv : IntegerConv) (rest : Bytes) :
    ∃ ch l, type.text ++ conv.char :: rest = ch :: l ∧ isFlagChar ch = false ∧
      isDigitByte ch = false ∧ ch ≠ 0x2a ∧ ch ≠ 0x2e ∧ ch ≠ 0x25 := by
  cases type with
  | int => cases conv <;> exact ⟨_, _, rfl, rfl, rfl, by decide, by decide, by decide⟩
  | char | short | intmax | long | longlong | ptrdifft | sizet =>
    exact ⟨_, _, rfl, rfl, rfl, by decide, by decide, by decide⟩

theorem parseType_eq (type : ArgType) (conv : IntegerConv) (rest : Bytes) :
    parseType (type.text ++ conv.char :: rest) = .ok (type, conv.char :: rest) := by
  cases type <;> cases conv <;> rfl

theorem IntegerSpec.width_start (spec : IntegerSpec) (hflag : isFlagChar ch = false)
    (hpercent : ch ≠ 0x25) (rest : Bytes) :
    ∃ ch' l, spec.width.text ++ ch :: rest = ch' :: l ∧ isFlagChar ch' = false ∧ ch' ≠ 0x25 := by
  cases hw : spec.width with
  | star w => exact ⟨0x2a, _, rfl, rfl, by decide⟩
  | literal digits =>
    cases digits with
    | nil => exact ⟨ch, rest, rfl, hflag, hpercent⟩
    | cons d digits =>
      have hd : d ≠ 0 := fun h => spec.width_head _ hw (congrArg some h)
      obtain ⟨-, -, -, hne, hflag⟩ := digit_facts d
      exact ⟨_, _, rfl, hflag hd, hne⟩

theorem precision_start (p : Option Field) (type : ArgType) (conv : IntegerConv) (rest : Bytes) :
    ∃ ch l, precisionText p ++ (type.text ++ conv.char :: rest) = ch :: l ∧
      isFlagChar ch = false ∧ isDigitByte ch = false ∧ ch ≠ 0x2a ∧ ch ≠ 0x25 := by
  cases p with
  | none =>
    obtain ⟨ch, l, hl, hflag, hdigit, hstar, -, hpercent⟩ := type_start type conv rest
    exact ⟨ch, l, hl, hflag, hdigit, hstar, hpercent⟩
  | some f => exact ⟨0x2e, _, rfl, rfl, rfl, by decide, by decide⟩

/-- **The conversion that is read** from its text. -/
theorem parseConversion_eq (spec : IntegerSpec) (rest : Bytes) (args : VaList) :
    parseConversion (spec.options ++ spec.conv.char :: rest) (spec.starArgs ++ args) =
      .ok (spec.conversion, spec.conv.char :: rest, args) := by
  obtain ⟨ch₁, l₁, h₁, hflag₁, hdigit₁, hstar₁, hpercent₁⟩ :=
    precision_start spec.precision spec.type spec.conv rest
  obtain ⟨ch₂, l₂, h₂, -, hdigit₂, hstar₂, hperiod₂, -⟩ := type_start spec.type spec.conv rest
  obtain ⟨ch₀, l₀, h₀, hflag₀, -⟩ := spec.width_start hflag₁ hpercent₁ l₁
  have hflags := parseFlags_eq spec.flags hflag₀ l₀
  rw [← h₀, ← h₁] at hflags
  have hwidth := parseField_eq spec.width spec.width_lt hdigit₁ hstar₁ l₁
    (precisionArgs spec.precision ++ args)
  rw [← h₁] at hwidth
  have hprecision := parsePrecision_eq spec.precision spec.precision_lt hdigit₂ hstar₂ hperiod₂ l₂
    args
  rw [← h₂] at hprecision
  have htype := parseType_eq spec.type spec.conv rest
  rw [parseConversion, IntegerSpec.options, append_assoc, append_assoc,
    append_assoc, hflags, IntegerSpec.starArgs, append_assoc]
  simp only [bind, Except.bind]
  rw [hwidth]
  simp only
  rw [hprecision]
  simp only
  rw [htype]
  rfl

/-! ### From the text to the output -/

variable {args : VaList}

theorem IntegerConv.convert_eq {conv : IntegerConv} {c : Conversion} {value : BitVec 64}
    (strings : BitVec 32 → CString) (printf : Bytes → VaList → Printf Bytes)
    (hvalue : conv.fetch c.type args = .ok (value, more))
    (hout : formatInteger (conv.magnitude value) conv.isSigned (conv.negative value) conv.base c =
      .ok out) : convert strings printf conv.char c args = .ok (out, more) := by
  have hsigned (hs : signedArg c.type args = .ok (value, more))
      (ho : formatInteger (if value.toInt < 0 then -value else value) true
        (decide (value.toInt < 0)) baseD c = .ok out) : convertSigned c args = .ok (out, more) := by
    rw [convertSigned, hs]
    simp only [bind, Except.bind, pure, Except.pure]
    rw [ho]
  have hunsigned (b : IntegerBase) (hs : unsignedArg c.type args = .ok (value, more))
      (ho : formatInteger value false false b c = .ok out) :
      convertUnsigned b c args = .ok (out, more) := by
    rw [convertUnsigned, hs]
    simp only [bind, Except.bind, pure, Except.pure]
    rw [ho]
  cases conv with
  | d | i =>
    simp only [magnitude, negative, isSigned, Bool.true_and, decide_eq_true_eq] at hout
    exact hsigned hvalue hout
  | o | u | x | upperX => exact hunsigned _ hvalue hout

theorem IntegerSpec.start_ne_percent (spec : IntegerSpec) (rest : Bytes) :
    ∃ ch l, spec.options ++ spec.conv.char :: rest = ch :: l ∧ ch ≠ 0x25 := by
  rw [options, append_assoc, append_assoc, append_assoc]
  obtain ⟨ch₁, l₁, h₁, hflag₁, -, -, hpercent₁⟩ :=
    precision_start spec.precision spec.type spec.conv rest
  obtain ⟨ch₀, l₀, h₀, -, hpercent₀⟩ := spec.width_start hflag₁ hpercent₁ l₁
  rw [h₁, h₀]
  cases spec.flags with
  | nil => exact ⟨ch₀, l₀, rfl, hpercent₀⟩
  | cons f fs => exact ⟨f.char, _, rfl, by cases f <;> decide⟩

theorem vprintf_spec {spec : IntegerSpec} {value : BitVec 64}
    (strings : BitVec 32 → CString) (depth : ℕ)
    (hvalue : spec.conv.fetch spec.type args = .ok (value, more))
    (hout : formatInteger (spec.conv.magnitude value) spec.conv.isSigned (spec.conv.negative value)
      spec.conv.base spec.conversion = .ok out) :
    vprintf strings (depth + 1) (spec.text ++ [0]) (spec.starArgs ++ args) = .ok out := by
  obtain ⟨ch, l, hl, hch⟩ := spec.start_ne_percent [0]
  have hparse := parseConversion_eq spec [0] args
  have hconvert := IntegerConv.convert_eq (c := spec.conversion) strings (vprintf strings depth)
    hvalue hout
  have htext : spec.text ++ [0] = 0x25 :: ch :: l := by
    rw [← hl, IntegerSpec.text, cons_append, append_assoc, singleton_append]
  rw [vprintf, htext, vprintfLoop, vprintfRound, if_neg (by decide), if_neg (by decide),
    vprintfPercent, if_neg hch, vprintfConversion, ← hl, hparse]
  simp only [bind, Except.bind]
  rw [hconvert]
  -- the null ends the second round
  simp only [length_cons, vprintfLoop, vprintfRound, if_true, pure, Except.pure, append_nil]

/-! ### Layout -/

def integerBody (sign x : UInt8) (digits : Bytes) : Bytes :=
  signText sign ++ xText x ++ digits

def fieldText (flags : ConversionFlags) (pad : ℕ) (sign x : UInt8) (digits : Bytes) :
    Bytes :=
  replicate (if flags.minus = true ∨ flags.zero = true then 0 else pad) 0x20 ++
    signText sign ++ xText x ++ replicate (if flags.zero = true then pad else 0) 0x30 ++
    digits ++ replicate (if flags.minus = true then pad else 0) 0x20

theorem length_fieldText (flags : ConversionFlags) (pad : ℕ) (sign x : UInt8) (digits : Bytes) :
    (fieldText flags pad sign x digits).length = (integerBody sign x digits).length +
      if flags.minus = true ∧ flags.zero = true then 2 * pad else pad := by
  rw [fieldText, integerBody]
  simp only [append_assoc, length_append, length_replicate]
  cases flags.minus <;> cases flags.zero <;> simp <;> omega

theorem toNat_wrapInt_negateWidth {w : ℤ} (hlo : -2 ^ 31 ≤ w) (hhi : w < 2 ^ 31) {len : ℕ}
    (hlen : len ≤ 67) (flags : ConversionFlags) :
    (wrapInt ((negateWidth w flags).1 - len)).toNat =
      if w = -2 ^ 31 ∧ len = 0 then 0 else w.natAbs - len := by
  by_cases hmin : w = -2 ^ 31
  · subst hmin
    -- the width is negative still, and the difference is out of range but for an empty body
    have hwidth : (negateWidth (-2 ^ 31) flags).1 = -2 ^ 31 := rfl
    rw [hwidth]
    rcases Nat.eq_zero_or_pos len with rfl | hpos
    · rfl
    · have hwrap : wrapInt (-2 ^ 31 - len) = 2 ^ 31 - len := by
        have hshift : wrapInt (-2 ^ 31 - len) = wrapInt (-2 ^ 31 - len + wordSize) :=
          (Int.add_bmod_right ..).symm
        have hw : (wordSize : ℤ) = 2 ^ 32 := rfl
        rw [hshift, hw, wrapInt_eq (by omega) (by omega)]
        omega
      rw [hwrap, if_neg (by omega)]
      omega
  · rw [if_neg fun h => hmin h.1, negateWidth]
    split_ifs with hneg
    · rw [wrapInt_eq (n := -w) (by omega) (by omega), wrapInt_eq (by omega) (by omega)]
      omega
    · rw [wrapInt_eq (by omega) (by omega)]
      omega

namespace IntegerSpec

variable (spec : IntegerSpec)

/-- **The layout of a conversion**: the body is padded with blanks on the right for `-` or
a negative width, otherwise with zeros behind the prefix for `0` without a precision, and otherwise
with blanks on the left. -/
def layout (sign x : UInt8) (digits : Bytes) : Bytes :=
  let pad := spec.width.value.natAbs - (integerBody sign x digits).length
  if .minus ∈ spec.flags ∨ spec.width.value < 0 then
    integerBody sign x digits ++ replicate pad 0x20
  else if .zero ∈ spec.flags ∧ precisionGiven spec.precision = none then
    signText sign ++ xText x ++ replicate pad 0x30 ++ digits
  else
    replicate pad 0x20 ++ integerBody sign x digits

structure LaidOut (sign x : UInt8) (digits out : Bytes) : Prop where
  out_eq : out = spec.layout sign x digits
  length_eq : out.length = max spec.width.value.natAbs (integerBody sign x digits).length
  precision_le : ∀ p, precisionGiven spec.precision = some p → p ≤ (digits.filter (· ≠ 0x2c)).length

structure Regular (n : ℕ) (body : Bytes) : Prop where
  padded_once : .zero ∈ spec.flags → .minus ∉ spec.flags → spec.width.value < 0 →
    precisionGiven spec.precision = none → spec.width.value.natAbs ≤ body.length
  width_ne : spec.width.value = -2 ^ 31 → body ≠ []
  precision_fits : ∀ p, precisionGiven spec.precision = some p →
    p ≤ (spec.conv.base.numeral n).length ∨
    p ≤ 63 ∧ (.group ∈ spec.flags → (spec.conv.base.numeral n).length ≤ spec.conv.base.group) ∨
    .pound ∈ spec.flags ∧ spec.conv.base.base = 8 ∧ p ≤ (spec.conv.base.numeral n).length + 1

theorem length_layout (sign x : UInt8) (digits : Bytes) :
    (spec.layout sign x digits).length =
      max spec.width.value.natAbs (integerBody sign x digits).length := by
  rw [layout]
  split_ifs <;> simp only [integerBody, length_append, length_replicate] <;> omega

theorem minus_iff : spec.conversion.flags.minus = true ↔
    .minus ∈ spec.flags ∨ spec.width.value < 0 := by
  rw [conversion, negateWidth]
  split_ifs with hneg <;> simp [hneg, flagsOf, ConversionFlags.settle]

theorem zero_iff : spec.conversion.flags.zero = true ↔
    .zero ∈ spec.flags ∧ .minus ∉ spec.flags ∧ precisionGiven spec.precision = none := by
  rw [conversion, negateWidth]
  split_ifs <;> simp [flagsOf, ConversionFlags.settle, precisionValue_neg_iff, and_assoc]

theorem pound_iff : spec.conversion.flags.pound = true ↔ .pound ∈ spec.flags := by
  rw [conversion, negateWidth]
  split_ifs <;> simp [flagsOf, ConversionFlags.settle]

theorem group_iff : spec.conversion.flags.group = true ↔ .group ∈ spec.flags := by
  rw [conversion, negateWidth]
  split_ifs <;> simp [flagsOf, ConversionFlags.settle]

theorem padCnt_eq (sign x : UInt8) (hlen : digits.length ≤ 64) :
    padCnt spec.conversion sign x digits =
      if spec.width.value = -2 ^ 31 ∧ (integerBody sign x digits).length = 0 then 0
      else spec.width.value.natAbs - (integerBody sign x digits).length := by
  have hlength : ((integerBody sign x digits).length : ℤ) =
      digits.length + (if x ≠ 0 then 2 else 0) + (if sign ≠ 0 then 1 else 0) := by
    rw [integerBody, signText, xText]
    split_ifs <;> simp <;> omega
  have hle : (integerBody sign x digits).length ≤ 67 := by split_ifs at hlength <;> omega
  have hpad : padCnt spec.conversion sign x digits =
      (wrapInt (spec.conversion.width - (integerBody sign x digits).length)).toNat := by
    rw [padCnt, hlength]
    congr 2
    omega
  rw [hpad]
  exact toNat_wrapInt_negateWidth spec.width.neg_le_value spec.width_lt hle _

theorem body_ne_nil (sign x : UInt8) {value : BitVec 64}
    (hdigits : accumulateDigits value spec.conv.base spec.conversion = .ok digits)
    (hprecision : precisionGiven spec.precision = none) : integerBody sign x digits ≠ [] := by
  have hb := proper_of_mem spec.conv.base_mem
  rw [accumulateDigits_eq hb] at hdigits
  intro hnil
  obtain ⟨hlead, hown⟩ := append_eq_nil_iff.mp
    ((Except.ok.inj hdigits).trans (append_eq_nil_iff.mp hnil).2)
  have hzero := (eq_zero_of_empty hb hown ((replicate_eq_nil_iff _).mp hlead)).2
  have hnone : spec.conversion.precision = -1 := precisionValue_of_none hprecision
  omega

variable {spec} {value : BitVec 64} {digits : Bytes}

theorem length_le_of_accumulate
    (hdigits : accumulateDigits value spec.conv.base spec.conversion = .ok digits) :
    digits.length ≤ 64 := by
  have hb := proper_of_mem spec.conv.base_mem
  have hlt := hb.length_digitText_lt spec.conversion.flags.group value
  rw [accumulateDigits_eq hb] at hdigits
  rw [← Except.ok.inj hdigits, length_append, length_replicate, leadingZeros]
  split_ifs <;> omega

theorem precision_le_iff
    (hdigits : accumulateDigits value spec.conv.base spec.conversion = .ok digits) {p : ℕ}
    (hp : precisionGiven spec.precision = some p) :
    p ≤ (digits.filter (· ≠ 0x2c)).length ↔
      p ≤ (spec.conv.base.numeral value.toNat).length ∨
      p ≤ 63 ∧ (.group ∈ spec.flags →
        (spec.conv.base.numeral value.toNat).length ≤ spec.conv.base.group) ∨
      .pound ∈ spec.flags ∧ spec.conv.base.base = 8 ∧
        p ≤ (spec.conv.base.numeral value.toNat).length + 1 := by
  have hb := proper_of_mem spec.conv.base_mem
  obtain ⟨hle, heq⟩ := hb.length_digitText spec.conversion.flags.group value.toNat
  have hprecision : spec.conversion.precision = p := precisionValue_of_some hp
  rw [accumulateDigits_eq hb] at hdigits
  rw [← Except.ok.inj hdigits, filter_append, hb.filter_digitText,
    filter_replicate_of_pos (by decide), length_append, length_replicate,
    ← spec.group_iff, ← heq, ← spec.pound_iff, leadingZeros, hprecision]
  by_cases hoctal : spec.conversion.flags.pound = true ∧ spec.conv.base.base = 8
  · simp only [hoctal.1, hoctal.2, true_and]
    split_ifs <;> omega
  · rw [if_neg fun h => hoctal ⟨h.1, h.2.1⟩, ← and_assoc (a := _ = true)]
    simp only [hoctal, false_and, or_false]
    omega

theorem fieldText_eq_layout (sign x : UInt8)
    (honce : .zero ∈ spec.flags → .minus ∉ spec.flags → spec.width.value < 0 →
      precisionGiven spec.precision = none →
      spec.width.value.natAbs ≤ (integerBody sign x digits).length) :
    fieldText spec.conversion.flags
        (spec.width.value.natAbs - (integerBody sign x digits).length) sign x digits =
      spec.layout sign x digits := by
  rw [fieldText, layout]
  by_cases hleft : .minus ∈ spec.flags ∨ spec.width.value < 0
  · have hminus := spec.minus_iff.mpr hleft
    have hzeros : (if spec.conversion.flags.zero = true then
        spec.width.value.natAbs - (integerBody sign x digits).length else 0) = 0 := by
      split_ifs with hzero
      · obtain ⟨hmem, hnot, hnone⟩ := spec.zero_iff.mp hzero
        have := honce hmem hnot (hleft.resolve_left hnot) hnone
        omega
      · rfl
    rw [if_pos (.inl hminus), hzeros, if_pos hminus, if_pos hleft, replicate_zero,
      nil_append, replicate_zero, append_nil, integerBody]
  · have hminus : ¬spec.conversion.flags.minus = true := fun h => hleft (spec.minus_iff.mp h)
    rw [if_neg hminus, if_neg hleft, replicate_zero, append_nil]
    by_cases hzero : spec.conversion.flags.zero = true
    · obtain ⟨hmem, -, hnone⟩ := spec.zero_iff.mp hzero
      rw [if_pos (.inr hzero), if_pos hzero, if_pos ⟨hmem, hnone⟩, replicate_zero, nil_append]
    · have hnot : ¬(.zero ∈ spec.flags ∧ precisionGiven spec.precision = none) := fun h =>
        hzero (spec.zero_iff.mpr ⟨h.1, fun hmem => hleft (.inl hmem), h.2⟩)
      rw [if_neg (not_or.mpr ⟨hminus, hzero⟩), if_neg hzero, if_neg hnot, replicate_zero,
        append_nil, integerBody, append_assoc, append_assoc, append_assoc]

theorem laidOut_iff (sign x : UInt8)
    (hdigits : accumulateDigits value spec.conv.base spec.conversion = .ok digits) :
    spec.LaidOut sign x digits (fieldText spec.conversion.flags
        (padCnt spec.conversion sign x digits) sign x digits) ↔
      spec.Regular value.toNat (integerBody sign x digits) := by
  have hpad := spec.padCnt_eq sign x (length_le_of_accumulate hdigits)
  have hlength := length_fieldText spec.conversion.flags
    (padCnt spec.conversion sign x digits) sign x digits
  constructor
  · intro h
    have hmax := h.length_eq
    have hwidth : spec.width.value = -2 ^ 31 → integerBody sign x digits ≠ [] := by
      intro hmin hnil
      rw [hnil, length_nil, if_pos ⟨hmin, rfl⟩] at hpad
      rw [hlength, hpad, hnil, length_nil, hmin] at hmax
      split_ifs at hmax <;> omega
    refine ⟨fun hzero hminus hneg hnone => ?_, hwidth, fun p hp => ?_⟩
    · have hboth : spec.conversion.flags.minus = true ∧ spec.conversion.flags.zero = true :=
        ⟨spec.minus_iff.mpr (.inr hneg), spec.zero_iff.mpr ⟨hzero, hminus, hnone⟩⟩
      have hbody := length_pos_iff.mpr (spec.body_ne_nil sign x hdigits hnone)
      rw [if_neg (by omega)] at hpad
      rw [if_pos hboth] at hlength
      omega
    · exact (precision_le_iff hdigits hp).mp (h.precision_le p hp)
  · intro h
    have hpad' : padCnt spec.conversion sign x digits =
        spec.width.value.natAbs - (integerBody sign x digits).length := by
      rw [hpad, if_neg fun hmin => h.width_ne hmin.1 (length_eq_zero_iff.mp hmin.2)]
    have hout := hpad' ▸ fieldText_eq_layout sign x h.padded_once
    exact ⟨hout, by rw [hout, spec.length_layout],
      fun p hp => (precision_le_iff hdigits hp).mpr (h.precision_fits p hp)⟩

end IntegerSpec

/-- **Fields of integer conversions**: the field is laid out as it should be exactly when the
conversion is regular. -/
theorem printf_layout_iff (strings : BitVec 32 → CString) (depth : ℕ) (spec : IntegerSpec)
    (args more : VaList) (value : BitVec 64)
    (hvalue : spec.conv.fetch spec.type args = .ok (value, more)) :
    ∃ sign x digits out,
      sign = signChar spec.conv.isSigned (spec.conv.negative value) spec.conversion.flags ∧
      x = xChar (spec.conv.magnitude value) spec.conv.base spec.conversion.flags ∧
      accumulateDigits (spec.conv.magnitude value) spec.conv.base spec.conversion = .ok digits ∧
      vprintf strings (depth + 1) (spec.text ++ [0]) (spec.starArgs ++ args) = .ok out ∧
      (spec.LaidOut sign x digits out ↔
        spec.Regular (spec.conv.magnitude value).toNat (integerBody sign x digits)) := by
  have hdigits := accumulateDigits_eq (proper_of_mem spec.conv.base_mem)
    (spec.conv.magnitude value) spec.conversion
  obtain ⟨pad, rfl, hout⟩ := formatInteger_eq hdigits spec.conv.isSigned (spec.conv.negative value)
  exact ⟨_, _, _, _, rfl, rfl, hdigits, vprintf_spec strings depth hvalue hout,
    IntegerSpec.laidOut_iff _ _ hdigits⟩

def zeroStar (w : BitVec 32) : IntegerSpec where
  flags := [.zero]
  width := .star w
  precision := none
  type := .int
  conv := .d
  width_lt := w.toInt_lt
  width_head := fun _ h => Field.noConfusion h
  precision_lt := fun _ h => (Option.some_ne_none _ h.symm).elim

/-- The format `%0*d` with the width five. -/
theorem printf_layout_zeros :
    (zeroStar 5).conv.fetch (zeroStar 5).type [-1] = .ok (-1, []) ∧
    ∃ sign x digits out,
      vprintf (fun _ => ⟨[], not_mem_nil⟩) 1 ((zeroStar 5).text ++ [0]) [5, -1] = .ok out ∧
      (zeroStar 5).LaidOut sign x digits out := by
  obtain ⟨sign, x, digits, out, -, -, -, hout, hiff⟩ := printf_layout_iff
    (fun _ => ⟨[], not_mem_nil⟩) 0 (zeroStar 5) [-1] [] (-1) rfl
  have hwidth : (zeroStar 5).width.value = 5 := rfl
  refine ⟨rfl, sign, x, digits, out, hout, hiff.mpr ⟨fun _ _ hneg => ?_, fun hmin => ?_, ?_⟩⟩
  · omega
  · omega
  · exact fun p hp => (Option.some_ne_none p hp.symm).elim

/-- The value `1` with the width `-5` is printed as `00001`, with four blanks behind it. -/
theorem printf_pads_twice :
    accumulateDigits 1 baseD (zeroStar (-5)).conversion = .ok [0x31] ∧
    vprintf (fun _ => ⟨[], not_mem_nil⟩) 1 ((zeroStar (-5)).text ++ [0]) [-5, 1] =
      .ok [0x30, 0x30, 0x30, 0x30, 0x31, 0x20, 0x20, 0x20, 0x20] ∧
    ¬(zeroStar (-5)).LaidOut 0 0 [0x31] [0x30, 0x30, 0x30, 0x30, 0x31, 0x20, 0x20, 0x20, 0x20] := by
  refine ⟨by decide +kernel, by decide +kernel, fun h => ?_⟩
  exact absurd h.length_eq (by decide +kernel)

end OsMaterial
