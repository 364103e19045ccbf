import OsMaterial.PrintfInteger

/-!
# Reading a Format

Where `__vprintf` and `parse_conversion` of `lib/stdio.c` read the format. If `parse_conversion`
stops at the null, that is taken for the character of the conversion: `__vprintf` prints a message
about it, and then **steps over it**.

* `vprintf_inside_iff`: a format is read up to its null, and not farther, **exactly when** each of
  its conversions is complete.
-/

namespace OsMaterial

open List

variable {t : Bytes} {b : IntegerBase}

/-! ### Runs that lack no argument -/

def EndsWith {α : Type} (x : Printf α) (P : α → Prop) : Prop :=
  x = .error .noArgument ∨ ∃ r, x = .ok r ∧ P r

section

variable {α β : Type} {P : α → Prop} {Q : β → Prop}

theorem endsWith_ok {r : α} (h : P r) : EndsWith (.ok r) P :=
  .inr ⟨r, rfl, h⟩

theorem EndsWith.bind {x : Printf α} {f : α → Printf β} (h : EndsWith x P)
    (hf : ∀ r, P r → EndsWith (f r) Q) : EndsWith (x >>= f) Q := by
  rcases h with rfl | ⟨r, rfl, hP⟩
  · exact .inl rfl
  · exact hf r hP

theorem vaArg_ends (args : VaList) : EndsWith (vaArg args) fun _ => True := by
  cases args with
  | nil => exact .inl rfl
  | cons w args => exact endsWith_ok trivial

theorem vaArg64_ends (args : VaList) : EndsWith (vaArg64 args) fun _ => True := by
  rcases args with - | ⟨lo, - | ⟨hi, args⟩⟩
  · exact .inl rfl
  · exact .inl rfl
  · exact endsWith_ok trivial

end

/-! ### The text of a conversion -/

def isFlagChar (ch : UInt8) : Bool := ch ∈ [0x2d, 0x2b, 0x20, 0x23, 0x30, 0x27]

def dropField : Bytes → Bytes
  | [] => []
  | ch :: t => if ch = 0x2a then t else (ch :: t).dropWhile isDigitByte

def dropPrecision : Bytes → Bytes
  | [] => []
  | ch :: t => if ch = 0x2e then dropField t else ch :: t

def dropChar (ch : UInt8) : Bytes → Bytes
  | [] => []
  | ch' :: t => if ch' = ch then t else ch' :: t

def dropType : Bytes → Bytes
  | [] => []
  | ch :: t =>
    if ch = 0x68 then dropChar 0x68 t
    else if ch = 0x6a then t
    else if ch = 0x6c then dropChar 0x6c t
    else if ch = 0x74 then t
    else if ch = 0x7a then t
    else ch :: t

/-- **What follows the flags, the width, the precision, and the type** of a conversion: the
character of the conversion, and the rest of the format. -/
def conversionRest (t : Bytes) : Bytes :=
  dropType (dropPrecision (dropField (t.dropWhile isFlagChar)))

/-- **A format with complete conversions**: behind each `%` there is another one, or a conversion
with its character. -/
inductive CompleteFormat : Bytes → Prop
  | nil : CompleteFormat []
  | char {ch : UInt8} {t : Bytes} (ne : ch ≠ 0x25) (rest : CompleteFormat t) :
      CompleteFormat (ch :: t)
  | percent {t : Bytes} (rest : CompleteFormat t) : CompleteFormat (0x25 :: 0x25 :: t)
  | conversion {ch : UInt8} {t t' : Bytes} (ne : t.head? ≠ some 0x25)
      (spec : conversionRest t = ch :: t') (rest : CompleteFormat t') : CompleteFormat (0x25 :: t)

theorem dropField_suffix (t : Bytes) : dropField t <:+ t := by
  cases t with
  | nil => exact suffix_rfl
  | cons ch t =>
    rw [dropField]
    split
    · exact suffix_cons ch t
    · exact dropWhile_suffix _

theorem dropPrecision_suffix (t : Bytes) : dropPrecision t <:+ t := by
  cases t with
  | nil => exact suffix_rfl
  | cons ch t =>
    rw [dropPrecision]
    split
    · exact (dropField_suffix t).trans (suffix_cons ch t)
    · exact suffix_rfl

theorem dropChar_suffix (ch : UInt8) (t : Bytes) : dropChar ch t <:+ t := by
  cases t with
  | nil => exact suffix_rfl
  | cons ch' t =>
    rw [dropChar]
    split
    · exact suffix_cons ch' t
    · exact suffix_rfl

theorem dropType_suffix (t : Bytes) : dropType t <:+ t := by
  cases t with
  | nil => exact suffix_rfl
  | cons ch t =>
    have hcons := suffix_cons ch t
    rw [dropType]
    split_ifs
    · exact (dropChar_suffix _ t).trans hcons
    · exact hcons
    · exact (dropChar_suffix _ t).trans hcons
    · exact hcons
    · exact hcons
    · exact suffix_rfl

theorem conversionRest_suffix (t : Bytes) : conversionRest t <:+ t :=
  (dropType_suffix _).trans ((dropPrecision_suffix _).trans
    ((dropField_suffix _).trans (dropWhile_suffix _)))

/-! ### Parsing -/

theorem ConversionFlags.set_eq_none_iff (flags : ConversionFlags) (ch : UInt8) :
    flags.set ch = none ↔ isFlagChar ch = false := by
  rw [ConversionFlags.set, isFlagChar]
  split_ifs <;> simp_all

theorem parseFlags_ends (flags : ConversionFlags) (t : Bytes) :
    EndsWith (parseFlags flags (t ++ [0])) fun r => r.2 = t.dropWhile isFlagChar ++ [0] := by
  induction t generalizing flags with
  | nil => exact endsWith_ok rfl
  | cons ch t ih =>
    rw [cons_append, parseFlags]
    cases hset : flags.set ch with
    | none =>
      have hch := (flags.set_eq_none_iff ch).mp hset
      refine endsWith_ok ?_
      rw [dropWhile_cons_of_neg (by rw [hch]; exact Bool.false_ne_true)]
      rfl
    | some flags' =>
      have hch : isFlagChar ch = true := by
        by_contra hnot
        rw [(flags.set_eq_none_iff ch).mpr (by simpa using hnot)] at hset
        cases hset
      rw [dropWhile_cons_of_pos hch]
      exact ih flags'

theorem parseDigits_ends (n : ℤ) (t : Bytes) :
    EndsWith (parseDigits n (t ++ [0])) fun r => r.2 = t.dropWhile isDigitByte ++ [0] := by
  induction t generalizing n with
  | nil => exact endsWith_ok rfl
  | cons ch t ih =>
    rw [cons_append, parseDigits]
    cases hch : isDigitByte ch with
    | true =>
      rw [if_pos rfl, dropWhile_cons_of_pos hch]
      exact ih _
    | false =>
      rw [if_neg Bool.false_ne_true, dropWhile_cons_of_neg (by rw [hch]; exact Bool.false_ne_true)]
      exact endsWith_ok rfl

theorem parseField_ends (t : Bytes) (args : VaList) :
    EndsWith (parseField (t ++ [0]) args) fun r => r.2.1 = dropField t ++ [0] := by
  cases t with
  | nil => exact endsWith_ok rfl
  | cons ch t =>
    rw [cons_append, parseField, dropField]
    split
    · exact (vaArg_ends args).bind fun r _ => endsWith_ok rfl
    · exact (parseDigits_ends 0 (ch :: t)).bind fun r hr => endsWith_ok hr

theorem parsePrecision_ends (t : Bytes) (args : VaList) :
    EndsWith (parsePrecision (t ++ [0]) args) fun r => r.2.1 = dropPrecision t ++ [0] := by
  cases t with
  | nil => exact endsWith_ok rfl
  | cons ch t =>
    rw [cons_append, parsePrecision, dropPrecision]
    split
    · exact (parseField_ends t args).bind fun r hr => endsWith_ok hr
    · exact endsWith_ok rfl

theorem parseDouble_ends (ch : UInt8) (one two : ArgType) (t : Bytes) (h0 : ch ≠ 0) :
    EndsWith (parseDouble ch one two (t ++ [0])) fun r => r.2 = dropChar ch t ++ [0] := by
  cases t with
  | nil =>
    rw [nil_append, parseDouble, if_neg h0.symm]
    exact endsWith_ok rfl
  | cons ch' t =>
    rw [cons_append, parseDouble, dropChar]
    split
    · exact endsWith_ok rfl
    · exact endsWith_ok rfl

theorem parseType_ends (t : Bytes) :
    EndsWith (parseType (t ++ [0])) fun r => r.2 = dropType t ++ [0] := by
  cases t with
  | nil => exact endsWith_ok rfl
  | cons ch t =>
    rw [cons_append, parseType, dropType]
    split_ifs
    · exact parseDouble_ends _ _ _ t (by decide)
    · exact endsWith_ok rfl
    · exact parseDouble_ends _ _ _ t (by decide)
    · exact endsWith_ok rfl
    · exact endsWith_ok rfl
    · exact endsWith_ok rfl

/-- **`parse_conversion`** stops behind the type, at the null at the latest. -/
theorem parseConversion_ends (t : Bytes) (args : VaList) :
    EndsWith (parseConversion (t ++ [0]) args) fun r => r.2.1 = conversionRest t ++ [0] := by
  refine (parseFlags_ends {} t).bind ?_
  rintro ⟨flags, format⟩ hformat
  obtain rfl : format = _ := hformat
  refine (parseField_ends _ args).bind ?_
  rintro ⟨width, format, args⟩ hformat
  obtain rfl : format = _ := hformat
  refine (parsePrecision_ends _ args).bind ?_
  rintro ⟨precision, format, args⟩ hformat
  obtain rfl : format = _ := hformat
  exact (parseType_ends _).bind fun r hr => endsWith_ok hr

/-! ### Conversions -/

section

variable {strings : BitVec 32 → CString} {printf : Bytes → VaList → Printf Bytes}

theorem signedArg_ends (type : ArgType) (args : VaList) :
    EndsWith (signedArg type args) fun _ => True := by
  cases type with
  | intmax | longlong => exact vaArg64_ends args
  | char | short | int | long | ptrdifft | sizet =>
    exact (vaArg_ends args).bind fun r _ => endsWith_ok trivial

theorem unsignedArg_ends (type : ArgType) (args : VaList) :
    EndsWith (unsignedArg type args) fun _ => True := by
  cases type with
  | intmax | longlong => exact vaArg64_ends args
  | char | short | int | long | ptrdifft | sizet =>
    exact (vaArg_ends args).bind fun r _ => endsWith_ok trivial

theorem formatInteger_ends (hb : b ∈ integerBases) (value : BitVec 64) (isSigned negative : Bool)
    (c : Conversion) : EndsWith (formatInteger value isSigned negative b c) fun _ => True := by
  obtain ⟨out, hout, -⟩ := formatInteger_text (proper_of_mem hb) value isSigned negative c
  exact .inr ⟨out, hout, trivial⟩

theorem convertUnsigned_ends (hb : b ∈ integerBases) (c : Conversion) (args : VaList) :
    EndsWith (convertUnsigned b c args) fun _ => True :=
  (unsignedArg_ends c.type args).bind fun r _ =>
    (formatInteger_ends hb r.1 false false c).bind fun _ _ => endsWith_ok trivial

def PrintsMessages (printf : Bytes → VaList → Printf Bytes) : Prop :=
  ∀ ch, (∃ out, printf noKernelFormat [charArg ch] = .ok out) ∧
    ∃ out, printf noConversionFormat [charArg ch] = .ok out

theorem convert_ends (strings : BitVec 32 → CString) (hprintf : PrintsMessages printf) (ch : UInt8)
    (c : Conversion) (args : VaList) :
    EndsWith (convert strings printf ch c args) fun _ => True := by
  obtain ⟨⟨kernel, hkernel⟩, ⟨conversion, hconversion⟩⟩ := hprintf ch
  have hbase : ∀ {b}, b ∈ [baseD, baseO, baseLowerX, baseUpperX] →
      EndsWith (convertUnsigned b c args) fun _ => True := fun hb => convertUnsigned_ends hb c args
  rw [convert]
  split_ifs
  · exact (signedArg_ends c.type args).bind fun r _ =>
      (formatInteger_ends mem_cons_self _ _ _ c).bind fun _ _ => endsWith_ok trivial
  · exact hbase (by simp)
  · exact hbase (by simp)
  · exact hbase (by simp)
  · exact hbase (by simp)
  · exact (vaArg_ends args).bind fun r _ => endsWith_ok trivial
  · exact (vaArg_ends args).bind fun r _ => endsWith_ok trivial
  · refine (vaArg_ends args).bind fun r _ => ?_
    exact (formatInteger_ends (by simp [integerBases]) _ _ _ _).bind fun _ _ => endsWith_ok trivial
  · rw [hkernel]
    exact endsWith_ok trivial
  · rw [hconversion]
    exact endsWith_ok trivial

/-! ### Formats -/

theorem completeFormat_char_iff {ch : UInt8} (hch : ch ≠ 0x25) :
    CompleteFormat (ch :: t) ↔ CompleteFormat t := by
  refine ⟨fun h => ?_, .char hch⟩
  cases h with
  | char _ rest => exact rest
  | percent _ => exact absurd rfl hch
  | conversion => exact absurd rfl hch

theorem completeFormat_percent_iff : CompleteFormat (0x25 :: 0x25 :: t) ↔ CompleteFormat t := by
  refine ⟨fun h => ?_, .percent⟩
  cases h with
  | char hne _ => exact absurd rfl hne
  | percent rest => exact rest
  | conversion hne => exact absurd rfl hne

theorem completeFormat_conversion_iff (hne : t.head? ≠ some 0x25) :
    CompleteFormat (0x25 :: t) ↔ ∃ ch t', conversionRest t = ch :: t' ∧ CompleteFormat t' := by
  constructor
  · intro h
    cases h with
    | char hch _ => exact absurd rfl hch
    | percent _ => exact absurd rfl hne
    | conversion _ hspec rest => exact ⟨_, _, hspec, rest⟩
  · rintro ⟨ch, t', hspec, rest⟩
    exact .conversion hne hspec rest

def FormatEnds (t : Bytes) (x : Printf Bytes) : Prop :=
  x = .error .noArgument ∨ (CompleteFormat t ∧ ∃ out, x = .ok out) ∨
    (¬ CompleteFormat t ∧ x = .error .pastEnd)

theorem FormatEnds.map {t' : Bytes} {x : Printf Bytes} (h : FormatEnds t x)
    (ht : CompleteFormat t' ↔ CompleteFormat t) (f : Bytes → Bytes) :
    FormatEnds t' (x >>= fun out => pure (f out)) := by
  rcases h with rfl | ⟨hcomplete, out, rfl⟩ | ⟨hnot, rfl⟩
  · exact .inl rfl
  · exact .inr (.inl ⟨ht.mpr hcomplete, f out, rfl⟩)
  · exact .inr (.inr ⟨fun h => hnot (ht.mp h), rfl⟩)

theorem vprintfConversion_ends {next : Bytes → VaList → Printf Bytes}
    (hprintf : PrintsMessages printf) (args : VaList) (hne : t.head? ≠ some 0x25)
    (hpast : ∀ args, next [] args = .error .pastEnd)
    (hnext : ∀ ch t' args, conversionRest t = ch :: t' → FormatEnds t' (next (t' ++ [0]) args)) :
    FormatEnds (0x25 :: t) (vprintfConversion strings printf next (t ++ [0]) args) := by
  have hcomplete := completeFormat_conversion_iff hne
  rw [vprintfConversion]
  rcases parseConversion_ends t args with hmissing | ⟨⟨c, format, args'⟩, hparse, hformat⟩
  · rw [hmissing]
    exact .inl rfl
  · rw [hparse]
    obtain rfl : format = _ := hformat
    cases hspec : conversionRest t with
    | nil =>
      have hnot : ¬ CompleteFormat (0x25 :: t) := by
        rw [hcomplete, hspec]
        rintro ⟨ch, t', hcons, -⟩
        cases hcons
      rcases convert_ends strings hprintf 0 c args' with hmissing | ⟨r, hr, -⟩
      · refine .inl ?_
        simp only [bind, Except.bind, nil_append, hmissing]
      · refine .inr (.inr ⟨hnot, ?_⟩)
        simp only [bind, Except.bind, nil_append, hr, hpast]
    | cons ch t' =>
      have hiff : CompleteFormat (0x25 :: t) ↔ CompleteFormat t' := by
        rw [hcomplete, hspec]
        constructor
        · rintro ⟨_, _, hcons, hrest⟩
          cases hcons
          exact hrest
        · exact fun hrest => ⟨ch, t', rfl, hrest⟩
      rcases convert_ends strings hprintf ch c args' with hmissing | ⟨r, hr, -⟩
      · refine .inl ?_
        simp only [bind, Except.bind, cons_append, hmissing]
      · have hmap := (hnext ch t' r.2 hspec).map hiff (r.1 ++ ·)
        simp only [bind, Except.bind, cons_append, hr] at hmap ⊢
        exact hmap

theorem vprintfLoop_ends (hprintf : PrintsMessages printf) {rounds : ℕ} (args : VaList) (h0 : 0 ∉ t)
    (hrounds : t.length < rounds) :
    FormatEnds t (vprintfLoop strings printf rounds (t ++ [0]) args) := by
  induction rounds generalizing t args with
  | zero => omega
  | succ rounds ih =>
    rw [vprintfLoop]
    cases t with
    | nil => exact .inr (.inl ⟨.nil, [], rfl⟩)
    | cons ch t =>
      rw [length_cons] at hrounds
      rw [mem_cons, not_or] at h0
      rw [cons_append, vprintfRound, if_neg (Ne.symm h0.1)]
      by_cases hch : ch ≠ 0x25
      · rw [if_pos hch]
        exact (ih args h0.2 (by omega)).map (completeFormat_char_iff hch) (ch :: ·)
      obtain rfl := not_not.mp hch
      have hpast : ∀ args, vprintfLoop strings printf rounds [] args = .error .pastEnd := by
        intro args
        obtain ⟨r, rfl⟩ := Nat.exists_eq_succ_of_ne_zero (show rounds ≠ 0 by omega)
        rfl
      have hnext : ∀ ch t' args, conversionRest t = ch :: t' →
          FormatEnds t' (vprintfLoop strings printf rounds (t' ++ [0]) args) := by
        intro ch t' args hspec
        have hsuffix := conversionRest_suffix t
        rw [hspec] at hsuffix
        have hlen := hsuffix.length_le
        rw [length_cons] at hlen
        exact ih args (fun h => h0.2 (hsuffix.mem (mem_cons_of_mem ch h))) (by omega)
      cases t with
      | nil => exact vprintfConversion_ends hprintf args (by simp) hpast hnext
      | cons ch' t =>
        rw [cons_append, vprintfPercent]
        by_cases hpercent : ch' = 0x25
        · subst hpercent
          rw [length_cons] at hrounds
          exact (ih args (fun h => h0.2 (mem_cons_of_mem _ h)) (by omega)).map
            completeFormat_percent_iff (0x25 :: ·)
        · rw [if_neg hpercent, ← cons_append]
          refine vprintfConversion_ends hprintf args ?_ hpast hnext
          exact fun h => hpercent (Option.some.inj h)

theorem printsMessages (strings : BitVec 32 → CString) (depth : ℕ) :
    PrintsMessages (vprintf strings (depth + 1)) :=
  fun _ => ⟨⟨_, rfl⟩, ⟨_, rfl⟩⟩

/-- **Staying inside the format**: `__vprintf` reads up to the null **exactly when** every
conversion of the format is complete. -/
theorem vprintf_inside_iff (strings : BitVec 32 → CString) (depth : ℕ) (format : CString)
    (args : VaList)
    (hargs : vprintf strings (depth + 2) (format.bytes ++ [0]) args ≠ .error .noArgument) :
    ((∃ out, vprintf strings (depth + 2) (format.bytes ++ [0]) args = .ok out) ↔
        CompleteFormat format.bytes) ∧
      (vprintf strings (depth + 2) (format.bytes ++ [0]) args = .error .pastEnd ↔
        ¬ CompleteFormat format.bytes) := by
  have hends : FormatEnds format.bytes
      (vprintf strings (depth + 2) (format.bytes ++ [0]) args) := by
    rw [vprintf]
    refine vprintfLoop_ends (printsMessages strings depth) args format.nul_notMem ?_
    rw [length_append]
    omega
  rcases hends with hmissing | ⟨hcomplete, out, hout⟩ | ⟨hnot, hpast⟩
  · exact absurd hmissing hargs
  · refine ⟨iff_of_true ⟨out, hout⟩ hcomplete, iff_of_false ?_ (not_not.mpr hcomplete)⟩
    rw [hout]
    exact fun h => by cases h
  · refine ⟨iff_of_false ?_ hnot, iff_of_true hpast hnot⟩
    rintro ⟨out, hout⟩
    rw [hpast] at hout
    cases hout

/-- The format `%d`. -/
theorem vprintf_inside_decimal :
    CompleteFormat [0x25, 0x64] ∧
      ∃ out, vprintf (fun _ => ⟨[], not_mem_nil⟩) 2 [0x25, 0x64, 0] [5] = .ok out := by
  have hcomplete : CompleteFormat [0x25, 0x64] := .conversion (by decide) rfl .nil
  have hargs : vprintf (fun _ => ⟨[], not_mem_nil⟩) 2 [0x25, 0x64, 0] [5] ≠
      .error .noArgument := by
    decide
  have hiff := vprintf_inside_iff (fun _ => ⟨[], not_mem_nil⟩) 0 ⟨[0x25, 0x64], by decide⟩ [5] hargs
  exact ⟨hcomplete, hiff.1.mpr hcomplete⟩

/-- **The format `%`** is read beyond its null. -/
theorem vprintf_reads_past_end :
    vprintf (fun _ => ⟨[], not_mem_nil⟩) 2 [0x25, 0] [] = .error .pastEnd :=
  rfl

end

end OsMaterial
