import OsMaterial.Words

/-!
# The Formatter of `printf`

`__vprintf` of `lib/stdio.c`; its result is the sequence of characters it hands out. A pointer into
the format is the rest of the format with its null: reading behind the null is a fault, and so are a
byte too much in the buffer of 64 bytes and a missing argument. A message about an unknown
conversion is printed by a nested call; `vprintf` has the depth as an argument.

## Main definitions

* `parseConversion`: reads the **flags, the width, the precision, and the type** of a conversion.
* `formatInteger`, `vprintf`: print an integer, and a format.
-/

namespace OsMaterial

inductive PrintfFault where
  | pastEnd
  | bufferOverflow
  | noArgument
  | unfinished
  deriving DecidableEq

abbrev Printf (α : Type) : Type := Except PrintfFault α

def wrapInt (n : ℤ) : ℤ := Int.bmod n wordSize

/-! ### Arguments -/

abbrev VaList : Type := List (BitVec 32)

def vaArg : VaList → Printf (BitVec 32 × VaList)
  | w :: args => .ok (w, args)
  | [] => .error .noArgument

def vaArg64 : VaList → Printf (BitVec 64 × VaList)
  | lo :: hi :: args => .ok (hi ++ lo, args)
  | _ => .error .noArgument

/-! ### Conversions -/

structure ConversionFlags where
  minus : Bool := false
  plus : Bool := false
  space : Bool := false
  pound : Bool := false
  zero : Bool := false
  group : Bool := false
  deriving DecidableEq

inductive ArgType where
  | char
  | short
  | int
  | intmax
  | long
  | longlong
  | ptrdifft
  | sizet
  deriving DecidableEq

structure Conversion where
  flags : ConversionFlags
  width : ℤ
  precision : ℤ
  type : ArgType
  deriving DecidableEq

def ConversionFlags.set (flags : ConversionFlags) (ch : UInt8) : Option ConversionFlags :=
  if ch = 0x2d then some { flags with minus := true }
  else if ch = 0x2b then some { flags with plus := true }
  else if ch = 0x20 then some { flags with space := true }
  else if ch = 0x23 then some { flags with pound := true }
  else if ch = 0x30 then some { flags with zero := true }
  else if ch = 0x27 then some { flags with group := true }
  else none

def parseFlags : ConversionFlags → Bytes → Printf (ConversionFlags × Bytes)
  | _, [] => .error .pastEnd
  | flags, ch :: format =>
    match flags.set ch with
    | some flags => parseFlags flags format
    | none => .ok (flags, ch :: format)

def ConversionFlags.settle (flags : ConversionFlags) : ConversionFlags :=
  { flags with zero := flags.zero && !flags.minus, space := flags.space && !flags.plus }

def parseDigits : ℤ → Bytes → Printf (ℤ × Bytes)
  | _, [] => .error .pastEnd
  | n, ch :: format =>
    if isDigitByte ch then parseDigits (wrapInt (n * 10 + ch.toNat - 0x30)) format
    else .ok (n, ch :: format)

def parseField (format : Bytes) (args : VaList) : Printf (ℤ × Bytes × VaList) :=
  match format with
  | [] => .error .pastEnd
  | ch :: rest =>
    if ch = 0x2a then do
      let (w, args) ← vaArg args
      return (w.toInt, rest, args)
    else do
      let (n, format) ← parseDigits 0 (ch :: rest)
      return (n, format, args)

def parsePrecision (format : Bytes) (args : VaList) : Printf (ℤ × Bytes × VaList) :=
  match format with
  | [] => .error .pastEnd
  | ch :: rest =>
    if ch = 0x2e then do
      let (precision, format, args) ← parseField rest args
      return (if precision < 0 then -1 else precision, format, args)
    else
      .ok (-1, ch :: rest, args)

def parseDouble (double : UInt8) (one two : ArgType) : Bytes → Printf (ArgType × Bytes)
  | [] => .error .pastEnd
  | ch :: format => if ch = double then .ok (two, format) else .ok (one, ch :: format)

def parseType : Bytes → Printf (ArgType × Bytes)
  | [] => .error .pastEnd
  | ch :: format =>
    if ch = 0x68 then parseDouble 0x68 .short .char format
    else if ch = 0x6a then .ok (.intmax, format)
    else if ch = 0x6c then parseDouble 0x6c .long .longlong format
    else if ch = 0x74 then .ok (.ptrdifft, format)
    else if ch = 0x7a then .ok (.sizet, format)
    else .ok (.int, ch :: format)

def negateWidth (width : ℤ) (flags : ConversionFlags) : ℤ × ConversionFlags :=
  if width < 0 then (wrapInt (-width), { flags with minus := true }) else (width, flags)

def parseConversion (format : Bytes) (args : VaList) :
    Printf (Conversion × Bytes × VaList) := do
  let (flags, format) ← parseFlags {} format
  let (width, format, args) ← parseField format args
  let (width, flags) := negateWidth width flags.settle
  let (precision, format, args) ← parsePrecision format args
  let flags := { flags with zero := flags.zero && decide (precision < 0) }
  let (type, format) ← parseType format
  return ({ flags, width, precision, type }, format, args)

/-! ### Integers -/

structure IntegerBase where
  base : ℕ
  digits : Bytes
  x : UInt8
  group : ℕ

def decimalDigits : Bytes := [0x30, 0x31, 0x32, 0x33, 0x34, 0x35, 0x36, 0x37, 0x38, 0x39]

def baseD : IntegerBase := ⟨10, decimalDigits, 0, 3⟩

def baseO : IntegerBase := ⟨8, decimalDigits.take 8, 0, 3⟩

def baseLowerX : IntegerBase :=
  ⟨16, decimalDigits ++ [0x61, 0x62, 0x63, 0x64, 0x65, 0x66], 0x78, 4⟩

def baseUpperX : IntegerBase :=
  ⟨16, decimalDigits ++ [0x41, 0x42, 0x43, 0x44, 0x45, 0x46], 0x58, 4⟩

/-- `*cp++ = ch`, in the buffer of 64 bytes. The buffer is listed from its last byte to its first,
which is the order in which it is printed. -/
def pushChar (ch : UInt8) (buf : Bytes) : Printf Bytes :=
  if buf.length < 64 then .ok (ch :: buf) else .error .bufferOverflow

def IntegerBase.digit (b : IntegerBase) (n : ℕ) : UInt8 := b.digits.getD n 0

def digitLoop (b : IntegerBase) (group : Bool) :
    (rounds value digitCnt : ℕ) → Bytes → Printf Bytes
  | 0, value, _, buf => if value = 0 then .ok buf else .error .unfinished
  | rounds + 1, value, digitCnt, buf =>
    if 0 < value then do
      let buf ←
        if group = true ∧ 0 < digitCnt ∧ digitCnt % b.group = 0 then pushChar 0x2c buf
        else pure buf
      let buf ← pushChar (b.digit (value % b.base)) buf
      digitLoop b group rounds (value / b.base) (digitCnt + 1) buf
    else
      .ok buf

def zeroLoop (precision : ℤ) : (rounds : ℕ) → Bytes → Printf Bytes
  | 0, _ => .error .unfinished
  | rounds + 1, buf =>
    if buf.length < precision ∧ buf.length < 63 then do
      let buf ← pushChar 0x30 buf
      zeroLoop precision rounds buf
    else
      .ok buf

/-- The part of `format_integer` that accumulates the digits: there are at most 64 digits in
a value, and 63 zeros are appended at most. -/
def accumulateDigits (value : BitVec 64) (b : IntegerBase) (c : Conversion) :
    Printf Bytes := do
  let buf ← digitLoop b c.flags.group 64 value.toNat 0 []
  let buf ← zeroLoop (if c.precision < 0 then 1 else c.precision) 64 buf
  if c.flags.pound = true ∧ b.base = 8 ∧ buf.head? ≠ some 0x30 then pushChar 0x30 buf
  else return buf

def signChar (isSigned negative : Bool) (flags : ConversionFlags) : UInt8 :=
  if isSigned then
    if flags.plus then
      if negative then 0x2d else 0x2b
    else if flags.space then
      if negative then 0x2d else 0x20
    else if negative then 0x2d
    else 0
  else 0

def xChar (value : BitVec 64) (b : IntegerBase) (flags : ConversionFlags) : UInt8 :=
  if flags.pound = true ∧ value ≠ 0 then b.x else 0

def outputDup (ch : UInt8) (cnt : ℕ) : Bytes := List.replicate cnt ch

def signText (sign : UInt8) : Bytes := if sign ≠ 0 then [sign] else []

def xText (x : UInt8) : Bytes := if x ≠ 0 then [0x30, x] else []

def padCnt (c : Conversion) (sign x : UInt8) (buf : Bytes) : ℕ :=
  (wrapInt (c.width - buf.length - (if x ≠ 0 then 2 else 0) - (if sign ≠ 0 then 1 else 0))).toNat

def formatInteger (value : BitVec 64) (isSigned negative : Bool) (b : IntegerBase)
    (c : Conversion) : Printf Bytes := do
  let sign := signChar isSigned negative c.flags
  let x := xChar value b c.flags
  let buf ← accumulateDigits value b c
  let pad := padCnt c sign x buf
  return (if c.flags.minus = true ∨ c.flags.zero = true then [] else outputDup 0x20 pad) ++
    signText sign ++ xText x ++ (if c.flags.zero = true then outputDup 0x30 pad else []) ++ buf ++
    (if c.flags.minus = true then outputDup 0x20 pad else [])

def signedArg (type : ArgType) (args : VaList) : Printf (BitVec 64 × VaList) :=
  match type with
  | .char => do
      let (w, args) ← vaArg args
      return ((w.setWidth 8).signExtend 64, args)
  | .short => do
      let (w, args) ← vaArg args
      return ((w.setWidth 16).signExtend 64, args)
  | .int | .long | .ptrdifft => do
      let (w, args) ← vaArg args
      return (w.signExtend 64, args)
  | .intmax | .longlong => vaArg64 args
  | .sizet => do
      let (w, args) ← vaArg args
      let value := w.setWidth 64
      -- `SIZE_MAX` is the largest word of 32 bits
      return (if 0xffffffff / 2 < value.toNat then value - 0xffffffff - 1 else value, args)

def unsignedArg (type : ArgType) (args : VaList) : Printf (BitVec 64 × VaList) :=
  match type with
  | .char => do
      let (w, args) ← vaArg args
      return ((w.setWidth 8).setWidth 64, args)
  | .short => do
      let (w, args) ← vaArg args
      return ((w.setWidth 16).setWidth 64, args)
  | .int | .long | .sizet => do
      let (w, args) ← vaArg args
      return (w.setWidth 64, args)
  | .intmax | .longlong => vaArg64 args
  | .ptrdifft => do
      let (w, args) ← vaArg args
      return (w.signExtend 64 &&& ((0x7fffffff <<< 1) ||| 1), args)

/-! ### Formats -/

def formatString (string : Bytes) (length : ℤ) (c : Conversion) : Bytes :=
  (if length < c.width ∧ c.flags.minus = false then
    outputDup 0x20 (wrapInt (c.width - length)).toNat else []) ++
  string.take length.toNat ++
  (if length < c.width ∧ c.flags.minus = true then
    outputDup 0x20 (wrapInt (c.width - length)).toNat else [])

def nullText : Bytes := [0x28, 0x6e, 0x75, 0x6c, 0x6c, 0x29]

def stringArg (strings : BitVec 32 → CString) (w : BitVec 32) : Bytes :=
  if w = 0 then nullText else (strings w).bytes

def noKernelFormat : Bytes :=
  [0x3c, 0x3c, 0x6e, 0x6f, 0x20, 0x25, 0x25, 0x25, 0x63, 0x20, 0x69, 0x6e, 0x20, 0x6b, 0x65, 0x72,
    0x6e, 0x65, 0x6c, 0x3e, 0x3e, 0]

def noConversionFormat : Bytes :=
  [0x3c, 0x3c, 0x6e, 0x6f, 0x20, 0x25, 0x25, 0x25, 0x63, 0x20, 0x63, 0x6f, 0x6e, 0x76, 0x65, 0x72,
    0x73, 0x69, 0x6f, 0x6e, 0x3e, 0x3e, 0]

def charArg (ch : UInt8) : BitVec 32 := ch.toBitVec.signExtend 32

def convertSigned (c : Conversion) (args : VaList) : Printf (Bytes × VaList) := do
  let (value, args) ← signedArg c.type args
  let out ← formatInteger (if value.toInt < 0 then -value else value) true
    (decide (value.toInt < 0)) baseD c
  return (out, args)

def convertUnsigned (b : IntegerBase) (c : Conversion) (args : VaList) :
    Printf (Bytes × VaList) := do
  let (value, args) ← unsignedArg c.type args
  let out ← formatInteger value false false b c
  return (out, args)

def convert (strings : BitVec 32 → CString) (printf : Bytes → VaList → Printf Bytes)
    (ch : UInt8) (c : Conversion) (args : VaList) : Printf (Bytes × VaList) :=
  if ch = 0x64 ∨ ch = 0x69 then convertSigned c args
  else if ch = 0x6f then convertUnsigned baseO c args
  else if ch = 0x75 then convertUnsigned baseD c args
  else if ch = 0x78 then convertUnsigned baseLowerX c args
  else if ch = 0x58 then convertUnsigned baseUpperX c args
  else if ch = 0x63 then do
    let (w, args) ← vaArg args
    return (formatString [UInt8.ofBitVec (w.setWidth 8)] 1 c, args)
  else if ch = 0x73 then do
    let (w, args) ← vaArg args
    let s := stringArg strings w
    -- `strnlen (s, c.precision)`: without a precision the limit is `SIZE_MAX`
    let length := wrapInt (s.take (c.precision % wordSize).toNat).length
    return (formatString s length c, args)
  else if ch = 0x70 then do
    let (w, args) ← vaArg args
    let out ← formatInteger (w.setWidth 64) false false baseLowerX
      { c with flags := { pound := true } }
    return (out, args)
  else if ch ∈ [0x66, 0x65, 0x45, 0x67, 0x47, 0x6e] then do
    return (← printf noKernelFormat [charArg ch], args)
  else do
    return (← printf noConversionFormat [charArg ch], args)

def vprintfConversion (strings : BitVec 32 → CString)
    (printf next : Bytes → VaList → Printf Bytes) (format : Bytes)
    (args : VaList) : Printf Bytes := do
  let (c, format, args) ← parseConversion format args
  match format with
  | [] => .error .pastEnd
  | ch :: format =>
    let (out, args) ← convert strings printf ch c args
    return out ++ (← next format args)

def vprintfPercent (strings : BitVec 32 → CString)
    (printf next : Bytes → VaList → Printf Bytes) (format : Bytes)
    (args : VaList) : Printf Bytes :=
  match format with
  | [] => .error .pastEnd
  | ch :: rest =>
    if ch = 0x25 then do
      return 0x25 :: (← next rest args)
    else
      vprintfConversion strings printf next (ch :: rest) args

def vprintfRound (strings : BitVec 32 → CString)
    (printf next : Bytes → VaList → Printf Bytes) (format : Bytes)
    (args : VaList) : Printf Bytes :=
  match format with
  | [] => .error .pastEnd
  | ch :: format =>
    if ch = 0 then .ok []
    else if ch ≠ 0x25 then do
      return ch :: (← next format args)
    else
      vprintfPercent strings printf next format args

def vprintfLoop (strings : BitVec 32 → CString)
    (printf : Bytes → VaList → Printf Bytes) :
    (rounds : ℕ) → (format : Bytes) → (args : VaList) → Printf Bytes
  | 0, _, _ => .error .unfinished
  | rounds + 1, format, args =>
    vprintfRound strings printf (vprintfLoop strings printf rounds) format args

/-- `__vprintf`, with at most `depth` calls within each other. A round reads at least one character
of the format. -/
def vprintf (strings : BitVec 32 → CString) :
    (depth : ℕ) → (format : Bytes) → (args : VaList) → Printf Bytes
  | 0, _, _ => .error .unfinished
  | depth + 1, format, args =>
    vprintfLoop strings (vprintf strings depth) (format.length + 1) format args

end OsMaterial
