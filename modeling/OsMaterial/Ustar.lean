import OsMaterial.Directory
import OsMaterial.Record
import Mathlib.Algebra.Group.Action.Defs
import Mathlib.Algebra.Order.BigOperators.Group.List
import Mathlib.Data.Nat.Digits.Lemmas

/-!
# Archive Headers

`lib/ustar.c` composes and parses the headers of a ustar archive in the kernel, and `utils/pintos`
on the host. What the decoders need of a header of 512 bytes is said once (`Describes`).

* `ustar_headers_agree`: the encoders and the decoders agree.
-/

namespace OsMaterial

open List (getD_append length_append length_map length_replicate map_cons mem_cons_self range
  replicate)

/-! ### The record -/

inductive UstarType where
  | regular
  | directory
  | eof
  deriving DecidableEq

def UstarType.byte : UstarType → UInt8
  | regular => 0x30
  | directory => 0x35
  | eof => 0xff

inductive UstarField where
  | name
  | mode
  | uid
  | gid
  | size
  | mtime
  | chksum
  | typeflag
  | linkname
  | magic
  | version
  | uname
  | gname
  | devmajor
  | devminor
  | namePrefix
  | padding
  deriving DecidableEq

def UstarField.width : UstarField → ℕ
  | name => 100
  | mode => 8
  | uid => 8
  | gid => 8
  | size => 12
  | mtime => 12
  | chksum => 8
  | typeflag => 1
  | linkname => 100
  | magic => 6
  | version => 2
  | uname => 32
  | gname => 32
  | devmajor => 8
  | devminor => 8
  | namePrefix => 155
  | padding => 12

def ustarLayout : RecordLayout UstarField where
  fields := [.name, .mode, .uid, .gid, .size, .mtime, .chksum, .typeflag, .linkname, .magic,
    .version, .uname, .gname, .devmajor, .devminor, .namePrefix, .padding]
  width := UstarField.width
  mem_fields f := by cases f <;> decide
  nodup := by decide

abbrev UstarHeader := Record ustarLayout UInt8

/-! ### `lib/ustar.c` -/

def antisocial (name : Bytes) : Bool :=
  name.take 1 = [0x2f] ∨ name.take 2 = [0x2e, 0x2f] ∨ name.take 3 = [0x2e, 0x2e, 0x2f]

def stripLoop : ℕ → Bytes → Bytes
  | 0, name => name
  | fuel + 1, name =>
    if antisocial name then stripLoop fuel ((name.dropWhile (· ≠ 0x2f)).drop 1) else name

def stripAntisocialPrefixes (fileName : Bytes) : Bytes :=
  let name := stripLoop fileName.length fileName
  if name = [] ∨ name = [0x2e, 0x2e] then [0x2e] else name

def calculateChksum (header : Bytes) : ℕ :=
  (range 512).foldl (fun chksum i =>
    (chksum + if 148 ≤ i ∧ i < 156 then 0x20 else (header.getD i 0).toNat) % wordSize) 0

def octalDigit (d : ℕ) : UInt8 := UInt8.ofNat (0x30 + d)

def octal (width n : ℕ) : Bytes :=
  (Nat.digitsAppend 8 (max 1 width) n).reverse.map octalDigit

theorem octal_ne_zero (width n : ℕ) : 0 ∉ octal width n := by
  intro hmem
  obtain ⟨d, hd, heq⟩ := List.mem_map.mp hmem
  have hlt := Nat.lt_of_mem_digitsAppend (by decide) _ _ (List.mem_reverse.mp hd)
  have hall : ∀ d < 8, octalDigit d ≠ 0 := by decide
  exact hall d hlt heq

def octalText (width n : ℕ) : CString := ⟨octal width n, octal_ne_zero width n⟩

def Record.setText (h : UstarHeader) (f : UstarField) (text : CString) : UstarHeader :=
  h.set f (strlcpy (h.field f) text) (by
    have hpos : 0 < (h.field f).length := by
      rw [h.length_field]
      cases f <;> decide
    rw [length_strlcpy text hpos, h.length_field])

def zeroHeader : UstarHeader where
  field f := replicate f.width 0
  length_field _ := length_replicate

def fillHeader (name : CString) (type : UstarType) (size : ℕ) : UstarHeader :=
  let h := zeroHeader.setText .name name
  let h := h.setText .mode (octalText 7 (if type = .regular then 0o644 else 0o755))
  let h := h.setText .uid ⟨[0x30, 0x30, 0x30, 0x30, 0x30, 0x30, 0x30], by decide⟩
  let h := h.setText .gid ⟨[0x30, 0x30, 0x30, 0x30, 0x30, 0x30, 0x30], by decide⟩
  let h := h.setText .size (octalText 11 size)
  let h := h.setText .mtime (octalText 11 1136102400)
  let h := h.set .typeflag [type.byte] rfl
  let h := h.setText .magic ⟨[0x75, 0x73, 0x74, 0x61, 0x72], by decide⟩
  let h := h.set .version [0x30, 0x30] rfl
  let h := h.setText .gname ⟨[0x72, 0x6f, 0x6f, 0x74], by decide⟩
  h.setText .uname ⟨[0x72, 0x6f, 0x6f, 0x74], by decide⟩

theorem stripLoop_suffix (fuel : ℕ) (name : Bytes) : stripLoop fuel name <:+ name := by
  induction fuel generalizing name with
  | zero => exact List.suffix_rfl
  | succ fuel ih =>
    rw [stripLoop]
    split
    · exact (ih _).trans ((List.drop_suffix _ _).trans (List.dropWhile_suffix _))
    · exact List.suffix_rfl

theorem nul_notMem_strip (fileName : CString) : 0 ∉ stripAntisocialPrefixes fileName.bytes := by
  rw [stripAntisocialPrefixes]
  split
  · decide
  · exact fun hmem => fileName.nul_notMem ((stripLoop_suffix _ _).mem hmem)

def CString.strip (fileName : CString) : CString :=
  ⟨stripAntisocialPrefixes fileName.bytes, nul_notMem_strip fileName⟩

inductive UstarPanic where
  | type
  deriving DecidableEq

/-- `ustar_make_header`: the header, if it returns true. The size is printed as an unsigned
number. -/
def ustarMakeHeader (fileName : CString) (type : UstarType) (size : ℕ) :
    Except UstarPanic (Option UstarHeader) :=
  if type = .eof then .error .type
  else
    let fileName := fileName.strip
    if fileName.bytes.length > 99 then .ok none
    else
      let h := fillHeader fileName type size
      .ok (some (h.setText .chksum (octalText 7 (calculateChksum h.flat))))

def parseOctalLoop : Bytes → ℕ → ℕ → Option ℕ
  | [], _, _ => none
  | c :: rest, ofs, value =>
    if 0x30 ≤ c ∧ c ≤ 0x37 then
      if value > (wordSize - 1) / 8 then none
      else parseOctalLoop rest (ofs + 1) ((c.toNat - 0x30 + value * 8) % wordSize)
    else if c = 0x20 ∨ c = 0 then
      if ofs > 0 then some value else none
    else none

def parseOctalField (s : Bytes) : Option ℕ := parseOctalLoop s 0 0

inductive UstarError where
  | magic
  | version
  | chksumField
  | chksum
  | longName
  | fileType
  | sizeField
  | largeFile
  deriving DecidableEq

structure UstarEntry where
  fileName : Option CString
  type : UstarType
  size : ℕ
  deriving DecidableEq

def ustarParseHeader (header : Bytes) : Except UstarError UstarEntry :=
  let h := ustarLayout.get header
  let name := (CString.ofArray (h .name)).strip
  if header.all (· = 0) then .ok ⟨none, .eof, 0⟩
  else if h .magic ≠ [0x75, 0x73, 0x74, 0x61, 0x72, 0] then .error .magic
  else if h .version ≠ [0x30, 0x30] then .error .version
  else
    match parseOctalField (h .chksum) with
    | none => .error .chksumField
    | some chksum =>
      if chksum ≠ calculateChksum header then .error .chksum
      else if (h .name).getD 99 0 ≠ 0 ∨ (h .namePrefix).getD 0 0 ≠ 0 then .error .longName
      else if h .typeflag = [UstarType.regular.byte] then
        match parseOctalField (h .size) with
        | none => .error .sizeField
        | some size =>
          if size > 2 ^ 31 - 1 then .error .largeFile else .ok ⟨some name, .regular, size⟩
      else if h .typeflag = [UstarType.directory.byte] then .ok ⟨some name, .directory, 0⟩
      else .error .fileType

/-! ### `utils/pintos` -/

inductive HostError where
  | nameTooLong
  | fieldTooLarge
  | headerLength
  | archiveEnd
  | signature
  | version
  | chksum
  | notRegular
  | badSize
  deriving DecidableEq

def substr (s : Bytes) (ofs len : ℕ) : Bytes := (s.drop ofs).take len

def substrSet (s : Bytes) (ofs len : ℕ) (new : Bytes) : Bytes :=
  s.take ofs ++ new ++ s.drop (ofs + len)

def packA (len : ℕ) (s : Bytes) : Bytes :=
  s.take len ++ replicate (len - s.length) 0

def mkUstarField (number size : ℕ) : Except HostError Bytes :=
  let out := octal (size - 1) number ++ [0]
  if out.length ≠ size then .error .fieldTooLarge else .ok out

def calcUstarChksum (s : Bytes) : Except HostError ℕ :=
  if s.length ≠ 512 then .error .headerLength
  else .ok (((substrSet s 148 8 (replicate 8 0x20)).map UInt8.toNat).sum % 2 ^ 32)

def putScratchFile (dstFileName : Bytes) (size : ℕ) : Except HostError Bytes := do
  if dstFileName.length > 99 then throw .nameTooLong
  let header := packA 100 dstFileName
    ++ (← mkUstarField 0o644 8)
    ++ (← mkUstarField 0 8)
    ++ (← mkUstarField 0 8)
    ++ (← mkUstarField size 12)
    ++ (← mkUstarField 1136102400 12)
    ++ replicate 8 0x20
    ++ [0x30]
    ++ replicate 100 0
    ++ [0x75, 0x73, 0x74, 0x61, 0x72, 0]
    ++ [0x30, 0x30]
    ++ ([0x72, 0x6f, 0x6f, 0x74] ++ replicate 28 0)
    ++ ([0x72, 0x6f, 0x6f, 0x74] ++ replicate 28 0)
    ++ replicate 8 0
    ++ replicate 8 0
    ++ replicate 155 0
    ++ replicate 12 0
  return substrSet header 148 8 (← mkUstarField (← calcUstarChksum header) 8)

def digitValue (base : ℕ) (c : UInt8) : Option ℕ :=
  let d :=
    if 0x30 ≤ c ∧ c ≤ 0x39 then c.toNat - 0x30
    else if 0x61 ≤ c ∧ c ≤ 0x66 then c.toNat - 0x61 + 10
    else if 0x41 ≤ c ∧ c ≤ 0x46 then c.toNat - 0x41 + 10
    else 16
  if d < base then some d else none

def scanNumber (base : ℕ) : Bytes → ℕ → ℕ
  | [], value => value
  | c :: rest, value =>
    match digitValue base c with
    | some d => scanNumber base rest (value * base + d)
    | none =>
      if c = 0x5f ∧ (rest.head?.bind (digitValue base)).isSome then scanNumber base rest value
      else value

/-- `oct ($s)`: white space is skipped, and `0x` and `0b` stand for other bases. -/
def perlOct (s : Bytes) : ℕ :=
  let s := s.dropWhile fun c => c ∈ [0x20, 0x09, 0x0a, 0x0b, 0x0c, 0x0d]
  let s := if s.take 1 = [0x30] then s.drop 1 else s
  if s.take 1 = [0x78] ∨ s.take 1 = [0x58] then scanNumber 16 (s.drop 1) 0
  else if s.take 1 = [0x62] ∨ s.take 1 = [0x42] then scanNumber 2 (s.drop 1) 0
  else if s.take 1 = [0x6f] ∨ s.take 1 = [0x4f] then scanNumber 8 (s.drop 1) 0
  else scanNumber 8 s 0

def getScratchFile (header : Bytes) : Except HostError ℕ := do
  if header = replicate 512 0 then throw .archiveEnd
  if substr header 257 6 ≠ [0x75, 0x73, 0x74, 0x61, 0x72, 0] then throw .signature
  if substr header 263 2 ≠ [0x30, 0x30] then throw .version
  let chksum := perlOct (cstring (substr header 148 8))
  let correctChksum ← calcUstarChksum header
  if chksum ≠ correctChksum then throw .chksum
  let typeflag := substr header 156 1
  if typeflag ≠ [0x30] ∧ typeflag ≠ [0] then throw .notRegular
  let size := perlOct (cstring (substr header 124 12))
  if (size : ℤ) < 0 then throw .badSize
  return size

/-! ### Names -/

variable {w n : ℕ} {digits : List ℕ} {header name data : Bytes}

theorem length_strip_lt (h : antisocial name = true) :
    ((name.dropWhile (· ≠ 0x2f)).drop 1).length < name.length := by
  have hle := (List.dropWhile_suffix (· ≠ 0x2f) (l := name)).length_le
  have hpos : 0 < name.length := by
    cases name with
    | nil => cases h
    | cons c rest => exact Nat.succ_pos _
  rw [List.length_drop]
  omega

theorem antisocial_stripLoop {fuel : ℕ} (h : name.length ≤ fuel) :
    antisocial (stripLoop fuel name) = false := by
  induction fuel generalizing name with
  | zero =>
    obtain rfl : name = [] := List.length_eq_zero_iff.mp (by omega)
    rfl
  | succ fuel ih =>
    rw [stripLoop]
    split
    · next hanti =>
      have hlt := length_strip_lt hanti
      exact ih (by omega)
    · next hanti => exact Bool.eq_false_iff.mpr hanti

theorem stripLoop_of_clean (fuel : ℕ) (h : antisocial name = false) :
    stripLoop fuel name = name := by
  cases fuel with
  | zero => rfl
  | succ fuel => rw [stripLoop, h, if_neg Bool.false_ne_true]

/-- **A stripped name has nothing to strip.** -/
theorem stripAntisocialPrefixes_idem (name : Bytes) :
    stripAntisocialPrefixes (stripAntisocialPrefixes name) = stripAntisocialPrefixes name := by
  rw [stripAntisocialPrefixes.eq_def name]
  dsimp only
  split
  · rfl
  · next hne =>
    rw [stripAntisocialPrefixes, stripLoop_of_clean _ (antisocial_stripLoop le_rfl), if_neg hne]

theorem CString.strip_strip (name : CString) : name.strip.strip = name.strip :=
  CString.ext (stripAntisocialPrefixes_idem name.bytes)

/-! ### Octal numbers -/

def readOctal (value : ℕ) (digits : List ℕ) : ℕ := digits.foldl (fun v d => d + v * 8) value

theorem le_readOctal (value : ℕ) (digits : List ℕ) : value ≤ readOctal value digits := by
  induction digits generalizing value with
  | nil => exact le_rfl
  | cons d digits ih =>
    have hstep := ih (d + value * 8)
    have hrec : readOctal value (d :: digits) = readOctal (d + value * 8) digits := rfl
    omega

theorem octal_spec (hw : 0 < w) (hn : n < 8 ^ w) :
    ∃ digits, octal w n = digits.map octalDigit ∧ digits.length = w ∧ (∀ d ∈ digits, d < 8) ∧
      readOctal 0 digits = n := by
  refine ⟨(Nat.digitsAppend 8 w n).reverse, ?_, ?_, fun d hd => ?_, ?_⟩
  · rw [octal, Nat.max_eq_right hw]
  · rw [List.length_reverse, Nat.length_digitsAppend (by decide) w hn]
  · exact Nat.lt_of_mem_digitsAppend (by decide) _ _ (List.mem_reverse.mp hd)
  · have hfold : (Nat.digitsAppend 8 w n).foldr (fun d v => d + v * 8) 0 =
        Nat.ofDigits 8 (Nat.digitsAppend 8 w n) := by
      rw [Nat.ofDigits_eq_foldr]
      congr 1
      funext d v
      rw [mul_comm]
      rfl
    rw [readOctal, List.foldl_reverse, hfold, Nat.digitsAppend,
      Nat.ofDigits_append_replicate_zero, Nat.ofDigits_digits]

theorem length_octal (hw : 0 < w) (hn : n < 8 ^ w) : (octal w n).length = w := by
  obtain ⟨digits, hdigits, hlen, -, -⟩ := octal_spec hw hn
  rw [hdigits, length_map, hlen]

theorem octalDigit_spec : ∀ d < 8, 0x30 ≤ octalDigit d ∧ octalDigit d ≤ 0x37 ∧
    (octalDigit d).toNat - 0x30 = d ∧ digitValue 8 (octalDigit d) = some d := by
  decide

variable {c : UInt8}

theorem parseOctalLoop_digits (hdigits : ∀ d ∈ digits, d < 8) (hc : c = 0x20 ∨ c = 0) (rest : Bytes)
    {ofs value : ℕ} (hpos : 0 < ofs + digits.length) (hlt : readOctal value digits < wordSize) :
    parseOctalLoop (digits.map octalDigit ++ c :: rest) ofs value =
      some (readOctal value digits) := by
  induction digits generalizing ofs value with
  | nil =>
    have hofs : ofs > 0 := hpos
    have hnot : ¬ (0x30 ≤ c ∧ c ≤ 0x37) := by rcases hc with rfl | rfl <;> decide
    rw [List.map_nil, List.nil_append, parseOctalLoop, if_neg hnot, if_pos hc, if_pos hofs]
    rfl
  | cons d digits ih =>
    obtain ⟨hge, hle, hval, -⟩ := octalDigit_spec d (hdigits d mem_cons_self)
    have hrec : readOctal value (d :: digits) = readOctal (d + value * 8) digits := rfl
    have hmono := le_readOctal (d + value * 8) digits
    have hnext : (d + value * 8) % wordSize = d + value * 8 := Nat.mod_eq_of_lt (by omega)
    rw [map_cons, List.cons_append, parseOctalLoop, if_pos ⟨hge, hle⟩, if_neg (by omega),
      hval, hnext, hrec]
    exact ih (fun x hx => hdigits x (List.mem_cons_of_mem _ hx)) (by omega) (by omega)

theorem parseOctalField_octal (hw : 0 < w) (hn : n < 8 ^ w) (hword : n < wordSize) :
    parseOctalField (octal w n ++ [0]) = some n := by
  obtain ⟨digits, hdigits, hlen, hlt, hread⟩ := octal_spec hw hn
  rw [parseOctalField, hdigits, parseOctalLoop_digits hlt (.inr rfl) [] (by omega) (by rwa [hread]),
    hread]

theorem scanNumber_digits (hdigits : ∀ d ∈ digits, d < 8) (value : ℕ) :
    scanNumber 8 (digits.map octalDigit) value = readOctal value digits := by
  induction digits generalizing value with
  | nil => rfl
  | cons d digits ih =>
    obtain ⟨-, -, -, hval⟩ := octalDigit_spec d (hdigits d mem_cons_self)
    have hrec : readOctal value (d :: digits) = readOctal (d + value * 8) digits := rfl
    rw [map_cons, scanNumber, hval]
    dsimp only
    rw [ih fun x hx => hdigits x (List.mem_cons_of_mem _ hx), hrec, Nat.add_comm]

theorem take_digits_ne (hdigits : ∀ d ∈ digits, d < 8)
    (hc : ∀ d < 8, octalDigit d ≠ c) : (digits.map octalDigit).take 1 ≠ [c] := by
  cases digits with
  | nil => exact List.cons_ne_nil c [] ∘ Eq.symm
  | cons d digits =>
    intro heq
    exact hc d (hdigits d mem_cons_self) (List.cons.inj heq).1

theorem perlOct_digits (hdigits : ∀ d ∈ digits, d < 8) :
    perlOct (digits.map octalDigit) = readOctal 0 digits := by
  have hspace : (digits.map octalDigit).dropWhile
      (fun c => c ∈ [0x20, 0x09, 0x0a, 0x0b, 0x0c, 0x0d]) = digits.map octalDigit := by
    cases digits with
    | nil => rfl
    | cons d digits =>
      have hall : ∀ d < 8, octalDigit d ∉ [0x20, 0x09, 0x0a, 0x0b, 0x0c, 0x0d] := by decide
      rw [map_cons, List.dropWhile_cons_of_neg]
      rw [decide_eq_true_iff]
      exact hall d (hdigits d mem_cons_self)
  -- a zero in front does not count
  obtain ⟨digits', hdigits', hread, hzero⟩ : ∃ digits', (∀ d ∈ digits', d < 8) ∧
      readOctal 0 digits' = readOctal 0 digits ∧
        (if (digits.map octalDigit).take 1 = [0x30] then (digits.map octalDigit).drop 1
          else digits.map octalDigit) = digits'.map octalDigit := by
    split
    · next hfirst =>
      cases digits with
      | nil => cases hfirst
      | cons d digits =>
        have hall : ∀ d < 8, octalDigit d = 0x30 → d = 0 := by decide
        have hd := hall d (hdigits d mem_cons_self) (List.cons.inj hfirst).1
        refine ⟨digits, fun x hx => hdigits x (List.mem_cons_of_mem _ hx), ?_, rfl⟩
        rw [hd]
        rfl
    · exact ⟨digits, hdigits, rfl, rfl⟩
  have hne : ∀ c, (∀ d < 8, octalDigit d ≠ c) → (digits'.map octalDigit).take 1 ≠ [c] :=
    fun c hc => take_digits_ne hdigits' hc
  simp only [perlOct]
  rw [hspace, hzero, if_neg (not_or.mpr ⟨hne _ (by decide), hne _ (by decide)⟩),
    if_neg (not_or.mpr ⟨hne _ (by decide), hne _ (by decide)⟩),
    if_neg (not_or.mpr ⟨hne _ (by decide), hne _ (by decide)⟩), scanNumber_digits hdigits', hread]

theorem perlOct_octal (hw : 0 < w) (hn : n < 8 ^ w) : perlOct (cstring (octal w n ++ [0])) = n := by
  have hcstring : cstring (octal w n ++ [0]) = octal w n := cstring_append (octalText w n) []
  obtain ⟨digits, hdigits, -, hlt, hread⟩ := octal_spec hw hn
  rw [hcstring, hdigits, perlOct_digits hlt, hread]

/-! ### Checksums -/

def spaced (header : Bytes) : Bytes := substrSet header 148 8 (replicate 8 0x20)

theorem length_spaced (hlen : header.length = 512) : (spaced header).length = 512 := by
  simp only [spaced, substrSet, length_append, List.length_take, List.length_drop, length_replicate]
  omega

theorem getD_spaced (hlen : header.length = 512) (i : ℕ) :
    (spaced header).getD i 0 = if 148 ≤ i ∧ i < 156 then 0x20 else header.getD i 0 := by
  have htake : (header.take 148).length = 148 := by
    rw [List.length_take]
    omega
  have hfront : (header.take 148 ++ replicate 8 (0x20 : UInt8)).length = 156 := by
    rw [length_append, htake, length_replicate]
  rw [spaced, substrSet]
  by_cases hlow : i < 148
  · rw [if_neg (by omega), getD_append _ _ _ _ (by omega), getD_append _ _ _ _ (by omega),
      List.getD_eq_getElem?_getD, List.getElem?_take, if_pos hlow, List.getD_eq_getElem?_getD]
  · by_cases hfield : i < 156
    · rw [if_pos (by omega), getD_append _ _ _ _ (by omega),
        List.getD_append_right _ _ _ _ (by omega), htake, List.getD_replicate _ (by omega)]
    · have hplace : 148 + 8 + (i - 156) = i := by omega
      rw [if_neg (by omega), List.getD_append_right _ _ _ _ (by omega), hfront,
        List.getD_eq_getElem?_getD, List.getElem?_drop, hplace, List.getD_eq_getElem?_getD]

theorem foldl_add_mod {m : ℕ} (l : List ℕ) {init : ℕ} (hinit : init < m) :
    l.foldl (fun c x => (c + x) % m) init = (init + l.sum) % m := by
  induction l generalizing init with
  | nil => exact (Nat.mod_eq_of_lt hinit).symm
  | cons x l ih =>
    rw [List.foldl_cons, ih (Nat.mod_lt _ (by omega)), List.sum_cons, Nat.mod_add_mod,
      Nat.add_assoc]

theorem calculateChksum_eq (hlen : header.length = 512) :
    calculateChksum header = ((spaced header).map UInt8.toNat).sum ∧
      calculateChksum header < 8 ^ 7 := by
  have hlist : ((range 512).map fun i =>
      if 148 ≤ i ∧ i < 156 then 0x20 else (header.getD i 0).toNat) =
        (spaced header).map UInt8.toNat := by
    apply List.ext_getElem
    · rw [length_map, length_map, List.length_range, length_spaced hlen]
    · intro i h₁ h₂
      have hi : i < (spaced header).length := by rwa [length_map] at h₂
      have hget := getD_spaced hlen i
      rw [List.getD_eq_getElem _ _ hi] at hget
      rw [List.getElem_map, List.getElem_map, List.getElem_range, hget]
      split <;> rfl
  have hle : ((spaced header).map UInt8.toNat).sum ≤ 512 * 255 := by
    have h := List.sum_le_card_nsmul ((spaced header).map UInt8.toNat) 255 fun x hx => by
      obtain ⟨b, -, rfl⟩ := List.mem_map.mp hx
      exact Nat.le_of_lt_succ b.toNat_lt
    rwa [length_map, length_spaced hlen, smul_eq_mul] at h
  have hsum : calculateChksum header = ((spaced header).map UInt8.toNat).sum := by
    rw [calculateChksum, ← List.foldl_map (g := fun c x => (c + x) % wordSize), hlist,
      foldl_add_mod _ (by decide), Nat.zero_add, Nat.mod_eq_of_lt]
    rw [wordSize]
    omega
  exact ⟨hsum, by omega⟩

theorem calcUstarChksum_eq (hlen : header.length = 512) :
    calcUstarChksum header = .ok (calculateChksum header) := by
  obtain ⟨heq, hsum⟩ := calculateChksum_eq hlen
  rw [calcUstarChksum, if_neg (not_not.mpr hlen), heq, Nat.mod_eq_of_lt]
  · rfl
  · rw [spaced] at heq
    omega

/-! ### Headers that describe a file -/

/-- **A header describes a file**: all that the decoders look at. -/
structure Describes (header : Bytes) (name : CString) (type : UstarType) (size : ℕ) :
    Prop where
  length : header.length = 512
  name_le : name.bytes.length ≤ 99
  name_eq : ustarLayout.get header .name = name.bytes ++ 0 :: replicate (99 - name.bytes.length) 0
  size_eq : ustarLayout.get header .size = octal 11 size ++ [0]
  chksum : ustarLayout.get header .chksum = octal 7 (calculateChksum header) ++ [0]
  typeflag : ustarLayout.get header .typeflag = [type.byte]
  magic : ustarLayout.get header .magic = [0x75, 0x73, 0x74, 0x61, 0x72, 0]
  version : ustarLayout.get header .version = [0x30, 0x30]
  namePrefix : ustarLayout.get header .namePrefix = replicate 155 0

open Record

section Describes

variable {header : Bytes} {name : CString} {type : UstarType} {size : ℕ}

theorem Describes.not_zeros (h : Describes header name type size) {b : UInt8}
    (hall : ∀ x ∈ header, x = b) : False := by
  have hmem : ∀ x ∈ ustarLayout.get header .magic, x = b := fun x hx =>
    hall x (List.mem_of_mem_drop (List.mem_of_mem_take hx))
  rw [h.magic] at hmem
  have h₁ := hmem 0x75 (by decide)
  have h₂ := hmem 0x73 (by decide)
  rw [← h₁] at h₂
  exact absurd h₂ (by decide)

theorem Describes.ustarParseHeader (h : Describes header name type size) (htype : type ≠ .eof)
    (hsize : size < 2 ^ 31) :
    ustarParseHeader header = .ok ⟨some name.strip, type,
      if type = .directory then 0 else size⟩ := by
  obtain ⟨-, hsum⟩ := calculateChksum_eq h.length
  have hzeros : header.all (· = 0) = false := by
    refine Bool.eq_false_iff.mpr fun hall => h.not_zeros (b := 0) fun x hx => ?_
    exact of_decide_eq_true (List.all_eq_true.mp hall x hx)
  have hchksum : parseOctalField (ustarLayout.get header .chksum) =
      some (calculateChksum header) := by
    rw [h.chksum]
    refine parseOctalField_octal (by decide) hsum (lt_trans hsum (by decide))
  have hparse : parseOctalField (ustarLayout.get header .size) = some size := by
    rw [h.size_eq]
    exact parseOctalField_octal (by decide) (lt_trans hsize (by decide))
      (lt_trans hsize (by decide))
  have hlast : (ustarLayout.get header .name).getD 99 0 = 0 := by
    rw [h.name_eq, ← List.replicate_succ, List.getD_append_right _ _ _ _ h.name_le,
      List.getD_replicate _ (by omega)]
  have hfirst : (ustarLayout.get header .namePrefix).getD 0 0 = 0 := by
    rw [h.namePrefix]
    rfl
  have hname : CString.ofArray (ustarLayout.get header .name) = name := by
    rw [h.name_eq]
    exact CString.ext (cstring_append name _)
  simp only [OsMaterial.ustarParseHeader]
  rw [hzeros, if_neg Bool.false_ne_true, if_neg (not_not.mpr h.magic),
    if_neg (not_not.mpr h.version), hchksum]
  dsimp only
  rw [if_neg (not_not.mpr rfl), if_neg (not_or.mpr ⟨not_not.mpr hlast, not_not.mpr hfirst⟩), hname,
    h.typeflag, hparse]
  cases type with
  | regular =>
    dsimp only
    rw [if_pos rfl, if_neg (by omega), if_neg (by decide)]
  | directory => rw [if_neg (by decide), if_pos rfl, if_pos rfl]
  | eof => exact absurd rfl htype

theorem Describes.getScratchFile (h : Describes header name .regular size) (hsize : size < 2 ^ 31) :
    getScratchFile header = .ok size := by
  obtain ⟨-, hsum⟩ := calculateChksum_eq h.length
  have hend : header ≠ replicate 512 0 := by
    rintro rfl
    exact h.not_zeros fun x hx => List.eq_of_mem_replicate hx
  have hmagic : substr header 257 6 = [0x75, 0x73, 0x74, 0x61, 0x72, 0] := h.magic
  have hversion : substr header 263 2 = [0x30, 0x30] := h.version
  have htypeflag : substr header 156 1 = [0x30] := h.typeflag
  have hchksum : perlOct (cstring (substr header 148 8)) = calculateChksum header := by
    have hfield : substr header 148 8 = octal 7 (calculateChksum header) ++ [0] := h.chksum
    rw [hfield, perlOct_octal (by decide) hsum]
  have hnumber : perlOct (cstring (substr header 124 12)) = size := by
    have hfield : substr header 124 12 = octal 11 size ++ [0] := h.size_eq
    rw [hfield, perlOct_octal (by decide) (lt_trans hsize (by decide))]
  have hbind : ∀ (x : ℕ) (f : ℕ → Except HostError ℕ), (Except.ok x >>= f) = f x := fun _ _ => rfl
  have hregular : ¬ ([0x30] ≠ [(0x30 : UInt8)] ∧ [0x30] ≠ [(0 : UInt8)]) := by decide
  simp only [OsMaterial.getScratchFile]
  rw [if_neg hend, if_neg (not_not.mpr hmagic), if_neg (not_not.mpr hversion),
    calcUstarChksum_eq h.length, hchksum, htypeflag, hnumber, hbind, if_neg (not_not.mpr rfl),
    if_neg hregular, if_neg (not_lt.mpr (Int.natCast_nonneg size))]
  rfl

/-! ### The encoders -/

theorem strlcpy_zeros (text : CString) (h : text.bytes.length < w) :
    strlcpy (replicate w 0) text = text.bytes ++ 0 :: replicate (w - 1 - text.bytes.length) 0 := by
  rw [strlcpy_eq (by rwa [length_replicate]), List.drop_replicate]
  congr 3
  omega

theorem strlcpy_octal (hw : 0 < w) (hn : n < 8 ^ w) :
    strlcpy (replicate (w + 1) 0) (octalText w n) = octal w n ++ [0] := by
  have hlen : (octalText w n).bytes.length = w := length_octal hw hn
  have hrest : w + 1 - 1 - (octalText w n).bytes.length = 0 := by omega
  rw [strlcpy_zeros _ (by omega), hrest]
  rfl

theorem calculateChksum_set (h : UstarHeader) (hdata : data.length = ustarLayout.width .chksum) :
    calculateChksum (h.set .chksum data hdata).flat = calculateChksum h.flat := by
  have hspaces : (replicate 8 (0x20 : UInt8)).length = ustarLayout.width .chksum := rfl
  have hspaced : ∀ g : UstarHeader,
      spaced g.flat = (g.set .chksum (replicate 8 0x20) hspaces).flat := fun g =>
    g.splice_flat hspaces
  have hlen : ∀ g : UstarHeader, g.flat.length = 512 := fun g => g.length_flat
  rw [(calculateChksum_eq (hlen _)).1, (calculateChksum_eq (hlen _)).1, hspaced, hspaced, set_set]

theorem describes_of_fields (h : UstarHeader) (hname : name.bytes.length ≤ 99)
    (hfield : h.field .name = name.bytes ++ 0 :: replicate (99 - name.bytes.length) 0)
    (hsize : h.field .size = octal 11 size ++ [0]) (htype : h.field .typeflag = [type.byte])
    (hmagic : h.field .magic = [0x75, 0x73, 0x74, 0x61, 0x72, 0])
    (hversion : h.field .version = [0x30, 0x30])
    (hnamePrefix : h.field .namePrefix = replicate 155 0)
    (hdata : data = octal 7 (calculateChksum h.flat) ++ [0])
    (hlen : data.length = ustarLayout.width .chksum) :
    Describes (h.set .chksum data hlen).flat name type size where
  length := length_flat _
  name_le := hname
  name_eq := by rw [get_flat, field_set_ne _ (by decide), hfield]
  size_eq := by rw [get_flat, field_set_ne _ (by decide), hsize]
  chksum := by rw [get_flat, field_set_self, calculateChksum_set, hdata]
  typeflag := by rw [get_flat, field_set_ne _ (by decide), htype]
  magic := by rw [get_flat, field_set_ne _ (by decide), hmagic]
  version := by rw [get_flat, field_set_ne _ (by decide), hversion]
  namePrefix := by rw [get_flat, field_set_ne _ (by decide), hnamePrefix]

theorem fillHeader_fields (name : CString) (type : UstarType) (size : ℕ) :
    (fillHeader name type size).field .name = strlcpy (replicate 100 0) name ∧
      (fillHeader name type size).field .size = strlcpy (replicate 12 0) (octalText 11 size) ∧
      (fillHeader name type size).field .typeflag = [type.byte] ∧
      (fillHeader name type size).field .magic = [0x75, 0x73, 0x74, 0x61, 0x72, 0] ∧
      (fillHeader name type size).field .version = [0x30, 0x30] ∧
      (fillHeader name type size).field .namePrefix = replicate 155 0 ∧
      (fillHeader name type size).field .chksum = replicate 8 0 :=
  ⟨rfl, rfl, rfl, rfl, rfl, rfl, rfl⟩

theorem ustarMakeHeader_spec (fileName : CString) (htype : type ≠ .eof) (hsize : size < 2 ^ 31) :
    (99 < fileName.strip.bytes.length ∧ ustarMakeHeader fileName type size = .ok none) ∨
      (fileName.strip.bytes.length ≤ 99 ∧ ∃ h, ustarMakeHeader fileName type size = .ok (some h) ∧
        Describes h.flat fileName.strip type size) := by
  rw [ustarMakeHeader, if_neg htype]
  dsimp only
  split
  · next hlong => exact Or.inl ⟨hlong, rfl⟩
  next hshort =>
  have hname : fileName.strip.bytes.length ≤ 99 := not_lt.mp hshort
  obtain ⟨hfield, hnumber, htypeflag, hmagic, hversion, hnamePrefix, hchksum⟩ :=
    fillHeader_fields fileName.strip type size
  obtain ⟨-, hsum⟩ := calculateChksum_eq (length_flat (fillHeader fileName.strip type size))
  refine Or.inr ⟨hname, _, rfl, describes_of_fields _ hname ?_ ?_ htypeflag hmagic hversion
    hnamePrefix ?_ _⟩
  · rw [hfield, strlcpy_zeros _ (by omega)]
  · rw [hnumber]
    exact strlcpy_octal (by decide) (lt_trans hsize (by decide))
  · rw [hchksum]
    exact strlcpy_octal (by decide) hsum

def hostFields (name : CString) (size : ℕ) : UstarField → Bytes
  | .name => name.bytes ++ 0 :: replicate (99 - name.bytes.length) 0
  | .mode => octal 7 0o644 ++ [0]
  | .uid => octal 7 0 ++ [0]
  | .gid => octal 7 0 ++ [0]
  | .size => octal 11 size ++ [0]
  | .mtime => octal 11 1136102400 ++ [0]
  | .chksum => replicate 8 0x20
  | .typeflag => [0x30]
  | .linkname => replicate 100 0
  | .magic => [0x75, 0x73, 0x74, 0x61, 0x72, 0]
  | .version => [0x30, 0x30]
  | .uname => [0x72, 0x6f, 0x6f, 0x74] ++ replicate 28 0
  | .gname => [0x72, 0x6f, 0x6f, 0x74] ++ replicate 28 0
  | .devmajor => replicate 8 0
  | .devminor => replicate 8 0
  | .namePrefix => replicate 155 0
  | .padding => replicate 12 0

theorem mkUstarField_eq (hw : 0 < w) (hn : n < 8 ^ w) :
    mkUstarField n (w + 1) = .ok (octal w n ++ [0]) := by
  have hlen : (octal (w + 1 - 1) n ++ [0]).length = w + 1 := by
    rw [length_append, Nat.add_sub_cancel, length_octal hw hn]
    rfl
  rw [mkUstarField, if_neg (not_not.mpr hlen), Nat.add_sub_cancel]

def hostHeader (name : CString) (size : ℕ) (hname : name.bytes.length ≤ 99)
    (hsize : size < 8 ^ 11) : UstarHeader where
  field := hostFields name size
  length_field f := by
    have hoctal : ∀ {w n}, 0 < w → n < 8 ^ w → (octal w n ++ [0]).length = w + 1 := by
      intro w n hw hn
      rw [length_append, length_octal hw hn]
      rfl
    cases f with
    | name =>
      have hlen :
          (name.bytes ++ 0 :: replicate (99 - name.bytes.length) 0).length = 100 := by
        rw [length_append, List.length_cons, length_replicate]
        omega
      exact hlen
    | mode => exact hoctal (by decide) (by decide)
    | uid => exact hoctal (by decide) (by decide)
    | gid => exact hoctal (by decide) (by decide)
    | size => exact hoctal (by decide) hsize
    | mtime => exact hoctal (by decide) (by decide)
    | _ => rfl

theorem hostHeader_flat (hname : name.bytes.length ≤ 99) (hsize : size < 8 ^ 11) :
    packA 100 name.bytes ++ (octal 7 0o644 ++ [0]) ++ (octal 7 0 ++ [0]) ++ (octal 7 0 ++ [0])
      ++ (octal 11 size ++ [0]) ++ (octal 11 1136102400 ++ [0]) ++ replicate 8 0x20 ++ [0x30]
      ++ replicate 100 0 ++ [0x75, 0x73, 0x74, 0x61, 0x72, 0] ++ [0x30, 0x30]
      ++ ([0x72, 0x6f, 0x6f, 0x74] ++ replicate 28 0)
      ++ ([0x72, 0x6f, 0x6f, 0x74] ++ replicate 28 0)
      ++ replicate 8 0 ++ replicate 8 0 ++ replicate 155 0 ++ replicate 12 0 =
        (hostHeader name size hname hsize).flat := by
  have hpack : packA 100 name.bytes =
      name.bytes ++ 0 :: replicate (99 - name.bytes.length) 0 := by
    have hpad : 100 - name.bytes.length = 99 - name.bytes.length + 1 := by omega
    rw [packA, List.take_of_length_le (by omega), hpad, List.replicate_succ]
  rw [hpack]
  simp only [flat, ustarLayout, hostHeader, hostFields, List.flatMap_cons,
    List.flatMap_nil, List.append_assoc, List.append_nil]

theorem putScratchFile_spec (hname : name.bytes.length ≤ 99) (hsize : size < 8 ^ 11) :
    ∃ header, putScratchFile name.bytes size = .ok header ∧
      Describes header name .regular size := by
  have hlen : (hostHeader name size hname hsize).flat.length = 512 := length_flat _
  obtain ⟨-, hsum⟩ := calculateChksum_eq hlen
  have hfield : (octal 7 (calculateChksum (hostHeader name size hname hsize).flat) ++ [0]).length =
      ustarLayout.width .chksum := by
    rw [length_append, length_octal (by decide) hsum]
    rfl
  have hbind : ∀ {α β : Type} (x : α) (f : α → Except HostError β), (Except.ok x >>= f) = f x :=
    fun _ _ => rfl
  refine ⟨((hostHeader name size hname hsize).set .chksum _ hfield).flat, ?_,
    describes_of_fields _ hname rfl rfl rfl rfl rfl rfl rfl hfield⟩
  simp only [putScratchFile]
  rw [if_neg (not_lt.mpr hname)]
  have hmode : mkUstarField 0o644 8 = .ok (octal 7 0o644 ++ [0]) :=
    mkUstarField_eq (by decide) (by decide)
  have hid : mkUstarField 0 8 = .ok (octal 7 0 ++ [0]) := mkUstarField_eq (by decide) (by decide)
  have hnumber : mkUstarField size 12 = .ok (octal 11 size ++ [0]) :=
    mkUstarField_eq (by decide) hsize
  have hmtime : mkUstarField 1136102400 12 = .ok (octal 11 1136102400 ++ [0]) :=
    mkUstarField_eq (by decide) (by decide)
  have hchksum : mkUstarField (calculateChksum (hostHeader name size hname hsize).flat) 8 =
      .ok (octal 7 (calculateChksum (hostHeader name size hname hsize).flat) ++ [0]) :=
    mkUstarField_eq (by decide) hsum
  simp only [hmode, hid, hnumber, hmtime, hbind, hostHeader_flat hname hsize,
    calcUstarChksum_eq hlen, hchksum]
  exact congrArg Except.ok (splice_flat _ hfield)

end Describes

/-- **The encoders and the decoders agree**: the kernel reads what the kernel and the host write,
and the host reads what the kernel writes. -/
theorem ustar_headers_agree (name : CString) {size : ℕ} (hsize : size < 2 ^ 31) :
    (∀ type, type ≠ .eof →
      (ustarMakeHeader name type size = .ok none ∨
        ∃ h, ustarMakeHeader name type size = .ok (some h)) ∧
      (ustarMakeHeader name type size = .ok none ↔
        99 < (stripAntisocialPrefixes name.bytes).length) ∧
      ∀ h, ustarMakeHeader name type size = .ok (some h) →
        ustarParseHeader h.flat = .ok ⟨some name.strip, type,
          if type = .directory then 0 else size⟩) ∧
    (name.bytes.length ≤ 99 → ∃ header, putScratchFile name.bytes size = .ok header ∧
      ustarParseHeader header = .ok ⟨some name.strip, .regular, size⟩) ∧
    ∀ h, ustarMakeHeader name .regular size = .ok (some h) → getScratchFile h.flat = .ok size := by
  refine ⟨fun type htype => ?_, fun hname => ?_, fun h hmake => ?_⟩
  · obtain ⟨hlong, hmake⟩ | ⟨hshort, h, hmake, hdesc⟩ := ustarMakeHeader_spec name htype hsize
    · refine ⟨Or.inl hmake, ⟨fun _ => hlong, fun _ => hmake⟩, fun h hsome => ?_⟩
      rw [hmake] at hsome
      cases hsome
    · have hparse := hdesc.ustarParseHeader htype hsize
      rw [CString.strip_strip] at hparse
      refine ⟨Or.inr ⟨h, hmake⟩, ⟨fun hnone => ?_, fun hlong => ?_⟩, fun h' hsome => ?_⟩
      · rw [hmake] at hnone
        cases hnone
      · exact absurd hlong (not_lt.mpr hshort)
      · rw [hmake] at hsome
        cases hsome
        exact hparse
  · obtain ⟨header, hput, hdesc⟩ := putScratchFile_spec hname (hsize.trans (by decide))
    exact ⟨header, hput, hdesc.ustarParseHeader (by decide) hsize⟩
  · have htype : UstarType.regular ≠ .eof := by decide
    obtain ⟨-, hnone⟩ | ⟨-, h', hsome, hdesc⟩ := ustarMakeHeader_spec name htype hsize
    · rw [hnone] at hmake
      cases hmake
    · rw [hsome] at hmake
      cases hmake
      exact hdesc.getScratchFile hsize

/-- The name `../a` is stored as `a`. -/
theorem ustar_headers_agree_parentDir :
    (∃ h, ustarMakeHeader ⟨[0x2e, 0x2e, 0x2f, 0x61], by decide⟩ .regular 700 = .ok (some h) ∧
      ustarParseHeader h.flat = .ok ⟨some ⟨[0x61], by decide⟩, .regular, 700⟩ ∧
        getScratchFile h.flat = .ok 700) ∧
      ∃ header, putScratchFile [0x2e, 0x2e, 0x2f, 0x61] 700 = .ok header ∧
        ustarParseHeader header = .ok ⟨some ⟨[0x61], by decide⟩, .regular, 700⟩ := by
  have hagree := ustar_headers_agree ⟨[0x2e, 0x2e, 0x2f, 0x61], by decide⟩
    (show 700 < 2 ^ 31 by decide)
  have hstrip : CString.strip ⟨[0x2e, 0x2e, 0x2f, 0x61], by decide⟩ = ⟨[0x61], by decide⟩ := by
    decide
  obtain ⟨hmade, hnone, hparse⟩ := hagree.1 .regular (by decide)
  obtain hfail | ⟨h, hsome⟩ := hmade
  · exact absurd (hnone.mp hfail) (by decide)
  · have hheader := hparse h hsome
    obtain ⟨header, hput, hread⟩ := hagree.2.1 (by decide)
    rw [hstrip] at hheader hread
    exact ⟨⟨h, hsome, hheader, hagree.2.2 h hsome⟩, header, hput, hread⟩

end OsMaterial
