import OsMaterial.StringFunctions
import OsMaterial.Ustar

/-!
# Corrupt Headers and Harmful Names

The checksum of a ustar header changes with every other byte. The names of an archive are read byte
by byte, in the array of the name and its null (`stripPrefixes`): a read past its end has no result.

* `ustar_detects_corruption`: **a header with one byte changed** is refused.
* `strip_prefixes_harmless`: **a stripped name** stays below the directory.
* `octal_field_grammar`: **which octal fields** are read.
-/

namespace OsMaterial

open List

/-! ### Corrupt headers -/

theorem sum_toNat_set {l : Bytes} {k : ℕ} (hk : k < l.length) (v : UInt8) :
    ((l.set k v).map UInt8.toNat).sum + (l.getD k 0).toNat = (l.map UInt8.toNat).sum + v.toNat := by
  induction l generalizing k with
  | nil => exact absurd hk (Nat.not_lt_zero k)
  | cons x l ih =>
    cases k with
    | zero =>
      simp only [set_cons_zero, map_cons, sum_cons, getD_cons_zero]
      omega
    | succ k =>
      have htail := ih (Nat.lt_of_succ_lt_succ hk)
      simp only [set_cons_succ, map_cons, sum_cons, getD_cons_succ]
      omega

variable {header : Bytes} {entry : UstarEntry} {k : ℕ} {v : UInt8}

theorem ustarParseHeader_ok (h : ustarParseHeader header = .ok entry) :
    (∀ x ∈ header, x = 0) ∧ entry.type = .eof ∨
      ustarLayout.get header .magic = [0x75, 0x73, 0x74, 0x61, 0x72, 0] ∧
        parseOctalField (ustarLayout.get header .chksum) = some (calculateChksum header) := by
  rw [ustarParseHeader] at h
  split at h
  · next hzeros =>
    obtain rfl := Except.ok.inj h
    exact .inl ⟨fun x hx => of_decide_eq_true (all_eq_true.mp hzeros x hx), rfl⟩
  · split at h
    · cases h
    · next hmagic =>
      split at h
      · cases h
      · split at h
        · cases h
        · next chksum hparse =>
          split at h
          · cases h
          · next hsum => exact .inr ⟨not_not.mp hmagic, by rw [hparse, not_not.mp hsum]⟩

theorem calculateChksum_set_ne (hlen : header.length = 512) (hk : k < 512)
    (hfield : ¬ (148 ≤ k ∧ k < 156)) (hv : v ≠ header.getD k 0) :
    calculateChksum (header.set k v) ≠ calculateChksum header := by
  have hlen' : (header.set k v).length = 512 := by rw [length_set, hlen]
  have hspaced : spaced (header.set k v) = (spaced header).set k v := by
    refine ext_getElem (by rw [length_spaced hlen', length_set, length_spaced hlen]) ?_
    intro i hi hi'
    have hsame : ∀ l : Bytes, l.length = 512 →
        (l.set k v).getD i 0 = if k = i then v else l.getD i 0 := fun l hl => by
      rw [getD_eq_getElem?_getD, getElem?_set, getD_eq_getElem?_getD]
      split_ifs <;> first | rfl | omega
    rw [← getD_eq_getElem _ 0 hi, ← getD_eq_getElem _ 0 hi', getD_spaced hlen',
      hsame _ hlen, hsame _ (length_spaced hlen), getD_spaced hlen]
    split_ifs <;> first | rfl | omega
  intro heq
  rw [(calculateChksum_eq hlen').1, (calculateChksum_eq hlen).1, hspaced] at heq
  have hsum := sum_toNat_set (k := k) ((length_spaced hlen).symm ▸ hk) v
  rw [getD_spaced hlen, if_neg hfield] at hsum
  exact hv (UInt8.toNat_inj.mp (by omega))

/-- **A corrupt header is refused.** A block that is accepted as a file or a directory, with one
byte outside the checksum field changed, is neither accepted nor the end of the archive. -/
theorem ustar_detects_corruption (hlen : header.length = 512)
    (h : ustarParseHeader header = .ok entry) (htype : entry.type ≠ .eof) (hk : k < 512)
    (hfield : ¬ (148 ≤ k ∧ k < 156)) (hv : v ≠ header.getD k 0) :
    ∃ e, ustarParseHeader (header.set k v) = .error e := by
  obtain ⟨-, heof⟩ | ⟨hmagic, hchksum⟩ := ustarParseHeader_ok h
  · exact absurd heof htype
  cases hparse : ustarParseHeader (header.set k v) with
  | error e => exact ⟨e, rfl⟩
  | ok entry' =>
    exfalso
    obtain ⟨hzeros, -⟩ | ⟨-, hchksum'⟩ := ustarParseHeader_ok hparse
    · -- two letters of the magic number cannot both be the byte that changed
      have hat (i : ℕ) (hi : i < 6) :
          header[257 + i]? = ([0x75, 0x73, 0x74, 0x61, 0x72, 0] : Bytes)[i]? := by
        rw [← hmagic]
        change _ = ((header.drop 257).take 6)[i]?
        rw [getElem?_take, if_pos hi, getElem?_drop]
      have hzero {i : ℕ} (hne : k ≠ i) {x : UInt8} (hx : header[i]? = some x) : x = 0 :=
        hzeros x (mem_of_getElem? (by rw [getElem?_set_ne hne, hx]))
      by_cases hfirst : k = 257
      · exact absurd (hzero (by omega) (hat 1 (by omega))) (by decide)
      · exact absurd (hzero hfirst (hat 0 (by omega))) (by decide)
    · have hget : ustarLayout.get (header.set k v) .chksum = ustarLayout.get header .chksum := by
        change ((header.set k v).drop 148).take 8 = (header.drop 148).take 8
        rw [drop_set]
        split
        · rfl
        · rw [take_set, set_eq_of_length_le]
          rw [length_take]
          omega
      rw [hget, hchksum] at hchksum'
      exact calculateChksum_set_ne hlen hk hfield hv (Option.some.inj hchksum').symm

/-- A byte of the header of a directory is changed. -/
theorem ustar_detects_corruption_made : ∃ header entry, ustarParseHeader header = .ok entry ∧
    entry.type = .directory ∧
      ∃ e, ustarParseHeader (header.set 500 (header.getD 500 0 + 1)) = .error e := by
  obtain ⟨hlong, -⟩ | ⟨-, h, -, hdesc⟩ :=
    ustarMakeHeader_spec ⟨[0x61], by decide⟩ (by decide : UstarType.directory ≠ .eof)
      (Nat.two_pow_pos 31)
  · exact absurd hlong (by decide)
  · have hparse := hdesc.ustarParseHeader (by decide) (Nat.two_pow_pos _)
    exact ⟨_, _, hparse, rfl, ustar_detects_corruption hdesc.length hparse (by decide) (by decide)
      (by decide) (by simp)⟩

/-! ### Harmful names -/

def memcmpEqual : Bytes → Bytes → Option Bool
  | _, [] => some true
  | [], _ :: _ => none
  | x :: a, y :: b => if x ≠ y then some false else memcmpEqual a b

def strcmpEqual : Bytes → Bytes → Option Bool
  | x :: a, y :: b => if x ≠ 0 ∧ x = y then strcmpEqual a b else some (x = y)
  | _, _ => none

def stripTest (fileName : Bytes) : Option Bool :=
  fileName.head?.bind fun c =>
    if c = 0x2f then some true
    else (memcmpEqual fileName [0x2e, 0x2f]).bind fun equal =>
      if equal then some true else memcmpEqual fileName [0x2e, 0x2e, 0x2f]

def stripRun : ℕ → Bytes → Option Bytes
  | 0, _ => none
  | fuel + 1, fileName =>
    (stripTest fileName).bind fun again =>
      if again then
        (strchr 0x2f fileName).bind fun slash =>
          slash.bind fun slash => stripRun fuel (slash.drop 1)
      else
        some fileName

/-- `strip_antisocial_prefixes`, byte by byte: the string that is returned. -/
def stripPrefixes (fuel : ℕ) (fileName : CString) : Option Bytes :=
  (stripRun fuel (fileName.bytes ++ [0])).bind fun name =>
    name.head?.bind fun c =>
      if c = 0 then some [0x2e]
      else (strcmpEqual name [0x2e, 0x2e, 0]).map fun equal =>
        if equal then [0x2e] else cstring name

theorem memcmpEqual_eq (name : Bytes) {lit : Bytes} (h0 : 0 ∉ lit) :
    memcmpEqual (name ++ [0]) lit = some (decide (name.take lit.length = lit)) := by
  induction lit generalizing name with
  | nil => simp [memcmpEqual]
  | cons y lit ih =>
    obtain ⟨hy, h0⟩ := not_or.mp (mem_cons.not.mp h0)
    cases name with
    | nil => simp [memcmpEqual, hy]
    | cons x name =>
      by_cases hxy : x = y
      · simp [memcmpEqual, hxy, ih name h0]
      · simp [memcmpEqual, hxy]

theorem stripTest_eq (name : Bytes) : stripTest (name ++ [0]) = some (antisocial name) := by
  rw [stripTest, memcmpEqual_eq name (by decide), memcmpEqual_eq name (by decide), antisocial,
    Bool.decide_or, Bool.decide_or]
  cases name with
  | nil => rfl
  | cons c name =>
    have htest (b₂ b₃ : Bool) :
        (if c = 0x2f then some true
          else (some b₂).bind fun equal => if equal then some true else some b₃) =
          some (decide ((c :: name).take 1 = [0x2f]) || (b₂ || b₃)) := by
      by_cases hc : c = 0x2f <;> cases b₂ <;> simp [hc]
    exact htest _ _

variable {name : Bytes}

theorem slash_mem (h : antisocial name = true) : 0x2f ∈ name := by
  simp only [antisocial, decide_eq_true_eq] at h
  obtain h | h | h := h
  · exact mem_of_mem_take (show _ ∈ name.take 1 by rw [h]; decide)
  · exact mem_of_mem_take (show _ ∈ name.take 2 by rw [h]; decide)
  · exact mem_of_mem_take (show _ ∈ name.take 3 by rw [h]; decide)

theorem strchr_slash (h0 : 0 ∉ name) (hmem : 0x2f ∈ name) :
    strchr 0x2f (name ++ [0]) = some (some (name.dropWhile (· ≠ 0x2f) ++ [0])) := by
  induction name with
  | nil => cases hmem
  | cons c name ih =>
    obtain ⟨hc, h0⟩ := not_or.mp (mem_cons.not.mp h0)
    by_cases hslash : c = 0x2f
    · simp [strchr, hslash]
    · have := ih h0 ((mem_cons.mp hmem).resolve_left (Ne.symm hslash))
      simpa [strchr, hslash, Ne.symm hc] using this

variable {fuel : ℕ}

theorem stripRun_eq (h0 : 0 ∉ name) (hfuel : name.length < fuel) :
    stripRun fuel (name ++ [0]) = some (stripLoop name.length name ++ [0]) := by
  -- `stripLoop` may have any fuel from the length on
  suffices h : ∀ n, name.length ≤ n →
      stripRun fuel (name ++ [0]) = some (stripLoop n name ++ [0]) from h _ le_rfl
  induction fuel generalizing name with
  | zero => omega
  | succ fuel ih =>
    intro n hn
    rw [stripRun, stripTest_eq, Option.bind_some]
    by_cases h : antisocial name = true
    · have hlt := length_strip_lt h
      obtain ⟨n, rfl⟩ : ∃ m, n = m + 1 := ⟨n - 1, by omega⟩
      have hne : name.dropWhile (· ≠ 0x2f) ≠ [] := fun hnil =>
        absurd (dropWhile_eq_nil_iff.mp hnil _ (slash_mem h)) (by decide)
      have hpos : 1 ≤ (name.dropWhile (· ≠ 0x2f)).length := length_pos_iff.mpr hne
      rw [if_pos h, strchr_slash h0 (slash_mem h), Option.bind_some, Option.bind_some,
        drop_append_of_le_length hpos, stripLoop, if_pos h]
      refine ih (fun hmem => h0 ?_) (by omega) n (by omega)
      exact (dropWhile_suffix _).mem (mem_of_mem_drop hmem)
    · rw [if_neg h, stripLoop_of_clean n (Bool.eq_false_iff.mpr h)]

theorem strcmpEqual_eq (name lit : Bytes) (h0 : 0 ∉ name) (h0' : 0 ∉ lit) :
    strcmpEqual (name ++ [0]) (lit ++ [0]) = some (decide (name = lit)) := by
  induction name generalizing lit with
  | nil => cases lit <;> simp_all [strcmpEqual]
  | cons x name ih =>
    obtain ⟨hx, h0⟩ := not_or.mp (mem_cons.not.mp h0)
    cases lit with
    | nil => simp [strcmpEqual, Ne.symm hx]
    | cons y lit =>
      by_cases hxy : x = y
      · obtain ⟨-, h0'⟩ := not_or.mp (mem_cons.not.mp h0')
        simpa [strcmpEqual, hxy, hxy ▸ Ne.symm hx] using ih lit h0 h0'
      · simp [strcmpEqual, hxy]

theorem stripPrefixes_eq (fileName : CString) (hfuel : fileName.bytes.length < fuel) :
    stripPrefixes fuel fileName = some fileName.strip.bytes := by
  have h0 : 0 ∉ stripLoop fileName.bytes.length fileName.bytes := fun hmem =>
    fileName.nul_notMem ((stripLoop_suffix _ _).mem hmem)
  change _ = some (stripAntisocialPrefixes fileName.bytes)
  simp only [stripPrefixes, stripRun_eq fileName.nul_notMem hfuel, Option.bind_some,
    stripAntisocialPrefixes]
  generalize stripLoop fileName.bytes.length fileName.bytes = name at h0 ⊢
  cases name with
  | nil => rfl
  | cons c name =>
    have hc : c ≠ 0 := fun hc => h0 (hc ▸ mem_cons_self)
    have hhead : (c :: name ++ [0]).head? = some c := rfl
    have hdots : strcmpEqual (c :: name ++ [0]) [0x2e, 0x2e, 0] =
        some (decide (c :: name = [0x2e, 0x2e])) := strcmpEqual_eq _ [0x2e, 0x2e] h0 (by decide)
    rw [hhead, Option.bind_some, if_neg hc, hdots, cstring_append ⟨_, h0⟩, Option.map_some]
    by_cases h : c :: name = [0x2e, 0x2e]
    · rw [decide_eq_true h, if_pos rfl, if_pos (.inr h)]
    · rw [decide_eq_false h, if_neg Bool.false_ne_true, if_neg (by simpa using h)]

/-- **A stripped name is harmless**: not empty, not `..`, and without `/`, `./` or `../` in front.
-/
theorem strip_prefixes_harmless {fuel : ℕ} (fileName : CString)
    (hfuel : fileName.bytes.length < fuel) :
    ∃ name : CString, stripPrefixes fuel fileName = some name.bytes ∧
      (name.bytes = [0x2e] ∨ name.bytes <:+ fileName.bytes) ∧ name.bytes ≠ [] ∧
      name.bytes ≠ [0x2e, 0x2e] ∧ ¬ [0x2f] <+: name.bytes ∧ ¬ [0x2e, 0x2f] <+: name.bytes ∧
      ¬ [0x2e, 0x2e, 0x2f] <+: name.bytes ∧
      stripPrefixes (name.bytes.length + 1) name = some name.bytes := by
  have hagain := stripPrefixes_eq fileName.strip (Nat.lt_succ_self _)
  rw [CString.strip_strip] at hagain
  refine ⟨fileName.strip, stripPrefixes_eq fileName hfuel, ?_⟩
  suffices h : (fileName.strip.bytes = [0x2e] ∨ fileName.strip.bytes <:+ fileName.bytes) ∧
      fileName.strip.bytes ≠ [] ∧ fileName.strip.bytes ≠ [0x2e, 0x2e] ∧
      antisocial fileName.strip.bytes = false by
    simp only [antisocial, decide_eq_false_iff_not, not_or] at h
    simp only [prefix_iff_eq_take, eq_comm (b := take _ _)]
    exact ⟨h.1, h.2.1, h.2.2.1, h.2.2.2.1, h.2.2.2.2.1, h.2.2.2.2.2, hagain⟩
  change (stripAntisocialPrefixes fileName.bytes = _ ∨
      stripAntisocialPrefixes fileName.bytes <:+ _) ∧
    stripAntisocialPrefixes fileName.bytes ≠ _ ∧ stripAntisocialPrefixes fileName.bytes ≠ _ ∧
    antisocial (stripAntisocialPrefixes fileName.bytes) = false
  simp only [stripAntisocialPrefixes]
  split
  · exact ⟨.inl rfl, by decide, by decide, by decide⟩
  · next hne =>
    exact ⟨.inr (stripLoop_suffix _ _), fun h => hne (.inl h), fun h => hne (.inr h),
      antisocial_stripLoop le_rfl⟩

/-- The name `../a`. -/
theorem strip_prefixes_harmless_parent : ∃ name : CString,
    stripPrefixes 9 ⟨[0x2e, 0x2e, 0x2f, 0x61], by decide⟩ = some name.bytes ∧ name.bytes ≠ [] := by
  obtain ⟨name, hname, -, hne, -⟩ :=
    strip_prefixes_harmless ⟨[0x2e, 0x2e, 0x2f, 0x61], by decide⟩ (show _ < 9 by decide)
  exact ⟨name, hname, hne⟩

/-! ### Octal fields -/

/-- The loop of `parse_octal_field` on an array, without a result if a read is outside of it. -/
def parseOctalRounds (s : Bytes) : ℕ → ℕ → ℕ → Option (Option ℕ)
  | 0, _, _ => some none
  | rounds + 1, ofs, value =>
    match s[ofs]? with
    | none => none
    | some c =>
      if 0x30 ≤ c ∧ c ≤ 0x37 then
        if value > (wordSize - 1) / 8 then some none
        else parseOctalRounds s rounds (ofs + 1) ((c.toNat - 0x30 + value * 8) % wordSize)
      else if c = 0x20 ∨ c = 0 then
        some (if ofs > 0 then some value else none)
      else some none

theorem parseOctalRounds_eq (before s : Bytes) (value : ℕ) :
    parseOctalRounds (before ++ s) s.length before.length value =
      some (parseOctalLoop s before.length value) := by
  induction s generalizing before value with
  | nil => rfl
  | cons c s ih =>
    have hnext := ih (before ++ [c])
    rw [append_assoc, length_append] at hnext
    rw [length_cons, parseOctalRounds, parseOctalLoop, getElem?_append_right le_rfl,
      Nat.sub_self, getElem?_cons_zero]
    dsimp only
    split_ifs
    · rfl
    · exact hnext _
    all_goals rfl

theorem digits_of_parseOctalLoop {s : Bytes} {ofs value v : ℕ} (hvalue : value < wordSize)
    (h : parseOctalLoop s ofs value = some v) :
    ∃ digits c rest, s = digits.map octalDigit ++ c :: rest ∧ 0 < ofs + digits.length ∧
      (∀ d ∈ digits, d < 8) ∧ (c = 0x20 ∨ c = 0) ∧ v = readOctal value digits ∧ v < wordSize := by
  induction s generalizing ofs value with
  | nil => cases h
  | cons c s ih =>
    rw [parseOctalLoop] at h
    split_ifs at h with hdigit hbig hend hofs
    · obtain ⟨hge, hle⟩ := hdigit
      have hw : wordSize = 4294967296 := rfl
      change 48 ≤ c.toNat at hge
      change c.toNat ≤ 55 at hle
      have hnext : c.toNat - 0x30 + value * 8 < wordSize := by omega
      rw [Nat.mod_eq_of_lt hnext] at h
      obtain ⟨digits, e, rest, rfl, -, hd, hrest⟩ := ih hnext h
      refine ⟨(c.toNat - 0x30) :: digits, e, rest, ?_, Nat.succ_pos _,
        forall_mem_cons.mpr ⟨by omega, hd⟩, hrest⟩
      have hc : octalDigit (c.toNat - 0x30) = c := by
        rw [octalDigit, Nat.add_sub_cancel' hge]
        exact UInt8.ofNat_toNat
      rw [map_cons, hc, cons_append]
    · exact ⟨[], c, s, rfl, hofs, forall_mem_nil _, hend, (Option.some.inj h).symm,
        Option.some.inj h ▸ hvalue⟩

/-- **Octal fields**: octal digits, at least one, and a space or a null, of a value that fits a
word. -/
theorem octal_field_grammar (s : Bytes) (v : ℕ) :
    parseOctalRounds s s.length 0 0 = some (parseOctalField s) ∧
      (parseOctalField s = some v ↔ ∃ digits c rest, s = digits.map octalDigit ++ c :: rest ∧
        digits ≠ [] ∧ (∀ d ∈ digits, d < 8) ∧ (c = 0x20 ∨ c = 0) ∧ v = readOctal 0 digits ∧
        v < wordSize) := by
  refine ⟨parseOctalRounds_eq [] s 0, fun h => ?_, ?_⟩
  · obtain ⟨digits, c, rest, hs, hpos, hrest⟩ := digits_of_parseOctalLoop (Nat.two_pow_pos 32) h
    exact ⟨digits, c, rest, hs, by rintro rfl; exact absurd hpos (by decide), hrest⟩
  · rintro ⟨digits, c, rest, rfl, hne, hd, hc, rfl, hlt⟩
    exact parseOctalLoop_digits hd hc rest (by rwa [Nat.zero_add, length_pos_iff]) hlt

end OsMaterial
