import OsMaterial.Calls
import OsMaterial.Words

/-!
# The Parser of the Shell

`lab_1/code/parse.c`: the tokens of a line go to static buffers, their bytes to `cbuf`, the argument
vectors to `pbuf`, and a node of `cmdbuf` for each program; they are rewound, but not cleared. A
pointer into the line is the rest of the line, and one into a buffer an index, with every access
checked (`LshFault`).

* `nexttoken_spec`: the tokenizer returns the next token exactly when it fits into `cbuf`.
* `acmd_spec`: a program is read up to the next special character.
-/

namespace OsMaterial

open List

/-! ### Characters -/

def isSpace (c : UInt8) : Bool := c = 0x20 || (0x09 ≤ c && c ≤ 0x0d)

def isAlnum (c : UInt8) : Bool :=
  (0x30 ≤ c && c ≤ 0x39) || (0x41 ≤ c && c ≤ 0x5a) || (0x61 ≤ c && c ≤ 0x7a)

def isSpec (c : UInt8) : Bool := c = 0x7c || c = 0x26 || c = 0x3c || c = 0x3e

def idChars : Bytes := [0x5f, 0x2d, 0x2e, 0x2c, 0x2f, 0x7e, 0x2b]

/-! ### The parser -/

structure Pgm where
  pgmlist : Option ℕ
  next : Option ℕ

structure Command where
  pgm : Option ℕ
  rstdin : Option ℕ
  rstdout : Option ℕ
  rstderr : Option ℕ
  background : Bool

inductive LshMessage where
  | illegalBackgrounding
  | duplicateStdin
  | duplicateStdout
  | illegalFilename (name : ℕ)

structure Lsh where
  cmdbuf : ℕ → Pgm
  cmds : Option ℕ
  cbuf : ℕ → UInt8
  cp : ℕ
  pbuf : ℕ → Option ℕ
  pp : ℕ
  stderr : List LshMessage

def Lsh.zero : Lsh where
  cmdbuf := fun _ => ⟨none, none⟩
  cmds := none
  cbuf := fun _ => 0
  cp := 0
  pbuf := fun _ => none
  pp := 0
  stderr := []

inductive LshFault where
  | cbuf
  | pbuf
  | nullCmd
  | endless

abbrev Parse (α : Type) : Type := Call LshFault Lsh α

def init : Parse Unit := modify fun s => { s with
  cmdbuf := fun i => { s.cmdbuf i with next := if i < 19 then some (i + 1) else none }
  cmds := some 0
  cp := 0
  pp := 0 }

def storeChar (c : UInt8) : Parse Unit := do
  let s ← get
  assert (s.cp < 256) .cbuf
  set { s with cbuf := patch s.cbuf s.cp [c], cp := s.cp + 1 }

def loadChar (p : ℕ) : Parse UInt8 := do
  let s ← get
  assert (p < 256) .cbuf
  return s.cbuf p

def storeArg (tok : Option ℕ) : Parse Unit := do
  let s ← get
  assert (s.pp < 50) .pbuf
  set { s with pbuf := Function.update s.pbuf s.pp tok, pp := s.pp + 1 }

/-- The copying loop of `nexttoken`, which copies the character behind the token too: how many
characters it reads. -/
def copyToken : Bytes → Parse ℕ
  | [] => do
      storeChar 0
      return 1
  | c :: s => do
      storeChar c
      if isSpace c ∨ isSpec c ∨ c = 0 then
        return 1
      else
        return (← copyToken s) + 1

/-- `nexttoken`, on a line of less than 2³¹ bytes: the source returns the consumed bytes as an
`int`. -/
def nexttoken (s : Bytes) : Parse (ℕ × ℕ) := do
  let tok := (← get).cp
  let spaces := (s.takeWhile isSpace).length
  match s.drop spaces with
  | [] => return (0, tok)
  | c :: s =>
    if c = 0 then
      return (0, tok)
    else if isSpec c then
      storeChar c
      storeChar 0
      return (spaces + 1, tok)
    else
      storeChar c
      let n ← copyToken s
      modify fun st => { st with cp := st.cp - 1 }
      storeChar 0
      return (spaces + 1 + n - 1, tok)

def stops (n tok : ℕ) : Parse Bool :=
  if n = 0 then pure true else isSpec <$> loadChar tok

def acmdNext : ℕ → Bytes → ℕ → Parse ℕ
  | 0, _, _ => throw .endless
  | fuel + 1, s, cnt => do
      let (n, tok) ← nexttoken s
      if ← stops n tok then
        storeArg none
        return cnt
      else
        storeArg (some tok)
        acmdNext fuel (s.drop n) (cnt + n)

def acmd (s : Bytes) : Parse (ℕ × ℕ) := do
  let st ← get
  match st.cmds with
  | none => throw .nullCmd
  | some cmd0 =>
    set { st with
      cmds := (st.cmdbuf cmd0).next
      cmdbuf := Function.update st.cmdbuf cmd0 ⟨some st.pp, none⟩ }
    return (← acmdNext (s.length + 1) s 0, cmd0)

def isIdentifierFrom : ℕ → ℕ → Parse Bool
  | 0, _ => throw .endless
  | fuel + 1, s => do
      let c ← loadChar s
      if c = 0 then
        return true
      else if isAlnum c || idChars.contains c then
        isIdentifierFrom fuel (s + 1)
      else
        return false

def isidentifier (s : ℕ) : Parse Bool := isIdentifierFrom 257 s

def complain (message : LshMessage) : Parse Unit :=
  modify fun s => { s with stderr := s.stderr ++ [message] }

inductive Label where
  | newcmd
  | newtoken

inductive Redir where
  | rin
  | rut
  deriving DecidableEq

def Command.file (c : Command) : Redir → Option ℕ
  | .rin => c.rstdin
  | .rut => c.rstdout

def Command.setFile (c : Command) (tok : ℕ) : Redir → Command
  | .rin => { c with rstdin := some tok }
  | .rut => { c with rstdout := some tok }

def Redir.duplicate : Redir → LshMessage
  | .rin => .duplicateStdin
  | .rut => .duplicateStdout

inductive Jump where
  | ret (value : ℤ) (c : Command)
  | goto (label : Label) (t : Bytes) (c : Command)

def Lsh.setNext (s : Lsh) (cmd0 : ℕ) (next : Option ℕ) : Lsh :=
  { s with cmdbuf := Function.update s.cmdbuf cmd0 { s.cmdbuf cmd0 with next } }

def newcmd (t : Bytes) (c : Command) : Parse Jump := do
  let (n, cmd0) ← acmd t
  if n = 0 then
    return .ret (-1) c
  else
    modify fun s => s.setNext cmd0 c.pgm
    return .goto .newtoken (t.drop n) { c with pgm := some cmd0 }

/-- The cases `RIN` and `RUT` of `parse`. What `nexttoken` returns is never negative, so that the
test of it does nothing; in particular `n` may be zero. -/
def redirect (r : Redir) (t : Bytes) (c : Command) : Parse Jump := do
  if (c.file r).isSome then
    complain r.duplicate
    return .ret (-1) c
  else
    let (n, tok) ← nexttoken t
    let c := c.setFile tok r
    if ← isidentifier tok then
      return .goto .newtoken (t.drop n) c
    else
      complain (.illegalFilename tok)
      return .ret (-1) c

def switchToken (first : UInt8) (t : Bytes) (c : Command) : Parse Jump := do
  if first = 0x7c then
    return .goto .newcmd t c
  else if first = 0x26 then
    let (n, _) ← nexttoken t
    if n = 0 then
      return .ret 1 { c with background := true }
    else
      complain .illegalBackgrounding
      return .ret (-1) c
  else if first = 0x3c then
    redirect .rin t c
  else if first = 0x3e then
    redirect .rut t c
  else
    return .ret (-1) c

def newtoken (t : Bytes) (c : Command) : Parse Jump := do
  let (n, tok) ← nexttoken t
  if n = 0 then
    return .ret 1 c
  else
    switchToken (← loadChar tok) (t.drop n) c

def atLabel : Label → Bytes → Command → Parse Jump
  | .newcmd => newcmd
  | .newtoken => newtoken

def parseLoop : ℕ → Label → Bytes → Command → Parse (ℤ × Command)
  | 0, _, _, _ => throw .endless
  | fuel + 1, label, t, c => do
      match ← atLabel label t c with
      | .ret value c => return (value, c)
      | .goto label t c => parseLoop fuel label t c

def parse (buf : Bytes) : Parse (ℤ × Command) := do
  init
  parseLoop (2 * buf.length + 2) .newcmd buf ⟨none, none, none, none, false⟩

/-! ### Tokens -/

inductive Token where
  | word (text : Bytes)
  | pipe
  | bg
  | redir (r : Redir)

def Redir.char : Redir → UInt8
  | .rin => 0x3c
  | .rut => 0x3e

def Token.text : Token → Bytes
  | .word text => text
  | .pipe => [0x7c]
  | .bg => [0x26]
  | .redir r => [r.char]

def Token.ofSpec (c : UInt8) : Token :=
  if c = 0x7c then .pipe else if c = 0x26 then .bg else if c = 0x3c then .redir .rin
  else .redir .rut

def wordChar (c : UInt8) : Bool := !(isSpace c) && !(isSpec c)

def glue (c : UInt8) (s : Bytes) (ts : List Token) : List Token :=
  match s.head?.any wordChar, ts with
  | true, .word text :: ts => .word (c :: text) :: ts
  | _, ts => .word [c] :: ts

/-- **The tokens of a line**: the maximal runs of characters other than spaces and special
characters, and the special characters. -/
def tokens : Bytes → List Token
  | [] => []
  | c :: s =>
    if isSpace c then tokens s
    else if isSpec c then .ofSpec c :: tokens s
    else glue c s (tokens s)

variable {c : UInt8} {s spaces rest line : Bytes} {words : List Bytes} {tok : Token}
  {p fuel n : ℕ}

theorem tokens_append_of_spaces (h : ∀ c ∈ spaces, isSpace c = true) :
    tokens (spaces ++ s) = tokens s := by
  induction spaces with
  | nil => rfl
  | cons c spaces ih =>
    rw [cons_append, tokens, if_pos (h c mem_cons_self)]
    exact ih fun d hd => h d (mem_cons_of_mem c hd)

theorem not_isSpace_of_isSpec (h : isSpec c = true) : isSpace c = false := by
  simp only [isSpec, Bool.or_eq_true, decide_eq_true_eq] at h
  rcases h with ((rfl | rfl) | rfl) | rfl <;> rfl

theorem tokens_spec (h : isSpec c = true) (s : Bytes) :
    tokens (c :: s) = .ofSpec c :: tokens s := by
  rw [tokens, not_isSpace_of_isSpec h, if_neg Bool.false_ne_true, if_pos h]

theorem wordChar_eq_true : wordChar c = true ↔ isSpace c = false ∧ isSpec c = false := by
  rw [wordChar, Bool.and_eq_true, Bool.not_eq_true', Bool.not_eq_true']

theorem wordChar_eq_false : wordChar c = false ↔ isSpace c = true ∨ isSpec c = true := by
  rw [wordChar, Bool.and_eq_false_iff, Bool.not_eq_false', Bool.not_eq_false']

theorem tokens_word {text : Bytes} (hne : text ≠ []) (hword : ∀ c ∈ text, wordChar c = true)
    (hend : s.head?.any wordChar = false) : tokens (text ++ s) = .word text :: tokens s := by
  induction text with
  | nil => exact absurd rfl hne
  | cons c text ih =>
    obtain ⟨hspace, hspec⟩ := wordChar_eq_true.mp (hword c mem_cons_self)
    rw [cons_append, tokens, hspace, if_neg Bool.false_ne_true, hspec, if_neg Bool.false_ne_true]
    cases text with
    | nil => simp only [nil_append, glue, hend]
    | cons d text =>
      have hd : wordChar d = true := hword d (mem_cons_of_mem c mem_cons_self)
      rw [ih (cons_ne_nil d text) fun e he => hword e (mem_cons_of_mem c he)]
      simp only [glue, cons_append, head?_cons, Option.any_some, hd]

theorem line_cases (s : Bytes) :
    (∀ c ∈ s, isSpace c = true) ∨
    (∃ spaces c rest, s = spaces ++ c :: rest ∧ (∀ d ∈ spaces, isSpace d = true) ∧
      isSpec c = true) ∨
    ∃ spaces text rest, s = spaces ++ (text ++ rest) ∧ (∀ d ∈ spaces, isSpace d = true) ∧
      text ≠ [] ∧ (∀ c ∈ text, wordChar c = true) ∧ rest.head?.any wordChar = false := by
  have hsplit : s = s.takeWhile isSpace ++ s.dropWhile isSpace := (takeWhile_append_dropWhile).symm
  have hspaces : ∀ d ∈ s.takeWhile isSpace, isSpace d = true := fun d hd =>
    mem_takeWhile_imp hd
  cases hrest : s.dropWhile isSpace with
  | nil =>
    left
    rw [hrest, append_nil] at hsplit
    exact hsplit ▸ hspaces
  | cons c rest =>
    have hc : isSpace c = false := by
      have := head_dropWhile_not isSpace (hrest ▸ cons_ne_nil c rest)
      simpa only [hrest, head_cons] using this
    right
    cases hspec : isSpec c with
    | true => exact .inl ⟨_, c, rest, hrest ▸ hsplit, hspaces, hspec⟩
    | false =>
      have hword : wordChar c = true := wordChar_eq_true.mpr ⟨hc, hspec⟩
      refine .inr ⟨_, (c :: rest).takeWhile wordChar, (c :: rest).dropWhile wordChar, ?_,
        hspaces, ?_, fun d hd => mem_takeWhile_imp hd, ?_⟩
      · rw [takeWhile_append_dropWhile, ← hrest]
        exact hsplit
      · rw [takeWhile_cons, hword]
        exact cons_ne_nil _ _
      · cases hafter : (c :: rest).dropWhile wordChar with
        | nil => rfl
        | cons d after =>
          have := head_dropWhile_not wordChar (hafter ▸ cons_ne_nil d after)
          simpa only [hafter, head_cons, head?_cons, Option.any_some] using this

def Token.Proper : Token → Prop
  | .word text => text ≠ [] ∧ (∀ c ∈ text, wordChar c = true) ∧ 0 ∉ text
  | _ => True

/-! ### Reading a token -/

def Lsh.store (s : Lsh) (text : Bytes) : Lsh :=
  { s with cbuf := patch s.cbuf s.cp (text ++ [0]), cp := s.cp + (text.length + 1) }

def LshFault.IsAccess (e : LshFault) : Prop := e ≠ .endless

section

variable {st : Lsh}

theorem storeChar_spec (c : UInt8) :
    ReturnsIff (storeChar c) st (st.cp < 256) LshFault.IsAccess fun _ t =>
      t = { st with cbuf := patch st.cbuf st.cp [c], cp := st.cp + 1 } := by
  refine ⟨fun h => ?_, fun h => ⟨.cbuf, by simp [LshFault.IsAccess], ?_⟩⟩
  · rw [storeChar]
    simp only [returns_bind, returns_get, returns_assert, returns_set]
    exact ⟨h, trivial⟩
  · rw [storeChar]
    exact panics_bind ((returns_get ..).mpr ((panics_assert h _ _).bind _))

theorem storeArg_spec (tok : Option ℕ) :
    ReturnsIff (storeArg tok) st (st.pp < 50) LshFault.IsAccess fun _ t =>
      t = { st with pbuf := Function.update st.pbuf st.pp tok, pp := st.pp + 1 } := by
  refine ⟨fun h => ?_, fun h => ⟨.pbuf, by simp [LshFault.IsAccess], ?_⟩⟩
  · rw [storeArg]
    simp only [returns_bind, returns_get, returns_assert, returns_set]
    exact ⟨h, trivial⟩
  · rw [storeArg]
    exact panics_bind ((returns_get ..).mpr ((panics_assert h _ _).bind _))

theorem returns_loadChar (h : p < 256) (Q : UInt8 → Lsh → Prop) :
    Returns (loadChar p) st Q ↔ Q (st.cbuf p) st := by
  rw [loadChar]
  simp only [returns_bind, returns_get, returns_assert, returns_pure, h, true_and]

theorem panics_loadChar (h : ¬ p < 256) : Panics (loadChar p) st .cbuf := by
  exact panics_bind ((returns_get ..).mpr ((panics_assert h _ _).bind _))

theorem copyToken_spec {text : Bytes} (hword : ∀ c ∈ text, wordChar c = true) (h0 : 0 ∉ text)
    (hend : rest.head?.any wordChar = false) :
    ReturnsIff (copyToken (text ++ rest)) st (st.cp + text.length < 256) LshFault.IsAccess
      fun n t => n = text.length + 1 ∧ ∃ d, t = { st with
        cbuf := patch st.cbuf st.cp (text ++ [d]), cp := st.cp + (text.length + 1) } := by
  induction text generalizing st with
  | nil =>
    cases rest with
    | nil =>
      refine (storeChar_spec 0).bind_returns fun _ t ht => ?_
      exact (returns_pure ..).mpr ⟨rfl, 0, ht⟩
    | cons d rest =>
      have hd : isSpace d = true ∨ isSpec d = true ∨ d = 0 := by
        rcases wordChar_eq_false.mp (by simpa using hend) with h | h
        · exact .inl h
        · exact .inr (.inl h)
      refine (storeChar_spec d).bind_returns fun _ t ht => ?_
      rw [if_pos hd]
      exact (returns_pure ..).mpr ⟨rfl, d, ht⟩
  | cons c text ih =>
    obtain ⟨hspace, hspec⟩ := wordChar_eq_true.mp (hword c mem_cons_self)
    have hc : ¬ (isSpace c = true ∨ isSpec c = true ∨ c = 0) := by
      rw [hspace, hspec]
      rintro (h | h | rfl)
      · cases h
      · cases h
      · exact h0 mem_cons_self
    have hiff : st.cp < 256 ∧ st.cp + 1 + text.length < 256 ↔
        st.cp + (c :: text).length < 256 := by
      rw [length_cons]
      omega
    refine ((storeChar_spec c).bind fun _ _ t ht => ?_).congr hiff
    subst ht
    rw [if_neg hc]
    refine (ih (fun d hd => hword d (mem_cons_of_mem c hd))
      (fun h => h0 (mem_cons_of_mem c h))).bind_returns ?_
    rintro n t ⟨rfl, d, rfl⟩
    refine (returns_pure ..).mpr ⟨by rw [length_cons], d, ?_⟩
    have hpatch : patch (patch st.cbuf st.cp [c]) (st.cp + 1) (text ++ [d]) =
        patch st.cbuf st.cp (c :: text ++ [d]) := patch_append _
    dsimp only
    rw [hpatch, length_cons]
    congr 1
    omega

theorem nexttoken_end (st : Lsh) (h : ∀ c ∈ s, isSpace c = true) :
    (nexttoken s).run st = .ok ((0, st.cp), st) := by
  have htake : s.takeWhile isSpace = s := takeWhile_eq_self_iff.mpr h
  have hdrop : s.drop (s.takeWhile isSpace).length = [] := by rw [htake, drop_length]
  refine Returns.run_eq ?_
  rw [nexttoken]
  simp only [returns_bind, returns_get]
  rw [hdrop, returns_pure]
  exact ⟨rfl, rfl⟩

theorem drop_spaces (rest : Bytes) (hspaces : ∀ d ∈ spaces, isSpace d = true)
    (hc : isSpace c = false) :
    ((spaces ++ c :: rest).takeWhile isSpace).length = spaces.length ∧
      (spaces ++ c :: rest).drop spaces.length = c :: rest := by
  refine ⟨?_, drop_left⟩
  rw [takeWhile_append_of_pos hspaces, takeWhile_cons, hc, if_neg Bool.false_ne_true, append_nil]

theorem nexttoken_special (hspaces : ∀ d ∈ spaces, isSpace d = true) (hc : isSpec c = true) :
    ReturnsIff (nexttoken (spaces ++ c :: rest)) st (st.cp + 2 ≤ 256) LshFault.IsAccess fun r t =>
      r = (spaces.length + 1, st.cp) ∧ t = st.store [c] := by
  obtain ⟨hlen, hdrop⟩ := drop_spaces rest hspaces (not_isSpace_of_isSpec hc)
  have h0 : c ≠ 0 := by
    rintro rfl
    cases hc
  rw [nexttoken]
  rw [returnsIff_get_bind]
  dsimp only
  rw [hlen, hdrop]
  dsimp only
  rw [if_neg h0, if_pos hc]
  have hiff : st.cp < 256 ∧ st.cp + 1 < 256 ↔ st.cp + 2 ≤ 256 := by omega
  refine ((storeChar_spec c).bind fun _ _ t ht => ?_).congr hiff
  subst ht
  refine (storeChar_spec 0).bind_returns fun _ t ht => ?_
  subst ht
  refine (returns_pure ..).mpr ⟨rfl, ?_⟩
  have hpatch : patch (patch st.cbuf st.cp [c]) (st.cp + 1) [0] =
      patch st.cbuf st.cp ([c] ++ [0]) := patch_append _
  rw [Lsh.store, ← hpatch]
  rfl

theorem nexttoken_word {text : Bytes} (hspaces : ∀ d ∈ spaces, isSpace d = true)
    (hne : text ≠ []) (hword : ∀ c ∈ text, wordChar c = true) (h0 : 0 ∉ text)
    (hend : rest.head?.any wordChar = false) :
    ReturnsIff (nexttoken (spaces ++ (text ++ rest))) st (st.cp + text.length + 1 ≤ 256)
      LshFault.IsAccess fun r t =>
        r = (spaces.length + text.length, st.cp) ∧ t = st.store text := by
  obtain ⟨c, text, rfl⟩ := exists_cons_of_ne_nil hne
  obtain ⟨hspace, hspec⟩ := wordChar_eq_true.mp (hword c mem_cons_self)
  obtain ⟨hlen, hdrop⟩ := drop_spaces (text ++ rest) hspaces hspace
  have hc0 : c ≠ 0 := fun h => h0 (h ▸ mem_cons_self)
  rw [nexttoken, cons_append]
  rw [returnsIff_get_bind]
  dsimp only
  rw [hlen, hdrop]
  dsimp only
  rw [if_neg hc0, hspec, if_neg Bool.false_ne_true]
  have hiff : st.cp < 256 ∧ st.cp + 1 + text.length < 256 ∧ st.cp + 1 + text.length < 256 ↔
      st.cp + (c :: text).length + 1 ≤ 256 := by
    rw [length_cons]
    omega
  refine ((storeChar_spec c).bind fun _ _ t ht => ?_).congr hiff
  subst ht
  refine (copyToken_spec (fun d hd => hword d (mem_cons_of_mem c hd))
    (fun h => h0 (mem_cons_of_mem c h)) hend).bind ?_
  rintro - n t ⟨rfl, d, rfl⟩
  rw [returnsIff_modify_bind]
  refine ((storeChar_spec 0).congr ?_).bind_returns fun _ t ht => ?_
  · dsimp only
    omega
  · subst ht
    refine (returns_pure ..).mpr ⟨?_, ?_⟩
    · rw [length_cons]
      congr 1
      omega
    · have hpatch : patch (patch st.cbuf st.cp [c]) (st.cp + 1) (text ++ [d]) =
          patch st.cbuf st.cp (c :: text ++ [d]) := patch_append _
      have hnul : patch (patch st.cbuf st.cp (c :: text ++ [d])) (st.cp + (c :: text).length) [0] =
          patch st.cbuf st.cp (c :: text ++ [0]) := patch_append_patch le_rfl
      have hcp : st.cp + 1 + (text.length + 1) - 1 = st.cp + (c :: text).length := by
        rw [length_cons]
        omega
      rw [Lsh.store, hcp, hpatch, hnul]
      rfl

theorem text_ofSpec (h : isSpec c = true) : (Token.ofSpec c).text = [c] := by
  simp only [isSpec, Bool.or_eq_true, decide_eq_true_eq] at h
  rcases h with ((rfl | rfl) | rfl) | rfl <;> rfl

theorem tokens_eq_nil_iff : tokens s = [] ↔ ∀ c ∈ s, isSpace c = true := by
  constructor
  · intro h
    obtain hall | ⟨spaces, c, rest, rfl, hspaces, hc⟩ |
      ⟨spaces, text, rest, rfl, hspaces, hne, hword, hend⟩ := line_cases s
    · exact hall
    · rw [tokens_append_of_spaces hspaces, tokens_spec hc] at h
      cases h
    · rw [tokens_append_of_spaces hspaces, tokens_word hne hword hend] at h
      cases h
  · intro h
    have := tokens_append_of_spaces (s := []) h
    rwa [append_nil] at this

/-- **The tokenizer.** It returns the next token exactly when there is place for it. -/
theorem nexttoken_spec (st : Lsh) (h0 : 0 ∉ s) {ts : List Token} (h : tokens s = tok :: ts) :
    tok.Proper ∧ ∃ n, 0 < n ∧ n ≤ s.length ∧ tokens (s.drop n) = ts ∧
      ReturnsIff (nexttoken s) st (st.cp + (tok.text.length + 1) ≤ 256) LshFault.IsAccess fun r t =>
        r = (n, st.cp) ∧ t = st.store tok.text := by
  obtain hall | ⟨spaces, c, rest, rfl, hspaces, hc⟩ |
    ⟨spaces, text, rest, rfl, hspaces, hne, hword, hend⟩ := line_cases s
  · rw [tokens_eq_nil_iff.mpr hall] at h
    cases h
  · rw [tokens_append_of_spaces hspaces, tokens_spec hc] at h
    obtain ⟨rfl, rfl⟩ := List.cons.inj h
    have hproper : (Token.ofSpec c).Proper := by
      rw [Token.ofSpec]
      split_ifs <;> trivial
    refine ⟨hproper, spaces.length + 1, Nat.succ_pos _, by simp, ?_, ?_⟩
    · rw [← drop_drop, drop_left]
      rfl
    · rw [text_ofSpec hc]
      exact nexttoken_special hspaces hc
  · rw [tokens_append_of_spaces hspaces, tokens_word hne hword hend] at h
    obtain ⟨rfl, rfl⟩ := List.cons.inj h
    have h0' : 0 ∉ text := fun hmem => h0 (mem_append_right _ (mem_append_left _ hmem))
    have hpos : 0 < text.length := length_pos_iff.mpr hne
    refine ⟨⟨hne, hword, h0'⟩, spaces.length + text.length, by omega, ?_, ?_, ?_⟩
    · simp only [length_append]
      omega
    · rw [← drop_drop, drop_left, drop_left]
    · exact nexttoken_word hspaces hne hword h0' hend

end

/-! ### What the buffers hold -/

structure Usage where
  bytes : ℕ
  slots : ℕ
  cmds : ℕ

structure HasString (b : ℕ) (s : Lsh) (i : ℕ) (text : Bytes) : Prop where
  le : i + text.length + 1 ≤ b
  bytes : slice s.cbuf i (text ++ [0]).length = text ++ [0]
  nul_notMem : 0 ∉ text

/-- The arguments are in `pbuf`, from `p` on, with a null pointer behind them. -/
def HasArgs (u : Usage) (s : Lsh) : ℕ → List Bytes → Prop
  | p, [] => p < u.slots ∧ s.pbuf p = none
  | p, text :: words => p < u.slots ∧
      ∃ i, s.pbuf p = some i ∧ HasString u.bytes s i text ∧ HasArgs u s (p + 1) words

def HasPgms (u : Usage) (s : Lsh) : Option ℕ → List (List Bytes) → Prop
  | o, [] => o = none
  | o, words :: pgms => ∃ k p, o = some k ∧ k < u.cmds ∧ (s.cmdbuf k).pgmlist = some p ∧
      HasArgs u s p words ∧ HasPgms u s (s.cmdbuf k).next pgms

structure AgreeBelow (u : Usage) (s t : Lsh) : Prop where
  cbuf_eq : ∀ i < u.bytes, t.cbuf i = s.cbuf i
  pbuf_eq : ∀ p < u.slots, t.pbuf p = s.pbuf p
  cmdbuf_eq : ∀ k < u.cmds, t.cmdbuf k = s.cmdbuf k

structure Usage.Le (u v : Usage) : Prop where
  bytes : u.bytes ≤ v.bytes
  slots : u.slots ≤ v.slots
  cmds : u.cmds ≤ v.cmds

section

variable {u v : Usage} {s t : Lsh} {b b' i p : ℕ} {text : Bytes}

theorem HasString.of_agree (h : HasString b s i text)
    (heq : ∀ j, i ≤ j → j < b → t.cbuf j = s.cbuf j) (hle : b ≤ b') : HasString b' t i text := by
  have hlen : (text ++ [(0 : UInt8)]).length = text.length + 1 := by
    rw [length_append, length_singleton]
  have hb := h.le
  refine ⟨by omega, ?_, h.nul_notMem⟩
  nth_rewrite 2 [← h.bytes]
  exact slice_congr fun j h₁ h₂ => heq j h₁ (by omega)

theorem HasString.congr (h : HasString b s i text) (heq : ∀ j < b, t.cbuf j = s.cbuf j)
    (hle : b ≤ b') : HasString b' t i text :=
  h.of_agree (fun j _ => heq j) hle

theorem HasArgs.congr (h : HasArgs u s p words) (heq : AgreeBelow u s t) (hle : u.Le v) :
    HasArgs v t p words := by
  induction words generalizing p with
  | nil => exact ⟨h.1.trans_le hle.slots, (heq.pbuf_eq p h.1).trans h.2⟩
  | cons text words ih =>
    obtain ⟨hp, i, hi, hstring, hargs⟩ := h
    exact ⟨hp.trans_le hle.slots, i, (heq.pbuf_eq p hp).trans hi,
      hstring.congr heq.cbuf_eq hle.bytes, ih hargs⟩

theorem HasPgms.congr {pgms : List (List Bytes)} {o : Option ℕ} (h : HasPgms u s o pgms)
    (heq : AgreeBelow u s t) (hle : u.Le v) : HasPgms v t o pgms := by
  induction pgms generalizing o with
  | nil => exact h
  | cons words pgms ih =>
    obtain ⟨k, p, rfl, hk, hlist, hargs, hnext⟩ := h
    refine ⟨k, p, rfl, hk.trans_le hle.cmds, ?_, hargs.congr heq hle, ?_⟩
    · rw [heq.cmdbuf_eq k hk]
      exact hlist
    · rw [heq.cmdbuf_eq k hk]
      exact ih hnext

theorem hasString_store (s : Lsh) (h0 : 0 ∉ text) :
    HasString (s.store text).cp (s.store text) s.cp text := by
  refine ⟨?_, slice_patch_eq, h0⟩
  rw [Lsh.store, Nat.add_assoc]

structure Grown (s t : Lsh) : Prop where
  cp_le : s.cp ≤ t.cp
  pp_le : s.pp ≤ t.pp
  cbuf_lt : ∀ i < s.cp, t.cbuf i = s.cbuf i
  cbuf_ge : ∀ i, t.cp ≤ i → t.cbuf i = s.cbuf i
  pbuf_lt : ∀ p < s.pp, t.pbuf p = s.pbuf p
  last : s.cbuf 255 = 0 → t.cbuf 255 = 0

theorem Grown.refl (s : Lsh) : Grown s s :=
  ⟨le_rfl, le_rfl, fun _ _ => rfl, fun _ _ => rfl, fun _ _ => rfl, id⟩

theorem Grown.trans {w : Lsh} (h : Grown s t) (h' : Grown t w) : Grown s w where
  cp_le := h.cp_le.trans h'.cp_le
  pp_le := h.pp_le.trans h'.pp_le
  cbuf_lt i hi := (h'.cbuf_lt i (hi.trans_le h.cp_le)).trans (h.cbuf_lt i hi)
  cbuf_ge i hi := (h'.cbuf_ge i hi).trans (h.cbuf_ge i (h'.cp_le.trans hi))
  pbuf_lt p hp := (h'.pbuf_lt p (hp.trans_le h.pp_le)).trans (h.pbuf_lt p hp)
  last h0 := h'.last (h.last h0)

theorem grown_store (s : Lsh) (text : Bytes) (hfit : s.cp + (text.length + 1) ≤ 256) :
    Grown s (s.store text) where
  cp_le := Nat.le_add_right _ _
  pp_le := le_rfl
  cbuf_lt i hi := patch_of_lt hi
  cbuf_ge i hi := patch_of_ge (by
    rw [length_append, length_singleton]
    exact hi)
  pbuf_lt _ _ := rfl
  last h0 := by
    have hlen : (text ++ [(0 : UInt8)]).length = text.length + 1 := by
      rw [length_append, length_singleton]
    have hbyte : (s.store text).cbuf 255 = patch s.cbuf s.cp (text ++ [0]) 255 := rfl
    rcases Nat.lt_or_ge 255 (s.cp + (text.length + 1)) with h | h
    · have hlast : 255 - s.cp = text.length := by omega
      rw [hbyte, patch_of_mem (by omega) (by omega)]
      simp [hlast]
    · rw [hbyte, patch_of_ge (by omega)]
      exact h0

theorem grown_storeArg (s : Lsh) (tok : Option ℕ) :
    Grown s { s with pbuf := Function.update s.pbuf s.pp tok, pp := s.pp + 1 } where
  cp_le := le_rfl
  pp_le := Nat.le_succ _
  cbuf_lt _ _ := rfl
  cbuf_ge _ _ := rfl
  pbuf_lt _ hp := Function.update_of_ne hp.ne _ _
  last := id

/-! ### File names -/

def identChar (c : UInt8) : Bool := isAlnum c || idChars.contains c

theorem hasString_nil_iff : HasString b s i [] ↔ i < b ∧ s.cbuf i = 0 := by
  constructor
  · intro h
    have hbytes := h.bytes
    have hle := h.le
    simp only [nil_append, length_singleton, slice, range_one, map_cons,
      map_nil, Nat.add_zero, List.cons.injEq, and_true] at hbytes
    exact ⟨hle, hbytes⟩
  · rintro ⟨hlt, h0⟩
    refine ⟨hlt, ?_, not_mem_nil⟩
    simp [slice, h0]

theorem hasString_cons_iff :
    HasString b s i (c :: text) ↔ s.cbuf i = c ∧ c ≠ 0 ∧ HasString b s (i + 1) text := by
  have hsplit : slice s.cbuf i (c :: text ++ [0]).length = c :: text ++ [0] ↔
      slice s.cbuf i 1 = [c] ∧ slice s.cbuf (i + 1) (text ++ [0]).length = text ++ [0] :=
    @slice_eq_append_iff (text ++ [0]) s.cbuf i [c]
  have hone : slice s.cbuf i 1 = [c] ↔ s.cbuf i = c := by simp [slice]
  rw [hone] at hsplit
  constructor
  · intro h
    obtain ⟨hc, htext⟩ := hsplit.mp h.bytes
    have hle := h.le
    rw [length_cons] at hle
    exact ⟨hc, fun h0 => h.nul_notMem (h0 ▸ mem_cons_self), by omega, htext,
      fun hmem => h.nul_notMem (mem_cons_of_mem c hmem)⟩
  · rintro ⟨hc, hne, hle, htext, hnul⟩
    refine ⟨by rw [length_cons]; omega, hsplit.mpr ⟨hc, htext⟩, ?_⟩
    rw [mem_cons, not_or]
    exact ⟨hne.symm, hnul⟩

theorem isIdentifierFrom_returns (h : HasString 256 s i text) (hfuel : text.length < fuel)
    (Q : Bool → Lsh → Prop) : Returns (isIdentifierFrom fuel i) s Q ↔ Q (text.all identChar) s := by
  induction text generalizing i fuel with
  | nil =>
    obtain ⟨hlt, h0⟩ := hasString_nil_iff.mp h
    obtain ⟨fuel, rfl⟩ := Nat.exists_eq_succ_of_ne_zero (n := fuel) (by omega)
    rw [isIdentifierFrom, returns_bind, returns_loadChar hlt, if_pos h0, returns_pure]
    rfl
  | cons c text ih =>
    obtain ⟨hc, hne, htext⟩ := hasString_cons_iff.mp h
    have hle := h.le
    obtain ⟨fuel, rfl⟩ := Nat.exists_eq_succ_of_ne_zero (n := fuel) (by omega)
    rw [isIdentifierFrom, returns_bind, returns_loadChar (by omega), hc, if_neg hne, all_cons]
    cases hident : identChar c with
    | true =>
      rw [identChar] at hident
      rw [if_pos hident, Bool.true_and]
      exact ih htext (by simpa using hfuel)
    | false =>
      rw [identChar] at hident
      rw [hident, if_neg Bool.false_ne_true, returns_pure, Bool.false_and]

theorem isidentifier_returns (h : HasString 256 s i text) (Q : Bool → Lsh → Prop) :
    Returns (isidentifier i) s Q ↔ Q (text.all identChar) s :=
  isIdentifierFrom_returns h (by have := h.le; omega) Q

theorem exists_hasString (h : s.cbuf 255 = 0) (hi : i < 256) : ∃ text, HasString 256 s i text := by
  obtain ⟨n, hn⟩ : ∃ n, i + n = 255 := ⟨255 - i, by omega⟩
  induction n generalizing i with
  | zero => exact ⟨[], hasString_nil_iff.mpr ⟨hi, by rwa [← hn, Nat.add_zero] at h⟩⟩
  | succ n ih =>
    by_cases h0 : s.cbuf i = 0
    · exact ⟨[], hasString_nil_iff.mpr ⟨hi, h0⟩⟩
    · obtain ⟨text, htext⟩ := ih (i := i + 1) (by omega) (by omega)
      exact ⟨s.cbuf i :: text, hasString_cons_iff.mpr ⟨rfl, h0, htext⟩⟩

/-! ### Reading a program -/

def wordBytes (words : List Bytes) : ℕ := (words.map fun text => text.length + 1).sum

def lookBytes : List Token → ℕ
  | [] => 0
  | tok :: _ => tok.text.length + 1

def Token.isWord : Token → Bool
  | .word _ => true
  | _ => false

def StopsWords (ts : List Token) : Prop := ts.head?.any Token.isWord = false

theorem cbuf_store (hproper : tok.Proper) (s : Lsh) :
    ∃ c rest, tok.text = c :: rest ∧ (s.store tok.text).cbuf s.cp = c ∧ isSpec c = !tok.isWord := by
  have hbyte : ∀ c rest, tok.text = c :: rest → (s.store tok.text).cbuf s.cp = c := by
    intro c rest htext
    have hpatch : (s.store tok.text).cbuf s.cp = patch s.cbuf s.cp (tok.text ++ [0]) s.cp := rfl
    rw [hpatch, patch_of_mem le_rfl (by simp)]
    simp [htext]
  cases tok with
  | word text =>
    obtain ⟨hne, hword, -⟩ := hproper
    obtain ⟨c, rest, rfl⟩ := exists_cons_of_ne_nil hne
    obtain ⟨-, hspec⟩ := wordChar_eq_true.mp (hword c mem_cons_self)
    exact ⟨c, rest, rfl, hbyte c rest rfl, hspec⟩
  | pipe => exact ⟨_, _, rfl, hbyte _ _ rfl, rfl⟩
  | bg => exact ⟨_, _, rfl, hbyte _ _ rfl, rfl⟩
  | redir r =>
    refine ⟨_, _, rfl, hbyte _ _ rfl, ?_⟩
    cases r <;> rfl

theorem stops_returns (hproper : tok.Proper) (hn : 0 < n)
    (hfit : s.cp + (tok.text.length + 1) ≤ 256) :
    Returns (stops n s.cp) (s.store tok.text) fun stop t =>
      stop = !tok.isWord ∧ t = s.store tok.text := by
  obtain ⟨c, rest, htext, hc, hspec⟩ := cbuf_store hproper s
  rw [stops, if_neg (by omega), returns_map, returns_loadChar (by omega), hc]
  exact ⟨hspec, rfl⟩

structure ReadArgs (s : Lsh) (words : List Bytes) (rest : List Token) (t : Lsh) : Prop where
  grown : Grown s t
  cp_eq : t.cp = s.cp + wordBytes words + lookBytes rest
  pp_eq : t.pp = s.pp + words.length + 1
  cmdbuf_eq : t.cmdbuf = s.cmdbuf
  cmds_eq : t.cmds = s.cmds
  args : ∀ k, HasArgs ⟨t.cp, t.pp, k⟩ t s.pp words

theorem storeNull_spec (rest : List Token) (hgrown : Grown s t) (hpp : t.pp = s.pp)
    (hcmdbuf : t.cmdbuf = s.cmdbuf) (hcmds : t.cmds = s.cmds) (hcp : t.cp = s.cp + lookBytes rest)
    (cnt : ℕ) :
    ReturnsIff (do storeArg none; return cnt) t (s.pp + 1 ≤ 50) LshFault.IsAccess
      fun m t => m = cnt ∧ ReadArgs s [] rest t := by
  have hiff : t.pp < 50 ↔ s.pp + 1 ≤ 50 := by omega
  refine ((storeArg_spec none).congr hiff).bind_returns ?_
  rintro _ _ rfl
  refine (returns_pure ..).mpr ⟨rfl, hgrown.trans (grown_storeArg t none), hcp, ?_, hcmdbuf,
    hcmds, fun k => ⟨?_, ?_⟩⟩
  · rw [length_nil, ← hpp]
  · dsimp only
    omega
  · dsimp only
    rw [← hpp, Function.update_self]

def Lsh.storeWord (s : Lsh) (text : Bytes) : Lsh :=
  { s.store text with pbuf := Function.update s.pbuf s.pp (some s.cp), pp := s.pp + 1 }

theorem ReadArgs.cons {rest : List Token} (h0 : 0 ∉ text) (hfit : s.cp + (text.length + 1) ≤ 256)
    (h : ReadArgs (s.storeWord text) words rest t) : ReadArgs s (text :: words) rest t := by
  have hgrown : Grown s (s.storeWord text) :=
    (grown_store s text hfit).trans (grown_storeArg (s.store text) (some s.cp))
  have hcp := h.cp_eq
  have hpp := h.pp_eq
  have hcp' : (s.storeWord text).cp = s.cp + (text.length + 1) := rfl
  have hpp' : (s.storeWord text).pp = s.pp + 1 := rfl
  have hstring : HasString (s.storeWord text).cp t s.cp text :=
    (hasString_store s h0).congr h.grown.cbuf_lt le_rfl
  refine ⟨hgrown.trans h.grown, ?_, ?_, h.cmdbuf_eq, h.cmds_eq, fun k => ⟨?_, s.cp, ?_, ?_, ?_⟩⟩
  · rw [hcp, hcp', wordBytes, wordBytes, map_cons, sum_cons]
    omega
  · rw [hpp, hpp', length_cons]
    omega
  · dsimp only
    omega
  · rw [h.grown.pbuf_lt s.pp (by omega)]
    exact Function.update_self ..
  · exact hstring.congr (fun _ _ => rfl) h.grown.cp_le
  · exact h.args k

structure Consumed (line : Bytes) (words : List Bytes) (rest : List Token) (n : ℕ) :
    Prop where
  rest_eq : tokens (line.drop n) = rest
  eq_zero_iff : n = 0 ↔ words = []

theorem acmdNext_spec {rest : List Token} (h0 : 0 ∉ line)
    (htokens : tokens line = words.map .word ++ rest) (hrest : StopsWords rest) (hcp : s.cp ≤ 256)
    (hfuel : line.length < fuel) (cnt : ℕ) :
    ReturnsIff (acmdNext fuel line cnt) s
      (s.cp + wordBytes words + lookBytes rest ≤ 256 ∧ s.pp + words.length + 1 ≤ 50)
      LshFault.IsAccess fun m t =>
        ReadArgs s words rest t ∧ ∃ n, m = cnt + n ∧ Consumed line words rest n := by
  induction words generalizing s line fuel cnt with
  | nil =>
    obtain ⟨fuel, rfl⟩ := Nat.exists_eq_succ_of_ne_zero (n := fuel) (by omega)
    have hend : ∀ m t, (m = cnt ∧ ReadArgs s [] rest t) →
        ReadArgs s [] rest t ∧ ∃ n, m = cnt + n ∧ Consumed line [] rest n := by
      rintro m t ⟨rfl, hread⟩
      exact ⟨hread, 0, rfl, htokens, by simp⟩
    cases rest with
    | nil =>
      have hrun := nexttoken_end s (tokens_eq_nil_iff.mp htokens)
      refine Returns.bind_returnsIff (Q := fun r t => r = (0, s.cp) ∧ t = s)
        ((returns_iff_of_run hrun _).mpr ⟨rfl, rfl⟩) ?_
      rintro _ t ⟨rfl, ht⟩
      subst ht
      dsimp only
      have hiff : t.pp + 1 ≤ 50 ↔
          t.cp + wordBytes [] + lookBytes [] ≤ 256 ∧ t.pp + 0 + 1 ≤ 50 :=
        (and_iff_right hcp).symm
      exact ((storeNull_spec [] (.refl t) rfl rfl rfl rfl cnt).congr hiff).mono hend
    | cons tok ts =>
      obtain ⟨hproper, n, hn, -, -, hspec⟩ := nexttoken_spec s h0 htokens
      have hword : tok.isWord = false := hrest
      have hiff : s.cp + (tok.text.length + 1) ≤ 256 ∧ s.pp + 1 ≤ 50 ↔
          s.cp + wordBytes [] + lookBytes (tok :: ts) ≤ 256 ∧ s.pp + 0 + 1 ≤ 50 := by
        rw [lookBytes, wordBytes, map_nil, sum_nil, Nat.add_zero s.cp, Nat.add_zero s.pp]
      refine (hspec.bind fun hfit r t hr => ?_).congr hiff
      obtain ⟨rfl, rfl⟩ := hr
      refine (stops_returns hproper hn hfit).bind_returnsIff ?_
      rintro _ _ ⟨rfl, rfl⟩
      rw [hword, if_pos (by decide)]
      exact (storeNull_spec (tok :: ts) (grown_store s tok.text hfit) rfl rfl rfl rfl cnt).mono hend
  | cons text words ih =>
    obtain ⟨fuel, rfl⟩ := Nat.exists_eq_succ_of_ne_zero (n := fuel) (by omega)
    obtain ⟨hproper, n, hn, hle, hdrop, hspec⟩ := nexttoken_spec s h0 htokens
    have hcp' : (s.storeWord text).cp = s.cp + (text.length + 1) := rfl
    have hpp' : (s.storeWord text).pp = s.pp + 1 := rfl
    have hbytes : wordBytes (text :: words) = text.length + 1 + wordBytes words := rfl
    have hiff : s.cp + (text.length + 1) ≤ 256 ∧ s.pp < 50 ∧
        (s.storeWord text).cp + wordBytes words + lookBytes rest ≤ 256 ∧
          (s.storeWord text).pp + words.length + 1 ≤ 50 ↔
        s.cp + wordBytes (text :: words) + lookBytes rest ≤ 256 ∧
          s.pp + (text :: words).length + 1 ≤ 50 := by
      rw [hcp', hpp', hbytes, length_cons]
      omega
    rw [acmdNext]
    refine (hspec.bind fun hfit r t hr => ?_).congr hiff
    obtain ⟨rfl, rfl⟩ := hr
    refine (stops_returns hproper hn hfit).bind_returnsIff ?_
    rintro _ _ ⟨rfl, rfl⟩
    refine (storeArg_spec (some s.cp)).bind fun _ _ t ht => ?_
    subst ht
    refine (ih (s := s.storeWord text) (fun h => h0 (mem_of_mem_drop h)) hdrop hfit
      (by rw [length_drop]; omega) (cnt + n)).mono ?_
    rintro _ t ⟨hread, m, rfl, hm⟩
    refine ⟨hread.cons hproper.2.2 hfit, n + m, Nat.add_assoc .., ?_, ?_⟩
    · rw [← drop_drop]
      exact hm.rest_eq
    · exact ⟨fun h => by omega, nofun⟩

structure FreeFrom (n : ℕ) (s : Lsh) : Prop where
  cmds_eq : s.cmds = if n < 20 then some n else none
  next_eq : ∀ k, n ≤ k → (s.cmdbuf k).next = if k < 19 then some (k + 1) else none

structure ReadCmd (n : ℕ) (s : Lsh) (words : List Bytes) (rest : List Token) (t : Lsh) :
    Prop where
  grown : Grown s t
  cp_eq : t.cp = s.cp + wordBytes words + lookBytes rest
  pp_eq : t.pp = s.pp + words.length + 1
  free : FreeFrom (n + 1) t
  cmdbuf_lt : ∀ k < n, t.cmdbuf k = s.cmdbuf k
  pgmlist_eq : (t.cmdbuf n).pgmlist = some s.pp
  args : ∀ k, HasArgs ⟨t.cp, t.pp, k⟩ t s.pp words

/-- **`acmd`** reads the words of a program. -/
theorem acmd_spec {rest : List Token} (h0 : 0 ∉ line)
    (htokens : tokens line = words.map .word ++ rest) (hrest : StopsWords rest) (hcp : s.cp ≤ 256)
    (hfree : FreeFrom n s) :
    ReturnsIff (acmd line) s
      (n < 20 ∧ s.cp + wordBytes words + lookBytes rest ≤ 256 ∧ s.pp + words.length + 1 ≤ 50)
      LshFault.IsAccess fun r t =>
        ReadCmd n s words rest t ∧ r.2 = n ∧ Consumed line words rest r.1 := by
  rw [acmd, returnsIff_get_bind, hfree.cmds_eq]
  by_cases hn : n < 20
  · rw [if_pos hn, and_iff_right hn]
    rw [returnsIff_set_bind]
    refine (acmdNext_spec h0 htokens hrest (by exact hcp) (Nat.lt_succ_self _) 0).bind_returns ?_
    rintro _ t ⟨hread, m, rfl, hm⟩
    have hbuf : t.cmdbuf = Function.update s.cmdbuf n ⟨some s.pp, none⟩ := hread.cmdbuf_eq
    have hother : ∀ k, k ≠ n → t.cmdbuf k = s.cmdbuf k := fun k hk => by
      rw [hbuf, Function.update_of_ne hk]
    refine (returns_pure ..).mpr ⟨⟨?_, hread.cp_eq, hread.pp_eq, ⟨?_, fun k hk => ?_⟩,
      fun k hk => hother k hk.ne, ?_, hread.args⟩, rfl, ?_⟩
    · have hg := hread.grown
      exact { hg with }
    · rw [hread.cmds_eq]
      rw [hfree.next_eq n le_rfl]
      simp only [Nat.succ_lt_succ_iff]
    · rw [hother k (by omega)]
      exact hfree.next_eq k (by omega)
    · rw [hbuf, Function.update_self]
    · rw [Nat.zero_add]
      exact hm
  · rw [if_neg hn]
    refine ⟨fun h => absurd h.1 hn, fun _ => ⟨.nullCmd, by simp [LshFault.IsAccess], rfl⟩⟩

end

end OsMaterial
