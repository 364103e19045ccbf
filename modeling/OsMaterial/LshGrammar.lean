import Mathlib.Data.List.Nodup
import OsMaterial.LshParse

/-!
# The Grammar of the Shell

A command is a sequence of programs with their redirections; `Denotes` says which contents of the
buffers stand for it. `judge` is the parser on the tokens of a line, and how much of the buffers it
uses. If a line ends with a redirection, `nexttoken` returns zero, which `parse` does not take for
an error: the file name is what `cbuf` holds behind its used part.

* `parse_spec`: `parse` returns what `judge` says, exactly when the line fits into the buffers.
* `judge_accept`, `judge_tokens`: what is accepted are the commands.
-/

namespace OsMaterial

open List

/-! ### Commands -/

structure Program where
  words : List Bytes
  redirs : List (Redir × Bytes)

def Program.tokens (p : Program) : List Token :=
  p.words.map .word ++ p.redirs.flatMap fun f => [.redir f.1, .word f.2]

structure CommandLine where
  programs : List Program
  background : Bool

def CommandLine.tokens (cl : CommandLine) : List Token :=
  [Token.pipe].intercalate (cl.programs.map Program.tokens) ++ if cl.background then [.bg] else []

def CommandLine.files (cl : CommandLine) : List (Redir × Bytes) :=
  cl.programs.flatMap Program.redirs

/-- **The grammar**: there is a program, every program has a word, a file name is an identifier
that is not empty, and no redirection occurs twice. -/
structure CommandLine.WellFormed (cl : CommandLine) : Prop where
  programs_ne : cl.programs ≠ []
  words_ne : ∀ p ∈ cl.programs, p.words ≠ []
  words_proper : ∀ p ∈ cl.programs, ∀ text ∈ p.words, (Token.word text).Proper
  file_name : ∀ f ∈ cl.files, f.2 ≠ [] ∧ f.2.all identChar = true
  once : (cl.files.map Prod.fst).Nodup

def HasFileName (b : ℕ) (s : Lsh) : Option ℕ → Option Bytes → Prop
  | none, none => True
  | some i, some text => HasString b s i text
  | _, _ => False

def Usage.limits : Usage := ⟨256, 50, 20⟩

/-- **The command that the parser stores**: the programs in reverse order, with their words in
order, and the files of the redirections. -/
structure Denotes (s : Lsh) (c : Command) (cl : CommandLine) : Prop where
  pgms : HasPgms .limits s c.pgm (cl.programs.map Program.words).reverse
  files : ∀ r, HasFileName 256 s (c.file r) (cl.files.lookup r)
  background : c.background = cl.background
  rstderr : c.rstderr = none

/-! ### Judging the tokens of a line -/

structure Acc where
  done : List Program
  words : List Bytes
  redirs : List (Redir × Bytes)
  usage : Usage

inductive Phase where
  | command
  | token
  | bg
  | file (r : Redir)

def Acc.start : Acc := ⟨[], [], [], ⟨0, 0, 0⟩⟩

def Acc.spend (a : Acc) (bytes slots cmds : ℕ) : Acc :=
  { a with usage := ⟨a.usage.bytes + bytes, a.usage.slots + slots, a.usage.cmds + cmds⟩ }

def Acc.addWords (a : Acc) (words : List Bytes) : Acc :=
  { a.spend (wordBytes words) words.length 0 with words := a.words ++ words }

def Acc.addFile (a : Acc) (r : Redir) (text : Bytes) : Acc :=
  { a with redirs := a.redirs ++ [(r, text)] }

def Acc.programs (a : Acc) : List Program := a.done ++ [⟨a.words, a.redirs⟩]

def Acc.files (a : Acc) : List (Redir × Bytes) := a.programs.flatMap Program.redirs

def Acc.next (a : Acc) : Acc := { a with done := a.programs, words := [], redirs := [] }

def dispatch (a : Acc) : Token → Acc × Option Phase
  | .word _ => (a, none)
  | .pipe => (a.next, some .command)
  | .bg => (a, some .bg)
  | .redir r => (a, if (a.files.lookup r).isSome then none else some (.file r))

def advance (a : Acc) : Phase → Token → Acc × Option Phase
  | .command, .word text => (a.addWords [text], some .command)
  | .command, tok =>
    let b := a.spend (tok.text.length + 1) 1 1
    if a.words = [] then (b, none) else dispatch (b.spend (tok.text.length + 1) 0 0) tok
  | .token, tok => dispatch (a.spend (tok.text.length + 1) 0 0) tok
  | .bg, tok => (a.spend (tok.text.length + 1) 0 0, none)
  | .file r, tok =>
    let a := a.spend (tok.text.length + 1) 0 0
    match tok with
    | .word text =>
      if text.all identChar then (a.addFile r text, some .token) else (a, none)
    | _ => (a, none)

inductive LineEnd where
  | reject
  | accept (cl : CommandLine)
  | dangling (r : Redir) (a : Acc)

structure Verdict where
  usage : Usage
  result : LineEnd

def finish (a : Acc) : Phase → Verdict
  | .command =>
    ⟨(a.spend 0 1 1).usage, if a.words = [] then .reject else .accept ⟨a.programs, false⟩⟩
  | .token => ⟨a.usage, .accept ⟨a.programs, false⟩⟩
  | .bg => ⟨a.usage, .accept ⟨a.programs, true⟩⟩
  | .file r => ⟨a.usage, .dangling r a⟩

/-- **The parser, on the tokens of a line.** -/
def judge : Phase → List Token → Acc → Verdict
  | phase, [], a => finish a phase
  | phase, tok :: ts, a =>
    match advance a phase tok with
    | (a, none) => ⟨a.usage, .reject⟩
    | (a, some phase) => judge phase ts a

def resume (step : Acc × Option Phase) (ts : List Token) : Verdict :=
  match step with
  | (a, none) => ⟨a.usage, .reject⟩
  | (a, some phase) => judge phase ts a

theorem judge_cons (phase : Phase) (tok : Token) (ts : List Token) (a : Acc) :
    judge phase (tok :: ts) a = resume (advance a phase tok) ts := rfl

structure Verdict.Fits (v : Verdict) : Prop where
  bytes : v.usage.bytes ≤ 256
  slots : v.usage.slots ≤ 50
  cmds : v.usage.cmds ≤ 20
  dangling : ∀ r a, v.result = .dangling r a → v.usage.bytes < 256

variable {r : Redir} {t text line : Bytes} {bound b i : ℕ} {cl : CommandLine} {u : Usage}
  {tok : Token} {ts : List Token} {o : Option ℕ} {name : Option Bytes}

open OsMaterial.Acc

variable {a : Acc} {rest : List Token}

section

variable {words : List Bytes}

theorem Acc.addWords_nil (a : Acc) : a.addWords [] = a := by
  rw [addWords, append_nil]
  rfl

theorem Acc.addWords_cons (a : Acc) (text : Bytes) (words : List Bytes) :
    (a.addWords [text]).addWords words = a.addWords (text :: words) := by
  simp only [addWords, Acc.spend, wordBytes, map_cons, map_nil, sum_cons,
    sum_nil, length_cons, length_nil, append_assoc, singleton_append]
  congr 2
  · omega
  · omega

theorem judge_words (words : List Bytes) (rest : List Token) (a : Acc) :
    judge .command (words.map .word ++ rest) a = judge .command rest (a.addWords words) := by
  induction words generalizing a with
  | nil => rw [a.addWords_nil, map_nil, nil_append]
  | cons text words ih =>
    rw [map_cons, cons_append, judge, advance]
    dsimp only
    rw [ih, addWords_cons]

theorem advance_command (h : tok.isWord = false) :
    advance a .command tok =
      if a.words = [] then (a.spend (tok.text.length + 1) 1 1, none)
      else advance (a.spend (tok.text.length + 1) 1 1) .token tok := by
  cases tok with
  | word text => cases h
  | pipe => rfl
  | bg => rfl
  | redir r => rfl

theorem judge_command (words : List Bytes) (hrest : StopsWords rest) (ha : a.words = []) :
    judge .command (words.map .word ++ rest) a =
      if words = [] then ⟨(a.spend (lookBytes rest) 1 1).usage, .reject⟩
      else judge .token rest ((a.addWords words).spend (lookBytes rest) 1 1) := by
  have hwords : (a.addWords words).words = words := by rw [addWords, ha, nil_append]
  rw [judge_words]
  split
  · next hnil =>
    subst hnil
    rw [a.addWords_nil]
    cases rest with
    | nil =>
      rw [judge, finish, if_pos ha]
      rfl
    | cons tok ts =>
      rw [judge, advance_command hrest, if_pos ha]
      rfl
  · next hne =>
    rw [← hwords] at hne
    cases rest with
    | nil =>
      rw [judge, finish, if_neg hne]
      rfl
    | cons tok ts =>
      rw [judge, judge, advance_command hrest, if_neg hne]
      rfl

theorem Usage.Le.refl (u : Usage) : u.Le u := ⟨le_rfl, le_rfl, le_rfl⟩

theorem Usage.Le.trans {v w : Usage} (h : u.Le v) (h' : v.Le w) : u.Le w :=
  ⟨h.bytes.trans h'.bytes, h.slots.trans h'.slots, h.cmds.trans h'.cmds⟩

theorem Acc.le_spend (a : Acc) (bytes slots cmds : ℕ) :
    a.usage.Le (a.spend bytes slots cmds).usage :=
  ⟨Nat.le_add_right .., Nat.le_add_right .., Nat.le_add_right ..⟩

theorem dispatch_usage (a : Acc) (tok : Token) : (dispatch a tok).1.usage = a.usage := by
  cases tok <;> rfl

theorem spend_le_advance (a : Acc) (phase : Phase) (tok : Token) :
    (a.spend (tok.text.length + 1) 0 0).usage.Le (advance a phase tok).1.usage := by
  have htoken : ∀ b : Acc,
      (b.spend (tok.text.length + 1) 0 0).usage.Le (advance b .token tok).1.usage := by
    intro b
    rw [advance, dispatch_usage]
    exact .refl _
  cases phase with
  | command =>
    cases hword : tok.isWord with
    | true =>
      cases tok with
      | word text => exact ⟨le_rfl, Nat.le_succ _, le_rfl⟩
      | pipe => cases hword
      | bg => cases hword
      | redir r => cases hword
    | false =>
      have hspend : (a.spend (tok.text.length + 1) 0 0).usage.Le
          (a.spend (tok.text.length + 1) 1 1).usage := ⟨le_rfl, Nat.le_succ _, Nat.le_succ _⟩
      rw [advance_command hword]
      split
      · exact hspend
      · exact hspend.trans ((le_spend ..).trans (htoken _))
  | token => exact htoken a
  | bg => exact .refl _
  | file r =>
    cases tok with
    | word text =>
      rw [advance]
      split <;> exact .refl _
    | pipe => exact .refl _
    | bg => exact .refl _
    | redir r => exact .refl _

theorem judge_le (phase : Phase) (ts : List Token) (a : Acc) :
    a.usage.Le (judge phase ts a).usage := by
  induction ts generalizing phase a with
  | nil =>
    cases phase with
    | command => exact a.le_spend ..
    | token => exact .refl _
    | bg => exact .refl _
    | file r => exact .refl _
  | cons tok ts ih =>
    have hstep := (a.le_spend ..).trans (spend_le_advance a phase tok)
    rw [judge_cons]
    refine hstep.trans ?_
    obtain ⟨b, _ | phase'⟩ := advance a phase tok
    · exact .refl _
    · exact ih phase' b

theorem token_fits {phase : Phase} (h : (judge phase (tok :: ts) a).Fits) :
    a.usage.bytes + (tok.text.length + 1) ≤ 256 := by
  have hstep := spend_le_advance a phase tok
  have hle : (advance a phase tok).1.usage.Le (judge phase (tok :: ts) a).usage := by
    rw [judge_cons]
    obtain ⟨b, _ | phase'⟩ := advance a phase tok
    · exact .refl _
    · exact judge_le phase' ts b
  exact (hstep.trans hle).bytes.trans h.bytes

theorem Verdict.Fits.of_le {v : Verdict} (h : v.Fits) (hle : u.Le v.usage) :
    u.bytes ≤ 256 ∧ u.slots ≤ 50 ∧ u.cmds ≤ 20 :=
  ⟨hle.bytes.trans h.bytes, hle.slots.trans h.slots, hle.cmds.trans h.cmds⟩

end

/-! ### The parser does what the tokens say -/

structure ParseInv (s₀ s : Lsh) (c : Command) (a : Acc) (pgms : List Program) : Prop where
  cp_eq : s.cp = a.usage.bytes
  cp_le : s.cp ≤ 256
  pp_eq : s.pp = a.usage.slots
  pp_le : s.pp ≤ 50
  free : FreeFrom a.usage.cmds s
  cmds_le : a.usage.cmds ≤ 20
  stale : ∀ i, s.cp ≤ i → s.cbuf i = s₀.cbuf i
  last : s.cbuf 255 = 0
  pgms : HasPgms a.usage s c.pgm (pgms.map Program.words).reverse
  files : ∀ r, HasFileName a.usage.bytes s (c.file r) (a.files.lookup r)
  background : c.background = false
  rstderr : c.rstderr = none

def Label.phase : Label → Phase
  | .newcmd => .command
  | .newtoken => .token

def AtLabel (s₀ s : Lsh) (c : Command) (a : Acc) : Label → Prop
  | .newcmd => a.words = [] ∧ a.redirs = [] ∧ ParseInv s₀ s c a a.done
  | .newtoken => ParseInv s₀ s c a a.programs

structure Verdict.Holds (v : Verdict) (s₀ : Lsh) (r : ℤ × Command) (t : Lsh) : Prop where
  last : t.cbuf 255 = 0
  reject : v.result = .reject → r.1 = -1
  accept : ∀ cl, v.result = .accept cl → r.1 = 1 ∧ Denotes t r.2 cl
  dangling : ∀ redir a, v.result = .dangling redir a →
    ∃ text, HasString 256 s₀ v.usage.bytes text ∧
      if text.all identChar then
        r.1 = 1 ∧ Denotes t r.2 ⟨(a.addFile redir text).programs, false⟩
      else r.1 = -1

def Label.fuel (label : Label) (t : Bytes) : ℕ :=
  2 * t.length + match label with
    | .newcmd => 2
    | .newtoken => 1

def Jump.Matches (s₀ : Lsh) (v : Verdict) (bound : ℕ) : Jump → Lsh → Prop
  | .ret value c, s => v.Fits ∧ v.Holds s₀ (value, c) s
  | .goto label t c, s => label.fuel t < bound ∧
      ((0 ∉ t ∧ ∃ a, AtLabel s₀ s c a label ∧ judge label.phase (tokens t) a = v) ∨
        (tokens t = [] ∧ label = .newtoken ∧ v.Fits ∧ v.Holds s₀ (1, c) s))

section

variable {s₀ s : Lsh} {c : Command} {pgms : List Program}

theorem HasFileName.congr {b' : ℕ} {t : Lsh} (h : HasFileName b s o name)
    (heq : ∀ j < b, t.cbuf j = s.cbuf j) (hle : b ≤ b') : HasFileName b' t o name := by
  cases o with
  | none =>
    cases name with
    | none => trivial
    | some text => exact absurd h id
  | some i =>
    cases name with
    | none => exact absurd h id
    | some text => exact HasString.congr h heq hle

theorem HasFileName.isSome_iff (h : HasFileName b s o name) : o.isSome = name.isSome := by
  cases o with
  | none =>
    cases name with
    | none => rfl
    | some text => exact absurd h id
  | some i =>
    cases name with
    | none => exact absurd h id
    | some text => rfl

theorem exists_words (ts : List Token) :
    ∃ (words : List Bytes) (rest : List Token),
      ts = words.map Token.word ++ rest ∧ StopsWords rest := by
  induction ts with
  | nil => exact ⟨[], [], rfl, rfl⟩
  | cons tok ts ih =>
    cases tok with
    | word text =>
      obtain ⟨words, rest, rfl, hrest⟩ := ih
      exact ⟨text :: words, rest, rfl, hrest⟩
    | pipe => exact ⟨[], _, rfl, rfl⟩
    | bg => exact ⟨[], _, rfl, rfl⟩
    | redir r => exact ⟨[], _, rfl, rfl⟩

theorem ParseInv.store (h : ParseInv s₀ s c a pgms) (hfit : s.cp + (text.length + 1) ≤ 256) :
    ParseInv s₀ (s.store text) c (a.spend (text.length + 1) 0 0) pgms := by
  have hgrown := grown_store s text hfit
  have hcp := h.cp_eq
  have hagree : AgreeBelow a.usage s (s.store text) :=
    ⟨fun i hi => hgrown.cbuf_lt i (by omega), fun _ _ => rfl, fun _ _ => rfl⟩
  refine ⟨?_, hfit, h.pp_eq, h.pp_le, ⟨h.free.cmds_eq, h.free.next_eq⟩, h.cmds_le, fun i hi => ?_,
    hgrown.last h.last, h.pgms.congr hagree (a.le_spend ..),
    fun r => (h.files r).congr hagree.cbuf_eq ?_, h.background, h.rstderr⟩
  · dsimp only [Lsh.store, Acc.spend]
    omega
  · rw [hgrown.cbuf_ge i hi]
    exact h.stale i (hgrown.cp_le.trans hi)
  · exact (a.le_spend ..).bytes

theorem ParseInv.denotes (h : ParseInv s₀ s c a a.programs) (background : Bool) :
    Denotes s { c with background } ⟨a.programs, background⟩ := by
  have hle : a.usage.Le .limits := ⟨h.cp_eq ▸ h.cp_le, h.pp_eq ▸ h.pp_le, h.cmds_le⟩
  refine ⟨h.pgms.congr ⟨fun _ _ => rfl, fun _ _ => rfl, fun _ _ => rfl⟩ hle, fun r => ?_, rfl,
    h.rstderr⟩
  have hfile := (h.files r).congr (fun _ _ => rfl) hle.bytes
  cases r with
  | rin => exact hfile
  | rut => exact hfile

theorem ParseInv.fits (h : ParseInv s₀ s c a pgms) {result : LineEnd}
    (hresult : ∀ r b, result ≠ .dangling r b) : Verdict.Fits ⟨a.usage, result⟩ :=
  ⟨h.cp_eq ▸ h.cp_le, h.pp_eq ▸ h.pp_le, h.cmds_le, fun r b heq => absurd heq (hresult r b)⟩

theorem ParseInv.rejected (h : ParseInv s₀ s c a pgms) {t : Lsh} (ht : t.cbuf = s.cbuf)
    (c' : Command) :
    Verdict.Fits ⟨a.usage, .reject⟩ ∧ Verdict.Holds ⟨a.usage, .reject⟩ s₀ (-1, c') t := by
  refine ⟨h.fits (by simp), ht ▸ h.last, fun _ => rfl, fun cl hcl => ?_, fun r b hb => ?_⟩
  · cases hcl
  · cases hb

theorem ParseInv.complain (h : ParseInv s₀ s c a pgms) (message : LshMessage) (c' : Command)
    (bound : ℕ) :
    Returns (do OsMaterial.complain message; return Jump.ret (-1) c') s
      (Jump.Matches s₀ ⟨a.usage, .reject⟩ bound) := by
  rw [returns_bind, OsMaterial.complain, returns_modify, returns_pure]
  exact ParseInv.rejected (t := { s with stderr := s.stderr ++ [message] }) h rfl c'

theorem ParseInv.accepted (h : ParseInv s₀ s c a a.programs) (background : Bool) :
    Verdict.Fits ⟨a.usage, .accept ⟨a.programs, background⟩⟩ ∧
      Verdict.Holds ⟨a.usage, .accept ⟨a.programs, background⟩⟩ s₀
        (1, { c with background }) s := by
  refine ⟨h.fits (by simp), h.last, fun hr => ?_, fun cl hcl => ?_, fun r b hb => ?_⟩
  · cases hr
  · obtain rfl := LineEnd.accept.inj hcl
    exact ⟨rfl, h.denotes background⟩
  · cases hb

theorem ReadCmd.parseInv {s₁ : Lsh} {words : List Bytes} {rest : List Token}
    (hread : ReadCmd a.usage.cmds s words rest s₁) (hinv : ParseInv s₀ s c a a.done)
    (hwords : a.words = []) (hredirs : a.redirs = []) (hcmds : a.usage.cmds < 20)
    (hbytes : s.cp + wordBytes words + lookBytes rest ≤ 256)
    (hslots : s.pp + words.length + 1 ≤ 50) :
    ParseInv s₀ (s₁.setNext a.usage.cmds c.pgm) { c with pgm := some a.usage.cmds }
      ((a.addWords words).spend (lookBytes rest) 1 1)
      ((a.addWords words).spend (lookBytes rest) 1 1).programs := by
  set a' := (a.addWords words).spend (lookBytes rest) 1 1 with ha'
  set s₂ := s₁.setNext a.usage.cmds c.pgm
  have hcp := hinv.cp_eq
  have hpp := hinv.pp_eq
  have hgrown := hread.grown
  have husage : a'.usage = ⟨s₁.cp, s₁.pp, a.usage.cmds + 1⟩ := by
    rw [hread.cp_eq, hread.pp_eq, ha', hcp, hpp]
    rfl
  have hprograms : a'.programs = a.done ++ [⟨words, []⟩] := by
    simp only [ha', Acc.programs, addWords, Acc.spend, hwords, hredirs, nil_append]
  have hfiles : a'.files = a.files := by
    rw [Acc.files, hprograms, Acc.files, Acc.programs, hredirs]
    simp only [flatMap_append, flatMap_cons, flatMap_nil]
  have hnode : s₂.cmdbuf a.usage.cmds = { s₁.cmdbuf a.usage.cmds with next := c.pgm } :=
    Function.update_self ..
  have hother : ∀ k, k ≠ a.usage.cmds → s₂.cmdbuf k = s₁.cmdbuf k := fun k hk =>
    Function.update_of_ne hk ..
  have hagree : AgreeBelow a.usage s s₂ := by
    refine ⟨fun i hi => hgrown.cbuf_lt i (by omega), fun p hp => hgrown.pbuf_lt p (by omega),
      fun k hk => ?_⟩
    rw [hother k hk.ne, hread.cmdbuf_lt k hk]
  have hle : a.usage.Le a'.usage := by
    have h₁ := hgrown.cp_le
    have h₂ := hgrown.pp_le
    rw [husage]
    exact ⟨by dsimp only; omega, by dsimp only; omega, Nat.le_succ _⟩
  refine ⟨?_, hread.cp_eq.trans_le hbytes, ?_, hread.pp_eq.trans_le hslots, ?_, ?_,
    fun i hi => ?_, hgrown.last hinv.last, ?_, fun r => ?_, hinv.background, hinv.rstderr⟩
  · rw [husage]
    rfl
  · rw [husage]
    rfl
  · rw [husage]
    refine ⟨hread.free.cmds_eq, fun k hk => ?_⟩
    rw [hother k (by dsimp only at hk; omega)]
    exact hread.free.next_eq k hk
  · rw [husage]
    exact hcmds
  · exact (hgrown.cbuf_ge i hi).trans (hinv.stale i (hgrown.cp_le.trans hi))
  · have hargs : HasArgs a'.usage s₂ s.pp words := by
      refine (hread.args 0).congr ⟨fun _ _ => rfl, fun _ _ => rfl, fun k hk => ?_⟩ ?_
      · exact absurd hk (Nat.not_lt_zero k)
      · rw [husage]
        exact ⟨le_rfl, le_rfl, Nat.zero_le _⟩
    have hrest := hinv.pgms.congr hagree hle
    rw [hprograms, map_append, reverse_append]
    refine ⟨a.usage.cmds, s.pp, rfl, by rw [husage]; exact Nat.lt_succ_self _, ?_, hargs, ?_⟩
    · rw [hnode]
      exact hread.pgmlist_eq
    · rw [hnode]
      exact hrest
  · rw [hfiles]
    have hfile := (hinv.files r).congr hagree.cbuf_eq hle.bytes
    cases r with
    | rin => exact hfile
    | rut => exact hfile

theorem newcmd_spec (h0 : 0 ∉ t) (h : AtLabel s₀ s c a .newcmd) :
    ReturnsWhen (newcmd t c) s (judge .command (tokens t) a).Fits LshFault.IsAccess
      (Jump.Matches s₀ (judge .command (tokens t) a) (Label.newcmd.fuel t)) := by
  obtain ⟨hwords, hredirs, hinv⟩ := h
  obtain ⟨words, rest, htokens, hrest⟩ := exists_words (tokens t)
  have hcp := hinv.cp_eq
  have hpp := hinv.pp_eq
  have hjudge := judge_command words hrest hwords
  rw [htokens]
  set a' := (a.addWords words).spend (lookBytes rest) 1 1 with ha'
  have husage : a'.usage =
      ⟨s.cp + wordBytes words + lookBytes rest, s.pp + words.length + 1, a.usage.cmds + 1⟩ := by
    rw [ha', hcp, hpp]
    rfl
  have hle : a'.usage.Le (judge .command (words.map .word ++ rest) a).usage := by
    rw [hjudge]
    split
    · next hnil =>
      subst hnil
      exact .refl _
    · exact judge_le ..
  refine ReturnsIff.when ((acmd_spec h0 htokens hrest hinv.cp_le hinv.free).with_cond.bind_returns
    ?_) fun hfits => ?_
  · rintro ⟨n, k⟩ s₁ ⟨⟨hcmds, hbytes, hslots⟩, hread, hk, hconsumed⟩
    dsimp only at hk hconsumed ⊢
    subst hk
    rw [hjudge]
    by_cases hnil : words = []
    · -- there is no word
      rw [if_pos (hconsumed.eq_zero_iff.mpr hnil), if_pos hnil, returns_pure]
      have hspent : (a.spend (lookBytes rest) 1 1).usage = a'.usage := by
        subst hnil
        rw [ha', a.addWords_nil]
      rw [hspent, husage]
      refine ⟨⟨hbytes, hslots, hcmds, fun r b hb => ?_⟩, hread.grown.last hinv.last, fun _ => rfl,
        fun cl hcl => ?_, fun r b hb => ?_⟩
      · cases hb
      · cases hcl
      · cases hb
    · rw [if_neg (hconsumed.eq_zero_iff.not.mpr hnil), if_neg hnil]
      simp only [returns_bind, returns_modify, returns_pure]
      refine ⟨?_, .inl ⟨fun h => h0 (mem_of_mem_drop h), a', ?_,
        congrArg (judge .token · a') hconsumed.rest_eq⟩⟩
      · simp only [Label.fuel, length_drop]
        omega
      · exact hread.parseInv hinv hwords hredirs hcmds hbytes hslots
  · obtain ⟨h₁, h₂, h₃⟩ := hfits.of_le hle
    rw [husage] at h₁ h₂ h₃
    dsimp only at h₁ h₂ h₃
    omega

/-! #### Redirections -/

theorem Acc.files_addFile (a : Acc) (r : Redir) (text : Bytes) :
    (a.addFile r text).files = a.files ++ [(r, text)] := by
  simp [Acc.files, Acc.programs, Acc.addFile]

theorem Acc.words_addFile (a : Acc) (r : Redir) (text : Bytes) :
    (a.addFile r text).programs.map Program.words = a.programs.map Program.words := by
  simp [Acc.programs, Acc.addFile]

theorem HasFileName.setFile {files : List (Redir × Bytes)}
    (h : ∀ r', HasFileName b s (c.file r') (files.lookup r')) (hnone : files.lookup r = none)
    (hstring : HasString b s i text) (r' : Redir) :
    HasFileName b s ((c.setFile i r).file r') ((files ++ [(r, text)]).lookup r') := by
  rw [lookup_append]
  by_cases heq : r' = r
  · subst heq
    rw [hnone]
    cases r' with
    | rin => exact hstring
    | rut => exact hstring
  · have hother : (c.setFile i r).file r' = c.file r' := by
      cases r <;> cases r' <;> first | rfl | exact absurd rfl heq
    have hlookup : [(r, text)].lookup r' = none := by
      rw [lookup_cons, beq_false_of_ne heq]
      rfl
    rw [hother, hlookup, Option.or_none]
    exact h r'

theorem Command.setFile_pgm (c : Command) (i : ℕ) (r : Redir) : (c.setFile i r).pgm = c.pgm := by
  cases r <;> rfl

theorem Command.setFile_background (c : Command) (i : ℕ) (r : Redir) :
    (c.setFile i r).background = c.background := by
  cases r <;> rfl

theorem Command.setFile_rstderr (c : Command) (i : ℕ) (r : Redir) :
    (c.setFile i r).rstderr = c.rstderr := by
  cases r <;> rfl

theorem ParseInv.addFile (h : ParseInv s₀ s c a a.programs) (hnone : a.files.lookup r = none)
    (hstring : HasString a.usage.bytes s i text) :
    ParseInv s₀ s (c.setFile i r) (a.addFile r text) (a.addFile r text).programs :=
  { h with
    pgms := by
      rw [c.setFile_pgm, a.words_addFile]
      exact h.pgms
    files := by
      rw [a.files_addFile]
      exact HasFileName.setFile h.files hnone hstring
    background := (c.setFile_background i r).trans h.background
    rstderr := (c.setFile_rstderr i r).trans h.rstderr }

theorem ParseInv.denotes_dangling (h : ParseInv s₀ s c a a.programs)
    (hnone : a.files.lookup r = none) (hstring : HasString 256 s i text) :
    Denotes s (c.setFile i r) ⟨(a.addFile r text).programs, false⟩ := by
  have hdenotes := h.denotes false
  refine ⟨?_, ?_, ?_, (c.setFile_rstderr i r).trans h.rstderr⟩
  · rw [c.setFile_pgm, a.words_addFile]
    exact hdenotes.pgms
  · have hfiles : (CommandLine.mk (a.addFile r text).programs false).files =
        a.files ++ [(r, text)] := a.files_addFile r text
    rw [hfiles]
    refine HasFileName.setFile (fun r' => ?_) hnone hstring
    exact (h.files r').congr (fun _ _ => rfl) (h.cp_eq ▸ h.cp_le)
  · exact (c.setFile_background i r).trans h.background

theorem Verdict.Holds.of_dangling {t : Lsh} {value : ℤ} (hlast : t.cbuf 255 = 0)
    (hstring : HasString 256 s₀ u.bytes text)
    (hvalue : if text.all identChar then value = 1 ∧
      Denotes t c ⟨(a.addFile r text).programs, false⟩ else value = -1) :
    Verdict.Holds ⟨u, .dangling r a⟩ s₀ (value, c) t := by
  refine ⟨hlast, fun h => ?_, fun cl h => ?_, fun r' b h => ?_⟩
  · cases h
  · cases h
  · obtain ⟨rfl, rfl⟩ := LineEnd.dangling.inj h
    exact ⟨text, hstring, hvalue⟩

theorem redirect_end (hend : tokens t = []) (hbound : Label.newtoken.fuel t < bound)
    (h : ParseInv s₀ s c a a.programs) (hnone : a.files.lookup r = none) :
    ReturnsIff (redirect r t c) s (s.cp < 256) LshFault.IsAccess
      (Jump.Matches s₀ ⟨a.usage, .dangling r a⟩ bound) := by
  have hfile : (c.file r).isSome = false := by
    rw [(h.files r).isSome_iff, hnone]
    rfl
  have hrun := nexttoken_end s (tokens_eq_nil_iff.mp hend)
  rw [redirect, hfile, if_neg Bool.false_ne_true]
  refine Returns.bind_returnsIff (Q := fun x t => x = (0, s.cp) ∧ t = s)
    ((returns_iff_of_run hrun _).mpr ⟨rfl, rfl⟩) ?_
  rintro _ s' ⟨rfl, hs'⟩
  subst hs'
  dsimp only
  refine ⟨fun hcp => ?_, fun hcp => ⟨.cbuf, by simp [LshFault.IsAccess], ?_⟩⟩
  · obtain ⟨text, hstring⟩ := exists_hasString h.last hcp
    have hstale : HasString 256 s₀ a.usage.bytes text :=
      h.cp_eq ▸ hstring.of_agree (fun j hj _ => (h.stale j hj).symm) le_rfl
    have hfits : Verdict.Fits ⟨a.usage, .dangling r a⟩ :=
      ⟨h.cp_eq ▸ h.cp_le, h.pp_eq ▸ h.pp_le, h.cmds_le, fun _ _ _ => h.cp_eq ▸ hcp⟩
    rw [returns_bind, isidentifier_returns hstring]
    cases hident : text.all identChar with
    | true =>
      rw [if_pos rfl, returns_pure]
      refine ⟨hbound, .inr ⟨hend, rfl, hfits, .of_dangling h.last hstale ?_⟩⟩
      rw [hident, if_pos rfl]
      exact ⟨rfl, h.denotes_dangling hnone hstring⟩
    | false =>
      rw [if_neg Bool.false_ne_true, returns_bind, complain, returns_modify, returns_pure]
      refine ⟨hfits, .of_dangling h.last hstale ?_⟩
      rw [hident, if_neg Bool.false_ne_true]
  · rw [isidentifier, isIdentifierFrom]
    exact ((panics_loadChar hcp).bind _).bind _

theorem nul_notMem_text (h : tok.Proper) : 0 ∉ tok.text := by
  cases tok with
  | word text => exact h.2.2
  | pipe => decide
  | bg => decide
  | redir r => cases r <;> decide

theorem advance_file (a : Acc) (r : Redir) (tok : Token) :
    advance a (.file r) tok =
      if tok.text.all identChar then
        ((a.spend (tok.text.length + 1) 0 0).addFile r tok.text, some .token)
      else (a.spend (tok.text.length + 1) 0 0, none) := by
  cases tok with
  | word text => rfl
  | pipe => rfl
  | bg => rfl
  | redir r => cases r <;> rfl

theorem redirect_token (h0 : 0 ∉ t) (htokens : tokens t = tok :: ts)
    (hbound : Label.newtoken.fuel t < bound) (h : ParseInv s₀ s c a a.programs)
    (hnone : a.files.lookup r = none) :
    ReturnsIff (redirect r t c) s (s.cp + (tok.text.length + 1) ≤ 256) LshFault.IsAccess
      (Jump.Matches s₀ (judge (.file r) (tok :: ts) a) bound) := by
  have hfile : (c.file r).isSome = false := by
    rw [(h.files r).isSome_iff, hnone]
    rfl
  obtain ⟨hproper, n, -, hn, hts, hspec⟩ := nexttoken_spec s h0 htokens
  rw [redirect, hfile, if_neg Bool.false_ne_true]
  refine hspec.with_cond.bind_returns ?_
  rintro _ _ ⟨hfit, rfl, rfl⟩
  have hinv := h.store hfit
  have hstring := hasString_store s (nul_notMem_text hproper)
  rw [returns_bind, isidentifier_returns (hstring.congr (fun _ _ => rfl) hfit), judge_cons,
    advance_file]
  cases hident : tok.text.all identChar with
  | true =>
    rw [if_pos rfl, if_pos rfl, returns_pure]
    refine ⟨?_, .inl ⟨fun hmem => h0 (mem_of_mem_drop hmem), _,
      hinv.addFile hnone (hinv.cp_eq ▸ hstring), congrArg (judge .token · _) hts⟩⟩
    simp only [Label.fuel, length_drop] at hbound ⊢
    omega
  | false =>
    exact hinv.complain ..

theorem redirect_spec (h0 : 0 ∉ t) (hbound : Label.newtoken.fuel t < bound)
    (h : ParseInv s₀ s c a a.programs) (r : Redir) :
    ReturnsWhen (redirect r t c) s (resume (dispatch a (.redir r)) (tokens t)).Fits
      LshFault.IsAccess
      (Jump.Matches s₀ (resume (dispatch a (.redir r)) (tokens t)) bound) := by
  cases hlookup : a.files.lookup r with
  | some name =>
    -- a duplicate
    have hfile : (c.file r).isSome = true := by
      rw [(h.files r).isSome_iff, hlookup]
      rfl
    have hverdict : resume (dispatch a (.redir r)) (tokens t) = ⟨a.usage, .reject⟩ := by
      rw [dispatch, hlookup]
      rfl
    rw [redirect, hfile, if_pos rfl, hverdict]
    exact (h.complain ..).when
  | none =>
    have hverdict : resume (dispatch a (.redir r)) (tokens t) =
        judge (.file r) (tokens t) a := by
      rw [dispatch, hlookup]
      rfl
    rw [hverdict]
    cases htokens : tokens t with
    | nil =>
      exact (redirect_end htokens hbound h hlookup).when fun hfits =>
        h.cp_eq ▸ hfits.dangling r a rfl
    | cons tok ts =>
      exact (redirect_token h0 htokens hbound h hlookup).when fun hfits =>
        h.cp_eq ▸ token_fits hfits

/-! #### The labels -/

theorem switchToken_bg (h0 : 0 ∉ t) (h : ParseInv s₀ s c a a.programs) :
    ReturnsWhen (switchToken 0x26 t c) s (judge .bg (tokens t) a).Fits LshFault.IsAccess
      (Jump.Matches s₀ (judge .bg (tokens t) a) bound) := by
  rw [switchToken, if_neg (by decide), if_pos rfl]
  cases htokens : tokens t with
  | nil =>
    have hrun := nexttoken_end s (tokens_eq_nil_iff.mp htokens)
    refine Returns.when ?_
    rw [returns_bind, returns_iff_of_run hrun]
    dsimp only
    rw [if_pos rfl, returns_pure]
    exact h.accepted true
  | cons tok ts =>
    obtain ⟨-, n, hn, -, -, hspec⟩ := nexttoken_spec s h0 htokens
    refine ReturnsIff.when (hspec.with_cond.bind_returns ?_) fun hfits => h.cp_eq ▸ token_fits hfits
    rintro _ _ ⟨hfit, rfl, rfl⟩
    dsimp only
    rw [if_neg hn.ne']
    exact (h.store hfit).complain ..

theorem Acc.files_next (a : Acc) : a.next.files = a.files := by
  simp [Acc.next, Acc.files, Acc.programs]

theorem ParseInv.next (h : ParseInv s₀ s c a a.programs) : ParseInv s₀ s c a.next a.programs :=
  { h with
    files := by
      rw [a.files_next]
      exact h.files }

theorem switchToken_spec {first : UInt8} {rest : Bytes} (hfirst : tok.text = first :: rest)
    (hspec : isSpec first = !tok.isWord) (h0 : 0 ∉ t) (hbound : Label.newcmd.fuel t < bound)
    (h : ParseInv s₀ s c a a.programs) :
    ReturnsWhen (switchToken first t c) s (resume (dispatch a tok) (tokens t)).Fits
      LshFault.IsAccess (Jump.Matches s₀ (resume (dispatch a tok) (tokens t)) bound) := by
  cases tok with
  | word text =>
    have hne : ∀ d : UInt8, isSpec d = true → first ≠ d := by
      rintro d hd rfl
      rw [hd] at hspec
      cases hspec
    refine Returns.when ?_
    rw [switchToken, if_neg (hne _ rfl), if_neg (hne _ rfl), if_neg (hne _ rfl),
      if_neg (hne _ rfl), returns_pure]
    exact h.rejected rfl c
  | pipe =>
    obtain ⟨rfl, -⟩ := List.cons.inj hfirst
    refine Returns.when ?_
    rw [switchToken, if_pos rfl, returns_pure]
    exact ⟨hbound, .inl ⟨h0, _, ⟨rfl, rfl, h.next⟩, rfl⟩⟩
  | bg =>
    obtain ⟨rfl, -⟩ := List.cons.inj hfirst
    exact switchToken_bg h0 h
  | redir r =>
    obtain ⟨rfl, -⟩ := List.cons.inj hfirst
    have hredirect := redirect_spec h0 ((Nat.lt_succ_self _).trans hbound) h r
    cases r with
    | rin => exact hredirect
    | rut => exact hredirect

theorem newtoken_spec (h0 : 0 ∉ t) (h : ParseInv s₀ s c a a.programs) :
    ReturnsWhen (newtoken t c) s (judge .token (tokens t) a).Fits LshFault.IsAccess
      (Jump.Matches s₀ (judge .token (tokens t) a) (Label.newtoken.fuel t)) := by
  rw [newtoken]
  cases htokens : tokens t with
  | nil =>
    have hrun := nexttoken_end s (tokens_eq_nil_iff.mp htokens)
    have hc : { c with background := false } = c := by rw [← h.background]
    have haccepted := h.accepted false
    rw [hc] at haccepted
    refine Returns.when ?_
    rw [returns_bind, returns_iff_of_run hrun]
    dsimp only
    rw [if_pos rfl, returns_pure]
    exact haccepted
  | cons tok ts =>
    obtain ⟨hproper, n, hn, hle, hts, hspec⟩ := nexttoken_spec s h0 htokens
    obtain ⟨first, rest, hfirst, hload, hword⟩ := cbuf_store hproper s
    have h0' : 0 ∉ t.drop n := fun hmem => h0 (mem_of_mem_drop hmem)
    have hbound : Label.newcmd.fuel (t.drop n) < Label.newtoken.fuel t := by
      simp only [Label.fuel, length_drop]
      omega
    refine hspec.bind_when (fun hfits => h.cp_eq ▸ token_fits hfits) fun hfit => ?_
    rintro _ _ ⟨rfl, rfl⟩
    dsimp only
    have hswitch := switchToken_spec hfirst hword h0' hbound (h.store hfit)
    rw [hts] at hswitch
    rw [if_neg hn.ne', judge_cons]
    refine Returns.bind_when (Q := fun b u => b = first ∧ u = s.store tok.text)
      ((returns_loadChar (by omega) _).mpr ⟨hload, rfl⟩) ?_
    rintro _ _ ⟨rfl, rfl⟩
    exact hswitch

variable {fuel : ℕ}

theorem parseLoop_end (hend : tokens t = []) (hfuel : 0 < fuel)
    (Q : ℤ × Command → Lsh → Prop) : Returns (parseLoop fuel .newtoken t c) s Q ↔ Q (1, c) s := by
  obtain ⟨fuel, rfl⟩ := Nat.exists_eq_succ_of_ne_zero hfuel.ne'
  have hrun := nexttoken_end s (tokens_eq_nil_iff.mp hend)
  rw [parseLoop, returns_bind, atLabel, newtoken, returns_bind, returns_iff_of_run hrun]
  dsimp only
  rw [if_pos rfl, returns_pure, returns_pure]

theorem parseLoop_spec {label : Label} (h0 : 0 ∉ t) (hfuel : label.fuel t ≤ fuel)
    (h : AtLabel s₀ s c a label) :
    ReturnsIff (parseLoop fuel label t c) s (judge label.phase (tokens t) a).Fits
      LshFault.IsAccess ((judge label.phase (tokens t) a).Holds s₀) := by
  induction fuel generalizing s c a label t with
  | zero => cases label <;> simp [Label.fuel] at hfuel
  | succ fuel ih =>
    have hjump : ReturnsWhen (atLabel label t c) s (judge label.phase (tokens t) a).Fits
        LshFault.IsAccess (Jump.Matches s₀ (judge label.phase (tokens t) a) (label.fuel t)) := by
      cases label with
      | newcmd => exact newcmd_spec h0 h
      | newtoken => exact newtoken_spec h0 h
    refine hjump.bind fun jump s' hmatches => ?_
    cases jump with
    | ret value c' =>
      obtain ⟨hfits, hholds⟩ := hmatches
      exact ⟨fun _ => (returns_pure ..).mpr hholds, fun hn => absurd hfits hn⟩
    | goto label' t' c' =>
      obtain ⟨hbound, ⟨h0', a', hat, hverdict⟩ | ⟨hend, rfl, hfits, hholds⟩⟩ := hmatches
      · rw [← hverdict]
        exact ih h0' (by omega) hat
      · have hpos : 0 < Label.newtoken.fuel t' := Nat.succ_pos _
        exact ⟨fun _ => (parseLoop_end hend (by omega) _).mpr hholds, fun hn => absurd hfits hn⟩

/-- **The parser.** It returns exactly when the line fits into the buffers, and then with the
result that the tokens of the line have. -/
theorem parse_spec (h0 : 0 ∉ line) (hlast : s.cbuf 255 = 0) :
    ReturnsIff (parse line) s (judge .command (tokens line) .start).Fits LshFault.IsAccess
      ((judge .command (tokens line) .start).Holds s) := by
  rw [parse, init, returnsIff_modify_bind]
  refine parseLoop_spec h0 le_rfl (show AtLabel _ _ _ _ .newcmd from ⟨rfl, rfl, ?_⟩)
  refine ⟨rfl, Nat.zero_le _, rfl, Nat.zero_le _, ⟨rfl, fun k hk => rfl⟩, Nat.zero_le _,
    fun _ _ => rfl, hlast, rfl, fun r => ?_, rfl, rfl⟩
  cases r <;> trivial

end

/-! ### Only the grammar is accepted -/

section

variable {α : Type}
variable {l : List (List α)}

theorem intercalate_cons (sep x : List α) (h : l ≠ []) :
    sep.intercalate (x :: l) = x ++ sep ++ sep.intercalate l := by
  obtain ⟨y, l, rfl⟩ := exists_cons_of_ne_nil h
  simp

theorem mem_or_mem_of_mem_intercalate {sep : List α} {x : α}
    (h : x ∈ sep.intercalate l) : x ∈ sep ∨ ∃ y ∈ l, x ∈ y := by
  induction l with
  | nil => cases h
  | cons y l ih =>
    by_cases hl : l = []
    · subst hl
      refine .inr ⟨y, mem_cons_self, ?_⟩
      simpa [intercalate] using h
    · rw [intercalate_cons sep y hl, mem_append, mem_append] at h
      obtain (hy | hsep) | hrest := h
      · exact .inr ⟨y, mem_cons_self, hy⟩
      · exact .inl hsep
      · obtain hsep | ⟨z, hz, hx⟩ := ih hrest
        · exact .inl hsep
        · exact .inr ⟨z, mem_cons_of_mem y hz, hx⟩

theorem intercalate_concat_append (sep : List α) (l : List (List α)) (p q : List α) :
    sep.intercalate (l ++ [p ++ q]) = sep.intercalate (l ++ [p]) ++ q := by
  induction l with
  | nil => simp
  | cons x l ih =>
    rw [cons_append, cons_append, intercalate_cons sep x (by simp),
      intercalate_cons sep x (by simp), ih, append_assoc _ _ q]

theorem intercalate_concat (sep : List α) (l : List (List α)) (p q : List α) :
    sep.intercalate (l ++ [p] ++ [q]) = sep.intercalate (l ++ [p]) ++ sep ++ q := by
  induction l with
  | nil => simp
  | cons x l ih =>
    rw [cons_append, cons_append, intercalate_cons sep x (by simp),
      intercalate_cons sep x (by simp), ih]
    simp

end

def Acc.tokens (a : Acc) : List Token := [Token.pipe].intercalate (a.programs.map Program.tokens)

def Phase.tokens : Phase → List Token
  | .command => []
  | .token => []
  | .bg => [.bg]
  | .file r => [.redir r]

structure Reading (seen : List Token) (a : Acc) (phase : Phase) : Prop where
  seen_eq : seen = a.tokens ++ phase.tokens
  done_ne : ∀ p ∈ a.done, p.words ≠ []
  proper : ∀ p ∈ a.programs, ∀ text ∈ p.words, (Token.word text).Proper
  file_name : ∀ f ∈ a.files, f.2 ≠ [] ∧ f.2.all identChar = true
  once : (a.files.map Prod.fst).Nodup
  redirs_eq : phase = .command → a.redirs = []
  words_ne : phase ≠ .command → a.words ≠ []
  fresh : ∀ r, phase = .file r → a.files.lookup r = none

section

variable {seen : List Token} {b : Acc} {phase phase' : Phase}

theorem reading_start : Reading [] .start .command where
  seen_eq := rfl
  done_ne _ h := absurd h not_mem_nil
  proper := by simp [start, Acc.programs]
  file_name _ h := absurd h not_mem_nil
  once := nodup_nil
  redirs_eq _ := rfl
  words_ne h := absurd rfl h
  fresh _ h := by cases h

theorem Reading.spend (h : Reading seen a phase) (bytes slots cmds : ℕ) :
    Reading seen (a.spend bytes slots cmds) phase :=
  { h with }

theorem Reading.token (h : Reading seen a .command) (hne : a.words ≠ []) : Reading seen a .token :=
  ⟨h.seen_eq, h.done_ne, h.proper, h.file_name, h.once, nofun, fun _ => hne, nofun⟩

theorem Reading.addWord (h : Reading seen a .command) (hproper : (Token.word text).Proper) :
    Reading (seen ++ [.word text]) (a.addWords [text]) .command := by
  have hredirs := h.redirs_eq rfl
  have hfiles : (a.addWords [text]).files = a.files := by
    simp [Acc.files, Acc.programs, addWords, Acc.spend]
  refine ⟨?_, h.done_ne, fun p hp text' htext => ?_, hfiles ▸ h.file_name, hfiles ▸ h.once,
    fun _ => hredirs, fun hphase => absurd rfl hphase, nofun⟩
  · rw [h.seen_eq]
    simp only [Phase.tokens, append_nil, Acc.tokens, Acc.programs, map_append, map_cons, map_nil,
      Program.tokens, addWords, Acc.spend, hredirs, flatMap_nil]
    rw [intercalate_concat_append]
  · rw [Acc.programs, mem_append, mem_singleton] at hp
    rcases hp with hp | rfl
    · exact h.proper p (mem_append_left _ hp) text' htext
    · rcases mem_append.mp htext with hold | hnew
      · exact h.proper _ (mem_append_right _ mem_cons_self) text' hold
      · rw [mem_singleton.mp hnew]
        exact hproper

theorem Reading.addFile (h : Reading seen a (.file r)) (hproper : (Token.word text).Proper)
    (hident : text.all identChar = true) :
    Reading (seen ++ [.word text]) (a.addFile r text) .token := by
  have hmem : ∀ p ∈ (a.addFile r text).programs, ∃ p' ∈ a.programs, p.words = p'.words := by
    intro p hp
    rw [Acc.programs, mem_append, mem_singleton] at hp
    rcases hp with hp | rfl
    · exact ⟨p, mem_append_left _ hp, rfl⟩
    · exact ⟨_, mem_append_right _ mem_cons_self, rfl⟩
  refine ⟨?_, h.done_ne, fun p hp text' htext => ?_, fun f hf => ?_, ?_,
    nofun, fun _ => h.words_ne (by simp),
    nofun⟩
  · rw [h.seen_eq]
    have hcurrent : Program.tokens ⟨a.words, a.redirs ++ [(r, text)]⟩ =
        Program.tokens ⟨a.words, a.redirs⟩ ++ [.redir r, .word text] := by
      simp [Program.tokens]
    simp only [Phase.tokens, append_nil, Acc.tokens, Acc.programs, map_append,
      map_cons, map_nil, Acc.addFile, hcurrent]
    rw [intercalate_concat_append, append_assoc]
    rfl
  · obtain ⟨p', hp', heq⟩ := hmem p hp
    exact h.proper p' hp' text' (heq ▸ htext)
  · rw [a.files_addFile] at hf
    rcases mem_append.mp hf with hf | hf
    · exact h.file_name f hf
    · rw [mem_singleton.mp hf]
      exact ⟨hproper.1, hident⟩
  · rw [a.files_addFile, map_append, map_singleton]
    refine nodup_append.mpr ⟨h.once, nodup_singleton r, fun r' hr' r'' hr'' => ?_⟩
    obtain ⟨f, hf, rfl⟩ := mem_map.mp hr'
    rw [mem_singleton.mp hr'']
    exact (bne_iff_ne.mp (lookup_eq_none_iff.mp (h.fresh r rfl) f hf)).symm

theorem Reading.dispatch (h : Reading seen a .token) (hstep : dispatch a tok = (b, some phase)) :
    Reading (seen ++ [tok]) b phase := by
  have hseen : seen = a.tokens := by
    rw [h.seen_eq]
    exact append_nil _
  cases tok with
  | word text => cases hstep
  | pipe =>
    obtain ⟨rfl, hphase⟩ := Prod.mk.inj hstep
    obtain rfl := Option.some.inj hphase
    have hfiles := a.files_next
    refine ⟨?_, fun p hp => ?_, fun p hp => ?_, hfiles ▸ h.file_name, hfiles ▸ h.once,
      fun _ => rfl, fun hne => absurd rfl hne, nofun⟩
    · rw [hseen]
      simp only [Phase.tokens, append_nil, Acc.tokens, Acc.next, Acc.programs,
        map_append, map_cons, map_nil]
      rw [intercalate_concat]
      simp [Program.tokens]
    · rcases mem_append.mp hp with hp | hp
      · exact h.done_ne p hp
      · rw [mem_singleton.mp hp]
        exact h.words_ne (by simp)
    · rcases mem_append.mp hp with hp | hp
      · exact h.proper p hp
      · rw [mem_singleton.mp hp]
        exact fun _ htext => absurd htext not_mem_nil
  | bg =>
    obtain ⟨rfl, hphase⟩ := Prod.mk.inj hstep
    obtain rfl := Option.some.inj hphase
    refine ⟨?_, h.done_ne, h.proper, h.file_name, h.once, nofun,
      fun _ => h.words_ne (by simp), nofun⟩
    rw [hseen]
    rfl
  | redir r =>
    obtain ⟨rfl, hphase⟩ := Prod.mk.inj hstep
    split at hphase
    · cases hphase
    · next hnone =>
      obtain rfl := Option.some.inj hphase
      refine ⟨?_, h.done_ne, h.proper, h.file_name, h.once, nofun,
        fun _ => h.words_ne (by simp), fun r' hphase => ?_⟩
      · rw [hseen]
        rfl
      · obtain rfl := Phase.file.inj hphase
        exact Option.not_isSome_iff_eq_none.mp hnone

theorem Reading.advance (h : Reading seen a phase) (hproper : tok.Proper)
    (hstep : advance a phase tok = (b, some phase')) : Reading (seen ++ [tok]) b phase' := by
  cases phase with
  | command =>
    cases hword : tok.isWord with
    | true =>
      cases tok with
      | word text =>
        obtain ⟨rfl, hphase⟩ := Prod.mk.inj hstep
        obtain rfl := Option.some.inj hphase
        exact h.addWord hproper
      | pipe => cases hword
      | bg => cases hword
      | redir r => cases hword
    | false =>
      rw [advance_command hword] at hstep
      split at hstep
      · cases hstep
      · next hne => exact (((h.token hne).spend ..).spend ..).dispatch hstep
  | token => exact (h.spend ..).dispatch hstep
  | bg => cases hstep
  | file r =>
    rw [advance_file] at hstep
    split at hstep
    · next hident =>
      obtain ⟨rfl, hphase⟩ := Prod.mk.inj hstep
      obtain rfl := Option.some.inj hphase
      cases tok with
      | word text => exact (h.spend ..).addFile hproper hident
      | pipe => cases hident
      | bg => cases hident
      | redir r => cases r <;> cases hident
    · cases hstep

theorem judge_cases (h : Reading seen a phase) (hproper : ∀ tok ∈ ts, tok.Proper) :
    (judge phase ts a).result = .reject ∨
      ∃ b phase', Reading (seen ++ ts) b phase' ∧ judge phase ts a = finish b phase' := by
  induction ts generalizing seen a phase with
  | nil =>
    right
    rw [append_nil]
    exact ⟨a, phase, h, rfl⟩
  | cons tok ts ih =>
    rw [judge_cons]
    cases hstep : advance a phase tok with
    | mk b next =>
      cases next with
      | none => exact .inl rfl
      | some phase' =>
        have hread := h.advance (hproper tok mem_cons_self) hstep
        have hrest := ih hread fun tok' htok' => hproper tok' (mem_cons_of_mem tok htok')
        rwa [append_assoc, singleton_append] at hrest

theorem Reading.wellFormed (h : Reading seen a phase) (hne : a.words ≠ []) (background : Bool) :
    CommandLine.WellFormed ⟨a.programs, background⟩ where
  programs_ne := append_ne_nil_of_right_ne_nil _ (cons_ne_nil _ _)
  words_ne p hp := by
    rcases mem_append.mp hp with hp | hp
    · exact h.done_ne p hp
    · rw [mem_singleton.mp hp]
      exact hne
  words_proper := h.proper
  file_name := h.file_name
  once := h.once

theorem proper_of_mem_tokens (h0 : 0 ∉ line) : ∀ tok ∈ tokens line, tok.Proper := by
  generalize hts : tokens line = ts
  induction ts generalizing line with
  | nil => exact fun tok htok => absurd htok not_mem_nil
  | cons tok ts ih =>
    obtain ⟨hproper, n, -, -, hrest, -⟩ := nexttoken_spec .zero h0 hts
    intro tok' htok'
    rcases mem_cons.mp htok' with rfl | htok'
    · exact hproper
    · exact ih (fun hmem => h0 (mem_of_mem_drop hmem)) hrest tok' htok'

/-- **What is accepted is a command.** -/
theorem judge_accept (hproper : ∀ tok ∈ ts, tok.Proper)
    (h : (judge .command ts .start).result = .accept cl) : cl.WellFormed ∧ cl.tokens = ts := by
  obtain hreject | ⟨b, phase, hread, hfinish⟩ := judge_cases reading_start hproper
  · rw [hreject] at h
    cases h
  · rw [hfinish] at h
    have hseen := hread.seen_eq
    cases phase with
    | command =>
      rw [finish] at h
      split at h
      · cases h
      · next hne =>
        obtain rfl := LineEnd.accept.inj h
        exact ⟨hread.wellFormed hne false, hseen.symm⟩
    | token =>
      obtain rfl := LineEnd.accept.inj h
      exact ⟨hread.wellFormed (hread.words_ne (by simp)) false, hseen.symm⟩
    | bg =>
      obtain rfl := LineEnd.accept.inj h
      exact ⟨hread.wellFormed (hread.words_ne (by simp)) true, hseen.symm⟩
    | file r => cases h

theorem judge_dangling (hproper : ∀ tok ∈ ts, tok.Proper)
    (h : (judge .command ts .start).result = .dangling r a) :
    CommandLine.WellFormed ⟨a.programs, false⟩ ∧ a.files.lookup r = none ∧
      ts = CommandLine.tokens ⟨a.programs, false⟩ ++ [.redir r] := by
  obtain hreject | ⟨b, phase, hread, hfinish⟩ := judge_cases reading_start hproper
  · rw [hreject] at h
    cases h
  · rw [hfinish] at h
    cases phase with
    | command =>
      rw [finish] at h
      split at h <;> cases h
    | token => cases h
    | bg => cases h
    | file r' =>
      obtain ⟨rfl, rfl⟩ := LineEnd.dangling.inj h
      refine ⟨hread.wellFormed (hread.words_ne (by simp)) false, hread.fresh _ rfl, ?_⟩
      have hseen := hread.seen_eq
      rw [nil_append] at hseen
      rw [hseen, CommandLine.tokens, if_neg (by simp), append_nil]
      rfl

end

/-! ### Every command is accepted -/

def tokenBytes (ts : List Token) : ℕ := (ts.map fun tok => tok.text.length + 1).sum

/-- The special characters that `acmd` stores when it has read the words of a program, and that
the parser stores again: one for each program that has something behind its words. -/
def lookAhead (behind : Bool) : List Program → ℕ
  | [] => 0
  | [p] => if p.redirs ≠ [] ∨ behind then 1 else 0
  | _ :: p :: ps => 1 + lookAhead behind (p :: ps)

/-- **How much of the buffers a command takes.** -/
def CommandLine.usage (cl : CommandLine) : Usage where
  bytes := tokenBytes cl.tokens + 2 * lookAhead cl.background cl.programs
  slots := (cl.programs.map fun p => p.words.length + 1).sum
  cmds := cl.programs.length

def redirTokens (redirs : List (Redir × Bytes)) : List Token :=
  redirs.flatMap fun f => [.redir f.1, .word f.2]

def Acc.addFiles (a : Acc) (redirs : List (Redir × Bytes)) : Acc :=
  { a.spend (tokenBytes (redirTokens redirs)) 0 0 with redirs := a.redirs ++ redirs }

section

theorem tokenBytes_append (ts ts' : List Token) :
    tokenBytes (ts ++ ts') = tokenBytes ts + tokenBytes ts' := by
  rw [tokenBytes, map_append, sum_append]
  rfl

theorem tokenBytes_cons (tok : Token) (ts : List Token) :
    tokenBytes (tok :: ts) = tok.text.length + 1 + tokenBytes ts := rfl

theorem tokenBytes_words (words : List Bytes) :
    tokenBytes (words.map Token.word) = wordBytes words := by
  rw [tokenBytes, wordBytes, map_map]
  rfl

theorem advance_redir (h : a.files.lookup r = none) :
    advance a .token (.redir r) = (a.spend 2 0 0, some (.file r)) := by
  have hlookup : (a.spend 2 0 0).files.lookup r = none := h
  simp only [advance, dispatch, Token.text, length_singleton, Nat.reduceAdd, hlookup,
    Option.isSome_none, Bool.false_eq_true, if_false]

theorem judge_redir (hfresh : a.files.lookup r = none) (hident : text.all identChar = true) :
    judge .token (.redir r :: .word text :: rest) a =
      judge .token rest ((a.spend (tokenBytes [.redir r, .word text]) 0 0).addFile r text) := by
  have hbytes : tokenBytes [.redir r, .word text] = 2 + (text.length + 1) := rfl
  have hspend : (a.spend 2 0 0).spend (text.length + 1) 0 0 =
      a.spend (tokenBytes [.redir r, .word text]) 0 0 := by
    simp only [hbytes, Acc.spend, Nat.add_zero, Nat.add_assoc]
  rw [judge_cons, advance_redir hfresh, resume, judge_cons, advance_file, Token.text, hident,
    if_pos rfl, hspend]
  rfl

theorem judge_redirs {redirs : List (Redir × Bytes)}
    (hnames : ∀ f ∈ redirs, f.2.all identChar = true)
    (honce : ((a.files ++ redirs).map Prod.fst).Nodup) :
    judge .token (redirTokens redirs ++ rest) a = judge .token rest (a.addFiles redirs) := by
  induction redirs generalizing a with
  | nil =>
    rw [addFiles, append_nil]
    rfl
  | cons f redirs ih =>
    obtain ⟨r, text⟩ := f
    have hfresh : a.files.lookup r = none := by
      rw [map_append, nodup_append] at honce
      refine lookup_eq_none_iff.mpr fun f hf => bne_iff_ne.mpr ?_
      exact (honce.2.2 f.1 (mem_map_of_mem hf) r mem_cons_self).symm
    have hfiles : ((a.spend (tokenBytes [.redir r, .word text]) 0 0).addFile r text).files ++
        redirs = a.files ++ (r, text) :: redirs := by
      rw [files_addFile, append_assoc]
      rfl
    have hcons : redirTokens ((r, text) :: redirs) ++ rest =
        .redir r :: .word text :: (redirTokens redirs ++ rest) := rfl
    rw [hcons, judge_redir hfresh (hnames _ mem_cons_self),
      ih (fun f hf => hnames f (mem_cons_of_mem _ hf)) (hfiles ▸ honce)]
    congr 1
    simp only [addFiles, Acc.addFile, Acc.spend, append_assoc, singleton_append,
      Nat.add_zero, Nat.add_assoc, ← tokenBytes_append]
    rfl

def Acc.addProgram (a : Acc) (p : Program) (behind : Bool) : Acc :=
  ((a.addWords p.words).spend (2 * lookAhead behind [p]) 1 1).addFiles p.redirs

theorem judge_program {p : Program} (ha : a.words = []) (hne : p.words ≠ [])
    (hnames : ∀ f ∈ p.redirs, f.2.all identChar = true)
    (honce : ((a.files ++ p.redirs).map Prod.fst).Nodup) (hrest : StopsWords rest) :
    judge .command (p.tokens ++ rest) a = judge .token rest (a.addProgram p !rest.isEmpty) := by
  have hstops : StopsWords (redirTokens p.redirs ++ rest) := by
    cases p.redirs with
    | nil => exact hrest
    | cons f redirs => rfl
  have hlook : lookBytes (redirTokens p.redirs ++ rest) = 2 * lookAhead (!rest.isEmpty) [p] := by
    rw [lookAhead]
    cases p.redirs with
    | nil =>
      cases rest with
      | nil => rfl
      | cons tok ts =>
        cases tok with
        | word text => cases hrest
        | pipe => rfl
        | bg => rfl
        | redir r => rfl
    | cons f redirs =>
      rfl
  have htokens : p.tokens ++ rest = p.words.map .word ++ (redirTokens p.redirs ++ rest) :=
    append_assoc ..
  rw [htokens, judge_command p.words hstops ha, if_neg hne, hlook, judge_redirs hnames]
  · rfl
  · have hfiles : ((a.addWords p.words).spend (2 * lookAhead (!rest.isEmpty) [p]) 1 1).files =
        a.files := by
      simp [Acc.files, Acc.programs, addWords, Acc.spend]
    rw [hfiles]
    exact honce

theorem Acc.programs_addProgram (p : Program) (behind : Bool) (ha : a.words = [])
    (hredirs : a.redirs = []) : (a.addProgram p behind).programs = a.done ++ [p] := by
  simp [addProgram, addFiles, addWords, Acc.spend, Acc.programs, ha, hredirs]

theorem Acc.files_addProgram (p : Program) (behind : Bool) (ha : a.words = [])
    (hredirs : a.redirs = []) : (a.addProgram p behind).files = a.files ++ p.redirs := by
  rw [Acc.files, programs_addProgram p behind ha hredirs, Acc.files, Acc.programs, hredirs]
  simp only [flatMap_append, flatMap_cons, flatMap_nil, append_nil]

theorem Acc.usage_addProgram (a : Acc) (p : Program) (behind : Bool) :
    (a.addProgram p behind).usage =
      ⟨a.usage.bytes + (tokenBytes p.tokens + 2 * lookAhead behind [p]),
        a.usage.slots + (p.words.length + 1), a.usage.cmds + 1⟩ := by
  have hbytes : tokenBytes p.tokens = wordBytes p.words + tokenBytes (redirTokens p.redirs) := by
    rw [Program.tokens, tokenBytes_append, tokenBytes_words]
    rfl
  simp only [addProgram, addFiles, addWords, Acc.spend, hbytes, Usage.mk.injEq,
    Nat.add_zero, Nat.add_assoc, and_true]
  rw [Nat.add_comm (2 * _)]

theorem judge_programs {ps : List Program} (ha : a.words = []) (hredirs : a.redirs = [])
    (hps : ps ≠ []) (hwords : ∀ p ∈ ps, p.words ≠ [])
    (hnames : ∀ f ∈ ps.flatMap Program.redirs, f.2.all identChar = true)
    (honce : ((a.files ++ ps.flatMap Program.redirs).map Prod.fst).Nodup)
    (hrest : StopsWords rest) :
    ∃ b : Acc, b.programs = a.done ++ ps ∧
      b.usage = ⟨a.usage.bytes + (tokenBytes ([Token.pipe].intercalate (ps.map Program.tokens)) +
          2 * lookAhead (!rest.isEmpty) ps),
        a.usage.slots + (ps.map fun p => p.words.length + 1).sum, a.usage.cmds + ps.length⟩ ∧
      judge .command ([Token.pipe].intercalate (ps.map Program.tokens) ++ rest) a =
        judge .token rest b := by
  induction ps generalizing a with
  | nil => exact absurd rfl hps
  | cons p ps ih =>
    have hpwords := hwords p mem_cons_self
    have hpnames : ∀ f ∈ p.redirs, f.2.all identChar = true := fun f hf =>
      hnames f (mem_append_left _ hf)
    have hfiles : a.files ++ (p :: ps).flatMap Program.redirs =
        (a.files ++ p.redirs) ++ ps.flatMap Program.redirs := by
      rw [flatMap_cons, append_assoc]
    rw [hfiles, map_append] at honce
    have hponce := (nodup_append.mp honce).1
    cases ps with
    | nil =>
      refine ⟨a.addProgram p !rest.isEmpty, programs_addProgram p _ ha hredirs, ?_, ?_⟩
      · rw [usage_addProgram]
        simp
      · have hone : [Token.pipe].intercalate ([p].map Program.tokens) = p.tokens := by simp
        rw [hone, judge_program ha hpwords hpnames hponce hrest]
    | cons q ps =>
      -- the pipe behind the program
      have hfiles' : ((a.addProgram p true).spend 2 0 0).next.files = a.files ++ p.redirs := by
        rw [files_next]
        exact files_addProgram p true ha hredirs
      obtain ⟨b, hprograms, husage, hjudge⟩ :=
        ih (a := ((a.addProgram p true).spend 2 0 0).next)
        rfl rfl (cons_ne_nil q ps) (fun p' hp' => hwords p' (mem_cons_of_mem p hp'))
        (fun f hf => hnames f (mem_append_right _ hf))
        (by rw [hfiles', map_append]; exact honce)
      have hjoin : [Token.pipe].intercalate ((p :: q :: ps).map Program.tokens) =
          p.tokens ++ .pipe :: [Token.pipe].intercalate ((q :: ps).map Program.tokens) := by
        rfl
      refine ⟨b, ?_, ?_, ?_⟩
      · have hdone : ((a.addProgram p true).spend 2 0 0).next.done = a.done ++ [p] :=
          programs_addProgram p true ha hredirs
        rw [hprograms, hdone, append_assoc]
        rfl
      · have hspent : ((a.addProgram p true).spend 2 0 0).next.usage =
            ⟨a.usage.bytes + (tokenBytes p.tokens + 2) + 2,
              a.usage.slots + (p.words.length + 1), a.usage.cmds + 1⟩ := by
          simp only [Acc.next, Acc.spend, usage_addProgram, lookAhead, or_true, if_true,
            Nat.mul_one, Nat.add_zero]
        have hpipe : Token.pipe.text.length = 1 := rfl
        rw [husage, hspent, hjoin, tokenBytes_append, tokenBytes_cons, hpipe, lookAhead]
        simp only [map_cons, sum_cons, length_cons, Usage.mk.injEq]
        omega
      · have hstops : StopsWords (.pipe ::
            [Token.pipe].intercalate ((q :: ps).map Program.tokens) ++ rest) := rfl
        rw [hjoin, append_assoc, judge_program ha hpwords hpnames hponce hstops]
        exact hjudge

theorem CommandLine.WellFormed.judge_programs (h : cl.WellFormed) (rest : List Token)
    (hrest : StopsWords rest) :
    ∃ b : Acc, b.programs = cl.programs ∧
      b.usage = ⟨tokenBytes ([Token.pipe].intercalate (cl.programs.map Program.tokens)) +
          2 * lookAhead (!rest.isEmpty) cl.programs, cl.usage.slots, cl.usage.cmds⟩ ∧
      judge .command ([Token.pipe].intercalate (cl.programs.map Program.tokens) ++ rest) .start =
        judge .token rest b := by
  obtain ⟨b, hprograms, husage, hjudge⟩ := OsMaterial.judge_programs (a := .start) rfl rfl
    h.programs_ne h.words_ne (fun f hf => (h.file_name f hf).2) h.once hrest
  refine ⟨b, hprograms, ?_, hjudge⟩
  rw [husage]
  simp only [start, CommandLine.usage, Nat.zero_add]

/-- **Every command is accepted.** -/
theorem judge_tokens (h : cl.WellFormed) :
    judge .command cl.tokens .start = ⟨cl.usage, .accept cl⟩ := by
  obtain ⟨programs, background⟩ := cl
  cases background with
  | false =>
    obtain ⟨b, hprograms, husage, hjudge⟩ := h.judge_programs [] rfl
    rw [CommandLine.tokens, if_neg (by simp), hjudge, judge, finish, hprograms, husage]
    simp [CommandLine.usage, CommandLine.tokens]
  | true =>
    obtain ⟨b, hprograms, husage, hjudge⟩ := h.judge_programs [.bg] rfl
    have hbg : judge .token [.bg] b = ⟨(b.spend 2 0 0).usage, .accept ⟨b.programs, true⟩⟩ := rfl
    rw [CommandLine.tokens, if_pos rfl, hjudge, hbg, hprograms, Acc.spend, husage]
    have hbytes : tokenBytes [Token.bg] = 2 := rfl
    simp only [CommandLine.usage, CommandLine.tokens, if_true, tokenBytes_append, hbytes,
      Verdict.mk.injEq, Usage.mk.injEq, isEmpty_cons, Bool.not_false, Nat.add_zero, and_true]
    omega

def CommandLine.openUsage (cl : CommandLine) : Usage where
  bytes := tokenBytes cl.tokens + 2 * lookAhead true cl.programs + 2
  slots := cl.usage.slots
  cmds := cl.usage.cmds

theorem judge_tokens_redir (h : cl.WellFormed) (hbg : cl.background = false)
    (hfresh : cl.files.lookup r = none) :
    ∃ b : Acc, b.programs = cl.programs ∧
      judge .command (cl.tokens ++ [.redir r]) .start = ⟨cl.openUsage, .dangling r b⟩ := by
  obtain ⟨b, hprograms, husage, hjudge⟩ := h.judge_programs [.redir r] rfl
  have hlookup : b.files.lookup r = none := by
    rw [Acc.files, hprograms]
    exact hfresh
  have htokens : cl.tokens = [Token.pipe].intercalate (cl.programs.map Program.tokens) := by
    rw [CommandLine.tokens, hbg, if_neg (by simp), append_nil]
  have hredir : judge .token [.redir r] b =
      ⟨(b.spend 2 0 0).usage, .dangling r (b.spend 2 0 0)⟩ := by
    rw [judge_cons, advance_redir hlookup]
    rfl
  refine ⟨b.spend 2 0 0, hprograms, ?_⟩
  rw [htokens, hjudge, hredir, CommandLine.openUsage, htokens, Acc.spend, husage]
  rfl

end

end OsMaterial
