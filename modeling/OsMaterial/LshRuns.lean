import OsMaterial.LshGrammar

/-!
# Sessions of the Shell

The parser over a whole session: a line is parsed in the state that the lines before it left.

* `parse_commandLine`, `parse_only_commandLine`: the lines that are accepted are the commands,
  unless a line ends with a redirection.
* `parse_independent_iff`: what a line means does not depend on the lines before it, with the same
  exception.
* `parse_returns_iff`: the parser stays inside its buffers when what it stores fits into them.
-/

namespace OsMaterial

open List

variable {cl : CommandLine} {text : Bytes} {r : Redir} {b b' i : ℕ} {c : UInt8} {t : Lsh}

/-! ### Writing a command -/

/-- **The ways to write tokens on a line**: with spaces anywhere between them, and at least one
between two words. -/
inductive Renders : List Token → Bytes → Prop
  | nil {spaces : Bytes} (hspaces : ∀ c ∈ spaces, isSpace c = true) : Renders [] spaces
  | cons {spaces line : Bytes} {tok : Token} {ts : List Token}
      (hspaces : ∀ c ∈ spaces, isSpace c = true)
      (hsep : tok.isWord = true → ts.head?.any Token.isWord = true → line.head?.any isSpace = true)
      (hline : Renders ts line) : Renders (tok :: ts) (spaces ++ (tok.text ++ line))

open CommandLine

section

variable {ts : List Token} {line : Bytes}

theorem wordChar_of_isSpace (h : isSpace c = true) : wordChar c = false :=
  wordChar_eq_false.mpr (.inl h)

theorem Renders.head_wordChar (h : Renders ts line)
    (hsep : ts.head?.any Token.isWord = true → line.head?.any isSpace = true) :
    line.head?.any wordChar = false := by
  have hspace : line.head?.any isSpace = true → line.head?.any wordChar = false := by
    cases line with
    | nil => exact fun _ => rfl
    | cons c line => exact wordChar_of_isSpace
  cases h with
  | nil hspaces =>
    cases line with
    | nil => rfl
    | cons c line => exact wordChar_of_isSpace (hspaces c mem_cons_self)
  | @cons spaces rest tok ts hspaces _ _ =>
    cases spaces with
    | cons c spaces => exact wordChar_of_isSpace (hspaces c mem_cons_self)
    | nil =>
      cases tok with
      | word text => exact hspace (hsep rfl)
      | pipe => rfl
      | bg => rfl
      | redir r => cases r <;> rfl

theorem Renders.tokens_eq (h : Renders ts line) (hproper : ∀ tok ∈ ts, tok.Proper) :
    tokens line = ts ∧ 0 ∉ line := by
  have hnul : ∀ spaces : Bytes, (∀ c ∈ spaces, isSpace c = true) → 0 ∉ spaces :=
    fun spaces hspaces hmem => by cases hspaces 0 hmem
  induction h with
  | nil hspaces => exact ⟨tokens_eq_nil_iff.mpr hspaces, hnul _ hspaces⟩
  | @cons spaces line tok ts hspaces hsep hline ih =>
    have htok := hproper tok mem_cons_self
    obtain ⟨htokens, h0⟩ := ih fun tok' htok' => hproper tok' (mem_cons_of_mem tok htok')
    refine ⟨?_, ?_⟩
    · rw [tokens_append_of_spaces hspaces]
      cases tok with
      | word text =>
        rw [Token.text, tokens_word htok.1 htok.2.1 (hline.head_wordChar (hsep rfl)), htokens]
      | pipe => exact (tokens_spec rfl line).trans (congrArg _ htokens)
      | bg => exact (tokens_spec rfl line).trans (congrArg _ htokens)
      | redir r =>
        cases r with
        | rin => exact (tokens_spec rfl line).trans (congrArg _ htokens)
        | rut => exact (tokens_spec rfl line).trans (congrArg _ htokens)
    · rw [mem_append, mem_append, not_or, not_or]
      exact ⟨hnul _ hspaces, nul_notMem_text htok, h0⟩

theorem identChar_ge (h : identChar c = true) : 0x2b ≤ c := by
  simp only [identChar, isAlnum, idChars, contains_cons, contains_nil, Bool.or_eq_true,
    Bool.and_eq_true, decide_eq_true_eq, beq_iff_eq, Bool.or_false] at h
  rcases h with ((h | h) | h) | rfl | rfl | rfl | rfl | rfl | rfl | rfl
  · exact UInt8.le_trans (by decide) h.1
  · exact UInt8.le_trans (by decide) h.1
  · exact UInt8.le_trans (by decide) h.1
  all_goals decide

theorem proper_of_identChar (hne : text ≠ []) (h : text.all identChar = true) :
    (Token.word text).Proper := by
  have hge : ∀ c ∈ text, 0x2b ≤ c := fun c hc => identChar_ge (all_eq_true.mp h c hc)
  refine ⟨hne, fun c hc => ?_, fun h0 => absurd (hge 0 h0) (by decide)⟩
  have hident := all_eq_true.mp h c hc
  cases hword : wordChar c with
  | true => rfl
  | false =>
    exfalso
    rcases wordChar_eq_false.mp hword with hspace | hspec
    · simp only [isSpace, Bool.or_eq_true, Bool.and_eq_true, decide_eq_true_eq] at hspace
      rcases hspace with rfl | ⟨-, hle⟩
      · exact absurd (hge _ hc) (by decide)
      · exact absurd (UInt8.le_trans (hge c hc) hle) (by decide)
    · simp only [isSpec, Bool.or_eq_true, decide_eq_true_eq] at hspec
      rcases hspec with ((rfl | rfl) | rfl) | rfl <;> exact absurd hident (by decide)

theorem CommandLine.WellFormed.proper (h : cl.WellFormed) : ∀ tok ∈ cl.tokens, tok.Proper := by
  have hprogram : ∀ p ∈ cl.programs, ∀ tok ∈ p.tokens, tok.Proper := by
    intro p hp tok htok
    rcases mem_append.mp htok with hword | hredir
    · obtain ⟨text, htext, rfl⟩ := mem_map.mp hword
      exact h.words_proper p hp text htext
    · obtain ⟨f, hf, htok⟩ := mem_flatMap.mp hredir
      obtain ⟨hne, hident⟩ := h.file_name f (mem_flatMap.mpr ⟨p, hp, hf⟩)
      rcases mem_pair.mp htok with rfl | rfl
      · trivial
      · exact proper_of_identChar hne hident
  intro tok htok
  rcases mem_append.mp htok with hmem | hbg
  · obtain hsep | ⟨ts, hts, htok⟩ := mem_or_mem_of_mem_intercalate hmem
    · rw [mem_singleton.mp hsep]
      trivial
    · obtain ⟨p, hp, rfl⟩ := mem_map.mp hts
      exact hprogram p hp tok htok
  · split at hbg
    · rw [mem_singleton.mp hbg]
      trivial
    · cases hbg

def CommandLine.ofWord (text : Bytes) : CommandLine := ⟨[⟨[text], []⟩], false⟩

theorem CommandLine.wellFormed_ofWord (h : (Token.word text).Proper) :
    (ofWord text).WellFormed where
  programs_ne := cons_ne_nil _ _
  words_ne p hp := by
    rw [mem_singleton.mp hp]
    exact cons_ne_nil _ _
  words_proper p hp text' htext := by
    rw [mem_singleton.mp hp] at htext
    rw [mem_singleton.mp htext]
    exact h
  file_name f hf := absurd hf not_mem_nil
  once := nodup_nil

theorem CommandLine.usage_ofWord (text : Bytes) :
    (ofWord text).usage = ⟨text.length + 1, 2, 1⟩ := rfl

def letters (n : ℕ) : Bytes := replicate n 0x61

theorem length_letters (n : ℕ) : (letters n).length = n := length_replicate

theorem proper_letters {n : ℕ} (hn : 0 < n) : (Token.word (letters n)).Proper := by
  refine ⟨ne_nil_of_length_pos ((length_letters n).symm ▸ hn), fun c hc => ?_, fun h0 => ?_⟩
  · rw [eq_of_mem_replicate hc]
    rfl
  · cases eq_of_mem_replicate h0

theorem tokens_eq_ofWord (h : (Token.word text).Proper) : tokens text = (ofWord text).tokens := by
  have hword := tokens_word (s := []) h.1 h.2.1 rfl
  rw [append_nil] at hword
  exact hword

end

/-! ### Sessions -/

/-- **The states between the lines of a session**, which starts with buffers full of zeros. -/
inductive History : Lsh → Prop
  | start : History .zero
  | line {s t : Lsh} {line : Bytes} {r : ℤ × Command} (hs : History s) (h0 : 0 ∉ line)
      (hrun : (parse line).run s = .ok (r, t)) : History t

section

variable {s s' : Lsh} {line : Bytes}

theorem History.last (h : History s) : s.cbuf 255 = 0 := by
  induction h with
  | start => rfl
  | line _ h0 hrun ih => exact ((parse_spec h0 ih).of_run hrun).2.last

theorem History.parse_returns (hs : History s) (h0 : 0 ∉ line) (hcl : cl.WellFormed)
    (hfits : cl.usage.Le .limits) (htokens : tokens line = cl.tokens) :
    Returns (parse line) s fun r t => r.1 = 1 ∧ Denotes t r.2 cl := by
  have hspec := parse_spec h0 hs.last
  rw [htokens, judge_tokens hcl] at hspec
  have hv : Verdict.Fits ⟨cl.usage, .accept cl⟩ := ⟨hfits.bytes, hfits.slots, hfits.cmds, nofun⟩
  exact (hspec.returns hv).mono fun r t hholds => hholds.accept cl rfl

/-- **A command is understood**, in every state of a session and however it is written: `parse`
returns 1, and what it stores denotes the command. -/
theorem parse_commandLine {cl : CommandLine} (hs : History s) (hcl : cl.WellFormed)
    (hfits : cl.usage.Le .limits) (hline : Renders cl.tokens line) :
    Returns (parse line) s fun r t => r.1 = 1 ∧ Denotes t r.2 cl := by
  obtain ⟨htokens, h0⟩ := hline.tokens_eq hcl.proper
  exact hs.parse_returns h0 hcl hfits htokens

/-- The line `ls|wc >f&`. -/
theorem parse_commandLine_pipeline :
    Returns (parse [0x6c, 0x73, 0x7c, 0x77, 0x63, 0x20, 0x3e, 0x66, 0x26]) .zero fun r t =>
      r.1 = 1 ∧ Denotes t r.2
        ⟨[⟨[[0x6c, 0x73]], []⟩, ⟨[[0x77, 0x63]], [(.rut, [0x66])]⟩], true⟩ := by
  have hnone : ∀ c ∈ ([] : Bytes), isSpace c = true := forall_mem_nil _
  have hspace : ∀ c ∈ [(0x20 : UInt8)], isSpace c = true := forall_mem_singleton.mpr rfl
  refine parse_commandLine .start ⟨?_, ?_, ?_, ?_, ?_⟩ ⟨by decide, by decide, by decide⟩ ?_
  · exact cons_ne_nil _ _
  · simp
  · refine forall_mem_cons.mpr ⟨?_, forall_mem_singleton.mpr ?_⟩
    · exact forall_mem_singleton.mpr (proper_of_identChar (cons_ne_nil _ _) rfl)
    · exact forall_mem_singleton.mpr (proper_of_identChar (cons_ne_nil _ _) rfl)
  · decide
  · decide
  · exact @Renders.cons [] _ (.word _) _ hnone (by decide) <|
      @Renders.cons [] _ .pipe _ hnone (by decide) <|
      @Renders.cons [] _ (.word _) _ hnone (by decide) <|
      @Renders.cons [0x20] _ (.redir .rut) _ hspace (by decide) <|
      @Renders.cons [] _ (.word _) _ hnone (by decide) <|
      @Renders.cons [] _ .bg _ hnone (by decide) <| .nil hnone

/-! ### Redirections at the end of a line -/

theorem Program.getLast_tokens {p : Program} (h : p.words ≠ []) :
    ∃ text, p.tokens.getLast? = some (.word text) := by
  obtain ⟨words, redirs⟩ := p
  rcases eq_nil_or_concat redirs with rfl | ⟨redirs, f, rfl⟩
  · obtain ⟨ws, text, rfl⟩ := (eq_nil_or_concat words).resolve_left h
    refine ⟨text, ?_⟩
    simp [Program.tokens]
  · refine ⟨f.2, ?_⟩
    simp [Program.tokens, getLast?_append]

theorem CommandLine.WellFormed.getLast_ne (h : cl.WellFormed) (r : Redir) :
    cl.tokens.getLast? ≠ some (.redir r) := by
  rw [CommandLine.tokens, getLast?_append]
  cases cl.background with
  | true => simp
  | false =>
    obtain ⟨ps, p, hps⟩ := (eq_nil_or_concat cl.programs).resolve_left h.programs_ne
    rw [concat_eq_append] at hps
    have hp : p ∈ cl.programs := hps ▸ mem_append_right _ mem_cons_self
    obtain ⟨text, htext⟩ := Program.getLast_tokens (h.words_ne p hp)
    have hjoin := intercalate_concat_append [Token.pipe] (ps.map Program.tokens) [] p.tokens
    rw [nil_append] at hjoin
    rw [hps, map_append, map_singleton, hjoin, getLast?_append, htext]
    simp

structure EndsOpen (line : Bytes) (cl : CommandLine) (r : Redir) : Prop where
  wellFormed : cl.WellFormed
  foreground : cl.background = false
  fresh : cl.files.lookup r = none
  tokens_eq : tokens line = cl.tokens ++ [.redir r]

theorem HasString.unique {text' : Bytes} (h : HasString b s i text)
    (h' : HasString b' s i text') : text = text' := by
  induction text generalizing i text' with
  | nil =>
    obtain ⟨-, h0⟩ := hasString_nil_iff.mp h
    cases text' with
    | nil => rfl
    | cons c text' =>
      obtain ⟨hc, hne, -⟩ := hasString_cons_iff.mp h'
      exact absurd (hc.symm.trans h0) hne
  | cons c text ih =>
    obtain ⟨hc, hne, htext⟩ := hasString_cons_iff.mp h
    cases text' with
    | nil => exact absurd (hc.symm.trans (hasString_nil_iff.mp h').2) hne
    | cons c' text' =>
      obtain ⟨hc', -, htext'⟩ := hasString_cons_iff.mp h'
      rw [← hc, hc', ih htext htext']

theorem EndsOpen.parse_spec (h : EndsOpen line cl r) (h0 : 0 ∉ line) :
    ∃ a : Acc, a.files.lookup r = none ∧ ∀ s, History s →
      ReturnsIff (parse line) s (Verdict.Fits ⟨cl.openUsage, .dangling r a⟩) LshFault.IsAccess
        (Verdict.Holds ⟨cl.openUsage, .dangling r a⟩ s) := by
  obtain ⟨a, hprograms, hjudge⟩ := judge_tokens_redir h.wellFormed h.foreground h.fresh
  refine ⟨a, ?_, fun s hs => ?_⟩
  · rw [Acc.files, hprograms]
    exact h.fresh
  · have hspec := OsMaterial.parse_spec h0 hs.last
    rwa [h.tokens_eq, hjudge] at hspec

theorem EndsOpen.parse_start (h : EndsOpen line cl r) (h0 : 0 ∉ line)
    (hbytes : cl.openUsage.bytes < 256) (hslots : cl.openUsage.slots ≤ 50)
    (hcmds : cl.openUsage.cmds ≤ 20) : Returns (parse line) .zero fun x _ => x.1 = 1 := by
  obtain ⟨a, -, hspec⟩ := h.parse_spec h0
  have hfits : Verdict.Fits ⟨cl.openUsage, .dangling r a⟩ :=
    ⟨hbytes.le, hslots, hcmds, fun _ _ _ => hbytes⟩
  refine ((hspec .zero .start).returns hfits).mono fun x t hholds => ?_
  obtain ⟨text, hstring, hresult⟩ := hholds.dangling r a rfl
  have hzero : HasString 256 .zero cl.openUsage.bytes [] := hasString_nil_iff.mpr ⟨hbytes, rfl⟩
  rw [hstring.unique hzero, all_nil, if_pos rfl] at hresult
  exact hresult.1

/-- **Only commands are accepted**, in every state of a session, unless the line ends with a
redirection. A command does not, so that such a line is never one. -/
theorem parse_only_commandLine {t : Lsh} {r : ℤ × Command} (hs : History s) (h0 : 0 ∉ line)
    (hrun : (parse line).run s = .ok (r, t)) (hr : r.1 = 1) :
    (∃ cl : CommandLine, cl.WellFormed ∧ cl.tokens = tokens line ∧ Denotes t r.2 cl) ↔
      ∀ redir, (tokens line).getLast? ≠ some (.redir redir) := by
  obtain ⟨-, hholds⟩ := (parse_spec h0 hs.last).of_run hrun
  constructor
  · rintro ⟨cl, hcl, htokens, -⟩ redir
    rw [← htokens]
    exact hcl.getLast_ne redir
  · intro hlast
    have hproper := proper_of_mem_tokens h0
    cases hresult : (judge .command (tokens line) .start).result with
    | reject =>
      rw [hholds.reject hresult] at hr
      cases hr
    | accept cl =>
      obtain ⟨hcl, htokens⟩ := judge_accept hproper hresult
      exact ⟨cl, hcl, htokens, (hholds.accept cl hresult).2⟩
    | dangling redir a =>
      obtain ⟨-, -, htokens⟩ := judge_dangling hproper hresult
      refine absurd ?_ (hlast redir)
      rw [htokens, getLast?_append, getLast?_singleton]
      rfl

/-- The line `ls`. -/
theorem parse_only_commandLine_word :
    ∃ r t, (parse [0x6c, 0x73]).run .zero = .ok (r, t) ∧ ∃ cl : CommandLine, cl.WellFormed ∧
      cl.tokens = tokens [0x6c, 0x73] ∧ Denotes t r.2 cl := by
  have h0 : (0 : UInt8) ∉ [0x6c, 0x73] := by decide
  have hproper := proper_of_identChar (cons_ne_nil 0x6c [0x73]) rfl
  obtain ⟨r, t, hrun, hr, -⟩ := History.start.parse_returns h0
    (wellFormed_ofWord hproper) ⟨by decide, by decide, by decide⟩
    (tokens_eq_ofWord hproper)
  refine ⟨r, t, hrun, (parse_only_commandLine .start h0 hrun hr).mpr fun redir => ?_⟩
  rw [tokens_eq_ofWord hproper]
  exact (wellFormed_ofWord hproper).getLast_ne redir

/-- **The line `ls <` is accepted**, and is no command line. -/
theorem parse_accepts_open :
    (Returns (parse [0x6c, 0x73, 0x20, 0x3c]) .zero fun r _ => r.1 = 1) ∧
      ¬ ∃ cl : CommandLine, cl.WellFormed ∧ cl.tokens = tokens [0x6c, 0x73, 0x20, 0x3c] := by
  have hproper := proper_of_identChar (cons_ne_nil 0x6c [0x73]) rfl
  have hopen : EndsOpen [0x6c, 0x73, 0x20, 0x3c] (.ofWord [0x6c, 0x73]) .rin :=
    ⟨wellFormed_ofWord hproper, rfl, rfl, rfl⟩
  refine ⟨hopen.parse_start (by decide) (by decide) (by decide) (by decide), ?_⟩
  rintro ⟨cl, hcl, htokens⟩
  have hlast := hcl.getLast_ne .rin
  rw [htokens] at hlast
  exact hlast rfl

def SameOutcome (line : Bytes) (s s' : Lsh) : Prop :=
  ((∃ e, Panics (parse line) s e) ∧ ∃ e, Panics (parse line) s' e) ∨
    Returns (parse line) s fun r t => Returns (parse line) s' fun r' t' =>
      r.1 = r'.1 ∧ (r.1 = 1 → ∃ cl, Denotes t r.2 cl ∧ Denotes t' r'.2 cl)

theorem HasFileName.unique {o : Option ℕ} {name name' : Option Bytes}
    (h : HasFileName b s o name) (h' : HasFileName b' s o name') : name = name' := by
  cases o with
  | none =>
    cases name with
    | some text => exact absurd h id
    | none =>
      cases name' with
      | some text => exact absurd h' id
      | none => rfl
  | some i =>
    cases name with
    | none => exact absurd h id
    | some text =>
      cases name' with
      | none => exact absurd h' id
      | some text' => rw [HasString.unique h h']

theorem HasString.cbuf_eq {j : ℕ} (h : HasString b s i text) (hj : j < text.length) :
    s.cbuf (i + j) = text[j] := by
  induction text generalizing i j with
  | nil => exact absurd hj (Nat.not_lt_zero j)
  | cons c text ih =>
    obtain ⟨hc, -, htext⟩ := hasString_cons_iff.mp h
    cases j with
    | zero => exact hc
    | succ j =>
      have hnext := ih htext (Nat.lt_of_succ_lt_succ hj)
      rw [Nat.add_assoc, Nat.add_comm 1 j] at hnext
      exact hnext

theorem exists_history_filled : ∃ t, History t ∧ ∀ j < 255, t.cbuf j = 0x61 := by
  have hproper := proper_letters (n := 255) (by decide)
  have hfits : (ofWord (letters 255)).usage.Le .limits := by
    rw [usage_ofWord, length_letters]
    exact ⟨le_rfl, by decide, by decide⟩
  obtain ⟨r, t, hrun, -, hdenotes⟩ := History.start.parse_returns hproper.2.2
    (wellFormed_ofWord hproper) hfits (tokens_eq_ofWord hproper)
  refine ⟨t, .line .start hproper.2.2 hrun, fun j hj => ?_⟩
  -- the string of the word starts at the first byte, since it takes them all
  obtain ⟨k, p, -, -, -, ⟨-, i, -, hstring, -⟩, -⟩ := hdenotes.pgms
  have hi : i = 0 := by
    have hle := hstring.le
    have hlimit : Usage.limits.bytes = 256 := rfl
    rw [length_letters] at hle
    omega
  have hbyte := hstring.cbuf_eq (length_letters 255 ▸ hj)
  rw [hi, Nat.zero_add] at hbyte
  rw [hbyte]
  exact getElem_replicate ..

theorem sameOutcome_of_full (hs : History s) (hs' : History s') (h0 : 0 ∉ line)
    (hfull : ∀ r a, (judge .command (tokens line) .start).result = .dangling r a →
      (judge .command (tokens line) .start).Fits →
      255 ≤ (judge .command (tokens line) .start).usage.bytes) : SameOutcome line s s' := by
  have hspec := parse_spec h0 hs.last
  have hspec' := parse_spec h0 hs'.last
  by_cases hfits : (judge .command (tokens line) .start).Fits
  · refine .inr ((hspec.returns hfits).mono fun r t h => (hspec'.returns hfits).mono
      fun r' t' h' => ?_)
    cases hresult : (judge .command (tokens line) .start).result with
    | reject =>
      rw [h.reject hresult, h'.reject hresult]
      exact ⟨rfl, nofun⟩
    | accept cl =>
      obtain ⟨hr, hcl⟩ := h.accept cl hresult
      obtain ⟨hr', hcl'⟩ := h'.accept cl hresult
      exact ⟨hr.trans hr'.symm, fun _ => ⟨cl, hcl, hcl'⟩⟩
    | dangling redir a =>
      -- only the last byte is left, and that is a null
      have hbytes := hfull redir a hresult hfits
      have hnil : ∀ (w : Lsh) (text : Bytes),
          HasString 256 w (judge .command (tokens line) .start).usage.bytes text → text = [] := by
        intro w text hstring
        have hle := hstring.le
        exact eq_nil_of_length_eq_zero (by omega)
      obtain ⟨text, hstring, hvalue⟩ := h.dangling redir a hresult
      obtain ⟨text', hstring', hvalue'⟩ := h'.dangling redir a hresult
      rw [hnil s text hstring] at hvalue
      rw [hnil s' text' hstring'] at hvalue'
      exact ⟨hvalue.1.trans hvalue'.1.symm, fun _ => ⟨_, hvalue.2, hvalue'.2⟩⟩
  · obtain ⟨e, -, he⟩ := hspec.panics hfits
    obtain ⟨e', -, he'⟩ := hspec'.panics hfits
    exact .inl ⟨⟨e, he⟩, e', he'⟩

theorem Denotes.lookup_eq {c : Command} {cl' : CommandLine} (h : Denotes t c cl)
    (h' : Denotes t c cl') (r : Redir) : cl.files.lookup r = cl'.files.lookup r :=
  (h.files r).unique (h'.files r)

theorem lookup_addFile {a : Acc} (h : a.files.lookup r = none) :
    (mk (a.addFile r text).programs false).files.lookup r = some text := by
  have hfiles : (mk (a.addFile r text).programs false).files =
      a.files ++ [(r, text)] := a.files_addFile r text
  rw [hfiles, lookup_append, h, lookup_cons, beq_self_eq_true]
  rfl

theorem EndsOpen.not_sameOutcome (h : EndsOpen line cl r) (h0 : 0 ∉ line)
    (hbytes : cl.openUsage.bytes < 255) (hslots : cl.openUsage.slots ≤ 50)
    (hcmds : cl.openUsage.cmds ≤ 20) : ∃ s, History s ∧ ¬ SameOutcome line .zero s := by
  obtain ⟨w, hw, hfilled⟩ := exists_history_filled
  obtain ⟨a, hlookup, hspec⟩ := h.parse_spec h0
  have hfits : Verdict.Fits ⟨cl.openUsage, .dangling r a⟩ :=
    ⟨by dsimp only; omega, hslots, hcmds, fun _ _ _ => by dsimp only; omega⟩
  refine ⟨w, hw, ?_⟩
  rintro (⟨⟨e, he⟩, -⟩ | ⟨x, t, hrun, x', t', hrun', hvalue, hdenotes⟩)
  · obtain ⟨x, t, hrun, -⟩ := (hspec .zero .start).returns hfits
    rw [Panics, hrun] at he
    cases he
  · -- in the fresh session the name is empty
    obtain ⟨text, hstring, hresult⟩ := ((hspec .zero .start).of_run hrun).2.dangling r a rfl
    have hzero : HasString 256 .zero cl.openUsage.bytes [] := hasString_nil_iff.mpr ⟨by omega, rfl⟩
    rw [hstring.unique hzero, all_nil, if_pos rfl] at hresult
    -- in the other session it is not
    obtain ⟨text', hstring', hresult'⟩ := ((hspec w hw).of_run hrun').2.dangling r a rfl
    split at hresult'
    · obtain ⟨cl', hcl, hcl'⟩ := hdenotes hresult.1
      have hname := (hresult.2.lookup_eq hcl r).trans (hcl'.lookup_eq hresult'.2 r)
      rw [lookup_addFile hlookup, lookup_addFile hlookup] at hname
      rw [← Option.some.inj hname] at hstring'
      have hbyte := (hasString_nil_iff.mp hstring').2
      rw [hfilled _ hbytes] at hbyte
      cases hbyte
    · rw [hresult.1, hresult'] at hvalue
      cases hvalue

/-- **What a line means does not depend on the lines before it**, unless it is a command in front
of a redirection, and there is place behind what the parser stores of it. -/
theorem parse_independent_iff (h0 : 0 ∉ line) :
    (∀ s s', History s → History s' → SameOutcome line s s') ↔
      ¬ ∃ cl r, EndsOpen line cl r ∧ cl.openUsage.bytes < 255 ∧ cl.openUsage.slots ≤ 50 ∧
        cl.openUsage.cmds ≤ 20 := by
  constructor
  · rintro hsame ⟨cl, r, hopen, hbytes, hslots, hcmds⟩
    obtain ⟨s, hs, hne⟩ := hopen.not_sameOutcome h0 hbytes hslots hcmds
    exact hne (hsame .zero s .start hs)
  · intro hclosed s s' hs hs'
    refine sameOutcome_of_full hs hs' h0 fun r a hresult hfits => ?_
    obtain ⟨hcl, hfresh, htokens⟩ := judge_dangling (proper_of_mem_tokens h0) hresult
    obtain ⟨b, -, hjudge⟩ := judge_tokens_redir hcl rfl hfresh
    rw [htokens, hjudge] at hfits ⊢
    by_contra hlt
    exact hclosed ⟨_, r, ⟨hcl, rfl, hfresh, htokens⟩, Nat.lt_of_not_le hlt, hfits.slots, hfits.cmds⟩

/-- After any line, `ls` is read as at the start. -/
theorem parse_independent_word :
    ∃ s, History s ∧ s.cbuf 254 = 0x61 ∧ SameOutcome [0x6c, 0x73] .zero s := by
  obtain ⟨s, hs, hfilled⟩ := exists_history_filled
  refine ⟨s, hs, hfilled 254 (by decide), ?_⟩
  refine (parse_independent_iff (by decide)).mpr ?_ .zero s .start hs
  rintro ⟨cl, r, hopen, -⟩
  have hlast := congrArg getLast? hopen.tokens_eq
  rw [getLast?_append, getLast?_singleton] at hlast
  cases hlast

/-- **What `ls <` means depends on the lines before it.** -/
theorem parse_open_dependent : ∃ s, History s ∧ ¬ SameOutcome [0x6c, 0x73, 0x20, 0x3c] .zero s := by
  have hopen : EndsOpen [0x6c, 0x73, 0x20, 0x3c] (.ofWord [0x6c, 0x73]) .rin :=
    ⟨wellFormed_ofWord (proper_of_identChar (cons_ne_nil _ _) rfl), rfl, rfl, rfl⟩
  exact hopen.not_sameOutcome (by decide) (by decide) (by decide) (by decide)

/-- **The parser stays inside its buffers** exactly when what it stores of the line fits into them;
otherwise it is an access outside a buffer that stops it. -/
theorem parse_returns_iff (hs : History s) (h0 : 0 ∉ line) :
    ReturnsIff (parse line) s (judge .command (tokens line) .start).Fits LshFault.IsAccess
      fun _ _ => True :=
  (parse_spec h0 hs.last).mono fun _ _ _ => trivial

/-- The line `ls` fits. -/
theorem parse_returns_word : Returns (parse [0x6c, 0x73]) .zero fun _ _ => True :=
  (parse_returns_iff .start (by decide)).returns
    ⟨by decide, by decide, by decide, fun _ _ h => by cases h⟩

/-- A word of 256 letters is stored **outside the buffer**. -/
theorem parse_letters_faults : ∃ e, LshFault.IsAccess e ∧ Panics (parse (letters 256)) .zero e := by
  have hproper := proper_letters (n := 256) (by decide)
  refine (parse_spec hproper.2.2 History.start.last).panics fun hfits => ?_
  rw [tokens_eq_ofWord hproper, judge_tokens (wellFormed_ofWord hproper)] at hfits
  have hbytes := hfits.bytes
  rw [usage_ofWord, length_letters] at hbytes
  exact absurd hbytes (by decide)

end

end OsMaterial
