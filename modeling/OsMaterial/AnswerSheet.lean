import Mathlib.Data.List.DropRight
import Mathlib.Data.List.Infix
import Mathlib.Tactic.Common

/-!
# The Question Sheet

`strip_answer_blocks` of `scripts/compile_markdown_pdf.py`, with `str.splitlines` and `str.strip` of
Python, on texts as sequences of code points. The warning on the standard error output is left out.

* `strip_answer_blocks_spec`: **answers do not leak**: the result is that of the text without them.
-/

namespace OsMaterial

namespace Markdown

open List

abbrev Text := List ℕ

/-- The characters that `str.strip` removes. -/
def isspace (c : ℕ) : Bool :=
  (9 ≤ c && c ≤ 0xd) || (0x1c ≤ c && c ≤ 0x20) || c == 0x85 || c == 0xa0 || c == 0x1680 ||
    (0x2000 ≤ c && c ≤ 0x200a) || c == 0x2028 || c == 0x2029 || c == 0x202f || c == 0x205f ||
    c == 0x3000

/-- The characters that end a line for `str.splitlines`. -/
def isLinebreak (c : ℕ) : Bool :=
  (0xa ≤ c && c ≤ 0xd) || (0x1c ≤ c && c ≤ 0x1e) || c == 0x85 || c == 0x2028 || c == 0x2029

def strip (text : Text) : Text := (text.dropWhile isspace).rdropWhile isspace

/-- `str.splitlines`, within a line of which `line` has been read. -/
def splitlinesFrom (line : Text) : Text → List Text
  | [] => if line = [] then [] else [line]
  | 0xd :: 0xa :: text => line :: splitlinesFrom [] text
  | c :: text =>
    if isLinebreak c then line :: splitlinesFrom [] text else splitlinesFrom (line ++ [c]) text

def splitlines (text : Text) : List Text := splitlinesFrom [] text

def answerStart : Text := "<!-- answer:start -->".toList.map Char.toNat

def answerEnd : Text := "<!-- answer:end -->".toList.map Char.toNat

def stripLoop (skipping : Bool) (output : List Text) : List Text → Except String (List Text)
  | [] => if skipping then .error "answer block was not closed" else .ok output
  | line :: lines =>
    if strip line = answerStart then
      if skipping then .error "nested answer block marker found" else stripLoop true output lines
    else if strip line = answerEnd then
      if skipping then stripLoop false output lines
      else .error "answer end marker without matching start marker"
    else stripLoop skipping (if skipping then output else output ++ [line]) lines

def stripAnswerBlocks (text : Text) : Except String Text :=
  (stripLoop false [] (splitlines text)).map fun output =>
    strip ([0xa].intercalate output) ++ [0xa]

/-! ### Marker lines -/

inductive Marker where
  | start
  | stop
  deriving DecidableEq

def marker (line : Text) : Option Marker :=
  if strip line = answerStart then some .start
  else if strip line = answerEnd then some .stop
  else none

/-- The lines without those inside answer blocks that are not markers. -/
def skeleton (skipping : Bool) : List Text → List Text
  | [] => []
  | line :: lines =>
    match marker line with
    | some .start => line :: skeleton true lines
    | some .stop => line :: skeleton false lines
    | none => if skipping then skeleton true lines else line :: skeleton false lines

theorem skeleton_subset {skipping : Bool} {lines : List Text} :
    skeleton skipping lines ⊆ lines := by
  induction lines generalizing skipping with
  | nil => exact List.Subset.refl []
  | cons line lines ih =>
    rw [skeleton]
    split
    · exact cons_subset_cons line ih
    · exact cons_subset_cons line ih
    · split_ifs
      · exact subset_cons_of_subset line ih
      · exact cons_subset_cons line ih

/-- Markers that alternate, from inside or outside a block, and end with an end. -/
def Alternate (skipping : Bool) (markers : List Marker) : Prop :=
  ∃ n, markers = (if skipping then [.stop] else []) ++ (replicate n [.start, .stop]).flatten

variable {skipping : Bool} {markers : List Marker} {lines output : List Text}

theorem alternate_nil : Alternate skipping [] ↔ skipping = false := by
  constructor
  · rintro ⟨n, h⟩
    cases skipping with
    | false => rfl
    | true => cases h
  · rintro rfl
    exact ⟨0, rfl⟩

theorem alternate_start :
    Alternate skipping (.start :: markers) ↔ skipping = false ∧ Alternate true markers := by
  constructor
  · rintro ⟨n, h⟩
    cases skipping with
    | true => cases h
    | false =>
      cases n with
      | zero => cases h
      | succ n => exact ⟨rfl, n, (List.cons.inj h).2⟩
  · rintro ⟨rfl, n, rfl⟩
    exact ⟨n + 1, rfl⟩

theorem alternate_stop :
    Alternate skipping (.stop :: markers) ↔ skipping = true ∧ Alternate false markers := by
  constructor
  · rintro ⟨n, h⟩
    cases skipping with
    | true => exact ⟨rfl, n, (List.cons.inj h).2⟩
    | false =>
      cases n with
      | zero => cases h
      | succ n => cases h
  · rintro ⟨rfl, n, rfl⟩
    exact ⟨n, rfl⟩

theorem stripLoop_cons (line : Text) : stripLoop skipping output (line :: lines) =
    match marker line with
    | some .start =>
      if skipping then .error "nested answer block marker found" else stripLoop true output lines
    | some .stop =>
      if skipping then stripLoop false output lines
      else .error "answer end marker without matching start marker"
    | none => stripLoop skipping (if skipping then output else output ++ [line]) lines := by
  rw [stripLoop, marker]
  split_ifs <;> rfl

theorem stripLoop_eq_ok_iff {result : List Text} : stripLoop skipping output lines = .ok result ↔
    Alternate skipping (lines.filterMap marker) ∧
      result = output ++ (skeleton skipping lines).filter (marker · = none) := by
  induction lines generalizing skipping output with
  | nil => cases skipping <;> simp [stripLoop, alternate_nil, skeleton, eq_comm]
  | cons line lines ih =>
    rw [stripLoop_cons, skeleton, filterMap_cons]
    cases hm : marker line with
    | none => cases skipping <;> simp [ih, hm]
    | some m =>
      cases m with
      | start => cases skipping <;> simp [alternate_start, ih, hm]
      | stop => cases skipping <;> simp [alternate_stop, ih, hm]

theorem stripLoop_skeleton :
    stripLoop skipping output (skeleton skipping lines) = stripLoop skipping output lines := by
  induction lines generalizing skipping output with
  | nil => rfl
  | cons line lines ih =>
    rw [stripLoop_cons, skeleton]
    cases hm : marker line with
    | none => cases skipping <;> simp [stripLoop_cons, ih, hm]
    | some m => cases m <;> simp [stripLoop_cons, ih, hm]

/-! ### The result as a text -/

variable {text line : Text} {c : ℕ}

theorem strip_cons (hc : isspace c = true) : strip (c :: text) = strip text := by
  rw [strip, dropWhile_cons_of_pos hc, strip]

theorem strip_concat (hc : isspace c = true) : strip (text ++ [c]) = strip text := by
  rw [strip, dropWhile_append, strip]
  split
  · next h => rw [isEmpty_iff.mp h, dropWhile_cons_of_pos hc, dropWhile_nil]
  · rw [rdropWhile_concat_pos _ _ _ hc]

theorem strip_strip (text : Text) : strip (strip text) = strip text := by
  have hhead : (strip text).dropWhile isspace = strip text := by
    refine dropWhile_eq_self_iff.mpr fun hlen => ?_
    have hle := rdropWhile_prefix isspace (l := text.dropWhile isspace)
    have hget := dropWhile_get_zero_not isspace text (hlen.trans_le hle.length_le)
    rwa [get_eq_getElem, ← hle.getElem hlen] at hget
  rw [strip, hhead]
  exact rdropWhile_idempotent _ _

/-- A marker line stays one if white space is put before or behind it. -/
theorem marker_congr {a b : Text} (h : strip a = strip b) : marker a = marker b := by
  rw [marker, marker, h]

theorem splitlinesFrom_cons (hc : isLinebreak c = true → c = 0xa) (line text : Text) :
    splitlinesFrom line (c :: text) =
      if c = 0xa then line :: splitlinesFrom [] text else splitlinesFrom (line ++ [c]) text := by
  have hne : c ≠ 0xd := by
    rintro rfl
    cases hc rfl
  rw [splitlinesFrom.eq_3 _ _ _ fun _ h => absurd h hne]
  by_cases h : c = 0xa
  · rw [if_pos h, h]
    rfl
  · rw [if_neg h, if_neg fun hbreak => h (hc hbreak)]

theorem isLinebreak_of_mem (hline : ∀ c ∈ line, isLinebreak c = false) :
    ∀ l ∈ splitlinesFrom line text, ∀ c ∈ l, isLinebreak c = false := by
  fun_induction splitlinesFrom line text with
  | case1 => simp
  | case2 line h => simpa using hline
  | case3 line text ih => exact forall_mem_cons.mpr ⟨hline, ih (by simp)⟩
  | case4 line c text h hc ih => exact forall_mem_cons.mpr ⟨hline, ih (by simp)⟩
  | case5 line c text h hc ih => exact ih (by simpa [or_imp, forall_and] using And.intro hline hc)

/-- The lines of a text with line feeds only, the last one after `line`, are not markers. -/
structure Clean (line text : Text) : Prop where
  linebreak : ∀ c ∈ text, isLinebreak c = true → c = 0xa
  marker : ∀ l ∈ splitlinesFrom line (text ++ [0xa]), marker l = none

theorem clean_cons_iff : Clean line (c :: text) ↔ (isLinebreak c = true → c = 0xa) ∧
    if c = 0xa then Markdown.marker line = none ∧ Clean [] text else Clean (line ++ [c]) text := by
  constructor
  · rintro ⟨hbreak, hmarker⟩
    obtain ⟨hc, hbreak⟩ := forall_mem_cons.mp hbreak
    rw [cons_append, splitlinesFrom_cons hc] at hmarker
    refine ⟨hc, ?_⟩
    split_ifs at hmarker ⊢
    · obtain ⟨hline, hmarker⟩ := forall_mem_cons.mp hmarker
      exact ⟨hline, hbreak, hmarker⟩
    · exact ⟨hbreak, hmarker⟩
  · rintro ⟨hc, h⟩
    split_ifs at h with hlf
    · refine ⟨forall_mem_cons.mpr ⟨hc, h.2.linebreak⟩, ?_⟩
      rw [cons_append, splitlinesFrom_cons hc, if_pos hlf]
      exact forall_mem_cons.mpr ⟨h.1, h.2.marker⟩
    · refine ⟨forall_mem_cons.mpr ⟨hc, h.linebreak⟩, ?_⟩
      rw [cons_append, splitlinesFrom_cons hc, if_neg hlf]
      exact h.marker

theorem clean_nil_iff : Clean line [] ↔ Markdown.marker line = none := by
  constructor
  · intro h
    exact h.marker line (mem_singleton.mpr rfl)
  · intro h
    exact ⟨by simp, fun l hl => mem_singleton.mp hl ▸ h⟩

theorem Clean.of_cons_line (hc : isspace c = true) (h : Clean (c :: line) text) :
    Clean line text := by
  induction text generalizing line with
  | nil => exact clean_nil_iff.mpr (marker_congr (strip_cons hc) ▸ clean_nil_iff.mp h)
  | cons x text ih =>
    obtain ⟨hx, h⟩ := clean_cons_iff.mp h
    refine clean_cons_iff.mpr ⟨hx, ?_⟩
    split_ifs at h ⊢
    · exact ⟨marker_congr (strip_cons hc) ▸ h.1, h.2⟩
    · exact ih h

theorem Clean.tail (hc : isspace c = true) (h : Clean [] (c :: text)) : Clean [] text := by
  obtain ⟨-, h⟩ := clean_cons_iff.mp h
  split_ifs at h
  · exact h.2
  · exact h.of_cons_line hc

theorem Clean.init (hc : isspace c = true) (h : Clean line (text ++ [c])) : Clean line text := by
  induction text generalizing line with
  | nil =>
    obtain ⟨-, h⟩ := clean_cons_iff.mp h
    refine clean_nil_iff.mpr ?_
    split_ifs at h
    · exact h.1
    · exact marker_congr (strip_concat hc) ▸ clean_nil_iff.mp h
  | cons x text ih =>
    obtain ⟨hx, h⟩ := clean_cons_iff.mp h
    refine clean_cons_iff.mpr ⟨hx, ?_⟩
    split_ifs at h ⊢
    · exact ⟨h.1, ih h.2⟩
    · exact ih h

theorem Clean.strip (h : Clean [] text) : Clean [] (strip text) := by
  have hfront : Clean [] (text.dropWhile isspace) := by
    induction text with
    | nil => exact h
    | cons c text ih =>
      rw [dropWhile_cons]
      split
      · next hc => exact ih (h.tail hc)
      · exact h
  have hback : ∀ c ∈ (text.dropWhile isspace).rtakeWhile isspace, isspace c = true := fun _ =>
    mem_rtakeWhile_imp
  rw [← rdropWhile_append_rtakeWhile (p := isspace) (l := text.dropWhile isspace)] at hfront
  change Clean [] ((text.dropWhile isspace).rdropWhile isspace)
  generalize (text.dropWhile isspace).rdropWhile isspace = front at *
  generalize (text.dropWhile isspace).rtakeWhile isspace = back at *
  induction back using reverseRecOn with
  | nil => rwa [append_nil] at hfront
  | append_singleton back c ih =>
    rw [← append_assoc] at hfront
    exact ih (fun x hx => hback x (mem_append_left _ hx))
      (hfront.init (hback c (mem_append_right _ mem_cons_self)))

theorem clean_append_iff (hline : ∀ c ∈ line, isLinebreak c = false) (front : Text) :
    Clean front (line ++ text) ↔ Clean (front ++ line) text := by
  induction line generalizing front with
  | nil => rw [nil_append, append_nil]
  | cons c line ih =>
    obtain ⟨hc, hline⟩ := forall_mem_cons.mp hline
    have hbreak : isLinebreak c = true → c = 0xa := fun h => absurd h (by rw [hc]; decide)
    have hne : c ≠ 0xa := by
      rintro rfl
      cases hc
    rw [cons_append, clean_cons_iff, if_neg hne, ih hline, append_assoc]
    exact and_iff_right hbreak

theorem clean_intercalate (houtput : ∀ line ∈ output, ∀ c ∈ line, isLinebreak c = false)
    (hmarker : ∀ line ∈ output, marker line = none) : Clean [] ([0xa].intercalate output) := by
  induction output with
  | nil => exact clean_nil_iff.mpr (by decide)
  | cons line output ih =>
    obtain ⟨hline, houtput⟩ := forall_mem_cons.mp houtput
    obtain ⟨hnone, hmarker⟩ := forall_mem_cons.mp hmarker
    cases output with
    | nil =>
      rw [intercalate_singleton, ← append_nil line, clean_append_iff hline]
      exact clean_nil_iff.mpr hnone
    | cons next output =>
      rw [intercalate_cons_cons, append_assoc, clean_append_iff hline]
      exact clean_cons_iff.mpr ⟨fun _ => rfl, hnone, ih houtput hmarker⟩

theorem intercalate_splitlinesFrom (h : Clean line text) :
    splitlinesFrom line (text ++ [0xa]) ≠ [] ∧
      [0xa].intercalate (splitlinesFrom line (text ++ [0xa])) = line ++ text := by
  induction text generalizing line with
  | nil =>
    rw [append_nil]
    exact ⟨cons_ne_nil _ _, intercalate_singleton⟩
  | cons c text ih =>
    obtain ⟨hc, h⟩ := clean_cons_iff.mp h
    rw [cons_append, splitlinesFrom_cons hc]
    split_ifs at h ⊢ with hlf
    · obtain ⟨hne, hjoin⟩ := ih h.2
      rw [intercalate_cons_of_ne_nil hne, hjoin, hlf, append_assoc]
      exact ⟨cons_ne_nil _ _, rfl⟩
    · obtain ⟨hne, hjoin⟩ := ih h
      exact ⟨hne, by rw [hjoin, append_assoc]; rfl⟩

theorem stripLoop_of_none (h : ∀ line ∈ lines, marker line = none) (output : List Text) :
    stripLoop false output lines = .ok (output ++ lines) := by
  induction lines generalizing output with
  | nil => rw [append_nil]; rfl
  | cons line lines ih =>
    obtain ⟨hline, h⟩ := forall_mem_cons.mp h
    rw [stripLoop_cons, hline]
    exact (ih h (output ++ [line])).trans (by rw [append_assoc]; rfl)

theorem Clean.stripAnswerBlocks (h : Clean [] text) :
    stripAnswerBlocks (text ++ [0xa]) = .ok (Markdown.strip text ++ [0xa]) := by
  rw [Markdown.stripAnswerBlocks, splitlines, stripLoop_of_none h.marker, Except.map,
    nil_append, (intercalate_splitlinesFrom h).2, nil_append]

/-- **Answers do not leak.** A text is refused exactly if its markers do not alternate; texts that
are equal up to lines inside the answer blocks give the same, and the result of a result is itself.
-/
theorem strip_answer_blocks_spec (text : Text) :
    ((∃ message, stripAnswerBlocks text = .error message) ↔
      ¬∃ n, (splitlines text).filterMap marker =
        (replicate n [Marker.start, Marker.stop]).flatten) ∧
      (∀ result, stripAnswerBlocks text = .ok result →
        result = strip ([0xa].intercalate
          ((skeleton false (splitlines text)).filter (marker · = none))) ++ [0xa] ∧
          stripAnswerBlocks result = .ok result) ∧
      ∀ other, skeleton false (splitlines other) = skeleton false (splitlines text) →
        stripAnswerBlocks other = stripAnswerBlocks text := by
  refine ⟨?_, ?_, ?_⟩
  · cases h : stripLoop false [] (splitlines text) with
    | error message =>
      refine iff_of_true ⟨message, by rw [stripAnswerBlocks, h]; rfl⟩ fun halt => ?_
      cases h.symm.trans (stripLoop_eq_ok_iff.mpr ⟨halt, rfl⟩)
    | ok output =>
      refine iff_of_false ?_ (not_not.mpr (stripLoop_eq_ok_iff.mp h).1)
      rw [stripAnswerBlocks, h]
      rintro ⟨message, herror⟩
      cases herror
  · intro result hresult
    cases h : stripLoop false [] (splitlines text) with
    | error message =>
      rw [stripAnswerBlocks, h] at hresult
      cases hresult
    | ok output =>
      rw [stripAnswerBlocks, h] at hresult
      obtain rfl := Except.ok.inj hresult
      obtain rfl := (stripLoop_eq_ok_iff.mp h).2
      refine ⟨rfl, ?_⟩
      have hclean : Clean [] ([0xa].intercalate
          ([] ++ (skeleton false (splitlines text)).filter (marker · = none))) := by
        refine clean_intercalate (fun line hline => ?_) fun line hline => ?_
        · exact isLinebreak_of_mem (by simp) line (skeleton_subset (mem_of_mem_filter hline))
        · exact of_decide_eq_true (mem_filter.mp hline).2
      rw [hclean.strip.stripAnswerBlocks, strip_strip]
  · intro other hother
    rw [stripAnswerBlocks, ← stripLoop_skeleton, hother, stripLoop_skeleton, stripAnswerBlocks]

end Markdown

end OsMaterial
