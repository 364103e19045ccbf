import Mathlib.Data.Nat.Digits.Lemmas

/-!
# Numerals with Separators

A numeral is written from its last digit to its first, with a separator before some of the digits
(`writeDigits`). Before every positive multiple of `n`, it separates complete groups of `n` digits,
counted from the right (`Grouped`).

* `grouped_writeDigits`: writing in this way **groups the digits**.
* `Grouped.filter_eq`: without the separators the text is the numeral.
-/

namespace OsMaterial

open List

variable {α : Type}

/-- The digits `l`, the last one first, written to the left of `text`. The first of them has the
number `cnt`, and `p` says before which numbers a separator is written. -/
def writeDigits (sep : α) (p : ℕ → Bool) : (cnt : ℕ) → (l text : List α) → List α
  | _, [], text => text
  | cnt, d :: l, text =>
    writeDigits sep p (cnt + 1) l (d :: if p cnt then sep :: text else text)

/-- **Digits in groups**: a text of at most `n` digits has no separator; a complete group of `n`
digits has a separator to its left, and digits in groups before it. -/
inductive Grouped (sep : α) (n : ℕ) : (digits text : List α) → Prop
  | short {digits : List α} (le : digits.length ≤ n) : Grouped sep n digits digits
  | group {digits text g : List α} (rest : Grouped sep n digits text) (ne : digits ≠ [])
      (full : g.length = n) : Grouped sep n (digits ++ g) (text ++ sep :: g)

def atGroup (n cnt : ℕ) : Bool := decide (0 < cnt) && decide (cnt % n = 0)

section

variable {sep : α} {n : ℕ} {digits text : List α}

theorem writeDigits_eq_reverse (sep : α) {p : ℕ → Bool} (hp : ∀ i, p i = false) (cnt : ℕ)
    (l text : List α) : writeDigits sep p cnt l text = l.reverse ++ text := by
  induction l generalizing cnt text with
  | nil => rfl
  | cons d l ih =>
    rw [writeDigits, hp, if_neg Bool.false_ne_true, ih, reverse_cons, append_assoc]
    rfl

theorem head?_writeDigits (sep : α) (p : ℕ → Bool) (cnt : ℕ) (l text : List α) :
    (writeDigits sep p cnt l text).head? = l.getLast?.or text.head? := by
  induction l generalizing cnt text with
  | nil => rfl
  | cons d l ih =>
    rw [writeDigits, ih, head?_cons]
    cases l with
    | nil => rfl
    | cons e l => rw [getLast?_cons_cons, getLast?_cons]; rfl

theorem length_writeDigits_le (sep : α) (p : ℕ → Bool) (cnt : ℕ) (l text : List α) :
    (writeDigits sep p cnt l text).length ≤ text.length + 2 * l.length := by
  induction l generalizing cnt text with
  | nil => exact le_rfl
  | cons d l ih =>
    refine (ih _ _).trans ?_
    rw [length_cons, length_cons]
    split
    · rw [length_cons]
      omega
    · omega

theorem Grouped.cons (hn : 0 < n) (h : Grouped sep n digits text)
    (hmod : digits = [] ∨ digits.length % n ≠ 0) (d : α) :
    Grouped sep n (d :: digits) (d :: text) := by
  induction h with
  | @short l hle =>
    refine .short ?_
    rw [length_cons]
    rcases hmod with rfl | hmod
    · exact hn
    · have : l.length ≠ n := fun heq => hmod (heq ▸ Nat.mod_self n)
      omega
  | @group l t g hrest hne hfull ih =>
    refine .group (ih ?_) (cons_ne_nil d l) hfull
    rcases hmod with hnil | hmod
    · exact absurd (append_eq_nil_iff.mp hnil).1 hne
    · rw [length_append, hfull, Nat.add_mod_right] at hmod
      exact .inr hmod

theorem Grouped.cons_sep (hn : 0 < n) (h : Grouped sep n digits text) (hne : digits ≠ [])
    (hmod : digits.length % n = 0) (d : α) : Grouped sep n (d :: digits) (d :: sep :: text) := by
  induction h with
  | @short l hle =>
    have hpos := length_pos_iff.mpr hne
    have hfull : l.length = n :=
      Nat.le_antisymm hle (Nat.le_of_dvd hpos (Nat.dvd_of_mod_eq_zero hmod))
    exact .group (.short hn) (cons_ne_nil d []) hfull
  | @group l t g hrest hne' hfull ih =>
    rw [length_append, hfull, Nat.add_mod_right] at hmod
    exact .group (ih hne' hmod) (cons_ne_nil d l) hfull

/-- **Writing digits with a separator before every group.** -/
theorem grouped_writeDigits (hn : 0 < n) (h : Grouped sep n digits text) (l : List α) :
    Grouped sep n (l.reverse ++ digits) (writeDigits sep (atGroup n) digits.length l text) := by
  induction l generalizing digits text with
  | nil => exact h
  | cons d l ih =>
    rw [writeDigits, reverse_cons, append_assoc]
    by_cases hcnt : 0 < digits.length ∧ digits.length % n = 0
    · have hsep : atGroup n digits.length = true := by
        rw [atGroup, decide_eq_true hcnt.1, decide_eq_true hcnt.2]
        rfl
      rw [if_pos hsep]
      exact ih (h.cons_sep hn (length_pos_iff.mp hcnt.1) hcnt.2 d)
    · have hsep : ¬ atGroup n digits.length = true := by
        rw [atGroup, Bool.and_eq_true, decide_eq_true_eq, decide_eq_true_eq]
        exact hcnt
      rw [if_neg hsep]
      refine ih (h.cons hn ?_ d)
      by_cases hnil : digits = []
      · exact .inl hnil
      · exact .inr fun hmod => hcnt ⟨length_pos_iff.mpr hnil, hmod⟩

theorem Grouped.filter_eq [DecidableEq α] (h : Grouped sep n digits text) (hsep : sep ∉ digits) :
    text.filter (· ≠ sep) = digits := by
  have hall : ∀ {l : List α}, sep ∉ l → l.filter (· ≠ sep) = l := by
    intro l hl
    refine filter_eq_self.mpr fun a ha => decide_eq_true ?_
    rintro rfl
    exact hl ha
  induction h with
  | short _ => exact hall hsep
  | @group l t g hrest hne hfull ih =>
    rw [mem_append, not_or] at hsep
    rw [filter_append, ih hsep.1, filter_cons_of_neg (by simp), hall hsep.2]

theorem Grouped.length_le (h : Grouped sep n digits text) : digits.length ≤ text.length := by
  induction h with
  | short _ => exact le_rfl
  | group rest ne full ih =>
    rw [length_append, length_append, length_cons]
    omega

/-- **There is no separator** exactly when the digits are not more than one group. -/
theorem Grouped.length_eq_iff (h : Grouped sep n digits text) :
    text.length = digits.length ↔ digits.length ≤ n := by
  cases h with
  | short hle => exact iff_of_true rfl hle
  | @group l t g hrest hne hfull =>
    have hle := hrest.length_le
    have hpos := length_pos_iff.mpr hne
    rw [length_append, length_append, length_cons]
    exact iff_of_false (by omega) (by omega)

end

theorem ofDigits_zeros_append (b k : ℕ) (l : List ℕ) :
    Nat.ofDigits b (replicate k 0 ++ l).reverse = Nat.ofDigits b l.reverse := by
  rw [reverse_append, reverse_replicate, Nat.ofDigits_append_replicate_zero]

end OsMaterial
