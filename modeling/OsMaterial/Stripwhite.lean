import Mathlib.Data.List.DropRight
import OsMaterial.LshParse

/-!
# White Space around a Line

`stripwhite` of `lab_1/code/lsh.c`, on the buffer of a line. An access outside the buffer has no
result. The search for the end of the line starts at `strlen (string) - 1`, which is the largest
`size_t` if nothing is left of the line.

* `stripwhite_iff`: **a line is trimmed** unless it is blank.
-/

namespace OsMaterial

open List

def leadingSpace : Bytes → Option ℕ
  | [] => none
  | c :: string => if isSpace c then (leadingSpace string).map (· + 1) else some 0

def strlen : Bytes → Option ℕ
  | [] => none
  | c :: string => if c = 0 then some 0 else (strlen string).map (· + 1)

def trailingSpace (string : Bytes) : ℕ → Option ℕ
  | 0 => some 0
  | i + 1 =>
    match string[i + 1]? with
    | none => none
    | some c => if isSpace c then trailingSpace string i else some (i + 1)

/-- `memmove (string, string + i, strlen (string + i) + 1)`. -/
def moveDown (string : Bytes) (i : ℕ) : Option Bytes :=
  (strlen (string.drop i)).map fun n => (string.drop i).take (n + 1) ++ string.drop (n + 1)

/-- The end of `stripwhite`, from `i = strlen (string) - 1` on. -/
def stripEnd (string : Bytes) : Option Bytes := do
  let n ← strlen string
  let i ← trailingSpace string (if n = 0 then 2 ^ 64 - 1 else n - 1)
  if i + 1 < string.length then some (string.set (i + 1) 0) else none

def stripwhite (string : Bytes) : Option Bytes := do
  let i ← leadingSpace string
  stripEnd (← if i ≠ 0 then moveDown string i else some string)

variable {space body rest : Bytes} {c : UInt8}

theorem leadingSpace_append (hspace : ∀ x ∈ space, isSpace x = true) (hc : isSpace c = false) :
    leadingSpace (space ++ c :: rest) = some space.length := by
  induction space with
  | nil => rw [nil_append, leadingSpace, hc]; rfl
  | cons x space ih =>
    obtain ⟨hx, hspace⟩ := forall_mem_cons.mp hspace
    rw [cons_append, leadingSpace, hx, ih hspace]
    rfl

theorem strlen_append (hbody : 0 ∉ body) (rest : Bytes) :
    strlen (body ++ 0 :: rest) = some body.length := by
  induction body with
  | nil => rfl
  | cons x body ih =>
    obtain ⟨hx, hbody⟩ := not_or.mp (mem_cons.not.mp hbody)
    rw [cons_append, strlen, if_neg (Ne.symm hx), ih hbody]
    rfl

theorem trailingSpace_append (hc : isSpace c = false) (hspace : ∀ x ∈ space, isSpace x = true)
    {k : ℕ} (hk : k ≤ space.length) :
    trailingSpace (body ++ c :: (space ++ rest)) (body.length + k) = some body.length := by
  induction k with
  | zero =>
    cases body with
    | nil => rfl
    | cons x body =>
      have hget : (x :: body ++ c :: (space ++ rest))[body.length + 1]? = some c := by simp
      rw [Nat.add_zero, length_cons, trailingSpace, hget]
      simp only [hc, Bool.false_eq_true, if_false]
  | succ k ih =>
    have hlt : k < space.length := hk
    have hget : (body ++ c :: (space ++ rest))[body.length + k + 1]? = some space[k] := by
      rw [Nat.add_assoc, getElem?_append_right (Nat.le_add_right ..), Nat.add_sub_cancel_left,
        getElem?_cons_succ, getElem?_append_left hlt, getElem?_eq_getElem]
    rw [← Nat.add_assoc, trailingSpace, hget]
    simp only [hspace _ (getElem_mem hlt), if_true]
    exact ih hlt.le

/-- **The beginning of the line**: what is behind the line afterwards is `rest`. -/
theorem stripwhite_eq (line : CString) : ∃ rest,
    (line.bytes.dropWhile isSpace ++ 0 :: rest).length = line.bytes.length + 1 ∧
      stripwhite (line.bytes ++ [0]) = stripEnd (line.bytes.dropWhile isSpace ++ 0 :: rest) := by
  obtain ⟨bytes, hbytes⟩ := line
  have hspace : ∀ x ∈ bytes.takeWhile isSpace, isSpace x = true := fun x => mem_takeWhile_imp
  have hsplit := takeWhile_append_dropWhile (p := isSpace) (l := bytes)
  have hfirst : ∃ c rest, isSpace c = false ∧ bytes.dropWhile isSpace ++ [0] = c :: rest := by
    cases hbody : bytes.dropWhile isSpace with
    | nil => exact ⟨0, [], rfl, rfl⟩
    | cons c body =>
      have hc := head?_dropWhile_not isSpace bytes
      rw [hbody] at hc
      exact ⟨c, body ++ [0], by simpa using hc, rfl⟩
  generalize bytes.takeWhile isSpace = space at *
  generalize bytes.dropWhile isSpace = body at *
  subst hsplit
  obtain ⟨c, rest, hc, heq⟩ := hfirst
  have hi : leadingSpace (space ++ body ++ [0]) = some space.length := by
    rw [append_assoc, heq]
    exact leadingSpace_append hspace hc
  have hzero : 0 ∉ body := fun hmem => hbytes (mem_append_right _ hmem)
  by_cases hne : space.length ≠ 0
  · have hmove : moveDown (space ++ body ++ [0]) space.length =
        some (body ++ 0 :: (space ++ body ++ [0]).drop (body.length + 1)) := by
      rw [moveDown, append_assoc, drop_left, strlen_append hzero, Option.map_some,
        take_of_length_le (by simp), append_assoc, singleton_append]
    refine ⟨(space ++ body ++ [0]).drop (body.length + 1), ?_, ?_⟩
    · simp
      omega
    · rw [stripwhite, hi, Option.bind_eq_bind, Option.bind_some, if_pos hne, hmove]
      rfl
  · obtain rfl := length_eq_zero_iff.mp (not_not.mp hne)
    refine ⟨[], by simp, ?_⟩
    rw [stripwhite, hi]
    rfl

theorem stripEnd_append (hzero : 0 ∉ body ++ c :: space) (hc : isSpace c = false)
    (hspace : ∀ x ∈ space, isSpace x = true) (rest : Bytes) : ∃ more,
    stripEnd (body ++ c :: space ++ 0 :: rest) = some (body ++ [c] ++ 0 :: more) ∧
      (body ++ [c] ++ 0 :: more).length = (body ++ c :: space ++ 0 :: rest).length := by
  have hstring : body ++ c :: space ++ 0 :: rest = body ++ c :: (space ++ 0 :: rest) := by simp
  have hlen : (body ++ c :: space).length - 1 = body.length + space.length := by simp
  have hset : ∃ more, (space ++ 0 :: rest).set 0 0 = 0 :: more := by
    cases space with
    | nil => exact ⟨rest, rfl⟩
    | cons x space => exact ⟨space ++ 0 :: rest, rfl⟩
  obtain ⟨more, hmore⟩ := hset
  have hall := congrArg length hmore
  refine ⟨more, ?_, by simp at hall ⊢; omega⟩
  rw [stripEnd, strlen_append hzero, Option.bind_eq_bind, Option.bind_some, if_neg (by simp), hlen,
    hstring, trailingSpace_append hc hspace le_rfl, Option.bind_some, if_pos (by simp), append_cons,
    set_append_right _ _ (by simp), length_append, length_singleton, Nat.sub_self, hmore]

theorem stripEnd_blank (h : rest.length + 1 < 2 ^ 64) : stripEnd (0 :: rest) = none := by
  have hread {i : ℕ} (hi : (0 :: rest).length ≤ i) (hne : i ≠ 0) :
      trailingSpace (0 :: rest) i = none := by
    obtain ⟨i, rfl⟩ := Nat.exists_eq_succ_of_ne_zero hne
    rw [trailingSpace, getElem?_eq_none hi]
  rw [stripEnd, strlen, if_pos rfl, Option.bind_eq_bind, Option.bind_some, if_pos rfl,
    hread (by rw [length_cons]; omega) (by omega)]
  rfl

/-- **Trimming a line.** A line in a buffer of its size is trimmed, by accesses to the buffer
only, exactly if it is not blank. -/
theorem stripwhite_iff (line : CString) (hlen : line.bytes.length + 1 < 2 ^ 64) :
    (∃ string, stripwhite (line.bytes ++ [0]) = some string ∧
      string.length = line.bytes.length + 1 ∧
      cstring string = (line.bytes.dropWhile isSpace).rdropWhile isSpace) ↔
      ∃ c ∈ line.bytes, isSpace c = false := by
  obtain ⟨rest, hrest, heq⟩ := stripwhite_eq line
  rw [heq]
  set body := line.bytes.dropWhile isSpace
  have hzero : 0 ∉ body := fun hmem => line.nul_notMem (dropWhile_subset _ hmem)
  constructor
  · rintro ⟨string, hstring, -⟩
    by_contra hall
    have hnil : body = [] := dropWhile_eq_nil_iff.mpr fun c hc =>
      Bool.not_eq_false _ ▸ fun h => hall ⟨c, hc, h⟩
    rw [hnil, nil_append] at hstring hrest
    rw [stripEnd_blank (by rw [length_cons] at hrest; omega)] at hstring
    cases hstring
  · rintro ⟨c, hc, hspace⟩
    have hne : body.rdropWhile isSpace ≠ [] := by
      intro hnil
      have hall := rdropWhile_eq_nil_iff.mp hnil
      rw [← takeWhile_append_dropWhile (p := isSpace) (l := line.bytes)] at hc
      rcases mem_append.mp hc with hc | hc
      · exact absurd (mem_takeWhile_imp hc) (by rw [hspace]; decide)
      · exact absurd (hall c hc) (by rw [hspace]; decide)
    obtain ⟨front, c, hfront⟩ : ∃ front c, body.rdropWhile isSpace = front ++ [c] :=
      ⟨_, _, (dropLast_append_getLast hne).symm⟩
    have hlast : isSpace c = false := by
      have hlast := rdropWhile_last_not isSpace body hne
      simpa [hfront] using hlast
    have hback : ∀ x ∈ body.rtakeWhile isSpace, isSpace x = true := fun _ =>
      mem_rtakeWhile_imp
    have hsplit : body = front ++ c :: body.rtakeWhile isSpace := by
      rw [append_cons, ← hfront, rdropWhile_append_rtakeWhile]
    rw [hfront]
    generalize body.rtakeWhile isSpace = back at *
    rw [hsplit] at hzero hrest ⊢
    obtain ⟨more, hmore, hlength⟩ := stripEnd_append hzero hlast hback rest
    have hname : 0 ∉ front ++ [c] := fun hmem => hzero (by
      rw [append_cons]
      exact mem_append_left _ hmem)
    exact ⟨_, hmore, hlength.trans hrest, cstring_append ⟨front ++ [c], hname⟩ more⟩

/-- A blank and a letter. -/
theorem stripwhite_iff_letter : ∃ string, stripwhite [0x20, 0x61, 0] = some string ∧
    cstring string = [0x61] := by
  obtain ⟨string, hstring, -, htrim⟩ := (stripwhite_iff ⟨[0x20, 0x61], by decide⟩ (by decide)).mpr
    ⟨0x61, by decide, by decide⟩
  exact ⟨string, hstring, htrim⟩

/-- An empty line: the byte before the buffer is read. -/
theorem stripwhite_empty : stripwhite [0] = none :=
  (stripEnd_blank (by decide) : stripEnd [0] = none)

end OsMaterial

