import OsMaterial.Machine
import OsMaterial.Words

/-!
# The Kernel Command Line

`make_kernel_command_line` of `utils/Pintos.pm` writes the number of arguments and 128 bytes with
their strings, and `read_command_line` of `threads/init.c` makes pointers to them (offsets from
`LOADER_ARGS`) in an array of 65 slots. The host counts bytes and the kernel slots: an empty
argument takes one byte only.

* `command_line_round_trip_iff`: **the arguments are read back** if there are at most 64 of them.
-/

namespace OsMaterial

open List

/-! ### The host -/

def joinArgs (args : List CString) : Bytes := args.flatMap fun arg => arg.bytes ++ [0]

def makeKernelCommandLine (args : List CString) : Option Bytes :=
  if 128 < (joinArgs args).length then
    none
  else
    some (toLe 4 args.length ++ (joinArgs args ++ replicate (128 - (joinArgs args).length) 0))

/-! ### The kernel -/

inductive CommandLineFault where
  | overflow
  | slotRange
  deriving DecidableEq

def setSlot (argv : List (Option ℕ)) (i : ℤ) (p : Option ℕ) :
    Outcome CommandLineFault (List (Option ℕ)) :=
  if 0 ≤ i ∧ i < argv.length then .next (argv.set i.toNat p) else .fault .slotRange

def strnlen (mem : Bytes) (p maxlen : ℕ) : ℕ := (cstring ((mem.drop p).take maxlen)).length

/-- The loop of `read_command_line` from `i` on, for `n` arguments; `LOADER_ARGS_LEN` is 128. -/
def argvLoop (mem : Bytes) :
    ℕ → ℤ → ℕ → List (Option ℕ) → Outcome CommandLineFault (List (Option ℕ))
  | 0, _, _, argv => .next argv
  | n + 1, i, p, argv =>
    if 128 ≤ p then
      .fault .overflow
    else
      (setSlot argv i (some p)).bind fun argv =>
        argvLoop mem n (i + 1) (p + strnlen mem p (128 - p) + 1) argv

def readCommandLine (area : Bytes) : Outcome CommandLineFault (List (Option ℕ)) :=
  let argc := Int.bmod (ofLe (area.take 4)) wordSize
  (argvLoop (area.drop 4) argc.toNat 0 0 (replicate (128 / 2 + 1) none)).bind fun argv =>
    setSlot argv argc none

def argvStrings (mem : Bytes) : List (Option ℕ) → Option (List Bytes)
  | [] => none
  | none :: _ => some []
  | some p :: argv => (argvStrings mem argv).map (cstring (mem.drop p) :: ·)

/-! ### Reading back -/

section

variable {mem pre pad : Bytes} {arg : CString} {args : List CString}

theorem joinArgs_cons (arg : CString) (args : List CString) :
    joinArgs (arg :: args) = arg.bytes ++ 0 :: joinArgs args := by
  rw [joinArgs, flatMap_cons, append_assoc, singleton_append, joinArgs]

theorem strnlen_eq {p maxlen : ℕ} {rest : Bytes} (hmem : mem.drop p = arg.bytes ++ 0 :: rest)
    (hmax : arg.bytes.length < maxlen) : strnlen mem p maxlen = arg.bytes.length := by
  obtain ⟨k, hk⟩ := Nat.exists_eq_add_of_lt hmax
  have hleft : arg.bytes.length + k + 1 - arg.bytes.length = k + 1 := by omega
  rw [strnlen, hmem, hk, take_append, take_of_length_le (by omega), hleft,
    take_succ_cons, cstring_append]

def argPointers : ℕ → List CString → List (Option ℕ)
  | _, [] => []
  | p, arg :: args => some p :: argPointers (p + arg.bytes.length + 1) args

@[simp] theorem length_argPointers (p : ℕ) (args : List CString) :
    (argPointers p args).length = args.length := by
  induction args generalizing p with
  | nil => rfl
  | cons arg args ih => rw [argPointers, length_cons, ih, length_cons]

theorem setSlot_eq (done : List (Option ℕ)) (slot : Option ℕ) (rest : List (Option ℕ))
    (p : Option ℕ) : setSlot (done ++ slot :: rest) done.length p = .next (done ++ p :: rest) := by
  rw [setSlot, if_pos ⟨Int.natCast_nonneg _, by simp⟩, Int.toNat_natCast,
    set_append_right _ _ le_rfl, Nat.sub_self, set_cons_zero]

theorem place_next (hmem : mem = pre ++ (joinArgs (arg :: args) ++ pad)) :
    mem.drop pre.length = arg.bytes ++ 0 :: (joinArgs args ++ pad) ∧
      mem = (pre ++ (arg.bytes ++ [0])) ++ (joinArgs args ++ pad) ∧
      (pre ++ (arg.bytes ++ [0])).length = pre.length + arg.bytes.length + 1 := by
  rw [joinArgs_cons] at hmem
  refine ⟨?_, ?_, ?_⟩
  · rw [hmem, drop_left, append_assoc, cons_append]
  · rw [hmem]
    simp only [append_assoc, cons_append, nil_append]
  · simp only [length_append, length_singleton, Nat.add_assoc]

/-- **The loop of `read_command_line`**: it fills the slots that are left, or runs past the end of
the array. -/
theorem argvLoop_eq (hmem : mem = pre ++ (joinArgs args ++ pad))
    (hlen : pre.length + (joinArgs args).length ≤ 128) (done rest : List (Option ℕ)) :
    argvLoop mem args.length done.length pre.length (done ++ rest) =
      if args.length ≤ rest.length then
        .next (done ++ (argPointers pre.length args ++ rest.drop args.length))
      else
        .fault .slotRange := by
  induction args generalizing pre done rest with
  | nil =>
    rfl
  | cons arg args ih =>
    obtain ⟨hdrop, hmem', hpre⟩ := place_next hmem
    rw [joinArgs_cons] at hlen
    simp only [length_append, length_cons] at hlen
    rw [length_cons, argvLoop, if_neg (by omega)]
    cases rest with
    | nil =>
      rw [setSlot, if_neg (by simp), if_neg (by simp)]
      rfl
    | cons slot rest =>
      have hdone : (done ++ [some pre.length]).length = done.length + 1 := length_append
      have hrest := ih hmem' (by omega) (done ++ [some pre.length]) rest
      rw [hpre, hdone, append_assoc, singleton_append, append_assoc,
        singleton_append, Nat.cast_add, Nat.cast_one] at hrest
      rw [setSlot_eq, Outcome.bind_next, strnlen_eq hdrop (by omega), hrest, argPointers]
      simp

theorem argvStrings_eq (hmem : mem = pre ++ (joinArgs args ++ pad)) (rest : List (Option ℕ)) :
    argvStrings mem (argPointers pre.length args ++ none :: rest) =
      some (args.map CString.bytes) := by
  induction args generalizing pre with
  | nil => rfl
  | cons arg args ih =>
    obtain ⟨hdrop, hmem', hpre⟩ := place_next hmem
    have hrest := ih hmem'
    rw [hpre] at hrest
    rw [argPointers, cons_append, argvStrings, hrest, hdrop, cstring_append,
      Option.map_some, map_cons]

theorem length_le_joinArgs (args : List CString) : args.length ≤ (joinArgs args).length := by
  induction args with
  | nil => exact Nat.le_refl 0
  | cons arg args ih =>
    rw [joinArgs_cons, length_cons, length_append, length_cons]
    omega

variable {area : Bytes}

theorem makeKernelCommandLine_eq (hmake : makeKernelCommandLine args = some area) :
    (joinArgs args).length ≤ 128 ∧ area = toLe 4 args.length ++
      (joinArgs args ++ replicate (128 - (joinArgs args).length) 0) := by
  rw [makeKernelCommandLine] at hmake
  split at hmake
  · cases hmake
  · next hlen => exact ⟨Nat.not_lt.mp hlen, (Option.some.inj hmake).symm⟩

theorem exists_commandLine (hlen : (joinArgs args).length ≤ 128) :
    ∃ area, makeKernelCommandLine args = some area :=
  ⟨_, if_neg (Nat.not_lt.mpr hlen)⟩

theorem readCommandLine_eq (hmake : makeKernelCommandLine args = some area) :
    readCommandLine area =
      if args.length ≤ 64 then
        .next (argPointers 0 args ++ none :: replicate (64 - args.length) none)
      else
        .fault .slotRange := by
  obtain ⟨hlen, rfl⟩ := makeKernelCommandLine_eq hmake
  have hargs := length_le_joinArgs args
  generalize hpad : replicate (128 - (joinArgs args).length) (0 : UInt8) = pad
  have hargc : Int.bmod (ofLe (toLe 4 args.length)) wordSize = args.length := by
    have hword : (wordSize : ℤ) = 4294967296 := rfl
    rw [ofLe_toLe (by omega)]
    exact Int.bmod_eq_of_le (by rw [hword]; omega) (by rw [hword]; omega)
  have hloop := argvLoop_eq (nil_append (joinArgs args ++ pad)).symm
    (by rw [length_nil]; omega) [] (replicate 65 none)
  simp only [length_nil, nil_append, length_replicate, drop_replicate, Nat.cast_zero] at hloop
  rw [readCommandLine]
  simp only [take_left' (length_toLe 4 _), drop_left' (length_toLe 4 _), hargc,
    Int.toNat_natCast, Nat.reduceDiv, Nat.reduceAdd, hloop]
  rcases Nat.lt_trichotomy args.length 65 with hlt | heq | hgt
  · have hslots : 65 - args.length = 64 - args.length + 1 := by omega
    have hset := setSlot_eq (argPointers 0 args) none (replicate (64 - args.length) none) none
    rw [length_argPointers] at hset
    rw [if_pos (by omega), if_pos (by omega), Outcome.bind_next, hslots, replicate_succ, hset]
  · -- the null pointer goes into the slot after the last
    rw [if_pos heq.le, if_neg (by omega), Outcome.bind_next, setSlot, if_neg]
    simp [heq]
  · rw [if_neg (by omega), if_neg (by omega), Outcome.bind_fault]

end

/-- **The arguments are read back**, with a null pointer at the end and without an access outside
the array, if there are at most 64 of them, and only then. -/
theorem command_line_round_trip_iff (args : List CString) (area : Bytes)
    (hmake : makeKernelCommandLine args = some area) :
    (∃ argv, readCommandLine area = .next argv ∧
      argvStrings (area.drop 4) argv = some (args.map CString.bytes)) ↔ args.length ≤ 64 := by
  rw [readCommandLine_eq hmake]
  constructor
  · rintro ⟨argv, hread, -⟩
    by_contra hmany
    rw [if_neg hmany] at hread
    cases hread
  · intro hfew
    rw [if_pos hfew]
    obtain ⟨-, rfl⟩ := makeKernelCommandLine_eq hmake
    refine ⟨_, rfl, ?_⟩
    rw [drop_left' (length_toLe 4 _)]
    exact argvStrings_eq (nil_append _).symm _

def twoArgs : List CString := [⟨[0x2d, 0x71], by decide⟩, ⟨[], by decide⟩]

/-- Two arguments. -/
theorem command_line_round_trip_iff_twoArgs :
    ∃ area argv, makeKernelCommandLine twoArgs = some area ∧ readCommandLine area = .next argv ∧
      argvStrings (area.drop 4) argv = some (twoArgs.map CString.bytes) := by
  obtain ⟨argv, h⟩ := (command_line_round_trip_iff twoArgs _ rfl).mpr (by decide)
  exact ⟨_, argv, rfl, h⟩

/-- **65 empty arguments** are 65 bytes, and the null pointer after them is outside the array. -/
theorem command_line_overrun :
    ∃ area, makeKernelCommandLine (replicate 65 ⟨[], by decide⟩) = some area ∧
      readCommandLine area = .fault .slotRange := by
  have hlen : (joinArgs (replicate 65 ⟨[], by decide⟩)).length ≤ 128 := by decide +kernel
  obtain ⟨area, hmake⟩ := exists_commandLine hlen
  refine ⟨area, hmake, (readCommandLine_eq hmake).trans (if_neg ?_)⟩
  rw [length_replicate]
  omega

end OsMaterial
