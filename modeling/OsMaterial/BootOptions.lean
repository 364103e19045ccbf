import OsMaterial.LibStrings
import OsMaterial.Random

/-!
# The Options of the Kernel Command Line

`parse_options` of `threads/init.c`. The options depend on how the kernel is built (`Build`). After
the loop the generator of pseudo-random numbers is seeded with the time of day, which is meant to
have no effect after `-rs=SEED`, but has.

* `seed_option_kept`: **the seed is kept** if the clock reads the seed, and not for every clock.
* `seed_option_lost`: two clocks give two states, and the seed is lost.
-/

namespace OsMaterial

open List

variable {text s : Bytes} {v : ℤ} {pre post : List CString}

/-! ### The options -/

structure Build where
  filesys : Bool
  userprog : Bool
  vm : Bool

inductive OptionName where
  | h
  | q
  | r
  | f
  | filesys
  | scratch
  | swap
  | rs
  | mlfqs
  | ul
  deriving DecidableEq

def OptionName.bytes : OptionName → Bytes
  | h => [0x2d, 0x68]
  | q => [0x2d, 0x71]
  | r => [0x2d, 0x72]
  | f => [0x2d, 0x66]
  | filesys => [0x2d, 0x66, 0x69, 0x6c, 0x65, 0x73, 0x79, 0x73]
  | scratch => [0x2d, 0x73, 0x63, 0x72, 0x61, 0x74, 0x63, 0x68]
  | swap => [0x2d, 0x73, 0x77, 0x61, 0x70]
  | rs => [0x2d, 0x72, 0x73]
  | mlfqs => [0x2d, 0x6d, 0x6c, 0x66, 0x71, 0x73]
  | ul => [0x2d, 0x75, 0x6c]

def Build.names (b : Build) : List OptionName :=
  [.h, .q, .r] ++
    (if b.filesys then [.f, .filesys, .scratch] ++ if b.vm then [.swap] else [] else []) ++
    [.rs, .mlfqs] ++ if b.userprog then [.ul] else []

inductive ShutdownType where
  | none
  | powerOff
  | reboot
  deriving DecidableEq

structure KernelOptions where
  shutdown : ShutdownType
  formatFilesys : Bool
  filesysBdevName : Option Bytes
  scratchBdevName : Option Bytes
  swapBdevName : Option Bytes
  threadMlfqs : Bool
  userPageLimit : BitVec 32
  prng : Prng

inductive OptionStop where
  | powerOff
  | unknown (name : Bytes)
  | noName
  | noValue
  deriving DecidableEq

def atoiValue (value : Option Bytes) : Except OptionStop (BitVec 32) :=
  match value with
  | none => .error .noValue
  | some s => .ok (atoi s)

def parseOption (b : Build) (arg : Bytes) (k : KernelOptions) :
    Except OptionStop KernelOptions :=
  match strtokR arg [0x3d] with
  | (none, _) => .error .noName
  | (some name, rest) =>
    let value := (strtokR rest []).1
    match b.names.find? (fun o => o.bytes = name) with
    | none => .error (.unknown name)
    | some .h => .error .powerOff
    | some .q => .ok { k with shutdown := .powerOff }
    | some .r => .ok { k with shutdown := .reboot }
    | some .f => .ok { k with formatFilesys := true }
    | some .filesys => .ok { k with filesysBdevName := value }
    | some .scratch => .ok { k with scratchBdevName := value }
    | some .swap => .ok { k with swapBdevName := value }
    | some .rs => (atoiValue value).map fun seed => { k with prng := randomInit seed }
    | some .mlfqs => .ok { k with threadMlfqs := true }
    | some .ul => (atoiValue value).map fun count => { k with userPageLimit := count }

def optionLoop (b : Build) : List CString → KernelOptions →
    Except OptionStop (List CString × KernelOptions)
  | [], k => .ok ([], k)
  | arg :: argv, k =>
    if arg.bytes.head? = some 0x2d then do optionLoop b argv (← parseOption b arg.bytes k)
    else .ok (arg :: argv, k)

def parseOptions (b : Build) (time : BitVec 32) (argv : List CString) (k : KernelOptions) :
    Except OptionStop (List CString × KernelOptions) := do
  let (rest, k) ← optionLoop b argv k
  return (rest, { k with prng := randomInit time })

/-! ### What the loop does -/

section Loop

variable {b : Build} {arg : CString} {argv rest : List CString} {k k' : KernelOptions}

def Accepted (b : Build) (arg : CString) : Prop :=
  arg.bytes.head? = some 0x2d ∧ ∀ k, ∃ k', parseOption b arg.bytes k = .ok k'

def rsText : Bytes := [0x2d, 0x72, 0x73, 0x3d]

theorem find_rs (b : Build) :
    b.names.find? (fun o => o.bytes = OptionName.rs.bytes) = some .rs := by
  obtain ⟨filesys, userprog, vm⟩ := b
  revert filesys userprog vm
  decide

theorem parseOption_seed (htext : arg.bytes = rsText ++ text) (hdec : IsDecimal text v) (b : Build)
    (k : KernelOptions) :
    parseOption b arg.bytes k = .ok { k with prng := randomInit (BitVec.ofInt 32 v) } := by
  have hne : text ≠ [] := by
    cases hdec with
    | plain hne hd => exact hne
    | plus hne hd => exact cons_ne_nil _ _
    | minus hne hd => exact cons_ne_nil _ _
  have hname : strtokR arg.bytes [0x3d] = (some OptionName.rs.bytes, text) := by
    rw [htext]
    rfl
  have hvalue : (strtokR text []).1 = some text := by
    obtain ⟨c, s, rfl⟩ := exists_cons_of_ne_nil hne
    simp [strtokR]
  simp only [parseOption, hname, find_rs, hvalue, atoiValue, Except.map, atoi_eq_of_isDecimal hdec]

theorem strtokR_eq {name rest : Bytes} (hhead : s.head? = some 0x2d)
    (h : strtokR s [0x3d] = (some name, rest)) :
    s = name ∧ rest = [] ∨ s = name ++ 0x3d :: rest := by
  cases s with
  | nil => cases hhead
  | cons c s =>
    obtain rfl : c = 0x2d := Option.some.inj hhead
    have hsplit := takeWhile_append_dropWhile (p := (· ∉ ([0x3d] : Bytes))) (l := s)
    obtain ⟨rfl, rfl⟩ := h
    cases hrest : s.dropWhile (· ∉ ([0x3d] : Bytes)) with
    | nil =>
      rw [hrest, append_nil] at hsplit
      exact .inl ⟨by rw [hsplit], rfl⟩
    | cons d rest =>
      have hd := head?_dropWhile_not (· ∉ ([0x3d] : Bytes)) s
      rw [hrest] at hd
      replace hd : decide (d ∉ ([0x3d] : Bytes)) = false := hd
      rw [decide_eq_false_iff_not, not_not, mem_singleton] at hd
      rw [hrest, hd] at hsplit
      exact .inr (by rw [tail_cons, cons_append, hsplit])

theorem parseOption_prng (hhead : arg.bytes.head? = some 0x2d) (hrs : ¬ rsText <+: arg.bytes)
    (h : parseOption b arg.bytes k = .ok k') : k'.prng = k.prng := by
  rw [parseOption] at h
  cases htok : strtokR arg.bytes [0x3d] with
  | mk name rest =>
    rw [htok] at h
    cases name with
    | none => cases h
    | some name =>
      simp only at h
      cases hfind : b.names.find? (fun o => o.bytes = name) with
      | none =>
        rw [hfind] at h
        cases h
      | some o =>
        rw [hfind] at h
        cases o with
        | h => cases h
        | q | r | f | filesys | scratch | swap | mlfqs =>
          obtain rfl := Except.ok.inj h
          rfl
        | ul =>
          cases hvalue : atoiValue (strtokR rest []).1 with
          | error e =>
            rw [hvalue] at h
            cases h
          | ok count =>
            rw [hvalue] at h
            obtain rfl := Except.ok.inj h
            rfl
        | rs =>
          -- without a value the option stops, and with one the argument starts with `-rs=`
          have hname := find?_some hfind
          rw [decide_eq_true_eq] at hname
          rcases strtokR_eq hhead htok with ⟨-, rfl⟩ | heq
          · cases h
          · refine absurd ⟨rest, ?_⟩ hrs
            rw [heq, ← hname]
            rfl

theorem optionLoop_end (hrest : ∀ arg, rest.head? = some arg → arg.bytes.head? ≠ some 0x2d)
    (k : KernelOptions) : optionLoop b rest k = .ok (rest, k) := by
  cases rest with
  | nil => rfl
  | cons arg rest => rw [optionLoop, if_neg (hrest arg rfl)]

theorem optionLoop_append (hargv : ∀ arg ∈ argv, Accepted b arg) (rest : List CString)
    (k : KernelOptions) : ∃ k', optionLoop b (argv ++ rest) k = optionLoop b rest k' ∧
      ((∀ arg ∈ argv, ¬ rsText <+: arg.bytes) → k'.prng = k.prng) := by
  induction argv generalizing k with
  | nil => exact ⟨k, rfl, fun _ => rfl⟩
  | cons arg argv ih =>
    obtain ⟨⟨hhead, hok⟩, hargv⟩ := forall_mem_cons.mp hargv
    obtain ⟨k₁, hk₁⟩ := hok k
    obtain ⟨k', hloop, hprng⟩ := ih hargv k₁
    refine ⟨k', ?_, fun hrs => ?_⟩
    · rw [cons_append, optionLoop, if_pos hhead, hk₁]
      exact hloop
    · obtain ⟨harg, hrs⟩ := forall_mem_cons.mp hrs
      rw [hprng hrs, parseOption_prng hhead harg hk₁]

theorem optionLoop_prng (hargv : ∀ a ∈ pre ++ arg :: post, Accepted b a)
    (htext : arg.bytes = rsText ++ text) (hdec : IsDecimal text v)
    (hlast : ∀ arg ∈ post, ¬ rsText <+: arg.bytes)
    (hrest : ∀ arg, rest.head? = some arg → arg.bytes.head? ≠ some 0x2d) (k : KernelOptions) :
    ∃ k', optionLoop b (pre ++ arg :: post ++ rest) k = .ok (rest, k') ∧
      k'.prng = randomInit (BitVec.ofInt 32 v) := by
  have hpre : ∀ arg ∈ pre, Accepted b arg := fun a ha => hargv a (mem_append_left _ ha)
  have hpost : ∀ arg ∈ post, Accepted b arg := fun a ha =>
    hargv a (mem_append_right _ (mem_cons_of_mem _ ha))
  have hhead := (hargv arg (mem_append_right _ mem_cons_self)).1
  obtain ⟨k₁, hk₁, -⟩ := optionLoop_append hpre (arg :: post ++ rest) k
  obtain ⟨k', hk', hprng⟩ := optionLoop_append hpost rest
    { k₁ with prng := randomInit (BitVec.ofInt 32 v) }
  refine ⟨k', ?_, hprng hlast⟩
  rw [append_assoc, hk₁, cons_append, optionLoop, if_pos hhead, parseOption_seed htext hdec]
  exact hk'.trans (optionLoop_end hrest k')

/-! ### Two runs -/

/-- **Seeding with `-rs`**: the loop seeds the generator with the seed. Two runs have the generator
of the seed if both clocks read the seed, and some clock gives another one. -/
theorem seed_option_kept {pre post : List CString} {text : Bytes} {v : ℤ}
    (hargv : ∀ a ∈ pre ++ arg :: post, Accepted b a) (htext : arg.bytes = rsText ++ text)
    (hdec : IsDecimal text v) (hlast : ∀ arg ∈ post, ¬ rsText <+: arg.bytes)
    (hrest : ∀ arg, rest.head? = some arg → arg.bytes.head? ≠ some 0x2d) (k : KernelOptions) :
    (∃ k', optionLoop b (pre ++ arg :: post ++ rest) k = .ok (rest, k') ∧
      k'.prng = randomInit (BitVec.ofInt 32 v)) ∧
    (∀ t₁ t₂, t₁ = BitVec.ofInt 32 v → t₂ = BitVec.ofInt 32 v → ∃ k₁ k₂,
      parseOptions b t₁ (pre ++ arg :: post ++ rest) k = .ok (rest, k₁) ∧
      parseOptions b t₂ (pre ++ arg :: post ++ rest) k = .ok (rest, k₂) ∧
      k₁.prng = k₂.prng ∧ k₁.prng = randomInit (BitVec.ofInt 32 v)) ∧
    ∃ t k₁, parseOptions b t (pre ++ arg :: post ++ rest) k = .ok (rest, k₁) ∧
      k₁.prng ≠ randomInit (BitVec.ofInt 32 v) := by
  obtain ⟨k', hloop, hprng⟩ := optionLoop_prng hargv htext hdec hlast hrest k
  have hparse : ∀ t, parseOptions b t (pre ++ arg :: post ++ rest) k =
      .ok (rest, { k' with prng := randomInit t }) := by
    intro t
    rw [parseOptions, hloop]
    rfl
  refine ⟨⟨k', hloop, hprng⟩, fun t₁ t₂ h₁ h₂ => ?_, ?_⟩
  · subst h₁ h₂
    exact ⟨_, _, hparse _, hparse _, rfl, rfl⟩
  · -- the states of the clocks 1 and 2 differ, so one of them is not that of the seed
    by_cases hone : randomInit 1 = randomInit (BitVec.ofInt 32 v)
    · exact ⟨2, _, hparse 2, fun htwo => randomInit_ne (hone.trans htwo.symm)⟩
    · exact ⟨1, _, hparse 1, hone⟩

end Loop

def seedOne : CString := ⟨[0x2d, 0x72, 0x73, 0x3d, 0x31], by decide⟩

def bootOptions : KernelOptions where
  shutdown := .none
  formatFilesys := false
  filesysBdevName := none
  scratchBdevName := none
  swapBdevName := none
  threadMlfqs := false
  userPageLimit := 0xffffffff
  prng := ⟨Vector.replicate 256 0, 0, 0, false⟩

theorem seedOne_isDecimal : IsDecimal [0x31] 1 := by
  have h : ∀ c ∈ ([0x31] : Bytes), isDigitByte c = true := by
    intro c hc
    rw [mem_singleton.mp hc]
    rfl
  exact .plain (cons_ne_nil _ _) h

theorem seedOne_accepted (b : Build) : Accepted b seedOne :=
  ⟨rfl, fun k => ⟨_, parseOption_seed rfl seedOne_isDecimal b k⟩⟩

/-- **The seed is lost**: with `-rs=1`, a clock that reads 2 and one that reads 1 give different
states, and the first of them is not that of the seed 1. -/
theorem seed_option_lost : ∃ k₁ k₂,
    parseOptions ⟨true, true, false⟩ 2 [seedOne] bootOptions = .ok ([], k₁) ∧
      parseOptions ⟨true, true, false⟩ 1 [seedOne] bootOptions = .ok ([], k₂) ∧
      k₁.prng ≠ k₂.prng ∧ k₁.prng ≠ randomInit 1 := by
  refine ⟨_, _, rfl, rfl, ?_, ?_⟩
  · exact randomInit_ne.symm
  · exact randomInit_ne.symm

/-- With `-rs=1` and a clock that reads 1, the generator is that of the seed. -/
theorem seed_option_kept_seedOne : ∃ k₁ k₂,
    parseOptions ⟨true, true, false⟩ 1 [seedOne] bootOptions = .ok ([], k₁) ∧
      parseOptions ⟨true, true, false⟩ 1 [seedOne] bootOptions = .ok ([], k₂) ∧
      k₁.prng = k₂.prng ∧ k₁.prng = randomInit (BitVec.ofInt 32 1) := by
  have hargv : ∀ a ∈ [] ++ seedOne :: [], Accepted ⟨true, true, false⟩ a := by
    intro arg harg
    rw [nil_append, mem_singleton] at harg
    exact harg ▸ seedOne_accepted _
  have hrest : ∀ arg, ([] : List CString).head? = some arg → arg.bytes.head? ≠ some 0x2d :=
    fun _ h => by cases h
  have htext : seedOne.bytes = rsText ++ [0x31] := rfl
  obtain ⟨-, hkept, -⟩ := seed_option_kept hargv htext seedOne_isDecimal
    (fun _ h => absurd h not_mem_nil) hrest bootOptions
  exact hkept 1 1 rfl rfl

end OsMaterial
