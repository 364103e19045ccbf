import OsMaterial.Lock

/-!
# The Recursive Console Lock

The lock of `lib/kernel/console.c`, which its holder may acquire again: `console_lock_depth`, that
no lock protects, counts these calls. A thread can be preempted between any two statements. Ledgers
count the calls of a thread (`acquires`, `releases`) and the levels it is inside (`nest`).

* `ConsoleInv.step`: **one step** of clients that bracket their calls fails no assertion.
* `console_lock_recursive`: one thread is inside, and only its outermost release frees the lock.
-/

namespace OsMaterial

open Function (update update_eq_self update_of_ne update_self)

inductive ConsoleFault where
  | lock (e : ThreadFault)
  | interrupt
  | notLocked
  deriving DecidableEq

inductive ConsolePc where
  | running
  | acquiring
  | deepening
  | locking
  | inAcquire
  | releasing
  | shallowing
  | unlocking
  | inRelease
  | counting
  deriving DecidableEq

inductive ConsoleCall where
  | acquireConsole
  | releaseConsole
  | putcharHaveLock
  deriving DecidableEq

inductive ConsoleLabel (τ : Type*) where
  | call (t : τ) (intr : Bool) (c : ConsoleCall)
  | exec (t : τ)
  | panic
  deriving DecidableEq

structure ConsoleState (τ : Type*) where
  locks : LockState τ Unit
  useConsoleLock : Bool
  depth : ℤ
  writeCnt : ℤ
  pc : τ → ConsolePc
  intrContext : τ → Bool
  acquires : τ → ℕ
  releases : τ → ℕ
  nest : τ → ℕ

namespace ConsoleState

variable {τ : Type*} [DecidableEq τ]

def goto (s : ConsoleState τ) (t : τ) (p : ConsolePc) : ConsoleState τ :=
  { s with pc := update s.pc t p }

def setNest (s : ConsoleState τ) (t : τ) (n : ℕ) : ConsoleState τ :=
  { s with nest := update s.nest t n }

def consoleLockedByCurrentThread (s : ConsoleState τ) (t : τ) (intr : Bool) : Bool :=
  intr || !s.useConsoleLock || lockHeldByCurrentThread (s.locks.lock ()) t

def call (s : ConsoleState τ) (t : τ) (intr : Bool) :
    ConsoleCall → Outcome ConsoleFault (ConsoleState τ)
  | .acquireConsole =>
    .next ({ s with
      acquires := update s.acquires t (s.acquires t + 1)
      intrContext := update s.intrContext t intr }.goto t
        (if !intr && s.useConsoleLock then .acquiring else .running))
  | .releaseConsole =>
    .next ({ s with
      releases := update s.releases t (s.releases t + 1)
      intrContext := update s.intrContext t intr }.goto t
        (if !intr && s.useConsoleLock then .releasing else .running))
  | .putcharHaveLock =>
    if s.consoleLockedByCurrentThread t intr then
      .next ({ s with intrContext := update s.intrContext t intr }.goto t .counting)
    else
      .fault .notLocked

def exec (s : ConsoleState τ) (t : τ) : Outcome ConsoleFault (ConsoleState τ) :=
  match s.pc t with
  | .running => .blocked
  | .acquiring =>
    if lockHeldByCurrentThread (s.locks.lock ()) t then .next (s.goto t .deepening)
    else .next (s.goto t .locking)
  | .deepening =>
    .next (({ s with depth := s.depth + 1 }.setNest t (s.nest t + 1)).goto t .running)
  | .locking =>
    if s.intrContext t then .fault .interrupt
    else (s.locks.call t (.acquire ())).bimap .lock fun locks =>
      { s with locks }.goto t .inAcquire
  | .inAcquire =>
    (s.locks.exec t).bimap .lock fun locks =>
      -- the holder is set by the last piece
      if locks.pc t = .running then
        ({ s with locks }.setNest t (s.nest t + 1)).goto t .running
      else
        { s with locks }.goto t .inAcquire
  | .releasing =>
    if s.depth > 0 then .next (s.goto t .shallowing)
    else .next (s.goto t .unlocking)
  | .shallowing =>
    .next (({ s with depth := s.depth - 1 }.setNest t (s.nest t - 1)).goto t .running)
  | .unlocking =>
    (s.locks.call t (.release ())).bimap .lock fun locks =>
      { s with locks }.goto t .inRelease
  | .inRelease =>
    (s.locks.exec t).bimap .lock fun locks =>
      -- the holder is cleared by the first piece, and `sema_up` is the last
      if locks.pc t = .running then { s with locks }.goto t .running
      else ({ s with locks }.setNest t (s.nest t - 1)).goto t .inRelease
  | .counting => .next ({ s with writeCnt := s.writeCnt + 1 }.goto t .running)

def step (s : ConsoleState τ) : ConsoleLabel τ → Outcome ConsoleFault (ConsoleState τ)
  | .call t intr c => if s.pc t = .running then s.call t intr c else .blocked
  | .exec t => s.exec t
  -- `console_panic`
  | .panic => .next { s with useConsoleLock := false }

/-- **Well-bracketed clients**, outside interrupts and before a panic: a thread releases the console
at most as often as it has acquired it, and writes in between. -/
def WellBracketed (s : ConsoleState τ) : ConsoleLabel τ → Prop
  | .call _ intr .acquireConsole => intr = false
  | .call t intr .releaseConsole => intr = false ∧ s.releases t < s.acquires t
  | .call t intr .putcharHaveLock => intr = false ∧ s.releases t < s.acquires t
  | .exec _ => True
  | .panic => False

end ConsoleState

def consoleMachine (τ : Type*) [DecidableEq τ] :
    Machine (ConsoleState τ) (ConsoleLabel τ) ConsoleFault where
  start :=
    { locks := (lockMachine τ Unit).start
      useConsoleLock := true
      depth := 0
      writeCnt := 0
      pc := fun _ => .running
      intrContext := fun _ => false
      acquires := fun _ => 0
      releases := fun _ => 0
      nest := fun _ => 0 }
  step := ConsoleState.step

/-! ### A counter of the levels of one owner -/

variable {p : ConsolePc} {n : ℕ} {d : ℤ}

section Nested

variable {τ : Type*} {nest : τ → ℕ} {depth : ℤ} {t : τ}

/-- At most one owner has levels, and **the counter** is its levels but one. -/
structure Nested (nest : τ → ℕ) (depth : ℤ) : Prop where
  unique : ∀ t u, 0 < nest t → 0 < nest u → t = u
  held : ∀ t, 0 < nest t → depth = nest t - 1
  free : (∀ t, nest t = 0) → depth = 0

theorem Nested.eq_zero (h : Nested nest depth) (ht : 0 < nest t) {u : τ} (hu : u ≠ t) :
    nest u = 0 := by
  by_contra hne
  exact hu (h.unique u t (by omega) ht)

theorem nested_of_zero (hzero : ∀ u, u ≠ t → nest u = 0) (hheld : 0 < nest t → depth = nest t - 1)
    (hfree : nest t = 0 → depth = 0) : Nested nest depth := by
  have honly : ∀ u, 0 < nest u → u = t := by
    intro u hu
    by_contra hne
    have := hzero u hne
    omega
  refine ⟨fun u v hu hv => (honly u hu).trans (honly v hv).symm, fun u hu => ?_,
    fun hall => hfree (hall t)⟩
  obtain rfl := honly u hu
  exact hheld hu

variable [DecidableEq τ]

theorem Nested.change (hzero : ∀ u, u ≠ t → nest u = 0) (hheld : 0 < n → depth = n - 1)
    (hfree : n = 0 → depth = 0) : Nested (update nest t n) depth := by
  refine nested_of_zero (t := t) (fun u hu => ?_) ?_ ?_
  · rw [update_of_ne hu]
    exact hzero u hu
  · rw [update_self]
    exact hheld
  · rw [update_self]
    exact hfree

end Nested

/-! ### The invariant -/

/-- **Where a thread can be**, with respect to the lock, its levels and the calls it has made. -/
def ConsolePc.Fits (l : LockPc Unit) (nest acquires releases : ℕ) : ConsolePc → Prop
  | running => l = .running ∧ nest + releases = acquires
  | acquiring => l = .running ∧ nest + releases + 1 = acquires
  | deepening => l = .running ∧ nest + releases + 1 = acquires ∧ 0 < nest
  | locking => l = .running ∧ releases + 1 = acquires ∧ nest = 0
  | inAcquire => (l = .downing () ∨ l = .blocked () ∨ l = .acquired ()) ∧
      releases + 1 = acquires ∧ nest = 0
  | releasing => l = .running ∧ nest + releases = acquires + 1 ∧ 0 < nest
  | shallowing => l = .running ∧ nest + releases = acquires + 1 ∧ 1 < nest
  | unlocking => l = .running ∧ releases = acquires ∧ nest = 1
  | inRelease => (l = .releasing () ∧ nest = 1 ∨ l = .cleared () ∧ nest = 0) ∧ releases = acquires
  | counting => l = .running ∧ nest + releases = acquires

theorem ConsolePc.Fits.wake {nest acquires releases : ℕ}
    (h : p.Fits (.blocked ()) nest acquires releases) :
    p.Fits (.downing ()) nest acquires releases := by
  cases p with
  | inAcquire => exact ⟨.inl rfl, h.2⟩
  | inRelease =>
    obtain ⟨⟨hl, -⟩ | ⟨hl, -⟩, -⟩ := h
    · cases hl
    · cases hl
  | running | acquiring | deepening | locking | releasing | shallowing | unlocking | counting =>
    cases h.1

open ConsoleState

section Invariant

variable {τ : Type*} [DecidableEq τ] {s s' : ConsoleState τ} {t : τ}

structure ConsoleInv (s : ConsoleState τ) : Prop where
  lock : LockInv s.locks
  use : s.useConsoleLock = true
  intr : ∀ t, s.intrContext t = false
  inside_iff : ∀ t, s.locks.inside () t = true ↔ 0 < s.nest t
  nested : Nested s.nest s.depth
  fits : ∀ t, (s.pc t).Fits (s.locks.pc t) (s.nest t) (s.acquires t) (s.releases t)

theorem consoleInv_start : ConsoleInv (consoleMachine τ).start where
  lock := lockInv_start
  use := rfl
  intr _ := rfl
  inside_iff _ := iff_of_false Bool.false_ne_true (Nat.lt_irrefl 0)
  nested := ⟨fun _ _ ht => absurd ht (Nat.lt_irrefl 0), fun _ ht => absurd ht (Nat.lt_irrefl 0),
    fun _ => rfl⟩
  fits _ := ⟨rfl, rfl⟩

structure ConsoleState.SameFor (s s' : ConsoleState τ) (u : τ) : Prop where
  pc_eq : s'.pc u = s.pc u
  nest_eq : s'.nest u = s.nest u
  acquires_eq : s'.acquires u = s.acquires u
  releases_eq : s'.releases u = s.releases u
  inside_eq : s'.locks.inside () u = s.locks.inside () u
  lockPc_eq : s'.locks.pc u = s.locks.pc u ∨
    s.locks.pc u = .blocked () ∧ s'.locks.pc u = .downing ()

namespace ConsoleInv

section

variable (h : ConsoleInv s)

include h

theorem advance (hlock : LockInv s'.locks) (huse : s'.useConsoleLock = true)
    (hintr : ∀ u, s'.intrContext u = false) (hnested : Nested s'.nest s'.depth)
    (hother : ∀ u, u ≠ t → s.SameFor s' u) (hinside : s'.locks.inside () t = true ↔ 0 < s'.nest t)
    (hfits : (s'.pc t).Fits (s'.locks.pc t) (s'.nest t) (s'.acquires t) (s'.releases t)) :
    ConsoleInv s' := by
  refine ⟨hlock, huse, hintr, fun u => ?_, hnested, fun u => ?_⟩
  · by_cases hu : u = t
    · exact hu ▸ hinside
    · rw [(hother u hu).inside_eq, (hother u hu).nest_eq]
      exact h.inside_iff u
  · by_cases hu : u = t
    · exact hu ▸ hfits
    · have hsame := hother u hu
      have hfit := h.fits u
      rw [hsame.pc_eq, hsame.nest_eq, hsame.acquires_eq, hsame.releases_eq]
      rcases hsame.lockPc_eq with heq | ⟨hblocked, hdowning⟩
      · rwa [heq]
      · rw [hdowning]
        rw [hblocked] at hfit
        exact hfit.wake

theorem goto (hfits : p.Fits (s.locks.pc t) (s.nest t) (s.acquires t) (s.releases t)) :
    ConsoleInv (s.goto t p) := by
  refine h.advance (t := t) h.lock h.use h.intr h.nested (fun u hu => ?_) (h.inside_iff t) ?_
  · exact ⟨update_of_ne hu .., rfl, rfl, rfl, rfl, .inl rfl⟩
  · simpa only [ConsoleState.goto, update_self] using hfits

theorem call (hpc : s.pc t = .running) {intr : Bool} {c : ConsoleCall}
    (hok : s.WellBracketed (.call t intr c)) :
    ∃ s', s.call t intr c = .next s' ∧ ConsoleInv s' := by
  have hfits := h.fits t
  rw [hpc] at hfits
  obtain ⟨hl, hcalls⟩ := hfits
  have hintr : ∀ u, update s.intrContext t false u = false := by
    intro u
    by_cases hu : u = t
    · rw [hu, update_self]
    · rw [update_of_ne hu, h.intr]
  cases c with
  | acquireConsole =>
    obtain rfl : intr = false := hok
    refine ⟨_, rfl, h.advance (t := t) h.lock h.use hintr h.nested (fun u hu => ?_)
      (h.inside_iff t) ?_⟩
    · exact ⟨update_of_ne hu .., rfl, update_of_ne hu .., rfl, rfl, .inl rfl⟩
    · simp only [ConsoleState.goto, update_self, h.use, Bool.not_false, Bool.and_self, if_true]
      exact ⟨hl, by omega⟩
  | releaseConsole =>
    obtain ⟨rfl, hlt⟩ := hok
    refine ⟨_, rfl, h.advance (t := t) h.lock h.use hintr h.nested (fun u hu => ?_)
      (h.inside_iff t) ?_⟩
    · exact ⟨update_of_ne hu .., rfl, rfl, update_of_ne hu .., rfl, .inl rfl⟩
    · simp only [ConsoleState.goto, update_self, h.use, Bool.not_false, Bool.and_self, if_true]
      exact ⟨hl, by omega, by omega⟩
  | putcharHaveLock =>
    obtain ⟨rfl, hlt⟩ := hok
    have hheld : s.consoleLockedByCurrentThread t false = true := by
      have hin : s.locks.inside () t = true := (h.inside_iff t).mpr (by omega)
      rw [consoleLockedByCurrentThread, h.lock.held_iff, hin, Bool.or_true]
    refine ⟨_, if_pos hheld, h.advance (t := t) h.lock h.use hintr h.nested (fun u hu => ?_)
      (h.inside_iff t) ?_⟩
    · exact ⟨update_of_ne hu .., rfl, rfl, rfl, rfl, .inl rfl⟩
    · simp only [ConsoleState.goto, update_self]
      exact ⟨hl, hcalls⟩

variable {locks : LockState τ Unit}

theorem setLevel (hlock : LockInv locks)
    (hother : s.locks.OthersKept t locks)
    (hnested : Nested (update s.nest t n) d) (hinside : locks.inside () t = true ↔ 0 < n)
    (hfits : p.Fits (locks.pc t) n (s.acquires t) (s.releases t)) :
    ConsoleInv (({ s with locks, depth := d }.setNest t n).goto t p) := by
  refine h.advance (t := t) hlock h.use h.intr hnested (fun u hu => ?_) ?_ ?_
  · exact ⟨update_of_ne hu .., update_of_ne hu .., rfl, rfl, (hother u hu).1, (hother u hu).2⟩
  · simpa only [ConsoleState.goto, setNest, update_self] using hinside
  · simpa only [ConsoleState.goto, setNest, update_self] using hfits

theorem setDepth (hpos : 0 < s.nest t) (hn : 0 < n) (hd : d = n - 1) (hl : s.locks.pc t = .running)
    (hcalls : n + s.releases t = s.acquires t) :
    ConsoleInv (({ s with depth := d }.setNest t n).goto t .running) := by
  refine h.setLevel h.lock (fun _ _ => ⟨rfl, .inl rfl⟩) ?_ ?_ ⟨hl, hcalls⟩
  · exact .change (fun u hu => h.nested.eq_zero hpos hu) (fun _ => hd) (fun h0 => by omega)
  · exact iff_of_true ((h.inside_iff t).mpr hpos) hn

theorem setLocks (hlock : LockInv locks)
    (hother : s.locks.OthersKept t locks)
    (hinside : locks.inside () t = s.locks.inside () t)
    (hfits : p.Fits (locks.pc t) (s.nest t) (s.acquires t) (s.releases t)) :
    ConsoleInv ({ s with locks }.goto t p) := by
  have hself : update s.nest t (s.nest t) = s.nest := update_eq_self ..
  have hnested : Nested (update s.nest t (s.nest t)) s.depth := by
    rw [hself]
    exact h.nested
  have hlevel := h.setLevel hlock hother hnested (hinside ▸ h.inside_iff t) hfits
  rwa [setNest, hself] at hlevel

theorem exec_inAcquire (hpc : s.pc t = .inAcquire) :
    s.exec t = .blocked ∨ ∃ s', s.exec t = .next s' ∧ ConsoleInv s' := by
  have hfits := h.fits t
  rw [hpc] at hfits
  obtain ⟨hl, hcalls, hzero⟩ := hfits
  simp only [ConsoleState.exec, hpc]
  rcases hl with hl | hl | hl
  · obtain ⟨locks, hs, hlock, hin, hl'⟩ := h.lock.exec_downing hl
    have hne : locks.pc t ≠ .running := by rcases hl' with hl' | hl' <;> simp [hl']
    refine .inr ⟨_, by rw [hs, Outcome.bimap, if_neg hne], ?_⟩
    exact h.setLocks hlock (LockState.exec_other hs) hin ⟨.inr hl', hcalls, hzero⟩
  · exact .inl (by simp only [LockState.exec, hl, Outcome.bimap])
  · obtain ⟨locks, hs, hlock, hin, hl'⟩ := h.lock.exec_acquired hl
    refine .inr ⟨_, by rw [hs, Outcome.bimap, if_pos hl'], ?_⟩
    -- the thread owns the unit of the lock, so that nobody is inside
    have hfree : ∀ u, s.nest u = 0 := by
      intro u
      by_contra hne
      have hin : s.locks.inside () u = true := (h.inside_iff u).mpr (by omega)
      obtain rfl := (h.lock.unit ()).unique u t (.inl hin) (.inr (.inl hl))
      exact hne hzero
    have hdepth := h.nested.free hfree
    refine h.setLevel hlock (LockState.exec_other hs) ?_
      (iff_of_true hin (Nat.succ_pos _)) ⟨hl', by omega⟩
    refine .change (fun u _ => hfree u) (fun _ => ?_) (fun h0 => by omega)
    rw [hdepth, hzero]
    rfl

theorem exec_inRelease (hpc : s.pc t = .inRelease) : ∃ s', s.exec t = .next s' ∧ ConsoleInv s' := by
  have hfits := h.fits t
  rw [hpc] at hfits
  simp only [ConsoleState.exec, hpc]
  obtain ⟨⟨hl, hone⟩ | ⟨hl, hzero⟩, hcalls⟩ := hfits
  · obtain ⟨locks, hs, hlock, hin, hl'⟩ := h.lock.exec_releasing hl
    have hpos : 0 < s.nest t := by omega
    have hdepth := h.nested.held t hpos
    refine ⟨_, by rw [hs, Outcome.bimap, if_neg (by simp [hl'])], ?_⟩
    refine h.setLevel hlock (LockState.exec_other hs) ?_ ?_
      ⟨.inr ⟨hl', by omega⟩, hcalls⟩
    · refine .change (fun u hu => h.nested.eq_zero hpos hu) (fun h1 => by omega) (fun _ => ?_)
      rw [hdepth, hone]
      rfl
    · rw [hin, hone]
      exact iff_of_false Bool.false_ne_true (Nat.lt_irrefl 0)
  · obtain ⟨locks, hs, hlock, hin, hl'⟩ := h.lock.exec_cleared hl
    refine ⟨_, by rw [hs, Outcome.bimap, if_pos hl'], ?_⟩
    exact h.setLocks hlock (LockState.exec_other hs) hin ⟨hl', by omega⟩

theorem exec (t : τ) : s.exec t = .blocked ∨ ∃ s', s.exec t = .next s' ∧ ConsoleInv s' := by
  have hfits := h.fits t
  cases hpc : s.pc t with
  | running => exact .inl (by simp only [ConsoleState.exec, hpc])
  | acquiring =>
    rw [hpc] at hfits
    obtain ⟨hl, hcalls⟩ := hfits
    simp only [ConsoleState.exec, hpc, h.lock.held_iff]
    by_cases hin : s.locks.inside () t = true
    · exact .inr ⟨_, if_pos hin, h.goto ⟨hl, hcalls, (h.inside_iff t).mp hin⟩⟩
    · have hzero : s.nest t = 0 := by
        rw [h.inside_iff] at hin
        omega
      exact .inr ⟨_, if_neg hin, h.goto ⟨hl, by omega, hzero⟩⟩
  | deepening =>
    rw [hpc] at hfits
    obtain ⟨hl, hcalls, hpos⟩ := hfits
    have hdepth := h.nested.held t hpos
    simp only [ConsoleState.exec, hpc]
    refine .inr ⟨_, rfl, ?_⟩
    exact h.setDepth hpos (by omega) (by push_cast; omega) hl (by omega)
  | locking =>
    rw [hpc] at hfits
    obtain ⟨hl, hcalls, hzero⟩ := hfits
    have hin : ¬ s.locks.inside () t = true := by
      rw [h.inside_iff]
      omega
    obtain ⟨hs, hlock⟩ := h.lock.call_acquire hl hin
    simp only [ConsoleState.exec, hpc, h.intr, Bool.false_eq_true, if_false, hs, Outcome.bimap]
    exact .inr ⟨_, rfl, h.setLocks hlock (fun u hu => ⟨rfl, .inl (by simp [hu])⟩) rfl
      ⟨.inl (by simp), hcalls, hzero⟩⟩
  | inAcquire => exact h.exec_inAcquire hpc
  | releasing =>
    rw [hpc] at hfits
    obtain ⟨hl, hcalls, hpos⟩ := hfits
    have hdepth := h.nested.held t hpos
    simp only [ConsoleState.exec, hpc]
    by_cases hd : s.depth > 0
    · exact .inr ⟨_, if_pos hd, h.goto ⟨hl, hcalls, by omega⟩⟩
    · exact .inr ⟨_, if_neg hd, h.goto ⟨hl, by omega, by omega⟩⟩
  | shallowing =>
    rw [hpc] at hfits
    obtain ⟨hl, hcalls, hlt⟩ := hfits
    have hpos : 0 < s.nest t := by omega
    have hdepth := h.nested.held t hpos
    simp only [ConsoleState.exec, hpc]
    refine .inr ⟨_, rfl, ?_⟩
    exact h.setDepth hpos (by omega) (by omega) hl (by omega)
  | unlocking =>
    rw [hpc] at hfits
    obtain ⟨hl, hcalls, hone⟩ := hfits
    have hin : s.locks.inside () t = true := (h.inside_iff t).mpr (by omega)
    obtain ⟨hs, hlock⟩ := h.lock.call_release hl hin
    simp only [ConsoleState.exec, hpc, hs, Outcome.bimap]
    exact .inr ⟨_, rfl, h.setLocks hlock (fun u hu => ⟨rfl, .inl (by simp [hu])⟩) rfl
      ⟨.inl ⟨by simp, hone⟩, hcalls⟩⟩
  | inRelease => exact .inr (h.exec_inRelease hpc)
  | counting =>
    rw [hpc] at hfits
    obtain ⟨hl, hcalls⟩ := hfits
    simp only [ConsoleState.exec, hpc]
    refine .inr ⟨_, rfl, ?_⟩
    refine h.advance (t := t) h.lock h.use h.intr h.nested (fun u hu => ?_) (h.inside_iff t) ?_
    · exact ⟨update_of_ne hu .., rfl, rfl, rfl, rfl, .inl rfl⟩
    · simp only [ConsoleState.goto, update_self]
      exact ⟨hl, hcalls⟩

theorem step {i : ConsoleLabel τ} (hok : s.WellBracketed i) :
    s.step i = .blocked ∨ ∃ s', s.step i = .next s' ∧ ConsoleInv s' := by
  cases i with
  | call t intr c =>
    by_cases hpc : s.pc t = .running
    · rw [ConsoleState.step, if_pos hpc]
      exact .inr (h.call hpc hok)
    · exact .inl (by rw [ConsoleState.step, if_neg hpc])
  | exec t => exact h.exec t
  | panic => exact hok.elim

end

end ConsoleInv

theorem consoleMachine_preserves : (consoleMachine τ).Preserves WellBracketed ConsoleInv :=
  fun _ _ h hok => h.step hok

theorem consoleInv_of_reachable
    (hr : (consoleMachine τ).ReachableUnder WellBracketed s) : ConsoleInv s :=
  hr.of_preserves consoleMachine_preserves consoleInv_start

/-! ### Recursive locking -/

/-- **The console lock is recursive**, under every interleaving of clients that bracket their calls.
-/
theorem console_lock_recursive (s : ConsoleState τ)
    (hr : (consoleMachine τ).ReachableUnder WellBracketed s) :
    (∀ t u, 0 < s.nest t → 0 < s.nest u → t = u) ∧
    (∀ t, (s.locks.lock ()).holder = some t ↔ 0 < s.nest t) ∧
    (∀ t, 0 < s.nest t → s.depth = s.nest t - 1) ∧
    ((∀ t, s.nest t = 0) → s.depth = 0) ∧
    (∀ t, s.pc t = .running → s.nest t + s.releases t = s.acquires t) ∧
    (∀ t, s.pc t = .unlocking ∨ s.pc t = .inRelease → s.releases t = s.acquires t) ∧
    (∀ t, s.pc t = .shallowing → s.releases t < s.acquires t) ∧
    ∀ i e, s.WellBracketed i → (consoleMachine τ).step s i ≠ .fault e := by
  have h := consoleInv_of_reachable hr
  refine ⟨h.nested.unique, fun t => (h.lock.holder_iff () t).trans (h.inside_iff t), h.nested.held,
    h.nested.free, fun t hpc => ?_, fun t hpc => ?_, fun t hpc => ?_, fun i e hok => ?_⟩
  · have hfits := h.fits t
    rw [hpc] at hfits
    exact hfits.2
  · have hfits := h.fits t
    rcases hpc with hpc | hpc
    · rw [hpc] at hfits
      exact hfits.2.1
    · rw [hpc] at hfits
      exact hfits.2
  · have hfits := h.fits t
    rw [hpc] at hfits
    obtain ⟨-, hcalls, hlt⟩ := hfits
    omega
  · exact consoleMachine_preserves.not_fault h hok e

end Invariant

def nestedConsole : List (ConsoleLabel ℕ) :=
  [.call 0 false .acquireConsole, .exec 0, .exec 0, .exec 0, .exec 0,
    .call 1 false .acquireConsole, .exec 1, .exec 1, .exec 1,
    .call 0 false .acquireConsole, .exec 0, .exec 0,
    .call 0 false .putcharHaveLock, .exec 0,
    .call 0 false .releaseConsole, .exec 0, .exec 0]

instance ConsoleState.decidableWellBracketed (s : ConsoleState ℕ) (i : ConsoleLabel ℕ) :
    Decidable (s.WellBracketed i) := by
  unfold ConsoleState.WellBracketed
  split <;> infer_instance

/-- The console is taken twice and released once, while another thread waits. -/
theorem console_lock_recursive_nestedConsole : ∃ s : ConsoleState ℕ,
    (consoleMachine ℕ).run (consoleMachine ℕ).start nestedConsole = .next s ∧
      s.acquires 0 = 2 ∧ s.releases 0 = 1 ∧ s.locks.pc 1 = .blocked () ∧
      (s.locks.lock ()).holder = some 0 ∧ s.depth = 0 := by
  have hok : (consoleMachine ℕ).GuardedRun WellBracketed
      (consoleMachine ℕ).start nestedConsole := by
    decide
  refine ⟨_, rfl, rfl, rfl, rfl, ?_⟩
  have h := console_lock_recursive _ (Machine.ReachableUnder.start.of_run hok rfl)
  exact ⟨(h.2.1 0).mpr Nat.one_pos, h.2.2.1 0 Nat.one_pos⟩

end OsMaterial
