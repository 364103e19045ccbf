import OsMaterial.Lock

/-!
# Completion Interrupts of an IDE Channel

`ide_read`, `ide_write` and `interrupt_handler` of `devices/ide.c`, for one channel and any number
of threads; an interrupt may come between any two statements. The handler ups `completion_wait` if
`expecting_interrupt` is set, which nothing ever clears. The answer to `wait_while_busy` is part of
a step. Ledgers count the commands issued, those completed, and the interrupts since the last one.

* `ide_completion`: a run is **as the comment on the flag says** if an interrupt comes, once the
  flag is set, only while a command is outstanding and unanswered (`Answers`).
* `ide_stray_interrupt`: one interrupt too many completes the next command early.
-/

namespace OsMaterial

open List
open Function (update update_of_ne update_self)

inductive IdeFault where
  | lock (e : ThreadFault)
  | sector
  | interruptsOff
  | failed
  deriving DecidableEq

inductive IdePc where
  | running
  | inAcquire
  | selecting
  | issuing
  | commanding
  | sending
  | downing
  | blocked
  | receiving
  | unlocking
  | inRelease
  deriving DecidableEq

structure IdeCall where
  write : Bool
  secNo : ℕ
  intrOn : Bool
  deriving DecidableEq

inductive IdeLabel (τ : Type*) where
  | call (t : τ) (c : IdeCall)
  | exec (t : τ) (ready : Bool)
  | interrupt
  deriving DecidableEq

structure IdeState (τ : Type*) where
  locks : LockState τ Unit
  expectingInterrupt : Bool
  completionWait : Semaphore τ
  pc : τ → IdePc
  request : τ → IdeCall
  issued : ℕ
  completed : ℕ
  since : ℕ
  unexpected : ℕ

namespace IdeState

variable {τ : Type*} [DecidableEq τ]

def goto (s : IdeState τ) (t : τ) (p : IdePc) : IdeState τ :=
  { s with pc := update s.pc t p }

def call (s : IdeState τ) (t : τ) (c : IdeCall) : Outcome IdeFault (IdeState τ) :=
  (s.locks.call t (.acquire ())).bimap .lock fun locks =>
    { s with locks, request := update s.request t c }.goto t .inAcquire

def exec (s : IdeState τ) (t : τ) (ready : Bool) : Outcome IdeFault (IdeState τ) :=
  match s.pc t with
  | .running => .blocked
  | .inAcquire =>
    (s.locks.exec t).bimap .lock fun locks =>
      { s with locks }.goto t (if locks.pc t = LockPc.running then .selecting else .inAcquire)
  | .selecting =>
    if (s.request t).secNo < 2 ^ 28 then .next (s.goto t .issuing) else .fault .sector
  | .issuing =>
    if (s.request t).intrOn then
      .next ({ s with expectingInterrupt := true }.goto t .commanding)
    else
      .fault .interruptsOff
  | .commanding =>
    .next ({ s with issued := s.issued + 1, since := 0 }.goto t
      (if (s.request t).write then .sending else .downing))
  | .sending => if ready then .next (s.goto t .downing) else .fault .failed
  | .downing =>
    match semaDown s.completionWait t with
    | (sema, true) =>
      .next ({ s with completionWait := sema, completed := s.completed + 1 }.goto t
        (if (s.request t).write then .unlocking else .receiving))
    | (sema, false) => .next ({ s with completionWait := sema }.goto t .blocked)
  | .blocked => .blocked
  | .receiving => if ready then .next (s.goto t .unlocking) else .fault .failed
  | .unlocking =>
    (s.locks.call t (.release ())).bimap .lock fun locks =>
      { s with locks }.goto t .inRelease
  | .inRelease =>
    (s.locks.exec t).bimap .lock fun locks =>
      { s with locks }.goto t (if locks.pc t = LockPc.running then .running else .inRelease)

def interruptHandler (s : IdeState τ) : Outcome IdeFault (IdeState τ) :=
  if s.expectingInterrupt then
    match semaUp s.completionWait with
    | (sema, none) => .next { s with completionWait := sema, since := s.since + 1 }
    | (sema, some w) =>
      -- `thread_unblock` asserts that the popped thread is blocked
      if s.pc w = .blocked then
        .next ({ s with completionWait := sema, since := s.since + 1 }.goto w .downing)
      else
        .fault (.lock .notBlocked)
  else
    .next { s with unexpected := s.unexpected + 1 }

def step (s : IdeState τ) : IdeLabel τ → Outcome IdeFault (IdeState τ)
  | .call t c => if s.pc t = .running then s.call t c else .blocked
  | .exec t ready => s.exec t ready
  | .interrupt => s.interruptHandler

def Idle (s : IdeState τ) : Prop := s.issued = s.completed

/-- **What the comment on the flag promises** of a step from `s` to `s'`. -/
structure Matched (s : IdeState τ) (i : IdeLabel τ) (s' : IdeState τ) : Prop where
  value_eq : s'.Idle → s'.completionWait.value = 0
  fresh : s'.completed = s.completed + 1 → 0 < s.since
  unexpected : i = .interrupt → s.Idle → s' = { s with unexpected := s.unexpected + 1 }

/-- **The guard of a run**: once the flag is set, the disk interrupts only while a command is
outstanding, and only once for a command. -/
def Answers (s : IdeState τ) (i : IdeLabel τ) : Prop :=
  i = .interrupt → s.expectingInterrupt = false ∨ s.issued ≠ s.completed ∧ s.since = 0

instance (s : IdeState τ) (i : IdeLabel τ) : Decidable (s.Answers i) :=
  inferInstanceAs (Decidable (_ → _))

end IdeState

def ideMachine (τ : Type*) [DecidableEq τ] (expecting : Bool) :
    Machine (IdeState τ) (IdeLabel τ) IdeFault where
  start :=
    { locks := (lockMachine τ Unit).start
      expectingInterrupt := expecting
      completionWait := semaInit 0
      pc := fun _ => .running
      request := fun _ => ⟨false, 0, true⟩
      issued := 0
      completed := 0
      since := 0
      unexpected := 0 }
  step := IdeState.step

/-! ### The invariant -/

def IdePc.pending : IdePc → Bool
  | sending => true
  | downing => true
  | blocked => true
  | _ => false

def IdePc.Fits (l : LockPc Unit) (inside : Bool) : IdePc → Prop
  | running => l = .running ∧ inside = false
  | inAcquire => (l = .downing () ∨ l = .blocked () ∨ l = .acquired ()) ∧ inside = false
  | inRelease => l = .releasing () ∧ inside = true ∨ l = .cleared () ∧ inside = false
  | _ => l = .running ∧ inside = true

variable {p : IdePc} {inside : Bool}

theorem IdePc.Fits.of_pending {l : LockPc Unit}
    (h : p.Fits l inside) (hp : p.pending = true) : l = .running ∧ inside = true := by
  cases p with
  | sending | downing | blocked => exact h
  | running | inAcquire | selecting | issuing | commanding | receiving | unlocking | inRelease =>
    cases hp

theorem IdePc.Fits.wake (h : p.Fits (.blocked ()) inside) : p.Fits (.downing ()) inside := by
  cases p with
  | inAcquire => exact ⟨.inl rfl, h.2⟩
  | inRelease =>
    obtain ⟨hl, -⟩ | ⟨hl, -⟩ := h
    · cases hl
    · cases hl
  | running | selecting | issuing | commanding | sending | downing | blocked | receiving
  | unlocking => cases h.1

open IdeState

section Invariant

variable {τ : Type*} [DecidableEq τ] {s s' : IdeState τ} {t : τ}

/-- **The channel invariant**: only the holder of the lock has a command outstanding, and only it
waits for an interrupt. -/
structure IdeInv (s : IdeState τ) : Prop where
  lock : LockInv s.locks
  fits : ∀ t, (s.pc t).Fits (s.locks.pc t) (s.locks.inside () t)
  mem_waiters : ∀ t, t ∈ s.completionWait.waiters ↔ s.pc t = .blocked
  nodup : s.completionWait.waiters.Nodup
  pending : ∀ t, (s.pc t).pending = true → s.issued = s.completed + 1
  idle : (∀ t, (s.pc t).pending = false) → s.Idle

theorem ideInv_start (expecting : Bool) : IdeInv (ideMachine τ expecting).start where
  lock := lockInv_start
  fits _ := ⟨rfl, rfl⟩
  mem_waiters _ := iff_of_false not_mem_nil nofun
  nodup := nodup_nil
  pending _ h := by cases h
  idle _ := rfl

namespace IdeInv

omit [DecidableEq τ] in
theorem alone (h : IdeInv s) (hin : s.locks.inside () t = true) {u : τ} (hu : u ≠ t) :
    (s.pc u).pending = false := by
  by_contra hp
  rw [Bool.not_eq_false] at hp
  exact hu ((h.lock.unit ()).unique u t (.inl ((h.fits u).of_pending hp).2) (.inl hin))

theorem holderStep (h : IdeInv s) (hin : s.locks.inside () t = true)
    (hfits : p.Fits (s.locks.pc t) (s.locks.inside () t)) (hlocks : s'.locks = s.locks)
    (hpc : s'.pc = update s.pc t p)
    (hmem : ∀ u, u ∈ s'.completionWait.waiters ↔ u ≠ t ∧ s.pc u = .blocked ∨ u = t ∧ p = .blocked)
    (hnodup : s'.completionWait.waiters.Nodup)
    (hissued : s'.issued = s'.completed + p.pending.toNat) : IdeInv s' := by
  have hself : s'.pc t = p := by rw [hpc, update_self]
  have hother : ∀ u, u ≠ t → s'.pc u = s.pc u := fun u hu => by rw [hpc, update_of_ne hu]
  refine ⟨hlocks ▸ h.lock, fun u => ?_, fun u => ?_, hnodup, fun u hu => ?_, fun hall => ?_⟩
  · rw [hlocks]
    by_cases hu : u = t
    · rw [hu, hself]
      exact hfits
    · rw [hother u hu]
      exact h.fits u
  · rw [hmem]
    by_cases hu : u = t
    · rw [hu, hself]
      simp
    · rw [hother u hu]
      simp [hu]
  · by_cases hut : u = t
    · rw [hut, hself] at hu
      rw [hissued, hu]
      rfl
    · rw [hother u hut, h.alone hin hut] at hu
      cases hu
  · have hp := hall t
    rw [hself] at hp
    rw [IdeState.Idle, hissued, hp]
    rfl

theorem lockStep (h : IdeInv s) {locks : LockState τ Unit} (hlock : LockInv locks) (p : IdePc)
    (hother : s.locks.OthersKept t locks)
    (hold : (s.pc t).pending = false) (hnew : p.pending = false)
    (hfits : p.Fits (locks.pc t) (locks.inside () t)) (request : τ → IdeCall) :
    IdeInv ({ s with locks, request }.goto t p) := by
  have hpc : ∀ u, (update s.pc t p u).pending = (s.pc u).pending := by
    intro u
    by_cases hu : u = t
    · rw [hu, update_self, hold, hnew]
    · rw [update_of_ne hu]
  refine ⟨hlock, fun u => ?_, fun u => ?_, h.nodup, fun u hu => ?_, fun hall => ?_⟩
  · simp only [IdeState.goto]
    by_cases hu : u = t
    · rw [hu, update_self]
      exact hfits
    · obtain ⟨hin, heq | ⟨hblocked, hdowning⟩⟩ := hother u hu
      · rw [update_of_ne hu, hin, heq]
        exact h.fits u
      · rw [update_of_ne hu, hin, hdowning]
        exact (hblocked ▸ h.fits u).wake
  · refine (h.mem_waiters u).trans ?_
    simp only [IdeState.goto]
    by_cases hu : u = t
    · rw [hu, update_self]
      refine iff_of_false (fun hb => ?_) fun hb => ?_
      · rw [hb] at hold
        cases hold
      · rw [hb] at hnew
        cases hnew
    · rw [update_of_ne hu]
  · exact h.pending u ((hpc u).symm.trans hu)
  · exact h.idle fun u => (hpc u).symm.trans (hall u)

omit [DecidableEq τ] in
theorem idle_of_holder (h : IdeInv s) (hin : s.locks.inside () t = true)
    (hp : (s.pc t).pending = false) : s.Idle := by
  refine h.idle fun u => ?_
  by_cases hu : u = t
  · rw [hu, hp]
  · exact h.alone hin hu

end IdeInv

def IdeState.counts (s : IdeState τ) : ℕ × ℕ × ℕ × ℕ :=
  (s.completionWait.value, s.issued, s.completed, s.since)

omit [DecidableEq τ] in
theorem IdeState.counts_eq_iff {v i c n : ℕ} : s.counts = (v, i, c, n) ↔
    s.completionWait.value = v ∧ s.issued = i ∧ s.completed = c ∧ s.since = n := by
  simp only [counts, Prod.mk.injEq]

/-- **What a step can do** to the numbers. -/
inductive IdeState.Effect (s : IdeState τ) (i : IdeLabel τ) (s' : IdeState τ) : Prop
  | quiet (hcounts : s'.counts = s.counts)
      (hreport : i = .interrupt → s' = { s with unexpected := s.unexpected + 1 })
  | issue (hi : i ≠ .interrupt) (hidle : s.Idle) (hcounts : s'.counts =
      (s.completionWait.value, s.issued + 1, s.completed, 0))
  | complete (hi : i ≠ .interrupt) (hissued : s.issued = s.completed + 1)
      (hpos : 0 < s.completionWait.value) (hcounts : s'.counts =
      (s.completionWait.value - 1, s.issued, s.completed + 1, s.since))
  | take (hi : i = .interrupt) (hflag : s.expectingInterrupt = true) (hcounts : s'.counts =
      ((s.completionWait.value + 1) % wordSize, s.issued, s.completed, s.since + 1))

namespace IdeInv

section

variable (h : IdeInv s)

include h

theorem quietStep (hin : s.locks.inside () t = true) (p : IdePc)
    (hfits : p.Fits (s.locks.pc t) (s.locks.inside () t)) (hold : s.pc t ≠ .blocked)
    (hnew : p ≠ .blocked) (hpending : p.pending = (s.pc t).pending) (expecting : Bool) :
    IdeInv ({ s with expectingInterrupt := expecting }.goto t p) := by
  refine h.holderStep hin hfits rfl rfl (fun u => ?_) h.nodup ?_
  · refine (h.mem_waiters u).trans ?_
    by_cases hu : u = t
    · simp [hu, hold, hnew]
    · simp [hu]
  · rw [hpending]
    cases hp : (s.pc t).pending with
    | true => exact h.pending t hp
    | false => exact h.idle_of_holder hin hp

theorem issueStep (hpc : s.pc t = .commanding) (hp : p = .sending ∨ p = .downing) :
    IdeInv ({ s with issued := s.issued + 1, since := 0 }.goto t p) := by
  have hfits := h.fits t
  rw [hpc] at hfits
  have hidle : s.issued = s.completed := h.idle_of_holder hfits.2 (by rw [hpc]; rfl)
  refine h.holderStep hfits.2 ?_ rfl rfl (fun u => ?_) h.nodup ?_
  · rcases hp with rfl | rfl <;> exact hfits
  · refine (h.mem_waiters u).trans ?_
    by_cases hu : u = t
    · rcases hp with rfl | rfl <;> simp [hu, hpc]
    · simp [hu]
  · rw [hidle]
    rcases hp with rfl | rfl <;> rfl

theorem completeStep (hpc : s.pc t = .downing) (hp : p = .unlocking ∨ p = .receiving) :
    IdeInv ({ s with
      completionWait := { s.completionWait with value := s.completionWait.value - 1 }
      completed := s.completed + 1 }.goto t p) := by
  have hfits := h.fits t
  rw [hpc] at hfits
  have hissued := h.pending t (by rw [hpc]; rfl)
  refine h.holderStep hfits.2 ?_ rfl rfl (fun u => ?_) h.nodup ?_
  · rcases hp with rfl | rfl <;> exact hfits
  · refine (h.mem_waiters u).trans ?_
    by_cases hu : u = t
    · rcases hp with rfl | rfl <;> simp [hu, hpc]
    · simp [hu]
  · rw [hissued]
    rcases hp with rfl | rfl <;> rfl

theorem blockStep (hpc : s.pc t = .downing) :
    IdeInv ({ s with completionWait := { s.completionWait with
      waiters := s.completionWait.waiters ++ [t] } }.goto t .blocked) := by
  have hfits := h.fits t
  rw [hpc] at hfits
  have hout : t ∉ s.completionWait.waiters := by
    rw [h.mem_waiters, hpc]
    exact nofun
  refine h.holderStep hfits.2 (p := .blocked) hfits rfl rfl (fun u => ?_) ?_
    (h.pending t (by rw [hpc]; rfl))
  · simp only [IdeState.goto, mem_append, mem_singleton, h.mem_waiters]
    by_cases hu : u = t
    · simp [hu]
    · simp [hu]
  · exact nodup_append.mpr ⟨h.nodup, nodup_singleton t, fun a ha b hb hab => by
      rw [mem_singleton] at hb
      exact hout (hb ▸ hab ▸ ha)⟩

theorem takeStep {w : τ} {ws : List τ} (hw : s.completionWait.waiters = w :: ws) :
    IdeInv ({ s with
      completionWait := (semaUp s.completionWait).1
      since := s.since + 1 }.goto w .downing) := by
  have hblocked : s.pc w = .blocked := (h.mem_waiters w).mp (hw ▸ mem_cons_self)
  have hfits := h.fits w
  rw [hblocked] at hfits
  have hnodup := hw ▸ h.nodup
  refine h.holderStep hfits.2 (p := .downing) hfits rfl rfl (fun u => ?_) ?_
    (h.pending w (by rw [hblocked]; rfl))
  · simp only [IdeState.goto, semaUp, hw, tail_cons, ← h.mem_waiters]
    by_cases hu : u = w
    · simp [hu, (nodup_cons.mp hnodup).1]
    · simp [hu]
  · simp only [IdeState.goto, semaUp, hw, tail_cons]
    exact (nodup_cons.mp hnodup).2

theorem quietExec {c : Prop} [Decidable c] {e : IdeFault} {expecting ready : Bool}
    (hin : s.locks.inside () t = true) (hfits : p.Fits (s.locks.pc t) (s.locks.inside () t))
    (hold : s.pc t ≠ .blocked) (hnew : p ≠ .blocked) (hpending : p.pending = (s.pc t).pending)
    (hs : (if c then .next ({ s with expectingInterrupt := expecting }.goto t p)
      else .fault e) = Outcome.next s') : IdeInv s' ∧ s.Effect (.exec t ready) s' := by
  split at hs
  · obtain rfl := Outcome.next.inj hs
    exact ⟨h.quietStep hin p hfits hold hnew hpending expecting, .quiet rfl nofun⟩
  · cases hs

section

variable {locks : LockState τ Unit} (hx : s.locks.exec t = .next locks)

include hx

/-- A step inside `lock_acquire`: the call goes on when the lock is taken. -/
theorem acquireExec (hpc : s.pc t = .inAcquire) : IdeInv ({ s with locks }.goto t
    (if locks.pc t = LockPc.running then .selecting else .inAcquire)) := by
  have hother := LockState.exec_other hx
  obtain ⟨hl | hl | hl, hin⟩ := hpc ▸ h.fits t
  · obtain ⟨locks', hx', hlock, hin', hl'⟩ := h.lock.exec_downing hl
    obtain rfl := Outcome.next.inj (hx.symm.trans hx')
    have hne : locks.pc t ≠ LockPc.running := by rcases hl' with hl' | hl' <;> simp [hl']
    rw [if_neg hne]
    exact h.lockStep hlock .inAcquire hother (by rw [hpc]; rfl) rfl
      ⟨.inr hl', hin'.trans hin⟩ s.request
  · simp only [LockState.exec, hl] at hx
    cases hx
  · obtain ⟨locks', hx', hlock, hin', hl'⟩ := h.lock.exec_acquired hl
    obtain rfl := Outcome.next.inj (hx.symm.trans hx')
    rw [if_pos hl']
    exact h.lockStep hlock .selecting hother (by rw [hpc]; rfl) rfl ⟨hl', hin'⟩ s.request

/-- A step inside `lock_release`: the call ends when the lock is free. -/
theorem releaseExec (hpc : s.pc t = .inRelease) : IdeInv ({ s with locks }.goto t
    (if locks.pc t = LockPc.running then .running else .inRelease)) := by
  have hother := LockState.exec_other hx
  obtain ⟨hl, hin⟩ | ⟨hl, hin⟩ := hpc ▸ h.fits t
  · obtain ⟨locks', hx', hlock, hin', hl'⟩ := h.lock.exec_releasing hl
    obtain rfl := Outcome.next.inj (hx.symm.trans hx')
    rw [if_neg (by simp [hl'])]
    exact h.lockStep hlock .inRelease hother (by rw [hpc]; rfl) rfl (.inr ⟨hl', hin'⟩) s.request
  · obtain ⟨locks', hx', hlock, hin', hl'⟩ := h.lock.exec_cleared hl
    obtain rfl := Outcome.next.inj (hx.symm.trans hx')
    rw [if_pos hl']
    exact h.lockStep hlock .running hother (by rw [hpc]; rfl) rfl ⟨hl', hin'.trans hin⟩ s.request

end

theorem exec {ready : Bool} (hs : s.exec t ready = .next s') :
    IdeInv s' ∧ s.Effect (.exec t ready) s' := by
  have hi : (.exec t ready : IdeLabel τ) ≠ .interrupt := nofun
  have hfits := h.fits t
  rw [IdeState.exec] at hs
  cases hpc : s.pc t with
  | running | blocked =>
    simp only [hpc] at hs
    cases hs
  | inAcquire =>
    simp only [hpc, Outcome.bimap_eq_next] at hs
    obtain ⟨locks, hx, rfl⟩ := hs
    exact ⟨h.acquireExec hx hpc, .quiet rfl fun heq => absurd heq hi⟩
  | selecting =>
    simp only [hpc] at hs
    rw [hpc] at hfits
    exact h.quietExec (p := .issuing) hfits.2 hfits (by simp [hpc]) (by simp) (by rw [hpc]; rfl) hs
  | issuing =>
    simp only [hpc] at hs
    rw [hpc] at hfits
    exact h.quietExec (p := .commanding) hfits.2 hfits (by simp [hpc]) (by simp) (by rw [hpc]; rfl)
      hs
  | commanding =>
    simp only [hpc] at hs
    rw [hpc] at hfits
    obtain rfl := Outcome.next.inj hs
    refine ⟨h.issueStep hpc ?_, .issue hi (h.idle_of_holder hfits.2 (by rw [hpc]; rfl)) rfl⟩
    split
    · exact .inl rfl
    · exact .inr rfl
  | sending =>
    simp only [hpc] at hs
    rw [hpc] at hfits
    exact h.quietExec (p := .downing) hfits.2 hfits (by simp [hpc]) (by simp) (by rw [hpc]; rfl) hs
  | downing =>
    by_cases hv : s.completionWait.value = 0
    · simp only [hpc, semaDown_of_zero hv] at hs
      obtain rfl := Outcome.next.inj hs
      exact ⟨h.blockStep hpc, .quiet rfl fun heq => absurd heq hi⟩
    · have hpos : 0 < s.completionWait.value := by omega
      simp only [hpc, semaDown_of_pos hpos] at hs
      obtain rfl := Outcome.next.inj hs
      refine ⟨h.completeStep hpc ?_, .complete hi (h.pending t (by rw [hpc]; rfl)) hpos rfl⟩
      split
      · exact .inl rfl
      · exact .inr rfl
  | receiving =>
    simp only [hpc] at hs
    rw [hpc] at hfits
    exact h.quietExec (p := .unlocking) hfits.2 hfits (by simp [hpc]) (by simp) (by rw [hpc]; rfl)
      hs
  | unlocking =>
    rw [hpc] at hfits
    obtain ⟨hx, hlock⟩ := h.lock.call_release hfits.1 hfits.2
    simp only [hpc, hx, Outcome.bimap] at hs
    obtain rfl := Outcome.next.inj hs
    exact ⟨h.lockStep hlock .inRelease (fun u hu => ⟨rfl, .inl (by simp [hu])⟩) (by rw [hpc]; rfl)
      rfl (.inl ⟨by simp, hfits.2⟩) s.request, .quiet rfl fun heq => absurd heq hi⟩
  | inRelease =>
    simp only [hpc, Outcome.bimap_eq_next] at hs
    obtain ⟨locks, hx, rfl⟩ := hs
    exact ⟨h.releaseExec hx hpc, .quiet rfl fun heq => absurd heq hi⟩

theorem interrupt (hs : s.interruptHandler = .next s') : IdeInv s' ∧ s.Effect .interrupt s' := by
  rw [IdeState.interruptHandler] at hs
  by_cases he : s.expectingInterrupt = true
  · rw [if_pos he] at hs
    cases hw : s.completionWait.waiters with
    | nil =>
      simp only [semaUp, hw, head?_nil, tail_nil] at hs
      obtain rfl := Outcome.next.inj hs
      refine ⟨{ h with
        mem_waiters := fun u => (hw ▸ h.mem_waiters u)
        nodup := nodup_nil }, .take rfl he rfl⟩
    | cons w ws =>
      have hblocked : s.pc w = .blocked := (h.mem_waiters w).mp (hw ▸ mem_cons_self)
      have htake := h.takeStep hw
      simp only [semaUp, hw, head?_cons, hblocked, if_true] at hs
      simp only [semaUp, hw] at htake
      obtain rfl := Outcome.next.inj hs
      exact ⟨htake, .take rfl he rfl⟩
  · rw [if_neg he] at hs
    obtain rfl := Outcome.next.inj hs
    exact ⟨{ h with }, .quiet rfl fun _ => rfl⟩

theorem step {i : IdeLabel τ} (hs : s.step i = .next s') : IdeInv s' ∧ s.Effect i s' := by
  cases i with
  | call t c =>
    rw [IdeState.step] at hs
    by_cases hpc : s.pc t = .running
    · have hfits := h.fits t
      rw [hpc] at hfits
      have hin : ¬ s.locks.inside () t = true := by simp [hfits.2]
      obtain ⟨hx, hlock⟩ := h.lock.call_acquire hfits.1 hin
      rw [if_pos hpc, IdeState.call, hx] at hs
      obtain rfl := Outcome.next.inj hs
      exact ⟨h.lockStep hlock .inAcquire (fun u hu => ⟨rfl, .inl (by simp [hu])⟩)
        (by rw [hpc]; rfl) rfl ⟨.inl (by simp), hfits.2⟩ _, .quiet rfl nofun⟩
    · rw [if_neg hpc] at hs
      cases hs
  | exec t ready => exact h.exec hs
  | interrupt => exact h.interrupt hs

end

end IdeInv

/-- **The hand-shake**: the semaphore is zero between commands, and one exactly while the command
outstanding has its answer. -/
structure IdeState.Answered (s : IdeState τ) : Prop where
  idle : s.Idle → s.completionWait.value = 0
  busy : ¬ s.Idle → s.completionWait.value = s.since ∧ s.since ≤ 1

namespace IdeState.Effect

variable {i : IdeLabel τ} (he : s.Effect i s') (ha : s.Answered) (hok : s.Answers i)

include he ha hok

omit [DecidableEq τ] in
/-- A step of a guarded run keeps the hand-shake. -/
theorem answered : s'.Answered := by
  cases he with
  | quiet hcounts hreport =>
    obtain ⟨hv, hi, hc, hsince⟩ := counts_eq_iff.mp hcounts
    refine ⟨fun hidle => ?_, fun hbusy => ?_⟩
    · rw [hv]
      exact ha.idle (by rwa [IdeState.Idle, ← hi, ← hc])
    · rw [hv, hsince]
      exact ha.busy (by rwa [IdeState.Idle, ← hi, ← hc])
  | issue _ hidle hcounts =>
    obtain ⟨hv, hi, hc, hsince⟩ := counts_eq_iff.mp hcounts
    refine ⟨fun hidle' => ?_, fun _ => ?_⟩
    · rw [IdeState.Idle] at hidle hidle'
      omega
    · rw [hv, hsince, ha.idle hidle]
      exact ⟨rfl, Nat.zero_le 1⟩
  | complete _ hissued hpos hcounts =>
    obtain ⟨hv, hi, hc, -⟩ := counts_eq_iff.mp hcounts
    obtain ⟨hvalue, hsince⟩ := ha.busy fun hidle => by rw [IdeState.Idle] at hidle; omega
    refine ⟨fun _ => by omega, fun hbusy => absurd ?_ hbusy⟩
    rw [IdeState.Idle, hi, hc, hissued]
  | take hi hflag hcounts =>
    obtain ⟨hv, hissued, hc, hsince⟩ := counts_eq_iff.mp hcounts
    rcases hok hi with hoff | ⟨hbusy, hnone⟩
    · rw [hoff] at hflag
      cases hflag
    · refine ⟨fun hidle => ?_, fun _ => ?_⟩
      · rw [IdeState.Idle, hissued, hc] at hidle
        exact absurd hidle hbusy
      · rw [hv, hsince, (ha.busy hbusy).1, hnone]
        exact ⟨rfl, Nat.le_refl 1⟩

omit [DecidableEq τ] in
/-- A step of a guarded run is as the comment on the flag says. -/
theorem matched : s.Matched i s' := by
  refine ⟨(he.answered ha hok).idle, fun hdone => ?_, fun hi hidle => ?_⟩
  · cases he with
    | quiet hcounts _ | issue _ _ hcounts | take _ _ hcounts =>
      obtain ⟨-, -, hc, -⟩ := counts_eq_iff.mp hcounts
      omega
    | complete _ hissued hpos hcounts =>
      obtain ⟨hvalue, -⟩ := ha.busy fun hidle => by rw [IdeState.Idle] at hidle; omega
      rwa [← hvalue]
  · cases he with
    | quiet hcounts hreport => exact hreport hi
    | issue hne _ _ | complete hne _ _ _ => exact absurd hi hne
    | take _ hflag hcounts =>
      rcases hok hi with hoff | ⟨hbusy, -⟩
      · rw [hoff] at hflag
        cases hflag
      · exact absurd hidle hbusy

end IdeState.Effect

/-! ### Runs -/

theorem answered_of_reachable {expecting : Bool}
    (hr : (ideMachine τ expecting).ReachableUnder Answers s) : IdeInv s ∧ s.Answered := by
  have hstart : (ideMachine τ expecting).start.Answered := ⟨fun _ => rfl, fun h => absurd rfl h⟩
  refine hr.invariant (P := fun s => IdeInv s ∧ s.Answered) ⟨ideInv_start expecting, hstart⟩ ?_
  rintro s s' i - ⟨h, ha⟩ hok hs
  obtain ⟨h', he⟩ := h.step hs
  exact ⟨h', he.answered ha hok⟩

/-- **Completion interrupts**: in a run in which the disk answers each command at most once and
does not interrupt in between once the flag is set, `completion_wait` is zero whenever no command
is outstanding, and every step is as the comment on `expecting_interrupt` says. An interrupt
between commands with the flag set never is. -/
theorem ide_completion (expecting : Bool) (s : IdeState τ)
    (hr : (ideMachine τ expecting).ReachableUnder Answers s) :
    (s.Idle → s.completionWait.value = 0) ∧
      (∀ i s', s.Answers i → s.step i = .next s' → s.Matched i s') ∧
      (s.Idle → s.expectingInterrupt = true → ∀ s', s.step .interrupt = .next s' →
        ¬ s.Matched .interrupt s') := by
  obtain ⟨h, ha⟩ := answered_of_reachable hr
  refine ⟨ha.idle, fun i s' hok hs => (h.step hs).2.matched ha hok, ?_⟩
  intro hidle hflag s' hs hm
  have hsame := hm.unexpected rfl hidle
  have hsince : s'.since = s.since + 1 := by
    rw [IdeState.step, IdeState.interruptHandler, if_pos hflag] at hs
    split at hs
    · rw [← Outcome.next.inj hs]
    · split at hs
      · rw [← Outcome.next.inj hs]
        rfl
      · cases hs
  rw [hsame] at hsince
  exact Nat.succ_ne_self s.since hsince.symm

end Invariant

/-- A read of sector 5 by thread 0, answered by one interrupt while it waits. -/
def answeredRead : List (IdeLabel ℕ) :=
  [.call 0 ⟨false, 5, true⟩, .exec 0 true, .exec 0 true, .exec 0 true, .exec 0 true, .exec 0 true,
    .interrupt, .exec 0 true, .exec 0 true, .exec 0 true, .exec 0 true, .exec 0 true]

/-- After an answered read the next interrupt, and no other step, breaks the comment. -/
theorem ide_completion_answeredRead : ∃ s : IdeState ℕ,
    (ideMachine ℕ false).run (ideMachine ℕ false).start answeredRead = .next s ∧ s.issued = 1 ∧
      s.completed = 1 ∧ s.completionWait.value = 0 ∧
      (∀ t c s', s.step (.call t c) = .next s' → s.Matched (.call t c) s') ∧
      ∀ s', s.step .interrupt = .next s' → ¬ s.Matched .interrupt s' := by
  have hok : (ideMachine ℕ false).GuardedRun Answers (ideMachine ℕ false).start answeredRead := by
    decide
  have hr := ide_completion false _ (.of_run .start hok rfl)
  exact ⟨_, rfl, rfl, rfl, hr.1 rfl, fun t c s' => hr.2.1 _ s' nofun, hr.2.2 rfl rfl⟩

/-- An answered read, and one more interrupt. -/
def strayInterrupt : List (IdeLabel ℕ) := answeredRead ++ [.interrupt]

/-- A read of sector 6 by thread 0 with no interrupt. -/
def staleRead : List (IdeLabel ℕ) :=
  [.call 0 ⟨false, 6, true⟩, .exec 0 true, .exec 0 true, .exec 0 true, .exec 0 true, .exec 0 true,
    .exec 0 true]

/-- **A stray interrupt** is taken although no command is outstanding: the semaphore is one, and the
next read goes on before the disk has answered. -/
theorem ide_stray_interrupt : ∃ s s' : IdeState ℕ,
    (ideMachine ℕ false).run (ideMachine ℕ false).start strayInterrupt = .next s ∧
      s.issued = 1 ∧ s.Idle ∧ s.completionWait.value = 1 ∧ s.unexpected = 0 ∧
      (ideMachine ℕ false).run s staleRead = .next s' ∧
      s'.issued = 2 ∧ s'.completed = 2 ∧ s'.since = 0 ∧ s'.pc 0 = .receiving :=
  ⟨_, _, rfl, rfl, rfl, rfl, rfl, rfl, rfl, rfl, rfl, rfl⟩

end OsMaterial
