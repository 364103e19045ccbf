import OsMaterial.Lock
import OsMaterial.Ring

/-!
# Interrupt Queues

The monitor of `devices/intq.c`: a ring buffer shared by threads and an interrupt handler, with
interrupts off, so that a step runs a call up to the next place where it gives up the CPU. A call
tests its condition **before** it acquires the lock, and `wait` asserts that it still holds: a
thread that queued for the lock finds out too late. `NoQueue` excludes that.

* `intq_monitor`: no assertion fails when no call has to queue for the lock.
* `intq_second_waiter`: two waiting threads and two bytes make the assertion of `wait` fail.
-/

namespace OsMaterial

open Function (update update_eq_self update_of_ne update_self)

inductive IntqCond where
  | notFull
  | notEmpty
  deriving DecidableEq

inductive IntqOp where
  | getc
  | putc (byte : UInt8)
  deriving DecidableEq

def IntqOp.cond : IntqOp → IntqCond
  | getc => .notEmpty
  | putc _ => .notFull

def IntqOp.signals : IntqOp → IntqCond
  | getc => .notFull
  | putc _ => .notEmpty

structure Intq (τ : Type*) extends Ring UInt8 64 where
  lock : Lock τ
  notFull : Option τ
  notEmpty : Option τ

def intqInit {τ : Type*} (buf : ℕ → UInt8) : Intq τ where
  buf
  head := 0
  tail := 0
  head_lt := by decide
  tail_lt := by decide
  lock := lockInit
  notFull := none
  notEmpty := none

theorem contents_intqInit {τ : Type*} (buf : ℕ → UInt8) : (intqInit buf : Intq τ).contents = [] :=
  (Ring.isEmpty_iff _).mp rfl

inductive IntqFault where
  | thread (e : ThreadFault)
  | waitCond
  | signalCond
  deriving DecidableEq

namespace Intq

variable {τ : Type*} (q : Intq τ)

def holds : IntqCond → Bool
  | .notFull => !q.isFull
  | .notEmpty => !q.isEmpty

def waiter : IntqCond → Option τ
  | .notFull => q.notFull
  | .notEmpty => q.notEmpty

def setWaiter (c : IntqCond) (t : Option τ) : Intq τ :=
  match c with
  | .notFull => { q with notFull := t }
  | .notEmpty => { q with notEmpty := t }

def setLock (lock : Lock τ) : Intq τ := { q with lock }

def transfer : IntqOp → Intq τ
  | .getc => { q with toRing := q.toRing.pop }
  | .putc byte => { q with toRing := q.toRing.push byte }

@[simp] theorem waiter_setWaiter_self (c : IntqCond) (t : Option τ) :
    (q.setWaiter c t).waiter c = t := by
  cases c <;> rfl

theorem waiter_setWaiter_ne {c d : IntqCond} (h : d ≠ c) (t : Option τ) :
    (q.setWaiter c t).waiter d = q.waiter d := by
  cases c <;> cases d <;> first | rfl | exact absurd rfl h

@[simp] theorem toRing_setWaiter (c : IntqCond) (t : Option τ) :
    (q.setWaiter c t).toRing = q.toRing := by
  cases c <;> rfl

@[simp] theorem holds_setWaiter (c d : IntqCond) (t : Option τ) :
    (q.setWaiter c t).holds d = q.holds d := by
  cases c <;> cases d <;> rfl

@[simp] theorem lock_setWaiter (c : IntqCond) (t : Option τ) : (q.setWaiter c t).lock = q.lock := by
  cases c <;> rfl

@[simp] theorem lock_transfer (op : IntqOp) : (q.transfer op).lock = q.lock := by
  cases op <;> rfl

@[simp] theorem waiter_transfer (op : IntqOp) (c : IntqCond) :
    (q.transfer op).waiter c = q.waiter c := by
  cases op <;> cases c <;> rfl

theorem holds_signals {op : IntqOp} (h : q.holds op.cond = true) :
    (q.transfer op).holds op.signals = true := by
  cases op with
  | getc =>
    change (!q.toRing.pop.isFull) = true
    rw [q.toRing.isFull_pop (by simpa [holds, IntqOp.cond] using h)]
    rfl
  | putc byte =>
    change (!(q.toRing.push byte).isEmpty) = true
    rw [q.toRing.isEmpty_push byte (by simpa [holds, IntqOp.cond] using h)]
    rfl

end Intq

theorem IntqOp.eq_signals_of_ne {op : IntqOp} {c : IntqCond} (h : c ≠ op.cond) :
    c = op.signals := by
  cases op <;> cases c <;> first | rfl | exact absurd rfl h

/-! ### Threads -/

inductive IntqPc where
  | outside
  | queued (op : IntqOp)
  | downing (op : IntqOp)
  | waiting (op : IntqOp)
  | woken (op : IntqOp)
  deriving DecidableEq

def IntqPc.call : IntqPc → Option IntqOp
  | outside => none
  | queued op => some op
  | downing op => some op
  | waiting op => some op
  | woken op => some op

theorem IntqPc.call_eq_none {pc : IntqPc} : pc.call = none ↔ pc = .outside := by
  cases pc <;> simp [IntqPc.call]

structure IntqState (τ : Type*) where
  q : Intq τ
  pc : τ → IntqPc

inductive IntqLabel (τ : Type*) where
  | call (t : τ) (op : IntqOp)
  | run (t : τ)
  | handler (op : IntqOp)

namespace IntqState

variable {τ : Type*} [DecidableEq τ] (s : IntqState τ)

def goto (t : τ) (pc : IntqPc) : IntqState τ := { s with pc := update s.pc t pc }

def setQ (q : Intq τ) : IntqState τ := { s with q }

def unblock (t : τ) : Outcome IntqFault (IntqState τ) :=
  match s.pc t with
  | .queued op => .next (s.goto t (.downing op))
  | .waiting op => .next (s.goto t (.woken op))
  | _ => .fault (.thread .notBlocked)

def signal (c : IntqCond) : Outcome IntqFault (IntqState τ) :=
  if s.q.holds c then
    match s.q.waiter c with
    | some w => (s.unblock w).bind fun s => .next (s.setQ (s.q.setWaiter c none))
    | none => .next s
  else
    .fault .signalCond

/-- `wait`, up to `thread_block`. -/
def wait (t : τ) (op : IntqOp) : Outcome IntqFault (IntqState τ) :=
  if s.q.holds op.cond = false then
    .next ((s.setQ (s.q.setWaiter op.cond (some t))).goto t (.waiting op))
  else
    .fault .waitCond

def down (t : τ) (op : IntqOp) : Outcome IntqFault (IntqState τ) :=
  match semaDown s.q.lock.semaphore t with
  | (sema, true) => (s.setQ (s.q.setLock ⟨some t, sema⟩)).wait t op
  | (sema, false) => .next ((s.setQ (s.q.setLock { s.q.lock with semaphore := sema })).goto t
      (.queued op))

def lockAcquire (t : τ) (op : IntqOp) : Outcome IntqFault (IntqState τ) :=
  if lockHeldByCurrentThread s.q.lock t then .fault (.thread .alreadyHeld) else s.down t op

def lockRelease (t : τ) : Outcome IntqFault (IntqState τ) :=
  if lockHeldByCurrentThread s.q.lock t then
    match semaUp s.q.lock.semaphore with
    | (sema, none) => .next (s.setQ (s.q.setLock ⟨none, sema⟩))
    | (sema, some w) => (s.setQ (s.q.setLock ⟨none, sema⟩)).unblock w
  else
    .fault (.thread .notHeld)

def finish (op : IntqOp) : Outcome IntqFault (IntqState τ) :=
  (s.setQ (s.q.transfer op)).signal op.signals

def loop (t : τ) (op : IntqOp) : Outcome IntqFault (IntqState τ) :=
  if s.q.holds op.cond then
    (s.finish op).bind fun s => .next (s.goto t .outside)
  else
    s.lockAcquire t op

def resume (t : τ) : Outcome IntqFault (IntqState τ) :=
  match s.pc t with
  | .downing op => s.down t op
  | .woken op => (s.lockRelease t).bind fun s => s.loop t op
  | _ => .blocked

def step : IntqLabel τ → Outcome IntqFault (IntqState τ)
  | .call t op => if s.pc t = .outside then s.loop t op else .blocked
  | .run t => s.resume t
  | .handler op => if s.q.holds op.cond then s.finish op else .blocked

end IntqState

/-- **The interrupt queue as a machine.** -/
def intqMachine (τ : Type*) [DecidableEq τ] : Machine (IntqState τ) (IntqLabel τ) IntqFault where
  start := ⟨intqInit fun _ => 0, fun _ => .outside⟩
  step := IntqState.step

/-! ### Registered waiters -/

section

variable {τ : Type*} {s s' : IntqState τ} {t : τ} {op : IntqOp} {c : IntqCond}

/-- **The condition of a registered waiter is false.** -/
def IntqState.Closed (s : IntqState τ) : Prop :=
  ∀ c w, s.q.waiter c = some w → s.q.holds c = false

theorem IntqState.Closed.waiter_eq_none (h : s.Closed) (hc : s.q.holds c = true) :
    s.q.waiter c = none := by
  cases hw : s.q.waiter c with
  | none => rfl
  | some w =>
    rw [h c w hw] at hc
    cases hc

theorem IntqState.Closed.setLock (h : s.Closed) (lock : Lock τ) :
    (s.setQ (s.q.setLock lock)).Closed := by
  intro c w hw
  have := h c w (by cases c <;> exact hw)
  cases c <;> exact this

variable [DecidableEq τ]

section

variable (h : s.Closed)

include h

theorem IntqState.Closed.goto (pc : IntqPc) : (s.goto t pc).Closed := h

theorem IntqState.Closed.unblock (hs : s.unblock t = .next s') : s'.Closed ∧ s'.q = s.q := by
  rw [IntqState.unblock] at hs
  split at hs <;> cases hs
  · exact ⟨h, rfl⟩
  · exact ⟨h, rfl⟩

theorem IntqState.Closed.wait (hs : s.wait t op = .next s') : s'.Closed := by
  rw [IntqState.wait] at hs
  split at hs
  · next hfalse =>
    cases hs
    intro c w hw
    change (s.q.setWaiter op.cond (some t)).waiter c = some w at hw
    change (s.q.setWaiter op.cond (some t)).holds c = false
    rw [Intq.holds_setWaiter]
    by_cases hc : c = op.cond
    · rw [hc, hfalse]
    · rw [Intq.waiter_setWaiter_ne _ hc] at hw
      exact h c w hw
  · cases hs

theorem IntqState.Closed.down (hs : s.down t op = .next s') : s'.Closed := by
  rw [IntqState.down] at hs
  split at hs
  · exact (h.setLock _).wait hs
  · cases hs
    exact (h.setLock _).goto _

theorem IntqState.Closed.lockAcquire (hs : s.lockAcquire t op = .next s') : s'.Closed := by
  rw [IntqState.lockAcquire] at hs
  split at hs
  · cases hs
  · exact h.down hs

theorem IntqState.Closed.lockRelease (hs : s.lockRelease t = .next s') : s'.Closed := by
  rw [IntqState.lockRelease] at hs
  split at hs
  · split at hs
    · cases hs
      exact h.setLock _
    · exact ((h.setLock _).unblock hs).1
  · cases hs

theorem IntqState.Closed.finish (hop : s.q.holds op.cond = true) (hs : s.finish op = .next s') :
    s'.Closed := by
  have hnone := h.waiter_eq_none hop
  have hother : ∀ c w, c ≠ op.signals → (s.q.transfer op).waiter c ≠ some w := by
    intro c w hc hw
    have hcond : c = op.cond := by
      by_contra hne
      exact hc (IntqOp.eq_signals_of_ne hne)
    rw [Intq.waiter_transfer, hcond, hnone] at hw
    cases hw
  rw [IntqState.finish, IntqState.signal] at hs
  split at hs
  · split at hs
    · obtain ⟨s₁, hunblock, hnext⟩ := Outcome.bind_eq_next.mp hs
      cases hnext
      have hq : s₁.q = s.q.transfer op := by
        rw [IntqState.unblock] at hunblock
        split at hunblock <;> cases hunblock <;> rfl
      intro c w hw
      change (s₁.q.setWaiter op.signals none).waiter c = some w at hw
      by_cases hc : c = op.signals
      · rw [hc, Intq.waiter_setWaiter_self] at hw
        cases hw
      · rw [Intq.waiter_setWaiter_ne _ hc, hq] at hw
        exact absurd hw (hother c w hc)
    · next hwaiter =>
      cases hs
      intro c w hw
      by_cases hc : c = op.signals
      · rw [hc, hwaiter] at hw
        cases hw
      · exact absurd hw (hother c w hc)
  · cases hs

theorem IntqState.Closed.loop (hs : s.loop t op = .next s') : s'.Closed := by
  rw [IntqState.loop] at hs
  split at hs
  · next hop =>
    obtain ⟨s₁, hfinish, hnext⟩ := Outcome.bind_eq_next.mp hs
    cases hnext
    exact (h.finish hop hfinish).goto _
  · exact h.lockAcquire hs

theorem IntqState.Closed.step {label : IntqLabel τ} (hs : s.step label = .next s') : s'.Closed := by
  cases label with
  | call t op =>
    rw [IntqState.step] at hs
    split at hs
    · exact h.loop hs
    · cases hs
  | run t =>
    rw [IntqState.step, IntqState.resume] at hs
    split at hs
    · exact h.down hs
    · obtain ⟨s₁, hrelease, hloop⟩ := Outcome.bind_eq_next.mp hs
      exact (h.lockRelease hrelease).loop hloop
    · cases hs
  | handler op =>
    rw [IntqState.step] at hs
    split at hs
    · next hop => exact h.finish hop hs
    · cases hs

end

theorem closed_of_reachable (hs : (intqMachine τ).Reachable s) : s.Closed := by
  refine hs.invariant ?_ fun s s' label _ h _ hstep => h.step hstep
  intro c w hw
  cases c <;> cases hw

end

/-! ### Calls that do not queue for the lock -/

section

variable {τ : Type*} [DecidableEq τ] {s s' : IntqState τ} {t u : τ} {op : IntqOp}

/-- A call whose condition is false finds the lock free. -/
def NoQueue (s : IntqState τ) : IntqLabel τ → Prop
  | .call _ op => s.q.holds op.cond = true ∨ s.q.lock.semaphore.value ≠ 0
  | _ => True

structure FreeBut (s : IntqState τ) (t : τ) : Prop where
  lock : s.q.lock = lockInit
  outside : ∀ u, u ≠ t → s.pc u = .outside
  waiter : ∀ c, s.q.waiter c = none

inductive IntqInv (s : IntqState τ) : Prop where
  | idle (lock : s.q.lock = lockInit) (outside : ∀ u, s.pc u = .outside)
      (waiter : ∀ c, s.q.waiter c = none)
  | waiting (t : τ) (op : IntqOp) (lock : s.q.lock = ⟨some t, ⟨0, []⟩⟩)
      (self : s.pc t = .waiting op) (outside : ∀ u, u ≠ t → s.pc u = .outside)
      (waiter : s.q.waiter op.cond = some t) (other : ∀ c, c ≠ op.cond → s.q.waiter c = none)
      (closed : s.q.holds op.cond = false)
  | woken (t : τ) (op : IntqOp) (lock : s.q.lock = ⟨some t, ⟨0, []⟩⟩)
      (self : s.pc t = .woken op) (outside : ∀ u, u ≠ t → s.pc u = .outside)
      (waiter : ∀ c, s.q.waiter c = none)

theorem IntqState.finish_of_waiter_none (h : s.q.holds op.cond = true)
    (hwaiter : s.q.waiter op.signals = none) : s.finish op = .next (s.setQ (s.q.transfer op)) := by
  have hholds : (s.setQ (s.q.transfer op)).q.holds op.signals = true := s.q.holds_signals h
  have hnone : (s.setQ (s.q.transfer op)).q.waiter op.signals = none :=
    (Intq.waiter_transfer _ _ _).trans hwaiter
  rw [IntqState.finish, IntqState.signal, if_pos hholds, hnone]

theorem IntqState.finish_of_waiter_some {w : IntqOp} (h : s.q.holds op.cond = true)
    (hwaiter : s.q.waiter op.signals = some t) (hpc : s.pc t = .waiting w) :
    s.finish op = .next ((s.goto t (.woken w)).setQ
      ((s.q.transfer op).setWaiter op.signals none)) := by
  have hholds : (s.setQ (s.q.transfer op)).q.holds op.signals = true := s.q.holds_signals h
  have hsome : (s.setQ (s.q.transfer op)).q.waiter op.signals = some t :=
    (Intq.waiter_transfer _ _ _).trans hwaiter
  have hunblock : (s.setQ (s.q.transfer op)).unblock t =
      .next ((s.setQ (s.q.transfer op)).goto t (.woken w)) := by
    change (match s.pc t with
      | .queued op => _ | .waiting op => _ | _ => _) = _
    rw [hpc]
  rw [IntqState.finish, IntqState.signal, if_pos hholds, hsome]
  change Outcome.bind _ _ = _
  rw [hunblock]
  rfl

theorem IntqInv.finish (h : IntqInv s) (hop : s.q.holds op.cond = true) :
    ∃ s', s.finish op = .next s' ∧ IntqInv s' ∧ s'.q.toRing = (s.q.transfer op).toRing ∧
      ∀ u, (s'.pc u).call = (s.pc u).call := by
  cases h with
  | idle lock outside waiter =>
    refine ⟨_, IntqState.finish_of_waiter_none hop (waiter _), ?_, rfl, fun _ => rfl⟩
    exact .idle ((Intq.lock_transfer _ _).trans lock) outside fun c =>
      (Intq.waiter_transfer _ _ _).trans (waiter c)
  | woken t w lock self outside waiter =>
    refine ⟨_, IntqState.finish_of_waiter_none hop (waiter _), ?_, rfl, fun _ => rfl⟩
    exact .woken t w ((Intq.lock_transfer _ _).trans lock) self outside fun c =>
      (Intq.waiter_transfer _ _ _).trans (waiter c)
  | waiting t w lock self outside waiter other closed =>
    -- The waiter's condition is false, so it is the one that the transfer makes true.
    have hcond : w.cond = op.signals := by
      refine IntqOp.eq_signals_of_ne fun heq => ?_
      rw [heq, hop] at closed
      cases closed
    rw [hcond] at waiter other
    refine ⟨_, IntqState.finish_of_waiter_some hop waiter self, ?_,
      Intq.toRing_setWaiter _ _ _, fun u => ?_⟩
    · refine .woken t w ?_ (update_self ..) (fun u hu => ?_) fun c => ?_
      · exact (Intq.lock_setWaiter _ _ _).trans ((Intq.lock_transfer _ _).trans lock)
      · exact (update_of_ne hu ..).trans (outside u hu)
      · change ((s.q.transfer op).setWaiter op.signals none).waiter c = none
        by_cases hc : c = op.signals
        · rw [hc, Intq.waiter_setWaiter_self]
        · rw [Intq.waiter_setWaiter_ne _ hc, Intq.waiter_transfer, other c hc]
    · change (update s.pc t (.woken w) u).call = _
      by_cases hu : u = t
      · rw [hu, update_self, self]
        rfl
      · rw [update_of_ne hu]

theorem FreeBut.loop (h : FreeBut s t) (op : IntqOp) :
    ∃ s', s.loop t op = .next s' ∧ IntqInv s' ∧
      (s.q.holds op.cond = true ∧ s'.q.toRing = (s.q.transfer op).toRing ∧
          (∀ u, s'.pc u = .outside) ∨
        s.q.holds op.cond = false ∧ s'.q.toRing = s.q.toRing ∧ s'.pc t = .waiting op ∧
          ∀ u, u ≠ t → s'.pc u = .outside) := by
  have hother : ∀ pc u, u ≠ t → update s.pc t pc u = .outside := fun pc u hu =>
    (update_of_ne hu ..).trans (h.outside u hu)
  rw [IntqState.loop]
  cases hop : s.q.holds op.cond with
  | true =>
    have houtside : ∀ u, update s.pc t .outside u = .outside := by
      intro u
      by_cases hu : u = t
      · rw [hu, update_self]
      · exact hother _ u hu
    refine ⟨(s.setQ (s.q.transfer op)).goto t .outside, ?_, .idle ?_ houtside fun c => ?_,
      Or.inl ⟨rfl, rfl, houtside⟩⟩
    · rw [if_pos rfl, IntqState.finish_of_waiter_none hop (h.waiter _), Outcome.bind_next]
    · exact (Intq.lock_transfer s.q op).trans h.lock
    · exact (Intq.waiter_transfer s.q op c).trans (h.waiter c)
  | false =>
    refine ⟨(((s.setQ (s.q.setLock ⟨some t, ⟨0, []⟩⟩)).setQ
      ((s.q.setLock ⟨some t, ⟨0, []⟩⟩).setWaiter op.cond (some t))).goto t (.waiting op)),
      ?_, .waiting t op ?_ (update_self ..) (hother _) ?_ (fun c hc => ?_) ?_,
      Or.inr ⟨rfl, ?_, update_self .., hother _⟩⟩
    · rw [if_neg Bool.false_ne_true, IntqState.lockAcquire, h.lock]
      rw [IntqState.down, h.lock]
      change IntqState.wait _ t op = _
      have hfalse : (s.q.setLock ⟨some t, ⟨0, []⟩⟩).holds op.cond = false := by
        rw [← hop]
        cases op <;> rfl
      exact if_pos hfalse
    · exact Intq.lock_setWaiter _ _ _
    · exact Intq.waiter_setWaiter_self _ _ _
    · refine (Intq.waiter_setWaiter_ne _ hc _).trans ?_
      have := h.waiter c
      cases c <;> exact this
    · refine (Intq.holds_setWaiter _ _ _ _).trans ?_
      rw [← hop]
      cases op <;> rfl
    · exact Intq.toRing_setWaiter _ _ _

theorem IntqInv.resume (h : IntqInv s) (hpc : s.pc t = .woken op) :
    ∃ s₁, FreeBut s₁ t ∧ s₁.q.toRing = s.q.toRing ∧ s.resume t = s₁.loop t op := by
  cases h with
  | idle lock outside waiter =>
    rw [outside t] at hpc
    cases hpc
  | waiting u w lock self outside waiter other closed =>
    by_cases htu : t = u
    · rw [htu, self] at hpc
      cases hpc
    · rw [outside t htu] at hpc
      cases hpc
  | woken u w lock self outside waiter =>
    have htu : u = t := by
      by_contra hne
      rw [outside t (Ne.symm hne)] at hpc
      cases hpc
    subst htu
    refine ⟨s.setQ (s.q.setLock lockInit), ⟨rfl, outside, fun c => ?_⟩, rfl, ?_⟩
    · have := waiter c
      cases c <;> exact this
    · have hrelease : s.lockRelease u = .next (s.setQ (s.q.setLock lockInit)) := by
        rw [IntqState.lockRelease, lock, lockHeldByCurrentThread]
        exact if_pos (decide_eq_true rfl)
      rw [IntqState.resume, hpc]
      change (s.lockRelease u).bind _ = _
      rw [hrelease, Outcome.bind_next]

theorem IntqInv.pc_cases (h : IntqInv s) (t : τ) :
    s.pc t = .outside ∨ ∃ op, s.pc t = .waiting op ∨ s.pc t = .woken op := by
  cases h with
  | idle lock outside waiter => exact Or.inl (outside t)
  | waiting u op lock self outside waiter other closed =>
    by_cases htu : t = u
    · exact Or.inr ⟨op, Or.inl (htu ▸ self)⟩
    · exact Or.inl (outside t htu)
  | woken u op lock self outside waiter =>
    by_cases htu : t = u
    · exact Or.inr ⟨op, Or.inr (htu ▸ self)⟩
    · exact Or.inl (outside t htu)

omit [DecidableEq τ] in
theorem IntqInv.lock_free (h : IntqInv s) (hout : ∀ u, s.pc u = .outside) :
    s.q.lock.semaphore.value ≠ 0 := by
  cases h with
  | idle lock outside waiter =>
    rw [lock]
    exact one_ne_zero
  | waiting t op lock self outside waiter other closed =>
    rw [hout t] at self
    cases self
  | woken t op lock self outside waiter =>
    rw [hout t] at self
    cases self

omit [DecidableEq τ] in
theorem IntqInv.freeBut (h : IntqInv s) (hfree : s.q.lock.semaphore.value ≠ 0) (t : τ) :
    FreeBut s t := by
  cases h with
  | idle lock outside waiter => exact ⟨lock, fun u _ => outside u, waiter⟩
  | waiting u op lock self outside waiter other closed =>
    rw [lock] at hfree
    exact absurd rfl hfree
  | woken u op lock self outside waiter =>
    rw [lock] at hfree
    exact absurd rfl hfree

theorem IntqInv.call (h : IntqInv s) (hpc : s.pc t = .outside)
    (hok : s.q.holds op.cond = true ∨ s.q.lock.semaphore.value ≠ 0) :
    ∃ s', s.loop t op = .next s' ∧ IntqInv s' ∧
      (s.q.holds op.cond = true ∧ s'.q.toRing = (s.q.transfer op).toRing ∧
          (∀ u, (s'.pc u).call = (s.pc u).call) ∨
        s.q.holds op.cond = false ∧ s'.q.toRing = s.q.toRing ∧ s'.pc t = .waiting op ∧
          ∀ u, u ≠ t → s'.pc u = .outside) := by
  cases hop : s.q.holds op.cond with
  | true =>
    obtain ⟨s', hfinish, hinv, hring, hout⟩ := h.finish hop
    have hself : s'.goto t .outside = s' := by
      have hupdate : update s'.pc t .outside = s'.pc := by
        have hpc' : s'.pc t = .outside := by
          rw [← IntqPc.call_eq_none, hout t, IntqPc.call_eq_none, hpc]
        rw [← hpc', update_eq_self]
      rw [IntqState.goto, hupdate]
    refine ⟨s', ?_, hinv, Or.inl ⟨rfl, hring, hout⟩⟩
    rw [IntqState.loop, if_pos hop, hfinish, Outcome.bind_next, hself]
  | false =>
    have hfree := h.freeBut (hok.resolve_left (by simp [hop])) t
    obtain ⟨s', hloop, hinv, hend⟩ := hfree.loop op
    rw [hop] at hend
    exact ⟨s', hloop, hinv, Or.inr (hend.resolve_left fun h => Bool.false_ne_true h.1)⟩

theorem intqMachine_preserves : (intqMachine τ).Preserves NoQueue IntqInv := by
  intro s label h hok
  cases label with
  | call t op =>
    change (if s.pc t = .outside then s.loop t op else .blocked) = _ ∨
      ∃ s', (if s.pc t = .outside then s.loop t op else .blocked) = .next s' ∧ IntqInv s'
    split
    · next hpc =>
      obtain ⟨s', hs', hinv, -⟩ := h.call hpc hok
      exact Or.inr ⟨s', hs', hinv⟩
    · exact Or.inl rfl
  | run t =>
    change s.resume t = _ ∨ ∃ s', s.resume t = .next s' ∧ IntqInv s'
    rcases h.pc_cases t with hpc | ⟨op, hpc | hpc⟩
    · rw [IntqState.resume, hpc]
      exact Or.inl rfl
    · rw [IntqState.resume, hpc]
      exact Or.inl rfl
    · obtain ⟨s₁, hfree, -, hresume⟩ := h.resume hpc
      obtain ⟨s', hs', hinv, -⟩ := hfree.loop op
      exact Or.inr ⟨s', hresume.trans hs', hinv⟩
  | handler op =>
    change (if s.q.holds op.cond then s.finish op else .blocked) = _ ∨
      ∃ s', (if s.q.holds op.cond then s.finish op else .blocked) = .next s' ∧ IntqInv s'
    split
    · next hop =>
      obtain ⟨s', hs', hinv, -⟩ := h.finish hop
      exact Or.inr ⟨s', hs', hinv⟩
    · exact Or.inl rfl

theorem intqInv_start : IntqInv (intqMachine τ).start := by
  refine .idle rfl (fun _ => rfl) fun c => ?_
  cases c <;> rfl

/-- **The monitor**: a waiter's condition is false, and no assertion fails as long as no call has to
queue for the lock. -/
theorem intq_monitor :
    (∀ s, (intqMachine τ).Reachable s → ∀ c w, s.q.waiter c = some w → s.q.holds c = false) ∧
      ∀ s, (intqMachine τ).ReachableUnder NoQueue s → ∀ label, NoQueue s label →
        ∀ e, (intqMachine τ).step s label ≠ .fault e := by
  refine ⟨fun s hs => closed_of_reachable hs, fun s hs label hok e => ?_⟩
  have hinv := hs.of_preserves intqMachine_preserves intqInv_start
  exact intqMachine_preserves.not_fault hinv hok e

instance decidableNoQueue (s : IntqState τ) (label : IntqLabel τ) :
    Decidable (NoQueue s label) := by
  unfold NoQueue
  split <;> infer_instance

end

def waitForOne : List (IntqLabel (Fin 2)) :=
  [.call 0 .getc, .handler (.putc 1), .run 0, .call 1 (.putc 7)]

/-- A thread waits for a byte that an interrupt brings. -/
theorem intq_monitor_waitForOne :
    ∃ s, (intqMachine (Fin 2)).run (intqMachine (Fin 2)).start waitForOne = .next s ∧
      s.q.contents = [7] ∧
      ∀ e, (intqMachine (Fin 2)).step s (.call 0 .getc) ≠ .fault e := by
  refine ⟨_, rfl, by decide, ?_⟩
  have hok : (intqMachine (Fin 2)).GuardedRun NoQueue (intqMachine (Fin 2)).start waitForOne := by
    decide
  exact intq_monitor.2 _ (Machine.ReachableUnder.start.of_run hok rfl) _ (by decide)

/-- **Two waiting threads.** The second one queues for the lock, two bytes come, the first thread
takes one of them, and the second enters `wait` on a queue that is not empty. -/
theorem intq_second_waiter :
    (intqMachine (Fin 2)).run (intqMachine (Fin 2)).start
        [.call 0 .getc, .call 1 .getc, .handler (.putc 1), .handler (.putc 2), .run 0, .run 1] =
      .fault .waitCond := by
  rfl

end OsMaterial
