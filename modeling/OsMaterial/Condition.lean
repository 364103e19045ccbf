import OsMaterial.Lock

/-!
# Condition Variables, Mesa Style

The condition variables of `threads/synch.c`, for any number of threads that use one lock
(`LockState`) and one condition. `cond_wait` is four calls, between any two of which another thread
can run. Its `waiter` lives in the stack frame, so it is named by the thread. Ledgers hold when a
thread queued its waiter, and how many signals that received.

* `condition_correct`: the longest waiter is released, once, and **no signal is missed**.
-/

namespace OsMaterial

open List
open Function (update update_apply update_eq_self update_of_ne update_self)

inductive CondPc (τ : Type*) where
  | outside
  | releasing
  | downing
  | blocked
  | acquiring
  | upping (w : τ) (caller : Option (List τ))
  | broadcasting (ws : List τ)
  deriving DecidableEq

inductive CondLabel (τ : Type*) where
  | lock (i : LockLabel τ Unit)
  | wait (t : τ)
  | signal (t : τ)
  | broadcast (t : τ)
  | exec (t : τ)
  deriving DecidableEq

structure CondState (τ : Type*) where
  locks : LockState τ Unit
  waiters : List τ
  sema : τ → Semaphore τ
  pc : τ → CondPc τ
  clock : ℕ
  arrival : τ → ℕ
  signals : τ → ℕ

namespace CondState

variable {τ : Type*} [DecidableEq τ]

def goto (s : CondState τ) (t : τ) (p : CondPc τ) : CondState τ :=
  { s with pc := update s.pc t p }

def setSema (s : CondState τ) (t : τ) (sema : Semaphore τ) : CondState τ :=
  { s with sema := update s.sema t sema }

def countSignal (s : CondState τ) (t : τ) : CondState τ :=
  { s with signals := update s.signals t (s.signals t + 1) }

def lock (s : CondState τ) : Lock τ :=
  s.locks.lock ()

/-- The next piece of the lock call `c` that thread `t` makes inside `cond_wait`: the
call itself, or a piece of it. The thread goes on to `p` when the call returns. -/
def lockPiece (s : CondState τ) (t : τ) (c : LockCall Unit) (p : CondPc τ) :
    Outcome ThreadFault (CondState τ) :=
  (if s.locks.pc t = .running then s.locks.call t c else s.locks.exec t).bind fun locks =>
    .next { s with
      locks
      pc := update s.pc t (if locks.pc t = .running then p else s.pc t) }

/-- `cond_wait` up to the call of `lock_release`: queue a fresh semaphore of value zero. -/
def condWait (s : CondState τ) (t : τ) : Outcome ThreadFault (CondState τ) :=
  if lockHeldByCurrentThread s.lock t then
    .next { s with
      waiters := s.waiters ++ [t]
      sema := update s.sema t (semaInit 0)
      pc := update s.pc t .releasing
      clock := s.clock + 1
      arrival := update s.arrival t s.clock
      signals := update s.signals t 0 }
  else
    .fault .notHeld

/-- `cond_signal` up to the call of `sema_up`. The thread returns to `caller` at once if
the list is empty. -/
def condSignal (s : CondState τ) (t : τ) (caller : Option (List τ)) :
    Outcome ThreadFault (CondState τ) :=
  if lockHeldByCurrentThread s.lock t then
    match s.waiters with
    | [] => .next s
    | w :: ws => .next ({ s with waiters := ws }.goto t (.upping w caller))
  else
    .fault .notHeld

def afterSignal : Option (List τ) → CondPc τ
  | none => .outside
  | some ws => .broadcasting ws

def exec (s : CondState τ) (t : τ) : Outcome ThreadFault (CondState τ) :=
  match s.pc t with
  | .outside => .blocked
  | .blocked => .blocked
  | .releasing => s.lockPiece t (.release ()) .downing
  | .acquiring => s.lockPiece t (.acquire ()) .outside
  | .downing =>
    match semaDown (s.sema t) t with
    | (sema, true) => .next ((s.setSema t sema).goto t .acquiring)
    | (sema, false) => .next ((s.setSema t sema).goto t .blocked)
  | .upping w caller =>
    match semaUp (s.sema w) with
    | (sema, none) =>
      .next (((s.setSema w sema).countSignal w).goto t (afterSignal caller))
    | (sema, some u) =>
      -- `thread_unblock` asserts that the popped thread is blocked
      if s.pc u = .blocked then
        .next ((((s.setSema w sema).countSignal w).goto u .downing).goto t (afterSignal caller))
      else
        .fault .notBlocked
  | .broadcasting ws =>
    if s.waiters = [] then .next (s.goto t .outside) else s.condSignal t (some ws)

def Idle (s : CondState τ) (t : τ) : Prop :=
  s.locks.pc t = .running ∧ s.pc t = .outside

instance (s : CondState τ) (t : τ) : Decidable (s.Idle t) :=
  inferInstanceAs (Decidable (_ ∧ _))

def actor : LockLabel τ Unit → τ
  | .call t _ => t
  | .exec t => t

def step (s : CondState τ) : CondLabel τ → Outcome ThreadFault (CondState τ)
  | .lock i =>
    if s.pc (actor i) = .outside then
      (s.locks.step i).bind fun locks => .next { s with locks }
    else
      .blocked
  | .wait t => if s.Idle t then s.condWait t else .blocked
  | .signal t => if s.Idle t then s.condSignal t none else .blocked
  | .broadcast t => if s.Idle t then .next (s.goto t (.broadcasting s.waiters)) else .blocked
  | .exec t => s.exec t

/-- The callers hold the lock. -/
def Disciplined (s : CondState τ) : CondLabel τ → Prop
  | .lock i => s.locks.Disciplined i
  | .wait t => s.locks.inside () t
  | .signal t => s.locks.inside () t
  | .broadcast t => s.locks.inside () t
  | .exec _ => True

def Waits (s : CondState τ) (t : τ) : Prop :=
  s.pc t = .releasing ∨ s.pc t = .downing ∨ s.pc t = .blocked

def Signals (s : CondState τ) (t w : τ) : Prop :=
  ∃ caller, s.pc t = .upping w caller

end CondState

def condMachine (τ : Type*) [DecidableEq τ] :
    Machine (CondState τ) (CondLabel τ) ThreadFault where
  start :=
    { locks := (lockMachine τ Unit).start
      waiters := []
      sema := fun _ => semaInit 0
      pc := fun _ => .outside
      clock := 0
      arrival := fun _ => 0
      signals := fun _ => 0 }
  step := CondState.step

/-! ### The invariant -/

open CondState

section Invariant

variable {τ : Type*} [DecidableEq τ]

def CondPc.Agrees : CondPc τ → LockPc Unit → Bool → Prop
  | .outside, _, _ => True
  | .releasing, p, i => p = .running ∧ i ∨ p = .releasing () ∨ p = .cleared ()
  | .downing, p, i => p = .running ∧ ¬ i
  | .blocked, p, i => p = .running ∧ ¬ i
  | .acquiring, p, i =>
    p = .running ∧ ¬ i ∨ p = .downing () ∨ p = .blocked () ∨ p = .acquired ()
  | .upping _ _, p, i => p = .running ∧ i
  | .broadcasting _, p, i => p = .running ∧ i

omit [DecidableEq τ] in
theorem CondPc.Agrees.wake {c : CondPc τ} {l : Unit} {i : Bool}
    (h : c.Agrees (.blocked l) i) : c.Agrees (.downing l) i := by
  cases c <;> simp_all [CondPc.Agrees]

def CondState.Broadcasts (s : CondState τ) (t : τ) (ws : List τ) : Prop :=
  s.pc t = .broadcasting ws ∨ ∃ w, s.pc t = .upping w (some ws)

/-- The waiter of `t` has been signalled: its semaphore is raised and not yet passed, or
passed on the way to the lock. -/
def CondState.Released (s : CondState τ) (t : τ) : Prop :=
  s.Waits t ∧ s.signals t = 1 ∨ s.pc t = .acquiring

/-- The **joint invariant** of the list, the waiters' semaphores and the lock. A thread
that waits is queued, or about to be signalled, or signalled and not blocked. -/
structure CondInv (s : CondState τ) : Prop where
  lock : LockInv s.locks
  agrees : ∀ t, (s.pc t).Agrees (s.locks.pc t) (s.locks.inside () t)
  sorted : s.waiters.Pairwise fun a b => s.arrival a < s.arrival b
  arrival_lt : ∀ t ∈ s.waiters, s.arrival t < s.clock
  queued : ∀ t ∈ s.waiters, s.Waits t ∧ s.signals t = 0
  popped : ∀ t w, s.Signals t w → s.Waits w ∧ s.signals w = 0 ∧ w ∉ s.waiters
  waits : ∀ t, s.Waits t →
    t ∈ s.waiters ∨ (∃ u, s.Signals u t) ∨ s.signals t = 1 ∧ s.pc t ≠ .blocked
  value : ∀ t, s.Waits t → (s.sema t).value = s.signals t
  sema_waiters : ∀ t, (s.sema t).waiters = if s.pc t = .blocked then [t] else []
  signals_le : ∀ t, s.signals t ≤ 1
  broadcast : ∀ t ws, s.Broadcasts t ws → ∀ x ∈ ws, x ∈ s.waiters ∨ s.Signals t x ∨ s.Released x

theorem condInv_start : CondInv (condMachine τ).start where
  lock := lockInv_start
  agrees t := trivial
  sorted := List.Pairwise.nil
  arrival_lt t ht := by simp [condMachine] at ht
  queued t ht := by simp [condMachine] at ht
  popped t w h := by simp [condMachine, Signals] at h
  waits t h := by simp [condMachine, Waits] at h
  value t h := by simp [condMachine, Waits] at h
  sema_waiters t := by simp [condMachine, semaInit]
  signals_le t := by simp [condMachine]
  broadcast t ws h := by simp [condMachine, Broadcasts] at h

variable {w : τ} {ws : List τ} {caller : Option (List τ)}

namespace CondInv

variable {s : CondState τ} {t : τ}

section

variable (h : CondInv s)

include h

theorem actor_unique {u : τ} (ht : s.locks.inside () t) (hu : s.locks.Owns () u) : t = u :=
  (h.lock.unit ()).unique t u (.inl ht) hu

theorem inside_of_signals (hs : s.Signals t w) : s.locks.inside () t := by
  obtain ⟨caller, hpc⟩ := hs
  have := h.agrees t
  rw [hpc] at this
  exact this.2

theorem inside_of_broadcasts (hs : s.Broadcasts t ws) : s.locks.inside () t := by
  have := h.agrees t
  rcases hs with hpc | ⟨w, hpc⟩
  · rw [hpc] at this
    exact this.2
  · rw [hpc] at this
    exact this.2

variable {p : CondPc τ} {locks : LockState τ Unit}

theorem moveLocks (hlock : LockInv locks)
    (hinside : ∀ u, u ≠ t → locks.inside () u = s.locks.inside () u)
    (hpcs : ∀ u, u ≠ t →
      locks.pc u = s.locks.pc u ∨ ∃ l, s.locks.pc u = .blocked l ∧ locks.pc u = .downing l)
    (hagrees : p.Agrees (locks.pc t) (locks.inside () t))
    (hp : p = s.pc t ∨ s.pc t = .releasing ∧ p = .downing ∨
      s.pc t = .acquiring ∧ p = .outside ∧ s.locks.Owns () t) :
    CondInv { s with locks, pc := update s.pc t p } := by
  have hwaits : ∀ u, Waits { s with locks, pc := update s.pc t p } u ↔
      s.Waits u := by
    intro u
    simp only [Waits, update_apply]
    grind
  have hsignals : ∀ u w, Signals { s with locks, pc := update s.pc t p } u w ↔
      s.Signals u w := by
    intro u w
    simp only [Signals, update_apply]
    grind
  refine ⟨hlock, fun u => ?_, h.sorted, h.arrival_lt, ?_, ?_, ?_, ?_, ?_, h.signals_le, ?_⟩
  · by_cases hu : u = t
    · subst hu
      simpa using hagrees
    · have hag := h.agrees u
      simp only [update_of_ne hu, hinside u hu]
      rcases hpcs u hu with heq | ⟨l, hb, hd⟩
      · rwa [heq]
      · rw [hb] at hag
        exact hd ▸ hag.wake
  · intro u hu
    rw [hwaits]
    exact h.queued u hu
  · intro u w hu
    rw [hwaits]
    exact h.popped u w ((hsignals u w).mp hu)
  · intro u hu
    have := h.waits u ((hwaits u).mp hu)
    grind
  · intro u hu
    exact h.value u ((hwaits u).mp hu)
  · intro u
    have := h.sema_waiters u
    simp only [update_apply]
    grind
  · intro u ws hu x hx
    have hb : s.Broadcasts u ws := by
      simp only [Broadcasts, update_apply] at hu ⊢
      grind
    rw [hsignals]
    refine (h.broadcast u ws hb x hx).imp_right (Or.imp_right ?_)
    simp only [Released, hwaits, update_apply]
    rintro (hw | hacq)
    · exact .inl hw
    · right
      -- a thread on its way to the lock cannot return while the broadcaster is inside
      by_cases hxt : x = t
      · subst hxt
        rcases hp with rfl | ⟨hrel, -⟩ | ⟨-, -, hown⟩
        · simpa using hacq
        · rw [hrel] at hacq
          cases hacq
        · have hux := h.actor_unique (h.inside_of_broadcasts hb) hown
          subst hux
          rcases hb with hb | ⟨w, hb⟩ <;> rw [hb] at hacq <;> cases hacq
      · simpa [hxt] using hacq

theorem lockStep {i : LockLabel τ Unit} (hpc : s.pc (CondState.actor i) = .outside)
    (hok : s.locks.Disciplined i) :
    s.locks.step i = .blocked ∨
      ∃ locks, s.locks.step i = .next locks ∧ CondInv { s with locks } := by
  rcases h.lock.step hok with hb | ⟨locks, hs, hlock⟩
  · exact .inl hb
  · refine .inr ⟨locks, hs, ?_⟩
    have hmove : CondInv { s with
        locks, pc := update s.pc (CondState.actor i) (s.pc (CondState.actor i)) } := by
      refine h.moveLocks hlock ?_ ?_ (by rw [hpc]; trivial) (.inl rfl)
      · intro u hu
        cases i with
        | call t c =>
          simp only [LockState.step] at hs
          split at hs
          · rw [(LockState.call_frame hs).1]
          · cases hs
        | exec t => exact (LockState.exec_frame hs hu).1 ()
      · intro u hu
        cases i with
        | call t c =>
          simp only [LockState.step] at hs
          split at hs
          · exact .inl ((LockState.call_frame hs).2 u hu)
          · cases hs
        | exec t => exact (LockState.exec_frame hs hu).2
    rwa [update_eq_self] at hmove

variable {c : LockCall Unit}

theorem callPiece (hrun : s.locks.pc t = .running) (hok : s.locks.Disciplined (.call t c))
    (hagrees : ∀ locks, s.locks.call t c = .next locks →
      locks.pc t ≠ .running ∧ (s.pc t).Agrees (locks.pc t) (locks.inside () t)) :
    ∃ s', s.lockPiece t c p = .next s' ∧ CondInv s' := by
  obtain ⟨locks, hs, hlock⟩ := h.lock.call hrun hok
  obtain ⟨hne, hag⟩ := hagrees locks hs
  obtain ⟨hin, hpcs⟩ := LockState.call_frame hs
  refine ⟨{ s with locks, pc := update s.pc t (s.pc t) }, ?_, ?_⟩
  · simp only [lockPiece, if_pos hrun, hs, Outcome.bind_next, if_neg hne]
  · exact h.moveLocks hlock (fun u _ => by rw [hin]) (fun u hu => .inl (hpcs u hu)) hag (.inl rfl)

theorem execPiece
    (hrun : s.locks.pc t ≠ .running) (hs : s.locks.exec t = .next locks) (hlock : LockInv locks)
    (hagrees : (if locks.pc t = .running then p else s.pc t).Agrees (locks.pc t)
      (locks.inside () t))
    (hp : locks.pc t = .running → s.pc t = .releasing ∧ p = .downing ∨
      s.pc t = .acquiring ∧ p = .outside ∧ s.locks.Owns () t) :
    ∃ s', s.lockPiece t c p = .next s' ∧ CondInv s' := by
  refine ⟨{ s with
    locks, pc := update s.pc t (if locks.pc t = .running then p else s.pc t) }, ?_, ?_⟩
  · simp only [lockPiece, if_neg hrun, hs, Outcome.bind_next]
  · refine h.moveLocks hlock (fun u hu => (LockState.exec_frame hs hu).1 ())
      (fun u hu => (LockState.exec_frame hs hu).2) hagrees ?_
    split
    · next hr => exact .inr (hp hr)
    · exact .inl rfl

theorem releasePiece (hpc : s.pc t = .releasing) :
    ∃ s', s.lockPiece t (.release ()) .downing = .next s' ∧ CondInv s' := by
  have hag := h.agrees t
  rw [hpc] at hag
  rcases hag with ⟨hrun, hin⟩ | hrel | hclr
  · refine h.callPiece hrun hin fun locks hs => ?_
    rw [LockState.call, h.lock.held_iff, if_pos hin, Outcome.next.injEq] at hs
    subst hs
    simp [hpc, CondPc.Agrees]
  · refine h.execPiece (by simp [hrel]) (LockState.exec_releasing hrel) (h.lock.leave hrel) ?_ ?_
    · simp [hpc, CondPc.Agrees]
    · simp
  · have hout : ¬ s.locks.inside () t := h.lock.outside () t (.inr (.inr (.inr (.inr (.inr hclr)))))
    cases hw : (s.locks.lock ()).semaphore.waiters with
    | nil =>
      refine h.execPiece (by simp [hclr]) (LockState.exec_cleared_of_nil hclr hw)
        (h.lock.giveUnit hclr hw) ?_ fun _ => .inl ⟨hpc, rfl⟩
      simpa [CondPc.Agrees] using hout
    | cons w ws =>
      have hwb : s.locks.pc w = .blocked () := (h.lock.mem_waiters () w).mp (by simp [hw])
      refine h.execPiece (by simp [hclr]) (LockState.exec_cleared_of_cons hclr hw hwb)
        (h.lock.giveUnit_wake hclr hw) ?_ fun _ => .inl ⟨hpc, rfl⟩
      simpa [CondPc.Agrees] using hout

theorem acquirePiece (hpc : s.pc t = .acquiring) :
    s.lockPiece t (.acquire ()) .outside = .blocked ∨
      ∃ s', s.lockPiece t (.acquire ()) .outside = .next s' ∧ CondInv s' := by
  have hag := h.agrees t
  rw [hpc] at hag
  rcases hag with ⟨hrun, hin⟩ | hdown | hblk | hacq
  · refine .inr (h.callPiece hrun hin fun locks hs => ?_)
    rw [LockState.call, h.lock.held_iff, if_neg hin, Outcome.next.injEq] at hs
    subst hs
    simp [hpc, CondPc.Agrees]
  · right
    by_cases hv : (s.locks.lock ()).semaphore.value = 0
    · refine h.execPiece (by simp [hdown]) (LockState.exec_downing_of_zero hdown hv)
        (h.lock.block hdown) ?_ ?_
      · simp [hpc, CondPc.Agrees]
      · simp
    · have hpos : 0 < (s.locks.lock ()).semaphore.value := by omega
      refine h.execPiece (by simp [hdown]) (LockState.exec_downing_of_pos hdown hpos)
        (h.lock.takeUnit (.inl hdown) (.inl rfl) hpos) ?_ ?_
      · simp [hpc, CondPc.Agrees]
      · simp
  · left
    simp [lockPiece, hblk, LockState.exec]
  · refine .inr (h.execPiece (by simp [hacq]) (LockState.exec_acquired hacq)
      (h.lock.enter (.inl hacq)) ?_ fun _ => .inr ⟨hpc, rfl, .inr (.inl hacq)⟩)
    simp [CondPc.Agrees]

variable {sema : Semaphore τ}

theorem down (hpc : s.pc t = .downing)
    (hp : 0 < (s.sema t).value ∧ sema = { s.sema t with value := (s.sema t).value - 1 } ∧
      p = .acquiring ∨ (s.sema t).value = 0 ∧
      sema = { s.sema t with waiters := (s.sema t).waiters ++ [t] } ∧ p = .blocked) :
    CondInv ((s.setSema t sema).goto t p) := by
  have hag := h.agrees
  have hq := h.queued
  have hpop := h.popped
  have hwt := h.waits
  have hval := h.value
  have hsw := h.sema_waiters
  simp only [Waits, Signals, forall_exists_index] at hq hpop hwt hval
  refine ⟨h.lock, ?_, h.sorted, h.arrival_lt, ?_, ?_, ?_, ?_, ?_, h.signals_le, ?_⟩
  all_goals simp only [Waits, Signals, Broadcasts, Released, goto, setSema, update_apply]
  · intro u
    have := hag u
    split
    · next hu =>
      subst hu
      rw [hpc] at this
      obtain ⟨-, -, rfl⟩ | ⟨-, -, rfl⟩ := hp
      · exact .inl this
      · exact this
    · exact this
  · grind
  · grind
  · grind
  · grind
  · grind
  · intro u ws hu x hx
    have hb : s.Broadcasts u ws := by
      simp only [Broadcasts]
      grind
    have := h.broadcast u ws hb x hx
    simp only [Signals, Released, Waits] at this
    grind

theorem up (hpc : s.pc t = .upping w caller)
    (hp : s.pc w = .blocked ∧ p = .downing ∨ s.pc w ≠ .blocked ∧ p = s.pc w)
    (hv : sema.value = 1) (hsw : sema.waiters = []) :
    CondInv ((((s.setSema w sema).countSignal w).goto w p).goto t
      (CondState.afterSignal caller)) := by
  have hsig : s.Signals t w := ⟨caller, hpc⟩
  have hin := h.inside_of_signals hsig
  obtain ⟨hww, hs0, hwm⟩ := h.popped t w hsig
  have hwt : w ≠ t := by
    rintro rfl
    simp [Waits, hpc] at hww
  have honly : ∀ u x, s.Signals u x → x = w := by
    intro u x hu
    have hut := h.actor_unique (h.inside_of_signals hu) (.inl hin)
    subst hut
    obtain ⟨c, hc⟩ := hu
    rw [hpc] at hc
    cases hc
    rfl
  have hafter : ∀ x c, CondState.afterSignal caller ≠ .upping x c := by
    cases caller <;> simp [CondState.afterSignal]
  have hq := h.queued
  have hag := h.agrees
  have hval := h.value
  have hle := h.signals_le
  have hsws := h.sema_waiters
  have hwaits : ∀ u, Waits ((((s.setSema w sema).countSignal w).goto w p).goto t
      (CondState.afterSignal caller)) u ↔ s.Waits u := by
    intro u
    cases caller <;>
      simp only [Waits, goto, setSema, countSignal,
        CondState.afterSignal, update_apply] at hww ⊢ <;> grind
  have hno : ∀ u x, ¬ Signals ((((s.setSema w sema).countSignal w).goto w p).goto t
      (CondState.afterSignal caller)) u x := by
    rintro u x ⟨c, hc⟩
    simp only [goto, setSema, countSignal, update_apply] at hc
    have huniq := fun hu => h.actor_unique (u := t) (h.inside_of_signals (t := u) (w := x) hu)
      (.inl hin)
    simp only [Signals, Waits] at huniq hww
    grind
  refine ⟨h.lock, ?_, h.sorted, h.arrival_lt, ?_, ?_, ?_, ?_, ?_, ?_, ?_⟩
  · intro u
    have hu := hag u
    by_cases hut : u = t
    · subst hut
      cases caller <;>
        simp_all [goto, setSema, countSignal, CondState.afterSignal, CondPc.Agrees]
    · by_cases huw : u = w
      · subst huw
        simp only [goto, setSema, countSignal, update_of_ne hwt, update_self]
        rcases hp with ⟨hb, rfl⟩ | ⟨-, rfl⟩
        · rwa [hb] at hu
        · exact hu
      · simpa [goto, setSema, countSignal, hut, huw] using hu
  · intro u hu
    rw [hwaits]
    refine ⟨(hq u hu).1, ?_⟩
    have huw : u ≠ w := fun he => hwm (he ▸ hu)
    simpa [goto, setSema, countSignal, huw] using (hq u hu).2
  · intro u x hu
    exact absurd hu (hno u x)
  · intro u hu
    rw [hwaits] at hu
    by_cases huw : u = w
    · subst huw
      right; right
      rcases hp with ⟨-, rfl⟩ | ⟨hb, rfl⟩
      · simp [goto, setSema, countSignal, hwt, hs0]
      · simp [goto, setSema, countSignal, hwt, hs0, hb]
    · rcases h.waits u hu with hm | ⟨v, hv⟩ | ⟨h1, hb⟩
      · exact .inl hm
      · exact absurd (honly v u hv) huw
      · right; right
        have hut : u ≠ t := by
          rintro rfl
          simp [Waits, hpc] at hu
        simpa [goto, setSema, countSignal, huw, hut] using ⟨h1, hb⟩
  · intro u hu
    simp only [goto, setSema, countSignal, update_apply]
    grind
  · intro u
    cases caller <;>
      simp only [goto, setSema, countSignal, CondState.afterSignal, update_apply] <;> grind
  · intro u
    simp only [goto, setSema, countSignal, update_apply]
    grind
  · intro u ws hu x hx
    have hb : s.Broadcasts u ws := by
      cases caller <;>
        simp only [Broadcasts, goto, setSema,
          countSignal, CondState.afterSignal, update_apply] at hu ⊢ <;> grind
    by_cases hxw : x = w
    · subst hxw
      refine .inr (.inr (.inl ⟨(hwaits x).mpr hww, ?_⟩))
      simp [goto, setSema, countSignal, hs0]
    · rcases h.broadcast u ws hb x hx with hm | hsx | hrel
      · exact .inl hm
      · exact absurd (honly u x hsx) hxw
      · right; right
        rcases hrel with ⟨hwx, h1⟩ | hacq
        · refine .inl ⟨(hwaits x).mpr hwx, ?_⟩
          simpa [goto, setSema, countSignal, hxw] using h1
        · right
          have hxt : x ≠ t := by
            rintro rfl
            rw [hpc] at hacq
            cases hacq
          simpa [goto, setSema, countSignal, hxw, hxt] using hacq

theorem not_signals (hin : s.locks.inside () t) (hpc : ∀ w caller, s.pc t ≠ .upping w caller)
    (u w : τ) : ¬ s.Signals u w := by
  intro hu
  have hut := h.actor_unique (h.inside_of_signals hu) (.inl hin)
  subst hut
  obtain ⟨caller, hc⟩ := hu
  exact hpc w caller hc

theorem pop (hrun : s.locks.pc t = .running)
    (hin : s.locks.inside () t) (hpc : s.pc t = CondState.afterSignal caller)
    (hw : s.waiters = w :: ws) : CondInv ({ s with waiters := ws }.goto t (.upping w caller)) := by
  have hpcu : ∀ x c, s.pc t ≠ .upping x c := by cases caller <;> simp [hpc, CondState.afterSignal]
  have hno := h.not_signals hin hpcu
  have hsorted := h.sorted
  rw [hw] at hsorted
  have hwws : w ∉ ws := fun hm => absurd (rel_of_pairwise_cons hsorted hm) (lt_irrefl _)
  have htw : ¬ s.Waits t := by cases caller <;> simp [Waits, hpc, CondState.afterSignal]
  have hwaits : ∀ u, Waits ({ s with waiters := ws }.goto t (.upping w caller)) u ↔
      s.Waits u := by
    intro u
    simp only [Waits, goto, update_apply] at htw ⊢
    grind
  have hsignals : ∀ u x, Signals ({ s with waiters := ws }.goto t
      (.upping w caller)) u x ↔ u = t ∧ x = w := by
    intro u x
    have := hno u x
    simp only [Signals, goto, update_apply] at this ⊢
    grind
  refine ⟨h.lock, ?_, hsorted.of_cons, ?_, ?_, ?_, ?_, ?_, ?_, h.signals_le, ?_⟩
  · intro u
    by_cases hut : u = t
    · subst hut
      simpa [goto, CondPc.Agrees] using ⟨hrun, hin⟩
    · simpa [goto, hut] using h.agrees u
  · intro u hu
    exact h.arrival_lt u (by simp [hw, show u ∈ ws from hu])
  · intro u hu
    rw [hwaits]
    exact h.queued u (by simp [hw, show u ∈ ws from hu])
  · intro u x hu
    obtain ⟨rfl, rfl⟩ := (hsignals u x).mp hu
    rw [hwaits]
    have hq := h.queued x (by simp [hw])
    exact ⟨hq.1, hq.2, hwws⟩
  · intro u hu
    have hu' := (hwaits u).mp hu
    have hut : u ≠ t := fun he => htw (he ▸ hu')
    simp only [hsignals]
    rcases h.waits u hu' with hm | ⟨v, hv⟩ | h1
    · rw [hw, mem_cons] at hm
      rcases hm with rfl | hm
      · exact .inr (.inl ⟨t, rfl, rfl⟩)
      · exact .inl hm
    · exact absurd hv (hno v u)
    · right; right
      simpa [goto, hut] using h1
  · intro u hu
    exact h.value u ((hwaits u).mp hu)
  · intro u
    have hsw := h.sema_waiters u
    by_cases hut : u = t
    · subst hut
      have : s.pc u ≠ .blocked := fun hb => htw (.inr (.inr hb))
      simpa [goto, this] using hsw
    · simpa [goto, hut] using hsw
  · intro u vs hu x hx
    have hb : s.Broadcasts u vs := by
      cases caller <;>
        simp only [Broadcasts, goto, CondState.afterSignal, update_apply] at hu hpc ⊢ <;> grind
    have hut := h.actor_unique (h.inside_of_broadcasts hb) (.inl hin)
    subst hut
    rw [hsignals]
    rcases h.broadcast u vs hb x hx with hm | hsx | hrel
    · rw [hw, mem_cons] at hm
      rcases hm with rfl | hm
      · exact .inr (.inl ⟨rfl, rfl⟩)
      · exact .inl hm
    · exact absurd hsx (hno u x)
    · right; right
      simp only [Released, hwaits]
      refine hrel.imp id fun hacq => ?_
      have hxu : x ≠ u := by
        rintro rfl
        cases caller <;> rw [hpc] at hacq <;> cases hacq
      simpa [goto, hxu] using hacq

theorem gotoLoop (hrun : s.locks.pc t = .running) (hin : s.locks.inside () t)
    (hp : s.pc t = .outside ∧ p = .broadcasting s.waiters ∨
      (∃ ws, s.pc t = .broadcasting ws) ∧ p = .outside) : CondInv (s.goto t p) := by
  have hpop := h.popped
  have hwt := h.waits
  have hval := h.value
  have hsw := h.sema_waiters
  have hq := h.queued
  simp only [Waits, Signals, forall_exists_index] at hq hpop hwt hval
  refine ⟨h.lock, ?_, h.sorted, h.arrival_lt, ?_, ?_, ?_, ?_, ?_, h.signals_le, ?_⟩
  · intro u
    by_cases hut : u = t
    · subst hut
      rcases hp with ⟨-, rfl⟩ | ⟨-, rfl⟩
      · simpa [goto, CondPc.Agrees] using ⟨hrun, hin⟩
      · simp [goto, CondPc.Agrees]
    · simpa [goto, hut] using h.agrees u
  all_goals simp only [Waits, Signals, Broadcasts, Released, goto, update_apply]
  · grind
  · grind
  · grind
  · grind
  · grind
  · intro u ws hu x hx
    by_cases hut : u = t
    · subst hut
      grind
    · have hb : s.Broadcasts u ws := by
        simp only [Broadcasts]
        grind
      exact absurd (h.actor_unique (h.inside_of_broadcasts hb) (.inl hin)) hut

theorem held (hin : s.locks.inside () t) : lockHeldByCurrentThread s.lock t := by
  rw [CondState.lock, h.lock.held_iff]
  exact hin

theorem wait (hidle : s.Idle t) (hin : s.locks.inside () t) :
    ∃ s', s.condWait t = .next s' ∧ CondInv s' := by
  obtain ⟨hrun, hout⟩ := hidle
  have htm : t ∉ s.waiters := by
    intro hm
    have := (h.queued t hm).1
    simp [Waits, hout] at this
  have hheld := h.held hin
  refine ⟨_, if_pos hheld, ?_⟩
  have hpop := h.popped
  have hwt := h.waits
  have hval := h.value
  have hsw := h.sema_waiters
  have hq := h.queued
  have hle := h.signals_le
  simp only [Waits, Signals, forall_exists_index] at hq hpop hwt hval
  refine ⟨h.lock, ?_, ?_, ?_, ?_, ?_, ?_, ?_, ?_, ?_, ?_⟩
  · intro u
    by_cases hut : u = t
    · subst hut
      simpa [CondPc.Agrees] using .inl ⟨hrun, hin⟩
    · simpa [hut] using h.agrees u
  · have hne : ∀ u ∈ s.waiters, u ≠ t := fun u hu he => htm (he ▸ hu)
    rw [pairwise_append]
    refine ⟨h.sorted.imp_of_mem fun {a b} ha hb hab => ?_, pairwise_singleton _ _, ?_⟩
    · simpa [hne a ha, hne b hb] using hab
    · intro a ha b hb
      rw [mem_singleton] at hb
      subst hb
      simpa [hne a ha] using h.arrival_lt a ha
  · intro u hu
    by_cases hut : u = t
    · simp [hut]
    · have := h.arrival_lt u (by simpa [hut] using hu)
      simp only [update_of_ne hut]
      omega
  all_goals simp only [Waits, Signals, Broadcasts,
    Released, update_apply, mem_append, mem_singleton, semaInit]
  · grind
  · grind
  · grind
  · grind
  · grind
  · grind
  · intro u ws hu x hx
    have hb : s.Broadcasts u ws := by
      simp only [Broadcasts]
      grind
    have hut := h.actor_unique (h.inside_of_broadcasts hb) (.inl hin)
    subst hut
    simp [Broadcasts, hout] at hb

theorem exec_upping (hpc : s.pc t = .upping w caller) :
    (s.sema w).value = 0 ∧
    s.exec t = .next ((((s.setSema w (semaInit 1)).countSignal w).goto w
      (if s.pc w = .blocked then .downing else s.pc w)).goto t (CondState.afterSignal caller)) := by
  obtain ⟨hww, hs0, -⟩ := h.popped t w ⟨caller, hpc⟩
  have hv : (s.sema w).value = 0 := (h.value w hww).trans hs0
  refine ⟨hv, ?_⟩
  have hup : semaUp (s.sema w) = (semaInit 1, if s.pc w = .blocked then some w else none) := by
    rw [semaUp, h.sema_waiters w, hv]
    split <;> rfl
  by_cases hb : s.pc w = .blocked
  · simp only [CondState.exec, hpc, hup, hb, if_true]
  · simp only [CondState.exec, hpc, hup, if_neg hb]
    congr 2
    have : (s.setSema w (semaInit 1)).countSignal w =
        ((s.setSema w (semaInit 1)).countSignal w).goto w (s.pc w) := by
      simp [goto, setSema, countSignal]
    exact this

theorem exec (t : τ) : s.exec t = .blocked ∨ ∃ s', s.exec t = .next s' ∧ CondInv s' := by
  cases hpc : s.pc t with
  | outside => exact .inl (by simp only [CondState.exec, hpc])
  | blocked => exact .inl (by simp only [CondState.exec, hpc])
  | releasing =>
    right
    simp only [CondState.exec, hpc]
    exact h.releasePiece hpc
  | acquiring =>
    simp only [CondState.exec, hpc]
    exact h.acquirePiece hpc
  | downing =>
    right
    by_cases hv : (s.sema t).value = 0
    · exact ⟨_, by simp only [CondState.exec, hpc, semaDown_of_zero hv],
        h.down hpc (.inr ⟨hv, rfl, rfl⟩)⟩
    · have hpos : 0 < (s.sema t).value := by omega
      exact ⟨_, by simp only [CondState.exec, hpc, semaDown_of_pos hpos],
        h.down hpc (.inl ⟨hpos, rfl, rfl⟩)⟩
  | upping w caller =>
    refine .inr ⟨_, (h.exec_upping hpc).2, h.up hpc ?_ rfl rfl⟩
    split <;> simp_all
  | broadcasting ws =>
    right
    have hag := h.agrees t
    rw [hpc] at hag
    have hheld := h.held hag.2
    cases hw : s.waiters with
    | nil =>
      refine ⟨s.goto t .outside, by simp only [CondState.exec, hpc, hw, if_true], ?_⟩
      exact h.gotoLoop hag.1 hag.2 (.inr ⟨⟨ws, hpc⟩, rfl⟩)
    | cons w rest =>
      refine ⟨_, ?_, h.pop hag.1 hag.2 (show s.pc t = CondState.afterSignal (some ws) from hpc) hw⟩
      simp [CondState.exec, hpc, hw, condSignal, hheld]

theorem step {i : CondLabel τ} (hok : s.Disciplined i) :
    s.step i = .blocked ∨ ∃ s', s.step i = .next s' ∧ CondInv s' := by
  cases i with
  | lock i =>
    by_cases hpc : s.pc (CondState.actor i) = .outside
    · simp only [CondState.step, if_pos hpc]
      rcases h.lockStep hpc hok with hb | ⟨locks, hs, hi⟩
      · exact .inl (by rw [hb, Outcome.bind_blocked])
      · exact .inr ⟨_, by rw [hs, Outcome.bind_next], hi⟩
    · exact .inl (by simp only [CondState.step, if_neg hpc])
  | wait t =>
    by_cases hidle : s.Idle t
    · simp only [CondState.step, if_pos hidle]
      exact .inr (h.wait hidle hok)
    · exact .inl (by simp only [CondState.step, if_neg hidle])
  | signal t =>
    by_cases hidle : s.Idle t
    · simp only [CondState.step, if_pos hidle]
      have hheld := h.held hok
      right
      cases hw : s.waiters with
      | nil => exact ⟨s, by simp [condSignal, hheld, hw], h⟩
      | cons w ws =>
        refine ⟨_, ?_, h.pop hidle.1 hok (show s.pc t = CondState.afterSignal none from hidle.2) hw⟩
        simp [condSignal, hheld, hw]
    · exact .inl (by simp only [CondState.step, if_neg hidle])
  | broadcast t =>
    by_cases hidle : s.Idle t
    · simp only [CondState.step, if_pos hidle]
      exact .inr ⟨_, rfl, h.gotoLoop hidle.1 hok (.inl ⟨hidle.2, rfl⟩)⟩
    · exact .inl (by simp only [CondState.step, if_neg hidle])
  | exec t => exact h.exec t

end

end CondInv

theorem condMachine_preserves : (condMachine τ).Preserves Disciplined CondInv :=
  fun _ _ hi hok => hi.step hok

theorem condInv_of_reachable {s : CondState τ}
    (h : (condMachine τ).ReachableUnder Disciplined s) : CondInv s :=
  h.of_preserves condMachine_preserves condInv_start

/-! ### Correctness -/

/-- **What a condition variable promises** in a state. -/
structure CondCorrect (s : CondState τ) : Prop where
  wait_returns : ∀ t s', s.pc t = .acquiring → s.step (.exec t) = .next s' →
    s'.pc t = .outside → s'.lock.holder = some t ∧ s'.locks.inside () t
  signal_pops : ∀ t s' w ws, s.waiters = w :: ws → s.step (.signal t) = .next s' →
    s'.pc t = .upping w none ∧ s'.waiters = ws ∧ ∀ x ∈ ws, s.arrival w < s.arrival x
  broadcast_pops : ∀ t s' vs w ws, s.pc t = .broadcasting vs → s.waiters = w :: ws →
    s.step (.exec t) = .next s' →
    s'.pc t = .upping w (some vs) ∧ s'.waiters = ws ∧ ∀ x ∈ ws, s.arrival w < s.arrival x
  signal_releases : ∀ t w caller, s.pc t = .upping w caller →
    ∃ s', s.step (.exec t) = .next s' ∧ (s.sema w).value = 0 ∧ (s'.sema w).value = 1 ∧
      s'.signals w = 1 ∧ s'.pc w ≠ .blocked ∧
      ∀ x, x ≠ w → s'.sema x = s.sema x ∧ s'.signals x = s.signals x
  released_once : ∀ t, s.signals t ≤ 1
  not_signalled : ∀ t, s.Waits t → s.signals t = 0 → t ∈ s.waiters ∨ ∃ u, s.Signals u t
  not_missed : ∀ t, s.Waits t → s.signals t = 1 → (s.sema t).value = 1 ∧ s.pc t ≠ .blocked
  down_passes : ∀ t, s.pc t = .downing → s.signals t = 1 →
    ∃ s', s.step (.exec t) = .next s' ∧ s'.pc t = .acquiring
  broadcast_starts : ∀ t s', s.step (.broadcast t) = .next s' → s'.pc t = .broadcasting s.waiters
  broadcast_returns : ∀ t ws s', s.pc t = .broadcasting ws → s.step (.exec t) = .next s' →
    s'.pc t = .outside →
    s'.waiters = [] ∧ ∀ x ∈ ws, (s'.sema x).value = 1 ∨ s'.pc x = .acquiring
  no_fault : ∀ i e, s.Disciplined i → s.step i ≠ .fault e

namespace CondInv

variable {s : CondState τ} {t : τ}

section

variable (h : CondInv s)

include h

theorem front_longest (hw : s.waiters = w :: ws) : ∀ x ∈ ws, s.arrival w < s.arrival x := by
  have hsorted := h.sorted
  rw [hw] at hsorted
  exact fun x hx => rel_of_pairwise_cons hsorted hx

variable {s' : CondState τ}

theorem wait_returns (hpc : s.pc t = .acquiring) (hs : s.step (.exec t) = .next s')
    (hout : s'.pc t = .outside) : s'.lock.holder = some t ∧ s'.locks.inside () t := by
  have hi : CondInv s' := by
    rcases h.exec t with hb | ⟨s₁, hs₁, hi⟩
    · rw [CondState.step, hb] at hs
      cases hs
    · rw [CondState.step, hs₁, Outcome.next.injEq] at hs
      exact hs ▸ hi
  suffices hin : s'.locks.inside () t from ⟨(hi.lock.holder_iff () t).mpr hin, hin⟩
  have hag := h.agrees t
  rw [hpc] at hag
  simp only [CondState.step, CondState.exec, hpc, lockPiece, Outcome.bind_eq_next] at hs
  obtain ⟨locks, hlocks, hs⟩ := hs
  rw [Outcome.next.injEq] at hs
  subst hs
  have hrun : locks.pc t = .running := by
    by_contra hne
    simp [hne] at hout
  rcases hag with ⟨hr, hin⟩ | hd | hb | ha
  · rw [if_pos hr, LockState.call, h.lock.held_iff, if_neg hin, Outcome.next.injEq] at hlocks
    subst hlocks
    simp at hrun
  · rw [if_neg (by simp [hd])] at hlocks
    by_cases hv : (s.locks.lock ()).semaphore.value = 0
    · rw [LockState.exec_downing_of_zero hd hv, Outcome.next.injEq] at hlocks
      subst hlocks
      simp at hrun
    · rw [LockState.exec_downing_of_pos hd (by omega), Outcome.next.injEq] at hlocks
      subst hlocks
      simp at hrun
  · rw [if_neg (by simp [hb]), LockState.exec, hb] at hlocks
    cases hlocks
  · rw [if_neg (by simp [ha]), LockState.exec_acquired ha, Outcome.next.injEq] at hlocks
    subst hlocks
    simp

theorem signal_pops (hw : s.waiters = w :: ws) (hs : s.step (.signal t) = .next s') :
    s'.pc t = .upping w none ∧ s'.waiters = ws ∧ ∀ x ∈ ws, s.arrival w < s.arrival x := by
  simp only [CondState.step, condSignal, hw] at hs
  split at hs
  · split at hs
    · cases hs
      exact ⟨by simp [goto], rfl, h.front_longest hw⟩
    · cases hs
  · cases hs

theorem broadcast_pops {vs : List τ} (hpc : s.pc t = .broadcasting vs) (hw : s.waiters = w :: ws)
    (hs : s.step (.exec t) = .next s') :
    s'.pc t = .upping w (some vs) ∧ s'.waiters = ws ∧ ∀ x ∈ ws, s.arrival w < s.arrival x := by
  simp only [CondState.step, CondState.exec, hpc, hw, condSignal, reduceCtorEq, if_false] at hs
  split at hs
  · cases hs
    exact ⟨by simp [goto], rfl, h.front_longest hw⟩
  · cases hs

theorem signal_releases (hpc : s.pc t = .upping w caller) :
    ∃ s', s.step (.exec t) = .next s' ∧ (s.sema w).value = 0 ∧ (s'.sema w).value = 1 ∧
      s'.signals w = 1 ∧ s'.pc w ≠ .blocked ∧
      ∀ x, x ≠ w → s'.sema x = s.sema x ∧ s'.signals x = s.signals x := by
  obtain ⟨hv, hs⟩ := h.exec_upping hpc
  obtain ⟨hww, hs0, -⟩ := h.popped t w ⟨caller, hpc⟩
  have hwt : w ≠ t := by
    rintro rfl
    simp [Waits, hpc] at hww
  refine ⟨_, hs, hv, ?_, ?_, ?_, ?_⟩
  · simp [goto, setSema, countSignal, semaInit]
  · simp [goto, setSema, countSignal, hs0]
  · simp only [goto, setSema, countSignal, update_of_ne hwt, update_self]
    split <;> simp_all
  · intro x hx
    simp [goto, setSema, countSignal, hx]

theorem not_signalled (hw : s.Waits t) (hs : s.signals t = 0) :
    t ∈ s.waiters ∨ ∃ u, s.Signals u t := by
  rcases h.waits t hw with hm | hu | ⟨h1, -⟩
  · exact .inl hm
  · exact .inr hu
  · omega

theorem not_missed (hw : s.Waits t) (hs : s.signals t = 1) :
    (s.sema t).value = 1 ∧ s.pc t ≠ .blocked := by
  refine ⟨(h.value t hw).trans hs, ?_⟩
  rcases h.waits t hw with hm | ⟨u, hu⟩ | ⟨-, hb⟩
  · have := (h.queued t hm).2
    omega
  · have := (h.popped u t hu).2.1
    omega
  · exact hb

theorem down_passes (hpc : s.pc t = .downing) (hs : s.signals t = 1) :
    ∃ s', s.step (.exec t) = .next s' ∧ s'.pc t = .acquiring := by
  have hpos : 0 < (s.sema t).value := by
    have := h.value t (.inr (.inl hpc))
    omega
  have hstep : s.step (.exec t) = .next ((s.setSema t
      { s.sema t with value := (s.sema t).value - 1 }).goto t .acquiring) := by
    simp only [CondState.step, CondState.exec, hpc, semaDown_of_pos hpos]
  exact ⟨_, hstep, update_self ..⟩

theorem broadcast_returns (hpc : s.pc t = .broadcasting ws)
    (hs : s.step (.exec t) = .next s') (hout : s'.pc t = .outside) :
    s'.waiters = [] ∧ ∀ x ∈ ws, (s'.sema x).value = 1 ∨ s'.pc x = .acquiring := by
  cases hw : s.waiters with
  | nil =>
    simp only [CondState.step, CondState.exec, hpc, hw, if_true, Outcome.next.injEq] at hs
    subst hs
    refine ⟨hw, fun x hx => ?_⟩
    rcases h.broadcast t ws (.inl hpc) x hx with hm | ⟨c, hc⟩ | ⟨hwx, h1⟩ | hacq
    · simp [hw] at hm
    · rw [hpc] at hc
      cases hc
    · exact .inl ((h.value x hwx).trans h1)
    · right
      have hxt : x ≠ t := by
        rintro rfl
        rw [hpc] at hacq
        cases hacq
      simpa [goto, hxt] using hacq
  | cons w rest =>
    -- the loop goes on: the caller is inside the signal of `w`
    rw [(h.broadcast_pops hpc hw hs).1] at hout
    cases hout

end

end CondInv

/-- **Condition-variable correctness** under every interleaving of disciplined clients. -/
theorem condition_correct (s : CondState τ)
    (h : (condMachine τ).ReachableUnder Disciplined s) : CondCorrect s := by
  have hi := condInv_of_reachable h
  constructor
  case wait_returns => exact fun t s' => hi.wait_returns
  case signal_pops => exact fun t s' w ws => hi.signal_pops
  case broadcast_pops => exact fun t s' vs w ws => hi.broadcast_pops
  case signal_releases => exact fun t w caller => hi.signal_releases
  case released_once => exact hi.signals_le
  case not_signalled => exact fun t => hi.not_signalled
  case not_missed => exact fun t => hi.not_missed
  case down_passes => exact fun t => hi.down_passes
  case broadcast_returns => exact fun t ws s' => hi.broadcast_returns
  case no_fault => exact fun i e hok => condMachine_preserves.not_fault hi hok e
  case broadcast_starts =>
    intro t s' hs
    simp only [CondState.step] at hs
    split at hs
    · cases hs
      simp [goto]
    · cases hs

end Invariant

/-- Thread `0` waits and is preempted after `lock_release`; thread `1` takes the lock and
signals before thread `0` reaches `sema_down`. -/
def earlySignal : List (CondLabel ℕ) :=
  [.lock (.call 0 (.acquire ())), .lock (.exec 0), .lock (.exec 0), .wait 0, .exec 0, .exec 0,
    .exec 0, .lock (.call 1 (.acquire ())), .lock (.exec 1), .lock (.exec 1), .signal 1,
    .exec 1]

instance CondState.decidableDisciplined (s : CondState ℕ) (i : CondLabel ℕ) :
    Decidable (s.Disciplined i) := by
  unfold CondState.Disciplined
  split <;> infer_instance

/-- A thread that is signalled before it reaches `sema_down` goes on. -/
theorem condition_correct_earlySignal :
    ∃ s : CondState ℕ,
      (condMachine ℕ).run (condMachine ℕ).start earlySignal = .next s ∧
      s.pc 0 = .downing ∧ s.signals 0 = 1 ∧
      ∃ s', s.step (.exec 0) = .next s' ∧ s'.pc 0 = .acquiring := by
  refine ⟨_, rfl, rfl, rfl, ?_⟩
  have hok : (condMachine ℕ).GuardedRun Disciplined
      (condMachine ℕ).start earlySignal := by
    decide
  have hr := Machine.ReachableUnder.start.of_run hok rfl
  exact (condition_correct _ hr).down_passes 0 rfl rfl

end OsMaterial
