import Mathlib.Data.Set.Card
import OsMaterial.Machine
import OsMaterial.Words

/-!
# Semaphores under Every Interleaving

The semaphore of `threads/synch.c`, used by any number of threads and interrupt handlers. The calls
run with interrupts off, except that `sema_down` gives up the CPU inside `thread_block`: `semaDown`
is the piece from one test of `value` to the next. Ledgers hold the number of ups and of downs, and
the time at which each thread last queued itself.

* `semaphore_correct`: `waiters` are the blocked threads in arrival order, and **no wake-up is
  lost**.
-/

namespace OsMaterial

open List
open Function (update update_of_ne update_self)

structure Semaphore (τ : Type*) where
  value : ℕ
  waiters : List τ
  deriving DecidableEq

section Semaphore

variable {τ : Type*}

def semaInit (value : ℕ) : Semaphore τ :=
  { value, waiters := [] }

/-- `sema_down` by `cur`, from a test of `value` to `thread_block` (`false`) or to the
return of the call (`true`). -/
def semaDown (sema : Semaphore τ) (cur : τ) : Semaphore τ × Bool :=
  if sema.value = 0 then
    ({ sema with waiters := sema.waiters ++ [cur] }, false)
  else
    ({ sema with value := sema.value - 1 }, true)

def semaTryDown (sema : Semaphore τ) : Semaphore τ × Bool :=
  if sema.value > 0 then
    ({ sema with value := sema.value - 1 }, true)
  else
    (sema, false)

/-- `sema_up`: pop the thread to pass to `thread_unblock`, if any, and increment `value`,
which is an `unsigned`. -/
def semaUp (sema : Semaphore τ) : Semaphore τ × Option τ :=
  ({ value := (sema.value + 1) % wordSize, waiters := sema.waiters.tail }, sema.waiters.head?)

variable {sema : Semaphore τ}

theorem semaDown_of_zero (h : sema.value = 0) (cur : τ) :
    semaDown sema cur = ({ sema with waiters := sema.waiters ++ [cur] }, false) :=
  if_pos h

theorem semaDown_of_pos (h : 0 < sema.value) (cur : τ) :
    semaDown sema cur = ({ sema with value := sema.value - 1 }, true) :=
  if_neg (by omega)

end Semaphore

inductive ThreadFault where
  | notBlocked
  | alreadyHeld
  | notHeld
  deriving DecidableEq

inductive DownPhase where
  | outside
  | blocked
  | woken
  deriving DecidableEq

structure SemaState (τ : Type*) where
  sema : Semaphore τ
  phase : τ → DownPhase
  ups : ℕ
  downs : ℕ
  clock : ℕ
  arrival : τ → ℕ

inductive SemaLabel (τ : Type*) where
  | down (t : τ)
  | resume (t : τ)
  | tryDown
  | up
  deriving DecidableEq

section Machine

variable {τ : Type*} [DecidableEq τ]

def SemaState.pass (s : SemaState τ) (t : τ) : SemaState τ :=
  match semaDown s.sema t with
  | (sema, true) =>
    { s with sema, phase := update s.phase t .outside, downs := s.downs + 1 }
  | (sema, false) =>
    { s with
      sema
      phase := update s.phase t .blocked
      clock := s.clock + 1
      arrival := update s.arrival t s.clock }

def SemaState.step (s : SemaState τ) : SemaLabel τ → Outcome ThreadFault (SemaState τ)
  | .down t => if s.phase t = .outside then .next (s.pass t) else .blocked
  | .resume t => if s.phase t = .woken then .next (s.pass t) else .blocked
  | .tryDown =>
    match semaTryDown s.sema with
    | (sema, true) => .next { s with sema, downs := s.downs + 1 }
    | (_, false) => .next s
  | .up =>
    match semaUp s.sema with
    | (sema, none) => .next { s with sema, ups := s.ups + 1 }
    | (sema, some w) =>
      if s.phase w = .blocked then
        .next { s with
          sema
          phase := update s.phase w .woken
          ups := s.ups + 1 }
      else
        .fault .notBlocked

/-- Any number of threads and interrupt handlers on a semaphore that starts at `v`. -/
def semaMachine (τ : Type*) [DecidableEq τ] (v : ℕ) :
    Machine (SemaState τ) (SemaLabel τ) ThreadFault where
  start :=
    { sema := semaInit v
      phase := fun _ => .outside
      ups := 0
      downs := 0
      clock := 0
      arrival := fun _ => 0 }
  step := SemaState.step

/-- The value does not overflow. -/
def NoWrap (s : SemaState τ) (i : SemaLabel τ) : Prop :=
  i = .up → s.sema.value + 1 < wordSize

instance (s : SemaState τ) (i : SemaLabel τ) : Decidable (NoWrap s i) :=
  inferInstanceAs (Decidable (_ → _))

/-! ### The invariant -/

/-- The **joint invariant** of value, queue and woken threads. The woken threads are
listed, so that the last field can count them without assuming finitely many threads. -/
structure SemaInv (v : ℕ) (s : SemaState τ) : Prop where
  balance : s.sema.value + s.downs = v + s.ups
  mem_waiters : ∀ t, t ∈ s.sema.waiters ↔ s.phase t = .blocked
  arrivals : s.sema.waiters.Pairwise fun a b => s.arrival a < s.arrival b
  arrival_lt : ∀ t ∈ s.sema.waiters, s.arrival t < s.clock
  no_lost_wakeup : ∃ l : List τ, l.Nodup ∧ (∀ t, t ∈ l ↔ s.phase t = .woken) ∧
    (s.sema.waiters ≠ [] → s.sema.value ≤ l.length)

theorem semaInv_start (v : ℕ) : SemaInv v (semaMachine τ v).start where
  balance := rfl
  mem_waiters t := by simp [semaMachine, semaInit]
  arrivals := List.Pairwise.nil
  arrival_lt t ht := by simp [semaMachine, semaInit] at ht
  no_lost_wakeup := ⟨[], nodup_nil, by simp [semaMachine], by simp [semaMachine, semaInit]⟩

variable {s : SemaState τ}

theorem pairwise_arrival_append {t : τ}
    (h : s.sema.waiters.Pairwise fun a b => s.arrival a < s.arrival b)
    (hlt : ∀ u ∈ s.sema.waiters, s.arrival u < s.clock) (ht : t ∉ s.sema.waiters) :
    (s.sema.waiters ++ [t]).Pairwise fun a b =>
      update s.arrival t s.clock a < update s.arrival t s.clock b := by
  have hne : ∀ u ∈ s.sema.waiters, u ≠ t := fun u hu h => ht (h ▸ hu)
  rw [pairwise_append]
  refine ⟨?_, pairwise_singleton _ _, ?_⟩
  · refine h.imp_of_mem ?_
    intro a b ha hb hab
    rw [update_of_ne (hne a ha), update_of_ne (hne b hb)]
    exact hab
  · intro a ha b hb
    rw [mem_singleton] at hb
    subst hb
    rw [update_of_ne (hne a ha), update_self]
    exact hlt a ha

variable {v : ℕ}

theorem SemaInv.pass (h : SemaInv v s) {t : τ}
    (ht : s.phase t ≠ .blocked) : SemaInv v (s.pass t) := by
  obtain ⟨l, hnd, hl, hlost⟩ := h.no_lost_wakeup
  have htw : t ∉ s.sema.waiters := fun hm => ht ((h.mem_waiters t).mp hm)
  have hmem : ∀ p : DownPhase, p ≠ .woken →
      ∀ u, u ∈ l.erase t ↔ update s.phase t p u = .woken := by
    intro p hp u
    rw [hnd.mem_erase_iff, hl]
    by_cases hu : u = t
    · subst hu
      simp [hp]
    · simp [hu]
  have hlen : l.length ≤ (l.erase t).length + 1 := by
    rw [length_erase]
    split <;> omega
  by_cases hv : s.sema.value = 0
  · -- the value is zero: `t` queues itself and blocks
    simp only [SemaState.pass, semaDown_of_zero hv]
    refine ⟨h.balance, ?_, pairwise_arrival_append h.arrivals h.arrival_lt htw, ?_, ?_⟩
    · intro u
      by_cases hu : u = t
      · simp [hu]
      · simp [hu, h.mem_waiters u]
    · intro u hu
      by_cases hut : u = t
      · simp [hut]
      · have hu' : u ∈ s.sema.waiters := by simpa [hut] using hu
        have := h.arrival_lt u hu'
        simp only [update_of_ne hut]
        omega
    · exact ⟨l.erase t, hnd.erase t, hmem .blocked (by decide), fun _ => by simp [hv]⟩
  · -- the value is positive: `t` takes a unit and returns
    have hpos : 0 < s.sema.value := by omega
    simp only [SemaState.pass, semaDown_of_pos hpos]
    refine ⟨?_, ?_, h.arrivals, h.arrival_lt, ?_⟩
    · have := h.balance
      dsimp only
      omega
    · intro u
      by_cases hu : u = t
      · simp [hu, htw]
      · simp [hu, h.mem_waiters u]
    · refine ⟨l.erase t, hnd.erase t, hmem .outside (by decide), fun hw => ?_⟩
      have := hlost hw
      dsimp only
      omega

omit [DecidableEq τ] in
theorem SemaInv.tryDown (h : SemaInv v s) (hpos : 0 < s.sema.value) :
    SemaInv v { s with
      sema := { s.sema with value := s.sema.value - 1 }, downs := s.downs + 1 } := by
  obtain ⟨l, hnd, hl, hlost⟩ := h.no_lost_wakeup
  refine ⟨?_, h.mem_waiters, h.arrivals, h.arrival_lt, l, hnd, hl, fun hw => ?_⟩
  · have := h.balance
    dsimp only
    omega
  · have := hlost hw
    dsimp only
    omega

theorem SemaInv.up {s' : SemaState τ} (h : SemaInv v s)
    (hwrap : s.sema.value + 1 < wordSize) (hs : s.step .up = .next s') : SemaInv v s' := by
  obtain ⟨l, hnd, hl, hlost⟩ := h.no_lost_wakeup
  have hmod : (s.sema.value + 1) % wordSize = s.sema.value + 1 := Nat.mod_eq_of_lt hwrap
  have hbal := h.balance
  have harr := h.arrivals
  simp only [SemaState.step, semaUp, hmod] at hs
  cases hw : s.sema.waiters with
  | nil =>
    simp only [hw, head?_nil, tail_nil, Outcome.next.injEq] at hs
    subst hs
    refine ⟨?_, ?_, List.Pairwise.nil, by simp, l, hnd, hl, fun hne => absurd rfl hne⟩
    · dsimp only
      omega
    · intro t
      rw [← h.mem_waiters t, hw]
  | cons w ws =>
    simp only [hw, head?_cons, tail_cons] at hs
    have hwb : s.phase w = .blocked := (h.mem_waiters w).mp (by simp [hw])
    rw [if_pos hwb, Outcome.next.injEq] at hs
    subst hs
    rw [hw] at harr
    have hwws : w ∉ ws := fun hm => absurd (rel_of_pairwise_cons harr hm) (lt_irrefl _)
    refine ⟨?_, ?_, harr.of_cons, ?_, w :: l, ?_, ?_, ?_⟩
    · dsimp only
      omega
    · intro t
      by_cases ht : t = w
      · simp [ht, hwws]
      · have := h.mem_waiters t
        simp only [hw, mem_cons, ht, false_or] at this
        simp [ht, this]
    · intro t ht
      exact h.arrival_lt t (by simp [hw, ht])
    · rw [nodup_cons]
      refine ⟨fun hm => ?_, hnd⟩
      have := (hl w).mp hm
      rw [hwb] at this
      cases this
    · intro t
      by_cases ht : t = w
      · simp [ht]
      · simp [ht, hl t]
    · intro _
      have := hlost (by simp [hw])
      simp only [length_cons]
      omega

theorem SemaInv.step {s' : SemaState τ} {i : SemaLabel τ} (h : SemaInv v s)
    (hok : NoWrap s i) (hs : s.step i = .next s') : SemaInv v s' := by
  cases i with
  | down t =>
    simp only [SemaState.step] at hs
    split at hs
    · next ht =>
      cases hs
      exact h.pass (by simp [ht])
    · cases hs
  | resume t =>
    simp only [SemaState.step] at hs
    split at hs
    · next ht =>
      cases hs
      exact h.pass (by simp [ht])
    · cases hs
  | tryDown =>
    by_cases hpos : s.sema.value > 0
    · simp only [SemaState.step, semaTryDown, if_pos hpos, Outcome.next.injEq] at hs
      subst hs
      exact h.tryDown hpos
    · simp only [SemaState.step, semaTryDown, if_neg hpos, Outcome.next.injEq] at hs
      subst hs
      exact h
  | up => exact h.up (hok rfl) hs

theorem semaInv_of_reachable (h : (semaMachine τ v).ReachableUnder NoWrap s) : SemaInv v s :=
  h.invariant (semaInv_start v) fun _ _ _ _ hi hok hs => hi.step hok hs

theorem SemaInv.not_fault (h : SemaInv v s) (i : SemaLabel τ)
    (e : ThreadFault) : s.step i ≠ .fault e := by
  intro hs
  cases i with
  | down t =>
    simp only [SemaState.step] at hs
    split at hs <;> cases hs
  | resume t =>
    simp only [SemaState.step] at hs
    split at hs <;> cases hs
  | tryDown =>
    simp only [SemaState.step] at hs
    split at hs <;> cases hs
  | up =>
    simp only [SemaState.step, semaUp] at hs
    cases hw : s.sema.waiters with
    | nil => simp [hw] at hs
    | cons w ws =>
      have hwb : s.phase w = .blocked := (h.mem_waiters w).mp (by simp [hw])
      simp [hw, hwb] at hs

/-! ### Correctness -/

/-- **Semaphore correctness over all interleavings.** -/
theorem semaphore_correct (v : ℕ) (s : SemaState τ)
    (h : (semaMachine τ v).ReachableUnder NoWrap s) :
    s.sema.value + s.downs = v + s.ups ∧
    s.sema.waiters.Nodup ∧
    (∀ t, t ∈ s.sema.waiters ↔ s.phase t = .blocked) ∧
    (s.sema.waiters.Pairwise fun a b => s.arrival a < s.arrival b) ∧
    (s.sema.waiters ≠ [] → s.sema.value ≤ {t | s.phase t = .woken}.ncard) ∧
    ∀ i e, (semaMachine τ v).step s i ≠ .fault e := by
  have hi := semaInv_of_reachable h
  obtain ⟨l, hnd, hl, hlost⟩ := hi.no_lost_wakeup
  have hcard : {t | s.phase t = .woken}.ncard = l.length := by
    have hset : {t | s.phase t = .woken} = (l.toFinset : Set τ) := by
      ext t
      simp [hl t]
    rw [hset, Set.ncard_coe_finset, toFinset_card_of_nodup hnd]
  refine ⟨hi.balance, ?_, hi.mem_waiters, hi.arrivals, ?_, hi.not_fault⟩
  · exact hi.arrivals.imp fun hab heq => absurd (heq ▸ hab) (lt_irrefl _)
  · intro hw
    rw [hcard]
    exact hlost hw

def stolenUnit : List (SemaLabel ℕ) :=
  [.down 0, .down 1, .up, .tryDown, .resume 0]

/-- A thread that was woken finds no unit, and waits again. -/
theorem semaphore_correct_stolenUnit :
    ∃ s : SemaState ℕ,
      (semaMachine ℕ 0).run (semaMachine ℕ 0).start stolenUnit = .next s ∧
      s.sema.waiters = [1, 0] ∧ s.sema.waiters.Nodup := by
  refine ⟨_, rfl, rfl, ?_⟩
  have hok : (semaMachine ℕ 0).GuardedRun NoWrap (semaMachine ℕ 0).start stolenUnit := by decide
  exact (semaphore_correct 0 _ (Machine.ReachableUnder.start.of_run hok rfl)).2.1

end Machine

end OsMaterial
