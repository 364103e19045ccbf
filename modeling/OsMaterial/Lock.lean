import OsMaterial.Semaphore

/-!
# Locks: Mutual Exclusion with Two-Step Acquire and Release

The locks of `threads/synch.c`, for any number of threads and locks. A lock is a semaphore with a
`holder` that is written outside its atomic sections; `LockPc` names these gaps, and every step is
one atomic piece of one call. The ledger `inside` records which thread is in the critical section of
which lock.

* `lock_mutual_exclusion`: at most one thread is inside, and no assertion fails.
-/

namespace OsMaterial

open List
open Function (update update_apply)

structure Lock (τ : Type*) where
  holder : Option τ
  semaphore : Semaphore τ
  deriving DecidableEq

def lockInit {τ : Type*} : Lock τ :=
  { holder := none, semaphore := semaInit 1 }

def lockHeldByCurrentThread {τ : Type*} [DecidableEq τ] (lock : Lock τ) (cur : τ) : Bool :=
  lock.holder = some cur

inductive LockPc (κ : Type*) where
  | running
  | downing (l : κ)
  | blocked (l : κ)
  | acquired (l : κ)
  | trying (l : κ)
  | tryAcquired (l : κ)
  | releasing (l : κ)
  | cleared (l : κ)
  deriving DecidableEq

def LockPc.outsideOf {κ : Type*} : LockPc κ → Option κ
  | downing l | blocked l | acquired l | trying l | tryAcquired l | cleared l => some l
  | running | releasing _ => none

def LockPc.gapOf {κ : Type*} : LockPc κ → Option κ
  | acquired l | tryAcquired l | cleared l => some l
  | running | downing _ | blocked _ | trying _ | releasing _ => none

inductive LockCall (κ : Type*) where
  | acquire (l : κ)
  | tryAcquire (l : κ)
  | release (l : κ)
  deriving DecidableEq

inductive LockLabel (τ κ : Type*) where
  | call (t : τ) (c : LockCall κ)
  | exec (t : τ)
  deriving DecidableEq

structure LockState (τ κ : Type*) where
  lock : κ → Lock τ
  pc : τ → LockPc κ
  inside : κ → τ → Bool

namespace LockState

variable {τ κ : Type*} [DecidableEq τ] [DecidableEq κ]

def goto (s : LockState τ κ) (t : τ) (p : LockPc κ) : LockState τ κ :=
  { s with pc := update s.pc t p }

def setSemaphore (s : LockState τ κ) (l : κ) (sema : Semaphore τ) : LockState τ κ :=
  { s with lock := update s.lock l { s.lock l with semaphore := sema } }

/-- Assign the holder of lock `l`; thread `t` is in its critical section from now on iff
it is the new holder. -/
def setHolder (s : LockState τ κ) (l : κ) (t : τ) (holder : Option τ) : LockState τ κ :=
  { s with
    lock := update s.lock l { s.lock l with holder }
    inside := update s.inside l (update (s.inside l) t (holder = some t)) }

def call (s : LockState τ κ) (t : τ) : LockCall κ → Outcome ThreadFault (LockState τ κ)
  | .acquire l =>
    if lockHeldByCurrentThread (s.lock l) t then .fault .alreadyHeld
    else .next (s.goto t (.downing l))
  | .tryAcquire l =>
    if lockHeldByCurrentThread (s.lock l) t then .fault .alreadyHeld
    else .next (s.goto t (.trying l))
  | .release l =>
    if lockHeldByCurrentThread (s.lock l) t then .next (s.goto t (.releasing l))
    else .fault .notHeld

def exec (s : LockState τ κ) (t : τ) : Outcome ThreadFault (LockState τ κ) :=
  match s.pc t with
  | .running => .blocked
  | .blocked _ => .blocked
  | .downing l =>
    match semaDown (s.lock l).semaphore t with
    | (sema, true) => .next ((s.setSemaphore l sema).goto t (.acquired l))
    | (sema, false) => .next ((s.setSemaphore l sema).goto t (.blocked l))
  | .trying l =>
    match semaTryDown (s.lock l).semaphore with
    | (sema, true) => .next ((s.setSemaphore l sema).goto t (.tryAcquired l))
    | (_, false) => .next (s.goto t .running)
  | .acquired l => .next ((s.setHolder l t (some t)).goto t .running)
  | .tryAcquired l => .next ((s.setHolder l t (some t)).goto t .running)
  | .releasing l => .next ((s.setHolder l t none).goto t (.cleared l))
  | .cleared l =>
    match semaUp (s.lock l).semaphore with
    | (sema, none) => .next ((s.setSemaphore l sema).goto t .running)
    | (sema, some w) =>
      -- `thread_unblock` asserts that the popped thread is blocked
      if s.pc w = .blocked l then
        .next (((s.setSemaphore l sema).goto w (.downing l)).goto t .running)
      else
        .fault .notBlocked

def step (s : LockState τ κ) : LockLabel τ κ → Outcome ThreadFault (LockState τ κ)
  | .call t c => if s.pc t = .running then s.call t c else .blocked
  | .exec t => s.exec t

/-- No thread takes a lock it has, or releases one it has not. -/
def Disciplined (s : LockState τ κ) : LockLabel τ κ → Prop
  | .call t (.acquire l) => ¬ s.inside l t
  | .call t (.tryAcquire l) => ¬ s.inside l t
  | .call t (.release l) => s.inside l t
  | .exec _ => True

/-- Thread `t` is in one of the gaps in which the semaphore of `l` is taken and `t` is
not inside. -/
def InGap (s : LockState τ κ) (l : κ) (t : τ) : Prop :=
  s.pc t = .acquired l ∨ s.pc t = .tryAcquired l ∨ s.pc t = .cleared l

/-- Thread `t` owns the one unit of the semaphore of `l`: it is inside or in a gap. -/
def Owns (s : LockState τ κ) (l : κ) (t : τ) : Prop :=
  s.inside l t ∨ s.InGap l t

omit [DecidableEq τ] [DecidableEq κ] in
theorem owns_iff {s : LockState τ κ} {l : κ} {t : τ} :
    s.Owns l t ↔ s.inside l t ∨ (s.pc t).gapOf = some l := by
  rw [Owns, InGap]
  cases s.pc t <;> simp [LockPc.gapOf]

omit [DecidableEq τ] [DecidableEq κ] in
theorem outsideOf_iff {s : LockState τ κ} {l : κ} {t : τ} :
    s.pc t = .downing l ∨ s.pc t = .blocked l ∨ s.pc t = .trying l ∨ s.InGap l t ↔
      (s.pc t).outsideOf = some l := by
  rw [InGap]
  cases s.pc t <;> simp [LockPc.outsideOf]

/-! ### What each update leaves alone -/

section Fields

variable (s : LockState τ κ) (l l' : κ) (t u : τ)

omit [DecidableEq κ] in
@[simp] theorem goto_lock (p : LockPc κ) : (s.goto t p).lock = s.lock := rfl

omit [DecidableEq κ] in
@[simp] theorem goto_inside (p : LockPc κ) : (s.goto t p).inside = s.inside := rfl

omit [DecidableEq κ] in
@[simp] theorem goto_pc (p : LockPc κ) : (s.goto t p).pc u = if u = t then p else s.pc u :=
  update_apply ..

omit [DecidableEq τ] in
@[simp] theorem setSemaphore_pc (sema : Semaphore τ) : (s.setSemaphore l sema).pc = s.pc := rfl

omit [DecidableEq τ] in
@[simp] theorem setSemaphore_inside (sema : Semaphore τ) :
    (s.setSemaphore l sema).inside = s.inside := rfl

omit [DecidableEq τ] in
@[simp] theorem setSemaphore_holder (sema : Semaphore τ) :
    ((s.setSemaphore l sema).lock l').holder = (s.lock l').holder := by
  by_cases h : l' = l <;> simp [setSemaphore, h]

omit [DecidableEq τ] in
@[simp] theorem setSemaphore_semaphore (sema : Semaphore τ) :
    ((s.setSemaphore l sema).lock l').semaphore =
      if l' = l then sema else (s.lock l').semaphore := by
  by_cases h : l' = l <;> simp [setSemaphore, h]

@[simp] theorem setHolder_pc (holder : Option τ) : (s.setHolder l t holder).pc = s.pc := rfl

@[simp] theorem setHolder_semaphore (holder : Option τ) :
    ((s.setHolder l t holder).lock l').semaphore = (s.lock l').semaphore := by
  by_cases h : l' = l <;> simp [setHolder, h]

@[simp] theorem setHolder_holder (holder : Option τ) :
    ((s.setHolder l t holder).lock l').holder =
      if l' = l then holder else (s.lock l').holder := by
  by_cases h : l' = l <;> simp [setHolder, h]

@[simp] theorem setHolder_inside (holder : Option τ) :
    (s.setHolder l t holder).inside l' u =
      if l' = l ∧ u = t then decide (holder = some t) else s.inside l' u := by
  by_cases h : l' = l
  · subst h
    simp [setHolder, update_apply]
  · simp [setHolder, h]

end Fields

/-! ### What the next piece of a call does -/

section Exec

/-- The thread waits in the queue of the lock's semaphore. -/
abbrev enqueue (s : LockState τ κ) (l : κ) (t : τ) : LockState τ κ :=
  (s.setSemaphore l { (s.lock l).semaphore with
    waiters := (s.lock l).semaphore.waiters ++ [t] }).goto t (.blocked l)

/-- The releasing thread `t` gives the unit back and wakes `w`. -/
abbrev wake (s : LockState τ κ) (l : κ) (w t : τ) : LockState τ κ :=
  ((s.setSemaphore l (semaUp (s.lock l).semaphore).1).goto w (.downing l)).goto t .running

variable {s : LockState τ κ} {l : κ} {t : τ}

theorem exec_downing_of_zero (hpc : s.pc t = .downing l) (hv : (s.lock l).semaphore.value = 0) :
    s.exec t = .next (s.enqueue l t) := by
  simp only [exec, hpc, semaDown_of_zero hv]

theorem exec_downing_of_pos (hpc : s.pc t = .downing l) (hv : 0 < (s.lock l).semaphore.value) :
    s.exec t = .next ((s.setSemaphore l { (s.lock l).semaphore with
      value := (s.lock l).semaphore.value - 1 }).goto t (.acquired l)) := by
  simp only [exec, hpc, semaDown_of_pos hv]

theorem exec_trying_of_zero (hpc : s.pc t = .trying l)
    (hv : ¬ (s.lock l).semaphore.value > 0) : s.exec t = .next (s.goto t .running) := by
  simp only [exec, hpc, semaTryDown, if_neg hv]

theorem exec_trying_of_pos (hpc : s.pc t = .trying l) (hv : (s.lock l).semaphore.value > 0) :
    s.exec t = .next ((s.setSemaphore l { (s.lock l).semaphore with
      value := (s.lock l).semaphore.value - 1 }).goto t (.tryAcquired l)) := by
  simp only [exec, hpc, semaTryDown, if_pos hv]

theorem exec_acquired (hpc : s.pc t = .acquired l) :
    s.exec t = .next ((s.setHolder l t (some t)).goto t .running) := by
  simp only [exec, hpc]

theorem exec_tryAcquired (hpc : s.pc t = .tryAcquired l) :
    s.exec t = .next ((s.setHolder l t (some t)).goto t .running) := by
  simp only [exec, hpc]

theorem exec_releasing (hpc : s.pc t = .releasing l) :
    s.exec t = .next ((s.setHolder l t none).goto t (.cleared l)) := by
  simp only [exec, hpc]

theorem exec_cleared_of_nil (hpc : s.pc t = .cleared l) (hw : (s.lock l).semaphore.waiters = []) :
    s.exec t = .next ((s.setSemaphore l (semaUp (s.lock l).semaphore).1).goto t .running) := by
  simp only [exec, hpc, semaUp, hw, head?_nil]

theorem exec_cleared_of_cons (hpc : s.pc t = .cleared l) {w : τ} {ws : List τ}
    (hw : (s.lock l).semaphore.waiters = w :: ws) (hwb : s.pc w = .blocked l) :
    s.exec t = .next (s.wake l w t) := by
  simp only [exec, hpc, wake, semaUp, hw, head?_cons, hwb, if_true]

omit [DecidableEq κ] in
theorem call_frame {s' : LockState τ κ} {c : LockCall κ} (hs : s.call t c = .next s') :
    s'.inside = s.inside ∧ ∀ u, u ≠ t → s'.pc u = s.pc u := by
  cases c with
  | acquire l | tryAcquire l | release l =>
    simp only [call] at hs
    split at hs
    all_goals cases hs
    all_goals exact ⟨rfl, fun u hu => by simp [hu]⟩

theorem exec_frame {s' : LockState τ κ} (hs : s.exec t = .next s') {u : τ} (hu : u ≠ t) :
    (∀ l, s'.inside l u = s.inside l u) ∧
    (s'.pc u = s.pc u ∨ ∃ l, s.pc u = .blocked l ∧ s'.pc u = .downing l) := by
  cases hpc : s.pc t with
  | running | blocked l =>
    simp only [exec, hpc] at hs
    cases hs
  | downing l =>
    by_cases hv : (s.lock l).semaphore.value = 0
    · rw [exec_downing_of_zero hpc hv] at hs
      cases hs
      exact ⟨fun _ => rfl, .inl (by simp [hu])⟩
    · rw [exec_downing_of_pos hpc (Nat.pos_of_ne_zero hv)] at hs
      cases hs
      exact ⟨fun _ => rfl, .inl (by simp [hu])⟩
  | trying l =>
    by_cases hv : (s.lock l).semaphore.value > 0
    · rw [exec_trying_of_pos hpc hv] at hs
      cases hs
      exact ⟨fun _ => rfl, .inl (by simp [hu])⟩
    · rw [exec_trying_of_zero hpc hv] at hs
      cases hs
      exact ⟨fun _ => rfl, .inl (by simp [hu])⟩
  | acquired l =>
    rw [exec_acquired hpc] at hs
    cases hs
    exact ⟨fun _ => by simp [hu], .inl (by simp [hu])⟩
  | tryAcquired l =>
    rw [exec_tryAcquired hpc] at hs
    cases hs
    exact ⟨fun _ => by simp [hu], .inl (by simp [hu])⟩
  | releasing l =>
    rw [exec_releasing hpc] at hs
    cases hs
    exact ⟨fun _ => by simp [hu], .inl (by simp [hu])⟩
  | cleared l =>
    simp only [exec, hpc] at hs
    split at hs
    · cases hs
      exact ⟨fun _ => rfl, .inl (by simp [hu])⟩
    · next sema w _ =>
      -- the thread at the front of the queue is woken
      split at hs
      · next hw =>
        cases hs
        refine ⟨fun _ => rfl, ?_⟩
        by_cases huw : u = w
        · subst huw
          exact .inr ⟨l, hw, by simp [hu]⟩
        · exact .inl (by simp [hu, huw])
      · cases hs

end Exec

/-- What a step of `t` leaves the other threads: at most it wakes one of them. -/
def OthersKept (s : LockState τ Unit) (t : τ) (s' : LockState τ Unit) : Prop :=
  ∀ u, u ≠ t → s'.inside () u = s.inside () u ∧
    (s'.pc u = s.pc u ∨ s.pc u = .blocked () ∧ s'.pc u = .downing ())

theorem exec_other {s s' : LockState τ Unit} {t : τ} (hs : s.exec t = .next s') :
    s.OthersKept t s' := by
  intro u hu
  obtain ⟨hin, hpc⟩ := exec_frame hs hu
  refine ⟨hin (), hpc.imp_right ?_⟩
  rintro ⟨⟨⟩, hwoken⟩
  exact hwoken

end LockState

def lockMachine (τ κ : Type*) [DecidableEq τ] [DecidableEq κ] :
    Machine (LockState τ κ) (LockLabel τ κ) ThreadFault where
  start :=
    { lock := fun _ => lockInit, pc := fun _ => .running, inside := fun _ _ => false }
  step := LockState.step

/-! ### The one unit of a lock's semaphore -/

section OwnedUnit

variable {τ : Type*} {owns : τ → Prop} {value : ℕ}

/-- A **unit with at most one owner**: the value is zero while somebody owns the unit and
one while nobody does. -/
structure OwnedUnit (owns : τ → Prop) (value : ℕ) : Prop where
  unique : ∀ t u, owns t → owns u → t = u
  owned : ∀ t, owns t → value = 0
  free : (∀ t, ¬ owns t) → value = 1

section

variable (h : OwnedUnit owns value)

include h

theorem OwnedUnit.not_owns (hpos : 0 < value) (t : τ) : ¬ owns t := by
  intro ht
  have := h.owned t ht
  omega

theorem OwnedUnit.value_eq_one_iff : value = 1 ↔ ∀ t, ¬ owns t :=
  ⟨fun hv => h.not_owns (by omega), h.free⟩

theorem OwnedUnit.value_eq_zero_iff : value = 0 ↔ ∃ t, owns t := by
  constructor
  · intro hv
    by_contra hne
    have := h.free (not_exists.mp hne)
    omega
  · rintro ⟨t, ht⟩
    exact h.owned t ht

theorem OwnedUnit.take (hpos : 0 < value) (t : τ) :
    OwnedUnit (fun u => owns u ∨ u = t) (value - 1) := by
  have hno := h.not_owns hpos
  refine ⟨?_, ?_, ?_⟩
  · intro u v hu hv
    rw [hu.resolve_left (hno u), hv.resolve_left (hno v)]
  · intro _ _
    have := h.free hno
    omega
  · intro hu
    exact absurd (Or.inr rfl) (hu t)

theorem OwnedUnit.give {t : τ} (ht : owns t) :
    OwnedUnit (fun u => owns u ∧ u ≠ t) ((value + 1) % wordSize) := by
  have hno : ∀ u, ¬ (owns u ∧ u ≠ t) := fun u ⟨hu, hne⟩ => hne (h.unique u t hu ht)
  refine ⟨fun u _ hu => absurd hu (hno u), fun u hu => absurd hu (hno u), fun _ => ?_⟩
  rw [h.owned t ht]
  rfl

theorem OwnedUnit.congr {owns' : τ → Prop} (hiff : ∀ t, owns' t ↔ owns t) :
    OwnedUnit owns' value := by
  have : owns' = owns := funext fun t => propext (hiff t)
  exact this ▸ h

end

end OwnedUnit

/-! ### The invariant -/

open LockState

section Invariant

variable {τ κ : Type*} [DecidableEq τ] [DecidableEq κ]

/-- The **window invariant**: each semaphore's unit has at most one owner, and `holder`,
the queue and the places of the threads agree with the critical sections. -/
structure LockInv (s : LockState τ κ) : Prop where
  unit : ∀ l, OwnedUnit (s.Owns l) (s.lock l).semaphore.value
  holder_iff : ∀ l t, (s.lock l).holder = some t ↔ s.inside l t
  mem_waiters : ∀ l t, t ∈ (s.lock l).semaphore.waiters ↔ s.pc t = .blocked l
  nodup : ∀ l, (s.lock l).semaphore.waiters.Nodup
  releasing_inside : ∀ l t, s.pc t = .releasing l → s.inside l t
  outside : ∀ l t, s.pc t = .downing l ∨ s.pc t = .blocked l ∨ s.pc t = .trying l ∨
    s.InGap l t → ¬ s.inside l t

theorem lockInv_start : LockInv (lockMachine τ κ).start where
  unit l := by
    have hno : ∀ t, ¬ (lockMachine τ κ).start.Owns l t := by
      intro t
      simp [lockMachine, Owns, InGap]
    exact ⟨fun t _ ht => absurd ht (hno t), fun t ht => absurd ht (hno t), fun _ => rfl⟩
  holder_iff l t := by simp [lockMachine, lockInit]
  mem_waiters l t := by simp [lockMachine, lockInit, semaInit]
  nodup l := nodup_nil
  releasing_inside l t h := by simp [lockMachine] at h
  outside l t _ := by simp [lockMachine]

/-- A thread is **settled** when it is inside the lock that it is about to release, and outside the
lock that it acquires or has just left. -/
structure LockState.Settled (s : LockState τ κ) (t : τ) : Prop where
  inside_of_releasing : ∀ l, s.pc t = .releasing l → s.inside l t
  not_inside : ∀ l, (s.pc t).outsideOf = some l → ¬ s.inside l t

structure LockState.SameAt (s s' : LockState τ κ) (u : τ) : Prop where
  pc_eq : s'.pc u = s.pc u
  inside_eq : ∀ l, s'.inside l u = s.inside l u

namespace LockInv

variable {s s' : LockState τ κ} {l : κ} {t u : τ} {p : LockPc κ}

section Moved

omit [DecidableEq τ] [DecidableEq κ]

theorem owns_congr (hsame : s.SameAt s' u) (l : κ) : s'.Owns l u ↔ s.Owns l u := by
  rw [owns_iff, owns_iff, hsame.pc_eq, hsame.inside_eq]

theorem settled (h : LockInv s) (t : τ) : s.Settled t :=
  ⟨fun l => h.releasing_inside l t, fun l hl => h.outside l t (outsideOf_iff.mpr hl)⟩

theorem not_inside (h : LockInv s) (hpc : s.pc t = p) (hp : p.outsideOf = some l) :
    ¬ s.inside l t :=
  (h.settled t).not_inside l (hpc ▸ hp)

theorem settled_congr (h : LockInv s) (hsame : s.SameAt s' u) : s'.Settled u := by
  refine ⟨fun l hl => ?_, fun l hl => ?_⟩
  · rw [hsame.inside_eq]
    exact (h.settled u).inside_of_releasing l (hsame.pc_eq ▸ hl)
  · rw [hsame.inside_eq]
    exact (h.settled u).not_inside l (hsame.pc_eq ▸ hl)

theorem settled_running (hpc : s.pc t = .running) : s.Settled t := by
  refine ⟨fun l hl => ?_, fun l hl => ?_⟩
  · rw [hpc] at hl
    cases hl
  · rw [hpc] at hl
    cases hl

theorem settled_outside (hpc : s.pc t = p) (hp : p.outsideOf = some l) (hin : ¬ s.inside l t) :
    s.Settled t := by
  subst hpc
  refine ⟨fun l' hl => ?_, fun l' hl => ?_⟩
  · rw [hl] at hp
    cases hp
  · rw [hp] at hl
    exact Option.some.inj hl ▸ hin

theorem of_settled (h : LockInv s) (hthreads : ∀ u, s.SameAt s' u ∨ s'.Settled u)
    (hunit : ∀ l, OwnedUnit (s'.Owns l) (s'.lock l).semaphore.value)
    (hholder : ∀ l u, (s'.lock l).holder = some u ↔ s'.inside l u)
    (hmem : ∀ l u, u ∈ (s'.lock l).semaphore.waiters ↔ s'.pc u = .blocked l)
    (hnodup : ∀ l, (s'.lock l).semaphore.waiters.Nodup) : LockInv s' := by
  have hall : ∀ u, s'.Settled u := fun u => (hthreads u).elim h.settled_congr id
  exact ⟨hunit, hholder, hmem, hnodup, fun l u => (hall u).inside_of_releasing l,
    fun l u hl => (hall u).not_inside l (outsideOf_iff.mp hl)⟩

theorem moved (h : LockInv s) (hsame : ∀ u, u ≠ t → s.SameAt s' u)
    (hqueues : ∀ l, (s'.lock l).semaphore.waiters = (s.lock l).semaphore.waiters)
    (hold : ∀ l, s.pc t ≠ .blocked l) (hnew : ∀ l, s'.pc t ≠ .blocked l) (ht : s'.Settled t)
    (hholder : ∀ l u, (s'.lock l).holder = some u ↔ s'.inside l u)
    (hunit : ∀ l, OwnedUnit (s'.Owns l) (s'.lock l).semaphore.value) : LockInv s' := by
  refine h.of_settled (fun u => ?_) hunit hholder (fun l u => ?_) fun l => ?_
  · by_cases hu : u = t
    · exact .inr (hu ▸ ht)
    · exact .inl (hsame u hu)
  · rw [hqueues, h.mem_waiters]
    by_cases hu : u = t
    · subst hu
      exact iff_of_false (hold l) (hnew l)
    · rw [(hsame u hu).pc_eq]
  · rw [hqueues]
    exact h.nodup l

theorem unit_moved (h : LockInv s) (hsame : ∀ u, u ≠ t → s.SameAt s' u)
    (ht : s'.Owns l t ↔ s.Owns l t) : OwnedUnit (s'.Owns l) (s.lock l).semaphore.value := by
  refine (h.unit l).congr fun u => ?_
  by_cases hu : u = t
  · exact hu ▸ ht
  · exact owns_congr (hsame u hu) l

end Moved

omit [DecidableEq κ] in
theorem sameAt_goto (s : LockState τ κ) (p : LockPc κ) (hu : u ≠ t) : s.SameAt (s.goto t p) u :=
  ⟨by rw [goto_pc, if_neg hu], fun _ => rfl⟩

theorem sameAt_setSemaphore (s : LockState τ κ) (l : κ) (sema : Semaphore τ) (p : LockPc κ)
    (hu : u ≠ t) : s.SameAt ((s.setSemaphore l sema).goto t p) u :=
  ⟨by rw [goto_pc, if_neg hu, setSemaphore_pc], fun _ => rfl⟩

theorem sameAt_setHolder (s : LockState τ κ) (l : κ) (holder : Option τ) (p : LockPc κ)
    (hu : u ≠ t) : s.SameAt ((s.setHolder l t holder).goto t p) u := by
  refine ⟨by rw [goto_pc, if_neg hu, setHolder_pc], fun l' => ?_⟩
  rw [goto_inside, setHolder_inside, if_neg fun heq => hu heq.2]

omit [DecidableEq κ] in
theorem goto_pc_self (s : LockState τ κ) (t : τ) (p : LockPc κ) : (s.goto t p).pc t = p := by
  rw [goto_pc, if_pos rfl]

section

variable (h : LockInv s)

include h

omit [DecidableEq κ] in
theorem goto (hold : s.pc t = .running ∨ ∃ l, s.pc t = .trying l)
    (hnew : p = .running ∨ ∃ l, p = .downing l ∧ ¬ s.inside l t ∨ p = .trying l ∧ ¬ s.inside l t ∨
      p = .releasing l ∧ s.inside l t) : LockInv (s.goto t p) := by
  have hpc := goto_pc_self s t p
  have hfree : ∀ l, s.pc t ≠ .blocked l ∧ (s.pc t).gapOf ≠ some l := by
    intro l
    rcases hold with hold | ⟨l', hold⟩ <;> simp [hold, LockPc.gapOf]
  have hfree' : ∀ l, p ≠ .blocked l ∧ p.gapOf ≠ some l := by
    intro l
    rcases hnew with rfl | ⟨l', ⟨rfl, -⟩ | ⟨rfl, -⟩ | ⟨rfl, -⟩⟩ <;> simp [LockPc.gapOf]
  have hsettled : (s.goto t p).Settled t := by
    rcases hnew with rfl | ⟨l, ⟨rfl, hin⟩ | ⟨rfl, hin⟩ | ⟨rfl, hin⟩⟩
    · exact settled_running hpc
    · exact settled_outside hpc rfl hin
    · exact settled_outside hpc rfl hin
    · refine ⟨fun l' hl => ?_, fun l' hl => ?_⟩
      · rw [hpc] at hl
        exact LockPc.releasing.inj hl ▸ hin
      · rw [hpc] at hl
        cases hl
  refine h.moved (fun u => sameAt_goto s p) (fun _ => rfl) (fun l => (hfree l).1)
    (fun l => hpc.trans_ne (hfree' l).1) hsettled h.holder_iff fun l => ?_
  refine h.unit_moved (fun u => sameAt_goto s p) ?_
  rw [owns_iff, owns_iff, hpc, or_iff_left (hfree l).2, or_iff_left (hfree' l).2]
  rfl

theorem takeUnit (hpc : s.pc t = .downing l ∨ s.pc t = .trying l)
    (hp : p = .acquired l ∨ p = .tryAcquired l) (hpos : 0 < (s.lock l).semaphore.value) :
    LockInv ((s.setSemaphore l
      { (s.lock l).semaphore with value := (s.lock l).semaphore.value - 1 }).goto t p) := by
  have hold : (∀ l', s.pc t ≠ .blocked l') ∧ (s.pc t).gapOf = none ∧
      (s.pc t).outsideOf = some l := by
    rcases hpc with hpc | hpc <;> simp [hpc, LockPc.gapOf, LockPc.outsideOf]
  have hnew : (∀ l', p ≠ .blocked l') ∧ p.gapOf = some l ∧ p.outsideOf = some l := by
    rcases hp with rfl | rfl <;> simp [LockPc.gapOf, LockPc.outsideOf]
  have hgoto := goto_pc_self (s.setSemaphore l { (s.lock l).semaphore with
    value := (s.lock l).semaphore.value - 1 }) t p
  have hsame := fun u (hu : u ≠ t) => sameAt_setSemaphore s l { (s.lock l).semaphore with
    value := (s.lock l).semaphore.value - 1 } p hu
  refine h.moved hsame (fun l' => ?_) hold.1 (fun l' => hgoto.trans_ne (hnew.1 l'))
    (settled_outside hgoto hnew.2.2 (h.not_inside rfl hold.2.2)) (by simpa using h.holder_iff)
    fun l' => ?_
  · by_cases hl : l' = l
    · simp [hl]
    · simp [hl]
  · rw [goto_lock, setSemaphore_semaphore]
    by_cases hl : l' = l
    · subst hl
      rw [if_pos rfl]
      refine ((h.unit l').take hpos t).congr fun u => ?_
      by_cases hu : u = t
      · subst hu
        have hgap : Owns _ l' u := owns_iff.mpr (.inr ((congrArg _ hgoto).trans hnew.2.1))
        exact iff_of_true hgap (.inr rfl)
      · rw [owns_congr (hsame u hu), or_iff_left hu]
    · rw [if_neg hl]
      refine h.unit_moved hsame ?_
      rw [owns_iff, owns_iff, hgoto, hold.2.1, hnew.2.1]
      simp [Ne.symm hl]

theorem block (hpc : s.pc t = .downing l) : LockInv (s.enqueue l t) := by
  have hfree : ∀ l', t ∉ (s.lock l').semaphore.waiters := by
    intro l'
    rw [h.mem_waiters, hpc]
    simp
  have hgoto : (s.enqueue l t).pc t = .blocked l := goto_pc_self ..
  have hsame : ∀ u, u ≠ t → s.SameAt (s.enqueue l t) u :=
    fun u hu => sameAt_setSemaphore s l _ (.blocked l) hu
  refine h.of_settled (fun u => ?_) (fun l' => ?_) (by simpa using h.holder_iff) (fun l' u => ?_)
    fun l' => ?_
  · by_cases hu : u = t
    · subst hu
      exact .inr (settled_outside hgoto rfl (h.not_inside hpc rfl))
    · exact .inl (hsame u hu)
  · have hvalue : ((s.enqueue l t).lock l').semaphore.value = (s.lock l').semaphore.value := by
      by_cases hl : l' = l
      · simp [hl]
      · simp [hl]
    rw [hvalue]
    refine h.unit_moved hsame ?_
    rw [owns_iff, owns_iff, hgoto, hpc]
    rfl
  · by_cases hu : u = t
    · subst hu
      by_cases hl : l' = l
      · simp [hl]
      · simp [hl, hfree l', Ne.symm hl]
    · rw [(hsame u hu).pc_eq, ← h.mem_waiters]
      by_cases hl : l' = l
      · simp [hl, hu]
      · simp [hl]
  · by_cases hl : l' = l
    · subst hl
      simpa using (nodup_append.mpr
        ⟨h.nodup l', nodup_singleton t, fun a ha b hb hab => by
          rw [mem_singleton] at hb
          exact hfree l' (hb ▸ hab ▸ ha)⟩)
    · simpa [hl] using h.nodup l'

omit [DecidableEq τ] [DecidableEq κ] in
theorem not_inside_of_owns (hown : s.Owns l t) (hu : u ≠ t) : ¬ s.inside l u :=
  fun hin => hu ((h.unit l).unique u t (.inl hin) hown)

theorem enter (hpc : s.pc t = .acquired l ∨ s.pc t = .tryAcquired l) :
    LockInv ((s.setHolder l t (some t)).goto t .running) := by
  have hold : (∀ l', s.pc t ≠ .blocked l') ∧ (s.pc t).gapOf = some l := by
    rcases hpc with hpc | hpc <;> simp [hpc, LockPc.gapOf]
  have hown : s.Owns l t := owns_iff.mpr (.inr hold.2)
  have hgoto := goto_pc_self (s.setHolder l t (some t)) t .running
  have hsame := fun u (hu : u ≠ t) => sameAt_setHolder s l (some t) .running hu
  refine h.moved hsame (fun l' => by simp) hold.1 (fun l' => by simp)
    (settled_running hgoto) (fun l' u => ?_) fun l' => ?_
  · by_cases hl : l' = l
    · subst hl
      by_cases hu : u = t
      · simp [hu]
      · simp [hu, Ne.symm hu, h.not_inside_of_owns hown hu]
    · simp [hl, h.holder_iff]
  · rw [goto_lock, setHolder_semaphore]
    refine h.unit_moved hsame ?_
    rw [owns_iff, owns_iff, hgoto, hold.2]
    by_cases hl : l' = l
    · simp [hl]
    · simp [hl, Ne.symm hl, LockPc.gapOf]

theorem leave (hpc : s.pc t = .releasing l) :
    LockInv ((s.setHolder l t none).goto t (.cleared l)) := by
  have hin : s.inside l t := h.releasing_inside l t hpc
  have hgoto := goto_pc_self (s.setHolder l t none) t (.cleared l)
  have hsame := fun u (hu : u ≠ t) => sameAt_setHolder s l none (.cleared l) hu
  refine h.moved hsame (fun l' => by simp) (fun l' => by simp [hpc]) (fun l' => by simp)
    (settled_outside hgoto rfl (by simp)) (fun l' u => ?_) fun l' => ?_
  · by_cases hl : l' = l
    · subst hl
      by_cases hu : u = t
      · simp [hu]
      · simp [hu, h.not_inside_of_owns (.inl hin) hu]
    · simp [hl, h.holder_iff]
  · rw [goto_lock, setHolder_semaphore]
    refine h.unit_moved hsame ?_
    rw [owns_iff, owns_iff, hgoto, hpc]
    by_cases hl : l' = l
    · simp [hl, hin, LockPc.gapOf]
    · simp [hl, Ne.symm hl, LockPc.gapOf]

omit [DecidableEq τ] in
theorem unit_given (hpc : s.pc t = .cleared l) (hrun : s'.pc t = .running)
    (hin : ∀ l', s'.inside l' t = s.inside l' t)
    (hother : ∀ u, u ≠ t → ∀ l', s'.Owns l' u ↔ s.Owns l' u)
    (hvalue : ∀ l', (s'.lock l').semaphore.value = if l' =
      l then ((s.lock l).semaphore.value + 1) % wordSize else (s.lock l').semaphore.value)
    (l' : κ) : OwnedUnit (s'.Owns l') (s'.lock l').semaphore.value := by
  rw [hvalue]
  by_cases hl : l' = l
  · subst hl
    have hown : s.Owns l' t := owns_iff.mpr (.inr (by rw [hpc]; rfl))
    rw [if_pos rfl]
    refine ((h.unit l').give hown).congr fun u => ?_
    by_cases hu : u = t
    · subst hu
      have hnot : ¬ s'.Owns l' u := by
        rw [owns_iff, hrun, hin]
        rintro (hinside | hgap)
        · exact h.not_inside hpc rfl hinside
        · cases hgap
      exact iff_of_false hnot fun h => h.2 rfl
    · rw [hother u hu, and_iff_left hu]
  · rw [if_neg hl]
    refine (h.unit l').congr fun u => ?_
    by_cases hu : u = t
    · subst hu
      rw [owns_iff, owns_iff, hrun, hpc, hin]
      simp [Ne.symm hl, LockPc.gapOf]
    · exact hother u hu l'

theorem giveUnit (hpc : s.pc t = .cleared l) (hw : (s.lock l).semaphore.waiters = []) :
    LockInv ((s.setSemaphore l (semaUp (s.lock l).semaphore).1).goto t .running) := by
  have hgoto := goto_pc_self (s.setSemaphore l (semaUp (s.lock l).semaphore).1) t .running
  have hsame := fun u (hu : u ≠ t) =>
    sameAt_setSemaphore s l (semaUp (s.lock l).semaphore).1 .running hu
  refine h.moved hsame (fun l' => ?_) (fun l' => by simp [hpc]) (fun l' => by simp)
    (settled_running hgoto) (by simpa using h.holder_iff)
    (h.unit_given hpc hgoto (fun _ => rfl) (fun u hu l' => owns_congr (hsame u hu) l') fun l' => ?_)
  · by_cases hl : l' = l
    · simp [hl, semaUp, hw]
    · simp [hl]
  · by_cases hl : l' = l
    · simp [hl, semaUp]
    · simp [hl]

theorem giveUnit_wake (hpc : s.pc t = .cleared l) {w : τ} {ws : List τ}
    (hw : (s.lock l).semaphore.waiters = w :: ws) :
    LockInv (s.wake l w t) := by
  have hwb : s.pc w = .blocked l := (h.mem_waiters l w).mp (by simp [hw])
  have hwt : w ≠ t := by
    rintro rfl
    rw [hpc] at hwb
    cases hwb
  have hnodup := h.nodup l
  rw [hw, nodup_cons] at hnodup
  have hgoto : (s.wake l w t).pc t = .running := goto_pc_self ..
  have hgoto' : (s.wake l w t).pc w = .downing l := by simp [hwt]
  have hsame : ∀ u, u ≠ t → u ≠ w → s.SameAt (s.wake l w t) u :=
    fun u ht hw => ⟨by simp [ht, hw], fun _ => rfl⟩
  refine h.of_settled (fun u => ?_) (h.unit_given hpc hgoto (fun _ => rfl) (fun u hu l' => ?_)
    fun l' => ?_) (by simpa using h.holder_iff) (fun l' u => ?_) fun l' => ?_
  · by_cases hu : u = t
    · subst hu
      exact .inr (settled_running hgoto)
    · by_cases huw : u = w
      · subst huw
        exact .inr (settled_outside hgoto' rfl (h.not_inside hwb rfl))
      · exact .inl (hsame u hu huw)
  · by_cases huw : u = w
    · subst huw
      rw [owns_iff, owns_iff, hgoto', hwb]
      rfl
    · exact owns_congr (hsame u hu huw) l'
  · by_cases hl : l' = l
    · simp [hl, semaUp]
    · simp [hl]
  · by_cases hu : u = t
    · subst hu
      have hnot := (h.mem_waiters l' u).not.mpr (by rw [hpc]; simp)
      by_cases hl : l' = l
      · subst hl
        rw [hw, mem_cons, not_or] at hnot
        simp [semaUp, hw, hnot.2]
      · simp [hl, hnot]
    · by_cases huw : u = w
      · subst huw
        have hnot : l' ≠ l → u ∉ (s.lock l').semaphore.waiters := by
          intro hl
          rw [h.mem_waiters, hwb]
          simp [Ne.symm hl]
        rw [hgoto']
        by_cases hl : l' = l
        · simp [hl, semaUp, hw, hnodup.1]
        · simp [hl, hnot hl]
      · rw [(hsame u hu huw).pc_eq, ← h.mem_waiters]
        by_cases hl : l' = l
        · simp [hl, semaUp, hw, huw]
        · simp [hl]
  · by_cases hl : l' = l
    · simpa [hl, semaUp, hw] using hnodup.2
    · simpa [hl] using h.nodup l'

omit [DecidableEq κ] in
theorem held_iff (l : κ) (t : τ) : lockHeldByCurrentThread (s.lock l) t = s.inside l t := by
  rw [Bool.eq_iff_iff, ← h.holder_iff l t]
  simp [lockHeldByCurrentThread]

omit [DecidableEq κ] in
theorem call_acquire (hpc : s.pc t = .running) (hin : ¬ s.inside l t) :
    s.call t (.acquire l) = .next (s.goto t (.downing l)) ∧ LockInv (s.goto t (.downing l)) := by
  refine ⟨?_, h.goto (.inl hpc) (.inr ⟨l, .inl ⟨rfl, hin⟩⟩)⟩
  rw [LockState.call, h.held_iff, if_neg hin]

omit [DecidableEq κ] in
theorem call_release (hpc : s.pc t = .running) (hin : s.inside l t) :
    s.call t (.release l) = .next (s.goto t (.releasing l)) ∧
      LockInv (s.goto t (.releasing l)) := by
  refine ⟨?_, h.goto (.inl hpc) (.inr ⟨l, .inr (.inr ⟨rfl, hin⟩)⟩)⟩
  rw [LockState.call, h.held_iff, if_pos hin]

omit [DecidableEq κ] in
theorem call (hpc : s.pc t = .running) {c : LockCall κ} (hok : s.Disciplined (.call t c)) :
    ∃ s', s.call t c = .next s' ∧ LockInv s' := by
  cases c with
  | acquire l => exact ⟨_, h.call_acquire hpc hok⟩
  | tryAcquire l =>
    have hin : ¬ s.inside l t := hok
    refine ⟨s.goto t (.trying l), ?_, h.goto (.inl hpc) (.inr ⟨l, .inr (.inl ⟨rfl, hin⟩)⟩)⟩
    rw [LockState.call, h.held_iff, if_neg hin]
  | release l => exact ⟨_, h.call_release hpc hok⟩

theorem exec_downing (hpc : s.pc t = .downing l) :
    ∃ s', s.exec t = .next s' ∧ LockInv s' ∧ s'.inside l t = s.inside l t ∧
      (s'.pc t = .blocked l ∨ s'.pc t = .acquired l) := by
  by_cases hv : (s.lock l).semaphore.value = 0
  · exact ⟨_, exec_downing_of_zero hpc hv, h.block hpc, rfl, .inl (by simp)⟩
  · have hpos : 0 < (s.lock l).semaphore.value := by omega
    exact ⟨_, exec_downing_of_pos hpc hpos, h.takeUnit (.inl hpc) (.inl rfl) hpos, rfl,
      .inr (by simp)⟩

theorem exec_acquired (hpc : s.pc t = .acquired l) :
    ∃ s', s.exec t = .next s' ∧ LockInv s' ∧ s'.inside l t = true ∧ s'.pc t = .running :=
  ⟨_, LockState.exec_acquired hpc, h.enter (.inl hpc), by simp, by simp⟩

theorem exec_releasing (hpc : s.pc t = .releasing l) :
    ∃ s', s.exec t = .next s' ∧ LockInv s' ∧ s'.inside l t = false ∧ s'.pc t = .cleared l :=
  ⟨_, LockState.exec_releasing hpc, h.leave hpc, by simp, by simp⟩

theorem exec_cleared (hpc : s.pc t = .cleared l) :
    ∃ s', s.exec t = .next s' ∧ LockInv s' ∧ s'.inside l t = s.inside l t ∧ s'.pc t = .running := by
  cases hw : (s.lock l).semaphore.waiters with
  | nil => exact ⟨_, exec_cleared_of_nil hpc hw, h.giveUnit hpc hw, rfl, by simp⟩
  | cons w ws =>
    have hwb : s.pc w = .blocked l := (h.mem_waiters l w).mp (by simp [hw])
    exact ⟨_, exec_cleared_of_cons hpc hw hwb, h.giveUnit_wake hpc hw, rfl, by simp⟩

theorem exec (t : τ) : s.exec t = .blocked ∨ ∃ s', s.exec t = .next s' ∧ LockInv s' := by
  cases hpc : s.pc t with
  | running => exact .inl (by simp only [LockState.exec, hpc])
  | blocked l => exact .inl (by simp only [LockState.exec, hpc])
  | downing l =>
    obtain ⟨s', hs, hinv, -⟩ := h.exec_downing hpc
    exact .inr ⟨s', hs, hinv⟩
  | trying l =>
    by_cases hpos : (s.lock l).semaphore.value > 0
    · exact .inr ⟨_, exec_trying_of_pos hpc hpos, h.takeUnit (.inr hpc) (.inr rfl) hpos⟩
    · exact .inr ⟨_, exec_trying_of_zero hpc hpos, h.goto (.inr ⟨l, hpc⟩) (.inl rfl)⟩
  | acquired l => exact .inr ⟨_, LockState.exec_acquired hpc, h.enter (.inl hpc)⟩
  | tryAcquired l => exact .inr ⟨_, exec_tryAcquired hpc, h.enter (.inr hpc)⟩
  | releasing l => exact .inr ⟨_, LockState.exec_releasing hpc, h.leave hpc⟩
  | cleared l =>
    obtain ⟨s', hs, hinv, -⟩ := h.exec_cleared hpc
    exact .inr ⟨s', hs, hinv⟩

theorem step {i : LockLabel τ κ} (hok : s.Disciplined i) :
    s.step i = .blocked ∨ ∃ s', s.step i = .next s' ∧ LockInv s' := by
  cases i with
  | call t c =>
    by_cases hpc : s.pc t = .running
    · rw [LockState.step, if_pos hpc]
      exact .inr (h.call hpc hok)
    · exact .inl (by rw [LockState.step, if_neg hpc])
  | exec t => exact h.exec t

end

end LockInv

theorem lockMachine_preserves : (lockMachine τ κ).Preserves Disciplined LockInv :=
  fun _ _ hi hok => hi.step hok

theorem lockInv_of_reachable {s : LockState τ κ}
    (h : (lockMachine τ κ).ReachableUnder Disciplined s) : LockInv s :=
  h.of_preserves lockMachine_preserves lockInv_start

/-! ### Mutual exclusion -/

/-- **Lock mutual exclusion** under every interleaving of disciplined clients. -/
theorem lock_mutual_exclusion (s : LockState τ κ)
    (h : (lockMachine τ κ).ReachableUnder Disciplined s) (l : κ) :
    (∀ t u, s.inside l t → s.inside l u → t = u) ∧
    ((s.lock l).semaphore.value = 1 ↔ ∀ t, ¬ s.inside l t ∧ ¬ s.InGap l t) ∧
    ((s.lock l).semaphore.value = 0 ↔ ∃ t, s.inside l t ∨ s.InGap l t) ∧
    (∀ t, s.pc t = .running → lockHeldByCurrentThread (s.lock l) t = s.inside l t) ∧
    ∀ i e, s.Disciplined i → (lockMachine τ κ).step s i ≠ .fault e := by
  have hi := lockInv_of_reachable h
  refine ⟨?_, ?_, (hi.unit l).value_eq_zero_iff, fun t _ => hi.held_iff l t, ?_⟩
  · intro t u ht hu
    exact (hi.unit l).unique t u (.inl ht) (.inl hu)
  · rw [(hi.unit l).value_eq_one_iff]
    exact forall_congr' fun t => not_or
  · intro i e hok
    exact lockMachine_preserves.not_fault hi hok e

end Invariant

/-- Two threads contend for one lock; the second blocks, is woken by the release, and is
preempted before it assigns `holder`. -/
def contendedLock : List (LockLabel ℕ Unit) :=
  [.call 0 (.acquire ()), .exec 0, .exec 0, .call 1 (.acquire ()), .exec 1,
    .call 0 (.release ()), .exec 0, .exec 0, .exec 1]

instance LockState.decidableDisciplined (s : LockState ℕ Unit) (i : LockLabel ℕ Unit) :
    Decidable (s.Disciplined i) := by
  unfold LockState.Disciplined
  split <;> infer_instance

/-- A lock that goes from one thread to the one that waits for it. -/
theorem lock_mutual_exclusion_contendedLock :
    ∃ s : LockState ℕ Unit,
      (lockMachine ℕ Unit).run (lockMachine ℕ Unit).start contendedLock = .next s ∧
      s.pc 1 = .acquired () ∧ (s.lock ()).semaphore.value = 0 := by
  refine ⟨_, rfl, rfl, ?_⟩
  have hok : (lockMachine ℕ Unit).GuardedRun Disciplined
      (lockMachine ℕ Unit).start contendedLock := by
    decide
  have hr := Machine.ReachableUnder.start.of_run hok rfl
  exact (lock_mutual_exclusion _ hr ()).2.2.1.mpr ⟨1, .inr (.inl rfl)⟩

end OsMaterial
