import OsMaterial.Semaphore

/-!
# The Thread Scheduler

The run queue of `threads/thread.c`. A thread is named by the page of its `struct thread`, so that a
page can hold another thread later. Each call runs with interrupts off and is one step. The machine
starts where `thread_init` returns. Ledgers hold the order in which threads became ready and were
dispatched, and the pages created and freed, with the thread that did it.

* `scheduler_correct`: exactly the current thread runs, threads are dispatched in the order in which
  they became ready, and the page of an exiting thread is freed once, by its successor.
* `unblock_idle_queued`: a `thread_unblock` of `idle_thread` puts it into the run queue.
-/

namespace OsMaterial

open Function (update update_apply update_of_ne)

inductive ThreadStatus where
  | running
  | ready
  | blocked
  | dying
  deriving DecidableEq

inductive SchedFault where
  | notThread
  | notRunning
  | notBlocked
  | stillRunning
  | freesItself
  deriving DecidableEq

inductive BootPc where
  | creating
  | downing
  | started
  deriving DecidableEq

inductive IdlePc where
  | entry
  | registered
  | loop
  deriving DecidableEq

structure SchedState (α : Type*) where
  /-- The status of the thread on a page; `none` when `is_thread` is false of the page. -/
  status : α → Option ThreadStatus
  readyList : List α
  idleThread : Option α
  initialThread : α
  current : α
  boot : BootPc
  idleStarted : Semaphore α
  idlePage : Option α
  idlePc : IdlePc
  becameReady : List α
  dispatched : List α
  created : List α
  freed : List (α × α)

inductive SchedLabel (α : Type*) where
  | create (page : Option α)
  | block
  | unblock (t : α)
  | yield
  | exit
  | boot
  /-- The next piece of `idle`. -/
  | idle
  deriving DecidableEq

namespace SchedState

variable {α : Type*} [DecidableEq α]

/-! ### The functions of `thread.c` -/

def setStatus (s : SchedState α) (t : α) (status : ThreadStatus) : SchedState α :=
  { s with status := update s.status t (some status) }

def enqueue (s : SchedState α) (t : α) : SchedState α :=
  { s with readyList := s.readyList ++ [t], becameReady := s.becameReady ++ [t] }

def freePage (s : SchedState α) (t : α) : SchedState α :=
  { s with status := update s.status t none, freed := s.freed ++ [(t, s.current)] }

def threadCurrent (s : SchedState α) : Outcome SchedFault α :=
  match s.status s.current with
  | none => .fault .notThread
  | some .running => .next s.current
  | some _ => .fault .notRunning

/-- `next_thread_to_run`. -/
def nextThreadToRun (s : SchedState α) : Option α × SchedState α :=
  match s.readyList with
  | [] => (s.idleThread, s)
  | t :: ts => (some t, { s with readyList := ts, dispatched := s.dispatched ++ [t] })

/-- `thread_schedule_tail`. -/
def threadScheduleTail (s : SchedState α) (prev : Option α) :
    Outcome SchedFault (SchedState α) :=
  let s := s.setStatus s.current .running
  match prev with
  | none => .next s
  | some prev =>
    if s.status prev = some .dying ∧ prev ≠ s.initialThread then
      if prev = s.current then .fault .freesItself else .next (s.freePage prev)
    else
      .next s

/-- `schedule`. -/
def schedule (s : SchedState α) : Outcome SchedFault (SchedState α) :=
  let cur := s.current
  match s.nextThreadToRun with
  | (next, s) =>
    if s.status cur = some .running then
      .fault .stillRunning
    else
      match next with
      | none => .fault .notThread
      | some next =>
        if s.status next = none then
          .fault .notThread
        else if cur = next then
          s.threadScheduleTail none
        else
          { s with current := next }.threadScheduleTail (some cur)

/-- `thread_unblock`. -/
def threadUnblock (s : SchedState α) (t : α) : Outcome SchedFault (SchedState α) :=
  match s.status t with
  | none => .fault .notThread
  | some .blocked => .next ((s.enqueue t).setStatus t .ready)
  | some _ => .fault .notBlocked

/-- `init_thread`. -/
def initThread (s : SchedState α) (t : α) : SchedState α :=
  { s with
    status := update s.status t (some .blocked)
    created := s.created ++ [t] }

/-- `thread_create`. -/
def threadCreate (s : SchedState α) (page : Option α) : Outcome SchedFault (SchedState α) :=
  match page with
  | none => .next s
  | some t => (s.initThread t).threadUnblock t

/-- `thread_block`. -/
def threadBlock (s : SchedState α) : Outcome SchedFault (SchedState α) :=
  s.threadCurrent.bind fun cur => (s.setStatus cur .blocked).schedule

/-- `thread_yield`. -/
def threadYield (s : SchedState α) : Outcome SchedFault (SchedState α) :=
  s.threadCurrent.bind fun cur =>
    ((if s.idleThread = some cur then s else s.enqueue cur).setStatus cur .ready).schedule

/-- `thread_exit`. -/
def threadExit (s : SchedState α) : Outcome SchedFault (SchedState α) :=
  s.threadCurrent.bind fun cur => (s.setStatus cur .dying).schedule

/-! ### The programs of the two first threads -/

def startDown (s : SchedState α) : Outcome SchedFault (SchedState α) :=
  match semaDown s.idleStarted s.current with
  | (sema, true) => .next { s with idleStarted := sema, boot := .started }
  | (sema, false) => { s with idleStarted := sema }.threadBlock

def idleStep (s : SchedState α) : Outcome SchedFault (SchedState α) :=
  match s.idlePc with
  | .entry =>
    s.threadCurrent.bind fun cur =>
      .next { s with idleThread := some cur, idlePc := .registered }
  | .registered =>
    match semaUp s.idleStarted with
    | (sema, none) => .next { s with idleStarted := sema, idlePc := .loop }
    | (sema, some t) => { s with idleStarted := sema, idlePc := .loop }.threadUnblock t
  | .loop => s.threadBlock

/-- The current thread executes a program of its own, not `thread_start` and not `idle`. -/
def Free (s : SchedState α) : Prop :=
  s.boot = .started ∧ s.idlePage ≠ some s.current

instance (s : SchedState α) : Decidable s.Free :=
  inferInstanceAs (Decidable (_ ∧ _))

def step (s : SchedState α) : SchedLabel α → Outcome SchedFault (SchedState α)
  | .create page =>
    if s.boot = .creating then
      (s.threadCreate page).bind fun s =>
        .next { s with boot := .downing, idlePage := page }
    else if s.Free then
      s.threadCreate page
    else
      .blocked
  | .block => if s.Free then s.threadBlock else .blocked
  | .unblock t => if s.boot = .started then s.threadUnblock t else .blocked
  | .yield => if s.boot = .creating then .blocked else s.threadYield
  | .exit => if s.Free then s.threadExit else .blocked
  | .boot =>
    if s.boot = .downing ∧ s.current = s.initialThread then s.startDown else .blocked
  | .idle => if s.idlePage = some s.current then s.idleStep else .blocked

/-- The discipline of the callers: the page allocator hands out pages that hold no
thread, and `thread_unblock` is called on blocked threads. -/
def Disciplined (s : SchedState α) : SchedLabel α → Prop
  | .create (some page) => s.status page = none
  | .unblock t => s.status t = some .blocked
  | _ => True

/-- The condition on a run: besides, nobody unblocks the idle thread. -/
def LeavesIdle (s : SchedState α) (i : SchedLabel α) : Prop :=
  s.Disciplined i ∧ ∀ t, i = .unblock t → s.idleThread ≠ some t

end SchedState

def schedMachine {α : Type*} [DecidableEq α] (main : α) :
    Machine (SchedState α) (SchedLabel α) SchedFault where
  start :=
    { status := fun t => if t = main then some .running else none
      readyList := []
      idleThread := none
      initialThread := main
      current := main
      boot := .creating
      idleStarted := semaInit 0
      idlePage := none
      idlePc := .entry
      becameReady := []
      dispatched := []
      created := []
      freed := [] }
  step := SchedState.step

open SchedState

section Invariant

variable {α : Type*} [DecidableEq α] {s s' : SchedState α} {r : Option α}

/-! ### The invariant -/

structure QueueInv (r : Option α) (s : SchedState α) : Prop where
  running : ∀ t, s.status t = some .running ↔ r = some t
  ready_iff : ∀ t, s.idleThread ≠ some t → (t ∈ s.readyList ↔ s.status t = some .ready)
  ready_of_mem : ∀ t ∈ s.readyList, s.status t = some .ready
  nodup : s.readyList.Nodup
  fifo : s.becameReady = s.dispatched ++ s.readyList
  dying : ∀ t, s.status t = some .dying → t = s.initialThread ∨ r = none ∧ t = s.current
  idle : ∀ t, s.idleThread = some t → s.idlePage = some t
  idle_live : ∀ t, s.idlePage = some t →
    t ≠ s.initialThread ∧ s.status t ≠ none ∧ s.status t ≠ some .dying
  initial_live : s.status s.initialThread ≠ none
  pages : ∀ t, t ≠ s.initialThread →
    s.created.count t = (s.freed.map Prod.fst).count t + if s.status t = none then 0 else 1
  initial_kept : s.initialThread ∉ s.freed.map Prod.fst

structure BootInv (s : SchedState α) : Prop where
  creating : s.boot = .creating →
    s.current = s.initialThread ∧ s.idlePage = none ∧ s.idlePc = .entry
  entry : s.idlePc = .entry ↔ s.idleThread = none
  awake : ∀ t, s.idlePage = some t → s.idlePc ≠ .loop →
    s.status t = some .ready ∨ s.status t = some .running
  pending : s.idlePc ≠ .loop → s.boot ≠ .started ∧ s.idleStarted.value = 0
  posted : s.boot = .downing → s.idlePc = .loop →
    s.idleStarted.value = 1 ∧ s.status s.initialThread ≠ some .blocked
  waiters : s.idleStarted.waiters =
    if s.boot = .downing ∧ s.status s.initialThread = some .blocked then [s.initialThread]
    else []
  initial_live : s.boot ≠ .started → s.status s.initialThread ≠ some .dying

structure SchedInv (s : SchedState α) : Prop where
  queue : QueueInv (some s.current) s
  boot : BootInv s

theorem schedInv_start (main : α) : SchedInv (schedMachine main).start where
  queue := by constructor <;> simp +contextual [schedMachine, eq_comm]
  boot := by constructor <;> simp [schedMachine, semaInit]

/-! ### Scheduling -/

structure Switched (t : α) (s s' : SchedState α) : Prop where
  current : s'.current = t
  status : ∀ x, s'.status x =
    if x = t then some .running
    else if x = s.current ∧ s.status x = some .dying ∧ x ≠ s.initialThread then none
    else s.status x
  freed : s'.freed =
    if s.status s.current = some .dying ∧ s.current ≠ s.initialThread then
      s.freed ++ [(s.current, t)]
    else s.freed
  frame : s' = { s with status := s'.status, current := s'.current, freed := s'.freed }

variable {t : α} {s₁ : SchedState α}

theorem schedule_of_next (hn : s.nextThreadToRun = (some t, s₁)) (hcu : s₁.current = s.current)
    (hcur : s₁.status s₁.current ≠ some .running) (hlive : s₁.status t ≠ none)
    (hdying : s₁.status t ≠ some .dying) : ∃ s', s.schedule = .next s' ∧ Switched t s₁ s' := by
  rw [schedule, hn, ← hcu]
  simp only [if_neg hcur, if_neg hlive]
  by_cases hct : s₁.current = t
  · -- the only candidate is the current thread: there is no switch
    rw [if_pos hct]
    refine ⟨_, rfl, hct, ?_, ?_, rfl⟩
    · intro x
      simp only [setStatus, update_apply]
      grind
    · simp [setStatus, hct, hdying]
  · rw [if_neg hct]
    by_cases hd : s₁.status s₁.current = some .dying ∧ s₁.current ≠ s₁.initialThread
    · refine ⟨({ s₁ with current := t }.setStatus t .running).freePage s₁.current, ?_, rfl, ?_,
        ?_, rfl⟩
      · simp [threadScheduleTail, setStatus, hct, hd]
      · intro x
        simp only [freePage, setStatus, update_apply]
        grind
      · simp [freePage, setStatus, hd]
    · refine ⟨{ s₁ with current := t }.setStatus t .running, ?_, rfl, ?_, ?_, rfl⟩
      · simp only [threadScheduleTail, setStatus, update_of_ne hct, if_neg hd]
      · intro x
        simp only [setStatus, update_apply]
        grind
      · simp [setStatus, hd]

structure Scheduled (s s' : SchedState α) : Prop where
  next : s.readyList = s'.current :: s'.readyList ∧
      s'.dispatched = s.dispatched ++ [s'.current] ∨
    s.readyList = [] ∧ s'.readyList = [] ∧ s.idleThread = some s'.current ∧
      s'.dispatched = s.dispatched
  switched : Switched s'.current
    { s with readyList := s'.readyList, dispatched := s'.dispatched } s'

theorem QueueInv.schedule_spec (h : QueueInv none s)
    (hnext : s.readyList ≠ [] ∨ s.idleThread ≠ none) :
    ∃ s', s.schedule = .next s' ∧ Scheduled s s' := by
  have hcur : s.status s.current ≠ some .running := by simp [h.running]
  cases hq : s.readyList with
  | nil =>
    obtain ⟨t, ht⟩ := Option.ne_none_iff_exists'.mp (hnext.resolve_left (by simp [hq]))
    have hlive := h.idle_live t (h.idle t ht)
    have hn : s.nextThreadToRun = (some t, s) := by simp only [nextThreadToRun, hq, ht]
    obtain ⟨s', hs', hsw⟩ := schedule_of_next hn rfl hcur hlive.2.1 hlive.2.2
    have hrl : s'.readyList = [] ∧ s'.dispatched = s.dispatched := by
      rw [hsw.frame]
      exact ⟨hq, rfl⟩
    refine ⟨s', hs', .inr ⟨hq, hrl.1, by rw [ht, hsw.current], hrl.2⟩, ?_⟩
    rw [hrl.1, ← hq, hrl.2, hsw.current]
    exact hsw
  | cons t ts =>
    have hready := h.ready_of_mem t (by simp [hq])
    have hn : s.nextThreadToRun =
        (some t, { s with readyList := ts, dispatched := s.dispatched ++ [t] }) := by
      simp only [nextThreadToRun, hq]
    obtain ⟨s', hs', hsw⟩ := schedule_of_next hn rfl hcur (by simp [hready]) (by simp [hready])
    have hrl : s'.readyList = ts ∧ s'.dispatched = s.dispatched ++ [t] := by
      rw [hsw.frame]
      exact ⟨rfl, rfl⟩
    refine ⟨s', hs', .inl ⟨by rw [hq, hrl.1, hsw.current], by rw [hrl.2, hsw.current]⟩, ?_⟩
    rw [hrl.1, hrl.2, hsw.current]
    exact hsw

theorem Scheduled.unchanged (hs : Scheduled s s') :
    s'.idleThread = s.idleThread ∧ s'.initialThread = s.initialThread ∧ s'.boot = s.boot ∧
      s'.idleStarted = s.idleStarted ∧ s'.idlePage = s.idlePage ∧ s'.idlePc = s.idlePc ∧
      s'.becameReady = s.becameReady ∧ s'.created = s.created := by
  have hf := hs.switched.frame
  refine ⟨?_, ?_, ?_, ?_, ?_, ?_, ?_, ?_⟩ <;> rw [hf]

theorem QueueInv.scheduled (h : QueueInv none s) (hs : Scheduled s s') :
    QueueInv (some s'.current) s' := by
  obtain ⟨hidle, hinit, -, -, hpage, -, hready, hcreated⟩ := hs.unchanged
  have hstat := hs.switched.status
  have hfreed := hs.switched.freed
  have hnext := hs.next
  obtain ⟨running, ready_iff, ready_of_mem, nodup, fifo, dying, idle, idle_live, initial_live,
    pages, initial_kept⟩ := h
  constructor
  case running => grind
  case ready_iff => grind
  case ready_of_mem => grind
  case nodup => grind
  case fifo => grind
  case dying => grind
  case idle => grind
  case idle_live => grind
  case initial_live => grind
  case pages => grind
  case initial_kept => grind

theorem BootInv.scheduled (h : BootInv s) (hq : QueueInv none s) (hs : Scheduled s s')
    (hboot : s.boot ≠ .creating) : BootInv s' := by
  obtain ⟨hidle, hinit, hbt, hsema, hpage, hpc, -, -⟩ := hs.unchanged
  have hstat := hs.switched.status
  have hnext := hs.next
  obtain ⟨-, entry, awake, pending, posted, waiters, initial_live⟩ := h
  -- a dispatched initial thread comes from the run queue, so it was not waiting
  have hmain : s'.current = s.initialThread → s.status s.initialThread = some .ready := by
    intro hc
    rcases hnext with ⟨hq', -⟩ | ⟨-, -, hid, -⟩
    · exact hc ▸ hq.ready_of_mem _ (by simp [hq'])
    · exact absurd hc (hq.idle_live _ (hq.idle _ hid)).1
  constructor
  case creating => grind
  case entry => grind
  case awake => grind [QueueInv]
  case pending => grind
  case posted => grind
  case waiters => grind
  case initial_live => grind

/-! ### One step -/

structure SchedEffect (i : SchedLabel α) (s s' : SchedState α) : Prop where
  freed : s'.freed = s.freed ∧ (i = .exit → s.current = s.initialThread) ∨
    i = .exit ∧ s.current ≠ s.initialThread ∧ s'.current ≠ s.current ∧
      s'.status s.current = none ∧ s'.freed = s.freed ++ [(s.current, s'.current)]
  dispatch : s'.current = s.current ∧ s'.dispatched = s.dispatched ∨
    s'.dispatched = s.dispatched ++ [s'.current] ∨
    s'.readyList = [] ∧ s'.idleThread = some s'.current ∧ s'.dispatched = s.dispatched
  ready : ∀ t, s'.idleThread ≠ some t → s.status t ≠ some .ready →
    s'.status t = some .ready → s'.becameReady = s.becameReady ++ [t]
  queue : ∀ t ∈ s'.readyList, t ∈ s.readyList ∨ s'.idleThread ≠ some t ∨ i = .unblock t
  idle : s'.idleThread = s.idleThread ∨ s.idleThread = none ∧ s'.idleThread = some s.current

namespace QueueInv

section

variable (h : QueueInv (some s.current) s)

include h

theorem threadCurrent_eq : s.threadCurrent = .next s.current := by
  simp [threadCurrent, (h.running s.current).mpr rfl]

theorem block : QueueInv none (s.setStatus s.current .blocked) := by
  cases h
  constructor <;> simp only [setStatus, update_apply] <;> grind

theorem exit (hidle : s.idlePage ≠ some s.current) :
    QueueInv none (s.setStatus s.current .dying) := by
  cases h
  constructor <;> simp only [setStatus, update_apply] <;> grind

theorem yield :
    QueueInv none ((if s.idleThread = some s.current then s
      else s.enqueue s.current).setStatus s.current .ready) := by
  have hcur := (h.running s.current).mpr rfl
  obtain ⟨running, ready_iff, ready_of_mem, nodup, fifo, dying, idle, idle_live, initial_live,
    pages, initial_kept⟩ := h
  split
  · constructor <;> simp only [setStatus, update_apply] <;> grind
  · constructor <;> simp only [setStatus, enqueue, update_apply] <;> grind

end

theorem unblock (h : QueueInv r s) (ht : s.status t = some .blocked) :
    QueueInv r ((s.enqueue t).setStatus t .ready) := by
  obtain ⟨running, ready_iff, ready_of_mem, nodup, fifo, dying, idle, idle_live, initial_live,
    pages, initial_kept⟩ := h
  constructor <;> simp only [setStatus, enqueue, update_apply] <;> grind

theorem program (h : QueueInv r s) (boot : BootPc) (sema : Semaphore α) (pc : IdlePc) :
    QueueInv r { s with boot := boot, idleStarted := sema, idlePc := pc } :=
  { h with }

theorem create (h : QueueInv r s) (ht : s.status t = none) : QueueInv r (s.initThread t) := by
  cases h
  constructor <;> simp only [initThread, update_apply] <;> grind

end QueueInv

variable {i : SchedLabel α}

theorem SchedEffect.of_schedule
    (hq : QueueInv none s₁) (hs : Scheduled s₁ s') (hcur : s₁.current = s.current)
    (hfreed : s₁.freed = s.freed) (hdisp : s₁.dispatched = s.dispatched)
    (hidle : s₁.idleThread = s.idleThread) (hinit : s₁.initialThread = s.initialThread)
    (hexit : s₁.status s.current = some .dying ↔ i = .exit)
    (hready : ∀ t, s.idleThread ≠ some t → s.status t ≠ some .ready →
      s₁.status t = some .ready → s₁.becameReady = s.becameReady ++ [t])
    (hqueue : ∀ t ∈ s₁.readyList, t ∈ s.readyList ∨ s.idleThread ≠ some t) :
    SchedEffect i s s' := by
  obtain ⟨hidle', hinit', -, -, hpage', -, hready', -⟩ := hs.unchanged
  have hstat := hs.switched.status
  have hfreed' := hs.switched.freed
  have hnext := hs.next
  have hlive : s₁.status s'.current ≠ some .dying := by
    rcases hnext with ⟨hl, -⟩ | ⟨-, -, hid, -⟩
    · simp [hq.ready_of_mem s'.current (by simp [hl])]
    · exact (hq.idle_live _ (hq.idle _ hid)).2.2
  constructor
  case freed => grind
  case dispatch => grind
  case ready => grind
  case queue => grind
  case idle => grind

namespace SchedInv

theorem reschedule (hq : QueueInv none s₁) (hb : BootInv s₁)
    (hboot : s₁.boot ≠ .creating) (hnext : s₁.readyList ≠ [] ∨ s₁.idleThread ≠ none)
    (heff : ∀ s', Scheduled s₁ s' → SchedEffect i s s') :
    ∃ s', s₁.schedule = .next s' ∧ SchedInv s' ∧ SchedEffect i s s' := by
  obtain ⟨s', hs', hs⟩ := hq.schedule_spec hnext
  exact ⟨s', hs', ⟨hq.scheduled hs, hb.scheduled hq hs hboot⟩, heff s' hs⟩

theorem started_idle (h : SchedInv s) (hs : s.boot = .started) : s.idleThread ≠ none := by
  have hloop : s.idlePc = .loop := by
    by_contra hne
    exact (h.boot.pending hne).1 hs
  rw [ne_eq, ← h.boot.entry, hloop]
  nofun

theorem threadBlock_spec (h : QueueInv (some s.current) s)
    (hi : i ≠ .exit) (hb : BootInv (s.setStatus s.current .blocked))
    (hboot : s.boot ≠ .creating) (hnext : s.readyList ≠ [] ∨ s.idleThread ≠ none) :
    ∃ s', s.threadBlock = .next s' ∧ SchedInv s' ∧ SchedEffect i s s' := by
  rw [threadBlock, h.threadCurrent_eq, Outcome.bind_next]
  refine reschedule h.block hb hboot hnext fun s' hs => ?_
  refine .of_schedule h.block hs rfl rfl rfl rfl rfl ?_ ?_ fun t ht => .inl ht
  · simp [setStatus, hi]
  · intro t _ hne heq
    simp only [setStatus, update_apply] at heq
    grind

theorem threadExit_spec (h : SchedInv s) (hfree : s.Free) :
    ∃ s', s.threadExit = .next s' ∧ SchedInv s' ∧ SchedEffect .exit s s' := by
  rw [threadExit, h.queue.threadCurrent_eq, Outcome.bind_next]
  have hq := h.queue.exit hfree.2
  have hstart := hfree.1
  have hb : BootInv (s.setStatus s.current .dying) := by
    cases h.boot
    constructor <;> simp only [setStatus, update_apply] <;> grind
  refine reschedule hq hb (by simp [setStatus, hfree.1]) (.inr ?_) fun s' hs => ?_
  · exact h.started_idle hfree.1
  · refine .of_schedule hq hs rfl rfl rfl rfl rfl ?_ ?_ fun t ht => .inl ht
    · simp [setStatus]
    · intro t _ hne heq
      simp only [setStatus, update_apply] at heq
      grind

theorem threadYield_spec (h : SchedInv s) (hboot : s.boot ≠ .creating) :
    ∃ s', s.threadYield = .next s' ∧ SchedInv s' ∧ SchedEffect .yield s s' := by
  rw [threadYield, h.queue.threadCurrent_eq, Outcome.bind_next]
  have hcur := (h.queue.running s.current).mpr rfl
  have hq := h.queue.yield
  cases h.boot
  by_cases hid : s.idleThread = some s.current
  · -- `idle_thread` becomes ready without entering the run queue
    simp only [if_pos hid] at hq ⊢
    refine reschedule hq ?_ hboot (.inr (by simp [hid, setStatus])) fun s' hs => ?_
    · constructor <;> simp only [setStatus, update_apply] <;> grind
    · refine .of_schedule hq hs rfl rfl rfl rfl rfl ?_ ?_ fun t ht => .inl ht
      · simp [setStatus]
      · intro t hne hst heq
        simp only [setStatus, update_apply] at heq
        grind
  · simp only [if_neg hid] at hq ⊢
    refine reschedule hq ?_ hboot (.inl ?_) fun s' hs => ?_
    · constructor <;> simp only [setStatus, enqueue, update_apply] <;> grind
    · simp [setStatus, enqueue]
    · refine .of_schedule hq hs rfl rfl rfl rfl rfl ?_ ?_ ?_
      · simp [setStatus]
      · intro t hne hst heq
        simp only [setStatus, enqueue, update_apply] at heq ⊢
        grind
      · intro t ht
        simp only [setStatus, enqueue] at ht
        grind

theorem threadUnblock_eq (ht : s.status t = some .blocked) :
    s.threadUnblock t = .next ((s.enqueue t).setStatus t .ready) := by
  simp [threadUnblock, ht]

theorem unblock_spec (h : SchedInv s) (ht : s.status t = some .blocked)
    (hboot : s.boot = .started) :
    ∃ s', s.threadUnblock t = .next s' ∧ SchedInv s' ∧ SchedEffect (.unblock t) s s' := by
  refine ⟨_, threadUnblock_eq ht, ⟨h.queue.unblock ht, ?_⟩, ?_⟩
  · cases h.boot
    constructor <;> simp only [setStatus, enqueue, update_apply] <;> grind
  · constructor <;> simp only [setStatus, enqueue, update_apply] <;> grind

theorem threadCreate_eq :
    s.threadCreate (some t) = .next (((s.initThread t).enqueue t).setStatus t .ready) := by
  rw [threadCreate, threadUnblock_eq]
  simp [initThread]

section

variable (h : SchedInv s)

include h

variable {page : Option α}

theorem create_spec (hok : s.Disciplined (.create page)) (hboot : s.boot = .started) :
    ∃ s', s.threadCreate page = .next s' ∧ SchedInv s' ∧ SchedEffect (.create page) s s' := by
  cases page with
  | none => exact ⟨s, rfl, h, by constructor <;> grind⟩
  | some t =>
    have hq := (h.queue.create hok).unblock (t := t) (by simp [initThread])
    refine ⟨_, threadCreate_eq, ⟨hq, ?_⟩, ?_⟩
    · cases h.boot
      constructor <;>
        simp only [setStatus, enqueue, initThread, update_apply] <;> grind
    · have hne := h.queue.idle_live
      have hid := h.queue.idle
      have hnone : s.status t = none := hok
      constructor <;>
        simp only [setStatus, enqueue, initThread, update_apply] <;> grind

theorem createIdle_spec (hok : s.Disciplined (.create page)) (hboot : s.boot = .creating) :
    ∃ s', ((s.threadCreate page).bind fun s =>
        .next { s with boot := .downing, idlePage := page }) = .next s' ∧
      SchedInv s' ∧ SchedEffect (.create page) s s' := by
  have hcur := (h.queue.running s.current).mpr rfl
  obtain ⟨hmain, hpage, hpc⟩ := h.boot.creating hboot
  have hidle := h.boot.entry.mp hpc
  cases page with
  | none =>
    refine ⟨_, rfl, ⟨?_, ?_⟩, ?_⟩
    · cases h.queue
      constructor <;> simp only <;> grind
    · cases h.boot
      constructor <;> simp only <;> grind
    · constructor <;> simp only <;> grind
  | some t =>
    have hq := (h.queue.create hok).unblock (t := t) (by simp [initThread])
    refine ⟨_, by rw [threadCreate_eq, Outcome.bind_next], ⟨?_, ?_⟩, ?_⟩
    · cases hq
      simp only [setStatus, enqueue, initThread, update_apply] at *
      constructor <;> simp only <;> grind
    · cases h.boot
      constructor <;>
        simp only [setStatus, enqueue, initThread, update_apply] <;> grind
    · constructor <;>
        simp only [setStatus, enqueue, initThread, update_apply] <;> grind

theorem idle_schedulable (hcur : s.current = s.initialThread) (ht : s.idlePage = some t)
    (hpc : s.idlePc ≠ .loop) : s.readyList ≠ [] ∨ s.idleThread ≠ none := by
  have hready : s.status t = some .ready := by
    refine (h.boot.awake t ht hpc).resolve_right fun hr => (h.queue.idle_live t ht).1 ?_
    rw [h.queue.running, Option.some_inj] at hr
    rw [← hr, hcur]
  by_cases hid : s.idleThread = some t
  · exact .inr (by simp [hid])
  · exact .inl (List.ne_nil_of_mem ((h.queue.ready_iff t hid).mpr hready))

theorem startDown_pass (hboot : s.boot = .downing) (hpc : s.idlePc = .loop) :
    ∃ s', s.startDown = .next s' ∧ SchedInv s' ∧ SchedEffect .boot s s' := by
  obtain ⟨hv, -⟩ := h.boot.posted hboot hpc
  rw [startDown, semaDown_of_pos (by omega)]
  refine ⟨_, rfl, ⟨h.queue.program _ _ _, ?_⟩, ?_⟩
  · cases h.boot
    constructor <;> simp only <;> grind
  · constructor <;> simp only <;> grind

theorem startDown_block (hboot : s.boot = .downing) (hcur : s.current = s.initialThread)
    (hpc : s.idlePc ≠ .loop) (hnext : s.readyList ≠ [] ∨ s.idleThread ≠ none) :
    ∃ s', s.startDown = .next s' ∧ SchedInv s' ∧ SchedEffect .boot s s' := by
  have hrun := (h.queue.running s.current).mpr rfl
  obtain ⟨-, hv⟩ := h.boot.pending hpc
  rw [startDown, semaDown_of_zero hv]
  set s₁ : SchedState α := { s with idleStarted :=
    { s.idleStarted with waiters := s.idleStarted.waiters ++ [s.current] } } with hs₁
  have hq : QueueInv (some s₁.current) s₁ := h.queue.program _ _ _
  have hb : BootInv (s₁.setStatus s₁.current .blocked) := by
    have hlive := h.queue.idle_live
    cases h.boot
    constructor <;> simp only [hs₁, setStatus, update_apply] <;> grind
  obtain ⟨s', hs', hi, he⟩ := threadBlock_spec (i := .boot) hq nofun hb (by simp [hs₁, hboot]) hnext
  exact ⟨s', hs', hi, he.freed, he.dispatch, he.ready, he.queue, he.idle⟩

theorem startDown_fault (hpc : s.idlePc ≠ .loop) (hq : s.readyList = [])
    (hid : s.idleThread = none) : s.startDown = .fault .notThread := by
  have hrun := (h.queue.running s.current).mpr rfl
  obtain ⟨-, hv⟩ := h.boot.pending hpc
  simp [startDown, semaDown_of_zero hv, threadBlock, threadCurrent, hrun, schedule, nextThreadToRun,
    setStatus, hq, hid]

theorem idleStep_spec (hpage : s.idlePage = some s.current) :
    ∃ s', s.idleStep = .next s' ∧ SchedInv s' ∧ SchedEffect .idle s s' := by
  have hlive := h.queue.idle_live s.current hpage
  have hboot : s.boot ≠ .creating := by
    intro hb
    simp [(h.boot.creating hb).2.1] at hpage
  cases hpc : s.idlePc with
  | entry =>
    have hnone := h.boot.entry.mp hpc
    simp only [idleStep, hpc, h.queue.threadCurrent_eq, Outcome.bind_next]
    refine ⟨_, rfl, ⟨?_, ?_⟩, ?_⟩
    · cases h.queue
      constructor <;> simp only <;> grind
    · cases h.boot
      constructor <;> simp only <;> grind
    · constructor <;> simp only <;> grind
  | registered =>
    obtain ⟨hns, hv⟩ := h.boot.pending (by simp [hpc])
    have hdown : s.boot = .downing := by
      cases hbt : s.boot with
      | creating => exact absurd hbt hboot
      | downing => rfl
      | started => exact absurd hbt hns
    have hq := h.queue.program s.boot (semaInit 1) .loop
    by_cases hw : s.status s.initialThread = some .blocked
    · -- the initial thread waits: the unit wakes it
      have hup : semaUp s.idleStarted = (semaInit 1, some s.initialThread) := by
        rw [semaUp, h.boot.waiters, if_pos ⟨hdown, hw⟩, hv]
        rfl
      simp only [idleStep, hpc, hup]
      refine ⟨_, threadUnblock_eq hw, ⟨hq.unblock hw, ?_⟩, ?_⟩
      · cases h.boot
        constructor <;>
          simp only [setStatus, enqueue, update_apply, semaInit] <;> grind
      · have hid := h.queue.idle
        constructor <;>
          simp only [setStatus, enqueue, update_apply] <;>
          grind
    · have hup : semaUp s.idleStarted = (semaInit 1, none) := by
        rw [semaUp, h.boot.waiters, if_neg fun hc => hw hc.2, hv]
        rfl
      simp only [idleStep, hpc, hup]
      refine ⟨_, rfl, ⟨hq, ?_⟩, ?_⟩
      · cases h.boot
        constructor <;> simp only [semaInit] <;> grind
      · constructor <;> simp only <;> grind
  | loop =>
    simp only [idleStep, hpc]
    have hid : s.idleThread ≠ none := by
      rw [ne_eq, ← h.boot.entry, hpc]
      decide
    refine threadBlock_spec h.queue (by simp) ?_ hboot (.inr hid)
    cases h.boot
    constructor <;> simp only [setStatus, update_apply] <;> grind

theorem step (hok : s.Disciplined i) :
    s.step i = .blocked ∨ (∃ s', s.step i = .next s' ∧ SchedInv s' ∧ SchedEffect i s s') ∨
      s.step i = .fault .notThread ∧ s.boot = .downing ∧ s.idlePage = none := by
  cases i with
  | create page =>
    by_cases hc : s.boot = .creating
    · simp only [SchedState.step, if_pos hc]
      exact .inr (.inl (h.createIdle_spec hok hc))
    · by_cases hf : s.Free
      · simp only [SchedState.step, if_neg hc, if_pos hf]
        exact .inr (.inl (h.create_spec hok hf.1))
      · exact .inl (by simp only [SchedState.step, if_neg hc, if_neg hf])
  | block =>
    by_cases hf : s.Free
    · simp only [SchedState.step, if_pos hf]
      have hstart := hf.1
      have hb : BootInv (s.setStatus s.current .blocked) := by
        cases h.boot
        constructor <;> simp only [setStatus, update_apply] <;> grind
      exact .inr (.inl (threadBlock_spec h.queue nofun hb (by simp [hf.1])
        (.inr (h.started_idle hf.1))))
    · exact .inl (by simp only [SchedState.step, if_neg hf])
  | unblock t =>
    by_cases hb : s.boot = .started
    · simp only [SchedState.step, if_pos hb]
      exact .inr (.inl (h.unblock_spec hok hb))
    · exact .inl (by simp only [SchedState.step, if_neg hb])
  | yield =>
    by_cases hc : s.boot = .creating
    · exact .inl (by simp only [SchedState.step, if_pos hc])
    · simp only [SchedState.step, if_neg hc]
      exact .inr (.inl (h.threadYield_spec hc))
  | exit =>
    by_cases hf : s.Free
    · simp only [SchedState.step, if_pos hf]
      exact .inr (.inl (h.threadExit_spec hf))
    · exact .inl (by simp only [SchedState.step, if_neg hf])
  | boot =>
    by_cases hc : s.boot = .downing ∧ s.current = s.initialThread
    · simp only [SchedState.step, if_pos hc]
      by_cases hpc : s.idlePc = .loop
      · exact .inr (.inl (h.startDown_pass hc.1 hpc))
      · by_cases hnext : s.readyList ≠ [] ∨ s.idleThread ≠ none
        · exact .inr (.inl (h.startDown_block hc.1 hc.2 hpc hnext))
        · push Not at hnext
          refine .inr (.inr ⟨h.startDown_fault hpc hnext.1 hnext.2, hc.1, ?_⟩)
          by_contra hp
          obtain ⟨t, ht⟩ := Option.ne_none_iff_exists'.mp hp
          rcases h.idle_schedulable hc.2 ht hpc with hl | hl
          · exact hl hnext.1
          · exact hl hnext.2
    · exact .inl (by simp only [SchedState.step, if_neg hc])
  | idle =>
    by_cases hp : s.idlePage = some s.current
    · simp only [SchedState.step, if_pos hp]
      exact .inr (.inl (h.idleStep_spec hp))
    · exact .inl (by simp only [SchedState.step, if_neg hp])

end

end SchedInv

variable {main : α}

theorem schedInv_of_reachable
    (h : (schedMachine main).ReachableUnder Disciplined s) : SchedInv s := by
  refine h.invariant (schedInv_start main) fun s s' i _ hi hok hs => ?_
  have hs : s.step i = .next s' := hs
  rcases hi.step hok with hb | ⟨s₁, hs₁, hi₁, -⟩ | ⟨hf, -⟩
  · simp [hs] at hb
  · rw [hs₁, Outcome.next.injEq] at hs
    exact hs ▸ hi₁
  · simp [hs] at hf

theorem SchedInv.effect (hi : SchedInv s) (hok : s.Disciplined i)
    (hs : s.step i = .next s') : SchedEffect i s s' := by
  rcases hi.step hok with hb | ⟨s₁, hs₁, -, he⟩ | ⟨hf, -⟩
  · simp [hs] at hb
  · rw [hs₁, Outcome.next.injEq] at hs
    exact hs ▸ he
  · simp [hs] at hf

theorem idle_not_queued (h : (schedMachine main).ReachableUnder LeavesIdle s) :
    ∀ t, s.idleThread = some t → t ∉ s.readyList := by
  have hd : ∀ s (i : SchedLabel α), LeavesIdle s i → s.Disciplined i := fun s i hok => hok.1
  refine h.invariant (P := fun s => ∀ t, s.idleThread = some t → t ∉ s.readyList) ?_ ?_
  · simp [schedMachine]
  · intro s s' i hr ih hok hs t ht hm
    have hi := schedInv_of_reachable (hr.mono hd)
    have he := hi.effect hok.1 hs
    have hrun := (hi.queue.running s.current).mpr rfl
    have hkeep : s.idleThread = some t → i = .unblock t → False := fun hid hu => hok.2 t hu hid
    have hready := hi.queue.ready_of_mem t
    have hun : i = .unblock t → s'.idleThread = s.idleThread := by
      rintro rfl
      have hs : s.step (.unblock t) = .next s' := hs
      simp only [SchedState.step] at hs
      split at hs
      · rw [SchedInv.threadUnblock_eq hok.1, Outcome.next.injEq] at hs
        exact hs ▸ rfl
      · cases hs
    have := he.queue t hm
    have := he.idle
    grind

/-! ### Correctness -/

/-- **What the scheduler promises** in a state. -/
structure SchedCorrect (s : SchedState α) : Prop where
  one_running : ∀ t, s.status t = some .running ↔ t = s.current
  ready_iff : ∀ t, s.idleThread ≠ some t → (t ∈ s.readyList ↔ s.status t = some .ready)
  ready_of_mem : ∀ t ∈ s.readyList, s.status t = some .ready
  nodup : s.readyList.Nodup
  fifo : s.becameReady = s.dispatched ++ s.readyList
  not_dying : ∀ t, s.status t = some .dying → t = s.initialThread
  next_thread : s.boot = .started → ∃ t, s.nextThreadToRun.1 = some t ∧ s.status t ≠ none
  no_fault : ∀ i e, s.Disciplined i → s.step i = .fault e → s.boot = .downing ∧ s.idlePage = none
  pages : ∀ t, t ≠ s.initialThread →
    s.created.count t = (s.freed.map Prod.fst).count t + if s.status t = none then 0 else 1
  initial_kept : s.initialThread ∉ s.freed.map Prod.fst
  effect : ∀ i s', s.Disciplined i → s.step i = .next s' → SchedEffect i s s'

/-- **Scheduler correctness** over every run of disciplined callers; when moreover no run
step unblocks `idle_thread`, the run queue holds exactly the ready threads other than
it. -/
theorem scheduler_correct (main : α) (s : SchedState α)
    (h : (schedMachine main).ReachableUnder Disciplined s) :
    SchedCorrect s ∧
      ((schedMachine main).ReachableUnder LeavesIdle s →
        ∀ t, t ∈ s.readyList ↔ s.status t = some .ready ∧ s.idleThread ≠ some t) := by
  have hi := schedInv_of_reachable h
  have hq := hi.queue
  refine ⟨?_, ?_⟩
  · constructor
    case one_running =>
      intro t
      rw [hq.running, Option.some_inj, eq_comm]
    case ready_iff => exact hq.ready_iff
    case ready_of_mem => exact hq.ready_of_mem
    case nodup => exact hq.nodup
    case fifo => exact hq.fifo
    case not_dying =>
      intro t ht
      rcases hq.dying t ht with hm | ⟨hr, -⟩
      · exact hm
      · cases hr
    case next_thread =>
      intro hs
      obtain ⟨t, ht⟩ := Option.ne_none_iff_exists'.mp (hi.started_idle hs)
      cases hl : s.readyList with
      | nil =>
        exact ⟨t, by simp [nextThreadToRun, hl, ht], (hq.idle_live t (hq.idle t ht)).2.1⟩
      | cons u us =>
        refine ⟨u, by simp [nextThreadToRun, hl], ?_⟩
        rw [hq.ready_of_mem u (by simp [hl])]
        nofun
    case no_fault =>
      intro i e hok hf
      rcases hi.step hok with hb | ⟨s₁, hs₁, -⟩ | ⟨-, hd⟩
      · simp [hf] at hb
      · simp [hf] at hs₁
      · exact hd
    case pages => exact hq.pages
    case initial_kept => exact hq.initial_kept
    case effect => exact fun i s' hok hs => hi.effect hok hs
  · intro hl t
    constructor
    · intro hm
      exact ⟨hq.ready_of_mem t hm, fun ht => idle_not_queued hl t ht hm⟩
    · rintro ⟨hr, hne⟩
      exact (hq.ready_iff t hne).mpr hr

end Invariant

/-- The system boots on page `0` with the idle thread on page `1`; the initial thread
creates threads on pages `2` and `3` and yields, and the first of them exits. -/
def bootAndExit : List (SchedLabel ℕ) :=
  [.create (some 1), .boot, .idle, .idle, .idle, .boot, .create (some 2), .create (some 3), .yield,
    .exit]

/-- The system boots as before, and someone unblocks the idle thread. -/
def unblockIdle : List (SchedLabel ℕ) :=
  [.create (some 1), .boot, .idle, .idle, .idle, .boot, .unblock 1]

instance SchedState.decidableDisciplined (s : SchedState ℕ) (i : SchedLabel ℕ) :
    Decidable (s.Disciplined i) := by
  unfold SchedState.Disciplined
  split <;> infer_instance

instance SchedState.decidableLeavesIdle (s : SchedState ℕ) (i : SchedLabel ℕ) :
    Decidable (s.LeavesIdle i) :=
  decidable_of_iff (s.Disciplined i ∧ ∀ t ∈ s.idleThread, i ≠ .unblock t)
    (and_congr_right fun _ => ⟨fun h t hi ht => h t ht hi, fun h t ht hi => h t hi ht⟩)

/-- The thread that exited is freed by its successor, and the initial thread is the one queued. -/
theorem scheduler_correct_bootAndExit :
    ∃ s : SchedState ℕ,
      (schedMachine 0).run (schedMachine 0).start bootAndExit = .next s ∧
      s.freed = [(2, 3)] ∧ s.created.count 2 = 1 ∧ s.readyList = [0] ∧
      s.becameReady = s.dispatched ++ s.readyList ∧
      ∀ t, t ∈ s.readyList ↔ s.status t = some .ready ∧ s.idleThread ≠ some t := by
  refine ⟨_, rfl, rfl, rfl, rfl, ?_⟩
  have hok : (schedMachine 0).GuardedRun LeavesIdle (schedMachine 0).start bootAndExit := by decide
  have hr := Machine.ReachableUnder.start.of_run hok rfl
  have hcorrect := scheduler_correct 0 _ (hr.mono fun _ _ h => h.1)
  exact ⟨hcorrect.1.fifo, hcorrect.2 hr⟩

/-- **The run queue can hold `idle_thread`**: `thread_unblock` on the blocked idle thread
is a legal call, and puts it there. -/
theorem unblock_idle_queued :
    ∃ s : SchedState ℕ, (schedMachine 0).ReachableUnder Disciplined s ∧
      s.boot = .started ∧
      ¬ ∀ t, t ∈ s.readyList ↔ s.status t = some .ready ∧ s.idleThread ≠ some t := by
  have hok : (schedMachine 0).GuardedRun Disciplined
      (schedMachine 0).start unblockIdle := by
    decide
  refine ⟨_, Machine.ReachableUnder.start.of_run hok rfl, rfl, fun hiff => ?_⟩
  exact ((hiff 1).mp (by decide)).2 rfl

end OsMaterial
