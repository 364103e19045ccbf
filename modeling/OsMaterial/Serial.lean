import OsMaterial.Intq

/-!
# Serial Transmission

The transmit side of `devices/serial.c`: bytes go into an interrupt queue, and leave it through the
interrupt handler, `serial_flush`, or `serial_putc` itself when the queue is full and interrupts are
off. A step is a call, or a call up to the place where it blocks. The input buffer is the answer of
`input_full` only.

* `serial_in_order`: with one thread at a time in `serial_putc`, no byte is lost or overtaken.
-/

namespace OsMaterial

open List

inductive SerialMode where
  | uninit
  | poll
  | queue
  deriving DecidableEq

def ierRecv : UInt8 := 0x01

def ierXmit : UInt8 := 0x02

inductive SerialFault where
  | mode
  | intq (e : IntqFault)
  deriving DecidableEq

structure SerialState (τ : Type*) where
  mode : SerialMode
  txq : IntqState τ
  ier : UInt8
  inputFull : Bool
  thr : Bytes
  accepted : Bytes

inductive SerialLabel (τ : Type*) where
  | initQueue
  | putc (t : τ) (byte : UInt8) (intrOn : Bool)
  | run (t : τ)
  | interrupt (received : List Bool) (ready : ℕ)
  | flush
  | notify (inputFull : Bool)

namespace SerialState

variable {τ : Type*} [DecidableEq τ] (s : SerialState τ)

def queued : Bytes := s.txq.q.contents

def writeIer : SerialState τ :=
  { s with ier :=
      (if s.txq.q.isEmpty then 0 else ierXmit) ||| (if s.inputFull then 0 else ierRecv) }

def initPoll : SerialState τ :=
  { s with ier := 0, txq := { s.txq with q := intqInit s.txq.q.buf }, mode := .poll }

def putcPoll (byte : UInt8) : SerialState τ := { s with thr := s.thr ++ [byte] }

def liftQ (o : Outcome IntqFault (IntqState τ)) (f : IntqState τ → SerialState τ) :
    Outcome SerialFault (SerialState τ) :=
  match o with
  | .next q => .next (f q)
  | .blocked => .blocked
  | .fault e => .fault (.intq e)

def sendOldest : Outcome SerialFault (SerialState τ) :=
  liftQ (s.txq.step (.handler .getc)) fun txq => ({ s with txq }).putcPoll s.txq.q.front

def serialInitQueue : Outcome SerialFault (SerialState τ) :=
  let s := if s.mode = .uninit then s.initPoll else s
  if s.mode = .poll then .next ({ s with mode := .queue }).writeIer else .fault .mode

def putcEnd (t : τ) (byte : UInt8) (txq : IntqState τ) : SerialState τ :=
  if txq.pc t = .outside then
    ({ s with txq, accepted := s.accepted ++ [byte] }).writeIer
  else
    { s with txq }

def putcQueue (t : τ) (byte : UInt8) : Outcome SerialFault (SerialState τ) :=
  liftQ (s.txq.loop t (.putc byte)) (s.putcEnd t byte)

def serialPutc (t : τ) (byte : UInt8) (intrOn : Bool) : Outcome SerialFault (SerialState τ) :=
  if s.mode ≠ .queue then
    let s := if s.mode = .uninit then s.initPoll else s
    .next ({ s with accepted := s.accepted ++ [byte] }.putcPoll byte)
  else if !intrOn && s.txq.q.isFull then
    s.sendOldest.bind fun s => s.putcQueue t byte
  else
    s.putcQueue t byte

def resumePutc (t : τ) : Outcome SerialFault (SerialState τ) :=
  match s.txq.pc t with
  | .downing (.putc byte) => liftQ (s.txq.resume t) (s.putcEnd t byte)
  | .woken (.putc byte) => liftQ (s.txq.resume t) (s.putcEnd t byte)
  | _ => .blocked

def transmit : ℕ → SerialState τ → Outcome SerialFault (SerialState τ)
  | 0, s => .next s
  | ready + 1, s => if s.txq.q.isEmpty then .next s else s.sendOldest.bind (transmit ready)

/-- `serial_flush`. Its loop has no bound, and needs no more rounds than the buffer has cells. -/
def serialFlush : Outcome SerialFault (SerialState τ) := s.transmit 64

def serialNotify : SerialState τ := if s.mode = .queue then s.writeIer else s

def receive : List Bool → SerialState τ → SerialState τ
  | [], s => s
  | full :: rest, s =>
    if s.inputFull then s else receive rest ({ s with inputFull := full }).serialNotify

def serialInterrupt (received : List Bool) (ready : ℕ) : Outcome SerialFault (SerialState τ) :=
  ((s.receive received).transmit ready).bind fun s => .next s.writeIer

def step : SerialLabel τ → Outcome SerialFault (SerialState τ)
  | .initQueue => s.serialInitQueue
  | .putc t byte intrOn =>
    if s.txq.pc t = .outside then s.serialPutc t byte intrOn else .blocked
  | .run t => s.resumePutc t
  | .interrupt received ready =>
    if s.mode = .queue then s.serialInterrupt received ready else .blocked
  | .flush => s.serialFlush
  | .notify inputFull => .next ({ s with inputFull }).serialNotify

end SerialState

/-- **The serial port as a machine.** Static memory is zero, so `txq` is an empty queue. -/
def serialMachine (τ : Type*) [DecidableEq τ] :
    Machine (SerialState τ) (SerialLabel τ) SerialFault where
  start := ⟨.uninit, (intqMachine τ).start, 0, false, [], []⟩
  step := SerialState.step

section

variable {τ : Type*} {s s' : SerialState τ} {t : τ} {byte : UInt8}

/-- **One kernel thread at a time**: nobody is inside when `serial_putc` is called with
interrupts on; and `serial_init_queue` is called once. -/
def OneThread (s : SerialState τ) : SerialLabel τ → Prop
  | .putc _ _ true => ∀ u, s.txq.pc u = .outside
  | .initQueue => s.mode ≠ .queue
  | _ => True

structure SerialOrder (s : SerialState τ) : Prop where
  txq : IntqInv s.txq
  order : s.thr ++ s.queued = s.accepted
  putting : ∀ t, (s.txq.pc t).call ≠ some .getc
  unqueued : s.mode ≠ .queue → s.queued = [] ∧ ∀ t, s.txq.pc t = .outside

structure SerialInv (s : SerialState τ) : Prop extends SerialOrder s where
  xmit : s.mode = .queue → s.queued ≠ [] → s.ier &&& ierXmit ≠ 0

theorem SerialState.ier_writeIer (h : s.queued ≠ []) : s.writeIer.ier &&& ierXmit ≠ 0 := by
  have hempty : s.txq.q.isEmpty = false :=
    Bool.eq_false_iff.mpr fun he => h ((Ring.isEmpty_iff _).mp he)
  rw [SerialState.writeIer, hempty]
  cases s.inputFull with
  | true => exact (by decide : (ierXmit ||| 0) &&& ierXmit ≠ 0)
  | false => exact (by decide : (ierXmit ||| ierRecv) &&& ierXmit ≠ 0)

theorem SerialOrder.writeIer (h : SerialOrder s) : SerialInv s.writeIer :=
  { h with xmit := fun _ hne => SerialState.ier_writeIer hne }

theorem SerialInv.setInputFull (h : SerialInv s) (inputFull : Bool) :
    SerialInv { s with inputFull } :=
  ⟨⟨h.txq, h.order, h.putting, h.unqueued⟩, h.xmit⟩

theorem SerialInv.serialNotify (h : SerialInv s) : SerialInv s.serialNotify := by
  rw [SerialState.serialNotify]
  split
  · exact h.toSerialOrder.writeIer
  · exact h

theorem SerialInv.receive (received : List Bool) (h : SerialInv s) :
    SerialInv (s.receive received) := by
  induction received generalizing s with
  | nil => exact h
  | cons full rest ih =>
    rw [SerialState.receive]
    split
    · exact h
    · exact ih (h.setInputFull full).serialNotify

variable [DecidableEq τ]

theorem SerialInv.sendOldest (h : SerialInv s) (hne : s.txq.q.isEmpty = false) :
    ∃ s', s.sendOldest = .next s' ∧ SerialInv s' ∧ s'.mode = s.mode ∧
      s'.queued.length + 1 = s.queued.length ∧
      (∀ u, (s'.txq.pc u).call = (s.txq.pc u).call) ∧ s'.txq.q.isFull = false := by
  have hop : s.txq.q.holds IntqOp.getc.cond = true := by
    change (!s.txq.q.isEmpty) = true
    rw [hne]
    rfl
  obtain ⟨txq, hfinish, hinv, hring, hout⟩ := h.txq.finish hop
  have hcontents : s.queued = s.txq.q.front :: txq.q.contents := by
    rw [hring]
    exact Ring.contents_pop _ hne
  refine ⟨({ s with txq }).putcPoll s.txq.q.front, ?_, ⟨⟨hinv, ?_, ?_, ?_⟩, ?_⟩, rfl, ?_, hout, ?_⟩
  · have hstep : s.txq.step (.handler .getc) = .next txq := (if_pos hop).trans hfinish
    rw [SerialState.sendOldest, hstep]
    rfl
  · rw [← h.order, hcontents]
    exact append_assoc _ [_] _
  · exact fun t => (hout t).trans_ne (h.putting t)
  · intro hmode
    rw [(h.unqueued hmode).1] at hcontents
    cases hcontents
  · exact fun hmode _ => h.xmit hmode (hcontents ▸ cons_ne_nil _ _)
  · rw [hcontents]
    rfl
  · change txq.q.isFull = false
    rw [hring]
    exact Ring.isFull_pop _ hne

theorem SerialInv.transmit (ready : ℕ) (h : SerialInv s) :
    ∃ s', s.transmit ready = .next s' ∧ SerialInv s' ∧
      (s.queued.length ≤ ready → s'.queued = []) := by
  induction ready generalizing s with
  | zero => exact ⟨s, rfl, h, fun hle => length_eq_zero_iff.mp (Nat.le_zero.mp hle)⟩
  | succ ready ih =>
    rw [SerialState.transmit]
    cases hempty : s.txq.q.isEmpty with
    | true => exact ⟨s, if_pos rfl, h, fun _ => (Ring.isEmpty_iff _).mp hempty⟩
    | false =>
      obtain ⟨s₁, hs₁, h₁, -, hlen, -⟩ := h.sendOldest hempty
      obtain ⟨s', hs', h', hdone⟩ := ih h₁
      refine ⟨s', ?_, h', fun hle => hdone (by omega)⟩
      rw [if_neg Bool.false_ne_true, hs₁, Outcome.bind_next, hs']

theorem SerialInv.serialFlush (h : SerialInv s) :
    ∃ s', s.serialFlush = .next s' ∧ SerialInv s' ∧ s'.queued = [] := by
  obtain ⟨s', hs', h', hdone⟩ := h.transmit 64
  have hlen : s.queued.length < 64 := by
    rw [SerialState.queued, Ring.length_contents]
    exact Ring.count_lt _
  exact ⟨s', hs', h', hdone hlen.le⟩

theorem SerialInv.serialInterrupt (h : SerialInv s) (received : List Bool) (ready : ℕ) :
    ∃ s', s.serialInterrupt received ready = .next s' ∧ SerialInv s' := by
  obtain ⟨s₁, hs₁, h₁, -⟩ := (h.receive received).transmit ready
  refine ⟨s₁.writeIer, ?_, h₁.toSerialOrder.writeIer⟩
  rw [SerialState.serialInterrupt, hs₁, Outcome.bind_next]

inductive PutcEnd (s : SerialState τ) (t : τ) (byte : UInt8) (txq : IntqState τ) : Prop where
  | stored (room : s.txq.q.isFull = false) (ring : txq.q.toRing = s.txq.q.toRing.push byte)
      (self : txq.pc t = .outside) (putting : ∀ u, (txq.pc u).call ≠ some .getc)
  | waits (ring : txq.q.toRing = s.txq.q.toRing) (self : txq.pc t = .waiting (.putc byte))
      (other : ∀ u, u ≠ t → txq.pc u = .outside)

theorem SerialInv.putcEnd (h : SerialInv s) {txq : IntqState τ} (hmode : s.mode = .queue)
    (hinv : IntqInv txq) (hend : PutcEnd s t byte txq) : SerialInv (s.putcEnd t byte txq) := by
  rw [SerialState.putcEnd]
  cases hend with
  | stored room ring self putting =>
    rw [if_pos self]
    refine SerialOrder.writeIer ⟨hinv, ?_, putting, fun h => absurd hmode h⟩
    have hcontents : txq.q.contents = s.queued ++ [byte] := by
      rw [ring]
      exact Ring.contents_push _ _ room
    change s.thr ++ txq.q.contents = s.accepted ++ [byte]
    rw [hcontents, ← h.order, append_assoc]
  | waits ring self other =>
    have hqueued : txq.q.contents = s.queued := congrArg Ring.contents ring
    rw [if_neg (by rw [self]; exact IntqPc.noConfusion)]
    refine ⟨⟨hinv, ?_, fun u => ?_, fun h => absurd hmode h⟩, fun _ hne => ?_⟩
    · exact (congrArg (s.thr ++ ·) hqueued).trans h.order
    · change (txq.pc u).call ≠ _
      by_cases hu : u = t
      · simp [hu, self, IntqPc.call]
      · simp [other u hu, IntqPc.call]
    · exact h.xmit hmode (hqueued ▸ hne)

theorem SerialInv.putcQueue (h : SerialInv s) (hmode : s.mode = .queue)
    (hpc : s.txq.pc t = .outside) (hok : s.txq.q.isFull = false ∨ ∀ u, s.txq.pc u = .outside) :
    ∃ s', s.putcQueue t byte = .next s' ∧ SerialInv s' := by
  have hfree : s.txq.q.holds (IntqOp.putc byte).cond = true ∨
      s.txq.q.lock.semaphore.value ≠ 0 := by
    refine hok.imp (fun hroom => ?_) h.txq.lock_free
    change (!s.txq.q.isFull) = true
    rw [hroom]
    rfl
  obtain ⟨txq, hloop, hinv, hend⟩ := h.txq.call hpc hfree
  refine ⟨s.putcEnd t byte txq, ?_, h.putcEnd hmode hinv ?_⟩
  · rw [SerialState.putcQueue, hloop]
    rfl
  · rcases hend with ⟨hroom, hring, hcall⟩ | ⟨-, hring, hself, hother⟩
    · refine .stored (by simpa [Intq.holds, IntqOp.cond] using hroom) hring ?_ fun u => ?_
      · rw [← IntqPc.call_eq_none, hcall t, hpc]
        rfl
      · rw [hcall u]
        exact h.putting u
    · exact .waits hring hself hother

section

variable (h : SerialInv s) (hmode : s.mode ≠ .queue)

include h hmode
omit [DecidableEq τ]

theorem SerialInv.putcPoll :
    SerialInv ({ s with accepted := s.accepted ++ [byte] }.putcPoll byte) := by
  obtain ⟨hqueued, hout⟩ := h.unqueued hmode
  refine ⟨⟨h.txq, ?_, h.putting, h.unqueued⟩, h.xmit⟩
  have horder := h.order
  rw [hqueued, append_nil] at horder
  change s.thr ++ [byte] ++ s.queued = s.accepted ++ [byte]
  rw [hqueued, append_nil, horder]

theorem SerialInv.initPoll : SerialInv s.initPoll := by
  obtain ⟨hqueued, hout⟩ := h.unqueued hmode
  refine ⟨⟨.idle rfl hout fun c => by cases c <;> rfl, ?_, h.putting,
    fun _ => ⟨contents_intqInit _, hout⟩⟩, fun hqueue => SerialMode.noConfusion hqueue⟩
  have horder := h.order
  rw [hqueued] at horder
  exact (congrArg (s.thr ++ ·) (contents_intqInit _)).trans horder

theorem SerialInv.initialized :
    SerialInv (if s.mode = .uninit then s.initPoll else s) ∧
      (if s.mode = .uninit then s.initPoll else s).mode = .poll := by
  split
  · exact ⟨h.initPoll hmode, rfl⟩
  · next huninit =>
    refine ⟨h, ?_⟩
    cases hm : s.mode with
    | uninit => exact absurd hm huninit
    | poll => rfl
    | queue => exact absurd hm hmode

theorem SerialInv.serialInitQueue : ∃ s', s.serialInitQueue = .next s' ∧ SerialInv s' := by
  obtain ⟨hinv, hpoll⟩ := h.initialized hmode
  refine ⟨_, if_pos hpoll, ?_⟩
  exact SerialOrder.writeIer ⟨hinv.txq, hinv.order, hinv.putting, fun hne => absurd rfl hne⟩

end

theorem SerialInv.serialPutc (h : SerialInv s) (hpc : s.txq.pc t = .outside) (byte : UInt8)
    (intrOn : Bool) (hok : intrOn = true → ∀ u, s.txq.pc u = .outside) :
    ∃ s', s.serialPutc t byte intrOn = .next s' ∧ SerialInv s' := by
  rw [SerialState.serialPutc]
  split
  · next hmode =>
    obtain ⟨hinv, hpoll⟩ := h.initialized hmode
    exact ⟨_, rfl, hinv.putcPoll (by rw [hpoll]; exact SerialMode.noConfusion)⟩
  · next hmode =>
    have hqueue : s.mode = .queue := not_not.mp hmode
    split
    · next hfull =>
      have hfull : s.txq.q.isFull = true := (Bool.and_eq_true _ _ ▸ hfull).2
      obtain ⟨s₁, hs₁, h₁, hmode₁, -, hcall, hroom⟩ :=
        h.sendOldest (Ring.isEmpty_of_isFull _ (by decide) hfull)
      have hpc₁ : s₁.txq.pc t = .outside := by
        rw [← IntqPc.call_eq_none, hcall t, hpc]
        rfl
      rw [hs₁, Outcome.bind_next]
      exact h₁.putcQueue (hmode₁.trans hqueue) hpc₁ (Or.inl hroom)
    · next hroom =>
      refine h.putcQueue hqueue hpc ?_
      cases intrOn with
      | true => exact Or.inr (hok rfl)
      | false => exact Or.inl (by simpa using hroom)

theorem SerialInv.resumePutc (h : SerialInv s) :
    s.resumePutc t = .blocked ∨ ∃ s', s.resumePutc t = .next s' ∧ SerialInv s' := by
  rw [SerialState.resumePutc]
  rcases h.txq.pc_cases t with hpc | ⟨op, hpc | hpc⟩
  · rw [hpc]
    exact Or.inl rfl
  · rw [hpc]
    exact Or.inl rfl
  · have hput := h.putting t
    rw [hpc] at hput
    cases op with
    | getc => exact absurd rfl hput
    | putc byte =>
      have hmode : s.mode = .queue := by
        by_contra hne
        rw [(h.unqueued hne).2 t] at hpc
        cases hpc
      obtain ⟨s₁, hfree, hring₁, hresume⟩ := h.txq.resume hpc
      obtain ⟨txq, hloop, hinv, hend⟩ := hfree.loop (.putc byte)
      refine Or.inr ⟨s.putcEnd t byte txq, ?_, h.putcEnd hmode hinv ?_⟩
      · rw [hpc]
        rw [hresume, hloop]
        rfl
      · rcases hend with ⟨hroom, hring, hout⟩ | ⟨-, hring, hself, hother⟩
        · refine .stored ?_ (hring.trans ?_) (hout t) fun u => ?_
          · rw [← hring₁]
            simpa [Intq.holds, IntqOp.cond] using hroom
          · rw [← hring₁]
            rfl
          · simp [hout u, IntqPc.call]
        · exact .waits (hring.trans hring₁) hself hother

theorem serialInv_start : SerialInv (serialMachine τ).start where
  txq := intqInv_start
  order := contents_intqInit _
  putting := fun _ => by simp [serialMachine, intqMachine, IntqPc.call]
  unqueued := fun _ => ⟨contents_intqInit _, fun _ => rfl⟩
  xmit := fun hqueue => SerialMode.noConfusion hqueue

theorem serialMachine_preserves : (serialMachine τ).Preserves OneThread SerialInv := by
  intro s label h hok
  cases label with
  | initQueue => exact Or.inr (h.serialInitQueue hok)
  | putc t byte intrOn =>
    by_cases hpc : s.txq.pc t = .outside
    · obtain ⟨s', hs', h'⟩ := h.serialPutc hpc byte intrOn fun hon => by
        subst hon
        exact hok
      exact Or.inr ⟨s', (if_pos hpc).trans hs', h'⟩
    · exact Or.inl (if_neg hpc)
  | run t => exact h.resumePutc
  | interrupt received ready =>
    by_cases hmode : s.mode = .queue
    · obtain ⟨s', hs', h'⟩ := h.serialInterrupt received ready
      exact Or.inr ⟨s', (if_pos hmode).trans hs', h'⟩
    · exact Or.inl (if_neg hmode)
  | flush =>
    obtain ⟨s', hs', h', -⟩ := h.serialFlush
    exact Or.inr ⟨s', hs', h'⟩
  | notify inputFull => exact Or.inr ⟨_, rfl, (h.setInputFull inputFull).serialNotify⟩

/-- **Transmission keeps the order and cannot stall**, with one thread at a time in `serial_putc`.
-/
theorem serial_in_order (s : SerialState τ) (hs : (serialMachine τ).ReachableUnder OneThread s) :
    s.thr ++ s.txq.q.contents = s.accepted ∧
      (s.mode = .queue → s.txq.q.contents ≠ [] → s.ier &&& ierXmit ≠ 0) ∧
      ∀ label, OneThread s label → ∀ e, (serialMachine τ).step s label ≠ .fault e := by
  have hinv := hs.of_preserves serialMachine_preserves serialInv_start
  exact ⟨hinv.order, hinv.xmit, fun label hok e => serialMachine_preserves.not_fault hinv hok e⟩

end

instance decidableOneThread {n : ℕ} (s : SerialState (Fin n)) (label : SerialLabel (Fin n)) :
    Decidable (OneThread s label) := by
  unfold OneThread
  split <;> infer_instance

def sendTwo : List (SerialLabel (Fin 1)) :=
  [.putc 0 7 true, .initQueue, .putc 0 1 true, .putc 0 2 false, .interrupt [false] 1,
    .putc 0 3 true]

/-- Bytes before and after interrupts are used. -/
theorem serial_in_order_sendTwo :
    ∃ s, (serialMachine (Fin 1)).run (serialMachine (Fin 1)).start sendTwo = .next s ∧
      s.thr = [7, 1] ∧ s.thr ++ s.txq.q.contents = s.accepted := by
  refine ⟨_, rfl, by decide, ?_⟩
  have hok : (serialMachine (Fin 1)).GuardedRun OneThread (serialMachine (Fin 1)).start
      sendTwo := by
    decide
  exact (serial_in_order _ (Machine.ReachableUnder.start.of_run hok rfl)).1

end OsMaterial
