import OsMaterial.KernelList

/-!
# The List of All Threads under Preemption

`all_list` of `threads/thread.c`. `init_thread` appends a thread **with interrupts as the caller
left them**, and `thread_exit` takes it out with interrupts off. Every assignment of `list_insert`
is a step. A ledger holds the threads that are initialized and have not exited.

* `allList_lost_thread`: two threads that create threads at the same time can **lose a thread**.
* `allList_consistent_of_exclusive`: without such an overlap the list holds the threads of the
  ledger.
-/

namespace OsMaterial

open List
open Function (update update_apply update_comm)

inductive AllCell (α : Type*) where
  | head
  | tail
  | elem (t : α)
  deriving DecidableEq

inductive CreatePc (α : Type*) where
  | outside
  | inserting (new : α) (k : InsertStep)
  deriving DecidableEq

def CreatePc.between {α : Type*} : CreatePc α → Bool
  | outside => false
  | inserting _ k => k ≠ .elemPrev

structure AllListState (α : Type*) where
  links : Links (AllCell α)
  current : α
  intrOn : α → Bool
  pc : α → CreatePc α
  alive : List α

inductive AllListLabel (α : Type*) where
  | setLevel (on : Bool)
  | switch (t : α)
  | create (new : α)
  | assign
  | exit (next : α)
  deriving DecidableEq

namespace AllListState

variable {α : Type*} [DecidableEq α]

def zeroLinks (links : Links (AllCell α)) (t : α) : Links (AllCell α) :=
  (links.setPrev (.elem t) none).setNext (.elem t) none

def FreePage (s : AllListState α) (t : α) : Prop :=
  t ∉ s.alive ∧ ∀ u ∈ s.alive, ∀ k, s.pc u ≠ .inserting t k

instance (s : AllListState α) (t : α) : Decidable (s.FreePage t) :=
  inferInstanceAs (Decidable (_ ∧ _))

def step (s : AllListState α) : AllListLabel α → Outcome ListFault (AllListState α)
  | .setLevel on =>
    if s.pc s.current = .outside then
      .next { s with intrOn := update s.intrOn s.current on }
    else
      .blocked
  | .switch t =>
    if t ∈ s.alive ∧ (s.intrOn s.current ∨ s.pc s.current = .outside) then
      .next { s with current := t }
    else
      .blocked
  | .create new =>
    if s.pc s.current = .outside ∧ s.FreePage new then
      if isInterior s.links .tail ∨ isTail s.links .tail then
        .next { s with
          links := zeroLinks s.links new
          pc := update s.pc s.current (.inserting new .elemPrev) }
      else
        .fault .notBefore
    else
      .blocked
  | .assign =>
    match s.pc s.current with
    | .outside => .blocked
    | .inserting new k =>
      (insertAssign s.links .tail (.elem new) k).bind fun links =>
        if k = .beforePrev then
          -- a new thread runs `intr_enable` first
          .next { s with
            links
            intrOn := update s.intrOn new true
            pc := update s.pc s.current .outside
            alive := s.alive ++ [new] }
        else
          .next { s with
            links
            pc := update s.pc s.current (.inserting new k.next) }
  | .exit next =>
    if s.pc s.current = .outside ∧ next ∈ s.alive ∧ next ≠ s.current then
      (listRemove s.links (.elem s.current)).bind fun r =>
        .next { s with links := r.1, current := next, alive := s.alive.erase s.current }
    else
      .blocked

/-- No live thread is inside `list_insert`. -/
def Quiescent (s : AllListState α) : Prop :=
  ∀ t ∈ s.alive, s.pc t = .outside

instance (s : AllListState α) : Decidable s.Quiescent :=
  inferInstanceAs (Decidable (∀ t ∈ s.alive, _))

/-- **`all_list` has the live threads**, each once. -/
def Consistent (s : AllListState α) : Prop :=
  ∃ xs, s.links.IsList .head .tail xs ∧ xs.Nodup ∧ ∀ t, .elem t ∈ xs ↔ t ∈ s.alive

def threadForeach (s : AllListState α) (fuel : ℕ) : Option (List (AllCell α)) :=
  (s.links.next .head).bind (listWalk s.links .tail fuel)

/-- No other thread is between the assignments of an insertion. -/
def Exclusive (s : AllListState α) : AllListLabel α → Prop
  | .assign => ∀ u ∈ s.alive, u ≠ s.current → ¬ (s.pc u).between
  | .exit _ => ∀ u ∈ s.alive, u ≠ s.current → ¬ (s.pc u).between
  | _ => True

end AllListState

/-- `all_list` as `thread_init` leaves it: `list_init`, and the initial thread on the page
`main`, appended with interrupts off. -/
def allListMachine {α : Type*} [DecidableEq α] (main : α) :
    Machine (AllListState α) (AllListLabel α) ListFault where
  start :=
    { links :=
        match listInsert (AllListState.zeroLinks
          (listInit ⟨fun _ => none, fun _ => none⟩ .head .tail) main) .tail (.elem main) with
        | .next links => links
        | _ => ⟨fun _ => none, fun _ => none⟩
      current := main
      intrOn := fun _ => false
      pc := fun _ => .outside
      alive := [main] }
  step := AllListState.step

open AllListState

section Invariant

variable {α : Type*} [DecidableEq α] {s : AllListState α}

/-! ### The invariant of exclusive runs -/

structure AllListInv (s : AllListState α) : Prop where
  current_alive : s.current ∈ s.alive
  nodup : s.alive.Nodup
  outside : ∀ t, t ∉ s.alive → s.pc t = .outside
  fresh : ∀ t new k, s.pc t = .inserting new k → new ∉ s.alive
  distinct : ∀ t u new k l, s.pc t = .inserting new k → s.pc u = .inserting new l → t = u
  list : ∃ h₀ : Links (AllCell α), h₀.IsList .head .tail (s.alive.map .elem) ∧
    ((∀ t, ¬ (s.pc t).between) ∧ s.links = h₀ ∨
      ∃ t new k, s.pc t = .inserting new k ∧ k ≠ .elemPrev ∧
        insertUpTo h₀ .tail (.elem new) k = .next s.links ∧
        ∀ u, u ≠ t → ¬ (s.pc u).between)

variable {t : α} {l : List α}

omit [DecidableEq α] in
theorem elem_not_mem (h : t ∉ l) :
    AllCell.elem t ∉ AllCell.head :: l.map AllCell.elem ++ [AllCell.tail] := by
  simpa using h

theorem zeroLinks_isList {h : Links (AllCell α)} (ht : t ∉ l)
    (hl : h.IsList .head .tail (l.map .elem)) :
    (zeroLinks h t).IsList .head .tail (l.map .elem) := by
  refine hl.congr fun x hx => ?_
  have hne : x ≠ .elem t := fun hxt => elem_not_mem ht (hxt ▸ hx)
  simp [zeroLinks, hne]

variable {new : α} {k : InsertStep}

theorem insertUpTo_zeroLinks {h h' : Links (AllCell α)} {a : AllCell α}
    (hprev : h.prev .tail = some a) (hta : a ≠ .elem t) (hne : new ≠ t)
    (hk : insertUpTo h .tail (.elem new) k = .next h') :
    insertUpTo (zeroLinks h t) .tail (.elem new) k = .next (zeroLinks h' t) := by
  have hne' : AllCell.elem t ≠ AllCell.elem new := by simpa using hne.symm
  cases k with
  | elemPrev =>
    simp only [insertUpTo, Outcome.next.injEq] at hk ⊢
    rw [hk]
  | elemNext =>
    simp only [insertUpTo, insertAssign, Outcome.next.injEq] at hk ⊢
    subst hk
    ext1
    · rfl
    · simp [zeroLinks, update_comm hne']
  | prevNext =>
    simp only [insertUpTo, insertAssign, Outcome.bind_next, Outcome.next.injEq] at hk ⊢
    subst hk
    ext1
    · simp [zeroLinks, update_comm hne']
    · simp [zeroLinks, update_comm hne']
  | beforePrev =>
    simp only [insertUpTo, insertAssign, Outcome.bind_next, Links.setNext_prev, Links.setPrev_prev,
      zeroLinks, update_apply, reduceCtorEq, if_false, hprev, Outcome.next.injEq] at hk ⊢
    subst hk
    ext1
    · simp [update_comm hne', update_comm hta.symm]
    · simp [update_comm hne']

theorem allListInv_start (main : α) : AllListInv (allListMachine main).start := by
  have hl := zeroLinks_isList (t := main) (l := []) (by simp)
    (listInit_isList ⟨fun _ => none, fun _ => none⟩ (by nofun))
  obtain ⟨h', hins, -, hl'⟩ := listInsert_back hl (elem_not_mem (t := main) (l := []) (by simp))
  constructor
  case current_alive => simp [allListMachine]
  case nodup => simp [allListMachine]
  case outside => simp [allListMachine]
  case fresh => simp [allListMachine]
  case distinct => simp [allListMachine]
  case list =>
    refine ⟨h', by simpa [allListMachine] using hl', .inl ⟨?_, ?_⟩⟩
    · simp [allListMachine, CreatePc.between]
    · simp [allListMachine, hins]

namespace AllListInv

omit [DecidableEq α] in
theorem prev_tail_ne {h : Links (AllCell α)} (ht : t ∉ l)
    (hl : h.IsList .head .tail (l.map .elem)) : ∃ a, h.prev .tail = some a ∧ a ≠ .elem t := by
  obtain ⟨as, a, ha, hprev, -⟩ := hl.last
  refine ⟨a, hprev, ?_⟩
  rintro rfl
  have hm : AllCell.elem t ∈ AllCell.head :: l.map AllCell.elem := ha ▸ by simp
  exact elem_not_mem ht (mem_append_left _ hm)

section

variable (h : AllListInv s)

include h

theorem switch (ht : t ∈ s.alive) (on : α → Bool) :
    AllListInv { s with current := t, intrOn := on } :=
  { h with current_alive := ht }

theorem isTail_tail : isTail s.links .tail := by
  obtain ⟨h₀, hl, ⟨-, heq⟩ | ⟨t, new, k, -, -, hk, -⟩⟩ := h.list
  · exact heq ▸ isTail_of_isList hl
  · have hn := hl.tail_next
    obtain ⟨-, a, -, ha, hat⟩ := hl.last
    cases k with
    | elemPrev =>
      simp only [insertUpTo, Outcome.next.injEq] at hk
      exact hk ▸ isTail_of_isList hl
    | elemNext =>
      simp only [insertUpTo, insertAssign, Outcome.next.injEq] at hk
      exact hk ▸ ⟨by simp [ha], by simp [hn]⟩
    | prevNext =>
      simp only [insertUpTo, insertAssign, Outcome.bind_next, Outcome.next.injEq] at hk
      exact hk ▸ ⟨by simp [ha], by simp [hn]⟩
    | beforePrev =>
      simp only [insertUpTo, insertAssign, Outcome.bind_next, Links.setNext_prev,
        Links.setPrev_prev, update_apply, reduceCtorEq, if_false, ha, Outcome.next.injEq] at hk
      exact hk ▸ ⟨by simp [ha], by simp [hn, hat.symm]⟩

theorem create (hout : s.pc s.current = .outside) (hfree : s.FreePage new) :
    AllListInv { s with
      links := zeroLinks s.links new
      pc := update s.pc s.current (.inserting new .elemPrev) } := by
  have hnew : ∀ t k, s.pc t ≠ .inserting new k := by
    intro t k hpc
    by_cases ht : t ∈ s.alive
    · exact hfree.2 t ht k hpc
    · rw [h.outside t ht] at hpc
      cases hpc
  have hbt : ∀ t, (update s.pc s.current (.inserting new .elemPrev) t).between =
      (s.pc t).between := by
    intro t
    by_cases ht : t = s.current
    · subst ht
      simp [CreatePc.between, hout]
    · simp [ht]
  constructor
  case current_alive => exact h.current_alive
  case nodup => exact h.nodup
  case outside =>
    intro t ht
    have hne : t ≠ s.current := fun hc => ht (hc ▸ h.current_alive)
    simpa [hne] using h.outside t ht
  case fresh =>
    intro t n k hpc
    simp only [update_apply] at hpc
    split at hpc
    · cases hpc
      exact hfree.1
    · exact h.fresh t n k hpc
  case distinct =>
    intro t u n k l ht hu
    have := h.distinct t u n k l
    grind
  case list =>
    obtain ⟨h₀, hl, hcase⟩ := h.list
    obtain ⟨a, ha, hane⟩ := prev_tail_ne hfree.1 hl
    refine ⟨zeroLinks h₀ new, zeroLinks_isList hfree.1 hl, ?_⟩
    rcases hcase with ⟨hno, heq⟩ | ⟨t, n, k, hpc, hk0, hk, hothers⟩
    · exact .inl ⟨fun t => by simpa only [hbt t] using hno t, by rw [heq]⟩
    · have htc : t ≠ s.current := by
        rintro rfl
        rw [hout] at hpc
        cases hpc
      have hne : n ≠ new := by
        rintro rfl
        exact hnew t k hpc
      refine .inr ⟨t, n, k, by simpa [htc] using hpc, hk0, ?_, ?_⟩
      · exact insertUpTo_zeroLinks ha hane hne hk
      · exact fun u hu => by simpa only [hbt u] using hothers u hu

theorem lastAssign {h₀ h' : Links (AllCell α)} (hpc : s.pc s.current = .inserting new .beforePrev)
    (hl : h₀.IsList .head .tail (s.alive.map .elem))
    (hk : insertUpTo h₀ .tail (.elem new) .beforePrev = .next s.links)
    (hothers : ∀ u, u ≠ s.current → ¬ (s.pc u).between)
    (hassign : insertAssign s.links .tail (.elem new) .beforePrev = .next h') (on : α → Bool) :
    AllListInv { s with
      links := h'
      intrOn := on
      pc := update s.pc s.current .outside
      alive := s.alive ++ [new] } := by
  have hfresh := h.fresh _ _ _ hpc
  constructor
  case current_alive => exact mem_append_left _ h.current_alive
  case nodup =>
    refine nodup_append.mpr ⟨h.nodup, nodup_singleton new, ?_⟩
    rintro x hx y hy rfl
    exact hfresh (mem_singleton.mp hy ▸ hx)
  case outside =>
    intro t ht
    simp only [mem_append, not_or] at ht
    have hne : t ≠ s.current := fun hc => ht.1 (hc ▸ h.current_alive)
    simpa [hne] using h.outside t ht.1
  case fresh =>
    intro t n k ht
    have := h.fresh t n k
    have := h.distinct t s.current n k .beforePrev
    grind
  case distinct =>
    intro t u n k l ht hu
    have := h.distinct t u n k l
    grind
  case list =>
    obtain ⟨h'', -, heq, hl'⟩ := listInsert_back hl (elem_not_mem hfresh)
    rw [hk, Outcome.bind_next, hassign, Outcome.next.injEq] at heq
    refine ⟨h', by simpa [heq] using hl', .inl ⟨fun t => ?_, rfl⟩⟩
    by_cases ht : t = s.current
    · simp [ht, CreatePc.between]
    · simpa [ht] using hothers t ht

theorem nextAssign {h₀ h' : Links (AllCell α)} (hpc : s.pc s.current = .inserting new k)
    (hk3 : k ≠ .beforePrev) (hl : h₀.IsList .head .tail (s.alive.map .elem))
    (hk : insertUpTo h₀ .tail (.elem new) k = .next s.links)
    (hothers : ∀ u, u ≠ s.current → ¬ (s.pc u).between)
    (hassign : insertAssign s.links .tail (.elem new) k = .next h') :
    AllListInv { s with
      links := h'
      pc := update s.pc s.current (.inserting new k.next) } := by
  constructor
  case current_alive => exact h.current_alive
  case nodup => exact h.nodup
  case outside =>
    intro t ht
    have hne : t ≠ s.current := fun hc => ht (hc ▸ h.current_alive)
    simpa [hne] using h.outside t ht
  case fresh =>
    intro t n l ht
    have := h.fresh t n
    grind
  case distinct =>
    intro t u n l m ht hu
    have h₁ := fun l => h.distinct t u n l m
    have h₂ := fun m => h.distinct t u n l m
    grind
  case list =>
    refine ⟨h₀, hl, .inr ⟨s.current, new, k.next, by simp, ?_, ?_, ?_⟩⟩
    · cases k <;> nofun
    · rw [insertUpTo_next hk3 hk, hassign]
    · intro u hu
      simpa [hu] using hothers u hu

theorem exit {next : α} (hout : s.pc s.current = .outside) (hnext : next ∈ s.alive)
    (hne : next ≠ s.current) (hno : ∀ u, ¬ (s.pc u).between) :
    ∃ r, listRemove s.links (.elem s.current) = .next r ∧
      AllListInv { s with
        links := r.1, current := next, alive := s.alive.erase s.current } := by
  obtain ⟨h₀, hl, hcase⟩ := h.list
  have heq : s.links = h₀ := by
    rcases hcase with ⟨-, heq⟩ | ⟨t, new, k, hpc, hk0, -⟩
    · exact heq
    · exact absurd (by simp [hpc, CreatePc.between, hk0]) (hno t)
  obtain ⟨as, bs, hab⟩ := append_of_mem h.current_alive
  have hnd := h.nodup
  rw [hab, nodup_append] at hnd
  have hcur : s.current ∉ as := fun hm => hnd.2.2 _ hm _ (by simp) rfl
  have herase : s.alive.erase s.current = as ++ bs := by
    rw [hab, erase_append_right _ hcur, erase_cons_head]
  rw [hab, map_append, map_cons] at hl
  obtain ⟨h', e, hrem, hl'⟩ := listRemove_spec hl
  refine ⟨(h', e), heq ▸ hrem, ?_⟩
  have hsub : ∀ t, t ∈ s.alive.erase s.current → t ∈ s.alive := fun t => mem_of_mem_erase
  constructor
  case current_alive => exact (mem_erase_of_ne hne).mpr hnext
  case nodup => exact h.nodup.erase _
  case outside =>
    intro t ht
    by_cases htc : t = s.current
    · exact htc ▸ hout
    · exact h.outside t fun hm => ht ((mem_erase_of_ne htc).mpr hm)
  case fresh => exact fun t n k hpc hm => h.fresh t n k hpc (hsub n hm)
  case distinct => exact h.distinct
  case list =>
    refine ⟨h', ?_, .inl ⟨hno, rfl⟩⟩
    rw [herase, map_append]
    exact hl'

theorem begun (hpc : s.pc s.current = .inserting new k)
    (hothers : ∀ u, u ≠ s.current → ¬ (s.pc u).between) :
    ∃ h₀ : Links (AllCell α), h₀.IsList .head .tail (s.alive.map .elem) ∧
      insertUpTo h₀ .tail (.elem new) k = .next s.links := by
  obtain ⟨h₀, hl, ⟨hno, heq⟩ | ⟨t, n, l, ht, hl0, hk, -⟩⟩ := h.list
  · have hk0 : k = .elemPrev := by
      have := hno s.current
      simpa [hpc, CreatePc.between] using this
    exact ⟨h₀, hl, by rw [hk0, heq, insertUpTo]⟩
  · have htc : t = s.current := by
      by_contra htc
      exact hothers t htc (by simp [ht, CreatePc.between, hl0])
    subst htc
    rw [hpc, CreatePc.inserting.injEq] at ht
    obtain ⟨rfl, rfl⟩ := ht
    exact ⟨h₀, hl, hk⟩

theorem insertAssign_next (new : α) (k : InsertStep) :
    ∃ h', insertAssign s.links .tail (.elem new) k = .next h' := by
  obtain ⟨a, ha⟩ := Option.ne_none_iff_exists'.mp h.isTail_tail.1
  cases k with
  | elemPrev | elemNext | beforePrev => exact ⟨_, rfl⟩
  | prevNext => exact ⟨_, by rw [insertAssign, ha]⟩

theorem step {i : AllListLabel α} (hok : s.Exclusive i) :
    s.step i = .blocked ∨ ∃ s', s.step i = .next s' ∧ AllListInv s' := by
  cases i with
  | setLevel on =>
    by_cases hc : s.pc s.current = .outside
    · exact .inr ⟨_, if_pos hc, h.switch h.current_alive _⟩
    · exact .inl (by simp only [AllListState.step, if_neg hc])
  | switch t =>
    by_cases hc : t ∈ s.alive ∧ (s.intrOn s.current ∨ s.pc s.current = .outside)
    · exact .inr ⟨_, if_pos hc, h.switch hc.1 s.intrOn⟩
    · exact .inl (by simp only [AllListState.step, if_neg hc])
  | create new =>
    by_cases hc : s.pc s.current = .outside ∧ s.FreePage new
    · have htail : isInterior s.links .tail ∨ isTail s.links .tail := .inr h.isTail_tail
      exact .inr ⟨_, by simp only [AllListState.step, if_pos hc, if_pos htail], h.create hc.1 hc.2⟩
    · exact .inl (by simp only [AllListState.step, if_neg hc])
  | assign =>
    have hothers : ∀ u, u ≠ s.current → ¬ (s.pc u).between := by
      intro u hu
      by_cases hua : u ∈ s.alive
      · exact hok u hua hu
      · simp [h.outside u hua, CreatePc.between]
    cases hpc : s.pc s.current with
    | outside => exact .inl (by simp only [AllListState.step, hpc])
    | inserting new k =>
      obtain ⟨h', hassign⟩ := h.insertAssign_next new k
      obtain ⟨h₀, hl, hk⟩ := h.begun hpc hothers
      right
      by_cases hk3 : k = .beforePrev
      · subst hk3
        refine ⟨_, ?_, h.lastAssign hpc hl hk hothers hassign (update s.intrOn new true)⟩
        simp only [AllListState.step, hpc, hassign, Outcome.bind_next, if_true]
      · refine ⟨_, ?_, h.nextAssign hpc hk3 hl hk hothers hassign⟩
        simp only [AllListState.step, hpc, hassign, Outcome.bind_next, if_neg hk3]
  | exit next =>
    by_cases hc : s.pc s.current = .outside ∧ next ∈ s.alive ∧ next ≠ s.current
    · have hno : ∀ u, ¬ (s.pc u).between := by
        intro u
        by_cases hu : u = s.current
        · simp [hu, hc.1, CreatePc.between]
        · by_cases hua : u ∈ s.alive
          · exact hok u hua hu
          · simp [h.outside u hua, CreatePc.between]
      obtain ⟨r, hr, hi⟩ := h.exit hc.1 hc.2.1 hc.2.2 hno
      exact .inr ⟨_, by simp only [AllListState.step, if_pos hc, hr, Outcome.bind_next], hi⟩
    · exact .inl (by simp only [AllListState.step, if_neg hc])

theorem isList_of_quiescent (hq : s.Quiescent) :
    s.links.IsList .head .tail (s.alive.map .elem) := by
  obtain ⟨h₀, hl, ⟨-, heq⟩ | ⟨t, new, k, hpc, -⟩⟩ := h.list
  · exact heq ▸ hl
  · have hout : s.pc t = .outside := by
      by_cases ht : t ∈ s.alive
      · exact hq t ht
      · exact h.outside t ht
    rw [hout] at hpc
    cases hpc

end

end AllListInv

theorem allListMachine_preserves (main : α) :
    (allListMachine main).Preserves Exclusive AllListInv :=
  fun _ _ hi hok => hi.step hok

/-! ### Consistency -/

/-- **`all_list` is consistent** over every exclusive run, and `thread_foreach` visits
every live thread once. -/
theorem allList_consistent_of_exclusive (main : α) (s : AllListState α)
    (h : (allListMachine main).ReachableUnder Exclusive s) (hq : s.Quiescent) :
    s.Consistent ∧
      (∀ fuel, s.alive.length < fuel → s.threadForeach fuel = some (s.alive.map .elem)) ∧
      s.alive.Nodup := by
  have hi := h.of_preserves (allListMachine_preserves main) (allListInv_start main)
  have hl := hi.isList_of_quiescent hq
  refine ⟨⟨_, hl, ?_, ?_⟩, ?_, hi.nodup⟩
  · exact List.Nodup.map (fun a b hab => AllCell.elem.inj hab) hi.nodup
  · simp
  · intro fuel hf
    obtain ⟨first, hfirst, hwalk⟩ := listWalk_eq hl
    rw [threadForeach, hfirst, Option.bind_some, hwalk fuel (by simpa using hf)]

end Invariant

instance AllListState.decidableExclusive (s : AllListState ℕ) (i : AllListLabel ℕ) :
    Decidable (s.Exclusive i) := by
  unfold AllListState.Exclusive
  split <;> infer_instance

def createInTurn : List (AllListLabel ℕ) :=
  [.setLevel true, .create 1, .assign, .assign, .assign, .assign, .create 2, .assign, .assign,
    .assign, .assign, .switch 1, .create 3, .assign, .assign, .assign, .assign, .exit 0]

/-- Two threads that are created one after the other. -/
theorem allList_consistent_of_exclusive_createInTurn :
    ∃ s : AllListState ℕ,
      (allListMachine 0).run (allListMachine 0).start createInTurn = .next s ∧
      s.alive = [0, 2, 3] ∧ s.threadForeach 4 = some [.elem 0, .elem 2, .elem 3] := by
  refine ⟨_, rfl, rfl, ?_⟩
  have hok : (allListMachine 0).GuardedRun Exclusive
      (allListMachine 0).start createInTurn := by
    decide
  have hr := Machine.ReachableUnder.start.of_run hok rfl
  exact (allList_consistent_of_exclusive 0 _ hr (by decide)).2.1 4 (by decide)

/-- The initial thread is preempted before the last assignment of its insertion of thread
`2`; thread `1` inserts thread `3`; the initial thread continues. -/
def createAtOnce : List (AllListLabel ℕ) :=
  [.setLevel true, .create 1, .assign, .assign, .assign, .assign, .create 2, .assign, .assign,
    .assign, .switch 1, .create 3, .assign, .assign, .assign, .assign, .switch 0, .assign]

/-- **A thread is lost**: thread `2` is initialized and has not exited, but the list from
the head does not contain it. -/
theorem allList_lost_thread :
    ∃ s : AllListState ℕ,
      (allListMachine 0).run (allListMachine 0).start createAtOnce = .next s ∧
      s.Quiescent ∧ s.alive = [0, 1, 3, 2] ∧
      s.threadForeach 5 = some [.elem 0, .elem 1, .elem 3] ∧ ¬ s.Consistent := by
  refine ⟨_, rfl, by decide, rfl, by decide, ?_⟩
  rintro ⟨xs, hl, -, hiff⟩
  -- thread `2` points back to thread `1`, which points forward to thread `3`
  obtain ⟨as, bs, rfl⟩ := append_of_mem ((hiff 2).mpr (by decide))
  obtain ⟨l₁, a, b, l₂, -, -, hs⟩ := hl.neighbours
  obtain ⟨-, ⟨hnext, hprev⟩, -⟩ := Links.Spine.split.mp hs
  obtain rfl : AllCell.elem 1 = a := Option.some_inj.mp hprev
  exact absurd hnext (by decide)

end OsMaterial
