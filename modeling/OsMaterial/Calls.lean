import Mathlib.Logic.Function.Basic
import Mathlib.Tactic.Common

/-!
# Calls that Return or Panic

A `Call` runs on a state: it stops with an error or returns a value and the next state. `Returns x s
Q` is its **total-correctness triple**, and the rules rewrite it for a compound call.

* `returns_bind`: the rule of sequential composition, as an equivalence.
* `Returns.mono`: the rule of consequence.
-/

namespace OsMaterial

open List

/-- A call on a state of type `σ`: it stops with an error of type `ε`, or returns a value
and the next state. -/
abbrev Call (ε σ α : Type) : Type := StateT σ (Except ε) α

variable {ε σ α β : Type}

def assert (c : Prop) [Decidable c] (e : ε) : Call ε σ Unit :=
  if c then pure () else throw e

/-- **Total correctness**: called in `s`, `x` returns, and the value and the state it
returns satisfy `Q`. -/
def Returns (x : Call ε σ α) (s : σ) (Q : α → σ → Prop) : Prop :=
  ∃ a t, x.run s = .ok (a, t) ∧ Q a t

variable {x : Call ε σ α} {f : α → Call ε σ β} {s t : σ} {a : α} {l : List α} {Q R : α → σ → Prop}

theorem Returns.mono (h : Returns x s Q) (hQR : ∀ a t, Q a t → R a t) : Returns x s R := by
  obtain ⟨a, t, hx, hq⟩ := h
  exact ⟨a, t, hx, hQR a t hq⟩

theorem returns_iff_of_run (hx : x.run s = .ok (a, t))
    (Q : α → σ → Prop) : Returns x s Q ↔ Q a t := by
  constructor
  · rintro ⟨b, u, hb, hq⟩
    obtain ⟨rfl, rfl⟩ : a = b ∧ t = u := by simpa using hx.symm.trans hb
    exact hq
  · exact fun hq => ⟨a, t, hx, hq⟩

theorem Returns.of_run (h : Returns x s Q) (hx : x.run s = .ok (a, t)) : Q a t :=
  (returns_iff_of_run hx Q).mp h

theorem Returns.and (hQ : Returns x s Q)
    (hR : Returns x s R) : Returns x s fun a t => Q a t ∧ R a t := by
  obtain ⟨a, t, hx, hq⟩ := hQ
  exact ⟨a, t, hx, hq, hR.of_run hx⟩

theorem Returns.run_eq (h : Returns x s fun b u => b = a ∧ u = t) : x.run s = .ok (a, t) := by
  obtain ⟨b, u, hx, rfl, rfl⟩ := h
  exact hx

@[simp] theorem returns_pure (a : α) (s : σ) (Q : α → σ → Prop) :
    Returns (pure a : Call ε σ α) s Q ↔ Q a s :=
  returns_iff_of_run rfl Q

/-- The rule of **sequential composition**. -/
@[simp] theorem returns_bind (x : Call ε σ α) (f : α → Call ε σ β) (s : σ) (Q : β → σ → Prop) :
    Returns (x >>= f) s Q ↔ Returns x s fun a t => Returns (f a) t Q := by
  constructor
  · rintro ⟨b, u, hb, hq⟩
    rw [StateT.run_bind] at hb
    cases hx : x.run s with
    | error e =>
      rw [hx] at hb
      cases hb
    | ok p =>
      rw [hx] at hb
      exact ⟨p.1, p.2, hx, b, u, hb, hq⟩
  · rintro ⟨a, t, hx, b, u, hb, hq⟩
    refine ⟨b, u, ?_, hq⟩
    rw [StateT.run_bind, hx]
    exact hb

@[simp] theorem returns_map (x : Call ε σ α) (f : α → β) (s : σ) (Q : β → σ → Prop) :
    Returns (f <$> x) s Q ↔ Returns x s fun a t => Q (f a) t := by
  rw [map_eq_pure_bind, returns_bind]
  simp only [returns_pure]

@[simp] theorem returns_get (s : σ) (Q : σ → σ → Prop) : Returns (get : Call ε σ σ) s Q ↔ Q s s :=
  returns_iff_of_run rfl Q

@[simp] theorem returns_set (s t : σ) (Q : PUnit → σ → Prop) :
    Returns (set t : Call ε σ PUnit) s Q ↔ Q ⟨⟩ t :=
  returns_iff_of_run rfl Q

@[simp] theorem returns_modify (f : σ → σ) (s : σ) (Q : PUnit → σ → Prop) :
    Returns (modify f : Call ε σ PUnit) s Q ↔ Q ⟨⟩ (f s) :=
  returns_iff_of_run rfl Q

@[simp] theorem returns_throw (e : ε) (s : σ) (Q : α → σ → Prop) :
    ¬ Returns (throw e : Call ε σ α) s Q := by
  rintro ⟨a, t, h, -⟩
  cases h

@[simp] theorem returns_assert (c : Prop) [Decidable c] (e : ε) (s : σ)
    (Q : Unit → σ → Prop) : Returns (assert c e) s Q ↔ c ∧ Q () s := by
  unfold assert
  split <;> simp [*]

@[simp] theorem returns_liftM_ok (a : α) (s : σ) (Q : α → σ → Prop) :
    Returns (liftM (Except.ok a : Except ε α) : Call ε σ α) s Q ↔ Q a s :=
  returns_iff_of_run rfl Q

theorem returns_liftM_iff (x : Except ε α) (s : σ) (Q : α → σ → Prop) :
    Returns (liftM x : Call ε σ α) s Q ↔ ∃ a, x = .ok a ∧ Q a s := by
  cases x with
  | ok a => rw [returns_liftM_ok]; simp
  | error e => exact iff_of_false (returns_throw e s Q) (by simp)

theorem returns_forM_range {f : ℕ → Call ε σ PUnit} {n : ℕ} (I : ℕ → σ → Prop)
    (h0 : I 0 s) (hround : ∀ i < n, ∀ t, I i t → Returns (f i) t fun _ u => I (i + 1) u) :
    Returns (forM (range n) f) s fun _ t => I n t := by
  induction n with
  | zero => exact (returns_pure _ _ _).mpr h0
  | succ n ih =>
    have hbefore := ih fun i hi => hround i (by omega)
    rw [range_succ, forM_append]
    simp only [forM_cons, forM_nil, returns_bind, returns_pure]
    exact hbefore.mono fun _ t ht => hround n (by omega) t ht

theorem returns_forM {f : α → Call ε σ PUnit} {I : σ → Prop} (hs : I s)
    (hround : ∀ a ∈ l, ∀ t, I t → Returns (f a) t fun _ u => I u) :
    Returns (forM l f) s fun _ t => I t := by
  induction l generalizing s with
  | nil => exact (returns_pure _ _ _).mpr hs
  | cons a l ih =>
    rw [forM_cons, returns_bind]
    refine (hround a mem_cons_self s hs).mono fun _ t ht => ?_
    exact ih ht fun b hb => hround b (mem_cons_of_mem a hb)

theorem Returns.of_forM {f : α → Call ε σ PUnit} {Q : PUnit → σ → Prop}
    (h : Returns (forM l f) s Q) (ha : a ∈ l) : ∃ t, Returns (f a) t fun _ _ => True := by
  induction l generalizing s with
  | nil => cases ha
  | cons b l ih =>
    rw [forM_cons, returns_bind] at h
    obtain ⟨x, t, hrun, hrest⟩ := h
    rcases mem_cons.mp ha with rfl | ha
    · exact ⟨s, x, t, hrun, trivial⟩
    · exact ih hrest ha

/-! ### Partial correctness -/

/-- **Partial correctness**: if `x`, called in `s`, returns, then the value and the state it
returns satisfy `Q`. -/
def Ensures (x : Call ε σ α) (s : σ) (Q : α → σ → Prop) : Prop :=
  ∀ a t, x.run s = .ok (a, t) → Q a t

theorem Returns.ensures (h : Returns x s Q) : Ensures x s Q :=
  fun _ _ hx => h.of_run hx

theorem Ensures.bind {R : β → σ → Prop}
    (h : Ensures x s Q) (hf : ∀ a t, Q a t → Ensures (f a) t R) : Ensures (x >>= f) s R := by
  intro b u hb
  obtain ⟨a, t, hx, hrest⟩ := (returns_bind x f s fun c v => c = b ∧ v = u).mp ⟨b, u, hb, rfl, rfl⟩
  exact hf a t (h a t hx) b u hrest.run_eq

theorem ensures_get_bind (f : σ → Call ε σ α) (s : σ) (Q : α → σ → Prop) :
    Ensures (get >>= f) s Q ↔ Ensures (f s) s Q :=
  Iff.rfl

theorem ensures_set_bind (t : σ) (f : PUnit → Call ε σ α) (s : σ) (Q : α → σ → Prop) :
    Ensures (set t >>= f) s Q ↔ Ensures (f ⟨⟩) t Q :=
  Iff.rfl

theorem ensures_modify_bind (g : σ → σ) (f : PUnit → Call ε σ α) (s : σ) (Q : α → σ → Prop) :
    Ensures (modify g >>= f) s Q ↔ Ensures (f ⟨⟩) (g s) Q :=
  Iff.rfl

theorem ensures_throw (e : ε) (s : σ) (Q : α → σ → Prop) : Ensures (throw e : Call ε σ α) s Q := by
  intro a t h
  cases h

theorem ensures_liftM (x : Except ε α) (s : σ) :
    Ensures (liftM x : Call ε σ α) s fun _ t => t = s := by
  cases x with
  | ok a => exact ((returns_liftM_ok a s _).mpr rfl).ensures
  | error e => exact ensures_throw e s _

theorem ensures_assert (c : Prop) [Decidable c] (e : ε) (s : σ) :
    Ensures (assert c e : Call ε σ Unit) s fun _ t => t = s := by
  intro u t h
  exact ((returns_assert c e s fun _ v => v = t).mp ⟨u, t, h, rfl⟩).2.symm

/-! ### Calls that stop with an error -/

def Panics (x : Call ε σ α) (s : σ) (e : ε) : Prop := x.run s = .error e

theorem Panics.bind {e : ε} (h : Panics x s e) (f : α → Call ε σ β) : Panics (x >>= f) s e := by
  rw [Panics, StateT.run_bind, show x.run s = .error e from h]
  rfl

theorem panics_bind {e : ε}
    (h : Returns x s fun a t => Panics (f a) t e) : Panics (x >>= f) s e := by
  obtain ⟨a, t, hx, hf⟩ := h
  rw [Panics, StateT.run_bind, hx]
  exact hf

theorem panics_assert {c : Prop} [Decidable c] (hc : ¬ c) (e : ε) (s : σ) :
    Panics (assert c e : Call ε σ Unit) s e := by
  rw [Panics, assert, if_neg hc]
  rfl

/-! ### Calls that return under a condition -/

/-- Called in `s`, `x` **returns exactly when `P` holds**, and then satisfies `Q`; otherwise it
stops with an error that satisfies `E`. -/
structure ReturnsIff (x : Call ε σ α) (s : σ) (P : Prop) (E : ε → Prop) (Q : α → σ → Prop) :
    Prop where
  returns : P → Returns x s Q
  panics : ¬ P → ∃ e, E e ∧ Panics x s e

section

variable {P P' : Prop} {E : ε → Prop}

theorem panics_bind_of (hx : ¬ Returns x s Q → ∃ e, E e ∧ Panics x s e)
    (hf : ∀ a t, x.run s = .ok (a, t) → Q a t → ∃ e, E e ∧ Panics (f a) t e) :
    ∃ e, E e ∧ Panics (x >>= f) s e := by
  by_cases hreturns : Returns x s Q
  · obtain ⟨a, t, hrun, hq⟩ := hreturns
    obtain ⟨e, he, hpanics⟩ := hf a t hrun hq
    exact ⟨e, he, panics_bind ⟨a, t, hrun, hpanics⟩⟩
  · obtain ⟨e, he, hpanics⟩ := hx hreturns
    exact ⟨e, he, hpanics.bind f⟩

variable {S : β → σ → Prop}

section

variable (h : ReturnsIff x s P E Q)

include h

theorem ReturnsIff.congr (hP : P ↔ P') : ReturnsIff x s P' E Q :=
  ⟨fun h' => h.returns (hP.mpr h'), fun h' => h.panics fun hp => h' (hP.mp hp)⟩

theorem ReturnsIff.mono (hQR : ∀ a t, Q a t → R a t) : ReturnsIff x s P E R :=
  ⟨fun hP => (h.returns hP).mono hQR, h.panics⟩

theorem ReturnsIff.of_run (hx : x.run s = .ok (a, t)) : P ∧ Q a t := by
  by_cases hP : P
  · exact ⟨hP, (h.returns hP).of_run hx⟩
  · obtain ⟨e, -, hpanics⟩ := h.panics hP
    rw [Panics, hx] at hpanics
    cases hpanics

theorem ReturnsIff.with_cond : ReturnsIff x s P E fun a t => P ∧ Q a t :=
  ⟨fun hP => (h.returns hP).mono fun _ _ hq => ⟨hP, hq⟩, h.panics⟩

theorem ReturnsIff.bind
    (hf : P → ∀ a t, Q a t → ReturnsIff (f a) t P' E S) : ReturnsIff (x >>= f) s (P ∧ P') E S := by
  refine ⟨fun hp => ?_, fun hn => ?_⟩
  · rw [returns_bind]
    exact (h.returns hp.1).mono fun a t hq => (hf hp.1 a t hq).returns hp.2
  · refine panics_bind_of (fun hr => h.panics (hr ∘ h.returns)) fun a t hrun hq => ?_
    have hP := (h.of_run hrun).1
    exact (hf hP a t hq).panics fun hP' => hn ⟨hP, hP'⟩

end

theorem returnsIff_get_bind (f : σ → Call ε σ α) :
    ReturnsIff (get >>= f) s P E Q ↔ ReturnsIff (f s) s P E Q :=
  ⟨fun h => ⟨h.returns, h.panics⟩, fun h => ⟨h.returns, h.panics⟩⟩

theorem returnsIff_set_bind (t : σ) (f : PUnit → Call ε σ α) :
    ReturnsIff (set t >>= f) s P E Q ↔ ReturnsIff (f ⟨⟩) t P E Q :=
  ⟨fun h => ⟨h.returns, h.panics⟩, fun h => ⟨h.returns, h.panics⟩⟩

theorem returnsIff_modify_bind (g : σ → σ) (f : PUnit → Call ε σ α) :
    ReturnsIff (modify g >>= f) s P E Q ↔ ReturnsIff (f ⟨⟩) (g s) P E Q :=
  ⟨fun h => ⟨h.returns, h.panics⟩, fun h => ⟨h.returns, h.panics⟩⟩

theorem ReturnsIff.bind_returns (h : ReturnsIff x s P E Q)
    (hf : ∀ a t, Q a t → Returns (f a) t S) : ReturnsIff (x >>= f) s P E S := by
  have hrest : P → ∀ a t, Q a t → ReturnsIff (f a) t True E S := fun _ a t hq =>
    ⟨fun _ => hf a t hq, fun hn => absurd trivial hn⟩
  exact (h.bind hrest).congr (and_iff_left trivial)

theorem Returns.bind_returnsIff (h : Returns x s Q)
    (hf : ∀ a t, Q a t → ReturnsIff (f a) t P E S) : ReturnsIff (x >>= f) s P E S :=
  (ReturnsIff.bind (P := True) ⟨fun _ => h, fun hn => absurd trivial hn⟩
    fun _ => hf).congr (and_iff_right trivial)

/-- Called in `s`, `x` **returns when `C` holds**, and satisfies `Q` when it returns; it may also
stop with an error that satisfies `E`. -/
structure ReturnsWhen (x : Call ε σ α) (s : σ) (C : Prop) (E : ε → Prop) (Q : α → σ → Prop) :
    Prop where
  returns : C → Returns x s Q
  panics : ¬ Returns x s Q → ∃ e, E e ∧ Panics x s e

variable {C : Prop}

theorem Returns.when (h : Returns x s Q) : ReturnsWhen x s C E Q :=
  ⟨fun _ => h, fun hn => absurd h hn⟩

theorem ReturnsIff.when (h : ReturnsIff x s P E Q) (hC : C → P) : ReturnsWhen x s C E Q :=
  ⟨fun hc => h.returns (hC hc), fun hn => h.panics fun hP => hn (h.returns hP)⟩

theorem ReturnsWhen.bind_when (h : ReturnsWhen x s C E Q)
    (hf : ∀ a t, Q a t → ReturnsWhen (f a) t C E S) : ReturnsWhen (x >>= f) s C E S := by
  refine ⟨fun hc => ?_, fun hn => ?_⟩
  · rw [returns_bind]
    exact (h.returns hc).mono fun a t hq => (hf a t hq).returns hc
  · refine panics_bind_of h.panics fun a t hrun hq => (hf a t hq).panics ?_
    rwa [returns_bind, returns_iff_of_run hrun] at hn

theorem ReturnsIff.bind_when (h : ReturnsIff x s P E Q) (hC : C → P)
    (hf : P → ∀ a t, Q a t → ReturnsWhen (f a) t C E S) : ReturnsWhen (x >>= f) s C E S :=
  (h.with_cond.when hC).bind_when fun a t hq => hf hq.1 a t hq.2

theorem Returns.bind_when (h : Returns x s Q)
    (hf : ∀ a t, Q a t → ReturnsWhen (f a) t C E S) : ReturnsWhen (x >>= f) s C E S :=
  h.when.bind_when hf

theorem ReturnsWhen.of_run (h : ReturnsWhen x s C E Q) (hx : x.run s = .ok (a, t)) : Q a t := by
  by_contra hq
  obtain ⟨e, -, hpanics⟩ := h.panics fun hreturns => hq (hreturns.of_run hx)
  rw [Panics, hx] at hpanics
  cases hpanics

theorem ReturnsWhen.bind (h : ReturnsWhen x s C E Q)
    (hf : ∀ a t, Q a t → ReturnsIff (f a) t C E S) : ReturnsIff (x >>= f) s C E S := by
  refine ⟨fun hc => ?_, fun hn => ?_⟩
  · rw [returns_bind]
    exact (h.returns hc).mono fun a t hq => (hf a t hq).returns hc
  · exact panics_bind_of h.panics fun a t _ hq => (hf a t hq).panics hn

end

/-! ### Loops without state -/

variable {p : α → Except ε Bool} {q : α → Bool}

theorem anyM_eq_ok (h : ∀ a ∈ l, p a = .ok (q a)) : l.anyM p = .ok (l.any q) := by
  induction l with
  | nil => rfl
  | cons a l ih =>
    have hl := ih fun b hb => h b (mem_cons_of_mem a hb)
    rw [anyM, h a mem_cons_self, any_cons, hl]
    cases q a <;> rfl

theorem findM_eq_ok (h : ∀ a ∈ l, p a = .ok (q a)) : l.findM? p = .ok (l.find? q) := by
  induction l with
  | nil => rfl
  | cons a l ih =>
    have hl := ih fun b hb => h b (mem_cons_of_mem a hb)
    rw [findM?, h a mem_cons_self, find?_cons, hl]
    cases q a <;> rfl

end OsMaterial
