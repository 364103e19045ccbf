import Mathlib.Logic.Function.Basic
import Mathlib.Tactic.Common

/-!
# Step Machines and Guarded Reachability

A `Machine` is a start state with a step function. Every choice of the environment is a label,
which is not enabled (`Outcome.blocked`), fails an assertion (`Outcome.fault`), or leads to a next
state. Reachability is relative to a guard on the state before each step (`ReachableUnder`).

* `ReachableUnder.invariant`: what every guarded step preserves holds in every state reached.
* `ReachableUnder.of_preserves`: the same from steps that fail no assertion (`Preserves`).
-/

namespace OsMaterial

/-- What a step ends with. -/
inductive Outcome (ε σ : Type*) where
  | blocked
  | fault (e : ε)
  | next (s : σ)
  deriving DecidableEq

namespace Outcome

variable {ε σ τ : Type*}

def bind (o : Outcome ε σ) (f : σ → Outcome ε τ) : Outcome ε τ :=
  match o with
  | blocked => blocked
  | fault e => fault e
  | next s => f s

@[simp] theorem bind_blocked (f : σ → Outcome ε τ) : (blocked : Outcome ε σ).bind f = blocked :=
  rfl

@[simp] theorem bind_fault (e : ε) (f : σ → Outcome ε τ) : (fault e).bind f = fault e := rfl

@[simp] theorem bind_next (s : σ) (f : σ → Outcome ε τ) : (next s).bind f = f s := rfl

def bimap {ε' : Type*} (f : ε → ε') (g : σ → τ) : Outcome ε σ → Outcome ε' τ
  | blocked => blocked
  | fault e => fault (f e)
  | next s => next (g s)

variable {o : Outcome ε σ}

theorem bimap_eq_next {ε' : Type*} {f : ε → ε'} {g : σ → τ} {t : τ} :
    o.bimap f g = next t ↔ ∃ s, o = next s ∧ g s = t := by
  cases o <;> simp [bimap]

theorem bind_eq_next {f : σ → Outcome ε τ} {t : τ} :
    o.bind f = next t ↔ ∃ s, o = next s ∧ f s = next t := by
  cases o <;> simp

end Outcome

/-- A **step machine**: a start state, and the outcome of every label in every state. -/
structure Machine (σ ι ε : Type*) where
  start : σ
  step : σ → ι → Outcome ε σ

namespace Machine

variable {σ ι ε : Type*} (M : Machine σ ι ε)

def run : σ → List ι → Outcome ε σ
  | s, [] => .next s
  | s, i :: is => (M.step s i).bind fun s' => run s' is

@[simp] theorem run_nil (s : σ) : M.run s [] = .next s := rfl

theorem run_cons (s : σ) (i : ι) (is : List ι) :
    M.run s (i :: is) = (M.step s i).bind fun s' => M.run s' is := rfl

/-- States reached from the start by steps that meet the guard `ok` in the state they
are taken from. -/
inductive ReachableUnder (ok : σ → ι → Prop) : σ → Prop
  | start : ReachableUnder ok M.start
  | step {s s' : σ} {i : ι} :
      ReachableUnder ok s → ok s i → M.step s i = .next s' → ReachableUnder ok s'

/-- States reached from the start by any steps. -/
abbrev Reachable : σ → Prop := M.ReachableUnder fun _ _ => True

def GuardedRun (ok : σ → ι → Prop) : σ → List ι → Prop
  | _, [] => True
  | s, i :: is => ok s i ∧
    match M.step s i with
    | .next s' => GuardedRun ok s' is
    | _ => True

instance decidableGuardedRun (ok : σ → ι → Prop) [∀ s i, Decidable (ok s i)] :
    ∀ s is, Decidable (M.GuardedRun ok s is)
  | _, [] => isTrue trivial
  | s, i :: is =>
    match h : M.step s i with
    | .next s' =>
      have := decidableGuardedRun ok s' is
      decidable_of_iff (ok s i ∧ M.GuardedRun ok s' is) (by simp [GuardedRun, h])
    | .blocked => decidable_of_iff (ok s i) (by simp [GuardedRun, h])
    | .fault _ => decidable_of_iff (ok s i) (by simp [GuardedRun, h])

/-- Guarded steps from a state with `P` fail no assertion and lead to states with `P`. -/
def Preserves (ok : σ → ι → Prop) (P : σ → Prop) : Prop :=
  ∀ s i, P s → ok s i → M.step s i = .blocked ∨ ∃ s', M.step s i = .next s' ∧ P s'

variable {M} {ok : σ → ι → Prop}
variable {s : σ} {P : σ → Prop}

theorem Preserves.not_fault (hP : M.Preserves ok P) (hs : P s) {i : ι}
    (hok : ok s i) (e : ε) : M.step s i ≠ .fault e := by
  rcases hP s i hs hok with hb | ⟨s', hs', -⟩
  · rw [hb]
    nofun
  · rw [hs']
    nofun

variable {is : List ι}

theorem GuardedRun.tail {s' : σ} {i : ι} (h : M.GuardedRun ok s (i :: is))
    (hs : M.step s i = .next s') : M.GuardedRun ok s' is := by
  simpa only [GuardedRun, hs] using h.2

theorem guardedRun_true (s : σ) (is : List ι) : M.GuardedRun (fun _ _ => True) s is := by
  induction is generalizing s with
  | nil => exact trivial
  | cons i is ih =>
    refine ⟨trivial, ?_⟩
    cases M.step s i with
    | next s' => exact ih s'
    | blocked => exact trivial
    | fault e => exact trivial

namespace ReachableUnder

theorem invariant (hstart : P M.start)
    (hstep : ∀ s s' i, M.ReachableUnder ok s → P s → ok s i → M.step s i = .next s' → P s')
    (h : M.ReachableUnder ok s) : P s := by
  induction h with
  | start => exact hstart
  | step hr hok hs ih => exact hstep _ _ _ hr ih hok hs

theorem of_preserves (hP : M.Preserves ok P) (hstart : P M.start)
    (h : M.ReachableUnder ok s) : P s := by
  refine h.invariant hstart ?_
  intro s s' i _ hi hok hs
  rcases hP s i hi hok with hb | ⟨s₁, hs₁, hi₁⟩
  · rw [hb] at hs
    cases hs
  · rw [hs₁, Outcome.next.injEq] at hs
    exact hs ▸ hi₁

theorem mono {ok' : σ → ι → Prop} (hle : ∀ s i, ok s i → ok' s i)
    (h : M.ReachableUnder ok s) : M.ReachableUnder ok' s := by
  induction h with
  | start => exact start
  | step _ hok hs ih => exact step ih (hle _ _ hok) hs

theorem of_run {s' : σ} (h : M.ReachableUnder ok s)
    (hok : M.GuardedRun ok s is) (hrun : M.run s is = .next s') : M.ReachableUnder ok s' := by
  induction is generalizing s with
  | nil =>
    rw [run_nil, Outcome.next.injEq] at hrun
    exact hrun ▸ h
  | cons i is ih =>
    rw [run_cons, Outcome.bind_eq_next] at hrun
    obtain ⟨s₁, hs₁, hrun⟩ := hrun
    exact ih (h.step hok.1 hs₁) (hok.tail hs₁) hrun

end ReachableUnder

theorem reachable_of_run (hrun : M.run M.start is = .next s) : M.Reachable s :=
  ReachableUnder.start.of_run (guardedRun_true _ is) hrun

end Machine

end OsMaterial
