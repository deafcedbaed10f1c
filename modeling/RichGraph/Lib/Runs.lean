-- Runs of a partial step function. A run is a list of actions; a condition
-- on the state before a step and on its action says which runs are meant.
import Mathlib.Logic.Basic

namespace Lib

theorem exists_of_map {α β : Type*} {f : α → β} {a : Option α} {y : β} (h : a.map f = some y) :
    ∃ x, a = some x ∧ y = f x := by
  obtain ⟨x, hx, rfl⟩ := Option.map_eq_some_iff.mp h
  exact ⟨x, hx, rfl⟩

variable {σ α : Type*}

/-- The states that steps which all meet `ok` reach from `s₀`. -/
inductive Reach (step : σ → α → Option σ) (ok : σ → α → Prop) (s₀ : σ) : σ → Prop
  | start : Reach step ok s₀ s₀
  | step {s s' : σ} {a : α} :
      Reach step ok s₀ s → ok s a → step s a = some s' → Reach step ok s₀ s'

/-- No condition on the steps of a run. -/
def AnyStep (_ : σ) (_ : α) : Prop := True

instance (s : σ) (a : α) : Decidable (AnyStep s a) := inferInstanceAs (Decidable True)

/-- Takes the actions of a list in order, each only when it meets `ok`. -/
def run (step : σ → α → Option σ) (ok : σ → α → Prop) [∀ s a, Decidable (ok s a)] :
    σ → List α → Option σ
  | s, [] => some s
  | s, a :: as => if ok s a then (step s a).bind (fun s' => run step ok s' as) else none

section

variable {step : σ → α → Option σ} {ok ok' : σ → α → Prop} {s₀ s s' : σ}

/-- The invariant rule: what holds at the start, and is kept by every step
that meets `ok`, holds in every state reached. -/
theorem Reach.invariant {Inv : σ → Prop} (h : Reach step ok s₀ s) (h₀ : Inv s₀)
    (hstep : ∀ s a s', Inv s → ok s a → step s a = some s' → Inv s') : Inv s := by
  induction h with
  | start => exact h₀
  | step _ hok hs ih => exact hstep _ _ _ ih hok hs

theorem Reach.trans (h₁ : Reach step ok s₀ s) (h₂ : Reach step ok s s') :
    Reach step ok s₀ s' := by
  induction h₂ with
  | start => exact h₁
  | step _ hok hs ih => exact ih.step hok hs

variable [∀ s a, Decidable (ok s a)]

theorem reach_of_run {as : List α} (h : run step ok s as = some s') : Reach step ok s s' := by
  induction as generalizing s with
  | nil =>
    simp only [run, Option.some.injEq] at h
    exact h ▸ Reach.start
  | cons a as ih =>
    simp only [run] at h
    split at h
    · rename_i hok
      obtain ⟨s₁, hs₁, hrest⟩ := Option.bind_eq_some_iff.mp h
      exact (Reach.start.step hok hs₁).trans (ih hrest)
    · cases h

end

/-- A run that ends in a state with `p` shows that a state with `p` is reached. -/
theorem exists_reach_of_run (step : σ → α → Option σ) (ok : σ → α → Prop)
    [∀ s a, Decidable (ok s a)] (s : σ) (as : List α) (p : σ → Prop) [DecidablePred p]
    (h : (run step ok s as).any (fun s' => decide (p s')) = true) :
    ∃ s', Reach step ok s s' ∧ p s' := by
  rw [Option.any_eq_true] at h
  obtain ⟨s', hs', hp⟩ := h
  exact ⟨s', reach_of_run hs', of_decide_eq_true hp⟩

end Lib
