import Mathlib.Logic.Relation

/-!
# Runs of a partial step function

A system is a partial function `step : α → σ → Option σ` from an action and a state.
`Reaches step ok s s'`: some run from `s` ends in `s'` and each of its steps meets `ok`,
a condition on the action and the state before it. `runs` executes a list of
actions.
-/

namespace HwGam.Lib

variable {σ α : Type*} {step : α → σ → Option σ} {ok ok' : α → σ → Prop} {s s' s'' : σ}

/-- One step of a run whose steps meet `ok`. -/
def StepIf (step : α → σ → Option σ) (ok : α → σ → Prop) (s s' : σ) : Prop :=
  ∃ a, ok a s ∧ step a s = some s'

def Reaches (step : α → σ → Option σ) (ok : α → σ → Prop) : σ → σ → Prop :=
  Relation.ReflTransGen (StepIf step ok)

/-- The condition every step meets. -/
def anyStep (_ : α) (_ : σ) : Prop := True

theorem Reaches.refl : Reaches step ok s s := Relation.ReflTransGen.refl

theorem Reaches.tail {a : α} (h : Reaches step ok s s') (hok : ok a s')
    (hs : step a s' = some s'') : Reaches step ok s s'' :=
  Relation.ReflTransGen.tail h ⟨a, hok, hs⟩

theorem Reaches.mono (hle : ∀ a s, ok a s → ok' a s) (h : Reaches step ok s s') :
    Reaches step ok' s s' := by
  refine Relation.ReflTransGen.mono ?_ _ _ h
  rintro t t' ⟨a, hok, hs⟩
  exact ⟨a, hle a t hok, hs⟩

/-- What holds at the start and is kept by every allowed step holds in every state reached. -/
theorem Reaches.invariant {I : σ → Prop} (h0 : I s)
    (hstep : ∀ a t t', I t → ok a t → step a t = some t' → I t')
    (h : Reaches step ok s s') : I s' := by
  induction h with
  | refl => exact h0
  | tail _ hs ih =>
    obtain ⟨a, hok, hs⟩ := hs
    exact hstep a _ _ ih hok hs

/-- As `invariant`, for steps from a state that was reached. -/
theorem Reaches.invariant_along {I : σ → Prop} (h0 : I s)
    (hstep : ∀ a t t', Reaches step ok s t → I t → ok a t → step a t = some t' → I t')
    (h : Reaches step ok s s') : I s' := by
  induction h with
  | refl => exact h0
  | tail hr hs ih =>
    obtain ⟨a, hok, hs⟩ := hs
    exact hstep a _ _ hr ih hok hs

/-- The steps of a run also meet what holds in every state reached. -/
theorem Reaches.and_along {I : σ → Prop} (hI : ∀ t, Reaches step ok s t → I t)
    (h : Reaches step ok s s') : Reaches step (fun a t => ok a t ∧ I t) s s' := by
  induction h with
  | refl => exact .refl
  | tail hr hs ih =>
    obtain ⟨a, hok, hs⟩ := hs
    exact ih.tail ⟨hok, hI _ hr⟩ hs

/-- A run seen through `g`: each of its steps is a step there, or is not seen. -/
theorem Reaches.project {τ β : Type*} {step' : β → τ → Option τ} {ok' : β → τ → Prop} (g : σ → τ)
    (hstep : ∀ a t t', ok a t → step a t = some t' → g t' = g t ∨ StepIf step' ok' (g t) (g t'))
    (h : Reaches step ok s s') : Reaches step' ok' (g s) (g s') := by
  induction h with
  | refl => exact .refl
  | tail _ hs ih =>
    obtain ⟨a, hok, hs⟩ := hs
    obtain heq | hs := hstep a _ _ hok hs
    · rw [heq]
      exact ih
    · exact Relation.ReflTransGen.tail ih hs

/-! ## Runs with what is seen of them -/

/-- A run from `s` with the observations of its steps, in order. -/
inductive Traced {β : Type*} (step : α → σ → Option σ) (ok : α → σ → Prop) (obs : α → σ → List β)
    (s : σ) : List β → σ → Prop
  | refl : Traced step ok obs s [] s
  | tail {os : List β} {t t' : σ} {a : α} (h : Traced step ok obs s os t) (hok : ok a t)
      (hs : step a t = some t') : Traced step ok obs s (os ++ obs a t) t'

theorem Traced.reaches {β : Type*} {obs : α → σ → List β} {os : List β}
    (h : Traced step ok obs s os s') : Reaches step ok s s' := by
  induction h with
  | refl => exact .refl
  | tail _ hok hs ih => exact ih.tail hok hs

theorem Traced.project {τ β γ : Type*} {step' : β → τ → Option τ} {ok' : β → τ → Prop}
    {obs : α → σ → List γ} {obs' : β → τ → List γ} {os : List γ} (g : σ → τ)
    (hstep : ∀ a t t', ok a t → step a t = some t' → (g t' = g t ∧ obs a t = []) ∨
      ∃ x, ok' x (g t) ∧ step' x (g t) = some (g t') ∧ obs a t = obs' x (g t))
    (h : Traced step ok obs s os s') : Traced step' ok' obs' (g s) os (g s') := by
  induction h with
  | refl => exact .refl
  | tail _ hok hs ih =>
    obtain ⟨heq, ho⟩ | ⟨x, hok', hs', ho⟩ := hstep _ _ _ hok hs
    · rw [heq, ho, List.append_nil]
      exact ih
    · rw [ho]
      exact ih.tail hok' hs'

/-! ## Executing a list of actions -/

instance (a : α) (s : σ) : Decidable (anyStep a s) := inferInstanceAs (Decidable True)

/-- Runs the actions in order; `none` as soon as one of them is not enabled or misses `ok`. -/
def runs (step : α → σ → Option σ) (ok : α → σ → Prop) [∀ a s, Decidable (ok a s)] :
    List α → σ → Option σ
  | [], s => some s
  | a :: as, s => if ok a s then (step a s).bind (runs step ok as) else none

theorem Reaches.of_runs [∀ a s, Decidable (ok a s)] {as : List α}
    (h : runs step ok as s = some s') : Reaches step ok s s' := by
  induction as generalizing s with
  | nil =>
    obtain rfl : s = s' := by simpa [runs] using h
    exact .refl
  | cons a as ih =>
    simp only [runs, Option.ite_none_right_eq_some] at h
    obtain ⟨hok, h⟩ := h
    obtain ⟨t, ht, hr⟩ := Option.bind_eq_some_iff.mp h
    exact Relation.ReflTransGen.head ⟨a, hok, ht⟩ (ih hr)

/-- A run that goes through and ends where `P` holds. -/
theorem Reaches.exists_of_runs (step : α → σ → Option σ) (ok : α → σ → Prop)
    [∀ a s, Decidable (ok a s)] (as : List α) (s : σ) (P : σ → Prop) [DecidablePred P]
    (h : (runs step ok as s).any (fun t => decide (P t)) = true) :
    ∃ t, Reaches step ok s t ∧ P t := by
  cases hr : runs step ok as s with
  | none => simp [hr] at h
  | some t => exact ⟨t, .of_runs hr, by simpa [hr] using h⟩

end HwGam.Lib
