import Mathlib.Logic.Function.Basic

/-!
# Linked lists

A list threaded through a `next` field: `Linked next head l` says that following `next` from `head`
to the end gives the nodes `l`.
-/

namespace HwGam.Lib

variable {α : Type*} {next next' : α → Option α} {head : Option α} {l : List α} {a : α}

inductive Linked (next : α → Option α) : Option α → List α → Prop
  | nil : Linked next none []
  | cons {a : α} {l : List α} (h : Linked next (next a) l) : Linked next (some a) (a :: l)

namespace Linked

/-- The nodes are determined by the links. -/
theorem unique {l' : List α} (h : Linked next head l) (h' : Linked next head l') : l = l' := by
  induction h generalizing l' with
  | nil =>
    cases h'
    rfl
  | cons _ ih =>
    cases h' with
    | cons h' => rw [ih h']

/-- Only the links of the nodes matter. -/
theorem transport (h : Linked next head l) (hnext : ∀ a ∈ l, next' a = next a) :
    Linked next' head l := by
  induction h with
  | nil => exact .nil
  | @cons a l h ih =>
    refine .cons ?_
    rw [hnext a (by simp)]
    exact ih fun b hb => hnext b (by simp [hb])

theorem eq_nil (h : Linked next none l) : l = [] := by
  cases h
  rfl

/-- The first node and those after it. -/
theorem exists_cons (h : Linked next head l) (hl : l ≠ []) :
    ∃ a rest, head = some a ∧ l = a :: rest ∧ Linked next (next a) rest := by
  cases h with
  | nil => exact absurd rfl hl
  | @cons a rest h => exact ⟨a, rest, rfl, rfl, h⟩

variable [DecidableEq α]

/-- A new first node. -/
theorem push (h : Linked next head l) (ha : a ∉ l) :
    Linked (Function.update next a head) (some a) (a :: l) := by
  refine .cons ?_
  rw [Function.update_self]
  refine h.transport fun b hb => Function.update_of_ne ?_ _ _
  rintro rfl
  exact ha hb

end Linked

end HwGam.Lib
