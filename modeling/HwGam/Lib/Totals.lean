import Mathlib.Algebra.Order.BigOperators.Group.List
import Mathlib.Algebra.Order.Group.Int
import Mathlib.Algebra.Ring.Int.Defs
import Mathlib.Data.List.AList

/-!
# Totals over a map

The sum of a weight over the values of an association list, and how an insertion or an erasure
changes it.
-/

namespace HwGam.Lib

variable {α β : Type*}

/-- The sum of `f` over the values of the map. -/
def total (f : β → Int) (s : AList fun _ : α => β) : Int := (s.entries.map fun e => f e.2).sum

theorem total_nonneg {f : β → Int} (hf : ∀ b, 0 ≤ f b) (s : AList fun _ : α => β) :
    0 ≤ total f s := by
  refine List.sum_nonneg fun x hx => ?_
  obtain ⟨e, -, rfl⟩ := List.mem_map.1 hx
  exact hf e.2

theorem total_add (f g : β → Int) (s : AList fun _ : α => β) :
    total (fun b => f b + g b) s = total f s + total g s :=
  List.sum_map_add

variable [DecidableEq α]

theorem sum_kerase (f : β → Int) (a : α) (l : List (Sigma fun _ : α => β)) :
    ((l.kerase a).map fun e => f e.2).sum =
      (l.map fun e => f e.2).sum - (l.dlookup a).elim 0 f := by
  induction l with
  | nil => simp
  | cons e l ih =>
    by_cases h : a = e.1
    · subst h
      rw [List.kerase_cons_eq rfl]
      obtain ⟨k, v⟩ := e
      simp
    · rw [List.kerase_cons_ne h, List.dlookup_cons_ne _ _ h, List.map_cons, List.sum_cons, ih,
        List.map_cons, List.sum_cons]
      omega

theorem total_erase (f : β → Int) (a : α) (s : AList fun _ : α => β) :
    total f (s.erase a) = total f s - (s.lookup a).elim 0 f :=
  sum_kerase f a s.entries

theorem total_insert (f : β → Int) (a : α) (b : β) (s : AList fun _ : α => β) :
    total f (s.insert a b) = total f s - (s.lookup a).elim 0 f + f b := by
  unfold total
  rw [AList.entries_insert, List.map_cons, List.sum_cons, sum_kerase]
  exact Int.add_comm _ _

end HwGam.Lib
