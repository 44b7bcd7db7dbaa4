import Mathlib.Data.List.Basic
import Mathlib.Data.List.Nodup

/-!
# Doubly linked lists

The links of a doubly linked list as two partial functions on its nodes, and what linking a node at
the front and taking a node out does to them. The links back are the links forth of the reversed
list, so each fact is proved in one direction.
-/

namespace HwGam.Lib

variable {α : Type*} {next prev next' prev' : α → Option α} {l xs ys : List α} {x a b : α}

/-- `next` leads along the list and ends after it. -/
def Follows (next : α → Option α) : List α → Prop
  | [] => True
  | a :: l => next a = l.head? ∧ Follows next l

theorem Follows.congr (h : Follows next l) (heq : ∀ a ∈ l, next' a = next a) :
    Follows next' l := by
  induction l with
  | nil => trivial
  | cons a l ih =>
    refine ⟨(heq a (List.mem_cons_self ..)).trans h.1, ih h.2 fun b hb => ?_⟩
    exact heq b (List.mem_cons_of_mem _ hb)

theorem Follows.right (h : Follows next (xs ++ ys)) : Follows next ys := by
  induction xs with
  | nil => exact h
  | cons a xs ih => exact ih h.2

theorem Follows.next_eq (h : Follows next (xs ++ x :: ys)) : next x = ys.head? :=
  h.right.1

/-- A new last node: the old one leads to it. -/
theorem Follows.snoc [DecidableEq α] (h : Follows next l) (hnd : l.Nodup)
    (hx : next' x = none)
    (hl : ∀ a ∈ l, next' a = if l.getLast? = some a then some x else next a) :
    Follows next' (l ++ [x]) := by
  induction l with
  | nil => exact ⟨hx, trivial⟩
  | cons a l ih =>
    obtain ⟨ha, hnd⟩ := List.nodup_cons.1 hnd
    cases l with
    | nil =>
      refine ⟨?_, hx, trivial⟩
      simpa using hl a (List.mem_cons_self ..)
    | cons b l =>
      refine ⟨?_, ih h.2 hnd fun c hc => ?_⟩
      · have hne : (a :: b :: l).getLast? ≠ some a := by
          intro he
          rw [List.getLast?_cons_cons] at he
          exact ha (List.mem_of_getLast? he)
        rw [hl a (List.mem_cons_self ..), if_neg hne, h.1]
        rfl
      · rw [hl c (List.mem_cons_of_mem _ hc), List.getLast?_cons_cons]

/-- A node is taken out: the one before it leads to the one after it. -/
theorem Follows.unlink [DecidableEq α] (h : Follows next (xs ++ x :: ys))
    (hnd : (xs ++ x :: ys).Nodup)
    (hl : ∀ a ∈ xs ++ ys, next' a = if xs.getLast? = some a then ys.head? else next a) :
    Follows next' (xs ++ ys) := by
  induction xs with
  | nil => exact h.2.congr fun a ha => by simpa using hl a ha
  | cons a xs ih =>
    obtain ⟨ha, hnd⟩ := List.nodup_cons.1 hnd
    cases xs with
    | nil =>
      refine ⟨by simpa using hl a (List.mem_cons_self ..), ?_⟩
      refine h.2.2.congr fun b hb => ?_
      have hne : [a].getLast? ≠ some b := by
        rintro he
        obtain rfl : a = b := by simpa using he
        exact ha (List.mem_cons_of_mem _ hb)
      rw [hl b (List.mem_cons_of_mem _ hb), if_neg hne]
    | cons b xs =>
      refine ⟨?_, ih h.2 hnd fun c hc => ?_⟩
      · have hne : (a :: b :: xs).getLast? ≠ some a := by
          intro he
          rw [List.getLast?_cons_cons] at he
          exact ha (List.mem_append_left _ (List.mem_of_getLast? he))
        rw [hl a (List.mem_cons_self ..), if_neg hne, h.1]
        rfl
      · rw [hl c (List.mem_cons_of_mem _ hc), List.getLast?_cons_cons]

/-- The nodes of `l` in order, linked both ways. -/
structure Doubly (next prev : α → Option α) (l : List α) : Prop where
  nodup : l.Nodup
  next : Follows next l
  prev : Follows prev l.reverse

theorem Doubly.congr (h : Doubly next prev l) (hn : ∀ a ∈ l, next' a = next a)
    (hp : ∀ a ∈ l, prev' a = prev a) : Doubly next' prev' l :=
  ⟨h.nodup, h.next.congr hn, h.prev.congr fun a ha => hp a (List.mem_reverse.1 ha)⟩

theorem Doubly.nil : Doubly next prev [] := ⟨List.nodup_nil, trivial, trivial⟩

/-- The neighbours of a node. -/
theorem Doubly.links (h : Doubly next prev (xs ++ x :: ys)) :
    next x = ys.head? ∧ prev x = xs.getLast? := by
  refine ⟨h.next.next_eq, ?_⟩
  have hp := h.prev
  rw [List.reverse_append, List.reverse_cons, List.append_assoc, List.singleton_append] at hp
  rw [hp.next_eq, List.head?_reverse]

/-- A node is linked at the front. -/
theorem Doubly.push [DecidableEq α] (h : Doubly next prev l) (hx : x ∉ l)
    (hnx : next' x = l.head?) (hpx : prev' x = none) (hn : ∀ a ∈ l, next' a = next a)
    (hp : ∀ a ∈ l, prev' a = if l.head? = some a then some x else prev a) :
    Doubly next' prev' (x :: l) := by
  refine ⟨List.nodup_cons.2 ⟨hx, h.nodup⟩, ⟨hnx, h.next.congr hn⟩, ?_⟩
  rw [List.reverse_cons]
  refine h.prev.snoc (List.nodup_reverse.2 h.nodup) hpx fun a ha => ?_
  rw [List.getLast?_reverse]
  exact hp a (List.mem_reverse.1 ha)

/-- A node is taken out: its neighbours are linked to each other. -/
theorem Doubly.unlink [DecidableEq α] (h : Doubly next prev l) (hx : x ∈ l)
    (hn : ∀ a ∈ l, a ≠ x → next' a = if prev x = some a then next x else next a)
    (hp : ∀ a ∈ l, a ≠ x → prev' a = if next x = some a then prev x else prev a) :
    Doubly next' prev' (l.erase x) := by
  obtain ⟨xs, ys, rfl⟩ := List.append_of_mem hx
  obtain ⟨hnx, hpx⟩ := h.links
  have hnd := h.nodup
  have hxs : x ∉ xs := fun hm => (List.nodup_append.1 hnd).2.2 x hm x (List.mem_cons_self ..) rfl
  have herase : (xs ++ x :: ys).erase x = xs ++ ys := by
    rw [List.erase_append_right _ hxs, List.erase_cons_head]
  have hmem : ∀ a ∈ xs ++ ys, a ∈ xs ++ x :: ys ∧ a ≠ x := by
    intro a ha
    rw [← herase] at ha
    exact ⟨List.mem_of_mem_erase ha, ((hnd.mem_erase_iff).1 ha).1⟩
  refine ⟨hnd.erase x, ?_, ?_⟩
  · rw [herase]
    refine h.next.unlink hnd fun a ha => ?_
    rw [hn a (hmem a ha).1 (hmem a ha).2, hnx, hpx]
  · have hprev := h.prev
    have hrev : (xs ++ x :: ys).reverse = ys.reverse ++ x :: xs.reverse := by simp
    rw [hrev] at hprev
    rw [herase, List.reverse_append]
    refine hprev.unlink (hrev ▸ List.nodup_reverse.2 hnd) fun a ha => ?_
    have ha' : a ∈ xs ++ ys := by
      rw [← List.reverse_append] at ha
      exact List.mem_reverse.1 ha
    rw [hp a (hmem a ha').1 (hmem a ha').2, hnx, hpx, List.getLast?_reverse, List.head?_reverse]

theorem Doubly.next_mem (h : Doubly next prev l) (hx : x ∈ l) (hb : next x = some b) : b ∈ l := by
  obtain ⟨xs, ys, rfl⟩ := List.append_of_mem hx
  rw [h.links.1] at hb
  exact List.mem_append_right _ (List.mem_cons_of_mem _ (List.mem_of_mem_head? hb))

theorem Doubly.prev_mem (h : Doubly next prev l) (hx : x ∈ l) (hb : prev x = some b) : b ∈ l := by
  obtain ⟨xs, ys, rfl⟩ := List.append_of_mem hx
  rw [h.links.2] at hb
  exact List.mem_append_left _ (List.mem_of_getLast? hb)

theorem Doubly.head?_erase [DecidableEq α] (h : Doubly next prev l) :
    (l.erase x).head? = if l.head? = some x then next x else l.head? := by
  cases l with
  | nil => rfl
  | cons a l =>
    by_cases ha : a = x
    · subst ha
      rw [List.erase_cons_head, List.head?_cons, if_pos rfl, h.next.1]
    · have hne : (a :: l).head? ≠ some x := fun he => ha (Option.some.inj he)
      rw [List.erase_cons_tail (by simpa using ha), if_neg hne]
      rfl

theorem Doubly.getLast?_erase [DecidableEq α] (h : Doubly next prev l) :
    (l.erase x).getLast? = if l.getLast? = some x then prev x else l.getLast? := by
  obtain rfl | ⟨xs, a, rfl⟩ := l.eq_nil_or_concat'
  · rfl
  · by_cases ha : a = x
    · subst ha
      have hxs : a ∉ xs := fun hm => (List.nodup_append.1 h.nodup).2.2 a hm a (by simp) rfl
      rw [List.erase_append_right _ hxs, List.erase_cons_head, List.append_nil,
        List.getLast?_concat, if_pos rfl, h.links.2]
    · have hne : (xs ++ [a]).getLast? ≠ some x := by
        rw [List.getLast?_concat]
        exact fun he => ha (Option.some.inj he)
      rw [if_neg hne, List.getLast?_concat]
      by_cases hx : x ∈ xs
      · rw [List.erase_append_left _ hx, List.getLast?_concat]
      · rw [List.erase_append_right _ hx, List.erase_cons_tail (by simpa using ha)]
        simp

end HwGam.Lib
