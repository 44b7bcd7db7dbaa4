import HwGam.Lib.Doubly
import HwGam.Lru.Accounts

/-!
# The LRU lists of the cache

The lines hang on doubly linked lists, from which `Evict` takes its victims. A line in a stable
state hangs on one list; a line that waits for its data or for a permission on none.
-/

namespace HwGam.Lru

open Lib Cache

variable {c c' : Cache} {a b : GAddr} {i j : Nat} {L L' : Nat → List GAddr} {l : CacheLine}

/-- A field of the line of `a`. -/
def Cache.field {β : Type} (φ : CacheLine → Option β) (c : Cache) (a : GAddr) : Option β :=
  (c.line a).bind φ

def Cache.next : Cache → GAddr → Option GAddr := field CacheLine.next

def Cache.prev : Cache → GAddr → Option GAddr := field CacheLine.prev

def Cache.pos : Cache → GAddr → Option Nat := field CacheLine.pos

/-- The lists are well formed, with the nodes of list `i` from head to tail in `L i`. -/
structure Lists (c : Cache) (L : Nat → List GAddr) : Prop where
  doubly : ∀ i, Doubly c.next c.prev (L i)
  head : ∀ i, c.heads i = (L i).head?
  tail : ∀ i, c.tails i = (L i).getLast?
  /-- a node is a line in the map -/
  present : ∀ i a, a ∈ L i → c.line a ≠ none
  /-- no line is on two lists -/
  once : ∀ i j a, a ∈ L i → a ∈ L j → i = j

/-- The lists are well formed and every line in CACHE_SHARED or CACHE_DIRTY is on one of them. -/
def Evictable (c : Cache) : Prop :=
  ∃ L, Lists c L ∧ ∀ a s, c.stateOf a = some s → s.stable = true → ∃ i < lruNum, a ∈ L i

/-! ## What linking does to a line -/

/-- `LinkLRU` at the line of `b`. -/
def relink (a b : GAddr) (i : Nat) (h : Option GAddr) (l : CacheLine) : CacheLine :=
  let l := if b = a then { l with pos := some i, prev := none, next := h } else l
  if h = some b then { l with prev := some a } else l

/-- `UnLinkLRU` at the line of `b`, for the line of `a` with the links `n` and `p`. -/
def unlink (a b : GAddr) (n p : Option GAddr) (l : CacheLine) : CacheLine :=
  let l := if n = some b then { l with prev := p } else l
  let l := if p = some b then { l with next := n } else l
  if b = a then { l with next := none, prev := none } else l

theorem map_line_modify (c : Cache) (a b : GAddr) (g : CacheLine → CacheLine) :
    (c.modify a g).line b = (c.line b).map fun l => if b = a then g l else l := by
  rw [line_modify]
  by_cases hb : b = a
  · subst hb
    simp
  · simp [hb]

theorem line_linkLRU (c : Cache) (a b : GAddr) (i : Nat) :
    (c.linkLRU a i).line b = (c.line b).map (relink a b i (c.heads i)) := by
  unfold Cache.linkLRU
  cases hh : c.heads i with
  | none =>
    show (Cache.modify _ _ _).line b = _
    rw [map_line_modify]
    rfl
  | some h =>
    show (Cache.modify _ _ _).line b = _
    rw [map_line_modify, map_line_modify, Option.map_map]
    congr 1
    funext l
    simp only [Function.comp_apply, relink, Option.some.injEq, eq_comm (a := h)]

theorem line_unLinkAt (hl : c.line a = some l) (b : GAddr) (i : Nat) :
    (c.unLinkAt a i).line b = (c.line b).map (unlink a b l.next l.prev) := by
  unfold Cache.unLinkAt
  rw [hl]
  show (Cache.modify _ _ _).line b = _
  rw [map_line_modify]
  cases hn : l.next with
  | none =>
    cases hp : l.prev with
    | none => rfl
    | some p =>
      show Option.map _ ((Cache.modify _ _ _).line b) = _
      rw [map_line_modify, Option.map_map]
      congr 1
      funext l
      simp only [Function.comp_apply, unlink, Option.some.injEq, eq_comm (a := p), reduceCtorEq,
        if_false]
  | some n =>
    cases hp : l.prev with
    | none =>
      show Option.map _ ((Cache.modify _ _ _).line b) = _
      rw [map_line_modify, Option.map_map]
      congr 1
      funext l
      simp only [Function.comp_apply, unlink, Option.some.injEq, eq_comm (a := n), reduceCtorEq,
        if_false]
    | some p =>
      show Option.map _ ((Cache.modify _ _ _).line b) = _
      rw [map_line_modify, map_line_modify, Option.map_map, Option.map_map]
      congr 1
      funext l
      simp only [Function.comp_apply, unlink, Option.some.injEq, eq_comm (a := n),
        eq_comm (a := p)]

section
variable {β : Type} {φ : CacheLine → Option β}

theorem field_of_line (hl : c.line a = some l) : c.field φ a = φ l := by
  unfold Cache.field
  rw [hl, Option.bind_some]

theorem field_map {f : CacheLine → CacheLine} (h : c'.line b = (c.line b).map f)
    (hf : ∀ l, φ (f l) = φ l) : c'.field φ b = c.field φ b := by
  unfold Cache.field
  rw [h, Option.bind_map]
  congr 1
  funext l
  exact hf l

theorem field_map_some {f : CacheLine → CacheLine} {v : Option β} (h : c'.line b = (c.line b).map f)
    (hb : c.line b ≠ none) (hf : ∀ l, φ (f l) = v) : c'.field φ b = v := by
  obtain ⟨l, hl⟩ := Option.ne_none_iff_exists'.1 hb
  unfold Cache.field
  rw [h, hl, Option.map_some, Option.bind_some, hf]

end

theorem next_linkLRU (hl : c.line a ≠ none) :
    (c.linkLRU a i).next b = if b = a then c.heads i else c.next b := by
  have h := line_linkLRU c a b i
  by_cases hb : b = a
  · subst hb
    rw [if_pos rfl]
    refine field_map_some h hl fun l => ?_
    simp only [relink, if_true]
    split <;> rfl
  · rw [if_neg hb]
    refine field_map h fun l => ?_
    simp only [relink, if_neg hb]
    split <;> rfl

theorem prev_linkLRU (hl : c.line a ≠ none) (hh : ∀ b, c.heads i = some b → c.line b ≠ none)
    (ha : c.heads i ≠ some a) : (c.linkLRU a i).prev b =
      if b = a then none else if c.heads i = some b then some a else c.prev b := by
  have h := line_linkLRU c a b i
  by_cases hb : b = a
  · subst hb
    rw [if_pos rfl]
    refine field_map_some h hl fun l => ?_
    simp only [relink, if_true, if_neg ha]
  · rw [if_neg hb]
    by_cases hbh : c.heads i = some b
    · rw [if_pos hbh]
      refine field_map_some h (hh b hbh) fun l => ?_
      simp only [relink, if_pos hbh]
    · rw [if_neg hbh]
      refine field_map h fun l => ?_
      simp only [relink, if_neg hbh, if_neg hb]

theorem pos_linkLRU (hl : c.line a ≠ none) :
    (c.linkLRU a i).pos b = if b = a then some i else c.pos b := by
  have h := line_linkLRU c a b i
  by_cases hb : b = a
  · subst hb
    rw [if_pos rfl]
    refine field_map_some h hl fun l => ?_
    simp only [relink, if_true]
    split <;> rfl
  · rw [if_neg hb]
    refine field_map h fun l => ?_
    simp only [relink, if_neg hb]
    split <;> rfl

theorem next_unLinkAt (hl : c.line a = some l) (hp : ∀ b, l.prev = some b → c.line b ≠ none) :
    (c.unLinkAt a i).next b =
      if b = a then none else if l.prev = some b then l.next else c.next b := by
  have h := line_unLinkAt hl b i
  by_cases hb : b = a
  · subst hb
    rw [if_pos rfl]
    refine field_map_some h (by rw [hl]; exact Option.some_ne_none l) fun x => ?_
    simp only [unlink, if_true]
  · rw [if_neg hb]
    by_cases hbp : l.prev = some b
    · rw [if_pos hbp]
      refine field_map_some h (hp b hbp) fun x => ?_
      simp only [unlink, if_pos hbp, if_neg hb]
    · rw [if_neg hbp]
      refine field_map h fun x => ?_
      simp only [unlink, if_neg hbp, if_neg hb]
      split <;> rfl

theorem prev_unLinkAt (hl : c.line a = some l) (hn : ∀ b, l.next = some b → c.line b ≠ none) :
    (c.unLinkAt a i).prev b =
      if b = a then none else if l.next = some b then l.prev else c.prev b := by
  have h := line_unLinkAt hl b i
  by_cases hb : b = a
  · subst hb
    rw [if_pos rfl]
    refine field_map_some h (by rw [hl]; exact Option.some_ne_none l) fun x => ?_
    simp only [unlink, if_true]
  · rw [if_neg hb]
    by_cases hbn : l.next = some b
    · rw [if_pos hbn]
      refine field_map_some h (hn b hbn) fun x => ?_
      simp only [unlink, if_pos hbn, if_neg hb]
      split <;> rfl
    · rw [if_neg hbn]
      refine field_map h fun x => ?_
      simp only [unlink, if_neg hbn, if_neg hb]
      split <;> rfl

theorem pos_unLinkAt (c : Cache) (a : GAddr) (i : Nat) : (c.unLinkAt a i).pos = c.pos := by
  funext b
  cases hl : c.line a with
  | none =>
    unfold Cache.unLinkAt
    rw [hl]
  | some l =>
    refine field_map (line_unLinkAt hl b i) fun x => ?_
    unfold unlink
    split_ifs <;> rfl

theorem heads_unLinkAt (hl : c.line a = some l) : (c.unLinkAt a i).heads =
    if c.heads i = some a then Function.update c.heads i l.next else c.heads := by
  unfold Cache.unLinkAt
  rw [hl]

theorem tails_unLinkAt (hl : c.line a = some l) : (c.unLinkAt a i).tails =
    if c.tails i = some a then Function.update c.tails i l.prev else c.tails := by
  unfold Cache.unLinkAt
  rw [hl]

/-! ## The lists -/

/-- The lists are well formed and the lines on none of them have no links. -/
structure Hung (c : Cache) (L : Nat → List GAddr) : Prop extends Lists c L where
  off : ∀ a, (∀ i, a ∉ L i) → c.next a = none ∧ c.prev a = none

/-- The lines on list `i` know it. A line that `Evict` has taken from a list remembers it too. -/
def Placed (c : Cache) (L : Nat → List GAddr) : Prop := ∀ i a, a ∈ L i → c.pos a = some i

theorem Hung.next_mem (h : Hung c L) (hb : c.next a = some b) : ∃ i, a ∈ L i ∧ b ∈ L i := by
  by_cases ha : ∀ i, a ∉ L i
  · rw [(h.off a ha).1] at hb
    cases hb
  · obtain ⟨i, hi⟩ := not_forall_not.1 ha
    exact ⟨i, hi, (h.doubly i).next_mem hi hb⟩

theorem Hung.prev_mem (h : Hung c L) (hb : c.prev a = some b) : ∃ i, a ∈ L i ∧ b ∈ L i := by
  by_cases ha : ∀ i, a ∉ L i
  · rw [(h.off a ha).2] at hb
    cases hb
  · obtain ⟨i, hi⟩ := not_forall_not.1 ha
    exact ⟨i, hi, (h.doubly i).prev_mem hi hb⟩

theorem line_eq_none (c : Cache) (a : GAddr) : c.line a = none ↔ c.stateOf a = none := by
  unfold Cache.stateOf
  exact Option.map_eq_none_iff.symm

theorem SameBooks.line_ne_none (h : SameBooks c c') : c'.line a ≠ none ↔ c.line a ≠ none := by
  rw [Ne, line_eq_none, h.stateOf, ← line_eq_none]

theorem Hung.linkLRU (h : Hung c L) (ha : ∀ j, a ∉ L j) (hl : c.line a ≠ none) (i : Nat) :
    Hung (c.linkLRU a i) (Function.update L i (a :: L i)) := by
  have hhead : ∀ b, c.heads i = some b → b ∈ L i := by
    intro b hb
    rw [h.head i] at hb
    exact List.mem_of_mem_head? hb
  have hne : c.heads i ≠ some a := fun he => ha i (hhead a he)
  have hnext : ∀ b, (c.linkLRU a i).next b = if b = a then c.heads i else c.next b :=
    fun b => next_linkLRU hl
  have hprev : ∀ b, (c.linkLRU a i).prev b =
      if b = a then none else if c.heads i = some b then some a else c.prev b :=
    fun b => prev_linkLRU hl (fun b hb => h.present i b (hhead b hb)) hne
  have hmem : ∀ j b, b ∈ Function.update L i (a :: L i) j ↔ (j = i ∧ b = a) ∨ b ∈ L j := by
    intro j b
    by_cases hj : j = i
    · subst hj
      simp
    · simp [hj]
  refine ⟨⟨fun j => ?_, fun j => ?_, fun j => ?_, fun j b hb => ?_, fun j k b hb hb' => ?_⟩,
    fun b hb => ?_⟩
  · by_cases hj : j = i
    · subst hj
      rw [Function.update_self]
      refine (h.doubly j).push (ha j) ?_ ?_ (fun b hb => ?_) fun b hb => ?_
      · rw [hnext, if_pos rfl, h.head]
      · rw [hprev, if_pos rfl]
      · rw [hnext, if_neg (ne_of_mem_of_not_mem hb (ha j))]
      · rw [hprev, if_neg (ne_of_mem_of_not_mem hb (ha j)), h.head]
    · rw [Function.update_of_ne hj]
      refine (h.doubly j).congr (fun b hb => ?_) fun b hb => ?_
      · rw [hnext, if_neg (ne_of_mem_of_not_mem hb (ha j))]
      · have hnh : c.heads i ≠ some b := fun he => hj (h.once j i b hb (hhead b he))
        rw [hprev, if_neg (ne_of_mem_of_not_mem hb (ha j)), if_neg hnh]
  · show Function.update c.heads i (some a) j = _
    by_cases hj : j = i
    · subst hj
      rw [Function.update_self, Function.update_self]
      rfl
    · rw [Function.update_of_ne hj, Function.update_of_ne hj, h.head]
  · show (if c.tails i = none then Function.update c.tails i (some a) else c.tails) j = _
    have ht := h.tail i
    by_cases hj : j = i
    · subst hj
      rw [Function.update_self]
      cases hL : L j with
      | nil =>
        rw [hL] at ht
        rw [ht, List.getLast?_nil, if_pos rfl, Function.update_self]
        rfl
      | cons x xs =>
        rw [hL, List.getLast?_cons] at ht
        rw [List.getLast?_cons_cons, List.getLast?_cons, if_neg (by rw [ht]; simp), ht]
    · rw [Function.update_of_ne hj, ← h.tail j]
      split
      · rw [Function.update_of_ne hj]
      · rfl
  · obtain ⟨-, rfl⟩ | hb := (hmem j b).1 hb
    · exact (SameBooks.linkLRU .refl).line_ne_none.2 hl
    · exact (SameBooks.linkLRU .refl).line_ne_none.2 (h.present j b hb)
  · rw [hmem] at hb hb'
    obtain ⟨rfl, rfl⟩ | hbj := hb
    · obtain ⟨rfl, -⟩ | hbk := hb'
      · rfl
      · exact absurd hbk (ha k)
    · obtain ⟨-, rfl⟩ | hbk := hb'
      · exact absurd hbj (ha j)
      · exact h.once j k b hbj hbk
  · have hba : b ≠ a := fun he => hb i ((hmem i b).2 (.inl ⟨rfl, he⟩))
    have hoff : ∀ j, b ∉ L j := fun j hj => hb j ((hmem j b).2 (.inr hj))
    have hnh : c.heads i ≠ some b := fun he => hoff i (hhead b he)
    rw [hnext, hprev, if_neg hba, if_neg hba, if_neg hnh]
    exact h.off b hoff

theorem Placed.linkLRU (h : Placed c L) (ha : ∀ j, a ∉ L j) (hl : c.line a ≠ none) (i : Nat) :
    Placed (c.linkLRU a i) (Function.update L i (a :: L i)) := by
  intro j b hb
  rw [pos_linkLRU hl]
  by_cases hj : j = i
  · subst hj
    rw [Function.update_self] at hb
    obtain rfl | hb := List.mem_cons.1 hb
    · rw [if_pos rfl]
    · rw [if_neg (ne_of_mem_of_not_mem hb (ha j)), h j b hb]
  · rw [Function.update_of_ne hj] at hb
    rw [if_neg (ne_of_mem_of_not_mem hb (ha j)), h j b hb]

/-- The lists without a line. -/
def without (L : Nat → List GAddr) (a : GAddr) (i : Nat) : List GAddr := (L i).erase a

theorem mem_of_without (h : b ∈ without L a i) : b ∈ L i := List.mem_of_mem_erase h

theorem mem_without (hb : b ≠ a) : b ∈ without L a i ↔ b ∈ L i := List.mem_erase_of_ne hb

theorem without_of_notMem (h : a ∉ L i) : without L a i = L i := List.erase_of_not_mem h

theorem Lists.notMem_without (h : Lists c L) (a : GAddr) (i : Nat) : a ∉ without L a i :=
  (h.doubly i).nodup.not_mem_erase

theorem Hung.unLinkAt (h : Hung c L) (hi : ∀ j, a ∈ L j → j = i) :
    Hung (c.unLinkAt a i) (without L a) := by
  cases hl : c.line a with
  | none =>
    have hoff : ∀ j, a ∉ L j := fun j hj => h.present j a hj hl
    have hL : without L a = L := funext fun j => without_of_notMem (hoff j)
    unfold Cache.unLinkAt
    rw [hl, hL]
    exact h
  | some l =>
    have hla : c.line a ≠ none := hl ▸ Option.some_ne_none l
    have hna : c.next a = l.next := field_of_line hl
    have hpa : c.prev a = l.prev := field_of_line hl
    have hprevmem : ∀ b, l.prev = some b → ∃ j, a ∈ L j ∧ b ∈ L j :=
      fun b hb => h.prev_mem (hpa.trans hb)
    have hnextmem : ∀ b, l.next = some b → ∃ j, a ∈ L j ∧ b ∈ L j :=
      fun b hb => h.next_mem (hna.trans hb)
    have hnext : ∀ b, (c.unLinkAt a i).next b =
        if b = a then none else if l.prev = some b then l.next else c.next b := by
      refine fun b => next_unLinkAt hl fun b hb => ?_
      obtain ⟨j, -, hj⟩ := hprevmem b hb
      exact h.present j b hj
    have hprev : ∀ b, (c.unLinkAt a i).prev b =
        if b = a then none else if l.next = some b then l.prev else c.prev b := by
      refine fun b => prev_unLinkAt hl fun b hb => ?_
      obtain ⟨j, -, hj⟩ := hnextmem b hb
      exact h.present j b hj
    -- the neighbours of `a` are on the list of `a`
    have hsame : ∀ j b, b ∈ L j → a ∉ L j → l.prev ≠ some b ∧ l.next ≠ some b := by
      intro j b hb ha
      refine ⟨fun he => ?_, fun he => ?_⟩
      · obtain ⟨k, hak, hbk⟩ := hprevmem b he
        exact ha (h.once j k b hb hbk ▸ hak)
      · obtain ⟨k, hak, hbk⟩ := hnextmem b he
        exact ha (h.once j k b hb hbk ▸ hak)
    refine ⟨⟨fun j => ?_, fun j => ?_, fun j => ?_, fun j b hb => ?_, fun j k b hb hb' => ?_⟩,
      fun b hb => ?_⟩
    · by_cases ha : a ∈ L j
      · refine (h.doubly j).unlink ha (fun b _ hb => ?_) fun b _ hb => ?_
        · rw [hnext, if_neg hb, hna, hpa]
        · rw [hprev, if_neg hb, hna, hpa]
      · rw [without_of_notMem ha]
        refine (h.doubly j).congr (fun b hb => ?_) fun b hb => ?_
        · rw [hnext, if_neg (ne_of_mem_of_not_mem hb ha), if_neg (hsame j b hb ha).1]
        · rw [hprev, if_neg (ne_of_mem_of_not_mem hb ha), if_neg (hsame j b hb ha).2]
    · rw [heads_unLinkAt hl]
      by_cases hj : j = i
      · subst hj
        unfold without
        rw [(h.doubly j).head?_erase, ← h.head, hna]
        split
        · rw [Function.update_self]
        · rfl
      · rw [without_of_notMem fun ha => hj (hi j ha), ← h.head]
        split
        · rw [Function.update_of_ne hj]
        · rfl
    · rw [tails_unLinkAt hl]
      by_cases hj : j = i
      · subst hj
        unfold without
        rw [(h.doubly j).getLast?_erase, ← h.tail, hpa]
        split
        · rw [Function.update_self]
        · rfl
      · rw [without_of_notMem fun ha => hj (hi j ha), ← h.tail]
        split
        · rw [Function.update_of_ne hj]
        · rfl
    · exact (SameBooks.unLinkAt .refl).line_ne_none.2 (h.present j b (mem_of_without hb))
    · exact h.once j k b (mem_of_without hb) (mem_of_without hb')
    · rw [hnext, hprev]
      by_cases hba : b = a
      · rw [if_pos hba, if_pos hba]
        exact ⟨rfl, rfl⟩
      · have hoff : ∀ j, b ∉ L j := fun j hj => hb j ((mem_without hba).2 hj)
        have hnp : l.prev ≠ some b := by
          intro he
          obtain ⟨k, -, hbk⟩ := hprevmem b he
          exact hoff k hbk
        have hnn : l.next ≠ some b := by
          intro he
          obtain ⟨k, -, hbk⟩ := hnextmem b he
          exact hoff k hbk
        rw [if_neg hba, if_neg hba, if_neg hnp, if_neg hnn]
        exact h.off b hoff

/-- The lists as they are between two operations. -/
structure Linked (c : Cache) (L : Nat → List GAddr) : Prop extends Hung c L where
  placed : Placed c L

/-- What is done elsewhere leaves the lists as they are. -/
theorem Hung.frame (h : Hung c L) (hn : c'.next = c.next) (hp : c'.prev = c.prev)
    (hh : c'.heads = c.heads) (ht : c'.tails = c.tails)
    (hl : ∀ i a, a ∈ L i → c'.line a ≠ none) : Hung c' L where
  doubly i := by
    rw [hn, hp]
    exact h.doubly i
  head i := by rw [hh, h.head]
  tail i := by rw [ht, h.tail]
  present := hl
  once := h.once
  off a ha := by
    rw [hn, hp]
    exact h.off a ha

theorem field_modify {β : Type} {φ : CacheLine → Option β} {g : CacheLine → CacheLine}
    (hg : ∀ l, φ (g l) = φ l) : (c.modify a g).field φ = c.field φ := by
  funext b
  refine field_map (map_line_modify c a b g) fun l => ?_
  split
  · exact hg l
  · rfl

theorem Hung.modify {g : CacheLine → CacheLine} (h : Hung c L) (hn : ∀ l, (g l).next = l.next)
    (hp : ∀ l, (g l).prev = l.prev) : Hung (c.modify a g) L := by
  have hlists : (c.modify a g).heads = c.heads ∧ (c.modify a g).tails = c.tails := by
    unfold Cache.modify
    split <;> exact ⟨rfl, rfl⟩
  refine h.frame (field_modify hn) (field_modify hp) hlists.1 hlists.2 fun i b hb => ?_
  rw [map_line_modify]
  exact fun hnone => h.present i b hb (Option.map_eq_none_iff.1 hnone)

theorem Linked.modify {g : CacheLine → CacheLine} (h : Linked c L)
    (hg : ∀ l, (g l).next = l.next ∧ (g l).prev = l.prev ∧ (g l).pos = l.pos) :
    Linked (c.modify a g) L := by
  refine ⟨h.toHung.modify (fun l => (hg l).1) fun l => (hg l).2.1, fun i b hb => ?_⟩
  rw [Cache.pos, field_modify fun l => (hg l).2.2]
  exact h.placed i b hb

theorem Linked.setState (h : Linked c L) (a : GAddr) (s : CacheState) :
    Linked (c.setState a s) L :=
  h.modify fun _ => ⟨rfl, rfl, rfl⟩

theorem Linked.linkLRU (h : Linked c L) (ha : ∀ j, a ∉ L j) (hl : c.line a ≠ none) (i : Nat) :
    Linked (c.linkLRU a i) (Function.update L i (a :: L i)) :=
  ⟨h.toHung.linkLRU ha hl i, h.placed.linkLRU ha hl i⟩

theorem Linked.unLinkAt (h : Linked c L) (hi : ∀ j, a ∈ L j → j = i) :
    Linked (c.unLinkAt a i) (without L a) := by
  refine ⟨h.toHung.unLinkAt hi, fun j b hb => ?_⟩
  rw [pos_unLinkAt]
  exact h.placed j b (mem_of_without hb)

theorem Linked.unLinkLRU (h : Linked c L) (a : GAddr) : Linked (c.unLinkLRU a) (without L a) := by
  unfold Cache.unLinkLRU
  cases hp : (c.line a).bind CacheLine.pos with
  | none =>
    have hoff : ∀ j, a ∉ L j := by
      intro j hj
      have hpos := h.placed j a hj
      rw [Cache.pos, Cache.field, hp] at hpos
      cases hpos
    have hL : without L a = L := funext fun j => without_of_notMem (hoff j)
    rw [hL]
    exact h
  | some i =>
    have hi : ∀ j, a ∈ L j → j = i := by
      intro j hj
      have hpos := h.placed j a hj
      rw [Cache.pos, Cache.field, hp] at hpos
      exact (Option.some.inj hpos).symm
    -- the position is forgotten first, so `Placed` fails at `a` until it is off its list
    have hh : Hung (c.modify a fun l => { l with pos := none }) L :=
      h.toHung.modify (fun _ => rfl) fun _ => rfl
    refine ⟨hh.unLinkAt hi, fun j b hb => ?_⟩
    have hba : b ≠ a := ne_of_mem_of_not_mem hb (h.notMem_without a j)
    have hmod : (c.modify a fun l => { l with pos := none }).line b = (c.line b).map id := by
      rw [map_line_modify]
      simp only [if_neg hba]
      rfl
    rw [pos_unLinkAt]
    exact (field_map hmod fun _ => rfl).trans (h.placed j b (mem_of_without hb))

/-- A line that is on no list is deleted. -/
theorem Linked.erase (h : Linked c L) (ha : ∀ i, a ∉ L i) :
    Linked { c with caches := c.caches.erase a } L := by
  have hline : ∀ b, Cache.line { c with caches := c.caches.erase a } b =
      if b = a then none else c.line b := by
    intro b
    unfold Cache.line
    by_cases hb : b = a
    · subst hb
      rw [AList.lookup_erase, if_pos rfl]
    · rw [AList.lookup_erase_ne hb, if_neg hb]
  have hfield : ∀ {β : Type} (φ : CacheLine → Option β) b,
      Cache.field φ { c with caches := c.caches.erase a } b =
        if b = a then none else c.field φ b := by
    intro β φ b
    unfold Cache.field
    rw [hline]
    split <;> rfl
  refine ⟨h.toHung.frame ?_ ?_ rfl rfl fun i b hb => ?_, fun i b hb => ?_⟩
  · funext b
    refine (hfield _ b).trans ?_
    split
    · subst b
      exact (h.off a ha).1.symm
    · rfl
  · funext b
    refine (hfield _ b).trans ?_
    split
    · subst b
      exact (h.off a ha).2.symm
    · rfl
  · rw [hline, if_neg (ne_of_mem_of_not_mem hb (ha i))]
    exact h.present i b hb
  · refine (hfield _ b).trans ?_
    rw [if_neg (ne_of_mem_of_not_mem hb (ha i))]
    exact h.placed i b hb

theorem Linked.setPending (h : Linked c L) (a : GAddr) (p : Option Pending) :
    Linked (c.setPending a p) L :=
  ⟨h.toHung.frame rfl rfl rfl rfl h.present, h.placed⟩

theorem Linked.counters (h : Linked c L) (used evicted : Int) :
    Linked { c with usedBytes := used, toEvicted := evicted } L :=
  ⟨h.toHung.frame rfl rfl rfl rfl h.present, h.placed⟩

theorem Linked.toToInvalid (h : Linked c L) (a : GAddr) : Linked (c.toToInvalid a) L :=
  (h.setState a .toInvalid).counters _ _

theorem Linked.toInvalid (h : Linked c L) (a : GAddr) : Linked (c.toInvalid a) (without L a) := by
  unfold Cache.toInvalid
  have hu : Linked { c with usedBytes := c.usedBytes - blockSize } L := h.counters _ _
  exact (hu.unLinkLRU a).erase (h.notMem_without a)

/-- A new line hangs on no list. -/
theorem Linked.setCLine (h : Linked c L) (hl : c.line a = none) : Linked (c.setCLine a) L := by
  have hline : ∀ b, (c.setCLine a).line b = if b = a then some {} else c.line b := by
    intro b
    unfold Cache.setCLine
    rw [hl]
    unfold Cache.line
    by_cases hb : b = a
    · subst hb
      rw [if_pos rfl]
      exact AList.lookup_insert _
    · rw [if_neg hb]
      exact AList.lookup_insert_ne hb
  have hlists : (c.setCLine a).heads = c.heads ∧ (c.setCLine a).tails = c.tails := by
    unfold Cache.setCLine
    rw [hl]
    exact ⟨rfl, rfl⟩
  have ha : ∀ i, a ∉ L i := fun i hi => h.present i a hi hl
  refine ⟨h.toHung.frame ?_ ?_ hlists.1 hlists.2 fun i b hb => ?_, fun i b hb => ?_⟩
  · funext b
    unfold Cache.next Cache.field
    rw [hline]
    split
    · subst b
      rw [hl]
      rfl
    · rfl
  · funext b
    unfold Cache.prev Cache.field
    rw [hline]
    split
    · subst b
      rw [hl]
      rfl
    · rfl
  · rw [hline, if_neg (ne_of_mem_of_not_mem hb (ha i))]
    exact h.present i b hb
  · unfold Cache.pos Cache.field
    rw [hline, if_neg (ne_of_mem_of_not_mem hb (ha i))]
    exact h.placed i b hb

/-! ## The invariant -/

/-- A line that waits for its data or for a permission. -/
def CacheState.waiting : CacheState → Bool
  | .toShared | .toDirty => true
  | _ => false

/-- Where a block is to be found, by its state. -/
structure Hangs (L : Nat → List GAddr) (a : GAddr) (t : Option CacheState) : Prop where
  stable : t.any CacheState.stable = true → ∃ i < lruNum, a ∈ L i
  waiting : t.any CacheState.waiting = true → ∀ i, a ∉ L i

structure Listed (c : Cache) (L : Nat → List GAddr) : Prop where
  linked : Linked c L
  hangs : ∀ a, Hangs L a (c.stateOf a)

variable {t : Option CacheState} {p : Option Pending} {m n : Int}

/-- A step that is about block `a`. -/
theorem Listed.change (h : Listed c L) (hch : Change c c' a t p m n) (hl : Linked c' L')
    (hmem : ∀ b i, b ≠ a → (b ∈ L' i ↔ b ∈ L i)) (hat : Hangs L' a t) : Listed c' L' := by
  refine ⟨hl, fun b => ?_⟩
  rw [hch.stateOf]
  by_cases hb : b = a
  · subst hb
    rwa [Function.update_self]
  · rw [Function.update_of_ne hb]
    refine ⟨fun hs => ?_, fun hw i hi => (h.hangs b).waiting hw i ((hmem b i hb).1 hi)⟩
    obtain ⟨i, hi, hbi⟩ := (h.hangs b).stable hs
    exact ⟨i, hi, (hmem b i hb).2 hbi⟩

theorem hangs_off (ht : t.any CacheState.stable = false) (hoff : ∀ i, a ∉ L i) : Hangs L a t := by
  refine ⟨fun hs => ?_, fun _ => hoff⟩
  rw [ht] at hs
  cases hs

theorem hangs_on (ht : t.any CacheState.waiting = false) (hon : ∃ i < lruNum, a ∈ L i) :
    Hangs L a t := by
  refine ⟨fun _ => hon, fun hw => ?_⟩
  rw [ht] at hw
  cases hw

/-- `a` stays where it is. -/
theorem Listed.stay (h : Listed c L) (hch : Change c c' a t p m n) (hl : Linked c' L)
    (hat : Hangs L a t) : Listed c' L :=
  h.change hch hl (fun _ _ _ => Iff.rfl) hat

/-- `a` is taken from its list. -/
theorem Listed.leave (h : Listed c L) (hch : Change c c' a t p m n) (hl : Linked c' (without L a))
    (hat : t.any CacheState.stable = false) : Listed c' (without L a) :=
  h.change hch hl (fun _ _ hb => mem_without hb) (hangs_off hat (h.linked.notMem_without a))

theorem mem_update_cons {K : Nat → List GAddr} (hb : b ≠ a) :
    b ∈ Function.update K i (a :: K i) j ↔ b ∈ K j := by
  by_cases hj : j = i
  · subst hj
    simp [hb]
  · rw [Function.update_of_ne hj]

theorem hangs_update_cons {K : Nat → List GAddr} (ht : t.any CacheState.waiting = false)
    (hi : i < lruNum) : Hangs (Function.update K i (a :: K i)) a t := by
  refine hangs_on ht ⟨i, hi, ?_⟩
  rw [Function.update_self]
  exact List.mem_cons_self ..

/-- `a`, which is on no list, is linked. -/
theorem Listed.enter (h : Listed c L) (hch : Change c c' a t p m n) (hi : i < lruNum)
    (hl : Linked c' (Function.update L i (a :: L i))) (hat : t.any CacheState.waiting = false) :
    Listed c' (Function.update L i (a :: L i)) :=
  h.change hch hl (fun _ _ hb => mem_update_cons hb) (hangs_update_cons hat hi)

/-! ## The steps -/

/-- The lists are in order. -/
def Relisted (c : Cache) : Prop := ∃ L, Listed c L

theorem relisted_miss {write : Bool} (h : Listed c L) (hs : step (.miss a write) c = some c') :
    Relisted c' := by
  unfold step at hs
  simp only [Option.ite_none_right_eq_some, Option.some.injEq] at hs
  obtain ⟨hl, rfl⟩ := hs
  have hset := change_setCLine hl
  have hoff : ∀ i, a ∉ L i := fun i hi => h.linked.present i a hi hl
  have hto := h.linked.setCLine hl
  cases write with
  | false =>
    have hch := (hset.setState .toShared).setPending (some .read)
    exact ⟨L, h.stay hch ((hto.setState a _).setPending a _) (hangs_off rfl hoff)⟩
  | true =>
    have hch := (hset.setState .toDirty).setPending (some .write)
    exact ⟨L, h.stay hch ((hto.setState a _).setPending a _) (hangs_off rfl hoff)⟩

theorem relisted_hit (h : Listed c L) (hs : step (.hit a i) c = some c') : Relisted c' := by
  simp only [step, Option.bind_eq_bind, Option.bind_eq_some_iff, Option.ite_none_right_eq_some,
    Option.some.injEq] at hs
  obtain ⟨l, hl, ⟨hst, hi⟩, rfl⟩ := hs
  have hsame : SameBooks c ((c.unLinkLRU a).linkLRU a i) := .linkLRU (.unLinkLRU .refl)
  have hl' : (c.unLinkLRU a).line a ≠ none :=
    (SameBooks.unLinkLRU .refl).line_ne_none.2 (hl ▸ Option.some_ne_none l)
  have hlinked := (h.linked.unLinkLRU a).linkLRU (h.linked.notMem_without a) hl' i
  refine ⟨_, h.change (hsame.change a) hlinked (fun b j hb => ?_) (hangs_update_cons ?_ hi)⟩
  · rw [mem_update_cons hb, mem_without hb]
  · rw [stateOf_of_line hl]
    cases hls : l.state <;> simp_all [CacheState.stable, CacheState.waiting]

theorem relisted_upgrade (h : Listed c L) (hs : step (.upgrade a) c = some c') :
    Relisted c' := by
  simp only [step, Option.bind_eq_bind, Option.bind_eq_some_iff, Option.ite_none_right_eq_some,
    Option.some.injEq] at hs
  obtain ⟨l, hl, -, rfl⟩ := hs
  have hto : Change c ((c.setState a .toDirty).unLinkLRU a) a (some .toDirty) (c.pending a) 0 0 :=
    ((Change.here c (stateOf_of_line hl)).setState .toDirty).same (.unLinkLRU .refl)
  have hlinked := ((h.linked.setState a .toDirty).unLinkLRU a).setPending a (some .writePermissionOnly)
  exact ⟨_, h.leave (hto.setPending (some .writePermissionOnly)) hlinked rfl⟩

/-- The answer to a request that a line has waited for on no list. -/
theorem Waits.off (hw : Waits c) (h : Listed c L) {p : Pending} (hp : c.pending a = some p)
    (hpw : p.state.waiting = true) : (∀ i, a ∉ L i) ∧ c.line a ≠ none := by
  have hs := hw.state hp
  refine ⟨(h.hangs a).waiting (by rw [hs]; exact hpw), ?_⟩
  rw [Ne, line_eq_none, hs]
  exact Option.some_ne_none _

theorem relisted_reply (hw : Waits c) (h : Listed c L) (hs : step (.reply a i) c = some c') :
    Relisted c' := by
  simp only [step, Option.ite_none_right_eq_some] at hs
  obtain ⟨hi, hs⟩ := hs
  split at hs <;> simp only [Option.some.injEq, reduceCtorEq] at hs
  case h_1 hp =>
    obtain ⟨hoff, hl⟩ := hw.off h hp rfl
    have hst : (c.line a).map CacheLine.state = some .toShared := hw.state hp
    have hch := ((Change.here c (hw.state hp)).toShared (i := i)).setPending none
    subst hs
    refine ⟨_, h.enter hch hi ?_ rfl⟩
    unfold Cache.toShared
    rw [if_pos hst]
    exact ((h.linked.linkLRU hoff hl i).setState a .shared).setPending a none
  all_goals
    rename_i hp
    obtain ⟨hoff, hl⟩ := hw.off h hp rfl
    have hch := ((Change.here c (hw.state hp)).toDirty (i := i)).setPending none
    have hl' : (c.setState a .dirty).line a ≠ none := by
      unfold Cache.setState
      rw [map_line_modify, Ne, Option.map_eq_none_iff]
      exact hl
    subst hs
    exact ⟨_, h.enter hch hi (((h.linked.setState a .dirty).linkLRU hoff hl' i).setPending a none)
      rfl⟩

theorem Relisted.setPending (h : Relisted c) (a : GAddr) (p : Option Pending) :
    Relisted (c.setPending a p) := by
  obtain ⟨L, h⟩ := h
  exact ⟨L, h.linked.setPending a p, h.hangs⟩

theorem Listed.toInvalid (h : Listed c L) (a : GAddr) : Relisted (c.toInvalid a) :=
  ⟨_, h.leave (Change.here c rfl).toInvalid (h.linked.toInvalid a) rfl⟩

/-- A line that starts to leave may hang on its list or not. -/
theorem hangs_toInvalid : Hangs L a (t.map fun _ => .toInvalid) := by
  refine ⟨fun h => ?_, fun h => ?_⟩ <;> cases t <;> cases h

theorem Listed.toToInvalid (h : Listed c L) (a : GAddr) : Relisted (c.toToInvalid a) :=
  ⟨L, h.stay (Change.here c rfl).toToInvalid (h.linked.toToInvalid a) hangs_toInvalid⟩

theorem relisted_share (hw : Waits c) (h : Listed c L) (hs : step (.share a) c = some c') :
    Relisted c' := by
  simp only [step, Option.bind_eq_bind, Option.bind_eq_some_iff, Option.ite_none_left_eq_some,
    Option.some.injEq] at hs
  obtain ⟨l, hl, ht, rfl⟩ := hs
  have hst := (hw.settled hl (by simpa using ht)).2
  have hon : ∃ i < lruNum, a ∈ L i := by
    refine (h.hangs a).stable ?_
    obtain hst | hst := hst <;> rw [hst] <;> rfl
  have hns : (c.line a).map CacheLine.state ≠ some .toShared := by
    intro he
    obtain hst | hst := hst <;> cases hst.symm.trans he
  have hch := (Change.here c (stateOf_of_line hl)).toShared (i := 0)
  refine ⟨L, h.stay hch ?_ (hangs_on rfl hon)⟩
  unfold Cache.toShared
  rw [if_neg hns]
  exact h.linked.setState a .shared

theorem relisted_evict (hw : Waits c) (h : Listed c L) (hs : step (.evict i) c = some c') :
    Relisted c' := by
  simp only [step, Cache.evict, Option.ite_none_right_eq_some, Option.bind_eq_bind,
    Option.bind_eq_some_iff, Option.ite_none_left_eq_some, Option.some.injEq, not_or] at hs
  obtain ⟨-, a, -, l, hl, ⟨-, ht⟩, j, hj, rfl⟩ := hs
  have hpos : ∀ k, a ∈ L k → k = j := by
    intro k hk
    have hak := h.linked.placed k a hk
    rw [Cache.pos, field_of_line hl, hj] at hak
    exact (Option.some.inj hak).symm
  have hsame : SameBooks c (c.unLinkAt a j) := .unLinkAt .refl
  have hlinked := h.linked.unLinkAt hpos
  obtain ⟨-, hst | hst⟩ := hw.settled hl (by simpa using ht)
  · have hs' : ((c.unLinkAt a j).line a).map CacheLine.state = some .shared := by
      rw [← hst, ← hsame.stateOf]
      rfl
    unfold Cache.evictLine
    rw [hs']
    -- `ToInvalid` unlinks the line again: it finds no links and is at neither end of the list
    have hch := ((Change.here c hst).same hsame).toInvalid
    have hoff := hlinked.notMem_without a
    refine ⟨_, h.change hch (hlinked.toInvalid a) (fun b k hb => ?_) (hangs_off rfl hoff)⟩
    rw [mem_without hb, mem_without hb]
  · have hs' : ((c.unLinkAt a j).line a).map CacheLine.state = some .dirty := by
      rw [← hst, ← hsame.stateOf]
      rfl
    unfold Cache.evictLine
    rw [hs']
    have hch := ((Change.here c hst).same hsame).toToInvalid
    exact Relisted.setPending ⟨_, h.leave hch (hlinked.toToInvalid a) rfl⟩ a _

/-- A WRITE_PERMISSION_ONLY fails: `UndoShared` follows. -/
def Act.undoes (act : Act) (c : Cache) : Bool :=
  match act with
  | .fail a => c.pending a = some .writePermissionOnly
  | _ => false

theorem relisted_fail (h : Listed c L) (hu : (Act.fail a).undoes c = false)
    (hs : step (.fail a) c = some c') : Relisted c' := by
  simp only [step] at hs
  split at hs <;> simp only [Option.some.injEq, reduceCtorEq] at hs
  case h_3 hp => simp [Act.undoes, hp] at hu
  all_goals
    subst hs
    exact (h.toInvalid a).setPending a none

/-- Every step but `UndoShared` leaves the lists in order. -/
theorem relisted_step {act : Act} (hw : Waits c) (h : Relisted c) (hu : act.undoes c = false)
    (hs : step act c = some c') : Relisted c' := by
  obtain ⟨L, h⟩ := h
  cases act with
  | miss a write => exact relisted_miss h hs
  | hit a i => exact relisted_hit h hs
  | upgrade a => exact relisted_upgrade h hs
  | lock a n =>
    obtain rfl := Option.some.inj hs
    have hsame : SameBooks c (c.modify a fun l => { l with locks := n }) :=
      sameBooks_modify fun _ => rfl
    exact ⟨L, h.stay (hsame.change a) (h.linked.modify fun _ => ⟨rfl, rfl, rfl⟩) (h.hangs a)⟩
  | reply a i => exact relisted_reply hw h hs
  | fail a => exact relisted_fail h hu hs
  | share a => exact relisted_share hw h hs
  | invalidate a =>
    simp only [step, Option.bind_eq_bind, Option.bind_eq_some_iff, Option.ite_none_left_eq_some,
      Option.some.injEq] at hs
    obtain ⟨l, -, -, rfl⟩ := hs
    exact h.toInvalid a
  | surrender a =>
    simp only [step, Option.bind_eq_bind, Option.bind_eq_some_iff, Option.ite_none_left_eq_some,
      Option.some.injEq] at hs
    obtain ⟨l, -, -, rfl⟩ := hs
    exact (h.toToInvalid a).setPending a _
  | completionCheck a =>
    simp only [step, Option.ite_none_right_eq_some, Option.some.injEq] at hs
    obtain ⟨-, rfl⟩ := hs
    exact (h.toInvalid a).setPending a _
  | evict i => exact relisted_evict hw h hs
  | evictDirty a =>
    simp only [step, Option.ite_none_right_eq_some, Option.some.injEq] at hs
    obtain ⟨-, rfl⟩ := hs
    have hc : Listed { c with toEvicted := c.toEvicted - 1 } L :=
      ⟨h.linked.counters _ _, h.hangs⟩
    exact (hc.toInvalid a).setPending a _

/-! ## Every run -/

/-- No WRITE_PERMISSION_ONLY fails. -/
def Relinks (act : Act) (c : Cache) : Prop := act.undoes c = false

instance (act : Act) (c : Cache) : Decidable (Relinks act c) := inferInstanceAs (Decidable (_ = _))

theorem relisted_init : Relisted .init := by
  refine ⟨fun _ => [], ⟨⟨⟨?_, ?_, ?_, ?_, ?_⟩, ?_⟩, ?_⟩, ?_⟩
  · exact fun _ => .nil
  · exact fun _ => rfl
  · exact fun _ => rfl
  · exact fun _ _ h => absurd h List.not_mem_nil
  · exact fun _ _ _ h => absurd h List.not_mem_nil
  · exact fun _ _ => ⟨rfl, rfl⟩
  · exact fun _ _ h => absurd h List.not_mem_nil
  · exact fun _ => hangs_off rfl fun _ => List.not_mem_nil

theorem Relisted.evictable (h : Relisted c) : Evictable c := by
  obtain ⟨L, h⟩ := h
  refine ⟨L, h.linked.toLists, fun a s hs hst => (h.hangs a).stable ?_⟩
  rw [hs]
  exact hst

/-- The lists are well formed and complete in every run in which no WRITE_PERMISSION_ONLY fails. -/
theorem evictable_of_relinks (h : Reaches step Relinks .init c) : Evictable c := by
  have hinv : Waits c ∧ Relisted c := by
    refine h.invariant (I := fun c => Waits c ∧ Relisted c) ⟨waits_init, relisted_init⟩ ?_
    rintro act c₁ c₂ ⟨hw, hl⟩ hok hs
    exact ⟨(booked_step hw hs).waits hw, relisted_step hw hl hok hs⟩
  exact hinv.2.evictable

/-- Two lines on one list, the older one is read again and the other one written and evicted. -/
def reorderingRun : List Act :=
  [.miss 0 false, .reply 0 3, .miss 512 false, .reply 512 3, .hit 0 3, .upgrade 512, .reply 512 4,
    .miss 1024 true, .reply 1024 3, .evict 4]

theorem evictable_reordering : ∃ c, Reaches step Relinks .init c ∧
    c.heads 3 = some 1024 ∧ c.tails 3 = some 0 ∧ c.heads 4 = none ∧ Evictable c := by
  obtain ⟨c, hr, hh, ht, hn⟩ := Reaches.exists_of_runs step Relinks reorderingRun .init
    (fun c => c.heads 3 = some 1024 ∧ c.tails 3 = some 0 ∧ c.heads 4 = none) (by decide)
  exact ⟨c, hr, hh, ht, hn, evictable_of_relinks hr⟩

/-- A shared line is to be written and the home worker does not grant the permission. -/
def refusedRun : List Act := [.miss 0 false, .reply 0 3, .upgrade 0, .fail 0]

/-- The line is shared again then, and on no list. -/
theorem not_evictable_refused : ¬ ∀ c, Reaches step anyStep .init c → Evictable c := by
  intro hall
  obtain ⟨c, hr, hs, hheads⟩ := Reaches.exists_of_runs step anyStep refusedRun .init
    (fun c => c.stateOf 0 = some .shared ∧ ∀ i < lruNum, c.heads i = none) (by decide)
  obtain ⟨L, hL, hon⟩ := hall c hr
  obtain ⟨i, hi, hmem⟩ := hon 0 .shared hs rfl
  have hhead := hL.head i
  rw [hheads i hi] at hhead
  rw [List.head?_eq_none_iff.1 hhead.symm] at hmem
  exact absurd hmem List.not_mem_nil

end HwGam.Lru
