import HwGam.Lib.Totals
import HwGam.Lru.Model

/-!
# The counters of the cache

`used_bytes` is counted where lines are made and deleted, `to_evicted` where a line starts to leave
and where the answer to its WRITE_BACK arrives. What the counters should say is the number of lines
in the map and of those in CACHE_TO_INVALID.
-/

namespace HwGam.Lru

open Lib Cache

variable {c c' c'' : Cache} {a b : GAddr} {i : Nat} {f : CacheState → Int} {s : CacheState}

def Cache.stateOf (c : Cache) (a : GAddr) : Option CacheState := (c.line a).map CacheLine.state

/-- The sum of a weight over the states of all lines. -/
def Cache.weight (f : CacheState → Int) (c : Cache) : Int := total (fun l => f l.state) c.caches

/-- The number of lines in the map. -/
def Cache.lines (c : Cache) : Int := c.weight fun _ => 1

/-- The number of lines in CACHE_TO_INVALID. -/
def Cache.leaving (c : Cache) : Int := c.weight fun s => if s = .toInvalid then 1 else 0

/-- The counters say what they are for. -/
structure Accounts (c : Cache) : Prop where
  usedBytes : c.usedBytes = blockSize * c.lines
  toEvicted : c.toEvicted = c.leaving
  /-- so `used` is the bytes of the lines that stay -/
  used : c.used = blockSize * c.weight fun s => if s = .toInvalid then 0 else 1
  nonneg : 0 ≤ c.used

/-! ## What the operations change -/

theorem line_modify (c : Cache) (a b : GAddr) (g : CacheLine → CacheLine) :
    (c.modify a g).line b = if b = a then (c.line a).map g else c.line b := by
  unfold Cache.modify
  cases hl : c.line a with
  | none =>
    by_cases hb : b = a
    · rw [if_pos hb, hb, hl]
      rfl
    · rw [if_neg hb]
  | some l =>
    by_cases hb : b = a
    · subst hb
      simp [Cache.line, AList.lookup_insert]
    · simp [Cache.line, AList.lookup_insert_ne hb, hb]

/-- Only the links of the lines differ. -/
structure SameBooks (c c' : Cache) : Prop where
  stateOf : c'.stateOf = c.stateOf
  weight : ∀ f, c'.weight f = c.weight f
  usedBytes : c'.usedBytes = c.usedBytes
  toEvicted : c'.toEvicted = c.toEvicted
  pending : c'.pending = c.pending

theorem SameBooks.refl : SameBooks c c := ⟨rfl, fun _ => rfl, rfl, rfl, rfl⟩

theorem SameBooks.trans (h : SameBooks c c') (h' : SameBooks c' c'') : SameBooks c c'' :=
  ⟨h'.stateOf.trans h.stateOf, fun f => (h'.weight f).trans (h.weight f),
    h'.usedBytes.trans h.usedBytes, h'.toEvicted.trans h.toEvicted, h'.pending.trans h.pending⟩

theorem weight_modify (f : CacheState → Int) (c : Cache) (a : GAddr) (g : CacheLine → CacheLine) :
    (c.modify a g).weight f =
      c.weight f + (c.line a).elim 0 fun l => f (g l).state - f l.state := by
  unfold Cache.modify Cache.weight
  cases hl : c.line a with
  | none => simp
  | some l =>
    have hlook : c.caches.lookup a = some l := hl
    simp only [total_insert, hlook, Option.elim]
    omega

theorem sameBooks_modify {g : CacheLine → CacheLine} (hg : ∀ l, (g l).state = l.state) :
    SameBooks c (c.modify a g) := by
  refine ⟨?_, fun f => ?_, ?_, ?_, ?_⟩
  · funext b
    unfold Cache.stateOf
    rw [line_modify]
    by_cases hb : b = a
    · subst hb
      cases c.line b <;> simp [hg]
    · rw [if_neg hb]
  · rw [weight_modify]
    cases c.line a <;> simp [hg]
  all_goals
    unfold Cache.modify
    split <;> rfl

theorem SameBooks.modify {g : CacheLine → CacheLine} (h : SameBooks c c')
    (hg : ∀ l, (g l).state = l.state) : SameBooks c (c'.modify a g) :=
  h.trans (sameBooks_modify hg)

/-- A neighbour's link changes if there is a neighbour. -/
theorem SameBooks.neighbour {x : Option GAddr} {g : CacheLine → CacheLine} (h : SameBooks c c')
    (hg : ∀ l, (g l).state = l.state) :
    SameBooks c (match x with
      | some n => c'.modify n g
      | none => c') := by
  cases x with
  | none => exact h
  | some n => exact h.modify hg

theorem SameBooks.lists {heads tails : Nat → Option GAddr} (h : SameBooks c c') :
    SameBooks c { c' with heads := heads, tails := tails } :=
  ⟨h.stateOf, h.weight, h.usedBytes, h.toEvicted, h.pending⟩

theorem SameBooks.linkLRU (h : SameBooks c c') : SameBooks c (c'.linkLRU a i) := by
  unfold Cache.linkLRU
  refine SameBooks.lists ?_
  refine SameBooks.neighbour ?_ fun _ => rfl
  exact h.modify fun _ => rfl

theorem SameBooks.unLinkAt (h : SameBooks c c') : SameBooks c (c'.unLinkAt a i) := by
  unfold Cache.unLinkAt
  split
  · exact h
  · refine SameBooks.lists ?_
    refine SameBooks.modify ?_ fun _ => rfl
    refine SameBooks.neighbour ?_ fun _ => rfl
    exact h.neighbour fun _ => rfl

theorem SameBooks.unLinkLRU (h : SameBooks c c') : SameBooks c (c'.unLinkLRU a) := by
  unfold Cache.unLinkLRU
  split
  · exact h
  · refine SameBooks.unLinkAt ?_
    exact h.modify fun _ => rfl

/-- Block `a` comes to state `s` with the pending request `p`, and nothing happens elsewhere. -/
structure Change (c c' : Cache) (a : GAddr) (s : Option CacheState) (p : Option Pending)
    (used evicted : Int) : Prop where
  stateOf : c'.stateOf = Function.update c.stateOf a s
  pending : c'.pending = Function.update c.pending a p
  weight : ∀ f, c'.weight f = c.weight f - (c.stateOf a).elim 0 f + s.elim 0 f
  usedBytes : c'.usedBytes = c.usedBytes + used
  toEvicted : c'.toEvicted = c.toEvicted + evicted

theorem SameBooks.change (h : SameBooks c c') (a : GAddr) :
    Change c c' a (c.stateOf a) (c.pending a) 0 0 where
  stateOf := by rw [h.stateOf, Function.update_eq_self]
  pending := by rw [h.pending, Function.update_eq_self]
  weight f := by
    rw [h.weight f]
    omega
  usedBytes := by rw [h.usedBytes, Int.add_zero]
  toEvicted := by rw [h.toEvicted, Int.add_zero]

variable {t : Option CacheState} {p : Option Pending} {m n : Int}

theorem Change.same (h : Change c c' a t p m n) (hs : SameBooks c' c'') : Change c c'' a t p m n :=
  ⟨hs.stateOf.trans h.stateOf, hs.pending.trans h.pending, fun f => (hs.weight f).trans (h.weight f),
    hs.usedBytes.trans h.usedBytes, hs.toEvicted.trans h.toEvicted⟩

theorem Change.setPending (h : Change c c' a t p m n) (p' : Option Pending) :
    Change c (c'.setPending a p') a t p' m n where
  stateOf := h.stateOf
  pending := by
    unfold Cache.setPending
    rw [h.pending, Function.update_idem]
  weight := h.weight
  usedBytes := h.usedBytes
  toEvicted := h.toEvicted

theorem Change.setState (h : Change c c' a t p m n) (s : CacheState) :
    Change c (c'.setState a s) a (t.map fun _ => s) p m n := by
  have hat : c'.stateOf a = t := by rw [h.stateOf, Function.update_self]
  refine ⟨?_, ?_, fun f => ?_, ?_, ?_⟩
  · funext b
    unfold Cache.stateOf Cache.setState
    rw [line_modify]
    by_cases hb : b = a
    · subst hb
      rw [if_pos rfl, Function.update_self, ← hat, Cache.stateOf]
      cases c'.line b <;> rfl
    · rw [if_neg hb, Function.update_of_ne hb, ← Cache.stateOf, h.stateOf, Function.update_of_ne hb]
      rfl
  · rw [← h.pending]
    unfold Cache.setState Cache.modify
    split <;> rfl
  · unfold Cache.setState
    rw [weight_modify, h.weight f, ← hat]
    unfold Cache.stateOf
    cases c'.line a with
    | none => simp
    | some l => simp
  · rw [← h.usedBytes]
    unfold Cache.setState Cache.modify
    split <;> rfl
  · rw [← h.toEvicted]
    unfold Cache.setState Cache.modify
    split <;> rfl

theorem Change.erase (h : Change c c' a t p m n) :
    Change c { c' with caches := c'.caches.erase a } a none p m n := by
  have hat : c'.stateOf a = t := by rw [h.stateOf, Function.update_self]
  refine ⟨?_, h.pending, fun f => ?_, h.usedBytes, h.toEvicted⟩
  · funext b
    unfold Cache.stateOf Cache.line
    by_cases hb : b = a
    · subst hb
      rw [AList.lookup_erase, Function.update_self]
      rfl
    · rw [AList.lookup_erase_ne hb, Function.update_of_ne hb]
      have hob := congrFun h.stateOf b
      rwa [Function.update_of_ne hb] at hob
  · unfold Cache.weight
    rw [total_erase]
    have hw := h.weight f
    unfold Cache.weight at hw
    rw [hw, ← hat]
    unfold Cache.stateOf Cache.line
    cases c'.caches.lookup a with
    | none => simp
    | some l => simp

theorem Change.counters (h : Change c c' a t p m n) (m' n' : Int) :
    Change c { c' with usedBytes := c'.usedBytes + m', toEvicted := c'.toEvicted + n' } a t p
      (m + m') (n + n') where
  stateOf := h.stateOf
  pending := h.pending
  weight := h.weight
  usedBytes := by
    show c'.usedBytes + m' = _
    rw [h.usedBytes, Int.add_assoc]
  toEvicted := by
    show c'.toEvicted + n' = _
    rw [h.toEvicted, Int.add_assoc]

theorem Change.toInvalid (h : Change c c' a t p m n) :
    Change c (c'.toInvalid a) a none p (m - blockSize) n := by
  unfold Cache.toInvalid
  refine Change.erase (Change.same (t := t) ?_ (SameBooks.unLinkLRU .refl))
  simpa [Int.sub_eq_add_neg] using h.counters (-blockSize) 0

theorem Change.toToInvalid (h : Change c c' a t p m n) :
    Change c (c'.toToInvalid a) a (t.map fun _ => .toInvalid) p m (n + 1) := by
  have hto : (c'.setState a .toInvalid).toEvicted = c'.toEvicted := by
    unfold Cache.setState Cache.modify
    split <;> rfl
  unfold Cache.toToInvalid
  rw [← hto]
  simpa using (h.setState .toInvalid).counters 0 1

theorem Change.toShared (h : Change c c' a t p m n) :
    Change c (c'.toShared a i) a (t.map fun _ => .shared) p m n := by
  unfold Cache.toShared
  refine Change.setState ?_ .shared
  split
  · exact h.same (.linkLRU .refl)
  · exact h

theorem Change.toDirty (h : Change c c' a t p m n) :
    Change c (c'.toDirty a i) a (t.map fun _ => .dirty) p m n :=
  (h.setState .dirty).same (.linkLRU .refl)

theorem change_setCLine (hl : c.line a = none) :
    Change c (c.setCLine a) a (some .invalid) (c.pending a) blockSize 0 := by
  have hat : c.stateOf a = none := by rw [Cache.stateOf, hl, Option.map_none]
  unfold Cache.setCLine
  rw [hl]
  refine ⟨?_, (Function.update_eq_self a _).symm, fun f => ?_, rfl, (Int.add_zero _).symm⟩
  · funext b
    unfold Cache.stateOf Cache.line
    by_cases hb : b = a
    · subst hb
      rw [AList.lookup_insert, Function.update_self]
      rfl
    · rw [AList.lookup_insert_ne hb, Function.update_of_ne hb]
  · unfold Cache.weight
    have hlook : c.caches.lookup a = none := hl
    rw [total_insert, hlook, hat]
    rfl

/-! ## The invariant -/

/-- The state of a line that waits for the answer to a request. -/
def Pending.state : Pending → CacheState
  | .read => .toShared
  | .write | .writePermissionOnly => .toDirty
  | .writeBack | .pendingInvalidate => .toInvalid

/-- The states of a block that go with a pending request, or with none. -/
def Fits (t : Option CacheState) : Option Pending → Prop
  | some p => t = some p.state
  | none => t.all CacheState.stable = true

/-- The states of the lines are those their pending requests account for. -/
def Waits (c : Cache) : Prop := ∀ a, Fits (c.stateOf a) (c.pending a)

/-- What a line counts for in `lines`. -/
def present (t : Option CacheState) : Int := t.elim 0 fun _ => 1

/-- What a line counts for in `leaving`. -/
def going (t : Option CacheState) : Int := t.elim 0 fun s => if s = .toInvalid then 1 else 0

/-- A PENDING_INVALIDATE completes. -/
def Act.completes : Act → Bool
  | .completionCheck _ => true
  | _ => false

/-- How far `to_evicted` moves when a block goes from `t` to `t'`. -/
def Act.evicted (act : Act) (t t' : Option CacheState) : Int :=
  if act.completes then 0 else going t' - going t

/-- What a step does to the block it is about. -/
def Booked (act : Act) (c c' : Cache) : Prop :=
  ∃ a t p, Fits t p ∧
    Change c c' a t p (blockSize * (present t - present (c.stateOf a)))
      (act.evicted (c.stateOf a) t)

theorem stateOf_of_line {l : CacheLine} (h : c.line a = some l) : c.stateOf a = some l.state := by
  rw [Cache.stateOf, h, Option.map_some]

/-- The change of a block whose state before is known. -/
theorem Change.booked {act : Act} {t₀ : Option CacheState} (h : Change c c' a t p m n)
    (hf : Fits t p) (hs : c.stateOf a = t₀) (hm : m = blockSize * (present t - present t₀))
    (hn : n = act.evicted t₀ t) : Booked act c c' := by
  subst hs hm hn
  exact ⟨a, t, p, hf, h⟩

theorem SameBooks.booked {act : Act} (h : SameBooks c c') (hw : Waits c) (a : GAddr) :
    Booked act c c' := by
  refine (h.change a).booked (hw a) rfl ?_ ?_
  · rw [Int.sub_self, Int.mul_zero]
  · unfold Act.evicted
    rw [Int.sub_self, ite_self]

theorem booked_miss {write : Bool} (h : step (.miss a write) c = some c') :
    Booked (.miss a write) c c' := by
  unfold step at h
  simp only [Option.ite_none_right_eq_some, Option.some.injEq] at h
  obtain ⟨hl, rfl⟩ := h
  have hs : c.stateOf a = none := by rw [Cache.stateOf, hl, Option.map_none]
  have hset := change_setCLine hl
  cases write with
  | false => exact ((hset.setState .toShared).setPending (some .read)).booked rfl hs rfl rfl
  | true => exact ((hset.setState .toDirty).setPending (some .write)).booked rfl hs rfl rfl

theorem Change.here (c : Cache) (hs : c.stateOf a = t) : Change c c a t (c.pending a) 0 0 := by
  subst hs
  exact SameBooks.refl.change a

theorem booked_hit (hw : Waits c) (h : step (.hit a i) c = some c') : Booked (.hit a i) c c' := by
  simp only [step, Option.bind_eq_bind, Option.bind_eq_some_iff, Option.ite_none_right_eq_some,
    Option.some.injEq] at h
  obtain ⟨l, -, -, rfl⟩ := h
  exact SameBooks.booked (.linkLRU (.unLinkLRU .refl)) hw a

theorem booked_upgrade (h : step (.upgrade a) c = some c') : Booked (.upgrade a) c c' := by
  simp only [step, Option.bind_eq_bind, Option.bind_eq_some_iff, Option.ite_none_right_eq_some,
    Option.some.injEq] at h
  obtain ⟨l, hl, hsh, rfl⟩ := h
  have hs : c.stateOf a = some .shared := by rw [stateOf_of_line hl, hsh]
  have hto : Change c ((c.setState a .toDirty).unLinkLRU a) a (some .toDirty) (c.pending a) 0 0 :=
    ((Change.here c hs).setState .toDirty).same (.unLinkLRU .refl)
  exact (hto.setPending (some .writePermissionOnly)).booked rfl hs rfl rfl

/-- The line whose request is pending. -/
theorem Waits.state (hw : Waits c) {p : Pending} (hp : c.pending a = some p) :
    c.stateOf a = some p.state := by
  have hf := hw a
  rwa [hp] at hf

theorem Pending.inTransition (p : Pending) : p.state.inTransition = true := by
  cases p <;> rfl

/-- A line out of transition waits for nothing and is stable: CACHE_INVALID is left in the step that
makes the line. -/
theorem Waits.settled {l : CacheLine} (hw : Waits c) (hl : c.line a = some l)
    (ht : l.state.inTransition = false) :
    c.pending a = none ∧ (c.stateOf a = some .shared ∨ c.stateOf a = some .dirty) := by
  have hf := hw a
  rw [stateOf_of_line hl] at hf ⊢
  cases hp : c.pending a with
  | none =>
    rw [hp] at hf
    cases hs : l.state <;> simp_all [Fits, CacheState.stable]
  | some p =>
    rw [hp] at hf
    have hs : l.state = p.state := Option.some.inj hf
    rw [hs, p.inTransition] at ht
    cases ht

theorem booked_reply (hw : Waits c) (h : step (.reply a i) c = some c') :
    Booked (.reply a i) c c' := by
  simp only [step, Option.ite_none_right_eq_some] at h
  obtain ⟨-, h⟩ := h
  split at h <;> simp only [Option.some.injEq, reduceCtorEq] at h
  case h_1 hp =>
    have hs := hw.state hp
    subst h
    exact (((Change.here c hs).toShared).setPending none).booked rfl hs rfl rfl
  case h_2 hp =>
    have hs := hw.state hp
    subst h
    exact (((Change.here c hs).toDirty).setPending none).booked rfl hs rfl rfl
  case h_3 hp =>
    have hs := hw.state hp
    subst h
    exact (((Change.here c hs).toDirty).setPending none).booked rfl hs rfl rfl

theorem booked_fail (hw : Waits c) (h : step (.fail a) c = some c') : Booked (.fail a) c c' := by
  simp only [step] at h
  split at h <;> simp only [Option.some.injEq, reduceCtorEq] at h
  case h_1 hp =>
    have hs := hw.state hp
    subst h
    exact (((Change.here c hs).toInvalid).setPending none).booked rfl hs rfl rfl
  case h_2 hp =>
    have hs := hw.state hp
    subst h
    exact (((Change.here c hs).toInvalid).setPending none).booked rfl hs rfl rfl
  case h_3 hp =>
    have hs := hw.state hp
    subst h
    exact (((Change.here c hs).setState .shared).setPending none).booked rfl hs rfl rfl

theorem booked_share (hw : Waits c) (h : step (.share a) c = some c') :
    Booked (.share a) c c' := by
  simp only [step, Option.bind_eq_bind, Option.bind_eq_some_iff, Option.ite_none_left_eq_some,
    Option.some.injEq] at h
  obtain ⟨l, hl, ht, rfl⟩ := h
  obtain ⟨hp, hs | hs⟩ := hw.settled hl (by simpa using ht)
  all_goals
    have hch := (Change.here c hs).toShared (i := 0)
    rw [hp] at hch
    exact hch.booked rfl hs rfl rfl

theorem booked_invalidate (hw : Waits c) (h : step (.invalidate a) c = some c') :
    Booked (.invalidate a) c c' := by
  simp only [step, Option.bind_eq_bind, Option.bind_eq_some_iff, Option.ite_none_left_eq_some,
    Option.some.injEq, not_or] at h
  obtain ⟨l, hl, ⟨ht, -⟩, rfl⟩ := h
  obtain ⟨hp, hs | hs⟩ := hw.settled hl (by simpa using ht)
  all_goals
    have hch := (Change.here c hs).toInvalid
    rw [hp] at hch
    exact hch.booked rfl hs rfl rfl

theorem booked_surrender (hw : Waits c) (h : step (.surrender a) c = some c') :
    Booked (.surrender a) c c' := by
  simp only [step, Option.bind_eq_bind, Option.bind_eq_some_iff, Option.ite_none_left_eq_some,
    Option.some.injEq, not_or] at h
  obtain ⟨l, hl, ⟨ht, -⟩, rfl⟩ := h
  obtain ⟨-, hs | hs⟩ := hw.settled hl (by simpa using ht)
  all_goals
    have hch := (Change.here c hs).toToInvalid
    exact (hch.setPending (some .pendingInvalidate)).booked rfl hs rfl rfl

/-- The line is deleted and `to_evicted` stays as it is. -/
theorem booked_completionCheck (hw : Waits c) (h : step (.completionCheck a) c = some c') :
    Booked (.completionCheck a) c c' := by
  simp only [step, Option.ite_none_right_eq_some, Option.some.injEq] at h
  obtain ⟨hp, rfl⟩ := h
  have hs := hw.state hp
  exact ((Change.here c hs).toInvalid.setPending none).booked rfl hs rfl rfl

theorem booked_evictDirty (hw : Waits c) (h : step (.evictDirty a) c = some c') :
    Booked (.evictDirty a) c c' := by
  simp only [step, Option.ite_none_right_eq_some, Option.some.injEq] at h
  obtain ⟨hp, rfl⟩ := h
  have hs := hw.state hp
  have hch := (Change.here c hs).counters 0 (-1)
  rw [Int.add_zero] at hch
  exact (hch.toInvalid.setPending none).booked rfl hs rfl rfl

theorem booked_evict (hw : Waits c) (h : step (.evict i) c = some c') :
    Booked (.evict i) c c' := by
  simp only [step, Cache.evict, Option.ite_none_right_eq_some, Option.bind_eq_bind,
    Option.bind_eq_some_iff, Option.ite_none_left_eq_some, Option.some.injEq, not_or] at h
  obtain ⟨-, a, -, l, hl, ⟨-, ht⟩, j, -, rfl⟩ := h
  have hsame : SameBooks c (c.unLinkAt a j) := .unLinkAt .refl
  obtain ⟨hp, hs | hs⟩ := hw.settled hl (by simpa using ht)
  · have hs' : ((c.unLinkAt a j).line a).map CacheLine.state = some .shared := by
      rw [← hs, ← hsame.stateOf]
      rfl
    unfold Cache.evictLine
    rw [hs']
    have hch := ((Change.here c hs).same hsame).toInvalid
    rw [hp] at hch
    exact hch.booked rfl hs rfl rfl
  · have hs' : ((c.unLinkAt a j).line a).map CacheLine.state = some .dirty := by
      rw [← hs, ← hsame.stateOf]
      rfl
    unfold Cache.evictLine
    rw [hs']
    have hch := ((Change.here c hs).same hsame).toToInvalid
    exact (hch.setPending (some .writeBack)).booked rfl hs rfl rfl

/-- Every step counts the line it makes or deletes, and the one that starts to leave or has left. -/
theorem booked_step {act : Act} (hw : Waits c) (h : step act c = some c') : Booked act c c' := by
  cases act with
  | miss a write => exact booked_miss h
  | hit a i => exact booked_hit hw h
  | upgrade a => exact booked_upgrade h
  | lock a n =>
    obtain rfl := Option.some.inj h
    exact SameBooks.booked (.modify .refl fun _ => rfl) hw a
  | reply a i => exact booked_reply hw h
  | fail a => exact booked_fail hw h
  | share a => exact booked_share hw h
  | invalidate a => exact booked_invalidate hw h
  | surrender a => exact booked_surrender hw h
  | completionCheck a => exact booked_completionCheck hw h
  | evict i => exact booked_evict hw h
  | evictDirty a => exact booked_evictDirty hw h

theorem Booked.waits {act : Act} (hw : Waits c) (h : Booked act c c') : Waits c' := by
  obtain ⟨a, t, p, hf, hch⟩ := h
  intro b
  rw [hch.stateOf, hch.pending]
  by_cases hb : b = a
  · subst hb
    rwa [Function.update_self, Function.update_self]
  · rw [Function.update_of_ne hb, Function.update_of_ne hb]
    exact hw b

theorem Booked.usedBytes {act : Act} (hu : c.usedBytes = blockSize * c.lines)
    (h : Booked act c c') : c'.usedBytes = blockSize * c'.lines := by
  obtain ⟨a, t, p, -, hch⟩ := h
  have hlines : c'.lines = c.lines - present (c.stateOf a) + present t := hch.weight _
  rw [hch.usedBytes, hu, hlines, ← Int.mul_add]
  congr 1
  omega

theorem Booked.toEvicted {act : Act} (hn : act.completes = false) (he : c.toEvicted = c.leaving)
    (h : Booked act c c') : c'.toEvicted = c'.leaving := by
  obtain ⟨a, t, p, -, hch⟩ := h
  have hleaving : c'.leaving = c.leaving - going (c.stateOf a) + going t := hch.weight _
  rw [hch.toEvicted, he, hleaving, Act.evicted, hn]
  simp only [Bool.false_eq_true, if_false]
  omega

/-! ## Every run -/

/-- No PENDING_INVALIDATE completes. -/
def Counted (act : Act) (_ : Cache) : Prop := act.completes = false

instance (act : Act) (c : Cache) : Decidable (Counted act c) :=
  inferInstanceAs (Decidable (_ = _))

theorem lines_eq (c : Cache) :
    c.lines = (c.weight fun s => if s = .toInvalid then 0 else 1) + c.leaving := by
  unfold Cache.lines Cache.leaving Cache.weight
  rw [← total_add]
  congr 1
  funext l
  cases l.state <;> rfl

theorem Accounts.of_counters (hu : c.usedBytes = blockSize * c.lines)
    (he : c.toEvicted = c.leaving) : Accounts c := by
  have hused : c.used = blockSize * c.weight fun s => if s = .toInvalid then 0 else 1 := by
    unfold Cache.used
    rw [hu, he, lines_eq, Int.mul_add, Int.mul_comm c.leaving, Int.add_sub_cancel]
  have hnonneg : 0 ≤ c.weight fun s => if s = .toInvalid then 0 else 1 := by
    refine total_nonneg (fun l => ?_) c.caches
    cases l.state <;> decide
  exact ⟨hu, he, hused, hused ▸ Int.mul_nonneg (by decide) hnonneg⟩

theorem waits_init : Waits .init := fun _ => rfl

/-- The counters are right in every run without the completion of a PENDING_INVALIDATE, which
deletes its line and leaves `to_evicted` as it is. -/
theorem accounts_of_counted (h : Reaches step Counted .init c) : Accounts c := by
  have hinv : Waits c ∧ c.usedBytes = blockSize * c.lines ∧ c.toEvicted = c.leaving := by
    refine h.invariant (I := fun c =>
      Waits c ∧ c.usedBytes = blockSize * c.lines ∧ c.toEvicted = c.leaving)
      ⟨waits_init, rfl, rfl⟩ ?_
    rintro act c₁ c₂ ⟨hw, hu, he⟩ hok hs
    have hb := booked_step hw hs
    exact ⟨hb.waits hw, hb.usedBytes hu, hb.toEvicted hok he⟩
  exact .of_counters hinv.2.1 hinv.2.2

/-- A dirty line is evicted, its answer is not there yet. -/
def evictingRun : List Act := [.miss 0 true, .reply 0 3, .miss 512 false, .evict 3]

theorem accounts_evicting :
    ∃ c, Reaches step Counted .init c ∧ c.toEvicted = 1 ∧ c.used = 512 ∧ Accounts c := by
  obtain ⟨c, hr, he, hu⟩ := Reaches.exists_of_runs step Counted evictingRun .init
    (fun c => c.toEvicted = 1 ∧ c.used = 512) (by decide)
  exact ⟨c, hr, he, hu, accounts_of_counted hr⟩

/-- A dirty line is handed to another worker. -/
def surrenderingRun : List Act := [.miss 0 true, .reply 0 3, .surrender 0, .completionCheck 0]

/-- The cache is empty then and one line is counted as leaving, so `used` is negative. -/
theorem not_accounts_surrendering :
    ¬ ∀ c, Reaches step anyStep .init c → Accounts c := by
  intro hall
  obtain ⟨c, hr, hu⟩ := Reaches.exists_of_runs step anyStep surrenderingRun .init
    (fun c => c.used = -512) (by decide)
  have hnonneg := (hall c hr).nonneg
  omega

end HwGam.Lru
