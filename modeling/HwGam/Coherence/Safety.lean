import HwGam.Coherence.Runs

/-!
# Questions of the home find the copies they are for

What the home asks of the owner of a block reaches a worker that has its data or is about to get
them, and an invalidation never reaches a dirty line.
-/

namespace HwGam.Coherence

open Lib

variable {V : Type*} [DecidableEq V] {l : Layout V} {s : Sys V} {mem : Nat → Data} {f : Slack} {i : Nat}
  {cur : Data} {b : Block V} {role : V → Role} {tok : V → Tok V} {w : V}

/-- The questions for the only copy of a block. -/
def Ask.toOwner : Ask V → Bool
  | .fetchAndShared _ | .readForward _ _ | .fetchAndInvalidate _ | .writeForward _ _ => true
  | .invalidate _ | .invalidateForward _ => false

theorem Inv.asked (hi : Inv f i cur b role tok) {x : Act V} {q : Ask V}
    (hq : x.asked b = some (w, q)) : tok w = .ask q := by
  cases x with
  | recv v =>
    simp only [Act.asked] at hq
    split at hq
    · rename_i ms hc
      cases hq
      exact ((hi.worker w).take_fromHome hc).1
    · cases hq
  | replay n =>
    cases n with
    | none => cases hq
    | some v =>
      simp only [Act.asked] at hq
      split at hq
      · rename_i rest hc
        cases hq
        exact ((hi.worker w).take_agenda hc).1
      · cases hq
  | _ => cases hq

omit [DecidableEq V] in
theorem Owner.line_state {p : Ptr} {v : View V} (h : Owner i cur p v) :
    ∃ ln, v.line = some ln ∧ (ln.state = .dirty ∨ ln.state = .toDirty ∨ ln.state = .toInvalid) := by
  cases h with
  | dirty ln hl hs => exact ⟨ln, hl, .inl hs⟩
  | granted op n ln q hl hs => exact ⟨ln, hl, .inr (.inl hs.state)⟩
  | writeBack ln hl hs => exact ⟨ln, hl, .inr (.inr hs.state)⟩

omit [DecidableEq V] in
theorem Sharer.line_not_dirty {p : Ptr} {v : View V} (h : Sharer i cur p v) {ln : Line}
    (hl : v.line = some ln) : ln.state ≠ .dirty := by
  intro hs
  have hcfg : Cfg ⟨true, true⟩ i cur (.sharer p) v := h
  have hrole := (hcfg.line_dirty hl hs).2.2.1
  cases hrole

/-- Questions for the owner find a line in CACHE_DIRTY, CACHE_TO_DIRTY or CACHE_TO_INVALID, and an
invalidation none in CACHE_DIRTY. -/
theorem Good.asked (hg : Good f i cur b) {x : Act V} {q : Ask V} (hq : x.asked b = some (w, q)) :
    (q.toOwner = true → ∃ ln, (b.cacher w).line = some ln ∧
      (ln.state = .dirty ∨ ln.state = .toDirty ∨ ln.state = .toInvalid)) ∧
    (Cacher.Ask.isInvalidate q = true → ∀ ln, (b.cacher w).line = some ln → ln.state ≠ .dirty) := by
  obtain ⟨role, tok, hi⟩ := hg
  have hcfg := (hi.worker w).cfg
  cases hi.phase.question (hi.asked hq) with
  | read p x t ho =>
    rw [ho] at hcfg
    refine ⟨fun _ => hcfg.line_state, fun hinv => ?_⟩
    cases x <;> cases hinv
  | write p x t ho =>
    rw [ho] at hcfg
    refine ⟨fun _ => hcfg.line_state, fun hinv => ?_⟩
    cases x <;> cases hinv
  | invalidate p _ hinv hs =>
    rw [hs] at hcfg
    refine ⟨fun howner => ?_, fun _ ln hl => hcfg.line_not_dirty hl⟩
    cases q <;> simp [Ask.toOwner, Cacher.Ask.isInvalidate] at howner hinv

/-- In every reachable state, for every question of the home that a worker may handle next. -/
theorem asked_of_reaches (h : Reaches l.step l.Room (Sys.init mem) s) {x : Act V} {q : Ask V}
    (hq : x.asked (s.blk i) = some (w, q)) :
    (q.toOwner = true → ∃ ln, ((s.blk i).cacher w).line = some ln ∧
      (ln.state = .dirty ∨ ln.state = .toDirty ∨ ln.state = .toInvalid)) ∧
    (Cacher.Ask.isInvalidate q = true →
      ∀ ln, ((s.blk i).cacher w).line = some ln → ln.state ≠ .dirty) :=
  (l.good_blk_all h i).asked hq

/-- Thread 0 runs on the home of all blocks, thread 1 on the other worker. -/
def twoWorkers : Layout Bool := ⟨fun _ => false, fun t => t == 1⟩

/-- A remote WRITE of the first byte gets the block; the home's READ asks for it back. -/
def readAfterWrite : List (SysAct Bool) :=
  [.issue { id := 0, thread := 1, op := .write, addr := 0, size := 1 }, .serve true 0, .finish true,
    .recvHome true 0, .recv true 0, .recv true 0, .replay true,
    .issue { id := 1, thread := 0, op := .read, addr := 0, size := 1 }, .serve false 0, .finish false]

theorem asked_readAfterWrite : ∃ s, Reaches twoWorkers.step twoWorkers.Room (Sys.init fun _ _ => 0) s ∧
    (Act.recv true).asked (s.blk 0) = some (true, .fetchAndShared false) ∧
    ∃ ln, ((s.blk 0).cacher true).line = some ln ∧
      (ln.state = .dirty ∨ ln.state = .toDirty ∨ ln.state = .toInvalid) := by
  obtain ⟨s, hr, hq⟩ := Reaches.exists_of_runs twoWorkers.step twoWorkers.Room readAfterWrite
    (Sys.init fun _ _ => 0)
    (fun s => (Act.recv true).asked (s.blk 0) = some (true, .fetchAndShared false)) (by decide)
  exact ⟨s, hr, hq, (asked_of_reaches hr hq).1 rfl⟩

end HwGam.Coherence
