import HwGam.Coherence.Moves
import HwGam.Coherence.Safety

/-!
# Single writer, multiple readers

Who may have a copy of a block, and that the home knows them. Read off the protocol invariant for
runs without try-locks; a failed one may leave a line shared that the home has forgotten.
-/

namespace HwGam.Coherence

open Lib

variable {V : Type*} {cur : Data} {h : Home V} {role : V → Role} {tok : V → Tok V} {w : V} {p : Ptr}

/-- The worker has a line in the state. -/
def Block.LineIn (b : Block V) (w : V) (st : CacheState) : Prop :=
  ∃ ln, (b.cacher w).line = some ln ∧ ln.state = st

/-- The worker a pending request of the home is forwarded for. -/
def HomePending.forWorker : HomePending V → Option V
  | .readForward r _ | .writeForward r _ | .invalidateForward r _ _ _ _ => some r
  | _ => none

/-- At most one worker may write, and only if no other may read; the home knows all who may. -/
structure Block.Coherent (b : Block V) : Prop where
  single : ∀ w w', b.LineIn w .dirty → b.LineIn w' .dirty → w = w'
  exclusive : ∀ w w', b.LineIn w .dirty → w' ≠ w → ¬ b.LineIn w' .shared ∧ ¬ b.LineIn w' .dirty
  directory : ∀ w, b.LineIn w .dirty →
    b.home.entry.getState = .dirty ∨ b.home.entry.inTransition = true
  included : ∀ w, b.LineIn w .shared ∨ b.LineIn w .dirty →
    w ∈ b.home.entry.getSList.map Prod.fst ∨
    (b.home.entry.inTransition = true ∧ ∃ x, b.home.pending = some x ∧ x.forWorker = some w)

/-! ## Roles -/

/-- The home counts a line of the worker as a copy. -/
def Role.hasCopy : Role → Bool
  | .owner _ | .sharer _ => true
  | _ => false

theorem ReadStage.cases {o : V} {q : Request} {x : Option (V × Ptr)}
    (hs : ReadStage cur role tok q o p x) :
    (role o = .owner p ∧ ∀ y ∈ x, (role y.1).hasCopy = false) ∨
    (role o = .sharer p ∧ ∀ y ∈ x, role y.1 = .sharer y.2) := by
  cases hs with
  | asked t _ _ ho hx =>
    refine .inl ⟨ho, fun y hy => ?_⟩
    rw [hx y hy]
    rfl
  | answered _ ho hx => exact .inr ⟨ho, hx⟩
  | refused st _ _ ho hx =>
    refine .inl ⟨ho, fun y hy => ?_⟩
    rw [hx y hy]
    rfl

theorem WriteStage.cases {o : V} {q : Request} {x : Option (V × Ptr)}
    (hs : WriteStage cur role tok q o p x) :
    (role o = .owner p ∨ role o = .idle) ∧ ∀ y ∈ x, (role y.1).hasCopy = false := by
  cases hs with
  | asked t _ _ ho hx =>
    refine ⟨.inl ho, fun y hy => ?_⟩
    rw [hx y hy]
    rfl
  | answered _ ho hx =>
    refine ⟨.inr ho, fun y hy => ?_⟩
    rw [hx y hy]
    rfl
  | refused st _ _ ho hx =>
    refine ⟨.inl ho, fun y hy => ?_⟩
    rw [hx y hy]
    rfl

theorem Unused.hasCopy (hu : Unused role tok w) : (role w).hasCopy = false := by
  rw [hu.1]
  rfl

theorem Invalidating.hasCopy_or {list : List (V × Ptr)} {x : Option (V × Ptr × Fetch)} {n : Int}
    {st : Option Status} {t : Bool} (hc : Invalidating list x n st t role tok) (w : V) :
    (role w).hasCopy = false ∨ ∃ p, (w, p) ∈ list ∧ role w = .sharer p := by
  rcases hc.copies w with ⟨y, hy, rfl⟩ | ⟨p, hp, hstage⟩ | ⟨-, hu⟩
  · obtain ⟨listed, hr, -⟩ := (hc.waits y hy).listed
    left
    rw [hr]
    rfl
  · generalize role w = r, tok w = k at hstage ⊢
    cases hstage with
    | asked | refused | kept => exact .inr ⟨p, hp, rfl⟩
    | answered => exact .inl rfl
  · exact .inl hu.hasCopy

/-- While a worker owns the block, no other has a copy. -/
theorem Phase.of_owner (hph : Phase cur h role tok) (hw : role w = .owner p) :
    (∀ w', w' ≠ w → (role w').hasCopy = false) ∧
    (h.entry.getState = .dirty ∨ h.entry.inTransition = true) ∧ (w, p) ∈ h.entry.getSList := by
  have hcopy : (role w).hasCopy = true := by rw [hw]; rfl
  cases hph with
  | unshared _ _ _ _ _ hall => simp [(hall w).hasCopy] at hcopy
  | shared d he _ hs _ _ _ _ hall =>
    rcases (hall w).1 with ⟨p', -, hr⟩ | ⟨-, hr⟩ <;> simp [hr] at hw
  | dirty d o p' he _ hs hl _ ho hall =>
    rcases hall w with rfl | hu
    · obtain rfl : p' = p := by simpa [ho.1] using hw
      refine ⟨fun w' hne => ((hall w').resolve_left hne).hasCopy, .inl ?_, ?_⟩
      · rw [he]
        exact hs
      · simp [he, Dir.getSList, hl]
    · simp [hu.hasCopy] at hcopy
  | toShared d o p' x q he hp hs hl _ hstage hx hall =>
    rcases hstage.cases with ⟨ho, hy⟩ | ⟨ho, hy⟩
    · rcases hall w with rfl | ⟨y, hy', rfl⟩ | hu
      · obtain rfl : p' = p := by simpa [ho] using hw
        refine ⟨fun w' hne => ?_, .inr ?_, by simp [he, Dir.getSList, hl]⟩
        · rcases (hall w').resolve_left hne with ⟨y, hy', rfl⟩ | hu
          · exact hy y hy'
          · exact hu.hasCopy
        · simp [he, Dir.inTransition, Dir.getState, hs, DirState.inTransition]
      · simp [hy y hy'] at hcopy
      · simp [hu.hasCopy] at hcopy
    · rcases hall w with rfl | ⟨y, hy', rfl⟩ | hu
      · simp [ho] at hw
      · simp [hy y hy'] at hw
      · simp [hu.hasCopy] at hcopy
  | take d o p' x q he hp hs hl _ hstage hx hall =>
    obtain ⟨ho, hy⟩ := hstage.cases
    rcases hall w with rfl | ⟨y, hy', rfl⟩ | hu
    · obtain rfl : p' = p := by
        rcases ho with ho | ho <;> simp_all
      refine ⟨fun w' hne => ?_, .inr ?_, by simp [he, Dir.getSList, hl]⟩
      · rcases (hall w').resolve_left hne with ⟨y, hy', rfl⟩ | hu
        · exact hy y hy'
        · exact hu.hasCopy
      · rw [he, Dir.inTransition, Dir.getState, hs]
        split <;> rfl
    · simp [hy y hy'] at hcopy
    · simp [hu.hasCopy] at hcopy
  | invalidate d x q n st t _ he hp hs _ _ _ _ hc =>
    rcases hc.hasCopy_or w with hnone | ⟨p', -, hr⟩
    · simp [hnone] at hcopy
    · simp [hr] at hw

/-- The home lists those who share the block, or is about to list the worker it forwarded for. -/
theorem Phase.of_sharer (hph : Phase cur h role tok) (hw : role w = .sharer p) :
    (w, p) ∈ h.entry.getSList ∨ (h.entry.inTransition = true ∧
      ∃ x, h.pending = some x ∧ x.forWorker = some w) := by
  have hcopy : (role w).hasCopy = true := by rw [hw]; rfl
  cases hph with
  | unshared _ _ _ _ _ hall => simp [(hall w).hasCopy] at hcopy
  | shared d he _ hs _ _ _ _ hall =>
    rcases (hall w).1 with ⟨p', hp', hr⟩ | ⟨-, hr⟩
    · obtain rfl : p' = p := by simpa [hr] using hw
      left
      simpa [he, Dir.getSList] using hp'
    · simp [hr] at hw
  | dirty d o p' he _ hs hl _ ho hall =>
    rcases hall w with rfl | hu
    · simp [ho.1] at hw
    · simp [hu.hasCopy] at hcopy
  | toShared d o p' x q he hp hs hl _ hstage hx hall =>
    rcases hall w with rfl | ⟨y, hy', rfl⟩ | hu
    · rcases hstage.cases with ⟨ho, -⟩ | ⟨ho, -⟩
      · simp [ho] at hw
      · obtain rfl : p' = p := by simpa [ho] using hw
        left
        simp [he, Dir.getSList, hl]
    · right
      refine ⟨by simp [he, Dir.inTransition, Dir.getState, hs, DirState.inTransition], _, hp, ?_⟩
      obtain rfl := hy'
      rfl
    · simp [hu.hasCopy] at hcopy
  | take d o p' x q he hp hs hl _ hstage hx hall =>
    obtain ⟨ho, hy⟩ := hstage.cases
    rcases hall w with rfl | ⟨y, hy', rfl⟩ | hu
    · rcases ho with ho | ho <;> simp [ho] at hw
    · simp [hy y hy'] at hcopy
    · simp [hu.hasCopy] at hcopy
  | invalidate d x q n st t _ he hp hs _ _ _ _ hc =>
    rcases hc.hasCopy_or w with hnone | ⟨p', hp', hr⟩
    · simp [hnone] at hcopy
    · obtain rfl : p' = p := by simpa [hr] using hw
      left
      simpa [he, Dir.getSList] using hp'

/-! ## Runs -/

section
variable [DecidableEq V] {i : Nat} {mem₀ : Data} {b : Block V} {f : Slack}

theorem Inv.role_dirty (hi : Inv f i cur b role tok) (hl : b.LineIn w .dirty) :
    ∃ p, role w = .owner p := by
  obtain ⟨ln, hl, hs⟩ := hl
  exact ⟨_, ((hi.worker w).cfg.line_dirty hl hs).2.2.1⟩

theorem Inv.role_shared (hi : Inv f i cur b role tok) (hf : f.stale = false)
    (hl : b.LineIn w .shared) : ∃ p, role w = .sharer p := by
  obtain ⟨ln, hl, hs⟩ := hl
  rcases ((hi.worker w).cfg.line_shared hl hs).2 with ⟨-, hst⟩ | ⟨hr, -⟩
  · simp [hf] at hst
  · exact ⟨_, hr⟩

theorem Good.coherent (hg : Good f i mem₀ b) (hf : f.stale = false) : b.Coherent := by
  obtain ⟨role, tok, hi⟩ := hg
  have hexcl : ∀ w w', b.LineIn w .dirty → w' ≠ w → (role w').hasCopy = false := by
    intro w w' hl hne
    obtain ⟨p, hr⟩ := hi.role_dirty hl
    exact (hi.phase.of_owner hr).1 w' hne
  constructor
  case single =>
    intro w w' hl hl'
    by_contra hne
    obtain ⟨p, hr⟩ := hi.role_dirty hl'
    have hnone := hexcl w w' hl (Ne.symm hne)
    simp [hr, Role.hasCopy] at hnone
  case exclusive =>
    intro w w' hl hne
    have hnone := hexcl w w' hl hne
    refine ⟨fun hsh => ?_, fun hd => ?_⟩
    · obtain ⟨p, hr⟩ := hi.role_shared hf hsh
      simp [hr, Role.hasCopy] at hnone
    · obtain ⟨p, hr⟩ := hi.role_dirty hd
      simp [hr, Role.hasCopy] at hnone
  case directory =>
    intro w hl
    obtain ⟨p, hr⟩ := hi.role_dirty hl
    exact (hi.phase.of_owner hr).2.1
  case included =>
    intro w hl
    rcases hl with hl | hl
    · obtain ⟨p, hr⟩ := hi.role_shared hf hl
      rcases hi.phase.of_sharer hr with hmem | hfwd
      · exact .inl (List.mem_map_of_mem hmem)
      · exact .inr hfwd
    · obtain ⟨p, hr⟩ := hi.role_dirty hl
      exact .inl (List.mem_map_of_mem (hi.phase.of_owner hr).2.2)

omit [DecidableEq V] in
/-- A line gives up an upgrade for a try-lock only if there is one. -/
theorem Slack.allows_of_plain {c : Cacher V} {a : Ask V}
    (hc : c.desk.All fun q => q.op.isTry = false) : Slack.Allows ⟨false, true⟩ c a := by
  refine ⟨fun _ => ?_, by rintro ⟨⟩⟩
  unfold Cacher.gaveUpTry
  split
  · rename_i ln n st q hl hp
    have hq := hc.pend (true, q) (by simp [Cacher.desk, hp, Pending.parent])
    simp [hq]
  · simp

end

namespace Layout

variable [DecidableEq V] {l : Layout V} {s : Sys V} {mem : Nat → Data}

/-- RLOCKs find room, and no try-lock is issued. -/
def Blocking (l : Layout V) (a : SysAct V) (s : Sys V) : Prop :=
  l.Room a s ∧ match a with
    | .issue q => q.op.isTry = false
    | _ => True

instance (l : Layout V) (a : SysAct V) (s : Sys V) : Decidable (l.Blocking a s) := by
  unfold Blocking
  cases a <;> infer_instance

theorem good_of_blocking (h : Reaches l.step l.Blocking (Sys.init mem) s) (i : Nat) :
    Good ⟨false, true⟩ i (mem i) (s.blk i) := by
  have hknown : ∀ t, Reaches l.step l.Blocking (Sys.init mem) t →
      t.Known (fun _ q _ => q.op.isTry = false) (fun _ _ q => q.op.isTry = false) :=
    fun t ht => known_of_reaches (fun _ _ h => h.1) (fun q _ h => h.2) ht
  refine good_blk ((h.and_along hknown).mono ?_) i
  rintro a t ⟨⟨hroom, -⟩, hk⟩
  exact ⟨hroom, fun x _ w q _ => Slack.allows_of_plain (hk.desk x.1 (some w))⟩

/-- Every block is coherent in every state of every run without try-locks. -/
theorem coherent_of_reaches (h : Reaches l.step l.Blocking (Sys.init mem) s) (i : Nat) :
    (s.blk i).Coherent :=
  (good_of_blocking h i).coherent rfl

/-- The owner of a block that the home asks for it is known to the home. -/
theorem coherent_readAfterWrite : ∃ s,
    Reaches twoWorkers.step twoWorkers.Blocking (Sys.init fun _ _ => 0) s ∧
    (∃ ln, ((s.blk 0).cacher true).line = some ln ∧ ln.state = .dirty) ∧ (s.blk 0).Coherent := by
  obtain ⟨s, hr, hq⟩ := Reaches.exists_of_runs twoWorkers.step twoWorkers.Blocking readAfterWrite
    (Sys.init fun _ _ => 0)
    (fun s => ((s.blk 0).cacher true).line.any (·.state = .dirty) = true) (by decide)
  obtain ⟨ln, hl, hs⟩ := Option.any_eq_true _ _ |>.mp hq
  exact ⟨s, hr, ⟨ln, hl, by simpa using hs⟩, coherent_of_reaches hr 0⟩

end Layout

end HwGam.Coherence
