import HwGam.Fence.Model

/-!
# The lock of the fence

Who holds `fence->lock()`, when `in_process` is set, and what a thread knows about the flags and
the queue while it holds the lock. `Wf` collects these facts; `Wf.step` keeps them over every
step of every thread.
-/

namespace HwGam.Fence

/-- The thread holds `fence->lock()`. -/
def Pc.holds : Pc → Bool
  | .examine _ | .count _ | .mark _ | .park _ | .leave _ | .enter (some _) | .drained | .flagged
  | .front | .recheck _ | .serve _ | .serving _ | .stop _ | .pop _ | .finish _ | .release _
  | .unlock => true
  | .idle | .arrive _ | .execute _ | .enter none | .acquire => false

/-- The thread set `in_process` and has not cleared it. -/
def Pc.draining : Pc → Bool
  | .enter (some _) | .front | .recheck _ | .serve _ | .serving _ | .stop _ | .pop _ | .finish _
  | .release _ => true
  | _ => false

theorem Pc.holds_of_draining {p : Pc} (h : p.draining = true) : p.holds = true := by
  cases p with
  | enter back => cases back <;> simp_all [draining, holds]
  | _ => simp_all [draining, holds]

variable {T : Type*} {s s' : State T} {t u : T} {p : Pc}

/-- What a thread at `p` knows of the flags and the queue. -/
def View (s : State T) : Pc → Prop
  | .count _ | .mark _ => s.isFenced = false
  | .park _ | .front => s.isFenced = true
  | .recheck r | .serve r | .serving r | .stop r | .enter (some r) =>
    s.isFenced = true ∧ s.pendingWorks.head? = some r
  | .pop _ => s.isFenced = true ∧ s.pendingWorks ≠ []
  | .finish fenced => s.isFenced = true ∧ (fenced = false → s.pendingWorks = [])
  | .release fenced => s.isFenced = fenced ∧ (fenced = false → s.pendingWorks = [])
  | _ => True

theorem View.of_not_holds (h : p.holds = false) : View s p := by
  cases p with
  | enter back => cases back <;> simp_all [Pc.holds, View]
  | _ => simp_all [Pc.holds, View]

theorem View.congr (hf : s'.isFenced = s.isFenced) (hq : s'.pendingWorks = s.pendingWorks)
    (h : View s p) : View s' p := by
  cases p with
  | enter back => cases back <;> simp_all [View]
  | _ => simp_all [View]

/-- Calling `ProcessFenced` changes neither the holder of the lock nor the drainer. -/
theorem Pc.caller_facts {back : Option Request} (h : p.caller = some back) :
    (Pc.enter back).holds = p.holds ∧ (Pc.enter back).draining = p.draining ∧
      (View s p → View s (.enter back)) := by
  cases p with
  | idle | serving r => cases h; simp [Pc.holds, Pc.draining, View]
  | _ => cases h

structure Wf (s : State T) : Prop where
  lock : ∀ t, (s.pc t).holds = true ↔ s.lock = some t
  inProcess : s.inProcess = true ↔ ∃ t, (s.pc t).draining = true
  view : ∀ t, View s (s.pc t)
  queue : s.pendingWorks ≠ [] → s.isFenced = true
  writes : s.pendingWrites = s.inflight.length

theorem Wf.init : Wf (init T) where
  lock t := by simp [Fence.init, Pc.holds]
  inProcess := by simp [Fence.init, Pc.draining]
  view t := by simp [Fence.init, View]
  queue := by simp [Fence.init]
  writes := by simp [Fence.init]

theorem Wf.not_holds (h : Wf s) (ht : (s.pc t).holds = true) (hu : u ≠ t) :
    (s.pc u).holds = false := by
  have hl := (h.lock t).mp ht
  by_contra hc
  have hl' := (h.lock u).mp (by simpa using hc)
  rw [hl] at hl'
  exact hu (Option.some.inj hl').symm

theorem Wf.not_draining (h : Wf s) (ht : (s.pc t).holds = true) (hu : u ≠ t) :
    (s.pc u).draining = false := by
  have hn := h.not_holds ht hu
  by_contra hc
  rw [Pc.holds_of_draining (by simpa using hc)] at hn
  cases hn

theorem Wf.inProcess_of_draining (h : Wf s) (ht : (s.pc t).draining = true) :
    s.inProcess = true :=
  h.inProcess.mpr ⟨t, ht⟩

/-! ## What a step may do to the shared fields

Every step moves one thread from `s.pc t` to `p` and changes the shared fields in one of four
ways: not at all, under the lock, by taking the lock, or by giving it back. -/

variable [DecidableEq T]

/-- The program counters of all the other threads stay. -/
structure Moves (s s' : State T) (t : T) (p : Pc) : Prop where
  pc : s'.pc = Function.update s.pc t p

theorem Moves.self (m : Moves s s' t p) : s'.pc t = p := by rw [m.pc, Function.update_self]

theorem Moves.other (m : Moves s s' t p) (hu : u ≠ t) : s'.pc u = s.pc u := by
  rw [m.pc, Function.update_of_ne hu]

theorem lock_keep (h : Wf s) (m : Moves s s' t p) (hl : s'.lock = s.lock)
    (hp : p.holds = (s.pc t).holds) (u : T) : (s'.pc u).holds = true ↔ s'.lock = some u := by
  rw [hl, ← h.lock u]
  by_cases hu : u = t
  · rw [hu, m.self, hp]
  · rw [m.other hu]

theorem lock_take (h : Wf s) (m : Moves s s' t p) (hn : s.lock = none) (hl : s'.lock = some t)
    (hp : p.holds = true) (u : T) : (s'.pc u).holds = true ↔ s'.lock = some u := by
  by_cases hu : u = t
  · simp [hu, m.self, hp, hl]
  · have := h.lock u
    rw [m.other hu, hl, this, hn]
    simp [Ne.symm hu]

theorem lock_drop (h : Wf s) (m : Moves s s' t p) (ht : (s.pc t).holds = true)
    (hl : s'.lock = none) (hp : p.holds = false) (u : T) :
    (s'.pc u).holds = true ↔ s'.lock = some u := by
  rw [hl]
  by_cases hu : u = t
  · simp [hu, m.self, hp]
  · simp [m.other hu, h.not_holds ht hu]

theorem inProcess_keep (h : Wf s) (m : Moves s s' t p) (hi : s'.inProcess = s.inProcess)
    (hp : p.draining = (s.pc t).draining) :
    s'.inProcess = true ↔ ∃ u, (s'.pc u).draining = true := by
  have hd : ∀ u, (s'.pc u).draining = (s.pc u).draining := by
    intro u
    by_cases hu : u = t
    · rw [hu, m.self, hp]
    · rw [m.other hu]
  simp only [hi, h.inProcess, hd]

theorem inProcess_set (m : Moves s s' t p) (hi : s'.inProcess = true)
    (hp : p.draining = true) : s'.inProcess = true ↔ ∃ u, (s'.pc u).draining = true :=
  ⟨fun _ => ⟨t, by rw [m.self, hp]⟩, fun _ => hi⟩

theorem inProcess_clear (h : Wf s) (m : Moves s s' t p) (ht : (s.pc t).holds = true)
    (hi : s'.inProcess = false) (hp : p.draining = false) :
    s'.inProcess = true ↔ ∃ u, (s'.pc u).draining = true := by
  rw [hi]
  refine ⟨fun hc => (by cases hc), ?_⟩
  rintro ⟨u, hu⟩
  by_cases hut : u = t
  · rw [hut, m.self, hp] at hu
    exact hu
  · rw [m.other hut, h.not_draining ht hut] at hu
    exact hu

theorem view_keep (h : Wf s) (m : Moves s s' t p) (hf : s'.isFenced = s.isFenced)
    (hq : s'.pendingWorks = s.pendingWorks) (hv : View s' p) (u : T) : View s' (s'.pc u) := by
  by_cases hu : u = t
  · rw [hu, m.self]
    exact hv
  · rw [m.other hu]
    exact (h.view u).congr hf hq

theorem view_locked (h : Wf s) (m : Moves s s' t p) (ht : (s.pc t).holds = true)
    (hv : View s' p) (u : T) : View s' (s'.pc u) := by
  by_cases hu : u = t
  · rw [hu, m.self]
    exact hv
  · rw [m.other hu]
    exact View.of_not_holds (h.not_holds ht hu)

/-- A step outside the critical sections, or one inside that leaves the lock where it is, with
the flags and the queue as they were. -/
theorem Wf.keep (h : Wf s) (m : Moves s s' t p) (hl : s'.lock = s.lock)
    (hi : s'.inProcess = s.inProcess) (hf : s'.isFenced = s.isFenced)
    (hq : s'.pendingWorks = s.pendingWorks) (hw : s'.pendingWrites = s'.inflight.length)
    (hp : p.holds = (s.pc t).holds) (hd : p.draining = (s.pc t).draining)
    (hv : View s' p) : Wf s' where
  lock := lock_keep h m hl hp
  inProcess := inProcess_keep h m hi hd
  view := view_keep h m hf hq hv
  queue hne := by rw [hf]; exact h.queue (hq ▸ hne)
  writes := hw

/-- A step of the lock's holder that may change the flags, the queue and `in_process`. -/
theorem Wf.locked (h : Wf s) (m : Moves s s' t p) (ht : (s.pc t).holds = true)
    (hl : s'.lock = s.lock) (hp : p.holds = true)
    (hi : s'.inProcess = true ↔ ∃ u, (s'.pc u).draining = true)
    (hw : s'.pendingWrites = s'.inflight.length) (hq : s'.pendingWorks ≠ [] → s'.isFenced = true)
    (hv : View s' p) : Wf s' where
  lock := lock_keep h m hl (hp.trans ht.symm)
  inProcess := hi
  view := view_locked h m ht hv
  queue := hq
  writes := hw

theorem Wf.take (h : Wf s) (m : Moves s s' t p) (hn : s.lock = none) (hl : s'.lock = some t)
    (hi : s'.inProcess = s.inProcess) (hf : s'.isFenced = s.isFenced)
    (hq : s'.pendingWorks = s.pendingWorks) (hw : s'.pendingWrites = s'.inflight.length)
    (hp : p.holds = true) (hd : p.draining = (s.pc t).draining) (hv : View s' p) : Wf s' where
  lock := lock_take h m hn hl hp
  inProcess := inProcess_keep h m hi hd
  view := view_keep h m hf hq hv
  queue hne := by rw [hf]; exact h.queue (hq ▸ hne)
  writes := hw

theorem Wf.drop (h : Wf s) (m : Moves s s' t p) (ht : (s.pc t).holds = true)
    (hl : s'.lock = none) (hi : s'.inProcess = s.inProcess) (hf : s'.isFenced = s.isFenced)
    (hq : s'.pendingWorks = s.pendingWorks) (hw : s'.pendingWrites = s'.inflight.length)
    (hp : p.holds = false) (hd : p.draining = (s.pc t).draining) : Wf s' where
  lock := lock_drop h m ht hl hp
  inProcess := inProcess_keep h m hi hd
  view := view_keep h m hf hq (View.of_not_holds hp)
  queue hne := by rw [hf]; exact h.queue (hq ▸ hne)
  writes := hw

/-! ## Every step keeps `Wf` -/

theorem Wf.examine (h : Wf s) {r : Request} (hp : s.pc t = .examine r) :
    Wf (examine t r s) := by
  have hw := h.writes
  have hf := (s.isFenced).eq_false_or_eq_true
  unfold Fence.examine
  split <;> split
  all_goals
    refine h.keep (t := t) ⟨rfl⟩ rfl rfl rfl rfl hw (by rw [hp]; rfl) (by rw [hp]; rfl) ?_
  all_goals simp_all [View, State.isFenced, State.isMFenced, State.goto]

theorem Wf.count (h : Wf s) {r : Request} (hp : s.pc t = .count r) : Wf (count t r s) := by
  have hw := h.writes
  have hv : View s (.count r) := hp ▸ h.view t
  unfold Fence.count
  split
  · exact h.keep (t := t) ⟨rfl⟩ rfl rfl rfl rfl hw (by rw [hp]; rfl) (by rw [hp]; rfl) hv
  · split
    all_goals
      exact h.keep (t := t) ⟨rfl⟩ rfl rfl rfl rfl hw (by rw [hp]; rfl) (by rw [hp]; rfl) trivial

theorem Wf.mark (h : Wf s) {r : Request} (hp : s.pc t = .mark r) : Wf (mark t r s) := by
  have hw := h.writes
  have ht : (s.pc t).holds = true := by rw [hp]; rfl
  unfold Fence.mark
  split
  all_goals
    refine h.locked (t := t) ⟨rfl⟩ ht rfl rfl
      (inProcess_keep (t := t) h ⟨rfl⟩ rfl (by rw [hp]; rfl)) hw ?_ ?_
  all_goals simp [View, State.isFenced, State.goto, State.emit]

theorem Wf.front (h : Wf s) (hp : s.pc t = .front) : Wf (front t s) := by
  have hw := h.writes
  have hv : View s .front := hp ▸ h.view t
  unfold Fence.front
  split
  · refine h.keep (t := t) ⟨rfl⟩ rfl rfl rfl rfl hw (by rw [hp]; rfl) (by rw [hp]; rfl) ?_
    simp_all [View, State.isFenced, State.goto]
  · split
    all_goals
      refine h.keep (t := t) ⟨rfl⟩ rfl rfl rfl rfl hw (by rw [hp]; rfl) (by rw [hp]; rfl) ?_
    all_goals simp_all [View, State.isFenced, State.goto]

theorem Wf.recheck (h : Wf s) {r : Request} (hp : s.pc t = .recheck r) :
    Wf (recheck t r s) := by
  have hw := h.writes
  have hv : View s (.recheck r) := hp ▸ h.view t
  unfold Fence.recheck
  split
  · exact h.keep (t := t) ⟨rfl⟩ rfl rfl rfl rfl hw (by rw [hp]; rfl) (by rw [hp]; rfl) hv
  · split
    · exact h.keep (t := t) ⟨rfl⟩ rfl rfl rfl rfl hw (by rw [hp]; rfl) (by rw [hp]; rfl) hv
    · refine h.keep (t := t) ⟨rfl⟩ rfl rfl rfl rfl hw (by rw [hp]; rfl) (by rw [hp]; rfl) ?_
      refine ⟨hv.1, fun hq => ?_⟩
      have hr := hv.2
      rw [show s.pendingWorks = [] from hq] at hr
      cases hr

theorem Wf.stop (h : Wf s) {r : Request} (hp : s.pc t = .stop r) : Wf (stop t r s) := by
  have hw := h.writes
  have hv : View s (.stop r) := hp ▸ h.view t
  have ht : (s.pc t).holds = true := by rw [hp]; rfl
  have hne : s.pendingWorks ≠ [] := by
    intro hq
    have hr := hv.2
    rw [hq] at hr
    cases hr
  unfold Fence.stop
  split
  all_goals
    refine h.locked (t := t) ⟨rfl⟩ ht rfl rfl
      (inProcess_keep (t := t) h ⟨rfl⟩ rfl (by rw [hp]; rfl)) hw ?_ ?_
  all_goals simp [View, State.isFenced, State.goto, State.emit, hne]

/-- A request leaves `pending_works` only while the flags are set. -/
theorem Wf.pop (h : Wf s) {fenced : Bool} (hp : s.pc t = .pop fenced) :
    Wf ({ s with pendingWorks := s.pendingWorks.tail }.goto t
      (if fenced then .finish true else .front)) := by
  have hv : View s (.pop fenced) := hp ▸ h.view t
  have ht : (s.pc t).holds = true := by rw [hp]; rfl
  have hf : s.isFenced = true := hv.1
  cases fenced
  all_goals
    refine h.locked (t := t) ⟨rfl⟩ ht rfl rfl
      (inProcess_keep (t := t) h ⟨rfl⟩ rfl (by rw [hp]; rfl)) h.writes (fun _ => hf) ?_
  · exact hf
  · exact ⟨hf, fun hc => (by cases hc)⟩

theorem Wf.finish (h : Wf s) {fenced : Bool} (hp : s.pc t = .finish fenced) :
    Wf ((if fenced then s else { s with mfenced := false, sfenced := false }).goto t
      (.release fenced)) := by
  have hv : View s (.finish fenced) := hp ▸ h.view t
  have ht : (s.pc t).holds = true := by rw [hp]; rfl
  cases fenced
  · have hq : s.pendingWorks = [] := hv.2 rfl
    refine h.locked (t := t) ⟨rfl⟩ ht rfl rfl
      (inProcess_keep (t := t) h ⟨rfl⟩ rfl (by rw [hp]; rfl)) h.writes ?_ ?_
    all_goals simp [View, State.isFenced, State.goto, hq]
  · exact h.keep (t := t) ⟨rfl⟩ rfl rfl rfl rfl h.writes (by rw [hp]; rfl) (by rw [hp]; rfl)
      ⟨hv.1, fun hc => (by cases hc)⟩

theorem Wf.begin (h : Wf s) (r : Request) (hp : p.holds = (s.pc t).holds)
    (hd : p.draining = (s.pc t).draining) (hv : View s p) : Wf ((s.begin r).goto t p) :=
  h.keep (t := t) (p := p) ⟨by simp [State.goto]⟩ (s.begin_lock r) (s.begin_inProcess r)
    (s.begin_isFenced r) (s.begin_pendingWorks r) (State.begin_writes r h.writes) hp hd
    (hv.congr (s.begin_isFenced r) (s.begin_pendingWorks r))

theorem Wf.tick (h : Wf s) (hs : tick t s = some s') : Wf s' := by
  have hw := h.writes
  cases hp : s.pc t with
  | idle => simp [Fence.tick, hp] at hs
  | arrive r =>
    simp only [Fence.tick, hp, Option.ite_none_right_eq_some, Option.some.injEq] at hs
    obtain ⟨hn, rfl⟩ := hs
    exact h.take (t := t) ⟨rfl⟩ hn rfl rfl rfl rfl hw rfl (by rw [hp]; rfl) trivial
  | examine r =>
    simp only [Fence.tick, hp, Option.some.injEq] at hs
    exact hs ▸ h.examine hp
  | count r =>
    simp only [Fence.tick, hp, Option.some.injEq] at hs
    exact hs ▸ h.count hp
  | mark r =>
    simp only [Fence.tick, hp, Option.some.injEq] at hs
    exact hs ▸ h.mark hp
  | park r =>
    simp only [Fence.tick, hp, Option.some.injEq] at hs
    subst hs
    have hv : View s (.park r) := hp ▸ h.view t
    have ht : (s.pc t).holds = true := by rw [hp]; rfl
    exact h.locked (t := t) ⟨rfl⟩ ht rfl rfl
      (inProcess_keep (t := t) h ⟨rfl⟩ rfl (by rw [hp]; rfl)) hw (fun _ => hv) trivial
  | leave r =>
    have ht : (s.pc t).holds = true := by rw [hp]; rfl
    cases r
    all_goals
      simp only [Fence.tick, hp, Option.some.injEq] at hs
      subst hs
      exact h.drop (t := t) ⟨rfl⟩ ht rfl rfl rfl rfl hw rfl (by rw [hp]; rfl)
  | execute r =>
    simp only [Fence.tick, hp, Option.some.injEq] at hs
    subst hs
    exact h.begin r (by rw [hp]; rfl) (by rw [hp]; rfl) trivial
  | enter back =>
    simp only [Fence.tick, hp] at hs
    cases back with
    | none =>
      split at hs <;> cases hs
      all_goals
        exact h.keep (t := t) ⟨rfl⟩ rfl rfl rfl rfl hw (by rw [hp]; rfl) (by rw [hp]; rfl) trivial
    | some r =>
      -- the thread set `in_process` itself, so the nested call returns
      have hi := h.inProcess_of_draining (t := t) (by rw [hp]; rfl)
      simp only [hi, if_true, Option.some.injEq] at hs
      subst hs
      have hv : View s (.enter (some r)) := hp ▸ h.view t
      exact h.keep (t := t) ⟨rfl⟩ rfl rfl rfl rfl hw (by rw [hp]; rfl) (by rw [hp]; rfl) hv
  | acquire =>
    simp only [Fence.tick, hp, Option.ite_none_right_eq_some, Option.some.injEq] at hs
    obtain ⟨hn, rfl⟩ := hs
    exact h.take (t := t) ⟨rfl⟩ hn rfl rfl rfl rfl hw rfl (by rw [hp]; rfl) trivial
  | drained =>
    simp only [Fence.tick, hp, Option.some.injEq] at hs
    subst hs
    split
    all_goals
      exact h.keep (t := t) ⟨rfl⟩ rfl rfl rfl rfl hw (by rw [hp]; rfl) (by rw [hp]; rfl) trivial
  | flagged =>
    have ht : (s.pc t).holds = true := by rw [hp]; rfl
    simp only [Fence.tick, hp] at hs
    split at hs <;> cases hs
    · rename_i hf
      exact h.locked (t := t) ⟨rfl⟩ ht rfl rfl (inProcess_set (t := t) ⟨rfl⟩ rfl rfl) hw
        (fun _ => hf) hf
    · exact h.keep (t := t) ⟨rfl⟩ rfl rfl rfl rfl hw (by rw [hp]; rfl) (by rw [hp]; rfl) trivial
  | front =>
    simp only [Fence.tick, hp, Option.some.injEq] at hs
    exact hs ▸ h.front hp
  | recheck r =>
    simp only [Fence.tick, hp, Option.some.injEq] at hs
    exact hs ▸ h.recheck hp
  | serve r =>
    simp only [Fence.tick, hp, Option.some.injEq] at hs
    subst hs
    have hv : View s (.serve r) := hp ▸ h.view t
    exact h.begin r (by rw [hp]; rfl) (by rw [hp]; rfl) hv
  | serving r =>
    simp only [Fence.tick, hp, Option.some.injEq] at hs
    subst hs
    have hv : View s (.serving r) := hp ▸ h.view t
    refine h.keep (t := t) ⟨rfl⟩ rfl rfl rfl rfl hw (by rw [hp]; rfl) (by rw [hp]; rfl) ?_
    refine ⟨hv.1, fun hq => ?_⟩
    have hr := hv.2
    rw [show s.pendingWorks = [] from hq] at hr
    cases hr
  | stop r =>
    simp only [Fence.tick, hp, Option.some.injEq] at hs
    exact hs ▸ h.stop hp
  | pop fenced =>
    simp only [Fence.tick, hp, Option.some.injEq] at hs
    exact hs ▸ h.pop hp
  | finish fenced =>
    simp only [Fence.tick, hp, Option.some.injEq] at hs
    exact hs ▸ h.finish hp
  | release fenced =>
    simp only [Fence.tick, hp, Option.some.injEq] at hs
    subst hs
    have ht : (s.pc t).holds = true := by rw [hp]; rfl
    exact h.locked (t := t) ⟨rfl⟩ ht rfl rfl
      (inProcess_clear (t := t) h ⟨rfl⟩ ht rfl rfl) hw h.queue trivial
  | unlock =>
    simp only [Fence.tick, hp, Option.some.injEq] at hs
    subst hs
    exact h.drop (t := t) ⟨rfl⟩ (by rw [hp]; rfl) rfl rfl rfl rfl hw rfl (by rw [hp]; rfl)

theorem Wf.step {a : Act T} (h : Wf s) (hs : step a s = some s') : Wf s' := by
  have hw := h.writes
  cases a with
  | submit t op =>
    simp only [Fence.step, Option.ite_none_right_eq_some, Option.some.injEq] at hs
    obtain ⟨hp, rfl⟩ := hs
    exact h.keep (t := t) ⟨rfl⟩ rfl rfl rfl rfl hw (by rw [hp]; rfl) (by rw [hp]; rfl) trivial
  | notify t w =>
    simp only [Fence.step, Option.ite_none_right_eq_some, Option.map_eq_some_iff] at hs
    obtain ⟨hm, back, hc, rfl⟩ := hs
    obtain ⟨hh, hd, hv⟩ := Pc.caller_facts (s := s) hc
    exact h.keep (t := t) ⟨rfl⟩ rfl rfl rfl rfl (State.decrement_writes hm hw) hh hd
      ((hv (h.view t)).congr rfl rfl)
  | poke t =>
    simp only [Fence.step, Option.map_eq_some_iff] at hs
    obtain ⟨back, hc, rfl⟩ := hs
    obtain ⟨hh, hd, hv⟩ := Pc.caller_facts (s := s) hc
    exact h.keep (t := t) ⟨rfl⟩ rfl rfl rfl rfl hw hh hd ((hv (h.view t)).congr rfl rfl)
  | tick t => exact h.tick hs

end HwGam.Fence
