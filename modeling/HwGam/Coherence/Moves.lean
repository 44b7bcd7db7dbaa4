import HwGam.Coherence.Desk
import HwGam.Coherence.Runs

/-!
# What a step of the whole memory can do

A step is the issue of a request, the end of a loop, or a turn of a worker at one block: the desk of
its place changes as `Desk.Work` says, every other desk stays, and the control records the events.
-/

namespace HwGam.Coherence

variable {V : Type*}

/-! ## The control -/

namespace Control

variable (s : Control V) (q : Request) (n : Int) (i : Nat) (e : Ev V) (b : Bool)

@[simp] theorem hand_count : (s.count q n).hand = s.hand := by
  unfold count
  split <;> rfl

@[simp] theorem hand_countWrite : (s.countWrite q n).hand = s.hand := by
  unfold countWrite
  split <;> rfl

@[simp] theorem hand_notify : (s.notify q).hand = s.hand := by
  simp [notify, happens]

@[simp] theorem hand_succeed : (s.succeed q).hand = s.hand := by
  unfold succeed
  split
  · simp
  · rfl

@[simp] theorem hand_record : (record i b s e).hand = s.hand := by
  unfold record
  cases e <;> simp only <;> (try split) <;> simp [happens]

@[simp] theorem hand_records (es : List (Ev V)) : (s.records i b es).hand = s.hand := by
  unfold records
  induction es generalizing s with
  | nil => rfl
  | cons e es ih => rw [List.foldl_cons, ih, hand_record]

@[simp] theorem hand_finish [DecidableEq V] (v : V) :
    (s.finish v q).hand = Function.update s.hand v none := by
  unfold finish
  dsimp only
  split
  · rw [hand_succeed]
    rfl
  · rfl

@[simp] theorem hand_resume [DecidableEq V] (v : V) :
    (s.resume v q).hand = Function.update s.hand v (some (q, q.span)) := by
  simp [resume, take]

end Control

/-- The same control, in whatever replays the workers are. -/
structure Control.Like (c c' : Control V) : Prop where
  counter : c'.counter = c.counter
  toServe : c'.toServe = c.toServe
  pendingWrites : c'.pendingWrites = c.pendingWrites
  hand : c'.hand = c.hand
  next : c'.next = c.next
  hist : c'.hist = c.hist

theorem newEvents_of_log {b b' : Block V} {es : List (Ev V)} (h : b'.log = b.log ++ es) :
    newEvents b b' = es := by
  unfold newEvents
  rw [h, List.drop_left]

theorem Control.hand_of_idle {s : Control V} {u : V} (h : s.idle u = true) : s.hand u = none := by
  unfold Control.idle at h
  simp only [Bool.and_eq_true, Option.isNone_iff_eq_none] at h
  exact h.1

theorem Control.Like.take [DecidableEq V] {c c' : Control V} (h : c.Like c') (v : V)
    (x : Option (Request × List Nat)) : Control.Like (c.take v x) (c'.take v x) :=
  ⟨h.counter, h.toServe, h.pendingWrites, by unfold Control.take; rw [h.hand], h.next, h.hist⟩

theorem Control.Like.resume [DecidableEq V] {c c' : Control V} (h : c.Like c') (v : V)
    (q : Request) : Control.Like (c.resume v q) (c'.resume v q) := by
  unfold Control.resume Control.count
  split
  · exact ⟨h.counter, by simp [Control.take, h.toServe], h.pendingWrites, by simp [Control.take, h.hand],
      h.next, h.hist⟩
  · exact ⟨by simp [Control.take, h.counter], by simp [Control.take, h.toServe], h.pendingWrites,
      by simp [Control.take, h.hand], h.next, h.hist⟩

namespace Layout

variable [DecidableEq V] (l : Layout V) (f : Slack) (mem : Nat → Data)

/-- Worker `u` does `x` at block `i`, with the events `es`. -/
structure Turn (s s' : Sys V) (u : V) (i : Nat) (x : Act V) (es : List (Ev V)) : Prop where
  place : x.place = l.place u i
  step : Coherence.step i x (s.blk i) = some (s'.blk i)
  others : ∀ j, j ≠ i → s'.blk j = s.blk j
  log : (s'.blk i).log = (s.blk i).log ++ es
  work : Desk.Work (l.place u i) (Block.value i (mem i) (s.blk i).log)
    (f.stale = false ∧ ¬ x.transientHit (s.blk i)) (x.lands (s.blk i)) ((s.blk i).desk (l.place u i)) x es
    ((s'.blk i).desk (l.place u i))
  frame : ∀ n, n ≠ l.place u i → (s'.blk i).desk n = (s.blk i).desk n

inductive Moved (s : Sys V) : SysAct V → Sys V → Prop
  | issue (q : Request) (hidle : s.idle (l.worker q.thread) = true) (hid : q.id = s.next) :
    Moved s (.issue q) { s with toControl := s.toControl.issue (l.worker q.thread) q }
  | finish (v : V) (q : Request) (hh : s.hand v = some (q, [])) :
    Moved s (.finish v) { s with toControl := s.toControl.finish v q }
  | serve (v : V) (ptr : Ptr) (q : Request) (i : Nat) (is : List Nat) (es : List (Ev V)) (s' : Sys V)
      (hh : s.hand v = some (q, i :: is))
      (ht : l.Turn f mem s s' v i (.access (l.place v i) q ptr) es)
      (hc : Control.Like ((s.toControl.records i true es).take v
        (if es.any Ev.isPark then none else some (q, is))) s'.toControl) :
    Moved s (.serve v ptr) s'
  | resume (v : V) (i : Nat) (q : Request) (s' : Sys V) (hh : s.hand v = none)
      (hq : (s.blk i).nextLocal (l.place v i) = some q)
      (ht : l.Turn f mem s s' v i (.drop (l.place v i)) [])
      (hc : Control.Like (s.toControl.resume v q) s'.toControl) :
    Moved s (.resume v) s'
  | unlock (thread addr : Nat) (es : List (Ev V)) (s' : Sys V)
      (hidle : s.idle (l.worker thread) = true)
      (ht : l.Turn f mem s s' (l.worker thread) (toBlock addr)
        (.unlock (l.place (l.worker thread) (toBlock addr)) thread addr) es)
      (hc : Control.Like (s.toControl.records (toBlock addr) false es) s'.toControl) :
    Moved s (.unlock thread addr) s'
  | handler (a : SysAct V) (u : V) (i : Nat) (x : Act V) (es : List (Ev V)) (s' : Sys V)
      (ha : ∀ q, a ≠ .issue q) (hx : x.isHandler = true) (hu : es ≠ [] → s.hand u = none)
      (ht : l.Turn f mem s s' u i x es)
      (hc : Control.Like (s.toControl.records i false es) s'.toControl) :
    Moved s a s'

variable {l f mem} {s s' : Sys V} {a : SysAct V} {i : Nat} {u : V} {x : Act V} {b : Block V}

theorem Ran.turn (hran : l.Ran a s i x b s') (hg : Good f i (mem i) (s.blk i))
    (hp : x.place = l.place u i) :
    ∃ es, l.Turn f mem s s' u i x es ∧ newEvents (s.blk i) b = es := by
  obtain ⟨es, hlog, hwork, hframe⟩ := hg.work hran.step
  have hblk : s'.blk i = b := by
    rw [hran.blk, Function.update_self]
  refine ⟨es, ⟨hp, ?_, fun j hj => ?_, ?_, ?_, ?_⟩, newEvents_of_log hlog⟩
  · rw [hblk]
    exact hran.step
  · rw [hran.blk, Function.update_of_ne hj]
  · rw [hblk]
    exact hlog
  · rw [hblk, ← hp]
    exact hwork
  · rw [hblk, ← hp]
    exact hframe

theorem like_settle (l : Layout V) (v : V) (i : Nat) (s : Sys V) :
    Control.Like s.toControl (l.settle v i s).toControl := by
  unfold settle
  split <;> exact ⟨rfl, rfl, rfl, rfl, rfl, rfl⟩

/-- Only `serve` and `resume` change what is in hand. -/
theorem Ran.like (hran : l.Ran a s i x b s') (hin : ∀ t, l.inHand a s t = t.toControl) :
    Control.Like (s.toControl.records i x.isAccess (newEvents (s.blk i) b)) s'.toControl := by
  rw [hran.eq, hin]
  exact like_settle l (l.workerAt i x.place) i
    ⟨s.toControl.records i x.isAccess (newEvents (s.blk i) b), Function.update s.blk i b⟩

theorem Ran.moved (hran : l.Ran a s i x b s') (hg : Good f i (mem i) (s.blk i))
    (hp : x.place = l.place u i) (hx : x.isHandler = true)
    (hin : ∀ t, l.inHand a s t = t.toControl)
    (hu : newEvents (s.blk i) b ≠ [] → s.hand u = none) : l.Moved f mem s a s' := by
  obtain ⟨es, ht, rfl⟩ := hran.turn hg hp
  have hacc : x.isAccess = false := by
    cases x <;> first | rfl | cases hx
  have ha : ∀ q, a ≠ .issue q := by
    rintro q rfl
    cases hran.target
  refine .handler a u i x _ s' ha hx hu ht ?_
  rw [← hacc]
  exact hran.like hin

theorem place_of_ne {w : V} (h : w ≠ l.home i) : some w = l.place w i := by
  unfold place
  rw [if_neg h]

theorem place_home (l : Layout V) (i : Nat) : (none : Place V) = l.place (l.home i) i := by
  unfold place
  rw [if_pos rfl]

/-- A local request is taken off the replay. -/
theorem drop_inv {n : Place V} (h : Coherence.step i (.drop n) (s.blk i) = some b) :
    ∃ q, (s.blk i).nextLocal n = some q ∧ newEvents (s.blk i) b = [] := by
  cases n with
  | none =>
    simp only [Coherence.step, drop] at h
    split at h
    · rename_i q rest ha
      cases h
      exact ⟨q, by simp only [Block.nextLocal, ha], newEvents_of_log (List.append_nil _).symm⟩
    · cases h
  | some w =>
    simp only [Coherence.step, drop] at h
    split at h
    · rename_i q rest ha
      cases h
      exact ⟨q, by simp only [Block.nextLocal, ha], newEvents_of_log (List.append_nil _).symm⟩
    · cases h

/-- An eviction adds nothing to the log. -/
theorem newEvents_evict {w : V} (h : Coherence.step i (.evict w) (s.blk i) = some b) :
    newEvents (s.blk i) b = [] := by
  obtain ⟨c, -, rfl⟩ := Option.map_eq_some_iff.mp h
  exact newEvents_of_log (List.append_nil _).symm

/-- The data of a one-sided write land without an event. -/
theorem newEvents_lands (hg : Good f i (mem i) (s.blk i)) (h : Coherence.step i x (s.blk i) = some b)
    (hx : x.isHandler = true) (hl : x.lands (s.blk i)) : newEvents (s.blk i) b = [] := by
  obtain ⟨es, hlog, hwork, -⟩ := hg.work h
  rw [newEvents_of_log hlog]
  generalize x.place = n at hwork
  generalize b.desk n = d' at hwork
  cases hwork with
  | ends _ _ _ _ hnl _ => exact absurd hl hnl
  | again _ _ _ hnl _ _ => exact absurd hl hnl
  | quiet _ => rfl
  | _ => cases hx

theorem inHand_serve {v : V} {ptr : Ptr} {q : Request} {is : List Nat}
    (hh : s.hand v = some (q, i :: is)) (t : Sys V) :
    l.inHand (.serve v ptr) s t =
      t.take v (if (newEvents (s.blk i) (t.blk i)).any Ev.isPark then none else some (q, is)) := by
  simp only [inHand, hh]

theorem inHand_resume {v : V} {q : Request} (hs : s.serving v = some i)
    (hq : (s.blk i).nextLocal (l.place v i) = some q) (t : Sys V) :
    l.inHand (.resume v) s t = t.toControl.resume v q := by
  simp only [inHand, hs, Option.bind_some, hq]

theorem step_moved (hg : ∀ i, Good f i (mem i) (s.blk i)) (h : l.step a s = some s') :
    l.Moved f mem s a s' := by
  have hrun := step_cases h
  cases a with
  | issue q =>
    simp only [step, Option.ite_none_right_eq_some, Option.some.injEq] at h
    obtain ⟨⟨hidle, hid⟩, rfl⟩ := h
    exact .issue q hidle hid
  | finish v =>
    simp only [step] at h
    split at h
    · rename_i q hh
      cases h
      exact .finish v q hh
    · cases h
  | serve v ptr =>
    obtain ⟨-, htar⟩ | ⟨i, x, b, hran⟩ := hrun
    · simp only [step, htar, Option.bind_none, reduceCtorEq] at h
    have htar := hran.target
    simp only [target] at htar
    split at htar
    · rename_i q j is hh
      obtain ⟨rfl, rfl⟩ : j = i ∧ Act.access (l.place v j) q ptr = x := by simpa using htar
      obtain ⟨es, ht, hes⟩ := hran.turn (hg j) rfl
      refine .serve v ptr q j is es s' hh ht ?_
      have hlike := (like_settle l (l.workerAt j (l.place v j)) j
        ⟨s.toControl.records j true es, Function.update s.blk j b⟩).take v
          (if es.any Ev.isPark then none else some (q, is))
      rw [hran.eq, hes]
      simp only [Act.place, Act.isAccess, inHand_serve hh, blk_settle, Function.update_self, hes]
      exact hlike
    · cases htar
  | resume v =>
    obtain ⟨-, htar⟩ | ⟨i, x, b, hran⟩ := hrun
    · simp only [step, htar, Option.bind_none, reduceCtorEq] at h
    have htar := hran.target
    simp only [target] at htar
    split at htar
    · rename_i j hh hs
      obtain ⟨rfl, rfl⟩ : j = i ∧ Act.drop (l.place v j) = x := by simpa using htar
      obtain ⟨es, ht, hes⟩ := hran.turn (hg j) rfl
      obtain ⟨q, hq, hnew⟩ := drop_inv hran.step
      obtain rfl : [] = es := hnew.symm.trans hes
      refine .resume v j q s' hh hq ht ?_
      have hlike := (like_settle l (l.workerAt j (l.place v j)) j
        ⟨s.toControl.records j false [], Function.update s.blk j b⟩).resume v q
      rw [hran.eq, hes]
      simp only [Act.place, Act.isAccess, inHand_resume hs hq]
      exact hlike
    · cases htar
  | replay v =>
    obtain ⟨-, htar⟩ | ⟨i, x, b, hran⟩ := hrun
    · simp only [step, htar, Option.bind_none, reduceCtorEq] at h
    have htar := hran.target
    simp only [target] at htar
    split at htar
    · rename_i j hh hs
      obtain ⟨rfl, rfl⟩ : j = i ∧ Act.replay (l.place v j) = x := by simpa using htar
      exact hran.moved (hg j) rfl rfl (fun _ => rfl) fun _ => hh
    · cases htar
  | unlock thread addr =>
    obtain ⟨-, htar⟩ | ⟨i, x, b, hran⟩ := hrun
    · simp only [step, htar, Option.bind_none, reduceCtorEq] at h
    have htar := hran.target
    simp only [target, Option.ite_none_right_eq_some, Option.some.injEq, Prod.mk.injEq] at htar
    obtain ⟨hidle, rfl, rfl⟩ := htar
    obtain ⟨es, ht, rfl⟩ := hran.turn (hg _) rfl
    exact .unlock thread addr _ s' hidle ht (hran.like fun _ => rfl)
  | evict v i =>
    obtain ⟨-, htar⟩ | ⟨j, x, b, hran⟩ := hrun
    · simp only [step, htar, Option.bind_none, reduceCtorEq] at h
    have htar := hran.target
    simp only [target, Option.ite_none_right_eq_some, Option.some.injEq, Prod.mk.injEq] at htar
    obtain ⟨hv, rfl, rfl⟩ := htar
    exact hran.moved (hg _) (place_of_ne hv) rfl (fun _ => rfl) fun hne =>
      absurd (newEvents_evict hran.step) hne
  | complete v i =>
    obtain ⟨-, htar⟩ | ⟨j, x, b, hran⟩ := hrun
    · simp only [step, htar, Option.bind_none, reduceCtorEq] at h
    have htar := hran.target
    simp only [target, Option.ite_none_right_eq_some, Option.some.injEq, Prod.mk.injEq] at htar
    obtain ⟨⟨hv, hidle⟩, rfl, rfl⟩ := htar
    exact hran.moved (hg _) (place_of_ne hv) rfl (fun _ => rfl) fun _ =>
      Control.hand_of_idle hidle
  | recvHome w i =>
    obtain ⟨-, htar⟩ | ⟨j, x, b, hran⟩ := hrun
    · simp only [step, htar, Option.bind_none, reduceCtorEq] at h
    have htar := hran.target
    simp only [target, Option.ite_none_right_eq_some, Option.some.injEq, Prod.mk.injEq] at htar
    obtain ⟨⟨-, hidle⟩, rfl, rfl⟩ := htar
    refine hran.moved (hg _) (place_home l i) rfl (fun _ => rfl) fun hne => ?_
    obtain hr | hidle := (Bool.or_eq_true _ _).mp hidle
    · exact absurd (newEvents_lands (hg i) hran.step rfl ((Option.any_eq_true _ _).mp hr)) hne
    · exact Control.hand_of_idle hidle
  | recv w i =>
    obtain ⟨-, htar⟩ | ⟨j, x, b, hran⟩ := hrun
    · simp only [step, htar, Option.bind_none, reduceCtorEq] at h
    have htar := hran.target
    simp only [target, Option.ite_none_right_eq_some, Option.some.injEq, Prod.mk.injEq] at htar
    obtain ⟨⟨hv, hidle⟩, rfl, rfl⟩ := htar
    refine hran.moved (hg _) (place_of_ne hv) rfl (fun _ => rfl) fun hne => ?_
    obtain hr | hidle := (Bool.or_eq_true _ _).mp hidle
    · exact absurd (newEvents_lands (hg i) hran.step rfl ((Option.any_eq_true _ _).mp hr)) hne
    · exact Control.hand_of_idle hidle
  | recvPeer o w i =>
    obtain ⟨-, htar⟩ | ⟨j, x, b, hran⟩ := hrun
    · simp only [step, htar, Option.bind_none, reduceCtorEq] at h
    have htar := hran.target
    simp only [target, Option.ite_none_right_eq_some, Option.some.injEq, Prod.mk.injEq] at htar
    obtain ⟨⟨hv, hidle⟩, rfl, rfl⟩ := htar
    exact hran.moved (hg _) (place_of_ne hv) rfl (fun _ => rfl) fun _ =>
      Control.hand_of_idle hidle

end Layout

/-! ## The requests the workers know -/

/-- All requests at a desk. -/
structure Desk.All (P : Request → Prop) (d : Desk) : Prop where
  pend : ∀ x ∈ d.pend, P x.2
  locals : ∀ q ∈ d.locals, P q
  agenda : ∀ q ∈ d.agenda, P q

section
variable {P : Request → Prop} {n : Place V} {cur : Data} {fresh lands : Prop} {d d' : Desk}
  {x : Act V} {es : List (Ev V)} {b : Block V} {q : Request}

theorem Desk.All.serve (h : d.All P) : d.serve.All P where
  pend := h.pend
  locals := by simp [Desk.serve]
  agenda q hq := (List.mem_append.mp hq).elim (h.locals q) (h.agenda q)

/-- No work brings a request but the one that is taken in hand. -/
theorem Desk.Work.all (hw : Desk.Work n cur fresh lands d x es d')
    (hx : ∀ q ptr, x = .access n q ptr → P q) (hd : d.All P) : d'.All P := by
  cases hw with
  | hit | effect | fail | quiet => exact hd
  | rlock | wlock => exact ⟨hd.pend, hd.locals, hd.agenda⟩
  | park q ptr =>
    refine ⟨hd.pend, fun r hr => ?_, hd.agenda⟩
    rcases List.mem_append.mp hr with hr | hr
    · exact hd.locals r hr
    · obtain rfl := List.mem_singleton.mp hr
      exact hx r ptr rfl
  | pend q ptr =>
    refine ⟨fun r hr => ?_, hd.locals, hd.agenda⟩
    obtain rfl := Option.some.inj hr
    exact hx q ptr rfl
  | unlock => exact Desk.All.serve ⟨hd.pend, hd.locals, hd.agenda⟩
  | drop q rest ha =>
    exact ⟨hd.pend, hd.locals, fun r hr => hd.agenda r (ha ▸ List.mem_cons_of_mem _ hr)⟩
  | ends => exact Desk.All.serve ⟨by simp, hd.locals, hd.agenda⟩
  | again _ q _ _ hp _ =>
    refine Desk.All.serve ⟨by simp, fun r hr => ?_, hd.agenda⟩
    rcases List.mem_append.mp hr with hr | hr
    · exact hd.locals r hr
    · obtain rfl := List.mem_singleton.mp hr
      exact hd.pend _ hp

/-- The next local request of a replay is the first at the desk. -/
theorem Block.agenda_of_nextLocal (h : b.nextLocal n = some q) :
    ∃ rest, (b.desk n).agenda = q :: rest := by
  cases n with
  | none =>
    simp only [nextLocal] at h
    split at h
    · rename_i r rest ha
      cases h
      exact ⟨rest.filterMap Item.local?, by simp [Block.desk, Home.desk, ha]⟩
    · cases h
  | some w =>
    simp only [nextLocal] at h
    split at h
    · rename_i r rest ha
      cases h
      exact ⟨rest.filterMap Item.local?, by simp [Block.desk, Cacher.desk, ha]⟩
    · cases h

end

/-- All requests in hand, with the blocks that are left, and all at a desk. -/
structure Sys.Known (H : V → Request → List Nat → Prop) (D : Nat → Place V → Request → Prop)
    (s : Sys V) : Prop where
  hand : ∀ v q is, s.hand v = some (q, is) → H v q is
  desk : ∀ i n, ((s.blk i).desk n).All (D i n)

theorem Desk.All.mono {P Q : Request → Prop} {d : Desk} (h : d.All P) (hle : ∀ q, P q → Q q) :
    d.All Q :=
  ⟨fun x hx => hle _ (h.pend x hx), fun q hq => hle q (h.locals q hq),
    fun q hq => hle q (h.agenda q hq)⟩

theorem Sys.Known.init {H : V → Request → List Nat → Prop} {D : Nat → Place V → Request → Prop}
    (mem : Nat → Data) : (Sys.init mem).Known H D := by
  refine ⟨by simp [Sys.init], fun i n => ?_⟩
  cases n <;>
    exact ⟨by simp [Sys.init, Block.init, Block.desk, Home.desk, Cacher.desk, Home.parent],
      by simp [Sys.init, Block.init, Block.desk, Home.desk, Cacher.desk],
      by simp [Sys.init, Block.init, Block.desk, Home.desk, Cacher.desk]⟩

namespace Layout

variable [DecidableEq V] {l : Layout V} {f : Slack} {mem : Nat → Data} {s s' : Sys V} {a : SysAct V}
  {H : V → Request → List Nat → Prop} {D : Nat → Place V → Request → Prop}

/-- What `H` says of a request in hand carries over to its blocks, and back from a replay. -/
structure Carries (l : Layout V) (H : V → Request → List Nat → Prop)
    (D : Nat → Place V → Request → Prop) : Prop where
  next : ∀ v q i is, H v q (i :: is) → H v q is
  desk : ∀ v q i is, H v q (i :: is) → D i (l.place v i) q
  resume : ∀ v q i, D i (l.place v i) q → H v q q.span

theorem Turn.known {u : V} {i : Nat} {x : Act V} {es : List (Ev V)}
    (ht : l.Turn f mem s s' u i x es) (hk : s.Known H D)
    (hx : ∀ q ptr, x = .access (l.place u i) q ptr → D i (l.place u i) q) (j : Nat) (n : Place V) :
    ((s'.blk j).desk n).All (D j n) := by
  by_cases hj : j = i
  · subst hj
    by_cases hn : n = l.place u j
    · subst hn
      exact ht.work.all hx (hk.desk j _)
    · rw [ht.frame n hn]
      exact hk.desk j n
  · rw [ht.others j hj]
    exact hk.desk j n

theorem Moved.known (hm : l.Moved f mem s a s') (hc : l.Carries H D) (hk : s.Known H D)
    (ha : ∀ q, a = .issue q → H (l.worker q.thread) q q.span) : s'.Known H D := by
  cases hm with
  | issue q =>
    refine ⟨fun v r is hr => ?_, hk.desk⟩
    simp only [Control.issue, Control.happens, Control.hand_countWrite, Control.take] at hr
    by_cases hv : v = l.worker q.thread
    · subst hv
      obtain ⟨rfl, rfl⟩ : q = r ∧ q.span = is := by simpa using hr
      exact ha q rfl
    · rw [Function.update_of_ne hv] at hr
      exact hk.hand v r is hr
  | finish v q hh =>
    refine ⟨fun u r is hr => ?_, hk.desk⟩
    rw [Control.hand_finish] at hr
    by_cases hv : u = v
    · subst hv
      simp at hr
    · rw [Function.update_of_ne hv] at hr
      exact hk.hand u r is hr
  | serve v ptr q i is es s' hh ht hl =>
    have hq := hk.hand v q _ hh
    refine ⟨fun u r js hr => ?_, ht.known hk ?_⟩
    · rw [hl.hand] at hr
      simp only [Control.take, Control.hand_records] at hr
      by_cases hv : u = v
      · subst hv
        rw [Function.update_self] at hr
        split at hr
        · cases hr
        · cases hr
          exact hc.next u q i is hq
      · rw [Function.update_of_ne hv] at hr
        exact hk.hand u r js hr
    · rintro r p hx
      obtain ⟨rfl, -⟩ : q = r ∧ ptr = p := by simpa using hx
      exact hc.desk v q i is hq
  | resume v i q s' hh hq ht hl =>
    obtain ⟨rest, hrest⟩ := Block.agenda_of_nextLocal hq
    have hknown := (hk.desk i (l.place v i)).agenda q (hrest ▸ List.mem_cons_self)
    refine ⟨fun u r js hr => ?_, ht.known hk ?_⟩
    · rw [hl.hand, Control.hand_resume] at hr
      by_cases hv : u = v
      · subst hv
        rw [Function.update_self] at hr
        cases hr
        exact hc.resume u q i hknown
      · rw [Function.update_of_ne hv] at hr
        exact hk.hand u r js hr
    · rintro r p ⟨⟩
  | unlock thread addr es s' hidle ht hl =>
    refine ⟨fun u r js hr => ?_, ht.known hk ?_⟩
    · rw [hl.hand, Control.hand_records] at hr
      exact hk.hand u r js hr
    · rintro r p ⟨⟩
  | handler a u i x es s' ha' hx hu ht hl =>
    refine ⟨fun v r js hr => ?_, ht.known hk ?_⟩
    · rw [hl.hand, Control.hand_records] at hr
      exact hk.hand v r js hr
    · rintro r p rfl
      cases hx

/-- What the issued requests meet, all requests in the workers meet. -/
theorem known_of_reaches {P : Request → Prop} {ok : SysAct V → Sys V → Prop}
    (hroom : ∀ a s, ok a s → l.Room a s) (hok : ∀ q s, ok (.issue q) s → P q)
    (h : Lib.Reaches l.step ok (Sys.init mem) s) :
    s.Known (fun _ q _ => P q) (fun _ _ q => P q) := by
  refine h.invariant_along (.init mem) ?_
  intro a t t' hr hk hoka hs
  have hg := l.good_blk_all (hr.mono hroom)
  refine (step_moved hg hs).known ⟨fun _ _ _ _ h => h, fun _ _ _ _ h => h, fun _ _ _ h => h⟩ hk ?_
  rintro q rfl
  exact hok q t hoka

end Layout

end HwGam.Coherence
