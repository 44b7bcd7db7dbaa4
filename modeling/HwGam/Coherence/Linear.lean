import HwGam.Coherence.Reads
import HwGam.Lib.Linear

/-!
# READs and WRITEs are atomic

What the threads see of a block is a linearizable history, in the runs in which the block's readers
and writers exclude each other: nothing is read from a line in transition, and no WRITE is parked
after its loop has passed its first block. A READ acts when its bytes are copied out, a WRITE when it
takes effect; a READ that is replayed acts again, and keeps what it gets last.
-/

namespace HwGam.Coherence

open Lib

variable {V : Type*}

/-- A READ or WRITE of block `i`. -/
def Request.isAt (i : Nat) (q : Request) : Bool := !q.op.isLock && q.span.contains i

/-- The moments of block `i`. -/
def Ev.point? : Ev V → Option (Request × Option Data)
  | .copyOut q d => some (q, some d)
  | .effect q => some (q, none)
  | _ => none

/-- What the threads see of block `i`, and its moments. -/
def Happened.mark? (i : Nat) : Happened V → Option (Mark Request (Option Data))
  | .issue q => if q.isAt i then some (.call q) else none
  | .on j e => if j = i then e.point?.map fun x => .point x.1 x.2 else none
  | .notify q | .returned q => if q.isAt i then some (.ret q) else none

def Control.marks (s : Control V) (i : Nat) : List (Mark Request (Option Data)) :=
  s.hist.filterMap (Happened.mark? i)

/-- Block `i` for one thread after the other. -/
def atomicBlock (i : Nat) : Object Data Request (Option Data) where
  next d q := q.apply i d
  out d q := if q.op = .read then some d else none

/-! ## The history of a step -/

def Happened.isTold : Happened V → Bool
  | .notify _ | .returned _ => true
  | _ => false

/-- The event may be the last one of its request. -/
def Ev.isLast : Ev V → Bool
  | .reply _ | .lock .. | .fail _ => true
  | _ => false

namespace Control

variable {s : Control V} {q : Request} {i : Nat} {b : Bool} {e : Ev V} {es : List (Ev V)}

theorem hist_count {n : Int} : (s.count q n).hist = s.hist := by
  unfold count
  split <;> rfl

theorem hist_notify : (s.notify q).hist = s.hist ++ [.notify q] := by
  unfold Control.notify countWrite
  split <;> rfl

theorem hist_succeed : ∃ x : Happened V, x.isTold = true ∧ (s.succeed q).hist = s.hist ++ [x] := by
  unfold succeed
  split
  · exact ⟨_, rfl, hist_notify⟩
  · exact ⟨_, rfl, rfl⟩

theorem hist_record : ∃ tl : List (Happened V), (record i b s e).hist = s.hist ++ .on i e :: tl ∧
    (∀ x ∈ tl, x.isTold = true) ∧ (e.isLast = false → tl = []) := by
  have hon : (s.happens (.on i e)).hist = s.hist ++ [.on i e] := rfl
  unfold record
  dsimp only
  cases e with
  | copyOut | effect | unlock => exact ⟨[], rfl, by simp, fun _ => rfl⟩
  | pend | park => exact ⟨[], by simp only [hist_count, hon], by simp, fun _ => rfl⟩
  | reply q =>
    dsimp only
    split
    · exact ⟨[.notify q], by simp [hist_notify, hist_count, hon], by simp [Happened.isTold], by simp [Ev.isLast]⟩
    · exact ⟨[], by simp only [hist_count, hon], by simp, fun _ => rfl⟩
  | lock n q | fail q =>
    dsimp only
    split
    · obtain ⟨x, hx, heq⟩ := hist_succeed (s := s.happens _) (q := q)
      exact ⟨[x], by rw [heq, hon]; simp, by simpa using hx, by simp [Ev.isLast]⟩
    · exact ⟨[.notify q], by simp [hist_notify, hon], by simp [Happened.isTold], by simp [Ev.isLast]⟩

/-- Threads are told at the end. -/
theorem hist_records (he : ∀ e ∈ es.dropLast, e.isLast = false) :
    ∃ tl : List (Happened V), (s.records i b es).hist = s.hist ++ (es.map (.on i) ++ tl) ∧
      ∀ x ∈ tl, x.isTold = true := by
  induction es generalizing s with
  | nil => exact ⟨[], by simp [records], by simp⟩
  | cons e es ih =>
    obtain ⟨tl, hrec, htold, hnone⟩ := hist_record (s := s) (i := i) (b := b) (e := e)
    cases es with
    | nil => exact ⟨tl, hrec, htold⟩
    | cons e' es =>
      obtain rfl := hnone (he e (by simp))
      obtain ⟨tl', hrec', htold'⟩ := ih (s := record i b s e) fun x hx => he x (by simp [hx])
      refine ⟨tl', ?_, htold'⟩
      change ((record i b s e).records i b (e' :: es)).hist = _
      rw [hrec', hrec]
      simp

end Control

/-- A turn has one moment at most, and tells threads at its end. -/
theorem Desk.Work.moments {n : Place V} {cur : Data} {fresh lands : Prop} {d d' : Desk} {x : Act V}
    {es : List (Ev V)} (hw : Desk.Work n cur fresh lands d x es d') :
    (∀ e ∈ es.dropLast, e.isLast = false) ∧
      (es.filterMap Ev.point? = [] ∨ ∃ e p, e ∈ es ∧ e.point? = some p ∧ es.filterMap Ev.point? = [p]) := by
  cases hw with
  | hit q ptr data | effect q ptr => exact ⟨by simp, .inr ⟨_, _, List.mem_cons_self, rfl, rfl⟩⟩
  | rlock | wlock | fail | park | pend | unlock | drop | again | quiet => exact ⟨by simp, .inl rfl⟩
  | ends a es locks ha hl he =>
    cases he with
    | forwarded | failed | lock => exact ⟨by simp, .inl rfl⟩
    | read q | write q =>
      exact ⟨by simp [Ev.isLast], .inr ⟨_, _, List.mem_cons_self, rfl, rfl⟩⟩

namespace Layout

variable [DecidableEq V] {l : Layout V} {f : Slack} {mem : Nat → Data} {s s' : Sys V} {a : SysAct V}
  {q : Request} {i : Nat}

/-- How a step prolongs the history. -/
theorem Moved.hist (hm : l.Moved f mem s a s') :
    (∃ q, q.id = s.next ∧ s'.blk = s.blk ∧ s'.hist = s.hist ++ [.issue q]) ∨
    ∃ tl : List (Happened V), (∀ q, a ≠ .issue q) ∧ (∀ x ∈ tl, x.isTold = true) ∧
      ((s'.blk = s.blk ∧ s'.hist = s.hist ++ tl) ∨
      ∃ u i x es, l.Turn f mem s s' u i x es ∧ (∀ q ptr, x = .access (l.place u i) q ptr → l.target a s = some (i, x)) ∧
        s'.hist = s.hist ++ (es.map (.on i) ++ tl)) := by
  cases hm with
  | issue q hidle hid =>
    refine .inl ⟨q, hid, rfl, ?_⟩
    unfold Control.issue Control.countWrite
    split <;> rfl
  | finish v q hh =>
    have htake : (s.toControl.take v none).hist = s.hist := rfl
    right
    unfold Control.finish
    dsimp only
    split
    · obtain ⟨x, hx, heq⟩ := Control.hist_succeed (s := s.toControl.take v none) (q := q)
      exact ⟨[x], by simp, by simpa using hx, .inl ⟨rfl, heq⟩⟩
    · exact ⟨[], by simp, by simp, .inl ⟨rfl, by simp [htake]⟩⟩
  | serve v ptr q i is es s' hh ht hc =>
    obtain ⟨tl, hrec, htold⟩ := Control.hist_records (s := s.toControl) (i := i) (b := true)
      ht.work.moments.1
    refine .inr ⟨tl, by simp, htold, .inr ⟨v, i, _, es, ht, fun _ _ _ => ?_, hc.hist.trans hrec⟩⟩
    simp only [target, hh]
  | resume v i q s' hh hq ht hc =>
    refine .inr ⟨[], by simp, by simp, .inr ⟨v, i, _, [], ht, by rintro r p ⟨⟩, hc.hist.trans ?_⟩⟩
    unfold Control.resume
    rw [Control.hist_count]
    simp [Control.take]
  | unlock thread addr es s' hidle ht hc =>
    obtain ⟨tl, hrec, htold⟩ := Control.hist_records (s := s.toControl) (i := toBlock addr) (b := false)
      ht.work.moments.1
    exact .inr ⟨tl, by simp, htold, .inr ⟨_, _, _, es, ht, by rintro r p ⟨⟩, hc.hist.trans hrec⟩⟩
  | handler a u i x es s' ha hx hu ht hc =>
    obtain ⟨tl, hrec, htold⟩ := Control.hist_records (s := s.toControl) (i := i) (b := false)
      ht.work.moments.1
    refine .inr ⟨tl, ha, htold, .inr ⟨u, i, x, es, ht, ?_, hc.hist.trans hrec⟩⟩
    rintro r p rfl
    cases hx

/-! ## What the threads see -/

omit [DecidableEq V] in
theorem mem_marks_call {s : Control V} : .call q ∈ s.marks i ↔ q ∈ s.issued ∧ q.isAt i = true := by
  simp only [Control.marks, Control.issued, List.mem_filterMap]
  constructor
  · rintro ⟨x, hx, hq⟩
    cases x with
    | issue r =>
      obtain ⟨hat, rfl⟩ : r.isAt i = true ∧ r = q := by simpa [Happened.mark?] using hq
      exact ⟨⟨_, hx, rfl⟩, hat⟩
    | on j e =>
      simp only [Happened.mark?] at hq
      split at hq <;> simp at hq
    | notify r | returned r =>
      simp only [Happened.mark?] at hq
      split at hq <;> simp at hq
  · rintro ⟨⟨x, hx, hq⟩, hat⟩
    cases x with
    | issue r =>
      obtain rfl : r = q := by simpa [Happened.issued?] using hq
      exact ⟨_, hx, by simp [Happened.mark?, hat]⟩
    | _ => cases hq

omit [DecidableEq V] in
theorem tells_of_mem_ret {s : Control V} (h : .ret q ∈ s.marks i) :
    s.hist.countP (Happened.tells q.id) ≠ 0 := by
  obtain ⟨x, hx, hq⟩ := List.mem_filterMap.mp h
  refine (List.countP_pos_iff.mpr ⟨x, hx, ?_⟩).ne'
  cases x with
  | on j e =>
    simp only [Happened.mark?] at hq
    split at hq <;> simp at hq
  | issue r =>
    simp only [Happened.mark?] at hq
    split at hq <;> simp at hq
  | notify r | returned r =>
    obtain ⟨-, rfl⟩ : r.isAt i = true ∧ r = q := by simpa [Happened.mark?] using hq
    simp [Happened.tells]

/-- What the threads have seen of block `i`, which has the log of the moments. -/
structure Shown (mem : Nat → Data) (s : Sys V) (i : Nat) : Prop where
  atomic : Atomic (atomicBlock i) (mem i) (s.marks i)
  points : points (s.marks i) = (s.blk i).log.filterMap Ev.point?

omit [DecidableEq V] in
theorem run_eq_value {log : List (Ev V)} (hk : ∀ e ∈ log, e.Kind) (d : Data) :
    (atomicBlock i).run d (log.filterMap Ev.point?) = Block.value i d log := by
  induction log generalizing d with
  | nil => rfl
  | cons e log ih =>
    have ih := fun d => ih (fun e he => hk e (List.mem_cons_of_mem _ he)) d
    have he : e.Kind := hk e List.mem_cons_self
    cases e with
    | copyOut q data =>
      have hq : q.apply i d = d := by
        have hop : q.op = .read := he
        simp [Request.apply, hop]
      have hrun := ih (q.apply i d)
      rw [hq] at hrun
      change (atomicBlock i).run (q.apply i d) _ = Block.value i d log
      rw [hq]
      exact hrun
    | effect q => exact ih (q.apply i d)
    | _ => exact ih d

/-- Where a step serves a request, nothing has been told of it. -/
theorem Booked.not_told (hb : l.Booked s) (hm : l.Moved f mem s a s') (hq : q ∈ s.issued)
    (hl : q.op.isLock = false) (ha : ∀ r, a = .issue r → r.id ≠ q.id)
    (hserved : (l.account s' q).served i ≠ (l.account s q).served i) :
    s.hist.countP (Happened.tells q.id) = 0 := by
  obtain heq | ⟨-, hs⟩ := hm.advances hb.filed hl (.inl hq) ha
  · exact absurd (by rw [heq]) hserved
  · exact (hb.balanced q hq hl).told_eq_zero hs.not_closed

omit [DecidableEq V] in
theorem Ev.request_of_point {e : Ev V} {r : Option Data} (he : e.point? = some (q, r)) :
    e.request = some q ∧ e.serves q.id = true := by
  cases e with
  | copyOut x d | effect x =>
    obtain ⟨rfl, -⟩ : x = q ∧ _ := by simpa [Ev.point?] using he
    exact ⟨rfl, by simp [Ev.serves]⟩
  | _ => cases he

/-- What is told of a request has been served. -/
theorem Booked.point_of_told (hb : l.Booked s) (hl : s.Logged) (hq : q ∈ s.issued)
    (hat : q.isAt i = true) (ht : s.hist.countP (Happened.tells q.id) ≠ 0) :
    ∃ r, (q, r) ∈ (s.blk i).log.filterMap Ev.point? := by
  obtain ⟨hlock, hi⟩ : q.op.isLock = false ∧ i ∈ q.span := by simpa [Request.isAt] using hat
  obtain ⟨e, he, hserves⟩ :=
    List.countP_pos_iff.mp (((hb.balanced q hq hlock).of_told ht).2 i hi)
  cases e with
  | copyOut x d | effect x =>
    obtain rfl : x = q :=
      hb.filed.eq_of_id (hl.issued i _ he x rfl).1 hq (by simpa [Ev.serves] using hserves)
    exact ⟨_, List.mem_filterMap.mpr ⟨_, he, rfl⟩⟩
  | _ => cases hserves

omit [DecidableEq V] in
theorem marks_told {tl : List (Happened V)} (htl : ∀ x ∈ tl, x.isTold = true)
    {m : Mark Request (Option Data)} (hm : m ∈ tl.filterMap (Happened.mark? i)) :
    ∃ q, m = .ret q ∧ q.isAt i = true ∧ (.notify q ∈ tl ∨ .returned q ∈ tl) := by
  obtain ⟨x, hx, hxm⟩ := List.mem_filterMap.mp hm
  cases x with
  | issue | on => cases htl _ hx
  | notify q =>
    obtain ⟨hat, rfl⟩ : q.isAt i = true ∧ .ret q = m := by simpa [Happened.mark?] using hxm
    exact ⟨q, rfl, hat, .inl hx⟩
  | returned q =>
    obtain ⟨hat, rfl⟩ : q.isAt i = true ∧ .ret q = m := by simpa [Happened.mark?] using hxm
    exact ⟨q, rfl, hat, .inr hx⟩

/-- What is told at the end of a step is of requests that have been served. -/
theorem Shown.of_told (hb : l.Booked s) (hl : s.Logged) (ht : Told s)
    {M : List (Mark Request (Option Data))} (hM : Atomic (atomicBlock i) (mem i) M)
    (hpoints : Lib.points M = (s.blk i).log.filterMap Ev.point?) {hist tl : List (Happened V)}
    (hhist : s.hist = hist ++ tl) (htl : ∀ x ∈ tl, x.isTold = true)
    (hmarks : hist.filterMap (Happened.mark? i) = M) : Shown mem s i := by
  have hms : s.marks i = M ++ tl.filterMap (Happened.mark? i) := by
    rw [Control.marks, hhist, List.filterMap_append, hmarks]
  refine ⟨?_, ?_⟩
  · rw [hms]
    refine hM.rets fun m hm => ?_
    obtain ⟨q, rfl, hat, hq⟩ := marks_told htl hm
    have hq' : q ∈ s.issued := by
      rcases hq with hq | hq
      · exact ht.notified q (by rw [hhist]; exact List.mem_append_right _ hq)
      · exact (ht.returned q (by rw [hhist]; exact List.mem_append_right _ hq)).1
    have htold := tells_of_mem_ret (s := s.toControl) (hms ▸ List.mem_append_right M hm)
    obtain ⟨r, hr⟩ := hb.point_of_told hl hq' hat htold
    exact ⟨q, rfl, r, hpoints ▸ hr⟩
  · have hnone : Lib.points (tl.filterMap (Happened.mark? i)) = [] := by
      refine List.filterMap_eq_nil_iff.mpr fun m hm => ?_
      obtain ⟨q, rfl, -⟩ := marks_told htl hm
      rfl
    rw [hms, points_append, hpoints, hnone, List.append_nil]

omit [DecidableEq V] in
theorem marks_events (j : Nat) (es : List (Ev V)) :
    (es.map (Happened.on j)).filterMap (Happened.mark? i) =
      if j = i then (es.filterMap Ev.point?).map fun x => .point x.1 x.2 else [] := by
  split
  · rename_i hj
    rw [List.filterMap_map, List.map_filterMap]
    congr 1
    funext e
    simp [Happened.mark?, hj]
  · rename_i hj
    simp [Happened.mark?, hj]

/-- The moment of a turn is one at which the block may act for the request. -/
theorem Turn.atomic {u : V} {x : Act V} {es : List (Ev V)} (ht : l.Turn f mem s s' u i x es)
    (hm : l.Moved f mem s a s') (hf : f.stale = false) (hx : ¬ x.transientHit (s.blk i))
    (ha : ∀ q, a ≠ .issue q) (hiss : s'.issued = s.issued) (hb : l.Booked s) (hl : s'.Logged)
    (hw : l.WritesOnce s') (h : Shown mem s i) {e : Ev V} (he : e ∈ es) {r : Option Data}
    (hr : e.point? = some (q, r)) :
    Atomic (atomicBlock i) (mem i) (s.marks i ++ [.point q r]) := by
  have he' : e ∈ (s'.blk i).log := by
    rw [ht.log]
    exact List.mem_append_right _ he
  obtain ⟨hreq, hserves⟩ := Ev.request_of_point hr
  obtain ⟨hq', hi⟩ := hl.issued i e he' q hreq
  have hq : q ∈ s.issued := hiss ▸ hq'
  have hkind : e.Kind := hl.kind i e he'
  have hpos : 0 < es.countP (Ev.serves q.id) := List.countP_pos_iff.mpr ⟨e, he, hserves⟩
  have hlock : q.op.isLock = false := by
    cases e with
    | copyOut y d | effect y =>
      obtain ⟨rfl, -⟩ : y = q ∧ _ := by simpa [Ev.point?] using hr
      have hop := hkind
      simp only [Ev.Kind] at hop
      simp [hop, Op.isLock]
    | _ => cases hr
  have hrun : (atomicBlock i).run (mem i) (Lib.points (s.marks i)) =
      Block.value i (mem i) (s.blk i).log := by
    rw [h.points]
    refine run_eq_value (fun e he => hl.kind i e ?_) _
    rw [ht.log]
    exact List.mem_append_left _ he
  refine h.atomic.point (mem_marks_call.mpr ⟨hq, by simp [Request.isAt, hlock, hi]⟩) ?_ ?_ ?_
  · intro hret
    refine tells_of_mem_ret hret (hb.not_told (i := i) hm hq hlock (fun r hr => absurd hr (ha r)) ?_)
    rw [ht.served, Function.update_self]
    omega
  · rintro ⟨r', hr'⟩ d
    rw [h.points] at hr'
    obtain ⟨e', hmem, hp⟩ := List.mem_filterMap.mp hr'
    -- a second moment of a WRITE would be one too many
    change q.apply i d = d
    have hop : q.op ≠ .write := by
      intro hop
      have htotal := hw q hq' hop i hi
      have hone : 0 < (s.blk i).log.countP (Ev.serves q.id) :=
        List.countP_pos_iff.mpr ⟨e', hmem, (Ev.request_of_point hp).2⟩
      have hserved : (l.account s' q).served i = (s'.blk i).log.countP (Ev.serves q.id) := rfl
      rw [ht.log, List.countP_append] at hserved
      unfold Account.total at htotal
      omega
    unfold Request.apply
    cases hcase : q.op with
    | write => exact absurd hcase hop
    | _ => rfl
  · rw [hrun]
    cases e with
    | copyOut y d =>
      obtain ⟨rfl, rfl⟩ : y = q ∧ some d = r := by simpa [Ev.point?] using hr
      have hop : y.op = .read := hkind
      simp only [atomicBlock, hop, if_true, Option.some.injEq]
      exact ht.copyOut_eq hf hx he
    | effect y =>
      obtain ⟨rfl, rfl⟩ : y = q ∧ none = r := by simpa [Ev.point?] using hr
      have hop : y.op = .write := hkind
      simp [atomicBlock, hop]
    | _ => cases hr

theorem Moved.shown (hm : l.Moved f mem s a s') (hf : f.stale = false) (hnot : ¬ l.TransientHit a s)
    (hb : l.Booked s) (hb' : l.Booked s') (hl : s'.Logged) (hw : l.WritesOnce s') (ht : Told s')
    (h : ∀ i, Shown mem s i) (i : Nat) : Shown mem s' i := by
  obtain ⟨q, hid, hblk, hhist⟩ | ⟨tl, ha, htl, hcases⟩ := hm.hist
  · have hms : s'.marks i = s.marks i ++ if q.isAt i then [.call q] else [] := by
      rw [Control.marks, hhist, List.filterMap_append]
      congr 1
      split <;> simp_all [Happened.mark?]
    have hnew : q ∉ s.issued := fun hq => (hb.filed.below q hq).ne hid
    refine ⟨?_, ?_⟩
    · rw [hms]
      split
      · exact (h i).atomic.call fun hcall => hnew (mem_marks_call.mp hcall).1
      · rw [List.append_nil]
        exact (h i).atomic
    · rw [hms, points_append, (h i).points, hblk]
      split <;> simp [Lib.points, Mark.point?]
  · have hiss : s'.issued = s.issued := by
      obtain ⟨-, hfile⟩ | ⟨r, hr, -⟩ := hm.file
      · exact congrArg Prod.snd hfile
      · exact absurd hr (ha r)
    obtain ⟨hblk, hhist⟩ | ⟨u, j, x, es, hturn, hx, hhist⟩ := hcases
    · exact .of_told hb' hl ht (h i).atomic (by rw [(h i).points, hblk]) hhist htl rfl
    · rw [← List.append_assoc] at hhist
      have hmarks : (s.hist ++ es.map (Happened.on j)).filterMap (Happened.mark? i) =
          s.marks i ++ if j = i then (es.filterMap Ev.point?).map fun x => .point x.1 x.2 else [] := by
        rw [List.filterMap_append, marks_events]
        rfl
      refine .of_told hb' hl ht ?_ ?_ hhist htl hmarks
      · by_cases hj : j = i
        · subst hj
          have hhit : ¬ x.transientHit (s.blk j) := by
            intro hhit
            cases x with
            | access n r ptr =>
              obtain rfl : n = l.place u j := hturn.place
              exact hnot ⟨_, hx r ptr rfl, hhit⟩
            | _ => exact hhit
          rw [if_pos rfl]
          obtain hnil | ⟨e, p, he, hp, hone⟩ := hturn.work.moments.2
          · rw [hnil, List.map_nil, List.append_nil]
            exact (h j).atomic
          · rw [hone]
            exact hturn.atomic hm hf hhit ha hiss hb hl hw (h j) he hp
        · rw [if_neg hj, List.append_nil]
          exact (h i).atomic
      · rw [points_append, (h i).points]
        by_cases hj : j = i
        · subst hj
          rw [if_pos rfl, hturn.log, List.filterMap_append]
          congr 1
          simp [Lib.points, List.filterMap_map, Function.comp_def, Mark.point?]
        · rw [if_neg hj, hturn.others i (Ne.symm hj)]
          simp [Lib.points]

/-- RLOCKs find room, no try-lock is issued, no WRITE is parked late, and no READ is served from a
line in transition. -/
def Steady (l : Layout V) (a : SysAct V) (s : Sys V) : Prop :=
  l.Blocking a s ∧ l.NotLate a s ∧ ¬ l.TransientHit a s

instance (a : Act V) (b : Block V) : Decidable (a.transientHit b) :=
  match a with
  | .access (some w) q _ => inferInstanceAs
      (Decidable (q.op = .read ∧ ∃ l ∈ (b.cacher w).line, l.state.inTransition = true))
  | .access none _ _ | .unlock .. | .replay _ | .drop _ | .evict _ | .complete _ | .recvHome _
  | .recv _ | .recvPeer .. => isFalse id

instance (l : Layout V) (a : SysAct V) (s : Sys V) : Decidable (l.TransientHit a s) :=
  inferInstanceAs (Decidable (∃ x ∈ l.target a s, x.2.transientHit (s.blk x.1)))

instance (l : Layout V) (a : SysAct V) (s : Sys V) : Decidable (l.Steady a s) :=
  inferInstanceAs (Decidable (_ ∧ _))

theorem shown_of_reaches (h : Reaches l.step l.Steady (Sys.init mem) s) (i : Nat) :
    Shown mem s i := by
  have hroom : ∀ a t, l.Steady a t → l.Room a t := fun _ _ h => h.1.1
  refine Reaches.invariant_along (I := fun t => ∀ i, Shown mem t i) (fun i => ?_) ?_ h i
  · exact ⟨by simpa [Control.marks, Sys.init] using Atomic.start,
      by simp [Control.marks, Sys.init, Lib.points, Block.init]⟩
  · intro a t t' hr hshown ha hs i
    have hr' := hr.tail ha hs
    exact Moved.shown (step_moved (good_of_blocking (hr.mono fun _ _ h => h.1)) hs) rfl ha.2.2
      (booked_of_reaches hroom hr) (booked_of_reaches hroom hr') (logged_of_reaches hroom hr')
      (writesOnce_of_reaches hroom (fun _ _ _ h => h.2.1) hr') (told_of_reaches hroom hr') hshown i

/-- The READs and WRITEs of every block are linearizable. -/
theorem linearizable_of_reaches (h : Reaches l.step l.Steady (Sys.init mem) s) (i : Nat) :
    ∃ S, Linearizes (atomicBlock i) (mem i) (s.marks i) S :=
  (shown_of_reaches h i).atomic.linearizable

/-- The home READs what a remote WRITE has left. -/
theorem linearizable_readBack : ∃ s, Reaches twoWorkers.step twoWorkers.Steady
      (Sys.init fun _ _ => 0) s ∧ (s.marks 0).length = 6 ∧
    ∃ S, Linearizes (atomicBlock 0) (fun _ => 0) (s.marks 0) S := by
  obtain ⟨s, hr, hlen⟩ := Reaches.exists_of_runs twoWorkers.step twoWorkers.Steady
    (readBack ++ [.recvHome true 0]) (Sys.init fun _ _ => 0) (fun s => (s.marks 0).length = 6)
    (by decide)
  exact ⟨s, hr, hlen, linearizable_of_reaches hr 0⟩

/-! ## Behind a fence -/

theorem Moved.hist_isPrefix (hm : l.Moved f mem s a s') : s.hist <+: s'.hist := by
  obtain ⟨q, -, -, hhist⟩ | ⟨tl, -, -, ⟨-, hhist⟩ | ⟨u, j, x, es, -, -, hhist⟩⟩ := hm.hist
  all_goals
    rw [hhist]
    exact List.prefix_append _ _

/-- Where a fence finds `pending_writes` at zero, the asynchronous WRITEs of its thread are done. -/
theorem told_of_pendingWrites {t : Nat} (h : Reaches l.step l.Room (Sys.init mem) s)
    (h0 : s.pendingWrites t = 0) (hq : q ∈ s.issued) (hw : q.isWriteOf t = true) :
    s.hist.countP (Happened.tells q.id) ≠ 0 := by
  have hb := booked_of_reaches (fun _ _ h => h) h
  have ht := told_of_reaches (fun _ _ h => h) h
  have hcount := countP_notifiesWrite hb.filed.nodup t ht.notified fun r hr hw => by
    have hop : r.op.isLock = false := by
      cases hop : r.op <;> simp_all [Request.isWriteOf, Request.isAsync, Op.isLock]
    have := (hb.completesOnce ht hr hop).once
    omega
  have hwrites := ht.writes t
  have hnone : (s.issued.countP fun q =>
      q.isWriteOf t && s.hist.countP (Happened.notifies q.id) == 0) = 0 := by
    omega
  rw [countP_tells]
  intro hzero
  have hn : s.hist.countP (Happened.notifies q.id) = 0 := by omega
  exact List.countP_eq_zero.mp hnone q hq (by simp [hw, hn])

/-- A remote asynchronous WRITE of 7, up to where it is notified. -/
def writeBehind : List (SysAct Bool) :=
  [.issue { id := 0, thread := 1, op := .write, addr := 0, size := 1, async := true,
             ptr := fun _ => 7 },
    .serve true 0, .finish true, .recvHome true 0, .recv true 0, .recv true 0, .replay true]

/-- The home's READ that follows, up to the answer. -/
def readBehind : List (SysAct Bool) :=
  [.issue { id := 1, thread := 0, op := .read, addr := 0, size := 1 }, .serve false 0, .finish false,
    .recv true 0]

end Layout

end HwGam.Coherence
