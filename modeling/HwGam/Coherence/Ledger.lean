import HwGam.Coherence.Moves
import HwGam.Lib.Account

/-!
# The account of a request

What the workers have of a READ or WRITE, all its blocks together, is an account as in
`Lib.Account`, and a step of the whole memory is a step of the account or does not touch it.
-/

namespace HwGam.Coherence

open Lib

variable {V : Type*}

/-- The request an event is about. -/
def Ev.request : Ev V → Option Request
  | .copyOut q _ | .effect q | .pend q | .park q | .reply q | .lock _ q | .fail q => some q
  | .unlock .. => none

/-- The request with id `k` gets or writes its bytes of the block. -/
def Ev.serves (k : Nat) : Ev V → Bool
  | .copyOut q _ | .effect q => q.id == k
  | _ => false

/-- The thread of the request with id `k` is told that it is done. -/
def Happened.tells (k : Nat) : Happened V → Bool
  | .notify q | .returned q => q.id == k
  | _ => false

/-- The call of the request with id `k` returns SUCCESS. -/
def Happened.returns (k : Nat) : Happened V → Bool
  | .returned q => q.id == k
  | _ => false

/-- A block of the request with id `k` has to wait, or parks it. -/
def Happened.opens (k : Nat) : Happened V → Bool
  | .on _ (.pend q) | .on _ (.park q) => q.id == k
  | _ => false

def Happened.issued? : Happened V → Option Request
  | .issue q => some q
  | _ => none

/-- The requests past their fence, in order. -/
def Control.issued (s : Control V) : List Request := s.hist.filterMap Happened.issued?

/-- The number of pending requests for the request with id `k`. -/
def Desk.waits (d : Desk) (k : Nat) : Nat := d.pend.elim 0 fun x => if x.2.id = k then 1 else 0

/-- How often the request with id `k` is in `to_serve_local_requests`, or about to be replayed. -/
def Desk.parked (d : Desk) (k : Nat) : Nat := (d.locals ++ d.agenda).countP (·.id == k)

/-- The desk of the request's worker at block `i`. -/
def Layout.deskOf [DecidableEq V] (l : Layout V) (s : Sys V) (q : Request) (i : Nat) : Desk :=
  (s.blk i).desk (l.place (l.worker q.thread) i)

/-- What the control has of one request. -/
structure Slip where
  counter : Int
  told : Nat
  opened : Nat
  toServe : Bool
  returned : Nat

def Control.slip (s : Control V) (k : Nat) : Slip where
  counter := s.counter k
  told := s.hist.countP (Happened.tells k)
  opened := s.hist.countP (Happened.opens k)
  toServe := s.toServe k
  returned := s.hist.countP (Happened.returns k)

def Layout.account [DecidableEq V] (l : Layout V) (s : Sys V) (q : Request) : Account Nat where
  hand := (s.hand (l.worker q.thread)).bind fun x => if x.1.id = q.id then some x.2 else none
  waits i := (l.deskOf s q i).waits q.id
  parked i := (l.deskOf s q i).parked q.id
  served i := (s.blk i).log.countP (Ev.serves q.id)
  counter := (s.slip q.id).counter
  told := (s.slip q.id).told
  opened := (s.slip q.id).opened
  again := (s.slip q.id).toServe
  returned := (s.slip q.id).returned

/-! ## What a turn does to other requests -/

section
variable {n : Place V} {cur : Data} {fresh lands : Prop} {d d' : Desk} {x : Act V}
  {es : List (Ev V)} {k : Nat}

/-- The events are about other requests. -/
def Others (k : Nat) (es : List (Ev V)) : Prop := ∀ e ∈ es, ∀ r ∈ e.request, r.id ≠ k

@[simp] theorem Desk.waits_serve : d.serve.waits k = d.waits k := rfl

@[simp] theorem Desk.parked_serve : d.serve.parked k = d.parked k := by
  simp [Desk.serve, Desk.parked]

theorem Others.head {e : Ev V} {es : List (Ev V)} {q : Request} (h : Others k (e :: es))
    (hq : e.request = some q) : q.id ≠ k :=
  h e List.mem_cons_self q hq

theorem Desk.waits_of_ne {b : Bool} {q : Request} (h : d.pend = some (b, q)) (hq : q.id ≠ k) :
    d.waits k = 0 := by
  simp [Desk.waits, h, hq]

theorem Desk.waits_of_pend {b : Bool} {q : Request} (h : d.pend = some (b, q)) :
    d.waits q.id = 1 := by
  simp [Desk.waits, h]

theorem Desk.waits_of_none (h : d.pend = none) : d.waits k = 0 := by
  simp [Desk.waits, h]

theorem Desk.parked_park {q : Request} (locks : Nat → Nat) (pend : Option (Bool × Request)) :
    Desk.parked ⟨pend, d.locals ++ [q], d.agenda, locks⟩ k =
      d.parked k + if q.id = k then 1 else 0 := by
  simp only [Desk.parked, List.countP_append, List.countP_singleton, beq_iff_eq]
  omega

theorem Desk.Work.others (hw : Desk.Work n cur fresh lands d x es d') (hx : x ≠ .drop n)
    (hk : Others k es) : d'.waits k = d.waits k ∧ d'.parked k = d.parked k := by
  cases hw with
  | hit | effect | rlock | wlock | fail | quiet => exact ⟨rfl, rfl⟩
  | park q =>
    refine ⟨rfl, ?_⟩
    rw [Desk.parked_park, if_neg (hk.head rfl), Nat.add_zero]
  | pend q ptr hp =>
    refine ⟨?_, rfl⟩
    rw [Desk.waits_of_none hp, Desk.waits_of_ne rfl (hk.head rfl)]
  | unlock => exact ⟨rfl, Desk.parked_serve⟩
  | drop => exact absurd rfl hx
  | ends a es locks ha hl he =>
    refine ⟨?_, Desk.parked_serve⟩
    have h0 : d.waits k = 0 := by
      cases he with
      | forwarded hp => exact Desk.waits_of_none hp
      | failed b q hp | read q hp | write q hp | lock b q hp =>
        exact Desk.waits_of_ne hp (hk.head rfl)
    rw [h0]
    rfl
  | again a q ha hl hp =>
    refine ⟨?_, ?_⟩
    · rw [Desk.waits_of_ne hp (hk.head rfl)]
      rfl
    · rw [Desk.parked_serve, Desk.parked_park, if_neg (hk.head rfl), Nat.add_zero]

/-- A request in hand is served, out for the block, or parked on it. -/
theorem Desk.Work.access_cases {q : Request} {ptr : Ptr}
    (hw : Desk.Work n cur fresh lands d (.access n q ptr) es d') (hl : q.op.isLock = false) :
    (∃ e, es = [e] ∧ e.serves q.id = true ∧ d' = d) ∨
    (es = [.pend q] ∧ d.pend = none ∧ d' = { d with pend := some (q.op.writes, q) }) ∨
    (es = [.park q] ∧ d' = { d with locals := d.locals ++ [q] }) := by
  cases hw with
  | hit q ptr data => exact .inl ⟨_, rfl, by simp [Ev.serves], rfl⟩
  | effect => exact .inl ⟨_, rfl, by simp [Ev.serves], rfl⟩
  | rlock q ptr hq => cases hop : q.op <;> simp_all [Op.isLock, Op.isRLock]
  | wlock q ptr hq => simp [hl] at hq
  | fail q ptr hq => cases hop : q.op <;> simp_all [Op.isLock, Op.isTry]
  | park => exact .inr (.inr ⟨rfl, rfl⟩)
  | pend q ptr hp => exact .inr (.inl ⟨rfl, hp, rfl⟩)
  | ends _ _ _ ha | again _ _ ha | quiet _ ha => cases ha

theorem Desk.Work.access_others {q : Request} {ptr : Ptr}
    (hw : Desk.Work n cur fresh lands d (.access n q ptr) es d') (hk : q.id ≠ k) : Others k es := by
  cases hw with
  | hit | effect | rlock | wlock | fail | park | pend => simpa [Others, Ev.request] using hk
  | ends _ _ _ ha | again _ _ ha | quiet _ ha => cases ha

theorem Desk.Work.drop_desk {q : Request} {rest : List Request}
    (hw : Desk.Work n cur fresh lands d (.drop n) es d') (ha : d.agenda = q :: rest) :
    d' = { d with agenda := rest } := by
  cases hw with
  | drop r rest' ha' =>
    obtain ⟨-, rfl⟩ : q = r ∧ rest = rest' := by simpa using ha.symm.trans ha'
    rfl
  | ends _ _ _ ha | again _ _ ha | quiet _ ha => cases ha

theorem Desk.Work.unlock_events {thread addr : Nat}
    (hw : Desk.Work n cur fresh lands d (.unlock n thread addr) es d') :
    es = [.unlock n thread addr] := by
  cases hw with
  | unlock => rfl
  | ends _ _ _ ha | again _ _ ha | quiet _ ha => cases ha

/-- A handler is about the request that waits at the desk, if about any. -/
theorem Desk.Work.handler_cases (hw : Desk.Work n cur fresh lands d x es d')
    (hx : x.isHandler = true) (k : Nat) : Others k es ∨
      ∃ b q, d.pend = some (b, q) ∧ q.id = k ∧ (q.op.isLock = true ∨
        ∃ e, e.serves k = true ∧ es = [e, .reply q] ∧ d' = { d with pend := none }.serve) := by
  cases hw with
  | hit | effect | rlock | wlock | fail | park | pend | unlock | drop => cases hx
  | ends a es locks ha hl he =>
    cases he with
    | forwarded => exact .inl (by simp [Others])
    | failed b q hp ht =>
      by_cases hk : q.id = k
      · refine .inr ⟨b, q, hp, hk, .inl ?_⟩
        cases hop : q.op <;> simp_all [Op.isLock, Op.isTry]
      · exact .inl (by simpa [Others, Ev.request] using hk)
    | read q hp | write q hp =>
      by_cases hk : q.id = k
      · exact .inr ⟨_, q, hp, hk, .inr ⟨_, by simpa [Ev.serves] using hk, rfl, rfl⟩⟩
      · exact .inl (by simpa [Others, Ev.request] using hk)
    | lock b q hp hq =>
      by_cases hk : q.id = k
      · exact .inr ⟨b, q, hp, hk, .inl hq⟩
      · exact .inl (by simpa [Others, Ev.request] using hk)
  | again a q ha hl hp hq =>
    by_cases hk : q.id = k
    · exact .inr ⟨_, q, hp, hk, .inl hq⟩
    · exact .inl (by simpa [Others, Ev.request] using hk)
  | quiet => exact .inl (by simp [Others])

theorem Others.serves (hk : Others k es) : es.countP (Ev.serves k) = 0 := by
  rw [List.countP_eq_zero]
  intro e he
  cases e with
  | copyOut q | effect q => simpa [Ev.serves] using hk _ he q rfl
  | _ => simp [Ev.serves]

end

namespace Control

variable (s : Control V) {q : Request} {i k : Nat} {e : Ev V} {b : Bool}

theorem slip_happens {x : Happened V} (ht : x.tells k = false) (ho : x.opens k = false)
    (hr : x.returns k = false) : (s.happens x).slip k = s.slip k := by
  simp [slip, happens, ht, ho, hr]

theorem slip_count_of_ne {n : Int} (hk : q.id ≠ k) : (s.count q n).slip k = s.slip k := by
  unfold count
  split
  · rfl
  · simp [slip, Function.update_of_ne (Ne.symm hk)]

theorem slip_count {n : Int} (hq : q.op.isLock = false) :
    (s.count q n).slip q.id = { s.slip q.id with counter := s.counter q.id + n } := by
  simp [count, slip, hq]

@[simp] theorem slip_countWrite {n : Int} : (s.countWrite q n).slip k = s.slip k := by
  unfold countWrite
  split <;> rfl

theorem slip_notify_of_ne (hk : q.id ≠ k) : (s.notify q).slip k = s.slip k := by
  unfold notify
  rw [slip_happens _ (by simpa [Happened.tells] using hk) rfl rfl, slip_countWrite]

theorem slip_notify :
    (s.notify q).slip q.id = { s.slip q.id with told := (s.slip q.id).told + 1 } := by
  unfold notify countWrite
  split <;> simp [slip, happens, Happened.tells, Happened.opens, Happened.returns]

theorem slip_succeed_of_ne (hk : q.id ≠ k) : (s.succeed q).slip k = s.slip k := by
  unfold succeed
  split
  · exact slip_notify_of_ne s hk
  · exact slip_happens s (by simpa [Happened.tells] using hk) rfl
      (by simpa [Happened.returns] using hk)

/-- The thread is notified, or on the first try its call returns. -/
theorem slip_succeed :
    (s.succeed q).slip q.id = { s.slip q.id with told := (s.slip q.id).told + 1 } ∨
    (s.toServe q.id = false ∧ (s.succeed q).slip q.id = { s.slip q.id with
      told := (s.slip q.id).told + 1, returned := (s.slip q.id).returned + 1 }) := by
  unfold succeed
  split
  · exact .inl (slip_notify s)
  · rename_i h
    refine .inr ⟨by simp_all, ?_⟩
    simp [slip, happens, Happened.tells, Happened.opens, Happened.returns]

theorem slip_on (he : ∀ r, e = .pend r ∨ e = .park r → r.id ≠ k) :
    (s.happens (.on i e)).slip k = s.slip k := by
  refine slip_happens s rfl ?_ rfl
  cases e with
  | pend r => simpa [Happened.opens] using he r (.inl rfl)
  | park r => simpa [Happened.opens] using he r (.inr rfl)
  | _ => rfl

theorem slip_record_others (hk : ∀ r ∈ e.request, r.id ≠ k) : (record i b s e).slip k = s.slip k := by
  have hon : (s.happens (.on i e)).slip k = s.slip k := by
    refine slip_on s ?_
    rintro r (rfl | rfl)
    · exact hk r rfl
    · exact hk r rfl
  unfold record
  dsimp only
  cases e with
  | copyOut | effect | unlock => exact hon
  | pend q | park q => rw [slip_count_of_ne _ (hk q rfl), hon]
  | reply q =>
    dsimp only
    split
    · rw [slip_notify_of_ne _ (hk q rfl), slip_count_of_ne _ (hk q rfl), hon]
    · rw [slip_count_of_ne _ (hk q rfl), hon]
  | lock n q | fail q =>
    dsimp only
    split
    · rw [slip_succeed_of_ne _ (hk q rfl), hon]
    · rw [slip_notify_of_ne _ (hk q rfl), hon]

theorem slip_records_others {es : List (Ev V)} (hk : Others k es) :
    (s.records i b es).slip k = s.slip k := by
  unfold records
  induction es generalizing s with
  | nil => rfl
  | cons e es ih =>
    rw [List.foldl_cons, ih _ fun e he => hk e (List.mem_cons_of_mem _ he)]
    exact slip_record_others s (hk e List.mem_cons_self)

theorem slip_records_serves (he : e.serves k = true) : (s.records i b [e]).slip k = s.slip k := by
  cases e with
  | copyOut | effect =>
    refine slip_on s ?_
    rintro r (h | h) <;> cases h
  | _ => cases he

/-- A block of the request is out, or the request is parked. -/
theorem slip_records_open (hq : q.op.isLock = false) (he : e = .pend q ∨ e = .park q) :
    (s.records i b [e]).slip q.id = { s.slip q.id with
      counter := s.counter q.id + 1, opened := (s.slip q.id).opened + 1 } := by
  have hon : (s.happens (.on i e)).slip q.id =
      { s.slip q.id with opened := (s.slip q.id).opened + 1 } := by
    obtain rfl | rfl := he <;>
      simp [slip, happens, Happened.tells, Happened.opens, Happened.returns]
  obtain rfl | rfl := he
  · exact (slip_count _ hq).trans (by rw [hon]; rfl)
  · exact (slip_count _ hq).trans (by rw [hon]; rfl)

/-- The answer for a block comes; the last one ends the request. -/
theorem slip_records_reply (hq : q.op.isLock = false) (he : e.serves q.id = true) :
    (s.records i b [e, .reply q]).slip q.id = { s.slip q.id with
      counter := s.counter q.id - 1
      told := if s.counter q.id - 1 = 0 then (s.slip q.id).told + 1 else (s.slip q.id).told } := by
  have hs := s.slip_records_serves (i := i) (b := b) he
  change (record i b (s.records i b [e]) (.reply q)).slip q.id = _
  generalize s.records i b [e] = t at hs
  have hcounter : t.counter q.id = s.counter q.id := congrArg Slip.counter hs
  have hcount : ((t.happens (.on i (.reply q : Ev V))).count q (-1)).slip q.id =
      { s.slip q.id with counter := s.counter q.id - 1 } := by
    rw [slip_count _ hq, slip_on t (by rintro r (h | h) <;> cases h), hs, ← hcounter]
    rfl
  have hc : ((t.happens (.on i (.reply q : Ev V))).count q (-1)).counter q.id =
      s.counter q.id - 1 := congrArg Slip.counter hcount
  unfold record
  dsimp only
  rw [hc]
  split
  · rw [slip_notify, hcount]
  · exact hcount

section
variable [DecidableEq V] (v : V)

theorem slip_finish_of_ne (hk : q.id ≠ k) : (s.finish v q).slip k = s.slip k := by
  unfold finish
  dsimp only
  split
  · rw [slip_succeed_of_ne _ hk]
    rfl
  · rfl

/-- The loop ends: the thread is told if nothing is left. -/
theorem slip_finish (hq : q.op.isLock = false) :
    (s.counter q.id ≠ 0 ∧ (s.finish v q).slip q.id = s.slip q.id) ∨
    (s.counter q.id = 0 ∧
      (s.finish v q).slip q.id = { s.slip q.id with told := (s.slip q.id).told + 1 }) ∨
    (s.counter q.id = 0 ∧ s.toServe q.id = false ∧ (s.finish v q).slip q.id = { s.slip q.id with
      told := (s.slip q.id).told + 1, returned := (s.slip q.id).returned + 1 }) := by
  unfold finish
  dsimp only
  split
  · rename_i h
    have hc : s.counter q.id = 0 := of_decide_eq_true ((Bool.and_eq_true _ _).mp h).2
    obtain hs | ⟨ht, hs⟩ := (s.take v none).slip_succeed (q := q)
    · exact .inr (.inl ⟨hc, hs⟩)
    · exact .inr (.inr ⟨hc, ht, hs⟩)
  · rename_i h
    refine .inl ⟨fun hc => h ?_, rfl⟩
    rw [Bool.and_eq_true]
    exact ⟨by simp [hq], decide_eq_true hc⟩

theorem slip_issue : (s.issue v q).slip k = s.slip k := by
  unfold issue
  rw [slip_happens _ rfl rfl rfl, slip_countWrite]
  rfl

theorem slip_resume_of_ne (hk : q.id ≠ k) : (s.resume v q).slip k = s.slip k := by
  unfold resume
  rw [slip_count_of_ne _ hk]
  simp [slip, take, Function.update_of_ne (Ne.symm hk)]

theorem slip_resume (hq : q.op.isLock = false) : (s.resume v q).slip q.id = { s.slip q.id with
    counter := s.counter q.id - 1, toServe := true } := by
  unfold resume
  rw [slip_count _ hq]
  simp [slip, take]
  rfl

end

@[simp] theorem hand_issue [DecidableEq V] (v : V) :
    (s.issue v q).hand = Function.update s.hand v (some (q, q.span)) := by
  simp [issue, happens, take]

/-- The id of the next request and the requests so far. -/
def file (s : Control V) : Nat × List Request := (s.next, s.issued)

theorem file_happens {x : Happened V} (hx : x.issued? = none) : (s.happens x).file = s.file := by
  simp [file, issued, happens, List.filterMap_append, hx]

@[simp] theorem file_count {n : Int} : (s.count q n).file = s.file := by
  unfold count
  split <;> rfl

@[simp] theorem file_notify : (s.notify q).file = s.file := by
  unfold notify countWrite
  rw [file_happens _ rfl]
  split <;> rfl

@[simp] theorem file_succeed : (s.succeed q).file = s.file := by
  unfold succeed
  split
  · exact file_notify s
  · exact file_happens s rfl

@[simp] theorem file_record : (record i b s e).file = s.file := by
  have hon := s.file_happens (x := .on i e) rfl
  unfold record
  cases e <;> dsimp only <;> (try split) <;> simp [hon]

@[simp] theorem file_records {es : List (Ev V)} : (s.records i b es).file = s.file := by
  unfold records
  induction es generalizing s with
  | nil => rfl
  | cons e es ih => rw [List.foldl_cons, ih, file_record]

end Control

theorem Control.Like.slip {c c' : Control V} (h : c.Like c') (k : Nat) : c'.slip k = c.slip k := by
  unfold Control.slip
  rw [h.counter, h.toServe, h.hist]

theorem Control.Like.file {c c' : Control V} (h : c.Like c') : c'.file = c.file := by
  unfold Control.file Control.issued
  rw [h.next, h.hist]

theorem Request.nodup_span (q : Request) : q.span.Nodup := by
  unfold Request.span
  split
  · exact List.nodup_singleton _
  · exact List.nodup_range'

namespace Layout

variable [DecidableEq V] {l : Layout V} {f : Slack} {mem : Nat → Data} {s s' : Sys V} {a : SysAct V}
  {q : Request}

/-- Only an issue files a request, under the next id. -/
theorem Moved.file (hm : l.Moved f mem s a s') :
    ((∀ q, a ≠ .issue q) ∧ s'.toControl.file = s.toControl.file) ∨
    ∃ q, a = .issue q ∧ q.id = s.next ∧ s'.toControl.file = (s.next + 1, s.issued ++ [q]) := by
  cases hm with
  | issue q hidle hid =>
    refine .inr ⟨q, rfl, hid, ?_⟩
    unfold Control.issue Control.countWrite
    split <;> simp [Control.file, Control.issued, Control.happens, Control.take, Happened.issued?]
  | finish v q hh =>
    refine .inl ⟨by rintro q ⟨⟩, ?_⟩
    unfold Control.finish
    dsimp only
    split
    · rw [Control.file_succeed]
      rfl
    · rfl
  | serve v ptr q i is es s' hh ht hc =>
    refine .inl ⟨by rintro q ⟨⟩, ?_⟩
    rw [hc.file]
    exact Control.file_records _
  | resume v i q s' hh hq ht hc =>
    refine .inl ⟨by rintro q ⟨⟩, ?_⟩
    rw [hc.file, Control.resume, Control.file_count]
    rfl
  | unlock thread addr es s' hidle ht hc =>
    exact .inl ⟨by rintro q ⟨⟩, hc.file.trans (Control.file_records _)⟩
  | handler a u i x es s' ha hx hu ht hc => exact .inl ⟨ha, hc.file.trans (Control.file_records _)⟩

/-- Every request the workers have is filed once, and they have it where it belongs. -/
structure Filed (l : Layout V) (s : Sys V) : Prop where
  known : s.Known (fun v q is => q ∈ s.issued ∧ v = l.worker q.thread ∧ ∀ i ∈ is, i ∈ q.span)
    (fun i n q => q ∈ s.issued ∧ n = l.place (l.worker q.thread) i ∧ i ∈ q.span)
  below : ∀ q ∈ s.issued, q.id < s.next
  nodup : (s.issued.map Request.id).Nodup

theorem place_inj {u v : V} {i : Nat} (h : l.place u i = l.place v i) : u = v := by
  unfold place at h
  split at h <;> split at h
  · rename_i hu hv
    rw [hu, hv]
  · cases h
  · cases h
  · exact Option.some.inj h

theorem Filed.init (l : Layout V) (mem : Nat → Data) : l.Filed (Sys.init mem) :=
  ⟨.init mem, by simp [Sys.init, Control.issued], by simp [Sys.init, Control.issued]⟩

theorem Filed.eq_of_id (h : l.Filed s) {r : Request} (hq : q ∈ s.issued) (hr : r ∈ s.issued)
    (hid : q.id = r.id) : q = r :=
  List.inj_on_of_nodup_map h.nodup hq hr hid

theorem Moved.filed (hm : l.Moved f mem s a s') (h : l.Filed s) : l.Filed s' := by
  have hcar (t : List Request) : l.Carries
      (fun v q is => q ∈ t ∧ v = l.worker q.thread ∧ ∀ i ∈ is, i ∈ q.span)
      (fun i n q => q ∈ t ∧ n = l.place (l.worker q.thread) i ∧ i ∈ q.span) := by
    constructor
    · exact fun v q i is hq => ⟨hq.1, hq.2.1, fun j hj => hq.2.2 j (List.mem_cons_of_mem _ hj)⟩
    · exact fun v q i is hq => ⟨hq.1, by rw [hq.2.1], hq.2.2 i List.mem_cons_self⟩
    · exact fun v q i hq => ⟨hq.1, place_inj hq.2.1, fun j hj => hj⟩
  have hmono {t : List Request} (ht : ∀ q ∈ s.issued, q ∈ t) : s.Known
      (fun v q is => q ∈ t ∧ v = l.worker q.thread ∧ ∀ i ∈ is, i ∈ q.span)
      (fun i n q => q ∈ t ∧ n = l.place (l.worker q.thread) i ∧ i ∈ q.span) :=
    ⟨fun v q is hq => (h.known.hand v q is hq).imp_left (ht q),
      fun i n => (h.known.desk i n).mono fun q hq => hq.imp_left (ht q)⟩
  obtain ⟨ha, hfile⟩ | ⟨q, rfl, hid, hfile⟩ := hm.file
  · obtain ⟨hnext, hiss⟩ : s'.next = s.next ∧ s'.issued = s.issued := Prod.ext_iff.mp hfile
    refine ⟨?_, by rw [hiss, hnext]; exact h.below, by rw [hiss]; exact h.nodup⟩
    rw [hiss]
    exact hm.known (hcar _) h.known fun q hq => absurd hq (ha q)
  · obtain ⟨hnext, hiss⟩ : s'.next = s.next + 1 ∧ s'.issued = s.issued ++ [q] :=
      Prod.ext_iff.mp hfile
    refine ⟨?_, fun r hr => ?_, ?_⟩
    · rw [hiss]
      refine hm.known (hcar _) (hmono fun r hr => List.mem_append_left _ hr) ?_
      rintro r hr
      obtain rfl : q = r := by simpa using hr
      exact ⟨by simp, rfl, fun i hi => hi⟩
    · rw [hiss] at hr
      rw [hnext]
      rcases List.mem_append.mp hr with hr | hr
      · exact Nat.lt_succ_of_lt (h.below r hr)
      · obtain rfl := List.mem_singleton.mp hr
        omega
    · rw [hiss, List.map_append, List.map_singleton, List.nodup_append]
      refine ⟨h.nodup, List.nodup_singleton _, fun k hk k' hk' => ?_⟩
      obtain ⟨r, hr, rfl⟩ := List.mem_map.mp hk
      have := h.below r hr
      rw [List.mem_singleton.mp hk', hid]
      omega

/-! ## The account along a step -/

theorem account_eq {hand : Option (List Nat)} {waits parked served : Nat → Nat} {x : Slip}
    (hh : (l.account s q).hand = hand) (hw : (l.account s q).waits = waits)
    (hp : (l.account s q).parked = parked) (hs : (l.account s q).served = served)
    (hsl : s.slip q.id = x) : l.account s q = ⟨hand, waits, parked, served, x.counter, x.told,
      x.opened, x.toServe, x.returned⟩ := by
  subst hh hw hp hs hsl
  rfl

section
variable {u : V} {i : Nat} {x : Act V} {es : List (Ev V)}

theorem Turn.served (ht : l.Turn f mem s s' u i x es) : (l.account s' q).served =
    Function.update (l.account s q).served i
      ((l.account s q).served i + es.countP (Ev.serves q.id)) := by
  funext j
  by_cases hj : j = i
  · subst hj
    simp [account, ht.log, List.countP_append]
  · simp [account, hj, ht.others j hj]

theorem Turn.deskOf (ht : l.Turn f mem s s' u i x es) (hu : u = l.worker q.thread) :
    l.deskOf s' q = Function.update (l.deskOf s q) i ((s'.blk i).desk (l.place u i)) := by
  subst hu
  funext j
  by_cases hj : j = i
  · subst hj
    simp [Layout.deskOf]
  · simp [Layout.deskOf, hj, ht.others j hj]

/-- What a turn of the request's own worker does to the desk shows in its account. -/
theorem Turn.waits (ht : l.Turn f mem s s' u i x es) (hu : u = l.worker q.thread) :
    (l.account s' q).waits = Function.update (l.account s q).waits i
      (((s'.blk i).desk (l.place u i)).waits q.id) ∧
    (l.account s' q).parked = Function.update (l.account s q).parked i
      (((s'.blk i).desk (l.place u i)).parked q.id) := by
  simp only [account, ht.deskOf hu]
  constructor
  · funext j
    by_cases hj : j = i
    · subst hj
      simp
    · simp [hj]
  · funext j
    by_cases hj : j = i
    · subst hj
      simp
    · simp [hj]

/-- A turn about other requests. -/
theorem Turn.unseen (ht : l.Turn f mem s s' u i x es)
    (hd : ((s'.blk i).desk (l.place u i)).waits q.id = ((s.blk i).desk (l.place u i)).waits q.id ∧
      ((s'.blk i).desk (l.place u i)).parked q.id = ((s.blk i).desk (l.place u i)).parked q.id)
    (hk : es.countP (Ev.serves q.id) = 0) (hh : (l.account s' q).hand = (l.account s q).hand)
    (hsl : s'.slip q.id = s.slip q.id) : l.account s' q = l.account s q := by
  have hserved : (l.account s' q).served = (l.account s q).served := by
    rw [ht.served, hk, Nat.add_zero, Function.update_eq_self]
  by_cases hu : u = l.worker q.thread
  · have hw : (l.account s' q).waits = (l.account s q).waits := by
      rw [(ht.waits hu).1, hd.1, hu]
      exact Function.update_eq_self _ _
    have hp : (l.account s' q).parked = (l.account s q).parked := by
      rw [(ht.waits hu).2, hd.2, hu]
      exact Function.update_eq_self _ _
    exact account_eq hh hw hp hserved hsl
  · have hdesk : l.deskOf s' q = l.deskOf s q := by
      funext j
      unfold Layout.deskOf
      by_cases hj : j = i
      · subst hj
        rw [ht.frame _ fun h => hu (place_inj h).symm]
      · rw [ht.others j hj]
    refine account_eq hh ?_ ?_ hserved hsl
    · simp only [account, hdesk]
    · simp only [account, hdesk]

end

theorem Filed.same (hf : l.Filed s) (hq : q ∈ s.issued ∨ s.next ≤ q.id) {r : Request}
    (hr : r ∈ s.issued) (hid : r.id = q.id) : r = q ∧ q ∈ s.issued := by
  have hlt := hf.below r hr
  obtain hq | hq := hq
  · exact ⟨hf.eq_of_id hr hq hid, hq⟩
  · omega

/-- The account takes a step, or is not touched. -/
def Advances (l : Layout V) (s s' : Sys V) (q : Request) : Prop :=
  l.account s' q = l.account s q ∨
    (q ∈ s.issued ∧ Account.Step q.span (l.account s q) (l.account s' q))

section
variable {v : V} {r : Request} {i : Nat} {is : List Nat} {es : List (Ev V)} {ptr : Ptr}

/-- A worker has another request in hand than before, but not this one. -/
theorem account_hand {x y : Option (Request × List Nat)} (hh : s.hand v = x)
    (hh' : s'.hand = Function.update s.hand v y) (hx : ∀ z ∈ x, z.1.id ≠ q.id)
    (hy : ∀ z ∈ y, z.1.id ≠ q.id) : (l.account s' q).hand = (l.account s q).hand := by
  simp only [Layout.account, hh']
  by_cases hv : l.worker q.thread = v
  · rw [hv, Function.update_self, hh]
    cases x <;> cases y <;> simp_all
  · rw [Function.update_of_ne hv]

theorem advances_issue (hidle : s.idle (l.worker r.thread) = true) (ha : r.id ≠ q.id) :
    l.Advances s { s with toControl := s.toControl.issue (l.worker r.thread) r } q := by
  left
  refine account_eq ?_ rfl rfl rfl (Control.slip_issue _ _)
  exact account_hand (Control.hand_of_idle hidle) (Control.hand_issue _ _) (by simp)
    (by simpa using ha)

theorem advances_finish (hf : l.Filed s) (hl : q.op.isLock = false)
    (hq : q ∈ s.issued ∨ s.next ≤ q.id) (hh : s.hand v = some (r, [])) :
    l.Advances s { s with toControl := s.toControl.finish v r } q := by
  obtain ⟨hr, hv, -⟩ := hf.known.hand v r [] hh
  by_cases hid : r.id = q.id
  · obtain ⟨rfl, hq⟩ := hf.same hq hr hid
    subst hv
    have hin : (l.account s r).hand = some [] := by simp [Layout.account, hh]
    have hout : (l.account { s with toControl := s.toControl.finish (l.worker r.thread) r } r).hand =
        none := by
      simp [Layout.account]
    refine .inr ⟨hq, ?_⟩
    obtain ⟨hc, hsl⟩ | ⟨hc, hsl⟩ | ⟨hc, ha, hsl⟩ :=
      s.toControl.slip_finish (l.worker r.thread) hl
    · rw [account_eq hout rfl rfl rfl hsl]
      exact .finish hin hc
    · rw [account_eq hout rfl rfl rfl hsl]
      exact .tell hin hc
    · rw [account_eq hout rfl rfl rfl hsl]
      exact .returns hin hc ha
  · left
    refine account_eq ?_ rfl rfl rfl (Control.slip_finish_of_ne _ _ hid)
    exact account_hand hh (Control.hand_finish _ _ _) (by simpa using hid) (by simp)

theorem advances_serve (hf : l.Filed s) (hl : q.op.isLock = false)
    (hq : q ∈ s.issued ∨ s.next ≤ q.id) (hh : s.hand v = some (r, i :: is))
    (ht : l.Turn f mem s s' v i (.access (l.place v i) r ptr) es)
    (hc : Control.Like ((s.toControl.records i true es).take v
      (if es.any Ev.isPark then none else some (r, is))) s'.toControl) : l.Advances s s' q := by
  obtain ⟨hr, hv, -⟩ := hf.known.hand v r _ hh
  have hslip : s'.slip q.id = (s.toControl.records i true es).slip q.id := hc.slip q.id
  have hhand : s'.hand = Function.update s.hand v
      (if es.any Ev.isPark then none else some (r, is)) := by
    rw [hc.hand, Control.take, Control.hand_records]
  by_cases hid : r.id = q.id
  · obtain ⟨rfl, hq⟩ := hf.same hq hr hid
    subst hv
    have hin : (l.account s r).hand = some (i :: is) := by simp [Layout.account, hh]
    refine .inr ⟨hq, ?_⟩
    obtain ⟨hwaits, hparked⟩ := ht.waits (q := r) rfl
    have hserved := ht.served (q := r)
    obtain ⟨e, rfl, he, hd⟩ | ⟨rfl, hp, hd⟩ | ⟨rfl, hd⟩ := ht.work.access_cases hl
    · have hpark : e.isPark = false := by
        cases e <;> first | rfl | cases he
      rw [hd] at hwaits hparked
      rw [List.countP_cons_of_pos he] at hserved
      have hout : (l.account s' r).hand = some is := by
        simp [Layout.account, hhand, hpark]
      rw [account_eq hout
        (hwaits.trans (Function.update_eq_self _ _)) (hparked.trans (Function.update_eq_self _ _))
        hserved (hslip.trans (Control.slip_records_serves _ he))]
      exact .serve i is hin
    · rw [hd] at hwaits hparked
      have hout : (l.account s' r).hand = some is := by
        simp [Layout.account, hhand, Ev.isPark]
      rw [Desk.waits_of_pend rfl] at hwaits
      rw [account_eq hout hwaits (hparked.trans (Function.update_eq_self _ _))
        (hserved.trans (Function.update_eq_self _ _))
        (hslip.trans (Control.slip_records_open _ hl (.inl rfl)))]
      exact .wait i is hin (Desk.waits_of_none hp)
    · rw [hd] at hwaits hparked
      rw [Desk.parked_park, if_pos rfl] at hparked
      have hout : (l.account s' r).hand = none := by
        simp [Layout.account, hhand, Ev.isPark]
      rw [account_eq hout (hwaits.trans (Function.update_eq_self _ _)) hparked
        (hserved.trans (Function.update_eq_self _ _))
        (hslip.trans (Control.slip_records_open _ hl (.inr rfl)))]
      exact .park i is hin
  · left
    have hothers := ht.work.access_others hid
    refine ht.unseen (ht.work.others (by simp) hothers) hothers.serves ?_
      (hslip.trans (Control.slip_records_others _ hothers))
    refine account_hand hh hhand (by simpa using hid) fun z hz => ?_
    split at hz
    · cases hz
    · cases hz
      exact hid

theorem advances_resume (hf : l.Filed s) (hl : q.op.isLock = false)
    (hq : q ∈ s.issued ∨ s.next ≤ q.id) (hh : s.hand v = none)
    (hr : (s.blk i).nextLocal (l.place v i) = some r)
    (ht : l.Turn f mem s s' v i (.drop (l.place v i)) [])
    (hc : Control.Like (s.toControl.resume v r) s'.toControl) : l.Advances s s' q := by
  obtain ⟨rest, hrest⟩ := Block.agenda_of_nextLocal hr
  obtain ⟨hiss, hplace, hi⟩ :=
    (hf.known.desk i (l.place v i)).agenda r (hrest ▸ List.mem_cons_self)
  have hv := place_inj hplace
  have hd := ht.work.drop_desk hrest
  have hparked (k : Nat) : ((s.blk i).desk (l.place v i)).parked k =
      ((s'.blk i).desk (l.place v i)).parked k + if r.id = k then 1 else 0 := by
    rw [hd]
    simp only [Desk.parked, hrest, List.countP_append, List.countP_cons, beq_iff_eq]
    omega
  have hhand : s'.hand = Function.update s.hand v (some (r, r.span)) := by
    rw [hc.hand, Control.hand_resume]
  have hslip := hc.slip q.id
  by_cases hid : r.id = q.id
  · obtain ⟨rfl, hq⟩ := hf.same hq hiss hid
    subst hv
    have hin : (l.account s r).hand = none := by simp [Layout.account, hh]
    obtain ⟨hwaits, hparked'⟩ := ht.waits (q := r) rfl
    have hn := hparked r.id
    rw [if_pos rfl] at hn
    rw [hd] at hwaits
    have hout : (l.account s' r).hand = some r.span := by simp [Layout.account, hhand]
    refine .inr ⟨hq, ?_⟩
    rw [account_eq hout (hwaits.trans (Function.update_eq_self _ _)) hparked'
      (ht.served.trans (Function.update_eq_self _ _))
      (hslip.trans (Control.slip_resume _ _ hl))]
    exact .resume i hi hin _ hn
  · left
    have hn := hparked q.id
    rw [if_neg hid, Nat.add_zero] at hn
    refine ht.unseen ⟨by rw [hd]; rfl, hn.symm⟩ rfl ?_
      (hslip.trans (Control.slip_resume_of_ne _ _ hid))
    exact account_hand hh hhand (by simp) (by simpa using hid)

/-- A turn about other requests that leaves what is in hand. -/
theorem advances_others {u : V} {x : Act V} (ht : l.Turn f mem s s' u i x es)
    (hx : x ≠ .drop (l.place u i)) (hk : Others q.id es)
    (hc : Control.Like (s.toControl.records i false es) s'.toControl) : l.Advances s s' q := by
  left
  refine ht.unseen (ht.work.others hx hk) hk.serves ?_
    ((hc.slip q.id).trans (Control.slip_records_others _ hk))
  simp only [Layout.account, hc.hand, Control.hand_records]

theorem advances_handler {u : V} {x : Act V} (hf : l.Filed s) (hl : q.op.isLock = false)
    (hq : q ∈ s.issued ∨ s.next ≤ q.id) (hx : x.isHandler = true)
    (hu : es ≠ [] → s.hand u = none) (ht : l.Turn f mem s s' u i x es)
    (hc : Control.Like (s.toControl.records i false es) s'.toControl) : l.Advances s s' q := by
  obtain hothers | ⟨b, r, hp, hid, hr⟩ := ht.work.handler_cases hx q.id
  · refine advances_others ht ?_ hothers hc
    rintro rfl
    cases hx
  · obtain ⟨hiss, hplace, hi⟩ : r ∈ s.issued ∧ l.place u i = l.place (l.worker r.thread) i ∧
        i ∈ r.span := (hf.known.desk i (l.place u i)).pend (b, r) hp
    obtain ⟨rfl, hq⟩ := hf.same hq hiss hid
    obtain hr | ⟨e, he, rfl, hd⟩ := hr
    · simp [hl] at hr
    obtain rfl := place_inj hplace
    have hin : (l.account s r).hand = none := by
      simp [Layout.account, hu (by simp)]
    have hw : (l.account s r).waits i = 1 := Desk.waits_of_pend hp
    obtain ⟨hwaits, hparked⟩ := ht.waits (q := r) rfl
    have hserved := ht.served (q := r)
    rw [hd] at hwaits hparked
    rw [Desk.parked_serve] at hparked
    rw [List.countP_cons_of_pos he] at hserved
    have hout : (l.account s' r).hand = (l.account s r).hand := by
      simp only [Layout.account, hc.hand, Control.hand_records]
    refine .inr ⟨hq, ?_⟩
    rw [account_eq hout hwaits (hparked.trans (Function.update_eq_self _ _)) hserved
      ((hc.slip r.id).trans (Control.slip_records_reply _ hl he))]
    exact .answer i hi hin hw

end

/-- A step of the whole memory, seen from a READ or WRITE. -/
theorem Moved.advances (hm : l.Moved f mem s a s') (hf : l.Filed s) (hl : q.op.isLock = false)
    (hq : q ∈ s.issued ∨ s.next ≤ q.id) (ha : ∀ r, a = .issue r → r.id ≠ q.id) :
    l.Advances s s' q := by
  cases hm with
  | issue r hidle => exact advances_issue hidle (ha r rfl)
  | finish v r hh => exact advances_finish hf hl hq hh
  | serve v ptr r i is es s' hh ht hc => exact advances_serve hf hl hq hh ht hc
  | resume v i r s' hh hr ht hc => exact advances_resume hf hl hq hh hr ht hc
  | unlock thread addr es s' hidle ht hc =>
    refine advances_others ht (by simp) ?_ hc
    rw [ht.work.unlock_events]
    simp [Others, Ev.request]
  | handler a u i x es s' ha hx hu ht hc => exact advances_handler hf hl hq hx hu ht hc

/-! ## Runs -/

/-- The accounts of the READs and WRITEs are balanced, those of later requests blank. -/
structure Booked (l : Layout V) (s : Sys V) : Prop where
  filed : l.Filed s
  balanced : ∀ q ∈ s.issued, q.op.isLock = false → (l.account s q).Balanced q.span
  blank : ∀ q, q.op.isLock = false → s.next ≤ q.id → l.account s q = .blank

theorem Booked.init (l : Layout V) (mem : Nat → Data) : l.Booked (Sys.init mem) := by
  refine ⟨.init l mem, by simp [Sys.init, Control.issued], fun q _ _ => ?_⟩
  refine account_eq rfl ?_ ?_ rfl rfl
  · funext i
    refine Desk.waits_of_none ?_
    unfold Layout.deskOf
    cases l.place (l.worker q.thread) i <;> rfl
  · funext i
    have hd : (l.deskOf (Sys.init mem) q i).locals = [] ∧ (l.deskOf (Sys.init mem) q i).agenda = [] := by
      unfold Layout.deskOf
      cases l.place (l.worker q.thread) i <;> exact ⟨rfl, rfl⟩
    simp [Layout.account, Desk.parked, hd]

/-- The account of a request is opened when it is issued. -/
theorem Moved.start (hm : l.Moved f mem s (.issue q) s') (hb : l.account s q = .blank) :
    l.account s' q = .start q.span := by
  cases hm with
  | issue q hidle hid =>
    have hhand : (l.account { s with toControl := s.toControl.issue (l.worker q.thread) q } q).hand =
        some q.span := by
      simp [Layout.account]
    have heq : l.account { s with toControl := s.toControl.issue (l.worker q.thread) q } q =
        { l.account s q with hand := some q.span } :=
      account_eq hhand rfl rfl rfl (Control.slip_issue _ _)
    rw [heq, hb]
    rfl
  | handler a u i x es s' ha => exact absurd rfl (ha q)

theorem Moved.booked (hm : l.Moved f mem s a s') (h : l.Booked s) : l.Booked s' := by
  have hkeep {q : Request} (hl : q.op.isLock = false) (hq : q ∈ s.issued)
      (ha : ∀ r, a = .issue r → r.id ≠ q.id) : (l.account s' q).Balanced q.span := by
    obtain heq | ⟨-, hs⟩ := hm.advances h.filed hl (.inl hq) ha
    · rw [heq]
      exact h.balanced q hq hl
    · exact hs.balanced (h.balanced q hq hl) q.nodup_span
  have hblank {q : Request} (hl : q.op.isLock = false) (hq : s.next ≤ q.id)
      (ha : ∀ r, a = .issue r → r.id ≠ q.id) : l.account s' q = .blank := by
    obtain heq | ⟨hmem, -⟩ := hm.advances h.filed hl (.inr hq) ha
    · rw [heq]
      exact h.blank q hl hq
    · have := h.filed.below q hmem
      omega
  obtain ⟨ha, hfile⟩ | ⟨q, rfl, hid, hfile⟩ := hm.file
  · obtain ⟨hnext, hiss⟩ : s'.next = s.next ∧ s'.issued = s.issued := Prod.ext_iff.mp hfile
    refine ⟨hm.filed h.filed, fun q hq hl => ?_, fun q hl hq => ?_⟩
    · exact hkeep hl (hiss ▸ hq) fun r hr => absurd hr (ha r)
    · exact hblank hl (hnext ▸ hq) fun r hr => absurd hr (ha r)
  · obtain ⟨hnext, hiss⟩ : s'.next = s.next + 1 ∧ s'.issued = s.issued ++ [q] :=
      Prod.ext_iff.mp hfile
    have hne {r : Request} (hr : r.id ≠ s.next) (x : Request) (hx : SysAct.issue q = .issue (V := V) x) :
        x.id ≠ r.id := by
      obtain rfl : q = x := by simpa using hx
      rw [hid]
      exact Ne.symm hr
    refine ⟨hm.filed h.filed, fun r hr hl => ?_, fun r hl hr => ?_⟩
    · rw [hiss] at hr
      rcases List.mem_append.mp hr with hr | hr
      · exact hkeep hl hr (hne (h.filed.below r hr).ne)
      · obtain rfl := List.mem_singleton.mp hr
        rw [hm.start (h.blank r hl hid.ge)]
        exact .start r.span
    · rw [hnext] at hr
      exact hblank hl (by omega) (hne (by omega))

theorem booked_of_reaches {ok : SysAct V → Sys V → Prop} (hroom : ∀ a s, ok a s → l.Room a s)
    (h : Reaches l.step ok (Sys.init mem) s) : l.Booked s := by
  refine h.invariant_along (.init l mem) ?_
  intro a t t' hr hb hok hs
  exact (step_moved (l.good_blk_all (hr.mono hroom)) hs).booked hb

end Layout

end HwGam.Coherence
