import HwGam.Coherence.Ledger
import HwGam.Coherence.Safety

/-!
# Requests of several blocks complete once

`wr->counter`, `Worker::Notify` and `fence->pending_writes` over whole runs, for READs and WRITEs of
any number of blocks, however often they are parked and replayed.
-/

namespace HwGam.Coherence

open Lib

variable {V : Type*}

/-- `Worker::Notify` runs for the request with id `k`. -/
def Happened.notifies (k : Nat) : Happened V → Bool
  | .notify q => q.id == k
  | _ => false

/-- An asynchronous WRITE of the thread. -/
def Request.isWriteOf (thread : Nat) (q : Request) : Bool := q.isAsync && q.thread == thread

/-- `Worker::Notify` runs for an asynchronous WRITE of the thread. -/
def Happened.notifiesWrite (thread : Nat) : Happened V → Bool
  | .notify q => q.isWriteOf thread
  | _ => false

/-! ## What a step tells the threads -/

/-- The step tells threads about requests in `P` only, and counts their writes. -/
structure Control.Tells (P : Request → Prop) (s s' : Control V) (hs : List (Happened V)) : Prop where
  hist : s'.hist = s.hist ++ hs
  notify : ∀ q, .notify q ∈ hs → P q
  returned : ∀ q, .returned q ∈ hs → P q ∧ q.isAsync = false ∧ q.fenced = false
  writes : ∀ t, s'.pendingWrites t = s.pendingWrites t - hs.countP (Happened.notifiesWrite t)

namespace Control

variable {P : Request → Prop} {s s' s'' : Control V} {q : Request} {i : Nat} {b : Bool} {e : Ev V}

theorem Tells.same (hh : s'.hist = s.hist) (hp : s'.pendingWrites = s.pendingWrites) :
    Tells P s s' [] :=
  ⟨by simp [hh], by simp, by simp, by simp [hp]⟩

theorem Tells.trans {hs hs' : List (Happened V)} (h : Tells P s s' hs) (h' : Tells P s' s'' hs') :
    Tells P s s'' (hs ++ hs') where
  hist := by rw [h'.hist, h.hist, List.append_assoc]
  notify q hq := (List.mem_append.mp hq).elim (h.notify q) (h'.notify q)
  returned q hq := (List.mem_append.mp hq).elim (h.returned q) (h'.returned q)
  writes t := by
    rw [h'.writes, h.writes, List.countP_append]
    omega

theorem Tells.happens {x : Happened V} (hn : ∀ q, x ≠ .notify q) (hr : ∀ q, x ≠ .returned q) :
    Tells P s (s.happens x) [x] where
  hist := rfl
  notify q hq := absurd (List.mem_singleton.mp hq).symm (hn q)
  returned q hq := absurd (List.mem_singleton.mp hq).symm (hr q)
  writes t := by
    have h0 : x.notifiesWrite t = false := by
      cases x <;> first | rfl | exact absurd rfl (hn _)
    simp [h0, Control.happens]

theorem tells_count {n : Int} : Tells P s (s.count q n) [] := by
  unfold count
  split <;> exact .same rfl rfl

theorem tells_notify (hq : P q) : Tells P s (s.notify q) [.notify q] where
  hist := by
    unfold Control.notify countWrite
    split <;> rfl
  notify r hr := by
    obtain rfl : r = q := by simpa using hr
    exact hq
  returned r hr := by simp at hr
  writes t := by
    unfold Control.notify countWrite
    split
    · rename_i ha
      by_cases ht : q.thread = t
      · subst ht
        simp [Control.happens, Happened.notifiesWrite, Request.isWriteOf, ha]
        omega
      · simp [Control.happens, Happened.notifiesWrite, Request.isWriteOf, ha, ht,
          Function.update_of_ne (Ne.symm ht)]
    · rename_i ha
      simp [Control.happens, Happened.notifiesWrite, Request.isWriteOf, ha]

theorem tells_succeed (hq : P q) : ∃ hs, Tells P s (s.succeed q) hs := by
  unfold succeed
  split
  · exact ⟨_, tells_notify hq⟩
  · rename_i ha
    refine ⟨[.returned q], rfl, by simp, fun r hr => ?_, fun t => ?_⟩
    · obtain rfl : r = q := by simpa using hr
      exact ⟨hq, by simp_all⟩
    · simp [Control.happens, Happened.notifiesWrite]

theorem tells_record (he : ∀ r ∈ e.request, P r) : ∃ hs, Tells P s (record i b s e) hs := by
  have hon : Tells P s (s.happens (.on i e)) [.on i e] := .happens (by simp) (by simp)
  unfold record
  dsimp only
  cases e with
  | copyOut | effect | unlock => exact ⟨_, hon⟩
  | pend q | park q => exact ⟨_, hon.trans tells_count⟩
  | reply q =>
    dsimp only
    split
    · exact ⟨_, (hon.trans tells_count).trans (tells_notify (he q rfl))⟩
    · exact ⟨_, hon.trans tells_count⟩
  | lock n q | fail q =>
    dsimp only
    split
    · obtain ⟨hs, h⟩ := tells_succeed (s := s.happens _) (he q rfl)
      exact ⟨_, hon.trans h⟩
    · exact ⟨_, hon.trans (tells_notify (he q rfl))⟩

theorem tells_records {es : List (Ev V)} (he : ∀ e ∈ es, ∀ r ∈ e.request, P r) :
    ∃ hs, Tells P s (s.records i b es) hs := by
  unfold records
  induction es generalizing s with
  | nil => exact ⟨_, .same rfl rfl⟩
  | cons e es ih =>
    obtain ⟨hs, h⟩ := tells_record (s := s) (i := i) (b := b) (he e List.mem_cons_self)
    obtain ⟨hs', h'⟩ := ih (s := record i b s e) fun e' he' => he e' (List.mem_cons_of_mem _ he')
    exact ⟨_, h.trans h'⟩

end Control

/-- The events of a turn are about the request in hand or the one that waits at the desk. -/
theorem Desk.Work.requests {P : Request → Prop} {n : Place V} {cur : Data} {fresh lands : Prop}
    {d d' : Desk} {x : Act V} {es : List (Ev V)} (hw : Desk.Work n cur fresh lands d x es d')
    (hx : ∀ q ptr, x = .access n q ptr → P q) (hd : d.All P) : ∀ e ∈ es, ∀ q ∈ e.request, P q := by
  cases hw with
  | hit q ptr | effect q ptr | rlock q ptr | wlock q ptr | fail q ptr | park q ptr | pend q ptr =>
    simpa [Ev.request] using hx q ptr rfl
  | unlock => simp [Ev.request]
  | drop | quiet => simp
  | ends a es locks ha hl he =>
    cases he with
    | forwarded => simp
    | failed b q hp | read q hp | write q hp | lock b q hp =>
      simpa [Ev.request] using hd.pend _ hp
  | again a q ha hl hp => simpa [Ev.request] using hd.pend _ hp

/-- One of the requests, which have different ids, is left out. -/
theorem countP_of_mem {issued : List Request} (hn : (issued.map Request.id).Nodup) {r : Request}
    (hr : r ∈ issued) {p : Request → Bool} (hp : p r = true) :
    issued.countP p = (issued.countP fun q => p q && !(q.id == r.id)) + 1 := by
  induction issued with
  | nil => cases hr
  | cons q issued ih =>
    obtain ⟨hq, hn⟩ := List.nodup_cons.mp hn
    by_cases hid : q.id = r.id
    · have hrest : ∀ x ∈ issued, x.id ≠ r.id := by
        intro x hx heq
        exact hq (List.mem_map.mpr ⟨x, hx, heq.trans hid.symm⟩)
      obtain rfl : r = q := by
        rcases List.mem_cons.mp hr with rfl | hr
        · rfl
        · exact absurd rfl (hrest r hr)
      rw [List.countP_cons_of_pos hp, List.countP_cons_of_neg (by simp)]
      congr 1
      refine List.countP_congr fun x hx => ?_
      simp [hrest x hx]
    · have hr : r ∈ issued := by
        rcases List.mem_cons.mp hr with rfl | hr
        · exact absurd rfl hid
        · exact hr
      have ih := ih hn hr
      simp only [List.countP_cons, beq_eq_false_iff_ne.mpr hid, Bool.not_false, Bool.and_true]
      omega

/-- Where every notification is for an issued write, and none comes twice, the writes that are not
notified are those issued less the notifications. -/
theorem countP_notifiesWrite {issued : List Request} (hn : (issued.map Request.id).Nodup) (t : Nat)
    {hist : List (Happened V)} (hmem : ∀ q, .notify q ∈ hist → q ∈ issued)
    (hone : ∀ q ∈ issued, q.isWriteOf t = true → hist.countP (Happened.notifies q.id) ≤ 1) :
    hist.countP (Happened.notifiesWrite t) + (issued.countP fun q =>
      q.isWriteOf t && hist.countP (Happened.notifies q.id) == 0) =
      issued.countP (Request.isWriteOf t) := by
  induction hist with
  | nil => simp
  | cons x hist ih =>
    have hle (k : Nat) :
        hist.countP (Happened.notifies k) ≤ (x :: hist).countP (Happened.notifies k) :=
      (List.sublist_cons_self x hist).countP_le
    have ih := ih (fun q hq => hmem q (List.mem_cons_of_mem _ hq)) fun q hq hw =>
      (hle q.id).trans (hone q hq hw)
    by_cases hx : x.notifiesWrite t = true
    · obtain ⟨r, rfl, hr⟩ : ∃ r, x = .notify r ∧ r.isWriteOf t = true := by
        cases x <;> first | exact ⟨_, rfl, hx⟩ | cases hx
      have hrmem := hmem r List.mem_cons_self
      have h0 : hist.countP (Happened.notifies r.id) = 0 := by
        have := hone r hrmem hr
        rw [List.countP_cons_of_pos (by simp [Happened.notifies])] at this
        omega
      rw [countP_of_mem hn hrmem (p := fun q => q.isWriteOf t &&
        hist.countP (Happened.notifies q.id) == 0) (by simp [hr, h0])] at ih
      have hcongr : (issued.countP fun q => q.isWriteOf t &&
          (Happened.notify r :: hist).countP (Happened.notifies q.id) == 0) =
          issued.countP fun q => (q.isWriteOf t && hist.countP (Happened.notifies q.id) == 0) &&
            !(q.id == r.id) := by
        refine List.countP_congr fun q hq => ?_
        by_cases hid : q.id = r.id
        · simp [Happened.notifies, hid]
        · simp [Happened.notifies, hid, Ne.symm hid]
      rw [List.countP_cons_of_pos hx, hcongr]
      omega
    · rw [List.countP_cons_of_neg hx, ← ih]
      congr 1
      refine List.countP_congr fun q hq => ?_
      simp only [Bool.and_eq_true, and_congr_right_iff]
      intro hw
      have hneg : ¬ x.notifies q.id = true := by
        intro hxq
        cases x with
        | notify r =>
          have hid : r.id = q.id := by simpa [Happened.notifies] using hxq
          obtain rfl := List.inj_on_of_nodup_map hn (hmem r List.mem_cons_self) hq hid
          exact hx hw
        | _ => cases hxq
      rw [List.countP_cons_of_neg hneg]

namespace Layout

variable [DecidableEq V] {l : Layout V} {f : Slack} {mem : Nat → Data} {s s' : Sys V} {a : SysAct V}
  {q : Request}

theorem Moved.tells (hm : l.Moved f mem s a s') (hf : l.Filed s) (ha : ∀ q, a ≠ .issue q) :
    ∃ hs, Control.Tells (· ∈ s.issued) s.toControl s'.toControl hs := by
  have hdesk (i : Nat) (n : Place V) : ((s.blk i).desk n).All (· ∈ s.issued) :=
    (hf.known.desk i n).mono fun q hq => hq.1
  have hlike {c : Control V} (hc : c.Like s'.toControl) : c.Tells (· ∈ s.issued) s'.toControl [] :=
    .same hc.hist hc.pendingWrites
  cases hm with
  | issue q => exact absurd rfl (ha q)
  | finish v q hh =>
    have htake : s.toControl.Tells (· ∈ s.issued) (s.toControl.take v none) [] := .same rfl rfl
    unfold Control.finish
    dsimp only
    split
    · obtain ⟨hs, h⟩ := Control.tells_succeed (s := s.toControl.take v none)
        (hf.known.hand v q [] hh).1
      exact ⟨_, htake.trans h⟩
    · exact ⟨_, htake⟩
  | serve v ptr q i is es s' hh ht hc =>
    have hreq := ht.work.requests (P := (· ∈ s.issued)) ?_ (hdesk i _)
    · obtain ⟨hs, h⟩ := Control.tells_records (s := s.toControl) (i := i) (b := true) hreq
      have htake : (s.toControl.records i true es).Tells (· ∈ s.issued)
          ((s.toControl.records i true es).take v
            (if es.any Ev.isPark then none else some (q, is))) [] := .same rfl rfl
      exact ⟨_, (h.trans htake).trans (hlike hc)⟩
    · rintro r p hx
      obtain ⟨rfl, -⟩ : q = r ∧ ptr = p := by simpa using hx
      exact (hf.known.hand v q _ hh).1
  | resume v i q s' hh hq ht hc =>
    have hresume : s.toControl.Tells (· ∈ s.issued) (s.toControl.resume v q) [] := by
      unfold Control.resume Control.count
      split <;> exact .same rfl rfl
    exact ⟨_, hresume.trans (hlike hc)⟩
  | unlock thread addr es s' hidle ht hc =>
    obtain ⟨hs, h⟩ := Control.tells_records (s := s.toControl) (i := toBlock addr) (b := false)
      (ht.work.requests (P := (· ∈ s.issued)) (by rintro r p ⟨⟩) (hdesk _ _))
    exact ⟨_, h.trans (hlike hc)⟩
  | handler a u i x es s' ha hx hu ht hc =>
    have hacc : ∀ r ptr, x = .access (l.place u i) r ptr → r ∈ s.issued := by
      rintro r ptr rfl
      cases hx
    obtain ⟨hs, h⟩ := Control.tells_records (s := s.toControl) (i := i) (b := false)
      (ht.work.requests (P := (· ∈ s.issued)) hacc (hdesk _ _))
    exact ⟨_, h.trans (hlike hc)⟩

/-- Who has been told what, and the writes that are counted. -/
structure Told (s : Sys V) : Prop where
  notified : ∀ q, .notify q ∈ s.hist → q ∈ s.issued
  returned : ∀ q, .returned q ∈ s.hist → q ∈ s.issued ∧ q.isAsync = false ∧ q.fenced = false
  writes : ∀ t, s.pendingWrites t =
    s.issued.countP (Request.isWriteOf t) - s.hist.countP (Happened.notifiesWrite t)

theorem Moved.told (hm : l.Moved f mem s a s') (hf : l.Filed s) (h : Told s) : Told s' := by
  obtain ⟨ha, hfile⟩ | ⟨q, rfl, hid, hfile⟩ := hm.file
  · have hiss : s'.issued = s.issued := congrArg Prod.snd hfile
    obtain ⟨hs, ht⟩ := hm.tells hf ha
    refine ⟨fun q hq => ?_, fun q hq => ?_, fun t => ?_⟩
    · rw [ht.hist] at hq
      rw [hiss]
      exact (List.mem_append.mp hq).elim (h.notified q) (ht.notify q)
    · rw [ht.hist] at hq
      rw [hiss]
      exact (List.mem_append.mp hq).elim (h.returned q) (ht.returned q)
    · rw [ht.writes, h.writes, hiss, ht.hist, List.countP_append]
      omega
  · have hiss : s'.issued = s.issued ++ [q] := congrArg Prod.snd hfile
    cases hm with
    | handler a u i x es s' ha => exact absurd rfl (ha q)
    | issue q hidle =>
      have hhist : (s.toControl.issue (l.worker q.thread) q).hist = s.hist ++ [.issue q] := by
        unfold Control.issue Control.countWrite
        split <;> rfl
      refine ⟨fun r hr => ?_, fun r hr => ?_, fun t => ?_⟩
      · rw [hiss]
        simp only [hhist, List.mem_append, List.mem_singleton, reduceCtorEq, or_false] at hr
        exact List.mem_append_left _ (h.notified r hr)
      · simp only [hhist, List.mem_append, List.mem_singleton, reduceCtorEq, or_false] at hr
        rw [hiss]
        exact (h.returned r hr).imp_left (List.mem_append_left _)
      · have hcount : (s.toControl.issue (l.worker q.thread) q).pendingWrites t =
            s.pendingWrites t + if q.isWriteOf t then 1 else 0 := by
          unfold Control.issue Control.countWrite Request.isWriteOf
          split
          · rename_i ha
            by_cases ht : q.thread = t
            · subst ht
              simp [Control.happens, Control.take, ha]
            · simp [Control.happens, Control.take, ha, ht, Function.update_of_ne (Ne.symm ht)]
          · rename_i ha
            simp [Control.happens, Control.take, ha]
        rw [hiss, List.countP_append]
        simp only [hhist, hcount, h.writes, List.countP_append, List.countP_singleton,
          Happened.notifiesWrite, Bool.false_eq_true, if_false]
        split <;> omega

theorem told_of_reaches {ok : SysAct V → Sys V → Prop} (hroom : ∀ a s, ok a s → l.Room a s)
    (h : Reaches l.step ok (Sys.init mem) s) : Told s := by
  refine h.invariant_along ⟨by simp [Sys.init], by simp [Sys.init],
    by simp [Sys.init, Control.issued]⟩ ?_
  intro a t t' hr ht hok hs
  have hm := step_moved (l.good_blk_all (hr.mono hroom)) hs
  exact hm.told (booked_of_reaches hroom hr).filed ht

/-! ## Every request completes once -/

/-- The pending requests of `q`, over its blocks. -/
def outstanding (l : Layout V) (s : Sys V) (q : Request) : Nat :=
  ∑ i ∈ q.span.toFinset, (l.deskOf s q i).waits q.id

/-- How often `q` is parked, over its blocks. -/
def parkedOn (l : Layout V) (s : Sys V) (q : Request) : Nat :=
  ∑ i ∈ q.span.toFinset, (l.deskOf s q i).parked q.id

/-- The worker of `q` is in its loop over the blocks. -/
def InHand (l : Layout V) (s : Sys V) (q : Request) : Prop :=
  ∃ is, s.hand (l.worker q.thread) = some (q, is)

/-- What is known of an issued READ or WRITE in every state. -/
structure CompletesOnce (l : Layout V) (s : Sys V) (q : Request) : Prop where
  counter : s.counter q.id = l.outstanding s q + l.parkedOn s q
  parked : l.parkedOn s q ≤ 1 ∧ (l.InHand s q → l.parkedOn s q = 0)
  own : ∀ i n, (∃ x ∈ ((s.blk i).desk n).pend, x.2 = q) ∨ q ∈ ((s.blk i).desk n).locals ∨
    q ∈ ((s.blk i).desk n).agenda → n = l.place (l.worker q.thread) i ∧ i ∈ q.span
  once : s.hist.countP (Happened.notifies q.id) + s.hist.countP (Happened.returns q.id) ≤ 1
  told : s.hist.countP (Happened.notifies q.id) + s.hist.countP (Happened.returns q.id) = 1 ↔
    ¬ l.InHand s q ∧ l.parkedOn s q = 0 ∧ l.outstanding s q = 0
  served : s.hist.countP (Happened.notifies q.id) + s.hist.countP (Happened.returns q.id) = 1 →
    ∀ i ∈ q.span, ∃ e ∈ (s.blk i).log, e.serves q.id = true
  returned : s.hist.countP (Happened.returns q.id) = 1 →
    q.isAsync = false ∧ q.fenced = false ∧ s.hist.countP (Happened.opens q.id) = 0

omit [DecidableEq V] in
theorem countP_tells (hist : List (Happened V)) (k : Nat) : hist.countP (Happened.tells k) =
    hist.countP (Happened.notifies k) + hist.countP (Happened.returns k) := by
  induction hist with
  | nil => rfl
  | cons x hist ih =>
    cases x with
    | notify q =>
      by_cases hq : q.id = k <;>
        simp [Happened.tells, Happened.notifies, Happened.returns, ih, hq]
      omega
    | returned q =>
      by_cases hq : q.id = k <;>
        simp [Happened.tells, Happened.notifies, Happened.returns, ih, hq]
      omega
    | _ => simp [Happened.tells, Happened.notifies, Happened.returns, ih]

theorem Booked.inHand_iff (h : l.Booked s) (hq : q ∈ s.issued) :
    l.InHand s q ↔ (l.account s q).hand ≠ none := by
  unfold InHand
  constructor
  · rintro ⟨is, hh⟩
    simp [account, hh]
  · intro hne
    cases hh : s.hand (l.worker q.thread) with
    | none => simp [account, hh] at hne
    | some x =>
      obtain ⟨r, is⟩ := x
      by_cases hid : r.id = q.id
      · obtain rfl := h.filed.eq_of_id (h.filed.known.hand _ r is hh).1 hq hid
        exact ⟨is, rfl⟩
      · simp [account, hh, hid] at hne

theorem Booked.completesOnce (h : l.Booked s) (ht : Told s) (hq : q ∈ s.issued)
    (hl : q.op.isLock = false) : l.CompletesOnce s q := by
  have hb := h.balanced q hq hl
  have hhand := h.inHand_iff hq
  have htold : (l.account s q).told = s.hist.countP (Happened.notifies q.id) +
      s.hist.countP (Happened.returns q.id) := countP_tells s.hist q.id
  have hclosed : (l.account s q).Closed q.span ↔
      ¬ l.InHand s q ∧ l.parkedOn s q = 0 ∧ l.outstanding s q = 0 := by
    rw [hhand, not_not]
    rfl
  have hiff : (l.account s q).told = 1 ↔ (l.account s q).Closed q.span := by
    rw [hb.told]
    split <;> simp_all
  constructor
  case counter => exact hb.counter
  case parked => exact ⟨hb.once.1, fun hin => hb.once.2 (hhand.mp hin)⟩
  case own =>
    intro i n hx
    have hdesk := h.filed.known.desk i n
    rcases hx with ⟨x, hx, rfl⟩ | hx | hx
    · exact (hdesk.pend x hx).2
    · exact (hdesk.locals q hx).2
    · exact (hdesk.agenda q hx).2
  case once =>
    rw [← htold, hb.told]
    split <;> omega
  case told => rw [← htold, hiff, hclosed]
  case served =>
    intro h1 i hi
    have hserved := (hb.of_told (by omega)).2 i hi
    exact List.countP_pos_iff.mp hserved
  case returned =>
    intro h1
    have hret : (l.account s q).returned ≠ 0 := by
      change s.hist.countP (Happened.returns q.id) ≠ 0
      omega
    obtain ⟨x, hx, hxq⟩ := List.countP_pos_iff.mp (Nat.pos_of_ne_zero hret)
    cases x with
    | returned r =>
      obtain ⟨hr, ha, hf⟩ := ht.returned r hx
      obtain rfl := h.filed.eq_of_id hr hq (by simpa [Happened.returns] using hxq)
      exact ⟨ha, hf, hb.returned.2 hret⟩
    | _ => cases hxq

/-- A READ of the home's own thread that finds its block in memory. -/
def readAtHome : List (SysAct Bool) :=
  [.issue { id := 0, thread := 0, op := .read, addr := 0, size := 1 }, .serve false 0, .finish false]

end Layout

end HwGam.Coherence
