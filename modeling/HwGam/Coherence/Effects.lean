import HwGam.Coherence.Completion
import HwGam.Coherence.Sharing

/-!
# What the logs of the blocks say

Every event of a log is about an issued request and one of its blocks; READs copy out, WRITEs take
effect. A WRITE takes effect once on each of its blocks, unless it is parked after its loop has
passed the first one: its replay then writes the blocks in front again.
-/

namespace HwGam.Coherence

open Lib

variable {V : Type*}

/-! ## Requests and their events -/

/-- What waits at a desk takes the only copy if it writes. -/
def Desk.Kind (d : Desk) : Prop := ∀ x ∈ d.pend, x.1 = x.2.op.writes

/-- READs copy out and WRITEs take effect. -/
def Ev.Kind : Ev V → Prop
  | .copyOut q _ => q.op = .read
  | .effect q => q.op = .write
  | _ => True

theorem Op.eq_read {o : Op} (hl : o.isLock = false) (hw : o.writes = false) : o = .read := by
  cases o <;> simp_all [Op.isLock, Op.writes]

theorem Op.eq_write {o : Op} (hl : o.isLock = false) (hw : o.writes = true) : o = .write := by
  cases o <;> simp_all [Op.isLock, Op.writes]

theorem Desk.Work.kind {n : Place V} {cur : Data} {fresh lands : Prop} {d d' : Desk} {x : Act V}
    {es : List (Ev V)} (hw : Desk.Work n cur fresh lands d x es d') (hd : d.Kind) :
    d'.Kind ∧ ∀ e ∈ es, e.Kind := by
  cases hw with
  | hit q ptr data hq => exact ⟨hd, by simpa [Ev.Kind] using hq⟩
  | effect q ptr hq => exact ⟨hd, by simpa [Ev.Kind] using hq⟩
  | rlock | wlock | fail | park => exact ⟨hd, by simp [Ev.Kind]⟩
  | pend q =>
    refine ⟨fun x hx => ?_, by simp [Ev.Kind]⟩
    obtain rfl := Option.some.inj hx
    rfl
  | unlock | drop | quiet => exact ⟨hd, by simp [Ev.Kind]⟩
  | again => exact ⟨by simp [Desk.Kind, Desk.serve], by simp [Ev.Kind]⟩
  | ends a es locks ha hl he =>
    refine ⟨by simp [Desk.Kind, Desk.serve], ?_⟩
    cases he with
    | forwarded | failed | lock => simp [Ev.Kind]
    | read q hp hq => simpa [Ev.Kind] using Op.eq_read hq (hd _ hp).symm
    | write q hp hq => simpa [Ev.Kind] using Op.eq_write hq (hd _ hp).symm

/-- What the desks and the logs have of the issued requests. -/
structure Sys.Logged (s : Sys V) : Prop where
  desk : ∀ i n, ((s.blk i).desk n).Kind
  kind : ∀ i, ∀ e ∈ (s.blk i).log, e.Kind
  issued : ∀ i, ∀ e ∈ (s.blk i).log, ∀ q ∈ e.request, q ∈ s.issued ∧ i ∈ q.span

theorem Sys.Logged.init (mem : Nat → Data) : (Sys.init mem : Sys V).Logged := by
  refine ⟨fun i n => ?_, by simp [Sys.init, Block.init], by simp [Sys.init, Block.init]⟩
  cases n <;> simp [Sys.init, Block.init, Block.desk, Home.desk, Cacher.desk, Desk.Kind, Home.parent]

/-- The request that a thread hands over. -/
def SysAct.issued? : SysAct V → Option Request
  | .issue q => some q
  | _ => none

namespace Layout

variable [DecidableEq V] {l : Layout V} {f : Slack} {mem : Nat → Data} {s s' : Sys V} {a : SysAct V}
  {q : Request}

/-- A step is a turn at one block, or does not touch the blocks. -/
theorem Moved.turn (hm : l.Moved f mem s a s') : s'.blk = s.blk ∨
    ∃ u i x es, l.Turn f mem s s' u i x es ∧
      (∀ q ptr, x = .access (l.place u i) q ptr →
        (∃ is, s.hand u = some (q, i :: is)) ∧ l.target a s = some (i, x)) := by
  cases hm with
  | issue | finish => exact .inl rfl
  | serve v ptr q i is es s' hh ht hc =>
    refine .inr ⟨v, i, _, es, ht, ?_⟩
    rintro r p hx
    obtain ⟨rfl, rfl⟩ : q = r ∧ ptr = p := by simpa using hx
    exact ⟨⟨is, hh⟩, by simp only [target, hh]⟩
  | resume v i q s' hh hq ht hc => exact .inr ⟨v, i, _, _, ht, by rintro r p ⟨⟩⟩
  | unlock thread addr es s' hidle ht hc => exact .inr ⟨_, _, _, es, ht, by rintro r p ⟨⟩⟩
  | handler a u i x es s' ha hx hu ht hc =>
    refine .inr ⟨u, i, x, es, ht, ?_⟩
    rintro r p rfl
    cases hx

theorem Moved.issued_subset (hm : l.Moved f mem s a s') (hq : q ∈ s.issued) : q ∈ s'.issued := by
  obtain ⟨-, hfile⟩ | ⟨r, -, -, hfile⟩ := hm.file
  · have hiss : s'.issued = s.issued := congrArg Prod.snd hfile
    exact hiss ▸ hq
  · have hiss : s'.issued = s.issued ++ [r] := congrArg Prod.snd hfile
    exact hiss ▸ List.mem_append_left _ hq

theorem Moved.logged (hm : l.Moved f mem s a s') (hf : l.Filed s) (h : s.Logged) :
    s'.Logged := by
  have hkeep (i : Nat) : ∀ e ∈ (s.blk i).log, ∀ q ∈ e.request, q ∈ s'.issued ∧ i ∈ q.span :=
    fun e he q hq => (h.issued i e he q hq).imp_left hm.issued_subset
  obtain hblk | ⟨u, i, x, es, ht, hx⟩ := hm.turn
  · refine ⟨fun i n => ?_, fun i e he => ?_, fun i e he => ?_⟩
    · rw [hblk]
      exact h.desk i n
    · rw [hblk] at he
      exact h.kind i e he
    · rw [hblk] at he
      exact hkeep i e he
  · obtain ⟨hd, hes⟩ := ht.work.kind (h.desk i _)
    have hreq := ht.work.requests (P := fun q => q ∈ s.issued ∧ i ∈ q.span)
      (fun q ptr hq => by
        obtain ⟨⟨is, hh⟩, -⟩ := hx q ptr hq
        obtain ⟨hiss, -, hspan⟩ := hf.known.hand u q _ hh
        exact ⟨hiss, hspan i List.mem_cons_self⟩)
      ((hf.known.desk i _).mono fun q hq => ⟨hq.1, hq.2.2⟩)
    refine ⟨fun j n => ?_, fun j e he => ?_, fun j e he => ?_⟩
    · by_cases hj : j = i
      · subst hj
        by_cases hn : n = l.place u j
        · exact hn ▸ hd
        · rw [ht.frame n hn]
          exact h.desk j n
      · rw [ht.others j hj]
        exact h.desk j n
    · by_cases hj : j = i
      · subst hj
        rw [ht.log] at he
        exact (List.mem_append.mp he).elim (h.kind j e) (hes e)
      · rw [ht.others j hj] at he
        exact h.kind j e he
    · by_cases hj : j = i
      · subst hj
        rw [ht.log] at he
        rcases List.mem_append.mp he with he | he
        · exact hkeep j e he
        · exact fun q hq => (hreq e he q hq).imp_left hm.issued_subset
      · rw [ht.others j hj] at he
        exact hkeep j e he

theorem logged_of_reaches {ok : SysAct V → Sys V → Prop} (hroom : ∀ a s, ok a s → l.Room a s)
    (h : Reaches l.step ok (Sys.init mem) s) : s.Logged := by
  refine h.invariant_along (.init mem) ?_
  intro a t t' hr hl hok hs
  exact (step_moved (l.good_blk_all (hr.mono hroom)) hs).logged (booked_of_reaches hroom hr).filed hl

/-! ## WRITEs that are parked late -/

end Layout

/-- The block is in transition where a request of the worker at `n` is served. -/
def Block.inTransitionAt (b : Block V) : Place V → Bool
  | none => b.home.entry.inTransition
  | some w => (b.cacher w).line.any (·.state.inTransition)

/-- A WRITE is parked on blocks in transition only. -/
theorem inTransitionAt_of_park [DecidableEq V] {i : Nat} {n : Place V} {q : Request} {ptr : Ptr}
    {b b' : Block V} (hs : Coherence.step i (.access n q ptr) b = some b') (hq : q.op = .write)
    (hlog : b'.log = b.log ++ [.park q]) : b.inTransitionAt n = true := by
  cases n with
  | none =>
    obtain rfl := Option.some.inj hs
    have hev : (b.home.access i q).evs = [.park q] := List.append_cancel_left hlog
    have hserved := homeServed_access i b.home q
    generalize b.home.access i q = o at hev hserved
    cases hserved with
    | park hb => exact hb.resolve_left (by simp [hq, Op.isLock])
    | fail | read | effect | lock | fetchAndShared => simp [Home.fetchAndShared] at hev
    | invalidateAll =>
      unfold Home.invalidateAll at hev
      dsimp only at hev
      split at hev <;> simp at hev
  | some w =>
    obtain rfl := Option.some.inj hs
    have hev : ((b.cacher w).access i w q ptr).evs = [.park q] := List.append_cancel_left hlog
    simp only [Cacher.access, hq, Cacher.readWrite] at hev
    unfold Block.inTransitionAt
    cases hl : (b.cacher w).line with
    | none => simp [hl, Cacher.miss, hq] at hev
    | some ln =>
      rw [hl] at hev
      by_cases ht : ln.state.inTransition = true
      · simpa [hl] using ht
      · simp [ht, Cacher.upgrade] at hev
        split at hev <;> simp at hev

namespace Layout

variable [DecidableEq V] {l : Layout V} {f : Slack} {mem : Nat → Data} {s s' : Sys V} {a : SysAct V}
  {q : Request}

/-- No WRITE is parked after its loop has passed its first block. -/
def NotLate (l : Layout V) (a : SysAct V) (s : Sys V) : Prop :=
  match a with
  | .serve v _ => ∀ q i is, s.hand v = some (q, i :: is) → q.op = .write → i :: is ≠ q.span →
    (s.blk i).inTransitionAt (l.place v i) = false
  | _ => True

/-- A request that is in hand is put down at one of its blocks only to be parked there. -/
theorem Moved.late {i : Nat} {is : List Nat} (hm : l.Moved f mem s a s') (hq : q ∈ s.issued)
    (hf : l.Filed s) (hop : q.op = .write) (hh : (l.account s q).hand = some (i :: is))
    (hh' : (l.account s' q).hand = none) : ∃ ptr, a = .serve (l.worker q.thread) ptr ∧
      s.hand (l.worker q.thread) = some (q, i :: is) ∧
      (s.blk i).inTransitionAt (l.place (l.worker q.thread) i) = true := by
  have hin : s.hand (l.worker q.thread) = some (q, i :: is) := by
    cases hx : s.hand (l.worker q.thread) with
    | none => simp [Layout.account, hx] at hh
    | some x =>
      obtain ⟨r, js⟩ := x
      obtain ⟨hid, rfl⟩ : r.id = q.id ∧ js = i :: is := by simpa [Layout.account, hx] using hh
      rw [hf.eq_of_id (hf.known.hand _ r _ hx).1 hq hid]
  have hsame (h : s'.hand (l.worker q.thread) = s.hand (l.worker q.thread)) : False := by
    simp [Layout.account, h, hin] at hh'
  cases hm with
  | issue r hidle =>
    refine (hsame ?_).elim
    rw [Control.hand_issue, Function.update_of_ne]
    intro hv
    rw [← hv] at hidle
    simp [Control.hand_of_idle hidle] at hin
  | finish v r hr =>
    refine (hsame ?_).elim
    rw [Control.hand_finish, Function.update_of_ne]
    rintro rfl
    simp [hr] at hin
  | serve v ptr r j js es s' hr ht hc =>
    have hhand : s'.hand = Function.update s.hand v
        (if es.any Ev.isPark then none else some (r, js)) := by
      rw [hc.hand, Control.take, Control.hand_records]
    by_cases hv : l.worker q.thread = v
    · subst hv
      obtain ⟨rfl, rfl, rfl⟩ : r = q ∧ j = i ∧ js = is := by simpa [hr] using hin
      refine ⟨ptr, rfl, hr, ?_⟩
      obtain ⟨e, rfl, he, -⟩ | ⟨rfl, -, -⟩ | ⟨rfl, -⟩ :=
        ht.work.access_cases (by simp [hop, Op.isLock])
      · have hpark : e.isPark = false := by
          cases e <;> first | rfl | cases he
        simp [Layout.account, hhand, hpark] at hh'
      · simp [Layout.account, hhand, Ev.isPark] at hh'
      · exact inTransitionAt_of_park ht.step hop ht.log
    · refine (hsame ?_).elim
      rw [hhand, Function.update_of_ne hv]
  | resume v j r s' hr hq' ht hc =>
    refine (hsame ?_).elim
    rw [hc.hand, Control.hand_resume, Function.update_of_ne]
    rintro rfl
    simp [hr] at hin
  | unlock thread addr es s' hidle ht hc =>
    refine (hsame ?_).elim
    rw [hc.hand, Control.hand_records]
  | handler a u j x es s' ha hx hu ht hc =>
    refine (hsame ?_).elim
    rw [hc.hand, Control.hand_records]

/-- Every block of an issued WRITE has been written once, or will be. -/
def WritesOnce (l : Layout V) (s : Sys V) : Prop :=
  ∀ q ∈ s.issued, q.op = .write → ∀ i ∈ q.span, (l.account s q).total q.span i = 1

theorem Moved.writesOnce (hm : l.Moved f mem s a s') (hb : l.Booked s) (hn : l.NotLate a s)
    (h : l.WritesOnce s) : l.WritesOnce s' := by
  have hkeep {q : Request} (hq : q ∈ s.issued) (hop : q.op = .write)
      (ha : ∀ r, a = .issue r → r.id ≠ q.id) {i : Nat} (hi : i ∈ q.span) :
      (l.account s' q).total q.span i = 1 := by
    have hl : q.op.isLock = false := by simp [hop, Op.isLock]
    obtain heq | ⟨-, hs⟩ := hm.advances hb.filed hl (.inl hq) ha
    · rw [heq]
      exact h q hq hop i hi
    · rw [(hs.total (hb.balanced q hq hl) q.nodup_span hi).2 ?_]
      · exact h q hq hop i hi
      · intro j js hh hh'
        obtain ⟨ptr, rfl, hin, ht⟩ := hm.late hq hb.filed hop hh hh'
        by_contra hne
        simp [hn q j js hin hop hne] at ht
  intro q hq hop i hi
  obtain ⟨ha, hfile⟩ | ⟨r, rfl, hid, hfile⟩ := hm.file
  · have hiss : s'.issued = s.issued := congrArg Prod.snd hfile
    exact hkeep (hiss ▸ hq) hop (fun r hr => absurd hr (ha r)) hi
  · have hiss : s'.issued = s.issued ++ [r] := congrArg Prod.snd hfile
    rw [hiss] at hq
    rcases List.mem_append.mp hq with hq | hq
    · refine hkeep hq hop (fun x hx => ?_) hi
      obtain rfl : r = x := by simpa using hx
      rw [hid]
      exact (hb.filed.below q hq).ne'
    · obtain rfl := List.mem_singleton.mp hq
      rw [hm.start (hb.blank q (by simp [hop, Op.isLock]) hid.ge)]
      simp [Account.total, Account.rest, Account.start, Account.queued,
        List.count_eq_one_of_mem q.nodup_span hi]

end Layout

/-! ## The order of the WRITEs -/

def Ev.effect? : Ev V → Option Request
  | .effect q => some q
  | _ => none

/-- The WRITEs of a block in the order in which they took effect. -/
def Block.writes (b : Block V) : List Request := b.log.filterMap Ev.effect?

/-- `d` is the block's copy that counts: that of a line in CACHE_DIRTY, or the memory of the home
while nobody owns the block. -/
def Block.Current (b : Block V) (d : Data) : Prop :=
  (∃ w ln, (b.cacher w).line = some ln ∧ ln.state = .dirty ∧ ln.data = d) ∨
  (b.home.entry.inTransition = false ∧ b.home.entry.getState ≠ .dirty ∧ b.home.mem = d)

/-- A WRITE to block `i`. -/
def Request.writesTo (i : Nat) (q : Request) : Bool := q.op == .write && q.span.contains i

/-- The same function, once for each WRITE. -/
theorem foldl_apply_eq_iterate {i : Nat} {g : Data → Data} {order : List Request}
    (h : ∀ q ∈ order, q.op = .write ∧ q.gfunc = some g) (d : Data) :
    order.foldl (fun d q => q.apply i d) d = g^[order.length] d := by
  induction order generalizing d with
  | nil => rfl
  | cons q order ih =>
    obtain ⟨hop, hg⟩ := h q List.mem_cons_self
    rw [List.foldl_cons, ih (fun r hr => h r (List.mem_cons_of_mem _ hr)), List.length_cons,
      Function.iterate_succ_apply, Request.apply, hop]
    simp only [hg]

theorem Block.mem_writes {b : Block V} {q : Request} : q ∈ b.writes ↔ .effect q ∈ b.log := by
  simp only [writes, List.mem_filterMap]
  constructor
  · rintro ⟨e, he, hq⟩
    cases e with
    | effect r =>
      obtain rfl : r = q := by simpa [Ev.effect?] using hq
      exact he
    | _ => cases hq
  · exact fun he => ⟨_, he, rfl⟩

theorem Block.value_eq_foldl (i : Nat) (mem : Data) (log : List (Ev V)) :
    Block.value i mem log =
      (log.filterMap Ev.effect?).foldl (fun d q => q.apply i d) mem := by
  unfold Block.value
  induction log generalizing mem with
  | nil => rfl
  | cons e log ih => cases e <;> simp [List.filterMap_cons, Ev.effect?, ih]

theorem count_writes_le (log : List (Ev V)) (k : Nat) :
    ((log.filterMap Ev.effect?).map Request.id).count k ≤ log.countP (Ev.serves k) := by
  induction log with
  | nil => simp
  | cons e log ih =>
    cases e with
    | effect q =>
      simp only [List.filterMap_cons, Ev.effect?, List.map_cons, List.count_cons,
        List.countP_cons, Ev.serves]
      by_cases hq : q.id = k
      · simpa [hq] using ih
      · simpa [hq] using ih
    | _ =>
      refine le_trans ?_ (List.sublist_cons_self _ log).countP_le
      simpa [List.filterMap_cons, Ev.effect?] using ih

theorem Good.current [DecidableEq V] {f : Slack} {i : Nat} {mem₀ : Data} {b : Block V}
    (hg : Good f i mem₀ b) {d : Data} (hd : b.Current d) :
    d = b.writes.foldl (fun d q => q.apply i d) mem₀ := by
  obtain ⟨role, tok, hi⟩ := hg
  rw [Block.writes, ← Block.value_eq_foldl]
  obtain ⟨w, ln, hl, hs, rfl⟩ | ⟨ht, hs, rfl⟩ := hd
  · exact ((hi.worker w).cfg.line_dirty hl hs).2.2.2
  · exact hi.phase.mem_eq ht hs

namespace Layout

variable [DecidableEq V] {l : Layout V} {f : Slack} {mem : Nat → Data} {s s' : Sys V} {a : SysAct V}
  {q : Request} {i : Nat}

/-- The WRITEs of block `i` took effect one after the other, each once, those that are done
included, and the block has the value they make of its first one. -/
structure Serialised (mem : Nat → Data) (s : Sys V) (i : Nat) : Prop where
  nodup : ((s.blk i).writes.map Request.id).Nodup
  sound : ∀ q ∈ (s.blk i).writes, q ∈ s.issued ∧ q.op = .write ∧ i ∈ q.span
  complete : ∀ q ∈ s.issued, q.op = .write → i ∈ q.span →
    s.hist.countP (Happened.tells q.id) ≠ 0 → q ∈ (s.blk i).writes
  current : ∀ d, (s.blk i).Current d →
    d = (s.blk i).writes.foldl (fun d q => q.apply i d) (mem i)

/-- A WRITE that is done has taken effect on all its blocks. -/
theorem Booked.effect_mem (hb : l.Booked s) (hl : s.Logged) (hq : q ∈ s.issued) (hop : q.op = .write)
    (hi : i ∈ q.span) (ht : s.hist.countP (Happened.tells q.id) ≠ 0) :
    .effect q ∈ (s.blk i).log := by
  have hlock : q.op.isLock = false := by simp [hop, Op.isLock]
  obtain ⟨e, he, hserves⟩ :=
    List.countP_pos_iff.mp (((hb.balanced q hq hlock).of_told ht).2 i hi)
  cases e with
  | copyOut r d =>
    have hr := hb.filed.eq_of_id (hl.issued i _ he r rfl).1 hq (by simpa [Ev.serves] using hserves)
    have hkind : r.op = .read := hl.kind i _ he
    rw [hr, hop] at hkind
    cases hkind
  | effect r =>
    have hr := hb.filed.eq_of_id (hl.issued i _ he r rfl).1 hq (by simpa [Ev.serves] using hserves)
    exact hr ▸ he
  | _ => cases hserves

theorem WritesOnce.serialised (h : l.WritesOnce s) (hb : l.Booked s) (hl : s.Logged)
    (hg : Good f i (mem i) (s.blk i)) : Serialised mem s i := by
  have hsound : ∀ q ∈ (s.blk i).writes, q ∈ s.issued ∧ q.op = .write ∧ i ∈ q.span := by
    intro q hq
    have he := Block.mem_writes.mp hq
    obtain ⟨hiss, hspan⟩ := hl.issued i _ he q rfl
    exact ⟨hiss, hl.kind i _ he, hspan⟩
  refine ⟨List.nodup_iff_count_le_one.mpr fun k => ?_, hsound, fun q hq hop hi ht => ?_,
    fun d hd => hg.current hd⟩
  · by_cases hk : k ∈ (s.blk i).writes.map Request.id
    · obtain ⟨q, hq, rfl⟩ := List.mem_map.mp hk
      obtain ⟨hiss, hop, hspan⟩ := hsound q hq
      have htotal := h q hiss hop i hspan
      have hle := count_writes_le (s.blk i).log q.id
      have hserved : (l.account s q).served i = (s.blk i).log.countP (Ev.serves q.id) := rfl
      unfold Account.total at htotal
      exact hle.trans (by omega)
    · rw [List.count_eq_zero_of_not_mem hk]
      exact Nat.zero_le 1
  · exact Block.mem_writes.mpr (hb.effect_mem hl hq hop hi ht)

theorem writesOnce_of_reaches {ok : SysAct V → Sys V → Prop} (hroom : ∀ a t, ok a t → l.Room a t)
    (hlate : ∀ a t, Reaches l.step ok (Sys.init mem) t → ok a t → l.NotLate a t)
    (h : Reaches l.step ok (Sys.init mem) s) : l.WritesOnce s := by
  refine h.invariant_along (by simp [WritesOnce, Sys.init, Control.issued]) ?_
  intro a t t' hr hw ha hs
  exact (step_moved (l.good_blk_all (hr.mono hroom)) hs).writesOnce (booked_of_reaches hroom hr)
    (hlate a t hr ha) hw

/-- The order of the WRITEs only grows. -/
theorem Moved.writes_grow (hm : l.Moved f mem s a s') (i : Nat) :
    (s.blk i).writes <+: (s'.blk i).writes := by
  obtain hblk | ⟨u, j, x, es, ht, -⟩ := hm.turn
  · rw [hblk]
  · by_cases hj : i = j
    · subst hj
      rw [Block.writes, Block.writes, ht.log, List.filterMap_append]
      exact List.prefix_append _ _
    · rw [ht.others i hj]

/-- In every run in which no WRITE is parked after its loop has passed its first block, the WRITEs
of every block are serialised, and their order is never changed later. -/
theorem serialised_of_reaches {t : Sys V}
    (h : Reaches l.step (fun a s => l.Room a s ∧ l.NotLate a s) (Sys.init mem) s)
    (h' : Reaches l.step (fun a s => l.Room a s ∧ l.NotLate a s) s t) (i : Nat) :
    Serialised mem t i ∧ (s.blk i).writes <+: (t.blk i).writes := by
  have ht : Reaches l.step (fun a s => l.Room a s ∧ l.NotLate a s) (Sys.init mem) t :=
    Relation.ReflTransGen.trans h h'
  refine ⟨?_, ?_⟩
  · exact (writesOnce_of_reaches (fun _ _ h => h.1) (fun _ _ _ h => h.2) ht).serialised
      (booked_of_reaches (fun _ _ h => h.1) ht) (logged_of_reaches (fun _ _ h => h.1) ht)
      (l.good_blk_all (ht.mono fun _ _ h => h.1) i)
  · refine Reaches.invariant_along (I := fun x => (s.blk i).writes <+: (x.blk i).writes)
      (List.prefix_refl _) ?_ h'
    intro a x x' hr hp _ hs
    have hrx : Reaches l.step l.Room (Sys.init mem) x :=
      Reaches.mono (fun _ _ h => h.1) (Relation.ReflTransGen.trans h hr)
    exact hp.trans ((step_moved (l.good_blk_all hrx) hs).writes_grow i)

instance (l : Layout V) (a : SysAct V) (s : Sys V) : Decidable (l.NotLate a s) :=
  match a with
  | .serve v ptr =>
    match hh : s.hand v with
    | some (q, i :: is) =>
      decidable_of_iff (q.op = .write → i :: is ≠ q.span →
        (s.blk i).inTransitionAt (l.place v i) = false) (by
          simp only [NotLate, hh, Option.some.injEq, Prod.mk.injEq, List.cons.injEq]
          constructor
          · rintro h r j js ⟨rfl, rfl, rfl⟩
            exact h
          · exact fun h => h q i is ⟨rfl, rfl, rfl⟩)
    | some (q, []) => isTrue (by simp [NotLate, hh])
    | none => isTrue (by simp [NotLate, hh])
  | .issue _ | .finish _ | .resume _ | .replay _ | .unlock .. | .evict .. | .complete .. |
    .recvHome .. | .recv .. | .recvPeer .. => isTrue trivial

/-- A WRITE over two blocks of the home, with a READ of the other worker in between. -/
def twoBlocks : List (SysAct Bool) :=
  [.issue { id := 0, thread := 0, op := .write, addr := 510, size := 4, ptr := fun _ => 7 },
    .serve false 0, .serve false 0, .finish false,
    .issue { id := 1, thread := 1, op := .read, addr := 512, size := 1 }, .serve true 0, .finish true,
    .recvHome true 1, .recv true 1]

theorem serialised_twoBlocks : ∃ s, Reaches twoWorkers.step
      (fun a s => twoWorkers.Room a s ∧ twoWorkers.NotLate a s) (Sys.init fun _ _ => 0) s ∧
    (s.blk 1).writes.map Request.id = [0] ∧ Serialised (fun _ _ => 0) s 1 := by
  obtain ⟨s, hr, hw⟩ := Reaches.exists_of_runs twoWorkers.step
    (fun a s => twoWorkers.Room a s ∧ twoWorkers.NotLate a s) twoBlocks (Sys.init fun _ _ => 0)
    (fun s => (s.blk 1).writes.map Request.id = [0]) (by decide)
  exact ⟨s, hr, hw, (serialised_of_reaches hr .refl 1).1⟩

/-! ## WRITEs of one block -/

/-- RLOCKs find room, and the WRITEs that are issued lie in one block, as those with a GFUNC do. -/
def OneBlock (l : Layout V) (a : SysAct V) (s : Sys V) : Prop :=
  l.Room a s ∧ ∀ q ∈ a.issued?, q.op = .write → q.span.length ≤ 1

instance (l : Layout V) (a : SysAct V) (s : Sys V) : Decidable (l.OneBlock a s) :=
  inferInstanceAs (Decidable (_ ∧ ∀ q ∈ a.issued?, _))

theorem notLate_of_oneBlock (h : Reaches l.step l.OneBlock (Sys.init mem) s) (a : SysAct V) :
    l.NotLate a s := by
  have hknown := known_of_reaches (P := fun q => q.op = .write → q.span.length ≤ 1)
    (fun _ _ h => h.1) (fun q _ h => h.2 q rfl) h
  have hb := booked_of_reaches (fun _ _ h => h.1) h
  cases a with
  | serve v ptr =>
    intro q j js hh hop hne
    obtain ⟨hiss, hv, -⟩ := hb.filed.known.hand v q _ hh
    have hrest : (l.account s q).rest = j :: js := by
      simp [Account.rest, account, ← hv, hh]
    have hsuffix := (hb.balanced q hiss (by simp [hop, Op.isLock])).rest
    rw [hrest] at hsuffix
    -- one block is left, and there is no other
    refine absurd (hsuffix.eq_of_length_le ?_) hne
    have := hknown.hand v q _ hh hop
    simp only [List.length_cons]
    omega
  | _ => trivial

/-- In every run of one-block WRITEs, once all WRITEs to a block are done, the block's value is the
first one after each of their functions has been applied once, in some order. -/
theorem exactlyOnce_of_reaches (h : Reaches l.step l.OneBlock (Sys.init mem) s) (i : Nat)
    (hall : ∀ q ∈ s.issued, q.writesTo i = true → s.hist.countP (Happened.tells q.id) ≠ 0) :
    ∃ order : List Request, order.Perm (s.issued.filter (Request.writesTo i)) ∧
      ∀ d, (s.blk i).Current d → d = order.foldl (fun d q => q.apply i d) (mem i) ∧
      ∀ g, (∀ q ∈ order, q.gfunc = some g) → d = g^[order.length] (mem i) := by
  have hb := booked_of_reaches (fun _ _ h => h.1) h
  have hser := (writesOnce_of_reaches (fun _ _ h => h.1) (fun a _ hr _ => notLate_of_oneBlock hr a)
    h).serialised hb (logged_of_reaches (fun _ _ h => h.1) h)
    (l.good_blk_all (h.mono fun _ _ h => h.1) i)
  refine ⟨(s.blk i).writes, ?_, fun d hd => ⟨hser.current d hd, fun g hg => ?_⟩⟩
  · refine (List.perm_ext_iff_of_nodup (.of_map _ hser.nodup)
      ((List.Nodup.of_map _ hb.filed.nodup).filter _)).mpr fun q => ?_
    rw [List.mem_filter]
    constructor
    · intro hq
      obtain ⟨hiss, hop, hi⟩ := hser.sound q hq
      exact ⟨hiss, by simp [Request.writesTo, hop, hi]⟩
    · rintro ⟨hiss, hw⟩
      obtain ⟨hop, hi⟩ : q.op = .write ∧ i ∈ q.span := by simpa [Request.writesTo] using hw
      exact hser.complete q hiss hop hi (hall q hiss hw)
  · rw [hser.current d hd]
    refine foldl_apply_eq_iterate (fun q hq => ?_) (mem i)
    exact ⟨(hser.sound q hq).2.1, hg q hq⟩

/-- The GFUNC `Incr` on the first byte of a block. -/
def incr (d : Data) : Data := Function.update d 0 (d 0 + 1)

/-- Two remote increments of one byte: the first fetches the block, the second finds it. -/
def increments : List (SysAct Bool) :=
  [.issue { id := 0, thread := 1, op := .write, addr := 0, size := 1, gfunc := some incr },
    .serve true 0, .finish true, .recvHome true 0, .recv true 0, .recv true 0, .replay true,
    .issue { id := 1, thread := 1, op := .write, addr := 0, size := 1, gfunc := some incr },
    .serve true 0, .finish true]

theorem exactlyOnce_increments : ∃ s,
    Reaches twoWorkers.step twoWorkers.OneBlock (Sys.init fun _ _ => 0) s ∧
    (∃ d, (s.blk 0).Current d ∧ d 0 = 2) ∧
    ∃ order : List Request, order.Perm (s.issued.filter (Request.writesTo 0)) ∧
      ∀ d, (s.blk 0).Current d → d = order.foldl (fun d q => q.apply 0 d) fun _ => 0 := by
  obtain ⟨s, hr, hall, hd⟩ := Reaches.exists_of_runs twoWorkers.step twoWorkers.OneBlock increments
    (Sys.init fun _ _ => 0)
    (fun s => (∀ q ∈ s.issued, q.writesTo 0 = true → s.hist.countP (Happened.tells q.id) ≠ 0) ∧
      ((s.blk 0).cacher true).line.any (fun ln => ln.state = .dirty && ln.data 0 == 2) = true)
    (by decide)
  obtain ⟨ln, hl, hln⟩ := (Option.any_eq_true _ _).mp hd
  obtain ⟨hs, h2⟩ : ln.state = .dirty ∧ ln.data 0 = 2 := by simpa using hln
  obtain ⟨order, hperm, hcur⟩ := exactlyOnce_of_reaches hr 0 hall
  exact ⟨s, hr, ⟨ln.data, .inl ⟨true, ln, hl, hs, rfl⟩, h2⟩, order, hperm, fun d hd => (hcur d hd).1⟩

end Layout

end HwGam.Coherence
