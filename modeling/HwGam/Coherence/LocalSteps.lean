import HwGam.Coherence.Config

/-!
# Local requests at a caching worker

What `access`, `unLock`, `evict` and `complete` can do (`Served`), and that each of it keeps the
configuration of the worker's role. Only a write on a dirty line changes the block's value.
-/

namespace HwGam.Coherence

variable {W : Type*} {f : Slack} {i : Nat} {cur : Data} {role : Role} {c : Cacher W} {w : W}
  {q : Request} {ptr : Ptr} {parked : List Own} {o : Cacher.Result W}

/-! ## How the operations of a worker change its view -/

section
variable (c)

@[simp] theorem view_park (q : Request) : (c.park q).view parked = c.view parked := rfl

@[simp] theorem view_parkRemote (a : Ask W) : (c.parkRemote a).view parked = c.view parked := rfl

@[simp] theorem view_processToServe : c.processToServe.view parked = c.view parked := rfl

@[simp] theorem view_done :
    c.done.view parked = { c.view parked with pending := none } := rfl

@[simp] theorem view_mapLine (g : Line → Line) :
    (c.mapLine g).view parked = { c.view parked with line := c.line.map g } := rfl

@[simp] theorem view_send_own (o : Own) :
    (c.send (.own o)).view parked =
      { c.view parked with out := (c.view parked).out ++ [o] } := by
  simp [Cacher.view, Cacher.send, Cacher.inFlight, Cacher.replies]

@[simp] theorem view_send_ack (a : Ack) : (c.send (.ack a)).view parked = c.view parked := by
  simp [Cacher.view, Cacher.send, Cacher.inFlight, Cacher.replies]

@[simp] theorem view_send_rdmaWrite (d : Data) :
    (c.send (.rdmaWrite d)).view parked = c.view parked := by
  simp [Cacher.view, Cacher.send, Cacher.inFlight, Cacher.replies]

/-- A request goes to the home on behalf of a new pending request. -/
theorem out_pend (o : Own) (l : Option Line) (x : Option Pending) :
    (({ c with line := l, pending := x }.send (.own o)).view parked).out =
      (c.view parked).out ++ [o] := by
  rw [view_send_own]
  rfl

@[simp] theorem view_line : (c.view parked).line = c.line := rfl

@[simp] theorem view_pending : (c.view parked).pending = c.pending := rfl

end

/-! ## What a local request can do -/

/-- The state of a line that serves a READ directly. -/
def Line.readable (l : Line) : Prop :=
  l.state = .shared ∨ l.state = .dirty ∨ l.state = .toInvalid ∨
    (l.state = .toDirty ∧ l.locks.isBlockLocked = true)

inductive Served (i : Nat) (c : Cacher W) (w : W) (q : Request) (ptr : Ptr) :
    Cacher.Result W → Prop
  | hit (l : Line) (hl : c.line = some l) (hs : l.readable) (hq : q.op = .read) :
    Served i c w q ptr { st := c, evs := [.copyOut q l.data] }
  | park (hq : q.op.isLock = true ∨ ∃ l ∈ c.line, l.state.inTransition = true) :
    Served i c w q ptr { st := c.park q, evs := [.park q] }
  | fail (hq : q.op.isTry = true) : Served i c w q ptr { st := c, evs := [.fail q] }
  | miss (hl : c.line = none) : Served i c w q ptr (c.miss q ptr)
  | upgrade (l : Line) (hl : c.line = some l) (hs : l.state = .shared)
      (hq : q.op = .write ∨ ∃ t, q.op = .wlock t) : Served i c w q ptr (c.upgrade i l q)
  | effect (l : Line) (hl : c.line = some l) (hs : l.state = .dirty) (hq : q.op = .write) :
    Served i c w q ptr { st := { c with line := some { l with data := q.apply i l.data } },
                         evs := [.effect q] }
  | rlock (l : Line) (hl : c.line = some l) (hs : l.state = .shared ∨ l.state = .dirty)
      (hq : ∃ t, q.op = .rlock t) (hn : l.locks.lookup q.addr ≠ some exclusive) :
    Served i c w q ptr { st := { c with line := some { l with locks := l.locks.share q.addr } },
                         evs := [.lock (some w) q] }
  | wlock (l : Line) (hl : c.line = some l) (hs : l.state = .dirty)
      (hq : ∃ t, q.op = .wlock t) (hn : l.locks.lookup q.addr = none) :
    Served i c w q ptr
      { st := { c with line := some { l with locks := l.locks.insert q.addr exclusive } },
        evs := [.lock (some w) q] }

theorem served_readWrite (hq : q.op = .read ∨ q.op = .write) :
    Served i c w q ptr (c.readWrite i q ptr) := by
  unfold Cacher.readWrite
  split
  · exact .miss ‹_›
  · rename_i l hl
    split
    · rename_i h
      exact .hit l hl (.inr (.inr (.inl h.1))) h.2
    split
    · rename_i h
      exact .hit l hl (.inr (.inr (.inr ⟨h.1, h.2.2⟩))) h.2.1
    split
    · exact .park (.inr ⟨l, hl, ‹_›⟩)
    rename_i hst
    have hst : l.state = .shared ∨ l.state = .dirty := by
      cases hl' : l.state <;> simp_all [CacheState.inTransition]
    split
    · rename_i h
      exact .hit l hl (hst.imp id .inl) h
    rename_i hread
    split
    · exact .upgrade l hl (hst.resolve_right ‹_›) (.inl (hq.resolve_left hread))
    · rename_i hd
      exact .effect l hl (by simpa using hd) (hq.resolve_left hread)

theorem served_lockLater (hq : q.op.isLock = true) : Served i c w q ptr (c.lockLater q) := by
  unfold Cacher.lockLater
  split
  · exact .fail ‹_›
  · exact .park (.inl hq)

theorem served_lock {shared : Bool} (hq : if shared then ∃ t, q.op = .rlock t
    else ∃ t, q.op = .wlock t) : Served i c w q ptr (c.lock i shared w q ptr) := by
  have hlock : q.op.isLock = true := by
    cases shared <;> obtain ⟨t, hq⟩ := hq <;> rw [hq] <;> rfl
  unfold Cacher.lock
  split
  · exact .miss ‹_›
  · rename_i l hl
    split
    · exact .park (.inr ⟨l, hl, ‹_›⟩)
    rename_i hst
    have hst : l.state = .shared ∨ l.state = .dirty := by
      cases hl' : l.state <;> simp_all [CacheState.inTransition]
    split
    · rename_i hsh
      split
      · exact served_lockLater hlock
      · exact .rlock l hl hst (by simpa [hsh] using hq) ‹_›
    rename_i hsh
    split
    · exact .upgrade l hl (hst.resolve_right ‹_›) (.inr (by simpa [hsh] using hq))
    rename_i hd
    split
    · exact served_lockLater hlock
    · rename_i hn
      exact .wlock l hl (by simpa using hd) (by simpa [hsh] using hq) (by simpa using hn)

theorem served_access : Served i c w q ptr (c.access i w q ptr) := by
  unfold Cacher.access
  split
  · exact served_readWrite (.inl ‹_›)
  · exact served_readWrite (.inr ‹_›)
  · exact served_lock ⟨_, ‹_›⟩
  · exact served_lock ⟨_, ‹_›⟩

theorem Served.sent (h : Served i c w q ptr o) : o.sent = [] := by
  cases h with
  | miss =>
    unfold Cacher.miss
    split <;> rfl
  | _ => rfl

/-! ## What the state of the line says about the rest of the view -/

section
variable {v : View W} {l : Line}

/-- Nothing is on its way between the worker and the home, and no request is pending. -/
structure View.Quiet (v : View W) : Prop where
  pending : v.pending = none
  out : v.out = []
  rep : v.rep = []
  fwd : v.fwd = []

theorem Cfg.line_none (h : Cfg f i cur role v) (hl : v.line = none) :
    (v.pending = none ∧ v.rep = [] ∧ v.fwd = []) ∧
    ((role = .idle ∧ ∃ e, v.out = Coherence.evicted e) ∨
      ∃ p, role = .sharer p ∧ v.out = [.activeInvalidate p]) := by
  cases role with
  | idle =>
    cases h with
    | absent e _ hp ho hr hf => exact ⟨⟨hp, hr, hf⟩, .inl ⟨rfl, e, ho⟩⟩
    | _ => simp_all
  | sharer p =>
    cases h with
    | evicted _ hp ho hr hf => exact ⟨⟨hp, hr, hf⟩, .inr ⟨p, rfl, ho⟩⟩
    | _ => simp_all
  | _ => cases h <;> simp_all

theorem Cfg.line_shared (h : Cfg f i cur role v) (hl : v.line = some l) (hs : l.state = .shared) :
    (v.Quiet ∧ l.locks.Below exclusive) ∧
    ((role = .idle ∧ f.stale = true) ∨ (role = .sharer l.ptr ∧ l.data = cur)) := by
  cases role with
  | idle =>
    cases h with
    | stale l' hst hl' _ hw hp ho hr hf =>
      obtain rfl : l = l' := by simpa [hl] using hl'
      exact ⟨⟨⟨hp, ho, hr, hf⟩, hw⟩, .inl ⟨rfl, hst⟩⟩
    | _ => grind
  | sharer p =>
    cases h with
    | shared l' hl' _ hptr hd hw hp ho hr hf =>
      obtain rfl : l = l' := by simpa [hl] using hl'
      exact ⟨⟨⟨hp, ho, hr, hf⟩, hw⟩, .inr ⟨by rw [hptr], hd⟩⟩
    | _ => grind
  | _ => cases h <;> grind

theorem Cfg.line_dirty (h : Cfg f i cur role v) (hl : v.line = some l) (hs : l.state = .dirty) :
    v.Quiet ∧ l.locks.Below (exclusive + 1) ∧ role = .owner l.ptr ∧ l.data = cur := by
  cases role with
  | owner p =>
    cases h with
    | dirty l' hl' _ hptr hd hw hp ho hr hf =>
      obtain rfl : l = l' := by simpa [hl] using hl'
      exact ⟨⟨hp, ho, hr, hf⟩, hw, by rw [hptr], hd⟩
    | _ => grind
  | _ => cases h <;> grind

end

/-! ## Every local request keeps the configuration -/

theorem Block.value_append (mem : Data) (l₁ l₂ : List (Ev W)) :
    Block.value i mem (l₁ ++ l₂) = Block.value i (Block.value i mem l₁) l₂ := by
  simp [Block.value]

/-- An RLOCK that is counted finds room for one more reader. -/
def Cacher.hasRoom (c : Cacher W) (q : Request) : Prop :=
  q.op.isRLock = true → ∀ l ∈ c.line, l.locks.hasRoom q.addr

theorem WriteLine.new {l : Line} (hs : l.state = .toDirty) (hl : l.locks.isBlockLocked = false) :
    WriteLine l .write where
  state := hs
  notRead := (by rintro ⟨⟩)
  locks := .of_not_isBlockLocked hl
  unlocked _ := hl

theorem Cfg.miss (h : Cfg f i cur role (c.view parked)) (hl : c.line = none) :
    Cfg f i cur role ((c.miss q ptr).st.view parked) := by
  obtain ⟨⟨hp, hr, hf⟩, hrole⟩ := h.line_none hl
  unfold Cacher.miss
  obtain ⟨rfl, e, ho⟩ | ⟨p, rfl, ho⟩ := hrole
  · split
    · exact Idle.read e _ q rfl ⟨rfl, rfl⟩ rfl (by rw [out_pend, ho]) hr hf
    · exact Idle.read e _ q rfl ⟨rfl, rfl⟩ rfl (by rw [out_pend, ho]) hr hf
    · exact Idle.write e _ q rfl (.new rfl rfl) rfl (by rw [out_pend, ho]) hr hf
    · exact Idle.write e _ q rfl (.new rfl rfl) rfl (by rw [out_pend, ho]) hr hf
  · split
    · exact Sharer.reread _ q rfl ⟨rfl, rfl⟩ rfl (by rw [out_pend, ho]; rfl) hr hf
    · exact Sharer.reread _ q rfl ⟨rfl, rfl⟩ rfl (by rw [out_pend, ho]; rfl) hr hf
    · exact Sharer.rewrite _ q rfl (.new rfl rfl) rfl (by rw [out_pend, ho]; rfl) hr hf
    · exact Sharer.rewrite _ q rfl (.new rfl rfl) rfl (by rw [out_pend, ho]; rfl) hr hf

theorem Cfg.upgrade {l : Line} (h : Cfg f i cur role (c.view parked)) (hl : c.line = some l)
    (hs : l.state = .shared) : Cfg f i cur role ((c.upgrade i l q).st.view parked) := by
  obtain ⟨⟨⟨-, ho, hr, hf⟩, hw⟩, hrole⟩ := h.line_shared hl hs
  have hout : ((c.upgrade i l q).st.view parked).out = [.writePermissionOnly l.ptr q.op.isTry] := by
    rw [Cacher.upgrade, out_pend, ho]
    rfl
  have hline : WriteLine { l with state := .toDirty, data := q.early i l.data }
      .writePermissionOnly := ⟨rfl, (by rintro ⟨⟩), hw, (by rintro ⟨⟩)⟩
  obtain ⟨rfl, hst⟩ | ⟨rfl, hd⟩ := hrole
  · exact Idle.upgrade _ q rfl hline ⟨fun _ _ => hst, fun _ _ => .inr hst⟩ rfl hout hr hf
  · exact Sharer.upgrade _ q rfl hline rfl (congrArg (q.early i) hd) rfl (.inl ⟨hout, hr⟩) hf

theorem Cfg.served (h : Cfg f i cur role (c.view parked)) (hs : Served i c w q ptr o)
    (hroom : c.hasRoom q) :
    Cfg f i (Block.value i cur o.evs) role (o.st.view parked) ∧
      (role.isOwner = true ∨ Block.value i cur o.evs = cur) := by
  cases hs with
  | hit | park | fail => exact ⟨h, .inr rfl⟩
  | miss hl =>
    have hv : Block.value i cur (c.miss q ptr).evs = cur := by
      unfold Cacher.miss
      split <;> rfl
    rw [hv]
    exact ⟨h.miss hl, .inr rfl⟩
  | upgrade l hl hs => exact ⟨h.upgrade hl hs, .inr rfl⟩
  | effect l hl hs hq =>
    obtain ⟨⟨hp, ho, hr, hf⟩, hw, rfl, hd⟩ := h.line_dirty hl hs
    exact ⟨Owner.dirty _ rfl hs rfl (congrArg (q.apply i) hd) hw hp ho hr hf, .inl rfl⟩
  | rlock l hl hs hq hn =>
    obtain ⟨t, hq⟩ := hq
    have hroom : l.locks.hasRoom q.addr := hroom (by rw [hq]; rfl) l hl
    refine ⟨?_, .inr rfl⟩
    obtain hs | hs := hs
    · obtain ⟨⟨⟨hp, ho, hr, hf⟩, hw⟩, hrole⟩ := h.line_shared hl hs
      have hw := hw.share le_rfl hn hroom (Nat.le_succ _)
      obtain ⟨rfl, hst⟩ | ⟨rfl, hd⟩ := hrole
      · exact Idle.stale _ hst rfl hs hw hp ho hr hf
      · exact Sharer.shared _ rfl hs rfl hd hw hp ho hr hf
    · obtain ⟨⟨hp, ho, hr, hf⟩, hw, rfl, hd⟩ := h.line_dirty hl hs
      exact Owner.dirty _ rfl hs rfl hd (hw.share (Nat.le_succ _) hn hroom le_rfl) hp ho hr hf
  | wlock l hl hs hq hn =>
    obtain ⟨⟨hp, ho, hr, hf⟩, hw, rfl, hd⟩ := h.line_dirty hl hs
    exact ⟨Owner.dirty _ rfl hs rfl hd (hw.insert (Nat.lt_succ_self _)) hp ho hr hf, .inr rfl⟩

/-! ## Queues -/

/-- Neither the questions and answers nor the messages of the home change. -/
structure SameQueues (c c' : Cacher W) : Prop where
  asks : c'.asks = c.asks
  acks : c'.acks = c.acks
  fromHome : c'.fromHome = c.fromHome

theorem SameQueues.tok {t : Tok W} {c' : Cacher W} (h : SameQueues c c') (ht : TokOk t c) :
    TokOk t c' := by
  unfold TokOk at ht ⊢
  rwa [h.asks, h.acks]

theorem SameQueues.ord {c' : Cacher W} (h : SameQueues c c') (ho : Ordered c) : Ordered c' := by
  unfold Ordered at ho ⊢
  rwa [h.fromHome]

theorem acks_send_own {x : Own} : (c.send (.own x)).acks = c.acks := by
  simp [Cacher.acks, Cacher.send]

theorem SameQueues.served (hs : Served i c w q ptr o) : SameQueues c o.st := by
  cases hs with
  | hit | park | fail | effect | rlock | wlock => exact ⟨rfl, rfl, rfl⟩
  | miss =>
    unfold Cacher.miss
    split <;> exact ⟨rfl, acks_send_own, rfl⟩
  | upgrade => exact ⟨rfl, acks_send_own, rfl⟩

theorem Landing.noRdma {mem : Data} {t : Tok W} (h : Landing cur mem role t c)
    (hp : c.pending ≠ some .writeBack) : ∀ m ∈ c.toHome, m.isRdma = false := by
  cases h with
  | none hn => exact hn
  | before _ _ _ hp' => exact absurd hp' hp
  | after _ _ _ hp' => exact absurd hp' hp

theorem Landing.of_noRdma {mem : Data} {t : Tok W} (hn : ∀ m ∈ c.toHome, m.isRdma = false)
    (hp : c.pending ≠ some .writeBack) : Landing cur mem role t c :=
  .none hn fun _ h => absurd h hp

theorem Landing.same {mem : Data} {t : Tok W} {c' : Cacher W} (h : Landing cur mem role t c)
    (ht : c'.toHome = c.toHome) (hp : c'.pending = c.pending) : Landing cur mem role t c' := by
  cases h with
  | none hn hm => exact .none (ht ▸ hn) (hp ▸ hm)
  | before p post hq hp' hr => exact .before p post (ht ▸ hq) (hp ▸ hp') hr
  | after p a hq hp' hr => exact .after p a (ht ▸ hq) (hp ▸ hp') hr

theorem mem_send_own {x : Own} {m : ToHome} (h : m ∈ (c.send (.own x)).toHome) :
    m ∈ c.toHome ∨ m.isRdma = false := by
  obtain h | h := List.mem_append.mp h
  · exact .inl h
  · rw [List.mem_singleton.mp h]
    exact .inr rfl

/-- A local request leaves the line's writes to the home alone, or there are none. -/
theorem Served.toHome (h : Cfg f i cur role (c.view parked)) (hs : Served i c w q ptr o) :
    (o.st.toHome = c.toHome ∧ o.st.pending = c.pending ∧ Block.value i cur o.evs = cur) ∨
    (c.pending = none ∧ o.st.pending ≠ some .writeBack ∧
      ∀ m ∈ o.st.toHome, m ∈ c.toHome ∨ m.isRdma = false) := by
  cases hs with
  | hit | park | fail | rlock | wlock => exact .inl ⟨rfl, rfl, rfl⟩
  | miss hl =>
    refine .inr ⟨(h.line_none hl).1.1, ?_⟩
    unfold Cacher.miss
    split <;> exact ⟨(by rintro ⟨⟩), fun _ => mem_send_own⟩
  | upgrade l hl hs =>
    exact .inr ⟨(h.line_shared hl hs).1.1.pending, (by rintro ⟨⟩), fun _ => mem_send_own⟩
  | effect l hl hs =>
    have hp : c.pending = none := (h.line_dirty hl hs).1.pending
    exact .inr ⟨hp, by simp [hp], fun _ => .inl⟩

theorem At.served {mem : Data} {t : Tok W} (h : At f i cur mem parked role t c)
    (hs : Served i c w q ptr o) (hroom : c.hasRoom q) :
    At f i (Block.value i cur o.evs) mem parked role t o.st where
  cfg := (h.cfg.served hs hroom).1
  tok := (SameQueues.served hs).tok h.tok
  ord := (SameQueues.served hs).ord h.ord
  landing := by
    obtain ⟨ht, hp, hv⟩ | ⟨hp, hp', ht⟩ := hs.toHome h.cfg
    · rw [hv]
      exact h.landing.same ht hp
    · have hn := h.landing.noRdma (by simp [hp])
      exact .of_noRdma (fun m hm => (ht m hm).elim (hn m) id) hp'

/-! ## Unlocks, evictions and completions -/

@[simp] theorem asks_processToServe : c.processToServe.asks = c.asks := by
  have hl : (c.locals.map (Item.local (R := Ask W))).filterMap Item.remote? = [] := by
    simp [List.filterMap_map, Function.comp_def]
  simp [Cacher.asks, Cacher.processToServe, hl, List.filterMap_cons]

theorem SameQueues.processToServe : SameQueues c c.processToServe := ⟨asks_processToServe, rfl, rfl⟩

theorem SameQueues.done : SameQueues c c.done :=
  ⟨asks_processToServe (c := { c with pending := none }), rfl, rfl⟩

section
variable {l : Line} {addr : Nat}

theorem Line.unLock_unlocked (h : l.locks.isBlockLocked = false) :
    (l.unLock addr).locks.isBlockLocked = false := by
  rwa [Line.unLock, Locks.unLock_of_not_isBlockLocked h]

theorem ReadLine.unLock (h : ReadLine l) : ReadLine (l.unLock addr) :=
  ⟨h.state, Line.unLock_unlocked h.locks⟩

theorem LeavingLine.unLock (h : LeavingLine l) : LeavingLine (l.unLock addr) :=
  ⟨h.state, Line.unLock_unlocked h.locks⟩

theorem WriteLine.unLock {op : Fetch} (h : WriteLine l op) : WriteLine (l.unLock addr) op :=
  ⟨h.state, h.notRead, h.locks.unLock, fun ho => Line.unLock_unlocked (h.unlocked ho)⟩

theorem Lapsed.unLock {op : Fetch} (h : Lapsed f op l q) : Lapsed f op (l.unLock addr) q where
  stale := h.stale
  case3 ho hl := h.case3 ho (by
    cases hl' : l.locks.isBlockLocked with
    | true => rfl
    | false => simp [Line.unLock_unlocked hl'] at hl)

theorem Cfg.unLock {v : View W} (h : Cfg f i cur role v) :
    Cfg f i cur role { v with line := v.line.map (·.unLock addr) } := by
  have hm {l : Line} (hl : v.line = some l) : v.line.map (·.unLock addr) = some (l.unLock addr) := by
    rw [hl]
    rfl
  cases role with
  | idle => cases h with
    | absent e hl hp ho hr hf => exact Idle.absent e (by rw [hl]; rfl) hp ho hr hf
    | read e l q hl hs hp ho hr hf => exact Idle.read e _ q (hm hl) hs.unLock hp ho hr hf
    | readFailed l q st ht hl hs hp ho hrf =>
      exact Idle.readFailed _ q st ht (hm hl) hs.unLock hp ho hrf
    | write e l q hl hs hp ho hr hf => exact Idle.write e _ q (hm hl) hs.unLock hp ho hr hf
    | upgrade l q hl hs hq hp ho hr hf =>
      exact Idle.upgrade _ q (hm hl) hs.unLock hq.unLock hp ho hr hf
    | writeFailed op n st l q ht hl hs hq hp ho hrf =>
      exact Idle.writeFailed op n st _ q ht (hm hl) hs.unLock hq hp ho hrf
    | writeBack l p hl hs hp hor hf => exact Idle.writeBack _ p (hm hl) hs.unLock hp hor hf
    | invalidate l hl hs hp ho hr hf => exact Idle.invalidate _ (hm hl) hs.unLock hp ho hr hf
    | stale l hst hl hs hw hp ho hr hf => exact Idle.stale _ hst (hm hl) hs hw.unLock hp ho hr hf
  | sharer p => cases h with
    | shared l hl hs hptr hd hw hp ho hr hf =>
      exact Sharer.shared _ (hm hl) hs hptr hd hw.unLock hp ho hr hf
    | evicted hl hp ho hr hf => exact Sharer.evicted (by rw [hl]; rfl) hp ho hr hf
    | arriving l q hl hs hptr hp ho hrf =>
      exact Sharer.arriving _ q (hm hl) hs.unLock hptr hp ho hrf
    | reread l q hl hs hp ho hr hf => exact Sharer.reread _ q (hm hl) hs.unLock hp ho hr hf
    | rewrite l q hl hs hp ho hr hf => exact Sharer.rewrite _ q (hm hl) hs.unLock hp ho hr hf
    | upgrade l q hl hs hptr hd hp hor hf =>
      exact Sharer.upgrade _ q (hm hl) hs.unLock hptr hd hp hor hf
    | writeBack l hl hs hptr hd hp ho hr hf =>
      exact Sharer.writeBack _ (hm hl) hs.unLock hptr hd hp ho hr hf
  | owner p => cases h with
    | dirty l hl hs hptr hd hw hp ho hr hf =>
      exact Owner.dirty _ (hm hl) hs hptr hd hw.unLock hp ho hr hf
    | granted op n l q hl hs hptr hp ho hrf =>
      exact Owner.granted op n _ q (hm hl) hs.unLock hptr hp ho hrf
    | writeBack l hl hs hptr hd hp ho hr hf =>
      exact Owner.writeBack _ (hm hl) hs.unLock hptr hd hp ho hr hf
  | readWait p t => cases h with
    | mk l q hl hs hptr ht hp ho hr hf => exact ReadWait.mk _ q (hm hl) hs.unLock hptr ht hp ho hr hf
  | writeWait p t => cases h with
    | mk op l q hl hs hptr hq ht hp ho hr hf =>
      exact WriteWait.mk op _ q (hm hl) hs.unLock hptr hq.unLock ht hp ho hr hf
  | grantWait p => cases h with
    | mk op n l q hl hs hptr hp ho hr hf =>
      exact GrantWait.mk op n _ q (hm hl) hs.unLock hptr hp ho hr hf
  | failWait p => cases h with
    | mk op n s l q hl hs hptr ht hq hp ho hr hf =>
      exact FailWait.mk op n s _ q (hm hl) hs.unLock hptr ht hq hp ho hr hf
  | invWait p listed t => cases h with
    | mk op l q hl hs hptr ht hin hq hp ho hr hf =>
      exact InvWait.mk op _ q (hm hl) hs.unLock hptr ht hin (fun h => (hq h).unLock) hp ho hr hf

end

section
variable {mem : Data} {t : Tok W}

theorem At.unLock (h : At f i cur mem parked role t c) (thread addr : Nat) :
    At f i cur mem parked role t (c.unLock w thread addr).st where
  cfg := h.cfg.unLock
  tok := (SameQueues.processToServe (c := c.mapLine _)).tok h.tok
  ord := (SameQueues.processToServe (c := c.mapLine _)).ord h.ord
  landing := h.landing.same rfl rfl

theorem ne_writeBack (hp : c.pending = none) : c.pending ≠ some .writeBack := by
  rw [hp]
  simp

/-- What was sent and is neither a request nor a one-sided write is an answer. -/
theorem toHome_eq_acks (hn : ∀ m ∈ c.toHome, m.isRdma = false) (hf : c.inFlight = []) :
    c.toHome = c.acks.map .ack := by
  unfold Cacher.inFlight at hf
  unfold Cacher.acks
  generalize c.toHome = ms at hn hf
  induction ms with
  | nil => rfl
  | cons m ms ih =>
    rw [List.forall_mem_cons] at hn
    cases m with
    | own o => simp at hf
    | ack a =>
      rw [List.filterMap_cons_none rfl] at hf
      exact congrArg (.ack a :: ·) (ih hn.2 hf)
    | rdmaWrite d => simp [ToHome.isRdma] at hn

theorem At.evict_shared {l : Line} (h : At f i cur mem parked role t c) (hl : c.line = some l)
    (hs : l.state = .shared) :
    At f i cur mem parked role t
      ({ c with line := none }.send (.own (.activeInvalidate l.ptr))) := by
  obtain ⟨⟨⟨hp, ho, hr, hf⟩, -⟩, hrole⟩ := h.cfg.line_shared hl hs
  have hp' : c.pending ≠ some .writeBack := ne_writeBack hp
  have hq : SameQueues c ({ c with line := none }.send (.own (.activeInvalidate l.ptr))) :=
    ⟨rfl, acks_send_own, rfl⟩
  have hout : (({ c with line := none }.send (.own (.activeInvalidate l.ptr))).view parked).out
      = [.activeInvalidate l.ptr] := by
    rw [view_send_own]
    exact congrArg (· ++ _) ho
  refine ⟨?_, hq.tok h.tok, hq.ord h.ord, .of_noRdma (fun m hm => ?_) hp'⟩
  · obtain ⟨rfl, -⟩ | ⟨rfl, -⟩ := hrole
    · exact Idle.absent (some l.ptr) rfl hp hout hr hf
    · exact Sharer.evicted rfl hp hout hr hf
  · exact (mem_send_own hm).elim (h.landing.noRdma hp' m) id

theorem At.evict_dirty {l : Line} (h : At f i cur mem parked role t c) (hl : c.line = some l)
    (hs : l.state = .dirty) (hlock : l.locks.isBlockLocked = false) :
    At f i cur mem parked role t
      (({ c with line := some { l with state := .toInvalid }, pending := some .writeBack }.send
        (.rdmaWrite l.data)).send (.own (.writeBack l.ptr))) := by
  obtain ⟨⟨hp, ho, hr, hf⟩, -, rfl, hd⟩ := h.cfg.line_dirty hl hs
  have hacks := toHome_eq_acks (h.landing.noRdma (ne_writeBack hp)) (List.append_eq_nil_iff.mp ho).2
  have hq : SameQueues c
      (({ c with line := some { l with state := .toInvalid }, pending := some .writeBack }.send
        (.rdmaWrite l.data)).send (.own (.writeBack l.ptr))) := by
    refine ⟨rfl, ?_, rfl⟩
    rw [acks_send_own]
    simp [Cacher.acks, Cacher.send]
  refine ⟨?_, hq.tok h.tok, hq.ord h.ord, ?_⟩
  · refine Owner.writeBack { l with state := .toInvalid } rfl ⟨rfl, hlock⟩ rfl hd rfl ?_ hr hf
    rw [view_send_own, view_send_rdmaWrite]
    exact congrArg (· ++ _) ho
  · cases t with
    | none | ask =>
      refine .before l.ptr [] ?_ rfl (.inl rfl)
      simp [Cacher.send, hacks, h.tok.2, hd]
    | ack a =>
      refine .after l.ptr a ?_ rfl rfl
      simp [Cacher.send, hacks, h.tok.2, hd]

theorem At.evict (h : At f i cur mem parked role t c) {c' : Cacher W} (he : c.evict = some c') :
    At f i cur mem parked role t c' := by
  unfold Cacher.evict at he
  split at he
  · cases he
  rename_i l hl
  split at he
  · cases he
  rename_i hlock
  split at he
  · cases he
    exact h.evict_shared hl ‹_›
  · cases he
    exact h.evict_dirty hl ‹_› (by simpa using hlock)
  · cases he

theorem At.same (h : At f i cur mem parked role t c) {c' : Cacher W} (hq : SameQueues c c')
    (hv : c'.view parked = c.view parked) (ht : c'.toHome = c.toHome) :
    At f i cur mem parked role t c' where
  cfg := hv ▸ h.cfg
  tok := hq.tok h.tok
  ord := hq.ord h.ord
  landing := h.landing.same ht (congrArg View.pending hv)

theorem Cfg.complete (h : Cfg f i cur role (c.view parked))
    (hp : c.pending = some .pendingInvalidate) :
    role = .idle ∧ Idle f (c.processPendingEvictDirty.st.view parked) := by
  cases role with
  | idle => cases h with
    | invalidate l hl hs hp ho hr hf => exact ⟨rfl, .absent none rfl rfl ho hr hf⟩
    | writeBack l p hl hs hp' => simp_all
    | _ => simp_all
  | _ => cases h <;> simp_all

theorem At.complete (h : At f i cur mem parked role t c) (ho : c.complete = some o) :
    At f i cur mem parked role t o.st := by
  unfold Cacher.complete at ho
  split at ho
  · rename_i hp
    cases ho
    obtain ⟨rfl, hcfg⟩ := h.cfg.complete hp
    have hq : SameQueues c c.processPendingEvictDirty.st :=
      ⟨asks_processToServe (c := { c with line := none, pending := none }), rfl, rfl⟩
    exact ⟨hcfg, hq.tok h.tok, hq.ord h.ord,
      .of_noRdma (c := c.processPendingEvictDirty.st) (h.landing.noRdma (by simp [hp])) (by rintro ⟨⟩)⟩
  · cases ho

end

end HwGam.Coherence
