import HwGam.Coherence.LocalSteps

/-!
# What the home asks of a copy

A worker takes a question of the home out of its queue, and then parks it, refuses it or answers
it. An owner that answers a READ becomes a sharer, one that answers a WRITE loses the block; a
sharer that answers an INVALIDATE loses its copy. Two answers are lapses of the protocol: that of an
upgrade for a try-lock (`gaveUpTry`), and that of a locked line (`gaveUpLocked`, deadlock case 3).
-/

namespace HwGam.Coherence

variable {W : Type*} {f : Slack} {i : Nat} {cur mem : Data} {role : Role} {t : Tok W} {c : Cacher W}
  {w : W} {a : Ask W} {parked : List Own} {p : Ptr}

/-! ## Taking the question, sending the answer -/

theorem Landing.of_isAck {t' : Tok W} (h : Landing cur mem role t c)
    (ht : t.isAck = true → t'.isAck = true) : Landing cur mem role t' c := by
  cases h with
  | none hn hm => exact .none hn hm
  | before p post hq hp hr => exact .before p post hq hp (hr.imp_right ht)
  | after p a hq hp hr => exact .after p a hq hp hr

/-- A question that is found in the queues is the token. -/
theorem TokOk.eq_ask {xs ys : List (Ask W)} (h : TokOk t c) (hc : c.asks = xs ++ a :: ys) :
    t = .ask a ∧ xs = [] ∧ ys = [] ∧ c.acks = [] := by
  cases t with
  | none => exact absurd (hc.symm.trans h.1) (by simp)
  | ack b => exact absurd (hc.symm.trans h.1) (by simp)
  | ask b =>
    have hs := hc.symm.trans h.1
    simp only [List.append_eq_singleton_iff, List.cons.injEq, List.cons_ne_nil, and_false,
      or_false] at hs
    obtain ⟨hx, ha, hy⟩ := hs
    exact ⟨by rw [ha], hx, hy, h.2⟩

theorem At.take_agenda (h : At f i cur mem parked role t c) {rest : List (Item (Ask W))}
    (hc : c.agenda = .remote a :: rest) :
    t = .ask a ∧ At f i cur mem parked role .none { c with agenda := rest } := by
  have hasks : c.asks = c.serve ++ a :: (rest.filterMap Item.remote? ++
      c.fromHome.filterMap FromHome.ask?) := by
    simp [Cacher.asks, hc]
  obtain ⟨rfl, hx, hy, hk⟩ := h.tok.eq_ask hasks
  refine ⟨rfl, h.cfg, ⟨?_, hk⟩, h.ord, (h.landing.of_isAck (by rintro ⟨⟩)).same rfl rfl⟩
  simpa [Cacher.asks, hx] using hy

theorem At.take_fromHome (h : At f i cur mem parked role t c) {ms : List (FromHome W)}
    (hc : c.fromHome = .ask a :: ms) :
    t = .ask a ∧ At f i cur mem parked role .none { c with fromHome := ms } := by
  have hasks : c.asks = (c.serve ++ c.agenda.filterMap Item.remote?) ++
      a :: ms.filterMap FromHome.ask? := by
    simp [Cacher.asks, hc]
  obtain ⟨rfl, hx, hy, hk⟩ := h.tok.eq_ask hasks
  have hreply : c.replies = ms.filterMap FromHome.reply? := by
    simp [Cacher.replies, hc, List.filterMap_cons]
  refine ⟨rfl, ?_, ⟨?_, hk⟩, ?_, (h.landing.of_isAck (by rintro ⟨⟩)).same rfl rfl⟩
  · have hv : Cacher.view { c with fromHome := ms } parked = c.view parked := by
      simp only [Cacher.view, hreply]
      rfl
    rw [hv]
    exact h.cfg
  · simpa [Cacher.asks, hy] using hx
  · have ho := h.ord
    rw [Ordered, hc] at ho
    exact (List.pairwise_cons.mp ho).2

theorem TokOk.parkRemote (h : TokOk .none c) : TokOk (.ask a) (c.parkRemote a) := by
  obtain ⟨h, hk⟩ := h
  simp only [Cacher.asks, List.append_eq_nil_iff] at h
  exact ⟨by simp [Cacher.asks, Cacher.parkRemote, h], hk⟩

theorem TokOk.send_ack (h : TokOk .none c) (x : Ack) : TokOk (.ack x) (c.send (.ack x)) := by
  refine ⟨h.1, ?_⟩
  have hk : c.toHome.filterMap ToHome.ack? = [] := h.2
  simp [Cacher.acks, Cacher.send, hk]

/-- The answer goes behind the one-sided write of an eviction. -/
theorem Landing.send_ack {role' : Role} (h : Landing cur mem role .none c) (ht : TokOk .none c)
    (x : Ack) (hr : role'.isOwner = true → role.isOwner = true) :
    Landing cur mem role' (.ack x) (c.send (.ack x)) := by
  cases h with
  | none hn hm =>
    refine .none (fun m hmem => ?_) fun ho hp => hm (hr ho) hp
    obtain hmem | hmem := List.mem_append.mp hmem
    · exact hn m hmem
    · rw [List.mem_singleton.mp hmem]
      rfl
  | before p post hq hp =>
    have hpost : post = [] := by
      have hk := ht.2
      simpa [Cacher.acks, hq, List.filterMap_cons, List.filterMap_map, Function.comp_def] using hk
    subst hpost
    refine .before p [x] ?_ hp (.inr rfl)
    simp [Cacher.send, hq]
  | after p a hq =>
    have hk := ht.2
    simp [Cacher.acks, hq] at hk

theorem At.parkRemote (h : At f i cur mem parked role .none c) :
    At f i cur mem parked role (.ask a) (c.parkRemote a) :=
  ⟨h.cfg, h.tok.parkRemote, h.ord, (h.landing.of_isAck (by rintro ⟨⟩)).same rfl rfl⟩

theorem At.refuse (h : At f i cur mem parked role .none c) (x : Ack) (peer : List (W × PeerMsg)) :
    At f i cur mem parked role (.ack x) (c.refuse x peer).st :=
  ⟨by rw [Cacher.refuse, view_send_ack]; exact h.cfg, h.tok.send_ack x, h.ord,
    h.landing.send_ack h.tok x id⟩

/-- The line changes, and an answer is sent. -/
theorem At.answer {role' : Role} (h : At f i cur mem parked role .none c) {c' : Cacher W}
    (x : Ack) (hq : SameQueues c c') (hl : Landing cur mem role .none c')
    (hcfg : Cfg f i cur role' (c'.view parked)) (hr : role'.isOwner = true → role.isOwner = true) :
    At f i cur mem parked role' (.ack x) (c'.send (.ack x)) :=
  ⟨by rwa [view_send_ack], (hq.tok h.tok).send_ack x, hq.ord h.ord,
    hl.send_ack (hq.tok h.tok) x hr⟩

/-! ## A question to the owner -/

/-- FETCH_AND_SHARED or READ_FORWARD to the owner: parked, refused or answered. -/
theorem At.processRemoteReadCache (h : At f i cur mem parked (.owner p) .none c) (r : Option W) :
    ((c.processRemoteReadCache a r).sent = [] ∧
      At f i cur mem parked (.owner p) (.ask a) (c.processRemoteReadCache a r).st) ∨
    ((c.processRemoteReadCache a r).sent = r.toList.map (·, .readReply .lockFailed) ∧
      a.tryLock = true ∧ At f i cur mem parked (.owner p) (.ack (.readReply .lockFailed))
        (c.processRemoteReadCache a r).st) ∨
    ((c.processRemoteReadCache a r).sent = r.toList.map (·, .imm cur) ∧
      At f i cur mem parked (.sharer p) (.ack (.imm (some cur)))
        (c.processRemoteReadCache a r).st) := by
  cases h.cfg with
  | granted op n l q hl hs =>
    have e : c.processRemoteReadCache a r = { st := c.parkRemote a } := by
      simp only [Cacher.processRemoteReadCache, show c.line = some l from hl, hs.state, if_true]
    rw [e]
    exact .inl ⟨rfl, h.parkRemote⟩
  | writeBack l hl hs hptr hd hp ho hr hf =>
    have hw : l.locks.isBlockWLocked = false :=
      (Locks.Below.of_not_isBlockLocked hs.locks).not_isBlockWLocked
    have e : c.processRemoteReadCache a r =
        { st := { c with line := some l }.send (.ack (.imm (some l.data)))
          sent := r.toList.map (·, .imm l.data) } := by
      simp [Cacher.processRemoteReadCache, show c.line = some l from hl, hs.state, hw,
        CacheState.inTransition]
    have hcfg : Cfg f i cur (.sharer p) (Cacher.view { c with line := some l } parked) :=
      Sharer.writeBack l rfl hs hptr hd hp ho hr hf
    rw [e, hd]
    exact .inr (.inr ⟨rfl, h.answer _ ⟨rfl, rfl, rfl⟩ (h.landing.same rfl rfl) hcfg (by rintro ⟨⟩)⟩)
  | dirty l hl hs hptr hd hw hp ho hr hf =>
    subst hd
    cases hwl : l.locks.isBlockWLocked with
    | false =>
      have e : c.processRemoteReadCache a r =
          { st := { c with line := some { l with state := .shared } }.send
              (.ack (.imm (some l.data)))
            sent := r.toList.map (·, .imm l.data) } := by
        simp [Cacher.processRemoteReadCache, show c.line = some l from hl, hs, hwl,
          CacheState.inTransition]
      have hcfg : Cfg f i l.data (.sharer p)
          (Cacher.view { c with line := some { l with state := .shared } } parked) :=
        Sharer.shared { l with state := .shared } rfl rfl hptr rfl (hw.of_not_isBlockWLocked hwl)
          hp ho hr hf
      rw [e]
      exact .inr (.inr ⟨rfl, h.answer _ ⟨rfl, rfl, rfl⟩ (h.landing.same rfl rfl) hcfg (by rintro ⟨⟩)⟩)
    | true =>
      cases ha : a.tryLock with
      | true =>
        have e : c.processRemoteReadCache a r = c.refuse (.readReply .lockFailed)
            (r.toList.map (·, .readReply .lockFailed)) := by
          simp [Cacher.processRemoteReadCache, show c.line = some l from hl, hs, hwl, ha]
        rw [e]
        exact .inr (.inl ⟨rfl, rfl, h.refuse _ _⟩)
      | false =>
        have e : c.processRemoteReadCache a r = { st := c.parkRemote a } := by
          simp [Cacher.processRemoteReadCache, show c.line = some l from hl, hs, hwl, ha]
        rw [e]
        exact .inl ⟨rfl, h.parkRemote⟩

/-- FETCH_AND_INVALIDATE or WRITE_FORWARD, which take the block from its owner. -/
def Ask.isTake : Ask W → Bool
  | .fetchAndInvalidate _ | .writeForward _ _ => true
  | _ => false

/-- What goes to the worker of a WRITE_FORWARD. -/
def Ask.peers (a : Ask W) (m : PeerMsg) : List (W × PeerMsg) :=
  match a with
  | .writeForward r _ => [(r, m)]
  | _ => []

/-- What the home gets back with the block's data `d`. -/
def Ask.payload (a : Ask W) (d : Data) : Option Data :=
  match a with
  | .fetchAndInvalidate _ => some d
  | _ => none

theorem surrender_take (ha : a.isTake = true) (l : Line) (deadlock : Bool) :
    c.surrender a l deadlock =
      { st := (if deadlock then c else { c with
          line := some { l with state := .toInvalid }
          pending := some .pendingInvalidate }).send (.ack (.imm (a.payload l.data)))
        sent := a.peers (.imm l.data) } := by
  cases a <;> first | rfl | cases ha

/-- What takes the block from its owner: parked, refused or answered. -/
theorem At.processRemoteWriteCache_take (h : At f i cur mem parked (.owner p) .none c)
    (ha : a.isTake = true) :
    ((c.processRemoteWriteCache a).sent = [] ∧
      At f i cur mem parked (.owner p) (.ask a) (c.processRemoteWriteCache a).st) ∨
    ((c.processRemoteWriteCache a).sent = a.peers (.writeReply .lockFailed) ∧
      a.tryLock = true ∧ At f i cur mem parked (.owner p) (.ack (.writeReply .lockFailed))
        (c.processRemoteWriteCache a).st) ∨
    ((c.processRemoteWriteCache a).sent = a.peers (.imm cur) ∧
      At f i cur mem parked .idle (.ack (.imm (a.payload cur)))
        (c.processRemoteWriteCache a).st) := by
  have hinv : Cacher.Ask.isInvalidate a = false := by cases a <;> first | rfl | cases ha
  cases h.cfg with
  | granted op n l q hl hs =>
    have e : c.processRemoteWriteCache a = { st := c.parkRemote a } := by
      simp [Cacher.processRemoteWriteCache, show c.line = some l from hl, hs.state, hinv,
        CacheState.inTransition]
    rw [e]
    exact .inl ⟨rfl, h.parkRemote⟩
  | writeBack l hl hs hptr hd hp ho hr hf =>
    have e : c.processRemoteWriteCache a = c.surrender a l true := by
      simp [Cacher.processRemoteWriteCache, show c.line = some l from hl, hs.state, hs.locks]
    have hcfg : Cfg f i cur .idle (c.view parked) := Idle.writeBack l p hl hs hp (.inl ⟨ho, hr⟩) hf
    rw [e, surrender_take ha, hd]
    exact .inr (.inr ⟨rfl, h.answer _ ⟨rfl, rfl, rfl⟩ h.landing hcfg (by rintro ⟨⟩)⟩)
  | dirty l hl hs hptr hd hw hp ho hr hf =>
    subst hd
    cases hlock : l.locks.isBlockLocked with
    | false =>
      have e : c.processRemoteWriteCache a = c.surrender a l false := by
        simp [Cacher.processRemoteWriteCache, show c.line = some l from hl, hs, hinv, hlock,
          CacheState.inTransition]
      have hcfg : Cfg f i l.data .idle (Cacher.view { c with
          line := some { l with state := .toInvalid }
          pending := some .pendingInvalidate } parked) :=
        Idle.invalidate { l with state := .toInvalid } rfl ⟨rfl, hlock⟩ rfl ho hr hf
      rw [e, surrender_take ha]
      exact .inr (.inr ⟨rfl, h.answer _ ⟨rfl, rfl, rfl⟩
        (.of_noRdma (h.landing.noRdma (ne_writeBack hp)) (by rintro ⟨⟩)) hcfg (by rintro ⟨⟩)⟩)
    | true =>
      cases hat : a.tryLock with
      | true =>
        have e : c.processRemoteWriteCache a = c.refuse (.writeReply .lockFailed)
            (a.peers (.writeReply .lockFailed)) := by
          simp only [Cacher.processRemoteWriteCache, show c.line = some l from hl, hs, hinv, hlock,
            hat, CacheState.inTransition]
          rfl
        rw [e]
        exact .inr (.inl ⟨rfl, rfl, h.refuse _ _⟩)
      | false =>
        have e : c.processRemoteWriteCache a = { st := c.parkRemote a } := by
          simp [Cacher.processRemoteWriteCache, show c.line = some l from hl, hs, hinv, hlock, hat,
            CacheState.inTransition]
        rw [e]
        exact .inl ⟨rfl, h.parkRemote⟩

/-! ## An invalidation of a sharer -/

namespace Cacher

variable (c) (a)

/-- Its upgrade is for a try-lock, and it answers an invalidation. -/
def gaveUpTry : Bool :=
  Ask.isInvalidate a && match c.line, c.pending with
    | some l, some (.fetch .writePermissionOnly _ _ q) =>
      decide (l.state = .toDirty) && q.op.isTry && !(l.locks.isBlockLocked && a.tryLock)
    | _, _ => false

/-- Its line is locked, and it answers an invalidation: deadlock case 3. -/
def gaveUpLocked : Bool :=
  Ask.isInvalidate a && match c.line with
    | some l => decide (l.state = .toDirty) && l.locks.isBlockLocked && !a.tryLock
    | none => false

end Cacher

/-- The lapses a run may contain. -/
structure Slack.Allows (f : Slack) (c : Cacher W) (a : Ask W) : Prop where
  stale : f.stale = false → c.gaveUpTry a = false
  case3 : f.case3 = false → c.gaveUpLocked a = false

theorem surrender_invalidate (ha : Cacher.Ask.isInvalidate a = true) (l : Line) (deadlock : Bool) :
    c.surrender a l deadlock =
      { st := (if deadlock then c else { c with line := none }).send (.ack (.imm none)) } := by
  cases a <;> first | rfl | cases ha

/-- A line in transition that may answer nevertheless: it keeps its state. -/
theorem At.answer_deadlock (h : At f i cur mem parked role .none c)
    (hcfg : Cfg f i cur .idle (c.view parked)) :
    At f i cur mem parked .idle (.ack (.imm none)) (c.send (.ack (.imm none))) :=
  h.answer _ ⟨rfl, rfl, rfl⟩ h.landing hcfg (by rintro ⟨⟩)

/-- An invalidation of a line that waits for its upgrade. -/
theorem At.invalidate_upgrade (h : At f i cur mem parked (.sharer p) .none c)
    (ha : Cacher.Ask.isInvalidate a = true) (hf : f.Allows c a) {l : Line} {q : Request}
    (hl : c.line = some l) (hs : WriteLine l .writePermissionOnly)
    (hp : c.pending = some (.fetch .writePermissionOnly 0 none q))
    (hcfg : Lapsed f .writePermissionOnly l q → (q.op.isTry = true → f.stale = true) →
      Cfg f i cur .idle (c.view parked)) :
    (c.processRemoteWriteCache a).sent = [] ∧
    ((a.tryLock = true ∧ At f i cur mem parked (.sharer p) (.ack (.writeReply .lockFailed))
      (c.processRemoteWriteCache a).st) ∨
    At f i cur mem parked .idle (.ack (.imm none)) (c.processRemoteWriteCache a).st) := by
  have hpeer : a.peers (.writeReply .lockFailed) = [] := by
    cases a <;> first | rfl | cases ha
  cases href : l.locks.isBlockLocked && a.tryLock with
  | true =>
    obtain ⟨hlock, hat⟩ := Bool.and_eq_true_iff.mp href
    have e : c.processRemoteWriteCache a = c.refuse (.writeReply .lockFailed)
        (a.peers (.writeReply .lockFailed)) := by
      simp only [Cacher.processRemoteWriteCache, hl, hs.state, ha, hlock, hat,
        CacheState.inTransition]
      rfl
    rw [e]
    exact ⟨hpeer, .inl ⟨hat, h.refuse _ _⟩⟩
  | false =>
    have e : c.processRemoteWriteCache a = { st := c.send (.ack (.imm none)) } := by
      simp only [Cacher.processRemoteWriteCache, hl, hs.state, ha, CacheState.inTransition]
      cases hlock : l.locks.isBlockLocked <;> simp_all [surrender_invalidate ha]
    rw [e]
    have hstale : q.op.isTry = true → f.stale = true := by
      intro hq
      have hg : c.gaveUpTry a = true := by
        simp [Cacher.gaveUpTry, ha, hl, hp, hs.state, hq, href]
      by_contra hst
      simp [hf.stale (by simpa using hst)] at hg
    have hcase3 : l.locks.isBlockLocked = true → f.case3 = true := by
      intro hlock
      have hg : c.gaveUpLocked a = true := by
        simp [Cacher.gaveUpLocked, ha, hl, hs.state, hlock] at href ⊢
        exact href
      by_contra hst
      simp [hf.case3 (by simpa using hst)] at hg
    exact ⟨rfl, .inr (h.answer_deadlock
      (hcfg ⟨fun _ => hstale, fun _ hlock => .inl (hcase3 hlock)⟩ hstale))⟩

/-- An invalidation of a sharer: parked, refused or answered. -/
theorem At.processRemoteWriteCache_invalidate (h : At f i cur mem parked (.sharer p) .none c)
    (ha : Cacher.Ask.isInvalidate a = true) (hf : f.Allows c a) :
    (c.processRemoteWriteCache a).sent = [] ∧
    (At f i cur mem parked (.sharer p) (.ask a) (c.processRemoteWriteCache a).st ∨
    (a.tryLock = true ∧ At f i cur mem parked (.sharer p) (.ack (.writeReply .lockFailed))
      (c.processRemoteWriteCache a).st) ∨
    At f i cur mem parked .idle (.ack (.imm none)) (c.processRemoteWriteCache a).st) := by
  have hpeer : a.peers (.writeReply .lockFailed) = [] := by
    cases a <;> first | rfl | cases ha
  cases h.cfg with
  | shared l hl hs hptr hd hw hp ho hr hfw =>
    cases hlock : l.locks.isBlockLocked with
    | false =>
      have e : c.processRemoteWriteCache a = c.surrender a l false := by
        simp [Cacher.processRemoteWriteCache, show c.line = some l from hl, hs, hlock,
          CacheState.inTransition]
      have hcfg : Cfg f i cur .idle (Cacher.view { c with line := none } parked) :=
        Idle.absent none rfl hp ho hr hfw
      rw [e, surrender_invalidate ha]
      exact ⟨rfl, .inr (.inr (h.answer _ ⟨rfl, rfl, rfl⟩ (h.landing.same rfl rfl) hcfg (by rintro ⟨⟩)))⟩
    | true =>
      cases hat : a.tryLock with
      | true =>
        have e : c.processRemoteWriteCache a = c.refuse (.writeReply .lockFailed)
            (a.peers (.writeReply .lockFailed)) := by
          simp only [Cacher.processRemoteWriteCache, show c.line = some l from hl, hs, ha, hlock,
            hat, CacheState.inTransition]
          rfl
        rw [e]
        exact ⟨hpeer, .inr (.inl ⟨rfl, h.refuse _ _⟩)⟩
      | false =>
        have e : c.processRemoteWriteCache a = { st := c.parkRemote a } := by
          simp [Cacher.processRemoteWriteCache, show c.line = some l from hl, hs, hlock, hat,
            CacheState.inTransition]
        rw [e]
        exact ⟨rfl, .inl h.parkRemote⟩
  | evicted hl hp ho hr hfw =>
    have e : c.processRemoteWriteCache a = { st := c.send (.ack (.imm none)) } := by
      simp only [Cacher.processRemoteWriteCache, show c.line = none from hl, ha, if_true]
    rw [e]
    exact ⟨rfl, .inr (.inr (h.answer_deadlock (Idle.absent (some p) hl hp ho hr hfw)))⟩
  | arriving l q hl hs =>
    have e : c.processRemoteWriteCache a = { st := c.parkRemote a } := by
      simp [Cacher.processRemoteWriteCache, show c.line = some l from hl, hs.state,
        CacheState.inTransition]
    rw [e]
    exact ⟨rfl, .inl h.parkRemote⟩
  | reread l q hl hs =>
    have e : c.processRemoteWriteCache a = { st := c.parkRemote a } := by
      simp [Cacher.processRemoteWriteCache, show c.line = some l from hl, hs.state,
        CacheState.inTransition]
    rw [e]
    exact ⟨rfl, .inl h.parkRemote⟩
  | rewrite l q hl hs hp ho hr hfw =>
    have e : c.processRemoteWriteCache a = { st := c.send (.ack (.imm none)) } := by
      simp [Cacher.processRemoteWriteCache, show c.line = some l from hl, hs.state, ha,
        hs.unlocked rfl, surrender_invalidate ha]
    rw [e]
    exact ⟨rfl, .inr (.inr (h.answer_deadlock (Idle.write (some p) l q hl hs hp ho hr hfw)))⟩
  | upgrade l q hl hs hptr hd hp hor hfw =>
    obtain ⟨hsent, hat⟩ := h.invalidate_upgrade ha hf hl hs hp fun hq hst => by
      obtain ⟨ho, hr⟩ | ⟨ho, htry, st, hr⟩ := hor
      · exact Idle.upgrade l q hl hs hq hp (hptr ▸ ho) hr hfw
      · exact Idle.writeFailed _ 0 none l q htry hl hs (fun _ => hst htry) hp ho
          (by rw [hr, hfw]; exact .home st)
    exact ⟨hsent, .inr hat⟩
  | writeBack l hl hs hptr hd hp ho hr hfw =>
    have e : c.processRemoteWriteCache a = { st := c.send (.ack (.imm none)) } := by
      simp [Cacher.processRemoteWriteCache, show c.line = some l from hl, hs.state, hs.locks,
        surrender_invalidate ha]
    rw [e]
    exact ⟨rfl, .inr (.inr (h.answer_deadlock (Idle.writeBack l p hl hs hp (.inl ⟨ho, hr⟩) hfw)))⟩

end HwGam.Coherence
