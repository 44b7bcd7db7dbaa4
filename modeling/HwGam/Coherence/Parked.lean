import HwGam.Coherence.Entries
import HwGam.Coherence.Protocol

/-!
# What parked requests wait for

A request in `to_serve_requests` or `to_serve_local_requests` waits for a transition to end or for a
lock to be released; whatever ends the one or releases the other starts a `ProcessToServeRequest`,
whose `load` part comes before anything else happens to what is parked.
-/

namespace HwGam.Coherence

variable {W : Type*}

/-! ## At a caching worker -/

/-- READ_FORWARD and FETCH_AND_SHARED. -/
def Ask.isRead : Ask W → Bool
  | .fetchAndShared _ | .readForward _ _ => true
  | _ => false

/-- The line cannot answer the question for now. -/
def Line.HoldsBack (l : Line) (a : Ask W) : Prop :=
  (l.state = .toDirty ∧ Cacher.Ask.isInvalidate a = false) ∨
    (l.state = .toShared ∧ a.isRead = false) ∨ l.locks.isBlockLocked = true

/-- The line is in transition or locked. -/
def Line.Busy (l : Line) : Prop := l.state.inTransition = true ∨ l.locks.isBlockLocked = true

structure Cacher.Postponed (c : Cacher W) : Prop where
  serve : ∀ a ∈ c.serve, .load ∈ c.agenda ∨ ∃ l ∈ c.line, l.HoldsBack a
  locals : c.locals ≠ [] → ∃ l ∈ c.line, l.Busy

namespace Cacher

variable {c c' : Cacher W} {i : Nat} {w : W} {q : Request} {ptr : Ptr} {a : Ask W} {l l' : Line}

theorem Postponed.processToServe (c : Cacher W) : c.processToServe.Postponed where
  serve _ _ := .inl (by simp [Cacher.processToServe])
  locals h := absurd rfl h

theorem Postponed.done (c : Cacher W) : c.done.Postponed := .processToServe { c with pending := none }

theorem Postponed.same (h : c.Postponed) (hs : c.Same c') : c'.Postponed where
  serve a ha := by
    rw [hs.agenda, hs.line]
    exact h.serve a (hs.serve ▸ ha)
  locals hne := by
    rw [hs.line]
    exact h.locals (hs.locals ▸ hne)

/-- A line takes the place of another, which held no more back. -/
theorem Postponed.line (h : c.Postponed) (hl : c.line = some l) (hl' : c'.line = some l')
    (hk : l.locks.isBlockLocked = true → l'.locks.isBlockLocked = true)
    (hst : l.state.inTransition = true → l'.state = l.state) (hs : c'.serve = c.serve)
    (hlocals : c'.locals = c.locals) (ha : c'.agenda = c.agenda) : c'.Postponed where
  serve a hmem := by
    rw [ha]
    refine (h.serve a (hs ▸ hmem)).imp_right fun ⟨x, hx, hold⟩ => ⟨l', hl', ?_⟩
    obtain rfl : l = x := Option.some.inj (hl.symm.trans hx)
    obtain ⟨hd, hi⟩ | ⟨hd, hr⟩ | hlock := hold
    · exact .inl ⟨(hst (by simp [hd, CacheState.inTransition])).trans hd, hi⟩
    · exact .inr (.inl ⟨(hst (by simp [hd, CacheState.inTransition])).trans hd, hr⟩)
    · exact .inr (.inr (hk hlock))
  locals hne := by
    obtain ⟨x, hx, hbusy⟩ := h.locals (hlocals ▸ hne)
    obtain rfl : l = x := Option.some.inj (hl.symm.trans hx)
    refine ⟨l', hl', hbusy.imp (fun ht => ?_) hk⟩
    rw [hst ht]
    exact ht

theorem Postponed.park (h : c.Postponed) (hl : c.line = some l) (hb : l.Busy) : (c.park q).Postponed where
  serve := h.serve
  locals _ := ⟨l, hl, hb⟩

/-- Nothing waits for a line that is neither in transition nor locked, but for a replay. -/
theorem Postponed.of_idle (h : c.Postponed) (hl : ∀ l ∈ c.line, ¬ l.Busy) :
    (∀ a ∈ c.serve, .load ∈ c.agenda) ∧ c.locals = [] := by
  constructor
  · intro a ha
    refine (h.serve a ha).resolve_right ?_
    rintro ⟨l, hl', ⟨hs, -⟩ | ⟨hs, -⟩ | hlock⟩
    · exact hl l hl' (.inl (by simp [hs, CacheState.inTransition]))
    · exact hl l hl' (.inl (by simp [hs, CacheState.inTransition]))
    · exact hl l hl' (.inr hlock)
  · by_contra hne
    obtain ⟨l, hl', hb⟩ := h.locals hne
    exact hl l hl' hb

theorem Postponed.free (h : c.Postponed) (hl : ∀ l ∈ c.line, ¬ l.Busy) (hs : c'.serve = c.serve)
    (hlocals : c'.locals = c.locals) (ha : c'.agenda = c.agenda) : c'.Postponed where
  serve a hmem := .inl (ha ▸ (h.of_idle hl).1 a (hs ▸ hmem))
  locals hne := absurd (hlocals ▸ (h.of_idle hl).2) hne

/-! ### Requests of the threads -/

theorem Postponed.miss (h : c.Postponed) (hl : c.line = none) (q : Request) (ptr : Ptr) :
    (c.miss q ptr).st.Postponed := by
  unfold Cacher.miss
  split <;> exact h.free (by simp [hl]) rfl rfl rfl

theorem Postponed.upgrade (h : c.Postponed) (hl : c.line = some l) (ht : l.state.inTransition = false)
    (i : Nat) (q : Request) : (c.upgrade i l q).st.Postponed :=
  h.line hl rfl id (fun h => by simp [ht] at h) rfl rfl rfl

theorem Postponed.access (h : c.Postponed) (i : Nat) (w : W) (q : Request) (ptr : Ptr) :
    (c.access i w q ptr).st.Postponed := by
  have hrw : (c.readWrite i q ptr).st.Postponed := by
    unfold readWrite
    split
    · exact h.miss ‹_› q ptr
    · rename_i l hl
      split
      · exact h
      split
      · exact h
      split
      · exact h.park hl (.inl ‹_›)
      rename_i ht
      split
      · exact h
      split
      · exact h.upgrade hl (by simpa using ht) i q
      · exact h.line hl rfl id (fun _ => rfl) rfl rfl rfl
  have hlater {l : Line} (hl : c.line = some l) (hk : l.locks.isBlockLocked = true) :
      (c.lockLater q).st.Postponed := by
    unfold lockLater
    split
    · exact h
    · exact h.park hl (.inr hk)
  have hlocked {l : Line} {a n : Nat} (hk : l.locks.lookup a = some n) :
      l.locks.isBlockLocked = true := by
    by_contra hno
    simp [Locks.lookup_of_not_isBlockLocked (by simpa using hno)] at hk
  have hlock (shared : Bool) : (c.lock i shared w q ptr).st.Postponed := by
    unfold lock
    split
    · exact h.miss ‹_› q ptr
    · rename_i l hl
      split
      · exact h.park hl (.inl ‹_›)
      rename_i ht
      split
      · split
        · exact hlater hl (hlocked ‹_›)
        · exact h.line hl rfl (fun _ => Dir.isBlockLocked_share _ _) (fun _ => rfl) rfl rfl rfl
      split
      · exact h.upgrade hl (by simpa using ht) i q
      split
      · rename_i hsome
        obtain ⟨n, hn⟩ := Option.isSome_iff_exists.mp hsome
        exact hlater hl (hlocked hn)
      · exact h.line hl rfl (fun _ => Dir.isBlockLocked_insert _ _ _) (fun _ => rfl) rfl rfl rfl
  unfold Cacher.access
  split
  · exact hrw
  · exact hrw
  · exact hlock true
  · exact hlock false

theorem Postponed.evict (h : c.Postponed) (he : c.evict = some c') : c'.Postponed := by
  unfold Cacher.evict at he
  split at he
  · cases he
  · rename_i l hl
    split at he
    · cases he
    rename_i hk
    have hidle : ∀ x ∈ c.line, x.state = l.state ∧ x.locks = l.locks := by
      rintro x hx
      obtain rfl : l = x := Option.some.inj (hl.symm.trans hx)
      exact ⟨rfl, rfl⟩
    split at he
    · rename_i hs
      obtain rfl := Option.some.inj he
      refine h.free (fun x hx => ?_) rfl rfl rfl
      simp [Line.Busy, hidle x hx, hs, CacheState.inTransition, hk]
    · rename_i hs
      obtain rfl := Option.some.inj he
      refine h.free (fun x hx => ?_) rfl rfl rfl
      simp [Line.Busy, hidle x hx, hs, CacheState.inTransition, hk]
    · cases he

/-! ### Questions of the home -/

theorem surrender_frame (c : Cacher W) (a : Ask W) (l : Line) (deadlock : Bool) :
    (c.surrender a l deadlock).st.serve = c.serve ∧
      (c.surrender a l deadlock).st.locals = c.locals ∧
      (c.surrender a l deadlock).st.agenda = c.agenda ∧
      (deadlock = true → (c.surrender a l deadlock).st.line = c.line) := by
  unfold surrender
  cases deadlock <;> cases a <;> exact ⟨rfl, rfl, rfl, by simp [send]⟩

/-- A worker that has no question parked takes one. -/
theorem Postponed.processAsk (h : c.Postponed) (hserve : c.serve = []) (a : Ask W) :
    (c.processAsk a).st.Postponed := by
  have hpark {l : Line} (hl : c.line = some l) (hb : l.HoldsBack a) : (c.parkRemote a).Postponed := by
    refine ⟨fun x hx => ?_, h.locals⟩
    obtain rfl : x = a := by simpa [parkRemote, hserve] using hx
    exact .inr ⟨l, hl, hb⟩
  have hkeep {c' : Cacher W} (hs : c'.serve = []) (hl : c'.line = c.line)
      (hlocals : c'.locals = c.locals) : c'.Postponed := by
    refine ⟨by simp [hs], fun hne => ?_⟩
    rw [hl]
    exact h.locals (hlocals ▸ hne)
  have hread (r : Option W) (ha : a.isRead = true) : (c.processRemoteReadCache a r).st.Postponed := by
    unfold processRemoteReadCache
    split
    · exact hkeep hserve rfl rfl
    · rename_i l hl
      split
      · refine hpark hl (.inl ⟨‹_›, ?_⟩)
        cases a <;> first | rfl | cases ha
      split
      · rename_i hk
        have hlock : l.locks.isBlockLocked = true := by
          by_contra hno
          simp [Locks.not_isBlockWLocked (by simpa using hno)] at hk
        split
        · exact hkeep hserve rfl rfl
        · exact hpark hl (.inr (.inr hlock))
      · refine h.line hl rfl ?_ (fun ht => ?_) rfl rfl rfl
        · split <;> exact id
        · rw [if_pos ht]
  have hwrite (ha : a.isRead = false) : (c.processRemoteWriteCache a).st.Postponed := by
    cases hl : c.line with
    | none =>
      simp only [processRemoteWriteCache, hl]
      split <;> exact hkeep hserve (by simp [send, refuse, hl]) rfl
    | some l =>
      by_cases ht : (l.state.inTransition && !((Ask.isInvalidate a && l.state = .toDirty) ||
          l.state = .toInvalid)) = true
      · simp only [processRemoteWriteCache, hl, ht, if_true]
        refine hpark hl ?_
        cases hs : l.state <;> simp_all [CacheState.inTransition, Line.HoldsBack]
      by_cases hk : l.locks.isBlockLocked = true
      · simp only [processRemoteWriteCache, hl, ht, hk, if_true, Bool.false_eq_true, if_false]
        split
        · exact hkeep hserve rfl rfl
        split
        · rename_i hd
          obtain ⟨hs, hlocals, -, hline⟩ := c.surrender_frame a l _
          exact hkeep (hs.trans hserve) (hline hd) hlocals
        · exact hpark hl (.inr (.inr hk))
      · simp only [processRemoteWriteCache, hl, ht, hk, Bool.false_eq_true, if_false]
        obtain ⟨hs, hlocals, hag, hline⟩ := c.surrender_frame a l
          ((Ask.isInvalidate a && l.state = .toDirty) || l.state = .toInvalid)
        by_cases hd : ((Ask.isInvalidate a && l.state = .toDirty) || l.state = .toInvalid) = true
        · exact hkeep (hs.trans hserve) (hline hd) hlocals
        · refine h.free (fun x hx => ?_) hs hlocals hag
          obtain rfl : l = x := Option.some.inj (hl.symm.trans hx)
          rintro (hst | hlock)
          · simp [hst, hd] at ht
          · exact hk hlock
  cases a with
  | fetchAndShared t => exact hread none rfl
  | readForward r t => exact hread (some r) rfl
  | fetchAndInvalidate | invalidate | invalidateForward | writeForward => exact hwrite rfl

/-! ### Answers -/

theorem Postponed.setLine (h : c.Postponed) (f : Line → Line) (hf : ∀ l, (f l).state = l.state)
    (hk : ∀ l, l.locks.isBlockLocked = true → (f l).locks.isBlockLocked = true) :
    (c.mapLine f).Postponed := by
  cases hl : c.line with
  | none => exact h.free (by simp [hl]) rfl rfl rfl
  | some l =>
    have hline : (c.mapLine f).line = some (f l) := by simp [mapLine, hl]
    exact h.line hl hline (hk l) (fun _ => hf l) rfl rfl rfl

theorem Postponed.land (h : c.Postponed) (d : Option Data) : (c.land d).Postponed := by
  cases d with
  | none => exact h
  | some d => exact h.setLine _ (fun _ => rfl) fun _ => id

theorem Postponed.pend (h : c.Postponed) (x : Option Pending) :
    Postponed { c with pending := x } := ⟨h.serve, h.locals⟩

theorem Postponed.processPendingRead (c : Cacher W) (w : W) (q : Request) :
    (c.processPendingRead w q).st.Postponed := by
  unfold Cacher.processPendingRead
  dsimp only
  split <;> exact .done _

theorem Postponed.finishWrite (c : Cacher W) (i : Nat) (w : W) (q : Request) :
    (c.finishWrite i w q).st.Postponed := by
  unfold Cacher.finishWrite
  dsimp only
  split
  · split <;> exact .done _
  · exact .done _

theorem Postponed.processPendingWrite (h : c.Postponed) (i : Nat) (w : W) (op : Fetch)
    (counter : Int) (status : Option Status) (q : Request) (fromHome : Bool) :
    (c.processPendingWrite i w op counter status q fromHome).st.Postponed := by
  unfold Cacher.processPendingWrite
  dsimp only
  generalize (if fromHome = true then counter + 1 else counter - 1) = n
  split
  · split
    · exact .done _
    · exact .finishWrite c i w q
  · exact h.pend _

theorem Postponed.processImm (h : c.Postponed) (i : Nat) (w : W) (fromHome : Bool)
    (d : Option Data) : (c.processImm i w fromHome d).st.Postponed := by
  unfold Cacher.processImm
  dsimp only
  split
  · exact .processPendingRead _ w _
  · exact (h.land d).processPendingWrite i w _ _ _ _ fromHome
  · exact .done _
  · exact h.land d

theorem Postponed.processReadReply (h : c.Postponed) : c.processReadReply.st.Postponed := by
  unfold Cacher.processReadReply
  split
  · exact .done _
  · exact h

theorem Postponed.processRemoteWriteReply (h : c.Postponed) (i : Nat) (w : W) (op : Fetch)
    (counter : Int) (status : Option Status) (q : Request) (fromHome : Bool) (st : Option Status) :
    (c.processRemoteWriteReply i w op counter status q fromHome st).st.Postponed := by
  unfold Cacher.processRemoteWriteReply
  split
  · split
    · split
      · exact .done _
      · exact .finishWrite c i w q
    · exact h
  · dsimp only
    generalize (if fromHome = true then 0 else counter - 1) = n
    split
    · exact .done _
    · exact h.pend _

theorem Postponed.processWriteReply (h : c.Postponed) (i : Nat) (w : W) (fromHome : Bool)
    (st : Option Status) : (c.processWriteReply i w fromHome st).st.Postponed := by
  unfold Cacher.processWriteReply
  split
  · exact h
  · exact h.processRemoteWriteReply i w _ _ _ _ fromHome st
  · exact h

/-- A handler of the worker; `hserve`: a question finds no other parked. -/
theorem Postponed.handler [DecidableEq W] {x : Act W} {o : Cacher.Result W} (h : c.Postponed)
    (hh : CacherHandler i w c x o)
    (hserve : ∀ a, (∃ ms, c.fromHome = .ask a :: ms) ∨ (∃ rest, c.agenda = .remote a :: rest) →
      c.serve = []) : o.st.Postponed := by
  cases hh with
  | access q ptr => exact h.access i w q ptr
  | unlock thread addr => exact .processToServe _
  | evict c' he => exact h.evict he
  | complete o ho =>
    unfold Cacher.complete at ho
    split at ho
    · obtain rfl := Option.some.inj ho
      exact .done _
    · cases ho
  | recv m ms hc =>
    have h' : Postponed { c with fromHome := ms } := ⟨h.serve, h.locals⟩
    cases m with
    | ask a => exact h'.processAsk (hserve a (.inl ⟨ms, hc⟩)) a
    | reply r =>
      cases r with
      | rdmaWrite d => exact h'.land (some d)
      | imm d => exact h'.processImm i w true d
      | readReply st => exact h'.processReadReply
      | writeReply st => exact h'.processWriteReply i w true st
  | recvPeer o m ms hc =>
    have h' : Postponed { c with fromPeers := ms } := ⟨h.serve, h.locals⟩
    cases m with
    | imm d => exact h'.processImm i w false _
    | readReply st => exact h'.processReadReply
    | writeReply st => exact h'.processWriteReply i w false _
  | remote a rest ha =>
    have hs := hserve a (.inr ⟨rest, ha⟩)
    have h' : Postponed { c with agenda := rest } := ⟨by simp [hs], h.locals⟩
    exact h'.processAsk hs a
  | load rest ha => exact ⟨by simp, h.locals⟩
  | drop q rest ha =>
    refine ⟨fun a hmem => (h.serve a hmem).imp_left fun hload => ?_, h.locals⟩
    simpa [ha] using hload

end Cacher

/-! ## At the home -/

/-- The entry is in transition or locked. -/
def Dir.Busy (e : Dir W) : Prop := e.inTransition = true ∨ e.isBlockLocked = true

structure Home.Postponed (h : Home W) : Prop where
  serve : h.serve ≠ [] → .load ∈ h.agenda ∨ h.entry.Busy
  locals : h.locals ≠ [] → h.entry.Busy

namespace Home

variable {h h' : Home W} {i : Nat} {q : Request}

theorem Postponed.processToServe (h : Home W) : h.processToServe.Postponed where
  serve _ := .inl (by simp [Home.processToServe])
  locals h := absurd rfl h

theorem Postponed.done (h : Home W) : h.done.Postponed := .processToServe { h with pending := none }

theorem Postponed.of_busy (hb : h.entry.Busy) : h.Postponed := ⟨fun _ => .inr hb, fun _ => hb⟩

theorem Postponed.entry (hp : h.Postponed) (hb : h.entry.Busy → h'.entry.Busy)
    (hs : h'.serve = h.serve) (hlocals : h'.locals = h.locals) (ha : h'.agenda = h.agenda) :
    h'.Postponed where
  serve hne := ha ▸ (hp.serve (hs ▸ hne)).imp_right hb
  locals hne := hb (hp.locals (hlocals ▸ hne))

theorem busy_of_wLocked {e : Dir W} (hk : e.isBlockWLocked = true) : e.Busy := by
  right
  by_contra hno
  have := Locks.not_isBlockWLocked (l := e.locks) (by simpa [Dir.isBlockLocked] using hno)
  simp [Dir.isBlockWLocked, this] at hk

theorem Postponed.lockOrLater (hp : h.Postponed) {e : Option (Dir W)} (he : ∀ d ∈ e, Dir.Busy d)
    (hnone : e = none → h.entry.Busy) (q : Request) : (h.lockOrLater q e).st.Postponed := by
  unfold Home.lockOrLater
  split
  · exact .of_busy (he _ rfl)
  · split
    · exact hp
    · exact .of_busy (hnone rfl)

theorem busy_rLock {e : Dir W} {addr : Nat} : (∀ d ∈ e.rLock addr, Dir.Busy d) ∧
    (e.rLock addr = none → e.Busy) := by
  constructor
  · intro d hd
    unfold Dir.rLock at hd
    split at hd
    · cases hd
    · split at hd <;> obtain rfl := Option.some.inj hd
      · exact .inr (Dir.isBlockLocked_share ∅ addr)
      · exact .inr (Dir.isBlockLocked_share _ _)
  · intro hn
    unfold Dir.rLock at hn
    split at hn
    · rename_i hw
      right
      by_contra hno
      have := Locks.lookup_of_not_isBlockLocked (l := e.locks)
        (by simpa [Dir.isBlockLocked] using hno) addr
      simp [Dir.isWLocked, this] at hw
    · split at hn <;> cases hn

theorem busy_wLock {e : Dir W} {addr : Nat} : (∀ d ∈ e.wLock addr, Dir.Busy d) ∧
    (e.wLock addr = none → e.Busy) := by
  constructor
  · intro d hd
    unfold Dir.wLock at hd
    split at hd
    · cases hd
    · split at hd <;> obtain rfl := Option.some.inj hd
      · exact .inr (Dir.isBlockLocked_insert _ _ _)
      · exact .inr (Dir.isBlockLocked_insert _ _ _)
  · intro hn
    unfold Dir.wLock at hn
    split at hn
    · rename_i hw
      right
      by_contra hno
      have := Locks.lookup_of_not_isBlockLocked (l := e.locks)
        (by simpa [Dir.isBlockLocked] using hno) addr
      simp [Dir.isWLocked, Dir.isRLocked, this] at hw
    · split at hn <;> cases hn

/-- What a handler leaves, unless it leaves a request pending. -/
def Leaves (h h' : Home W) : Prop := h'.pending.isSome = true ∨ (h.Postponed → h'.Postponed)

theorem leaves_access (h : Home W) (i : Nat) (q : Request) : h.Leaves (h.access i q).st := by
  unfold Home.access
  split
  · exact .inr fun _ => .of_busy (.inl ‹_›)
  · have hinv : h.Leaves (h.invalidateAll q).st := by
      unfold invalidateAll
      dsimp only
      split <;> exact .inl rfl
    split
    · split
      · exact .inl rfl
      · exact .inr id
    · split
      · exact .inr fun hp => hp.entry id rfl rfl rfl
      · exact hinv
    · split
      · exact .inl rfl
      · exact .inr fun hp => hp.lockOrLater busy_rLock.1 busy_rLock.2 q
    · split
      · exact .inr fun hp => hp.lockOrLater busy_wLock.1 busy_wLock.2 q
      · exact hinv

theorem Postponed.parkRemote (hp : h.Postponed) (hb : h.entry.Busy) (x : W × Own) :
    (h.parkRemote x).Postponed := ⟨fun _ => .inr hb, hp.locals⟩

theorem leaves_processRemoteRead (h : Home W) (w : W) (ptr : Ptr) (t : Bool) :
    h.Leaves (h.processRemoteRead w ptr t).st := by
  unfold processRemoteRead
  split
  · exact .inr fun hp => hp.parkRemote (.inl ‹_›) _
  · rename_i ht
    split
    · exact .inl rfl
    · split
      · rename_i hk
        split
        · exact .inr id
        · exact .inr fun hp => hp.parkRemote (busy_of_wLocked hk) _
      · refine .inr fun hp => hp.entry (fun hb => .inr ?_) rfl rfl rfl
        have hlock := hb.resolve_left ht
        cases he : h.entry with
        | none => simp [he, Dir.isBlockLocked, Dir.locks, Locks.isBlockLocked] at hlock
        | some d =>
          rw [he] at hlock
          unfold Dir.toShared
          dsimp only
          split <;> exact hlock

section
variable [DecidableEq W]

theorem leaves_processRemoteWrite (h : Home W) (w : W) (op : Fetch) (ptr : Ptr) (t : Bool) :
    h.Leaves (h.processRemoteWrite w op ptr t).st := by
  have hgrant (ht : ¬ h.entry.inTransition = true) (hk : ¬ h.entry.isBlockLocked = true)
      (withData : Bool) : h.Leaves (h.grant w ptr withData).st :=
    .inr fun hp => hp.entry (fun hb => (hb.elim ht hk).elim) rfl rfl rfl
  unfold processRemoteWrite
  split
  · exact .inr fun hp => hp.parkRemote (.inl ‹_›) _
  split
  · exact .inl rfl
  split
  · rename_i hk
    split
    · exact .inr id
    · exact .inr fun hp => hp.parkRemote (.inr hk) _
  split
  · dsimp only
    split
    · exact hgrant ‹_› ‹_› _
    · exact .inl rfl
  · exact hgrant ‹_› ‹_› _

theorem busy_clear {e : Dir W} {a : W × Ptr} (ht : ¬ e.inTransition = true) (hb : e.Busy) :
    (e.clear a).Busy := by
  have hlock := hb.resolve_left ht
  cases e with
  | none => exact hb
  | some d =>
    have hk : d.locks.isBlockLocked = true := hlock
    unfold Dir.clear
    dsimp only
    rw [if_pos hk]
    generalize (if d.state = .dirty then _ else _ : List (W × Ptr)) = shared
    split <;> exact .inr hk

theorem leaves_processOwn (h : Home W) (w : W) (o : Own) : h.Leaves (h.processOwn w o).st := by
  cases o with
  | read ptr t => exact h.leaves_processRemoteRead w ptr t
  | write ptr t => exact h.leaves_processRemoteWrite w .write ptr t
  | writePermissionOnly ptr t => exact h.leaves_processRemoteWrite w .writePermissionOnly ptr t
  | activeInvalidate ptr =>
    unfold processOwn processRemoteEvictShared
    dsimp only
    split
    · exact .inr fun hp => hp.parkRemote (.inl ‹_›) _
    · exact .inr fun hp => hp.entry (busy_clear ‹_›) rfl rfl rfl
  | writeBack ptr =>
    unfold processOwn processRemoteEvictDirty
    dsimp only
    split
    · exact .inr fun hp => hp.parkRemote (.inl ‹_›) _
    · exact .inr fun hp => hp.entry (busy_clear ‹_›) rfl rfl rfl

omit [DecidableEq W] in
theorem Postponed.land (hp : h.Postponed) (d : Option Data) : (h.land d).Postponed := by
  cases d <;> exact hp.entry id rfl rfl rfl

theorem leaves_processPendingWrite (h : Home W) (i : Nat) (w : W) (dirty : Bool) (counter : Int)
    (status : Option Status) (q : Request) {h₀ : Home W} :
    h₀.Leaves (h.processPendingWrite i w dirty counter status q).st := by
  unfold processPendingWrite
  dsimp only
  split
  · split
    · exact .inr fun _ => .done _
    · unfold finishWrite
      dsimp only
      split
      · split <;> exact .inr fun _ => .done _
      · exact .inr fun _ => .done _
  · exact .inl rfl

theorem leaves_processImm (h : Home W) (i : Nat) (w : W) (d : Option Data) :
    h.Leaves (h.processImm i w d).st := by
  unfold processImm
  dsimp only
  split
  · unfold processPendingRead
    dsimp only
    split <;> exact .inr fun _ => .done _
  · exact .inr fun _ => .done _
  · exact leaves_processPendingWrite _ i w true _ _ _
  · exact leaves_processPendingWrite _ i w false _ _ _
  · exact .inr fun _ => .done _
  · unfold processPendingInvalidateForward
    dsimp only
    split
    · split <;> exact .inr fun _ => .done _
    · exact .inl rfl
  · exact .inr fun hp => hp.land d

omit [DecidableEq W] in
theorem leaves_processRemoteReadReply (h : Home W) : h.Leaves h.processRemoteReadReply.st := by
  unfold processRemoteReadReply
  split
  · exact .inr fun _ => .done _
  · exact .inr fun _ => .done _
  · exact .inr id

omit [DecidableEq W] in
theorem leaves_processRemoteWriteReply (h : Home W) (st : Status) :
    h.Leaves (h.processRemoteWriteReply st).st := by
  unfold processRemoteWriteReply
  split
  · split
    · exact .inr fun _ => .done _
    · exact .inl rfl
  · split
    · exact .inr fun _ => .done _
    · exact .inl rfl
  · exact .inr fun _ => .done _
  · split
    · exact .inr fun _ => .done _
    · exact .inl rfl
  · exact .inr id

theorem leaves_handler {b : Block W} {x : Act W} {o : Home.Result W}
    (hh : HomeHandler i b x o) : b.home.Leaves o.st := by
  cases hh with
  | access q ptr => exact b.home.leaves_access i q
  | unlock thread addr => exact .inr fun _ => .processToServe _
  | recv w m ms hc =>
    cases m with
    | own o => exact b.home.leaves_processOwn w o
    | rdmaWrite d => exact .inr fun hp => hp.land (some d)
    | ack a =>
      cases a with
      | imm d => exact b.home.leaves_processImm i w d
      | readReply st => exact b.home.leaves_processRemoteReadReply
      | writeReply st => exact b.home.leaves_processRemoteWriteReply st
  | remote w o rest ha =>
    obtain hp | hp := leaves_processOwn { b.home with agenda := rest } w o
    · exact .inl hp
    · refine .inr fun h => hp ⟨fun hne => (h.serve hne).imp_left fun hload => ?_, h.locals⟩
      simpa [ha] using hload
  | load rest ha => exact .inr fun h => ⟨by simp, h.locals⟩
  | drop q rest ha =>
    refine .inr fun h => ⟨fun hne => (h.serve hne).imp_left fun hload => ?_, h.locals⟩
    simpa [ha] using hload

end

end Home

/-! ## Every run -/

section
variable [DecidableEq W] {f : Slack} {i : Nat} {cur mem₀ : Data} {b b' : Block W}
  {role : W → Role} {tok : W → Tok W}

structure Block.Postponed (b : Block W) : Prop where
  home : b.home.Postponed
  cacher : ∀ w, (b.cacher w).Postponed

theorem Good.inTransition_of_pending (hg : Good f i mem₀ b) (hp : b.home.pending.isSome = true) :
    b.home.entry.inTransition = true := by
  obtain ⟨role, tok, hi⟩ := hg
  have hof {d : DirEntry W} (he : b.home.entry = some d) (hd : d.state.inTransition = true) :
      b.home.entry.inTransition = true := by
    rw [he]
    exact hd
  cases hi.phase with
  | unshared hnone | shared d he hnone | dirty d o p he hnone => simp [hnone] at hp
  | toShared d o p x q he _ hs => exact hof he (by rw [hs]; rfl)
  | take d o p x q he _ hs => exact hof he (by rw [hs]; split <;> rfl)
  | invalidate d x q n st t _ he _ hs => exact hof he (by rw [hs]; split <;> rfl)

/-- A question finds no other parked. -/
theorem Inv.serve_eq_nil (hi : Inv f i cur b role tok) {w : W} {a : Ask W}
    (ha : (∃ ms, (b.cacher w).fromHome = .ask a :: ms) ∨
      (∃ rest, (b.cacher w).agenda = .remote a :: rest)) : (b.cacher w).serve = [] := by
  obtain ⟨ms, hc⟩ | ⟨rest, hc⟩ := ha
  · have hat := ((hi.worker w).take_fromHome hc).2.tok.1
    simp only [Cacher.asks, List.append_eq_nil_iff] at hat
    exact hat.1.1
  · have hat := ((hi.worker w).take_agenda hc).2.tok.1
    simp only [Cacher.asks, List.append_eq_nil_iff] at hat
    exact hat.1.1

theorem Good.postponed (hg : Good f i mem₀ b) (hg' : Good f i mem₀ b') {a : Act W}
    (hs : Coherence.step i a b = some b') (h : b.Postponed) : b'.Postponed := by
  obtain ⟨o, hh, hran⟩ | ⟨w, o, hh, hran⟩ := step_inv hs
  · refine ⟨?_, fun w => (h.cacher w).same (hran.cacher w)⟩
    obtain hp | hp := Home.leaves_handler hh
    · exact .of_busy (.inl (hg'.inTransition_of_pending (hran.home ▸ hp)))
    · exact hran.home ▸ hp h.home
  · obtain ⟨role, tok, hi⟩ := hg
    refine ⟨hran.home ▸ h.home, fun u => ?_⟩
    by_cases hu : u = w
    · subst hu
      exact ((h.cacher u).handler hh fun a ha => hi.serve_eq_nil ha).same hran.self
    · exact (h.cacher u).same (hran.cacher u hu)

end

end HwGam.Coherence
