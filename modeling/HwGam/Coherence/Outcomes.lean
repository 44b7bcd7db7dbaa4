import HwGam.Coherence.Protocol

/-!
# What the home's handlers do to requests and locks

Inversion lemmas for the home, next to `Served` and `Replied` for a caching worker: how a local
request is served, and how an answer to what the home asked is handled.
-/

namespace HwGam.Coherence

variable {W : Type*}

/-- WRITE and WLOCK, which need the only copy. -/
def Op.writes : Op → Bool
  | .write | .wlock _ => true
  | .read | .rlock _ => false

/-- The local request a pending request is for, and whether it takes the only copy. -/
def Pending.parent : Pending → Option (Bool × Request)
  | .fetch op _ _ q => some (decide (op ≠ .read), q)
  | .writeBack | .pendingInvalidate => none

@[inherit_doc Pending.parent]
def HomePending.parent : HomePending W → Option (Bool × Request)
  | .fetchAndShared q => some (false, q)
  | .fetchAndInvalidate _ _ q | .invalidate _ _ q => some (true, q)
  | .readForward _ _ | .writeForward _ _ | .invalidateForward _ _ _ _ _ => none

/-! ## Lock counts -/

/-- The count in the table, zero where there is no entry. -/
def Locks.count (l : Locks) (addr : Nat) : Nat := (l.lookup addr).getD 0

section
variable {l : Locks} {addr : Nat}

theorem Locks.count_of_not_isBlockLocked (h : l.isBlockLocked = false) : l.count addr = 0 := by
  simp [count, lookup_of_not_isBlockLocked h]

theorem Locks.count_share : (l.share addr).count = Function.update l.count addr (l.count addr + 1) := by
  funext a
  by_cases ha : a = addr
  · subst ha
    unfold count share
    cases h : l.lookup a <;> simp
  · unfold count share
    cases h : l.lookup addr <;> simp [AList.lookup_insert_ne ha, ha]

theorem Locks.count_insert (n : Nat) :
    Locks.count (AList.insert addr n l) = Function.update l.count addr n := by
  funext a
  by_cases ha : a = addr
  · subst ha
    simp [count]
  · simp [count, AList.lookup_insert_ne ha, ha]

theorem Locks.count_erase : Locks.count (AList.erase addr l) = Function.update l.count addr 0 := by
  funext a
  by_cases ha : a = addr
  · subst ha
    simp [count]
  · simp [count, AList.lookup_erase_ne ha, ha]

/-- An exclusive lock is dropped, a shared one counted down. -/
def unLocked (n : Nat) : Nat := if n = exclusive then 0 else n - 1

theorem Locks.count_unLock :
    (l.unLock addr).count = Function.update l.count addr (unLocked (l.count addr)) := by
  unfold unLock
  cases h : l.lookup addr with
  | none =>
    have h0 : l.count addr = 0 := by simp [count, h]
    rw [h0]
    exact (Function.update_eq_self_iff.mpr h0.symm).symm
  | some n =>
    have hn : l.count addr = n := by simp [count, h]
    simp only [hn, unLocked]
    split
    · exact count_erase
    split
    · rename_i h0
      rw [h0]
      exact count_erase
    · exact count_insert _

end

namespace Dir

variable (e : Dir W)

def count : Nat → Nat := e.locks.count

@[simp] theorem count_setState (s : DirState) : (e.setState s).count = e.count := by
  cases e <;> rfl

@[simp] theorem count_toSharedNull : e.toSharedNull.count = e.count := by
  cases e <;> rfl

@[simp] theorem count_toShared (a : W × Ptr) : (e.toShared a).count = e.count := by
  cases e with
  | none => rfl
  | some d =>
    unfold toShared
    dsimp only
    split <;> rfl

@[simp] theorem count_toDirty (a : W × Ptr) : (e.toDirty a).count = e.count := by
  cases e <;> rfl

/-- An entry is only erased when its block is not locked. -/
theorem count_erased {d : DirEntry W} (h : d.locks.isBlockLocked = false) :
    count (none : Dir W) = count (some d) := by
  funext a
  exact (Locks.count_of_not_isBlockLocked h).symm

@[simp] theorem count_toUnShared : e.toUnShared.count = e.count := by
  cases e with
  | none => rfl
  | some d =>
    unfold toUnShared
    dsimp only
    split
    · rfl
    · rename_i h
      exact count_erased (by simpa using h)

theorem count_rLock {e e' : Dir W} {addr : Nat} (h : e.rLock addr = some e') :
    e'.count = Function.update e.count addr (e.count addr + 1) := by
  obtain ⟨-, rfl⟩ := rLock_eq h
  exact Locks.count_share

/-- In DIR_UNSHARED a WLOCK is had only where nobody has the lock. -/
theorem count_wLock {e e' : Dir W} {addr : Nat} (hs : e.getState = .unshared)
    (h : e.wLock addr = some e') :
    e.count addr = 0 ∧ e'.count = Function.update e.count addr exclusive := by
  obtain ⟨hn, rfl⟩ := wLock_eq h
  refine ⟨?_, Locks.count_insert _⟩
  simp only [isWLocked, hs, isRLocked, decide_true, Bool.true_and, Bool.or_eq_false_iff,
    decide_eq_false_iff_not] at hn
  unfold count Locks.count
  cases hl : e.locks.lookup addr with
  | none => rfl
  | some n =>
    simp only [hl, Option.some.injEq, Bool.and_eq_false_iff, decide_eq_false_iff_not, bne_eq_false_iff_eq]
      at hn
    obtain ⟨hx, h0 | h0⟩ := hn
    · simpa using h0
    · exact absurd h0 hx

variable [DecidableEq W]

@[simp] theorem count_remove (w : W) : (e.remove w).count = e.count := by
  cases e with
  | none => rfl
  | some d =>
    simp only [remove]
    split
    · rename_i h
      exact count_erased (by simpa using (Bool.and_eq_true_iff.mp h).2)
    · rfl

@[simp] theorem count_clear (a : W × Ptr) : (e.clear a).count = e.count := by
  cases e with
  | none => rfl
  | some d =>
    simp only [clear]
    generalize (if d.state = .dirty then if d.shared.head? = some a then d.shared.tail else d.shared
      else d.shared.filter (· ≠ a)) = shared
    split
    · split
      · rfl
      · rename_i h
        exact count_erased (by simpa using h)
    · rfl

end Dir

/-! ## Questions to a line in transition -/

/-- A line in transition keeps its state whatever the home asks. -/
theorem Cacher.processAsk_inTransition {c : Cacher W} {l : Line} (hl : c.line = some l)
    (ht : l.state.inTransition = true) (a : Ask W) :
    (c.processAsk a).st.line = c.line ∧ (c.processAsk a).st.pending = c.pending := by
  have hread (r : Option W) : (c.processRemoteReadCache a r).st.line = c.line ∧
      (c.processRemoteReadCache a r).st.pending = c.pending := by
    simp only [processRemoteReadCache, hl, ht, if_true]
    split
    · exact ⟨hl, rfl⟩
    split
    · split
      · exact ⟨hl, rfl⟩
      · exact ⟨hl, rfl⟩
    · exact ⟨rfl, rfl⟩
  have hsurrender : (c.surrender a l true).st.line = c.line ∧
      (c.surrender a l true).st.pending = c.pending := by
    cases a <;> exact ⟨rfl, rfl⟩
  have hwrite : (c.processRemoteWriteCache a).st.line = c.line ∧
      (c.processRemoteWriteCache a).st.pending = c.pending := by
    simp only [processRemoteWriteCache, hl, ht, Bool.true_and]
    split
    · exact ⟨hl, rfl⟩
    rename_i hd
    rw [Bool.not_eq_true, Bool.not_eq_false'] at hd
    rw [hd, ← hl]
    split
    · split
      · exact ⟨rfl, rfl⟩
      · exact hsurrender
    · exact hsurrender
  cases a <;> first | exact hread _ | exact hwrite

/-! ## Local requests at the home -/

/-- How the home serves a local request. -/
inductive HomeServed (i : Nat) (h : Home W) (q : Request) : Home.Result W → Prop
  | park (hb : q.op.isLock = true ∨ h.entry.inTransition = true) :
    HomeServed i h q { st := h.park q, evs := [.park q] }
  | fail (ht : q.op.isTry = true) : HomeServed i h q { st := h, evs := [.fail q] }
  | read (hq : q.op = .read) (hs : h.entry.inTransition = false) (hd : h.entry.getState ≠ .dirty) :
    HomeServed i h q { st := h, evs := [.copyOut q h.mem] }
  | effect (hq : q.op = .write) (hs : h.entry.inTransition = false) :
    HomeServed i h q { st := { h with mem := q.apply i h.mem }, evs := [.effect q] }
  | lock (hq : q.op.isLock = true) (hs : h.entry.inTransition = false) (e : Dir W)
      (he : (q.op.isRLock = true ∧ h.entry.rLock q.addr = some e) ∨
        (q.op.isRLock = false ∧ h.entry.getState = .unshared ∧ h.entry.wLock q.addr = some e)) :
    HomeServed i h q { st := { h with entry := e }, evs := [.lock none q] }
  | fetchAndShared (hs : h.entry.inTransition = false) (hq : q.op.writes = false) :
    HomeServed i h q (h.fetchAndShared q)
  | invalidateAll (hs : h.entry.inTransition = false) (hq : q.op.writes = true) :
    HomeServed i h q (h.invalidateAll q)

theorem homeServed_access (i : Nat) (h : Home W) (q : Request) :
    HomeServed i h q (h.access i q) := by
  unfold Home.access
  split
  · exact .park (.inr ‹_›)
  rename_i hs
  have hs : h.entry.inTransition = false := by simpa using hs
  have hlater (e : Option (Dir W)) (hq : q.op.isLock = true)
      (he : ∀ e', e = some e' → (q.op.isRLock = true ∧ h.entry.rLock q.addr = some e') ∨
        (q.op.isRLock = false ∧ h.entry.getState = .unshared ∧ h.entry.wLock q.addr = some e')) :
      HomeServed i h q (h.lockOrLater q e) := by
    unfold Home.lockOrLater
    split
    · exact .lock hq hs _ (he _ rfl)
    · split
      · exact .fail ‹_›
      · exact .park (.inl hq)
  split
  · rename_i hq
    split
    · exact .fetchAndShared hs (by rw [hq]; rfl)
    · exact .read hq hs ‹_›
  · rename_i hq
    split
    · exact .effect hq hs
    · exact .invalidateAll hs (by rw [hq]; rfl)
  · rename_i t hq
    split
    · exact .fetchAndShared hs (by rw [hq]; rfl)
    · exact hlater _ (by rw [hq]; rfl) fun e' h' => .inl ⟨by rw [hq]; rfl, h'⟩
  · rename_i t hq
    split
    · exact hlater _ (by rw [hq]; rfl) fun e' h' => .inr ⟨by rw [hq]; rfl, ‹_›, h'⟩
    · exact .invalidateAll hs (by rw [hq]; rfl)

/-! ## Answers to what the home asked -/

def Home.parent (h : Home W) : Option (Bool × Request) := h.pending.bind HomePending.parent

/-- How a pending request at `n` ends: its events and the lock counts, which were `locks` before. -/
inductive Ends (n : Place W) (cur : Data) (parent : Option (Bool × Request)) (locks : Nat → Nat) :
    List (Ev W) → (Nat → Nat) → Prop
  | forwarded (hp : parent = none) : Ends n cur parent locks [] locks
  | failed (k : Bool) (q : Request) (hp : parent = some (k, q)) (ht : q.op.isTry = true) :
    Ends n cur parent locks [.fail q] locks
  | read (q : Request) (hp : parent = some (false, q)) (hq : q.op.isLock = false) :
    Ends n cur parent locks [.copyOut q cur, .reply q] locks
  | write (q : Request) (hp : parent = some (true, q)) (hq : q.op.isLock = false) :
    Ends n cur parent locks [.effect q, .reply q] locks
  | lock (k : Bool) (q : Request) (hp : parent = some (k, q)) (hq : q.op.isLock = true)
      (hn : locks q.addr = 0) :
    Ends n cur parent locks [.lock n q]
      (Function.update locks q.addr (if k then exclusive else 1))

/-- How the home handles an answer. -/
inductive Heard (cur : Data) (h : Home W) : Home.Result W → Prop
  | wait (h' : Home W) (hp : h'.pending.isSome = true) (hpar : h'.parent = h.parent)
      (hk : h'.entry.count = h.entry.count) (hl : h'.locals = h.locals) (ha : h'.agenda = h.agenda) :
    Heard cur h { st := h' }
  | ended (h' : Home W) (sent : List (W × FromHome W)) (evs : List (Ev W))
      (he : Ends none cur h.parent h.entry.count evs h'.entry.count) (hl : h'.locals = h.locals)
      (ha : h'.agenda = h.agenda) : Heard cur h { st := h'.done, sent := sent, evs := evs }
  | park (h' : Home W) (q : Request) (hp : h.parent = some (true, q)) (hq : q.op.isLock = true)
      (hk : h'.entry.count = h.entry.count) (hl : h'.locals = h.locals) (ha : h'.agenda = h.agenda) :
    Heard cur h { st := (h'.park q).done, evs := [.park q] }

theorem Dir.getState_toUnShared (e : Dir W) : e.toUnShared.getState = .unshared := by
  cases e with
  | none => rfl
  | some d =>
    unfold toUnShared
    dsimp only
    split <;> rfl

theorem Heard.finishWrite {i : Nat} {cur : Data} {h h' : Home W} {q : Request}
    (hp : h.parent = some (true, q)) (hk : h'.entry.count = h.entry.count)
    (hl : h'.locals = h.locals) (ha : h'.agenda = h.agenda) : Heard cur h (h'.finishWrite i q) := by
  have hk' : h'.entry.toUnShared.count = h.entry.count := by rw [Dir.count_toUnShared, hk]
  unfold Home.finishWrite
  dsimp only
  split
  · rename_i hq
    split
    · rename_i e he
      obtain ⟨h0, hu⟩ := Dir.count_wLock (Dir.getState_toUnShared _) he
      rw [hk'] at h0 hu
      exact .ended { h' with entry := e } [] _ (hu ▸ .lock true q hp hq h0) hl ha
    · exact .park { h' with entry := h'.entry.toUnShared } q hp hq hk' hl ha
  · rename_i hq
    exact .ended { h' with entry := h'.entry.toUnShared, mem := _ } [] _
      (hk' ▸ .write q hp (by simpa using hq)) hl ha

section
variable [DecidableEq W] {f : Slack} {i : Nat} {cur : Data} {role : W → Role} {tok : W → Tok W}
  {h : Home W} {cs : W → Cacher W} {w : W} {a : Ack}

omit [DecidableEq W] in
theorem Heard.undo {s : DirState} {k : Bool} {q : Request} {h' : Home W} (hp : h.parent = some (k, q))
    (ht : q.op.isTry = true) (hk : h'.entry.count = h.entry.count) (hl : h'.locals = h.locals)
    (ha : h'.agenda = h.agenda) : Heard cur h (h'.undo s q) :=
  .ended { h' with entry := h'.entry.setState s } [] _
    (by rw [Dir.count_setState, hk]; exact .failed k q hp ht) hl ha

omit [DecidableEq W] in
theorem Heard.forwarded (h' : Home W) (sent : List (W × FromHome W)) (hp : h.parent = none)
    (hk : h'.entry.count = h.entry.count) (hl : h'.locals = h.locals) (ha : h'.agenda = h.agenda) :
    Heard cur h { st := h'.done, sent := sent } :=
  .ended h' sent [] (hk ▸ .forwarded hp) hl ha

omit [DecidableEq W] in
/-- The owner's data are the block's, and the entry was not locked. -/
theorem Heard.processPendingRead {q : Request} {d : DirEntry W} (hp : h.parent = some (false, q))
    (he : h.entry = some d) (hk : d.locks.isBlockLocked = false) :
    Heard cur h ((h.land (some cur)).processPendingRead q) := by
  have hn : h.entry.count q.addr = 0 := by
    rw [he]
    exact Locks.count_of_not_isBlockLocked hk
  unfold Home.processPendingRead
  dsimp only
  split
  · rename_i hq
    have hr : h.entry.toSharedNull.rLock q.addr =
        some (some { d with state := .shared, locks := d.locks.share q.addr }) := by
      simp [Dir.toSharedNull, Dir.rLock, Dir.isWLocked, Dir.getState, he]
    have hc : Dir.count (some { d with state := .shared, locks := d.locks.share q.addr }) =
        Function.update h.entry.count q.addr 1 := by
      rw [Dir.count_rLock hr, Dir.count_toSharedNull, hn]
    refine .ended { h.land (some cur) with entry := _ } [] _ ?_ rfl rfl
    show Ends none cur h.parent h.entry.count _ (Dir.count ((h.entry.toSharedNull.rLock q.addr).getD _))
    rw [hr, Option.getD_some, hc]
    exact .lock false q hp hq hn
  · rename_i hq
    refine .ended { h.land (some cur) with entry := h.entry.toSharedNull } [] _ ?_ rfl rfl
    rw [Dir.count_toSharedNull]
    exact .read q hp (by simpa using hq)

/-- An answer to an INVALIDATE or INVALIDATE_FORWARD. -/
theorem Heard.invalidate {x : Option (W × Ptr × Fetch)} {q : Request} {n : Int}
    {st : Option Status} {t : Bool} (hp : h.pending = some (invPending x n st q))
    (hq : x = none → q.op.isTry = t) (htry : st.isSome = true → t = true)
    (hans : a = .imm none ∨ ∃ s, a = .writeReply s ∧ t = true) :
    Heard cur h (h.recv i w (.ack a)) := by
  cases x with
  | none =>
    have hpar : h.parent = some (true, q) := by
      simp [Home.parent, hp, invPending, HomePending.parent]
    have hwait (m : Int) (st' : Option Status) (e : Dir W) (hk : e.count = h.entry.count) :
        Heard cur h { st := { h with entry := e, pending := some (.invalidate m st' q) } } :=
      .wait _ rfl hpar.symm hk rfl rfl
    obtain rfl | ⟨s, rfl, ht⟩ := hans
    · rw [show h.recv i w (.ack (.imm none)) = h.processPendingWrite i w false n st q by
        simp [Home.recv, Home.processImm, Home.land, hp, invPending]]
      unfold Home.processPendingWrite
      dsimp only
      split
      · split
        · rename_i hst
          exact .undo hpar ((hq rfl).trans (htry hst)) (Dir.count_remove _ _) rfl rfl
        · exact .finishWrite hpar (Dir.count_remove _ _) rfl rfl
      · exact hwait _ _ _ (Dir.count_remove _ _)
    · rw [show h.recv i w (.ack (.writeReply s)) = if n - 1 = 0 then h.undo .shared q
          else { st := { h with pending := some (.invalidate (n - 1) (some s) q) } } by
        simp [Home.recv, Home.processRemoteWriteReply, hp, invPending]]
      split
      · exact .undo hpar ((hq rfl).trans ht) rfl rfl rfl
      · exact hwait _ _ _ rfl
  | some y =>
    have hpar : h.parent = none := by
      simp [Home.parent, hp, invPending, HomePending.parent]
    have hwait (m : Int) (st' : Option Status) (e : Dir W) (hk : e.count = h.entry.count) :
        Heard cur h { st := { h with
          entry := e, pending := some (.invalidateForward y.1 y.2.1 y.2.2 m st') } } :=
      .wait _ rfl hpar.symm hk rfl rfl
    obtain rfl | ⟨s, rfl, -⟩ := hans
    · rw [show h.recv i w (.ack (.imm none)) =
          h.processPendingInvalidateForward w y.1 y.2.1 y.2.2 n st by
        simp [Home.recv, Home.processImm, Home.land, hp, invPending]]
      unfold Home.processPendingInvalidateForward
      dsimp only
      split
      · split
        · exact .forwarded { h with entry := (h.entry.remove w).setState .shared } _ hpar
            ((Dir.count_setState _ _).trans (Dir.count_remove _ _)) rfl rfl
        · exact .forwarded { h with entry := (h.entry.remove w).toDirty _ } _ hpar
            ((Dir.count_toDirty _ _).trans (Dir.count_remove _ _)) rfl rfl
      · exact hwait _ _ _ (Dir.count_remove _ _)
    · rw [show h.recv i w (.ack (.writeReply s)) = if n - 1 = 0 then h.undoForward y.1 s
          else { st := { h with
            pending := some (.invalidateForward y.1 y.2.1 y.2.2 (n - 1) (some s)) } } by
        simp [Home.recv, Home.processRemoteWriteReply, hp, invPending]]
      split
      · exact .forwarded { h with entry := h.entry.setState .shared } _ hpar
          (Dir.count_setState _ _) rfl rfl
      · exact hwait _ _ _ rfl

theorem Acked.heard (ha : Acked f i cur role tok h cs w a) : Heard cur h (h.recv i w (.ack a)) := by
  have ht := ha.ack
  cases ha.phase with
  | unshared hp hs hl hk hm hw => simp [(hw w).2] at ht
  | shared d he hp hs hl hn hk hm hw => simp [(hw w).2] at ht
  | dirty d o p he hp hs hl hk ho hw => simp [dirty_tok ho hw w] at ht
  | toShared d o p x q he hp hs hl hk hstage hx hw =>
    obtain rfl := eq_owner ht hx hw
    cases hstage with
    | asked t hq ht' => simp [ht'] at ht
    | answered ht' ho hx' =>
      obtain rfl := Tok.ack.inj (ht.symm.trans ht')
      cases x with
      | none =>
        rw [show h.recv i w (.ack (.imm (some cur))) = (h.land (some cur)).processPendingRead q by
          simp [Home.recv, Home.processImm, Home.land, hp, readPending]]
        exact .processPendingRead (by simp [Home.parent, hp, readPending, HomePending.parent]) he hk
      | some y =>
        rw [show h.recv i w (.ack (.imm (some cur))) =
            (h.land (some cur)).processPendingReadForward y.1 y.2 by
          simp [Home.recv, Home.processImm, Home.land, hp, readPending]]
        refine .forwarded { h.land (some cur) with entry := _ } []
          (by simp [Home.parent, hp, readPending, HomePending.parent]) ?_ rfl rfl
        exact (Dir.count_toShared _ _).trans (Dir.count_toSharedNull _)
    | refused st hq ht' ho hx' =>
      obtain rfl := Tok.ack.inj (ht.symm.trans ht')
      cases x with
      | none =>
        rw [show h.recv i w (.ack (.readReply st)) = h.undo .dirty q by
          simp [Home.recv, Home.processRemoteReadReply, hp, readPending]]
        exact .undo (by simp [Home.parent, hp, readPending, HomePending.parent]; rfl) (hq rfl) rfl rfl rfl
      | some y =>
        rw [show h.recv i w (.ack (.readReply st)) =
            { st := { h with entry := h.entry.setState .dirty }.done } by
          simp [Home.recv, Home.processRemoteReadReply, hp, readPending]]
        exact .forwarded { h with entry := h.entry.setState .dirty } []
          (by simp [Home.parent, hp, readPending, HomePending.parent]) (Dir.count_setState _ _) rfl rfl
  | take d o p x q he hp hs hl hk hstage hx hw =>
    obtain rfl := eq_owner ht hx hw
    cases hstage with
    | asked t hq ht' => simp [ht'] at ht
    | answered ht' ho hx' =>
      obtain rfl := Tok.ack.inj (ht.symm.trans ht')
      cases x with
      | none =>
        rw [show h.recv i w (.ack (.imm (writeData cur none))) =
            Home.finishWrite i { h.land (some cur) with entry := h.entry.remove w } q by
          simp [Home.recv, Home.processImm, Home.land, hp, Home.processPendingWrite, writePending,
            writeData]]
        exact .finishWrite (by simp [Home.parent, hp, writePending, HomePending.parent])
          (Dir.count_remove _ _) rfl rfl
      | some y =>
        rw [show h.recv i w (.ack (.imm (writeData cur (some y)))) =
            h.processPendingWriteForward y.1 y.2 by
          simp [Home.recv, Home.processImm, Home.land, hp, writePending, writeData]]
        exact .forwarded { h with entry := _ } _
          (by simp [Home.parent, hp, writePending, HomePending.parent]) (Dir.count_toDirty _ _) rfl rfl
    | refused st hq ht' ho hx' =>
      obtain rfl := Tok.ack.inj (ht.symm.trans ht')
      cases x with
      | none =>
        rw [show h.recv i w (.ack (.writeReply st)) = h.undo .dirty q by
          simp [Home.recv, Home.processRemoteWriteReply, hp, writePending]]
        exact .undo (by simp [Home.parent, hp, writePending, HomePending.parent]; rfl) (hq rfl) rfl rfl rfl
      | some y =>
        rw [show h.recv i w (.ack (.writeReply st)) =
            { st := { h with entry := h.entry.setState .dirty }.done
              sent := [(y.1, .reply (.imm none))] } by
          simp [Home.recv, Home.processRemoteWriteReply, hp, writePending]]
        exact .forwarded { h with entry := h.entry.setState .dirty } _
          (by simp [Home.parent, hp, writePending, HomePending.parent]) (Dir.count_setState _ _) rfl rfl
  | invalidate d x q n st t hq he hp hs hk hkx hm hpos hc =>
    refine .invalidate hp hq hc.tryLock ?_
    obtain ⟨y, hy, rfl⟩ | ⟨p, hmem, hstage⟩ | ⟨-, hu⟩ := hc.copies w
    · simp [(hc.waits y hy).tok] at ht
    · rw [ht] at hstage
      generalize role w = r at hstage
      cases hstage with
      | answered => exact .inl rfl
      | refused s htry => exact .inr ⟨s, rfl, htry⟩
    · simp [hu.2] at ht

/-- A request of a caching worker waits, or is answered, or makes a pending request of its own. -/
theorem processOwn_frame (h : Home W) (w : W) (o : Own) :
    ((h.processOwn w o).st.locals = h.locals ∧ (h.processOwn w o).st.agenda = h.agenda ∧
      (h.processOwn w o).st.entry.count = h.entry.count) ∧
    ((h.processOwn w o).st.pending = h.pending ∨ (h.entry.inTransition = false ∧
      ∃ p, (h.processOwn w o).st.pending = some p ∧ p.parent = none)) := by
  have hwrite (op : Fetch) (ptr : Ptr) (t : Bool) :
      ((h.processRemoteWrite w op ptr t).st.locals = h.locals ∧
        (h.processRemoteWrite w op ptr t).st.agenda = h.agenda ∧
        (h.processRemoteWrite w op ptr t).st.entry.count = h.entry.count) ∧
      ((h.processRemoteWrite w op ptr t).st.pending = h.pending ∨ (h.entry.inTransition = false ∧
        ∃ p, (h.processRemoteWrite w op ptr t).st.pending = some p ∧ p.parent = none)) := by
    unfold Home.processRemoteWrite
    split
    · exact ⟨⟨rfl, rfl, rfl⟩, .inl rfl⟩
    rename_i hs
    have hs : h.entry.inTransition = false := by simpa using hs
    split
    · exact ⟨⟨rfl, rfl, Dir.count_setState _ _⟩, .inr ⟨hs, _, rfl, rfl⟩⟩
    split
    · split
      · exact ⟨⟨rfl, rfl, rfl⟩, .inl rfl⟩
      · exact ⟨⟨rfl, rfl, rfl⟩, .inl rfl⟩
    split
    · dsimp only
      split
      · exact ⟨⟨rfl, rfl, Dir.count_toDirty _ _⟩, .inl rfl⟩
      · exact ⟨⟨rfl, rfl, Dir.count_setState _ _⟩, .inr ⟨hs, _, rfl, rfl⟩⟩
    · exact ⟨⟨rfl, rfl, Dir.count_toDirty _ _⟩, .inl rfl⟩
  cases o with
  | read ptr t =>
    simp only [Home.processOwn]
    unfold Home.processRemoteRead
    split
    · exact ⟨⟨rfl, rfl, rfl⟩, .inl rfl⟩
    rename_i hs
    split
    · exact ⟨⟨rfl, rfl, Dir.count_setState _ _⟩, .inr ⟨by simpa using hs, _, rfl, rfl⟩⟩
    split
    · split
      · exact ⟨⟨rfl, rfl, rfl⟩, .inl rfl⟩
      · exact ⟨⟨rfl, rfl, rfl⟩, .inl rfl⟩
    · exact ⟨⟨rfl, rfl, Dir.count_toShared _ _⟩, .inl rfl⟩
  | write ptr t => exact hwrite _ _ _
  | writePermissionOnly ptr t => exact hwrite _ _ _
  | activeInvalidate ptr =>
    simp only [Home.processOwn]
    unfold Home.processRemoteEvictShared
    split
    · exact ⟨⟨rfl, rfl, rfl⟩, .inl rfl⟩
    · exact ⟨⟨rfl, rfl, Dir.count_clear _ _⟩, .inl rfl⟩
  | writeBack ptr =>
    simp only [Home.processOwn]
    unfold Home.processRemoteEvictDirty
    split
    · exact ⟨⟨rfl, rfl, rfl⟩, .inl rfl⟩
    · exact ⟨⟨rfl, rfl, Dir.count_clear _ _⟩, .inl rfl⟩

/-! ## Transitions and pending requests -/

omit [DecidableEq W] in
/-- The entry is in transition as long as a request is pending. -/
theorem Phase.inTransition (hph : Phase cur h role tok) :
    h.entry.inTransition = h.pending.isSome := by
  cases hph with
  | unshared hp hs => simp [hp, Dir.inTransition, hs, DirState.inTransition]
  | shared d he hp hs => simp [hp, he, Dir.inTransition, Dir.getState, hs, DirState.inTransition]
  | dirty d o p he hp hs => simp [hp, he, Dir.inTransition, Dir.getState, hs, DirState.inTransition]
  | toShared d o p x q he hp hs =>
    simp [hp, he, Dir.inTransition, Dir.getState, hs, DirState.inTransition]
  | take d o p x q he hp hs =>
    cases x <;> simp [hp, he, Dir.inTransition, Dir.getState, hs, DirState.inTransition]
  | invalidate d x q n st t hq he hp hs =>
    cases x <;> simp [hp, he, Dir.inTransition, Dir.getState, hs, DirState.inTransition]

end

end HwGam.Coherence
