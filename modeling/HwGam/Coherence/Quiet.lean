import HwGam.Coherence.Ledger
import HwGam.Coherence.Parked

/-!
# States in which nothing moves

No message is on its way, no replay is going on, no lock is held and no completion is outstanding.
Then no request waits either, but for one deadlock: a worker reads a block again whose eviction
message reaches the home during an invalidation. Its READ is parked there behind the message until
the invalidation ends, and the invalidation is parked at the worker until the READ is answered.
-/

namespace HwGam.Coherence

open Lib

variable {W : Type*}

structure Cacher.Quiet (c : Cacher W) : Prop where
  toHome : c.toHome = []
  fromHome : c.fromHome = []
  fromPeers : c.fromPeers = []
  agenda : c.agenda = []
  unlocked : ∀ l ∈ c.line, l.locks.isBlockLocked = false
  completed : c.complete = none

structure Block.Quiet (b : Block W) : Prop where
  agenda : b.home.agenda = []
  unlocked : b.home.entry.isBlockLocked = false
  cacher : ∀ w, (b.cacher w).Quiet

/-- Nothing waits at the block. -/
structure Block.AtRest (b : Block W) : Prop where
  home : b.home.pending = none ∧ b.home.serve = [] ∧ b.home.locals = []
  cacher : ∀ w, (b.cacher w).pending = none ∧ (b.cacher w).serve = [] ∧ (b.cacher w).locals = []

/-- The READ of the worker waits for an invalidation, and this one for the READ. -/
structure Block.Crossed [DecidableEq W] (b : Block W) (w : W) : Prop where
  home : b.home.entry.inTransition = true
  parked : ∃ p ptr t, b.home.parked w = [.activeInvalidate p, .read ptr t]
  asked : ∃ a, (b.cacher w).serve = [a] ∧ Cacher.Ask.isInvalidate a = true
  pending : ∃ l q, (b.cacher w).line = some l ∧ l.state = .toShared ∧
    (b.cacher w).pending = some (.fetch .read 0 none q)

/-! ## One block -/

section
variable {f : Slack} {i : Nat} {cur mem₀ : Data} {v : View W} {r : Role} {p : Ptr} {c : Cacher W}

/-- Who waits for nothing of the protocol. -/
def Role.settled : Role → Bool
  | .idle | .sharer _ | .owner _ => true
  | _ => false

theorem Cfg.settled (h : Cfg f i cur r v) (hr : r.settled = true) (ho : v.out = [])
    (hrep : v.rep = []) (hf : v.fwd = []) (hp : v.pending ≠ some .pendingInvalidate) :
    v.pending = none ∧ ∀ l ∈ v.line, l.state.inTransition = false := by
  have hof {l : Line} (hl : v.line = some l) (hs : l.state.inTransition = false) :
      ∀ x ∈ v.line, x.state.inTransition = false := by
    intro x hx
    obtain rfl : l = x := Option.some.inj (hl.symm.trans hx)
    exact hs
  cases r with
  | idle =>
    cases h with
    | absent e hl hp' => exact ⟨hp', by simp [hl]⟩
    | read e l q hl hs hp' ho' => simp [ho'] at ho
    | readFailed l q st ht hl hs hp' ho' hrf =>
      obtain ⟨hr', -⟩ | ⟨-, o, hf'⟩ := hrf
      · simp [hr'] at hrep
      · simp [hf'] at hf
    | write e l q hl hs hp' ho' => simp [ho'] at ho
    | upgrade l q hl hs hq hp' ho' => simp [ho'] at ho
    | writeFailed op n st l q ht hl hs hq hp' ho' hrf =>
      rw [hrep, hf] at hrf
      cases hrf
    | writeBack l p hl hs hp' hor =>
      obtain ⟨ho', -⟩ | ⟨-, hr'⟩ := hor
      · simp [ho'] at ho
      · simp [hr'] at hrep
    | invalidate l hl hs hp' => exact absurd hp' hp
    | stale l hst hl hs hw hp' => exact ⟨hp', hof hl (by rw [hs]; rfl)⟩
  | sharer p =>
    cases h with
    | shared l hl hs hptr hd hw hp' => exact ⟨hp', hof hl (by rw [hs]; rfl)⟩
    | evicted hl hp' ho' => simp [ho'] at ho
    | arriving l q hl hs hptr hp' ho' hrf =>
      obtain ⟨hr', -⟩ | ⟨-, o, hf'⟩ := hrf
      · simp [hr'] at hrep
      · simp [hf'] at hf
    | reread l q hl hs hp' ho' => simp [ho'] at ho
    | rewrite l q hl hs hp' ho' => simp [ho'] at ho
    | upgrade l q hl hs hptr hd hp' hor =>
      obtain ⟨ho', -⟩ | ⟨-, -, st, hr'⟩ := hor
      · simp [ho'] at ho
      · simp [hr'] at hrep
    | writeBack l hl hs hptr hd hp' ho' => simp [ho'] at ho
  | owner p =>
    cases h with
    | dirty l hl hs hptr hd hw hp' => exact ⟨hp', hof hl (by rw [hs]; rfl)⟩
    | granted op n l q hl hs hptr hp' ho' hrf =>
      rw [hrep, hf] at hrf
      cases hrf
    | writeBack l hl hs hptr hd hp' ho' => simp [ho'] at ho
  | _ => cases hr

/-- A line that holds back a question of the home is not locked, so it is in transition. -/
theorem Cacher.Quiet.holdsBack (hq : c.Quiet) (hp : c.Postponed) {a : Ask W} (ha : a ∈ c.serve) :
    ∃ l, c.line = some l ∧ ((l.state = .toDirty ∧ Cacher.Ask.isInvalidate a = false) ∨
      (l.state = .toShared ∧ a.isRead = false)) := by
  obtain hload | ⟨l, hl, hold⟩ := hp.serve a ha
  · simp [hq.agenda] at hload
  · obtain h | h | hlock := hold
    · exact ⟨l, hl, .inl h⟩
    · exact ⟨l, hl, .inr h⟩
    · simp [hq.unlocked l hl] at hlock

theorem Cacher.Quiet.asks (hq : c.Quiet) : c.asks = c.serve ∧ c.acks = [] := by
  simp [Cacher.asks, Cacher.acks, hq.agenda, hq.fromHome, hq.toHome]

theorem Cacher.Quiet.view (hq : c.Quiet) (parked : List Own) :
    (c.view parked).out = parked ∧ (c.view parked).rep = [] ∧ (c.view parked).fwd = [] := by
  simp [Cacher.view, Cacher.inFlight, Cacher.replies, hq.fromHome, hq.toHome, hq.fromPeers]

/-- An owner answers what the home asks. -/
theorem Cacher.Quiet.not_asked_owner (hq : c.Quiet) (hp : c.Postponed) {parked : List Own}
    (hcfg : Cfg f i cur (.owner p) (c.view parked)) {a : Ask W} (ha : a ∈ c.serve) : False := by
  obtain ⟨l, hl, hold⟩ := hq.holdsBack hp ha
  obtain ⟨-, hrep, hfwd⟩ := hq.view parked
  have heq {x : Line} (hx : (c.view parked).line = some x) : l = x :=
    Option.some.inj (hl.symm.trans hx)
  cases hcfg with
  | dirty x hx hs =>
    obtain rfl := heq hx
    simp [hs] at hold
  | granted op n x q hx hs hptr hp' ho hrf =>
    rw [hrep, hfwd] at hrf
    cases hrf
  | writeBack x hx hs =>
    obtain rfl := heq hx
    simp [hs.state] at hold

end

section
variable [DecidableEq W] {f : Slack} {i : Nat} {cur mem₀ : Data} {b : Block W} {role : W → Role}
  {tok : W → Tok W} {w : W}

theorem Inv.not_ack (hi : Inv f i cur b role tok) (hq : b.Quiet) {a : Ack} : tok w ≠ .ack a := by
  intro ht
  have htok := (hi.worker w).tok
  rw [ht] at htok
  simp [TokOk, (hq.cacher w).asks.2] at htok

theorem Inv.serve_of_ask (hi : Inv f i cur b role tok) (hq : b.Quiet) {a : Ask W}
    (ht : tok w = .ask a) : (b.cacher w).serve = [a] := by
  have htok := (hi.worker w).tok
  rw [ht] at htok
  rw [← (hq.cacher w).asks.1]
  exact htok.1

/-- A sharer that does not answer an invalidation reads the block again. -/
theorem Inv.crossed (hi : Inv f i cur b role tok) (hq : b.Quiet) (hp : b.Postponed) {p : Ptr}
    {a : Ask W} (hr : role w = .sharer p) (ht : tok w = .ask a)
    (ha : Cacher.Ask.isInvalidate a = true) (htrans : b.home.entry.inTransition = true) :
    b.Crossed w := by
  have hserve := hi.serve_of_ask hq ht
  obtain ⟨l, hl, hold⟩ := (hq.cacher w).holdsBack (hp.cacher w) (a := a) (by simp [hserve])
  obtain ⟨hout, hrep, hfwd⟩ := (hq.cacher w).view (b.home.parked w)
  have hs : l.state = .toShared := by
    obtain ⟨-, hinv⟩ | ⟨hs, -⟩ := hold
    · simp [ha] at hinv
    · exact hs
  have heq {x : Line} (hx : ((b.cacher w).view (b.home.parked w)).line = some x) : l = x :=
    Option.some.inj (hl.symm.trans hx)
  have hcfg := (hi.worker w).cfg
  rw [hr] at hcfg
  cases hcfg with
  | shared x hx hs' =>
    obtain rfl := heq hx
    simp [hs] at hs'
  | evicted hx =>
    have hnone : (b.cacher w).line = none := hx
    simp [hl] at hnone
  | arriving x q hx hs' hptr hp' ho hrf =>
    obtain ⟨hr', -⟩ | ⟨-, o, hf'⟩ := hrf
    · simp [hr'] at hrep
    · simp [hf'] at hfwd
  | reread x q hx hs' hp' ho =>
    obtain rfl := heq hx
    exact ⟨htrans, ⟨_, _, _, hout.symm.trans ho⟩, ⟨a, hserve, ha⟩, l, q, hl, hs, hp'⟩
  | rewrite x q hx hs' =>
    obtain rfl := heq hx
    simp [hs'.state] at hs
  | upgrade x q hx hs' =>
    obtain rfl := heq hx
    simp [hs'.state] at hs
  | writeBack x hx hs' =>
    obtain rfl := heq hx
    simp [hs'.state] at hs

/-- With nothing pending at the home, nothing waits. -/
theorem Inv.atRest (hi : Inv f i cur b role tok) (hq : b.Quiet) (hp : b.Postponed)
    (hnone : b.home.pending = none) (ht : b.home.entry.inTransition = false)
    (hw : ∀ w, (role w).settled = true ∧ tok w = .none) : b.AtRest := by
  have hbusy : ¬ b.home.entry.Busy := by
    rintro (h | h)
    · simp [ht] at h
    · simp [hq.unlocked] at h
  have hserve : b.home.serve = [] := by
    by_contra hne
    refine hbusy ((hp.home.serve hne).resolve_left ?_)
    simp [hq.agenda]
  refine ⟨⟨hnone, hserve, ?_⟩, fun w => ?_⟩
  · by_contra hne
    exact hbusy (hp.home.locals hne)
  · obtain ⟨hout, hrep, hfwd⟩ := (hq.cacher w).view (b.home.parked w)
    have hpark : b.home.parked w = [] := by
      simp [Home.parked, hserve, hq.agenda, sentTo]
    have hcomplete := (hq.cacher w).completed
    have hne : ((b.cacher w).view (b.home.parked w)).pending ≠ some .pendingInvalidate := by
      intro hpend
      have hpend : (b.cacher w).pending = some .pendingInvalidate := hpend
      simp [Cacher.complete, hpend] at hcomplete
    obtain ⟨hpend, hline⟩ := (hi.worker w).cfg.settled (hw w).1 (hout.trans hpark) hrep hfwd hne
    have htok := (hi.worker w).tok
    rw [(hw w).2] at htok
    refine ⟨hpend, (hq.cacher w).asks.1 ▸ htok.1, ?_⟩
    refine ((hp.cacher w).of_idle fun l hl => ?_).2
    rintro (h | h)
    · simp [hline l hl] at h
    · simp [(hq.cacher w).unlocked l hl] at h

theorem Good.atRest_or_crossed (hg : Good f i mem₀ b) (hq : b.Quiet) (hp : b.Postponed) :
    b.AtRest ∨ ∃ w, b.Crossed w := by
  have htrans := hg.inTransition_of_pending
  obtain ⟨role, tok, hi⟩ := hg
  have hentry {d : DirEntry W} (he : b.home.entry = some d) (hd : d.state.inTransition = false) :
      b.home.entry.inTransition = false := by
    rw [he]
    exact hd
  have hunused {w : W} (hu : Unused role tok w) : (role w).settled = true ∧ tok w = .none := by
    simp [hu.1, hu.2, Role.settled]
  have howner {w : W} {p : Ptr} {a : Ask W} (hr : role w = .owner p) (ht : tok w = .ask a) :
      False := by
    have hcfg := (hi.worker w).cfg
    rw [hr] at hcfg
    exact (hq.cacher w).not_asked_owner (hp.cacher w) hcfg (a := a) (by simp [hi.serve_of_ask hq ht])
  cases hi.phase with
  | unshared hnone hs hl hk hm hw =>
    refine .inl (hi.atRest hq hp hnone ?_ fun w => hunused (hw w))
    rw [Dir.inTransition, hs]
    rfl
  | shared d he hnone hs hl hn hk hm hw =>
    refine .inl (hi.atRest hq hp hnone (hentry he (by rw [hs]; rfl)) fun w => ?_)
    obtain ⟨p, -, hr⟩ | ⟨-, hr⟩ := (hw w).1
    · simp [hr, (hw w).2, Role.settled]
    · simp [hr, (hw w).2, Role.settled]
  | dirty d o p he hnone hs hl hk ho hw =>
    refine .inl (hi.atRest hq hp hnone (hentry he (by rw [hs]; rfl)) fun w => ?_)
    obtain rfl | hu := hw w
    · simp [ho.1, ho.2, Role.settled]
    · exact hunused hu
  | toShared d o p x q he hpend hs hl hk hstage hx hw =>
    cases hstage with
    | asked t hq' ht ho => exact (howner ho ht).elim
    | answered ht => exact (hi.not_ack hq ht).elim
    | refused st hq' ht => exact (hi.not_ack hq ht).elim
  | take d o p x q he hpend hs hl hk hstage hx hw =>
    cases hstage with
    | asked t hq' ht ho => exact (howner ho ht).elim
    | answered ht => exact (hi.not_ack hq ht).elim
    | refused st hq' ht => exact (hi.not_ack hq ht).elim
  | invalidate d x q n st t hq' he hpend hs hk hkx hm hpos hc =>
    have hcount := hc.count
    have hpos' : 0 < d.shared.countP fun a => (tok a.1).busy := by omega
    obtain ⟨⟨w, p⟩, hmem, hbusy⟩ := List.countP_pos_iff.mp hpos'
    refine .inr ⟨w, ?_⟩
    obtain ⟨y, hy, rfl⟩ | ⟨p', -, hstage⟩ | ⟨hnot, -⟩ := hc.copies w
    · simp [(hc.waits y hy).tok, Tok.busy] at hbusy
    · generalize hr : role w = r, ht : tok w = k at hstage hbusy
      cases hstage with
      | asked a ha => exact hi.crossed hq hp hr ht ha (htrans (by simp [hpend]))
      | answered => exact (hi.not_ack hq ht).elim
      | refused s => exact (hi.not_ack hq ht).elim
      | kept => cases hbusy
    · exact absurd hmem (hnot p)

end

/-! ## The whole memory -/

instance (c : Cacher W) : Decidable c.Quiet :=
  decidable_of_iff (c.toHome.isEmpty ∧ c.fromHome.isEmpty ∧ c.fromPeers.isEmpty ∧
      c.agenda.isEmpty ∧ (∀ l ∈ c.line, l.locks.isBlockLocked = false) ∧ c.complete.isNone) (by
    simp only [List.isEmpty_iff, Option.isNone_iff_eq_none]
    exact ⟨fun ⟨h1, h2, h3, h4, h5, h6⟩ => ⟨h1, h2, h3, h4, h5, h6⟩,
      fun h => ⟨h.toHome, h.fromHome, h.fromPeers, h.agenda, h.unlocked, h.completed⟩⟩)

instance [Fintype W] (b : Block W) : Decidable b.Quiet :=
  decidable_of_iff (b.home.agenda.isEmpty ∧ b.home.entry.isBlockLocked = false ∧
      ∀ w, (b.cacher w).Quiet) (by
    rw [List.isEmpty_iff]
    exact ⟨fun ⟨h1, h2, h3⟩ => ⟨h1, h2, h3⟩, fun h => ⟨h.agenda, h.unlocked, h.cacher⟩⟩)

namespace Layout

variable {V : Type*} [DecidableEq V] {l : Layout V} {mem : Nat → Data} {s : Sys V} {i : Nat}
  {q : Request}

theorem postponed_of_reaches (h : Reaches l.step l.Room (Sys.init mem) s) (i : Nat) :
    (s.blk i).Postponed := by
  have hb := l.block_reaches (h.mono fun a t hr => ⟨hr, l.permits_all a t⟩) i
  refine hb.invariant_along ?_ fun a t t' hr hp hok hs => ?_
  · exact ⟨⟨by simp [Block.init], by simp [Block.init]⟩,
      fun w => ⟨by simp [Block.init], by simp [Block.init]⟩⟩
  · have hg := good_of_reaches hr
    exact hg.postponed (hg.step hok.1 hok.2 hs) hs hp

/-- Where nothing moves at a block nothing waits, but for a crossing. -/
theorem unstuck_of_reaches (h : Reaches l.step l.Room (Sys.init mem) s) (hq : (s.blk i).Quiet) :
    (s.blk i).AtRest ∨ ∃ w, (s.blk i).Crossed w :=
  (l.good_blk_all h i).atRest_or_crossed hq (postponed_of_reaches h i)

/-- The worker reads the block, evicts it and reads it again while the home starts a WRITE. -/
def reread : List (SysAct Bool) :=
  [.issue { id := 0, thread := 1, op := .read, addr := 0, size := 1 }, .serve true 0, .finish true,
    .recvHome true 0, .recv true 0, .replay true, .evict true 0,
    .issue { id := 1, thread := 1, op := .read, addr := 0, size := 1 }, .serve true 8, .finish true,
    .issue { id := 2, thread := 0, op := .write, addr := 0, size := 1 }, .serve false 0, .finish false,
    .recv true 0, .recvHome true 0, .recvHome true 0]

theorem crossed_reread : ∃ s, Reaches twoWorkers.step twoWorkers.Room (Sys.init fun _ _ => 0) s ∧
    (s.blk 0).Quiet ∧ ∃ w, (s.blk 0).Crossed w := by
  obtain ⟨s, hr, hq, hw⟩ := Reaches.exists_of_runs twoWorkers.step twoWorkers.Room reread
    (Sys.init fun _ _ => 0)
    (fun s => (s.blk 0).Quiet ∧ (s.blk 0).home.pending.isSome = true) (by decide)
  refine ⟨s, hr, hq, (unstuck_of_reaches hr hq).resolve_left fun hrest => ?_⟩
  simp [hrest.home.1] at hw

/-- A READ or WRITE whose worker is idle and whose blocks are quiet is done, but for a crossing. -/
theorem told_of_quiet (h : Reaches l.step l.Room (Sys.init mem) s) (hmem : q ∈ s.issued)
    (hl : q.op.isLock = false) (hidle : s.idle (l.worker q.thread) = true)
    (hquiet : ∀ i ∈ q.span, (s.blk i).Quiet ∧ ∀ w, ¬ (s.blk i).Crossed w) :
    s.hist.countP (Happened.tells q.id) = 1 := by
  have hdesk : ∀ i ∈ q.span, (l.deskOf s q i).pend = none ∧ (l.deskOf s q i).locals = [] ∧
      (l.deskOf s q i).agenda = [] := by
    intro i hi
    obtain ⟨hq, hno⟩ := hquiet i hi
    have hrest : (s.blk i).AtRest :=
      ((l.good_blk_all h i).atRest_or_crossed hq (postponed_of_reaches h i)).resolve_right
        fun ⟨w, hw⟩ => hno w hw
    unfold deskOf
    cases l.place (l.worker q.thread) i with
    | none => simp [Block.desk, Home.desk, Home.parent, hrest.home, hq.agenda]
    | some w => simp [Block.desk, Cacher.desk, hrest.cacher w, (hq.cacher w).agenda]
  have hb := (booked_of_reaches (fun _ _ h => h) h).balanced q hmem hl
  have hclosed : (l.account s q).Closed q.span := by
    refine ⟨?_, Finset.sum_eq_zero fun i hi => ?_, Finset.sum_eq_zero fun i hi => ?_⟩
    · simp [account, Control.hand_of_idle hidle]
    · obtain ⟨-, hlocals, hag⟩ := hdesk i (List.mem_toFinset.mp hi)
      simp [account, Desk.parked, hlocals, hag]
    · obtain ⟨hp, -⟩ := hdesk i (List.mem_toFinset.mp hi)
      exact Desk.waits_of_none hp
  have htold := hb.told
  rw [if_pos hclosed] at htold
  exact htold

/-- The other worker READs across two blocks of the home. -/
def readTwo : List (SysAct Bool) :=
  [.issue { id := 0, thread := 1, op := .read, addr := 510, size := 4 }, .serve true 0,
    .serve true 8, .finish true, .recvHome true 0, .recv true 0, .replay true, .recvHome true 1,
    .recv true 1, .replay true]

theorem told_readTwo : ∃ s, Reaches twoWorkers.step twoWorkers.Room (Sys.init fun _ _ => 0) s ∧
    ∃ q ∈ s.issued, q.span = [0, 1] ∧ s.hist.countP (Happened.tells q.id) = 1 := by
  obtain ⟨s, hr, q, hmem, hl, hidle, hspan, hquiet⟩ := Reaches.exists_of_runs twoWorkers.step
    twoWorkers.Room readTwo (Sys.init fun _ _ => 0)
    (fun s => ∃ q ∈ s.issued, q.op.isLock = false ∧ s.idle (twoWorkers.worker q.thread) = true ∧
      q.span = [0, 1] ∧ ∀ i ∈ q.span, (s.blk i).Quiet ∧ (s.blk i).home.entry.inTransition = false)
    (by decide)
  refine ⟨s, hr, q, hmem, hspan, told_of_quiet hr hmem hl hidle fun i hi => ⟨(hquiet i hi).1, ?_⟩⟩
  intro w hw
  exact absurd hw.home (by simp [(hquiet i hi).2])

end Layout

end HwGam.Coherence
