import HwGam.Coherence.HomeOwn

/-!
# Answers to the home's questions keep the invariant

The last answer ends the home's pending request: the directory entry gets its new state, a forwarded
request hears of it, and what was parked is replayed.
-/

namespace HwGam.Coherence

variable {W : Type*} {f : Slack} {i : Nat} {cur mem : Data}

/-! ## An answer that has been taken out of its queue -/

section
variable {parked : List Own} {r : Role} {t : Tok W} {c : Cacher W} {a : Ack} {p : Ptr}

theorem At.take_ack (h : At f i cur mem parked r t c) {ms : List ToHome}
    (hc : c.toHome = .ack a :: ms) :
    t = .ack a ∧ At f i cur mem parked r .none { c with toHome := ms } := by
  have hacks : c.acks = a :: ms.filterMap ToHome.ack? := by
    simp [Cacher.acks, hc]
  have hin : c.inFlight = ms.filterMap ToHome.own? := by
    simp [Cacher.inFlight, hc, List.filterMap_cons]
  obtain ⟨rfl, hms, hasks⟩ : t = .ack a ∧ ms.filterMap ToHome.ack? = [] ∧ c.asks = [] := by
    have htok := h.tok
    cases t with
    | none => simp [TokOk, hacks] at htok
    | ask b => simp [TokOk, hacks] at htok
    | ack b =>
      obtain ⟨h1, h2⟩ := htok
      obtain ⟨rfl, hms⟩ := List.cons.inj (hacks.symm.trans h2)
      exact ⟨rfl, hms, h1⟩
  refine ⟨rfl, ?_, ⟨hasks, hms⟩, h.ord, ?_⟩
  · have hv : Cacher.view { c with toHome := ms } parked = c.view parked := by
      simp only [Cacher.view, hin]
      rfl
    rw [hv]
    exact h.cfg
  · cases h.landing with
    | none hn hm => exact .none (fun m hmem => hn m (by rw [hc]; exact List.mem_cons_of_mem _ hmem)) hm
    | before p post hq => simp [hc] at hq
    | after p b hq hp hr =>
      rw [hc] at hq
      obtain ⟨-, rfl⟩ := List.cons.inj hq
      exact .before p [] rfl hp (.inl hr)

/-! ## What a forwarded request hears of the home -/

theorem At.hear_granted (h : At f i cur mem parked (.grantWait p) .none c) :
    At f i cur mem parked (.owner p) .none (c.withHome [.reply (.imm none)]) := by
  cases h.cfg with
  | mk op n l q hl hs hptr hp ho hr hf =>
    have hp' : c.pending ≠ some .writeBack := by simp [show c.pending = _ from hp]
    refine At.reply h.tok h.ord [.imm none] (Owner.granted op n l q hl hs hptr hp ho ?_)
      (.of_noRdma (h.landing.noRdma hp') hp')
    show Granted i cur q l.data (c.replies ++ _) c.fromPeers n
    rw [show c.replies = [] from hr]
    obtain ⟨rfl, o, hf⟩ | ⟨rfl, hf, hd⟩ := hf
    · rw [show c.fromPeers = _ from hf]
      exact .both o
    · rw [show c.fromPeers = _ from hf]
      exact .last hd

theorem At.hear_refused (h : At f i cur mem parked (.failWait p) .none c) :
    At f i cur mem parked .idle .none (c.withHome [.reply (.imm none)]) := by
  cases h.cfg with
  | mk op n s l q hl hs hptr ht hq hp ho hr hf =>
    have hp' : c.pending ≠ some .writeBack := by simp [show c.pending = _ from hp]
    refine At.reply h.tok h.ord [.imm none] (Idle.writeFailed op n s l q ht hl hs hq hp ho ?_)
      (.of_noRdma (h.landing.noRdma hp') hp')
    show Refused (c.replies ++ _) c.fromPeers n s
    rw [show c.replies = [] from hr]
    obtain ⟨rfl, rfl, o, st, hf⟩ | ⟨rfl, hs, hf⟩ := hf
    · rw [show c.fromPeers = _ from hf]
      exact .both o st
    · rw [show c.fromPeers = _ from hf]
      obtain ⟨st, rfl⟩ := Option.isSome_iff_exists.mp hs
      exact .last st

/-- The other copies are gone: with the data where its own copy may be gone, too. -/
theorem At.hear_invalidated {listed t' : Bool} (withData : Bool)
    (h : At f i cur mem parked (.invWait p listed t') .none c)
    (hdata : withData = false → listed = true) :
    At f i cur mem parked (.owner p) .none (c.withHome
      ((if withData then [.rdmaWrite cur, .writeReply none] else [.writeReply none]).map .reply)) := by
  cases h.cfg with
  | mk op l q hl hs hptr ht hin hq hp ho hr hf =>
    have hp' : c.pending ≠ some .writeBack := by simp [show c.pending = _ from hp]
    refine At.reply h.tok h.ord _ (Owner.granted op 0 l q hl hs hptr hp ho ?_)
      (.of_noRdma (h.landing.noRdma hp') hp')
    show Granted i cur q l.data (c.replies ++ _) c.fromPeers 0
    rw [show c.replies = [] from hr, show c.fromPeers = [] from hf]
    cases withData with
    | true => exact .data
    | false => exact .ready (.inr (hin (hdata rfl)).2)

/-- A copy refused a try-lock: a sharer stays one. -/
theorem At.hear_invalidateFailed {listed : Bool} (st : Status)
    (h : At f i cur mem parked (.invWait p listed true) .none c) :
    At f i cur mem parked (if listed then .sharer p else .idle) .none
      (c.withHome [.reply (.writeReply (some st))]) := by
  cases h.cfg with
  | mk op l q hl hs hptr ht hin hq hp ho hr hf =>
    have hp' : c.pending ≠ some .writeBack := by simp [show c.pending = _ from hp]
    have hr : c.replies = [] := hr
    refine At.reply h.tok h.ord [.writeReply (some st)] ?_ (.of_noRdma (h.landing.noRdma hp') hp')
    cases listed with
    | true =>
      obtain ⟨rfl, hd⟩ := hin rfl
      exact Sharer.upgrade l q hl hs hptr hd hp (.inr ⟨ho, ht, st, by rw [hr]; rfl⟩) hf
    | false =>
      refine Idle.writeFailed op 0 none l q ht hl hs ((hq rfl).stale · ht) hp ho ?_
      show Refused (c.replies ++ _) c.fromPeers 0 none
      rw [hr, show c.fromPeers = [] from hf]
      exact .home st

end

section
variable [DecidableEq W] {role : W → Role} {tok : W → Tok W} {h : Home W} {cs : W → Cacher W}
  {w : W} {a : Ack} {d : DirEntry W} {p : Ptr} {x : Option (W × Ptr)} {q : Request}

/-- The home handles the answer `a` of `w`, which is no longer in any queue. -/
structure Acked (f : Slack) (i : Nat) (cur : Data) (role : W → Role) (tok : W → Tok W) (h : Home W)
    (cs : W → Cacher W) (w : W) (a : Ack) : Prop where
  phase : Phase cur h role tok
  ack : tok w = .ack a
  worker : ∀ u, At f i cur h.mem (h.parked u) (role u) (Function.update tok w .none u) (cs u)

/-- Nobody hears of the answer. -/
theorem Acked.settle (ha : Acked f i cur role tok h cs w a) {res : Home.Result W}
    (hph : Phase cur res.st role (Function.update tok w .none)) (hsent : res.sent = [])
    (hpk : ∀ u, res.st.parked u = h.parked u) (hm : res.st.mem = h.mem ∨ res.st.mem = cur)
    (hev : res.st.EvictsWait) : Next f i cur cs res := by
  refine ⟨_, _, hph, fun u => ?_, hev⟩
  rw [hsent, hpk, show sentTo u _ = [] from rfl, withHome_nil]
  exact (ha.worker u).of_mem hm

/-- The worker `y` the pending request was for hears of the answer. -/
theorem Acked.tell (ha : Acked f i cur role tok h cs w a) {res : Home.Result W} (y : W) (g : Role)
    (rs : List Reply) (hph : Phase cur res.st (Function.update role y g) (Function.update tok w .none))
    (hsent : res.sent = rs.map fun r => (y, .reply r))
    (hpk : ∀ u, res.st.parked u = h.parked u) (hm : res.st.mem = h.mem)
    (hy : At f i cur h.mem (h.parked y) g (Function.update tok w .none y)
      ((cs y).withHome (rs.map .reply)))
    (hev : res.st.EvictsWait) : Next f i cur cs res := by
  refine ⟨_, _, hph, fun u => ?_, hev⟩
  rw [hsent, hpk, hm]
  by_cases hu : u = y
  · subst hu
    rw [Function.update_self, show sentTo u (rs.map fun r => (u, FromHome.reply r)) =
      rs.map .reply by simp [sentTo, List.filterMap_map]]
    exact hy
  · rw [Function.update_of_ne hu, show sentTo u (rs.map fun r => (y, FromHome.reply r)) = [] by
      simp [sentTo, List.filterMap_map, Ne.symm hu], withHome_nil]
    exact ha.worker u

/-! ## The owner has answered -/

theorem tok_taken {o : W} (hx : ∀ y ∈ x, y.1 ≠ o ∧ tok y.1 = .none)
    (hw : ∀ u, u = o ∨ (∃ y ∈ x, u = y.1) ∨ Unused role tok u) (u : W) :
    Function.update tok o .none u = .none := by
  by_cases hu : u = o
  · rw [hu, Function.update_self]
  · rw [Function.update_of_ne hu]
    obtain hu' | ⟨y, hy, rfl⟩ | hu' := hw u
    · exact absurd hu' hu
    · exact (hx y hy).2
    · exact hu'.2

/-- The owner's copy is shared, by the worker `x`, too, if the READ was its. -/
theorem Phase.shared_answered {h' : Home W} {o : W} (hl : d.shared = [(o, p)])
    (hk : d.locks.Below exclusive) (ho : role o = .sharer p) (hx' : ∀ y ∈ x, role y.1 = .sharer y.2)
    (hx : ∀ y ∈ x, y.1 ≠ o ∧ tok y.1 = .none)
    (hw : ∀ u, u = o ∨ (∃ y ∈ x, u = y.1) ∨ Unused role tok u)
    (he' : h'.entry = some { d with state := .shared, shared := (o, p) :: x.toList })
    (hp' : h'.pending = none) (hm' : h'.mem = cur) :
    Phase cur h' role (Function.update tok o .none) := by
  refine .shared _ he' hp' rfl (by simp) ?_ hk hm' fun u => ⟨?_, tok_taken hx hw u⟩
  · cases x with
    | none => simp
    | some y => simpa using fun h => (hx y rfl).1 h.symm
  · obtain rfl | ⟨y, hy, rfl⟩ | hu := hw u
    · exact .inl ⟨p, by simp, ho⟩
    · exact .inl ⟨y.2, by simp [Option.mem_toList.mpr hy], hx' y hy⟩
    · by_cases huo : u = o
      · subst huo
        exact .inl ⟨p, by simp, ho⟩
      · by_cases hux : ∃ y ∈ x, u = y.1
        · obtain ⟨y, hy, rfl⟩ := hux
          exact .inl ⟨y.2, by simp [Option.mem_toList.mpr hy], hx' y hy⟩
        · refine .inr ⟨fun p' hmem => ?_, hu.1⟩
          obtain h | h := List.mem_cons.mp hmem
          · exact huo (congrArg Prod.fst h)
          · exact hux ⟨_, Option.mem_toList.mp h, rfl⟩

/-- The owner keeps the block. -/
theorem Phase.dirty_refused {h' : Home W} {o : W} (hl : d.shared = [(o, p)])
    (hk : d.locks.isBlockLocked = false) (ho : role o = .owner p) (hx' : ∀ y ∈ x, role y.1 = .idle)
    (hx : ∀ y ∈ x, y.1 ≠ o ∧ tok y.1 = .none)
    (hw : ∀ u, u = o ∨ (∃ y ∈ x, u = y.1) ∨ Unused role tok u)
    (he' : h'.entry = some { d with state := .dirty }) (hp' : h'.pending = none) :
    Phase cur h' role (Function.update tok o .none) := by
  refine .dirty _ o p he' hp' rfl hl hk ⟨ho, by simp⟩ fun u => ?_
  obtain rfl | ⟨y, hy, rfl⟩ | hu := hw u
  · exact .inl rfl
  · exact .inr ⟨hx' y hy, tok_taken hx hw _⟩
  · exact .inr ⟨hu.1, tok_taken hx hw _⟩

/-- The owner has shared its copy with the home. -/
theorem Acked.fetchAndShared (ha : Acked f i cur role tok h cs w (.imm (some cur)))
    (he : h.entry = some d) (hp : h.pending = some (.fetchAndShared q)) (hl : d.shared = [(w, p)])
    (hk : d.locks.isBlockLocked = false) (ho : role w = .sharer p)
    (hw : ∀ u, u = w ∨ Unused role tok u) :
    Next f i cur cs (h.recv i w (.ack (.imm (some cur)))) ∧
      Block.value i cur (h.recv i w (.ack (.imm (some cur)))).evs = cur := by
  have hw' (u : W) : u = w ∨ (∃ y ∈ (none : Option (W × Ptr)), u = y.1) ∨ Unused role tok u :=
    (hw u).imp_right .inr
  have e : h.recv i w (.ack (.imm (some cur))) = (h.land (some cur)).processPendingRead q := by
    simp [Home.recv, Home.processImm, Home.land, hp]
  rw [e]
  unfold Home.processPendingRead
  split
  · refine ⟨ha.settle (Phase.shared_answered (x := none)
      (d := { d with locks := d.locks.share q.addr }) hl ?_ ho (by rintro _ ⟨⟩) (by rintro _ ⟨⟩) hw' ?_ rfl rfl) rfl
      (fun u => parked_done) (.inr rfl) .done, rfl⟩
    · have hnone := Locks.lookup_of_not_isBlockLocked hk q.addr
      exact (Locks.Below.of_not_isBlockLocked hk).share le_rfl (by simp [hnone])
        (by simp [Locks.hasRoom, hnone]) (Nat.le_succ _)
    · simp [Home.land, Home.done, Home.processToServe, Dir.toSharedNull, Dir.rLock, Dir.isWLocked,
        Dir.getState, he, hl]
  · refine ⟨ha.settle (Phase.shared_answered (x := none) (d := d) hl (.of_not_isBlockLocked hk) ho
      (by rintro _ ⟨⟩) (by rintro _ ⟨⟩) hw' ?_ rfl rfl) rfl (fun u => parked_done) (.inr rfl) .done, rfl⟩
    simp [Home.land, Home.done, Home.processToServe, Dir.toSharedNull, he, hl]

/-- The owner has shared its copy with `y`. -/
theorem Acked.readForward (ha : Acked f i cur role tok h cs w (.imm (some cur))) {y : W × Ptr}
    (he : h.entry = some d) (hp : h.pending = some (.readForward y.1 y.2)) (hl : d.shared = [(w, p)])
    (hk : d.locks.isBlockLocked = false) (ho : role w = .sharer p) (hy : role y.1 = .sharer y.2)
    (hx : y.1 ≠ w ∧ tok y.1 = .none) (hw : ∀ u, u = w ∨ u = y.1 ∨ Unused role tok u) :
    Next f i cur cs (h.recv i w (.ack (.imm (some cur)))) ∧
      Block.value i cur (h.recv i w (.ack (.imm (some cur)))).evs = cur := by
  have e : h.recv i w (.ack (.imm (some cur))) =
      (h.land (some cur)).processPendingReadForward y.1 y.2 := by
    simp [Home.recv, Home.processImm, Home.land, hp]
  rw [e]
  refine ⟨ha.settle (Phase.shared_answered (x := some y) (d := d) hl (.of_not_isBlockLocked hk) ho
    (by simpa using hy) (by simpa using hx) (by simpa using hw) ?_ rfl rfl) rfl
    (fun u => parked_done) (.inr rfl) .done, rfl⟩
  simp [Home.processPendingReadForward, Home.land, Home.done, Home.processToServe, Dir.toSharedNull,
    Dir.toShared, he, hl]

/-- The owner has refused to share its copy. -/
theorem Acked.read_refused {st : Status} (ha : Acked f i cur role tok h cs w (.readReply st))
    (he : h.entry = some d) (hp : h.pending = some (readPending x q)) (hl : d.shared = [(w, p)])
    (hk : d.locks.isBlockLocked = false) (ho : role w = .owner p) (hx' : ∀ y ∈ x, role y.1 = .idle)
    (hx : ∀ y ∈ x, y.1 ≠ w ∧ tok y.1 = .none)
    (hw : ∀ u, u = w ∨ (∃ y ∈ x, u = y.1) ∨ Unused role tok u) :
    Next f i cur cs (h.recv i w (.ack (.readReply st))) ∧
      Block.value i cur (h.recv i w (.ack (.readReply st))).evs = cur := by
  have hst (evs : List (Ev W)) : Next f i cur cs
      { st := { h with entry := h.entry.setState .dirty }.done, evs := evs } := by
    refine ha.settle (Phase.dirty_refused (x := x) (d := d) hl hk ho hx' hx hw ?_ rfl) rfl
      (fun u => parked_done) (.inl rfl) .done
    simp [Home.done, Home.processToServe, Dir.setState, he]
  cases x with
  | none =>
    rw [show h.recv i w (.ack (.readReply st)) = h.undo .dirty q by
      simp [Home.recv, Home.processRemoteReadReply, hp, readPending]]
    exact ⟨hst _, rfl⟩
  | some y =>
    rw [show h.recv i w (.ack (.readReply st)) =
        { st := { h with entry := h.entry.setState .dirty }.done } by
      simp [Home.recv, Home.processRemoteReadReply, hp, readPending]]
    exact ⟨hst _, rfl⟩

omit [DecidableEq W] in
theorem Dir.toUnShared_eq (e : Dir W) {n : Nat} (hk : e.locks.Below n) :
    e.toUnShared.getState = .unshared ∧ e.toUnShared.getSList = [] ∧ e.toUnShared.locks.Below n := by
  cases e with
  | none => exact ⟨rfl, rfl, hk⟩
  | some d =>
    simp only [Dir.toUnShared]
    split
    · exact ⟨rfl, rfl, hk⟩
    · exact ⟨rfl, rfl, .of_not_isBlockLocked rfl⟩

/-- Nobody has a copy: the home's WRITE takes effect, or its WLOCK is had or parked. -/
theorem Acked.finishWrite (ha : Acked f i cur role tok h cs w a) {h₂ : Home W} (hm : h₂.mem = cur)
    (hpk : ∀ u, h₂.parked u = h.parked u) (hk : h₂.entry.locks.Below (exclusive + 1))
    (hu : ∀ u, Unused role (Function.update tok w .none) u) :
    Next f i (Block.value i cur (h₂.finishWrite i q).evs) cs (h₂.finishWrite i q) := by
  obtain ⟨hs, hl, hk⟩ := Dir.toUnShared_eq h₂.entry hk
  have hat {mem' cur' : Data} (hm' : mem' = cur') (u : W) : At f i cur' mem' (h.parked u) (role u)
      (Function.update tok w .none u) (cs u) := by
    obtain ⟨hb, ho, ht⟩ := (hu u).blind
    exact ((ha.worker u).blind hb ho ht).of_mem (.inr hm')
  unfold Home.finishWrite
  dsimp only
  split
  · split
    · rename_i e he
      obtain ⟨-, rfl⟩ := Dir.wLock_eq he
      refine ⟨role, _, .unshared rfl hs hl (hk.insert (Nat.lt_succ_self _)) hm hu, fun u => ?_, .done⟩
      rw [show sentTo u _ = [] from rfl, withHome_nil, parked_done]
      exact (hpk u).symm ▸ hat hm u
    · refine ⟨role, _, .unshared rfl hs hl hk hm hu, fun u => ?_, .done⟩
      rw [show sentTo u _ = [] from rfl, withHome_nil, parked_done]
      exact (hpk u).symm ▸ hat hm u
  · have hm' : q.apply i h₂.mem = q.apply i cur := by rw [hm]
    refine ⟨role, _, .unshared rfl hs hl hk hm' hu, fun u => ?_, .done⟩
    rw [show sentTo u _ = [] from rfl, withHome_nil, parked_done]
    exact (hpk u).symm ▸ hat hm' u

/-- The owner has given the block back to the home. -/
theorem Acked.fetchAndInvalidate (ha : Acked f i cur role tok h cs w (.imm (some cur)))
    (he : h.entry = some d) (hp : h.pending = some (.fetchAndInvalidate 1 none q))
    (hl : d.shared = [(w, p)]) (hk : d.locks.isBlockLocked = false) (ho : role w = .idle)
    (hw : ∀ u, u = w ∨ Unused role tok u) :
    Next f i (Block.value i cur (h.recv i w (.ack (.imm (some cur)))).evs) cs
      (h.recv i w (.ack (.imm (some cur)))) := by
  have e : h.recv i w (.ack (.imm (some cur))) =
      Home.finishWrite i { h.land (some cur) with entry := h.entry.remove w } q := by
    simp [Home.recv, Home.processImm, Home.land, hp, Home.processPendingWrite]
  rw [e]
  refine ha.finishWrite rfl (fun _ => rfl) ?_ fun u => ?_
  · simpa [Dir.remove, he, hl, hk] using Locks.Below.of_not_isBlockLocked rfl
  · by_cases hu : u = w
    · subst hu
      exact ⟨ho, by simp⟩
    · have := (hw u).resolve_left hu
      exact ⟨this.1, by rw [Function.update_of_ne hu]; exact this.2⟩

/-- The owner has given the block to `y`. -/
theorem Acked.writeForward (ha : Acked f i cur role tok h cs w (.imm none)) {y : W × Ptr}
    (he : h.entry = some d) (hp : h.pending = some (.writeForward y.1 y.2))
    (hk : d.locks.isBlockLocked = false) (ho : role w = .idle) (hy : role y.1 = .grantWait y.2)
    (hx : y.1 ≠ w ∧ tok y.1 = .none) (hw : ∀ u, u = w ∨ u = y.1 ∨ Unused role tok u) :
    Next f i cur cs (h.recv i w (.ack (.imm none))) ∧
      Block.value i cur (h.recv i w (.ack (.imm none))).evs = cur := by
  have e : h.recv i w (.ack (.imm none)) = h.processPendingWriteForward y.1 y.2 := by
    simp [Home.recv, Home.processImm, Home.land, hp]
  have htok : Function.update tok w .none y.1 = .none := by
    rw [Function.update_of_ne hx.1, hx.2]
  rw [e]
  refine ⟨ha.tell y.1 (.owner y.2) [.imm none] ?_ rfl (fun u => parked_done) rfl
    ?_ .done, rfl⟩
  · refine .dirty { d with state := .dirty, shared := [y] } y.1 y.2 ?_ rfl rfl rfl hk
      ⟨by simp, htok⟩ fun u => ?_
    · simp [Home.processPendingWriteForward, Home.done, Home.processToServe, Dir.toDirty, he]
    · by_cases huy : u = y.1
      · exact .inl huy
      · refine .inr ?_
        unfold Unused
        rw [Function.update_of_ne huy]
        by_cases huw : u = w
        · subst huw
          exact ⟨ho, by simp⟩
        · have := ((hw u).resolve_left huw).resolve_left huy
          exact ⟨this.1, by rw [Function.update_of_ne huw]; exact this.2⟩
  · have hat := ha.worker y.1
    rw [htok, hy] at hat
    rw [htok]
    exact hat.hear_granted

/-- The owner has refused to give the block up. -/
theorem Acked.write_refused {st : Status} (ha : Acked f i cur role tok h cs w (.writeReply st))
    (he : h.entry = some d) (hp : h.pending = some (writePending x q)) (hl : d.shared = [(w, p)])
    (hk : d.locks.isBlockLocked = false) (ho : role w = .owner p)
    (hx' : ∀ y ∈ x, role y.1 = .failWait y.2) (hx : ∀ y ∈ x, y.1 ≠ w ∧ tok y.1 = .none)
    (hw : ∀ u, u = w ∨ (∃ y ∈ x, u = y.1) ∨ Unused role tok u) :
    Next f i cur cs (h.recv i w (.ack (.writeReply st))) ∧
      Block.value i cur (h.recv i w (.ack (.writeReply st))).evs = cur := by
  cases x with
  | none =>
    rw [show h.recv i w (.ack (.writeReply st)) = h.undo .dirty q by
      simp [Home.recv, Home.processRemoteWriteReply, hp, writePending]]
    refine ⟨ha.settle (Phase.dirty_refused (x := none) (d := d) hl hk ho (by rintro _ ⟨⟩) (by rintro _ ⟨⟩) hw ?_ rfl) rfl
      (fun u => parked_done) (.inl rfl) .done, rfl⟩
    simp [Home.undo, Home.done, Home.processToServe, Dir.setState, he]
  | some y =>
    obtain ⟨hyw, hyt⟩ := hx y rfl
    have htok : Function.update tok w .none y.1 = .none := by
      rw [Function.update_of_ne hyw, hyt]
    rw [show h.recv i w (.ack (.writeReply st)) =
        { st := { h with entry := h.entry.setState .dirty }.done
          sent := [(y.1, .reply (.imm none))] } by
      simp [Home.recv, Home.processRemoteWriteReply, hp, writePending]]
    refine ⟨ha.tell y.1 .idle [.imm none] ?_ rfl (fun u => parked_done) rfl
      ?_ .done, rfl⟩
    · refine Phase.dirty_refused (x := some y) (d := d) hl hk ?_ (by simp) hx (fun u => ?_) ?_ rfl
      · rw [Function.update_of_ne hyw.symm, ho]
      · by_cases huy : u = y.1
        · exact .inr (.inl ⟨y, rfl, huy⟩)
        · refine (hw u).imp_right (.imp_right ?_)
          unfold Unused
          rw [Function.update_of_ne huy]
          exact id
      · simp [Home.done, Home.processToServe, Dir.setState, he]
    · have hat := ha.worker y.1
      rw [htok, hx' y rfl] at hat
      rw [htok]
      exact hat.hear_refused

end

end HwGam.Coherence
