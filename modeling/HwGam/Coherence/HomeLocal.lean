import HwGam.Coherence.HomeFrame

/-!
# Local requests at the home keep the invariant
-/

namespace HwGam.Coherence

variable {W : Type*} [DecidableEq W] {f : Slack} {i : Nat} {cur : Data} {b : Block W}
  {role role' : W → Role} {tok tok' : W → Tok W} {o : Home.Result W} {q : Request}

theorem Inv.homeStep {cur' : Data} (hph : Phase cur' o.st role' tok')
    (hw : ∀ u, At f i cur' o.st.mem (o.st.parked u) (role' u) (tok' u)
      ((b.cacher u).withHome (sentTo u o.sent)))
    (hev : o.st.EvictsWait) : Inv f i cur' (b.homeStep o) role' tok' :=
  ⟨hph, hw, hev⟩

/-! ## Questions -/

/-- The tokens after the home has asked the workers of a list. -/
def tokAsk (l : List (W × Ptr)) (a : Ask W) (u : W) : Tok W :=
  if u ∈ l.map Prod.fst then .ask a else .none

theorem sentTo_asks {M : Type*} {l : List (W × Ptr)} (hn : (l.map Prod.fst).Nodup) (m : M) (u : W) :
    sentTo u (l.map fun a => (a.1, m)) = if u ∈ l.map Prod.fst then [m] else [] := by
  induction l with
  | nil => rfl
  | cons a l ih =>
    rw [List.map_cons, List.nodup_cons] at hn
    rw [List.map_cons, sentTo_cons, ih hn.2, List.map_cons]
    by_cases hu : a.1 = u
    · subst hu
      rw [if_pos rfl, if_neg hn.1, if_pos (List.mem_cons_self ..), List.append_nil]
    · rw [if_neg hu, List.nil_append]
      simp only [List.mem_cons, Ne.symm hu, false_or]

theorem At.asks {l : List (W × Ptr)} (hn : (l.map Prod.fst).Nodup) (a : Ask W) {mem : Data}
    {parked : List Own} {r : Role} {u : W} {c : Cacher W} (h : At f i cur mem parked r .none c) :
    At f i cur mem parked r (tokAsk l a u) (c.withHome (sentTo u (l.map fun x => (x.1, .ask a)))) := by
  rw [sentTo_asks hn, tokAsk]
  split
  · exact h.ask a
  · simpa using h

/-! ## Local requests -/

/-- Nothing but the lock table and the parked local requests changes. -/
theorem Inv.home_quiet (hi : Inv f i cur b role tok) (hsent : o.sent = [])
    (hph : Phase cur o.st role tok) (hm : o.st.mem = b.home.mem ∨ o.st.mem = cur)
    (hpk : ∀ u, o.st.parked u = b.home.parked u) (hev : o.st.EvictsWait) :
    Inv f i cur (b.homeStep o) role tok := by
  refine .homeStep hph (fun u => ?_) hev
  rw [hsent, hpk]
  simpa [sentTo] using (hi.worker u).of_mem hm

theorem Inv.home_park (hi : Inv f i cur b role tok) (hst : o.st = b.home.park q)
    (hsent : o.sent = []) : Inv f i cur (b.homeStep o) role tok :=
  hi.home_quiet hsent (hi.phase.frame (by rw [hst]; rfl) (by rw [hst]; rfl) (.inl (by rw [hst]; rfl)))
    (.inl (by rw [hst]; rfl)) (fun u => by rw [hst]; rfl) (by rw [hst]; exact hi.evicts)

theorem Inv.home_same (hi : Inv f i cur b role tok) (hst : o.st = b.home) (hsent : o.sent = []) :
    Inv f i cur (b.homeStep o) role tok :=
  hi.home_quiet hsent (hst ▸ hi.phase) (.inl (by rw [hst])) (fun u => by rw [hst])
    (hst ▸ hi.evicts)

section
variable {h h' : Home W} {d : DirEntry W} {o : W} {p : Ptr} {x : Option (W × Ptr)}

/-! ## The owner of a dirty block is asked -/

theorem unused_asked {g : Ptr → Role} {a : Ask W} (hw : ∀ u, u = o ∨ Unused role tok u) (u : W) :
    u = o ∨ (∃ y ∈ x, u = y.1) ∨ Unused (setFor x g role) (tokAsk [(o, p)] a) u := by
  by_cases huo : u = o
  · exact .inl huo
  by_cases hux : ∃ y ∈ x, u = y.1
  · exact .inr (.inl hux)
  · refine .inr (.inr ⟨?_, by simp [tokAsk, huo]⟩)
    rw [setFor_of_ne fun y hy he => hux ⟨y, hy, he⟩]
    exact ((hw u).resolve_left huo).1

theorem tok_asked {a : Ask W} (hx : ∀ y ∈ x, y.1 ≠ o) (y : W × Ptr) (hy : y ∈ x) :
    y.1 ≠ o ∧ tokAsk [(o, p)] a y.1 = .none :=
  ⟨hx y hy, by simp [tokAsk, hx y hy]⟩

/-- The owner is asked to share its copy, for the home or for the worker `x`. -/
theorem Phase.read_asked (hl : d.shared = [(o, p)]) (hk : d.locks.isBlockLocked = false)
    (ho : role o = .owner p) (hw : ∀ u, u = o ∨ Unused role tok u) (hx : ∀ y ∈ x, y.1 ≠ o)
    (t : Bool) (hq : x = none → q.op.isTry = t)
    (he' : h'.entry = some { d with state := .toShared })
    (hp' : h'.pending = some (readPending x q)) :
    Phase cur h' (setFor x (.readWait · t) role) (tokAsk [(o, p)] (readAsk x t)) := by
  refine .toShared _ o p x q he' hp' rfl hl hk
    (.asked t hq (by simp [tokAsk]) ?_ fun y hy => setFor_self hy) (tok_asked hx) (unused_asked hw)
  rw [setFor_of_ne fun y hy he => hx y hy he.symm]
  exact ho

/-- The owner is asked to give up its copy, for the home or for the worker `x`. -/
theorem Phase.write_asked (hl : d.shared = [(o, p)]) (hk : d.locks.isBlockLocked = false)
    (ho : role o = .owner p) (hw : ∀ u, u = o ∨ Unused role tok u) (hx : ∀ y ∈ x, y.1 ≠ o)
    (t : Bool) (hq : x = none → q.op.isTry = t)
    (he' : h'.entry = some { d with state := if x.isSome then .toDirty else .toUnShared })
    (hp' : h'.pending = some (writePending x q)) :
    Phase cur h' (setFor x (.writeWait · t) role) (tokAsk [(o, p)] (writeAsk x t)) := by
  refine .take _ o p x q he' hp' rfl hl hk
    (.asked t hq (by simp [tokAsk]) ?_ fun y hy => setFor_self hy) (tok_asked hx) (unused_asked hw)
  rw [setFor_of_ne fun y hy he => hx y hy he.symm]
  exact ho

omit [DecidableEq W] in
theorem dirty_tok (ho : role o = .owner p ∧ tok o = .none) (hw : ∀ u, u = o ∨ Unused role tok u)
    (u : W) : tok u = .none := by
  obtain rfl | hu := hw u
  · exact ho.2
  · exact hu.2

theorem Inv.home_fetchAndShared (hi : Inv f i cur b role tok) (he : b.home.entry = some d)
    (hl : d.shared = [(o, p)]) (hk : d.locks.isBlockLocked = false)
    (ho : role o = .owner p ∧ tok o = .none) (hw : ∀ u, u = o ∨ Unused role tok u) :
    Inv f i cur (b.homeStep (b.home.fetchAndShared q)) role
      (tokAsk [(o, p)] (.fetchAndShared q.op.isTry)) := by
  have he' : (b.home.fetchAndShared q).st.entry = some { d with state := .toShared } := by
    simp [Home.fetchAndShared, Dir.setState, he]
  refine .homeStep (Phase.read_asked (x := none) hl hk ho.1 hw (by rintro _ ⟨⟩) _ (fun _ => rfl) he' rfl) (fun u => ?_)
    fun _ _ _ => .inl ?_
  · have hsent : (b.home.fetchAndShared q).sent =
        [(o, p)].map fun x => (x.1, .ask (.fetchAndShared q.op.isTry)) := by
      simp [Home.fetchAndShared, Home.askOwner, Dir.getSList, he, hl]
    rw [hsent]
    exact At.asks (by simp) _ (dirty_tok ho hw u ▸ hi.worker u)
  · rw [he']
    rfl

theorem Inv.home_fetchAndInvalidate (hi : Inv f i cur b role tok) (he : b.home.entry = some d)
    (hs : d.state = .dirty) (hl : d.shared = [(o, p)]) (hk : d.locks.isBlockLocked = false)
    (ho : role o = .owner p ∧ tok o = .none) (hw : ∀ u, u = o ∨ Unused role tok u) :
    Inv f i cur (b.homeStep (b.home.invalidateAll q)) role
      (tokAsk [(o, p)] (.fetchAndInvalidate q.op.isTry)) := by
  have e : b.home.invalidateAll q =
      { st := { b.home with
          entry := some { d with state := .toUnShared }
          pending := some (.fetchAndInvalidate 1 none q) }
        sent := [(o, p)].map fun x => (x.1, .ask (.fetchAndInvalidate q.op.isTry))
        evs := [.pend q] } := by
    simp [Home.invalidateAll, Home.askAll, Dir.getState, Dir.getSList, Dir.setState, he, hs, hl]
  rw [e]
  refine .homeStep (Phase.write_asked (x := none) hl hk ho.1 hw (by rintro _ ⟨⟩) _ (fun _ => rfl) rfl rfl) (fun u => ?_)
    fun _ _ _ => .inl rfl
  exact At.asks (by simp) _ (dirty_tok ho hw u ▸ hi.worker u)

/-! ## The sharers are asked to go -/

theorem countP_tokAsk {l l' : List (W × Ptr)} {a : Ask W} (hsub : ∀ z ∈ l, z ∈ l') :
    l.countP (fun z => (tokAsk l' a z.1).busy) = l.length := by
  rw [List.countP_eq_length]
  intro z hz
  have : z.1 ∈ l'.map Prod.fst := List.mem_map_of_mem (hsub z hz)
  rw [tokAsk, if_pos this]
  rfl

theorem Inv.home_invalidate (hi : Inv f i cur b role tok) (he : b.home.entry = some d)
    (hs : d.state = .shared) (hne : d.shared ≠ []) (hn : (d.shared.map Prod.fst).Nodup)
    (hk : d.locks.Below exclusive) (hm : b.home.mem = cur)
    (hw : ∀ u, Holds d.shared u (role u) ∧ tok u = .none) :
    Inv f i cur (b.homeStep (b.home.invalidateAll q)) role
      (tokAsk d.shared (.invalidate q.op.isTry)) := by
  have e : b.home.invalidateAll q =
      { st := { b.home with
          entry := some { d with state := .toUnShared }
          pending := some (.invalidate d.shared.length none q) }
        sent := d.shared.map fun x => (x.1, .ask (.invalidate q.op.isTry))
        evs := [.pend q] } := by
    simp [Home.invalidateAll, Home.askAll, Dir.getState, Dir.getSList, Dir.setState, he, hs]
  have hpos : (0 : Int) < d.shared.length := by
    have := List.length_pos_iff.mpr hne
    omega
  rw [e]
  refine .homeStep (.invalidate { d with state := .toUnShared } none q d.shared.length none
    q.op.isTry (fun _ => rfl) rfl rfl rfl hk (by rintro ⟨⟩) hm hpos ⟨hn, ?_, (by rintro ⟨⟩), (by rintro ⟨⟩), (by rintro _ ⟨⟩), fun u => .inr ?_⟩)
    (fun u => ?_) fun _ _ _ => .inl rfl
  · exact congrArg _ (countP_tokAsk fun _ h => h).symm
  · obtain ⟨⟨p, hp, hr⟩ | ⟨hnot, hr⟩, -⟩ := hw u
    · have hu : u ∈ d.shared.map Prod.fst := List.mem_map_of_mem hp
      refine .inl ⟨p, hp, ?_⟩
      rw [hr, tokAsk, if_pos hu]
      exact .asked _ rfl rfl
    · have hu : u ∉ d.shared.map Prod.fst := by simpa using hnot
      exact .inr ⟨hnot, hr, by rw [tokAsk, if_neg hu]⟩
  · exact At.asks hn _ ((hw u).2 ▸ hi.worker u)

/-! ## Locks at the home -/

omit [DecidableEq W] in
theorem Dir.rLock_eq {e e' : Dir W} {addr : Nat} (h : e.rLock addr = some e') :
    e.isWLocked addr = false ∧
      e' = some { state := e.getState, shared := e.getSList, locks := e.locks.share addr } := by
  unfold Dir.rLock at h
  split at h
  · cases h
  · rename_i hw
    cases e <;> cases h <;> exact ⟨by simpa using hw, rfl⟩

omit [DecidableEq W] in
theorem Dir.wLock_eq {e e' : Dir W} {addr : Nat} (h : e.wLock addr = some e') :
    (e.isWLocked addr || e.isRLocked addr) = false ∧
      e' = some { state := e.getState, shared := e.getSList
                  locks := e.locks.insert addr exclusive } := by
  unfold Dir.wLock at h
  split at h
  · cases h
  · rename_i hw
    cases e <;> cases h <;> exact ⟨by simpa using hw, rfl⟩

theorem Inv.home_lockOrLater (hi : Inv f i cur b role tok) {e : Option (Dir W)}
    (hph : ∀ e', e = some e' → Phase cur { b.home with entry := e' } role tok)
    (hev : ∀ e', e = some e' → e'.inTransition = b.home.entry.inTransition) :
    Inv f i cur (b.homeStep (b.home.lockOrLater q e)) role tok := by
  unfold Home.lockOrLater
  split
  · rename_i e'
    refine hi.home_quiet rfl (hph e' rfl) (.inl rfl) (fun _ => rfl) fun z hz hze => ?_
    rw [hev e' rfl]
    exact hi.evicts z hz hze
  · split
    · exact hi.home_same rfl rfl
    · exact hi.home_park rfl rfl

end

section
variable {mem₀ : Data} {d : DirEntry W}

theorem Inv.home_rlock_unshared (hi : Inv f i cur b role tok) (hp : b.home.pending = none)
    (hs : b.home.entry.getState = .unshared) (hl : b.home.entry.getSList = [])
    (hk : b.home.entry.locks.Below (exclusive + 1)) (hm : b.home.mem = cur)
    (hw : ∀ u, Unused role tok u) (hroom : b.home.entry.locks.hasRoom q.addr) :
    Inv f i cur (b.homeStep (b.home.lockOrLater q (b.home.entry.rLock q.addr))) role tok := by
  refine hi.home_lockOrLater (fun e' h' => ?_) fun e' h' => ?_
  · obtain ⟨hx, rfl⟩ := Dir.rLock_eq h'
    refine .unshared hp hs hl (hk.share (Nat.le_succ _) ?_ hroom le_rfl) hm hw
    simpa [Dir.isWLocked, hs] using hx
  · obtain ⟨-, rfl⟩ := Dir.rLock_eq h'
    rfl

theorem Inv.home_wlock_unshared (hi : Inv f i cur b role tok) (hp : b.home.pending = none)
    (hs : b.home.entry.getState = .unshared) (hl : b.home.entry.getSList = [])
    (hk : b.home.entry.locks.Below (exclusive + 1)) (hm : b.home.mem = cur)
    (hw : ∀ u, Unused role tok u) :
    Inv f i cur (b.homeStep (b.home.lockOrLater q (b.home.entry.wLock q.addr))) role tok := by
  refine hi.home_lockOrLater (fun e' h' => ?_) fun e' h' => ?_
  · obtain ⟨-, rfl⟩ := Dir.wLock_eq h'
    exact .unshared hp hs hl (hk.insert (Nat.lt_succ_self _)) hm hw
  · obtain ⟨-, rfl⟩ := Dir.wLock_eq h'
    rfl

theorem Inv.home_rlock_shared (hi : Inv f i cur b role tok) (he : b.home.entry = some d)
    (hp : b.home.pending = none) (hs : d.state = .shared) (hne : d.shared ≠ [])
    (hn : (d.shared.map Prod.fst).Nodup) (hk : d.locks.Below exclusive) (hm : b.home.mem = cur)
    (hw : ∀ u, Holds d.shared u (role u) ∧ tok u = .none) (hroom : d.locks.hasRoom q.addr) :
    Inv f i cur (b.homeStep (b.home.lockOrLater q (b.home.entry.rLock q.addr))) role tok := by
  refine hi.home_lockOrLater (fun e' h' => ?_) fun e' h' => ?_
  · obtain ⟨-, rfl⟩ := Dir.rLock_eq h'
    refine .shared _ rfl hp (by rw [he]; exact hs) (by rw [he]; exact hne) (by rw [he]; exact hn)
      ?_ hm (by rw [he]; exact hw)
    rw [he]
    refine hk.share le_rfl (fun hx => ?_) hroom (Nat.le_succ _)
    exact absurd (hk _ _ hx) (lt_irrefl _)
  · obtain ⟨-, rfl⟩ := Dir.rLock_eq h'
    rfl

/-- A write of the home to a block nobody caches. -/
theorem Inv.home_write (hi : Inv f i cur b role tok) (hp : b.home.pending = none)
    (hs : b.home.entry.getState = .unshared) (hl : b.home.entry.getSList = [])
    (hk : b.home.entry.locks.Below (exclusive + 1)) (hm : b.home.mem = cur)
    (hw : ∀ u, Unused role tok u) :
    Inv f i (q.apply i cur) (b.homeStep { st := { b.home with mem := q.apply i b.home.mem },
                                          evs := [.effect q] }) role tok := by
  have hm' : q.apply i b.home.mem = q.apply i cur := by rw [hm]
  refine .homeStep (.unshared hp hs hl hk hm' hw) (fun u => ?_) hi.evicts
  obtain ⟨hb, ho, ht⟩ := (hw u).blind
  rw [show sentTo u _ = [] from rfl, withHome_nil]
  exact ((hi.worker u).blind hb ho ht).of_mem (.inr hm')

/-- Outside of transitions the home has no pending request. -/
theorem Inv.access_stable (hi : Inv f i cur b role tok)
    (htr : b.home.entry.inTransition = false)
    (hroom : q.op.isRLock = true → b.home.entry.locks.hasRoom q.addr) :
    ∃ role' tok', Inv f i (Block.value i cur (b.home.access i q).evs)
      (b.homeStep (b.home.access i q)) role' tok' := by
  have hlock (e : Option (Dir W)) : Block.value i cur (b.home.lockOrLater q e).evs = cur := by
    unfold Home.lockOrLater
    split
    · rfl
    · split <;> rfl
  have hinv : Block.value i cur (b.home.invalidateAll q).evs = cur := by
    unfold Home.invalidateAll
    dsimp only
    split <;> rfl
  unfold Home.access
  rw [htr, if_neg (by simp)]
  cases hi.phase with
  | unshared hp hs hl hk hm hw =>
    cases hq : q.op with
    | read =>
      simp only [hs]
      exact ⟨_, _, hi.home_same rfl rfl⟩
    | write =>
      simp only [hs]
      exact ⟨_, _, hi.home_write hp hs hl hk hm hw⟩
    | rlock =>
      simp only [hs]
      rw [if_neg (by rintro ⟨⟩), hlock]
      exact ⟨_, _, hi.home_rlock_unshared hp hs hl hk hm hw (hroom (by rw [hq]; rfl))⟩
    | wlock =>
      simp only [hs]
      rw [if_pos trivial, hlock]
      exact ⟨_, _, hi.home_wlock_unshared hp hs hl hk hm hw⟩
  | shared d he hp hs hl hn hk hm hw =>
    have hst : b.home.entry.getState = .shared := by rw [he]; exact hs
    cases hq : q.op with
    | read =>
      simp only [hst]
      exact ⟨_, _, hi.home_same rfl rfl⟩
    | write =>
      simp only [hst]
      rw [if_neg (by rintro ⟨⟩), hinv]
      exact ⟨_, _, hi.home_invalidate he hs hl hn hk hm hw⟩
    | rlock =>
      simp only [hst]
      rw [if_neg (by rintro ⟨⟩), hlock]
      have hroom := hroom (by rw [hq]; rfl)
      rw [he] at hroom
      exact ⟨_, _, hi.home_rlock_shared he hp hs hl hn hk hm hw hroom⟩
    | wlock =>
      simp only [hst]
      rw [if_neg (by rintro ⟨⟩), hinv]
      exact ⟨_, _, hi.home_invalidate he hs hl hn hk hm hw⟩
  | dirty d o p he hp hs hl hk ho hw =>
    have hst : b.home.entry.getState = .dirty := by rw [he]; exact hs
    cases hq : q.op with
    | read | rlock =>
      simp only [hst]
      exact ⟨_, _, hi.home_fetchAndShared he hl hk ho hw⟩
    | write | wlock =>
      simp only [hst]
      rw [if_neg (by rintro ⟨⟩), hinv]
      exact ⟨_, _, hi.home_fetchAndInvalidate he hs hl hk ho hw⟩
  | toShared d o p x q he hp hs =>
    simp [Dir.inTransition, Dir.getState, he, hs, DirState.inTransition] at htr
  | take d o p x q he hp hs =>
    cases x <;> simp [Dir.inTransition, Dir.getState, he, hs, DirState.inTransition] at htr
  | invalidate d x q n st t hq he hp hs =>
    cases x <;> simp [Dir.inTransition, Dir.getState, he, hs, DirState.inTransition] at htr

/-- A request of an application thread at the home. -/
theorem Good.home_access (hg : Good f i mem₀ b) (ptr : Ptr) (hroom : Act.Room (.access none q ptr) b) :
    Good f i mem₀ (b.homeStep (b.home.access i q)) := by
  obtain ⟨role, tok, hi⟩ := hg
  suffices h : ∃ role' tok',
      Inv f i (Block.value i (Block.value i mem₀ b.log) (b.home.access i q).evs)
        (b.homeStep (b.home.access i q)) role' tok' by
    obtain ⟨role', tok', h⟩ := h
    refine ⟨role', tok', ?_⟩
    rw [show (b.homeStep (b.home.access i q)).log = b.log ++ (b.home.access i q).evs from rfl,
      Block.value_append]
    exact h
  generalize Block.value i mem₀ b.log = cur at hi
  cases htr : b.home.entry.inTransition with
  | true =>
    have e : b.home.access i q = { st := b.home.park q, evs := [.park q] } := by
      simp only [Home.access, htr, if_true]
    rw [e]
    exact ⟨_, _, hi.home_park rfl rfl⟩
  | false => exact hi.access_stable htr hroom

end

end HwGam.Coherence
