import HwGam.Coherence.HomeLocal

/-!
# Requests of caching workers at the home keep the invariant

A request is taken out of the queue of its connection, or is next in a replay. It is parked again,
answered at once, or forwarded to the workers that hold a copy.
-/

namespace HwGam.Coherence

variable {W : Type*} {f : Slack} {i : Nat} {cur : Data} {role : Role} {v : View W} {ptr p : Ptr}
  {t : Bool} {op : Fetch}

/-! ## What a request says about its worker -/

/-- A worker has no two requests on their way, unless the first is an eviction. -/
theorem Cfg.out_two (h : Cfg f i cur role v) {x : Own} {ys : List Own} (ho : v.out = x :: ys)
    (hne : ys ≠ []) : x.isEvict = true := by
  have hevicted {e : Option Ptr} {z : List Own} (h : evicted e ++ z = x :: ys) (hz : z.length ≤ 1) :
      x.isEvict = true := by
    cases e with
    | none =>
      rw [show evicted none ++ z = z from rfl] at h
      subst h
      simp [hne] at hz
    | some e =>
      cases h
      rfl
  cases role with
  | idle => cases h with
    | absent e hl hp ho' => exact hevicted (z := []) (by rw [List.append_nil, ← ho', ho]) (by simp)
    | read e l q hl hs hp ho' => exact hevicted (ho'.symm.trans ho) le_rfl
    | write e l q hl hs hp ho' => exact hevicted (ho'.symm.trans ho) le_rfl
    | _ => simp_all
  | sharer p => cases h with
    | reread l q hl hs hp ho' =>
      cases ho'.symm.trans ho
      rfl
    | rewrite l q hl hs hp ho' =>
      cases ho'.symm.trans ho
      rfl
    | _ => simp_all
  | _ => cases h <;> simp_all

/-- A worker whose READ the home handles waits for it. -/
structure Reads (v : View W) (ptr : Ptr) (t : Bool) (l : Line) (q : Request) : Prop where
  line : v.line = some l
  state : ReadLine l
  ptr : l.ptr = ptr
  tryLock : q.op.isTry = t
  pending : v.pending = some (.fetch .read 0 none q)
  out : v.out = []
  rep : v.rep = []
  fwd : v.fwd = []

theorem Cfg.own_read (h : Cfg f i cur role { v with out := .read ptr t :: v.out }) :
    role = .idle ∧ ∃ l q, Reads v ptr t l q := by
  cases role with
  | idle => cases h with
    | read e l q hl hs hp ho hr hf =>
      cases e with
      | none =>
        simp only [evicted, Option.toList_none, List.map_nil, List.nil_append, List.cons.injEq,
          Own.read.injEq] at ho
        exact ⟨rfl, l, q, hl, hs, ho.1.1.symm, ho.1.2.symm, hp, ho.2, hr, hf⟩
      | some e => simp [evicted] at ho
    | absent e hl hp ho => cases e <;> simp [evicted] at ho
    | write e l q hl hs hp ho => cases e <;> simp [evicted] at ho
    | _ => simp_all
  | _ => cases h <;> simp_all

/-- A worker whose WRITE or WRITE_PERMISSION_ONLY the home handles waits for it. -/
structure Writes (v : View W) (op : Fetch) (ptr : Ptr) (t : Bool) (l : Line) (q : Request) :
    Prop where
  line : v.line = some l
  state : WriteLine l op
  ptr : l.ptr = ptr
  tryLock : q.op.isTry = t
  pending : v.pending = some (.fetch op 0 none q)
  out : v.out = []
  rep : v.rep = []
  fwd : v.fwd = []

theorem Cfg.own_write (h : Cfg f i cur role { v with out := .write ptr t :: v.out }) :
    ∃ l q, Writes v .write ptr t l q ∧ role = .idle := by
  cases role with
  | idle => cases h with
    | write e l q hl hs hp ho hr hf =>
      cases e with
      | none =>
        simp only [evicted, Option.toList_none, List.map_nil, List.nil_append, List.cons.injEq,
          Own.write.injEq] at ho
        exact ⟨l, q, ⟨hl, hs, ho.1.1.symm, ho.1.2.symm, hp, ho.2, hr, hf⟩, rfl⟩
      | some e => simp [evicted] at ho
    | absent e hl hp ho => cases e <;> simp [evicted] at ho
    | read e l q hl hs hp ho => cases e <;> simp [evicted] at ho
    | _ => simp_all
  | _ => cases h <;> simp_all

theorem Cfg.own_upgrade
    (h : Cfg f i cur role { v with out := .writePermissionOnly ptr t :: v.out }) :
    ∃ l q, Writes v .writePermissionOnly ptr t l q ∧
      ((role = .idle ∧ Lapsed f .writePermissionOnly l q) ∨
        (role = .sharer ptr ∧ l.data = q.early i cur)) := by
  cases role with
  | idle => cases h with
    | upgrade l q hl hs hq hp ho hr hf =>
      simp only [List.cons.injEq, Own.writePermissionOnly.injEq] at ho
      exact ⟨l, q, ⟨hl, hs, ho.1.1.symm, ho.1.2.symm, hp, ho.2, hr, hf⟩, .inl ⟨rfl, hq⟩⟩
    | absent e hl hp ho => cases e <;> simp [evicted] at ho
    | read e l q hl hs hp ho => cases e <;> simp [evicted] at ho
    | write e l q hl hs hp ho => cases e <;> simp [evicted] at ho
    | _ => simp_all
  | sharer p => cases h with
    | upgrade l q hl hs hptr hd hp hor hf =>
      obtain ⟨ho, hr⟩ | ⟨ho, -⟩ := hor
      · simp only [List.cons.injEq, Own.writePermissionOnly.injEq] at ho
        obtain ⟨⟨rfl, rfl⟩, ho⟩ := ho
        exact ⟨l, q, ⟨hl, hs, hptr, rfl, hp, ho, hr, hf⟩, .inr ⟨rfl, hd⟩⟩
      · cases ho
    | _ => simp_all
  | _ => cases h <;> simp_all

/-- A WRITE is of a worker without a copy, an upgrade may be of a sharer. -/
theorem Cfg.own_writes (hop : op ≠ .read)
    (h : Cfg f i cur role { v with out := Home.ownWrite op ptr t :: v.out }) :
    ∃ l q, Writes v op ptr t l q ∧ ((role = .idle ∧ Lapsed f op l q) ∨
      (role = .sharer ptr ∧ op = .writePermissionOnly ∧ l.data = q.early i cur)) := by
  cases op with
  | read => exact absurd rfl hop
  | write =>
    obtain ⟨l, q, hv, hr⟩ := Cfg.own_write (show Cfg f i cur role _ from h)
    exact ⟨l, q, hv, .inl ⟨hr, (by rintro ⟨⟩), (by rintro ⟨⟩)⟩⟩
  | writePermissionOnly =>
    obtain ⟨l, q, hv, hr | ⟨hr, hd⟩⟩ := Cfg.own_upgrade (show Cfg f i cur role _ from h)
    · exact ⟨l, q, hv, .inl hr⟩
    · exact ⟨l, q, hv, .inr ⟨hr, rfl, hd⟩⟩

/-- The line of a worker whose ACTIVE_INVALIDATE the home handles is gone. -/
theorem Cfg.own_activeInvalidate
    (h : Cfg f i cur role { v with out := .activeInvalidate p :: v.out }) :
    (role = .idle ∨ role = .sharer p) ∧ v.pending ≠ some .writeBack ∧ Idle f v := by
  have ne_none (hp : v.pending = none) : v.pending ≠ some .writeBack := by simp [hp]
  have ne_fetch {op : Fetch} {q : Request} (hp : v.pending = some (.fetch op 0 none q)) :
      v.pending ≠ some .writeBack := by simp [hp]
  cases role with
  | idle => cases h with
    | absent e hl hp ho hr hf =>
      cases e with
      | none => simp [evicted] at ho
      | some e =>
        simp only [evicted, Option.toList_some, List.map_cons, List.map_nil, List.cons.injEq] at ho
        exact ⟨.inl rfl, ne_none hp, .absent none hl hp ho.2 hr hf⟩
    | read e l q hl hs hp ho hr hf =>
      cases e with
      | none => simp [evicted] at ho
      | some e =>
        simp only [evicted, Option.toList_some, List.map_cons, List.map_nil, List.cons_append,
          List.nil_append, List.cons.injEq] at ho
        exact ⟨.inl rfl, ne_fetch hp, .read none l q hl hs hp ho.2 hr hf⟩
    | write e l q hl hs hp ho hr hf =>
      cases e with
      | none => simp [evicted] at ho
      | some e =>
        simp only [evicted, Option.toList_some, List.map_cons, List.map_nil, List.cons_append,
          List.nil_append, List.cons.injEq] at ho
        exact ⟨.inl rfl, ne_fetch hp, .write none l q hl hs hp ho.2 hr hf⟩
    | _ => simp_all
  | sharer p' => cases h with
    | evicted hl hp ho hr hf =>
      simp only [List.cons.injEq, Own.activeInvalidate.injEq] at ho
      exact ⟨.inr (by rw [ho.1]), ne_none hp, .absent none hl hp ho.2 hr hf⟩
    | reread l q hl hs hp ho hr hf =>
      simp only [List.cons.injEq, Own.activeInvalidate.injEq] at ho
      exact ⟨.inr (by rw [ho.1]), ne_fetch hp, .read none l q hl hs hp ho.2 hr hf⟩
    | rewrite l q hl hs hp ho hr hf =>
      simp only [List.cons.injEq, Own.activeInvalidate.injEq] at ho
      exact ⟨.inr (by rw [ho.1]), ne_fetch hp, .write none l q hl hs hp ho.2 hr hf⟩
    | _ => simp_all
  | _ => cases h <;> simp_all

/-- A worker whose WRITE_BACK the home handles waits for the answer. -/
theorem Cfg.own_writeBack (h : Cfg f i cur role { v with out := .writeBack p :: v.out }) :
    (role = .idle ∨ role = .sharer p ∨ role = .owner p) ∧
      (v.pending = some .writeBack ∧ v.out = []) ∧
      Idle f { v with rep := v.rep ++ [.imm none] } := by
  cases role with
  | idle => cases h with
    | writeBack l p' hl hs hp hor hf =>
      obtain ⟨ho, hr⟩ | ⟨ho, -⟩ := hor
      · have hr : v.rep = [] := hr
        refine ⟨.inl rfl, ⟨hp, (List.cons.inj ho).2⟩,
          .writeBack l p' hl hs hp (.inr ⟨(List.cons.inj ho).2, ?_⟩) hf⟩
        simp [hr]
      · cases ho
    | absent e hl hp ho => cases e <;> simp [evicted] at ho
    | read e l q hl hs hp ho => cases e <;> simp [evicted] at ho
    | write e l q hl hs hp ho => cases e <;> simp [evicted] at ho
    | _ => simp_all
  | sharer p' => cases h with
    | writeBack l hl hs hptr hd hp ho hr hf =>
      have hr : v.rep = [] := hr
      obtain ⟨ho, ho'⟩ := List.cons.inj ho
      refine ⟨.inr (.inl (by rw [Own.writeBack.inj ho])), ⟨hp, ho'⟩,
        .writeBack l p hl hs hp (.inr ⟨ho', ?_⟩) hf⟩
      simp [hr]
    | _ => simp_all
  | owner p' => cases h with
    | writeBack l hl hs hptr hd hp ho hr hf =>
      have hr : v.rep = [] := hr
      obtain ⟨ho, ho'⟩ := List.cons.inj ho
      refine ⟨.inr (.inr (by rw [Own.writeBack.inj ho])), ⟨hp, ho'⟩,
        .writeBack l p hl hs hp (.inr ⟨ho', ?_⟩) hf⟩
      simp [hr]
    | _ => simp_all
  | _ =>
    cases h
    simp_all

/-! ## A request that has been taken out of the queues -/

section
variable [DecidableEq W] {role : W → Role} {tok : W → Tok W} {h : Home W} {cs : W → Cacher W}
  {w : W} {o : Own} {d : DirEntry W}

/-- The home handles the request `o` of `w`, which is no longer in any queue. -/
structure Taken (f : Slack) (i : Nat) (cur : Data) (role : W → Role) (tok : W → Tok W) (h : Home W)
    (cs : W → Cacher W) (w : W) (o : Own) : Prop where
  phase : Phase cur h role tok
  other : ∀ u, u ≠ w → At f i cur h.mem (h.parked u) (role u) (tok u) (cs u)
  cfg : Cfg f i cur (role w) { (cs w).view (h.parked w) with
    out := sentTo w h.serve ++
      o :: (sentTo w (h.agenda.filterMap Item.remote?) ++ (cs w).inFlight) }
  tokOk : TokOk (tok w) (cs w)
  ord : Ordered (cs w)
  landing : Landing cur h.mem (role w) (tok w) (cs w)
  evicts : ∀ x ∈ h.serve, x.2.isEvict = true → h.entry.inTransition = true

/-- After the handler of the home everybody fits some roles. -/
def Next (f : Slack) (i : Nat) (cur : Data) (cs : W → Cacher W) (o : Home.Result W) : Prop :=
  ∃ role tok, Phase cur o.st role tok ∧
    (∀ u, At f i cur o.st.mem (o.st.parked u) (role u) (tok u) ((cs u).withHome (sentTo u o.sent))) ∧
    o.st.EvictsWait

/-- The request is parked. -/
theorem Taken.park (ht : Taken f i cur role tok h cs w o)
    (he : o.isEvict = true → h.entry.inTransition = true) :
    Next f i cur cs { st := h.parkRemote (w, o) } := by
  refine ⟨role, tok, ht.phase.frame rfl rfl (.inl rfl), fun u => ?_, fun x hx hxe => ?_⟩
  · rw [show sentTo u _ = [] from rfl, withHome_nil]
    have hpk : (h.parkRemote (w, o)).parked u = sentTo u h.serve ++ sentTo u [(w, o)] ++
        sentTo u (h.agenda.filterMap Item.remote?) := by
      simp [Home.parked, Home.parkRemote, sentTo_append]
    by_cases hu : u = w
    · subst hu
      refine ⟨?_, ht.tokOk, ht.ord, ht.landing⟩
      have hcfg := ht.cfg
      unfold Cacher.view at hcfg ⊢
      rw [hpk]
      simpa using hcfg
    · rw [hpk, sentTo_singleton_of_ne hu, List.append_nil]
      exact ht.other u hu
  · obtain hx | hx := List.mem_append.mp hx
    · exact .inl (ht.evicts x hx hxe)
    · rw [List.mem_singleton.mp hx] at hxe
      exact .inl (he hxe)

/-- Outside of transitions the request is the worker's first. -/
theorem Taken.head (ht : Taken f i cur role tok h cs w o) (hst : h.entry.inTransition = false) :
    sentTo w h.serve = [] ∧ Cfg f i cur (role w) { (cs w).view (h.parked w) with
      out := o :: ((cs w).view (h.parked w)).out } := by
  have hserve : sentTo w h.serve = [] := by
    by_contra hne
    obtain ⟨x, xs, hxs⟩ := List.exists_cons_of_ne_nil hne
    have hx : x.isEvict = true := ht.cfg.out_two (x := x) (by rw [hxs]; rfl) (by simp)
    have hmem : (w, x) ∈ h.serve := mem_of_sentTo (by rw [hxs]; exact List.mem_cons_self ..)
    simp [ht.evicts _ hmem hx] at hst
  refine ⟨hserve, ?_⟩
  have hcfg := ht.cfg
  rw [hserve] at hcfg
  have hpk : h.parked w = sentTo w (h.agenda.filterMap Item.remote?) := by
    rw [Home.parked, hserve, List.nil_append]
  unfold Cacher.view at hcfg ⊢
  rw [hpk] at hcfg ⊢
  exact hcfg

/-- Only `w` hears of the home. -/
theorem Taken.settle (ht : Taken f i cur role tok h cs w o) {res : Home.Result W}
    {role' : W → Role} {tok' : W → Tok W} (hph : Phase cur res.st role' tok')
    (hpk : ∀ u, res.st.parked u = h.parked u) (hm : res.st.mem = h.mem)
    (hother : ∀ u, u ≠ w → role' u = role u ∧ tok' u = tok u ∧ sentTo u res.sent = [])
    (hw : At f i cur h.mem (h.parked w) (role' w) (tok' w)
      ((cs w).withHome (sentTo w res.sent)))
    (hev : res.st.EvictsWait) : Next f i cur cs res := by
  refine ⟨role', tok', hph, fun u => ?_, hev⟩
  rw [hpk, hm]
  by_cases hu : u = w
  · subst hu
    exact hw
  · obtain ⟨hr, htk, hs⟩ := hother u hu
    rw [hr, htk, hs, withHome_nil]
    exact ht.other u hu

omit [DecidableEq W] in
theorem Phase.dirty_of (hph : Phase cur h role tok) (hst : h.entry.getState = .dirty) :
    ∃ d o p, h.entry = some d ∧ d.shared = [(o, p)] ∧ d.locks.isBlockLocked = false ∧
      (role o = .owner p ∧ tok o = .none) ∧ ∀ u, u = o ∨ Unused role tok u := by
  cases hph with
  | dirty d o p he hp hs hl hk ho hw => exact ⟨d, o, p, he, hl, hk, ho, hw⟩
  | unshared hp hs => simp [hs] at hst
  | shared d he hp hs => simp [Dir.getState, he, hs] at hst
  | toShared d o p x q he hp hs => simp [Dir.getState, he, hs] at hst
  | take d o p x q he hp hs => cases x <;> simp [Dir.getState, he, hs] at hst
  | invalidate d x q n st t hq he hp hs => cases x <;> simp [Dir.getState, he, hs] at hst

/-- The request of `w` is forwarded to the owner `u`, and `w` waits. -/
theorem Taken.forward (ht : Taken f i cur role tok h cs w o) {res : Home.Result W} {u : W}
    {a : Ask W} (g : Ptr → Role) (ptr : Ptr) (hu : role u = .owner p ∧ tok u = .none)
    (hw : ∀ v, v = u ∨ Unused role tok v) (hwu : w ≠ u)
    (hph : Phase cur res.st (setFor (some (w, ptr)) g role) (tokAsk [(u, p)] a))
    (hsent : res.sent = [(u, .ask a)]) (hpk : ∀ v, res.st.parked v = h.parked v)
    (hm : res.st.mem = h.mem) (hcfg : Cfg f i cur (g ptr) ((cs w).view (h.parked w)))
    (hland : Landing cur h.mem (g ptr) .none (cs w)) (hev : res.st.EvictsWait) :
    Next f i cur cs res := by
  refine ⟨_, _, hph, fun v => ?_, hev⟩
  rw [hpk, hm, hsent]
  by_cases hv : v = w
  · subst hv
    have htok : TokOk .none (cs v) := dirty_tok hu hw v ▸ ht.tokOk
    rw [setFor_self (y := (v, ptr)) rfl, sentTo_singleton_of_ne hwu, withHome_nil,
      show tokAsk [(u, p)] a v = .none by simp [tokAsk, hwu]]
    exact ⟨hcfg, htok, ht.ord, hland⟩
  · rw [setFor_of_ne (by simpa using hv)]
    exact At.asks (l := [(u, p)]) (by simp) a (dirty_tok hu hw v ▸ ht.other v hv)

theorem Taken.evictsWait (ht : Taken f i cur role tok h cs w o)
    (hst : h.entry.inTransition = false) {h' : Home W} (hs : h'.serve = h.serve) :
    h'.EvictsWait := by
  intro x hx he
  rw [hs] at hx
  simp [ht.evicts x hx he] at hst

/-! ## READ -/

/-- The home's memory has the block, and the listed workers have copies. -/
structure Clean (cur : Data) (h : Home W) (role : W → Role) (tok : W → Tok W) : Prop where
  pending : h.pending = none
  mem : h.mem = cur
  nodup : (h.entry.getSList.map Prod.fst).Nodup
  below : h.entry.locks.Below (exclusive + 1)
  holds : ∀ u, Holds h.entry.getSList u (role u) ∧ tok u = .none

omit [DecidableEq W] in
theorem Phase.clean (hph : Phase cur h role tok) (hst : h.entry.inTransition = false)
    (hd : h.entry.getState ≠ .dirty) : Clean cur h role tok := by
  cases hph with
  | unshared hp hs hl hk hm hw =>
    refine ⟨hp, hm, by simp [hl], hk, fun u => ⟨.inr ⟨by simp [hl], (hw u).1⟩, (hw u).2⟩⟩
  | shared d he hp hs hl hn hk hm hw =>
    refine ⟨hp, hm, ?_, ?_, ?_⟩ <;> rw [he]
    · exact hn
    · exact hk.mono (Nat.le_succ _)
    · exact hw
  | dirty d o p he hp hs => exact absurd (by rw [he]; exact hs) hd
  | toShared d o p x q he hp hs =>
    simp [Dir.inTransition, Dir.getState, he, hs, DirState.inTransition] at hst
  | take d o p x q he hp hs =>
    cases x <;> simp [Dir.inTransition, Dir.getState, he, hs, DirState.inTransition] at hst
  | invalidate d x q n st t hq he hp hs =>
    cases x <;> simp [Dir.inTransition, Dir.getState, he, hs, DirState.inTransition] at hst

omit [DecidableEq W] in
theorem Dir.toShared_eq {e : Dir W} (hs : e.getState ≠ .toShared) (a : W × Ptr) :
    e.toShared a = some { state := .shared, shared := e.getSList ++ [a], locks := e.locks } := by
  cases e with
  | none => rfl
  | some d => simp [Dir.toShared, Dir.getSList, Dir.locks, show d.state ≠ .toShared from hs]

omit [DecidableEq W] in
theorem Holds.idle_of_not_mem {l : List (W × Ptr)} {r : Role} (h : Holds l w r) (hr : r = .idle)
    (p : Ptr) : (w, p) ∉ l := by
  obtain ⟨p', -, h'⟩ | ⟨h', -⟩ := h
  · rw [hr] at h'
    cases h'
  · exact h' p

/-- The copy goes to `w`, which becomes a sharer. -/
theorem Clean.add_sharer (hc : Clean cur h role tok) (ptr : Ptr) (hts : h.entry.getState ≠ .toShared)
    (hwl : h.entry.isBlockWLocked = false) (hr : role w = .idle) :
    Phase cur { h with entry := h.entry.toShared (w, ptr) }
      (Function.update role w (.sharer ptr)) tok := by
  have hnot := (hc.holds w).1.idle_of_not_mem hr
  refine .shared _ (Dir.toShared_eq hts _) hc.pending rfl (by simp) ?_
    (hc.below.of_not_isBlockWLocked hwl) hc.mem fun u => ⟨?_, (hc.holds u).2⟩
  · rw [List.map_append, List.nodup_append]
    refine ⟨hc.nodup, by simp, ?_⟩
    simp only [List.map_cons, List.map_nil, List.mem_singleton, List.mem_map]
    rintro _ ⟨⟨v, p⟩, hv, rfl⟩ _ rfl rfl
    exact hnot p hv
  · by_cases hu : u = w
    · subst hu
      exact .inl ⟨ptr, by simp, by simp⟩
    · rw [Function.update_of_ne hu]
      obtain ⟨p, hp, hr⟩ | ⟨hp, hr⟩ := (hc.holds u).1
      · exact .inl ⟨p, List.mem_append_left _ hp, hr⟩
      · refine .inr ⟨fun p hmem => ?_, hr⟩
        simp only [List.mem_append, List.mem_singleton, Prod.mk.injEq] at hmem
        exact hmem.elim (hp p) fun h => hu h.1

/-- What the worker of a READ becomes. -/
theorem Taken.read_worker (ht : Taken f i cur role tok h cs w (.read ptr t))
    (hst : h.entry.inTransition = false) :
    role w = .idle ∧ (∀ r t', Landing cur h.mem r t' (cs w)) ∧
      ∃ l q, Reads ((cs w).view (h.parked w)) ptr t l q := by
  obtain ⟨hr, l, q, hv⟩ := (ht.head hst).2.own_read
  have hp : (cs w).pending ≠ some .writeBack := by
    rw [show (cs w).pending = _ from hv.pending]
    simp
  exact ⟨hr, fun r t' => .of_noRdma (ht.landing.noRdma hp) hp, l, q, hv⟩

theorem Taken.processRemoteRead (ht : Taken f i cur role tok h cs w (.read ptr t)) :
    Next f i cur cs (h.processRemoteRead w ptr t) := by
  unfold Home.processRemoteRead
  split
  · exact ht.park (by rintro ⟨⟩)
  rename_i hst
  have hst : h.entry.inTransition = false := by simpa using hst
  obtain ⟨hr, hland, l, q, hv⟩ := ht.read_worker hst
  split
  · rename_i hd
    obtain ⟨d, o, p, he, hl, hk, ho, hw⟩ := ht.phase.dirty_of hd
    have hwo : w ≠ o := by
      rintro rfl
      simp [ho.1] at hr
    have hsent : h.askOwner (.readForward w t) = [(o, .ask (.readForward w t))] := by
      simp [Home.askOwner, Dir.getSList, he, hl]
    refine ht.forward (.readWait · t) ptr ho hw hwo (Phase.read_asked (x := some (w, ptr))
      (q := q) hl hk ho.1 hw (by simpa using hwo) t (by rintro ⟨⟩) ?_ rfl) hsent (fun _ => rfl) rfl ?_
      (hland _ _) (ht.evictsWait hst rfl)
    · simp [Dir.setState, he]
    · exact ReadWait.mk l q hv.line hv.state hv.ptr hv.tryLock hv.pending hv.out hv.rep hv.fwd
  rename_i hd
  have hc := ht.phase.clean hst hd
  have htok : TokOk .none (cs w) := (hc.holds w).2 ▸ ht.tokOk
  split
  · rename_i hwl
    split
    · rename_i htry
      have hcfg : Cfg f i cur .idle { (cs w).view (h.parked w) with
          rep := (cs w).replies ++ [.readReply .lockFailed] } := by
        refine Idle.readFailed l q .lockFailed (hv.tryLock.trans htry) hv.line hv.state hv.pending
          hv.out (.inl ⟨?_, hv.fwd⟩)
        rw [show (cs w).replies = [] from hv.rep]
        rfl
      refine ht.settle ht.phase (fun _ => rfl) rfl
        (fun u hu => ⟨rfl, rfl, sentTo_singleton_of_ne hu _⟩) ?_ (ht.evictsWait hst rfl)
      rw [hr, (hc.holds w).2, sentTo_singleton_self]
      exact At.reply htok ht.ord [.readReply .lockFailed] hcfg (hland _ _)
    · exact ht.park (by rintro ⟨⟩)
  · rename_i hwl
    have hts : h.entry.getState ≠ .toShared := by
      intro hts
      simp [Dir.inTransition, hts, DirState.inTransition] at hst
    have hcfg : Cfg f i cur (.sharer ptr) { (cs w).view (h.parked w) with
        rep := (cs w).replies ++ [.imm (some cur)] } := by
      refine Sharer.arriving l q hv.line hv.state hv.ptr hv.pending hv.out (.inl ⟨?_, hv.fwd⟩)
      rw [show (cs w).replies = [] from hv.rep]
      rfl
    refine ht.settle (hc.add_sharer ptr hts (by simpa using hwl) hr) (fun _ => rfl) rfl
      (fun u hu => ⟨Function.update_of_ne hu .., rfl, sentTo_singleton_of_ne hu _⟩) ?_ ?_
    · rw [Function.update_self, (hc.holds w).2, sentTo_singleton_self, hc.mem]
      exact At.reply htok ht.ord [.imm (some cur)] hcfg (hc.mem ▸ hland _ _)
    · exact ht.evictsWait hst rfl

/-! ## WRITE and WRITE_PERMISSION_ONLY -/

omit [DecidableEq W] in
theorem Phase.shared_of (hph : Phase cur h role tok) (hst : h.entry.getState = .shared) :
    ∃ d, h.entry = some d ∧ d.shared ≠ [] ∧ d.locks.Below exclusive := by
  cases hph with
  | shared d he hp hs hl hn hk hm hw => exact ⟨d, he, hl, hk⟩
  | unshared hp hs => simp [hs] at hst
  | dirty d o p he hp hs => simp [Dir.getState, he, hs] at hst
  | toShared d o p x q he hp hs => simp [Dir.getState, he, hs] at hst
  | take d o p x q he hp hs => cases x <;> simp [Dir.getState, he, hs] at hst
  | invalidate d x q n st t hq he hp hs => cases x <;> simp [Dir.getState, he, hs] at hst

omit [DecidableEq W] in
theorem Phase.unshared_of (hph : Phase cur h role tok) (hst : h.entry.getState = .unshared) :
    h.entry.getSList = [] := by
  cases hph with
  | unshared hp hs hl => exact hl
  | shared d he hp hs => simp [Dir.getState, he, hs] at hst
  | dirty d o p he hp hs => simp [Dir.getState, he, hs] at hst
  | toShared d o p x q he hp hs => simp [Dir.getState, he, hs] at hst
  | take d o p x q he hp hs => cases x <;> simp [Dir.getState, he, hs] at hst
  | invalidate d x q n st t hq he hp hs => cases x <;> simp [Dir.getState, he, hs] at hst

omit [DecidableEq W] in
theorem Dir.toDirty_eq (e : Dir W) (a : W × Ptr) :
    e.toDirty a = some { state := .dirty, shared := [a], locks := e.locks } := by
  cases e <;> rfl

/-- The block goes to `w`, the only worker that may have had a copy. -/
theorem Clean.grant (hc : Clean cur h role tok) (ptr : Ptr) (hun : h.entry.isBlockLocked = false)
    (hall : ∀ u p, (u, p) ∈ h.entry.getSList → u = w) :
    Phase cur { h with entry := h.entry.toDirty (w, ptr) }
      (Function.update role w (.owner ptr)) tok := by
  refine .dirty _ w ptr (Dir.toDirty_eq _ _) hc.pending rfl rfl hun
    ⟨by simp, (hc.holds w).2⟩ fun u => ?_
  by_cases hu : u = w
  · exact .inl hu
  · refine .inr ⟨?_, (hc.holds u).2⟩
    rw [Function.update_of_ne hu]
    obtain ⟨p, hp, -⟩ | ⟨-, hr⟩ := (hc.holds u).1
    · exact absurd (hall u p hp) hu
    · exact hr

theorem ownWrite_not_isEvict : (Home.ownWrite op ptr t).isEvict = false := by
  unfold Home.ownWrite
  split <;> rfl

/-- What the worker of a WRITE is. -/
theorem Taken.write_worker (hop : op ≠ .read)
    (ht : Taken f i cur role tok h cs w (Home.ownWrite op ptr t))
    (hst : h.entry.inTransition = false) :
    (∀ r t', Landing cur h.mem r t' (cs w)) ∧ ∃ l q, Writes ((cs w).view (h.parked w)) op ptr t l q ∧
      ((role w = .idle ∧ Lapsed f op l q) ∨
        (role w = .sharer ptr ∧ op = .writePermissionOnly ∧ l.data = q.early i cur)) := by
  obtain ⟨l, q, hv, hr⟩ := (ht.head hst).2.own_writes hop
  have hp : (cs w).pending ≠ some .writeBack := by
    rw [show (cs w).pending = _ from hv.pending]
    simp
  exact ⟨fun r t' => .of_noRdma (ht.landing.noRdma hp) hp, l, q, hv, hr⟩

theorem Taken.grant (hop : op ≠ .read)
    (ht : Taken f i cur role tok h cs w (Home.ownWrite op ptr t))
    (hst : h.entry.inTransition = false) (hc : Clean cur h role tok)
    (hun : h.entry.isBlockLocked = false) (hall : ∀ u p, (u, p) ∈ h.entry.getSList → u = w)
    (withData : Bool) (hdata : withData = false → ∃ p, (w, p) ∈ h.entry.getSList) :
    Next f i cur cs (h.grant w ptr withData) := by
  obtain ⟨hland, l, q, hv, hr⟩ := ht.write_worker hop hst
  have htok : TokOk .none (cs w) := (hc.holds w).2 ▸ ht.tokOk
  refine ht.settle (hc.grant ptr hun hall) (fun _ => rfl) rfl
    (fun u hu => ⟨Function.update_of_ne hu .., rfl, ?_⟩) ?_ (ht.evictsWait hst rfl)
  · cases withData <;> simp [Home.grant, sentTo, hu.symm]
  · rw [Function.update_self, (hc.holds w).2]
    cases withData with
    | true =>
      rw [show sentTo w (h.grant w ptr true).sent =
        [.rdmaWrite cur, .writeReply none].map FromHome.reply by simp [Home.grant, sentTo, hc.mem]]
      refine At.reply htok ht.ord _ (Owner.granted op 0 l q hv.line hv.state hv.ptr hv.pending
        hv.out ?_) (hland _ _)
      show Granted i cur q l.data ((cs w).replies ++ _) (cs w).fromPeers 0
      rw [show (cs w).replies = [] from hv.rep, show (cs w).fromPeers = [] from hv.fwd]
      exact .data
    | false =>
      have hd : l.data = q.early i cur := by
        obtain ⟨p, hp⟩ := hdata rfl
        obtain ⟨hr, -⟩ | ⟨-, -, hd⟩ := hr
        · exact absurd hp ((hc.holds w).1.idle_of_not_mem hr p)
        · exact hd
      rw [show sentTo w (h.grant w ptr false).sent =
        [.writeReply none].map FromHome.reply by simp [Home.grant, sentTo]]
      refine At.reply htok ht.ord _ (Owner.granted op 0 l q hv.line hv.state hv.ptr hv.pending
        hv.out ?_) (hland _ _)
      show Granted i cur q l.data ((cs w).replies ++ _) (cs w).fromPeers 0
      rw [show (cs w).replies = [] from hv.rep, show (cs w).fromPeers = [] from hv.fwd]
      exact .ready (.inr hd)

/-- A try-lock fails at the home, which is locked. -/
theorem Taken.write_failed (hop : op ≠ .read)
    (ht : Taken f i cur role tok h cs w (Home.ownWrite op ptr true))
    (hst : h.entry.inTransition = false) (hc : Clean cur h role tok) :
    Next f i cur cs { st := h, sent := [(w, .reply (.writeReply (some .lockFailed)))] } := by
  obtain ⟨hland, l, q, hv, hr⟩ := ht.write_worker hop hst
  have htok : TokOk .none (cs w) := (hc.holds w).2 ▸ ht.tokOk
  have hrep : (cs w).replies = [] := hv.rep
  refine ht.settle ht.phase (fun _ => rfl) rfl
    (fun u hu => ⟨rfl, rfl, sentTo_singleton_of_ne hu _⟩) ?_ (ht.evictsWait hst rfl)
  rw [(hc.holds w).2, sentTo_singleton_self]
  refine At.reply htok ht.ord [.writeReply (some .lockFailed)] ?_ (hland _ _)
  obtain ⟨hr, hq⟩ | ⟨hr, rfl, hd⟩ := hr
  · rw [hr]
    refine Idle.writeFailed op 0 none l q hv.tryLock hv.line hv.state (hq.stale · hv.tryLock)
      hv.pending hv.out ?_
    show Refused ((cs w).replies ++ _) (cs w).fromPeers 0 none
    rw [hrep, show (cs w).fromPeers = [] from hv.fwd]
    exact .home .lockFailed
  · rw [hr]
    exact Sharer.upgrade l q hv.line hv.state hv.ptr hd hv.pending
      (.inr ⟨hv.out, hv.tryLock, .lockFailed, by rw [hrep]; rfl⟩) hv.fwd

/-- The copies other than that of `w` are asked to go; `listed`: it has one. -/
theorem Phase.invalidateForward_asked (q : Request) {others : List (W × Ptr)} {listed : Bool}
    {h' : Home W}
    (ho : others = d.shared.filter fun a => a.1 ≠ w) (hne : others ≠ [])
    (hn : (d.shared.map Prod.fst).Nodup) (hk : d.locks.isBlockLocked = false)
    (hholds : ∀ u, Holds d.shared u (role u) ∧ tok u = .none)
    (hin : listed = true → (w, ptr) ∈ d.shared) (hout : listed = false → ∀ p, (w, p) ∉ d.shared)
    (he' : h'.entry = some { d with state := .toDirty }) (hm' : h'.mem = cur)
    (hp' : h'.pending = some (.invalidateForward w ptr op others.length none)) :
    Phase cur h' (Function.update role w (.invWait ptr listed t))
      (tokAsk others (.invalidateForward t)) := by
  have hkeys (u : W) : u ∈ others.map Prod.fst ↔ (∃ p, (u, p) ∈ d.shared) ∧ u ≠ w := by
    rw [ho]
    simp
  have hw : tokAsk others (.invalidateForward t) w = .none := by
    rw [tokAsk, if_neg fun h => ((hkeys w).mp h).2 rfl]
  have hpos : (0 : Int) < others.length := by
    have := List.length_pos_iff.mpr hne
    omega
  refine .invalidate _ (some (w, ptr, op)) q others.length none t (by rintro ⟨⟩) he' hp' rfl
    (.of_not_isBlockLocked hk) (fun _ => hk) hm' hpos ⟨hn, ?_, (by rintro ⟨⟩), (by rintro ⟨⟩), ?_, fun u => ?_⟩
  · rw [List.countP_eq_length_filter, ho]
    congr 2
    refine List.filter_congr fun z hz => ?_
    by_cases hzw : z.1 = w
    · rw [hzw, ← ho, hw]
      simp [Tok.busy]
    · have hmem : z.1 ∈ others.map Prod.fst := (hkeys z.1).mpr ⟨⟨z.2, hz⟩, hzw⟩
      rw [← ho, tokAsk, if_pos hmem]
      simp [hzw, Tok.busy]
  · intro y hy
    cases hy
    exact ⟨⟨listed, by simp, hin, hout⟩, hw⟩
  · by_cases hu : u = w
    · exact .inl ⟨_, rfl, hu⟩
    · unfold Unused
      rw [Function.update_of_ne hu]
      obtain ⟨p, hp, hr⟩ | ⟨hp, hr⟩ := (hholds u).1
      · refine .inr (.inl ⟨p, hp, ?_⟩)
        rw [hr, tokAsk, if_pos ((hkeys u).mpr ⟨⟨p, hp⟩, hu⟩)]
        exact .asked _ rfl rfl
      · refine .inr (.inr ⟨hp, hr, ?_⟩)
        rw [tokAsk, if_neg fun h => ((hkeys u).mp h).1.elim hp]

/-- The other copies are invalidated on behalf of `w`. -/
theorem Taken.invalidateForward (hop : op ≠ .read)
    (ht : Taken f i cur role tok h cs w (Home.ownWrite op ptr t))
    (hst : h.entry.inTransition = false) (hc : Clean cur h role tok) (he : h.entry = some d)
    (hk : d.locks.isBlockLocked = false) {others : List (W × Ptr)}
    (ho : others = d.shared.filter fun a => a.1 ≠ w) (hne : others ≠ []) :
    Next f i cur cs
      { st := { h with
          entry := h.entry.setState .toDirty
          pending := some (.invalidateForward w ptr op others.length none) }
        sent := others.map fun a => (a.1, .ask (.invalidateForward t)) } := by
  obtain ⟨hland, l, q, hv, hr⟩ := ht.write_worker hop hst
  obtain ⟨hpend, hm, hn, -, hholds⟩ := hc
  rw [he] at hn hholds
  have hnd : (others.map Prod.fst).Nodup := by
    rw [ho]
    exact hn.sublist (List.filter_sublist.map _)
  obtain ⟨listed, hin, hout, hcfg⟩ : ∃ listed, (listed = true → (w, ptr) ∈ d.shared) ∧
      (listed = false → ∀ p, (w, p) ∉ d.shared) ∧
      Cfg f i cur (.invWait ptr listed t) ((cs w).view (h.parked w)) := by
    obtain ⟨hr, hq⟩ | ⟨hr, rfl, hd⟩ := hr
    · exact ⟨false, (by rintro ⟨⟩), fun _ => (hholds w).1.idle_of_not_mem hr,
        InvWait.mk op l q hv.line hv.state hv.ptr hv.tryLock (by rintro ⟨⟩) (fun _ => hq) hv.pending hv.out
          hv.rep hv.fwd⟩
    · refine ⟨true, fun _ => ?_, (by rintro ⟨⟩), InvWait.mk _ l q hv.line hv.state hv.ptr hv.tryLock
        (fun _ => ⟨rfl, hd⟩) (by rintro ⟨⟩) hv.pending hv.out hv.rep hv.fwd⟩
      obtain ⟨p, hp, hr'⟩ | ⟨-, hr'⟩ := (hholds w).1
      · obtain rfl := Role.sharer.inj (hr.symm.trans hr')
        exact hp
      · simp [hr] at hr'
  have hph : Phase cur { h with
      entry := h.entry.setState .toDirty
      pending := some (.invalidateForward w ptr op others.length none) } _ _ :=
    Phase.invalidateForward_asked q (t := t) ho hne hn hk hholds hin hout
      (by simp [Dir.setState, he]) hm rfl
  refine ⟨_, _, hph, fun u => ?_, ht.evictsWait hst rfl⟩
  by_cases hu : u = w
  · subst hu
    rw [Function.update_self]
    exact At.asks hnd _ ⟨hcfg, (hholds u).2 ▸ ht.tokOk, ht.ord, hland _ _⟩
  · rw [Function.update_of_ne hu]
    exact At.asks hnd _ ((hholds u).2 ▸ ht.other u hu)

theorem Taken.processRemoteWrite (op : Fetch) (hop : op ≠ .read)
    (ht : Taken f i cur role tok h cs w (Home.ownWrite op ptr t)) :
    Next f i cur cs (h.processRemoteWrite w op ptr t) := by
  unfold Home.processRemoteWrite
  split
  · exact ht.park (by simp [ownWrite_not_isEvict])
  rename_i hst
  have hst : h.entry.inTransition = false := by simpa using hst
  split
  · rename_i hd
    obtain ⟨hland, l, q, hv, hr⟩ := ht.write_worker hop hst
    obtain ⟨d, o, p, he, hl, hk, ho, hw⟩ := ht.phase.dirty_of hd
    obtain ⟨hr, hq⟩ : role w = .idle ∧ Lapsed f op l q := by
      obtain hr | ⟨hr, -⟩ := hr
      · exact hr
      · obtain rfl | hu := hw w
        · simp [ho.1] at hr
        · simp [hu.1] at hr
    have hwo : w ≠ o := by
      rintro rfl
      simp [ho.1] at hr
    have hsent : h.askOwner (.writeForward w t) = [(o, .ask (.writeForward w t))] := by
      simp [Home.askOwner, Dir.getSList, he, hl]
    refine ht.forward (.writeWait · t) ptr ho hw hwo
      (Phase.write_asked (x := some (w, ptr)) (q := q) hl hk ho.1 hw (by simpa using hwo) t (by rintro ⟨⟩) ?_ rfl)
      hsent (fun _ => rfl) rfl ?_ (hland _ _) (ht.evictsWait hst rfl)
    · simp [Dir.setState, he]
    · exact WriteWait.mk op l q hv.line hv.state hv.ptr hq hv.tryLock hv.pending hv.out hv.rep hv.fwd
  rename_i hd
  have hc := ht.phase.clean hst hd
  split
  · split
    · rename_i htry
      subst htry
      exact ht.write_failed hop hst hc
    · exact ht.park (by simp [ownWrite_not_isEvict])
  rename_i hun
  have hun : h.entry.isBlockLocked = false := by simpa using hun
  split
  · rename_i hs
    obtain ⟨d, he, hne, -⟩ := ht.phase.shared_of hs
    dsimp only
    split
    · rename_i hothers
      have hall (u : W) (p : Ptr) (hp : (u, p) ∈ h.entry.getSList) : u = w := by
        have hu := List.filter_eq_nil_iff.mp hothers (u, p) hp
        simpa using hu
      obtain ⟨⟨u, p⟩, hp⟩ := List.exists_mem_of_ne_nil _ hne
      have hp : (u, p) ∈ h.entry.getSList := by
        rw [he]
        exact hp
      obtain rfl := hall u p hp
      exact ht.grant hop hst hc hun hall false fun _ => ⟨p, hp⟩
    · rename_i hothers
      exact ht.invalidateForward hop hst hc he (by rw [he] at hun; exact hun) (by rw [he]; rfl)
        hothers
  · rename_i hs
    have hs' : h.entry.getState = .unshared := by
      cases hst' : h.entry.getState <;> simp_all [Dir.inTransition, DirState.inTransition]
    have hl := ht.phase.unshared_of hs'
    exact ht.grant hop hst hc hun (by simp [hl]) true (by rintro ⟨⟩)

/-! ## Evictions -/

omit [DecidableEq W] in
theorem nodup_keys_eq {l : List (W × Ptr)} (hn : (l.map Prod.fst).Nodup) {p' : Ptr}
    (h : (w, p) ∈ l) (h' : (w, p') ∈ l) : p = p' :=
  congrArg Prod.snd (List.inj_on_of_nodup_map hn h h' rfl)

theorem update_unused (hw : ∀ u, u ≠ w → Unused role tok u) (ht : tok w = .none) (u : W) :
    Unused (Function.update role w .idle) tok u := by
  by_cases hu : u = w
  · subst hu
    exact ⟨by simp, ht⟩
  · exact ⟨by rw [Function.update_of_ne hu]; exact (hw u hu).1, (hw u hu).2⟩

omit [DecidableEq W] in
/-- The list is empty after an eviction: an entry stays only for its locks. -/
theorem Phase.cleared {e : Dir W} (hp : h.pending = none) (hm : h.mem = cur)
    (hk : d.locks.Below (exclusive + 1)) (hu : ∀ u, Unused role tok u)
    (he : e = if d.locks.isBlockLocked then some { d with state := .unshared, shared := [] }
      else none) : Phase cur { h with entry := e } role tok := by
  subst he
  split
  · exact .unshared hp rfl rfl hk hm hu
  · exact .unshared hp rfl rfl (.of_not_isBlockLocked rfl) hm hu

theorem Phase.clear_shared (hp : h.pending = none) (hs : d.state = .shared)
    (hn : (d.shared.map Prod.fst).Nodup) (hk : d.locks.Below exclusive) (hm : h.mem = cur)
    (hw : ∀ u, Holds d.shared u (role u) ∧ tok u = .none)
    (hr : role w = .idle ∨ role w = .sharer p) :
    Phase cur { h with entry := Dir.clear (some d) (w, p) } (Function.update role w .idle) tok := by
  have hwp (p' : Ptr) (h : (w, p') ∈ d.shared) : p' = p := by
    obtain ⟨p'', h', hr'⟩ | ⟨h', -⟩ := (hw w).1
    · obtain hr | hr := hr
      · simp [hr] at hr'
      · obtain rfl := Role.sharer.inj (hr.symm.trans hr')
        exact nodup_keys_eq hn h h'
    · exact absurd h (h' p')
  have hholds (u : W) : Holds (d.shared.filter (· ≠ (w, p))) u (Function.update role w .idle u) := by
    by_cases hu : u = w
    · subst hu
      refine .inr ⟨fun p' h' => ?_, by simp⟩
      simp only [ne_eq, decide_not, List.mem_filter, Bool.not_eq_eq_eq_not, Bool.not_true,
        decide_eq_false_iff_not] at h'
      exact h'.2 (by rw [hwp p' h'.1])
    · rw [Function.update_of_ne hu]
      obtain ⟨p', hp', hr'⟩ | ⟨h', hr'⟩ := (hw u).1
      · exact .inl ⟨p', List.mem_filter.mpr ⟨hp', by simp [hu]⟩, hr'⟩
      · exact .inr ⟨fun p' hmem => h' p' (List.mem_of_mem_filter hmem), hr'⟩
  have hclear : Dir.clear (some d) (w, p) = if (d.shared.filter (· ≠ (w, p))).isEmpty then
      if d.locks.isBlockLocked then some { d with state := .unshared, shared := [] } else none
      else some { d with shared := d.shared.filter (· ≠ (w, p)) } := by
    simp only [Dir.clear, if_neg (show ¬ d.state = .dirty by simp [hs])]
  rw [hclear]
  split
  · rename_i hemp
    rw [List.isEmpty_iff] at hemp
    refine Phase.cleared hp hm (hk.mono (Nat.le_succ _)) (fun u => ⟨?_, (hw u).2⟩) rfl
    have := hholds u
    rw [hemp] at this
    obtain ⟨p', h', -⟩ | ⟨-, h'⟩ := this
    · cases h'
    · exact h'
  · rename_i hemp
    exact .shared { d with shared := d.shared.filter (· ≠ (w, p)) } rfl hp hs
      (by simpa using hemp) (hn.sublist (List.filter_sublist.map _)) hk hm
      fun u => ⟨hholds u, (hw u).2⟩

/-- The home forgets the copy of `w`, if it still knew of one. -/
theorem Phase.clear (hph : Phase cur h role tok) (hst : h.entry.inTransition = false)
    (hr : role w = .idle ∨ role w = .sharer p ∨ (role w = .owner p ∧ h.mem = cur)) :
    Phase cur { h with entry := h.entry.clear (w, p) } (Function.update role w .idle) tok := by
  cases hph with
  | unshared hp hs hl hk hm hw =>
    have hu := update_unused (w := w) (fun u _ => hw u) (hw w).2
    cases he : h.entry with
    | none => exact .unshared hp rfl rfl (.of_not_isBlockLocked rfl) hm hu
    | some d =>
      rw [he] at hs hl hk
      have hs : d.state = .unshared := hs
      have hl : d.shared = [] := hl
      exact Phase.cleared (d := d) hp hm hk hu (by simp [Dir.clear, hs, hl])
  | shared d he hp hs hl hn hk hm hw =>
    rw [he]
    refine Phase.clear_shared hp hs hn hk hm hw ?_
    obtain hr | hr | ⟨hr, -⟩ := hr
    · exact .inl hr
    · exact .inr hr
    · obtain ⟨p', -, h'⟩ | ⟨-, h'⟩ := (hw w).1 <;> simp [hr] at h'
  | dirty d o p' he hp hs hl hk ho hw =>
    rw [he]
    by_cases hwo : w = o
    · subst hwo
      obtain ⟨rfl, hm⟩ : p = p' ∧ h.mem = cur := by
        obtain hr | hr | ⟨hr, hm⟩ := hr
        · simp [ho.1] at hr
        · simp [ho.1] at hr
        · exact ⟨(Role.owner.inj (ho.1.symm.trans hr)).symm, hm⟩
      have hu := update_unused (w := w) (fun u hu => (hw u).resolve_left hu) ho.2
      exact Phase.cleared (d := d) hp hm (.of_not_isBlockLocked hk) hu
        (by simp [Dir.clear, hs, hl])
    · have hr : role w = .idle := ((hw w).resolve_left hwo).1
      rw [← hr, Function.update_eq_self]
      have hclear : Dir.clear (some d) (w, p) = some d := by
        obtain ⟨st, sh, lk⟩ := d
        obtain rfl : st = .dirty := hs
        obtain rfl : sh = [(o, p')] := hl
        simp [Dir.clear, Ne.symm hwo]
      exact .dirty d o p' hclear hp hs hl hk ho hw
  | toShared d o p x q he hp hs =>
    simp [Dir.inTransition, Dir.getState, he, hs, DirState.inTransition] at hst
  | take d o p x q he hp hs =>
    cases x <;> simp [Dir.inTransition, Dir.getState, he, hs, DirState.inTransition] at hst
  | invalidate d x q n st t hq he hp hs =>
    cases x <;> simp [Dir.inTransition, Dir.getState, he, hs, DirState.inTransition] at hst

omit [DecidableEq W] in
theorem Phase.tok_none (hph : Phase cur h role tok) (hst : h.entry.inTransition = false) (u : W) :
    tok u = .none := by
  by_cases hd : h.entry.getState = .dirty
  · obtain ⟨d, o, p, -, -, -, ho, hw⟩ := hph.dirty_of hd
    exact dirty_tok ho hw u
  · exact ((hph.clean hst hd).holds u).2

theorem Taken.processRemoteEvictShared
    (ht : Taken f i cur role tok h cs w (.activeInvalidate ptr)) :
    Next f i cur cs (h.processRemoteEvictShared w ptr) := by
  unfold Home.processRemoteEvictShared
  split
  · exact ht.park fun _ => ‹_›
  rename_i hst
  have hst : h.entry.inTransition = false := by simpa using hst
  obtain ⟨hr, hp, hidle⟩ := (ht.head hst).2.own_activeInvalidate
  refine ht.settle (ht.phase.clear (w := w) (p := ptr) hst (hr.imp_right .inl)) (fun _ => rfl) rfl
    (fun u hu => ⟨Function.update_of_ne hu .., rfl, rfl⟩) ?_ (ht.evictsWait hst rfl)
  rw [show sentTo w _ = [] from rfl, withHome_nil, Function.update_self]
  exact ⟨hidle, ht.tokOk, ht.ord, .of_noRdma (ht.landing.noRdma hp) hp⟩

theorem Taken.processRemoteEvictDirty (ht : Taken f i cur role tok h cs w (.writeBack ptr)) :
    Next f i cur cs (h.processRemoteEvictDirty w ptr) := by
  unfold Home.processRemoteEvictDirty
  split
  · exact ht.park fun _ => ‹_›
  rename_i hst
  have hst : h.entry.inTransition = false := by simpa using hst
  obtain ⟨hr, ⟨hp, ho⟩, hidle⟩ := (ht.head hst).2.own_writeBack
  -- the one-sided write came before, so the memory has the block
  obtain ⟨hn, hm⟩ : (∀ m ∈ (cs w).toHome, m.isRdma = false) ∧
      ((role w).isOwner = true → h.mem = cur) := by
    have hin : (cs w).inFlight = [] := (List.append_eq_nil_iff.mp ho).2
    cases ht.landing with
    | none hn hm => exact ⟨hn, fun hr => hm hr hp⟩
    | before p post hq => simp [Cacher.inFlight, hq] at hin
    | after p a hq => simp [Cacher.inFlight, hq] at hin
  have hr : role w = .idle ∨ role w = .sharer ptr ∨ (role w = .owner ptr ∧ h.mem = cur) := by
    obtain hr | hr | hr := hr
    · exact .inl hr
    · exact .inr (.inl hr)
    · exact .inr (.inr ⟨hr, hm (by rw [hr]; rfl)⟩)
  have htok : tok w = .none := ht.phase.tok_none hst w
  refine ht.settle (ht.phase.clear hst hr) (fun _ => rfl) rfl
    (fun u hu => ⟨Function.update_of_ne hu .., rfl, sentTo_singleton_of_ne hu _⟩) ?_
    (ht.evictsWait hst rfl)
  rw [sentTo_singleton_self, Function.update_self, htok]
  exact At.reply (htok ▸ ht.tokOk) ht.ord [.imm none] hidle (.none hn (by rintro ⟨⟩))

theorem Taken.processOwn (ht : Taken f i cur role tok h cs w o) :
    Next f i cur cs (h.processOwn w o) := by
  cases o with
  | read ptr t => exact ht.processRemoteRead
  | write ptr t => exact ht.processRemoteWrite .write (by rintro ⟨⟩)
  | writePermissionOnly ptr t => exact ht.processRemoteWrite .writePermissionOnly (by rintro ⟨⟩)
  | activeInvalidate ptr => exact ht.processRemoteEvictShared
  | writeBack ptr => exact ht.processRemoteEvictDirty

end

end HwGam.Coherence
