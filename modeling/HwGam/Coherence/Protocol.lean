import HwGam.Coherence.HomeInvalidate

/-!
# Every step keeps the invariant

`Good.step` puts the steps of the workers and of the home together; `good_of_reaches` is the
invariant for whole runs.
-/

namespace HwGam.Coherence

open Lib

variable {W : Type*} [DecidableEq W] {f : Slack} {i : Nat} {cur mem₀ : Data} {b b' : Block W}
  {role : W → Role} {tok : W → Tok W} {w : W}

/-! ## Messages to the home -/

theorem processOwn_evs (h : Home W) (w : W) (o : Own) : (h.processOwn w o).evs = [] := by
  cases o with
  | read ptr t =>
    simp only [Home.processOwn, Home.processRemoteRead]
    grind
  | write ptr t =>
    simp only [Home.processOwn, Home.processRemoteWrite, Home.grant]
    grind
  | writePermissionOnly ptr t =>
    simp only [Home.processOwn, Home.processRemoteWrite, Home.grant]
    grind
  | activeInvalidate ptr =>
    simp only [Home.processOwn, Home.processRemoteEvictShared]
    grind
  | writeBack ptr =>
    simp only [Home.processOwn, Home.processRemoteEvictDirty]
    grind

/-- The block after a handler of the home. -/
theorem Next.good {b₁ : Block W} {o : Home.Result W}
    (hn : Next f i (Block.value i (Block.value i mem₀ b₁.log) o.evs) b₁.cacher o) :
    Good f i mem₀ (b₁.homeStep o) := by
  obtain ⟨role, tok, hph, hw, hev⟩ := hn
  refine ⟨role, tok, ?_⟩
  rw [show (b₁.homeStep o).log = b₁.log ++ o.evs from rfl, Block.value_append]
  exact ⟨hph, hw, hev⟩

theorem Inv.recv_own (hi : Inv f i cur b role tok) (hag : b.home.agenda = []) {o : Own}
    {ms : List ToHome} (hc : (b.cacher w).toHome = .own o :: ms) :
    Taken f i cur role tok b.home
      (b.setCacher w { b.cacher w with toHome := ms }).cacher w o := by
  have hw := hi.worker w
  have hself : (b.setCacher w { b.cacher w with toHome := ms }).cacher w =
      { b.cacher w with toHome := ms } := by
    simp [Block.setCacher]
  refine ⟨hi.phase, fun u hu => ?_, ?_, ?_, ?_, ?_, fun x hx he => ?_⟩
  · simpa [Block.setCacher, hu] using hi.worker u
  · have hcfg := hw.cfg
    rw [hself]
    simp only [Cacher.view, Home.parked, Cacher.inFlight, hc, hag, List.filterMap_cons, ToHome.own?,
      List.filterMap_nil, show sentTo w ([] : List (W × Own)) = [] from rfl, List.append_nil,
      List.nil_append] at hcfg ⊢
    exact hcfg
  · have hacks : Cacher.acks { b.cacher w with toHome := ms } = (b.cacher w).acks := by
      simp [Cacher.acks, hc, List.filterMap_cons]
    have htok := hw.tok
    rw [hself]
    unfold TokOk at htok ⊢
    rw [hacks]
    exact htok
  · rw [hself]
    exact hw.ord
  · rw [hself]
    -- the data travels in front of its WRITE_BACK
    cases hw.landing with
    | none hn hm =>
      exact .none (fun m hmem => hn m (hc ▸ List.mem_cons_of_mem _ hmem)) hm
    | before p post hq => simp [hc] at hq
    | after p a hq => simp [hc] at hq
  · obtain h | h := hi.evicts x hx he
    · exact h
    · simp [hag, loadNext] at h

theorem Inv.replay_own (hi : Inv f i cur b role tok) {o : Own} {rest : List (Item (W × Own))}
    (hag : b.home.agenda = .remote (w, o) :: rest) :
    Taken f i cur role tok { b.home with agenda := rest } b.cacher w o := by
  have hw := hi.worker w
  refine ⟨hi.phase.frame rfl rfl (.inl rfl), fun u hu => ?_, ?_, hw.tok, hw.ord, hw.landing,
    fun x hx he => ?_⟩
  · have hpk : Home.parked { b.home with agenda := rest } u = b.home.parked u := by
      simp [Home.parked, hag, sentTo_cons, hu.symm]
    rw [hpk]
    exact hi.worker u
  · have hcfg := hw.cfg
    simp only [Cacher.view, Home.parked, hag, List.filterMap_cons, Item.remote?, sentTo_cons,
      if_true, List.append_assoc, List.singleton_append] at hcfg ⊢
    exact hcfg
  · obtain h | h := hi.evicts x hx he
    · exact h
    · simp [hag, loadNext] at h

theorem Inv.recv_ack (hi : Inv f i cur b role tok) {a : Ack} {ms : List ToHome}
    (hc : (b.cacher w).toHome = .ack a :: ms) :
    Acked f i cur role tok b.home
      (b.setCacher w { b.cacher w with toHome := ms }).cacher w a := by
  obtain ⟨ht, hat⟩ := (hi.worker w).take_ack hc
  refine ⟨hi.phase, ht, fun u => ?_⟩
  by_cases hu : u = w
  · subst hu
    simpa [Block.setCacher] using hat
  · simpa [Block.setCacher, hu] using hi.worker u

/-- The one-sided write of an eviction lands: it brings the block's value. -/
theorem Inv.recv_rdma (hi : Inv f i cur b role tok) {d : Data} {ms : List ToHome}
    (hc : (b.cacher w).toHome = .rdmaWrite d :: ms) :
    Next f i cur (b.setCacher w { b.cacher w with toHome := ms }).cacher
      { st := b.home.land (some d) } := by
  have hw := hi.worker w
  obtain ⟨rfl, hms⟩ : d = cur ∧ ∀ m ∈ ms, m.isRdma = false := by
    cases hw.landing with
    | none hn => simpa [ToHome.isRdma] using hn (.rdmaWrite d) (by simp [hc])
    | before p post hq =>
      obtain ⟨hd, rfl⟩ := List.cons.inj (hc.symm.trans hq)
      refine ⟨by simpa using hd, fun m hm => ?_⟩
      obtain rfl | ⟨a, -, rfl⟩ : m = .own (.writeBack p) ∨ ∃ a ∈ post, ToHome.ack a = m := by
        simpa using hm
      · rfl
      · rfl
    | after p a hq => simp [hc] at hq
  refine ⟨role, tok, hi.phase.frame rfl rfl (.inr rfl), fun u => ?_, hi.evicts⟩
  rw [show sentTo u _ = [] from rfl, withHome_nil]
  by_cases hu : u = w
  · subst hu
    rw [show (b.setCacher u { b.cacher u with toHome := ms }).cacher u =
      { b.cacher u with toHome := ms } by simp [Block.setCacher]]
    refine ⟨?_, ?_, hw.ord, .none hms fun _ _ => rfl⟩
    · have hcfg := hw.cfg
      simp only [Cacher.view, Cacher.inFlight, hc, List.filterMap_cons, ToHome.own?] at hcfg ⊢
      exact hcfg
    · have hacks : Cacher.acks { b.cacher u with toHome := ms } = (b.cacher u).acks := by
        simp [Cacher.acks, hc, List.filterMap_cons]
      have htok := hw.tok
      unfold TokOk at htok ⊢
      rw [hacks]
      exact htok
  · rw [show (b.setCacher w { b.cacher w with toHome := ms }).cacher u = b.cacher u by
      simp [Block.setCacher, hu]]
    exact (hi.worker u).of_mem (.inr rfl)

theorem Good.recvHome (hg : Good f i mem₀ b) (hs : Coherence.recvHome i w b = some b') :
    Good f i mem₀ b' := by
  obtain ⟨role, tok, hi⟩ := hg
  unfold Coherence.recvHome at hs
  dsimp only at hs
  split at hs
  · cases hs
  rename_i m ms hc
  simp only [Option.ite_none_right_eq_some, Option.some.injEq] at hs
  obtain ⟨hok, rfl⟩ := hs
  refine Next.good ?_
  cases m with
  | own o =>
    have hag : b.home.agenda = [] := by simpa [ToHome.isRdma] using hok
    have hn := (hi.recv_own hag hc).processOwn
    rw [show b.home.recv i w (.own o) = b.home.processOwn w o from rfl, processOwn_evs]
    exact hn
  | ack a => exact (hi.recv_ack hc).recv
  | rdmaWrite d => exact hi.recv_rdma hc

theorem Good.replay_home (hg : Good f i mem₀ b) (hs : Coherence.replay none b = some b') :
    Good f i mem₀ b' := by
  obtain ⟨role, tok, hi⟩ := hg
  unfold Coherence.replay at hs
  dsimp only at hs
  split at hs
  · rename_i w o rest hag
    cases hs
    have hn := (hi.replay_own hag).processOwn
    refine Next.good ?_
    rw [processOwn_evs]
    exact hn
  · rename_i rest hag
    cases hs
    refine ⟨role, tok, hi.phase.frame rfl rfl (.inl rfl), fun u => ?_, (by rintro _ ⟨⟩)⟩
    have hpk : Home.parked
        { b.home with serve := [], agenda := b.home.serve.map .remote ++ rest } u =
        b.home.parked u := by
      have hr : (b.home.serve.map (Item.remote (R := W × Own))).filterMap Item.remote? =
          b.home.serve := by
        simp [List.filterMap_map, Function.comp_def]
      simp [Home.parked, hag, hr, List.filterMap_cons, sentTo]
    rw [hpk]
    exact hi.worker u
  · cases hs

theorem Good.drop_home (hg : Good f i mem₀ b) (hs : Coherence.drop none b = some b') :
    Good f i mem₀ b' := by
  obtain ⟨role, tok, hi⟩ := hg
  unfold Coherence.drop at hs
  dsimp only at hs
  split at hs
  · rename_i q rest hag
    cases hs
    refine ⟨role, tok, hi.phase.frame rfl rfl (.inl rfl), fun u => ?_, fun x hx he => ?_⟩
    · have hpk : Home.parked { b.home with agenda := rest } u = b.home.parked u := by
        simp [Home.parked, hag, List.filterMap_cons]
      rw [hpk]
      exact hi.worker u
    · have hev := hi.evicts x hx he
      rwa [hag, loadNext] at hev
  · cases hs

theorem Good.home_unLock (hg : Good f i mem₀ b) (thread addr : Nat) :
    Good f i mem₀ (b.homeStep (b.home.unLock thread addr)) := by
  obtain ⟨role, tok, hi⟩ := hg
  refine ⟨role, tok, ?_⟩
  rw [show (b.homeStep (b.home.unLock thread addr)).log = b.log ++ [.unlock none thread addr] from
    rfl, Block.value_append]
  exact hi.home_quiet rfl ((hi.phase.unLock addr).frame rfl rfl (.inl rfl)) (.inl rfl)
    (fun u => parked_processToServe (h := { b.home with entry := b.home.entry.unLock addr }))
    fun _ _ _ => .inr (loadNext_processToServe (h := { b.home with entry := b.home.entry.unLock addr }))

/-! ## Whole runs -/

theorem Good.init (mem : Data) : Good f i mem (Block.init W mem) := by
  refine ⟨fun _ => .idle, fun _ => .none, ?_, fun w => ?_, (by rintro _ ⟨⟩)⟩
  · exact .unshared rfl rfl rfl (.of_not_isBlockLocked rfl) rfl fun w => ⟨rfl, rfl⟩
  · exact ⟨Idle.absent none rfl rfl rfl rfl rfl, ⟨rfl, rfl⟩, .nil, .none (by rintro _ ⟨⟩) (by rintro ⟨⟩)⟩

theorem Good.step (hg : Good f i mem₀ b) {a : Act W} (hroom : a.Room b) (hf : f.Permits a b)
    (hs : Coherence.step i a b = some b') : Good f i mem₀ b' := by
  cases a with
  | access n q ptr =>
    cases n with
    | none =>
      cases hs
      exact hg.home_access ptr hroom
    | some w =>
      cases hs
      exact hg.access q ptr hroom
  | unlock n thread addr =>
    cases n with
    | none =>
      cases hs
      exact hg.home_unLock thread addr
    | some w =>
      cases hs
      obtain ⟨role, tok, hi⟩ := hg
      exact Good.kept hi rfl ((hi.worker w).unLock thread addr) (.inr rfl)
  | evict w =>
    obtain ⟨role, tok, hi⟩ := hg
    obtain ⟨c, hc, rfl⟩ := Option.map_eq_some_iff.mp hs
    exact Good.setCacher hi ((hi.worker w).evict hc)
  | complete w =>
    obtain ⟨role, tok, hi⟩ := hg
    simp only [Coherence.step, Option.ite_none_right_eq_some, Option.map_eq_some_iff] at hs
    obtain ⟨-, o, hc, rfl⟩ := hs
    obtain ⟨hsent, hevs⟩ : o.sent = [] ∧ o.evs = [] := by
      unfold Cacher.complete at hc
      split at hc
      · cases hc
        exact ⟨rfl, rfl⟩
      · cases hc
    have hval : Block.value i (Block.value i mem₀ b.log) o.evs = Block.value i mem₀ b.log := by
      rw [hevs]
      rfl
    exact Good.kept hi hsent (hval.symm ▸ (hi.worker w).complete hc) (.inr hval)
  | recvHome w => exact hg.recvHome hs
  | recv w => exact hg.recv hf hs
  | recvPeer u w => exact hg.recvPeer hs
  | replay n =>
    cases n with
    | none => exact hg.replay_home hs
    | some w => exact hg.replay hf hs
  | drop n =>
    cases n with
    | none => exact hg.drop_home hs
    | some w => exact hg.drop hs

/-- The invariant along every run that finds room for its readers. -/
theorem good_of_reaches {mem : Data}
    (h : Reaches (Coherence.step i) (fun a b => a.Room b ∧ f.Permits a b) (Block.init W mem) b) :
    Good f i mem b :=
  h.invariant (Good.init mem) fun _ _ _ hg hok hs => hg.step hok.1 hok.2 hs

end HwGam.Coherence
