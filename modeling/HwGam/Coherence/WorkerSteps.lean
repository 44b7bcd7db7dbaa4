import HwGam.Coherence.Invariant

/-!
# Steps of the caching workers keep the invariant
-/

namespace HwGam.Coherence

variable {W : Type*} {f : Slack} {i : Nat} {cur mem : Data} {b : Block W}
  {role role' : W → Role} {tok tok' : W → Tok W} {w : W} {o : Cacher.Result W} {h : Home W}

/-! ## What others see of a step -/

/-- A worker after messages of `w` have been sent to it. -/
def Cacher.withPeers (c : Cacher W) (w : W) (ms : List PeerMsg) : Cacher W :=
  { c with fromPeers := c.fromPeers ++ ms.map (w, ·) }

@[simp] theorem withPeers_nil (c : Cacher W) : c.withPeers w [] = c := by
  simp [Cacher.withPeers]

/-! ## Only the owner changes the value -/

theorem At.blind {parked : List Own} {r : Role} {t : Tok W} {c : Cacher W} {cur' : Data}
    (h : At f i cur mem parked r t c) (hb : r.blind = true) (ho : r.isOwner = false)
    (ht : t.isAck = false) : At f i cur' mem parked r t c where
  cfg := h.cfg.blind hb
  tok := h.tok
  ord := h.ord
  landing := by
    cases h.landing with
    | none hn => exact .none hn (by simp [ho])
    | before p post hq hp hr => simp [ho, ht] at hr
    | after p a hq hp hr => simp [ho] at hr

/-- The worker neither depends on the block's value nor may change it. -/
def Blind (role : W → Role) (tok : W → Tok W) (u : W) : Prop :=
  (role u).blind = true ∧ (role u).isOwner = false ∧ (tok u).isAck = false

theorem Unused.blind (hu : Unused role tok w) : Blind role tok w := by
  simp [Blind, hu.1, hu.2, Role.blind, Role.isOwner, Tok.isAck]

/-- The home has a question to the owner `o`, for the worker `x` in role `g`. -/
theorem blind_of_asked {o : W} {x : Option (W × Ptr)} {g : Ptr → Role}
    (hg : ∀ p, (g p).blind = true ∧ (g p).isOwner = false) (hx' : ∀ y ∈ x, role y.1 = g y.2)
    (hx : ∀ y ∈ x, y.1 ≠ o ∧ tok y.1 = .none)
    (hw : ∀ w, w = o ∨ (∃ y ∈ x, w = y.1) ∨ Unused role tok w) (ho : (role w).isOwner = true) :
    w = o ∧ ∀ u, u ≠ w → Blind role tok u := by
  have hu (u : W) (huo : u ≠ o) : Blind role tok u := by
    obtain rfl | ⟨y, hy, rfl⟩ | hu := hw u
    · exact absurd rfl huo
    · simp [Blind, hx' y hy, hg, (hx y hy).2, Tok.isAck]
    · exact hu.blind
  obtain rfl : w = o := by
    by_contra hwo
    simp [(hu w hwo).2.1] at ho
  exact ⟨rfl, hu⟩

/-- The owner has answered, and nobody owns the block. -/
theorem not_owner_of_answered {o : W} {x : Option (W × Ptr)} {g : Ptr → Role}
    (hg : ∀ p, (g p).isOwner = false) (hx' : ∀ y ∈ x, role y.1 = g y.2)
    (hw : ∀ w, w = o ∨ (∃ y ∈ x, w = y.1) ∨ Unused role tok w) (ho : (role o).isOwner = false) :
    (role w).isOwner = false := by
  obtain rfl | ⟨y, hy, rfl⟩ | hu := hw w
  · exact ho
  · rw [hx' y hy, hg]
  · rw [hu.1]
    rfl

/-- If some worker owns the block, the home's state does not depend on the value, nor does any other
worker's. -/
theorem Phase.owner (hph : Phase cur h role tok) (ho : (role w).isOwner = true) :
    (∀ cur', Phase cur' h role tok) ∧ ∀ u, u ≠ w → Blind role tok u := by
  cases hph with
  | unshared hp hs hl hk hm hw => simp [(hw w).1, Role.isOwner] at ho
  | shared d he hp hs hl hn hk hm hw =>
    obtain ⟨p, -, hr⟩ | ⟨-, hr⟩ := (hw w).1 <;> simp [hr, Role.isOwner] at ho
  | dirty d o p he hp hs hl hk ho' hw =>
    obtain rfl | hu := hw w
    · exact ⟨fun _ => .dirty d w p he hp hs hl hk ho' hw,
        fun u hu => ((hw u).resolve_left hu).blind⟩
    · simp [hu.1, Role.isOwner] at ho
  | toShared d o p x q he hp hs hl hk hstage hx hw =>
    cases hstage with
    | asked t hq ht ho' hx' =>
      obtain ⟨rfl, hu⟩ := blind_of_asked (g := (.readWait · t)) (fun _ => ⟨rfl, rfl⟩) hx' hx hw ho
      exact ⟨fun _ => .toShared d w p x q he hp hs hl hk (.asked t hq ht ho' hx') hx hw, hu⟩
    | answered ht ho' hx' =>
      simp [not_owner_of_answered (g := .sharer) (fun _ => rfl) hx' hw (by rw [ho']; rfl)] at ho
    | refused st hq ht ho' hx' =>
      obtain ⟨rfl, hu⟩ := blind_of_asked (g := fun _ => .idle) (fun _ => ⟨rfl, rfl⟩) hx' hx hw ho
      exact ⟨fun _ => .toShared d w p x q he hp hs hl hk (.refused st hq ht ho' hx') hx hw, hu⟩
  | take d o p x q he hp hs hl hk hstage hx hw =>
    cases hstage with
    | asked t hq ht ho' hx' =>
      obtain ⟨rfl, hu⟩ := blind_of_asked (g := (.writeWait · t)) (fun _ => ⟨rfl, rfl⟩) hx' hx hw ho
      exact ⟨fun _ => .take d w p x q he hp hs hl hk (.asked t hq ht ho' hx') hx hw, hu⟩
    | answered ht ho' hx' =>
      simp [not_owner_of_answered (g := .grantWait) (fun _ => rfl) hx' hw (by rw [ho']; rfl)] at ho
    | refused st hq ht ho' hx' =>
      obtain ⟨rfl, hu⟩ := blind_of_asked (g := .failWait) (fun _ => ⟨rfl, rfl⟩) hx' hx hw ho
      exact ⟨fun _ => .take d w p x q he hp hs hl hk (.refused st hq ht ho' hx') hx hw, hu⟩
  | invalidate d x q n st t hq he hp hs hk hkx hm hpos hc =>
    obtain ⟨y, hy, rfl⟩ | ⟨p, -, hs'⟩ | ⟨-, hu⟩ := hc.copies w
    · obtain ⟨listed, hr, -⟩ := (hc.waits y hy).listed
      simp [hr, Role.isOwner] at ho
    · generalize role w = r, tok w = t' at hs' ho
      cases hs' <;> simp [Role.isOwner] at ho
    · simp [hu.1, Role.isOwner] at ho

theorem processAsk_evs (c : Cacher W) (a : Ask W) : (c.processAsk a).evs = [] := by
  have hread (r : Option W) : (c.processRemoteReadCache a r).evs = [] := by
    unfold Cacher.processRemoteReadCache Cacher.refuse
    grind
  have hsurrender (l : Line) (x : Bool) : (c.surrender a l x).evs = [] := by
    unfold Cacher.surrender
    grind
  have hwrite : (c.processRemoteWriteCache a).evs = [] := by
    unfold Cacher.processRemoteWriteCache Cacher.refuse
    grind
  unfold Cacher.processAsk
  grind

/-! ## What a forwarded request hears of the owner -/

section
variable {parked : List Own} {p : Ptr} {r : Role} {t : Tok W} {c : Cacher W}

theorem At.withPeers {r' : Role} {m : PeerMsg} (h : At f i cur mem parked r t c)
    (hp : c.pending ≠ some .writeBack) (hcfg : Cfg f i cur r' ((c.withPeers w [m]).view parked)) :
    At f i cur mem parked r' t (c.withPeers w [m]) :=
  ⟨hcfg, h.tok, h.ord, .of_noRdma (c := c.withPeers w [m]) (h.landing.noRdma hp) hp⟩

theorem At.hear_read {t' : Bool} (h : At f i cur mem parked (.readWait p t') t c) :
    At f i cur mem parked (.sharer p) t (c.withPeers w [.imm cur]) := by
  cases h.cfg with
  | mk l q hl hs hptr ht hp ho hr hf =>
    have hf : (c.withPeers w [.imm cur]).fromPeers = [(w, .imm cur)] :=
      congrArg (· ++ _) (show c.fromPeers = [] from hf)
    exact h.withPeers (by simp [show c.pending = _ from hp])
      (Sharer.arriving l q hl hs hptr hp ho (.inr ⟨hr, w, hf⟩))

/-- Only a try-lock is refused. -/
theorem At.hear_readFailed (h : At f i cur mem parked (.readWait p true) t c) (st : Status) :
    At f i cur mem parked .idle t (c.withPeers w [.readReply st]) := by
  cases h.cfg with
  | mk l q hl hs hptr ht hp ho hr hf =>
    have hf : (c.withPeers w [.readReply st]).fromPeers = [(w, .readReply st)] :=
      congrArg (· ++ _) (show c.fromPeers = [] from hf)
    exact h.withPeers (by simp [show c.pending = _ from hp])
      (Idle.readFailed l q st ht hl hs hp ho (.inr ⟨hr, w, hf⟩))

theorem At.hear_write {t' : Bool} (h : At f i cur mem parked (.writeWait p t') t c) :
    At f i cur mem parked (.grantWait p) t (c.withPeers w [.imm cur]) := by
  cases h.cfg with
  | mk op l q hl hs hptr hq ht hp ho hr hf =>
    have hf : (c.withPeers w [.imm cur]).fromPeers = [(w, .imm cur)] :=
      congrArg (· ++ _) (show c.fromPeers = [] from hf)
    exact h.withPeers (by simp [show c.pending = _ from hp])
      (GrantWait.mk op 0 l q hl hs hptr hp ho hr (.inl ⟨rfl, w, hf⟩))

theorem At.hear_writeFailed (h : At f i cur mem parked (.writeWait p true) t c) (st : Status) :
    At f i cur mem parked (.failWait p) t (c.withPeers w [.writeReply st]) := by
  cases h.cfg with
  | mk op l q hl hs hptr hq ht hp ho hr hf =>
    have hf : (c.withPeers w [.writeReply st]).fromPeers = [(w, .writeReply st)] :=
      congrArg (· ++ _) (show c.fromPeers = [] from hf)
    exact h.withPeers (by simp [show c.pending = _ from hp])
      (FailWait.mk op 0 none l q hl hs hptr ht (hq.stale · ht) hp ho hr (.inl ⟨rfl, rfl, w, st, hf⟩))

end

section
variable [DecidableEq W]

theorem cacherStep_cacher (u : W) :
    (b.cacherStep w o).cacher u =
      (if u = w then o.st else b.cacher u).withPeers w (sentTo u o.sent) := by
  by_cases hu : u = w
  · subst hu
    simp [Block.cacherStep, Block.emit, Block.deliverPeers, Block.setCacher, Cacher.withPeers]
  · simp [Block.cacherStep, Block.emit, Block.deliverPeers, Block.setCacher, Cacher.withPeers, hu]

theorem Inv.cacherStep (hi : Inv f i cur b role tok) {cur' : Data}
    (hph : Phase cur' b.home role' tok')
    (hself : sentTo w o.sent = [])
    (hw : At f i cur' b.home.mem (b.home.parked w) (role' w) (tok' w) o.st)
    (hu : ∀ u, u ≠ w → At f i cur' b.home.mem (b.home.parked u) (role' u) (tok' u)
      ((b.cacher u).withPeers w (sentTo u o.sent))) :
    Inv f i cur' (b.cacherStep w o) role' tok' where
  phase := hph
  worker u := by
    rw [cacherStep_cacher]
    by_cases huw : u = w
    · subst huw
      rw [if_pos rfl, hself, withPeers_nil]
      exact hw
    · rw [if_neg huw]
      exact hu u huw
  evicts := hi.evicts

/-- A step of a worker in its role: nobody else notices, but for the value. -/
theorem Inv.kept (hi : Inv f i cur b role tok) (hsent : o.sent = [])
    (hat : At f i (Block.value i cur o.evs) b.home.mem (b.home.parked w) (role w) (tok w) o.st)
    (hval : (role w).isOwner = true ∨ Block.value i cur o.evs = cur) :
    Inv f i (Block.value i cur o.evs) (b.cacherStep w o) role tok := by
  have hself (u : W) : sentTo u o.sent = [] := by
    rw [hsent]
    rfl
  obtain ho | hv := hval
  · obtain ⟨hph, hbl⟩ := hi.phase.owner ho
    refine hi.cacherStep (hph _) (hself w) hat fun u hu => ?_
    rw [hself, withPeers_nil]
    exact (hi.worker u).blind (hbl u hu).1 (hbl u hu).2.1 (hbl u hu).2.2
  · rw [hv] at hat ⊢
    refine hi.cacherStep hi.phase (hself w) hat fun u _ => ?_
    rw [hself, withPeers_nil]
    exact hi.worker u

/-! ## Answers -/

/-- The worker `x`, if there is one, takes the role `g`. -/
def setFor (x : Option (W × Ptr)) (g : Ptr → Role) (role : W → Role) : W → Role :=
  match x with
  | none => role
  | some y => Function.update role y.1 (g y.2)

theorem setFor_self {x : Option (W × Ptr)} {g : Ptr → Role} {y : W × Ptr} (hy : y ∈ x) :
    setFor x g role y.1 = g y.2 := by
  cases hy
  simp [setFor]

theorem setFor_of_ne {x : Option (W × Ptr)} {g : Ptr → Role} {u : W} (hu : ∀ y ∈ x, u ≠ y.1) :
    setFor x g role u = role u := by
  cases x with
  | none => rfl
  | some y => simp [setFor, hu y rfl]

/-- A worker answers a question, and the worker `x` the question was for hears of it. -/
theorem Inv.forward (hi : Inv f i cur b role tok) {x : Option (W × Ptr)} {g : Ptr → Role}
    {m : PeerMsg} {ro : Role} {t' : Tok W}
    (hsent : o.sent = x.toList.map fun y => (y.1, m)) (hx : ∀ y ∈ x, y.1 ≠ w)
    (hw : At f i cur b.home.mem (b.home.parked w) ro t' o.st)
    (hr : ∀ y ∈ x, At f i cur b.home.mem (b.home.parked y.1) (g y.2) (tok y.1)
      ((b.cacher y.1).withPeers w [m]))
    (hph : Phase cur b.home (Function.update (setFor x g role) w ro) (Function.update tok w t')) :
    Inv f i cur (b.cacherStep w o) (Function.update (setFor x g role) w ro)
      (Function.update tok w t') := by
  have hself : sentTo w o.sent = [] := by
    rw [hsent]
    cases x with
    | none => rfl
    | some y => simp [sentTo, hx y rfl]
  refine hi.cacherStep hph hself (by simpa using hw) fun u hu => ?_
  rw [Function.update_of_ne hu, Function.update_of_ne hu]
  by_cases huy : ∃ y ∈ x, u = y.1
  · obtain ⟨y, hy, rfl⟩ := huy
    have hs : sentTo y.1 o.sent = [m] := by
      rw [hsent]
      cases hy
      simp [sentTo]
    rw [hs, setFor_self hy]
    exact hr y hy
  · have hne : ∀ y ∈ x, u ≠ y.1 := fun y hy he => huy ⟨y, hy, he⟩
    have hs : sentTo u o.sent = [] := by
      rw [hsent]
      cases x with
      | none => rfl
      | some y => simp [sentTo, (hne y rfl).symm]
    rw [hs, withPeers_nil, setFor_of_ne hne]
    exact hi.worker u

/-- What the home has asked, and its phase after either answer. -/
inductive Question (cur : Data) (h : Home W) (role : W → Role) (tok : W → Tok W) (w : W) :
    Ask W → Prop
  | read (p : Ptr) (x : Option (W × Ptr)) (t : Bool) (ho : role w = .owner p)
      (hx : ∀ y ∈ x, y.1 ≠ w ∧ role y.1 = .readWait y.2 t)
      (hans : Phase cur h (Function.update (setFor x .sharer role) w (.sharer p))
        (Function.update tok w (.ack (.imm (some cur)))))
      (href : t = true → ∀ st, Phase cur h (Function.update (setFor x (fun _ => .idle) role) w (.owner p))
        (Function.update tok w (.ack (.readReply st)))) :
    Question cur h role tok w (readAsk x t)
  | write (p : Ptr) (x : Option (W × Ptr)) (t : Bool) (ho : role w = .owner p)
      (hx : ∀ y ∈ x, y.1 ≠ w ∧ role y.1 = .writeWait y.2 t)
      (hans : Phase cur h (Function.update (setFor x .grantWait role) w .idle)
        (Function.update tok w (.ack (.imm (writeData cur x)))))
      (href : t = true → ∀ st, Phase cur h (Function.update (setFor x .failWait role) w (.owner p))
        (Function.update tok w (.ack (.writeReply st)))) :
    Question cur h role tok w (writeAsk x t)
  | invalidate (p : Ptr) (a : Ask W) (ha : Cacher.Ask.isInvalidate a = true)
      (hs : role w = .sharer p)
      (hans : Phase cur h (Function.update role w .idle)
        (Function.update tok w (.ack (.imm none))))
      (href : a.tryLock = true → ∀ st, Phase cur h (Function.update role w (.sharer p))
        (Function.update tok w (.ack (.writeReply st)))) :
    Question cur h role tok w a

/-- The owner's answer and the worker it is for: nobody else changes. -/
theorem unused_update {o : W} {x : Option (W × Ptr)} {g : Ptr → Role} {ro : Role} {t' : Tok W}
    (hw : ∀ w, w = o ∨ (∃ y ∈ x, w = y.1) ∨ Unused role tok w) (u : W) :
    u = o ∨ (∃ y ∈ x, u = y.1) ∨
      Unused (Function.update (setFor x g role) o ro) (Function.update tok o t') u := by
  by_cases huo : u = o
  · exact .inl huo
  by_cases hux : ∃ y ∈ x, u = y.1
  · exact .inr (.inl hux)
  refine .inr (.inr ?_)
  have hu := ((hw u).resolve_left huo).resolve_left hux
  unfold Unused
  rw [Function.update_of_ne huo, Function.update_of_ne huo,
    setFor_of_ne fun y hy he => hux ⟨y, hy, he⟩]
  exact hu

theorem forward_update {o : W} {x : Option (W × Ptr)} {g : Ptr → Role} {ro : Role}
    (hx : ∀ y ∈ x, y.1 ≠ o ∧ tok y.1 = .none) (y : W × Ptr) (hy : y ∈ x) :
    Function.update (setFor x g role) o ro y.1 = g y.2 := by
  rw [Function.update_of_ne (hx y hy).1, setFor_self hy]

theorem tok_update {o : W} {x : Option (W × Ptr)} {t' : Tok W}
    (hx : ∀ y ∈ x, y.1 ≠ o ∧ tok y.1 = .none) (y : W × Ptr) (hy : y ∈ x) :
    y.1 ≠ o ∧ Function.update tok o t' y.1 = .none := by
  rw [Function.update_of_ne (hx y hy).1]
  exact hx y hy

/-- A copy answers: the others and the count stay as they are. -/
theorem Invalidating.answer {list : List (W × Ptr)} {x : Option (W × Ptr × Fetch)} {n : Int}
    {st : Option Status} {t : Bool} (hc : Invalidating list x n st t role tok) {p : Ptr}
    (hmem : (w, p) ∈ list) (hbw : (tok w).busy = true) {ro : Role} {t' : Tok W}
    (hb : t'.busy = true) (hnew : InvStage t st p ro t') :
    Invalidating list x n st t (Function.update role w ro) (Function.update tok w t') where
  nodup := hc.nodup
  count := by
    rw [hc.count]
    congr 2
    funext z
    by_cases hz : z.1 = w
    · rw [hz, Function.update_self, hb, hbw]
    · rw [Function.update_of_ne hz]
  tryLock := hc.tryLock
  kept hst := by
    obtain ⟨u, p', hu, hux, hut⟩ := hc.kept hst
    refine ⟨u, p', hu, hux, ?_⟩
    rw [Function.update_of_ne (by rintro rfl; simp [hut, Tok.busy] at hbw), hut]
  waits y hy := by
    obtain ⟨hl, htok⟩ := hc.waits y hy
    have hne : y.1 ≠ w := by
      rintro rfl
      simp [htok, Tok.busy] at hbw
    exact ⟨by rwa [Function.update_of_ne hne], by rwa [Function.update_of_ne hne]⟩
  copies u := by
    by_cases huw : u = w
    · subst huw
      exact .inr (.inl ⟨p, hmem, by simpa using hnew⟩)
    · unfold Unused
      rw [Function.update_of_ne huw, Function.update_of_ne huw]
      exact hc.copies u

theorem Phase.question (hph : Phase cur h role tok) {a : Ask W} (ht : tok w = .ask a) :
    Question cur h role tok w a := by
  cases hph with
  | unshared hp hs hl hk hm hw => simp [(hw w).2] at ht
  | shared d he hp hs hl hn hk hm hw => simp [(hw w).2] at ht
  | dirty d o p he hp hs hl hk ho' hw =>
    obtain rfl | hu := hw w
    · simp [ho'.2] at ht
    · simp [hu.2] at ht
  | toShared d o p x q he hp hs hl hk hstage hx hw =>
    obtain rfl : w = o := by
      obtain rfl | ⟨y, hy, rfl⟩ | hu := hw w
      · rfl
      · simp [(hx y hy).2] at ht
      · simp [hu.2] at ht
    cases hstage with
    | asked t hq ht' ho hx' =>
      obtain rfl := Tok.ask.inj (ht.symm.trans ht')
      refine .read p x t ho (fun y hy => ⟨(hx y hy).1, hx' y hy⟩) ?_ fun htry st => ?_
      · exact .toShared d w p x q he hp hs hl hk
          (.answered (by simp) (by simp) (forward_update hx)) (tok_update hx) (unused_update hw)
      · exact .toShared d w p x q he hp hs hl hk
          (.refused st (fun hn => (hq hn).trans htry) (by simp) (by simp) (forward_update hx)) (tok_update hx) (unused_update hw)
    | answered ht' => simp [ht'] at ht
    | refused st hq ht' => simp [ht'] at ht
  | take d o p x q he hp hs hl hk hstage hx hw =>
    obtain rfl : w = o := by
      obtain rfl | ⟨y, hy, rfl⟩ | hu := hw w
      · rfl
      · simp [(hx y hy).2] at ht
      · simp [hu.2] at ht
    cases hstage with
    | asked t hq ht' ho hx' =>
      obtain rfl := Tok.ask.inj (ht.symm.trans ht')
      refine .write p x t ho (fun y hy => ⟨(hx y hy).1, hx' y hy⟩) ?_ fun htry st => ?_
      · exact .take d w p x q he hp hs hl hk
          (.answered (by simp) (by simp) (forward_update hx)) (tok_update hx) (unused_update hw)
      · exact .take d w p x q he hp hs hl hk
          (.refused st (fun hn => (hq hn).trans htry) (by simp) (by simp) (forward_update hx)) (tok_update hx) (unused_update hw)
    | answered ht' => simp [ht'] at ht
    | refused st hq ht' => simp [ht'] at ht
  | invalidate d x q n st t hq he hp hs hk hkx hm hpos hc =>
    obtain ⟨y, hy, rfl⟩ | ⟨p, hmem, hstage⟩ | ⟨-, hu⟩ := hc.copies w
    · simp [(hc.waits y hy).tok] at ht
    · have hnext {ro : Role} {t' : Tok W} (hb : t'.busy = true) (hnew : InvStage t st p ro t') :
          Phase cur h (Function.update role w ro) (Function.update tok w t') :=
        .invalidate d x q n st t hq he hp hs hk hkx hm hpos (hc.answer hmem (by rw [ht]; rfl) hb hnew)
      rw [ht] at hstage
      generalize hr : role w = r at hstage
      cases hstage with
      | asked _ ha hat =>
        exact .invalidate p a ha hr (hnext rfl .answered)
          fun htry st' => hnext rfl (.refused st' (hat ▸ htry))
    · simp [hu.2] at ht

/-- A worker handles a question of the home. -/
theorem Inv.processAsk (hi : Inv f i cur b role tok) {a : Ask W} {c : Cacher W}
    (ht : tok w = .ask a) (hc : At f i cur b.home.mem (b.home.parked w) (role w) .none c)
    (hf : f.Allows c a) :
    ∃ role' tok', Inv f i cur (b.cacherStep w (c.processAsk a)) role' tok' := by
  have hv : Block.value i cur (c.processAsk a).evs = cur := by
    rw [processAsk_evs]
    rfl
  have hpark (hsent : (c.processAsk a).sent = [])
      (hat : At f i cur b.home.mem (b.home.parked w) (role w) (.ask a) (c.processAsk a).st) :
      ∃ role' tok', Inv f i cur (b.cacherStep w (c.processAsk a)) role' tok' := by
    have := hi.kept hsent (by rw [hv, ht]; exact hat) (.inr hv)
    rw [hv] at this
    exact ⟨_, _, this⟩
  cases hi.phase.question ht with
  | read p x t ho hx hans href =>
    rw [ho] at hc
    have e : c.processAsk (readAsk x t) =
        c.processRemoteReadCache (readAsk x t) (x.map Prod.fst) := by
      cases x <;> rfl
    have hlist (m : PeerMsg) : (x.map Prod.fst).toList.map (·, m) = x.toList.map fun y => (y.1, m) := by
      cases x <;> rfl
    obtain ⟨hsent, hat⟩ | ⟨hsent, htry, hat⟩ | ⟨hsent, hat⟩ :=
      hc.processRemoteReadCache (a := readAsk x t) (x.map Prod.fst)
    · exact hpark (e ▸ hsent) (by rw [e, ho]; exact hat)
    · obtain rfl : t = true := by
        cases x <;> exact htry
      rw [e]
      exact ⟨_, _, hi.forward (hsent.trans (hlist _)) (fun y hy => (hx y hy).1) hat
        (fun y hy => ((hx y hy).2 ▸ hi.worker y.1).hear_readFailed _) (href rfl _)⟩
    · rw [e]
      exact ⟨_, _, hi.forward (hsent.trans (hlist _)) (fun y hy => (hx y hy).1) hat
        (fun y hy => ((hx y hy).2 ▸ hi.worker y.1).hear_read) hans⟩
  | write p x t ho hx hans href =>
    rw [ho] at hc
    have e : c.processAsk (writeAsk x t) = c.processRemoteWriteCache (writeAsk x t) := by
      cases x <;> rfl
    have htake : (writeAsk x t).isTake = true := by
      cases x <;> rfl
    have hlist (m : PeerMsg) : (writeAsk x t).peers m = x.toList.map fun y => (y.1, m) := by
      cases x <;> rfl
    have hdata : (writeAsk x t).payload cur = writeData cur x := by
      cases x <;> rfl
    obtain ⟨hsent, hat⟩ | ⟨hsent, htry, hat⟩ | ⟨hsent, hat⟩ :=
      hc.processRemoteWriteCache_take htake
    · exact hpark (e ▸ hsent) (by rw [e, ho]; exact hat)
    · obtain rfl : t = true := by
        cases x <;> exact htry
      rw [e]
      exact ⟨_, _, hi.forward (hsent.trans (hlist _)) (fun y hy => (hx y hy).1) hat
        (fun y hy => ((hx y hy).2 ▸ hi.worker y.1).hear_writeFailed _) (href rfl _)⟩
    · rw [e]
      rw [hdata] at hat
      exact ⟨_, _, hi.forward (hsent.trans (hlist _)) (fun y hy => (hx y hy).1) hat
        (fun y hy => ((hx y hy).2 ▸ hi.worker y.1).hear_write) hans⟩
  | invalidate p a ha hs hans href =>
    rw [hs] at hc
    have e : c.processAsk a = c.processRemoteWriteCache a := by
      cases a <;> first | rfl | cases ha
    obtain ⟨hsent, hat | ⟨htry, hat⟩ | hat⟩ := hc.processRemoteWriteCache_invalidate ha hf
    · exact hpark (e ▸ hsent) (by rw [e, hs]; exact hat)
    · rw [e]
      exact ⟨_, _, hi.forward (x := none) (g := .sharer) (m := .imm cur) hsent (by rintro _ ⟨⟩) hat (by rintro _ ⟨⟩) (href htry _)⟩
    · rw [e]
      exact ⟨_, _, hi.forward (x := none) (g := .sharer) (m := .imm cur) hsent (by rintro _ ⟨⟩) hat (by rintro _ ⟨⟩) hans⟩

/-! ## The steps of a caching worker -/

section
variable {b' : Block W} {mem₀ : Data} {a : Act W}

theorem Good.kept (hi : Inv f i (Block.value i mem₀ b.log) b role tok) (hsent : o.sent = [])
    (hat : At f i (Block.value i (Block.value i mem₀ b.log) o.evs) b.home.mem (b.home.parked w)
      (role w) (tok w) o.st)
    (hval : (role w).isOwner = true ∨
      Block.value i (Block.value i mem₀ b.log) o.evs = Block.value i mem₀ b.log) :
    Good f i mem₀ (b.cacherStep w o) := by
  refine ⟨role, tok, ?_⟩
  rw [show (b.cacherStep w o).log = b.log ++ o.evs from rfl, Block.value_append]
  exact hi.kept hsent hat hval

/-- Only the worker's own state changes, in its role. -/
theorem Good.setCacher (hi : Inv f i (Block.value i mem₀ b.log) b role tok) {c : Cacher W}
    (hat : At f i (Block.value i mem₀ b.log) b.home.mem (b.home.parked w) (role w) (tok w) c) :
    Good f i mem₀ (b.setCacher w c) := by
  refine ⟨role, tok, hi.phase, fun u => ?_, hi.evicts⟩
  by_cases hu : u = w
  · subst hu
    simpa [Block.setCacher] using hat
  · simpa [Block.setCacher, hu] using hi.worker u

theorem Good.access (hg : Good f i mem₀ b) (q : Request) (ptr : Ptr)
    (hroom : (b.cacher w).hasRoom q) :
    Good f i mem₀ (b.cacherStep w ((b.cacher w).access i w q ptr)) := by
  obtain ⟨role, tok, hi⟩ := hg
  have hs : Served i (b.cacher w) w q ptr _ := served_access
  exact Good.kept hi hs.sent ((hi.worker w).served hs hroom) ((hi.worker w).cfg.served hs hroom).2

theorem Good.processAsk (hi : Inv f i (Block.value i mem₀ b.log) b role tok) {q : Ask W}
    {c : Cacher W} (ht : tok w = .ask q)
    (hc : At f i (Block.value i mem₀ b.log) b.home.mem (b.home.parked w) (role w) .none c)
    (hf : f.Allows c q) : Good f i mem₀ (b.cacherStep w (c.processAsk q)) := by
  obtain ⟨role', tok', hi'⟩ := hi.processAsk ht hc hf
  refine ⟨role', tok', ?_⟩
  have hlog : (b.cacherStep w (c.processAsk q)).log = b.log := by
    show b.log ++ (c.processAsk q).evs = b.log
    rw [processAsk_evs, List.append_nil]
  rw [hlog]
  exact hi'

theorem Good.recv (hg : Good f i mem₀ b) (hf : f.Permits (.recv w) b)
    (hs : Coherence.recv i w b = some b') : Good f i mem₀ b' := by
  obtain ⟨role, tok, hi⟩ := hg
  unfold Coherence.recv at hs
  dsimp only at hs
  split at hs
  · cases hs
  rename_i m ms hm
  simp only [Option.ite_none_right_eq_some, Option.some.injEq] at hs
  obtain ⟨-, rfl⟩ := hs
  cases m with
  | ask q =>
    obtain ⟨ht, hc⟩ := (hi.worker w).take_fromHome hm
    have hf := hf w q (by simp [Act.asked, hm])
    exact Good.processAsk hi ht hc ⟨hf.stale, hf.case3⟩
  | reply r =>
    obtain ⟨hat, hval, -⟩ := (hi.worker w).recvReply (w := w) hm
    exact Good.kept hi (recvReply_sent _ _) hat hval

theorem Good.recvPeer (hg : Good f i mem₀ b) {u : W} (hs : Coherence.recvPeer i u w b = some b') :
    Good f i mem₀ b' := by
  obtain ⟨role, tok, hi⟩ := hg
  unfold Coherence.recvPeer at hs
  simp only [Option.ite_none_right_eq_some, Option.map_eq_some_iff] at hs
  obtain ⟨-, ⟨m, ms⟩, hm, rfl⟩ := hs
  obtain ⟨hat, hval, -⟩ := (hi.worker w).recvPeer (w := w) hm
  exact Good.kept hi (recvPeer_sent _ _) hat hval

theorem Good.replay (hg : Good f i mem₀ b) (hf : f.Permits (.replay (some w)) b)
    (hs : Coherence.replay (some w) b = some b') : Good f i mem₀ b' := by
  obtain ⟨role, tok, hi⟩ := hg
  unfold Coherence.replay at hs
  dsimp only at hs
  split at hs
  · rename_i q rest hm
    cases hs
    obtain ⟨ht, hc⟩ := (hi.worker w).take_agenda hm
    have hf := hf w q (by simp [Act.asked, hm])
    exact Good.processAsk hi ht hc ⟨hf.stale, hf.case3⟩
  · rename_i rest hm
    cases hs
    refine Good.setCacher hi ((hi.worker w).same ⟨?_, rfl, rfl⟩ rfl rfl)
    simp [Cacher.asks, hm, List.filterMap_cons, List.filterMap_map, Function.comp_def]
  · cases hs

theorem Good.drop (hg : Good f i mem₀ b) (hs : Coherence.drop (some w) b = some b') :
    Good f i mem₀ b' := by
  obtain ⟨role, tok, hi⟩ := hg
  unfold Coherence.drop at hs
  dsimp only at hs
  split at hs
  · rename_i q rest hm
    cases hs
    refine Good.setCacher hi ((hi.worker w).same ⟨?_, rfl, rfl⟩ rfl rfl)
    simp [Cacher.asks, hm, List.filterMap_cons]
  · cases hs

end

end

end HwGam.Coherence
