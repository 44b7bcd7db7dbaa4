import HwGam.Rdma.Ring

/-!
# The submission queue is first in, first out

The queue of a context over any run of submissions and completions.
-/

namespace HwGam.Rdma

open Lib

variable {L : Limits} {s s' s₁ : Ctx} {r : RdmaRequest} {wr : SendWr} {fl : List Nat} {n : Nat}

/-! ## What a work request stands for -/

/-- A work request of the drain and the requests in it. Without a scatter/gather entry it holds one
empty message. -/
inductive Built (wr : SendWr) : List RdmaRequest → Prop where
  | oneSided (r : RdmaRequest) (hb : wr.body = r.body) (hr : ∀ msg, r.body ≠ .send msg) :
    Built wr [r]
  | sends (rs : List RdmaRequest) (msgs : List (List Byte)) (hne : msgs ≠ [])
      (hrs : rs.map (·.body) = msgs.map .send) (hb : wr.body = .send (Wire.merge msgs))
      (hsge : wr.numSge = 0 → msgs = [[]]) : Built wr rs

theorem Built.carries {rs : List RdmaRequest} (h : Built wr rs) : wr.Carries rs := by
  cases h with
  | oneSided r hb hr =>
    refine .inl ⟨r, rfl, ?_⟩
    rw [← hb] at hr ⊢
    cases hbody : wr.body with
    | send msg => exact absurd hbody (hr msg)
    | write => rw [SendWr.transmits, hbody]
    | read => rw [SendWr.transmits, hbody]
  | sends _ msgs hne hrs hb hsge =>
    refine .inr ⟨msgs, hne, hrs, ?_⟩
    simp only [SendWr.transmits, hb]
    split
    · rename_i h0
      rw [hsge h0]
      rfl
    · rfl

theorem merge_append_singleton {msgs : List (List Byte)} (hne : msgs ≠ []) (m : List Byte) :
    Wire.merge (msgs ++ [m]) = Wire.merge msgs ++ 0 :: m := by
  induction msgs with
  | nil => exact absurd rfl hne
  | cons x msgs ih =>
    cases msgs with
    | nil => simp [Wire.merge, List.intercalate]
    | cons y msgs =>
      rw [List.cons_append, List.cons_append, Wire.merge_cons_cons, ← List.cons_append,
        ih (by simp), Wire.merge_cons_cons]
      simp

/-- A request that starts a work request of its own. -/
theorem built_new (hb : wr.body = r.body)
    (hsge : wr.numSge = if r.body.length = 0 then 0 else 1) : Built wr [r] := by
  cases hbody : r.body with
  | send msg =>
    refine .sends [r] [msg] (by simp) (by simp [hbody]) (by simp [hb, hbody, Wire.merge,
      List.intercalate]) fun h0 => ?_
    rw [hsge, hbody, Body.length] at h0
    split at h0
    · rename_i hl
      simp [List.eq_nil_of_length_eq_zero hl]
    · cases h0
  | write => exact .oneSided r hb fun msg => by simp [hbody]
  | read => exact .oneSided r hb fun msg => by simp [hbody]

/-- Merging keeps the order, unless the work request is an empty SEND. -/
theorem Built.merge {rs : List RdmaRequest} {wr' : SendWr} (h : Built wr rs)
    (hm : Ctx.mergeInto wr r = some wr') (hlast : ∀ e ∈ rs.getLast?, ¬ BehindEmpty e r) :
    Built wr' (rs ++ [r]) := by
  obtain ⟨sg, msg, hw, hr, hlen, hsig, rfl⟩ := mergeInto_eq_some hm
  cases h with
  | oneSided x hb hx => exact absurd (hb.symm.trans hw) (hx sg)
  | sends _ msgs hne hrs hb hsge =>
    obtain rfl : Wire.merge msgs = sg := by simpa [hb] using hw
    refine .sends _ (msgs ++ [msg]) (by simp) (by simp [hrs, hr]) ?_ fun h0 => ?_
    · rw [merge_append_singleton hne]
    · exfalso
      obtain rfl := hsge h0
      obtain ⟨e, rfl⟩ : ∃ e, rs = [e] := by
        have := congrArg List.length hrs
        exact List.length_eq_one_iff.1 (by simpa using this)
      refine hlast e rfl ⟨by simpa using hrs, hsig, msg, hr, ?_⟩
      simpa [Wire.merge, List.intercalate] using hlen

/-! ## The drain -/

theorem Ctx.signal_body (s : Ctx) (r : RdmaRequest) (wr : SendWr) :
    (s.signal L r wr).2.body = wr.body ∧ (s.signal L r wr).2.numSge = wr.numSge ∧
      (s.signal L r wr).1.posted = s.posted ∧ (s.signal L r wr).1.submitted = s.submitted := by
  unfold Ctx.signal
  dsimp only
  split <;> exact ⟨rfl, rfl, rfl, rfl⟩

theorem beginQueued_frame (h : s.beginQueued L r = some s₁) :
    s₁.posted = s.posted ∧ s₁.submitted = s.submitted := by
  unfold Ctx.beginQueued at h
  split at h
  · obtain ⟨t, ht, hs⟩ := Option.bind_eq_some_iff.1 h
    obtain ⟨-, -, rfl⟩ := getFreeSlot_eq_some ht
    obtain rfl := Option.some.inj hs
    exact ⟨rfl, rfl⟩
  · obtain rfl := Option.some.inj h
    exact ⟨rfl, rfl⟩
  · obtain rfl := Option.some.inj h
    exact ⟨rfl, rfl⟩

theorem Built.congr {rs : List RdmaRequest} {wr' : SendWr} (h : Built wr rs) (hb : wr'.body = wr.body)
    (hsge : wr'.numSge = wr.numSge) : Built wr' rs := by
  cases h with
  | oneSided r h hr => exact .oneSided r (hb.trans h) hr
  | sends _ msgs hne hrs h h0 => exact .sends _ msgs hne hrs (hb.trans h) (hsge ▸ h0)

/-- The drain takes requests from the front of the queue into work requests, in order, and leaves
the others. -/
theorem drain_order {wrs wrs' : List SendWr} {blocks : List (List RdmaRequest)}
    {q : List RdmaRequest} (hdr : Ctx.drain L n q s wrs = some (s', wrs'))
    (hb : List.Forall₂ Built wrs blocks)
    (hq : ((blocks.head?.bind List.getLast?).toList ++ q).IsChain fun e r => ¬ BehindEmpty e r) :
    s'.posted = s.posted ∧ s'.submitted = s.submitted ∧ ∃ blocks', List.Forall₂ Built wrs' blocks' ∧
      blocks'.reverse.flatten ++ s'.pendingRequests = blocks.reverse.flatten ++ q := by
  induction q generalizing s wrs blocks with
  | nil =>
    obtain ⟨rfl, rfl⟩ := Prod.mk.inj (Option.some.inj hdr)
    exact ⟨rfl, rfl, blocks, hb, rfl⟩
  | cons r q ih =>
    have hrest : (r :: q).IsChain fun e r => ¬ BehindEmpty e r := (List.isChain_append.1 hq).2.1
    rw [Ctx.drain] at hdr
    cases hm : wrs.head?.bind (Ctx.mergeInto · r) with
    | some wr' =>
      rw [hm] at hdr
      obtain ⟨wr, hw, hm⟩ := Option.bind_eq_some_iff.1 hm
      obtain ⟨wrs, rfl⟩ := List.head?_eq_some_iff.1 hw
      obtain ⟨b, blocks, hb₁, hbs, rfl⟩ := List.forall₂_cons_left_iff.1 hb
      have hlast : ∀ e ∈ b.getLast?, ¬ BehindEmpty e r := by
        intro e he
        have hc : (e :: r :: q).IsChain fun e r => ¬ BehindEmpty e r := by
          simpa [Option.mem_def.1 he] using hq
        exact (List.isChain_cons_cons.1 hc).1
      have hsig := Ctx.signal_body (L := L) s r wr'
      have hbs' : List.Forall₂ Built ((s.signal L r wr').2 :: wrs) ((b ++ [r]) :: blocks) :=
        .cons ((hb₁.merge hm hlast).congr hsig.1 hsig.2.1) hbs
      obtain ⟨hp, hsub, blocks', hbs', horder⟩ := ih hdr hbs' (by simpa using hrest)
      exact ⟨hp.trans hsig.2.2.1, hsub.trans hsig.2.2.2, blocks', hbs', by simpa using horder⟩
    | none =>
      rw [hm] at hdr
      dsimp only at hdr
      split at hdr
      · obtain ⟨rfl, rfl⟩ := Prod.mk.inj (Option.some.inj hdr)
        exact ⟨rfl, rfl, blocks, hb, rfl⟩
      · obtain ⟨s₁, hs₁, hdr⟩ := Option.bind_eq_some_iff.1 hdr
        have hframe := beginQueued_frame hs₁
        have hsig := Ctx.signal_body (L := L) s₁ r (.new r.body (s.entryQueued r) false)
        obtain ⟨hp, hsub, blocks', hbs', horder⟩ := ih hdr (.cons (built_new hsig.1 hsig.2.1) hb)
          (by simpa using hrest)
        exact ⟨hp.trans (hsig.2.2.1.trans hframe.1), hsub.trans (hsig.2.2.2.trans hframe.2), blocks',
          hbs', by simpa using horder⟩

/-! ## Steps -/

structure Inv (L : Limits) (s : Ctx) : Prop extends Fifo L s where
  sound : Sound L s

theorem Inv.live (h : Inv L s) : Live L s s.inFlight := h.sound.live

theorem Inv.init : Inv L .init where
  order := ⟨[], .nil, rfl⟩
  limit h := absurd rfl h
  sound := .init

/-- A request that finds the context at its limit goes to the end of the queue. -/
theorem Inv.queue (h : Inv L s) (hfull : (L.maxPendingMsg : Int) ≤ s.pendingMsg) :
    Inv L { s.submit r with pendingRequests := s.pendingRequests ++ [r] } where
  order := by
    obtain ⟨blocks, hc, ho⟩ := h.order
    refine ⟨blocks, hc, ?_⟩
    simp [Ctx.submit, ← ho]
  limit _ := Int.le_antisymm h.live.limit hfull
  sound := h.sound.queue hfull

/-- Below the limit nothing is queued, and a request is posted behind all others. -/
theorem Inv.post_one (h : Inv L s) (hlt : s.pendingMsg < L.maxPendingMsg)
    {slot : Option Nat} {inline : Bool} (hb : Begun L (s.submit r) s₁ slot)
    (hs : (s₁.signal L r (.new r.body slot inline)).1.post
      [(s₁.signal L r (.new r.body slot inline)).2] = s') :
    Inv L s' ∧ s'.pendingMsg = s.pendingMsg + 1 ∧ s'.pendingRequests = [] ∧
      s'.submitted = s.submitted ++ [r] := by
  have hlive : Live L (s.submit r) s.inFlight := h.live.of_counters rfl rfl rfl rfl rfl rfl rfl
  obtain ⟨s₂, wr, hsig, -, hframe, hpm, hbody, hsge, -, -⟩ :=
    hb.signal r (.new r.body slot inline) hlive hlt rfl
  have hempty := h.sound.empty hlt
  have hq : s₂.pendingRequests = [] := hframe.pendingRequests.trans hempty
  have hsound := h.sound.post_one hlt hb hs
  rw [hsig] at hs
  subst hs
  obtain ⟨blocks, hc, ho⟩ := h.order
  refine ⟨⟨⟨⟨blocks ++ [[r]], ?_, ?_⟩, fun hne => absurd hq hne⟩, hsound⟩, hpm, hq, hframe.submitted⟩
  · simp only [Ctx.post, hframe.posted]
    exact List.rel_append hc (.cons (built_new hbody hsge).carries .nil)
  · simp only [Ctx.post, hq, hframe.submitted]
    simpa [Ctx.submit, hempty] using ho

theorem Inv.rdma_below (h : Inv L s) (hlt : s.pendingMsg < L.maxPendingMsg) :
    ∃ s', s.rdma L r none = some s' ∧ Inv L s' ∧ s'.pendingMsg = s.pendingMsg + 1 ∧
      s'.pendingRequests = [] ∧ s'.submitted = s.submitted ++ [r] := by
  have hlive : Live L (s.submit r) s.inFlight := h.live.of_counters rfl rfl rfl rfl rfl rfl rfl
  obtain ⟨s₁, hs₁, hb⟩ := hlive.begin (r := r) hlt
  rw [Ctx.rdma_eq, if_neg (by omega), Option.isSome_none, hs₁]
  exact ⟨_, rfl, h.post_one hlt hb rfl⟩

theorem Inv.rdma (h : Inv L s) : ∃ s', s.rdma L r none = some s' ∧ Inv L s' := by
  by_cases hfull : (L.maxPendingMsg : Int) ≤ s.pendingMsg
  · rw [Ctx.rdma_eq, if_pos hfull]
    exact ⟨_, rfl, h.queue hfull⟩
  · obtain ⟨s', hs', hi, -⟩ := h.rdma_below (r := r) (by omega)
    exact ⟨s', hs', hi⟩

theorem Inv.sendComp {x : Nat} {rest : List Nat} (h : Inv L s) (hx : s.inFlight = x :: rest)
    (hq : s.pendingRequests.IsChain fun e r => ¬ BehindEmpty e r) :
    ∃ s', s.sendComp L = some s' ∧ Inv L s' := by
  obtain ⟨s', hs', hsound⟩ := h.sound.sendComp hx
  refine ⟨s', hs', ⟨?_, hsound.limit⟩, hsound⟩
  have hqueue : (s.freed L x rest).pendingRequests = s.pendingRequests := rfl
  obtain ⟨old, hc, ho⟩ := h.order
  rw [Ctx.sendComp_eq hx, Ctx.processPendingRequests, hqueue] at hs'
  by_cases hempty : s.pendingRequests = []
  · rw [if_pos hempty] at hs'
    obtain rfl := Option.some.inj hs'
    exact ⟨old, hc, ho⟩
  · rw [if_neg hempty] at hs'
    obtain ⟨⟨t, wrs⟩, hdr, hs'⟩ := Option.bind_eq_some_iff.1 hs'
    obtain ⟨hne, hs'⟩ := Option.ite_none_left_eq_some.1 hs'
    obtain rfl := Option.some.inj hs'
    obtain ⟨hp, hsub, blocks, hb, horder⟩ := drain_order hdr .nil (by simpa using hq)
    refine ⟨old ++ blocks.reverse, ?_, ?_⟩
    · simp only [Ctx.post, hp]
      refine List.rel_append hc ?_
      rw [List.forall₂_map_left_iff]
      exact (List.rel_reverse hb).imp fun _ _ hb => hb.carries
    · simp only [Ctx.post, hsub, List.flatten_append, List.append_assoc, horder]
      simpa [Ctx.freed] using ho

/-! ## Runs -/

theorem Inv.step {a : Action} (h : Inv L s) (hok : NoneBehindEmpty a s)
    (hs : step L a s = some s') : Inv L s' := by
  cases a with
  | rdma r =>
    obtain ⟨t, ht, hi⟩ := h.rdma (r := r)
    obtain rfl : t = s' := Option.some.inj (ht.symm.trans hs)
    exact hi
  | sendSlot msg id signaled =>
    obtain ⟨hlt, s₁, slot, inline, hb, hs⟩ := h.live.sendSlot hs
    exact (h.post_one hlt hb hs).1
  | sendComp =>
    have hs : s.sendComp L = some s' := hs
    cases hx : s.inFlight with
    | nil => simp [Ctx.sendComp, hx] at hs
    | cons x rest =>
      obtain ⟨t, ht, hi⟩ := h.sendComp hx (hok.2 rfl)
      obtain rfl : t = s' := Option.some.inj (ht.symm.trans hs)
      exact hi

theorem inv_of_reaches (h : Reaches (step L) NoneBehindEmpty .init s) : Inv L s :=
  h.invariant .init fun _ _ _ hi hok hs => hi.step hok hs

/-- A one-sided write, an empty SEND and a SEND of one byte, none of which asks for a signal. -/
def plainWrite : RdmaRequest := ⟨.write none 0 0 8, 0, false⟩
def emptySend : RdmaRequest := ⟨.send [], 0, false⟩
def byteSend : RdmaRequest := ⟨.send [1], 0, false⟩

/-- Writes up to the limit. -/
theorem exists_filled (k : Nat) (hk : k ≤ L.maxPendingMsg) :
    ∃ s, Reaches (step L) InSlot .init s ∧ Inv L s ∧ s.pendingMsg = k ∧ s.pendingRequests = [] := by
  induction k with
  | zero => exact ⟨.init, .refl, .init, rfl, rfl⟩
  | succ k ih =>
    obtain ⟨s, hr, hi, hpm, -⟩ := ih (by omega)
    obtain ⟨s', hs', hi', hpm', hq', -⟩ := hi.rdma_below (r := plainWrite) (by omega)
    refine ⟨s', hr.tail (a := .rdma plainWrite) (fun msg hm => by cases hm) hs', hi', ?_, hq'⟩
    rw [hpm', hpm]
    rfl

/-- At the limit, an empty SEND and one of a byte are queued. -/
theorem exists_queued : ∃ s pre, Reaches (step L) InSlot .init s ∧ Inv L s ∧
    s.pendingMsg = L.maxPendingMsg ∧ s.pendingRequests = [emptySend, byteSend] ∧
    s.submitted = pre ++ [emptySend, byteSend] := by
  obtain ⟨s, hr, hi, hpm, hq⟩ := exists_filled (L := L) _ le_rfl
  have hs : ∀ {t : Ctx} (r : RdmaRequest), t.pendingMsg = L.maxPendingMsg →
      step L (.rdma r) t = some { t.submit r with pendingRequests := t.pendingRequests ++ [r] } := by
    intro t r ht
    change t.rdma L r none = _
    rw [Ctx.rdma_eq, if_pos (by omega)]
  have hempty : InSlot (.rdma emptySend) s := fun msg hm => by
    obtain rfl : [] = msg := by simpa [emptySend] using hm
    decide
  have hbyte : ∀ t, InSlot (.rdma byteSend) t := fun t msg hm => by
    obtain rfl : [1] = msg := by simpa [byteSend] using hm
    decide
  have hi₁ := hi.queue (r := emptySend) (by omega)
  refine ⟨_, s.submitted, (hr.tail hempty (hs emptySend hpm)).tail (hbyte _) (hs byteSend hpm),
    hi₁.queue (Int.le_of_eq hpm.symm), hpm, by simp [hq], by simp [Ctx.submit]⟩

/-- Their completion posts one work request for both that transmits nothing. -/
theorem sendComp_queued (hi : Inv L s) (hpm : s.pendingMsg = L.maxPendingMsg)
    (hq : s.pendingRequests = [emptySend, byteSend]) :
    ∃ s' wr, step L .sendComp s = some s' ∧ s'.posted = s.posted ++ [wr] ∧
      s'.submitted = s.submitted ∧ s'.pendingRequests = [] ∧ wr.transmits = .send [] := by
  obtain ⟨x, rest, hx⟩ : ∃ x rest, s.inFlight = x :: rest := by
    cases hf : s.inFlight with
    | cons x rest => exact ⟨x, rest, rfl⟩
    | nil =>
      have h1 := hi.live.sends
      have h2 := hi.live.wrs
      have h3 := hi.live.unsignaled
      have h4 := L.unsignaled_le
      simp only [hf, List.map_nil, List.sum_nil, Ctx.unsignaled] at h1 h2 h3
      omega
  have hlive : Live L (s.freed L x rest) rest := (hx ▸ hi.live).freed
  have hn : 1 ≤ sendsOf x + wrsOf x := hi.live.each x (by simp [hx])
  have hlt : (s.freed L x rest).pendingMsg < L.maxPendingMsg := by
    dsimp only [Ctx.freed]
    omega
  obtain ⟨s₁, hs₁, hbegun⟩ := hlive.beginQueued (r := emptySend) hlt
  obtain ⟨s₂, wr, hsignal, hlive₂, hframe, -, hbody, hsge, -, -⟩ :=
    hbegun.signal emptySend
      (.new emptySend.body ((s.freed L x rest).entryQueued emptySend) false) hlive hlt rfl
  have hmerge : Ctx.mergeInto wr byteSend = some { wr with body := .send [0, 1] } := by
    simp only [Ctx.mergeInto, hbody, SendWr.new, emptySend, byteSend]
    rfl
  have hdrain : Ctx.drain L (sendsOf x + wrsOf x) [emptySend, byteSend] (s.freed L x rest) [] =
      some ({ s₂ with pendingRequests := [] }, [{ wr with body := .send [0, 1] }]) := by
    have hn0 : ¬ 0 = sendsOf x + wrsOf x := by omega
    simp only [Ctx.drain, List.head?_nil, Option.bind_none, List.length_nil, hn0, if_false, hs₁,
      Option.bind_eq_bind, Option.bind_some, hsignal, List.head?_cons, hmerge,
      hlive₂.signal_merged (r := byteSend) rfl, List.tail_cons]
  have hqueue : (s.freed L x rest).pendingRequests = [emptySend, byteSend] := hq
  let wr' : SendWr := { wr with body := .send [0, 1], inline := decide (2 ≤ L.inlineSize) }
  refine ⟨({ s₂ with pendingRequests := [] } : Ctx).post [wr'], wr', ?_, ?_, ?_, rfl, ?_⟩
  · change Ctx.sendComp L s = _
    rw [Ctx.sendComp_eq hx, Ctx.processPendingRequests, hqueue, if_neg (by simp), hdrain]
    rfl
  · exact congrArg (· ++ [wr']) hframe.posted
  · exact hframe.submitted
  · have h0 : wr'.numSge = 0 := hsge
    simp only [SendWr.transmits, h0, if_true]
    rfl

/-- A work request that transmits nothing does not carry a request with a byte in it. -/
theorem not_carries_byteSend {rs : List RdmaRequest} (h : wr.transmits = .send [])
    (hrs : rs ≠ [] → rs.getLast? = some byteSend) : ¬ wr.Carries rs := by
  rintro (⟨r, rfl, ht⟩ | ⟨msgs, hne, hmap, ht⟩)
  · obtain rfl : r = byteSend := by simpa using hrs (by simp)
    simp [h, byteSend] at ht
  · obtain ⟨init, m, rfl⟩ : ∃ init m, msgs = init ++ [m] :=
      ⟨_, _, (List.dropLast_append_getLast hne).symm⟩
    have hm : m = [1] := by
      have hlast := congrArg List.getLast? hmap
      rw [List.getLast?_map, hrs (by rintro rfl; simp at hmap)] at hlast
      simpa [byteSend, eq_comm] using hlast
    rw [h, hm] at ht
    cases init with
    | nil => simp [Wire.merge, List.intercalate] at ht
    | cons x init =>
      rw [merge_append_singleton (by simp)] at ht
      simp at ht

end HwGam.Rdma
