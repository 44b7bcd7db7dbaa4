import HwGam.Coherence.Handlers
import HwGam.Coherence.Outcomes
import HwGam.Coherence.Safety

/-!
# Requests with several answers

An invalidation is answered by every copy it was sent to, a forwarded WRITE by the owner and by the
home. Both end exactly once, with the last answer, in whatever order the answers come and whatever
happens in between.
-/

namespace HwGam.Coherence

open Lib

variable {W : Type*} [DecidableEq W] {f : Slack} {i : Nat} {mem₀ : Data} {b b' b₀ : Block W} {w : W}
  {x : Option (W × Ptr × Fetch)} {n k : Int} {st : Option Status} {q : Request}

/-! ## The home while it waits -/

/-- The answer the home hears in a step. -/
def Act.heard (a : Act W) (b : Block W) : List (W × Ack) :=
  match a with
  | .recvHome w => match (b.cacher w).toHome with
    | .ack r :: _ => [(w, r)]
    | _ => []
  | _ => []

/-- LOCK_FAILED, as opposed to an acknowledgement. -/
def Ack.refuses : Ack → Bool
  | .imm _ => false
  | .readReply _ | .writeReply _ => true

/-- The workers that acknowledged. -/
def acknowledged (rs : List (W × Ack)) : List W :=
  (rs.filter fun r => !r.2.refuses).map Prod.fst

/-- In transition, the home only parks what it is asked. -/
theorem Home.processOwn_inTransition {h : Home W} (ht : h.entry.inTransition = true) (w : W)
    (o : Own) : h.processOwn w o = { st := h.parkRemote (w, o) } := by
  cases o with
  | read ptr t => simp only [processOwn, processRemoteRead, ht, if_true]
  | write ptr t => simp [processOwn, processRemoteWrite, ht, ownWrite]
  | writePermissionOnly ptr t => simp [processOwn, processRemoteWrite, ht, ownWrite]
  | activeInvalidate ptr => simp only [processOwn, processRemoteEvictShared, ht, if_true]
  | writeBack ptr => simp only [processOwn, processRemoteEvictDirty, ht, if_true]

omit [DecidableEq W] in
theorem Dir.getSList_unLock {e : Dir W} (ht : e.inTransition = true) (addr : Nat) :
    (e.unLock addr).getSList = e.getSList := by
  cases e with
  | none => simp [inTransition, getState, DirState.inTransition] at ht
  | some d =>
    obtain ⟨locks, -, h | ⟨hs, -⟩⟩ := Dir.unLock_some d addr
    · rw [h]
      rfl
    · simp [inTransition, getState, DirState.inTransition, hs] at ht

/-- A step without an answer keeps the pending request and the copies. -/
theorem HomeHandler.same {a : Act W} {o : Home.Result W} (h : HomeHandler i b a o)
    (ht : b.home.entry.inTransition = true) (hh : a.heard b = []) :
    o.st.pending = b.home.pending ∧ o.st.entry.getSList = b.home.entry.getSList := by
  cases h with
  | access q ptr =>
    have he : b.home.access i q = { st := b.home.park q, evs := [.park q] } := by
      simp only [Home.access, ht, if_true]
    rw [he]
    exact ⟨rfl, rfl⟩
  | unlock thread addr => exact ⟨rfl, Dir.getSList_unLock ht addr⟩
  | recv w m ms hc =>
    cases m with
    | own o =>
      rw [show b.home.recv i w (.own o) = b.home.processOwn w o from rfl,
        Home.processOwn_inTransition ht]
      exact ⟨rfl, rfl⟩
    | ack r => simp [Act.heard, hc] at hh
    | rdmaWrite d => exact ⟨rfl, rfl⟩
  | remote w o rest ha =>
    rw [Home.processOwn_inTransition (h := { b.home with agenda := rest }) ht]
    exact ⟨rfl, rfl⟩
  | load rest ha => exact ⟨rfl, rfl⟩
  | drop q rest ha => exact ⟨rfl, rfl⟩

/-! ## Answers to an invalidation -/

/-- How an answer to an invalidation is handled that is not the last. -/
theorem recv_more {h : Home W} {r : Ack} (hp : h.pending = some (invPending x n st q))
    (hr : r = .imm none ∨ ∃ s, r = .writeReply s) (hn : n ≠ 1) :
    ∃ st', (h.recv i w (.ack r)).st.pending = some (invPending x (n - 1) st' q) ∧
      (st'.isSome = true ↔ st.isSome = true ∨ r.refuses = true) ∧
      (h.recv i w (.ack r)).st.entry = if r.refuses then h.entry else h.entry.remove w := by
  have hn : ¬ n - 1 = 0 := by omega
  obtain rfl | ⟨s, rfl⟩ := hr
  · refine ⟨st, ?_⟩
    cases x with
    | none =>
      simp [Home.recv, Home.processImm, Home.land, hp, invPending, Home.processPendingWrite, hn,
        Ack.refuses]
    | some y =>
      simp [Home.recv, Home.processImm, Home.land, hp, invPending,
        Home.processPendingInvalidateForward, hn, Ack.refuses]
  · refine ⟨some s, ?_⟩
    cases x with
    | none =>
      simp [Home.recv, hp, invPending, Home.processRemoteWriteReply, hn, Ack.refuses]
    | some y =>
      simp [Home.recv, hp, invPending, Home.processRemoteWriteReply, hn, Ack.refuses]

/-- The last answer is an acknowledgement, like all before it. -/
theorem recv_last_granted {h : Home W} (hp : h.pending = some (invPending x 1 none q)) :
    (h.recv i w (.ack (.imm none))).st.pending = none ∧
    match x with
    | none => (h.recv i w (.ack (.imm none))).evs = [.effect q, .reply q] ∨
        (h.recv i w (.ack (.imm none))).evs = [.lock none q] ∨
        (h.recv i w (.ack (.imm none))).evs = [.park q]
    | some y =>
      (h.recv i w (.ack (.imm none))).st.entry.getState = .dirty ∧
        (h.recv i w (.ack (.imm none))).st.entry.getSList = [(y.1, y.2.1)] ∧
        (h.recv i w (.ack (.imm none))).sent.getLast? = some (y.1, .reply (.writeReply none)) := by
  cases x with
  | none =>
    have he : h.recv i w (.ack (.imm none)) =
        Home.finishWrite i { h with entry := h.entry.remove w } q := by
      simp [Home.recv, Home.processImm, Home.land, hp, invPending, Home.processPendingWrite]
    rw [he]
    unfold Home.finishWrite
    dsimp only
    split
    · split
      · exact ⟨rfl, .inr (.inl rfl)⟩
      · exact ⟨rfl, .inr (.inr rfl)⟩
    · exact ⟨rfl, .inl rfl⟩
  | some y =>
    have he : h.recv i w (.ack (.imm none)) =
        h.processPendingInvalidateForward w y.1 y.2.1 y.2.2 1 none := by
      simp [Home.recv, Home.processImm, Home.land, hp, invPending]
    rw [he]
    unfold Home.processPendingInvalidateForward
    simp only [Int.sub_self, if_true, Home.grant, Home.done, Home.processToServe]
    refine ⟨trivial, ?_, ?_, ?_⟩
    · cases h.entry.remove w <;> rfl
    · cases h.entry.remove w <;> rfl
    · simp

/-- The last answer when some copy refused. -/
theorem recv_last_failed {h : Home W} {r : Ack} (hp : h.pending = some (invPending x 1 st q))
    (hr : r = .imm none ∨ ∃ s, r = .writeReply s) (hf : st.isSome = true ∨ r.refuses = true) :
    (h.recv i w (.ack r)).st.pending = none ∧
    (h.recv i w (.ack r)).st.entry =
      (if r.refuses then h.entry else h.entry.remove w).setState .shared ∧
    match x with
    | none => (h.recv i w (.ack r)).evs = [.fail q]
    | some y => ∃ s, (h.recv i w (.ack r)).sent = [(y.1, .reply (.writeReply (some s)))] := by
  obtain rfl | ⟨s, rfl⟩ := hr
  · obtain ⟨s, rfl⟩ : ∃ s, st = some s := Option.isSome_iff_exists.mp (hf.resolve_right (by simp [Ack.refuses]))
    cases x with
    | none =>
      simp [Home.recv, Home.processImm, Home.land, hp, invPending, Home.processPendingWrite,
        Home.undo, Home.done, Home.processToServe, Ack.refuses]
    | some y =>
      simp [Home.recv, Home.processImm, Home.land, hp, invPending, Home.undoForward, Home.done,
        Home.processPendingInvalidateForward, Home.processToServe, Ack.refuses]
  · cases x with
    | none =>
      simp [Home.recv, hp, invPending, Home.processRemoteWriteReply, Home.undo, Home.done,
        Home.processToServe, Ack.refuses]
    | some y =>
      simp [Home.recv, hp, invPending, Home.processRemoteWriteReply, Home.undoForward, Home.done,
        Home.processToServe, Ack.refuses]

/-- What the home knows while an invalidation is pending, and who may answer it. -/
structure Invalidates (b : Block W) (x : Option (W × Ptr × Fetch)) (n : Int) (st : Option Status) :
    Prop where
  inTransition : b.home.entry.inTransition = true
  pos : 0 < n
  nodup : (b.home.entry.getSList.map Prod.fst).Nodup
  answer : ∀ w r ms, (b.cacher w).toHome = .ack r :: ms →
    r = .imm none ∨ ∃ s, r = .writeReply s
  /-- a copy that has refused, or refuses now, is still listed -/
  kept : ∀ w r ms, (b.cacher w).toHome = .ack r :: ms → (st.isSome = true ∨ r.refuses = true) →
    ∃ c ∈ b.home.entry.getSList, r.refuses = true ∨ c.1 ≠ w

theorem Good.invalidates (hg : Good f i mem₀ b)
    (hp : b.home.pending = some (invPending x n st q)) : Invalidates b x n st := by
  obtain ⟨role, tok, hi⟩ := hg
  have htr := hi.phase.inTransition
  rw [hp] at htr
  cases hi.phase with
  | unshared hp' => simp [hp'] at hp
  | shared d he hp' => simp [hp'] at hp
  | dirty d o p he hp' => simp [hp'] at hp
  | toShared d o p x' q' he hp' =>
    rw [hp'] at hp
    cases x <;> cases x' <;> cases hp
  | take d o p x' q' he hp' =>
    rw [hp'] at hp
    cases x <;> cases x' <;> cases hp
  | invalidate d x' q' n' st' t hq he hp' hs hk hkx hm hpos hc =>
    obtain ⟨rfl, rfl⟩ : n = n' ∧ st = st' := by
      rw [hp'] at hp
      cases x <;> cases x' <;> simp_all [invPending]
    have hlist : b.home.entry.getSList = d.shared := by
      rw [he]
      rfl
    have hans {w : W} {r : Ack} (ht : tok w = .ack r) :
        ∃ p, (w, p) ∈ d.shared ∧ (r = .imm none ∨ ∃ s, r = .writeReply s) := by
      obtain ⟨y, hy, rfl⟩ | ⟨p, hmem, hstage⟩ | ⟨-, hu⟩ := hc.copies w
      · simp [(hc.waits y hy).tok] at ht
      · refine ⟨p, hmem, ?_⟩
        rw [ht] at hstage
        generalize role w = ro at hstage
        cases hstage with
        | answered => exact .inl rfl
        | refused s => exact .inr ⟨s, rfl⟩
      · simp [hu.2] at ht
    refine ⟨htr, hpos, hlist ▸ hc.nodup, fun w r ms hr => ?_, fun w r ms hr hor => ?_⟩
    · obtain ⟨p, -, h⟩ := hans (hi.recv_ack hr).ack
      exact h
    · have ht := (hi.recv_ack hr).ack
      obtain hst | href := hor
      · obtain ⟨u, p, hmem, -, hut⟩ := hc.kept hst
        refine ⟨(u, p), hlist ▸ hmem, .inr ?_⟩
        rintro rfl
        simp [hut] at ht
      · obtain ⟨p, hmem, -⟩ := hans ht
        exact ⟨(w, p), hlist ▸ hmem, .inl href⟩

theorem Dir.getSList_remove (e : Dir W) (w : W) : (e.remove w).getSList = without e.getSList w := by
  cases e with
  | none => rfl
  | some d =>
    simp only [remove]
    split
    · rename_i h
      exact (List.isEmpty_iff.mp (Bool.and_eq_true_iff.mp h).1).symm
    · rfl

/-- An invalidation that had `k` copies to hear of in `b₀`, after the answers `rs`. -/
structure Attempt (b₀ : Block W) (x : Option (W × Ptr × Fetch)) (k : Nat) (q : Request)
    (rs : List (W × Ack)) (b : Block W) : Prop where
  pending : ∃ st, b.home.pending = some (invPending x (k - rs.length) st q) ∧
    (st.isSome = true ↔ ∃ r ∈ rs, r.2.refuses = true)
  copies : b.home.entry.getSList =
    b₀.home.entry.getSList.filter fun c => c.1 ∉ acknowledged rs

/-- The copies that are left after one more answer. -/
theorem copies_after {rs : List (W × Ack)} {r : Ack} {e : Dir W} {list : List (W × Ptr)}
    (hn : (e.getSList.map Prod.fst).Nodup)
    (hc : e.getSList = list.filter fun c => c.1 ∉ acknowledged rs) :
    (if r.refuses then e else e.remove w).getSList =
      list.filter fun c => c.1 ∉ acknowledged (rs ++ [(w, r)]) := by
  cases hr : r.refuses with
  | true =>
    have : acknowledged (rs ++ [(w, r)]) = acknowledged rs := by simp [acknowledged, hr]
    simpa [this] using hc
  | false =>
    have : acknowledged (rs ++ [(w, r)]) = acknowledged rs ++ [w] := by simp [acknowledged, hr]
    rw [if_neg (by simp), Dir.getSList_remove, without_eq_filter hn, hc, this, List.filter_filter]
    refine List.filter_congr fun c _ => ?_
    simp only [List.mem_append, List.mem_singleton, not_or, ne_eq]
    grind

/-- The step hears an answer to the invalidation of `b₀`, or nothing changes. -/
theorem heard_cases {a : Act W} (hs : step i a b = some b') :
    a.heard b = [] ∨ ∃ w r ms, a = .recvHome w ∧ a.heard b = [(w, r)] ∧
      (b.cacher w).toHome = .ack r :: ms ∧ HomeRan b (b.home.recv i w (.ack r)) b' := by
  obtain ⟨o, hh, hran⟩ | ⟨w, o, hh, hran⟩ := step_inv hs
  · cases hh with
    | recv w m ms hc =>
      cases m with
      | ack r => exact .inr ⟨w, r, ms, rfl, by simp [Act.heard, hc], hc, hran⟩
      | own o => exact .inl (by simp [Act.heard, hc])
      | rdmaWrite d => exact .inl (by simp [Act.heard, hc])
    | _ => exact .inl rfl
  · cases hh <;> exact .inl rfl

theorem Attempt.step {rs : List (W × Ack)} {k : Nat} {a : Act W} (h : Attempt b₀ x k q rs b)
    (hg : Good f i mem₀ b) (hs : Coherence.step i a b = some b')
    (hlen : (rs ++ a.heard b).length < k) : Attempt b₀ x k q (rs ++ a.heard b) b' := by
  obtain ⟨st, hp, hst⟩ := h.pending
  have hinv := hg.invalidates hp
  obtain hh | ⟨w, r, ms, -, hh, hc, hran⟩ := heard_cases hs
  · rw [hh, List.append_nil]
    have hsame : b'.home.pending = b.home.pending ∧
        b'.home.entry.getSList = b.home.entry.getSList := by
      obtain ⟨o, hho, hran⟩ | ⟨w, o, -, hran⟩ := step_inv hs
      · rw [hran.home]
        exact hho.same hinv.inTransition hh
      · rw [hran.home]
        exact ⟨rfl, rfl⟩
    exact ⟨⟨st, hsame.1.trans hp, hst⟩, hsame.2.trans h.copies⟩
  · rw [hh] at hlen ⊢
    simp only [List.length_append, List.length_singleton] at hlen
    obtain ⟨st', hp', hst', he⟩ := recv_more (i := i) (w := w) hp (hinv.answer w r ms hc) (by omega)
    refine ⟨⟨st', ?_, ?_⟩, ?_⟩
    · rw [hran.home, hp']
      congr 2
      simp only [List.length_append, List.length_singleton]
      omega
    · rw [hst', hst]
      simp [or_and_right, exists_or]
    · rw [hran.home, he]
      exact copies_after hinv.nodup h.copies

theorem attempt_of_traced {ok : Act W → Block W → Prop} {rs : List (W × Ack)} {k : Nat}
    (hok : ∀ a b, ok a b → a.Room b ∧ f.Permits a b) (hg : Good f i mem₀ b₀)
    (hp : b₀.home.pending = some (invPending x k none q))
    (ht : Traced (Coherence.step i) ok Act.heard b₀ rs b) (hlen : rs.length < k) :
    Attempt b₀ x k q rs b ∧ Good f i mem₀ b := by
  induction ht with
  | refl =>
    refine ⟨⟨⟨none, by simpa using hp, by simp⟩, ?_⟩, hg⟩
    simp [acknowledged]
  | tail _ hok' hs ih =>
    have hlen' := hlen
    rw [List.length_append] at hlen'
    obtain ⟨h, hg'⟩ := ih (by omega)
    exact ⟨h.step hg' hs hlen, hg'.step (hok _ _ hok').1 (hok _ _ hok').2 hs⟩

/-- The write takes effect, or the lock is had (or tried again, where readers have it); a worker
gets the block to itself. -/
def Obtained (x : Option (W × Ptr × Fetch)) (q : Request) (b b' : Block W) : Prop :=
  match x with
  | none => newEvents b b' = [.effect q, .reply q] ∨ newEvents b b' = [.lock none q] ∨
      newEvents b b' = [.park q]
  | some y => b'.home.entry.getState = .dirty ∧ b'.home.entry.getSList = [(y.1, y.2.1)] ∧
      (b'.cacher y.1).fromHome.getLast? = some (.reply (.writeReply none))

/-- The try-lock ends with LOCK_FAILED, here or at the worker it was for. -/
def Denied (x : Option (W × Ptr × Fetch)) (q : Request) (b b' : Block W) : Prop :=
  match x with
  | none => newEvents b b' = [.fail q]
  | some y => ∃ s, (b'.cacher y.1).fromHome.getLast? = some (.reply (.writeReply (some s)))

omit [DecidableEq W] in
theorem Obtained.not_denied (h : Obtained x q b b') : ¬ Denied x q b b' := by
  intro hd
  cases x with
  | none =>
    simp only [Obtained, Denied] at h hd
    simp [hd] at h
  | some y =>
    obtain ⟨-, -, h⟩ := h
    obtain ⟨s, hd⟩ := hd
    simp [h] at hd

/-- The end of an invalidation: the copies that are left, and the outcome. -/
structure Ended (b₀ : Block W) (x : Option (W × Ptr × Fetch)) (q : Request) (rs : List (W × Ack))
    (b b' : Block W) : Prop where
  pending : b'.home.pending = none
  obtained : Obtained x q b b' ↔ ∀ r ∈ rs, r.2.refuses = false
  denied : Denied x q b b' ↔ ∃ r ∈ rs, r.2.refuses = true
  undone : (∃ r ∈ rs, r.2.refuses = true) → b'.home.entry.getState = .shared ∧
    b'.home.entry.getSList = b₀.home.entry.getSList.filter fun c => c.1 ∉ acknowledged rs

omit [DecidableEq W] in
theorem Dir.getState_setState {e : Dir W} (h : e.getSList ≠ []) (s : DirState) :
    (e.setState s).getState = s := by
  cases e with
  | none => exact absurd rfl h
  | some d => rfl

omit [DecidableEq W] in
theorem Dir.getSList_setState (e : Dir W) (s : DirState) : (e.setState s).getSList = e.getSList := by
  cases e <;> rfl

theorem Attempt.last {rs : List (W × Ack)} {k : Nat} {r : Ack} (h : Attempt b₀ x k q rs b)
    (hg : Good f i mem₀ b) (hs : Coherence.step i (.recvHome w) b = some b')
    (hh : (Act.recvHome w).heard b = [(w, r)]) (hlen : rs.length + 1 = k) :
    Ended b₀ x q (rs ++ [(w, r)]) b b' := by
  obtain ⟨st, hp, hst⟩ := h.pending
  have hinv := hg.invalidates hp
  obtain ⟨w', r', ms, ha, hh', hc, hran⟩ := (heard_cases hs).resolve_left (by simp [hh])
  obtain ⟨rfl, rfl⟩ : w = w' ∧ r = r' := by simpa [hh] using hh'
  have hn : (k : Int) - rs.length = 1 := by omega
  rw [hn] at hp
  have hev : newEvents b b' = (b.home.recv i w (.ack r)).evs := by
    simp [newEvents, hran.log]
  have hmore : (∃ r' ∈ rs ++ [(w, r)], r'.2.refuses = true) ↔
      st.isSome = true ∨ r.refuses = true := by
    rw [hst]
    simp [or_and_right, exists_or]
  by_cases hfail : st.isSome = true ∨ r.refuses = true
  · obtain ⟨hp', he, hx⟩ := recv_last_failed (i := i) (w := w) hp (hinv.answer w r ms hc) hfail
    have hden : Denied x q b b' := by
      cases x with
      | none => exact hev.trans hx
      | some y =>
        obtain ⟨s, hx⟩ := hx
        refine ⟨s, ?_⟩
        rw [hran.sent y.1, hx, sentTo_singleton_self]
        simp
    have hcopies := copies_after (w := w) (r := r) hinv.nodup h.copies
    refine ⟨by rw [hran.home, hp'], ⟨fun ho => absurd hden ho.not_denied, fun hall => ?_⟩,
      ⟨fun _ => hmore.mpr hfail, fun _ => hden⟩, fun _ => ⟨?_, ?_⟩⟩
    · obtain ⟨r', hr', href⟩ := hmore.mpr hfail
      simp [hall r' hr'] at href
    · rw [hran.home, he]
      obtain ⟨c, hmem, hcw⟩ := hinv.kept w r ms hc hfail
      refine Dir.getState_setState (List.ne_nil_of_mem (a := c) ?_) _
      cases href : r.refuses with
      | true => exact hmem
      | false =>
        rw [if_neg (by simp), Dir.getSList_remove]
        exact (mem_without hinv.nodup).mpr ⟨hmem, hcw.resolve_left (by simp [href])⟩
    · rw [hran.home, he, Dir.getSList_setState, hcopies]
  · obtain ⟨hst, href⟩ := not_or.mp hfail
    obtain rfl : st = none := by simpa using hst
    obtain rfl : r = .imm none := by
      obtain rfl | ⟨s, rfl⟩ := hinv.answer w r ms hc
      · rfl
      · exact absurd rfl href
    obtain ⟨hp', hx⟩ := recv_last_granted (i := i) (w := w) hp
    have hob : Obtained x q b b' := by
      cases x with
      | none =>
        rw [Obtained, hev]
        exact hx
      | some y =>
        obtain ⟨hs', hl', hsent⟩ := hx
        refine ⟨by rw [hran.home, hs'], by rw [hran.home, hl'], ?_⟩
        obtain ⟨init, hinit⟩ := List.getLast?_eq_some_iff.mp hsent
        rw [hran.sent y.1, hinit, sentTo_append, sentTo_singleton_self]
        simp
    have hall : ∀ r' ∈ rs ++ [(w, .imm none)], r'.2.refuses = false := by
      intro r' hr'
      cases href : r'.2.refuses with
      | false => rfl
      | true => exact absurd (hmore.mp ⟨r', hr', href⟩) hfail
    exact ⟨by rw [hran.home, hp'], ⟨fun _ => hall, fun _ => hob⟩,
      ⟨fun hd => absurd hd hob.not_denied, fun hex => absurd (hmore.mp hex) hfail⟩,
      fun hex => absurd (hmore.mp hex) hfail⟩

/-! ## A forwarded WRITE -/

/-- An answer to a request of a worker: of the home, or of the owner the home forwarded it to. -/
inductive Answer (W : Type*)
  | home (r : Reply)
  | owner (o : W) (m : PeerMsg)

/-- The answer worker `w` takes in a step; the data of a one-sided write are none. -/
def Act.answers (w : W) (a : Act W) (b : Block W) : List (Answer W) :=
  match a with
  | .recv v => if v = w then
      match (b.cacher w).fromHome with
      | .reply (.rdmaWrite _) :: _ => []
      | .reply r :: _ => [.home r]
      | _ => []
    else []
  | .recvPeer o v => if v = w then
      match takeFrom o (b.cacher w).fromPeers with
      | some (m, _) => [.owner o m]
      | none => []
    else []
  | _ => []

/-- The line waits in CACHE_TO_DIRTY, with `n` in the counter of its pending request. -/
structure Cacher.Waits (c : Cacher W) (op : Fetch) (n : Int) (q : Request) : Prop where
  line : ∃ l, c.line = some l ∧ l.state = .toDirty
  pending : c.pending = some (.fetch op n none q)

variable {c : Cacher W} {op : Fetch} {n : Int}

omit [DecidableEq W] in
theorem Cacher.Waits.same {c' : Cacher W} (h : c.Waits op n q) (hs : c.Same c') : c'.Waits op n q :=
  ⟨by rw [hs.line]; exact h.line, by rw [hs.pending]; exact h.pending⟩

omit [DecidableEq W] in
theorem Cacher.Waits.processAsk (h : c.Waits op n q) (a : Ask W) :
    (c.processAsk a).st.Waits op n q := by
  obtain ⟨l, hl, hs⟩ := h.line
  obtain ⟨hl', hp'⟩ := processAsk_inTransition hl (by rw [hs]; rfl) a
  exact ⟨⟨l, hl'.trans hl, hs⟩, hp'.trans h.pending⟩

omit [DecidableEq W] in
theorem Cacher.Waits.access (h : c.Waits op n q) (w : W) (q' : Request) (ptr : Ptr) :
    (c.access i w q' ptr).st.Waits op n q := by
  obtain ⟨l, hl, hs⟩ := h.line
  have hline {l' : Line} (hl' : c.line = some l') : l'.state = .toDirty := by
    obtain rfl : l = l' := Option.some.inj (hl.symm.trans hl')
    exact hs
  have ho : Served i c w q' ptr (c.access i w q' ptr) := served_access
  generalize c.access i w q' ptr = o at ho ⊢
  cases ho with
  | hit | fail => exact h
  | park => exact ⟨h.line, h.pending⟩
  | miss hn => simp [hl] at hn
  | upgrade l' hl' hs' => simp [hline hl'] at hs'
  | effect l' hl' hs' => simp [hline hl'] at hs'
  | rlock l' hl' hs' => simp [hline hl'] at hs'
  | wlock l' hl' hs' => simp [hline hl'] at hs'

/-- A step without an answer leaves the request waiting. -/
theorem Cacher.Waits.handler {a : Act W} {o : Cacher.Result W} (h : (b.cacher w).Waits op n q)
    (ho : CacherHandler i w (b.cacher w) a o) (ha : a.answers w b = []) : o.st.Waits op n q := by
  obtain ⟨l, hl, hs⟩ := h.line
  have hp := h.pending
  cases ho with
  | access q' ptr => exact h.access w q' ptr
  | unlock thread addr =>
    exact ⟨⟨{ l with locks := l.locks.unLock addr }, by simp [unLock, mapLine, processToServe, hl], hs⟩, hp⟩
  | evict c' he => simp [evict, hl, hs] at he
  | complete o ho => simp [complete, hp] at ho
  | recv m ms hc =>
    cases m with
    | ask x => exact Waits.processAsk (c := { b.cacher w with fromHome := ms }) ⟨h.line, hp⟩ x
    | reply r =>
      cases r with
      | rdmaWrite d =>
        exact ⟨⟨{ l with data := d }, by simp [recvHome, land, mapLine, hl], hs⟩, hp⟩
      | _ => simp [Act.answers, hc] at ha
  | recvPeer v m ms hc => simp [Act.answers, hc] at ha
  | remote x rest hag =>
    exact Waits.processAsk (c := { b.cacher w with agenda := rest }) ⟨h.line, hp⟩ x
  | load rest hag => exact ⟨h.line, hp⟩
  | drop q' rest hag => exact ⟨h.line, hp⟩

theorem Cacher.Waits.step {a : Act W} (h : (b.cacher w).Waits op n q)
    (hs : Coherence.step i a b = some b') (ha : a.answers w b = []) : (b'.cacher w).Waits op n q := by
  obtain ⟨o, -, hran⟩ | ⟨v, o, ho, hran⟩ := step_inv hs
  · exact h.same (hran.cacher w)
  · by_cases hv : w = v
    · subst hv
      exact (h.handler ho ha).same hran.self
    · exact h.same (hran.cacher w hv)

/-- The request is over: the line is dirty, and the write has taken effect or the lock is had (or
tried again, where readers have it). -/
structure Finished (w : W) (q : Request) (b b' : Block W) : Prop where
  line : ∃ l, (b'.cacher w).line = some l ∧ l.state = .dirty
  pending : (b'.cacher w).pending = none
  events : newEvents b b' = [.effect q, .reply q] ∨ newEvents b b' = [.lock (some w) q] ∨
    newEvents b b' = [.park q]

omit [DecidableEq W] in
theorem Cacher.finishWrite_cases (c : Cacher W) (w : W) (q : Request) {l : Line}
    (hl : c.line = some l) :
    (∃ l', (c.finishWrite i w q).st.line = some l' ∧ l'.state = .dirty) ∧
    (c.finishWrite i w q).st.pending = none ∧
    ((c.finishWrite i w q).evs = [.effect q, .reply q] ∨
      (c.finishWrite i w q).evs = [.lock (some w) q] ∨ (c.finishWrite i w q).evs = [.park q]) := by
  unfold finishWrite
  dsimp only
  split
  · split
    · exact ⟨⟨{ l with state := .dirty, data := q.apply i l.data },
        by simp [done, park, processToServe, mapLine, hl], rfl⟩, rfl, .inr (.inr rfl)⟩
    · exact ⟨⟨{ l with
          state := .dirty, data := q.apply i l.data, locks := l.locks.insert q.addr exclusive },
        by simp [done, processToServe, mapLine, hl], rfl⟩, rfl, .inr (.inl rfl)⟩
  · exact ⟨⟨{ l with state := .dirty, data := q.apply i l.data },
      by simp [done, processToServe, mapLine, hl], rfl⟩, rfl, .inl rfl⟩

/-- The payload of an answer to a forwarded WRITE, and the change of the counter. -/
def Answer.part : Answer W → Option (Option Data × Int)
  | .home (.imm none) => some (none, 1)
  | .owner _ (.imm d) => some (some d, -1)
  | _ => none

omit [DecidableEq W] in
theorem Answer.part_count {y : Answer W} {d : Option Data} {m : Int}
    (h : y.part = some (d, m)) : m = 1 ∨ m = -1 := by
  unfold part at h
  split at h
  · cases h
    exact .inl rfl
  · cases h
    exact .inr rfl
  · cases h

omit [DecidableEq W] in
/-- One of the two answers to a forwarded WRITE. -/
theorem Cacher.Waits.processImm (h : c.Waits op n q) (hop : op ≠ .read) (w : W) (fromHome : Bool)
    (d : Option Data) :
    let m := if fromHome then n + 1 else n - 1
    (m ≠ 0 → (c.processImm i w fromHome d).st.Waits op m q ∧ (c.processImm i w fromHome d).evs = []) ∧
    (m = 0 → c.processImm i w fromHome d = (c.land d).finishWrite i w q) := by
  obtain ⟨l, hl, hs⟩ := h.line
  rw [processImm_write fromHome h.pending hop]
  simp only [processPendingWrite, Option.isSome_none, Bool.false_eq_true, if_false]
  refine ⟨fun hm => ?_, fun hm => by rw [if_pos hm]⟩
  rw [if_neg hm]
  refine ⟨⟨?_, rfl⟩, rfl⟩
  cases d with
  | none => exact ⟨l, hl, hs⟩
  | some d => exact ⟨{ l with data := d }, by simp [land, mapLine, hl], hs⟩

/-- Such an answer is taken. -/
theorem part_taken {a : Act W} {y : Answer W} {d : Option Data} {m : Int}
    (hs : Coherence.step i a b = some b') (ha : a.answers w b = [y]) (hy : y.part = some (d, m)) :
    ∃ c fromHome, (b.cacher w).Same c ∧ m = (if fromHome then 1 else -1) ∧
      CacherRan b w (c.processImm i w fromHome d) b' := by
  obtain ⟨o, ho, -⟩ | ⟨v, o, ho, hran⟩ := step_inv hs
  · cases ho <;> simp [Act.answers] at ha
  · cases ho with
    | recv x ms hc =>
      obtain rfl : v = w := by
        by_contra hv
        simp [Act.answers, hv] at ha
      cases x with
      | ask => simp [Act.answers, hc] at ha
      | reply r =>
        cases r with
        | imm d' =>
          obtain rfl : .home (.imm d') = y := by simpa [Act.answers, hc] using ha
          cases d' with
          | some d' => cases hy
          | none =>
            cases hy
            exact ⟨{ b.cacher v with fromHome := ms }, true, ⟨rfl, rfl, rfl, rfl, rfl⟩, rfl, hran⟩
        | rdmaWrite d' => simp [Act.answers, hc] at ha
        | readReply st =>
          obtain rfl : .home (.readReply st) = y := by simpa [Act.answers, hc] using ha
          cases hy
        | writeReply st =>
          obtain rfl : .home (.writeReply st) = y := by simpa [Act.answers, hc] using ha
          cases hy
    | recvPeer u x ms hc =>
      obtain rfl : v = w := by
        by_contra hv
        simp [Act.answers, hv] at ha
      obtain rfl : .owner u x = y := by simpa [Act.answers, hc] using ha
      cases x with
      | imm d' =>
        cases hy
        exact ⟨{ b.cacher v with fromPeers := ms }, false, ⟨rfl, rfl, rfl, rfl, rfl⟩, rfl, hran⟩
      | readReply st => cases hy
      | writeReply st => cases hy
    | _ => simp [Act.answers] at ha

theorem Cacher.Waits.part {a : Act W} {y : Answer W} {d : Option Data} {m : Int}
    (h : (b.cacher w).Waits op n q) (hop : op ≠ .read) (hs : Coherence.step i a b = some b')
    (ha : a.answers w b = [y]) (hy : y.part = some (d, m)) :
    (n + m ≠ 0 → (b'.cacher w).Waits op (n + m) q) ∧ (n + m = 0 → Finished w q b b') := by
  obtain ⟨c, fromHome, hsame, rfl, hran⟩ := part_taken hs ha hy
  obtain ⟨hmore, hlast⟩ := (h.same hsame).processImm (i := i) hop w fromHome d
  have hm : (if fromHome then n + 1 else n - 1) = n + if fromHome then 1 else -1 := by
    cases fromHome with
    | false => simp; omega
    | true => simp
  rw [hm] at hmore hlast
  refine ⟨fun h0 => (hmore h0).1.same hran.self, fun h0 => ?_⟩
  obtain ⟨l, hl, -⟩ := (h.same hsame).line
  have hl' : ∃ l', (c.land d).line = some l' := by
    cases d with
    | none => exact ⟨l, hl⟩
    | some d => exact ⟨{ l with data := d }, by simp [land, mapLine, hl]⟩
  obtain ⟨l', hl'⟩ := hl'
  obtain ⟨⟨ln, hline, hdirty⟩, hp, hev⟩ := (c.land d).finishWrite_cases (i := i) w q hl'
  rw [hlast h0] at hran
  have hnew : newEvents b b' = ((c.land d).finishWrite i w q).evs := by
    simp [newEvents, hran.log]
  exact ⟨⟨ln, hran.self.line.trans hline, hdirty⟩, hran.self.pending.trans hp, by rwa [hnew]⟩

omit [DecidableEq W] in
theorem Cfg.writeLine {cur : Data} {role : Role} {v : View W} (h : Cfg f i cur role v)
    (hp : v.pending = some (.fetch op n st q)) (hop : op ≠ .read) :
    ∃ l, v.line = some l ∧ l.state = .toDirty := by
  cases role <;> cases h <;> grind

theorem Good.waits (hg : Good f i mem₀ b) (hp : (b.cacher w).pending = some (.fetch op n none q))
    (hop : op ≠ .read) : (b.cacher w).Waits op n q := by
  obtain ⟨role, tok, hi⟩ := hg
  exact ⟨(hi.worker w).cfg.writeLine hp hop, hp⟩

theorem answers_cases (w : W) (a : Act W) (b : Block W) :
    a.answers w b = [] ∨ ∃ y, a.answers w b = [y] := by
  unfold Act.answers
  split
  · split
    · split <;> simp
    · simp
  · split
    · split <;> simp
    · simp
  · simp

/-- With at most one of the two answers, the request still waits. -/
theorem waits_of_traced {ok : Act W → Block W → Prop} {as : List (Answer W)}
    (hop : op ≠ .read) (h : (b₀.cacher w).Waits op 0 q)
    (ht : Traced (Coherence.step i) ok (Act.answers w) b₀ as b) :
    (as = [] → (b.cacher w).Waits op 0 q) ∧
      ∀ y d m, as = [y] → y.part = some (d, m) → (b.cacher w).Waits op m q := by
  induction ht with
  | refl => exact ⟨fun _ => h, by rintro y d m ⟨⟩⟩
  | @tail os t t' a ht hok hs ih =>
    obtain ha | ⟨z, ha⟩ := answers_cases w a t
    · rw [ha, List.append_nil]
      exact ⟨fun h0 => (ih.1 h0).step hs ha, fun y d m hy hpart => (ih.2 y d m hy hpart).step hs ha⟩
    · rw [ha]
      refine ⟨by simp, fun y d m hy hpart => ?_⟩
      obtain ⟨hos, hz⟩ : os = [] ∧ z = y := by
        cases os with
        | nil => simpa using hy
        | cons o os => simp at hy
      have hm : (0 : Int) + m ≠ 0 := by
        have := y.part_count hpart
        omega
      have hw := ((ih.1 hos).part hop hs ha (hz ▸ hpart)).1 hm
      rwa [Int.zero_add] at hw

/-! ## Whole runs -/

/-- The copies an invalidation is sent to: all but that of the worker `x` it is for. -/
def asked (x : Option (W × Ptr × Fetch)) (list : List (W × Ptr)) : List (W × Ptr) :=
  list.filter fun c => x.all fun y => c.1 ≠ y.1

/-- As long as none has refused, the home waits for all the copies that are left. -/
theorem Good.asked_length (hg : Good f i mem₀ b) {k : Nat}
    (hp : b.home.pending = some (invPending x k none q)) :
    k = (Coherence.asked x b.home.entry.getSList).length := by
  obtain ⟨role, tok, hi⟩ := hg
  cases hi.phase with
  | unshared hp' => simp [hp'] at hp
  | shared d he hp' => simp [hp'] at hp
  | dirty d o p he hp' => simp [hp'] at hp
  | toShared d o p x' q' he hp' =>
    rw [hp'] at hp
    cases x <;> cases x' <;> cases hp
  | take d o p x' q' he hp' =>
    rw [hp'] at hp
    cases x <;> cases x' <;> cases hp
  | invalidate d x' q' n' st' t hq he hp' hs hk hkx hm hpos hc =>
    obtain ⟨hn, rfl, rfl⟩ : (k : Int) = n' ∧ none = st' ∧ x = x' := by
      rw [hp'] at hp
      rcases x with _ | ⟨u, p, op⟩ <;> rcases x' with _ | ⟨u', p', op'⟩ <;> simp_all [invPending]
    have hcount : k = d.shared.countP fun a => (tok a.1).busy := Int.ofNat_inj.mp (hn.trans hc.count)
    rw [hcount, he, Coherence.asked, ← List.countP_eq_length_filter]
    refine List.countP_congr fun c hmem => ?_
    obtain ⟨y, hy, hcy⟩ | ⟨p, -, hstage⟩ | ⟨hnot, -⟩ := hc.copies c.1
    · simp [hcy, (hc.waits y hy).tok, Tok.busy, Option.mem_def.mp hy]
    · have hbusy : (tok c.1).busy = true := by
        generalize role c.1 = ro, tok c.1 = tk at hstage
        cases hstage with
        | kept hst => cases hst
        | _ => rfl
      have hne : ∀ y ∈ x, c.1 ≠ y.1 := by
        intro y hy he
        rw [he, (hc.waits y hy).tok] at hbusy
        cases hbusy
      simp only [hbusy, true_iff]
      cases x with
      | none => rfl
      | some y => simpa using hne y rfl
    · exact absurd hmem (hnot c.2)

namespace Layout

variable {V : Type*} [DecidableEq V] {l : Layout V} {s s' s₀ : Sys V} {mem : Nat → Data} {β : Type*}

/-- What a step of the whole memory shows of block `i`. -/
def seen (l : Layout V) (i : Nat) (obs : Act V → Block V → List β) (a : SysAct V) (s : Sys V) :
    List β :=
  match l.target a s with
  | some (j, x) => if j = i then obs x (s.blk i) else []
  | none => []

/-- A step of the whole memory is a step of block `i`, or nothing is seen of it there. -/
theorem step_block {a : SysAct V} (hs : l.step a s = some s') (obs : Act V → Block V → List β) :
    (s'.blk i = s.blk i ∧ l.seen i obs a s = []) ∨
      ∃ x, l.target a s = some (i, x) ∧ Coherence.step i x (s.blk i) = some (s'.blk i) ∧
        l.seen i obs a s = obs x (s.blk i) := by
  obtain ⟨hblk, ht⟩ | ⟨j, x, b, hran⟩ := step_cases hs
  · exact .inl ⟨by rw [hblk], by simp [seen, ht]⟩
  · simp only [hran.blk]
    have ht := hran.target
    by_cases hj : i = j
    · subst hj
      exact .inr ⟨x, ht, by rw [Function.update_self]; exact hran.step, by simp [seen, ht]⟩
    · exact .inl ⟨Function.update_of_ne hj _ _, by simp [seen, ht, Ne.symm hj]⟩

theorem traced_block {obs : Act V → Block V → List β} {os : List β}
    (h : Traced l.step l.Room (l.seen i obs) s₀ os s) :
    Traced (Coherence.step i) (fun x b => x.Room b ∧ Slack.Permits ⟨true, true⟩ x b) obs (s₀.blk i)
      os (s.blk i) := by
  refine h.project (fun s => s.blk i) fun a t t' hok hs => ?_
  obtain h | ⟨x, ht, hs', ho⟩ := step_block hs obs
  · exact .inl h
  · exact .inr ⟨x, ⟨hok _ ht, l.permits_all a t _ ht⟩, hs', ho⟩

/-- The two answers to a forwarded WRITE. -/
def Both (y z : Answer V) : Prop :=
  (∃ o d, y = .owner o (.imm d) ∧ z = .home (.imm none)) ∨
    ∃ o d, y = .home (.imm none) ∧ z = .owner o (.imm d)

/-- The request `q` of `w` waits until it has both answers, and is over with the second. -/
structure EndsWithBoth (l : Layout V) (i : Nat) (w : V) (op : Fetch) (q : Request) (s₀ : Sys V) :
    Prop where
  none : ∀ s, Traced l.step l.Room (l.seen i (Act.answers w)) s₀ [] s →
    ((s.blk i).cacher w).Waits op 0 q
  one : ∀ y z s, Both y z → Traced l.step l.Room (l.seen i (Act.answers w)) s₀ [y] s →
    ∃ n, ((s.blk i).cacher w).Waits op n q
  both : ∀ y z a s s', Both y z → Traced l.step l.Room (l.seen i (Act.answers w)) s₀ [y] s →
    l.step a s = some s' → l.seen i (Act.answers w) a s = [z] →
    Finished w q (s.blk i) (s'.blk i)

/-- The invalidation for `q` or for the worker `x` is sent to `k` copies, is pending as long as it
has less than `k` answers, and ends with the last one. -/
structure EndsWithLast (l : Layout V) (i : Nat) (x : Option (V × Ptr × Fetch)) (k : Nat) (q : Request)
    (s₀ : Sys V) : Prop where
  pos : 1 ≤ k
  copies : k = (asked x (s₀.blk i).home.entry.getSList).length
  before : ∀ rs s, Traced l.step l.Room (l.seen i Act.heard) s₀ rs s → rs.length < k →
    Attempt (s₀.blk i) x k q rs (s.blk i)
  last : ∀ rs a s s' w r, Traced l.step l.Room (l.seen i Act.heard) s₀ rs s → rs.length + 1 = k →
    l.step a s = some s' → l.seen i Act.heard a s = [(w, r)] →
    Ended (s₀.blk i) x q (rs ++ [(w, r)]) (s.blk i) (s'.blk i)

theorem endsWithBoth {w : V} {op : Fetch} (hg : Good ⟨true, true⟩ i (mem i) (s₀.blk i))
    (hop : op ≠ .read) (hp : ((s₀.blk i).cacher w).pending = some (.fetch op 0 none q)) :
    l.EndsWithBoth i w op q s₀ := by
  have hw := hg.waits hp hop
  refine ⟨fun s ht => (waits_of_traced hop hw (traced_block ht)).1 rfl, fun y z s hb ht => ?_,
    fun y z a s s' hb ht hs hz => ?_⟩
  · have hone := (waits_of_traced hop hw (traced_block ht)).2 y
    obtain ⟨o, d, rfl, -⟩ | ⟨o, d, rfl, -⟩ := hb
    · exact ⟨_, hone _ _ rfl rfl⟩
    · exact ⟨_, hone _ _ rfl rfl⟩
  · have hone := (waits_of_traced hop hw (traced_block ht)).2 y
    obtain ⟨-, h⟩ | ⟨x, -, hs', ho⟩ := step_block hs (Act.answers w)
    · rw [hz] at h
      cases h
    · rw [hz] at ho
      obtain ⟨o, d, rfl, rfl⟩ | ⟨o, d, rfl, rfl⟩ := hb
      · exact ((hone _ _ rfl rfl).part hop hs' ho.symm rfl).2 (by omega)
      · exact ((hone _ _ rfl rfl).part hop hs' ho.symm rfl).2 (by omega)

theorem endsWithLast {x : Option (V × Ptr × Fetch)} {k : Nat} (hg : Good ⟨true, true⟩ i (mem i) (s₀.blk i))
    (hp : (s₀.blk i).home.pending = some (invPending x k none q)) : l.EndsWithLast i x k q s₀ := by
  refine ⟨?_, hg.asked_length hp, fun rs s ht hlen => ?_, fun rs a s s' w r ht hlen hs hh => ?_⟩
  · have := (hg.invalidates hp).pos
    omega
  · exact (attempt_of_traced (fun _ _ h => h) hg hp (traced_block ht) hlen).1
  · obtain ⟨h, hg'⟩ := attempt_of_traced (fun _ _ h => h) hg hp (traced_block ht) (by omega)
    obtain ⟨-, h0⟩ | ⟨x', -, hs', ho⟩ := step_block hs Act.heard
    · rw [hh] at h0
      cases h0
    · rw [hh] at ho
      obtain ⟨v, r', ms, rfl, hv, -⟩ := (heard_cases hs').resolve_left (by simp [← ho])
      obtain ⟨rfl, rfl⟩ : w = v ∧ r = r' := by simpa [← ho] using hv
      exact h.last hg' hs' ho.symm hlen

/-- Requests with several answers end exactly once, with the last. -/
theorem responders_of_reaches (h : Reaches l.step l.Room (Sys.init mem) s₀) (i : Nat) :
    (∀ w op q, op ≠ .read → ((s₀.blk i).cacher w).pending = some (.fetch op 0 none q) →
      l.EndsWithBoth i w op q s₀) ∧
    ∀ x (k : Nat) q, (s₀.blk i).home.pending = some (invPending x k none q) →
      l.EndsWithLast i x k q s₀ :=
  ⟨fun _ _ _ hop hp => endsWithBoth (l.good_blk_all h i) hop hp,
    fun _ _ _ hp => endsWithLast (l.good_blk_all h i) hp⟩

/-- Worker 0 is the home of all blocks; thread `t` runs on worker `t`. -/
def threeWorkers : Layout Nat := ⟨fun _ => 0, id⟩

/-- Workers 1 and 2 read the first byte, then the home writes it. -/
def writeAfterReads : List (SysAct Nat) :=
  [.issue { id := 0, thread := 1, op := .read, addr := 0, size := 1 }, .serve 1 0, .finish 1,
    .recvHome 1 0, .recv 1 0, .replay 1,
    .issue { id := 1, thread := 2, op := .read, addr := 0, size := 1 }, .serve 2 0, .finish 2,
    .recvHome 2 0, .recv 2 0, .replay 2,
    .issue { id := 2, thread := 0, op := .write, addr := 0, size := 1 }, .serve 0 0, .finish 0]

/-- Worker 1 writes the first byte, then worker 2 does. -/
def writeAfterWrite : List (SysAct Nat) :=
  [.issue { id := 0, thread := 1, op := .write, addr := 0, size := 1 }, .serve 1 0, .finish 1,
    .recvHome 1 0, .recv 1 0, .recv 1 0, .replay 1,
    .issue { id := 1, thread := 2, op := .write, addr := 0, size := 1 }, .serve 2 0, .finish 2,
    .recvHome 2 0]

def invalidatesTwo (s : Sys Nat) : Bool :=
  match (s.blk 0).home.pending with
  | some (.invalidate 2 none _) => true
  | _ => false

def forwardsWrite (s : Sys Nat) : Bool :=
  match (s.blk 0).home.pending, ((s.blk 0).cacher 2).pending with
  | some (.writeForward 2 _), some (.fetch .write 0 none _) => true
  | _, _ => false

theorem responders_threeWorkers :
    (∃ s q, Reaches threeWorkers.step threeWorkers.Room (Sys.init fun _ _ => 0) s ∧
      (s.blk 0).home.pending = some (invPending none 2 none q) ∧
      threeWorkers.EndsWithLast 0 none 2 q s) ∧
    ∃ s q, Reaches threeWorkers.step threeWorkers.Room (Sys.init fun _ _ => 0) s ∧
      ((s.blk 0).cacher 2).pending = some (.fetch .write 0 none q) ∧
      threeWorkers.EndsWithBoth 0 2 .write q s := by
  constructor
  · obtain ⟨s, hr, hp⟩ := Reaches.exists_of_runs threeWorkers.step threeWorkers.Room writeAfterReads
      (Sys.init fun _ _ => 0) (fun s => invalidatesTwo s = true) (by decide)
    unfold invalidatesTwo at hp
    split at hp
    · rename_i q hq
      exact ⟨s, q, hr, hq, (responders_of_reaches hr 0).2 none 2 q hq⟩
    · cases hp
  · obtain ⟨s, hr, hp⟩ := Reaches.exists_of_runs threeWorkers.step threeWorkers.Room writeAfterWrite
      (Sys.init fun _ _ => 0) (fun s => forwardsWrite s = true) (by decide)
    unfold forwardsWrite at hp
    split at hp
    · rename_i p q hh hq
      exact ⟨s, q, hr, hq, (responders_of_reaches hr 0).1 2 .write q (by decide) hq⟩
    · cases hp

end Layout

end HwGam.Coherence
