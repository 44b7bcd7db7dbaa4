import HwGam.Fence.Order

/-!
# The fences keep their order

An MFENCE queued behind an SFENCE does not hold back the reads that follow it: `IsMFenced` looks
at `mfenced` alone, and a queued MFENCE has not set it yet. `ReadWaits` excludes a read that passes
such an MFENCE; every other step keeps `Order`.
-/

namespace HwGam.Fence

open Lib

variable {T : Type*}

/-! ## Every step keeps the invariant -/

section
variable [DecidableEq T] {app t : T} {s s' : State T} {r : Request} {p : Pc}

theorem carried_other (m : Moves s s' t p) (hp : p.carried = (s.pc t).carried) (u : T) :
    (s'.pc u).carried = (s.pc u).carried := by
  by_cases hu : u = t
  · rw [hu, m.self, hp]
  · rw [m.other hu]

theorem facts_all (m : Moves s s' t p) (hp : Facts app s' p)
    (ho : ∀ u, u ≠ t → Facts app s' (s.pc u)) (u : T) : Facts app s' (s'.pc u) := by
  by_cases hu : u = t
  · rw [hu, m.self]
    exact hp
  · rw [m.other hu]
    exact ho u hu

/-- A step that only moves a thread along its code. -/
theorem Order.control (h : Order app s) (hw : Wf s') (m : Moves s s' t p)
    (hlog : s'.log = s.log) (hn : s'.next = s.next) (hq : s'.pendingWorks = s.pendingWorks)
    (hi : s'.inflight = s.inflight) (hm : s'.mfenced = s.mfenced) (hs : s'.sfenced = s.sfenced)
    (hp : p.carried = (s.pc t).carried) (hv : Facts app s p) : Order app s' := by
  have hc := carried_other m hp
  have x : Ext s.next s.log s'.log := .inl hlog
  have hsf : SameFences app s s' := fun f _ hf => .inl ⟨hlog ▸ hf, fun hc' => (hc app).trans hc'⟩
  have hmono : ∀ q, (∀ r, q.carried = some r ∨ q = .serve r → r.seq < s.next) →
      Facts app s q → Facts app s' q := fun q hq' =>
    Facts.mono h.book x hsf hq hm hs (fun w hw => .inl (hi ▸ hw)) (fun _ hz => hi.trans hz) hq'
  refine ⟨hw, h.book.same hlog hn hq hi hc, ?_, ?_, hlog ▸ h.ordered⟩
  · exact h.fences.mono h.book x hsf hq fun op hh => (held_congr hm hs).trans hh
  · refine facts_all m (hmono p (fun r hr => ?_) hv) fun u _ => hmono _ (h.seq_lt u) (h.facts u)
    rcases hr with hr | rfl
    · exact h.seq_lt t r (.inl (hp ▸ hr))
    · have hv' : View s' (.serve r) := m.self ▸ hw.view t
      have hin : r ∈ s.pendingWorks := List.mem_of_mem_head? (by rw [← hq, hv'.2]; rfl)
      exact h.book.issued r (h.book.parked r (h.book.queued r hin)).1

theorem Order.examine (h : Order app s) (hw : Wf (examine t r s)) (hp : s.pc t = .examine r)
    (hk : ReadWaits (.tick t) s) : Order app (examine t r s) := by
  have hc : (s.pc t).carried = some r := by rw [hp]; rfl
  obtain rfl := h.book.submitter t r hc
  unfold Fence.examine at hw ⊢
  split at hw
  · rename_i hop
    split at hw
    · rw [if_pos ‹_›]
      exact h.control hw ⟨rfl⟩ rfl rfl rfl rfl rfl rfl (by rw [hp]; rfl) trivial
    · rw [if_neg ‹_›]
      rename_i hm
      refine h.control hw ⟨rfl⟩ rfl rfl rfl rfl rfl rfl (by rw [hp]; rfl) ?_
      have hwait := hk (by rw [hp]; simp [Pc.isReadCheck, hop])
      exact ⟨by rw [hop]; rfl, fun hne => absurd hop hne, fun hl => by simp [hop, Op.isLock] at hl,
        fun m hi hmop hlt => h.clean_of_read (by simpa [State.isMFenced] using hm) hwait hc hi
          hmop hlt⟩
  · rename_i hop
    split at hw
    · rw [if_pos ‹_›]
      exact h.control hw ⟨rfl⟩ rfl rfl rfl rfl rfl rfl (by rw [hp]; rfl) trivial
    · rw [if_neg ‹_›]
      rename_i hf
      have hf : s.isFenced = false := by simpa using hf
      refine h.control hw ⟨rfl⟩ rfl rfl rfl rfl rfl rfl (by rw [hp]; rfl) ?_
      exact ⟨by rw [hop]; rfl, fun _ => hf, fun hl => by simp [hop, Op.isLock] at hl,
        fun m hi hmop hlt => h.clean_of_unfenced hf hc hi (by simp [hmop, Op.isFence]) hlt⟩
  · split at hw
    · rw [if_pos ‹_›]
      exact h.control hw ⟨rfl⟩ rfl rfl rfl rfl rfl rfl (by rw [hp]; rfl) trivial
    · rw [if_neg ‹_›]
      rename_i hr hwr _
      exact h.control hw ⟨rfl⟩ rfl rfl rfl rfl rfl rfl (by rw [hp]; rfl) ⟨hr, hwr⟩

/-- An unfenced MFENCE or SFENCE takes effect: it is done, or its flag is set. -/
theorem Order.fence_start (h : Order app s) (hw : Wf s') (m : Moves s s' app (.leave none))
    (ht : (s.pc app).holds = true) (hc : (s.pc app).carried = some r)
    (hu : s.isFenced = false) (hf : r.op.isFence = true) (hlog : s'.log = s.log ++ [.start r])
    (hn : s'.next = s.next) (hq : s'.pendingWorks = s.pendingWorks)
    (hi : s'.inflight = s.inflight) (hh : ∀ op, s.held op = true → s'.held op = true)
    (hr : Clean s.log r ∨ s'.held r.op = true) : Order app s' := by
  have x := Ext.start hlog
  have hc' : (s'.pc app).carried = none := by rw [m.self]; rfl
  have hsub : ∀ u q, (s'.pc u).carried = some q → u = app := by
    intro u q hq
    by_contra hne
    rw [m.other hne] at hq
    exact hne (h.book.submitter u q hq)
  have hst : StartOk s.log r := by
    refine ⟨fun m w hm hw hop hwop hwm hmr => ?_, fun hl => ?_, fun hop => ?_, fun hp => ?_⟩
    · exact h.clean_of_unfenced hu hc hm (by rw [hop]; rfl) hmr w hw hwop hwm
    · cases hop : r.op <;> simp_all [Op.isLock, Op.isFence]
    · rw [hop] at hf
      cases hf
    · exact absurd hp (h.book.carried r hc).2.2
  refine ⟨hw, ?_, ?_, facts_all m trivial (h.facts_app ht), h.ordered.start hlog hst⟩
  · refine h.book.event hlog (by simp) (by simp) hn hq hsub (fun q hq => ?_)
      (fun _ _ => .inr (.inr (h.queue_nil hu))) fun w hop _ hw => ?_
    · rw [hc'] at hq
      cases hq
    · rcases hw with hw | hw
      · exact .inr (.inl (hi ▸ hw))
      · rw [hc] at hw
        cases hw
        rw [hop] at hf
        cases hf
  · intro f hfi hop
    have hfi' : .issue f ∈ s.log := by rw [hlog] at hfi; simpa using hfi
    rcases h.fences f hfi' hop with hcl | hh' | hin | hcar
    · exact .inl (hcl.mono x (by have := h.book.issued f hfi'; omega))
    · exact .inr (.inl (hh _ hh'))
    · exact .inr (.inr (.inl (hq ▸ hin)))
    · rw [hc] at hcar
      cases hcar
      have := h.book.issued r hfi'
      exact hr.imp (fun hcl => hcl.mono x (by omega)) .inl

theorem Op.cases_of_examined {op : Op} (h : op ≠ .read) (h' : op ≠ .write)
    (hl : op.isLock = false) : op.isFence = true := by
  cases op <;> simp_all [Op.isLock, Op.isFence]

theorem Order.count (h : Order app s) (hw : Wf (count t r s)) (hp : s.pc t = .count r) :
    Order app (count t r s) := by
  have hc : (s.pc t).carried = some r := by rw [hp]; rfl
  obtain rfl := h.book.submitter t r hc
  have hu : View s (.count r) := hp ▸ h.wf.view t
  have hfa : Facts t s (.count r) := hp ▸ h.facts t
  have ht : (s.pc t).holds = true := by rw [hp]; rfl
  have hclean : s.pendingWrites = 0 → Clean s.log r := fun hz =>
    h.clean_of_idle (h.book.carried r hc).1 (h.inflight_nil hz) (by simp [h.queue_nil hu])
  unfold Fence.count at hw ⊢
  split at hw
  · rw [if_pos ‹_›]
    exact h.control hw ⟨rfl⟩ rfl rfl rfl rfl rfl rfl (by rw [hp]; rfl) hfa
  · rw [if_neg ‹_›]
    rename_i hz
    have hz : s.pendingWrites = 0 := by simpa using hz
    split at hw
    · rw [if_pos ‹_›]
      rename_i hl
      refine h.control hw ⟨rfl⟩ rfl rfl rfl rfl rfl rfl (by rw [hp]; rfl) ?_
      exact ⟨by cases hop : r.op <;> simp_all [Op.isLock, Op.isFence], fun _ => hu,
        fun _ => hclean hz,
        fun m hi hmop hlt => h.clean_of_unfenced hu hc hi (by simp [hmop, Op.isFence]) hlt⟩
    · rw [if_neg ‹_›]
      rename_i hl
      exact h.fence_start hw ⟨rfl⟩ ht hc hu
        (Op.cases_of_examined hfa.1 hfa.2 (by simpa using hl)) rfl rfl rfl rfl (fun _ hh => hh)
        (.inl (hclean hz))

theorem Order.mark (h : Order app s) (hw : Wf (mark t r s)) (hp : s.pc t = .mark r) :
    Order app (mark t r s) := by
  have hc : (s.pc t).carried = some r := by rw [hp]; rfl
  obtain rfl := h.book.submitter t r hc
  have hu : View s (.mark r) := hp ▸ h.wf.view t
  have ht : (s.pc t).holds = true := by rw [hp]; rfl
  have hnone : ∀ op, s.held op = false := by
    have hu' := hu
    simp only [View, State.isFenced, Bool.or_eq_false_iff] at hu'
    intro op
    cases op <;> simp [State.held, State.isFenced, hu'.1, hu'.2]
  have hh : ∀ {s' : State T} op, s.held op = true → s'.held op = true := fun op hh => by
    rw [hnone] at hh
    cases hh
  unfold Fence.mark at hw ⊢
  split at hw
  · rename_i hop
    exact h.fence_start hw ⟨rfl⟩ ht hc hu (by rw [hop]; rfl) rfl rfl rfl rfl hh
      (.inr (by simp [hop, State.held, State.isFenced, State.goto, State.emit]))
  · rename_i hop
    exact h.fence_start hw ⟨rfl⟩ ht hc hu (by rw [hop]; rfl) rfl rfl rfl rfl hh
      (.inr (by simp [hop, State.held, State.goto, State.emit]))
  · have m : Moves s ({ s with mfenced := true }.goto t (.park r)) t (.park r) := ⟨rfl⟩
    have hcar := carried_other m (by rw [hp]; rfl)
    refine ⟨hw, h.book.same rfl rfl rfl rfl hcar, ?_, facts_all ⟨rfl⟩ trivial (h.facts_app ht),
      h.ordered⟩
    exact h.fences.mono h.book (.inl rfl) (fun f _ hf => .inl ⟨hf, fun hc => (hcar t).trans hc⟩)
      rfl hh

theorem Order.park (h : Order app s) (hp : s.pc t = .park r)
    (hw : Wf ((s.addToFence r).goto t (.leave none))) :
    Order app ((s.addToFence r).goto t (.leave none)) := by
  have hc : (s.pc t).carried = some r := by rw [hp]; rfl
  obtain rfl := h.book.submitter t r hc
  have ht : (s.pc t).holds = true := by rw [hp]; rfl
  have m : Moves s ((s.addToFence r).goto t (.leave none)) t (.leave none) := ⟨rfl⟩
  have hlog : ((s.addToFence r).goto t (.leave none)).log = s.log ++ [.park r] := rfl
  have hc' : ∀ u, (((s.addToFence r).goto t (.leave none)).pc u).carried = none := by
    intro u
    by_cases hu : u = t
    · rw [hu, m.self]
      rfl
    · rw [m.other hu]
      by_contra hne
      obtain ⟨q, hq⟩ := Option.ne_none_iff_exists'.mp hne
      exact hu (h.book.submitter u q hq)
  refine ⟨hw, h.book.park hc hlog rfl rfl rfl hc', ?_, facts_all m trivial (h.facts_app ht),
    h.ordered.other hlog (by rintro _ ⟨⟩)⟩
  intro f hfi hop
  have hfi' : .issue f ∈ s.log := by rw [hlog] at hfi; simpa using hfi
  have x : Ext s.next s.log ((s.addToFence r).goto t (.leave none)).log := .inr ⟨_, hlog, (by rintro _ ⟨⟩)⟩
  rcases h.fences f hfi' hop with hcl | hh' | hin | hcar
  · exact .inl (hcl.mono x (by have := h.book.issued f hfi'; omega))
  · exact .inr (.inl hh')
  · exact .inr (.inr (.inl (List.mem_append_left _ hin)))
  · rw [hc] at hcar
    cases hcar
    exact .inr (.inr (.inl (List.mem_append_right _ (List.mem_singleton_self _))))

/-- The issuing thread starts the request it carried past the fence. -/
theorem Order.execute (h : Order app s) (hp : s.pc t = .execute r)
    (hw : Wf ((s.begin r).goto t .idle)) : Order app ((s.begin r).goto t .idle) := by
  have hc : (s.pc t).carried = some r := by rw [hp]; rfl
  obtain rfl := h.book.submitter t r hc
  have hd : Direct s r := by have := h.facts t; rwa [hp] at this
  have m : Moves s ((s.begin r).goto t .idle) t .idle := ⟨by simp [State.goto]⟩
  have hlog : ((s.begin r).goto t .idle).log = s.log ++ [.start r] := s.begin_log r
  have x := Ext.start hlog
  have hq : ((s.begin r).goto t .idle).pendingWorks = s.pendingWorks := s.begin_pendingWorks r
  have hc' : (((s.begin r).goto t .idle).pc t).carried = none := by rw [m.self]; rfl
  have hsf : SameFences t s ((s.begin r).goto t .idle) := by
    intro f hop hf
    refine .inl ⟨by rw [hlog] at hf; simpa using hf, fun hcf => ?_⟩
    rw [hc] at hcf
    cases hcf
    rw [hd.notFence] at hop
    cases hop
  have hm := s.begin_mfenced r
  have hs := s.begin_sfenced r
  refine ⟨hw, ?_, ?_, ?_, h.ordered.start hlog (h.startOk_direct hc hd)⟩
  · refine h.book.event hlog (by simp) (by simp) (s.begin_next r) hq (fun u q hq => ?_)
      (fun q hq => ?_) (fun q hq => ?_) fun w hop _ hw => ?_
    · by_contra hne
      rw [m.other hne] at hq
      exact hne (h.book.submitter u q hq)
    · rw [hc'] at hq
      cases hq
    · rw [hc] at hq
      cases hq
      by_cases hop : r.op = .read
      · exact .inr (.inl hop)
      · exact .inr (.inr (h.queue_nil (hd.unfenced hop)))
    · rcases hw with hw | hw
      · exact .inr (.inl (State.mem_begin_inflight hw))
      · rw [hc] at hw
        cases hw
        exact .inr (.inl (s.self_mem_begin_inflight hop))
  · exact h.fences.mono h.book x hsf hq fun op hh => (held_congr hm hs).trans hh
  · refine facts_all m trivial fun u _ => ?_
    refine Facts.mono h.book x hsf hq hm hs (fun w hw => .inl (State.mem_begin_inflight hw))
      (fun hf hz => ?_) (h.seq_lt u) (h.facts u)
    -- under a fence only a read is started here, and it adds nothing
    have hop : r.op = .read := by
      by_contra hne
      rw [hd.unfenced hne] at hf
      cases hf
    exact (s.begin_inflight_of_ne (by rw [hop]; simp)).trans hz

/-- The drain executes the front request, or lets a fence take effect. -/
theorem Order.drain_start (h : Order app s) (hw : Wf s') (m : Moves s s' t p)
    (ht : (s.pc t).holds = true) (hd : Drained app s) (hf : s.isFenced = true)
    (hr : s.pendingWorks.head? = some r) (hl : r.op.isLock = true → Clean s.log r)
    (hp : p.carried = (s.pc t).carried) (hlog : s'.log = s.log ++ [.start r])
    (hn : s'.next = s.next) (hq : s'.pendingWorks = s.pendingWorks)
    (hin : ∀ w ∈ s.inflight, w ∈ s'.inflight)
    (hv : Drained app s' → Facts app s' p) : Order app s' := by
  have x := Ext.start hlog
  have hc := carried_other m hp
  have hd' : Drained app s' := by
    refine hd.mono h.book x (.of_carried (hc app) fun f hf => ?_) fun f hin _ => hq ▸ hin
    rw [hlog] at hf
    simpa using hf
  refine ⟨hw, ?_, .of_drained hd', facts_all m (hv hd') (h.facts_locked ht x ?_),
    h.ordered.start hlog (h.startOk_front hd hr hl)⟩
  · exact h.book.event hlog (by simp) (by simp) hn hq
      (fun u q hq => h.book.submitter u q (hc u ▸ hq)) (fun q hq => hc app ▸ hq)
      (fun q hq => .inl ((hc app).trans hq))
      fun w _ _ hw => .inr (hw.imp (hin w) ((hc app).trans ·))
  · intro hf'
    rw [hf] at hf'
    cases hf'

/-- The drain changes the flags and nothing else. -/
theorem Order.reflag (h : Order app s) (hw : Wf s') (m : Moves s s' t p)
    (ht : (s.pc t).holds = true) (hd : Drained app s) (hf : s.isFenced = true)
    (hp : p.carried = (s.pc t).carried) (hlog : s'.log = s.log) (hn : s'.next = s.next)
    (hq : s'.pendingWorks = s.pendingWorks) (hi : s'.inflight = s.inflight)
    (hv : Facts app s' p) : Order app s' := by
  have x : Ext s.next s.log s'.log := .inl hlog
  have hc := carried_other m hp
  have hd' : Drained app s' :=
    hd.mono h.book x (.of_carried (hc app) fun f hf => hlog ▸ hf) fun f hin _ => hq ▸ hin
  refine ⟨hw, h.book.same hlog hn hq hi hc, .of_drained hd',
    facts_all m hv (h.facts_locked ht x ?_), hlog ▸ h.ordered⟩
  intro hf'
  rw [hf] at hf'
  cases hf'

theorem Order.recheck (h : Order app s) (hp : s.pc t = .recheck r) (hw : Wf (recheck t r s)) :
    Order app (recheck t r s) := by
  have hv : View s (.recheck r) := hp ▸ h.wf.view t
  have hfa : Facts app s (.recheck r) := hp ▸ h.facts t
  have hin : r ∈ s.pendingWorks := List.mem_of_mem_head? (by rw [hv.2]; rfl)
  have hi := (h.book.parked r (h.book.queued r hin)).1
  have hclean : s.pendingWrites = 0 → Clean s.log r := by
    refine fun hz => h.clean_of_idle hi (h.inflight_nil hz) fun w hw _ hlt => ?_
    exact (h.front_lt hv.2 hlt).1 hw
  unfold Fence.recheck at hw ⊢
  split at hw
  · rw [if_pos ‹_›]
    exact h.control hw ⟨rfl⟩ rfl rfl rfl rfl rfl rfl (by rw [hp]; rfl) hfa.1
  · rw [if_neg ‹_›]
    rename_i hz
    have hz : s.pendingWrites = 0 := by simpa using hz
    split at hw
    · rw [if_pos ‹_›]
      rename_i hl
      exact h.control hw ⟨rfl⟩ rfl rfl rfl rfl rfl rfl (by rw [hp]; rfl)
        ⟨hfa.1, by cases hop : r.op <;> simp_all [Op.isLock, Op.isFence], fun _ => hclean hz⟩
    · rw [if_neg ‹_›]
      refine h.drain_start (t := t) hw ⟨rfl⟩ (by rw [hp]; rfl) hfa.1 hv.1 hv.2
        (fun _ => hclean hz) (by rw [hp]; rfl) rfl rfl rfl (fun _ hw => hw)
        fun hd => ⟨fun _ => hd, fun q hq => ?_⟩
      obtain rfl : r = q := Option.some.inj (hv.2.symm.trans hq)
      refine ⟨⟨List.mem_append_right _ (List.mem_singleton_self _), fun hwr => ?_⟩, fun _ => .inl ?_⟩
      · exact absurd hwr hfa.2
      · exact (hclean hz).mono (Ext.start (s := s) rfl) (by have := h.book.issued r hi; omega)

theorem Order.stop (h : Order app s) (hp : s.pc t = .stop r) (hw : Wf (stop t r s)) :
    Order app (stop t r s) := by
  have hv : View s (.stop r) := hp ▸ h.wf.view t
  have hd : Drained app s := by have := h.facts t; rwa [hp] at this
  have ht : (s.pc t).holds = true := by rw [hp]; rfl
  unfold Fence.stop at hw ⊢
  split at hw
  · rename_i hop
    refine h.drain_start (t := t) hw ⟨rfl⟩ ht hd hv.1 hv.2 (by simp [hop, Op.isLock])
      (by rw [hp]; rfl) rfl rfl rfl (fun _ hw => hw) fun _ => ⟨(by rintro ⟨⟩), fun q hq => ?_⟩
    obtain rfl : r = q := Option.some.inj (hv.2.symm.trans hq)
    refine ⟨⟨List.mem_append_right _ (List.mem_singleton_self _), by simp [hop]⟩, fun _ => .inr ?_⟩
    simp [hop, State.held, State.isFenced, State.goto, State.emit]
  · rename_i hop
    refine h.drain_start (t := t) hw ⟨rfl⟩ ht hd hv.1 hv.2 (by simp [hop, Op.isLock])
      (by rw [hp]; rfl) rfl rfl rfl (fun _ hw => hw) fun _ => ⟨(by rintro ⟨⟩), fun q hq => ?_⟩
    obtain rfl : r = q := Option.some.inj (hv.2.symm.trans hq)
    refine ⟨⟨List.mem_append_right _ (List.mem_singleton_self _), by simp [hop]⟩, fun _ => .inr ?_⟩
    simp [hop, State.held, State.goto, State.emit]
  · exact h.reflag (t := t) hw ⟨rfl⟩ ht hd hv.1 (by rw [hp]; rfl) rfl rfl rfl rfl trivial

theorem Order.finish (h : Order app s) {fenced : Bool} (hp : s.pc t = .finish fenced)
    (hw : Wf ((if fenced then s else { s with mfenced := false, sfenced := false }).goto t
      (.release fenced))) :
    Order app ((if fenced then s else { s with mfenced := false, sfenced := false }).goto t
      (.release fenced)) := by
  have hv : View s (.finish fenced) := hp ▸ h.wf.view t
  have ht : (s.pc t).holds = true := by rw [hp]; rfl
  cases fenced
  · have hd : Drained app s := by have := h.facts t; rwa [hp] at this
    exact h.reflag (t := t) hw ⟨rfl⟩ ht hd hv.1 (by rw [hp]; rfl) rfl rfl rfl rfl trivial
  · exact h.control hw ⟨rfl⟩ rfl rfl rfl rfl rfl rfl (by rw [hp]; rfl) trivial

theorem Order.serve (h : Order app s) (hp : s.pc t = .serve r)
    (hw : Wf ((s.begin r).goto t (.serving r))) :
    Order app ((s.begin r).goto t (.serving r)) := by
  have hv : View s (.serve r) := hp ▸ h.wf.view t
  have hfa : Facts app s (.serve r) := hp ▸ h.facts t
  refine h.drain_start (t := t) (p := .serving r) hw ⟨by simp [State.goto]⟩ (by rw [hp]; rfl)
    hfa.1 hv.1 hv.2 hfa.2.2 (by rw [hp]; rfl) (s.begin_log r) (s.begin_next r)
    (s.begin_pendingWorks r) (fun _ hw => State.mem_begin_inflight hw) fun hd => ⟨hd, hfa.2.1, ?_⟩
  refine ⟨?_, fun hop => .inr (s.self_mem_begin_inflight hop)⟩
  show _ ∈ (s.begin r).log
  rw [s.begin_log]
  exact List.mem_append_right _ (List.mem_singleton_self _)

/-- The front request leaves the queue; a fence that leaves it is done or has its flag set. -/
theorem Order.pop (h : Order app s) {fenced : Bool} (hp : s.pc t = .pop fenced)
    (hw : Wf ({ s with pendingWorks := s.pendingWorks.tail }.goto t
      (if fenced then .finish true else .front))) :
    Order app ({ s with pendingWorks := s.pendingWorks.tail }.goto t
      (if fenced then .finish true else .front)) := by
  have hfa : Facts app s (.pop fenced) := hp ▸ h.facts t
  have ht : (s.pc t).holds = true := by rw [hp]; rfl
  have hpc : (if fenced then Pc.finish true else .front).carried = (s.pc t).carried := by
    rw [hp]
    cases fenced <;> rfl
  have m : Moves s ({ s with pendingWorks := s.pendingWorks.tail }.goto t
      (if fenced then .finish true else .front)) t (if fenced then .finish true else .front) := ⟨rfl⟩
  have hc := carried_other m hpc
  have hin : ∀ f ∈ s.pendingWorks, s.pendingWorks.head? = some f ∨ f ∈ s.pendingWorks.tail := by
    intro f hf
    cases hq : s.pendingWorks with
    | nil => rw [hq] at hf; cases hf
    | cons a q =>
      rw [hq] at hf
      exact (List.mem_cons.mp hf).imp (fun he => by simp [he]) id
  refine ⟨hw, h.book.pop rfl rfl rfl rfl hc fun r hr => (hfa.2 r hr).1, ?_,
    facts_all m ?_ (h.facts_locked ht (.inl rfl) id), h.ordered⟩
  · intro f hf hop
    rcases h.fences f hf hop with hcl | hh | hq | hcar
    · exact .inl hcl
    · exact .inr (.inl hh)
    · rcases hin f hq with hhd | htl
      · exact ((hfa.2 f hhd).2 hop).imp id fun hh => .inl hh.2
      · exact .inr (.inr (.inl htl))
    · exact .inr (.inr (.inr ((hc app).trans hcar)))
  · cases fenced
    · intro f hf hop
      rcases hfa.1 rfl f hf hop with hcl | hq | hcar
      · exact .inl hcl
      · rcases hin f hq with hhd | htl
        · exact .inl (((hfa.2 f hhd).2 hop).resolve_right (by simp))
        · exact .inr (.inl htl)
      · exact .inr (.inr ((hc app).trans hcar))
    · trivial

theorem Order.front (h : Order app s) (hp : s.pc t = .front) (hw : Wf (front t s)) :
    Order app (front t s) := by
  have hd : Drained app s := by have := h.facts t; rwa [hp] at this
  unfold Fence.front at hw ⊢
  split at hw
  · exact h.control hw ⟨rfl⟩ rfl rfl rfl rfl rfl rfl (by rw [hp]; rfl) hd
  · split at hw
    · rename_i hop
      exact h.control hw ⟨rfl⟩ rfl rfl rfl rfl rfl rfl (by rw [hp]; rfl)
        ⟨hd, by rw [hop]; rfl, by simp [hop, Op.isLock]⟩
    · rename_i hop
      exact h.control hw ⟨rfl⟩ rfl rfl rfl rfl rfl rfl (by rw [hp]; rfl)
        ⟨hd, by rw [hop]; rfl, by simp [hop, Op.isLock]⟩
    · rename_i hop
      exact h.control hw ⟨rfl⟩ rfl rfl rfl rfl rfl rfl (by rw [hp]; rfl) ⟨hd, hop⟩

theorem Order.tick (h : Order app s) (hk : ReadWaits (.tick t) s) (hs : tick t s = some s') :
    Order app s' := by
  have hw := h.wf.tick hs
  have hfa := h.facts t
  cases hp : s.pc t with
  | idle => simp [Fence.tick, hp] at hs
  | arrive r =>
    simp only [Fence.tick, hp, Option.ite_none_right_eq_some, Option.some.injEq] at hs
    obtain ⟨-, rfl⟩ := hs
    exact h.control (t := t) hw ⟨rfl⟩ rfl rfl rfl rfl rfl rfl (by rw [hp]; rfl) trivial
  | examine r =>
    simp only [Fence.tick, hp, Option.some.injEq] at hs
    subst hs
    exact h.examine hw hp hk
  | count r =>
    simp only [Fence.tick, hp, Option.some.injEq] at hs
    subst hs
    exact h.count hw hp
  | mark r =>
    simp only [Fence.tick, hp, Option.some.injEq] at hs
    subst hs
    exact h.mark hw hp
  | park r =>
    simp only [Fence.tick, hp, Option.some.injEq] at hs
    subst hs
    exact h.park hp hw
  | leave r =>
    cases r with
    | none =>
      simp only [Fence.tick, hp, Option.some.injEq] at hs
      subst hs
      exact h.control (t := t) hw ⟨rfl⟩ rfl rfl rfl rfl rfl rfl (by rw [hp]; rfl) trivial
    | some r =>
      simp only [Fence.tick, hp, Option.some.injEq] at hs
      subst hs
      rw [hp] at hfa
      exact h.control (t := t) hw ⟨rfl⟩ rfl rfl rfl rfl rfl rfl (by rw [hp]; rfl) hfa
  | execute r =>
    simp only [Fence.tick, hp, Option.some.injEq] at hs
    subst hs
    exact h.execute hp hw
  | enter back =>
    simp only [Fence.tick, hp] at hs
    cases back with
    | none =>
      split at hs <;> cases hs
      all_goals
        exact h.control (t := t) hw ⟨rfl⟩ rfl rfl rfl rfl rfl rfl (by rw [hp]; rfl) trivial
    | some r =>
      have hi := h.wf.inProcess_of_draining (t := t) (by rw [hp]; rfl)
      simp only [hi, if_true, Option.some.injEq] at hs
      subst hs
      rw [hp] at hfa
      exact h.control (t := t) hw ⟨rfl⟩ rfl rfl rfl rfl rfl rfl (by rw [hp]; rfl) hfa
  | acquire =>
    simp only [Fence.tick, hp, Option.ite_none_right_eq_some, Option.some.injEq] at hs
    obtain ⟨-, rfl⟩ := hs
    exact h.control (t := t) hw ⟨rfl⟩ rfl rfl rfl rfl rfl rfl (by rw [hp]; rfl) trivial
  | drained =>
    simp only [Fence.tick, hp, Option.some.injEq] at hs
    subst hs
    split at hw
    · rw [if_pos ‹_›]
      exact h.control (t := t) hw ⟨rfl⟩ rfl rfl rfl rfl rfl rfl (by rw [hp]; rfl)
        fun _ => h.inflight_nil ‹_›
    · rw [if_neg ‹_›]
      exact h.control (t := t) hw ⟨rfl⟩ rfl rfl rfl rfl rfl rfl (by rw [hp]; rfl) trivial
  | flagged =>
    simp only [Fence.tick, hp] at hs
    split at hs <;> cases hs
    · exact h.control (t := t) hw ⟨rfl⟩ rfl rfl rfl rfl rfl rfl (by rw [hp]; rfl)
        (h.drained_of_flagged hp ‹_›)
    · exact h.control (t := t) hw ⟨rfl⟩ rfl rfl rfl rfl rfl rfl (by rw [hp]; rfl) trivial
  | front =>
    simp only [Fence.tick, hp, Option.some.injEq] at hs
    subst hs
    exact h.front hp hw
  | recheck r =>
    simp only [Fence.tick, hp, Option.some.injEq] at hs
    subst hs
    exact h.recheck hp hw
  | serve r =>
    simp only [Fence.tick, hp, Option.some.injEq] at hs
    subst hs
    exact h.serve hp hw
  | serving r =>
    simp only [Fence.tick, hp, Option.some.injEq] at hs
    subst hs
    rw [hp] at hfa
    have hv : View s (.serving r) := hp ▸ h.wf.view t
    refine h.control (t := t) hw ⟨rfl⟩ rfl rfl rfl rfl rfl rfl (by rw [hp]; rfl)
      ⟨fun _ => hfa.1, fun q hq => ?_⟩
    obtain rfl : r = q := Option.some.inj (hv.2.symm.trans hq)
    exact ⟨hfa.2.2, fun hop => by rw [hfa.2.1] at hop; cases hop⟩
  | stop r =>
    simp only [Fence.tick, hp, Option.some.injEq] at hs
    subst hs
    exact h.stop hp hw
  | pop fenced =>
    simp only [Fence.tick, hp, Option.some.injEq] at hs
    subst hs
    exact h.pop hp hw
  | finish fenced =>
    simp only [Fence.tick, hp, Option.some.injEq] at hs
    subst hs
    exact h.finish hp hw
  | release fenced =>
    simp only [Fence.tick, hp, Option.some.injEq] at hs
    subst hs
    exact h.control (t := t) hw ⟨rfl⟩ rfl rfl rfl rfl rfl rfl (by rw [hp]; rfl) trivial
  | unlock =>
    simp only [Fence.tick, hp, Option.some.injEq] at hs
    subst hs
    exact h.control (t := t) hw ⟨rfl⟩ rfl rfl rfl rfl rfl rfl (by rw [hp]; rfl) trivial

theorem Order.submit (h : Order app s) {op : Op} (hp : s.pc app = .idle)
    (hs : step (.submit app op) s = some s') : Order app s' := by
  have hw := h.wf.step hs
  simp only [step, hp, if_true, Option.some.injEq] at hs
  subst hs
  set r : Request := ⟨op, s.next⟩
  set s' := ({ s with next := s.next + 1 }.goto app (.arrive r)).emit (.issue r)
  have m : Moves s s' app (.arrive r) := ⟨rfl⟩
  have hlog : s'.log = s.log ++ [.issue r] := rfl
  have hc : (s'.pc app).carried = some r := by rw [m.self]; rfl
  have x : Ext s.next s.log s'.log := .inr ⟨_, hlog, fun q hq => by cases hq; rfl⟩
  have hsf : SameFences app s s' := by
    intro f _ hf
    rw [hlog, List.mem_append, List.mem_singleton] at hf
    rcases hf with hf | hf
    · exact .inl ⟨hf, fun hc' => by rw [hp] at hc'; cases hc'⟩
    · cases hf
      exact .inr hc
  refine ⟨hw, ?_, ?_, facts_all m trivial fun u _ => ?_, h.ordered.other hlog (by rintro _ ⟨⟩)⟩
  · refine h.book.submit (r := r) rfl hlog rfl rfl rfl hc (by rw [hp]; rfl) fun u q hq => ?_
    by_contra hne
    rw [m.other hne] at hq
    exact hne (h.book.submitter u q hq)
  · exact h.fences.mono h.book x hsf rfl fun _ hh => hh
  · exact Facts.mono h.book x hsf rfl rfl rfl (fun _ hw => .inl hw) (fun _ hz => hz) (h.seq_lt u)
      (h.facts u)

theorem Order.notify (h : Order app s) {w : Request} (hs : step (.notify t w) s = some s') :
    Order app s' := by
  have hw := h.wf.step hs
  simp only [step, Option.ite_none_right_eq_some, Option.map_eq_some_iff] at hs
  obtain ⟨-, back, hcall, rfl⟩ := hs
  obtain ⟨hpc, hfa⟩ := Pc.caller_carried app s hcall
  set s' := (s.decrement w).goto t (.enter back)
  have m : Moves s s' t (.enter back) := ⟨rfl⟩
  have hlog : s'.log = s.log ++ [.notified w] := rfl
  have x : Ext s.next s.log s'.log := .inr ⟨_, hlog, (by rintro _ ⟨⟩)⟩
  have hc := carried_other m hpc
  have hsf : SameFences app s s' := .of_carried (hc app) fun f hf => by
    rw [hlog] at hf
    simpa using hf
  -- a write leaves `inflight` by being notified
  have hin : ∀ v ∈ s.inflight, v ∈ s'.inflight ∨ .notified v ∈ s'.log := by
    intro v hv
    by_cases hvw : v = w
    · exact .inr (by rw [hlog, hvw]; simp)
    · exact .inl ((List.mem_erase_of_ne hvw).mpr hv)
  have hmono : ∀ q, (∀ r, q.carried = some r ∨ q = .serve r → r.seq < s.next) →
      Facts app s q → Facts app s' q := fun q =>
    Facts.mono h.book x hsf rfl rfl rfl hin fun _ hz => by
      show s.inflight.erase w = []
      rw [hz]
      rfl
  refine ⟨hw, ?_, ?_, facts_all m (hmono _ (fun r hr => ?_) (hfa (h.facts t)))
    fun u _ => hmono _ (h.seq_lt u) (h.facts u), h.ordered.other hlog (by rintro _ ⟨⟩)⟩
  · refine h.book.event hlog (by rintro _ ⟨⟩) (by rintro _ ⟨⟩) rfl rfl
      (fun u q hq => h.book.submitter u q (hc u ▸ hq)) (fun q hq => hc app ▸ hq)
      (fun q hq => .inl ((hc app).trans hq)) fun v _ _ hv => ?_
    rcases hv with hv | hv
    · by_cases hvw : v = w
      · exact .inl (by rw [hvw])
      · exact .inr (.inl ((List.mem_erase_of_ne hvw).mpr hv))
    · exact .inr (.inr ((hc app).trans hv))
  · exact h.fences.mono h.book x hsf rfl fun _ hh => hh
  · exact h.seq_lt t r (hr.imp (fun hr => hpc ▸ hr) (by rintro ⟨⟩))

theorem Order.step {a : Act T} (h : Order app s) (ha : ByApp app a) (hk : ReadWaits a s)
    (hs : step a s = some s') : Order app s' := by
  cases a with
  | submit t op =>
    obtain rfl : t = app := ha
    have hp : s.pc t = .idle := by
      by_contra hne
      simp [Fence.step, hne] at hs
    exact h.submit hp hs
  | notify t w => exact h.notify hs
  | poke t =>
    have hw := h.wf.step hs
    simp only [Fence.step, Option.map_eq_some_iff] at hs
    obtain ⟨back, hcall, rfl⟩ := hs
    obtain ⟨hpc, hfa⟩ := Pc.caller_carried app s hcall
    exact h.control (t := t) hw ⟨rfl⟩ rfl rfl rfl rfl rfl rfl hpc (hfa (h.facts t))
  | tick t => exact h.tick hk hs

/-! ## The order the fences promise -/

/-- In a run where no read overtakes an MFENCE that waits behind an SFENCE, every request starts
after what the fences before it wait for, and queued requests start in their order of issue. -/
theorem fenceOrdered_of_reaches
    (h : Reaches Fence.step (fun a s => ByApp app a ∧ ReadWaits a s) (Fence.init T) s) :
    FenceOrdered s.log := by
  have hI : Order app s :=
    h.invariant (I := Order app) (Order.init app) fun _ _ _ hI hk hs => hI.step hk.1 hk.2 hs
  exact hI.ordered

end

/-- Thread 0 writes, fences and reads; thread 1 notifies the write and drains the read. -/
def drainedReadRun : List (Act (Fin 2)) :=
  [.submit 0 .write, .tick 0, .tick 0, .tick 0, .tick 0,
   .submit 0 .mfence, .tick 0, .tick 0, .tick 0, .tick 0, .tick 0,
   .submit 0 .read, .tick 0, .tick 0, .tick 0, .tick 0,
   .notify 1 ⟨.write, 0⟩, .tick 1, .tick 1, .tick 1, .tick 1, .tick 1, .tick 1]

theorem fenceOrdered_drainedReadRun :
    ∃ s : State (Fin 2), (Reaches step (fun a s => ByApp 0 a ∧ ReadWaits a s) (init (Fin 2)) s ∧
      .start ⟨.read, 2⟩ ∈ s.log) ∧ FenceOrdered s.log := by
  obtain ⟨s, hr, hs⟩ := Reaches.exists_of_runs step
    (fun a s => ByApp (0 : Fin 2) a ∧ ReadWaits a s) drainedReadRun (init (Fin 2))
    (fun s => .start ⟨.read, 2⟩ ∈ s.log) (by decide)
  exact ⟨s, ⟨hr, hs⟩, fenceOrdered_of_reaches hr⟩

/-- A pending write, an SFENCE, an MFENCE behind it, and a read. -/
def bypassRun : List (Act Unit) :=
  [.submit () .write, .tick (), .tick (), .tick (), .tick (),
   .submit () .sfence, .tick (), .tick (), .tick (), .tick (), .tick (),
   .submit () .mfence, .tick (), .tick (), .tick (), .tick (),
   .submit () .read, .tick (), .tick (), .tick (), .tick ()]

def bypassLog : List Ev :=
  [.issue ⟨.write, 0⟩, .start ⟨.write, 0⟩, .issue ⟨.sfence, 1⟩, .start ⟨.sfence, 1⟩,
   .issue ⟨.mfence, 2⟩, .park ⟨.mfence, 2⟩, .issue ⟨.read, 3⟩]

theorem not_fenceOrdered :
    ¬ ∀ s, Reaches step (fun a _ => ByApp () a) (init Unit) s → FenceOrdered s.log := by
  intro h
  obtain ⟨s, hr, hlog⟩ := Reaches.exists_of_runs step (fun a _ => ByApp () a) bypassRun (init Unit)
    (fun s => s.log = bypassLog ++ [.start ⟨.read, 3⟩]) (by decide)
  have hok := h s hr bypassLog ⟨.read, 3⟩ (hlog ▸ List.prefix_rfl)
  exact absurd (hok.mfence ⟨.mfence, 2⟩ ⟨.write, 0⟩ (by decide) (by decide) rfl rfl (by decide)
    (by decide)) (by decide)

end HwGam.Fence
