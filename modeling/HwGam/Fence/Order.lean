import HwGam.Fence.Lock
import Mathlib.Data.List.Basic

/-!
# What the fences order

`FenceOrdered` says what MFENCE, SFENCE and the locks promise about the history of one thread's
requests. `Order` is the invariant behind it: where each request is (`Book`), which fences still
hold something back (`Fences`), and what a thread in the middle of the code relies on (`Facts`).
The lemmas here say what follows from the invariant at a start, and what one event of the history
leaves alone; `OrderSteps` goes through the steps.
-/

namespace HwGam.Fence

open Lib

/-- What must have happened by the time `r` starts, after the history `pre`. -/
structure StartOk (pre : List Ev) (r : Request) : Prop where
  mfence : ∀ m w, .issue m ∈ pre → .issue w ∈ pre → m.op = .mfence → w.op = .write →
    w.seq < m.seq → m.seq < r.seq → .notified w ∈ pre
  lock : r.op.isLock = true → ∀ w, .issue w ∈ pre → w.op = .write → w.seq < r.seq →
    .notified w ∈ pre
  sfence : r.op = .write → ∀ f w, .issue f ∈ pre → .issue w ∈ pre → f.op = .sfence →
    w.op = .write → w.seq < f.seq → f.seq < r.seq → .notified w ∈ pre
  order : .park r ∈ pre → ∀ q, .park q ∈ pre → q.seq < r.seq → .start q ∈ pre

/-- Every start in the history comes after what it has to wait for. -/
def FenceOrdered (log : List Ev) : Prop :=
  ∀ pre r, pre ++ [.start r] <+: log → StartOk pre r

theorem FenceOrdered.concat {log : List Ev} {e : Ev} (h : FenceOrdered log)
    (he : ∀ r, e = .start r → StartOk log r) : FenceOrdered (log ++ [e]) := by
  intro pre r hp
  rcases List.prefix_concat_iff.mp hp with heq | hp
  · obtain ⟨rfl, hr⟩ := List.append_inj' heq rfl
    exact he r (by simpa using hr.symm)
  · exact h pre r hp

variable {T : Type*}

/-- Requests are issued by the thread the fence belongs to. -/
def ByApp (app : T) : Act T → Prop
  | .submit t _ => t = app
  | _ => True

instance [DecidableEq T] (app : T) (a : Act T) : Decidable (ByApp app a) :=
  match a with
  | .submit t _ => inferInstanceAs (Decidable (t = app))
  | .notify .. | .poke _ | .tick _ => inferInstanceAs (Decidable True)

/-- The queue holds an MFENCE with a write before it; `busy` says there are earlier ones. -/
def mfenceBehindWrite (busy : Bool) : List Request → Bool
  | [] => false
  | r :: rs => (r.op = .mfence && busy) || mfenceBehindWrite (busy || r.op = .write) rs

/-- An MFENCE waits in `pending_works` for a write that is not notified, and `mfenced` is not
set. -/
def State.mfenceWaits (s : State T) : Bool :=
  !s.mfenced && mfenceBehindWrite (s.pendingWrites ≠ 0) s.pendingWorks

def Pc.isReadCheck : Pc → Bool
  | .examine r => r.op = .read
  | _ => false

/-- No read makes its `IsMFenced` check while an MFENCE waits unset. -/
def ReadWaits (a : Act T) (s : State T) : Prop :=
  match a with
  | .tick t => (s.pc t).isReadCheck = true → s.mfenceWaits = false
  | _ => True

instance (a : Act T) (s : State T) : Decidable (ReadWaits a s) :=
  match a with
  | .tick t => inferInstanceAs
      (Decidable ((s.pc t).isReadCheck = true → s.mfenceWaits = false))
  | .submit .. | .notify .. | .poke _ => inferInstanceAs (Decidable True)

/-! ## The invariant -/

def Op.isFence : Op → Bool
  | .mfence | .sfence => true
  | _ => false

/-- The request a thread carries through the prologue, from its issue to its start or to the
queue. -/
def Pc.carried : Pc → Option Request
  | .arrive r | .examine r | .count r | .mark r | .park r | .leave (some r) | .execute r => some r
  | _ => none

/-- Every write issued before `f` is notified. -/
def Clean (log : List Ev) (f : Request) : Prop :=
  ∀ w, .issue w ∈ log → w.op = .write → w.seq < f.seq → .notified w ∈ log

/-- The flag that holds back what follows a fence with this operation. -/
def State.held (s : State T) : Op → Bool
  | .mfence => s.mfenced
  | _ => s.isFenced

/-- Where the requests are: `Book` follows each of them from its issue on. -/
structure Book (app : T) (s : State T) : Prop where
  submitter : ∀ t r, (s.pc t).carried = some r → t = app
  issued : ∀ r, .issue r ∈ s.log → r.seq < s.next
  inj : ∀ q r, .issue q ∈ s.log → .issue r ∈ s.log → q.seq = r.seq → q = r
  carried : ∀ r, (s.pc app).carried = some r →
    .issue r ∈ s.log ∧ r.seq + 1 = s.next ∧ .park r ∉ s.log
  queued : ∀ q ∈ s.pendingWorks, .park q ∈ s.log
  parked : ∀ q, .park q ∈ s.log → .issue q ∈ s.log ∧ (q ∈ s.pendingWorks ∨ .start q ∈ s.log)
  sorted : s.pendingWorks.Pairwise (fun q r => q.seq < r.seq)
  -- only a read can get past a queued request
  barrier : ∀ q ∈ s.pendingWorks, ∀ r, .issue r ∈ s.log → q.seq < r.seq →
    r ∈ s.pendingWorks ∨ (s.pc app).carried = some r ∨ r.op = .read
  located : ∀ w, .issue w ∈ s.log → w.op = .write → .notified w ∈ s.log ∨ w ∈ s.inflight ∨
    w ∈ s.pendingWorks ∨ (s.pc app).carried = some w

/-- A fence that is out of the queue and not being issued has its flag set or nothing left to
wait for. -/
def Fences (app : T) (s : State T) : Prop :=
  ∀ f, .issue f ∈ s.log → f.op.isFence = true →
    Clean s.log f ∨ s.held f.op = true ∨ f ∈ s.pendingWorks ∨ (s.pc app).carried = some f

/-- During a drain the flags say nothing, and the fences that are out are done. -/
def Drained (app : T) (s : State T) : Prop :=
  ∀ f, .issue f ∈ s.log → f.op.isFence = true →
    Clean s.log f ∨ f ∈ s.pendingWorks ∨ (s.pc app).carried = some f

/-- The request past the fence may start. -/
structure Direct (s : State T) (r : Request) : Prop where
  notFence : r.op.isFence = false
  unfenced : r.op ≠ .read → s.isFenced = false
  lock : r.op.isLock = true → Clean s.log r
  mfence : ∀ m, .issue m ∈ s.log → m.op = .mfence → m.seq < r.seq → Clean s.log m

/-- The front request of a drain has been executed. -/
def Begun (s : State T) (r : Request) : Prop :=
  .start r ∈ s.log ∧ (r.op = .write → .notified r ∈ s.log ∨ r ∈ s.inflight)

/-- What a thread at a program counter relies on. -/
def Facts (app : T) (s : State T) : Pc → Prop
  | .count r | .mark r => r.op ≠ .read ∧ r.op ≠ .write
  | .leave (some r) | .execute r => Direct s r
  | .flagged => s.isFenced = true → s.inflight = []
  | .front | .stop _ | .finish false => Drained app s
  | .recheck r => Drained app s ∧ r.op ≠ .write
  | .serve r => Drained app s ∧ r.op.isFence = false ∧ (r.op.isLock = true → Clean s.log r)
  | .serving r | .enter (some r) => Drained app s ∧ r.op.isFence = false ∧ Begun s r
  | .pop fenced => (fenced = false → Drained app s) ∧
      ∀ r, s.pendingWorks.head? = some r → Begun s r ∧
        (r.op.isFence = true → Clean s.log r ∨ fenced = true ∧ s.held r.op = true)
  | _ => True

structure Order (app : T) (s : State T) : Prop where
  wf : Wf s
  book : Book app s
  fences : Fences app s
  facts : ∀ t, Facts app s (s.pc t)
  ordered : FenceOrdered s.log

/-! ## Consequences used at a start -/

section
variable {app t : T} {s : State T} {r : Request}

theorem Order.inflight_nil (h : Order app s) (hz : s.pendingWrites = 0) : s.inflight = [] := by
  have := h.wf.writes
  exact List.length_eq_zero_iff.mp (by omega)

theorem Order.queue_nil (h : Order app s) (hf : s.isFenced = false) : s.pendingWorks = [] := by
  by_contra hne
  rw [h.wf.queue hne] at hf
  cases hf

/-- The request being issued comes after every other. -/
theorem Book.le_carried (h : Book app s) {q : Request} (hc : (s.pc app).carried = some r)
    (hq : .issue q ∈ s.log) : q.seq ≤ r.seq := by
  have := (h.carried r hc).2.1
  have := h.issued q hq
  omega

/-- Nothing is left to wait for once no write is in flight and none is queued before `f`. -/
theorem Order.clean_of_idle (h : Order app s) {f : Request} (hf : .issue f ∈ s.log)
    (hi : s.inflight = [])
    (hq : ∀ w ∈ s.pendingWorks, w.op = .write → ¬ w.seq < f.seq) : Clean s.log f := by
  intro w hw hop hlt
  rcases h.book.located w hw hop with hn | hin | hin | hc
  · exact hn
  · rw [hi] at hin
    cases hin
  · exact absurd hlt (hq w hin hop)
  · have := h.book.le_carried hc hf
    omega

/-- The front of the queue comes before the rest of it and before the request being issued. -/
theorem Order.front_lt (h : Order app s) {f : Request} (hr : s.pendingWorks.head? = some r)
    (hlt : f.seq < r.seq) : f ∉ s.pendingWorks ∧ (s.pc app).carried ≠ some f := by
  obtain ⟨q, hq⟩ : ∃ q, s.pendingWorks = r :: q := by
    cases hp : s.pendingWorks with
    | nil => rw [hp] at hr; cases hr
    | cons a q => rw [hp] at hr; cases hr; exact ⟨q, rfl⟩
  have hs := h.book.sorted
  have hi := (h.book.parked r (h.book.queued r (by simp [hq]))).1
  rw [hq] at hs ⊢
  constructor
  · intro hm
    rcases List.mem_cons.mp hm with rfl | hm
    · omega
    · have := (List.pairwise_cons.mp hs).1 f hm
      omega
  · intro hc
    have := h.book.le_carried hc hi
    omega

/-- A fence issued before the front request of a drain is done. -/
theorem Order.clean_of_drained (h : Order app s) (hd : Drained app s) {f : Request}
    (hr : s.pendingWorks.head? = some r) (hf : .issue f ∈ s.log) (hop : f.op.isFence = true)
    (hlt : f.seq < r.seq) : Clean s.log f := by
  obtain ⟨hq, hc⟩ := h.front_lt hr hlt
  rcases hd f hf hop with h | h | h
  · exact h
  · exact absurd h hq
  · exact absurd h hc

/-- A fence issued earlier is done when no flag is set and `r` is being issued. -/
theorem Order.clean_of_unfenced (h : Order app s) (hu : s.isFenced = false) {f : Request}
    (hc : (s.pc app).carried = some r) (hf : .issue f ∈ s.log) (hop : f.op.isFence = true)
    (hlt : f.seq < r.seq) : Clean s.log f := by
  rcases h.fences f hf hop with hcl | hh | hq | hc'
  · exact hcl
  · have hm : s.held f.op = false := by
      simp only [State.isFenced, Bool.or_eq_false_iff] at hu
      unfold State.held
      split <;> simp [State.isFenced, hu.1, hu.2]
    rw [hm] at hh
    cases hh
  · rw [h.queue_nil hu] at hq
    cases hq
  · rw [hc] at hc'
    cases hc'
    omega

/-- The front request of a drain may start. -/
theorem Order.startOk_front (h : Order app s) (hd : Drained app s)
    (hr : s.pendingWorks.head? = some r) (hl : r.op.isLock = true → Clean s.log r) :
    StartOk s.log r where
  mfence m w hm hw hop hwop hwm hmr :=
    h.clean_of_drained hd hr hm (by simp [hop, Op.isFence]) hmr w hw hwop hwm
  lock hlock w hw hwop hlt := hl hlock w hw hwop hlt
  sfence _ f w hf hw hop hwop hwf hfr :=
    h.clean_of_drained hd hr hf (by simp [hop, Op.isFence]) hfr w hw hwop hwf
  order _ q hq hlt := by
    rcases (h.book.parked q hq).2 with hin | hst
    · exact absurd hin (h.front_lt hr hlt).1
    · exact hst

/-- A request that went past the fence may start. -/
theorem Order.startOk_direct (h : Order app s) (hc : (s.pc app).carried = some r)
    (hd : Direct s r) : StartOk s.log r where
  mfence m w hm hw hop hwop hwm hmr := hd.mfence m hm hop hmr w hw hwop hwm
  lock hlock w hw hwop hlt := hd.lock hlock w hw hwop hlt
  sfence hwr f w hf hw hop hwop hwf hfr :=
    h.clean_of_unfenced (hd.unfenced (by simp [hwr])) hc hf (by simp [hop, Op.isFence]) hfr w hw
      hwop hwf
  order hp := absurd hp (h.book.carried r hc).2.2

theorem mfenceBehindWrite_eq_false {q : List Request} {busy : Bool}
    (hs : q.Pairwise (fun q r => q.seq < r.seq)) (h : mfenceBehindWrite busy q = false)
    {m : Request} (hm : m ∈ q) (hop : m.op = .mfence) :
    busy = false ∧ ∀ w ∈ q, w.op = .write → ¬ w.seq < m.seq := by
  induction q generalizing busy with
  | nil => cases hm
  | cons a q ih =>
    simp only [mfenceBehindWrite, Bool.or_eq_false_iff, Bool.and_eq_false_iff,
      decide_eq_false_iff_not] at h
    obtain ⟨hlt, hs⟩ := List.pairwise_cons.mp hs
    rcases List.mem_cons.mp hm with rfl | hm
    · refine ⟨by simpa [hop] using h.1, fun w hw _ => ?_⟩
      rcases List.mem_cons.mp hw with rfl | hw
      · omega
      · have := hlt w hw
        omega
    · obtain ⟨hb, hrest⟩ := ih hs h.2 hm
      simp only [Bool.or_eq_false_iff, decide_eq_false_iff_not] at hb
      refine ⟨hb.1, fun w hw hwop => ?_⟩
      rcases List.mem_cons.mp hw with rfl | hw
      · exact absurd hwop hb.2
      · exact hrest w hw hwop

/-- The read that makes its check under the condition waits for every MFENCE before it. -/
theorem Order.clean_of_read (h : Order app s) (hm : s.mfenced = false)
    (hw : s.mfenceWaits = false) (hc : (s.pc app).carried = some r) {m : Request}
    (hi : .issue m ∈ s.log) (hop : m.op = .mfence) (hlt : m.seq < r.seq) : Clean s.log m := by
  rcases h.fences m hi (by simp [hop, Op.isFence]) with hcl | hh | hq | hc'
  · exact hcl
  · rw [hop, State.held, hm] at hh
    cases hh
  · simp only [State.mfenceWaits, hm, Bool.not_false, Bool.true_and] at hw
    obtain ⟨hb, hq'⟩ := mfenceBehindWrite_eq_false h.book.sorted hw hq hop
    exact h.clean_of_idle hi (h.inflight_nil (by simpa using hb)) hq'
  · rw [hc] at hc'
    cases hc'
    omega

end

/-! ## What one event does to the bookkeeping -/

section
variable {app t : T} {s s' : State T} {r : Request} {p : Pc}

/-- The history gains one event that is no issue; the queue stays. -/
theorem Book.event (h : Book app s) {e : Ev} (hlog : s'.log = s.log ++ [e])
    (he : ∀ r, e ≠ .issue r) (hep : ∀ r, e ≠ .park r) (hn : s'.next = s.next)
    (hq : s'.pendingWorks = s.pendingWorks)
    (hsub : ∀ u r, (s'.pc u).carried = some r → u = app)
    (hc : ∀ r, (s'.pc app).carried = some r → (s.pc app).carried = some r)
    (hb : ∀ r, (s.pc app).carried = some r → (s'.pc app).carried = some r ∨
      r.op = .read ∨ s.pendingWorks = [])
    (hl : ∀ w, w.op = .write → .issue w ∈ s.log → w ∈ s.inflight ∨ (s.pc app).carried = some w →
      e = .notified w ∨ w ∈ s'.inflight ∨ (s'.pc app).carried = some w) : Book app s' where
  submitter := hsub
  issued r hr := by
    rw [hlog] at hr
    have := h.issued r
    grind
  inj q r hq hr := by
    rw [hlog] at hq hr
    have := h.inj q r
    grind
  carried r hr := by
    have := h.carried r (hc r hr)
    rw [hlog, hn]
    grind
  queued q hin := by
    rw [hq] at hin
    rw [hlog]
    exact List.mem_append_left _ (h.queued q hin)
  parked q hp := by
    rw [hlog] at hp ⊢
    have := h.parked q
    rw [hq]
    grind
  sorted := hq ▸ h.sorted
  barrier q hin r hr hlt := by
    rw [hq] at hin ⊢
    rw [hlog] at hr
    have hr' : .issue r ∈ s.log := by grind
    rcases h.barrier q hin r hr' hlt with h1 | h1 | h1
    · exact .inl h1
    · rcases hb r h1 with h2 | h2 | h2
      · exact .inr (.inl h2)
      · exact .inr (.inr h2)
      · rw [h2] at hin
        cases hin
    · exact .inr (.inr h1)
  located w hw hop := by
    rw [hlog] at hw ⊢
    rw [hq]
    have hw' : .issue w ∈ s.log := by grind
    have := h.located w hw' hop
    have := hl w hop hw'
    grind

theorem Book.same (h : Book app s) (hlog : s'.log = s.log) (hn : s'.next = s.next)
    (hq : s'.pendingWorks = s.pendingWorks) (hi : s'.inflight = s.inflight)
    (hc : ∀ u, (s'.pc u).carried = (s.pc u).carried) : Book app s' where
  submitter u r hr := h.submitter u r (hc u ▸ hr)
  issued r hr := by rw [hn]; exact h.issued r (hlog ▸ hr)
  inj q r hq hr := h.inj q r (hlog ▸ hq) (hlog ▸ hr)
  carried r hr := by rw [hlog, hn]; exact h.carried r (hc app ▸ hr)
  queued q hin := by rw [hlog]; exact h.queued q (hq ▸ hin)
  parked q hp := by rw [hlog, hq]; exact h.parked q (hlog ▸ hp)
  sorted := hq ▸ h.sorted
  barrier q hin r hr hlt := by
    rw [hq, hc]
    exact h.barrier q (hq ▸ hin) r (hlog ▸ hr) hlt
  located w hw hop := by
    rw [hlog, hi, hq, hc]
    exact h.located w (hlog ▸ hw) hop

theorem Book.submit (h : Book app s) (hr : r.seq = s.next) (hlog : s'.log = s.log ++ [.issue r])
    (hn : s'.next = s.next + 1) (hq : s'.pendingWorks = s.pendingWorks)
    (hi : s'.inflight = s.inflight) (hc : (s'.pc app).carried = some r)
    (hc0 : (s.pc app).carried = none)
    (hsub : ∀ u r, (s'.pc u).carried = some r → u = app) : Book app s' where
  submitter := hsub
  issued q hq := by
    rw [hlog] at hq
    have := h.issued q
    grind
  inj q q' hq hq' heq := by
    rw [hlog] at hq hq'
    have := h.inj q q'
    have := h.issued q
    have := h.issued q'
    grind
  carried q hq := by
    rw [hc] at hq
    cases hq
    refine ⟨by rw [hlog]; simp, by omega, fun hp => ?_⟩
    have hp' : .park r ∈ s.log := by rw [hlog] at hp; simpa using hp
    have := h.issued r (h.parked r hp').1
    omega
  queued q hin := by
    rw [hlog]
    exact List.mem_append_left _ (h.queued q (hq ▸ hin))
  parked q hp := by
    rw [hlog] at hp ⊢
    have := h.parked q
    rw [hq]
    grind
  sorted := hq ▸ h.sorted
  barrier q hin r' hr' hlt := by
    rw [hq] at hin ⊢
    rw [hlog] at hr'
    have := h.barrier q hin r'
    grind
  located w hw hop := by
    rw [hlog] at hw ⊢
    rw [hi, hq]
    have := h.located w
    grind

/-- `AddToFence` by the issuing thread. -/
theorem Book.park (h : Book app s) (hc : (s.pc app).carried = some r)
    (hlog : s'.log = s.log ++ [.park r]) (hn : s'.next = s.next)
    (hq : s'.pendingWorks = s.pendingWorks ++ [r]) (hi : s'.inflight = s.inflight)
    (hc' : ∀ u, (s'.pc u).carried = none) : Book app s' where
  submitter u q hq := by rw [hc'] at hq; cases hq
  issued q hq := by
    rw [hlog] at hq
    have := h.issued q
    grind
  inj q q' hq hq' := by
    rw [hlog] at hq hq'
    have := h.inj q q'
    grind
  carried q hq := by rw [hc'] at hq; cases hq
  queued q hin := by
    rw [hlog]
    have := h.queued q
    grind
  parked q hp := by
    rw [hlog] at hp ⊢
    rw [hq]
    have := h.parked q
    have := (h.carried r hc).1
    grind
  sorted := by
    rw [hq, List.pairwise_append]
    refine ⟨h.sorted, List.pairwise_singleton _ _, fun q hin r' hr' => ?_⟩
    obtain rfl : r' = r := by simpa using hr'
    -- an earlier request, and not the same one: `r` is not in the queue yet
    have hi := (h.parked q (h.queued q hin)).1
    have hle := h.le_carried hc hi
    have hne : q.seq ≠ r'.seq := by
      intro heq
      have := h.inj q r' hi (h.carried r' hc).1 heq
      exact (h.carried r' hc).2.2 (this ▸ h.queued q hin)
    omega
  barrier q hin r' hr' hlt := by
    rw [hlog] at hr'
    have hr'' : .issue r' ∈ s.log := by grind
    rw [hq] at hin ⊢
    rcases List.mem_append.mp hin with hin | hin
    · rcases h.barrier q hin r' hr'' hlt with h1 | h1 | h1
      · exact .inl (List.mem_append_left _ h1)
      · rw [hc] at h1
        cases h1
        exact .inl (by simp)
      · exact .inr (.inr h1)
    · obtain rfl : q = r := by simpa using hin
      have := h.le_carried hc hr''
      omega
  located w hw hop := by
    rw [hlog] at hw ⊢
    rw [hi, hq, hc']
    have := h.located w
    grind

/-- The front request, executed, leaves the queue. -/
theorem Book.pop (h : Book app s) (hlog : s'.log = s.log) (hn : s'.next = s.next)
    (hq : s'.pendingWorks = s.pendingWorks.tail) (hi : s'.inflight = s.inflight)
    (hc : ∀ u, (s'.pc u).carried = (s.pc u).carried)
    (hb : ∀ r, s.pendingWorks.head? = some r → Begun s r) : Book app s' := by
  cases hp : s.pendingWorks with
  | nil =>
    refine h.same hlog hn ?_ hi hc
    rw [hq, hp]
    rfl
  | cons a q =>
    have hs := h.sorted
    rw [hp, List.pairwise_cons] at hs
    have hbeg := hb a (by rw [hp]; rfl)
    have hq' : s'.pendingWorks = q := by rw [hq, hp]; rfl
    refine ⟨fun u r hr => h.submitter u r (hc u ▸ hr), fun r hr => ?_, fun q r hq hr => ?_,
      fun r hr => ?_, fun q' hin => ?_, fun q' hpk => ?_, hq' ▸ hs.2, fun q' hin r hr hlt => ?_,
      fun w hw hop => ?_⟩
    · rw [hn]
      exact h.issued r (hlog ▸ hr)
    · exact h.inj q r (hlog ▸ hq) (hlog ▸ hr)
    · rw [hlog, hn]
      exact h.carried r (hc app ▸ hr)
    · rw [hlog]
      exact h.queued q' (by rw [hp]; exact List.mem_cons_of_mem _ (hq' ▸ hin))
    · rw [hlog] at hpk ⊢
      have := h.parked q' hpk
      rw [hp] at this
      rw [hq']
      have := hbeg.1
      grind
    · rw [hq'] at hin ⊢
      rw [hlog] at hr
      have hlt' := hs.1 q' hin
      have := h.barrier q' (by rw [hp]; exact List.mem_cons_of_mem _ hin) r hr hlt
      rw [hp] at this
      rw [hc]
      grind
    · rw [hlog] at hw ⊢
      have := h.located w hw hop
      rw [hp] at this
      rw [hi, hq', hc]
      have := hbeg.2
      grind

/-! ## What one event leaves alone -/

/-- The history gains at most one event, and an issue comes last in the order. -/
def Ext (n : Nat) (l l' : List Ev) : Prop :=
  l' = l ∨ ∃ e, l' = l ++ [e] ∧ ∀ r, e = .issue r → r.seq = n

theorem Ext.mem {n : Nat} {l l' : List Ev} (x : Ext n l l') {e : Ev} (h : e ∈ l) : e ∈ l' := by
  rcases x with rfl | ⟨_, rfl, _⟩
  · exact h
  · exact List.mem_append_left _ h

theorem Ext.issue {n : Nat} {l l' : List Ev} (x : Ext n l l') (h : .issue r ∈ l') :
    .issue r ∈ l ∨ r.seq = n := by
  rcases x with rfl | ⟨e, rfl, he⟩
  · exact .inl h
  · rcases List.mem_append.mp h with h | h
    · exact .inl h
    · exact .inr (he r (List.mem_singleton.mp h).symm)

theorem Clean.mono {n : Nat} {l l' : List Ev} (x : Ext n l l') (hr : r.seq ≤ n)
    (h : Clean l r) : Clean l' r := by
  intro w hw hop hlt
  rcases x.issue hw with hw | hw
  · exact x.mem (h w hw hop hlt)
  · omega

theorem Direct.mono (b : Book app s) (x : Ext s.next s.log s'.log) (hr : r.seq < s.next)
    (hf : s.isFenced = false → s'.isFenced = false) (h : Direct s r) : Direct s' r where
  notFence := h.notFence
  unfenced hne := hf (h.unfenced hne)
  lock hl := (h.lock hl).mono x (by omega)
  mfence m hm hop hlt := by
    rcases x.issue hm with hm | hm
    · exact (h.mfence m hm hop hlt).mono x (by have := b.issued m hm; omega)
    · omega

theorem Begun.mono (x : Ext s.next s.log s'.log)
    (hin : ∀ w ∈ s.inflight, w ∈ s'.inflight ∨ .notified w ∈ s'.log) (h : Begun s r) :
    Begun s' r := by
  refine ⟨x.mem h.1, fun hop => ?_⟩
  rcases h.2 hop with hn | hm
  · exact .inl (x.mem hn)
  · exact (hin r hm).symm

/-- The fences issued in `s'` were issued in `s`, or the last one is just being issued. -/
def SameFences (app : T) (s s' : State T) : Prop :=
  ∀ f, f.op.isFence = true → .issue f ∈ s'.log →
    (.issue f ∈ s.log ∧ ((s.pc app).carried = some f → (s'.pc app).carried = some f)) ∨
      (s'.pc app).carried = some f

theorem Drained.mono (b : Book app s) (x : Ext s.next s.log s'.log) (hs : SameFences app s s')
    (hq : ∀ f ∈ s.pendingWorks, f.op.isFence = true → f ∈ s'.pendingWorks)
    (h : Drained app s) : Drained app s' := by
  intro f hf hop
  rcases hs f hop hf with ⟨hf', hc⟩ | hc
  · rcases h f hf' hop with hcl | hin | hc'
    · exact .inl (hcl.mono x (by have := b.issued f hf'; omega))
    · exact .inr (.inl (hq f hin hop))
    · exact .inr (.inr (hc hc'))
  · exact .inr (.inr hc)

theorem Fences.mono (b : Book app s) (x : Ext s.next s.log s'.log) (hs : SameFences app s s')
    (hq : s'.pendingWorks = s.pendingWorks)
    (hh : ∀ op, s.held op = true → s'.held op = true) (h : Fences app s) : Fences app s' := by
  intro f hf hop
  rcases hs f hop hf with ⟨hf', hc⟩ | hc
  · rcases h f hf' hop with hcl | hh' | hin | hc'
    · exact .inl (hcl.mono x (by have := b.issued f hf'; omega))
    · exact .inr (.inl (hh _ hh'))
    · exact .inr (.inr (.inl (hq ▸ hin)))
    · exact .inr (.inr (.inr (hc hc')))
  · exact .inr (.inr (.inr hc))

theorem Fences.of_drained (h : Drained app s) : Fences app s := fun f hf hop =>
  (h f hf hop).imp id .inr

theorem SameFences.of_carried (hc : (s'.pc app).carried = (s.pc app).carried)
    (hi : ∀ f, .issue f ∈ s'.log → .issue f ∈ s.log) : SameFences app s s' :=
  fun f _ hf => .inl ⟨hi f hf, fun h => hc.trans h⟩

theorem held_congr {op : Op} (hm : s'.mfenced = s.mfenced) (hs : s'.sfenced = s.sfenced) :
    s'.held op = s.held op := by
  cases op <;> simp [State.held, State.isFenced, hm, hs]

/-- A thread's facts survive a step of another thread that touches neither flags nor queue. -/
theorem Facts.mono (b : Book app s) (x : Ext s.next s.log s'.log) (hs : SameFences app s s')
    (hq : s'.pendingWorks = s.pendingWorks) (hm : s'.mfenced = s.mfenced)
    (hsf : s'.sfenced = s.sfenced)
    (hin : ∀ w ∈ s.inflight, w ∈ s'.inflight ∨ .notified w ∈ s'.log)
    (hnil : s.isFenced = true → s.inflight = [] → s'.inflight = [])
    (hp : ∀ r, p.carried = some r ∨ p = .serve r → r.seq < s.next) (h : Facts app s p) :
    Facts app s' p := by
  have hD : Drained app s → Drained app s' := Drained.mono b x hs fun f hin _ => hq ▸ hin
  have hf : s'.isFenced = s.isFenced := by simp [State.isFenced, hm, hsf]
  cases p with
  | count r | mark r => exact h
  | leave r =>
    cases r with
    | none => trivial
    | some r => exact Direct.mono b x (hp r (.inl rfl)) (by rw [hf]; exact id) h
  | execute r => exact Direct.mono b x (hp r (.inl rfl)) (by rw [hf]; exact id) h
  | flagged => exact fun hf' => hnil (hf ▸ hf') (h (hf ▸ hf'))
  | front | stop r => exact hD h
  | recheck r => exact ⟨hD h.1, h.2⟩
  | finish fenced =>
    cases fenced
    · exact hD h
    · trivial
  | serve r =>
    exact ⟨hD h.1, h.2.1, fun hl => (h.2.2 hl).mono x (by have := hp r (.inr rfl); omega)⟩
  | serving r => exact ⟨hD h.1, h.2.1, h.2.2.mono x hin⟩
  | enter back =>
    cases back with
    | none => trivial
    | some r => exact ⟨hD h.1, h.2.1, h.2.2.mono x hin⟩
  | pop fenced =>
    refine ⟨fun he => hD (h.1 he), fun r hr => ?_⟩
    obtain ⟨hb, hc⟩ := h.2 r (hq ▸ hr)
    refine ⟨hb.mono x hin, fun hop => ?_⟩
    have hlt : r.seq < s.next := by
      have hin : r ∈ s.pendingWorks := List.mem_of_mem_head? (by rw [← hq, hr]; rfl)
      exact b.issued r (b.parked r (b.queued r hin)).1
    rcases hc hop with hc | ⟨he, hh⟩
    · exact .inl (hc.mono x (by omega))
    · exact .inr ⟨he, by rwa [held_congr hm hsf]⟩
  | _ => trivial

/-- A thread without the lock relies on something only between its unlock and its start. -/
theorem Facts.of_not_holds (hp : p.holds = false) (h : ∀ r, p = .execute r → Direct s r) :
    Facts app s p := by
  cases p with
  | execute r => exact h r rfl
  | enter back => cases back <;> simp_all [Pc.holds, Facts]
  | _ => simp_all [Pc.holds, Facts]

/-- Requests in the hands of a thread are issued. -/
theorem Order.seq_lt (h : Order app s) (u : T) (r : Request)
    (hr : (s.pc u).carried = some r ∨ s.pc u = .serve r) : r.seq < s.next := by
  rcases hr with hr | hr
  · obtain rfl := h.book.submitter u r hr
    exact h.book.issued r (h.book.carried r hr).1
  · have hv : View s (.serve r) := hr ▸ h.wf.view u
    have hin : r ∈ s.pendingWorks := List.mem_of_mem_head? (by rw [hv.2]; rfl)
    exact h.book.issued r (h.book.parked r (h.book.queued r hin)).1

theorem FenceOrdered.start (h : FenceOrdered s.log) (hlog : s'.log = s.log ++ [.start r])
    (hr : StartOk s.log r) : FenceOrdered s'.log := by
  rw [hlog]
  exact h.concat fun q hq => by cases hq; exact hr

theorem FenceOrdered.other {e : Ev} (h : FenceOrdered s.log) (hlog : s'.log = s.log ++ [e])
    (he : ∀ r, e ≠ .start r) : FenceOrdered s'.log := by
  rw [hlog]
  exact h.concat fun q hq => absurd hq (he q)

theorem Ext.start (hlog : s'.log = s.log ++ [.start r]) : Ext s.next s.log s'.log :=
  .inr ⟨_, hlog, (by rintro _ ⟨⟩)⟩

/-- A step of the lock's holder: of the others, only one about to start relies on anything. -/
theorem Order.facts_locked (h : Order app s) (ht : (s.pc t).holds = true)
    (x : Ext s.next s.log s'.log) (hf : s.isFenced = false → s'.isFenced = false) (u : T)
    (hu : u ≠ t) : Facts app s' (s.pc u) := by
  refine Facts.of_not_holds (h.wf.not_holds ht hu) fun r hr => ?_
  have hd : Direct s r := by
    have := h.facts u
    rwa [hr] at this
  exact hd.mono h.book x (h.seq_lt u r (.inl (by rw [hr]; rfl))) hf

/-- A step of the issuing thread under the lock: the others rely on nothing. -/
theorem Order.facts_app (h : Order app s) (ht : (s.pc app).holds = true) (u : T)
    (hu : u ≠ app) : Facts app s' (s.pc u) := by
  refine Facts.of_not_holds (h.wf.not_holds ht hu) fun r hr => ?_
  exact absurd (h.book.submitter u r (by rw [hr]; rfl)) hu

/-- `pending_writes` was zero and no write has started since, so a drain begins with every fence
that is out of the queue done. -/
theorem Order.drained_of_flagged (h : Order app s) (hp : s.pc t = .flagged)
    (hf : s.isFenced = true) : Drained app s := by
  have hi : s.inflight = [] := by
    have := h.facts t
    rw [hp] at this
    exact this hf
  intro f hfi hop
  by_cases hq : f ∈ s.pendingWorks
  · exact .inr (.inl hq)
  by_cases hc : (s.pc app).carried = some f
  · exact .inr (.inr hc)
  refine .inl (h.clean_of_idle hfi hi fun w hw _ hlt => ?_)
  rcases h.book.barrier w hw f hfi hlt with h1 | h1 | h1
  · exact hq h1
  · exact hc h1
  · rw [h1] at hop
    cases hop

theorem Pc.caller_carried (app : T) (s : State T) {back : Option Request}
    (h : p.caller = some back) :
    (Pc.enter back).carried = p.carried ∧ (Facts app s p → Facts app s (.enter back)) := by
  cases p with
  | idle | serving r => cases h; exact ⟨rfl, id⟩
  | _ => cases h

theorem Order.init (app : T) : Order app (init T) where
  wf := Wf.init
  book := by constructor <;> simp [Fence.init, Pc.carried]
  fences := by simp [Fences, Fence.init]
  facts t := by simp [Fence.init, Facts]
  ordered pre r hp := by simp [Fence.init] at hp

end

end HwGam.Fence
