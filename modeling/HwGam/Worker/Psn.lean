import HwGam.Lib.Transition
import Mathlib.Algebra.Group.Nat.Defs
import Mathlib.Data.BitVec
import Mathlib.Logic.Function.Basic

/-!
# Request identifiers

`Worker::GetWorkPsn` counts in an `atomic<unsigned int>` and skips zero; `AddToPending` files the
request under the identifier and `ErasePendingWork` forgets it when the last reply is in. Between
the draw and the filing the identifier sits in the request only.

`drawn`, `sent` and `draws` are history: the calls of `GetWorkPsn` are numbered from one, and each
request that holds an identifier is known by the number of the call that drew it.
-/

namespace HwGam.Worker

variable {R : Type*}

structure Works (R : Type*) where
  wrPsn : BitVec 32
  /-- `HashTable<unsigned int, WorkRequest*>`. -/
  pendingWorks : BitVec 32 → Option R
  /-- Requests with an identifier that are not filed yet. -/
  drawn : Nat → Option (BitVec 32 × R)
  /-- Requests filed and not erased. -/
  sent : Nat → Option (BitVec 32 × R)
  draws : Nat

def Works.init : Works R := ⟨0, fun _ => none, fun _ => none, fun _ => none, 0⟩

/-- `Worker::GetWorkPsn`: the new value of `wr_psn`, which is also the identifier. -/
def getWorkPsn (wrPsn : BitVec 32) : BitVec 32 :=
  let ret := wrPsn + 1
  if ret = 0 then ret + 1 else ret

/-- `wr->id = GetWorkPsn()`. -/
def Works.draw (w : Works R) (wr : R) : Works R :=
  let id := getWorkPsn w.wrPsn
  { w with
    wrPsn := id
    drawn := Function.update w.drawn (w.draws + 1) (some (id, wr))
    draws := w.draws + 1 }

/-- `Worker::AddToPending`: `pending_works[id] = wr`. -/
def Works.addToPending (w : Works R) (id : BitVec 32) (wr : R) : Works R :=
  { w with pendingWorks := Function.update w.pendingWorks id (some wr) }

/-- `Worker::ErasePendingWork`. -/
def Works.erasePendingWork (w : Works R) (id : BitVec 32) : Works R :=
  { w with
    pendingWorks := Function.update w.pendingWorks id none
    sent := fun n => (w.sent n).filter (fun t => t.1 ≠ id) }

/-- `Worker::GetPendingWork`, by which a reply finds its request. -/
def Works.getPendingWork (w : Works R) (id : BitVec 32) : Option R := w.pendingWorks id

inductive Act (R : Type*) where
  | draw (wr : R)
  /-- `AddToPending(wr->id, wr)` for the request of the `n`-th draw. -/
  | add (n : Nat)
  /-- The request of the `n`-th draw is dropped without being filed. -/
  | drop (n : Nat)
  | erase (id : BitVec 32)

def step : Act R → Works R → Option (Works R)
  | .draw wr, w => some (w.draw wr)
  | .add n, w => do
    let (id, wr) ← w.drawn n
    some { w.addToPending id wr with
      drawn := Function.update w.drawn n none
      sent := Function.update w.sent n (some (id, wr)) }
  | .drop n, w => do
    let _ ← w.drawn n
    some { w with drawn := Function.update w.drawn n none }
  | .erase id, w => some (w.erasePendingWork id)

/-- The flags of `SubmitRequest` that decide about the identifier. -/
structure SubmitFlags where
  reply : Bool
  requestNoId : Bool
  addToPending : Bool
  deriving DecidableEq, Repr

/-- What `Worker::SubmitRequest` does to the worker before it sends `wr`; `n` is the draw of the
identifier `wr` comes with, if it has one. -/
def submitRequest (flag : SubmitFlags) (wr : R) (n : Nat) (w : Works R) : Option (Works R) :=
  let w' := if flag.reply || flag.requestNoId then w else w.draw wr
  let n' := if flag.reply || flag.requestNoId then n else w.draws + 1
  if flag.addToPending then step (.add n') w' else some w'

/-- The request of the `n`-th draw holds the identifier `id`. -/
def Works.Live (w : Works R) (n : Nat) (id : BitVec 32) (wr : R) : Prop :=
  w.drawn n = some (id, wr) ∨ w.sent n = some (id, wr)

/-- What a step may rely on: an identifier drawn is not zero and not a key of `pending_works`, and
a filing finds no entry of another request. -/
def Act.Safe : Act R → Works R → Prop
  | .draw _, w => getWorkPsn w.wrPsn ≠ 0 ∧ w.pendingWorks (getWorkPsn w.wrPsn) = none
  | .add n, w => ∀ id wr, w.drawn n = some (id, wr) → w.pendingWorks id = none
  | _, _ => True

/-- A reply finds the request that caused it. -/
def Works.Matched (w : Works R) : Prop :=
  ∀ n id wr, w.sent n = some (id, wr) → w.getPendingWork id = some wr

/-- The values `wr_psn` runs through before it comes back to the same one. -/
def psnPeriod : Nat := 2 ^ 32 - 1

/-- Every identifier in use was drawn fewer than `psnPeriod` calls ago, this one included. -/
def Works.Young (w : Works R) : Prop :=
  ∀ n id wr, w.Live n id wr → w.draws + 1 - n < psnPeriod

/-- An identifier is drawn only while those in use are young. -/
def drawsYoung : Act R → Works R → Prop
  | .draw _, w => w.Young
  | _, _ => True

/-! ## The identifier of a draw -/

/-- The value of `wr_psn` after `n` calls of `GetWorkPsn`. -/
def psnOf (n : Nat) : BitVec 32 :=
  if n = 0 then 0 else BitVec.ofNat 32 ((n - 1) % psnPeriod + 1)

theorem psnOf_toNat {n : Nat} (h : 1 ≤ n) : (psnOf n).toNat = (n - 1) % psnPeriod + 1 := by
  rw [psnOf, if_neg (by omega), BitVec.toNat_ofNat]
  apply Nat.mod_eq_of_lt
  have := Nat.mod_lt (n - 1) (show 0 < psnPeriod by decide)
  simp only [psnPeriod] at this ⊢
  omega

theorem getWorkPsn_toNat (x : BitVec 32) :
    (getWorkPsn x).toNat = if x.toNat + 1 = 2 ^ 32 then 1 else x.toNat + 1 := by
  have hx := x.isLt
  have hret : (x + 1).toNat = (x.toNat + 1) % 2 ^ 32 := by simp [BitVec.toNat_add]
  have hzero : x + 1 = 0 ↔ x.toNat + 1 = 2 ^ 32 := by
    rw [← BitVec.toNat_inj, hret]
    simp only [BitVec.ofNat_eq_ofNat, BitVec.toNat_ofNat]
    omega
  simp only [getWorkPsn, hzero]
  split
  · rename_i h
    rw [hzero.mpr h]
    rfl
  · omega

theorem getWorkPsn_ne_zero (x : BitVec 32) : getWorkPsn x ≠ 0 := by
  intro h
  have hz := congrArg BitVec.toNat h
  rw [getWorkPsn_toNat] at hz
  simp only [BitVec.ofNat_eq_ofNat, BitVec.toNat_ofNat] at hz
  split at hz <;> omega

theorem psnOf_succ (n : Nat) : psnOf (n + 1) = getWorkPsn (psnOf n) := by
  apply BitVec.eq_of_toNat_eq
  rw [getWorkPsn_toNat, psnOf_toNat (by omega), Nat.add_sub_cancel]
  rcases Nat.eq_zero_or_pos n with rfl | hn
  · rfl
  · rw [psnOf_toNat hn]
    split <;> rename_i hlast <;> simp only [psnPeriod] at hlast ⊢ <;> omega

/-- Two draws give the same identifier when whole periods lie between them. -/
theorem psnOf_eq_iff {m n : Nat} (hm : 1 ≤ m) (hmn : m ≤ n) :
    psnOf m = psnOf n ↔ psnPeriod ∣ n - m := by
  rw [← BitVec.toNat_inj, psnOf_toNat hm, psnOf_toNat (hm.trans hmn)]
  simp only [psnPeriod]
  omega

/-! ## Runs whose draws find the identifiers in use young -/

structure Works.Tracked (w : Works R) : Prop where
  psn : w.wrPsn = psnOf w.draws
  numbered : ∀ {n id wr}, w.Live n id wr → 1 ≤ n ∧ n ≤ w.draws ∧ id = psnOf n
  young : ∀ {n id wr}, w.Live n id wr → w.draws - n < psnPeriod
  filed : ∀ {id wr}, w.pendingWorks id = some wr ↔ ∃ n, w.sent n = some (id, wr)
  once : ∀ {n t}, w.drawn n = some t → w.sent n = none

theorem Works.Tracked.init : (Works.init : Works R).Tracked where
  psn := rfl
  numbered := by simp [Works.Live, Works.init]
  young := by simp [Works.Live, Works.init]
  filed := by simp [Works.init]
  once := by simp [Works.init]

section
variable {w w' : Works R} {m n : Nat} {i j : BitVec 32} {wr wr' : R}

/-- Requests of different draws hold different identifiers. -/
theorem Works.Tracked.apart (h : w.Tracked) (hn : w.Live n i wr) (hm : w.Live m j wr')
    (hne : n ≠ m) : i ≠ j := by
  obtain ⟨hn1, hnd, rfl⟩ := h.numbered hn
  obtain ⟨hm1, hmd, rfl⟩ := h.numbered hm
  have hny := h.young hn
  have hmy := h.young hm
  rcases Nat.lt_or_gt_of_ne hne with hlt | hlt
  · rw [Ne, psnOf_eq_iff hn1 hlt.le]
    intro hdvd
    have := Nat.le_of_dvd (by omega) hdvd
    omega
  · rw [Ne, eq_comm, psnOf_eq_iff hm1 hlt.le]
    intro hdvd
    have := Nat.le_of_dvd (by omega) hdvd
    omega

/-- The next identifier is one in use exactly when that one is a period old. -/
theorem Works.Tracked.next_eq_iff (h : w.Tracked) (hn : w.Live n i wr) :
    getWorkPsn w.wrPsn = i ↔ ¬ w.draws + 1 - n < psnPeriod := by
  obtain ⟨hn1, hnd, rfl⟩ := h.numbered hn
  have hny := h.young hn
  rw [h.psn, ← psnOf_succ, eq_comm, psnOf_eq_iff hn1 (by omega)]
  constructor
  · intro hdvd hlt
    have := Nat.le_of_dvd (by omega) hdvd
    omega
  · intro hold
    have heq : w.draws + 1 - n = psnPeriod := by omega
    rw [heq]

theorem Works.Tracked.unused_iff (h : w.Tracked) :
    (∀ n wr, ¬ w.Live n (getWorkPsn w.wrPsn) wr) ↔ w.Young := by
  constructor
  · intro hun n i wr hn
    by_contra hold
    have heq := (h.next_eq_iff hn).mpr hold
    exact hun n wr (heq ▸ hn)
  · intro hy n wr hn
    exact (h.next_eq_iff hn).mp rfl (hy _ _ _ hn)

theorem Works.Tracked.draw (h : w.Tracked) (hy : w.Young) : (w.draw wr).Tracked := by
  have hlive : ∀ {m j wr'}, (w.draw wr).Live m j wr' →
      w.Live m j wr' ∨ m = w.draws + 1 ∧ j = getWorkPsn w.wrPsn := by
    intro m j wr' hm
    simp only [Works.Live, Works.draw, Function.update_apply] at hm ⊢
    split at hm
    · obtain hm | hm := hm
      · simp_all
      · exact .inl (.inr hm)
    · exact .inl hm
  have hnone : ∀ t, w.sent (w.draws + 1) ≠ some t := by
    intro t hs
    have := (h.numbered (.inr hs)).2.1
    omega
  constructor
  · rw [Works.draw, psnOf_succ, h.psn]
  · intro m j wr' hm
    obtain hm | ⟨rfl, rfl⟩ := hlive hm
    · obtain ⟨h1, h2, h3⟩ := h.numbered hm
      exact ⟨h1, Nat.le_succ_of_le h2, h3⟩
    · exact ⟨Nat.le_add_left _ _, le_rfl, by rw [psnOf_succ, h.psn]⟩
  · intro m j wr' hm
    obtain hm | ⟨rfl, rfl⟩ := hlive hm
    · exact hy _ _ _ hm
    · simp [Works.draw, psnPeriod]
  · exact h.filed
  · intro m t hm
    simp only [Works.draw, Function.update_apply] at hm ⊢
    split at hm
    · rename_i heq
      exact Option.eq_none_iff_forall_ne_some.mpr (heq ▸ hnone)
    · exact h.once hm

theorem Works.Tracked.add (h : w.Tracked) (hn : w.drawn n = some (i, wr)) :
    Works.Tracked { w.addToPending i wr with
      drawn := Function.update w.drawn n none
      sent := Function.update w.sent n (some (i, wr)) } := by
  have hnone := h.once hn
  have hlive : ∀ {m j wr'}, Function.update w.drawn n none m = some (j, wr') ∨
      Function.update w.sent n (some (i, wr)) m = some (j, wr') → w.Live m j wr' := by
    intro m j wr' hm
    simp only [Function.update_apply] at hm
    by_cases hmn : m = n
    · subst hmn
      obtain ⟨rfl, rfl⟩ : i = j ∧ wr = wr' := by simpa using hm
      exact .inl hn
    · simpa [Works.Live, hmn] using hm
  constructor
  · exact h.psn
  · exact fun hm => h.numbered (hlive hm)
  · exact fun hm => h.young (hlive hm)
  · intro j wr'
    simp only [Works.addToPending, Function.update_apply]
    by_cases hji : j = i
    · subst hji
      rw [if_pos rfl]
      constructor
      · intro heq
        exact ⟨n, by rw [if_pos rfl, Option.some.inj heq]⟩
      · rintro ⟨m, hm⟩
        by_cases hmn : m = n
        · simpa [hmn] using hm
        · rw [if_neg hmn] at hm
          exact absurd rfl (h.apart (.inr hm) (.inl hn) hmn)
    · rw [if_neg hji, h.filed]
      constructor
      · rintro ⟨m, hm⟩
        refine ⟨m, ?_⟩
        rw [if_neg, hm]
        rintro rfl
        rw [hnone] at hm
        cases hm
      · rintro ⟨m, hm⟩
        by_cases hmn : m = n
        · rw [if_pos hmn] at hm
          cases hm
          exact absurd rfl hji
        · exact ⟨m, by rwa [if_neg hmn] at hm⟩
  · intro m t hm
    simp only [Function.update_apply] at hm ⊢
    by_cases hmn : m = n
    · simp [hmn] at hm
    · rw [if_neg hmn] at hm ⊢
      exact h.once hm

theorem Works.Tracked.drop (h : w.Tracked) :
    Works.Tracked { w with drawn := Function.update w.drawn n none } := by
  have hsub : ∀ {m t}, Function.update w.drawn n none m = some t → w.drawn m = some t := by
    intro m t hm
    simp only [Function.update_apply] at hm
    split at hm
    · cases hm
    · exact hm
  constructor
  · exact h.psn
  · exact fun hm => h.numbered (hm.imp_left hsub)
  · exact fun hm => h.young (hm.imp_left hsub)
  · exact h.filed
  · exact fun hm => h.once (hsub hm)

theorem Works.Tracked.erase (h : w.Tracked) : (w.erasePendingWork i).Tracked := by
  have hsent : ∀ {m t}, (w.erasePendingWork i).sent m = some t ↔ w.sent m = some t ∧ t.1 ≠ i := by
    intro m t
    simp [Works.erasePendingWork, Option.filter_eq_some_iff]
  have hlive : ∀ {m j wr'}, (w.erasePendingWork i).Live m j wr' → w.Live m j wr' := by
    intro m j wr' hm
    exact hm.imp_right fun hs => (hsent.mp hs).1
  constructor
  · exact h.psn
  · exact fun hm => h.numbered (hlive hm)
  · exact fun hm => h.young (hlive hm)
  · intro j wr'
    simp only [hsent]
    simp only [Works.erasePendingWork, Function.update_apply]
    by_cases hji : j = i
    · simp [hji]
    · simp [hji, h.filed]
  · intro m t hm
    have hnone := h.once hm
    simp [Works.erasePendingWork, hnone]

theorem step_tracked {a : Act R} (h : w.Tracked) (ha : drawsYoung a w) (hs : step a w = some w') :
    w'.Tracked := by
  cases a with
  | draw wr =>
    cases hs
    exact h.draw ha
  | add n =>
    simp only [step, Option.bind_eq_bind, Option.bind_eq_some_iff] at hs
    obtain ⟨⟨i, wr⟩, hn, heq⟩ := hs
    cases heq
    exact h.add hn
  | drop n =>
    simp only [step, Option.bind_eq_bind, Option.bind_eq_some_iff] at hs
    obtain ⟨_, -, heq⟩ := hs
    cases heq
    exact h.drop
  | erase id =>
    cases hs
    exact h.erase

theorem Works.Tracked.safe {a : Act R} (h : w.Tracked) (ha : drawsYoung a w) : a.Safe w := by
  cases a with
  | draw wr =>
    refine ⟨getWorkPsn_ne_zero _, Option.eq_none_iff_forall_ne_some.mpr ?_⟩
    intro wr' hp
    obtain ⟨n, hn⟩ := h.filed.mp hp
    exact h.unused_iff.mpr ha n wr' (.inr hn)
  | add n =>
    intro i wr hn
    refine Option.eq_none_iff_forall_ne_some.mpr ?_
    intro wr' hp
    obtain ⟨m, hm⟩ := h.filed.mp hp
    have hne : m ≠ n := by
      rintro rfl
      rw [h.once hn] at hm
      cases hm
    exact h.apart (.inr hm) (.inl hn) hne rfl
  | drop n => trivial
  | erase id => trivial

end

/-- A fresh request that is to be filed gets an identifier under which only it is found. -/
theorem submitRequest_filed {w : Works R} {flag : SubmitFlags} {wr : R} {n : Nat}
    (h : w.Tracked) (hy : w.Young) (hreply : flag.reply = false) (hid : flag.requestNoId = false)
    (hadd : flag.addToPending = true) :
    ∃ w', submitRequest flag wr n w = some w' ∧ w'.Tracked ∧
      w'.sent (w.draws + 1) = some (getWorkPsn w.wrPsn, wr) ∧
      w.getPendingWork (getWorkPsn w.wrPsn) = none ∧
      w'.getPendingWork (getWorkPsn w.wrPsn) = some wr := by
  have hdrawn : (w.draw wr).drawn (w.draws + 1) = some (getWorkPsn w.wrPsn, wr) := by
    simp [Works.draw]
  refine ⟨_, by simp [submitRequest, hreply, hid, hadd, step, hdrawn], (h.draw hy).add hdrawn,
    ?_, (h.safe (a := .draw wr) hy).2, ?_⟩
  · simp
  · simp [Works.getPendingWork, Works.addToPending]

/-- In a run whose draws all find the identifiers in use young, every such step is safe and every
reply finds its request; a further draw meets no identifier in use exactly when these are young. -/
theorem matched_of_reaches {w : Works R} (h : Lib.Reaches step drawsYoung .init w) :
    (∀ a, drawsYoung a w → a.Safe w) ∧ w.Matched ∧
      ((∀ n wr, ¬ w.Live n (getWorkPsn w.wrPsn) wr) ↔ w.Young) := by
  have ht : w.Tracked := h.invariant .init fun a t t' => step_tracked
  refine ⟨fun a => ht.safe, ?_, ht.unused_iff⟩
  intro n i wr hn
  exact ht.filed.mpr ⟨n, hn⟩

/-- One request is sent, answered and sent again. -/
theorem matched_of_reaches_resent : ∃ w : Works Bool,
    (Lib.Reaches step drawsYoung .init w ∧ w.sent 2 = some (2, true)) ∧ w.Matched := by
  have hrun : ∃ w : Works Bool, Lib.Reaches step drawsYoung .init w ∧
      w.sent 2 = some (2, true) := by
    have young : ∀ w : Works Bool, w.draws < 5 → w.Young := by
      intro w hw n i wr _
      simp only [psnPeriod]
      omega
    refine ⟨_, Lib.Reaches.tail (a := .add 2) (Lib.Reaches.tail (a := .draw true)
      (Lib.Reaches.tail (a := .erase 1) (Lib.Reaches.tail (a := .add 1)
      (Lib.Reaches.tail (a := .draw false) .refl (young _ (by decide)) rfl) trivial rfl) trivial rfl)
      (young _ (by decide)) rfl) trivial rfl, rfl⟩
  obtain ⟨w, hw, hs⟩ := hrun
  exact ⟨w, ⟨hw, hs⟩, (matched_of_reaches hw).2.1⟩

/-! ## One request that waits for a period -/

/-- The first request waits while `k` others have been sent and answered. -/
def parked (k : Nat) : Works Bool where
  wrPsn := psnOf (k + 1)
  pendingWorks := Function.update (fun _ => none) 1 (some true)
  drawn := fun _ => none
  sent := Function.update (fun _ => none) 1 (some (1, true))
  draws := k + 1

/-- Another request is sent and answered. -/
theorem parked_round {k : Nat} (hk : k + 1 < psnPeriod) :
    ∃ w w', step (.draw false) (parked k) = some w ∧ step (.add (k + 2)) w = some w' ∧
      step (.erase (psnOf (k + 2))) w' = some (parked (k + 1)) := by
  have hdrawn : ((parked k).draw false).drawn (k + 2) = some (psnOf (k + 2), false) := by
    simp [Works.draw, parked, psnOf_succ (k + 1)]
  have hne : psnOf (k + 2) ≠ 1 := by
    intro heq
    have h1 := congrArg BitVec.toNat heq
    rw [psnOf_toNat (by omega), Nat.mod_eq_of_lt (by omega)] at h1
    simp at h1
  refine ⟨_, _, rfl, by rw [step, hdrawn]; rfl, ?_⟩
  simp only [step, Option.some.injEq]
  rw [Works.erasePendingWork, parked]
  congr 1
  · exact (psnOf_succ (k + 1)).symm
  · funext i
    simp only [Works.addToPending, Works.draw, Function.update_apply]
    split
    · rename_i heq
      rw [heq, if_neg hne]
    · rfl
  · funext n
    simp only [Works.draw, Function.update_apply]
    split <;> rfl
  · funext n
    simp only [Works.draw, Function.update_apply]
    split
    · rename_i heq
      subst heq
      simp
    · split
      · simpa using Ne.symm hne
      · rfl

theorem reaches_parked {k : Nat} (hk : k < psnPeriod) :
    Lib.Reaches step Lib.anyStep .init (parked k) := by
  induction k with
  | zero =>
    refine Lib.Reaches.tail (a := .add 1) (Lib.Reaches.tail (a := .draw true) .refl trivial rfl)
      trivial ?_
    simp only [step, Works.draw, Works.init, Function.update_self, Nat.zero_add, Option.bind_eq_bind,
      Option.bind_some, Option.some.injEq]
    rw [parked]
    congr 1
    funext n
    simp [Function.update_apply]
  | succ k ih =>
    obtain ⟨w, w', hdraw, hadd, herase⟩ := parked_round hk
    exact (((ih (by omega)).tail trivial hdraw).tail trivial hadd).tail trivial herase

theorem not_matched_parked :
    ¬ ∀ w : Works Bool, Lib.Reaches step Lib.anyStep .init w →
      (∀ a : Act Bool, a.Safe w) ∧ w.Matched := by
  intro h
  have hsafe := (h _ (reaches_parked (k := psnPeriod - 1) (by decide))).1 (.draw false)
  have hnext : getWorkPsn (parked (psnPeriod - 1)).wrPsn = 1 := by
    rw [parked, ← psnOf_succ]
    rfl
  have hfresh := hsafe.2
  rw [hnext] at hfresh
  simp [parked] at hfresh

end HwGam.Worker
