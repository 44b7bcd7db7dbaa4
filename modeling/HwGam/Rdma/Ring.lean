import HwGam.Rdma.Context
import Mathlib.Data.List.Nodup
import Mathlib.Data.Nat.ModEq

/-!
# The send slots and the counters

The counters and the ring of slots of a context, over any run of submissions and completions. What
was posted falls into groups: each ends with a signaled work request whose `wr_id` counts the group,
and the last run of unsignaled ones is still without its own.
-/

namespace HwGam.Rdma

open Lib

variable {L : Limits} {s s' s₁ : Ctx} {r : RdmaRequest} {wr : SendWr} {fl : List Nat} {n : Nat}

/-! ## Counters -/

/-- The messages no signaled work request answers for yet. -/
def Ctx.unsignaled (s : Ctx) : Int := s.pendingMsg - s.toSignaledSendMsg - s.toSignaledWRMsg

/-- `fl` are the `wr_id`s of the signaled work requests that are not completed. -/
structure Counts (L : Limits) (s : Ctx) (fl : List Nat) : Prop where
  sends : s.toSignaledSendMsg = ((fl.map sendsOf).sum : Nat)
  wrs : s.toSignaledWRMsg = ((fl.map wrsOf).sum : Nat)
  each : ∀ x ∈ fl, 1 ≤ sendsOf x + wrsOf x
  sends_le : s.toSignaledSendMsg ≤ s.pendingSendMsg
  wrs_le : s.toSignaledWRMsg ≤ s.pendingMsg - s.pendingSendMsg
  limit : s.pendingMsg ≤ L.maxPendingMsg

/-- The slots in use are those of the pending SENDs, a ring from `slot_tail` to `slot_head`. -/
structure Slots (L : Limits) (s : Ctx) : Prop where
  head : s.slotHead < L.maxPendingMsg
  tail : s.slotTail < L.maxPendingMsg
  ring : (s.slotTail : Int) + s.pendingSendMsg = s.slotHead ∨
    (s.slotTail : Int) + s.pendingSendMsg = s.slotHead + L.maxPendingMsg
  full : s.full = true ↔ s.pendingSendMsg = L.maxPendingMsg

structure Live (L : Limits) (s : Ctx) (fl : List Nat) : Prop extends Counts L s fl, Slots L s where
  unsignaled : s.unsignaled < L.maxUnsignaledMsg

theorem Counts.sends_nonneg (h : Counts L s fl) : 0 ≤ s.toSignaledSendMsg := by
  rw [h.sends]
  omega

theorem Counts.wrs_nonneg (h : Counts L s fl) : 0 ≤ s.toSignaledWRMsg := by
  rw [h.wrs]
  omega

theorem sendsOf_packWrId (id : BitVec 32) {a b : Nat} (ha : a < 2 ^ 16) :
    sendsOf (packWrId id a b) = a := by
  have := id.isLt
  rw [sendsOf, packWrId]
  omega

theorem wrsOf_packWrId (id : BitVec 32) {a b : Nat} (hb : b < 2 ^ 16) :
    wrsOf (packWrId id a b) = b := by
  have := id.isLt
  rw [wrsOf, packWrId]
  omega

/-! ## Taking a slot -/

/-- Everything but the slots and the counters is as before. -/
structure Frame (s s' : Ctx) : Prop where
  pendingRequests : s'.pendingRequests = s.pendingRequests
  posted : s'.posted = s.posted
  inFlight : s'.inFlight = s.inFlight
  submitted : s'.submitted = s.submitted

theorem getFreeSlot_eq_some (h : s.getFreeSlot L = some s') :
    s.availSlots L ≠ 0 ∧ s.pendingMsg < L.maxPendingMsg ∧
      s' = { s with slotHead := s.nextHead L, full := s.full || s.nextHead L == s.slotTail } := by
  rw [Ctx.getFreeSlot] at h
  split at h
  · cases h
  · rename_i hav
    exact ⟨fun hc => hav (.inl hc), by omega, (Option.some.inj h).symm⟩

/-- The free slots are those that no pending SEND uses. -/
theorem Slots.avail (h : Slots L s) (h0 : 0 ≤ s.pendingSendMsg)
    (hle : s.pendingSendMsg ≤ L.maxPendingMsg) :
    (s.availSlots L : Int) = L.maxPendingMsg - s.pendingSendMsg := by
  obtain ⟨hhead, htail, hring, hfull⟩ := h
  simp only [Ctx.availSlots]
  cases hf : s.full with
  | false =>
    have hne : s.pendingSendMsg ≠ L.maxPendingMsg := fun hc => by simp [hfull.2 hc] at hf
    simp only [and_true]
    split <;> split <;> omega
  | true =>
    have heq := hfull.1 hf
    simp only [Bool.true_eq_false, and_false, if_false]
    split <;> omega

/-- A taken slot counts as in use once the SEND is counted. -/
theorem Slots.getFreeSlot (h : Slots L s) (h0 : 0 ≤ s.pendingSendMsg)
    (hle : s.pendingSendMsg < L.maxPendingMsg) (hs : s.getFreeSlot L = some s') :
    Slots L { s' with
      pendingSendMsg := s'.pendingSendMsg + 1, pendingMsg := s'.pendingMsg + 1 } := by
  obtain ⟨-, -, rfl⟩ := getFreeSlot_eq_some hs
  obtain ⟨hhead, htail, hring, hfull⟩ := h
  have hnf : s.full = false := by
    cases hf : s.full with
    | false => rfl
    | true => have := hfull.1 hf; omega
  have hnext : (s.nextHead L : Int) = s.slotHead + 1 ∧ s.slotHead + 1 < L.maxPendingMsg ∨
      s.nextHead L = 0 ∧ s.slotHead + 1 = L.maxPendingMsg := by
    rw [Ctx.nextHead]
    split <;> omega
  refine ⟨?_, htail, ?_, ?_⟩
  · dsimp only
    omega
  · dsimp only
    omega
  · simp only [hnf, Bool.false_or, beq_iff_eq]
    omega

/-- While fewer messages are pending than the limit, there is a free slot. -/
theorem Slots.exists_slot (h : Slots L s) (h0 : 0 ≤ s.pendingSendMsg)
    (hle : s.pendingSendMsg ≤ s.pendingMsg) (hlt : s.pendingMsg < L.maxPendingMsg) :
    ∃ s', s.getFreeSlot L = some s' := by
  have havail := h.avail h0 (by omega)
  rw [Ctx.getFreeSlot, if_neg (by omega)]
  exact ⟨_, rfl⟩

/-! ## Posting one request -/

/-- A request was counted, with the slot its entry points to; its work request is not signaled
yet. -/
structure Begun (L : Limits) (s s₁ : Ctx) (slot : Option Nat) : Prop extends
    Frame s s₁, Slots L s₁ where
  pendingMsg : s₁.pendingMsg = s.pendingMsg + 1
  pendingSendMsg : (slot = none ∧ s₁.pendingSendMsg = s.pendingSendMsg) ∨
    (slot = some s.slotHead ∧ s₁.pendingSendMsg = s.pendingSendMsg + 1)
  slotTail : s₁.slotTail = s.slotTail
  toSignaledSendMsg : s₁.toSignaledSendMsg = s.toSignaledSendMsg
  toSignaledWRMsg : s₁.toSignaledWRMsg = s.toSignaledWRMsg

theorem Live.pending_le (h : Live L s fl) : 0 ≤ s.pendingSendMsg ∧ s.pendingSendMsg ≤ s.pendingMsg := by
  have h1 := h.sends_nonneg
  have h2 := h.wrs_nonneg
  have h3 := h.sends_le
  have h4 := h.wrs_le
  omega

theorem Live.begun_slot (h : Live L s fl) (hs : s.getFreeSlot L = some s') :
    Begun L s { s' with
      pendingSendMsg := s'.pendingSendMsg + 1, pendingMsg := s'.pendingMsg + 1 }
      (some s.slotHead) := by
  have hle := h.pending_le
  have hslots := h.toSlots.getFreeSlot hle.1
    (by have := (getFreeSlot_eq_some hs).2.1; omega) hs
  obtain ⟨-, -, rfl⟩ := getFreeSlot_eq_some hs
  exact ⟨⟨rfl, rfl, rfl, rfl⟩, hslots, rfl, .inr ⟨rfl, rfl⟩, rfl, rfl, rfl⟩

theorem Live.begun_plain (h : Live L s fl) :
    Begun L s { s with pendingMsg := s.pendingMsg + 1 } none :=
  ⟨⟨rfl, rfl, rfl, rfl⟩, ⟨h.head, h.tail, h.ring, h.full⟩, rfl, .inl ⟨rfl, rfl⟩, rfl, rfl, rfl⟩

theorem Live.begin (h : Live L s fl) (hlt : s.pendingMsg < L.maxPendingMsg) :
    ∃ s₁, s.begin L r false = some s₁ ∧ Begun L s s₁ (s.entry L r none) := by
  obtain ⟨s', hs'⟩ := h.toSlots.exists_slot h.pending_le.1 h.pending_le.2 hlt
  rw [Ctx.begin, Ctx.entry]
  cases r.body with
  | send msg =>
    by_cases hlen : L.inlineSize < msg.length
    · simp only [hlen, and_self, if_true, hs']
      exact ⟨_, rfl, h.begun_slot hs'⟩
    · simp only [hlen, and_false, Bool.false_eq_true, if_false]
      exact ⟨_, rfl, h.begun_plain⟩
  | write => exact ⟨_, rfl, h.begun_plain⟩
  | read => exact ⟨_, rfl, h.begun_plain⟩

theorem Live.beginQueued (h : Live L s fl) (hlt : s.pendingMsg < L.maxPendingMsg) :
    ∃ s₁, s.beginQueued L r = some s₁ ∧ Begun L s s₁ (s.entryQueued r) := by
  obtain ⟨s', hs'⟩ := h.toSlots.exists_slot h.pending_le.1 h.pending_le.2 hlt
  rw [Ctx.beginQueued, Ctx.entryQueued]
  cases r.body with
  | send msg =>
    simp only [hs']
    exact ⟨_, rfl, h.begun_slot hs'⟩
  | write => exact ⟨_, rfl, h.begun_plain⟩
  | read => exact ⟨_, rfl, h.begun_plain⟩

/-- The `wr_id` a work request leaves to be completed. -/
def SendWr.flag (wr : SendWr) : List Nat := if wr.signaled then [wr.wrId] else []

/-- The work request is left unsignaled, or its `wr_id` counts all that was not signaled yet. -/
def Signals (s₁ s₂ : Ctx) (wr : SendWr) : Prop :=
  (wr.signaled = false ∧ s₂ = s₁) ∨
  (wr.signaled = true ∧ (sendsOf wr.wrId : Int) = s₁.pendingSendMsg - s₁.toSignaledSendMsg ∧
    (wrsOf wr.wrId : Int) = s₁.pendingMsg - s₁.pendingSendMsg - s₁.toSignaledWRMsg ∧
    s₂ = { s₁ with
      toSignaledSendMsg := s₁.pendingSendMsg
      toSignaledWRMsg := s₁.pendingMsg - s₁.pendingSendMsg })

/-- Signaling a request that was just counted. -/
theorem Begun.signal {slot : Option Nat} (r : RdmaRequest) (wr : SendWr) (h : Live L s fl)
    (hb : Begun L s s₁ slot) (hlt : s.pendingMsg < L.maxPendingMsg) (hwr : wr.signaled = false) :
    ∃ s₂ wr', s₁.signal L r wr = (s₂, wr') ∧ Live L s₂ (fl ++ wr'.flag) ∧ Frame s s₂ ∧
      s₂.pendingMsg = s.pendingMsg + 1 ∧ wr'.body = wr.body ∧ wr'.numSge = wr.numSge ∧
      wr'.slot = wr.slot ∧ Signals s₁ s₂ wr' := by
  have h1 := h.sends_nonneg
  have h2 := h.wrs_nonneg
  have h3 := h.sends_le
  have h4 := h.wrs_le
  have hu := h.unsignaled
  have hu16 := L.unsignaled_u16
  obtain ⟨⟨hq, hp, hf, hsub⟩, hslots, hpm, hps, htail, hts, htw⟩ := hb
  replace hps : s.pendingSendMsg ≤ s₁.pendingSendMsg ∧
      s₁.pendingSendMsg ≤ s.pendingSendMsg + 1 := by omega
  rw [Ctx.unsignaled] at hu
  -- what is not signaled yet, SENDs and others, fits `uint16_t`
  obtain ⟨a, ha⟩ : ∃ a : Nat, (a : Int) = s₁.pendingSendMsg - s₁.toSignaledSendMsg :=
    ⟨_, Int.toNat_of_nonneg (by omega)⟩
  obtain ⟨b, hb⟩ : ∃ b : Nat, (b : Int) =
      s₁.pendingMsg - s₁.pendingSendMsg - s₁.toSignaledWRMsg :=
    ⟨_, Int.toNat_of_nonneg (by omega)⟩
  have hab : a + b ≤ L.maxUnsignaledMsg ∧ 1 ≤ a + b := by omega
  have hua : u16 (s₁.pendingSendMsg - s₁.toSignaledSendMsg) = a := by
    rw [← ha, u16]
    omega
  have hub : u16 (s₁.pendingMsg - s₁.pendingSendMsg - s₁.toSignaledWRMsg) = b := by
    rw [← hb, u16]
    omega
  simp only [Ctx.signal, hua, hub]
  split
  · have hsa := sendsOf_packWrId r.id (a := a) (b := b) (by omega)
    have hwb := wrsOf_packWrId r.id (a := a) (b := b) (by omega)
    have hta : s₁.toSignaledSendMsg + a = s₁.pendingSendMsg := by omega
    have htb : s₁.toSignaledWRMsg + b = s₁.pendingMsg - s₁.pendingSendMsg := by omega
    refine ⟨_, _, rfl, ?_, ⟨hq, hp, hf, hsub⟩, hpm, rfl, rfl, rfl, .inr ⟨rfl, ?_, ?_, ?_⟩⟩
    rotate_left
    · rw [hsa, ha]
    · rw [hwb, hb]
    · rw [hta, htb]
    refine ⟨⟨?_, ?_, ?_, ?_, ?_, ?_⟩, ⟨hslots.head, hslots.tail, hslots.ring, hslots.full⟩, ?_⟩
    · simp [SendWr.flag, hsa, hts, h.sends]
    · simp [SendWr.flag, hwb, htw, h.wrs]
    · intro x hx
      rcases List.mem_append.1 hx with hx | hx
      · exact h.each x hx
      · simp only [SendWr.flag, if_true, List.mem_singleton] at hx
        rw [hx, hsa, hwb]
        exact hab.2
    · dsimp only
      omega
    · dsimp only
      omega
    · dsimp only
      omega
    · dsimp only [Ctx.unsignaled]
      have := L.unsignaled_pos
      omega
  · rename_i hns
    have hflag : wr.flag = [] := by simp [SendWr.flag, hwr]
    refine ⟨_, _, rfl, ?_, ⟨hq, hp, hf, hsub⟩, hpm, rfl, rfl, rfl, .inl ⟨hwr, rfl⟩⟩
    rw [hflag, List.append_nil]
    refine ⟨⟨hts ▸ h.sends, htw ▸ h.wrs, h.each, by omega, by omega, by omega⟩, hslots, ?_⟩
    rw [Ctx.unsignaled]
    have hne : a + b ≠ L.maxUnsignaledMsg := fun hc => hns (.inl hc)
    omega

/-- A merged message adds no message to count, so nothing is signaled for it. -/
theorem Live.signal_merged (h : Live L s fl) (hr : r.signaled = false) :
    s.signal L r wr = (s, wr) := by
  have h1 := h.sends_nonneg
  have h2 := h.wrs_nonneg
  have h3 := h.sends_le
  have h4 := h.wrs_le
  have hu := h.unsignaled
  have hu16 := L.unsignaled_u16
  rw [Ctx.unsignaled] at hu
  have hne : ¬ (u16 (s.pendingSendMsg - s.toSignaledSendMsg) +
      u16 (s.pendingMsg - s.pendingSendMsg - s.toSignaledWRMsg) = L.maxUnsignaledMsg ∨
        r.signaled = true) := by
    simp only [hr, Bool.false_eq_true, or_false, u16]
    omega
  simp only [Ctx.signal, if_neg hne]

/-- The state in which `Rdma` takes its decision. -/
def Ctx.submit (s : Ctx) (r : RdmaRequest) : Ctx := { s with submitted := s.submitted ++ [r] }

theorem Ctx.rdma_eq (s : Ctx) (registered : Option Nat) : s.rdma L r registered =
    if (L.maxPendingMsg : Int) ≤ s.pendingMsg then
      some { s.submit r with pendingRequests := s.pendingRequests ++ [r] }
    else ((s.submit r).begin L r registered.isSome).map fun s₁ =>
      (s₁.signal L r (.new r.body (s.entry L r registered) (r.body.length ≤ L.inlineSize))).1.post
        [(s₁.signal L r (.new r.body (s.entry L r registered) (r.body.length ≤ L.inlineSize))).2] := by
  rw [Ctx.rdma]
  split
  · rfl
  · change ((s.submit r).begin L r registered.isSome).bind _ = _
    cases (s.submit r).begin L r registered.isSome <;> rfl

theorem Live.of_counters (h : Live L s fl) (h1 : s'.slotHead = s.slotHead)
    (h2 : s'.slotTail = s.slotTail) (h3 : s'.full = s.full) (h4 : s'.pendingMsg = s.pendingMsg)
    (h5 : s'.pendingSendMsg = s.pendingSendMsg) (h6 : s'.toSignaledSendMsg = s.toSignaledSendMsg)
    (h7 : s'.toSignaledWRMsg = s.toSignaledWRMsg) : Live L s' fl := by
  obtain ⟨⟨a, b, c, d, e, f⟩, ⟨g, i, j, k⟩, l⟩ := h
  refine ⟨⟨?_, ?_, c, ?_, ?_, ?_⟩, ⟨?_, ?_, ?_, ?_⟩, ?_⟩ <;>
    simpa only [Ctx.unsignaled, h1, h2, h3, h4, h5, h6, h7]

/-- The state in which `SendComp` drains the queue. -/
def Ctx.freed (L : Limits) (s : Ctx) (wrId : Nat) (rest : List Nat) : Ctx :=
  { s with
    inFlight := rest
    slotTail := if L.maxPendingMsg ≤ s.slotTail + sendsOf wrId
      then s.slotTail + sendsOf wrId - L.maxPendingMsg else s.slotTail + sendsOf wrId
    toSignaledSendMsg := s.toSignaledSendMsg - sendsOf wrId
    toSignaledWRMsg := s.toSignaledWRMsg - wrsOf wrId
    pendingMsg := s.pendingMsg - (sendsOf wrId + wrsOf wrId)
    pendingSendMsg := s.pendingSendMsg - sendsOf wrId
    full := if s.full ∧ sendsOf wrId ≠ 0 then false else s.full }

theorem Live.freed {x : Nat} {rest : List Nat} (h : Live L s (x :: rest)) :
    Live L (s.freed L x rest) rest := by
  have hle := h.pending_le
  have h1 := h.sends
  have h2 := h.wrs
  have h3 := h.sends_le
  have h4 := h.wrs_le
  have h5 := h.limit
  have h6 := h.unsignaled
  obtain ⟨hhead, htail, hring, hfull⟩ := h.toSlots
  simp only [List.map_cons, List.sum_cons] at h1 h2
  refine ⟨⟨?_, ?_, fun y hy => h.each y (by simp [hy]), ?_, ?_, ?_⟩, ⟨hhead, ?_, ?_, ?_⟩, ?_⟩
  · dsimp only [Ctx.freed]
    omega
  · dsimp only [Ctx.freed]
    omega
  · dsimp only [Ctx.freed]
    omega
  · dsimp only [Ctx.freed]
    omega
  · dsimp only [Ctx.freed]
    omega
  · dsimp only [Ctx.freed]
    split <;> omega
  · dsimp only [Ctx.freed]
    split <;> omega
  · dsimp only [Ctx.freed]
    cases hf : s.full with
    | false =>
      have hne : s.pendingSendMsg ≠ L.maxPendingMsg := fun hc => by simp [hfull.2 hc] at hf
      simp only [Bool.false_eq_true, false_and, if_false, false_iff]
      omega
    | true =>
      have heq := hfull.1 hf
      by_cases h0 : sendsOf x = 0
      · simp [h0, heq]
      · simp only [h0, ne_eq, not_false_eq_true, and_self, if_true, Bool.false_eq_true, false_iff]
        omega
  · dsimp only [Ctx.freed, Ctx.unsignaled] at h6 ⊢
    omega

theorem Ctx.sendComp_eq {x : Nat} {rest : List Nat} (h : s.inFlight = x :: rest) :
    s.sendComp L = (s.freed L x rest).processPendingRequests L (sendsOf x + wrsOf x) := by
  rw [Ctx.sendComp, h]
  rfl

/-! ## The ring -/

/-- What the slots and the counters see of a work request. -/
structure Mark where
  slot : Option Nat
  signaled : Bool
  wrId : Nat
  deriving DecidableEq, Repr

def SendWr.mark (wr : SendWr) : Mark := ⟨wr.slot, wr.signaled, wr.wrId⟩

/-- The work requests that occupy a slot, and the others. -/
def sendsIn (l : List Mark) : Nat := l.countP (·.slot.isSome)
def wrsIn (l : List Mark) : Nat := l.countP (·.slot.isNone)

/-- The last work request of a group is the only one that is signaled, and its `wr_id` counts the
group. -/
structure Group (g : List Mark) (wrId : Nat) : Prop where
  last : ∃ init m, g = init ++ [m] ∧ (∀ x ∈ init, x.signaled = false) ∧ m.signaled = true ∧
    m.wrId = wrId
  sends : sendsOf wrId = sendsIn g
  wrs : wrsOf wrId = wrsIn g

/-- `n` slots from `t` on. -/
def ring (L : Limits) (t n : Nat) : List Nat := (List.range n).map fun k => (t + k) % L.maxPendingMsg

/-- The groups whose completion is still to come, and the unsignaled work requests behind them. Their
slots are the ring from `slot_tail` on. -/
structure SlotRing (L : Limits) (s : Ctx) (fl : List Nat) (gs : List (List Mark)) (tl : List Mark) :
    Prop where
  groups : List.Forall₂ Group gs fl
  tail : ∀ m ∈ tl, m.signaled = false
  sends : (sendsIn tl : Int) = s.pendingSendMsg - s.toSignaledSendMsg
  wrs : (wrsIn tl : Int) = s.pendingMsg - s.pendingSendMsg - s.toSignaledWRMsg
  slots : (gs.flatten ++ tl).filterMap (·.slot) = ring L s.slotTail s.pendingSendMsg.toNat

section
variable {gs : List (List Mark)} {tl : List Mark} {s₂ : Ctx}

theorem sendsIn_eq (l : List Mark) : sendsIn l = (l.filterMap (·.slot)).length := by
  rw [sendsIn, List.length_filterMap_eq_countP]

theorem sendsIn_add_wrsIn (l : List Mark) : sendsIn l + wrsIn l = l.length := by
  rw [sendsIn, wrsIn, List.length_eq_countP_add_countP (fun m : Mark => m.slot.isSome)]
  congr 2
  funext m
  cases m.slot <;> rfl

theorem sendsIn_concat (l : List Mark) (m : Mark) :
    sendsIn (l ++ [m]) = sendsIn l + if m.slot.isSome = true then 1 else 0 := by
  simp [sendsIn, List.countP_append, List.countP_singleton]

theorem wrsIn_concat (l : List Mark) (m : Mark) :
    wrsIn (l ++ [m]) = wrsIn l + if m.slot.isNone = true then 1 else 0 := by
  simp [wrsIn, List.countP_append, List.countP_singleton]

theorem ring_succ (L : Limits) (t n : Nat) :
    ring L t (n + 1) = ring L t n ++ [(t + n) % L.maxPendingMsg] := by
  simp [ring, List.range_succ]

theorem ring_drop (L : Limits) (t a n : Nat) :
    (ring L t (a + n)).drop a = ring L ((t + a) % L.maxPendingMsg) n := by
  rw [ring, ring, List.range_add, List.map_append, List.drop_left' (by simp), List.map_map]
  refine List.map_congr_left fun k _ => ?_
  simp [Nat.add_assoc]

theorem ring_nodup (L : Limits) {t n : Nat} (hn : n ≤ L.maxPendingMsg) : (ring L t n).Nodup := by
  refine List.Nodup.map_on ?_ List.nodup_range
  intro a ha b hb hab
  rw [List.mem_range] at ha hb
  have hmod : a % L.maxPendingMsg = b % L.maxPendingMsg := Nat.ModEq.add_left_cancel' t hab
  rwa [Nat.mod_eq_of_lt (by omega), Nat.mod_eq_of_lt (by omega)] at hmod

/-- `slot_head` is as far from `slot_tail` as there are pending SENDs. -/
theorem Slots.head_eq (h : Slots L s) (h0 : 0 ≤ s.pendingSendMsg) :
    s.slotHead = (s.slotTail + s.pendingSendMsg.toNat) % L.maxPendingMsg := by
  have hhead := h.head
  rcases h.ring with hr | hr
  · rw [Nat.mod_eq_of_lt (by omega)]
    omega
  · have : s.slotTail + s.pendingSendMsg.toNat = s.slotHead + L.maxPendingMsg := by omega
    rw [this, Nat.add_mod_right, Nat.mod_eq_of_lt hhead]

/-- One more work request is posted. -/
theorem SlotRing.post {slot : Option Nat} (h : SlotRing L s fl gs tl) (hl : Live L s fl)
    (hb : Begun L s s₁ slot) (hslot : wr.slot = slot) (hs : Signals s₁ s₂ wr) :
    ∃ gs' tl', SlotRing L s₂ (fl ++ wr.flag) gs' tl' ∧
      gs'.flatten ++ tl' = gs.flatten ++ tl ++ [wr.mark] := by
  have hsends := h.sends
  have hwrs := h.wrs
  have hpm := hb.pendingMsg
  have hts := hb.toSignaledSendMsg
  have htw := hb.toSignaledWRMsg
  have hpos := hl.pending_le.1
  have hcounts : (sendsIn (tl ++ [wr.mark]) : Int) = s₁.pendingSendMsg - s₁.toSignaledSendMsg ∧
      (wrsIn (tl ++ [wr.mark]) : Int) =
        s₁.pendingMsg - s₁.pendingSendMsg - s₁.toSignaledWRMsg := by
    rw [sendsIn_concat, wrsIn_concat]
    rcases hb.pendingSendMsg with ⟨hnone, hps⟩ | ⟨hsome, hps⟩
    · have hs : wr.mark.slot = none := hslot.trans hnone
      simp only [hs, Option.isSome_none, Option.isNone_none, if_true, Bool.false_eq_true, if_false]
      omega
    · have hs : wr.mark.slot = some s.slotHead := hslot.trans hsome
      simp only [hs, Option.isSome_some, Option.isNone_some, if_true, Bool.false_eq_true, if_false]
      omega
  have hslots : (gs.flatten ++ tl ++ [wr.mark]).filterMap (·.slot) =
      ring L s₁.slotTail s₁.pendingSendMsg.toNat := by
    rw [List.filterMap_append, h.slots, hb.slotTail]
    rcases hb.pendingSendMsg with ⟨hnone, hps⟩ | ⟨hsome, hps⟩
    · simp [SendWr.mark, hslot, hnone, hps]
    · have hn : s₁.pendingSendMsg.toNat = s.pendingSendMsg.toNat + 1 := by omega
      rw [hn, ring_succ, ← hl.toSlots.head_eq hpos]
      simp [SendWr.mark, hslot, hsome]
  rcases hs with ⟨hsig, rfl⟩ | ⟨hsig, hsx, hwx, rfl⟩
  · refine ⟨gs, tl ++ [wr.mark], ⟨?_, ?_, hcounts.1, hcounts.2, ?_⟩, by simp⟩
    · simpa [SendWr.flag, hsig] using h.groups
    · intro m hm
      rcases List.mem_append.1 hm with hm | hm
      · exact h.tail m hm
      · rw [List.mem_singleton.1 hm]
        exact hsig
    · rw [← List.append_assoc]
      exact hslots
  · have hgroup : Group (tl ++ [wr.mark]) wr.wrId :=
      ⟨⟨tl, wr.mark, rfl, h.tail, hsig, rfl⟩, by omega, by omega⟩
    refine ⟨gs ++ [tl ++ [wr.mark]], [], ⟨?_, by simp, ?_, ?_, ?_⟩, by simp⟩
    · simp only [SendWr.flag, hsig, if_true]
      exact List.rel_append h.groups (.cons hgroup .nil)
    · simp [sendsIn]
    · simp [wrsIn]
    · simpa using hslots

/-- The oldest group is completed. -/
theorem SlotRing.freed {x : Nat} {rest : List Nat} {g : List Mark} (hl : Live L s (x :: rest))
    (h : SlotRing L s (x :: rest) (g :: gs) tl) : SlotRing L (s.freed L x rest) rest gs tl := by
  obtain ⟨hg, hgs⟩ := List.forall₂_cons.1 h.groups
  have htail := hl.tail
  have hsends := h.sends
  have hwrs := h.wrs
  have h1 := hl.sends
  have h3 := hl.sends_le
  simp only [List.map_cons, List.sum_cons] at h1
  refine ⟨hgs, h.tail, ?_, ?_, ?_⟩
  · dsimp only [Ctx.freed]
    omega
  · dsimp only [Ctx.freed]
    omega
  · have hslots := congrArg (List.drop (sendsOf x)) h.slots
    have hn : s.pendingSendMsg.toNat = sendsOf x + (s.freed L x rest).pendingSendMsg.toNat := by
      dsimp only [Ctx.freed]
      omega
    have hmod : (s.slotTail + sendsOf x) % L.maxPendingMsg = (s.freed L x rest).slotTail := by
      dsimp only [Ctx.freed]
      have hle := hl.limit
      have hpm := hl.pending_le
      split
      · rw [Nat.mod_eq_sub_mod (by omega), Nat.mod_eq_of_lt (by omega)]
      · rw [Nat.mod_eq_of_lt (by omega)]
    rw [hn, ring_drop, hmod, List.flatten_cons, List.append_assoc, List.filterMap_append,
      List.drop_left' (by rw [hg.sends, sendsIn_eq])] at hslots
    exact hslots

end

/-! ## The drain -/

/-- The `wr_id`s that a list of work requests, the last one first, leaves to be completed. -/
def flags (wrs : List SendWr) : List Nat := wrs.reverse.flatMap (·.flag)

theorem flags_cons (wr : SendWr) (wrs : List SendWr) : flags (wr :: wrs) = flags wrs ++ wr.flag := by
  simp [flags]

theorem flags_eq (wrs : List SendWr) :
    flags wrs = (wrs.reverse.filter (·.signaled)).map (·.wrId) := by
  rw [flags]
  induction wrs.reverse with
  | nil => rfl
  | cons wr l ih =>
    rw [List.flatMap_cons, ih, SendWr.flag]
    cases h : wr.signaled <;> simp [h]

theorem mergeInto_eq_some {wr' : SendWr} (h : Ctx.mergeInto wr r = some wr') :
    ∃ sg msg, wr.body = .send sg ∧ r.body = .send msg ∧
      sg.length + msg.length + 1 + 1 ≤ maxRequestSize ∧ r.signaled = false ∧
      wr' = { wr with body := .send (sg ++ 0 :: msg) } := by
  rw [Ctx.mergeInto] at h
  split at h
  · rename_i sg msg hw hr
    split at h
    · rename_i hc
      exact ⟨sg, msg, hw, hr, hc.1, hc.2, (Option.some.inj h).symm⟩
    · cases h
  · cases h

/-- The drain between two rounds, with the work requests `wrs`, the last one first, behind those that
are outstanding. -/
structure Filling (L : Limits) (n : Nat) (out : List Mark) (s₀ s : Ctx) (wrs : List SendWr) :
    Prop where
  live : Live L s (s₀.inFlight ++ flags wrs)
  posted : s.posted = s₀.posted
  inFlight : s.inFlight = s₀.inFlight
  submitted : s.submitted = s₀.submitted
  pendingMsg : s.pendingMsg + n = L.maxPendingMsg + wrs.length
  le : wrs.length ≤ n
  ring : ∃ gs tl, SlotRing L s (s₀.inFlight ++ flags wrs) gs tl ∧
    gs.flatten ++ tl = out ++ wrs.reverse.map SendWr.mark

theorem Filling.of_queue {out : List Mark} {s₀ : Ctx} {wrs : List SendWr} (q : List RdmaRequest)
    (h : Filling L n out s₀ s wrs) : Filling L n out s₀ { s with pendingRequests := q } wrs := by
  obtain ⟨gs, tl, hr, hout⟩ := h.ring
  exact ⟨h.live.of_counters rfl rfl rfl rfl rfl rfl rfl, h.posted, h.inFlight, h.submitted,
    h.pendingMsg, h.le, gs, tl, ⟨hr.groups, hr.tail, hr.sends, hr.wrs, hr.slots⟩, hout⟩

/-- The drain goes through, and leaves requests only when it has made `n` work requests. -/
theorem drain_fill {out : List Mark} {s₀ : Ctx} {wrs : List SendWr} {q : List RdmaRequest}
    (h : Filling L n out s₀ s wrs) :
    ∃ s' wrs', Ctx.drain L n q s wrs = some (s', wrs') ∧ Filling L n out s₀ s' wrs' ∧
      (s'.pendingRequests ≠ [] → wrs'.length = n) ∧ wrs.length ≤ wrs'.length ∧
      (q ≠ [] → 0 < n → wrs' ≠ []) := by
  induction q generalizing s wrs with
  | nil => exact ⟨_, wrs, rfl, h.of_queue [], by simp, le_rfl, by simp⟩
  | cons r q ih =>
    rw [Ctx.drain]
    cases hm : wrs.head?.bind (Ctx.mergeInto · r) with
    | some wr' =>
      obtain ⟨wr, hw, hm⟩ := Option.bind_eq_some_iff.1 hm
      obtain ⟨wrs, rfl⟩ := List.head?_eq_some_iff.1 hw
      obtain ⟨sg, msg, -, -, -, hsig, rfl⟩ := mergeInto_eq_some hm
      -- the message is in the slot of the last work request, which keeps its place and its counts
      have hf : Filling L n out s₀ s ({ wr with body := .send (sg ++ 0 :: msg) } :: wrs) := by
        obtain ⟨gs, tl, hr, hout⟩ := h.ring
        refine ⟨?_, h.posted, h.inFlight, h.submitted, h.pendingMsg, h.le, gs, tl, ?_, ?_⟩
        · rw [flags_cons]
          exact flags_cons wr wrs ▸ h.live
        · rw [flags_cons]
          exact flags_cons wr wrs ▸ hr
        · rw [hout, List.reverse_cons, List.reverse_cons, List.map_append, List.map_append]
          rfl
      obtain ⟨s', wrs', hdr, hf', hn, hle, -⟩ := ih hf
      refine ⟨s', wrs', ?_, hf', hn, hle, fun _ _ => ?_⟩
      · simpa [h.live.signal_merged hsig] using hdr
      · rintro rfl
        simp at hle
    | none =>
      by_cases hfull : wrs.length = n
      · rw [if_pos hfull]
        refine ⟨_, wrs, rfl, h.of_queue _, fun _ => hfull, le_rfl, ?_⟩
        rintro - hpos rfl
        simp at hfull
        omega
      · have hlt : s.pendingMsg < L.maxPendingMsg := by
          have := h.pendingMsg
          have := h.le
          omega
        obtain ⟨s₁, hs₁, hbegun⟩ := h.live.beginQueued (r := r) hlt
        obtain ⟨s₂, wr', hsignal, hlive, hframe, hpm, -, -, hslot, hsigs⟩ :=
          hbegun.signal r (.new r.body (s.entryQueued r) false) h.live hlt rfl
        have hf : Filling L n out s₀ s₂ (wr' :: wrs) := by
          obtain ⟨gs, tl, hr, hout⟩ := h.ring
          obtain ⟨gs', tl', hr', hout'⟩ := hr.post h.live hbegun hslot hsigs
          refine ⟨?_, hframe.posted.trans h.posted, hframe.inFlight.trans h.inFlight,
            hframe.submitted.trans h.submitted, ?_, ?_, gs', tl', ?_, ?_⟩
          · rw [flags_cons, ← List.append_assoc]
            exact hlive
          · have := h.pendingMsg
            simp only [List.length_cons]
            omega
          · have := h.le
            simp only [List.length_cons]
            omega
          · rw [flags_cons, ← List.append_assoc]
            exact hr'
          · rw [hout', hout]
            simp
        obtain ⟨s', wrs', hdr, hf', hn, hle, -⟩ := ih hf
        refine ⟨s', wrs', ?_, hf', hn, ?_, fun _ _ => ?_⟩
        · simpa [hfull, hs₁, hsignal] using hdr
        · simp only [List.length_cons] at hle
          omega
        · rintro rfl
          simp at hle

/-! ## Steps -/

/-- The invariant of every run: what was posted is groups that are completed, groups in flight, and
unsignaled work requests; a request is queued only while the context is at its limit. -/
structure Sound (L : Limits) (s : Ctx) : Prop where
  live : Live L s s.inFlight
  limit : s.pendingRequests ≠ [] → s.pendingMsg = L.maxPendingMsg
  ring : ∃ done ids gs tl, List.Forall₂ Group done ids ∧
    s.posted.map SendWr.mark = (done ++ gs).flatten ++ tl ∧ SlotRing L s s.inFlight gs tl

theorem Sound.init : Sound L .init where
  live := by
    have hp := L.unsignaled_pos
    have hle := L.unsignaled_le
    refine ⟨⟨rfl, rfl, by simp [Ctx.init], by simp [Ctx.init], by simp [Ctx.init],
      by simp [Ctx.init]⟩, ⟨?_, ?_, .inl rfl, ?_⟩, ?_⟩
    · simp only [Ctx.init]
      omega
    · simp only [Ctx.init]
      omega
    · simp only [Ctx.init, Bool.false_eq_true, false_iff]
      omega
    · simp only [Ctx.init, Ctx.unsignaled]
      omega
  limit h := absurd rfl h
  ring := ⟨[], [], [], [], .nil, rfl, .nil, by simp, rfl, rfl, rfl⟩

/-- A request that finds the context at its limit goes to the end of the queue. -/
theorem Sound.queue (h : Sound L s) (hfull : (L.maxPendingMsg : Int) ≤ s.pendingMsg) :
    Sound L { s.submit r with pendingRequests := s.pendingRequests ++ [r] } := by
  obtain ⟨done, ids, gs, tl, hdone, hposted, hr⟩ := h.ring
  exact ⟨h.live.of_counters rfl rfl rfl rfl rfl rfl rfl,
    fun _ => Int.le_antisymm h.live.limit hfull, done, ids, gs, tl, hdone, hposted,
    hr.groups, hr.tail, hr.sends, hr.wrs, hr.slots⟩

theorem Sound.empty (h : Sound L s) (hlt : s.pendingMsg < L.maxPendingMsg) :
    s.pendingRequests = [] := by
  by_contra hne
  have := h.limit hne
  omega

theorem filter_signaled (wr : SendWr) : ([wr].filter (·.signaled)).map (·.wrId) = wr.flag := by
  cases hw : wr.signaled <;> simp [SendWr.flag, hw]

/-- Below the limit a request is posted behind all others. -/
theorem Sound.post_one (h : Sound L s) (hlt : s.pendingMsg < L.maxPendingMsg)
    {slot : Option Nat} {inline : Bool} (hb : Begun L (s.submit r) s₁ slot)
    (hs : (s₁.signal L r (.new r.body slot inline)).1.post
      [(s₁.signal L r (.new r.body slot inline)).2] = s') : Sound L s' := by
  obtain ⟨done, ids, gs, tl, hdone, hposted, hr⟩ := h.ring
  have hlive : Live L (s.submit r) s.inFlight := h.live.of_counters rfl rfl rfl rfl rfl rfl rfl
  have hr' : SlotRing L (s.submit r) s.inFlight gs tl := ⟨hr.groups, hr.tail, hr.sends, hr.wrs, hr.slots⟩
  obtain ⟨s₂, wr, hsig, hlive₂, hframe, hpm, -, -, hslot, hsigs⟩ :=
    hb.signal r (.new r.body slot inline) hlive hlt rfl
  obtain ⟨gs', tl', hr₂, hout⟩ := hr'.post hlive hb hslot hsigs
  rw [hsig] at hs
  subst hs
  have hfl : (s₂.post [wr]).inFlight = s.inFlight ++ wr.flag := by
    simp only [Ctx.post, filter_signaled, hframe.inFlight]
    rfl
  refine ⟨?_, fun hne => absurd (hframe.pendingRequests.trans (h.empty hlt)) hne,
    done, ids, gs', tl', hdone, ?_, ?_⟩
  · rw [hfl]
    exact hlive₂.of_counters rfl rfl rfl rfl rfl rfl rfl
  · have hp : s₂.posted = s.posted := hframe.posted
    simp only [Ctx.post, hp, List.map_append, hposted, List.flatten_append, List.append_assoc, hout,
      List.map_cons, List.map_nil]
  · rw [hfl]
    exact ⟨hr₂.groups, hr₂.tail, hr₂.sends, hr₂.wrs, hr₂.slots⟩

theorem Sound.rdma (h : Sound L s) (r : RdmaRequest) : ∃ s', s.rdma L r none = some s' ∧ Sound L s' := by
  by_cases hfull : (L.maxPendingMsg : Int) ≤ s.pendingMsg
  · rw [Ctx.rdma_eq, if_pos hfull]
    exact ⟨_, rfl, h.queue hfull⟩
  · have hlt : s.pendingMsg < L.maxPendingMsg := by omega
    have hlive : Live L (s.submit r) s.inFlight := h.live.of_counters rfl rfl rfl rfl rfl rfl rfl
    obtain ⟨s₁, hs₁, hb⟩ := hlive.begin (r := r) hlt
    rw [Ctx.rdma_eq, if_neg hfull, Option.isSome_none, hs₁]
    exact ⟨_, rfl, h.post_one hlt hb rfl⟩

/-- A SEND from a slot that was free is posted at once. -/
theorem Live.sendSlot (h : Live L s fl) {msg : List Byte} {id : BitVec 32} {signaled : Bool}
    (hs : step L (.sendSlot msg id signaled) s = some s') :
    s.pendingMsg < L.maxPendingMsg ∧ ∃ s₁ slot inline,
      Begun L (s.submit ⟨.send msg, id, signaled⟩) s₁ slot ∧
      (s₁.signal L ⟨.send msg, id, signaled⟩ (.new (.send msg) slot inline)).1.post
        [(s₁.signal L ⟨.send msg, id, signaled⟩ (.new (.send msg) slot inline)).2] = s' := by
  obtain ⟨t, ht, hs⟩ := Option.bind_eq_some_iff.1 hs
  have hlive : Live L (s.submit ⟨.send msg, id, signaled⟩) fl :=
    h.of_counters rfl rfl rfl rfl rfl rfl rfl
  have hlt := (getFreeSlot_eq_some ht).2.1
  have hslot : (s.submit ⟨.send msg, id, signaled⟩).getFreeSlot L =
      some (t.submit ⟨.send msg, id, signaled⟩) := by
    obtain ⟨hav, -, rfl⟩ := getFreeSlot_eq_some ht
    rw [Ctx.getFreeSlot, if_neg]
    · rfl
    · rintro (hc | hc)
      · exact hav hc
      · exact Int.not_lt.2 hc hlt
  have htp : t.pendingMsg = s.pendingMsg := by rw [(getFreeSlot_eq_some ht).2.2]
  rw [Ctx.rdma_eq, if_neg (by omega)] at hs
  obtain ⟨s₁, hs₁, rfl⟩ := Option.map_eq_some_iff.1 hs
  simp only [Ctx.begin, Option.isSome_some, Bool.true_eq_false, false_and, if_false, if_true] at hs₁
  obtain rfl := Option.some.inj hs₁
  exact ⟨hlt, _, _, _, hlive.begun_slot hslot, rfl⟩

theorem Sound.freed {x : Nat} {rest : List Nat} (h : Sound L s) (hx : s.inFlight = x :: rest) :
    Live L (s.freed L x rest) rest ∧ ∃ done ids gs tl, List.Forall₂ Group done ids ∧
      s.posted.map SendWr.mark = (done ++ gs).flatten ++ tl ∧
      SlotRing L (s.freed L x rest) rest gs tl := by
  obtain ⟨done, ids, gs, tl, hdone, hposted, hr⟩ := h.ring
  have hlive : Live L s (x :: rest) := hx ▸ h.live
  rw [hx] at hr
  obtain ⟨g, gs, hg, -, rfl⟩ := List.forall₂_cons_right_iff.1 hr.groups
  refine ⟨hlive.freed, done ++ [g], ids ++ [x], gs, tl,
    List.rel_append hdone (.cons hg .nil), ?_, hr.freed hlive⟩
  simpa using hposted

theorem Sound.sendComp {x : Nat} {rest : List Nat} (h : Sound L s) (hx : s.inFlight = x :: rest) :
    ∃ s', s.sendComp L = some s' ∧ Sound L s' := by
  obtain ⟨hlive, done, ids, gs, tl, hdone, hposted, hr⟩ := h.freed hx
  have hn : 1 ≤ sendsOf x + wrsOf x := h.live.each x (by simp [hx])
  have hqueue : (s.freed L x rest).pendingRequests = s.pendingRequests := rfl
  rw [Ctx.sendComp_eq hx, Ctx.processPendingRequests, hqueue]
  by_cases hempty : s.pendingRequests = []
  · rw [if_pos hempty]
    exact ⟨_, rfl, hlive, fun hne => absurd hempty hne, done, ids, gs, tl, hdone, hposted, hr⟩
  · rw [if_neg hempty]
    have hf : Filling L (sendsOf x + wrsOf x) (gs.flatten ++ tl) (s.freed L x rest)
        (s.freed L x rest) [] := by
      refine ⟨by simpa [flags, Ctx.freed] using hlive, rfl, rfl, rfl, ?_, Nat.zero_le _, gs, tl,
        by simpa [flags, Ctx.freed] using hr, by simp⟩
      have := h.limit hempty
      dsimp only [Ctx.freed, List.length_nil]
      omega
    obtain ⟨s', wrs, hdr, hf', hlim, -, hne⟩ := drain_fill (q := s.pendingRequests) hf
    rw [hdr]
    simp only [Option.bind_eq_bind, Option.bind_some, if_neg (hne hempty hn)]
    obtain ⟨gs', tl', hr', hout⟩ := hf'.ring
    have hfl : (s'.post (wrs.reverse.map fun wr =>
        { wr with inline := decide (wr.body.length ≤ L.inlineSize) })).inFlight =
        rest ++ flags wrs := by
      simp only [Ctx.post, hf'.inFlight]
      rw [flags_eq, List.filter_map, List.map_map]
      rfl
    refine ⟨_, rfl, ?_, fun hne => ?_, done, ids, gs', tl', hdone, ?_, ?_⟩
    · rw [hfl]
      exact hf'.live.of_counters rfl rfl rfl rfl rfl rfl rfl
    · have hpm := hf'.pendingMsg
      have := hlim hne
      dsimp only [Ctx.post]
      omega
    · have hp : (s.freed L x rest).posted = s.posted := rfl
      simp only [Ctx.post, hf'.posted, hp, List.map_append, hposted, List.flatten_append,
        List.append_assoc, hout, List.map_map]
      rfl
    · rw [hfl]
      exact ⟨hr'.groups, hr'.tail, hr'.sends, hr'.wrs, hr'.slots⟩

theorem Sound.step {a : Action} (h : Sound L s) (hs : step L a s = some s') : Sound L s' := by
  cases a with
  | rdma r =>
    obtain ⟨t, ht, hi⟩ := h.rdma r
    obtain rfl : t = s' := Option.some.inj (ht.symm.trans hs)
    exact hi
  | sendSlot msg id signaled =>
    obtain ⟨hlt, s₁, slot, inline, hb, hs⟩ := h.live.sendSlot hs
    exact h.post_one hlt hb hs
  | sendComp =>
    have hs : s.sendComp L = some s' := hs
    cases hx : s.inFlight with
    | nil => simp [Ctx.sendComp, hx] at hs
    | cons x rest =>
      obtain ⟨t, ht, hi⟩ := h.sendComp hx
      obtain rfl : t = s' := Option.some.inj (ht.symm.trans hs)
      exact hi

/-! ## Runs -/

/-- The ring of a context between calls. What was posted is completed groups, groups in flight and
unsignaled work requests, and each signaled `wr_id` counts its group. The slots from `slot_tail` on
to `slot_head` are those of the SENDs not completed, each with a slot of its own. -/
structure RingOk (L : Limits) (s : Ctx) (out : List Mark) : Prop where
  posted : ∃ done ids gs tl, List.Forall₂ Group done ids ∧ List.Forall₂ Group gs s.inFlight ∧
    (∀ m ∈ tl, m.signaled = false) ∧ out = gs.flatten ++ tl ∧
    s.posted.map SendWr.mark = done.flatten ++ out
  count : (out.length : Int) = s.pendingMsg ∧ (sendsIn out : Int) = s.pendingSendMsg
  slots : out.filterMap (·.slot) = ring L s.slotTail (sendsIn out)
  nodup : (out.filterMap (·.slot)).Nodup
  head : s.slotHead = (s.slotTail + sendsIn out) % L.maxPendingMsg
  full : s.full = true ↔ sendsIn out = L.maxPendingMsg
  fresh : ∀ s', s.getFreeSlot L = some s' → some s.slotHead ∉ out.map (·.slot)
  free : s.pendingMsg < L.maxPendingMsg → (s.getFreeSlot L).isSome = true
  signaled : s.pendingMsg = L.maxPendingMsg → s.inFlight ≠ []

/-- The counts in the `wr_id`s add up to the work requests of their groups. -/
theorem sum_groups {gs : List (List Mark)} (h : List.Forall₂ Group gs fl) :
    (fl.map sendsOf).sum = sendsIn gs.flatten ∧ (fl.map wrsOf).sum = wrsIn gs.flatten := by
  induction h with
  | nil => exact ⟨rfl, rfl⟩
  | cons hg _ ih =>
    rw [sendsIn, wrsIn] at ih ⊢
    simp only [List.map_cons, List.sum_cons, List.flatten_cons, List.countP_append, ih.1, ih.2,
      hg.sends, hg.wrs]
    exact ⟨rfl, rfl⟩

theorem Sound.ringOk (h : Sound L s) : ∃ out, RingOk L s out := by
  obtain ⟨done, ids, gs, tl, hdone, hposted, hr⟩ := h.ring
  obtain ⟨hsum, hsum'⟩ := sum_groups hr.groups
  have h1 := h.live.sends
  have h2 := h.live.wrs
  have h3 := hr.sends
  have h4 := hr.wrs
  have h5 := h.live.limit
  have h6 := h.live.unsignaled
  have hle := h.live.pending_le
  rw [hsum] at h1
  rw [hsum'] at h2
  have hsends : (sendsIn (gs.flatten ++ tl) : Int) = s.pendingSendMsg := by
    rw [sendsIn] at *
    rw [List.countP_append]
    omega
  have hwrs : (wrsIn (gs.flatten ++ tl) : Int) = s.pendingMsg - s.pendingSendMsg := by
    rw [wrsIn] at *
    rw [List.countP_append]
    omega
  have hlen := sendsIn_add_wrsIn (gs.flatten ++ tl)
  have hnat : s.pendingSendMsg.toNat = sendsIn (gs.flatten ++ tl) := by omega
  have hslots := hr.slots
  have hhead := h.live.toSlots.head_eq hle.1
  rw [hnat] at hslots hhead
  refine ⟨gs.flatten ++ tl, ⟨done, ids, gs, tl, hdone, hr.groups, hr.tail, rfl, ?_⟩,
    ⟨by omega, hsends⟩, hslots, ?_, hhead, ?_, ?_, ?_, ?_⟩
  · simpa using hposted
  · rw [hslots]
    exact ring_nodup L (by omega)
  · rw [h.live.full]
    omega
  · intro s' hs' hmem
    -- the slot that is handed out would continue the ring, which is not full
    have hlt := (getFreeSlot_eq_some hs').2.1
    have hnodup : (Rdma.ring L s.slotTail (sendsIn (gs.flatten ++ tl) + 1)).Nodup :=
      ring_nodup L (by omega)
    rw [ring_succ, ← hhead, ← hslots] at hnodup
    obtain ⟨m, hm, hmslot⟩ := List.mem_map.1 hmem
    exact (List.nodup_append.1 hnodup).2.2 s.slotHead (List.mem_filterMap.2 ⟨m, hm, hmslot⟩)
      s.slotHead (List.mem_singleton_self _) rfl
  · intro hlt
    exact Option.isSome_iff_exists.2 (h.live.toSlots.exists_slot hle.1 hle.2 hlt)
  · intro hmax hnil
    have h7 := h.live.sends
    have h8 := h.live.wrs
    have h9 := L.unsignaled_le
    simp only [hnil, List.map_nil, List.sum_nil] at h7 h8
    rw [Ctx.unsignaled] at h6
    omega

/-- In every run of submissions and completions the ring is sound in every state, and every call goes
through. -/
theorem ringOk_of_reaches (h : Reaches (step L) anyStep .init s) :
    (∃ out, RingOk L s out) ∧ (∀ r, (step L (.rdma r) s).isSome = true) ∧
      (s.inFlight ≠ [] → (step L .sendComp s).isSome = true) := by
  have hs : Sound L s := h.invariant .init fun _ _ _ hi _ hs => hi.step hs
  refine ⟨hs.ringOk, fun r => ?_, fun hne => ?_⟩
  · obtain ⟨s', hs', -⟩ := hs.rdma r
    exact Option.isSome_iff_exists.2 ⟨s', hs'⟩
  · obtain ⟨x, rest, hx⟩ := List.exists_cons_of_ne_nil hne
    obtain ⟨s', hs', -⟩ := hs.sendComp hx
    exact Option.isSome_iff_exists.2 ⟨s', hs'⟩

/-- A signaled SEND of one byte from the first slot. -/
theorem ringOk_sendSlot : ∃ s, Reaches (step Limits.worker) anyStep .init s ∧
    s.posted.map (·.slot) = [some 0] ∧ (∃ out, RingOk Limits.worker s out) ∧
    (∀ r, (step Limits.worker (.rdma r) s).isSome = true) ∧
    (s.inFlight ≠ [] → (step Limits.worker .sendComp s).isSome = true) := by
  obtain ⟨s, hs⟩ : ∃ s, step Limits.worker (.sendSlot [1] 0 true) .init = some s :=
    Option.isSome_iff_exists.1 (by decide)
  have hr : Reaches (step Limits.worker) anyStep .init s := Reaches.refl.tail trivial hs
  refine ⟨s, hr, ?_, ringOk_of_reaches hr⟩
  have hslot : (step Limits.worker (.sendSlot [1] 0 true) .init).map (fun s => s.posted.map (·.slot)) =
      some [some 0] := by decide
  rw [hs] at hslot
  exact Option.some.inj hslot

end HwGam.Rdma
