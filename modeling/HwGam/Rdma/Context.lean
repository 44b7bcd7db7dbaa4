import Mathlib.Algebra.Ring.Nat
import Mathlib.Data.List.Chain
import Mathlib.Data.List.Forall2
import HwGam.Lib.Transition
import HwGam.Wire.Receive

/-!
# RDMA submission

`RdmaContext::Rdma` posts a request to the queue pair while fewer than `max_pending_msg` messages
are pending and queues it otherwise; a send completion frees messages and drains the queue, adjacent
small SENDs being merged into one slot. The state keeps what was submitted and what was posted. Each
step holds the context's lock. Built with `MERGE_RDMA_REQUESTS`; compare-and-swap, which `Rdma` does
not support and nothing submits, is left out.
-/

namespace HwGam.Rdma

open Lib

/-- `max_pending_msg`, `max_unsignaled_msg` and `MAX_RDMA_INLINE_SIZE`, with what the constructor
makes sure of. -/
structure Limits where
  maxPendingMsg : Nat
  maxUnsignaledMsg : Nat
  inlineSize : Nat
  unsignaled_pos : 0 < maxUnsignaledMsg
  unsignaled_le : maxUnsignaledMsg ≤ maxPendingMsg
  unsignaled_u16 : maxUnsignaledMsg < 2 ^ 16

/-- A worker's context, and a master's. -/
def Limits.worker : Limits := ⟨1024, 512, 256, by decide, by decide, by decide⟩

/-- `MAX_REQUEST_SIZE`, the size of a slot. -/
def maxRequestSize : Nat := 1024

/-- What a request moves: the message of a SEND, or the two ends of a one-sided write, with the
immediate value of `WRITE_WITH_IMM`, or of a one-sided read. -/
inductive Body where
  | send (msg : List Byte)
  | write (imm : Option (BitVec 32)) (dest src : BitVec 64) (len : Nat)
  | read (dest src : BitVec 64) (len : Nat)
  deriving DecidableEq, Repr

def Body.length : Body → Nat
  | .send msg => msg.length
  | .write _ _ _ len => len
  | .read _ _ len => len

structure RdmaRequest where
  body : Body
  id : BitVec 32
  signaled : Bool
  deriving DecidableEq, Repr

/-- `ibv_send_wr` with its one `ibv_sge`, which points to a slot or to memory elsewhere. -/
structure SendWr where
  body : Body
  slot : Option Nat
  numSge : Nat
  inline : Bool
  signaled : Bool
  wrId : Nat
  deriving DecidableEq, Repr

/-- A work request before its flags are set. -/
def SendWr.new (body : Body) (slot : Option Nat) (inline : Bool) : SendWr :=
  ⟨body, slot, if body.length = 0 then 0 else 1, inline, false, 2 ^ 64 - 1⟩

/-- What the queue pair sends for it: with no scatter/gather entry, nothing. -/
def SendWr.transmits (wr : SendWr) : Body :=
  match wr.body with
  | .send sg => .send (if wr.numSge = 0 then [] else sg)
  | body => body

structure Ctx where
  slotHead : Nat
  slotTail : Nat
  full : Bool
  pendingMsg : Int
  pendingSendMsg : Int
  toSignaledSendMsg : Int
  toSignaledWRMsg : Int
  pendingRequests : List RdmaRequest
  /-- The work requests posted so far. -/
  posted : List SendWr
  /-- `wr_id` of the signaled work requests whose completion is still to come. -/
  inFlight : List Nat
  /-- The requests given to `Rdma` so far. -/
  submitted : List RdmaRequest
  deriving DecidableEq, Repr

def Ctx.init : Ctx := ⟨0, 0, false, 0, 0, 0, 0, [], [], [], []⟩

/-- Conversion to `uint16_t`. -/
def u16 (z : Int) : Nat := (z % 2 ^ 16).toNat

/-- The three parts of a `wr_id`. -/
def packWrId (id : BitVec 32) (sends wrs : Nat) : Nat :=
  id.toNat + sends % 2 ^ 16 * 2 ^ 48 + wrs % 2 ^ 16 * 2 ^ 32

def sendsOf (wrId : Nat) : Nat := wrId / 2 ^ 48 % 2 ^ 16

def wrsOf (wrId : Nat) : Nat := wrId / 2 ^ 32 % 2 ^ 16

namespace Ctx

variable (L : Limits)

/-- `avail` of `GetFreeSlot_`. -/
def availSlots (s : Ctx) : Nat :=
  let avail := if s.slotHead ≤ s.slotTail then s.slotTail - s.slotHead
    else s.slotTail + L.maxPendingMsg - s.slotHead
  if avail = 0 ∧ s.full = false then L.maxPendingMsg else avail

/-- `slot_head` after a slot was taken. -/
def nextHead (s : Ctx) : Nat :=
  if s.slotHead + 1 = L.maxPendingMsg then 0 else s.slotHead + 1

/-- `GetFreeSlot_`: the state after taking a slot, none when there is no free one. -/
def getFreeSlot (s : Ctx) : Option Ctx :=
  if s.availSlots L = 0 ∨ L.maxPendingMsg ≤ s.pendingMsg then none
  else some { s with slotHead := s.nextHead L, full := s.full || s.nextHead L == s.slotTail }

/-- The signaling of a work request: one in `max_unsignaled_msg`, and those that ask for it. -/
def signal (s : Ctx) (r : RdmaRequest) (wr : SendWr) : Ctx × SendWr :=
  let sends := u16 (s.pendingSendMsg - s.toSignaledSendMsg)
  let wrs := u16 (s.pendingMsg - s.pendingSendMsg - s.toSignaledWRMsg)
  if sends + wrs = L.maxUnsignaledMsg ∨ r.signaled then
    ({ s with
        toSignaledSendMsg := s.toSignaledSendMsg + sends
        toSignaledWRMsg := s.toSignaledWRMsg + wrs },
      { wr with signaled := true, wrId := packWrId r.id sends wrs })
  else (s, wr)

/-- `ibv_post_send` of a chain of work requests. -/
def post (s : Ctx) (wrs : List SendWr) : Ctx :=
  { s with
    posted := s.posted ++ wrs
    inFlight := s.inFlight ++ (wrs.filter (·.signaled)).map (·.wrId) }

/-- The slot and the counters of a request that is posted at once. A message that is neither in a
slot nor short enough to go inline is copied to a slot. -/
def begin (s : Ctx) (r : RdmaRequest) (registered : Bool) : Option Ctx :=
  match r.body with
  | .send msg =>
    if registered = false ∧ L.inlineSize < msg.length then do
      let s ← s.getFreeSlot L
      some { s with pendingSendMsg := s.pendingSendMsg + 1, pendingMsg := s.pendingMsg + 1 }
    else if registered then
      some { s with pendingSendMsg := s.pendingSendMsg + 1, pendingMsg := s.pendingMsg + 1 }
    else some { s with pendingMsg := s.pendingMsg + 1 }
  | .write .. | .read .. => some { s with pendingMsg := s.pendingMsg + 1 }

/-- Where the entry of a request that is posted at once points to. -/
def entry (s : Ctx) (r : RdmaRequest) (registered : Option Nat) : Option Nat :=
  match r.body with
  | .send msg => if registered = none ∧ L.inlineSize < msg.length then some s.slotHead else registered
  | .write .. | .read .. => none

/-- `RdmaContext::Rdma`; `registered`: the slot the message already is in. -/
def rdma (s : Ctx) (r : RdmaRequest) (registered : Option Nat) : Option Ctx :=
  let s := { s with submitted := s.submitted ++ [r] }
  if (L.maxPendingMsg : Int) ≤ s.pendingMsg then
    some { s with pendingRequests := s.pendingRequests ++ [r] }
  else do
    let slot := s.entry L r registered
    let s ← s.begin L r registered.isSome
    let (s, wr) := s.signal L r (.new r.body slot (r.body.length ≤ L.inlineSize))
    some (s.post [wr])

/-- The last work request with the message appended, when it is a SEND with room for it. -/
def mergeInto (wr : SendWr) (r : RdmaRequest) : Option SendWr :=
  match wr.body, r.body with
  | .send sg, .send msg =>
    if sg.length + msg.length + 1 + 1 ≤ maxRequestSize ∧ r.signaled = false then
      some { wr with body := .send (sg ++ 0 :: msg) }
    else none
  | _, _ => none

/-- The slot and the counters of a request that starts a work request of its own in the drain. -/
def beginQueued (s : Ctx) (r : RdmaRequest) : Option Ctx :=
  match r.body with
  | .send _ => do
    let s ← s.getFreeSlot L
    some { s with pendingSendMsg := s.pendingSendMsg + 1, pendingMsg := s.pendingMsg + 1 }
  | .write .. | .read .. => some { s with pendingMsg := s.pendingMsg + 1 }

/-- Where the entry of such a request points to. -/
def entryQueued (s : Ctx) (r : RdmaRequest) : Option Nat :=
  match r.body with
  | .send _ => some s.slotHead
  | .write .. | .read .. => none

/-- The loop of `ProcessPendingRequests`: at most `n` work requests, the last one first in
`wrs`. -/
def drain (n : Nat) : List RdmaRequest → Ctx → List SendWr → Option (Ctx × List SendWr)
  | [], s, wrs => some ({ s with pendingRequests := [] }, wrs)
  | r :: rs, s, wrs =>
    match wrs.head?.bind (mergeInto · r) with
    | some wr =>
      let (s, wr) := s.signal L r wr
      drain n rs s (wr :: wrs.tail)
    | none =>
      if wrs.length = n then some ({ s with pendingRequests := r :: rs }, wrs)
      else do
        let slot := s.entryQueued r
        let s ← s.beginQueued L r
        let (s, wr) := s.signal L r (.new r.body slot false)
        drain n rs s (wr :: wrs)

/-- `ProcessPendingRequests`. -/
def processPendingRequests (s : Ctx) (n : Nat) : Option Ctx :=
  if s.pendingRequests = [] then some s
  else do
    let (s, wrs) ← drain L n s.pendingRequests s []
    if wrs = [] then none
    else some (s.post (wrs.reverse.map fun wr =>
      { wr with inline := decide (wr.body.length ≤ L.inlineSize) }))

/-- `SendComp` for the oldest signaled work request. -/
def sendComp (s : Ctx) : Option Ctx :=
  match s.inFlight with
  | [] => none
  | wrId :: rest =>
    let sends := sendsOf wrId
    let wrs := wrsOf wrId
    let tail := s.slotTail + sends
    let s := { s with
      inFlight := rest
      slotTail := if L.maxPendingMsg ≤ tail then tail - L.maxPendingMsg else tail
      toSignaledSendMsg := s.toSignaledSendMsg - sends
      toSignaledWRMsg := s.toSignaledWRMsg - wrs
      pendingMsg := s.pendingMsg - (sends + wrs)
      pendingSendMsg := s.pendingSendMsg - sends
      full := if s.full ∧ sends ≠ 0 then false else s.full }
    s.processPendingRequests L (sends + wrs)

end Ctx

inductive Action where
  /-- `Rdma` with a message outside the send buffer, or a one-sided request. -/
  | rdma (r : RdmaRequest)
  /-- `GetFreeSlot` and then `Send` from the slot, which must be there. -/
  | sendSlot (msg : List Byte) (id : BitVec 32) (signaled : Bool)
  | sendComp
  deriving DecidableEq, Repr

def step (L : Limits) : Action → Ctx → Option Ctx
  | .rdma r, s => s.rdma L r none
  | .sendSlot msg id signaled, s => do
    let slot := s.slotHead
    let s ← s.getFreeSlot L
    s.rdma L ⟨.send msg, id, signaled⟩ (some slot)
  | .sendComp, s => s.sendComp L

/-! ## First in, first out -/

/-- The work request stands for these requests: for one, or for SENDs merged in order. -/
def SendWr.Carries (wr : SendWr) (rs : List RdmaRequest) : Prop :=
  (∃ r, rs = [r] ∧ wr.transmits = r.body) ∨
    ∃ msgs ≠ [], rs.map (·.body) = msgs.map .send ∧ wr.transmits = .send (Wire.merge msgs)

/-- What was posted, part by part, and what is queued is what was submitted, in order; a request is
queued only while the context is at its limit. -/
structure Fifo (L : Limits) (s : Ctx) : Prop where
  order : ∃ blocks, List.Forall₂ SendWr.Carries s.posted blocks ∧
    blocks.flatten ++ s.pendingRequests = s.submitted
  limit : s.pendingRequests ≠ [] → s.pendingMsg = L.maxPendingMsg

/-- A message fits into a slot. -/
def InSlot : Action → Ctx → Prop
  | .rdma r, _ => ∀ msg, r.body = .send msg → msg.length ≤ maxRequestSize
  | .sendSlot msg _ _, _ => msg.length ≤ maxRequestSize
  | .sendComp, _ => True

/-- `r` would be merged behind an empty SEND `e`. -/
def BehindEmpty (e r : RdmaRequest) : Prop :=
  e.body = .send [] ∧ r.signaled = false ∧ ∃ msg, r.body = .send msg ∧
    msg.length + 1 + 1 ≤ maxRequestSize

/-- A completion finds no empty SEND in the queue with a SEND behind it that fits into its slot. -/
def NoneBehindEmpty (a : Action) (s : Ctx) : Prop :=
  InSlot a s ∧ (a = .sendComp → s.pendingRequests.IsChain fun e r => ¬ BehindEmpty e r)

end HwGam.Rdma
