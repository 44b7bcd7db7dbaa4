import HwGam.Coherence.Step

/-!
# Configurations of a caching worker

What the home may assume about a worker, as a `Role`, and the configurations of the worker's line,
its pending request and the messages between the two that fit each role. A configuration looks at a
`View`: requests of the worker the home has not handled yet count as `out`, whether they are in
flight or parked at the home; the answers to them are `rep` and `fwd`. What the home asks of the
worker, and the worker's answer, is the worker's token (`Tok`).
-/

namespace HwGam.Coherence

variable {W : Type*}

/-! ## Views -/

@[simp] def ToHome.own? : ToHome → Option Own
  | .own o => some o
  | .ack _ | .rdmaWrite _ => none

@[simp] def ToHome.ack? : ToHome → Option Ack
  | .ack a => some a
  | .own _ | .rdmaWrite _ => none

@[simp] def FromHome.reply? : FromHome W → Option Reply
  | .reply r => some r
  | .ask _ => none

@[simp] def FromHome.ask? : FromHome W → Option (Ask W)
  | .ask a => some a
  | .reply _ => none

@[simp] def Item.remote? {R : Type*} : Item R → Option R
  | .remote x => some x
  | .local _ | .load => none

def Cacher.inFlight (c : Cacher W) : List Own := c.toHome.filterMap ToHome.own?

def Cacher.acks (c : Cacher W) : List Ack := c.toHome.filterMap ToHome.ack?

def Cacher.replies (c : Cacher W) : List Reply := c.fromHome.filterMap FromHome.reply?

/-- What the home asked and the worker has not answered, parked requests included. -/
def Cacher.asks (c : Cacher W) : List (Ask W) :=
  c.serve ++ c.agenda.filterMap Item.remote? ++ c.fromHome.filterMap FromHome.ask?

/-- The requests of `w` that wait at the home, oldest first. -/
def Home.parked [DecidableEq W] (h : Home W) (w : W) : List Own :=
  sentTo w h.serve ++ sentTo w (h.agenda.filterMap Item.remote?)

structure View (W : Type*) where
  line : Option Line
  pending : Option Pending
  out : List Own
  rep : List Reply
  fwd : List (W × PeerMsg)

/-- The view of a worker with `parked` requests at the home. -/
def Cacher.view (c : Cacher W) (parked : List Own) : View W where
  line := c.line
  pending := c.pending
  out := parked ++ c.inFlight
  rep := c.replies
  fwd := c.fromPeers

/-! ## Roles -/

/-- What the home has granted a worker; `p` is the line the home knows. -/
inductive Role
  | idle
  | sharer (p : Ptr)
  | owner (p : Ptr)
  /-- its READ or WRITE is forwarded, and the owner has not answered -/
  | readWait (p : Ptr) (tryLock : Bool)
  | writeWait (p : Ptr) (tryLock : Bool)
  /-- the owner has sent it the block; the home does not know yet -/
  | grantWait (p : Ptr)
  | failWait (p : Ptr)
  /-- its WRITE waits for the other copies; `listed`: its own copy still counts -/
  | invWait (p : Ptr) (listed tryLock : Bool)
  deriving DecidableEq

/-- The home's outstanding question to a worker, or the answer to it. -/
inductive Tok (W : Type*)
  | none
  | ask (a : Ask W)
  | ack (a : Ack)

/-- Which of the two lapses of the protocol the run may contain: `stale` allows a line that a failed
try-lock leaves shared without a copy's rights, `case3` a read-locked line that gave up its copy. -/
structure Slack where
  stale : Bool
  case3 : Bool

section
variable (f : Slack) (i : Nat) (cur : Data)

/-- An eviction message of an earlier copy that may still be on its way. -/
def evicted (e : Option Ptr) : List Own := e.toList.map .activeInvalidate

structure ReadLine (l : Line) : Prop where
  state : l.state = .toShared
  locks : l.locks.isBlockLocked = false

structure WriteLine (l : Line) (op : Fetch) : Prop where
  state : l.state = .toDirty
  notRead : op ≠ .read
  locks : l.locks.Below exclusive
  unlocked : op = .write → l.locks.isBlockLocked = false

structure LeavingLine (l : Line) : Prop where
  state : l.state = .toInvalid
  locks : l.locks.isBlockLocked = false

attribute [grind →] ReadLine.state WriteLine.state LeavingLine.state

/-- An upgrade whose shared copy is gone: it waits for the data like a WRITE. -/
structure Lapsed (op : Fetch) (l : Line) (q : Request) : Prop where
  stale : op = .writePermissionOnly → q.op.isTry = true → f.stale = true
  case3 : op = .writePermissionOnly → l.locks.isBlockLocked = true →
    f.case3 = true ∨ f.stale = true

/-- The refusals on their way to a writer, with its counter and status. -/
inductive Refused : List Reply → List (W × PeerMsg) → Int → Option Status → Prop
  | home (st : Status) : Refused [.writeReply (some st)] [] 0 none
  | both (o : W) (st : Status) : Refused [.imm none] [(o, .writeReply st)] 0 none
  | last (st : Status) : Refused [.imm none] [] (-1) (some st)
  | peer (o : W) (st : Status) : Refused [] [(o, .writeReply st)] 1 none

/-- The home has granted nothing. -/
inductive Idle (v : View W) : Prop
  | absent (e : Option Ptr) (hl : v.line = none) (hp : v.pending = none) (ho : v.out = evicted e)
      (hr : v.rep = []) (hf : v.fwd = [])
  | read (e : Option Ptr) (l : Line) (q : Request) (hl : v.line = some l) (hs : ReadLine l)
      (hp : v.pending = some (.fetch .read 0 none q))
      (ho : v.out = evicted e ++ [.read l.ptr q.op.isTry]) (hr : v.rep = []) (hf : v.fwd = [])
  | readFailed (l : Line) (q : Request) (st : Status) (ht : q.op.isTry = true) (hl : v.line = some l) (hs : ReadLine l)
      (hp : v.pending = some (.fetch .read 0 none q)) (ho : v.out = [])
      (hrf : (v.rep = [.readReply st] ∧ v.fwd = []) ∨
        (v.rep = [] ∧ ∃ o, v.fwd = [(o, .readReply st)]))
  | write (e : Option Ptr) (l : Line) (q : Request) (hl : v.line = some l)
      (hs : WriteLine l .write) (hp : v.pending = some (.fetch .write 0 none q))
      (ho : v.out = evicted e ++ [.write l.ptr q.op.isTry]) (hr : v.rep = []) (hf : v.fwd = [])
  | upgrade (l : Line) (q : Request) (hl : v.line = some l)
      (hs : WriteLine l .writePermissionOnly) (hq : Lapsed f .writePermissionOnly l q)
      (hp : v.pending = some (.fetch .writePermissionOnly 0 none q))
      (ho : v.out = [.writePermissionOnly l.ptr q.op.isTry]) (hr : v.rep = []) (hf : v.fwd = [])
  | writeFailed (op : Fetch) (n : Int) (st : Option Status) (l : Line) (q : Request)
      (ht : q.op.isTry = true) (hl : v.line = some l) (hs : WriteLine l op)
      (hq : op = .writePermissionOnly → f.stale = true)
      (hp : v.pending = some (.fetch op n st q)) (ho : v.out = [])
      (hrf : Refused v.rep v.fwd n st)
  | writeBack (l : Line) (p : Ptr) (hl : v.line = some l) (hs : LeavingLine l)
      (hp : v.pending = some .writeBack)
      (hor : (v.out = [.writeBack p] ∧ v.rep = []) ∨ (v.out = [] ∧ v.rep = [.imm none]))
      (hf : v.fwd = [])
  | invalidate (l : Line) (hl : v.line = some l) (hs : LeavingLine l)
      (hp : v.pending = some .pendingInvalidate) (ho : v.out = []) (hr : v.rep = [])
      (hf : v.fwd = [])
  | stale (l : Line) (hstale : f.stale = true) (hl : v.line = some l) (hs : l.state = .shared)
      (hw : l.locks.Below exclusive) (hp : v.pending = none) (ho : v.out = [])
      (hr : v.rep = []) (hf : v.fwd = [])

/-- The home counts the worker's line `p` as a copy. -/
inductive Sharer (p : Ptr) (v : View W) : Prop
  | shared (l : Line) (hl : v.line = some l) (hs : l.state = .shared) (hptr : l.ptr = p)
      (hd : l.data = cur) (hw : l.locks.Below exclusive) (hp : v.pending = none)
      (ho : v.out = []) (hr : v.rep = []) (hf : v.fwd = [])
  | evicted (hl : v.line = none) (hp : v.pending = none) (ho : v.out = [.activeInvalidate p])
      (hr : v.rep = []) (hf : v.fwd = [])
  | arriving (l : Line) (q : Request) (hl : v.line = some l) (hs : ReadLine l) (hptr : l.ptr = p)
      (hp : v.pending = some (.fetch .read 0 none q)) (ho : v.out = [])
      (hrf : (v.rep = [.imm (some cur)] ∧ v.fwd = []) ∨ (v.rep = [] ∧ ∃ o, v.fwd = [(o, .imm cur)]))
  | reread (l : Line) (q : Request) (hl : v.line = some l) (hs : ReadLine l)
      (hp : v.pending = some (.fetch .read 0 none q))
      (ho : v.out = [.activeInvalidate p, .read l.ptr q.op.isTry]) (hr : v.rep = [])
      (hf : v.fwd = [])
  | rewrite (l : Line) (q : Request) (hl : v.line = some l) (hs : WriteLine l .write)
      (hp : v.pending = some (.fetch .write 0 none q))
      (ho : v.out = [.activeInvalidate p, .write l.ptr q.op.isTry]) (hr : v.rep = [])
      (hf : v.fwd = [])
  | upgrade (l : Line) (q : Request) (hl : v.line = some l)
      (hs : WriteLine l .writePermissionOnly) (hptr : l.ptr = p) (hd : l.data = q.early i cur)
      (hp : v.pending = some (.fetch .writePermissionOnly 0 none q))
      (hor : (v.out = [.writePermissionOnly p q.op.isTry] ∧ v.rep = []) ∨
        (v.out = [] ∧ q.op.isTry = true ∧ ∃ st, v.rep = [.writeReply (some st)]))
      (hf : v.fwd = [])
  | writeBack (l : Line) (hl : v.line = some l) (hs : LeavingLine l) (hptr : l.ptr = p)
      (hd : l.data = cur) (hp : v.pending = some .writeBack) (ho : v.out = [.writeBack p])
      (hr : v.rep = []) (hf : v.fwd = [])

/-- The grant on its way to a writer, with its counter; `d` is the data of its line. -/
inductive Granted (q : Request) (d : Data) : List Reply → List (W × PeerMsg) → Int → Prop
  | data : Granted q d [.rdmaWrite cur, .writeReply none] [] 0
  | ready (hd : d = cur ∨ d = q.early i cur) : Granted q d [.writeReply none] [] 0
  | both (o : W) : Granted q d [.imm none] [(o, .imm cur)] 0
  | peer (o : W) : Granted q d [] [(o, .imm cur)] 1
  | last (hd : d = cur) : Granted q d [.imm none] [] (-1)

/-- The home counts the worker's line `p` as the only copy. -/
inductive Owner (p : Ptr) (v : View W) : Prop
  | dirty (l : Line) (hl : v.line = some l) (hs : l.state = .dirty) (hptr : l.ptr = p)
      (hd : l.data = cur) (hw : l.locks.Below (exclusive + 1)) (hp : v.pending = none)
      (ho : v.out = []) (hr : v.rep = []) (hf : v.fwd = [])
  | granted (op : Fetch) (n : Int) (l : Line) (q : Request) (hl : v.line = some l)
      (hs : WriteLine l op) (hptr : l.ptr = p) (hp : v.pending = some (.fetch op n none q))
      (ho : v.out = []) (hrf : Granted i cur q l.data v.rep v.fwd n)
  | writeBack (l : Line) (hl : v.line = some l) (hs : LeavingLine l) (hptr : l.ptr = p)
      (hd : l.data = cur) (hp : v.pending = some .writeBack) (ho : v.out = [.writeBack p])
      (hr : v.rep = []) (hf : v.fwd = [])

/-- A forwarded READ before the owner's answer. -/
inductive ReadWait (p : Ptr) (t : Bool) (v : View W) : Prop
  | mk (l : Line) (q : Request) (hl : v.line = some l) (hs : ReadLine l) (hptr : l.ptr = p)
      (ht : q.op.isTry = t) (hp : v.pending = some (.fetch .read 0 none q)) (ho : v.out = []) (hr : v.rep = [])
      (hf : v.fwd = [])

/-- A forwarded WRITE before the owner's answer. -/
inductive WriteWait (p : Ptr) (t : Bool) (v : View W) : Prop
  | mk (op : Fetch) (l : Line) (q : Request) (hl : v.line = some l) (hs : WriteLine l op)
      (hptr : l.ptr = p) (hq : Lapsed f op l q) (ht : q.op.isTry = t)
      (hp : v.pending = some (.fetch op 0 none q)) (ho : v.out = []) (hr : v.rep = [])
      (hf : v.fwd = [])

/-- A forwarded WRITE the owner has granted. -/
inductive GrantWait (p : Ptr) (v : View W) : Prop
  | mk (op : Fetch) (n : Int) (l : Line) (q : Request) (hl : v.line = some l)
      (hs : WriteLine l op) (hptr : l.ptr = p) (hp : v.pending = some (.fetch op n none q))
      (ho : v.out = []) (hr : v.rep = [])
      (hf : (n = 0 ∧ ∃ o, v.fwd = [(o, .imm cur)]) ∨ (n = -1 ∧ v.fwd = [] ∧ l.data = cur))

/-- A forwarded WRITE the owner has refused. -/
inductive FailWait (p : Ptr) (v : View W) : Prop
  | mk (op : Fetch) (n : Int) (s : Option Status) (l : Line) (q : Request) (hl : v.line = some l)
      (hs : WriteLine l op) (hptr : l.ptr = p) (ht : q.op.isTry = true)
      (hq : op = .writePermissionOnly → f.stale = true) (hp : v.pending = some (.fetch op n s q)) (ho : v.out = []) (hr : v.rep = [])
      (hf : (n = 0 ∧ s = none ∧ ∃ o st, v.fwd = [(o, .writeReply st)]) ∨
        (n = -1 ∧ s.isSome = true ∧ v.fwd = []))

/-- A WRITE or an upgrade that waits for the home to invalidate the other copies. -/
inductive InvWait (p : Ptr) (listed t : Bool) (v : View W) : Prop
  | mk (op : Fetch) (l : Line) (q : Request) (hl : v.line = some l) (hs : WriteLine l op)
      (hptr : l.ptr = p) (ht : q.op.isTry = t)
      (hin : listed = true → op = .writePermissionOnly ∧ l.data = q.early i cur)
      (hq : listed = false → Lapsed f op l q)
      (hp : v.pending = some (.fetch op 0 none q)) (ho : v.out = []) (hr : v.rep = [])
      (hf : v.fwd = [])

/-- The configurations that fit a role. -/
def Cfg (role : Role) (v : View W) : Prop :=
  match role with
  | .idle => Idle f v
  | .sharer p => Sharer i cur p v
  | .owner p => Owner i cur p v
  | .readWait p t => ReadWait p t v
  | .writeWait p t => WriteWait f p t v
  | .grantWait p => GrantWait cur p v
  | .failWait p => FailWait f p v
  | .invWait p listed t => InvWait f i cur p listed t v

end

/-- Roles whose configurations do not mention the block's value. -/
def Role.blind : Role → Bool
  | .idle | .readWait _ _ | .writeWait _ _ | .failWait _ => true
  | _ => false

theorem Cfg.blind {f : Slack} {i : Nat} {cur cur' : Data} {role : Role} {v : View W}
    (hr : role.blind = true) (h : Cfg f i cur role v) : Cfg f i cur' role v := by
  cases role <;> first | exact h | cases hr

/-! ## Tokens and queues -/

/-- The token is where the queues say. -/
def TokOk (t : Tok W) (c : Cacher W) : Prop :=
  match t with
  | .none => c.asks = [] ∧ c.acks = []
  | .ask a => c.asks = [a] ∧ c.acks = []
  | .ack a => c.asks = [] ∧ c.acks = [a]

@[simp] def FromHome.isAsk : FromHome W → Bool
  | .ask _ => true
  | .reply _ => false

/-- The home sends no answer behind a question. -/
def Ordered (c : Cacher W) : Prop :=
  c.fromHome.Pairwise fun x y => x.isAsk = true → y.isAsk = true

def Role.isOwner : Role → Bool
  | .owner _ => true
  | _ => false

def Tok.isAck : Tok W → Bool
  | .ack _ => true
  | _ => false

/-- A one-sided write of an eviction is on its way with the current value, in front of its
WRITE_BACK, as long as the worker owns the block or has not been heard of since. -/
inductive Landing (cur mem : Data) (role : Role) (t : Tok W) (c : Cacher W) : Prop
  | none (hn : ∀ m ∈ c.toHome, m.isRdma = false)
      (hm : role.isOwner = true → c.pending = some .writeBack → mem = cur)
  | before (p : Ptr) (post : List Ack)
      (hq : c.toHome = .rdmaWrite cur :: .own (.writeBack p) :: post.map .ack)
      (hp : c.pending = some .writeBack) (hr : role.isOwner = true ∨ t.isAck = true)
  | after (p : Ptr) (a : Ack) (hq : c.toHome = [.ack a, .rdmaWrite cur, .own (.writeBack p)])
      (hp : c.pending = some .writeBack) (hr : role.isOwner = true)

/-- A worker fits its role and its token. -/
structure At (f : Slack) (i : Nat) (cur mem : Data) (parked : List Own) (role : Role) (t : Tok W)
    (c : Cacher W) : Prop where
  cfg : Cfg f i cur role (c.view parked)
  tok : TokOk t c
  ord : Ordered c
  landing : Landing cur mem role t c

end HwGam.Coherence
