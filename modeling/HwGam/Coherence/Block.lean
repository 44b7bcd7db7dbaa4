import HwGam.Coherence.Directory

/-!
# One block: its home, its caching workers and the messages between them

`W` is the type of the workers. The home of the block keeps a `Home`; every other worker keeps a
`Cacher`, which bundles the line of its cache, its pending request for the block, the requests it
has parked, and the queues of messages to and from the home and from other workers. All the queues
are FIFO, and a one-sided RDMA write travels in the queue of its connection.

`pending_works` is keyed by a request id that comes back with the answer. A worker never has two
pending requests for one block, so the model keeps an `Option`; that no entry is overwritten or
missed is part of the invariant.
-/

namespace HwGam.Coherence

/-! ## Messages -/

/-- The status of a failed reply. -/
inductive Status
  | lockFailed | readError | writeError
  deriving DecidableEq, Repr

/-- A request a caching worker sends to the home of the block. `ptr` is its line. -/
inductive Own
  | read (ptr : Ptr) (tryLock : Bool)
  | write (ptr : Ptr) (tryLock : Bool)
  | writePermissionOnly (ptr : Ptr) (tryLock : Bool)
  | activeInvalidate (ptr : Ptr)
  | writeBack (ptr : Ptr)
  deriving DecidableEq, Repr

/-- A request the home sends to a worker that holds a copy; `r` is the worker it forwards for. -/
inductive Ask (W : Type*)
  | fetchAndShared (tryLock : Bool)
  | readForward (r : W) (tryLock : Bool)
  | fetchAndInvalidate (tryLock : Bool)
  | invalidate (tryLock : Bool)
  | invalidateForward (tryLock : Bool)
  | writeForward (r : W) (tryLock : Bool)
  deriving DecidableEq, Repr

def Ask.tryLock {W : Type*} : Ask W → Bool
  | .fetchAndShared t | .readForward _ t | .fetchAndInvalidate t | .invalidate t
  | .invalidateForward t | .writeForward _ t => t

/-- An answer to an `Ask`. `imm` is `WriteWithImm`, with or without the block. -/
inductive Ack
  | imm (d : Option Data)
  | readReply (st : Status)
  | writeReply (st : Status)

/-- What a caching worker sends to the home; `rdmaWrite` is the one-sided `Client::Write`. -/
inductive ToHome
  | own (o : Own)
  | ack (a : Ack)
  | rdmaWrite (d : Data)

/-- An answer of the home to an `Own` request. -/
inductive Reply
  | rdmaWrite (d : Data)
  | imm (d : Option Data)
  | readReply (st : Status)
  -- WRITE_REPLY, with the status SUCCESS or a failure
  | writeReply (st : Option Status)

/-- What the home sends to a caching worker. -/
inductive FromHome (W : Type*)
  | ask (a : Ask W)
  | reply (r : Reply)

/-- What the owner sends to the worker the home forwarded for. -/
inductive PeerMsg
  | imm (d : Data)
  | readReply (st : Status)
  | writeReply (st : Status)

/-! ## State -/

inductive CacheState
  | shared | dirty | toInvalid | toShared | toDirty
  deriving DecidableEq, Repr

/-- `Cache::InTransitionState` -/
def CacheState.inTransition : CacheState → Bool
  | .toInvalid | .toShared | .toDirty => true
  | _ => false

structure Line where
  state : CacheState
  data : Data
  ptr : Ptr
  locks : Locks := ∅

/-- `Cache::UnLock` -/
def Line.unLock (l : Line) (addr : Nat) : Line := { l with locks := l.locks.unLock addr }

/-- The request a caching worker has sent for an access that missed. -/
inductive Fetch
  | read | write | writePermissionOnly
  deriving DecidableEq, Repr

/-- The pending request of a caching worker for the block. -/
inductive Pending
  | fetch (op : Fetch) (counter : Int) (status : Option Status) (parent : Request)
  | writeBack
  | pendingInvalidate

/-- The pending request of the home for the block. The last three carry the worker and the line
they forward for. -/
inductive HomePending (W : Type*)
  | fetchAndShared (parent : Request)
  | fetchAndInvalidate (counter : Int) (status : Option Status) (parent : Request)
  | invalidate (counter : Int) (status : Option Status) (parent : Request)
  | readForward (r : W) (ptr : Ptr)
  | writeForward (r : W) (ptr : Ptr)
  | invalidateForward (r : W) (ptr : Ptr) (op : Fetch) (counter : Int) (status : Option Status)

/-- What is left to do of `ProcessToServeRequest`: local requests to replay, then `load`, which
takes the remote requests parked by then, then those. Nested calls come in front. -/
inductive Item (R : Type*)
  | local (q : Request)
  | remote (x : R)
  | load

structure Cacher (W : Type*) where
  line : Option Line := none
  pending : Option Pending := none
  serve : List (Ask W) := []
  locals : List Request := []
  agenda : List (Item (Ask W)) := []
  toHome : List ToHome := []
  fromHome : List (FromHome W) := []
  fromPeers : List (W × PeerMsg) := []

structure Home (W : Type*) where
  entry : Dir W := none
  mem : Data
  pending : Option (HomePending W) := none
  serve : List (W × Own) := []
  locals : List Request := []
  agenda : List (Item (W × Own)) := []

/-- Where a request runs: at the home (`none`) or at a caching worker. -/
abbrev Place (W : Type*) := Option W

/-- What happens to the requests of the application threads. -/
inductive Ev (W : Type*)
  /-- the read gets the bytes `d` of the block -/
  | copyOut (q : Request) (d : Data)
  /-- the write is applied to the copy it has write access to -/
  | effect (q : Request)
  /-- a request is sent on behalf of `q`, which waits for its answer -/
  | pend (q : Request)
  /-- `q` goes to `to_serve_local_requests` -/
  | park (q : Request)
  /-- the answer to a `pend` of a read or a write has been processed -/
  | reply (q : Request)
  | lock (n : Place W) (q : Request)
  /-- a try-lock ends with LOCK_FAILED -/
  | fail (q : Request)
  | unlock (n : Place W) (thread addr : Nat)

structure Block (W : Type*) where
  home : Home W
  cacher : W → Cacher W
  log : List (Ev W) := []

/-- The result of a handler: its own state, what it sends, and the events. -/
structure Out (σ M W : Type*) where
  st : σ
  sent : List (W × M) := []
  evs : List (Ev W) := []

/-! ## `ProcessToServeRequest` -/

variable {W : Type*}

/-- `AddToServeLocalRequest` -/
def Cacher.park (c : Cacher W) (q : Request) : Cacher W := { c with locals := c.locals ++ [q] }

/-- `AddToServeRemoteRequest` -/
def Cacher.parkRemote (c : Cacher W) (a : Ask W) : Cacher W := { c with serve := c.serve ++ [a] }

def Cacher.processToServe (c : Cacher W) : Cacher W :=
  { c with locals := [], agenda := c.locals.map .local ++ .load :: c.agenda }

def Home.park (h : Home W) (q : Request) : Home W := { h with locals := h.locals ++ [q] }

def Home.parkRemote (h : Home W) (x : W × Own) : Home W := { h with serve := h.serve ++ [x] }

def Home.processToServe (h : Home W) : Home W :=
  { h with locals := [], agenda := h.locals.map .local ++ .load :: h.agenda }

end HwGam.Coherence
