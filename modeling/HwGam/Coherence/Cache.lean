import HwGam.Coherence.Block

/-!
# A worker that caches the block

The handlers of a worker for a block whose home is elsewhere: `Cache::ReadWrite`, `Cache::Lock`,
`Cache::Evict` and `Cache::UnLock` (`cache.cc`), `ProcessRemoteReadCache` and
`ProcessRemoteWriteCache` for what the home asks, and the pending and reply handlers for the
answers to its own requests (`remote_request_cache.cc`, `pending_request.cc`). `i` is the number
of the block. Assertions are compiled out (`-DNDEBUG`) and have no counterpart.
-/

namespace HwGam.Coherence.Cacher

variable {W : Type*}

abbrev Result (W : Type*) := Out (Cacher W) PeerMsg W

section
variable (i : Nat) (c : Cacher W)

def send (m : ToHome) : Cacher W := { c with toHome := c.toHome ++ [m] }

def mapLine (f : Line → Line) : Cacher W := { c with line := c.line.map f }

/-! ## Local requests -/

/-- A shared line is upgraded with WRITE_PERMISSION_ONLY; a plain write copies in advance. -/
def upgrade (l : Line) (q : Request) : Result W where
  st := { c with
    line := some { l with state := .toDirty, data := q.early i l.data }
    pending := some (.fetch .writePermissionOnly 0 none q) }.send
      (.own (.writePermissionOnly l.ptr q.op.isTry))
  evs := [.pend q]

/-- There is no line: a new one (`SetCLine`, at `ptr`, zeroed) waits for the block. -/
def miss (q : Request) (ptr : Ptr) : Result W :=
  match q.op with
  | .read | .rlock _ =>
    { st := { c with
        line := some { state := .toShared, data := fun _ => 0, ptr := ptr }
        pending := some (.fetch .read 0 none q) }.send (.own (.read ptr q.op.isTry))
      evs := [.pend q] }
  | .write | .wlock _ =>
    { st := { c with
        line := some { state := .toDirty, data := fun _ => 0, ptr := ptr }
        pending := some (.fetch .write 0 none q) }.send (.own (.write ptr q.op.isTry))
      evs := [.pend q] }

/-- `Cache::ReadWrite` at one block of a READ or WRITE. -/
def readWrite (q : Request) (ptr : Ptr) : Result W :=
  match c.line with
  | none => c.miss q ptr
  | some l =>
    -- "cache is going to be invalid, but still usable for read"
    if l.state = .toInvalid ∧ q.op = .read then { st := c, evs := [.copyOut q l.data] }
    -- "cache is going from shared to dirty, but still usable for read"
    else if l.state = .toDirty ∧ q.op = .read ∧ l.locks.isBlockLocked = true then
      { st := c, evs := [.copyOut q l.data] }
    else if l.state.inTransition then { st := c.park q, evs := [.park q] }
    else if q.op = .read then { st := c, evs := [.copyOut q l.data] }
    else if l.state ≠ .dirty then c.upgrade i l q
    else { st := { c with line := some { l with data := q.apply i l.data } }, evs := [.effect q] }

/-- A lock that cannot be had: a try-lock fails, the others are parked. -/
def lockLater (q : Request) : Result W :=
  if q.op.isTry then { st := c, evs := [.fail q] } else { st := c.park q, evs := [.park q] }

/-- `Cache::Lock`; `shared` tells RLOCK from WLOCK. -/
def lock (shared : Bool) (w : W) (q : Request) (ptr : Ptr) : Result W :=
  match c.line with
  | none => c.miss q ptr
  | some l =>
    if l.state.inTransition then { st := c.park q, evs := [.park q] }
    else if shared then
      if l.locks.lookup q.addr = some exclusive then c.lockLater q
      else { st := { c with line := some { l with locks := l.locks.share q.addr } }
             evs := [.lock (some w) q] }
    else if l.state ≠ .dirty then c.upgrade i l q
    else if (l.locks.lookup q.addr).isSome then c.lockLater q
    else { st := { c with line := some { l with locks := l.locks.insert q.addr exclusive } }
           evs := [.lock (some w) q] }

/-- A request of an application thread on worker `w`, or its replay. -/
def access (w : W) (q : Request) (ptr : Ptr) : Result W :=
  match q.op with
  | .read | .write => c.readWrite i q ptr
  | .rlock _ => c.lock i true w q ptr
  | .wlock _ => c.lock i false w q ptr

/-- `Cache::UnLock` and the `ProcessToServeRequest` of `ProcessLocalUnLock`. -/
def unLock (w : W) (thread addr : Nat) : Result W where
  st := (c.mapLine fun l => { l with locks := l.locks.unLock addr }).processToServe
  evs := [.unlock (some w) thread addr]

/-- `Cache::Evict`, on a line that is neither locked nor in transition. -/
def evict : Option (Cacher W) :=
  match c.line with
  | none => none
  | some l =>
    if l.locks.isBlockLocked then none
    else match l.state with
      | .shared => some ({ c with line := none }.send (.own (.activeInvalidate l.ptr)))
      | .dirty =>
        some ((({ c with
          line := some { l with state := .toInvalid }
          pending := some .writeBack }.send (.rdmaWrite l.data)).send (.own (.writeBack l.ptr))))
      | _ => none

/-! ## What the home asks -/

/-- A failed reply goes to the home, and to the worker a forward is for. -/
def refuse (a : Ack) (peer : List (W × PeerMsg)) : Result W := { st := c.send (.ack a), sent := peer }

/-- `ProcessRemoteReadCache`; `r` is the worker of a READ_FORWARD. -/
def processRemoteReadCache (a : Ask W) (r : Option W) : Result W :=
  let peer (m : PeerMsg) : List (W × PeerMsg) := r.toList.map (·, m)
  match c.line with
  | none => c.refuse (.readReply .readError) (peer (.readReply .readError))
  | some l =>
    if l.state = .toDirty then { st := c.parkRemote a }
    else if l.locks.isBlockWLocked then
      if a.tryLock then c.refuse (.readReply .lockFailed) (peer (.readReply .lockFailed))
      else { st := c.parkRemote a }
    else
      -- a line on its way out keeps its state: "deadlock detected"
      { st := { c with line := some (if l.state.inTransition then l else { l with state := .shared })
          }.send (.ack (.imm (some l.data)))
        sent := peer (.imm l.data) }

/-- The answer of `ProcessRemoteWriteCache` once neither transition nor locks hold it back. -/
def surrender (a : Ask W) (l : Line) (deadlock : Bool) : Result W :=
  let out := { c with
    line := some { l with state := .toInvalid }
    pending := some .pendingInvalidate }
  match a with
  | .fetchAndInvalidate _ => { st := (if deadlock then c else out).send (.ack (.imm (some l.data))) }
  | .writeForward r _ =>
    { st := (if deadlock then c else out).send (.ack (.imm none)), sent := [(r, .imm l.data)] }
  -- INVALIDATE and INVALIDATE_FORWARD
  | _ => { st := (if deadlock then c else { c with line := none }).send (.ack (.imm none)) }

def Ask.isInvalidate : Ask W → Bool
  | .invalidate _ | .invalidateForward _ => true
  | _ => false

/-- `ProcessRemoteWriteCache` -/
def processRemoteWriteCache (a : Ask W) : Result W :=
  let peer (m : PeerMsg) : List (W × PeerMsg) :=
    match a with
    | .writeForward r _ => [(r, m)]
    | _ => []
  match c.line with
  | none =>
    -- evicted from shared to invalid: "we reply as if it is shared"
    if Ask.isInvalidate a then { st := c.send (.ack (.imm none)) }
    else c.refuse (.writeReply .writeError) (peer (.writeReply .writeError))
  | some l =>
    -- deadlock cases 1 and 2
    let deadlock := (Ask.isInvalidate a && l.state = .toDirty) || l.state = .toInvalid
    if l.state.inTransition && !deadlock then { st := c.parkRemote a }
    else if l.locks.isBlockLocked then
      if a.tryLock then c.refuse (.writeReply .lockFailed) (peer (.writeReply .lockFailed))
      -- deadlock case 3 lets a locked line answer
      else if deadlock then c.surrender a l deadlock
      else { st := c.parkRemote a }
    else c.surrender a l deadlock

/-- `ProcessRequest` of what the home sends to a copy. -/
def processAsk (a : Ask W) : Result W :=
  match a with
  | .fetchAndShared _ => c.processRemoteReadCache a none
  | .readForward r _ => c.processRemoteReadCache a (some r)
  | _ => c.processRemoteWriteCache a

/-! ## Answers to its own requests -/

/-- The RDMA payload lands in the line. -/
def land (d : Option Data) : Cacher W :=
  match d with
  | some d => c.mapLine fun l => { l with data := d }
  | none => c

def setState (s : CacheState) : Cacher W := c.mapLine fun l => { l with state := s }

/-- The pending request is over; what was parked is served. -/
def done : Cacher W := { c with pending := none }.processToServe

/-- `ProcessPendingRead` -/
def processPendingRead (w : W) (q : Request) : Result W :=
  let c := c.setState .shared
  if q.op.isLock then
    { st := (c.mapLine fun l =>
        if l.locks.lookup q.addr = some exclusive then l
        else { l with locks := l.locks.share q.addr }).done
      evs := [.lock (some w) q] }
  else { st := c.done, evs := (c.line.map fun l => Ev.copyOut q l.data).toList ++ [.reply q] }

/-- The failed branches: WRITE drops the line, WRITE_PERMISSION_ONLY goes back to shared. -/
def processFailed (op : Fetch) (q : Request) : Result W where
  st := (if op = .writePermissionOnly then c.setState .shared else { c with line := none }).done
  evs := [.fail q]

/-- The end of `ProcessPendingWrite`: the write (again) and the state, or the lock. -/
def finishWrite (w : W) (q : Request) : Result W :=
  let c := c.mapLine fun l => { l with state := .dirty, data := q.apply i l.data }
  if q.op.isLock then
    if (c.line.bind fun l => l.locks.lookup q.addr).isSome then
      { st := (c.park q).done, evs := [.park q] }
    else
      { st := (c.mapLine fun l => { l with locks := l.locks.insert q.addr exclusive }).done
        evs := [.lock (some w) q] }
  else { st := c.done, evs := [.effect q, .reply q] }

/-- `ProcessPendingWrite` after a `WriteWithImm`: the home's counts up, the owner's down. -/
def processPendingWrite (w : W) (op : Fetch) (counter : Int) (status : Option Status)
    (q : Request) (fromHome : Bool) : Result W :=
  let counter := if fromHome then counter + 1 else counter - 1
  if counter = 0 then
    if status.isSome then c.processFailed op q else c.finishWrite i w q
  else { st := { c with pending := some (.fetch op counter status q) } }

/-- `ProcessRemoteWriteReply` at the worker that wants to write. -/
def processRemoteWriteReply (w : W) (op : Fetch) (counter : Int) (status : Option Status)
    (q : Request) (fromHome : Bool) (st : Option Status) : Result W :=
  match st with
  | none =>
    if counter = 0 then if status.isSome then c.processFailed op q else c.finishWrite i w q
    else { st := c }
  | some st =>
    let counter := if fromHome then 0 else counter - 1
    if counter = 0 then c.processFailed op q
    else { st := { c with pending := some (.fetch op counter (some st) q) } }

/-- `ProcessPendingEvictDirty`, and the completion of a PENDING_INVALIDATE. -/
def processPendingEvictDirty : Result W where
  st := { c with line := none }.done

/-- `ProcessRequest(cli, id)`: a `WriteWithImm` has arrived for the pending request. -/
def processImm (w : W) (fromHome : Bool) (d : Option Data) : Result W :=
  let c := c.land d
  match c.pending with
  | some (.fetch .read _ _ q) => c.processPendingRead w q
  | some (.fetch op counter status q) => c.processPendingWrite i w op counter status q fromHome
  | some .writeBack => c.processPendingEvictDirty
  | _ => { st := c }

/-- READ_REPLY: READ failed. -/
def processReadReply : Result W :=
  match c.pending with
  | some (.fetch .read _ _ q) => c.processFailed .read q
  | _ => { st := c }

/-- WRITE_REPLY -/
def processWriteReply (w : W) (fromHome : Bool) (st : Option Status) : Result W :=
  match c.pending with
  | some (.fetch .read _ _ _) => { st := c }
  | some (.fetch op counter status q) =>
    c.processRemoteWriteReply i w op counter status q fromHome st
  | _ => { st := c }

/-- A message of the home. -/
def recvHome (w : W) (m : FromHome W) : Result W :=
  match m with
  | .ask a => c.processAsk a
  | .reply (.rdmaWrite d) => { st := c.land (some d) }
  | .reply (.imm d) => c.processImm i w true d
  | .reply (.readReply _) => c.processReadReply
  | .reply (.writeReply st) => c.processWriteReply i w true st

/-- A message of the owner the home has forwarded to. -/
def recvPeer (w : W) (m : PeerMsg) : Result W :=
  match m with
  | .imm d => c.processImm i w false (some d)
  | .readReply _ => c.processReadReply
  | .writeReply st => c.processWriteReply i w false (some st)

/-- The RDMA completion of the answer to a FETCH_AND_INVALIDATE or WRITE_FORWARD. -/
def complete : Option (Result W) :=
  match c.pending with
  | some .pendingInvalidate => some c.processPendingEvictDirty
  | _ => none

end

end HwGam.Coherence.Cacher
