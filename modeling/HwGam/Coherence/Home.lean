import HwGam.Coherence.Block

/-!
# The home of the block

The handlers of the worker that owns the memory of the block: `ProcessLocalRead`,
`ProcessLocalWrite`, `ProcessLocalRLock`, `ProcessLocalWLock` and `ProcessLocalUnLock`
(`local_request_cache.cc`) past their fence prologues, `ProcessRemoteRead`, `ProcessRemoteWrite`
and the two evict handlers for the requests of caching workers, and the pending and reply handlers
for the answers to what it asked (`remote_request_cache.cc`, `remote_request.cc`,
`pending_request.cc`).
-/

namespace HwGam.Coherence.Home

variable {W : Type*}

abbrev Result (W : Type*) := Out (Home W) (FromHome W) W

section
variable (i : Nat) (h : Home W)

/-- The pending request is over; what was parked is served. -/
def done : Home W := { h with pending := none }.processToServe

/-- The owner of a dirty block: `directory.GetSList(entry).front()`. -/
def askOwner (a : Ask W) : List (W × FromHome W) :=
  (h.entry.getSList.take 1).map fun o => (o.1, .ask a)

def askAll (a : Ask W) : List (W × FromHome W) := h.entry.getSList.map fun o => (o.1, .ask a)

/-! ## Local requests -/

/-- FETCH_AND_SHARED for a local READ or RLOCK. -/
def fetchAndShared (q : Request) : Result W where
  st := { h with entry := h.entry.setState .toShared, pending := some (.fetchAndShared q) }
  sent := h.askOwner (.fetchAndShared q.op.isTry)
  evs := [.pend q]

/-- FETCH_AND_INVALIDATE or INVALIDATE for a local WRITE or WLOCK. -/
def invalidateAll (q : Request) : Result W :=
  let counter : Int := h.entry.getSList.length
  if h.entry.getState = .dirty then
    { st := { h with
        entry := h.entry.setState .toUnShared
        pending := some (.fetchAndInvalidate counter none q) }
      sent := h.askAll (.fetchAndInvalidate q.op.isTry)
      evs := [.pend q] }
  else
    { st := { h with
        entry := h.entry.setState .toUnShared
        pending := some (.invalidate counter none q) }
      sent := h.askAll (.invalidate q.op.isTry)
      evs := [.pend q] }

/-- A lock that was had, or else fails or is parked. -/
def lockOrLater (q : Request) (e : Option (Dir W)) : Result W :=
  match e with
  | some e => { st := { h with entry := e }, evs := [.lock none q] }
  | none => if q.op.isTry then { st := h, evs := [.fail q] } else { st := h.park q, evs := [.park q] }

/-- A request of an application thread at the home, or its replay. -/
def access (q : Request) : Result W :=
  if h.entry.inTransition then { st := h.park q, evs := [.park q] }
  else match q.op with
    | .read =>
      if h.entry.getState = .dirty then h.fetchAndShared q
      else { st := h, evs := [.copyOut q h.mem] }
    | .write =>
      if h.entry.getState = .unshared then
        { st := { h with mem := q.apply i h.mem }, evs := [.effect q] }
      else h.invalidateAll q
    | .rlock _ =>
      if h.entry.getState = .dirty then h.fetchAndShared q
      else h.lockOrLater q (h.entry.rLock q.addr)
    | .wlock _ =>
      if h.entry.getState = .unshared then h.lockOrLater q (h.entry.wLock q.addr)
      else h.invalidateAll q

/-- `ProcessLocalUnLock` -/
def unLock (thread addr : Nat) : Result W where
  st := { h with entry := h.entry.unLock addr }.processToServe
  evs := [.unlock none thread addr]

/-! ## Requests of caching workers -/

/-- `ProcessRemoteRead` -/
def processRemoteRead (w : W) (ptr : Ptr) (tryLock : Bool) : Result W :=
  if h.entry.inTransition then { st := h.parkRemote (w, .read ptr tryLock) }
  else if h.entry.getState = .dirty then
    { st := { h with entry := h.entry.setState .toShared, pending := some (.readForward w ptr) }
      sent := h.askOwner (.readForward w tryLock) }
  else if h.entry.isBlockWLocked then
    if tryLock then { st := h, sent := [(w, .reply (.readReply .lockFailed))] }
    else { st := h.parkRemote (w, .read ptr tryLock) }
  else
    { st := { h with entry := h.entry.toShared (w, ptr) }
      sent := [(w, .reply (.imm (some h.mem)))] }

/-- The block is unshared, or shared by the writer alone: WRITE_REPLY, after the data where the
writer may not have it. -/
def grant (w : W) (ptr : Ptr) (withData : Bool) : Result W where
  st := { h with entry := h.entry.toDirty (w, ptr) }
  sent := (if withData then [(w, .reply (.rdmaWrite h.mem))] else []) ++
    [(w, .reply (.writeReply none))]

/-- The request of an own WRITE or WRITE_PERMISSION_ONLY. -/
def ownWrite (op : Fetch) (ptr : Ptr) (tryLock : Bool) : Own :=
  if op = .writePermissionOnly then .writePermissionOnly ptr tryLock else .write ptr tryLock

/-- `ProcessRemoteWrite`; WRITE_PERMISSION_ONLY on an unshared or dirty block counts as WRITE. -/
def processRemoteWrite [DecidableEq W] (w : W) (op : Fetch) (ptr : Ptr) (tryLock : Bool) :
    Result W :=
  if h.entry.inTransition then { st := h.parkRemote (w, ownWrite op ptr tryLock) }
  else if h.entry.getState = .dirty then
    { st := { h with entry := h.entry.setState .toDirty, pending := some (.writeForward w ptr) }
      sent := h.askOwner (.writeForward w tryLock) }
  else if h.entry.isBlockLocked then
    if tryLock then { st := h, sent := [(w, .reply (.writeReply (some .lockFailed)))] }
    else { st := h.parkRemote (w, ownWrite op ptr tryLock) }
  else if h.entry.getState = .shared then
    let others := h.entry.getSList.filter fun a => a.1 ≠ w
    if others = [] then h.grant w ptr false
    else
      { st := { h with
          entry := h.entry.setState .toDirty
          pending := some (.invalidateForward w ptr op others.length none) }
        sent := others.map fun a => (a.1, .ask (.invalidateForward tryLock)) }
  else h.grant w ptr true

/-- `ProcessRemoteEvictShared` -/
def processRemoteEvictShared [DecidableEq W] (w : W) (ptr : Ptr) : Result W :=
  if h.entry.inTransition then { st := h.parkRemote (w, .activeInvalidate ptr) }
  else { st := { h with entry := h.entry.clear (w, ptr) } }

/-- `ProcessRemoteEvictDirty` -/
def processRemoteEvictDirty [DecidableEq W] (w : W) (ptr : Ptr) : Result W :=
  if h.entry.inTransition then { st := h.parkRemote (w, .writeBack ptr) }
  else
    { st := { h with entry := h.entry.clear (w, ptr) }
      sent := [(w, .reply (.imm none))] }

/-- `ProcessRequest` of an own request of `w`, or its replay. -/
def processOwn [DecidableEq W] (w : W) (o : Own) : Result W :=
  match o with
  | .read ptr t => h.processRemoteRead w ptr t
  | .write ptr t => h.processRemoteWrite w .write ptr t
  | .writePermissionOnly ptr t => h.processRemoteWrite w .writePermissionOnly ptr t
  | .activeInvalidate ptr => h.processRemoteEvictShared w ptr
  | .writeBack ptr => h.processRemoteEvictDirty w ptr

/-! ## Answers to what the home asked -/

def land (d : Option Data) : Home W :=
  match d with
  | some d => { h with mem := d }
  | none => h

/-- `ProcessPendingRead` -/
def processPendingRead (q : Request) : Result W :=
  let e := h.entry.toSharedNull
  if q.op.isLock then
    { st := { h with entry := (e.rLock q.addr).getD e }.done, evs := [.lock none q] }
  else { st := { h with entry := e }.done, evs := [.copyOut q h.mem, .reply q] }

/-- `ProcessPendingReadForward` -/
def processPendingReadForward (r : W) (ptr : Ptr) : Result W where
  st := { h with entry := h.entry.toSharedNull.toShared (r, ptr) }.done

/-- The end of `ProcessPendingWrite` at the home: nobody holds a copy any more. -/
def finishWrite (q : Request) : Result W :=
  let e := h.entry.toUnShared
  if q.op.isLock then
    match e.wLock q.addr with
    | some e => { st := { h with entry := e }.done, evs := [.lock none q] }
    | none => { st := ({ h with entry := e }.park q).done, evs := [.park q] }
  else
    { st := { h with entry := e, mem := q.apply i h.mem }.done, evs := [.effect q, .reply q] }

/-- The last answer to a try-lock that failed somewhere: `UndoDirty` or `UndoShared`. -/
def undo (s : DirState) (q : Request) : Result W where
  st := { h with entry := h.entry.setState s }.done
  evs := [.fail q]

/-- `ProcessPendingWrite` for FETCH_AND_INVALIDATE (`dirty`) and INVALIDATE. -/
def processPendingWrite [DecidableEq W] (w : W) (dirty : Bool) (counter : Int)
    (status : Option Status) (q : Request) : Result W :=
  let counter := counter - 1
  let h := { h with entry := h.entry.remove w }
  if counter = 0 then
    if status.isSome then h.undo (if dirty then .dirty else .shared) q else h.finishWrite i q
  else
    { st := { h with
        pending := some (if dirty then .fetchAndInvalidate counter status q
          else .invalidate counter status q) } }

/-- `ProcessPendingWriteForward` -/
def processPendingWriteForward (r : W) (ptr : Ptr) : Result W where
  st := { h with entry := h.entry.toDirty (r, ptr) }.done
  sent := [(r, .reply (.imm none))]

/-- The last answer to an INVALIDATE_FORWARD that failed somewhere. -/
def undoForward (r : W) (st : Status) : Result W where
  st := { h with entry := h.entry.setState .shared }.done
  sent := [(r, .reply (.writeReply (some st)))]

/-- `ProcessPendingInvalidateForward` -/
def processPendingInvalidateForward [DecidableEq W] (w r : W) (ptr : Ptr) (op : Fetch)
    (counter : Int) (status : Option Status) : Result W :=
  let counter := counter - 1
  let h := { h with entry := h.entry.remove w }
  if counter = 0 then
    match status with
    | some st => h.undoForward r st
    | none =>
      -- a WRITE_PERMISSION_ONLY whose own copy was invalidated meanwhile gets the data, too
      let out := h.grant r ptr (op != .writePermissionOnly || h.entry.getState = .unshared)
      { out with st := out.st.done }
  else { st := { h with pending := some (.invalidateForward r ptr op counter status) } }

/-- `ProcessRequest(cli, id)` at the home. -/
def processImm [DecidableEq W] (w : W) (d : Option Data) : Result W :=
  let h := h.land d
  match h.pending with
  | some (.fetchAndShared q) => h.processPendingRead q
  | some (.readForward r ptr) => h.processPendingReadForward r ptr
  | some (.fetchAndInvalidate counter status q) => h.processPendingWrite i w true counter status q
  | some (.invalidate counter status q) => h.processPendingWrite i w false counter status q
  | some (.writeForward r ptr) => h.processPendingWriteForward r ptr
  | some (.invalidateForward r ptr op counter status) =>
    h.processPendingInvalidateForward w r ptr op counter status
  | none => { st := h }

/-- `ProcessRemoteReadReply` at the home: the owner refused. -/
def processRemoteReadReply : Result W :=
  match h.pending with
  | some (.fetchAndShared q) => h.undo .dirty q
  | some (.readForward _ _) => { st := { h with entry := h.entry.setState .dirty }.done }
  | _ => { st := h }

/-- `ProcessRemoteWriteReply` at the home: a copy refused to go. -/
def processRemoteWriteReply (st : Status) : Result W :=
  match h.pending with
  | some (.fetchAndInvalidate counter _ q) =>
    if counter - 1 = 0 then h.undo .dirty q
    else { st := { h with pending := some (.fetchAndInvalidate (counter - 1) (some st) q) } }
  | some (.invalidate counter _ q) =>
    if counter - 1 = 0 then h.undo .shared q
    else { st := { h with pending := some (.invalidate (counter - 1) (some st) q) } }
  | some (.writeForward r _) =>
    { st := { h with entry := h.entry.setState .dirty }.done, sent := [(r, .reply (.imm none))] }
  | some (.invalidateForward r ptr op counter _) =>
    if counter - 1 = 0 then h.undoForward r st
    else { st := { h with pending := some (.invalidateForward r ptr op (counter - 1) (some st)) } }
  | _ => { st := h }

/-- A message of `w`. -/
def recv [DecidableEq W] (w : W) (m : ToHome) : Result W :=
  match m with
  | .own o => h.processOwn w o
  | .ack (.imm d) => h.processImm i w d
  | .ack (.readReply _) => h.processRemoteReadReply
  | .ack (.writeReply st) => h.processRemoteWriteReply st
  | .rdmaWrite d => { st := h.land (some d) }

end

end HwGam.Coherence.Home
