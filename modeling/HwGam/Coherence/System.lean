import HwGam.Coherence.Step

/-!
# The whole memory

All blocks together, with the control of the workers. A request of an application thread is taken in
hand by the worker of its thread and served block by block (the loops of `ProcessLocalRead`,
`ProcessLocalWrite` and `Cache::ReadWrite`); where a block is in transition the request is parked on
it, and its replay starts from the first block again. `wr->counter` tells when the application is
notified; a blocking request that is served at once returns to its thread without `Notify`
(`MULTITHREAD`). A request is issued when it is past its fence. A worker runs its handlers one at a
time, with the `ProcessToServeRequest` at their end; only the data of one-sided writes lands at any
time, and evictions happen inside handlers.
-/

namespace HwGam.Coherence

/-- The worker that owns the memory of a block, and the worker a thread runs on. -/
structure Layout (V : Type*) where
  home : Nat → V
  worker : Nat → V

/-- The blocks of a request; a lock is on a single one. -/
def Request.span (q : Request) : List Nat :=
  if q.op.isLock then [toBlock q.addr] else q.blocks

/-- An asynchronous WRITE, which counts in `pending_writes`. -/
def Request.isAsync (q : Request) : Bool := q.async && q.op = .write

inductive Happened (V : Type*)
  | issue (q : Request)
  | on (i : Nat) (e : Ev V)
  /-- `Worker::Notify` -/
  | notify (q : Request)
  /-- the call of the application thread returns SUCCESS -/
  | returned (q : Request)

/-- The workers' control and what they know about the requests of their threads. -/
structure Control (V : Type*) where
  /-- `wr->counter` of the READs and WRITEs, by their id -/
  counter : Nat → Int := fun _ => 0
  /-- the flag TO_SERVE, by the id of the request -/
  toServe : Nat → Bool := fun _ => false
  /-- `fence->pending_writes`, by thread -/
  pendingWrites : Nat → Int := fun _ => 0
  /-- the request a worker has in hand, and the blocks its loop has not reached -/
  hand : V → Option (Request × List Nat) := fun _ => none
  /-- the block whose `ProcessToServeRequest` a worker is in -/
  serving : V → Option Nat := fun _ => none
  /-- the id of the next request -/
  next : Nat := 0
  hist : List (Happened V) := []

structure Sys (V : Type*) extends Control V where
  blk : Nat → Block V

inductive SysAct (V : Type*)
  /-- an application thread hands over a request -/
  | issue (q : Request)
  /-- the loop of the request in hand reaches its next block; `ptr` as for `Act.access` -/
  | serve (v : V) (ptr : Ptr)
  /-- the loop ends -/
  | finish (v : V)
  /-- the next parked local request of a replay is taken in hand -/
  | resume (v : V)
  /-- the next piece of a replay, other than a local request -/
  | replay (v : V)
  | unlock (thread addr : Nat)
  | evict (v : V) (i : Nat)
  | complete (v : V) (i : Nat)
  | recvHome (w : V) (i : Nat)
  | recv (w : V) (i : Nat)
  | recvPeer (o w : V) (i : Nat)

def Act.place {V : Type*} : Act V → Place V
  | .access n _ _ | .unlock n _ _ | .replay n | .drop n => n
  | .evict w | .complete w | .recv w | .recvPeer _ w => some w
  | .recvHome _ => none

def Act.isAccess {V : Type*} : Act V → Bool
  | .access .. => true
  | _ => false

def Ev.isPark {V : Type*} : Ev V → Bool
  | .park _ => true
  | _ => false

namespace Block

variable {V : Type*} (b : Block V)

def replayDone (n : Place V) : Bool :=
  match n with
  | none => b.home.agenda.isEmpty
  | some w => (b.cacher w).agenda.isEmpty

/-- The local request that is next in a replay. -/
def nextLocal (n : Place V) : Option Request :=
  match n with
  | none => match b.home.agenda with
    | .local q :: _ => some q
    | _ => none
  | some w => match (b.cacher w).agenda with
    | .local q :: _ => some q
    | _ => none

end Block

namespace Control

variable {V : Type*} (s : Control V)

/-- The worker is in no handler. -/
def idle (v : V) : Bool := (s.hand v).isNone && (s.serving v).isNone

def take [DecidableEq V] (v : V) (x : Option (Request × List Nat)) : Control V :=
  { s with hand := Function.update s.hand v x }

def happens (e : Happened V) : Control V := { s with hist := s.hist ++ [e] }

/-- `wr->counter` changes; the counter of a lock is back at zero before it is looked at again. -/
def count (q : Request) (n : Int) : Control V :=
  if q.op.isLock then s
  else { s with counter := Function.update s.counter q.id (s.counter q.id + n) }

/-- `fence->pending_writes` changes for an asynchronous WRITE. -/
def countWrite (q : Request) (n : Int) : Control V :=
  if q.isAsync then
    { s with pendingWrites := Function.update s.pendingWrites q.thread (s.pendingWrites q.thread + n) }
  else s

/-- `Worker::Notify` -/
def notify (q : Request) : Control V := (s.countWrite q (-1)).happens (.notify q)

/-- The end of `ProcessLocalRead`, `ProcessLocalWrite` and the lock handlers. -/
def succeed (q : Request) : Control V :=
  if q.isAsync || s.toServe q.id || q.fenced then s.notify q else s.happens (.returned q)

/-- What an event of block `i` means for the request; `hand`: it comes from the request in hand. -/
def record (i : Nat) (hand : Bool) (s : Control V) (e : Ev V) : Control V :=
  let s := s.happens (.on i e)
  match e with
  | .pend q | .park q => s.count q 1
  | .reply q =>
    let s := s.count q (-1)
    if s.counter q.id = 0 then s.notify q else s
  | .lock _ q | .fail q => if hand then s.succeed q else s.notify q
  | _ => s

def records (i : Nat) (hand : Bool) (es : List (Ev V)) : Control V := es.foldl (record i hand) s

/-- A request is past its fence and taken in hand. -/
def issue [DecidableEq V] (v : V) (q : Request) : Control V :=
  (({ s with next := s.next + 1 }.take v (some (q, q.span))).countWrite q 1).happens (.issue q)

/-- The loop over the blocks is at its end. -/
def finish [DecidableEq V] (v : V) (q : Request) : Control V :=
  let s := s.take v none
  if !q.op.isLock && s.counter q.id = 0 then s.succeed q else s

/-- A parked request is taken in hand; the counter went up when it was parked. -/
def resume [DecidableEq V] (v : V) (q : Request) : Control V :=
  ({ s with toServe := Function.update s.toServe q.id true }.take v (some (q, q.span))).count q (-1)

end Control

/-- The events a handler adds to the log of its block. -/
def newEvents {V : Type*} (b b' : Block V) : List (Ev V) := b'.log.drop b.log.length

namespace Layout

variable {V : Type*} [DecidableEq V] (l : Layout V)

/-- Where worker `v` handles its requests for block `i`. -/
def place (v : V) (i : Nat) : Place V := if v = l.home i then none else some v

/-- The worker at a place of block `i`. -/
def workerAt (i : Nat) (n : Place V) : V := n.getD (l.home i)

/-- The worker enters the replay of block `i`, or leaves it. -/
def settle (v : V) (i : Nat) (s : Sys V) : Sys V :=
  if s.serving v = none ∨ s.serving v = some i then
    let next := if (s.blk i).replayDone (l.place v i) then none else some i
    { s with serving := Function.update s.serving v next }
  else s

/-- A handler of block `i` runs. -/
def act (i : Nat) (a : Act V) (s : Sys V) : Option (Sys V) :=
  (Coherence.step i a (s.blk i)).map fun b =>
    l.settle (l.workerAt i a.place) i
      ⟨s.toControl.records i a.isAccess (newEvents (s.blk i) b), Function.update s.blk i b⟩

/-- The handler a step runs, and its block. -/
def target (a : SysAct V) (s : Sys V) : Option (Nat × Act V) :=
  match a with
  | .issue _ | .finish _ => none
  | .serve v ptr => match s.hand v with
    | some (q, i :: _) => some (i, .access (l.place v i) q ptr)
    | _ => none
  | .resume v => match s.hand v, s.serving v with
    | none, some i => some (i, .drop (l.place v i))
    | _, _ => none
  | .replay v => match s.hand v, s.serving v with
    | none, some i => some (i, .replay (l.place v i))
    | _, _ => none
  | .unlock thread addr =>
    let v := l.worker thread
    if s.idle v then some (toBlock addr, .unlock (l.place v (toBlock addr)) thread addr) else none
  | .evict v i => if v ≠ l.home i then some (i, .evict v) else none
  | .complete v i => if v ≠ l.home i ∧ s.idle v then some (i, .complete v) else none
  | .recvHome w i =>
    let rdma := ((s.blk i).cacher w).toHome.head?.any ToHome.isRdma
    if w ≠ l.home i ∧ (rdma || s.idle (l.home i)) then some (i, .recvHome w) else none
  | .recv w i =>
    let rdma := ((s.blk i).cacher w).fromHome.head?.any FromHome.isRdma
    if w ≠ l.home i ∧ (rdma || s.idle w) then some (i, .recv w) else none
  | .recvPeer o w i => if w ≠ l.home i ∧ s.idle w then some (i, .recvPeer o w) else none

/-- The request in hand after a handler. -/
def inHand (a : SysAct V) (s s' : Sys V) : Control V :=
  match a with
  | .serve v _ => match s.hand v with
    | some (q, i :: is) =>
      let parked := (newEvents (s.blk i) (s'.blk i)).any Ev.isPark
      s'.take v (if parked then none else some (q, is))
    | _ => s'.toControl
  | .resume v => match (s.serving v).bind fun i => (s.blk i).nextLocal (l.place v i) with
    | some q => s'.toControl.resume v q
    | none => s'.toControl
  | _ => s'.toControl

def step (a : SysAct V) (s : Sys V) : Option (Sys V) :=
  match a with
  | .issue q =>
    let v := l.worker q.thread
    if s.idle v ∧ q.id = s.next then some { s with toControl := s.toControl.issue v q } else none
  | .finish v => match s.hand v with
    | some (q, []) => some { s with toControl := s.toControl.finish v q }
    | _ => none
  | a => (l.target a s).bind fun x =>
    (l.act x.1 x.2 s).map fun s' => { s' with toControl := l.inHand a s s' }

end Layout

/-- Every block starts in the memory of its home. -/
def Sys.init {V : Type*} (mem : Nat → Data) : Sys V where
  blk i := Block.init V (mem i)

end HwGam.Coherence
