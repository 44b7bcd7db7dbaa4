import HwGam.Coherence.Cache
import HwGam.Coherence.Home
import HwGam.Lib.Transition

/-!
# The steps of a block

`step i` is one handler of one worker on block `i`: a request of an application thread, an unlock,
an eviction, a completion, a message, or the next piece of a `ProcessToServeRequest`. A worker
takes a message only when it has nothing left of a replay; the data of a one-sided write lands at
any time.
-/

namespace HwGam.Coherence

variable {W : Type*}

namespace Block

variable (b : Block W)

def emit (es : List (Ev W)) : Block W := { b with log := b.log ++ es }

/-- The block's value: the writes of the history applied in order to the initial memory. -/
def value (i : Nat) (mem : Data) (log : List (Ev W)) : Data :=
  log.foldl (fun d e => match e with
    | .effect q => q.apply i d
    | _ => d) mem

variable [DecidableEq W]

def setCacher (w : W) (c : Cacher W) : Block W :=
  { b with cacher := Function.update b.cacher w c }

end Block

/-- The messages to `w`, in the order they were sent. -/
def sentTo {M : Type*} [DecidableEq W] (w : W) (ms : List (W × M)) : List M :=
  ms.filterMap fun m => if m.1 = w then some m.2 else none

/-- Messages of the home go to the end of the queues of their connections. -/
def Block.deliver [DecidableEq W] (b : Block W) (ms : List (W × FromHome W)) : Block W :=
  { b with cacher := fun u =>
      { b.cacher u with fromHome := (b.cacher u).fromHome ++ sentTo u ms } }

/-- Messages of worker `w` to other workers. -/
def Block.deliverPeers [DecidableEq W] (b : Block W) (w : W) (ms : List (W × PeerMsg)) : Block W :=
  { b with cacher := fun u =>
      { b.cacher u with fromPeers := (b.cacher u).fromPeers ++ (sentTo u ms).map (w, ·) } }

/-- A handler of the home has run. -/
def Block.homeStep [DecidableEq W] (b : Block W) (o : Home.Result W) : Block W :=
  ({ b with home := o.st }.deliver o.sent).emit o.evs

/-- A handler of the caching worker `w` has run. -/
def Block.cacherStep [DecidableEq W] (b : Block W) (w : W) (o : Cacher.Result W) : Block W :=
  ((b.setCacher w o.st).deliverPeers w o.sent).emit o.evs

inductive Act (W : Type*)
  /-- a request of an application thread on `n`; `ptr` is where a new line would be -/
  | access (n : Place W) (q : Request) (ptr : Ptr)
  | unlock (n : Place W) (thread addr : Nat)
  | evict (w : W)
  | complete (w : W)
  /-- the home takes the next message of `w` -/
  | recvHome (w : W)
  /-- `w` takes the next message of the home -/
  | recv (w : W)
  /-- `w` takes the next message of `o` -/
  | recvPeer (o w : W)
  /-- the next parked remote request of a replay, or the start of that part -/
  | replay (n : Place W)
  /-- the next parked local request of a replay, which is then run again from its first block -/
  | drop (n : Place W)

/-- The first message of `o` in the queue, and the rest. -/
def takeFrom [DecidableEq W] (o : W) : List (W × PeerMsg) → Option (PeerMsg × List (W × PeerMsg))
  | [] => none
  | m :: ms => if m.1 = o then some (m.2, ms) else (takeFrom o ms).map fun x => (x.1, m :: x.2)

def ToHome.isRdma : ToHome → Bool
  | .rdmaWrite _ => true
  | _ => false

def FromHome.isRdma : FromHome W → Bool
  | .reply (.rdmaWrite _) => true
  | _ => false

section
variable [DecidableEq W] (i : Nat)

/-- The home takes a message of `w`. -/
def recvHome (w : W) (b : Block W) : Option (Block W) :=
  let c := b.cacher w
  match c.toHome with
  | [] => none
  | m :: ms =>
    if m.isRdma || b.home.agenda.isEmpty then
      some ((b.setCacher w { c with toHome := ms }).homeStep (b.home.recv i w m))
    else none

/-- `w` takes a message of the home. -/
def recv (w : W) (b : Block W) : Option (Block W) :=
  let c := b.cacher w
  match c.fromHome with
  | [] => none
  | m :: ms =>
    if m.isRdma || c.agenda.isEmpty then
      some (b.cacherStep w ({ c with fromHome := ms }.recvHome i w m))
    else none

/-- `w` takes a message of `o`. -/
def recvPeer (o w : W) (b : Block W) : Option (Block W) :=
  let c := b.cacher w
  if c.agenda.isEmpty then
    (takeFrom o c.fromPeers).map fun x =>
      b.cacherStep w ({ c with fromPeers := x.2 }.recvPeer i w x.1)
  else none

/-- The next piece of a replay, other than a local request. -/
def replay (n : Place W) (b : Block W) : Option (Block W) :=
  match n with
  | none =>
    match b.home.agenda with
    | .remote (w, o) :: rest => some (b.homeStep ({ b.home with agenda := rest }.processOwn w o))
    | .load :: rest => some { b with
        home := { b.home with serve := [], agenda := b.home.serve.map .remote ++ rest } }
    | _ => none
  | some w =>
    let c := b.cacher w
    match c.agenda with
    | .remote a :: rest => some (b.cacherStep w ({ c with agenda := rest }.processAsk a))
    | .load :: rest =>
      some (b.setCacher w { c with serve := [], agenda := c.serve.map .remote ++ rest })
    | _ => none

/-- A local request is taken off a replay. -/
def drop (n : Place W) (b : Block W) : Option (Block W) :=
  match n with
  | none =>
    match b.home.agenda with
    | .local _ :: rest => some { b with home := { b.home with agenda := rest } }
    | _ => none
  | some w =>
    let c := b.cacher w
    match c.agenda with
    | .local _ :: rest => some (b.setCacher w { c with agenda := rest })
    | _ => none

def step (a : Act W) (b : Block W) : Option (Block W) :=
  match a with
  | .access none q _ => some (b.homeStep (b.home.access i q))
  | .access (some w) q ptr => some (b.cacherStep w ((b.cacher w).access i w q ptr))
  | .unlock none thread addr => some (b.homeStep (b.home.unLock thread addr))
  | .unlock (some w) thread addr => some (b.cacherStep w ((b.cacher w).unLock w thread addr))
  | .evict w => (b.cacher w).evict.map fun c => b.setCacher w c
  | .complete w =>
    if (b.cacher w).agenda.isEmpty then (b.cacher w).complete.map fun o => b.cacherStep w o
    else none
  | .recvHome w => recvHome i w b
  | .recv w => recv i w b
  | .recvPeer o w => recvPeer i o w b
  | .replay n => replay n b
  | .drop n => drop n b

end

/-- Every block starts in the memory of its home, uncached. -/
def Block.init (W : Type*) (mem : Data) : Block W where
  home := { mem := mem }
  cacher _ := {}

end HwGam.Coherence
