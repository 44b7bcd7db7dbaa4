import HwGam.Cluster.Conn
import HwGam.Lib.Transition

/-!
# Workers join the cluster

A worker connects to the master, which gives it an id and the list of the workers that joined before,
and takes its address into the list. Then the worker connects to each of the others, and only when
this is done it accepts connections itself. The master takes one worker at a time and waits for its
address.
-/

namespace HwGam.Cluster

open HwGam.Lib

def maxNumWorker : Nat := 20

/-- `MAX_WORKERS_STRLEN` -/
def maxWorkersStrlen : Nat := maxNumWorker * 21 + maxNumWorker - 1

/-- A client whose RDMA context is connected. -/
structure Client where
  wid : Nat
  own : Params
  remote : Params
  deriving DecidableEq, Repr

/-- How far the constructor of a worker is. -/
inductive Phase
  | start
  /-- the connection string is on its way to the master -/
  | knocked (msg : List Byte)
  /-- what the master has written -/
  | greeted (stream : List Byte)
  /-- in the loop of `PostConnectMaster`, with the workers that are left -/
  | dialing (todo : List (List Byte × Nat))
  /-- the connection string is on its way to a worker -/
  | waiting (peer : List Byte × Nat) (todo : List (List Byte × Nat)) (msg : List Byte)
  | answered (todo : List (List Byte × Nat)) (reply : List Byte)
  /-- the event loop runs -/
  | ready
  /-- the process is gone -/
  | gone
  deriving DecidableEq, Repr

structure Worker where
  phase : Phase := .start
  /-- the id of the client for the master -/
  wid : Nat := 0
  /-- `qpCliMap`, less the client for the master -/
  clients : List Client := []
  widCliMap : Nat → Option Client := fun _ => none

structure Master (V : Type*) where
  /-- `rdma_context_counter` -/
  counter : Nat := 0
  workerIps : List Byte := []
  widCliMap : Nat → Option Client := fun _ => none
  /-- the worker whose address `PostAcceptWorker` waits for -/
  accepting : Option V := none
  inbox : Option (List Byte) := none

/-- `joined`: the workers whose addresses the master has taken, in order. `given`: the ids given to
the workers. `seen`: the workers in the list that a worker got. `calls`: how many of them it has
connected to. `took`: the workers whose connections it accepted. -/
structure Sys (V : Type*) where
  master : Master V := {}
  worker : V → Worker := fun _ => {}
  joined : List V := []
  given : V → Nat := fun _ => 0
  seen : V → List V := fun _ => []
  calls : V → Nat := fun _ => 0
  took : V → List V := fun _ => []

/-- The addresses of the workers, and the RDMA contexts of the nodes; `none` is the master. -/
structure Net (V : Type*) where
  addr : V → Addr
  distinct : Function.Injective addr
  lid : Option V → BitVec 16
  psn : Option V → BitVec 32
  mem : Option V → BitVec 32 × BitVec 64
  /-- the queue pair of the `k`-th context -/
  qpn : Option V → Nat → BitVec 32

inductive Act (V : Type*)
  | connect (v : V)
  | accept (v : V)
  | greet (v : V)
  | register
  | leave (v : V)
  | dial (v : V)
  | answer (u v : V)
  | hear (v : V)
  | serve (v : V)

namespace Net

variable {V : Type*} (l : Net V)

def params (n : Option V) (k : Nat) (isForMaster : Bool) : Params where
  lid := l.lid n
  qpn := l.qpn n k
  psn := l.psn n
  mem := if isForMaster then none else some (l.mem n)

/-- The next context of a worker, whose first one is for the master. -/
def nextParams (v : V) (w : Worker) : Params := l.params (some v) (w.clients.length + 1) false

/-- `Client::SetRemoteConnParam`: the id and the remote end of the context -/
def connected (isForMaster : Bool) (own : Params) (conn : List Byte) : Option Client := do
  return ⟨← widOf conn, own, ← setRemoteConnParam isForMaster (afterColon conn)⟩

/-- `AcceptTcpClientHandle` at the master, up to where `PostAcceptWorker` waits -/
def acceptAtMaster (v : V) (msg : List Byte) (m : Master V) : Option (Master V × List Byte) :=
  let wid := m.counter + 1
  let own := l.params none wid true
  let inmsg := if m.workerIps = [] then [32] else m.workerIps
  (setRemoteConnParam true (afterColon msg)).map fun remote => ({ m with
    counter := wid
    widCliMap := Function.update m.widCliMap wid (some ⟨wid, own, remote⟩)
    workerIps := if m.workerIps = [] then [] else m.workerIps ++ [comma]
    accepting := some v }, getConnString wid own ++ inmsg)

/-- `Client::ExchConnParam` with the master from its `read` on, and `PostConnectMaster` up to its
loop. -/
def greet (v : V) (stream : List Byte) (w : Worker) : Option Worker := do
  let own := l.params (some v) 0 true
  let connLen := (getConnString 0 own).length
  if stream.length < connLen then failure
  let c ← connected true own (stream.take connLen)
  let todo ← workersOf ((stream.drop connLen).take maxWorkersStrlen)
  return { w with
    phase := .dialing todo, wid := c.wid, widCliMap := Function.update w.widCliMap c.wid (some c) }

/-- `AcceptTcpClientHandle` at a worker -/
def acceptAtWorker (u : V) (msg : List Byte) (w : Worker) : Option (Worker × List Byte) := do
  let own := l.nextParams u w
  let c ← connected false own msg
  return ({ w with
    clients := w.clients ++ [c], widCliMap := Function.update w.widCliMap c.wid (some c) },
    getConnString w.wid own)

/-- `Client::ExchConnParam` with a worker from its `read` on -/
def hear (v : V) (todo : List (List Byte × Nat)) (reply : List Byte) (w : Worker) :
    Option Worker := do
  let own := l.nextParams v w
  let connLen := (getConnString w.wid own).length
  if reply.length < connLen then failure
  let c ← connected false own (reply.take connLen)
  return { w with
    phase := .dialing todo, clients := w.clients ++ [c]
    widCliMap := Function.update w.widCliMap c.wid (some c) }

variable [DecidableEq V]

def step (a : Act V) (s : Sys V) : Option (Sys V) :=
  match a with
  | .connect v => match (s.worker v).phase with
    | .start =>
      let msg := getConnString 0 (l.params (some v) 0 true)
      some { s with worker := Function.update s.worker v { s.worker v with phase := .knocked msg } }
    | _ => none
  | .accept v => match s.master.accepting, (s.worker v).phase with
    | none, .knocked msg => (l.acceptAtMaster v msg s.master).map fun x => { s with
        master := x.1, given := Function.update s.given v x.1.counter
        worker := Function.update s.worker v { s.worker v with phase := .greeted x.2 } }
    | _, _ => none
  | .greet v => match (s.worker v).phase with
    | .greeted stream => (l.greet v stream (s.worker v)).map fun w => { s with
        master := { s.master with inbox := some (l.addr v).ipPort }
        worker := Function.update s.worker v w, seen := Function.update s.seen v s.joined }
    | _ => none
  | .register => match s.master.accepting, s.master.inbox with
    | some v, some msg => some { s with
        master := { s.master with
          workerIps := s.master.workerIps ++ msg.take maxWorkersStrlen
          accepting := none, inbox := none }
        joined := s.joined ++ [v] }
    | _, _ => none
  | .leave v => match (s.worker v).phase with
    | .greeted _ => some { s with
        master := { s.master with accepting := none }
        worker := Function.update s.worker v { s.worker v with phase := .gone } }
    | _ => none
  | .dial v => match (s.worker v).phase with
    | .dialing (peer :: todo) =>
      let msg := getConnString (s.worker v).wid (l.nextParams v (s.worker v))
      some { s with
        worker := Function.update s.worker v { s.worker v with phase := .waiting peer todo msg } }
    | _ => none
  | .answer u v => match (s.worker u).phase, (s.worker v).phase with
    | .ready, .waiting peer todo msg =>
      if (l.addr u).dest = peer then
        (l.acceptAtWorker u msg (s.worker u)).map fun x => { s with
          worker := Function.update (Function.update s.worker u x.1) v
            { s.worker v with phase := .answered todo x.2 }
          took := Function.update s.took u (s.took u ++ [v]) }
      else none
    | _, _ => none
  | .hear v => match (s.worker v).phase with
    | .answered todo reply => (l.hear v todo reply (s.worker v)).map fun w => { s with
        worker := Function.update s.worker v w
        calls := Function.update s.calls v (s.calls v + 1) }
    | _ => none
  | .serve v => match (s.worker v).phase with
    | .dialing [] =>
      some { s with worker := Function.update s.worker v { s.worker v with phase := .ready } }
    | _ => none

/-- At most `MAX_NUM_WORKER` workers are accepted. -/
def Room (a : Act V) (s : Sys V) : Prop :=
  match a with
  | .accept _ => s.master.counter < maxNumWorker
  | _ => True

/-! ## What the strings carry -/

variable {l} {s s' : Sys V} {u : Option V} {v : V} {n : Nat} {p : Params} {w : Worker}

omit [DecidableEq V] in
theorem connected_getConnString (hn : n < 16 ^ 4) (own p : Params) :
    connected p.mem.isNone own (getConnString n p) = some ⟨n, own, p⟩ := by
  simp [connected, widOf_getConnString hn, afterColon_getConnString,
    setRemoteConnParam_getRdmaConnString]

omit [DecidableEq V] in
theorem acceptAtMaster_eq (m : Master V) :
    l.acceptAtMaster v (getConnString n (l.params u 0 true)) m = some ({ m with
      counter := m.counter + 1
      widCliMap := Function.update m.widCliMap (m.counter + 1)
        (some ⟨m.counter + 1, l.params none (m.counter + 1) true, l.params u 0 true⟩)
      workerIps := if m.workerIps = [] then [] else m.workerIps ++ [comma]
      accepting := some v }, getConnString (m.counter + 1) (l.params none (m.counter + 1) true) ++
        if m.workerIps = [] then [32] else m.workerIps) := by
  have hset : setRemoteConnParam true (l.params u 0 true).getRdmaConnString =
      some (l.params u 0 true) := setRemoteConnParam_getRdmaConnString (l.params u 0 true)
  simp [acceptAtMaster, afterColon_getConnString, hset]

omit [DecidableEq V] in
theorem greet_eq {inmsg : List Byte} {todo : List (List Byte × Nat)} (hn : n < 16 ^ 4)
    (hlen : inmsg.length ≤ maxWorkersStrlen) (htodo : workersOf inmsg = some todo) :
    l.greet v (getConnString n (l.params none n true) ++ inmsg) w = some { w with
      phase := .dialing todo, wid := n
      widCliMap := Function.update w.widCliMap n
        (some ⟨n, l.params (some v) 0 true, l.params none n true⟩) } := by
  have hlen₀ : (getConnString 0 (l.params (some v) 0 true)).length =
      (getConnString n (l.params none n true)).length := by
    rw [length_getConnString (by decide), length_getConnString hn]
    rfl
  have hconn : connected true (l.params (some v) 0 true) (getConnString n (l.params none n true)) =
      some ⟨n, l.params (some v) 0 true, l.params none n true⟩ :=
    connected_getConnString hn _ (l.params none n true)
  simp [greet, hlen₀, List.take_of_length_le hlen, htodo, hconn]

omit [DecidableEq V] in
theorem acceptAtWorker_eq (hn : n < 16 ^ 4) (hp : p.mem.isNone = false) :
    l.acceptAtWorker v (getConnString n p) w = some ({ w with
      clients := w.clients ++ [⟨n, l.nextParams v w, p⟩]
      widCliMap := Function.update w.widCliMap n (some ⟨n, l.nextParams v w, p⟩) },
      getConnString w.wid (l.nextParams v w)) := by
  have hconn := connected_getConnString hn (l.nextParams v w) p
  rw [hp] at hconn
  simp [acceptAtWorker, hconn]

omit [DecidableEq V] in
theorem hear_eq {todo : List (List Byte × Nat)} (hn : n < 16 ^ 4) (hw : w.wid < 16 ^ 4)
    (hp : p.mem.isNone = false) :
    l.hear v todo (getConnString n p) w = some { w with
      phase := .dialing todo, clients := w.clients ++ [⟨n, l.nextParams v w, p⟩]
      widCliMap := Function.update w.widCliMap n (some ⟨n, l.nextParams v w, p⟩) } := by
  have hlen : (getConnString w.wid (l.nextParams v w)).length = (getConnString n p).length := by
    rw [length_getConnString hw, length_getConnString hn, hp]
    rfl
  have hconn := connected_getConnString hn (l.nextParams v w) p
  rw [hp] at hconn
  simp [hear, hlen, hconn]

/-! ## What each step does -/

theorem of_connect (h : l.step (.connect v) s = some s') : (s.worker v).phase = .start ∧
    s' = { s with
      worker := Function.update s.worker v { s.worker v with
        phase := .knocked (getConnString 0 (l.params (some v) 0 true)) } } := by
  simp only [step] at h
  split at h
  · exact ⟨‹_›, (Option.some.inj h).symm⟩
  · cases h

theorem of_accept (h : l.step (.accept v) s = some s') :
    ∃ msg x, s.master.accepting = none ∧ (s.worker v).phase = .knocked msg ∧
      l.acceptAtMaster v msg s.master = some x ∧ s' = { s with
        master := x.1, given := Function.update s.given v x.1.counter
        worker := Function.update s.worker v { s.worker v with phase := .greeted x.2 } } := by
  simp only [step] at h
  split at h
  · obtain ⟨x, hx, rfl⟩ := Option.map_eq_some_iff.mp h
    exact ⟨_, x, ‹_›, ‹_›, hx, rfl⟩
  · cases h

theorem of_greet (h : l.step (.greet v) s = some s') :
    ∃ stream w, (s.worker v).phase = .greeted stream ∧
      l.greet v stream (s.worker v) = some w ∧ s' = { s with
        master := { s.master with inbox := some (l.addr v).ipPort }
        worker := Function.update s.worker v w, seen := Function.update s.seen v s.joined } := by
  simp only [step] at h
  split at h
  · obtain ⟨w, hw, rfl⟩ := Option.map_eq_some_iff.mp h
    exact ⟨_, w, ‹_›, hw, rfl⟩
  · cases h

theorem of_register (h : l.step .register s = some s') :
    ∃ v msg, s.master.accepting = some v ∧ s.master.inbox = some msg ∧ s' = { s with
      master := { s.master with
        workerIps := s.master.workerIps ++ msg.take maxWorkersStrlen
        accepting := none, inbox := none }
      joined := s.joined ++ [v] } := by
  simp only [step] at h
  split at h
  · exact ⟨_, _, ‹_›, ‹_›, (Option.some.inj h).symm⟩
  · cases h

theorem of_leave (h : l.step (.leave v) s = some s') :
    ∃ stream, (s.worker v).phase = .greeted stream ∧ s' = { s with
      master := { s.master with accepting := none }
      worker := Function.update s.worker v { s.worker v with phase := .gone } } := by
  simp only [step] at h
  split at h
  · exact ⟨_, ‹_›, (Option.some.inj h).symm⟩
  · cases h

theorem of_dial (h : l.step (.dial v) s = some s') :
    ∃ peer todo, (s.worker v).phase = .dialing (peer :: todo) ∧ s' = { s with
      worker := Function.update s.worker v { s.worker v with
        phase := .waiting peer todo
          (getConnString (s.worker v).wid (l.nextParams v (s.worker v))) } } := by
  simp only [step] at h
  split at h
  · exact ⟨_, _, ‹_›, (Option.some.inj h).symm⟩
  · cases h

theorem of_answer {u : V} (h : l.step (.answer u v) s = some s') :
    ∃ todo msg x, (s.worker u).phase = .ready ∧
      (s.worker v).phase = .waiting (l.addr u).dest todo msg ∧
      l.acceptAtWorker u msg (s.worker u) = some x ∧ s' = { s with
        worker := Function.update (Function.update s.worker u x.1) v
          { s.worker v with phase := .answered todo x.2 }
        took := Function.update s.took u (s.took u ++ [v]) } := by
  simp only [step] at h
  split at h
  · obtain ⟨hpeer, hmap⟩ := Option.ite_none_right_eq_some.mp h
    subst hpeer
    obtain ⟨x, hx, rfl⟩ := Option.map_eq_some_iff.mp hmap
    exact ⟨_, _, x, ‹_›, ‹_›, hx, rfl⟩
  · cases h

theorem of_hear (h : l.step (.hear v) s = some s') :
    ∃ todo reply w, (s.worker v).phase = .answered todo reply ∧
      l.hear v todo reply (s.worker v) = some w ∧ s' = { s with
        worker := Function.update s.worker v w
        calls := Function.update s.calls v (s.calls v + 1) } := by
  simp only [step] at h
  split at h
  · obtain ⟨w, hw, rfl⟩ := Option.map_eq_some_iff.mp h
    exact ⟨_, _, w, ‹_›, hw, rfl⟩
  · cases h

theorem of_serve (h : l.step (.serve v) s = some s') : (s.worker v).phase = .dialing [] ∧
    s' = { s with
      worker := Function.update s.worker v { s.worker v with phase := .ready } } := by
  simp only [step] at h
  split at h
  · exact ⟨‹_›, (Option.some.inj h).symm⟩
  · cases h

end Net

end HwGam.Cluster
