import HwGam.Lib.Transition
import Mathlib.Logic.Function.Basic
import Mathlib.Data.Fin.Basic

/-!
# The fence of an application thread

`Fence` of `worker.h` with the code that touches it: the fence prologues of
`ProcessLocalRead`, `ProcessLocalWrite`, `ProcessLocalMFence`, `ProcessLocalSFence`,
`ProcessLocalRLock`, `ProcessLocalWLock` and `ProcessLocalUnLock`, `AddToFence`, the
asynchronous part of `Notify`, and `ProcessFenced`. Any number of threads run that code; every
access to `pending_writes`, to `in_process`, to the two flags and to the queue is a step of its
own, and so are `fence->lock()` and `fence->unlock()`.

What a request does once it is past the fence is left open: a started write is notified at any
later point, by any thread. A request that is parked on a block and replayed carries `TO_SERVE`
and does not come back to the fence.
-/

namespace HwGam.Fence

inductive Op
  | read | write | mfence | sfence | rlock | wlock | unlock
  deriving DecidableEq, Repr

/-- RLOCK, WLOCK and UNLOCK: "fence for every lock". -/
def Op.isLock : Op → Bool
  | .rlock | .wlock | .unlock => true
  | _ => false

/-- A request; `seq` is its place in the order of issue. -/
structure Request where
  op : Op
  seq : Nat
  deriving DecidableEq, Repr

/-- Where a thread stands. The first group is the prologue of `ProcessLocal*`, the second
`ProcessFenced`; `lock()` is held from `examine` to `leave` and from `drained` to `unlock`. -/
inductive Pc
  | idle
  | arrive (r : Request)
  | examine (r : Request)
  | count (r : Request)
  | mark (r : Request)
  | park (r : Request)
  -- `some r`: the request passed the fence and is executed after the unlock
  | leave (r : Option Request)
  | execute (r : Request)
  -- about to read `in_process`; `some r` when called from inside the request `r` of a drain
  | enter (back : Option Request)
  | acquire
  | drained
  | flagged
  | front
  -- about to read `pending_writes` because the front request is a fence or a lock
  | recheck (r : Request)
  | serve (r : Request)
  | serving (r : Request)
  -- `pending_writes` was read as nonzero: the drain is going to stop at `r`
  | stop (r : Request)
  | pop (fenced : Bool)
  | finish (fenced : Bool)
  | release (fenced : Bool)
  | unlock
  deriving DecidableEq, Repr

inductive Ev
  | issue (r : Request)
  | park (r : Request)
  | start (r : Request)
  | notified (r : Request)
  deriving DecidableEq, Repr

/-- The fence, the program counters of the threads and the history (latest event last).
`inflight` holds the asynchronous writes that were started and not yet notified. -/
structure State (T : Type*) where
  mfenced : Bool := false
  sfenced : Bool := false
  pendingWrites : Int := 0
  pendingWorks : List Request := []
  inProcess : Bool := false
  lock : Option T := none
  inflight : List Request := []
  next : Nat := 0
  pc : T → Pc := fun _ => .idle
  log : List Ev := []

/-- The fence `RegisterFence` creates, before any request. -/
def init (T : Type*) : State T := {}

inductive Act (T : Type*)
  /-- the application thread calls `ProcessLocalRequest` -/
  | submit (t : T) (op : Op)
  /-- `Notify` of the asynchronous write `w`: the decrement of `pending_writes` -/
  | notify (t : T) (w : Request)
  /-- `Notify` of an asynchronous MFENCE or UNLOCK, which decrements nothing -/
  | poke (t : T)
  /-- the next access of a thread that is inside one of the functions -/
  | tick (t : T)
  deriving DecidableEq, Repr

variable {T : Type*}

namespace State

variable (s : State T)

/-- `IsFenced`; a request that reaches it here has none of the flags REPEATED, TO_SERVE, FENCE. -/
def isFenced : Bool := s.mfenced || s.sfenced

/-- `IsMFenced`: reads are let through under an SFENCE. -/
def isMFenced : Bool := s.mfenced

def emit (e : Ev) : State T := { s with log := s.log ++ [e] }

/-- `AddToFence` -/
def addToFence (r : Request) : State T :=
  { s with pendingWorks := s.pendingWorks ++ [r] }.emit (.park r)

/-- The request is past the fence: a write counts as pending from here on, and runs. -/
def begin (r : Request) : State T :=
  let s := if r.op = .write then
    { s with pendingWrites := s.pendingWrites + 1, inflight := s.inflight ++ [r] } else s
  s.emit (.start r)

/-- `fence->pending_writes--` in `Notify` of `w`. -/
def decrement (w : Request) : State T :=
  { s with pendingWrites := s.pendingWrites - 1, inflight := s.inflight.erase w }.emit
    (.notified w)

def goto [DecidableEq T] (t : T) (p : Pc) : State T :=
  { s with pc := Function.update s.pc t p }

/-! `begin` touches the counter, the writes in flight and the log only. -/

@[simp] theorem begin_pc (r : Request) : (s.begin r).pc = s.pc := by
  unfold begin; split <;> rfl

@[simp] theorem begin_lock (r : Request) : (s.begin r).lock = s.lock := by
  unfold begin; split <;> rfl

@[simp] theorem begin_inProcess (r : Request) : (s.begin r).inProcess = s.inProcess := by
  unfold begin; split <;> rfl

@[simp] theorem begin_mfenced (r : Request) : (s.begin r).mfenced = s.mfenced := by
  unfold begin; split <;> rfl

@[simp] theorem begin_sfenced (r : Request) : (s.begin r).sfenced = s.sfenced := by
  unfold begin; split <;> rfl

@[simp] theorem begin_isFenced (r : Request) : (s.begin r).isFenced = s.isFenced := by
  simp [isFenced]

@[simp] theorem begin_pendingWorks (r : Request) :
    (s.begin r).pendingWorks = s.pendingWorks := by
  unfold begin; split <;> rfl

@[simp] theorem begin_log (r : Request) :
    (s.begin r).log = s.log ++ [.start r] := by
  unfold begin; split <;> rfl

@[simp] theorem begin_next (r : Request) : (s.begin r).next = s.next := by
  unfold begin; split <;> rfl

theorem begin_inflight_of_ne {r : Request} (h : r.op ≠ .write) :
    (s.begin r).inflight = s.inflight := by
  unfold begin
  rw [if_neg h]
  rfl

theorem mem_begin_inflight {s : State T} {r w : Request} (h : w ∈ s.inflight) :
    w ∈ (s.begin r).inflight := by
  unfold begin
  split
  · exact List.mem_append_left _ h
  · exact h

theorem self_mem_begin_inflight {r : Request} (h : r.op = .write) :
    r ∈ (s.begin r).inflight := by
  unfold begin
  rw [if_pos h]
  exact List.mem_append_right _ (List.mem_singleton_self _)

theorem begin_writes {s : State T} (r : Request) (h : s.pendingWrites = s.inflight.length) :
    (s.begin r).pendingWrites = (s.begin r).inflight.length := by
  unfold begin
  split
  · simp [emit, h]
  · exact h

theorem begin_pendingWrites_le (r : Request) :
    s.pendingWrites ≤ (s.begin r).pendingWrites := by
  unfold begin
  split
  · show s.pendingWrites ≤ s.pendingWrites + 1
    omega
  · exact le_rfl

theorem decrement_writes {s : State T} {w : Request} (hw : w ∈ s.inflight)
    (h : s.pendingWrites = s.inflight.length) :
    (s.decrement w).pendingWrites = (s.decrement w).inflight.length := by
  have := List.length_pos_of_mem hw
  simp only [decrement, emit, h, List.length_erase_of_mem hw]
  omega

end State

variable [DecidableEq T]

/-! ## The prologue of `ProcessLocal*` -/

/-- The check of the flags: `IsMFenced` for a read, `IsFenced` for the others. An unfenced read
or write goes on at once, the fences and the locks look at `pending_writes` first. -/
def examine (t : T) (r : Request) (s : State T) : State T :=
  match r.op with
  | .read => if s.isMFenced then s.goto t (.park r) else s.goto t (.leave (some r))
  | .write => if s.isFenced then s.goto t (.park r) else s.goto t (.leave (some r))
  | _ => if s.isFenced then s.goto t (.park r) else s.goto t (.count r)

/-- Unfenced: "we only mark fenced when there are pending writes". -/
def count (t : T) (r : Request) (s : State T) : State T :=
  if s.pendingWrites ≠ 0 then s.goto t (.mark r)
  else if r.op.isLock then s.goto t (.leave (some r))
  else (s.goto t (.leave none)).emit (.start r)

/-- SFENCE sets `sfenced`, MFENCE and the locks set `mfenced`; a lock is then queued itself. -/
def mark (t : T) (r : Request) (s : State T) : State T :=
  match r.op with
  | .sfence => ({ s with sfenced := true }.goto t (.leave none)).emit (.start r)
  | .mfence => ({ s with mfenced := true }.goto t (.leave none)).emit (.start r)
  | _ => { s with mfenced := true }.goto t (.park r)

/-! ## `ProcessFenced` -/

/-- The loop head: the request at the front decides whether `pending_writes` is read again. -/
def front (t : T) (s : State T) : State T :=
  match s.pendingWorks with
  | [] => s.goto t (.finish false)
  | r :: _ =>
    match r.op with
    | .read | .write => s.goto t (.serve r)
    | _ => s.goto t (.recheck r)

/-- `fence->pending_writes` inside the loop: nonzero stops the drain at this request, zero lets a
lock run and drops a fence. -/
def recheck (t : T) (r : Request) (s : State T) : State T :=
  if s.pendingWrites ≠ 0 then s.goto t (.stop r)
  else if r.op.isLock then s.goto t (.serve r)
  else (s.goto t (.pop false)).emit (.start r)

/-- The drain stops: an MFENCE or SFENCE takes effect and is popped, a lock stays at the front
("do not pop it from fence->pending_works"). -/
def stop (t : T) (r : Request) (s : State T) : State T :=
  match r.op with
  | .sfence => ({ s with sfenced := true, mfenced := false }.goto t (.pop true)).emit (.start r)
  | .mfence => ({ s with mfenced := true, sfenced := false }.goto t (.pop true)).emit (.start r)
  | _ => { s with mfenced := true, sfenced := false }.goto t (.finish true)

/-- The next access of thread `t`; `none` where it waits for the lock or has nothing to do. -/
def tick (t : T) (s : State T) : Option (State T) :=
  match s.pc t with
  | .idle => none
  | .arrive r =>
    if s.lock = none then some ({ s with lock := some t }.goto t (.examine r)) else none
  | .examine r => some (examine t r s)
  | .count r => some (count t r s)
  | .mark r => some (mark t r s)
  | .park r => some ((s.addToFence r).goto t (.leave none))
  | .leave none => some ({ s with lock := none }.goto t .idle)
  | .leave (some r) => some ({ s with lock := none }.goto t (.execute r))
  | .execute r => some ((s.begin r).goto t .idle)
  | .enter back =>
    -- `if (!fence->in_process)`; a nested call would go on to a lock its own thread holds
    if s.inProcess then some (s.goto t (back.elim .idle .serving)) else some (s.goto t .acquire)
  | .acquire => if s.lock = none then some ({ s with lock := some t }.goto t .drained) else none
  | .drained => some (s.goto t (if s.pendingWrites = 0 then .flagged else .unlock))
  | .flagged =>
    if s.isFenced then some ({ s with inProcess := true }.goto t .front)
    else some (s.goto t .unlock)
  | .front => some (front t s)
  | .recheck r => some (recheck t r s)
  | .serve r => some ((s.begin r).goto t (.serving r))
  | .serving _ => some (s.goto t (.pop false))
  | .stop r => some (stop t r s)
  | .pop fenced =>
    some ({ s with pendingWorks := s.pendingWorks.tail }.goto t
      (if fenced then .finish true else .front))
  | .finish fenced =>
    some ((if fenced then s else { s with mfenced := false, sfenced := false }).goto t
      (.release fenced))
  | .release _ => some ({ s with inProcess := false }.goto t .unlock)
  | .unlock => some ({ s with lock := none }.goto t .idle)

/-- Where `Notify` may be called from: outside the modelled code, or inside a request that a
drain is executing. -/
def Pc.caller : Pc → Option (Option Request)
  | .idle => some none
  | .serving r => some (some r)
  | _ => none

def step (a : Act T) (s : State T) : Option (State T) :=
  match a with
  | .submit t op =>
    if s.pc t = .idle then
      let r : Request := ⟨op, s.next⟩
      some (({ s with next := s.next + 1 }.goto t (.arrive r)).emit (.issue r))
    else none
  | .notify t w =>
    if w ∈ s.inflight then
      (s.pc t).caller.map fun back => (s.decrement w).goto t (.enter back)
    else none
  | .poke t => (s.pc t).caller.map fun back => s.goto t (.enter back)
  | .tick t => tick t s

end HwGam.Fence
