import HwGam.Lib.Transition
import HwGam.Worker.Psn
import Mathlib.Data.List.Basic
import Mathlib.Data.List.Nodup

/-!
# The key-value store of the master

`GAlloc::Put` and `GAlloc::Get`: a worker sends the requests of its threads to the master in order,
a GET under an identifier of `GetWorkPsn`; the master parks the GETs of a key until the first PUT of
it (`to_serve_kv_request`) and answers all others at once. A PUT is not answered.

PUTs and GETs are numbered as they are issued. These numbers, the PUTs the master has handled and
how many these were when it answered a GET are history.
-/

namespace HwGam.KeyValue

open Lib

structure Put where
  key : UInt64
  value : List UInt8
  no : Nat
  deriving DecidableEq, Repr

structure Get where
  key : UInt64
  /-- `wr->id` -/
  id : BitVec 32
  no : Nat
  deriving DecidableEq, Repr

/-- A request on its way to the master. -/
inductive Work
  | put (p : Put)
  | get (g : Get)
  deriving DecidableEq, Repr

/-- GET_REPLY -/
structure GetReply where
  get : Get
  value : List UInt8
  seen : Nat
  deriving DecidableEq, Repr

@[simp] def Work.put? : Work → Option Put
  | .put p => some p
  | .get _ => none

@[simp] def Work.no : Work → Nat
  | .put p => p.no
  | .get g => g.no

/-! ## The master -/

structure Master (W : Type*) where
  kvs : UInt64 → Option (List UInt8)
  /-- `to_serve_kv_request`, with an empty queue for a key without an entry -/
  toServe : UInt64 → List (W × Get)
  stored : List (W × Put)

namespace Master

variable {W : Type*} (m : Master W)

/-- `Master::ProcessRequest`, case GET -/
def processGet (client : W) (g : Get) : Master W × List (W × GetReply) :=
  match m.kvs g.key with
  | some value => (m, [(client, ⟨g, value, m.stored.length⟩)])
  | none => ({ m with
      toServe := Function.update m.toServe g.key (m.toServe g.key ++ [(client, g)]) }, [])

/-- The loop over the queue of a key: its front is popped and processed as a GET. -/
def serveParked (key : UInt64) : Nat → Master W → Master W × List (W × GetReply)
  | 0, m => (m, [])
  | n + 1, m => match m.toServe key with
    | [] => (m, [])
    | (client, g) :: rest =>
      -- the source goes on with its reference to the front, which the pop leaves dangling
      let (m, out) := processGet { m with toServe := Function.update m.toServe key rest } client g
      let (m, out') := serveParked key n m
      (m, out ++ out')

/-- `Master::ProcessRequest`, case PUT -/
def processPut (client : W) (p : Put) : Master W × List (W × GetReply) :=
  let m := { m with
    kvs := Function.update m.kvs p.key (some p.value), stored := m.stored ++ [(client, p)] }
  let (m, out) := serveParked p.key (m.toServe p.key).length m
  ({ m with toServe := Function.update m.toServe p.key [] }, out)

def processRequest (client : W) : Work → Master W × List (W × GetReply)
  | .put p => m.processPut client p
  | .get g => m.processGet client g

end Master

/-! ## Workers -/

/-- An entry of `pending_works`. -/
inductive Pending
  | get (g : Get)
  /-- a request of another kind -/
  | other
  deriving DecidableEq, Repr

structure Node where
  wrPsn : BitVec 32
  pendingWorks : BitVec 32 → Option Pending
  toMaster : List Work
  fromMaster : List GetReply

namespace Node

variable (n : Node)

def draw (p : Pending) : Node :=
  { n with
    wrPsn := Worker.getWorkPsn n.wrPsn
    pendingWorks := Function.update n.pendingWorks (Worker.getWorkPsn n.wrPsn) (some p) }

def send (wr : Work) : Node := { n with toMaster := n.toMaster ++ [wr] }

/-- The master takes the first request. -/
def taken (rest : List Work) : Node := { n with toMaster := rest }

/-- `ErasePendingWork` -/
def erase (id : BitVec 32) : Node :=
  { n with pendingWorks := Function.update n.pendingWorks id none }

end Node

structure Sys (W : Type*) where
  master : Master W
  node : W → Node
  next : Nat
  /-- PUTs and GETs that threads have issued -/
  puts : List (W × Put)
  gets : List (W × Get)
  /-- what the threads were notified of -/
  answers : List (W × GetReply)

def Sys.init {W : Type*} : Sys W where
  master := ⟨fun _ => none, fun _ => [], []⟩
  node _ := ⟨0, fun _ => none, [], []⟩
  next := 0
  puts := []
  gets := []
  answers := []

inductive Act (W : Type*)
  | put (w : W) (key : UInt64) (value : List UInt8)
  | get (w : W) (key : UInt64)
  /-- a request of another kind is filed in `pending_works`, or erased -/
  | file (w : W)
  | erase (w : W) (id : BitVec 32)
  /-- the master handles the next request of the worker -/
  | recvMaster (w : W)
  /-- `Worker::ProcessRemoteGetReply` for the next answer of the master -/
  | recv (w : W)

section
variable {W : Type*} [DecidableEq W]

/-- The items of a list that come from a worker, or go to it, in order. -/
def ofWorker {α : Type*} (w : W) (xs : List (W × α)) : List α :=
  xs.filterMap fun x => if x.1 = w then some x.2 else none

def Sys.update (s : Sys W) (w : W) (n : Node) : Sys W :=
  { s with node := Function.update s.node w n }

/-- The master has gone to `m` and sends answers. -/
def Sys.reply (s : Sys W) (m : Master W) (out : List (W × GetReply)) : Sys W :=
  { s with
    master := m
    node := fun w => { s.node w with fromMaster := (s.node w).fromMaster ++ ofWorker w out } }

section
variable (s : Sys W) (w : W) (n : Node) (m : Master W) (out : List (W × GetReply))

@[simp] theorem Sys.update_master : (s.update w n).master = s.master := rfl
@[simp] theorem Sys.update_answers : (s.update w n).answers = s.answers := rfl
@[simp] theorem Sys.update_gets : (s.update w n).gets = s.gets := rfl
@[simp] theorem Sys.update_puts : (s.update w n).puts = s.puts := rfl

@[simp] theorem Sys.update_self : (s.update w n).node w = n := Function.update_self ..

theorem Sys.update_of_ne {v : W} (h : v ≠ w) : (s.update w n).node v = s.node v :=
  Function.update_of_ne h ..

@[simp] theorem Sys.reply_master : (s.reply m out).master = m := rfl
@[simp] theorem Sys.reply_answers : (s.reply m out).answers = s.answers := rfl
@[simp] theorem Sys.reply_gets : (s.reply m out).gets = s.gets := rfl
@[simp] theorem Sys.reply_puts : (s.reply m out).puts = s.puts := rfl

@[simp] theorem Sys.reply_toMaster :
    ((s.reply m out).node w).toMaster = (s.node w).toMaster := rfl

@[simp] theorem Sys.reply_pendingWorks :
    ((s.reply m out).node w).pendingWorks = (s.node w).pendingWorks := rfl

@[simp] theorem Sys.reply_fromMaster :
    ((s.reply m out).node w).fromMaster = (s.node w).fromMaster ++ ofWorker w out := rfl

end

def step (a : Act W) (s : Sys W) : Option (Sys W) :=
  match a with
  | .put w key value =>
    let p := ⟨key, value, s.next⟩
    some { s.update w ((s.node w).send (.put p)) with
      next := s.next + 1, puts := s.puts ++ [(w, p)] }
  | .get w key =>
    let g := ⟨key, Worker.getWorkPsn (s.node w).wrPsn, s.next⟩
    some { s.update w (((s.node w).draw (.get g)).send (.get g)) with
      next := s.next + 1, gets := s.gets ++ [(w, g)] }
  | .file w => some (s.update w ((s.node w).draw .other))
  | .erase w id =>
    if (s.node w).pendingWorks id = some .other then some (s.update w ((s.node w).erase id)) else none
  | .recvMaster w => match (s.node w).toMaster with
    | wr :: rest =>
      let (m, out) := s.master.processRequest w wr
      some ((s.update w ((s.node w).taken rest)).reply m out)
    | [] => none
  | .recv w => match (s.node w).fromMaster with
    | r :: rest => match (s.node w).pendingWorks r.get.id with
      -- the thread that waits for `g` is notified with the value of the answer
      | some (.get g) =>
        some { s.update w ({ s.node w with fromMaster := rest }.erase r.get.id) with
          answers := s.answers ++ [(w, { r with get := g })] }
      | _ => none
    | [] => none

/-- An identifier that is drawn is not in use. -/
def Fresh (a : Act W) (s : Sys W) : Prop :=
  match a with
  | .get w _ | .file w =>
    (s.node w).pendingWorks (Worker.getWorkPsn (s.node w).wrPsn) = none
  | _ => True

instance (a : Act W) (s : Sys W) : Decidable (Fresh a s) := by
  unfold Fresh
  split <;> infer_instance

/-! ## What a step does -/

theorem mem_ofWorker {α : Type*} {w : W} {xs : List (W × α)} {x : α} :
    x ∈ ofWorker w xs ↔ (w, x) ∈ xs := by
  simp only [ofWorker, List.mem_filterMap, Option.ite_none_right_eq_some, Option.some.injEq,
    Prod.exists]
  constructor
  · rintro ⟨w', y, hy, rfl, rfl⟩
    exact hy
  · exact fun h => ⟨w, x, h, rfl, rfl⟩

@[simp] theorem ofWorker_append {α : Type*} (w : W) (xs ys : List (W × α)) :
    ofWorker w (xs ++ ys) = ofWorker w xs ++ ofWorker w ys := by
  simp [ofWorker]

@[simp] theorem ofWorker_singleton {α : Type*} (w w' : W) (x : α) :
    ofWorker w [(w', x)] = if w' = w then [x] else [] := by
  unfold ofWorker
  split <;> simp_all

/-- The value of the last PUT of the key. -/
def lastPut (key : UInt64) (puts : List (W × Put)) : Option (List UInt8) :=
  ((puts.filter fun x => x.2.key = key).getLast?).map fun x => x.2.value

omit [DecidableEq W] in
theorem lastPut_append (key : UInt64) (puts : List (W × Put)) (w : W) (p : Put) :
    lastPut key (puts ++ [(w, p)]) = if p.key = key then some p.value else lastPut key puts := by
  unfold lastPut
  split <;> simp_all

omit [DecidableEq W] in
theorem lastPut_eq_none {key : UInt64} {puts : List (W × Put)} :
    lastPut key puts = none ↔ ∀ x ∈ puts, x.2.key ≠ key := by
  simp [lastPut]

omit [DecidableEq W] in
/-- All GETs that are parked for the key are answered with its value. -/
theorem Master.serveParked_eq {m : Master W} {key : UInt64} {value : List UInt8}
    (hv : m.kvs key = some value) (hkey : ∀ x ∈ m.toServe key, x.2.key = key) :
    serveParked key (m.toServe key).length m =
      ({ m with toServe := Function.update m.toServe key [] },
        (m.toServe key).map fun x => (x.1, ⟨x.2, value, m.stored.length⟩)) := by
  generalize hq : m.toServe key = q at hkey
  induction q generalizing m with
  | nil =>
    have hu : Function.update m.toServe key [] = m.toServe :=
      Function.update_eq_self_iff.mpr hq.symm
    simp [serveParked, hu]
  | cons x q ih =>
    obtain ⟨client, g⟩ := x
    have hg : m.kvs g.key = some value := by
      rw [hkey (client, g) List.mem_cons_self]
      exact hv
    have ih' := ih (m := { m with toServe := Function.update m.toServe key q }) hv (by simp)
      fun x hx => hkey x (List.mem_cons_of_mem _ hx)
    simp only [List.length_cons, serveParked, hq, processGet, hg]
    rw [ih']
    simp

/-- All that a step can do. -/
inductive Moved (s : Sys W) : Sys W → Prop
  | put (w : W) (p : Put) (hno : p.no = s.next) :
    Moved s { s.update w ((s.node w).send (.put p)) with
      next := s.next + 1, puts := s.puts ++ [(w, p)] }
  | get (w : W) (g : Get) (hno : g.no = s.next) (hid : g.id = Worker.getWorkPsn (s.node w).wrPsn)
      (hfree : (s.node w).pendingWorks g.id = none) :
    Moved s { s.update w (((s.node w).draw (.get g)).send (.get g)) with
      next := s.next + 1, gets := s.gets ++ [(w, g)] }
  | file (w : W)
      (hfree : (s.node w).pendingWorks (Worker.getWorkPsn (s.node w).wrPsn) = none) :
    Moved s (s.update w ((s.node w).draw .other))
  | erase (w : W) (id : BitVec 32) (ho : (s.node w).pendingWorks id = some .other) :
    Moved s (s.update w ((s.node w).erase id))
  | store (w : W) (p : Put) (rest : List Work) (hq : (s.node w).toMaster = .put p :: rest) :
    Moved s ((s.update w ((s.node w).taken rest)).reply
      { kvs := Function.update s.master.kvs p.key (some p.value)
        toServe := Function.update s.master.toServe p.key []
        stored := s.master.stored ++ [(w, p)] }
      ((s.master.toServe p.key).map fun x => (x.1, ⟨x.2, p.value, s.master.stored.length + 1⟩)))
  | answer (w : W) (g : Get) (value : List UInt8) (rest : List Work)
      (hq : (s.node w).toMaster = .get g :: rest) (hv : s.master.kvs g.key = some value) :
    Moved s ((s.update w ((s.node w).taken rest)).reply s.master
      [(w, ⟨g, value, s.master.stored.length⟩)])
  | park (w : W) (g : Get) (rest : List Work) (hq : (s.node w).toMaster = .get g :: rest)
      (hv : s.master.kvs g.key = none) :
    Moved s ((s.update w ((s.node w).taken rest)).reply { s.master with
      toServe := Function.update s.master.toServe g.key (s.master.toServe g.key ++ [(w, g)]) } [])
  | recv (w : W) (r : GetReply) (rest : List GetReply) (hq : (s.node w).fromMaster = r :: rest) :
    Moved s { s.update w ({ s.node w with fromMaster := rest }.erase r.get.id) with
      answers := s.answers ++ [(w, r)] }

/-! ## The invariant -/

/-- How often a GET is on its way to the master, parked there, or answered. -/
def Sys.places (s : Sys W) (w : W) (g : Get) : Nat :=
  (s.node w).toMaster.count (.get g) + (s.master.toServe g.key).count (w, g) +
    (s.node w).fromMaster.countP (·.get = g) + (ofWorker w s.answers).countP (·.get = g)

/-- The answers to a worker that are on their way or have arrived. -/
def Sys.replies (s : Sys W) (w : W) : List GetReply :=
  (s.node w).fromMaster ++ ofWorker w s.answers

/-- The PUTs that the worker issued before are among those the master had handled. -/
def Sys.Behind (s : Sys W) (stored : List (W × Put)) (w : W) (g : Get) : Prop :=
  ∀ p, (w, p) ∈ s.puts → p.no < g.no → (w, p) ∈ stored

/-- An answer is the value that its key had at the master once the PUTs before were handled. -/
structure Sys.Right (s : Sys W) (w : W) (r : GetReply) : Prop where
  seen : r.seen ≤ s.master.stored.length
  value : lastPut r.get.key (s.master.stored.take r.seen) = some r.value
  behind : s.Behind (s.master.stored.take r.seen) w r.get

structure Sys.Numbered (s : Sys W) : Prop where
  puts : ∀ x ∈ s.puts, x.2.no < s.next
  gets : ∀ x ∈ s.gets, x.2.no < s.next
  nodup : s.gets.Nodup
  work : ∀ w, ∀ x ∈ (s.node w).toMaster, x.no < s.next
  sorted : ∀ w, ((s.node w).toMaster.map Work.no).Pairwise (· < ·)

/-- What the master has for the keys. -/
structure Master.Ok (m : Master W) : Prop where
  kvs : ∀ key, m.kvs key = lastPut key m.stored
  keyed : ∀ key, ∀ x ∈ m.toServe key, x.2.key = key
  parked : ∀ key, m.toServe key ≠ [] → m.kvs key = none

structure Sys.Inv (s : Sys W) : Prop where
  numbered : s.Numbered
  fifo : ∀ w, ofWorker w s.master.stored ++ (s.node w).toMaster.filterMap Work.put? =
    ofWorker w s.puts
  master : s.master.Ok
  once : ∀ w g, s.places w g = s.gets.count (w, g)
  filed : ∀ w g, (w, g) ∈ s.gets → (ofWorker w s.answers).countP (·.get = g) = 0 →
    (s.node w).pendingWorks g.id = some (.get g)
  waiting : ∀ key, ∀ x ∈ s.master.toServe key, s.Behind s.master.stored x.1 x.2
  right : ∀ w, ∀ r ∈ s.replies w, s.Right w r

variable {s s' : Sys W} {a : Act W} {w : W} {g : Get}

/-! ### Numbers -/

omit [DecidableEq W] in
theorem Sys.Numbered.of_sublist (h : s.Numbered) (hn : s'.next = s.next) (hp : s'.puts = s.puts)
    (hg : s'.gets = s.gets)
    (hw : ∀ w, ((s'.node w).toMaster).Sublist (s.node w).toMaster) : s'.Numbered where
  puts := hn ▸ hp ▸ h.puts
  gets := hn ▸ hg ▸ h.gets
  nodup := hg ▸ h.nodup
  work w x hx := hn ▸ h.work w x ((hw w).subset hx)
  sorted w := (h.sorted w).sublist ((hw w).map _)

/-- The next number goes to the request that is issued. -/
theorem Sys.Numbered.issue (h : s.Numbered) {n : Node} {wr : Work} (hno : wr.no = s.next)
    (hn : n.toMaster = (s.node w).toMaster ++ [wr]) {puts : List (W × Put)} {gets : List (W × Get)}
    (hputs : ∀ x ∈ puts, x ∈ s.puts ∨ x.2.no = s.next)
    (hgets : ∀ x ∈ gets, x ∈ s.gets ∨ x.2.no = s.next) (hnodup : gets.Nodup) :
    Sys.Numbered { s.update w n with next := s.next + 1, puts := puts, gets := gets } where
  puts x hx := (hputs x hx).elim (fun hx => (h.puts x hx).trans (Nat.lt_succ_self _))
    (fun hx => hx ▸ Nat.lt_succ_self _)
  gets x hx := (hgets x hx).elim (fun hx => (h.gets x hx).trans (Nat.lt_succ_self _))
    (fun hx => hx ▸ Nat.lt_succ_self _)
  nodup := hnodup
  work v x hx := by
    by_cases hv : v = w
    · subst hv
      simp only [Sys.update, Function.update_self, hn, List.mem_append, List.mem_singleton] at hx
      obtain hx | rfl := hx
      · exact (h.work v x hx).trans (Nat.lt_succ_self _)
      · exact hno ▸ Nat.lt_succ_self _
    · simp only [Sys.update, Function.update_of_ne hv] at hx
      exact (h.work v x hx).trans (Nat.lt_succ_self _)
  sorted v := by
    by_cases hv : v = w
    · subst hv
      simp only [Sys.update, Function.update_self, hn, List.map_append, List.pairwise_append]
      refine ⟨h.sorted v, by simp, fun k hk j hj => ?_⟩
      obtain ⟨x, hx, rfl⟩ := List.mem_map.mp hk
      obtain rfl : j = wr.no := by simpa using hj
      exact hno ▸ h.work v x hx
    · simp only [Sys.update, Function.update_of_ne hv]
      exact h.sorted v

theorem Moved.numbered (hm : Moved s s') (h : s.Numbered) : s'.Numbered := by
  cases hm with
  | put w p hno =>
    have hno' : (Work.put p).no = s.next := hno
    refine h.issue hno' rfl (fun x hx => ?_) (fun x hx => .inl hx) h.nodup
    simpa [or_iff_left_of_imp, hno] using (List.mem_append.mp hx).imp_right
      (fun hx => by rw [List.mem_singleton.mp hx]; exact hno)
  | get w g hno hid hfree =>
    have hno' : (Work.get g).no = s.next := hno
    refine h.issue hno' rfl (fun x hx => .inl hx) (fun x hx => ?_) ?_
    · exact (List.mem_append.mp hx).imp_right
        (fun hx => by rw [List.mem_singleton.mp hx]; exact hno)
    · refine h.nodup.append (List.nodup_singleton _) ?_
      rintro x hx hx'
      obtain rfl := List.mem_singleton.mp hx'
      exact absurd (h.gets _ hx) (by simp [hno])
  | file w hfree | erase w id ho | recv w r rest hq =>
    refine h.of_sublist rfl rfl rfl fun v => ?_
    by_cases hv : v = w
    · subst hv
      simp [Node.draw, Node.erase]
    · simp [Sys.update_of_ne, hv]
  | store w p rest hq | answer w g value rest hq hv | park w g rest hq hv =>
    refine h.of_sublist rfl rfl rfl fun v => ?_
    by_cases hv : v = w
    · subst hv
      simp [Node.taken, hq]
    · simp [Sys.update_of_ne, hv]

/-! ### The order of the PUTs, and the values -/

theorem Moved.fifo (hm : Moved s s') (h : s.Inv) (v : W) :
    ofWorker v s'.master.stored ++ (s'.node v).toMaster.filterMap Work.put? =
      ofWorker v s'.puts := by
  have hv := h.fifo v
  cases hm with
  | put w p hno | get w p hno hid hfree =>
    by_cases hvw : v = w
    · subst hvw
      simp [Node.send, Node.draw, ← hv]
    · simp [Sys.update_of_ne, hvw, Ne.symm hvw, hv]
  | file w hfree | erase w id ho | recv w r rest hq =>
    by_cases hvw : v = w
    · subst hvw
      simpa [Node.draw, Node.erase] using hv
    · simpa [Sys.update_of_ne, hvw] using hv
  | store w p rest hq | answer w p value rest hq hv' | park w p rest hq hv' =>
    by_cases hvw : v = w
    · subst hvw
      simpa [Node.taken, hq, List.filterMap_cons] using hv
    · simpa [Sys.update_of_ne, hvw, Ne.symm hvw] using hv

theorem Moved.master (hm : Moved s s') (h : s.master.Ok) : s'.master.Ok := by
  cases hm with
  | put | get | file | erase | recv | answer => exact h
  | store w p rest hq =>
    rw [Sys.reply_master]
    refine ⟨fun key => ?_, fun key x hx => ?_, fun key hne => ?_⟩
    · by_cases hk : key = p.key
      · simp [hk, lastPut_append]
      · simp [Function.update_of_ne hk, Ne.symm hk, h.kvs, lastPut_append]
    · by_cases hk : key = p.key
      · simp [hk] at hx
      · simp only [Function.update_of_ne hk] at hx
        exact h.keyed key x hx
    · by_cases hk : key = p.key
      · simp [hk] at hne
      · simp only [Function.update_of_ne hk] at hne ⊢
        exact h.parked key hne
  | park w g rest hq hv =>
    rw [Sys.reply_master]
    refine ⟨h.kvs, fun key x hx => ?_, fun key hne => ?_⟩
    · by_cases hk : key = g.key
      · subst hk
        simp only [Function.update_self, List.mem_append, List.mem_singleton] at hx
        obtain hx | rfl := hx
        · exact h.keyed _ x hx
        · rfl
      · simp only [Function.update_of_ne hk] at hx
        exact h.keyed key x hx
    · by_cases hk : key = g.key
      · exact hk ▸ hv
      · simp only [Function.update_of_ne hk] at hne
        exact h.parked key hne

/-! ### Where the GETs are -/

theorem countP_ofWorker_map (v : W) (g : Get) (q : List (W × Get)) (value : List UInt8) (n : Nat) :
    (ofWorker v (q.map fun x => (x.1, (⟨x.2, value, n⟩ : GetReply)))).countP (·.get = g) =
      q.count (v, g) := by
  induction q with
  | nil => rfl
  | cons x q ih =>
    obtain ⟨w, g'⟩ := x
    rw [List.map_cons, ← List.singleton_append, ofWorker_append, List.countP_append, ih,
      ofWorker_singleton, List.count_cons, Nat.add_comm]
    by_cases hw : w = v
    · simp [hw]
    · simp [hw]

/-- The first request is off the channel, and the answers are as they were. -/
theorem Sys.update_taken {wr : Work} {rest : List Work} (hq : (s.node w).toMaster = wr :: rest) (v : W)
    (g : Get) :
    ((s.update w ((s.node w).taken rest)).node v).toMaster.count (.get g) +
        (if v = w ∧ wr = .get g then 1 else 0) = (s.node v).toMaster.count (.get g) ∧
      ((s.update w ((s.node w).taken rest)).node v).fromMaster = (s.node v).fromMaster := by
  by_cases hvw : v = w
  · subst hvw
    simp [Node.taken, hq, List.count_cons]
  · simp [Sys.update_of_ne, hvw]

theorem Moved.once (hm : Moved s s') (h : s.Inv) (v : W) (g : Get) :
    s'.places v g = s'.gets.count (v, g) := by
  have hv := h.once v g
  unfold Sys.places at hv ⊢
  cases hm with
  | put w p hno =>
    by_cases hvw : v = w
    · subst hvw
      simpa [Node.send, List.count_cons] using hv
    · simpa [Sys.update_of_ne, hvw] using hv
  | get w g' hno hid hfree =>
    by_cases hvw : v = w
    · subst hvw
      simp only [Node.send, Node.draw, Sys.update_self, Sys.update_master, Sys.update_answers,
        List.count_append, List.count_singleton, ← hv]
      by_cases hg : g' = g
      · simp [hg]
        omega
      · simp [hg]
    · simpa [Sys.update_of_ne, hvw, List.count_singleton, Ne.symm hvw] using hv
  | file w hfree | erase w id ho =>
    by_cases hvw : v = w
    · subst hvw
      simpa [Node.draw, Node.erase] using hv
    · simpa [Sys.update_of_ne, hvw] using hv
  | store w p rest hq =>
    obtain ⟨hto, hfrom⟩ := s.update_taken hq v g
    simp only [Sys.reply_toMaster, Sys.reply_master, Sys.reply_fromMaster, Sys.reply_answers,
      Sys.reply_gets, Sys.update_answers, Sys.update_gets, List.countP_append, countP_ofWorker_map,
      hfrom]
    by_cases hk : g.key = p.key
    · rw [hk] at hv
      simp only [reduceCtorEq, and_false, if_false] at hto
      rw [hk, Function.update_self, List.count_nil]
      omega
    · have hnone : (s.master.toServe p.key).count (v, g) = 0 :=
        List.count_eq_zero.mpr fun hmem => hk (h.master.keyed _ _ hmem)
      simp only [reduceCtorEq, and_false, if_false] at hto
      rw [Function.update_of_ne hk, hnone]
      omega
  | answer w g' value rest hq hv' =>
    obtain ⟨hto, hfrom⟩ := s.update_taken hq v g
    have hout : (ofWorker v [(w, (⟨g', value, s.master.stored.length⟩ : GetReply))]).countP
        (·.get = g) = if v = w ∧ Work.get g' = .get g then 1 else 0 := by
      by_cases hvw : w = v
      · simp [hvw, List.countP_singleton]
      · simp [hvw, Ne.symm hvw]
    simp only [Sys.reply_toMaster, Sys.reply_master, Sys.reply_fromMaster, Sys.reply_answers,
      Sys.reply_gets, Sys.update_answers, Sys.update_gets, List.countP_append, hout, hfrom]
    omega
  | park w g' rest hq hv' =>
    obtain ⟨hto, hfrom⟩ := s.update_taken hq v g
    have hpark : (Function.update s.master.toServe g'.key (s.master.toServe g'.key ++ [(w, g')])
        g.key).count (v, g) = (s.master.toServe g.key).count (v, g) +
          if v = w ∧ Work.get g' = .get g then 1 else 0 := by
      by_cases hk : g.key = g'.key
      · rw [hk, Function.update_self, List.count_append, List.count_singleton]
        by_cases hvw : v = w
        · simp [hvw]
        · simp [hvw, Ne.symm hvw]
      · have hne : ¬ g' = g := by
          rintro rfl
          exact hk rfl
        simp [Function.update_of_ne hk, hne]
    simp only [Sys.reply_toMaster, Sys.reply_master, Sys.reply_fromMaster, Sys.reply_answers,
      Sys.reply_gets, Sys.update_answers, Sys.update_gets, hfrom, hpark, ofWorker,
      List.filterMap_nil, List.append_nil]
    simp only [ofWorker] at hv
    omega
  | recv w r rest hq =>
    by_cases hvw : v = w
    · subst hvw
      simp only [hq, List.countP_cons] at hv
      simp only [Node.erase, Sys.update_self, Sys.update_master, Sys.update_gets, ofWorker_append,
        ofWorker_singleton, if_true, List.countP_append, List.countP_singleton]
      omega
    · simpa [Sys.update_of_ne, hvw, Ne.symm hvw] using hv

/-- What is known of a GET that is on its way, parked or answered. -/
theorem Sys.Inv.mem_gets (h : s.Inv) (hp : 0 < s.places w g) : (w, g) ∈ s.gets :=
  List.count_pos_iff.mp (h.once w g ▸ hp)

theorem Sys.Inv.places_le (h : s.Inv) (w : W) (g : Get) : s.places w g ≤ 1 := by
  rw [h.once]
  exact List.nodup_iff_count_le_one.mp h.numbered.nodup _

/-- An answer on its way is for a GET that waits under its identifier. -/
theorem Sys.Inv.pending_of_reply (h : s.Inv) {r : GetReply} (hr : r ∈ (s.node w).fromMaster) :
    (s.node w).pendingWorks r.get.id = some (.get r.get) := by
  have hpos : 0 < (s.node w).fromMaster.countP (·.get = r.get) :=
    List.countP_pos_iff.mpr ⟨r, hr, by simp⟩
  have hle := h.places_le w r.get
  have hmem := h.mem_gets (w := w) (g := r.get) (by unfold Sys.places; omega)
  unfold Sys.places at hle
  exact h.filed w r.get hmem (by omega)

theorem step_moved (h : s.Inv) (hf : Fresh a s) (hs : step a s = some s') : Moved s s' := by
  cases a with
  | put w key value =>
    obtain rfl := Option.some.inj hs
    exact .put w ⟨key, value, s.next⟩ rfl
  | get w key =>
    obtain rfl := Option.some.inj hs
    exact .get w ⟨key, _, s.next⟩ rfl rfl hf
  | file w =>
    obtain rfl := Option.some.inj hs
    exact .file w hf
  | erase w id =>
    simp only [step, Option.ite_none_right_eq_some, Option.some.injEq] at hs
    obtain ⟨ho, rfl⟩ := hs
    exact .erase w id ho
  | recvMaster w =>
    simp only [step] at hs
    cases hq : (s.node w).toMaster with
    | nil => simp [hq] at hs
    | cons wr rest =>
      simp only [hq, Option.some.injEq] at hs
      subst hs
      cases wr with
      | put p =>
        have hkvs : Function.update s.master.kvs p.key (some p.value) p.key = some p.value :=
          Function.update_self ..
        have hserve := Master.serveParked_eq (m := { s.master with
            kvs := Function.update s.master.kvs p.key (some p.value)
            stored := s.master.stored ++ [(w, p)] }) hkvs (h.master.keyed p.key)
        have := Moved.store w p rest hq
        simp only [Master.processRequest, Master.processPut, hserve]
        simpa using this
      | get g =>
        simp only [Master.processRequest, Master.processGet]
        split
        · exact .answer w g _ rest hq ‹_›
        · exact .park w g rest hq ‹_›
  | recv w =>
    simp only [step] at hs
    cases hq : (s.node w).fromMaster with
    | nil => simp [hq] at hs
    | cons r rest =>
      have hp := h.pending_of_reply (w := w) (r := r) (by simp [hq])
      simp only [hq, hp, Option.some.injEq] at hs
      subst hs
      exact .recv w r rest hq

/-! ### Who waits -/

theorem Moved.filed (hm : Moved s s') (h : s.Inv) (v : W) (g : Get) (hg : (v, g) ∈ s'.gets)
    (ha : (ofWorker v s'.answers).countP (·.get = g) = 0) :
    (s'.node v).pendingWorks g.id = some (.get g) := by
  cases hm with
  | put w p hno =>
    have hold := h.filed v g hg ha
    by_cases hvw : v = w
    · subst hvw
      simpa [Node.send] using hold
    · simpa [Sys.update_of_ne, hvw] using hold
  | get w g' hno hid hfree =>
    by_cases hvw : v = w
    · subst hvw
      simp only [Sys.update_self, Node.send, Node.draw, ← hid]
      obtain hg | hg := List.mem_append.mp hg
      · have hold := h.filed v g hg ha
        have hne : g.id ≠ g'.id := by
          intro heq
          rw [heq, hfree] at hold
          cases hold
        rw [Function.update_of_ne hne]
        exact hold
      · obtain rfl : g = g' := by simpa using hg
        exact Function.update_self ..
    · have hg : (v, g) ∈ s.gets := by simpa [hvw] using hg
      simpa [Sys.update_of_ne, hvw] using h.filed v g hg ha
  | file w hfree =>
    have hold := h.filed v g hg ha
    by_cases hvw : v = w
    · subst hvw
      have hne : g.id ≠ Worker.getWorkPsn (s.node v).wrPsn := by
        intro heq
        rw [heq, hfree] at hold
        cases hold
      simpa [Node.draw, Function.update_of_ne hne] using hold
    · simpa [Sys.update_of_ne, hvw] using hold
  | erase w id ho =>
    have hold := h.filed v g hg ha
    by_cases hvw : v = w
    · subst hvw
      have hne : g.id ≠ id := by
        intro heq
        rw [heq, ho] at hold
        cases hold
      simpa [Node.erase, Function.update_of_ne hne] using hold
    · simpa [Sys.update_of_ne, hvw] using hold
  | store w p rest hq | answer w g' value rest hq hv | park w g' rest hq hv =>
    have hold := h.filed v g hg ha
    by_cases hvw : v = w
    · subst hvw
      simpa [Node.taken] using hold
    · simpa [Sys.update_of_ne, hvw] using hold
  | recv w r rest hq =>
    have hsplit := ha
    rw [ofWorker_append, List.countP_append, Nat.add_eq_zero_iff] at hsplit
    have hold := h.filed v g hg hsplit.1
    by_cases hvw : v = w
    · subst hvw
      -- the answer is for the GET that waits under its identifier, and this is another
      have hne : g.id ≠ r.get.id := by
        intro heq
        have hr := h.pending_of_reply (w := v) (r := r) (by simp [hq])
        rw [heq, hr] at hold
        simp_all
      simpa [Node.erase, Function.update_of_ne hne] using hold
    · simpa [Sys.update_of_ne, hvw] using hold

/-! ### What the answers say -/

omit [DecidableEq W] in
theorem Sys.Behind.mono {stored stored' : List (W × Put)} (h : s.Behind stored w g)
    (hsub : stored ⊆ stored') (hp : s'.puts = s.puts) : s'.Behind stored' w g :=
  fun p hp' hlt => hsub (h p (hp ▸ hp') hlt)

/-- A PUT that is issued later makes no difference. -/
theorem Sys.Behind.issue {stored : List (W × Put)} (h : s.Behind stored w g) {v : W} {p : Put}
    (hp : s'.puts = s.puts ++ [(v, p)]) (hno : p.no = s.next) (hg : g.no < s.next) :
    s'.Behind stored w g := by
  intro p' hp' hlt
  rw [hp, List.mem_append, List.mem_singleton] at hp'
  obtain hp' | hp' := hp'
  · exact h p' hp' hlt
  · obtain ⟨rfl, rfl⟩ := Prod.mk.inj hp'
    omega

/-- Whatever its worker sent before a GET that comes next, the master has handled. -/
theorem Sys.Inv.behind_head (h : s.Inv) {rest : List Work}
    (hq : (s.node w).toMaster = .get g :: rest) : s.Behind s.master.stored w g := by
  intro p hp hlt
  have hmem : p ∈ ofWorker w s.puts := mem_ofWorker.mpr hp
  rw [← h.fifo w, hq, List.mem_append] at hmem
  obtain hmem | hmem := hmem
  · exact mem_ofWorker.mp hmem
  · have hrest : .put p ∈ rest := by
      obtain ⟨x, hx, hput⟩ := List.mem_filterMap.mp hmem
      obtain rfl | hx := List.mem_cons.mp hx
      · cases hput
      · cases x with
        | put p' => exact Option.some.inj hput ▸ hx
        | get g' => cases hput
    have hsorted := h.numbered.sorted w
    rw [hq, List.map_cons, List.pairwise_cons] at hsorted
    have := hsorted.1 _ (List.mem_map_of_mem hrest)
    simp only [Work.no] at this
    omega

theorem Sys.Inv.no_lt_of_parked (h : s.Inv) {key : UInt64} {x : W × Get}
    (hx : x ∈ s.master.toServe key) : x.2.no < s.next := by
  refine h.numbered.gets x (h.mem_gets (w := x.1) (g := x.2) ?_)
  have hpos : 0 < (s.master.toServe x.2.key).count (x.1, x.2) := by
    rw [h.master.keyed key x hx]
    exact List.count_pos_iff.mpr hx
  unfold Sys.places
  omega

theorem Sys.Inv.mem_gets_of_reply (h : s.Inv) {r : GetReply}
    (hr : r ∈ s.replies w) : (w, r.get) ∈ s.gets := by
  have hpos : 0 < ((s.node w).fromMaster ++ ofWorker w s.answers).countP (·.get = r.get) :=
    List.countP_pos_iff.mpr ⟨r, hr, by simp⟩
  rw [List.countP_append] at hpos
  refine h.mem_gets ?_
  unfold Sys.places
  omega

theorem Moved.waiting (hm : Moved s s') (h : s.Inv) (key : UInt64) (x : W × Get)
    (hx : x ∈ s'.master.toServe key) : s'.Behind s'.master.stored x.1 x.2 := by
  cases hm with
  | put w p hno => exact (h.waiting key x hx).issue rfl hno (h.no_lt_of_parked hx)
  | get | file | erase | recv | answer => exact h.waiting key x hx
  | store w p rest hq =>
    have hx : x ∈ s.master.toServe key := by
      rw [Sys.reply_master] at hx
      by_cases hk : key = p.key
      · simp [hk] at hx
      · simpa only [Function.update_of_ne hk] using hx
    exact (h.waiting key x hx).mono (List.subset_append_left ..) rfl
  | park w g rest hq hv =>
    rw [Sys.reply_master] at hx
    by_cases hk : key = g.key
    · subst hk
      simp only [Function.update_self, List.mem_append, List.mem_singleton] at hx
      obtain hx | rfl := hx
      · exact h.waiting _ x hx
      · exact h.behind_head hq
    · simp only [Function.update_of_ne hk] at hx
      exact h.waiting key x hx

omit [DecidableEq W] in
/-- The master handles one more PUT. -/
theorem Sys.Right.grow {r : GetReply} (h : s.Right w r) {ys : List (W × Put)}
    (hs : s'.master.stored = s.master.stored ++ ys) (hp : s'.puts = s.puts) : s'.Right w r := by
  have htake : s'.master.stored.take r.seen = s.master.stored.take r.seen := by
    rw [hs, List.take_append_of_le_length h.seen]
  refine ⟨?_, htake ▸ h.value, htake ▸ h.behind.mono (List.Subset.refl _) hp⟩
  rw [hs, List.length_append]
  exact Nat.le_add_right_of_le h.seen

theorem Sys.mem_replies_taken {v : W} {rest : List Work} {m : Master W}
    {out : List (W × GetReply)} {r : GetReply}
    (hr : r ∈ ((s.update w ((s.node w).taken rest)).reply m out).replies v) :
    r ∈ s.replies v ∨ (v, r) ∈ out := by
  have hfrom : ((s.update w ((s.node w).taken rest)).node v).fromMaster =
      (s.node v).fromMaster := by
    by_cases hvw : v = w
    · subst hvw
      rw [Sys.update_self]
      rfl
    · rw [Sys.update_of_ne _ _ _ hvw]
  simp only [Sys.replies, Sys.reply_fromMaster, Sys.reply_answers, Sys.update_answers, hfrom,
    List.mem_append, mem_ofWorker] at hr ⊢
  tauto

theorem Moved.right (hm : Moved s s') (h : s.Inv) (v : W) (r : GetReply)
    (hr : r ∈ s'.replies v) : s'.Right v r := by
  cases hm with
  | put w p hno =>
    have hr : r ∈ s.replies v := by
      by_cases hvw : v = w
      · subst hvw
        simpa [Sys.replies, Node.send] using hr
      · simpa [Sys.replies, Sys.update_of_ne, hvw] using hr
    obtain ⟨hseen, hvalue, hbehind⟩ := h.right v r hr
    exact ⟨hseen, hvalue, hbehind.issue rfl hno (h.numbered.gets _ (h.mem_gets_of_reply hr))⟩
  | get w g hno hid hfree =>
    refine (h.right v r ?_).grow (List.append_nil _).symm rfl
    by_cases hvw : v = w
    · subst hvw
      simpa [Sys.replies, Node.send, Node.draw] using hr
    · simpa [Sys.replies, Sys.update_of_ne, hvw] using hr
  | file w hfree | erase w id ho =>
    refine (h.right v r ?_).grow (List.append_nil _).symm rfl
    by_cases hvw : v = w
    · subst hvw
      simpa [Sys.replies, Node.draw, Node.erase] using hr
    · simpa [Sys.replies, Sys.update_of_ne, hvw] using hr
  | store w p rest hq =>
    obtain hr | hr := Sys.mem_replies_taken hr
    · exact (h.right v r hr).grow rfl rfl
    · obtain ⟨x, hx, heq⟩ := List.mem_map.mp hr
      obtain ⟨rfl, rfl⟩ := Prod.mk.inj heq
      have hkey := h.master.keyed p.key x hx
      have htake : (s.master.stored ++ [(w, p)]).take (s.master.stored.length + 1) =
          s.master.stored ++ [(w, p)] := List.take_of_length_le (by simp)
      refine ⟨by simp, ?_, ?_⟩
      · simp [htake, lastPut_append, hkey]
      · simp only [Sys.reply_master, htake]
        exact (h.waiting p.key x hx).mono (List.subset_append_left ..) rfl
  | answer w g value rest hq hv =>
    obtain hr | hr := Sys.mem_replies_taken hr
    · exact (h.right v r hr).grow (List.append_nil _).symm rfl
    · obtain ⟨rfl, rfl⟩ := Prod.mk.inj (List.mem_singleton.mp hr)
      refine ⟨by simp, ?_, ?_⟩
      · simpa [← h.master.kvs] using hv
      · simp only [Sys.reply_master, List.take_length]
        exact (h.behind_head hq).mono (List.Subset.refl _) rfl
  | park w g rest hq hv =>
    obtain hr | hr := Sys.mem_replies_taken hr
    · exact (h.right v r hr).grow (List.append_nil _).symm rfl
    · simp at hr
  | recv w r' rest hq =>
    refine (h.right v r ?_).grow (List.append_nil _).symm rfl
    by_cases hvw : v = w
    · subst hvw
      simp only [Sys.replies, Node.erase, Sys.update_self, ofWorker_append, ofWorker_singleton,
        if_true, List.mem_append, List.mem_singleton] at hr
      simp only [Sys.replies, hq, List.mem_append, List.mem_cons]
      tauto
    · simpa [Sys.replies, Sys.update_of_ne, hvw, Ne.symm hvw] using hr

theorem Moved.inv (hm : Moved s s') (h : s.Inv) : s'.Inv where
  numbered := hm.numbered h.numbered
  fifo := hm.fifo h
  master := hm.master h.master
  once := hm.once h
  filed := hm.filed h
  waiting := hm.waiting h
  right := hm.right h

theorem Sys.Inv.init : (Sys.init : Sys W).Inv where
  numbered := ⟨by simp [Sys.init], by simp [Sys.init], by simp [Sys.init], by simp [Sys.init],
    by simp [Sys.init]⟩
  fifo w := rfl
  master := ⟨fun _ => rfl, by simp [Sys.init], by simp [Sys.init]⟩
  once w g := rfl
  filed w g hg := by simp [Sys.init] at hg
  waiting := by simp [Sys.init]
  right w r hr := by simp [Sys.init, Sys.replies, ofWorker] at hr

theorem inv_of_reaches (h : Reaches step Fresh Sys.init s) : s.Inv :=
  h.invariant Sys.Inv.init fun _ _ _ hi hf hs => (step_moved hi hf hs).inv hi

/-! ## Runs -/

/-- Every GET is answered at most once, with the value its key had at the master when all PUTs that
its worker issued before were in; an answer finds the GET it is for; and once nothing is on its way
only GETs of keys that nobody has PUT wait. -/
structure Sys.Served (s : Sys W) : Prop where
  once : ∀ w g, (ofWorker w s.answers).countP (·.get = g) ≤ s.gets.count (w, g) ∧
    s.gets.count (w, g) ≤ 1
  right : ∀ w, ∀ r ∈ ofWorker w s.answers, s.Right w r
  finds : ∀ w, ∀ r ∈ (s.node w).fromMaster, (s.node w).pendingWorks r.get.id = some (.get r.get)
  quiet : (∀ w, (s.node w).toMaster = [] ∧ (s.node w).fromMaster = []) →
    ∀ w g, (w, g) ∈ s.gets → (∃ r ∈ ofWorker w s.answers, r.get = g) ∨
      ∀ x ∈ s.puts, x.2.key ≠ g.key

theorem Sys.Inv.served (h : s.Inv) : s.Served where
  once w g := by
    have honce := h.once w g
    have hle := h.places_le w g
    unfold Sys.places at honce hle
    omega
  right w r hr := h.right w r (List.mem_append_right _ hr)
  finds w r hr := h.pending_of_reply hr
  quiet hquiet w g hg := by
    have honce := h.once w g
    have hpos : 0 < s.gets.count (w, g) := List.count_pos_iff.mpr hg
    simp only [Sys.places, (hquiet w).1, (hquiet w).2, List.count_nil, List.countP_nil] at honce
    by_cases hpark : (s.master.toServe g.key).count (w, g) = 0
    · left
      have hans : 0 < (ofWorker w s.answers).countP (·.get = g) := by omega
      simpa using List.countP_pos_iff.mp hans
    · right
      have hnone := h.master.parked g.key (List.ne_nil_of_mem (List.count_pos_iff.mp
        (Nat.pos_of_ne_zero hpark)))
      rw [h.master.kvs, lastPut_eq_none] at hnone
      rintro ⟨v, p⟩ hp
      refine hnone (v, p) (mem_ofWorker.mp ?_)
      have hfifo := h.fifo v
      rw [(hquiet v).1] at hfifo
      simp only [List.filterMap_nil, List.append_nil] at hfifo
      exact hfifo ▸ mem_ofWorker.mpr hp

theorem served_of_reaches (h : Reaches step Fresh Sys.init s) : s.Served :=
  (inv_of_reaches h).served

/-- A GET that comes too early is parked, and answered by the PUT of another worker. -/
def early : List (Act Bool) :=
  [.get true 7, .recvMaster true, .file true, .put false 7 [1, 2], .recvMaster false, .recv true]

theorem served_early : ∃ s : Sys Bool, Reaches step Fresh Sys.init s ∧
    (ofWorker true s.answers).map GetReply.value = [[1, 2]] ∧ s.Served := by
  obtain ⟨s, hr, hs⟩ := Reaches.exists_of_runs step Fresh early Sys.init
    (fun s => (ofWorker true s.answers).map GetReply.value = [[1, 2]]) (by decide)
  exact ⟨s, hr, hs, served_of_reaches hr⟩

end

end HwGam.KeyValue
