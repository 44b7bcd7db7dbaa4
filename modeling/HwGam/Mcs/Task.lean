import Mathlib.Data.List.Basic
import HwGam.Lib.Transition
import HwGam.Mcs.Rpc

/-!
# Task submission in local mode

`SubmitTask` walks the resource table and posts a job to the thread pool for every node with a
free core; a job calls the node and then `ChangeTaskStatus`; `Get` polls the status map. The state
also keeps the history of the calls: what each `SubmitTask` found and posted, which jobs
returned, which ids `Get` returned for. A task is known by its place in the order of submission,
since ids wrap at `2 ^ 64`.
-/

namespace HwGam.Mcs

open Lib

structure NodeResource where
  address : String
  port : Int
  coreNum : Int
  deriving DecidableEq, Repr

def NodeResource.hasCore (r : NodeResource) : Bool := decide (0 < r.coreNum)

structure TaskSpecification where
  taskId : Nat
  funcName : String
  args : List LocalMemoryBuffer
  address : String
  port : Nat
  deriving DecidableEq, Repr

/-- What `std::move` leaves behind. -/
def TaskSpecification.moved (spec : TaskSpecification) : TaskSpecification :=
  { spec with funcName := "", args := [], address := "" }

/-- A job posted to the pool: the submission it belongs to and the node it was made for. -/
structure Job where
  task : Nat
  node : Nat
  spec : TaskSpecification
  deriving DecidableEq, Repr

inductive Event where
  /-- `SubmitTask` returned `id`; it found the table `found` and posted `jobs`. -/
  | submitted (task id : Nat) (found : List NodeResource) (jobs : List Job)
  /-- The job's RPC returned and its status was set. -/
  | returned (job : Job)
  /-- `Get` returned. -/
  | got (id : Nat)
  deriving DecidableEq, Repr

structure State where
  resources : List NodeResource
  currentTaskId : Nat
  taskStatusMap : Nat → Option Bool
  /-- Jobs posted and not returned. -/
  outstanding : List Job
  submissions : Nat
  log : List Event

def State.init (resources : List NodeResource) : State :=
  ⟨resources, 0, fun _ => none, [], 0, []⟩

inductive Action where
  | submitTask (funcName : String) (args : List LocalMemoryBuffer)
  /-- The `k`-th outstanding job finishes. -/
  | complete (k : Nat)
  /-- One round of the loop in `Get`. -/
  | get (objectId : List Char)
  deriving DecidableEq, Repr

/-- The loop of `SubmitTask` from node `i` on. There is no way out of it before the end of the
table, and a posted job takes the specification's contents with it. -/
def dispatch (task : Nat) (spec : TaskSpecification) :
    Nat → List NodeResource → List NodeResource × List Job
  | _, [] => ([], [])
  | i, r :: rs =>
    if r.hasCore then
      let spec := { spec with address := r.address, port := (r.port % 2 ^ 64).toNat }
      let rest := dispatch task spec.moved (i + 1) rs
      ({ r with coreNum := r.coreNum - 1 } :: rest.1, ⟨task, i, spec⟩ :: rest.2)
    else
      let rest := dispatch task spec (i + 1) rs
      (r :: rest.1, rest.2)

/-- `CreateNewTask`: `insert` keeps an entry that is already there. -/
def State.createNewTask (s : State) : State :=
  { s with
    taskStatusMap := Function.update s.taskStatusMap s.currentTaskId
      (some ((s.taskStatusMap s.currentTaskId).getD false))
    currentTaskId := (s.currentTaskId + 1) % 2 ^ 64 }

def State.submitTask (s : State) (funcName : String) (args : List LocalMemoryBuffer) : State :=
  let id := s.currentTaskId
  let done := dispatch s.submissions ⟨id, funcName, args, "", 0⟩ 0 s.resources
  { s.createNewTask with
    resources := done.1
    outstanding := s.outstanding ++ done.2
    submissions := s.submissions + 1
    log := s.log ++ [.submitted s.submissions id s.resources done.2] }

/-- `ChangeTaskStatus`. -/
def State.changeTaskStatus (s : State) (id : Nat) : State :=
  { s with taskStatusMap := Function.update s.taskStatusMap id (some true) }

def State.complete (s : State) (k : Nat) (j : Job) : State :=
  { s.changeTaskStatus j.spec.taskId with
    outstanding := s.outstanding.eraseIdx k
    log := s.log ++ [.returned j] }

/-- `isspace`. -/
def isSpace (c : Char) : Bool := c = ' ' ∨ (9 ≤ c.toNat ∧ c.toNat ≤ 13)

/-- `std::stoi`: leading blanks, a sign, digits up to the first other character; it throws when
there is no digit or the value is no `int`. -/
def stoi (text : List Char) : Option Int :=
  let rest := text.dropWhile isSpace
  let digits := (if rest.head? = some '-' ∨ rest.head? = some '+' then rest.tail else rest).takeWhile
    Char.isDigit
  let n : Int := digits.foldl (fun v c => 10 * v + (c.toNat - '0'.toNat)) 0
  let v := if rest.head? = some '-' then -n else n
  if digits ≠ [] ∧ -2 ^ 31 ≤ v ∧ v < 2 ^ 31 then some v else none

/-- One round of `Get` for the key `id`; looking an unknown key up enters it. -/
def State.poll (s : State) (id : Nat) : State :=
  if s.taskStatusMap id = some true then { s with log := s.log ++ [.got id] }
  else { s with taskStatusMap := Function.update s.taskStatusMap id (some false) }

def step : Action → State → Option State
  | .submitTask funcName args, s => some (s.submitTask funcName args)
  | .complete k, s => (s.outstanding[k]?).map (s.complete k)
  | .get objectId, s => (stoi objectId).map fun v => s.poll (v % 2 ^ 64).toNat

/-! ## What the calls promise -/

/-- A finished task's own job has returned, and `Get` returned for finished ids only. -/
structure StatusSound (s : State) : Prop where
  finished : ∀ t id found jobs, .submitted t id found jobs ∈ s.log →
    s.taskStatusMap id = some true → ∃ j, .returned j ∈ s.log ∧ j.task = t
  got : ∀ id, .got id ∈ s.log → s.taskStatusMap id = some true

/-- Jobs for node `i` that have not returned. -/
def State.running (s : State) (i : Nat) : Nat := s.outstanding.countP (·.node = i)

/-- Every accepted task went to exactly one node, which had a free core, and the table counts the
cores in use. -/
structure Accounting (table : List NodeResource) (s : State) : Prop where
  posted : ∀ t id found jobs, .submitted t id found jobs ∈ s.log →
    ∃ j, jobs = [j] ∧ ∃ r ∈ found[j.node]?, 0 < r.coreNum
  coreNum : ∀ i r₀, table[i]? = some r₀ →
    ∃ r, s.resources[i]? = some r ∧ r.coreNum = r₀.coreNum - (s.running i : Int)
  status : StatusSound s

/-- A submission finds exactly one node with a free core, and no job returns. -/
def OneFreeNode : Action → State → Prop
  | .submitTask _ _, s => s.resources.countP (·.hasCore) = 1
  | .complete _, _ => False
  | .get _, _ => True

/-! ## The dispatch loop -/

variable {task i k : Nat} {spec : TaskSpecification} {rs table : List NodeResource} {s s' : State}

def NodeResource.take (r : NodeResource) : NodeResource :=
  if r.hasCore then { r with coreNum := r.coreNum - 1 } else r

theorem dispatch_resources : (dispatch task spec i rs).1 = rs.map NodeResource.take := by
  induction rs generalizing i spec with
  | nil => rfl
  | cons r rs ih =>
    rw [dispatch]
    split
    · rename_i h
      simp [ih, NodeResource.take, h]
    · rename_i h
      simp [ih, NodeResource.take, h]

theorem dispatch_length : (dispatch task spec i rs).2.length = rs.countP (·.hasCore) := by
  induction rs generalizing i spec with
  | nil => rfl
  | cons r rs ih =>
    rw [dispatch]
    split
    · rename_i h
      simp [ih, h]
    · rename_i h
      simp [ih, h]

/-- A job goes to a node of the table that has a free core, for the submission at hand. -/
theorem mem_dispatch {j : Job} (hj : j ∈ (dispatch task spec i rs).2) :
    (∃ m r, j.node = i + m ∧ rs[m]? = some r ∧ r.hasCore = true) ∧
      j.task = task ∧ j.spec.taskId = spec.taskId := by
  induction rs generalizing i spec with
  | nil => simp [dispatch] at hj
  | cons r rs ih =>
    rw [dispatch] at hj
    split at hj
    · rename_i h
      rcases List.mem_cons.1 hj with rfl | hj
      · exact ⟨⟨0, r, rfl, rfl, h⟩, rfl, rfl⟩
      · obtain ⟨⟨m, r', hn, hr, hc⟩, ht, hid⟩ := ih hj
        exact ⟨⟨m + 1, r', by omega, by simpa using hr, hc⟩, ht, hid⟩
    · obtain ⟨⟨m, r', hn, hr, hc⟩, ht, hid⟩ := ih hj
      exact ⟨⟨m + 1, r', by omega, by simpa using hr, hc⟩, ht, hid⟩

theorem countP_dispatch_lt {n : Nat} (hn : n < i) :
    (dispatch task spec i rs).2.countP (·.node = n) = 0 := by
  rw [List.countP_eq_zero]
  intro j hj
  obtain ⟨⟨m, r, hm, -, -⟩, -, -⟩ := mem_dispatch hj
  simp only [decide_eq_true_eq]
  omega

/-- The cores a node gives up are the jobs posted to it. -/
theorem countP_dispatch (task : Nat) (spec : TaskSpecification) (i : Nat) {r : NodeResource}
    (hr : rs[k]? = some r) :
    r.take.coreNum = r.coreNum - (dispatch task spec i rs).2.countP (·.node = i + k) := by
  induction rs generalizing i k spec with
  | nil => simp at hr
  | cons x rs ih =>
    rw [dispatch]
    rcases k with _ | k
    · obtain rfl : x = r := by simpa using hr
      split
      · rename_i h
        simp [NodeResource.take, h, countP_dispatch_lt]
      · rename_i h
        simp [NodeResource.take, h, countP_dispatch_lt]
    · have hr' : rs[k]? = some r := by simpa using hr
      have hk : i + (k + 1) = i + 1 + k := by omega
      split
      · rw [hk, List.countP_cons_of_neg (by simp only [decide_eq_true_eq]; omega)]
        exact ih _ _ hr'
      · rw [hk]
        exact ih _ _ hr'

/-! ## Every run -/

/-- Jobs for node `i` that have returned. -/
def State.returned (s : State) (i : Nat) : Nat :=
  s.log.countP fun | .returned j => j.node = i | _ => false

/-- The jobs, the table and the status map against the history. -/
structure Inv (table : List NodeResource) (s : State) : Prop where
  length : s.resources.length = table.length
  coreNum : ∀ i r₀ r, table[i]? = some r₀ → s.resources[i]? = some r →
    r.coreNum = r₀.coreNum - (s.running i : Int) - (s.returned i : Int)
  job : ∀ j, j ∈ s.outstanding ∨ .returned j ∈ s.log →
    j.node < table.length ∧ j.task < s.submissions ∧ j.spec.taskId = j.task % 2 ^ 64
  submitted : ∀ t id found jobs, .submitted t id found jobs ∈ s.log →
    t < s.submissions ∧ id = t % 2 ^ 64 ∧ jobs.length = found.countP (·.hasCore) ∧
      ∀ j ∈ jobs, ∃ r ∈ found[j.node]?, 0 < r.coreNum
  id : s.currentTaskId = s.submissions % 2 ^ 64
  finished : ∀ id, s.taskStatusMap id = some true → ∃ j, .returned j ∈ s.log ∧ j.spec.taskId = id
  got : ∀ id, .got id ∈ s.log → s.taskStatusMap id = some true

theorem Inv.init : Inv table (.init table) where
  length := rfl
  coreNum i r₀ r h0 h := by
    obtain rfl : r₀ = r := by simpa [State.init, h0] using h
    simp [State.running, State.returned, State.init]
  job j hj := by simp [State.init] at hj
  submitted t id found jobs h := by simp [State.init] at h
  id := rfl
  finished id h := by simp [State.init] at h
  got id h := by simp [State.init] at h

theorem mem_log {e x : Event} {log : List Event} : e ∈ log ++ [x] ↔ e ∈ log ∨ e = x := by
  simp

/-- A new entry of the status map is not finished. -/
theorem createNewTask_finished {id : Nat} :
    s.createNewTask.taskStatusMap id = some true ↔ s.taskStatusMap id = some true := by
  by_cases hid : id = s.currentTaskId
  · subst hid
    cases h : s.taskStatusMap s.currentTaskId <;> simp [State.createNewTask, h]
  · simp [State.createNewTask, hid]

theorem Inv.submitTask (h : Inv table s) (funcName : String) (args : List LocalMemoryBuffer) :
    Inv table (s.submitTask funcName args) where
  length := by
    simp [State.submitTask, dispatch_resources, h.length]
  coreNum i r₀ r h0 hr := by
    simp only [State.submitTask, dispatch_resources, List.getElem?_map,
      Option.map_eq_some_iff] at hr
    obtain ⟨x, hx, rfl⟩ := hr
    have hold := h.coreNum i r₀ x h0 hx
    have hnew := countP_dispatch s.submissions ⟨s.currentTaskId, funcName, args, "", 0⟩ 0 hx
    simp only [Nat.zero_add] at hnew
    simp only [State.running, State.returned, State.submitTask, List.countP_append,
      List.countP_singleton] at hold ⊢
    rw [hnew, hold]
    push_cast
    simp
    omega
  job j hj := by
    simp only [State.submitTask, List.mem_append] at hj ⊢
    rcases hj with (hj | hj) | hj | hj
    · have := h.job j (.inl hj)
      exact ⟨this.1, by omega, this.2.2⟩
    · obtain ⟨⟨m, r, hm, hr, -⟩, ht, hid⟩ := mem_dispatch hj
      have hlt := (List.getElem?_eq_some_iff.1 hr).1
      refine ⟨by have := h.length; omega, by omega, ?_⟩
      rw [hid, ht]
      exact h.id
    · have := h.job j (.inr hj)
      exact ⟨this.1, by omega, this.2.2⟩
    · simp at hj
  submitted t id found jobs he := by
    simp only [State.submitTask, mem_log] at he ⊢
    rcases he with he | he
    · have := h.submitted t id found jobs he
      exact ⟨by omega, this.2⟩
    · cases he
      refine ⟨by omega, h.id, dispatch_length, fun j hj => ?_⟩
      obtain ⟨⟨m, r, hm, hr, hc⟩, -, -⟩ := mem_dispatch hj
      refine ⟨r, ?_, by simpa [NodeResource.hasCore] using hc⟩
      rw [hm, Nat.zero_add, hr]
      rfl
  id := by
    simp only [State.submitTask, State.createNewTask, h.id]
    omega
  finished id hid := by
    obtain ⟨j, hj, he⟩ := h.finished id (createNewTask_finished.1 hid)
    exact ⟨j, mem_log.2 (.inl hj), he⟩
  got id hid := by
    rcases mem_log.1 hid with hid | hid
    · exact createNewTask_finished.2 (h.got id hid)
    · cases hid

/-- A job that returns moves from the running jobs to the returned ones. -/
theorem countP_eraseIdx {α : Type} {l : List α} {p : α → Bool} {x : α} (h : l[k]? = some x) :
    (l.eraseIdx k).countP p + (if p x then 1 else 0) = l.countP p := by
  induction l generalizing k with
  | nil => simp at h
  | cons y l ih =>
    rcases k with _ | k
    · obtain rfl : y = x := by simpa using h
      simp [List.countP_cons]
    · have := ih (k := k) (by simpa using h)
      simp only [List.eraseIdx_cons_succ, List.countP_cons]
      omega

theorem Inv.complete {j : Job} (h : Inv table s) (hj : s.outstanding[k]? = some j) :
    Inv table (s.complete k j) where
  length := h.length
  coreNum i r₀ r h0 hr := by
    have hold := h.coreNum i r₀ r h0 hr
    have hcount := countP_eraseIdx (p := fun x => decide (x.node = i)) hj
    simp only [State.running, State.returned, State.complete, List.countP_append,
      List.countP_singleton] at hold hcount ⊢
    omega
  job x hx := by
    refine h.job x ?_
    rcases hx with hx | hx
    · exact .inl (List.mem_of_mem_eraseIdx hx)
    · rcases mem_log.1 hx with hx | hx
      · exact .inr hx
      · cases hx
        exact .inl (List.mem_of_getElem? hj)
  submitted t id found jobs he := by
    rcases mem_log.1 he with he | he
    · exact h.submitted t id found jobs he
    · cases he
  id := h.id
  finished id hid := by
    by_cases hne : id = j.spec.taskId
    · exact ⟨j, mem_log.2 (.inr rfl), hne.symm⟩
    · have hold : s.taskStatusMap id = some true := by
        simpa [State.complete, State.changeTaskStatus, hne] using hid
      obtain ⟨x, hx, he⟩ := h.finished id hold
      exact ⟨x, mem_log.2 (.inl hx), he⟩
  got id hid := by
    rcases mem_log.1 hid with hid | hid
    · by_cases hne : id = j.spec.taskId
      · simp [State.complete, State.changeTaskStatus, hne]
      · simpa [State.complete, State.changeTaskStatus, hne] using h.got id hid
    · cases hid

theorem Inv.poll (h : Inv table s) (id : Nat) : Inv table (s.poll id) := by
  rw [State.poll]
  split
  · rename_i hid
    have hother : ∀ {e : Event}, (∀ i, e ≠ .got i) → e ∈ s.log ++ [.got id] → e ∈ s.log :=
      fun hne he => (mem_log.1 he).resolve_right (hne id)
    have hret : State.returned { s with log := s.log ++ [.got id] } = s.returned := by
      funext i
      simp [State.returned]
    refine ⟨h.length, fun i r₀ r h0 hr => ?_, fun j hj => ?_, fun t i found jobs he => ?_, h.id,
      fun i hi => ?_, fun i hi => ?_⟩
    · rw [hret]
      exact h.coreNum i r₀ r h0 hr
    · exact h.job j (hj.imp_right (hother (by simp)))
    · exact h.submitted t i found jobs (hother (by simp) he)
    · obtain ⟨j, hj, he⟩ := h.finished i hi
      exact ⟨j, mem_log.2 (.inl hj), he⟩
    · rcases mem_log.1 hi with hi | hi
      · exact h.got i hi
      · cases hi
        exact hid
  · rename_i hid
    refine ⟨h.length, h.coreNum, h.job, h.submitted, h.id, fun i hi => ?_, fun i hi => ?_⟩
    · by_cases hne : i = id
      · simp [hne] at hi
      · exact h.finished i (by simpa [hne] using hi)
    · have hne : i ≠ id := fun hc => hid (hc ▸ h.got i hi)
      simpa [hne] using h.got i hi

theorem Inv.step {a : Action} (h : Inv table s) (hs : step a s = some s') : Inv table s' := by
  cases a with
  | submitTask funcName args =>
    cases hs
    exact h.submitTask funcName args
  | complete k =>
    obtain ⟨j, hj, rfl⟩ := Option.map_eq_some_iff.1 hs
    exact h.complete hj
  | get objectId =>
    obtain ⟨v, -, rfl⟩ := Option.map_eq_some_iff.1 hs
    exact h.poll _

theorem inv_of_reaches (h : Reaches step anyStep (State.init table) s) : Inv table s :=
  h.invariant .init fun _ _ _ hi _ hs => hi.step hs

/-! ## Which runs keep the promise -/

/-- What the history says of a run whose steps all meet `OneFreeNode`. -/
def OneFreeNodeLog (log : List Event) : Prop :=
  (∀ t id found jobs, .submitted t id found jobs ∈ log → found.countP (·.hasCore) = 1) ∧
    ∀ j, .returned j ∉ log

theorem OneFreeNodeLog.append_iff {log : List Event} {e : Event} :
    OneFreeNodeLog (log ++ [e]) ↔ OneFreeNodeLog log ∧ OneFreeNodeLog [e] := by
  simp only [OneFreeNodeLog, mem_log, List.mem_singleton, or_imp, forall_and, not_or]
  tauto

/-- A step keeps the history good exactly when it meets the condition. -/
theorem oneFreeNodeLog_step {a : Action} (hs : step a s = some s') :
    OneFreeNodeLog s'.log ↔ OneFreeNodeLog s.log ∧ OneFreeNode a s := by
  cases a with
  | submitTask funcName args =>
    cases hs
    refine OneFreeNodeLog.append_iff.trans (and_congr_right fun _ => ?_)
    simp only [OneFreeNodeLog, OneFreeNode, List.mem_singleton, Event.submitted.injEq]
    exact ⟨fun h => h.1 _ _ _ _ ⟨rfl, rfl, rfl, rfl⟩,
      fun h => ⟨fun _ _ _ _ he => he.2.2.1 ▸ h, by simp⟩⟩
  | complete k =>
    obtain ⟨j, -, rfl⟩ := Option.map_eq_some_iff.1 hs
    refine OneFreeNodeLog.append_iff.trans (and_congr_right fun _ => ?_)
    exact ⟨fun h => h.2 j (by simp), fun h => h.elim⟩
  | get objectId =>
    obtain ⟨v, -, rfl⟩ := Option.map_eq_some_iff.1 hs
    rw [State.poll]
    split
    · refine OneFreeNodeLog.append_iff.trans (and_congr_right fun _ => ?_)
      simp [OneFreeNodeLog, OneFreeNode]
    · simp [OneFreeNode]

theorem oneFreeNodeLog_of_reaches (h : Reaches step OneFreeNode (State.init table) s) :
    OneFreeNodeLog s.log :=
  h.invariant (I := fun s => OneFreeNodeLog s.log) (by simp [OneFreeNodeLog, State.init])
    fun _ _ _ hi hok hs => (oneFreeNodeLog_step hs).2 ⟨hi, hok⟩

theorem reaches_of_oneFreeNodeLog (h : Reaches step anyStep (State.init table) s)
    (hl : OneFreeNodeLog s.log) : Reaches step OneFreeNode (State.init table) s := by
  refine h.invariant (I := fun s => OneFreeNodeLog s.log → Reaches step OneFreeNode (.init table) s)
    (fun _ => .refl) ?_ hl
  intro a t t' hi _ hs hlog
  obtain ⟨hlog, hok⟩ := (oneFreeNodeLog_step hs).1 hlog
  exact (hi hlog).tail hok hs

/-- While no job has returned, no task is finished. -/
theorem Inv.status (h : Inv table s) (hn : ∀ j, .returned j ∉ s.log) : StatusSound s where
  finished t id found jobs _ hid := by
    obtain ⟨j, hj, -⟩ := h.finished id hid
    exact absurd hj (hn j)
  got := h.got

theorem Inv.accounting (h : Inv table s) (hl : OneFreeNodeLog s.log) : Accounting table s where
  posted t id found jobs he := by
    obtain ⟨-, -, hlen, hfree⟩ := h.submitted t id found jobs he
    rw [hl.1 t id found jobs he, List.length_eq_one_iff] at hlen
    obtain ⟨j, rfl⟩ := hlen
    exact ⟨j, rfl, hfree j (by simp)⟩
  coreNum i r₀ h0 := by
    have hlt : i < s.resources.length := by
      rw [h.length]
      exact (List.getElem?_eq_some_iff.1 h0).1
    have hret : s.returned i = 0 := by
      rw [State.returned, List.countP_eq_zero]
      rintro (_ | j | _) he
      · simp
      · exact absurd he (hl.2 j)
      · simp
    have hcore := h.coreNum i r₀ _ h0 (List.getElem?_eq_getElem hlt)
    exact ⟨_, List.getElem?_eq_getElem hlt, by omega⟩
  status := h.status hl.2

theorem Inv.log_of_accounting (h : Inv table s) (ha : Accounting table s) :
    OneFreeNodeLog s.log := by
  refine ⟨fun t id found jobs he => ?_, fun j hj => ?_⟩
  · obtain ⟨j, rfl, -⟩ := ha.posted t id found jobs he
    exact (h.submitted t id found [j] he).2.2.1.symm
  · -- the returned job's core was never given back
    obtain ⟨hnode, -, -⟩ := h.job j (.inr hj)
    have h0 := List.getElem?_eq_getElem hnode
    obtain ⟨r, hr, hcore⟩ := ha.coreNum j.node _ h0
    have hinv := h.coreNum j.node _ r h0 hr
    have hpos : 0 < s.returned j.node := by
      rw [State.returned, List.countP_pos_iff]
      exact ⟨_, hj, by simp⟩
    omega

/-- In a run of at most `2 ^ 64` submissions the statuses can be trusted, whatever was
dispatched. -/
theorem Inv.statusSound (h : Inv table s) (hn : s.submissions ≤ 2 ^ 64) : StatusSound s where
  finished t id found jobs he hid := by
    obtain ⟨j, hj, hj'⟩ := h.finished id hid
    obtain ⟨ht, rfl, -, -⟩ := h.submitted t id found jobs he
    obtain ⟨-, hlt, hjid⟩ := h.job j (.inr hj)
    refine ⟨j, hj, ?_⟩
    rw [hjid, Nat.mod_eq_of_lt (by omega), Nat.mod_eq_of_lt (by omega)] at hj'
    exact hj'
  got := h.got

/-- A state of a run is as promised exactly when a run whose every submission finds one node with
a free core, and in which no job returns, leads to it; the statuses alone can be trusted up to
`2 ^ 64` submissions. -/
theorem accounting_iff_of_reaches (h : Reaches step anyStep (State.init table) s) :
    (Accounting table s ↔ Reaches step OneFreeNode (State.init table) s) ∧
      (s.submissions ≤ 2 ^ 64 → StatusSound s) := by
  have hi := inv_of_reaches h
  refine ⟨⟨fun ha => reaches_of_oneFreeNodeLog h (hi.log_of_accounting ha), fun hr => ?_⟩,
    hi.statusSound⟩
  exact hi.accounting (oneFreeNodeLog_of_reaches hr)

/-- The table of `ConfigInternal`. -/
def localNode : List NodeResource := [⟨"127.0.0.1", 33068, 10⟩]

theorem accounting_localNode :
    Accounting localNode ((State.init localNode).submitTask "f" [⟨[1]⟩]) :=
  (accounting_iff_of_reaches (Reaches.refl.tail (a := .submitTask "f" [⟨[1]⟩]) trivial rfl)).1.2
    (Reaches.refl.tail (a := .submitTask "f" [⟨[1]⟩]) (by decide : localNode.countP _ = 1) rfl)

def twoNodes : List NodeResource := [⟨"10.0.0.1", 33068, 1⟩, ⟨"10.0.0.2", 33068, 1⟩]

/-- With two free nodes the first task is posted to both, the second time without its function
and arguments; the next task gets an id and no job. -/
theorem not_accounting_twoNodes :
    ∃ s, Reaches step anyStep (State.init twoNodes) s ∧ ¬ Accounting twoNodes s ∧
      s.log = [.submitted 0 0 twoNodes [⟨0, 0, ⟨0, "f", [⟨[1]⟩], "10.0.0.1", 33068⟩⟩,
          ⟨0, 1, ⟨0, "", [], "10.0.0.2", 33068⟩⟩],
        .submitted 1 1 [⟨"10.0.0.1", 33068, 0⟩, ⟨"10.0.0.2", 33068, 0⟩] []] := by
  refine ⟨((State.init twoNodes).submitTask "f" [⟨[1]⟩]).submitTask "g" [], ?_, fun ha => ?_, by
    decide⟩
  · exact (Reaches.refl.tail (a := .submitTask "f" [⟨[1]⟩]) trivial rfl).tail
      (a := .submitTask "g" []) trivial rfl
  · obtain ⟨j, hj, -⟩ := ha.posted 1 1 [⟨"10.0.0.1", 33068, 0⟩, ⟨"10.0.0.2", 33068, 0⟩] [] (by decide)
    cases hj

end HwGam.Mcs
