import HwGam.Slabs.Calloc
import HwGam.Wire.MemStats

/-!
# MALLOC

`Worker::ProcessLocalMalloc` and `Worker::ProcessRemoteMalloc` over the allocator, the records of the
other workers and `ghost_size`. Both handlers clear the chunk before they look at the pointer.
-/

namespace HwGam.Worker

open HwGam.Lib HwGam.Slabs HwGam.Wire

/-- The part of `Conf` that is read here. -/
structure Conf where
  wid : Wid
  size : Size
  /-- the integer part of the `double` `conf->size * conf->cache_th` -/
  cacheSize : Nat
  /-- the product is not an integer -/
  more : Bool := false
  /-- `cache_th` is 1 up to the epsilon of `double` -/
  cacheOnly : Bool := false
  ghostTh : Size
  deriving DecidableEq, Repr

inductive Status
  | success | allocError
  deriving DecidableEq, Repr

/-- A MALLOC request; the flags are REMOTE, RANDOM and ALIGNED. -/
structure Req where
  size : Size
  addr : BitVec 64 := 0
  remote : Bool := false
  random : Bool := false
  aligned : Bool := false
  status : Status := .success
  deriving DecidableEq, Repr

/-- A worker, as far as memory goes. -/
structure Node where
  conf : Conf
  /-- the start of the region -/
  base : Nat
  store : Store
  ghostSize : Size := 0
  /-- `cache.GetUsedBytes()` -/
  used : Size := 0
  /-- `widCliMap` -/
  clients : Clients
  /-- the keys of `widCliMapWorker`, as they are iterated -/
  workers : List Wid
  /-- the UPDATE_MEM_STATS sent to the master -/
  sent : List MemStat := []

namespace Node

variable (n : Node)

/-- `sb.get_avail()` -/
def getAvail : Size := BitVec.ofNat 64 n.store.heap.alloc.getAvail

/-- `IsLocal` -/
def IsLocal (addr : BitVec 64) : Prop := addr >>> 48 = n.conf.wid.signExtend 64

instance (addr : BitVec 64) : Decidable (n.IsLocal addr) :=
  inferInstanceAs (Decidable (addr >>> 48 = n.conf.wid.signExtend 64))

/-- `TO_GLOB` -/
def toGlob (ptr : Nat) : BitVec 64 :=
  BitVec.ofNat 64 ptr - BitVec.ofNat 64 n.base + (n.conf.wid.signExtend 64 <<< 48)

/-- What an UPDATE_MEM_STATS carries. -/
def report : MemStat :=
  let cacheSize := BitVec.ofNat 64 n.conf.cacheSize
  ⟨n.conf.size - cacheSize, n.getAvail - (cacheSize - n.used)⟩

/-- `SyncMaster()` -/
def syncMaster : Node :=
  if n.conf.cacheOnly then n else { n with sent := n.report :: n.sent, ghostSize := 0 }

/-- What follows a change of `ghost_size`. -/
def syncIfDue : Node := if n.ghostSize > n.conf.ghostTh then n.syncMaster else n

/-! ## Where the chunk is taken from -/

/-- The loop of `GetClient` over the workers: the most free memory so far, and who has it. -/
def mostFree : Option Wid :=
  (n.workers.foldl (fun best w =>
    match n.clients w with
    | none => best
    | some s =>
      if w = n.conf.wid then best
      else if best.1 < s.free then (s.free, some w) else best) ((0 : Size), none)).2

/-- `GetClient` -/
def getClient (addr : BitVec 64) : Option Wid :=
  if addr = 0 then n.mostFree
  else
    let wid := (addr >>> 48).setWidth 32
    (n.clients wid).map fun _ => wid

/-- The loop over random workers from round `i` on, with `k` rounds to go: this worker or a client,
or nothing if the rounds are over. -/
def randomFrom (size : Size) (rand : Nat → Nat) : Nat → Nat → Option (Option Wid)
  | 0, _ => none
  | k + 1, i => do
    let w ← n.workers[rand i % n.workers.length]?
    let s ← n.clients w
    if w = n.conf.wid then some none
    else if size ≤ s.free then some (some w)
    else randomFrom size rand k (i + 1)

/-- The client a request goes to before the memory of this worker is looked at. -/
def firstChoice (wr : Req) (rand : Nat → Nat) : Option Wid :=
  if wr.remote ∨ (wr.addr ≠ 0 ∧ ¬ n.IsLocal wr.addr) then n.getClient wr.addr
  else if wr.random then
    (n.randomFrom wr.size rand n.workers.length 0).getD (n.getClient wr.addr)
  else none

/-- `cache.GetUsedBytes() + sb.get_avail() < conf->size * conf->cache_th` -/
def Pressed : Prop :=
  (n.used + n.getAvail).toNat < n.conf.cacheSize ∨
    ((n.used + n.getAvail).toNat = n.conf.cacheSize ∧ n.conf.more)

instance : Decidable n.Pressed :=
  inferInstanceAs (Decidable ((n.used + n.getAvail).toNat < n.conf.cacheSize ∨
    ((n.used + n.getAvail).toNat = n.conf.cacheSize ∧ n.conf.more)))

inductive Target
  | here
  | client (w : Wid)
  /-- the null pointer, which is then locked -/
  | nobody
  deriving DecidableEq, Repr

def target (wr : Req) (rand : Nat → Nat) : Target :=
  match n.firstChoice wr rand with
  | some w => .client w
  | none =>
    if n.Pressed then
      match n.getClient 0 with
      | some w => .client w
      | none => .nobody
    else .here

/-! ## The handlers -/

/-- The call of the allocator, with the default block of `sb_aligned_malloc`. -/
def alloc (wr : Req) : Option Nat × SlabAllocator :=
  if wr.aligned then n.store.heap.alloc.sbAlignedMalloc wr.size 512
  else n.store.heap.alloc.sbMalloc wr.size

/-- The part the two handlers have in common. It has no value where it writes through the null
pointer; a `memset` of no bytes writes nothing. -/
def serve (wr : Req) : Option (Req × Node) :=
  let x := n.alloc wr
  -- the chunk is cleared
  let n := { n with store := (n.store.cleared wr.size wr.size x).2 }
  match x.1 with
  | some ptr =>
    some ({ wr with addr := n.toGlob ptr, status := .success },
      { n with ghostSize := n.ghostSize + wr.size }.syncIfDue)
  | none => if wr.size = 0 then some ({ wr with status := .allocError }, n) else none

/-- `ProcessRemoteMalloc`: the reply, and the worker after it. -/
def processRemoteMalloc (wr : Req) : Option (Req × Node) := n.serve wr

/-- `cli->SetMemStat(cli->GetTotalMem(), cli->GetFreeMem() - wr->size)` -/
def charge (w : Wid) (size : Size) : Node :=
  { n with
    clients := Function.update n.clients w
      ((n.clients w).map fun s => setMemStat ⟨s.size, s.free - size⟩) }

inductive Handled
  | crashed
  /-- sent to a client, and pending -/
  | remoteRequest (w : Wid) (n : Node)
  | success (wr : Req) (n : Node)

/-- `ProcessLocalMalloc` -/
def processLocalMalloc (wr : Req) (rand : Nat → Nat) : Handled :=
  match n.target wr rand with
  | .nobody => .crashed
  | .client w => .remoteRequest w (n.charge w wr.size)
  | .here =>
    match n.serve wr with
    | none => .crashed
    | some (wr, n) => .success wr n

/-- `ProcessRemoteMallocReply`: the pending request gets the reply. -/
def processRemoteMallocReply (pwr wr : Req) : Req :=
  { pwr with addr := wr.addr, status := wr.status }

/-- A MALLOC from the call to the answer: the request, this worker and the one that serves it, as
they are then. `there` are the other workers when the request arrives. -/
def malloc (there : Wid → Node) (wr : Req) (rand : Nat → Nat) : Option (Req × Node × Node) :=
  match n.processLocalMalloc wr rand with
  | .crashed => none
  | .success wr n => some (wr, n, n)
  | .remoteRequest w n => ((there w).processRemoteMalloc wr).map fun x =>
    (processRemoteMallocReply wr x.1, n, x.2)

/-! ## What is asked of a MALLOC -/

/-- The worker that serves the request. -/
def server (there : Wid → Node) (wr : Req) (rand : Nat → Nat) : Node :=
  match n.target wr rand with
  | .client w => there w
  | _ => n

/-- The allocator has no chunk for the request. -/
def Refuses (wr : Req) : Prop :=
  n.store.heap.alloc.Refuses (if wr.aligned then align wr.size 512 else wr.size)

/-- The free lists, `get_avail`, the memory and `ghost_size` are as they were. -/
def Same (n' : Node) : Prop := n'.store = n.store ∧ n'.ghostSize = n.ghostSize

/-- The `size` bytes at a global address are in the region. -/
def Inside (addr : BitVec 64) (size : Nat) : Prop :=
  ∃ ptr, addr = n.toGlob ptr ∧ n.base ≤ ptr ∧ ptr + size ≤ n.base + n.conf.size.toNat

/-- The requester gets ALLOC_ERROR and nothing has changed, or a chunk of the region. -/
def Reported (there : Wid → Node) (wr : Req) (rand : Nat → Nat) : Prop :=
  ∃ wr' n' t', n.malloc there wr rand = some (wr', n', t') ∧
    ((n.server there wr rand).Refuses wr →
      wr'.status = .allocError ∧ n.Same n' ∧ (n.server there wr rand).Same t') ∧
    (¬ (n.server there wr rand).Refuses wr →
      wr'.status = .success ∧ (n.server there wr rand).Inside wr'.addr wr.size.toNat)

/-- There is a worker to serve the request, and it has a chunk or is asked for no byte. -/
def Meets (there : Wid → Node) (wr : Req) (rand : Nat → Nat) : Prop :=
  n.target wr rand ≠ .nobody ∧ (wr.size = 0 ∨ ¬ (n.server there wr rand).Refuses wr)

/-- The allocator is that of a run over the region. -/
def Region : Prop := ∃ malloced s₀, slabsInit n.base n.conf.size.toNat malloced = some s₀ ∧
  Reaches Store.use Use.Fits { heap := { alloc := s₀ } } n.store

end Node

/-! ## The common part -/

section
variable {n : Node} {there : Wid → Node} {wr : Req} {rand : Nat → Nat}

theorem Node.Region.good (h : n.Region) : n.store.Good n.base n.conf.size.toNat := by
  obtain ⟨malloced, s₀, hinit, hr⟩ := h
  exact Store.good_of_uses hinit hr

theorem Node.alloc_eq (n : Node) (wr : Req) :
    n.alloc wr = n.store.heap.alloc.doSlabsAlloc
      (if wr.aligned then align wr.size 512 else wr.size).toNat
      (n.store.heap.alloc.slabsClsid (if wr.aligned then align wr.size 512 else wr.size).toNat) := by
  have hsize : wr.size + SlabAllocator.prefixSize = wr.size := BitVec.add_zero _
  unfold Node.alloc SlabAllocator.sbAlignedMalloc SlabAllocator.sbMalloc
  rw [hsize]
  split <;> rfl

theorem Node.refuses_iff : n.Refuses wr ↔ (n.alloc wr).1 = none := by
  rw [Node.alloc_eq]
  rfl

/-- An allocation that fails leaves the allocator as it is. -/
theorem Node.alloc_none {base limit : Nat} (hg : n.store.Good base limit) (href : n.Refuses wr) :
    n.alloc wr = (none, n.store.heap.alloc) := by
  rw [Node.refuses_iff] at href
  rw [Node.alloc_eq] at href ⊢
  rcases hg.alloc_clsid rfl with heq | ⟨q, hq, -⟩
  · exact heq
  · exact absurd (hq.symm.trans href) (Option.some_ne_none q)

/-- The heap after the allocation has the chunk inside the region. -/
theorem Node.Region.alloc_some {ptr : Nat} (h : n.Region) (hp : (n.alloc wr).1 = some ptr) :
    n.base ≤ ptr ∧ ptr + wr.size.toNat ≤ n.base + n.conf.size.toNat := by
  have hheap : Slabs.Good n.base n.conf.size.toNat (n.store.heap.hand wr.size (n.alloc wr)) := by
    unfold Node.alloc
    split
    · have htwo : (512 : Size) = BitVec.ofNat 64 (2 ^ 9) := rfl
      rw [htwo]
      exact h.good.1.step (fits_alignedMalloc_twoPow wr.size (by decide) _) rfl
    · exact h.good.1.step (c := .malloc wr.size) trivial rfl
  have hmem : (ptr, wr.size.toNat) ∈ (n.store.heap.hand wr.size (n.alloc wr)).live := by
    simp [Heap.hand, hp]
  have hin := hheap.safe.inside _ hmem
  have hlarge := hheap.safe.large _ hmem
  dsimp only at hin hlarge
  omega

theorem Node.serve_refused {base limit : Nat} (hg : n.store.Good base limit)
    (href : n.Refuses wr) :
    n.serve wr = if wr.size = 0 then some ({ wr with status := .allocError }, n) else none := by
  unfold Node.serve
  simp only [Node.alloc_none hg href, Store.cleared, Heap.hand, Option.map_none, Option.toList_none,
    List.nil_append]

theorem Node.serve_some {ptr : Nat} (hp : (n.alloc wr).1 = some ptr) :
    n.serve wr = some ({ wr with addr := n.toGlob ptr, status := .success },
      Node.syncIfDue { n with
        store := (n.store.cleared wr.size wr.size (n.alloc wr)).2
        ghostSize := n.ghostSize + wr.size }) := by
  unfold Node.serve
  simp only [hp]
  rfl

/-! ## MALLOC -/

theorem Node.charge_same (n : Node) (w : Wid) (size : Size) : n.Same (n.charge w size) := ⟨rfl, rfl⟩

/-- The common part writes through the null pointer, or gives the right answer. -/
theorem Node.Region.serve_cases (h : n.Region) (wr : Req) :
    (wr.size ≠ 0 ∧ n.Refuses wr ∧ n.serve wr = none) ∨
    ((wr.size = 0 ∨ ¬ n.Refuses wr) ∧ ∃ wr' n', n.serve wr = some (wr', n') ∧
      (n.Refuses wr → wr'.status = .allocError ∧ n.Same n') ∧
      (¬ n.Refuses wr → wr'.status = .success ∧ n.Inside wr'.addr wr.size.toNat)) := by
  by_cases href : n.Refuses wr
  · have hserve := Node.serve_refused h.good href
    by_cases hz : wr.size = 0
    · rw [if_pos hz] at hserve
      exact .inr ⟨.inl hz, _, _, hserve, fun _ => ⟨rfl, rfl, rfl⟩, fun hn => absurd href hn⟩
    · rw [if_neg hz] at hserve
      exact .inl ⟨hz, href, hserve⟩
  · obtain ⟨ptr, hp⟩ := Option.ne_none_iff_exists'.1 (mt Node.refuses_iff.2 href)
    obtain ⟨hle, hlt⟩ := h.alloc_some hp
    exact .inr ⟨.inr href, _, _, Node.serve_some hp, fun hr => absurd hr href,
      fun _ => ⟨rfl, ptr, rfl, hle, hlt⟩⟩

end

/-! ## A worker of 256MB -/

/-- A worker that has just started, alone. -/
def Node.start (s₀ : SlabAllocator) : Node where
  conf := { wid := 1, size := BitVec.ofNat 64 (2 ^ 28), cacheSize := 2 ^ 25, ghostTh := 1048576 }
  base := 4096
  store := { heap := { alloc := s₀ } }
  clients := fun _ => none
  workers := []

theorem exists_start : ∃ s₀, slabsInit 4096 (2 ^ 28) 0 = some s₀ ∧ (Node.start s₀).Region ∧
    ∀ wr rand, wr.remote = false → wr.addr = 0 → (Node.start s₀).target wr rand = .here := by
  obtain ⟨s₀, hinit⟩ : ∃ s₀, slabsInit 4096 (2 ^ 28) 0 = some s₀ :=
    exists_slabsInit (by decide) (by decide +kernel)
  refine ⟨s₀, hinit, ⟨0, s₀, hinit, .refl⟩, fun wr rand hremote haddr => ?_⟩
  have havail : (Node.start s₀).getAvail = BitVec.ofNat 64 (2 ^ 28) := by
    have hsum := (slabsInit_spec hinit).1.2.sum
    dsimp only [Node.getAvail, Node.start, SlabAllocator.getAvail]
    rw [← hsum]
    rfl
  have hpressed : ¬ (Node.start s₀).Pressed := by
    have hused : (Node.start s₀).used = 0 := rfl
    have hconf : (Node.start s₀).conf.cacheSize = 2 ^ 25 := rfl
    have hmore : (Node.start s₀).conf.more = false := rfl
    unfold Node.Pressed
    rw [havail, hused, hconf, hmore]
    decide
  have hchoice : (Node.start s₀).firstChoice wr rand = none := by
    unfold Node.firstChoice
    rw [hremote, haddr]
    simp [Node.randomFrom, Node.getClient, Node.mostFree, Node.start]
  rw [Node.target, hchoice, if_neg hpressed]

end HwGam.Worker
