import HwGam.Worker.Malloc

/-!
# Memory statistics of a worker

`ghost_size`, the free memory an UPDATE_MEM_STATS reports and the free memory recorded for the other
workers, over runs of allocations, frees, cache fills and `SyncMaster`. All three are unsigned; the
integers they stand for are kept beside them.
-/

namespace HwGam.Worker

open HwGam.Lib HwGam.Slabs HwGam.Wire

namespace Node

variable (n : Node)

/-- FREE of a chunk of this worker, asked for here or by another worker. -/
def free (ptr : Nat) : Option Node :=
  (n.store.use (.free ptr)).map fun store => Node.syncIfDue { n with
    store
    ghostSize := n.ghostSize - BitVec.ofNat 64 (n.store.heap.alloc.asked ptr) }

/-- `Cache::SetCLine`: a block for a new line. -/
def fill : Node :=
  { n with store := (n.store.alignedCalloc 1 512 512).2, used := n.used + 512 }

/-- `Cache::ToInvalid`: the block of a line comes back. -/
def drop (ptr : Nat) : Option Node :=
  (n.store.use (.free ptr)).map fun store => { n with store, used := n.used - 512 }

/-- A new client; nothing is recorded for it. -/
def connect (w : Wid) : Node := { n with clients := Function.update n.clients w (some ⟨0, 0⟩) }

/-- `ProcessRemoteMemStat` for one worker. -/
def memStat (w : Wid) (s : MemStat) : Node :=
  { n with
    clients := Function.update n.clients w (some (setMemStat s))
    workers := if n.workers.contains w then n.workers else n.workers ++ [w] }

end Node

/-- A worker, and what its counters stand for. -/
structure Tracked where
  node : Node
  /-- the chunks that MALLOC handed out, with the sizes asked for -/
  users : List (Nat × Nat) := []
  /-- the blocks of the cache lines -/
  lines : List Nat := []
  /-- what was allocated less what was freed since the last report -/
  net : Int := 0
  /-- the free memory last heard of, less what was asked for since -/
  credit : Wid → Int := fun _ => 0

inductive Event
  | malloc (wr : Req) (rand : Nat → Nat)
  | remoteMalloc (wr : Req)
  | free (ptr : Nat)
  | fill
  | drop (ptr : Nat)
  | sync
  | connect (w : Wid)
  | memStat (w : Wid) (s : MemStat)

namespace Tracked

variable (t : Tracked)

/-- The count since the last report, which may just have been sent. -/
def netAfter (n : Node) (change : Int) : Int :=
  if n.sent.length = t.node.sent.length then t.net + change else 0

def hand (wr : Req) (n : Node) : Tracked :=
  match (t.node.alloc wr).1 with
  | none => { t with node := n }
  | some ptr =>
    { t with
      node := n
      users := (ptr, wr.size.toNat) :: t.users
      net := t.netAfter n wr.size.toNat }

/-- The size a chunk was asked for with. -/
def requested (ptr : Nat) : Nat := ((t.users.find? fun x => x.1 = ptr).map Prod.snd).getD 0

/-- FREE is called with a chunk that MALLOC handed out. -/
def step (e : Event) (t : Tracked) : Option Tracked :=
  match e with
  | .malloc wr rand =>
    match t.node.processLocalMalloc wr rand with
    | .crashed => none
    | .remoteRequest w n => some { t with
        node := n
        credit := Function.update t.credit w (t.credit w - wr.size.toNat) }
    | .success _ n => some (t.hand wr n)
  | .remoteMalloc wr => (t.node.processRemoteMalloc wr).map fun x => t.hand wr x.2
  | .free ptr =>
    if ptr ∈ t.users.map Prod.fst then
      (t.node.free ptr).map fun n => { t with
        node := n
        users := t.users.filter fun x => x.1 ≠ ptr
        net := t.netAfter n (- t.requested ptr) }
    else none
  | .fill => some { t with
      node := t.node.fill
      lines := (t.node.store.alignedCalloc 1 512 512).1.toList ++ t.lines }
  | .drop ptr =>
    if ptr ∈ t.lines then
      (t.node.drop ptr).map fun n => { t with node := n, lines := t.lines.erase ptr }
    else none
  | .sync => some { t with node := t.node.syncMaster, net := t.netAfter t.node.syncMaster 0 }
  | .connect w => some { t with
      node := t.node.connect w
      credit := Function.update t.credit w 0 }
  | .memStat w s =>
    if (t.node.clients w).isSome then some { t with
        node := t.node.memStat w s
        credit := Function.update t.credit w s.free.toNat }
    else none

/-- A worker that starts. -/
def start (conf : Conf) (base : Nat) (s₀ : SlabAllocator) : Tracked where
  node := { conf, base, store := { heap := { alloc := s₀ } }, clients := fun _ => none, workers := [] }

/-- The counters are the integers they stand for. -/
structure Faithful : Prop where
  ghost : (t.node.ghostSize.toNat : Int) = t.net
  /-- the cache has not more than its reserve -/
  reserved : t.node.used.toNat ≤ t.node.conf.cacheSize
  total : (t.node.report.size.toNat : Int) = t.node.conf.size.toNat - t.node.conf.cacheSize
  free : (t.node.report.free.toNat : Int) =
    t.node.store.heap.alloc.getAvail - (t.node.conf.cacheSize - t.node.used.toNat)
  record : ∀ w, ∀ s ∈ t.node.clients w, (s.free.toNat : Int) = t.credit w

end Tracked

/-- The chunk for the request leaves the cache its reserve. -/
def Node.Spares (n : Node) (wr : Req) : Prop :=
  ¬ n.Refuses wr → n.conf.cacheSize + (n.store.heap.alloc.slabclass
      (n.store.heap.alloc.slabsClsid (if wr.aligned then align wr.size 512 else wr.size).toNat)).size ≤
    n.store.heap.alloc.getAvail + n.used.toNat

/-- The conditions of a run. -/
def Event.Fits (e : Event) (t : Tracked) : Prop :=
  match e with
  | .malloc wr rand =>
    match t.node.target wr rand with
    | .here => t.node.Spares wr
    | .client w => ∀ s ∈ t.node.clients w, wr.size ≤ s.free
    | .nobody => True
  | .remoteMalloc wr => t.node.Spares wr
  | .free ptr => Call.Fits (.free ptr) t.node.store.heap ∧
    t.node.store.heap.alloc.asked ptr = t.requested ptr ∧
    t.requested ptr ≤ t.node.ghostSize.toNat
  | .fill => ¬ t.node.store.heap.alloc.Refuses 512 ∧ t.node.used.toNat + 512 ≤ t.node.conf.cacheSize
  | .drop ptr => Call.Fits (.free ptr) t.node.store.heap
  | .memStat _ s => s.free.toNat < 2 ^ 31
  | .sync => True
  | .connect _ => True

/-! ## The chunks -/

/-- The chunks handed out are those of the users and those of the cache lines. -/
structure Chunks (base limit : Nat) (st : Store) (users : List (Nat × Nat)) (lines : List Nat) :
    Prop where
  good : st.Good base limit
  live : st.heap.live.Perm (users ++ lines.map fun p => (p, 512))
  block : ∀ p ∈ lines, (initClass (st.heap.alloc.clsid p)).size = 512

section
variable {base limit : Nat} {st st' : Store} {users : List (Nat × Nat)} {lines : List Nat}
  {p m : Nat} {x : Option Nat × SlabAllocator}

theorem Chunks.nodup (h : Chunks base limit st users lines) :
    (users.map Prod.fst).Nodup ∧ lines.Nodup ∧ (users.map Prod.fst).Disjoint lines := by
  have hnd := (h.live.map Prod.fst).nodup_iff.1 h.good.1.2.nodup
  have hfst : Prod.fst ∘ (fun p : Nat => (p, 512)) = id := rfl
  rw [List.map_append, List.map_map, hfst, List.map_id] at hnd
  exact List.nodup_append'.1 hnd

/-- What is free, what the lines have and what the users asked for is in the region. -/
theorem Chunks.bound (h : Chunks base limit st users lines) :
    st.heap.alloc.memFree + 512 * lines.length + (users.map Prod.snd).sum ≤ limit := by
  have hsum := h.good.1.2.sum
  rw [(h.live.map _).sum_eq, List.map_append, List.sum_append, List.map_map] at hsum
  have hlines : (lines.map ((fun x : Nat × Nat => (initClass (st.heap.alloc.clsid x.1)).size) ∘
      fun p => (p, 512))).sum = 512 * lines.length := by
    have hconst : lines.map ((fun x : Nat × Nat => (initClass (st.heap.alloc.clsid x.1)).size) ∘
        fun p => (p, 512)) = lines.map fun _ => 512 :=
      List.map_congr_left fun p hp => h.block p hp
    rw [hconst, List.map_const', List.sum_replicate, smul_eq_mul, Nat.mul_comm]
  have husers : (users.map Prod.snd).sum ≤
      (users.map fun x => (initClass (st.heap.alloc.clsid x.1)).size).sum := by
    refine List.sum_le_sum fun x hx => h.good.1.2.large x ?_
    exact h.live.mem_iff.2 (List.mem_append_left _ hx)
  omega

/-- A chunk is handed out, to a user or for a line. -/
theorem Chunks.alloc (size : Size) (h : Chunks base limit st users lines)
    (hx : st.heap.alloc.doSlabsAlloc m (st.heap.alloc.slabsClsid m) = x) (hp : x.1 = some p) :
    (st.cleared size size x).2.heap.live.Perm
        ((p, size.toNat) :: (users ++ lines.map fun p => (p, 512))) ∧
      (∀ q ∈ lines, (initClass (x.2.clsid q)).size = 512) ∧
      x.2.clsid p = st.heap.alloc.slabsClsid m ∧
      x.2.memFree + (initClass (st.heap.alloc.slabsClsid m)).size = st.heap.alloc.memFree := by
  rcases h.good.alloc_clsid hx with rfl | ⟨q, hq, -, hcls, -, -, hfree, -⟩
  · cases hp
  · obtain rfl : q = p := Option.some.inj (hq.symm.trans hp)
    refine ⟨?_, fun r hr => ?_, by rw [hcls, Function.update_self], hfree⟩
    · simpa [Store.cleared, Heap.hand, hp] using h.live
    · have hlive : st.heap.alloc.clsid r ≠ 0 := by
        refine (h.good.1.2.mem r).1 ((h.live.map Prod.fst).mem_iff.2 ?_)
        simp [hr]
      rw [h.good.alloc_kept hx hlive]
      exact h.block r hr

/-- A chunk comes back. -/
theorem Chunks.back (h : Chunks base limit st users lines) (hlive : p ∈ st.heap.live.map Prod.fst)
    (hfit : Call.Fits (.free p) st.heap) (hs : st.use (.free p) = some st') :
    st'.heap.live.Perm ((users ++ lines.map fun p => (p, 512)).filter fun x => x.1 ≠ p) ∧
      (∀ q ∈ lines, q ≠ p → (initClass (st'.heap.alloc.clsid q)).size = 512) ∧
      st'.heap.alloc.memFree = st.heap.alloc.memFree +
        (initClass (st.heap.alloc.clsid p)).size := by
  obtain ⟨t, ht, rfl⟩ := Option.map_eq_some_iff.1 hs
  obtain ⟨h', hstep, rfl⟩ := Option.map_eq_some_iff.1 ht
  obtain ⟨s', hfree, rfl⟩ := Option.map_eq_some_iff.1 hstep
  have hne := (h.good.1.2.mem p).1 hlive
  obtain ⟨⟨⟨pages, fl, hi⟩, -⟩, -⟩ := h.good
  obtain ⟨-, hcls, hf⟩ := hi.sbFree_live hne (hfit hne) hfree
  refine ⟨h.live.filter _, fun q hq hqp => ?_, hf⟩
  dsimp only
  rw [hcls, Function.update_of_ne hqp]
  exact h.block q hq

/-- The chunk of a request is taken as by a call for one zeroed element. -/
theorem Node.exists_use (n : Node) (wr : Req) : ∃ u : Use, u.Fits n.store ∧
    n.store.use u = some (n.store.cleared wr.size wr.size (n.alloc wr)).2 := by
  have hone : 1 * wr.size = wr.size := BitVec.one_mul _
  cases haligned : wr.aligned with
  | true =>
    refine ⟨.alignedCalloc 1 wr.size 512, ?_, ?_⟩
    · exact fits_alignedMalloc_twoPow (1 * wr.size) (k := 9) (by decide) _
    · simp only [Store.use, Store.alignedCalloc, Node.alloc, haligned, hone, if_true]
  | false =>
    refine ⟨.calloc 1 wr.size, trivial, ?_⟩
    simp [Store.use, Store.calloc, Node.alloc, haligned]

/-- MALLOC takes a chunk. -/
theorem Chunks.serve {n : Node} {wr : Req} (h : Chunks base limit n.store users lines)
    (hbase : base ≠ 0) (hp : (n.alloc wr).1 = some p) :
    Chunks base limit (n.store.cleared wr.size wr.size (n.alloc wr)).2
        ((p, wr.size.toNat) :: users) lines ∧
      (n.alloc wr).2.memFree + (n.store.heap.alloc.slabclass (n.store.heap.alloc.slabsClsid
        (if wr.aligned then align wr.size 512 else wr.size).toNat)).size =
          n.store.heap.alloc.memFree := by
  obtain ⟨u, hfit, hu⟩ := n.exists_use wr
  obtain ⟨hlive, hblock, -, hfree⟩ := h.alloc wr.size (n.alloc_eq wr).symm hp
  refine ⟨⟨h.good.use hbase hfit hu, hlive, hblock⟩, ?_⟩
  obtain ⟨⟨⟨pages, fl, hi⟩, -⟩, -⟩ := h.good
  rwa [hi.size]

/-- The cache takes a block, if there is one. -/
theorem Chunks.fill (h : Chunks base limit st users lines) (hbase : base ≠ 0)
    (hsat : ¬ st.heap.alloc.Refuses 512) :
    ∃ q, (st.alignedCalloc 1 512 512).1 = some q ∧
      Chunks base limit (st.alignedCalloc 1 512 512).2 users (q :: lines) ∧
      (st.alignedCalloc 1 512 512).2.heap.alloc.memFree + 512 = st.heap.alloc.memFree := by
  obtain ⟨⟨⟨pages, fl, hi⟩, -⟩, -⟩ := h.good
  have hclass : (initClass (st.heap.alloc.slabsClsid 512)).size = 512 := by
    have hempty : (SlabAllocator.empty base limit 0).slabsClsid 512 =
        (SlabAllocator.empty 0 0 0).slabsClsid 512 := rfl
    rw [hi.slabsClsid_eq 0, hempty]
    decide +kernel
  have hx : st.heap.alloc.doSlabsAlloc 512 (st.heap.alloc.slabsClsid 512) =
      st.heap.alloc.sbAlignedMalloc (1 * 512) 512 := rfl
  obtain ⟨q, hq⟩ := Option.ne_none_iff_exists'.1 hsat
  obtain ⟨hlive, hblock, hcls, hfree⟩ := h.alloc 512 hx (hx ▸ hq)
  rw [hclass] at hfree
  refine ⟨q, hq, ⟨?_, ?_, ?_⟩, hfree⟩
  · refine h.good.use hbase (u := .alignedCalloc 1 512 512) ?_ rfl
    exact fits_alignedMalloc_twoPow (1 * 512) (k := 9) (by decide) _
  · exact hlive.trans List.perm_middle.symm
  · intro p hp
    rcases List.mem_cons.1 hp with rfl | hp
    · exact (congrArg (fun c => (initClass c).size) hcls).trans hclass
    · exact hblock p hp

/-- A user gives a chunk back. -/
theorem Chunks.free (h : Chunks base limit st users lines) (hbase : base ≠ 0)
    (hp : p ∈ users.map Prod.fst) (hfit : Call.Fits (.free p) st.heap)
    (hs : st.use (.free p) = some st') :
    Chunks base limit st' (users.filter fun x => x.1 ≠ p) lines ∧
      st.heap.alloc.memFree ≤ st'.heap.alloc.memFree := by
  have hlines : p ∉ lines := fun hl => h.nodup.2.2 hp hl
  have hmem : p ∈ st.heap.live.map Prod.fst := by
    refine (h.live.map Prod.fst).mem_iff.2 ?_
    rw [List.map_append]
    exact List.mem_append_left _ hp
  obtain ⟨hlive, hblock, hfree⟩ := h.back hmem hfit hs
  refine ⟨⟨h.good.use hbase (u := .free p) hfit hs, ?_, fun q hq => hblock q hq ?_⟩, by omega⟩
  · have hkeep : (lines.map fun p => (p, 512)).filter (fun x => x.1 ≠ p) =
        lines.map fun p => (p, 512) := by
      refine List.filter_eq_self.2 fun x hx => ?_
      obtain ⟨q, hq, rfl⟩ := List.mem_map.1 hx
      have : q ≠ p := by
        rintro rfl
        exact hlines hq
      simpa using this
    rwa [List.filter_append, hkeep] at hlive
  · rintro rfl
    exact hlines hq

/-- The cache gives a block back. -/
theorem Chunks.drop (h : Chunks base limit st users lines) (hbase : base ≠ 0) (hp : p ∈ lines)
    (hfit : Call.Fits (.free p) st.heap) (hs : st.use (.free p) = some st') :
    Chunks base limit st' users (lines.erase p) ∧
      st'.heap.alloc.memFree = st.heap.alloc.memFree + 512 := by
  have hmem : p ∈ st.heap.live.map Prod.fst := by
    refine (h.live.map Prod.fst).mem_iff.2 ?_
    simp [hp]
  obtain ⟨hlive, hblock, hfree⟩ := h.back hmem hfit hs
  rw [h.block p hp] at hfree
  obtain ⟨-, hnd, hdis⟩ := h.nodup
  refine ⟨⟨h.good.use hbase (u := .free p) hfit hs, ?_, fun q hq => ?_⟩, hfree⟩
  · have husers : users.filter (fun x => x.1 ≠ p) = users := by
      refine List.filter_eq_self.2 fun x hx => ?_
      have : x.1 ≠ p := by
        rintro rfl
        exact hdis (List.mem_map_of_mem hx) hp
      simpa using this
    have hlines : (lines.map fun p => (p, 512)).filter (fun x => x.1 ≠ p) =
        (lines.erase p).map fun p => (p, 512) := by
      rw [hnd.erase_eq_filter, List.filter_map]
      congr 1
      refine List.filter_congr fun q _ => ?_
      by_cases hq : q = p <;> simp [hq]
    rwa [List.filter_append, husers, hlines] at hlive
  · obtain ⟨hne, hq⟩ := hnd.mem_erase_iff.1 hq
    exact hblock q hq hne

end

/-! ## The invariant -/

/-- The invariant of a run. -/
structure Tracked.Inv (base : Nat) (conf : Conf) (t : Tracked) : Prop where
  conf_eq : t.node.conf = conf
  chunks : Chunks base conf.size.toNat t.node.store t.users t.lines
  used : t.node.used.toNat = 512 * t.lines.length
  ghost : (t.node.ghostSize.toNat : Int) = t.net
  /-- what counts is still in use -/
  low : t.node.ghostSize.toNat ≤ (t.users.map Prod.snd).sum
  reserved : t.node.used.toNat ≤ conf.cacheSize
  room : conf.cacheSize ≤ t.node.store.heap.alloc.memFree + t.node.used.toNat
  record : ∀ w, ∀ s ∈ t.node.clients w, (s.free.toNat : Int) = t.credit w ∧ s.free.toNat < 2 ^ 31

section
variable {base : Nat} {conf : Conf} {t t' : Tracked} {n : Node} {wr wr' : Req}

theorem toNat_ofNat_of_lt {x : Nat} (h : x < 2 ^ 64) : (BitVec.ofNat 64 x).toNat = x := by
  rw [BitVec.toNat_ofNat, Nat.mod_eq_of_lt h]

theorem Tracked.Inv.faithful (h : t.Inv base conf) (hth : conf.cacheSize < conf.size.toNat) :
    t.Faithful := by
  obtain ⟨rfl, hchunks, -, hghost, -, hreserved, hroom, hrecord⟩ := h
  have hbound := hchunks.bound
  have hlt := t.node.conf.size.isLt
  have hcache := toNat_ofNat_of_lt (x := t.node.conf.cacheSize) (by omega)
  have havail : t.node.getAvail.toNat = t.node.store.heap.alloc.memFree :=
    toNat_ofNat_of_lt (by dsimp only [SlabAllocator.getAvail]; omega)
  have hinner : (BitVec.ofNat 64 t.node.conf.cacheSize - t.node.used).toNat =
      t.node.conf.cacheSize - t.node.used.toNat := by
    rw [BitVec.toNat_sub_of_le (by rw [BitVec.le_def, hcache]; exact hreserved), hcache]
  have hfree : t.node.report.free.toNat =
      t.node.store.heap.alloc.memFree - (t.node.conf.cacheSize - t.node.used.toNat) := by
    dsimp only [Node.report]
    rw [BitVec.toNat_sub_of_le (by rw [BitVec.le_def, havail, hinner]; omega), havail, hinner]
  have htotal : t.node.report.size.toNat = t.node.conf.size.toNat - t.node.conf.cacheSize := by
    dsimp only [Node.report]
    rw [BitVec.toNat_sub_of_le (by rw [BitVec.le_def, hcache]; omega), hcache]
  constructor
  case ghost => exact hghost
  case reserved => exact hreserved
  case total =>
    rw [htotal]
    omega
  case free =>
    rw [hfree]
    dsimp only [SlabAllocator.getAvail]
    omega
  case record => exact fun w s hs => (hrecord w s hs).1

theorem Node.syncMaster_cases (n : Node) : n.syncMaster = n ∨
    n.syncMaster = { n with sent := n.report :: n.sent, ghostSize := 0 } := by
  unfold Node.syncMaster
  split
  · exact .inl rfl
  · exact .inr rfl

theorem Node.syncIfDue_cases (n : Node) : n.syncIfDue = n ∨
    n.syncIfDue = { n with sent := n.report :: n.sent, ghostSize := 0 } := by
  unfold Node.syncIfDue
  split
  · exact n.syncMaster_cases
  · exact .inl rfl

/-- The counts start again after a report. -/
theorem Tracked.Inv.settle (h : t.Inv base conf)
    (hn : n = t.node ∨ n = { t.node with sent := t.node.report :: t.node.sent, ghostSize := 0 }) :
    Tracked.Inv base conf { t with node := n, net := t.netAfter n 0 } := by
  rcases hn with rfl | rfl
  · have hnet : t.netAfter t.node 0 = t.net := by simp [Tracked.netAfter]
    rwa [hnet]
  · have hnet : t.netAfter { t.node with
        sent := t.node.report :: t.node.sent, ghostSize := 0 } 0 = 0 := by
      simp [Tracked.netAfter]
    rw [hnet]
    exact { h with ghost := rfl, low := Nat.zero_le _ }

/-! ## The steps -/

theorem Tracked.Inv.hand (h : t.Inv base conf) (hbase : base ≠ 0) (hspare : t.node.Spares wr)
    (hs : t.node.serve wr = some (wr', n)) : (t.hand wr n).Inv base conf := by
  cases hp : (t.node.alloc wr).1 with
  | none =>
    rw [Node.serve_refused h.chunks.good (Node.refuses_iff.2 hp)] at hs
    obtain ⟨-, hs⟩ := (Option.ite_none_right_eq_some).1 hs
    obtain rfl := congrArg Prod.snd (Option.some.inj hs)
    simpa only [Tracked.hand, hp] using h
  | some p =>
    have hsat : ¬ t.node.Refuses wr := by simp [Node.refuses_iff, hp]
    obtain ⟨hchunks, hfree⟩ := h.chunks.serve hbase hp
    have hspare := hspare hsat
    rw [h.conf_eq] at hspare
    -- before the report
    have hmid : Tracked.Inv base conf { t with
        node := { t.node with
          store := (t.node.store.cleared wr.size wr.size (t.node.alloc wr)).2
          ghostSize := t.node.ghostSize + wr.size }
        users := (p, wr.size.toNat) :: t.users
        net := t.net + wr.size.toNat } := by
      have hbound := hchunks.bound
      have hlow := h.low
      have hlt := conf.size.isLt
      simp only [List.map_cons, List.sum_cons] at hbound
      have hadd : (t.node.ghostSize + wr.size).toNat = t.node.ghostSize.toNat + wr.size.toNat := by
        rw [BitVec.toNat_add, Nat.mod_eq_of_lt (by omega)]
      constructor
      case conf_eq => exact h.conf_eq
      case chunks => exact hchunks
      case used => exact h.used
      case ghost =>
        have := h.ghost
        dsimp only
        omega
      case low =>
        simp only [List.map_cons, List.sum_cons]
        omega
      case reserved => exact h.reserved
      case room =>
        dsimp only [SlabAllocator.getAvail, Store.cleared, Heap.hand] at hspare ⊢
        omega
      case record => exact h.record
    rw [Node.serve_some hp] at hs
    obtain rfl := congrArg Prod.snd (Option.some.inj hs)
    have hsettled := hmid.settle (Node.syncIfDue_cases _)
    simpa only [Tracked.hand, hp, Tracked.netAfter, add_zero] using hsettled

/-- The size asked for is found among the users' chunks. -/
theorem Tracked.requested_mem {p : Nat} (hp : p ∈ t.users.map Prod.fst) :
    (p, t.requested p) ∈ t.users := by
  obtain ⟨x, hx, rfl⟩ := List.mem_map.1 hp
  have hsome : (t.users.find? fun y => y.1 = x.1).isSome := by
    rw [List.find?_isSome]
    exact ⟨x, hx, by simp⟩
  obtain ⟨y, hy⟩ := Option.isSome_iff_exists.1 hsome
  have hfst : y.1 = x.1 := by simpa using List.find?_some hy
  have hmem := List.mem_of_find?_eq_some hy
  rw [Tracked.requested, hy, ← hfst]
  exact hmem

theorem Tracked.Inv.free {p : Nat} (h : t.Inv base conf) (hbase : base ≠ 0)
    (hfit : Event.Fits (.free p) t) (hs : t.step (.free p) = some t') : t'.Inv base conf := by
  obtain ⟨hcall, hasked, hle⟩ := hfit
  obtain ⟨hp, hs⟩ := (Option.ite_none_right_eq_some).1 hs
  obtain ⟨n, hn, rfl⟩ := Option.map_eq_some_iff.1 hs
  obtain ⟨store, huse, rfl⟩ := Option.map_eq_some_iff.1 hn
  obtain ⟨hchunks, hfree⟩ := h.chunks.free hbase hp hcall huse
  -- before the report
  have hmid : Tracked.Inv base conf { t with
      node := { t.node with
        store
        ghostSize := t.node.ghostSize - BitVec.ofNat 64 (t.node.store.heap.alloc.asked p) }
      users := t.users.filter fun x => x.1 ≠ p
      net := t.net + - t.requested p } := by
    have hlt := t.node.ghostSize.isLt
    have hsize := toNat_ofNat_of_lt (x := t.requested p) (by omega)
    have hsub : (t.node.ghostSize - BitVec.ofNat 64 (t.node.store.heap.alloc.asked p)).toNat =
        t.node.ghostSize.toNat - t.requested p := by
      rw [hasked, BitVec.toNat_sub_of_le (by rw [BitVec.le_def, hsize]; exact hle), hsize]
    have hperm := perm_cons_filter h.chunks.nodup.1 (Tracked.requested_mem hp)
    constructor
    case conf_eq => exact h.conf_eq
    case chunks => exact hchunks
    case used => exact h.used
    case ghost =>
      have := h.ghost
      dsimp only
      omega
    case low =>
      have hlow := h.low
      rw [(hperm.map Prod.snd).sum_eq, List.map_cons, List.sum_cons] at hlow
      dsimp only at hlow ⊢
      omega
    case reserved => exact h.reserved
    case room =>
      have := h.room
      dsimp only
      omega
    case record => exact h.record
  have hsettled := hmid.settle (Node.syncIfDue_cases _)
  simpa only [Tracked.netAfter, add_zero] using hsettled

theorem Tracked.Inv.fill (h : t.Inv base conf) (hbase : base ≠ 0)
    (hfit : Event.Fits .fill t) (hs : t.step .fill = some t') : t'.Inv base conf := by
  obtain rfl := Option.some.inj hs
  obtain ⟨q, hq, hchunks, hfree⟩ := h.chunks.fill hbase hfit.1
  have hcache := hfit.2
  rw [h.conf_eq] at hcache
  have hroom := h.room
  have hbound := h.chunks.bound
  have hlt := conf.size.isLt
  have hused := h.used
  have hadd : (t.node.used + 512).toNat = t.node.used.toNat + 512 := by
    have h512 : (512 : Size).toNat = 512 := rfl
    rw [BitVec.toNat_add, h512, Nat.mod_eq_of_lt (by omega)]
  rw [hq, Option.toList_some, List.singleton_append]
  constructor
  case conf_eq => exact h.conf_eq
  case chunks => exact hchunks
  case used =>
    dsimp only [Node.fill]
    rw [hadd, List.length_cons]
    omega
  case ghost => exact h.ghost
  case low => exact h.low
  case reserved =>
    dsimp only [Node.fill]
    omega
  case room =>
    dsimp only [Node.fill]
    omega
  case record => exact h.record

theorem Tracked.Inv.drop {p : Nat} (h : t.Inv base conf) (hbase : base ≠ 0)
    (hfit : Event.Fits (.drop p) t) (hs : t.step (.drop p) = some t') : t'.Inv base conf := by
  obtain ⟨hp, hs⟩ := (Option.ite_none_right_eq_some).1 hs
  obtain ⟨n, hn, rfl⟩ := Option.map_eq_some_iff.1 hs
  obtain ⟨store, huse, rfl⟩ := Option.map_eq_some_iff.1 hn
  obtain ⟨hchunks, hfree⟩ := h.chunks.drop hbase hp hfit huse
  have hlen := List.length_erase_of_mem hp
  have hpos := List.length_pos_of_mem hp
  have hused := h.used
  have hroom := h.room
  have hsub : (t.node.used - 512).toNat = t.node.used.toNat - 512 := by
    have h512 : (512 : Size).toNat = 512 := rfl
    rw [BitVec.toNat_sub_of_le (by rw [BitVec.le_def, h512]; omega), h512]
  constructor
  case conf_eq => exact h.conf_eq
  case chunks => exact hchunks
  case used =>
    dsimp only
    rw [hsub, hlen]
    omega
  case ghost => exact h.ghost
  case low => exact h.low
  case reserved =>
    have := h.reserved
    dsimp only
    omega
  case room =>
    dsimp only
    omega
  case record => exact h.record

theorem narrow_of_lt {x : BitVec 64} (h : x.toNat < 2 ^ 31) : narrow x = x := by
  apply BitVec.eq_of_toNat_eq
  have hmsb : (x.setWidth 32).msb = false := by
    rw [BitVec.msb_eq_decide, BitVec.toNat_setWidth, Nat.mod_eq_of_lt (by omega)]
    simp only [decide_eq_false_iff_not]
    omega
  rw [narrow, BitVec.toNat_signExtend, hmsb, BitVec.toNat_setWidth, BitVec.toNat_setWidth]
  simp only [Bool.false_eq_true, if_false]
  omega

/-- A record changes to what is known of the worker now. -/
theorem Tracked.Inv.recorded {w : Wid} {s : Option MemStat} {c : Int} (h : t.Inv base conf)
    (hn : n.conf = t.node.conf ∧ n.store = t.node.store ∧ n.used = t.node.used ∧
      n.ghostSize = t.node.ghostSize ∧ n.clients = Function.update t.node.clients w s)
    (hs : ∀ x ∈ s, (x.free.toNat : Int) = c ∧ x.free.toNat < 2 ^ 31) :
    Tracked.Inv base conf { t with node := n, credit := Function.update t.credit w c } := by
  obtain ⟨hconf, hstore, hused, hghost, hclients⟩ := hn
  constructor
  case conf_eq => exact hconf.trans h.conf_eq
  case chunks => exact hstore ▸ h.chunks
  case used => exact hused ▸ h.used
  case ghost => exact hghost ▸ h.ghost
  case low => exact hghost ▸ h.low
  case reserved => exact hused ▸ h.reserved
  case room =>
    dsimp only
    rw [hstore, hused]
    exact h.room
  case record =>
    intro v x hx
    dsimp only at hx ⊢
    rw [hclients] at hx
    by_cases hv : v = w
    · subst hv
      rw [Function.update_self] at hx ⊢
      exact hs x hx
    · rw [Function.update_of_ne hv] at hx ⊢
      exact h.record v x hx

theorem Tracked.Inv.charge {w : Wid} {size : Size} (h : t.Inv base conf)
    (hle : ∀ s ∈ t.node.clients w, size ≤ s.free) :
    Tracked.Inv base conf { t with
      node := t.node.charge w size
      credit := Function.update t.credit w (t.credit w - size.toNat) } := by
  refine h.recorded ⟨rfl, rfl, rfl, rfl, rfl⟩ fun x hx => ?_
  obtain ⟨s, hs, rfl⟩ := Option.map_eq_some_iff.1 hx
  obtain ⟨hrecord, hlt⟩ := h.record w s hs
  have hle := hle s hs
  have hsub := BitVec.toNat_sub_of_le hle
  rw [BitVec.le_def] at hle
  dsimp only [setMemStat]
  rw [narrow_of_lt (by omega), hsub]
  omega

theorem Tracked.Inv.step {e : Event} (h : t.Inv base conf) (hbase : base ≠ 0) (hfit : e.Fits t)
    (hs : t.step e = some t') : t'.Inv base conf := by
  cases e with
  | malloc wr rand =>
    dsimp only [Event.Fits, Tracked.step, Node.processLocalMalloc] at hfit hs
    cases htarget : t.node.target wr rand with
    | nobody =>
      rw [htarget] at hs
      cases hs
    | client w =>
      rw [htarget] at hfit hs
      obtain rfl := Option.some.inj hs
      exact h.charge hfit
    | here =>
      rw [htarget] at hfit hs
      cases hserve : t.node.serve wr with
      | none =>
        simp only [hserve] at hs
        cases hs
      | some x =>
        simp only [hserve] at hs
        obtain rfl := Option.some.inj hs
        exact h.hand hbase hfit hserve
  | remoteMalloc wr =>
    obtain ⟨x, hserve, rfl⟩ := Option.map_eq_some_iff.1 hs
    exact h.hand hbase hfit hserve
  | free p => exact h.free hbase hfit hs
  | fill => exact h.fill hbase hfit hs
  | drop p => exact h.drop hbase hfit hs
  | sync =>
    obtain rfl := Option.some.inj hs
    exact h.settle (Node.syncMaster_cases _)
  | connect w =>
    obtain rfl := Option.some.inj hs
    refine h.recorded (s := some ⟨0, 0⟩) ⟨rfl, rfl, rfl, rfl, rfl⟩ ?_
    rintro x hx
    obtain rfl := Option.some.inj hx
    exact ⟨rfl, by decide⟩
  | memStat w s =>
    obtain ⟨-, hs⟩ := (Option.ite_none_right_eq_some).1 hs
    obtain rfl := Option.some.inj hs
    refine h.recorded (s := some (setMemStat s)) ⟨rfl, rfl, rfl, rfl, rfl⟩ ?_
    rintro x hx
    obtain rfl := Option.some.inj hx
    dsimp only [setMemStat]
    rw [narrow_of_lt hfit]
    exact ⟨rfl, hfit⟩

theorem Tracked.inv_start {malloced : Nat} {s₀ : SlabAllocator}
    (hth : conf.cacheSize < conf.size.toNat)
    (hinit : slabsInit base conf.size.toNat malloced = some s₀) :
    (Tracked.start conf base s₀).Inv base conf where
  conf_eq := rfl
  chunks := ⟨⟨(slabsInit_spec hinit).1, by simp [Tracked.start]⟩, .refl _, by simp [Tracked.start]⟩
  used := rfl
  ghost := rfl
  low := Nat.zero_le _
  reserved := Nat.zero_le _
  room := by
    have hsum := (slabsInit_spec hinit).1.2.sum
    simp only [List.map_nil, List.sum_nil, Nat.add_zero] at hsum
    dsimp only [Tracked.start]
    omega
  record := by simp [Tracked.start]

/-- In every state of a run whose steps fit, the counters are the integers they stand for. -/
theorem faithful_of_reaches {malloced : Nat} {s₀ : SlabAllocator}
    (hth : conf.cacheSize < conf.size.toNat)
    (hinit : slabsInit base conf.size.toNat malloced = some s₀)
    (hr : Reaches Tracked.step Event.Fits (Tracked.start conf base s₀) t) : t.Faithful := by
  have hinv : t.Inv base conf := by
    refine hr.invariant (Tracked.inv_start hth hinit) ?_
    intro e u u' hu hfit hs
    exact hu.step (base_ne_zero_of_slabsInit hinit) hfit hs
  exact hinv.faithful hth

end

/-! ## A worker of 256MB with another one -/

/-- An eighth of the memory is for the cache. -/
def Conf.eighth : Conf where
  wid := 1
  size := BitVec.ofNat 64 (2 ^ 28)
  cacheSize := 2 ^ 25
  ghostTh := 1048576

/-- A request for memory of worker 2. -/
def Req.there (size : Size) : Req := { size, addr := 2 <<< 48 }

theorem Req.target_there {n : Node} {size : Size} {s : MemStat} (rand : Nat → Nat)
    (hwid : n.conf.wid = 1) (hs : n.clients 2 = some s) :
    n.target (Req.there size) rand = .client 2 := by
  have hlocal : ¬ n.IsLocal (2 <<< 48) := by
    rw [Node.IsLocal, hwid]
    decide
  have hclient : n.getClient (2 <<< 48) = some 2 := by
    have hwid : ((2 <<< 48 : BitVec 64) >>> 48).setWidth 32 = (2 : Wid) := by decide
    rw [Node.getClient, if_neg (by decide)]
    simp only [hwid, hs, Option.map_some]
  have hchoice : n.firstChoice (Req.there size) rand = some 2 := by
    have haddr : (Req.there size).addr = 2 <<< 48 := rfl
    rw [Node.firstChoice, haddr, if_pos (.inr ⟨by decide, hlocal⟩)]
    exact hclient
  rw [Node.target, hchoice]

/-- The request goes to worker 2, and its record changes. -/
theorem Tracked.step_there {t : Tracked} {size : Size} {s : MemStat} (rand : Nat → Nat)
    (hwid : t.node.conf.wid = 1) (hs : t.node.clients 2 = some s) :
    t.step (.malloc (Req.there size) rand) = some { t with
      node := t.node.charge 2 size
      credit := Function.update t.credit 2 (t.credit 2 - size.toNat) } := by
  simp only [Tracked.step, Node.processLocalMalloc, Req.target_there rand hwid hs]
  rfl

/-- Worker 2 has reported 500 bytes and is asked for 40. -/
theorem faithful_of_reaches_there : ∃ s₀ t, slabsInit 4096 (2 ^ 28) 0 = some s₀ ∧
    Reaches Tracked.step Event.Fits (Tracked.start .eighth 4096 s₀) t ∧ t.credit 2 = 460 ∧
    t.Faithful := by
  obtain ⟨s₀, hinit⟩ : ∃ s₀, slabsInit 4096 (2 ^ 28) 0 = some s₀ :=
    exists_slabsInit (by decide) (by decide +kernel)
  have h₁ : Reaches Tracked.step Event.Fits (Tracked.start .eighth 4096 s₀) _ :=
    Reaches.refl.tail (a := Event.connect 2) trivial rfl
  have hheard : (500 : Size).toNat < 2 ^ 31 := by decide
  have h₂ := h₁.tail (a := Event.memStat 2 ⟨1000, 500⟩) hheard rfl
  have hfit : ∀ s ∈ (some (setMemStat ⟨1000, 500⟩) : Option MemStat), (40 : Size) ≤ s.free := by
    decide
  have h₃ := h₂.tail (a := Event.malloc (Req.there 40) fun _ => 0)
    (by
      dsimp only [Event.Fits]
      rw [Req.target_there (s := setMemStat ⟨1000, 500⟩) _ rfl rfl]
      exact hfit)
    (Tracked.step_there (s := setMemStat ⟨1000, 500⟩) _ rfl rfl)
  have hsize : Conf.eighth.size.toNat = 2 ^ 28 := by decide
  have hinit' : slabsInit 4096 Conf.eighth.size.toNat 0 = some s₀ :=
    (congrArg (fun limit => slabsInit 4096 limit 0) hsize).trans hinit
  have hth : Conf.eighth.cacheSize < Conf.eighth.size.toNat := by decide
  have hf := faithful_of_reaches hth hinit' h₃
  exact ⟨s₀, _, hinit, h₃, rfl, hf⟩

/-- Nothing has been heard of worker 2, and it is asked for 40 bytes. -/
theorem not_faithful_unheard : ∃ s₀ t, slabsInit 4096 (2 ^ 28) 0 = some s₀ ∧
    Reaches Tracked.step anyStep (Tracked.start .eighth 4096 s₀) t ∧ ¬ t.Faithful := by
  obtain ⟨s₀, hinit⟩ : ∃ s₀, slabsInit 4096 (2 ^ 28) 0 = some s₀ :=
    exists_slabsInit (by decide) (by decide +kernel)
  have h₁ : Reaches Tracked.step anyStep (Tracked.start .eighth 4096 s₀) _ :=
    Reaches.refl.tail (a := Event.connect 2) trivial rfl
  have h₂ := h₁.tail (a := Event.malloc (Req.there 40) fun _ => 0) trivial
    (Tracked.step_there (s := ⟨0, 0⟩) _ rfl rfl)
  refine ⟨s₀, _, hinit, h₂, fun hf => ?_⟩
  have hrecord := hf.record 2 (setMemStat ⟨0, 0 - 40⟩) rfl
  have hcredit : ((setMemStat ⟨0, 0 - 40⟩).free.toNat : Int) = 0 - 40 := hrecord
  exact absurd hcredit (by decide)

end HwGam.Worker
