import HwGam.Slabs.Safety

/-!
# Reallocation

`sb_realloc` over the allocator and the bytes of the region. When the class changes, a local `ptr`
hides the argument, so the new chunk is copied onto itself.
-/

namespace HwGam.Slabs

open HwGam.Lib

/-- `memcpy` between ranges that are apart or the same. -/
def memcpy (bytes : Nat → UInt8) (dst src n : Nat) : Nat → UInt8 :=
  fun a => if dst ≤ a ∧ a < dst + n then bytes (src + (a - dst)) else bytes a

/-- What `sb_realloc` ends with: a pointer, or the exception of `stats_map.at`. -/
inductive Reply
  | ok (ptr : Option Nat)
  | outOfRange
  deriving DecidableEq, Repr

/-- `sb_realloc` -/
def SlabAllocator.sbRealloc (s : SlabAllocator) (bytes : Nat → UInt8) (ptr : Option Nat)
    (size : Size) : Reply × SlabAllocator × (Nat → UInt8) :=
  match ptr with
  | none => (.ok (s.sbMalloc size).1, (s.sbMalloc size).2, bytes)
  | some ptr =>
    match s.statsMap ptr with
    | none => (.outOfRange, s, bytes)
    | some it1 =>
      let size2 := (size + prefixSize).toNat
      let id2 := s.slabsClsid size2
      if it1.slabsClsid = id2 then
        (.ok (some ptr), s.setItem ptr { it1 with size := size2 }, bytes)
      else
        let new := s.doSlabsAlloc size2 id2
        -- the inner `ptr`
        let ptr2 := new.1.getD 0
        match new.2.statsMap ptr2 with
        | none => (.outOfRange, new.2, bytes)
        | some _ =>
          let n := if size2 < it1.size then size.toNat else it1.size - prefixSize.toNat
          let it1' := (new.2.statsMap ptr).getD {}
          (.ok (some ptr2),
            (new.2.setItem ptr { it1' with slabsClsid := 0 }).doSlabsFree ptr it1.size it1.slabsClsid,
            memcpy bytes ptr2 ptr2 n)

/-- The heap and the bytes of the region. -/
structure Store where
  heap : Heap
  bytes : Nat → UInt8 := fun _ => 0

namespace Store

variable (st : Store)

/-- `sb_realloc`, with the chunks handed out afterwards. -/
def realloc (ptr : Option Nat) (size : Size) : Reply × Store :=
  let x := st.heap.alloc.sbRealloc st.bytes ptr size
  let live := match x.1 with
    | .ok (some q) => (q, size.toNat) :: st.heap.live.filter fun y => some y.1 ≠ ptr
    | _ => st.heap.live
  (x.1, { heap := { alloc := x.2.1, live }, bytes := x.2.2 })

end Store

inductive Act
  | call (c : Call)
  | realloc (ptr : Option Nat) (size : Size)
  /-- the user of a chunk writes to it -/
  | store (a : Nat) (v : UInt8)
  deriving DecidableEq, Repr

/-- `sb_realloc` is called with the null pointer or a chunk that is handed out. -/
def Store.step (a : Act) (st : Store) : Option Store :=
  match a with
  | .call c => (st.heap.step c).map fun heap => { st with heap }
  | .realloc ptr size =>
    if ∀ p ∈ ptr, p ∈ st.heap.live.map Prod.fst then some (st.realloc ptr size).2 else none
  | .store a v => some { st with bytes := Function.update st.bytes a v }

/-- As for the other calls: no class has 2^32 - 1 free chunks when another one comes back. -/
def Act.Fits (a : Act) (st : Store) : Prop :=
  match a with
  | .call c => c.Fits st.heap
  | .realloc ptr _ => ∀ p ∈ ptr, Call.Fits (.free p) st.heap
  | .store _ _ => True

/-! ## What is asked of a reallocation -/

/-- The allocator has no chunk for the size. -/
def SlabAllocator.Refuses (s : SlabAllocator) (size : Size) : Prop :=
  (s.doSlabsAlloc size.toNat (s.slabsClsid size.toNat)).1 = none

/-- The new size is in the class of the chunk. -/
def SlabAllocator.SameClass (s : SlabAllocator) (p : Nat) (size : Size) : Prop :=
  s.slabsClsid size.toNat = s.clsid p

/-- The chunk is handed out, for `n` bytes. -/
def Store.Live (st : Store) (p n : Nat) : Prop :=
  (p, n) ∈ st.heap.live ∧ st.heap.alloc.clsid p ≠ 0

/-- The bytes of a chunk, up to the size of its class. -/
def Store.SameBytes (st st' : Store) (p : Nat) : Prop :=
  ∀ i < st.heap.alloc.extent p, st'.bytes (p + i) = st.bytes (p + i)

/-- The chunk `q` has the contents of `p`, the other chunks are as they were, and one of the two is
handed out. -/
structure Store.Moved (st st' : Store) (p old q : Nat) (size : Size) : Prop where
  live : st'.Live q size.toNat
  contents : ∀ i < min old size.toNat, st'.bytes (q + i) = st.bytes (p + i)
  others : ∀ x ∈ st.heap.live, x.1 ≠ p → st'.Live x.1 x.2 ∧ st.SameBytes st' x.1
  same : st.heap.alloc.SameClass p size → q = p
  moved : ¬ st.heap.alloc.SameClass p size → q ≠ p ∧ p ∉ st'.heap.live.map Prod.fst ∧
    st'.heap.alloc.clsid p = 0 ∧
    (st'.heap.alloc.slabclass (st.heap.alloc.clsid p)).slots = some p

/-- A reallocation keeps the contents, or the chunk if it fails. -/
def Store.Reallocates (st : Store) (p old : Nat) (size : Size) : Prop :=
  (st.heap.alloc.SameClass p size ∨ ¬ st.heap.alloc.Refuses size →
    ∃ q, (st.realloc (some p) size).1 = .ok (some q) ∧
      st.Moved (st.realloc (some p) size).2 p old q size) ∧
  (¬ st.heap.alloc.SameClass p size → st.heap.alloc.Refuses size →
    (st.realloc (some p) size).2.Live p old ∧ st.SameBytes (st.realloc (some p) size).2 p)

/-! ## The allocator -/

section
variable {base limit : Nat} {pages : List Nat} {fl : Nat → List Nat} {s s' : SlabAllocator}
  {h : Heap} {ptr p old n id : Nat} {size : Size} {it : Item} {bytes : Nat → UInt8}

theorem memcpy_self (bytes : Nat → UInt8) (a n : Nat) : memcpy bytes a a n = bytes := by
  funext x
  unfold memcpy
  split
  · congr 1
    omega
  · rfl

/-- The size in an item matters only while its chunk is handed out. -/
theorem Inv.setSize (hi : Inv base limit pages fl s) (hit : s.statsMap ptr = some it)
    (hn : n ≠ 0 ∨ s.clsid ptr = 0) :
    Inv base limit pages fl (s.setItem ptr { it with size := n }) ∧
      (s.setItem ptr { it with size := n }).clsid = s.clsid := by
  have hclsid : (s.setItem ptr { it with size := n }).clsid = s.clsid := by
    funext a
    by_cases ha : a = ptr
    · subst ha
      simp [SlabAllocator.clsid, SlabAllocator.setItem, hit]
    · simp [SlabAllocator.clsid, SlabAllocator.setItem, ha]
  have hnext : (s.setItem ptr { it with size := n }).next = s.next := by
    funext a
    by_cases ha : a = ptr
    · subst ha
      simp [SlabAllocator.next, SlabAllocator.setItem, hit]
    · simp [SlabAllocator.next, SlabAllocator.setItem, ha]
  refine ⟨⟨hi.books.frame (fun a => ?_) hnext hclsid (fun _ => rfl) (fun _ => rfl), hi.classes,
    hi.size, hi.perslab, hi.current, hi.avail, ?_, hi.room⟩, hclsid⟩
  · by_cases ha : a = ptr
    · subst ha
      simp [SlabAllocator.setItem, hit]
    · simp [SlabAllocator.setItem, ha]
  · intro a ha
    rw [hclsid] at ha
    by_cases hp : a = ptr
    · subst hp
      simpa [SlabAllocator.asked, SlabAllocator.setItem] using hn.resolve_right ha
    · have hasked := hi.sized a ha
      simpa [SlabAllocator.asked, SlabAllocator.setItem, hp] using hasked

theorem takeSlot_others (s : SlabAllocator) (size id : Nat) {c : Nat} (hc : c ≠ id) :
    (((s.takeSlot size id).2).slabclass c).slCurr = (s.slabclass c).slCurr := by
  cases hslots : (s.slabclass id).slots with
  | none => simp [SlabAllocator.takeSlot, hslots]
  | some ptr =>
    simp [SlabAllocator.takeSlot, hslots, SlabAllocator.setClass, SlabAllocator.setItem, hc]

/-- An allocation leaves the lists of the other classes as they are. -/
theorem Inv.doSlabsAlloc_others (hi : Inv base limit pages fl s) (size id : Nat) {c : Nat}
    (hc : c ≠ id) :
    (((s.doSlabsAlloc size id).2).slabclass c).slCurr = (s.slabclass c).slCurr := by
  unfold SlabAllocator.doSlabsAlloc
  split
  · rfl
  · rename_i hn
    have hid : IsClass id := by
      have := hi.classes
      constructor <;> omega
    split
    · exact takeSlot_others s size id hc
    · rename_i hz
      have hz : (s.slabclass id).slCurr = 0 := by simpa using hz
      split
      · rfl
      · rename_i s₁ hs₁
        have hnew := (hi.newslab hid hz hs₁).2.2.1 c hc
        split
        · exact (takeSlot_others s₁ size id hc).trans hnew
        · exact hnew

/-- A chunk with a size goes to the front of its list. -/
theorem doSlabsFree_eq (hid : IsClass id) (hpl : s.powerLargest = sizes.length) (hn : n ≠ 0)
    (hit : s.statsMap ptr = some it) :
    s.doSlabsFree ptr n id = { (s.setItem ptr { it with next := (s.slabclass id).slots }).setClass id
        { s.slabclass id with
          slots := some ptr, slCurr := ((s.slabclass id).slCurr + 1) % 2 ^ 32 } with
      memFree := s.memFree + (s.slabclass id).size } := by
  obtain ⟨h1, h2⟩ := hid
  have hneg : ¬ (id < 1 ∨ s.powerLargest < id) := by omega
  rw [SlabAllocator.doSlabsFree, if_neg hneg]
  simp only [hit, Option.getD_some, if_pos hn, SlabAllocator.setItem, SlabAllocator.setClass]

/-- The part of `sb_realloc` that gives the old chunk back is `sb_free`, but for the size it leaves
in the item. -/
theorem Inv.reallocFree (hi : Inv base limit pages fl s) (hlive : s.clsid p ≠ 0)
    (hroom : (s.slabclass (s.clsid p)).slCurr + 1 < 2 ^ 32) (hn : n ≠ 0) :
    ∃ s', (s.setItem p { (s.statsMap p).getD {} with slabsClsid := 0 }).doSlabsFree p n
        (s.clsid p) = s' ∧
      (∃ fl', Inv base limit pages fl' s') ∧ s'.clsid = Function.update s.clsid p 0 ∧
      s'.memFree = s.memFree + (initClass (s.clsid p)).size ∧
      (s'.slabclass (s.clsid p)).slots = some p := by
  have hcut := hi.books.used p hlive
  have hid := hi.books.isClass _ _ hcut
  obtain ⟨it, hit⟩ := Option.isSome_iff_exists.1 ((hi.books.item p).2 ⟨_, hcut⟩)
  have hclsid : s.clsid p = it.slabsClsid := by simp [SlabAllocator.clsid, hit]
  have hsize : it.size ≠ 0 := by simpa [SlabAllocator.asked, hit] using hi.sized p hlive
  have hset : ∀ x : Item, (s.setItem p x).statsMap p = some x := by
    intro x
    simp [SlabAllocator.setItem]
  -- the state `sb_free` leaves, with a size in the item
  obtain ⟨t, hfree⟩ : ∃ t, s.sbFree p = some t := ⟨_, by rw [SlabAllocator.sbFree, hit]; rfl⟩
  obtain ⟨⟨fl', hi'⟩, hc, hf⟩ := hi.sbFree_live hlive hroom hfree
  have ht : t = { (s.setItem p { next := (s.slabclass (s.clsid p)).slots }).setClass (s.clsid p)
      { s.slabclass (s.clsid p) with
        slots := some p, slCurr := ((s.slabclass (s.clsid p)).slCurr + 1) % 2 ^ 32 } with
      memFree := s.memFree + (s.slabclass (s.clsid p)).size } := by
    rw [SlabAllocator.sbFree, hit, Option.map_some, Option.some.injEq, ← hclsid,
      doSlabsFree_eq (s := s.setItem p _) hid hi.classes hsize (hset _)] at hfree
    rw [← hfree]
    simp [SlabAllocator.setItem, SlabAllocator.setClass]
  have htit : t.statsMap p = some { next := (s.slabclass (s.clsid p)).slots } := by
    rw [ht]
    simp [SlabAllocator.setItem, SlabAllocator.setClass]
  have hz : t.clsid p = 0 := by rw [hc, Function.update_self]
  obtain ⟨hi'', hc'⟩ := hi'.setSize (n := it.size) htit (.inr hz)
  refine ⟨t.setItem p { next := (s.slabclass (s.clsid p)).slots, size := it.size }, ?_,
    ⟨fl', hi''⟩, hc'.trans hc, hf, ?_⟩
  · rw [hit, Option.getD_some, doSlabsFree_eq (s := s.setItem p _) hid hi.classes hn (hset _), ht]
    simp [SlabAllocator.setItem, SlabAllocator.setClass]
  · rw [ht]
    simp [SlabAllocator.setItem, SlabAllocator.setClass]

/-- A chunk stays where it is, for another size. -/
theorem Accounts.resize (ha : Accounts limit h) (hx : (p, old) ∈ h.live)
    (hc : s'.clsid = h.alloc.clsid) (hf : s'.memFree = h.alloc.memFree)
    (hn : n ≤ (initClass (h.alloc.clsid p)).size) :
    Accounts limit { alloc := s', live := (p, n) :: h.live.filter fun x => x.1 ≠ p } := by
  have hperm := perm_cons_filter ha.nodup hx
  have hfst : (((p, n) :: h.live.filter fun x => x.1 ≠ p).map Prod.fst).Perm (h.live.map Prod.fst) :=
    (hperm.map Prod.fst).symm
  constructor
  case nodup => exact hfst.nodup_iff.2 ha.nodup
  case mem =>
    intro a
    rw [hc, ← ha.mem a]
    exact hfst.mem_iff
  case large =>
    intro x hx
    rw [hc]
    rcases List.mem_cons.1 hx with rfl | hx
    · exact hn
    · exact ha.large x (List.mem_filter.1 hx).1
  case sum =>
    have hsum := ha.sum
    rw [(hperm.map _).sum_eq, List.map_cons, List.sum_cons] at hsum
    simp only [hc, hf, List.map_cons, List.sum_cons]
    exact hsum

theorem size_add_prefixSize (size : Size) : (size + SlabAllocator.prefixSize).toNat = size.toNat := by
  simp [SlabAllocator.prefixSize]

/-- There is no item for the null pointer. -/
theorem Inv.statsMap_zero (hi : Inv base limit pages fl s) (hbase : base ≠ 0) :
    s.statsMap 0 = none := by
  rw [← Option.not_isSome_iff_eq_none, hi.books.item]
  rintro ⟨c, hcut⟩
  have := (hcut.inside (hi.books.isClass _ _ hcut)).1
  omega

/-- What `sb_realloc` does with a chunk that is handed out. -/
theorem Good.sbRealloc (bytes : Nat → UInt8) (size : Size) (hg : Good base limit h) (hbase : base ≠ 0) (hx : (p, old) ∈ h.live)
    (hfit : Call.Fits (.free p) h) :
    (h.alloc.SameClass p size ∧ ∃ s', h.alloc.sbRealloc bytes (some p) size = (.ok (some p), s', bytes) ∧
      s'.clsid = h.alloc.clsid ∧
      Good base limit { alloc := s', live := (p, size.toNat) :: h.live.filter fun y => y.1 ≠ p }) ∨
    (¬ h.alloc.SameClass p size ∧ h.alloc.Refuses size ∧
      h.alloc.sbRealloc bytes (some p) size = (.outOfRange, h.alloc, bytes)) ∨
    (¬ h.alloc.SameClass p size ∧ ¬ h.alloc.Refuses size ∧ ∃ q s',
      h.alloc.sbRealloc bytes (some p) size = (.ok (some q), s', bytes) ∧ q ≠ p ∧
      q ∉ h.live.map Prod.fst ∧
      s'.clsid = Function.update
        (Function.update h.alloc.clsid q (h.alloc.slabsClsid size.toNat)) p 0 ∧
      (s'.slabclass (h.alloc.clsid p)).slots = some p ∧
      Good base limit { alloc := s', live := (q, size.toNat) :: h.live.filter fun y => y.1 ≠ p }) := by
  obtain ⟨⟨pages, fl, hi⟩, ha⟩ := hg
  have hlive : h.alloc.clsid p ≠ 0 := (ha.mem p).1 (List.mem_map_of_mem hx)
  obtain ⟨it, hit⟩ := Option.isSome_iff_exists.1
    ((hi.books.item p).2 ⟨_, hi.books.used p hlive⟩)
  have hclsid : it.slabsClsid = h.alloc.clsid p := by simp [SlabAllocator.clsid, hit]
  have hasked : it.size ≠ 0 := by simpa [SlabAllocator.asked, hit] using hi.sized p hlive
  by_cases hsame : h.alloc.slabsClsid size.toNat = h.alloc.clsid p
  · have hne : h.alloc.slabsClsid size.toNat ≠ 0 := hsame ▸ hlive
    obtain ⟨hn, hle⟩ := slabsClsid_spec hne
    obtain ⟨hi', hc⟩ := hi.setSize hit (n := size.toNat) (.inl hn)
    rw [hi.size, hsame] at hle
    refine .inl ⟨hsame, _, ?_, hc, ⟨pages, fl, hi'⟩, ha.resize hx hc rfl hle⟩
    simp only [SlabAllocator.sbRealloc, hit, size_add_prefixSize, hclsid, hsame, if_true]
  · refine .inr ?_
    have hcls : h.alloc.clsid p ≠ h.alloc.slabsClsid size.toNat := fun he => hsame he.symm
    have hrun : ∀ (x : Option Nat) (s₁ : SlabAllocator),
        h.alloc.doSlabsAlloc size.toNat (h.alloc.slabsClsid size.toNat) = (x, s₁) →
        h.alloc.sbRealloc bytes (some p) size = match s₁.statsMap (x.getD 0) with
        | none => (.outOfRange, s₁, bytes)
        | some _ => (.ok (some (x.getD 0)),
            (s₁.setItem p { (s₁.statsMap p).getD {} with slabsClsid := 0 }).doSlabsFree p it.size
              (h.alloc.clsid p), bytes) := by
      intro x s₁ hx
      simp only [SlabAllocator.sbRealloc, hit, size_add_prefixSize, if_neg hcls, hx, memcpy_self, hclsid]
    by_cases h0 : h.alloc.slabsClsid size.toNat = 0
    · have hnone : h.alloc.doSlabsAlloc size.toNat (h.alloc.slabsClsid size.toNat) =
          (none, h.alloc) := by
        rw [SlabAllocator.doSlabsAlloc, if_pos (by omega)]
      refine .inl ⟨hsame, by rw [SlabAllocator.Refuses, hnone], ?_⟩
      rw [hrun _ _ hnone, Option.getD_none, hi.statsMap_zero hbase]
    · obtain ⟨hn, hle⟩ := slabsClsid_spec h0
      rcases hi.doSlabsAlloc (h.alloc.slabsClsid size.toNat) hn with
        hnone | ⟨hid, q, s₁, pages', fl', hsome, hi₁, hz, hc₁, hf₁⟩
      · refine .inl ⟨hsame, by rw [SlabAllocator.Refuses, hnone], ?_⟩
        rw [hrun _ _ hnone, Option.getD_none, hi.statsMap_zero hbase]
      · have hqp : q ≠ p := by
          rintro rfl
          exact hlive hz
        have hpc : s₁.clsid p = h.alloc.clsid p := by
          rw [hc₁, Function.update_of_ne hqp.symm]
        have hcurr : (s₁.slabclass (h.alloc.clsid p)).slCurr =
            (h.alloc.slabclass (h.alloc.clsid p)).slCurr := by
          have := hi.doSlabsAlloc_others size.toNat (h.alloc.slabsClsid size.toNat)
            (c := h.alloc.clsid p) hcls
          rwa [hsome] at this
        obtain ⟨s', hs', ⟨fl'', hi'⟩, hc', hf', hslots⟩ := hi₁.reallocFree (n := it.size)
          (hpc.symm ▸ hlive) (by rw [hpc, hcurr]; exact hfit hlive) hasked
        rw [hpc] at hs' hf' hslots
        obtain ⟨itq, hitq⟩ : ∃ x, s₁.statsMap q = some x := by
          refine Option.isSome_iff_exists.1 ((hi₁.books.item q).2 ⟨_, hi₁.books.used q ?_⟩)
          rw [hc₁, Function.update_self]
          exact h0
        refine .inr ⟨hsame, by rw [SlabAllocator.Refuses, hsome]; simp, q, s', ?_, hqp, ?_, ?_, hslots,
          ⟨pages', fl'', hi'⟩, ?_⟩
        · rw [hrun _ _ hsome, Option.getD_some, hitq]
          simp only [hs']
        · exact fun hm => (ha.mem q).1 hm hz
        · rw [hc', hc₁]
        · rw [hi.size] at hle
          have h₁ : Accounts limit (h.hand size (some q, s₁)) := ha.hand h0 hle hz hc₁ hf₁
          have h₂ := h₁.free hc' (hpc.symm ▸ hlive) (by rw [hf']; simp [Heap.hand, hpc])
          simpa [Heap.hand, hqp] using h₂

theorem align_zero (block : Size) : align 0 block = 0 := by
  simp [align]

/-! ## Runs -/

/-- The invariant of a run; what is handed out has at least a byte. -/
def Store.Good (base limit : Nat) (st : Store) : Prop :=
  Slabs.Good base limit st.heap ∧ ∀ x ∈ st.heap.live, x.2 ≠ 0

theorem hand_ne_zero {newsize : Nat} (h0 : ∀ x ∈ h.live, x.2 ≠ 0)
    (hn : size.toNat = 0 → newsize = 0) :
    ∀ x ∈ (h.hand size (h.alloc.doSlabsAlloc newsize (h.alloc.slabsClsid newsize))).live, x.2 ≠ 0 := by
  intro x hx
  rcases List.mem_append.1 hx with hx | hx
  · simp only [Option.mem_toList, Option.map_eq_some_iff] at hx
    obtain ⟨q, hq, rfl⟩ := hx
    have hne : newsize ≠ 0 := (ne_zero_of_alloc (by rw [hq]; simp)).1
    exact fun hz => hne (hn hz)
  · exact h0 x hx

theorem Store.Good.call {st : Store} {c : Call} {h' : Heap} (hg : st.Good base limit)
    (hs : st.heap.step c = some h') : ∀ x ∈ h'.live, x.2 ≠ 0 := by
  cases c with
  | malloc size =>
    obtain rfl := Option.some.inj hs
    refine hand_ne_zero hg.2 fun hz => ?_
    rw [size_add_prefixSize, hz]
  | alignedMalloc size block =>
    obtain rfl := Option.some.inj hs
    refine hand_ne_zero hg.2 fun hz => ?_
    obtain rfl : size = 0 := BitVec.eq_of_toNat_eq hz
    have hzero : (0 : Size) + SlabAllocator.prefixSize = 0 := rfl
    rw [hzero, align_zero]
    rfl
  | free ptr =>
    obtain ⟨s', -, rfl⟩ := Option.map_eq_some_iff.1 hs
    exact fun x hx => hg.2 x (List.mem_filter.1 hx).1

theorem Store.realloc_ok {st : Store} {q : Nat}
    (hr : st.heap.alloc.sbRealloc st.bytes (some p) size = (.ok (some q), s', bytes)) :
    st.realloc (some p) size = (.ok (some q), {
      heap := { alloc := s', live := (q, size.toNat) :: st.heap.live.filter fun y => y.1 ≠ p }
      bytes }) := by
  simp [Store.realloc, hr]

theorem Store.realloc_outOfRange {st : Store}
    (hr : st.heap.alloc.sbRealloc st.bytes (some p) size = (.outOfRange, st.heap.alloc, st.bytes)) :
    st.realloc (some p) size = (.outOfRange, st) := by
  simp [Store.realloc, hr]

theorem Store.realloc_none (st : Store) (size : Size) : (st.realloc none size).2 =
    { st with heap := st.heap.hand size (st.heap.alloc.sbMalloc size) } := by
  cases hq : (st.heap.alloc.sbMalloc size).1 with
  | none => simp [Store.realloc, SlabAllocator.sbRealloc, Heap.hand, hq]
  | some q => simp [Store.realloc, SlabAllocator.sbRealloc, Heap.hand, hq]

theorem Store.Good.realloc {st : Store} {ptr : Option Nat} (hg : st.Good base limit)
    (hbase : base ≠ 0) (hptr : ∀ p ∈ ptr, p ∈ st.heap.live.map Prod.fst)
    (hfit : Act.Fits (.realloc ptr size) st) : (st.realloc ptr size).2.Good base limit := by
  cases ptr with
  | none =>
    rw [Store.realloc_none]
    exact ⟨hg.1.step (c := .malloc size) trivial rfl, hg.call (c := .malloc size) rfl⟩
  | some p =>
    obtain ⟨⟨p, old⟩, hx, rfl⟩ := List.mem_map.1 (hptr p rfl)
    have hrest : size.toNat ≠ 0 → ∀ q, ∀ x ∈ (q, size.toNat) :: st.heap.live.filter (fun y => y.1 ≠ p),
        x.2 ≠ 0 := by
      intro hn q x hx
      rcases List.mem_cons.1 hx with rfl | hx
      · exact hn
      · exact hg.2 x (List.mem_filter.1 hx).1
    rcases Good.sbRealloc st.bytes size hg.1 hbase hx (hfit p rfl) with
      ⟨hsame, s', hr, -, hg'⟩ | ⟨-, -, hr⟩ | ⟨-, hsat, q, s', hr, -, -, -, -, hg'⟩
    · rw [Store.realloc_ok hr]
      have hlive := (hg.1.2.mem p).1 (List.mem_map_of_mem hx)
      exact ⟨hg', hrest (slabsClsid_spec (hsame.symm ▸ hlive)).1 p⟩
    · rw [Store.realloc_outOfRange hr]
      exact hg
    · rw [Store.realloc_ok hr]
      exact ⟨hg', hrest (ne_zero_of_alloc hsat).1 q⟩

theorem Store.Good.step {st st' : Store} {a : Act} (hg : st.Good base limit) (hbase : base ≠ 0)
    (hfit : a.Fits st) (hs : st.step a = some st') : st'.Good base limit := by
  cases a with
  | call c =>
    obtain ⟨h', hs', rfl⟩ := Option.map_eq_some_iff.1 hs
    exact ⟨hg.1.step hfit hs', hg.call hs'⟩
  | realloc ptr size =>
    obtain ⟨hptr, hs⟩ := (Option.ite_none_right_eq_some).1 hs
    obtain rfl := Option.some.inj hs
    exact hg.realloc hbase hptr hfit
  | store a v =>
    obtain rfl := Option.some.inj hs
    exact hg

theorem Store.good_of_reaches {malloced : Nat} {s₀ : SlabAllocator} {st : Store}
    (hinit : slabsInit base limit malloced = some s₀)
    (hr : Reaches Store.step Act.Fits { heap := { alloc := s₀ } } st) :
    st.Good base limit := by
  refine hr.invariant (I := Store.Good base limit) ⟨(slabsInit_spec hinit).1, by simp⟩ ?_
  intro a t t' ht hfit hs
  exact ht.step (base_ne_zero_of_slabsInit hinit) hfit hs

/-- The contents stay where the chunk does. -/
theorem Store.Good.reallocates {st : Store} (hg : st.Good base limit) (hbase : base ≠ 0)
    (hx : (p, old) ∈ st.heap.live) (hfit : Call.Fits (.free p) st.heap)
    (hok : st.heap.alloc.SameClass p size ∨ st.heap.alloc.Refuses size) :
    st.Reallocates p old size := by
  have hclsid : ∀ x ∈ st.heap.live, st.heap.alloc.clsid x.1 ≠ 0 :=
    fun x hx => (hg.1.2.mem x.1).1 (List.mem_map_of_mem hx)
  rcases Good.sbRealloc st.bytes size hg.1 hbase hx hfit with
    ⟨hsame, s', hr, hc, -⟩ | ⟨hsame, href, hr⟩ | ⟨hsame, hsat, -⟩
  · rw [Store.Reallocates, Store.realloc_ok hr]
    refine ⟨fun _ => ⟨p, rfl, ?_⟩, fun hn => absurd hsame hn⟩
    constructor
    case live => exact ⟨List.mem_cons_self, hc ▸ hclsid _ hx⟩
    case contents => exact fun i _ => rfl
    case others =>
      intro x hx hne
      refine ⟨⟨List.mem_cons_of_mem _ (List.mem_filter.2 ⟨hx, by simpa using hne⟩), ?_⟩, fun i _ => rfl⟩
      exact hc ▸ hclsid x hx
    case same => exact fun _ => rfl
    case moved => exact fun hn => absurd hsame hn
  · rw [Store.Reallocates, Store.realloc_outOfRange hr]
    refine ⟨fun hor => ?_, fun _ _ => ⟨⟨hx, hclsid _ hx⟩, fun i _ => rfl⟩⟩
    rcases hor with h | h
    · exact absurd h hsame
    · exact absurd href h
  · rcases hok with h | h
    · exact absurd h hsame
    · exact absurd h hsat

/-- The contents of a chunk that moves are lost. -/
theorem Store.Good.not_reallocates {st : Store} (hg : st.Good base limit) (hbase : base ≠ 0)
    (hx : (p, old) ∈ st.heap.live) (hfit : Call.Fits (.free p) st.heap)
    (hsame : ¬ st.heap.alloc.SameClass p size) (hsat : ¬ st.heap.alloc.Refuses size)
    (hbytes : ∀ a, a ≠ p → st.bytes a ≠ st.bytes p) : ¬ st.Reallocates p old size := by
  rintro ⟨hmoved, -⟩
  obtain ⟨q, hq, hmoved⟩ := hmoved (.inr hsat)
  rcases Good.sbRealloc st.bytes size hg.1 hbase hx hfit with
    ⟨h, -⟩ | ⟨-, h, -⟩ | ⟨-, -, q', s', hr, hqp, -⟩
  · exact hsame h
  · exact hsat h
  · rw [Store.realloc_ok hr] at hq hmoved
    obtain rfl : q' = q := by simpa using hq
    have hold : old ≠ 0 := hg.2 _ hx
    have hnew := (ne_zero_of_alloc hsat).1
    exact hbytes q' hqp (hmoved.contents 0 (by omega))

end

/-! ## A chunk of 40 bytes -/

section
variable {base limit : Nat} {pages : List Nat} {fl : Nat → List Nat} {s : SlabAllocator} {h : Heap}

/-- The classes are those of the table. -/
theorem Inv.slabsClsid_eq (hi : Inv base limit pages fl s) (malloced n : Nat) :
    s.slabsClsid n = (SlabAllocator.empty base limit malloced).slabsClsid n := by
  have hfrom : ∀ k res, s.clsidFrom n k res =
      (SlabAllocator.empty base limit malloced).clsidFrom n k res := by
    intro k
    induction k with
    | zero =>
      intro res
      rw [SlabAllocator.clsidFrom, SlabAllocator.clsidFrom, hi.size]
      rfl
    | succ k ih =>
      intro res
      rw [SlabAllocator.clsidFrom, SlabAllocator.clsidFrom, hi.size, ih]
      rfl
  rw [SlabAllocator.slabsClsid, SlabAllocator.slabsClsid, hi.classes, hfrom]
  rfl

/-- The free chunks of a class are not more than the bytes of the region. -/
theorem Good.slCurr_le (hg : Good base limit h) {c : Nat} (hc : IsClass c) :
    (h.alloc.slabclass c).slCurr ≤ limit := by
  obtain ⟨⟨pages, fl, hi⟩, ha⟩ := hg
  have hsum : (h.alloc.slabclass c).slCurr * (initClass c).size ≤ freeBytes h.alloc :=
    Finset.single_le_sum (f := fun c => (h.alloc.slabclass c).slCurr * (initClass c).size)
      (fun _ _ => Nat.zero_le _) (Finset.mem_Icc.2 hc)
  have hpos := Nat.le_mul_of_pos_right (h.alloc.slabclass c).slCurr (initClass_bounds hc).1
  have hroom := hi.room
  have hfree := ha.sum
  omega

end

/-- After `sb_malloc(40)` at the start, in a region of 256MB. -/
theorem exists_malloc : ∃ s₀ st p, slabsInit 4096 (2 ^ 28) 0 = some s₀ ∧
    Reaches Store.step Act.Fits { heap := { alloc := s₀ } } st ∧ st.heap.live = [(p, 40)] ∧
    st.heap.alloc.clsid p = 1 ∧ Call.Fits (.free p) st.heap ∧
    st.heap.alloc.slabsClsid 45 = 1 ∧ st.heap.alloc.slabsClsid 100 = 4 ∧
    ¬ st.heap.alloc.Refuses 100 ∧ (∀ a, st.bytes a = 0) ∧
    Heap.step (.malloc 40) { alloc := s₀ } = some st.heap := by
  obtain ⟨s₀, hinit⟩ : ∃ s₀, slabsInit 4096 (2 ^ 28) 0 = some s₀ :=
    exists_slabsInit (by decide) (by decide +kernel)
  obtain ⟨p, s', hrun, hcls, -⟩ := small_alloc 40 hinit (show 40 ≠ 0 by decide)
    (by decide +kernel)
  have hr : Reaches Store.step Act.Fits { heap := { alloc := s₀ } }
      { heap := { alloc := s', live := [(p, 40)] } } := by
    refine Reaches.refl.tail (a := .call (.malloc 40)) trivial ?_
    exact congrArg (fun h => some (Store.mk h fun _ => 0)) hrun
  have hg := Store.good_of_reaches hinit hr
  obtain ⟨⟨pages, fl, hi⟩, ha⟩ := hg.1
  have hclsid : ∀ n, s'.slabsClsid n = (SlabAllocator.empty 4096 (2 ^ 28) 0).slabsClsid n :=
    hi.slabsClsid_eq 0
  have h45 : s'.slabsClsid 45 = 1 := (hclsid 45).trans (by decide +kernel)
  have h100 : s'.slabsClsid 100 = 4 := (hclsid 100).trans (by decide +kernel)
  refine ⟨s₀, _, p, hinit, hr, rfl, hcls, ?_, h45, h100, ?_, fun _ => rfl, congrArg some hrun⟩
  · intro _
    have := hg.1.slCurr_le (c := 1) ⟨le_rfl, by decide +kernel⟩
    dsimp only at this ⊢
    rw [hcls]
    omega
  · -- the fourth class has its page since the start
    obtain ⟨⟨⟨pages₀, fl₀, hi₀⟩, -⟩, hpos⟩ := slabsInit_spec hinit
    have hid : IsClass 4 := ⟨by decide, by decide +kernel⟩
    have h40 : s₀.slabsClsid 40 = 1 :=
      (hi₀.slabsClsid_eq 0 40).trans (by decide +kernel)
    have hcurr : (s'.slabclass 4).slCurr = (s₀.slabclass 4).slCurr := by
      have halloc : (s₀.doSlabsAlloc 40 (s₀.slabsClsid 40)).2 = s' := congrArg Heap.alloc hrun
      rw [← halloc, h40]
      exact hi₀.doSlabsAlloc_others 40 1 (by decide)
    have hne : (s'.slabclass 4).slCurr ≠ 0 := by
      have := hpos 4 hid
      omega
    obtain ⟨q, -, s'', htake, -⟩ := hi.takeSlot hid (show 100 ≠ 0 by decide) hne
    have hn : ¬ (4 < 1 ∨ s'.powerLargest < 4) := by
      have := hi.classes
      have := hid.2
      dsimp only at *
      omega
    have h100' : (100 : Size).toNat = 100 := rfl
    dsimp only [SlabAllocator.Refuses]
    rw [h100', h100, SlabAllocator.doSlabsAlloc, if_neg hn, if_pos hne, htake]
    simp

end HwGam.Slabs
