import HwGam.Slabs.Books

/-!
# Safety of the slab allocator

The chunks handed out in a run of `sb_malloc`, `sb_aligned_malloc` and `sb_free`: they are apart,
inside the region, large enough and on no free list, and `get_avail` accounts for them.
-/

namespace HwGam.Slabs

open Lib

/-- The size of the class a chunk is handed out from. -/
def SlabAllocator.extent (s : SlabAllocator) (a : Nat) : Nat := (s.slabclass (s.clsid a)).size

/-- What a user of the allocator relies on, over a region of `limit` bytes at `base`. -/
structure Safe (base limit : Nat) (h : Heap) : Prop where
  disjoint : h.live.Pairwise fun x y =>
    x.1 + h.alloc.extent x.1 ≤ y.1 ∨ y.1 + h.alloc.extent y.1 ≤ x.1
  inside : ∀ x ∈ h.live, base ≤ x.1 ∧ x.1 + h.alloc.extent x.1 ≤ base + limit
  large : ∀ x ∈ h.live, x.2 ≤ h.alloc.extent x.1
  /-- the free lists: no chunk is on one twice, on two of them, or on one while it is handed out -/
  lists : ∃ fl : Nat → List Nat,
    (∀ c, Linked h.alloc.next (h.alloc.slabclass c).slots (fl c)) ∧
    (∀ c, (fl c).Nodup) ∧ (∀ c c', c ≠ c' → (fl c).Disjoint (fl c')) ∧
    (∀ x ∈ h.live, ∀ c, x.1 ∉ fl c) ∧ ∀ c, (h.alloc.slabclass c).slCurr = (fl c).length
  avail : h.alloc.getAvail + (h.live.map fun x => h.alloc.extent x.1).sum = limit

/-- The rounded size of an aligned request has no class, or is at least the size asked for; and no
class has 2^32 - 1 free chunks when another one comes back. -/
def Call.Fits (c : Call) (h : Heap) : Prop :=
  match c with
  | .malloc _ => True
  | .alignedMalloc size block =>
    h.alloc.slabsClsid (align size block).toNat = 0 ∨ size ≤ align size block
  | .free ptr => h.alloc.clsid ptr ≠ 0 → (h.alloc.slabclass (h.alloc.clsid ptr)).slCurr + 1 < 2 ^ 32

/-- The chunks handed out are those with a class id, and `mem_free` is what they leave. -/
structure Accounts (limit : Nat) (h : Heap) : Prop where
  nodup : (h.live.map Prod.fst).Nodup
  mem : ∀ a, a ∈ h.live.map Prod.fst ↔ h.alloc.clsid a ≠ 0
  large : ∀ x ∈ h.live, x.2 ≤ (initClass (h.alloc.clsid x.1)).size
  sum : h.alloc.memFree + (h.live.map fun x => (initClass (h.alloc.clsid x.1)).size).sum = limit

/-- The invariant of a run. -/
def Good (base limit : Nat) (h : Heap) : Prop :=
  (∃ pages fl, Inv base limit pages fl h.alloc) ∧ Accounts limit h

section
variable {base limit malloced : Nat} {h h' : Heap} {s s' s₀ : SlabAllocator} {pages : List Nat}
  {fl : Nat → List Nat}

theorem Good.safe (hg : Good base limit h) : Safe base limit h := by
  obtain ⟨⟨pages, fl, hi⟩, ha⟩ := hg
  have hextent : ∀ a, h.alloc.extent a = (initClass (h.alloc.clsid a)).size := fun a => hi.size _
  have hcut : ∀ x ∈ h.live, Cut base pages (h.alloc.clsid x.1) x.1 ∧ IsClass (h.alloc.clsid x.1) := by
    intro x hx
    have hne := (ha.mem x.1).1 (List.mem_map_of_mem hx)
    have := hi.books.used x.1 hne
    exact ⟨this, hi.books.isClass _ _ this⟩
  constructor
  case disjoint =>
    have hpair : h.live.Pairwise fun x y => x.1 ≠ y.1 := List.pairwise_map.1 ha.nodup
    refine hpair.imp_of_mem fun {x y} hx hy hne => ?_
    rw [hextent, hextent]
    rcases (hcut x hx).1.apart (hcut y hy).1 (hcut x hx).2 (hcut y hy).2 with ⟨heq, -⟩ | hor
    · exact absurd heq hne
    · exact hor
  case inside =>
    intro x hx
    have hin := (hcut x hx).1.inside (hcut x hx).2
    have h1 := hi.current
    have h2 := hi.avail
    rw [hextent]
    omega
  case large =>
    intro x hx
    rw [hextent]
    exact ha.large x hx
  case lists =>
    refine ⟨fl, hi.books.linked, hi.books.nodup, fun c c' hc => ?_, fun x hx c hmem => ?_,
      hi.books.curr⟩
    · intro a hmem hmem'
      exact hc (hi.books.unique c c' a ((hi.books.free c a).1 hmem).1 ((hi.books.free c' a).1 hmem').1)
    · exact (ha.mem x.1).1 (List.mem_map_of_mem hx) ((hi.books.free c x.1).1 hmem).2
  case avail =>
    simp only [hextent]
    exact ha.sum

/-! ## The calls -/

theorem Accounts.congr (ha : Accounts limit h) (hc : s'.clsid = h.alloc.clsid)
    (hf : s'.memFree = h.alloc.memFree) : Accounts limit { h with alloc := s' } where
  nodup := ha.nodup
  mem := by simpa only [hc] using ha.mem
  large := by simpa only [hc] using ha.large
  sum := by simpa only [hc, hf] using ha.sum

/-- A chunk is handed out. -/
theorem Accounts.hand {ptr id : Nat} {size : Size} (ha : Accounts limit h) (hid : id ≠ 0)
    (hsize : size.toNat ≤ (initClass id).size) (hz : h.alloc.clsid ptr = 0)
    (hc : s'.clsid = Function.update h.alloc.clsid ptr id)
    (hf : s'.memFree + (initClass id).size = h.alloc.memFree) :
    Accounts limit (h.hand size (some ptr, s')) := by
  have hnot : ptr ∉ h.live.map Prod.fst := fun hm => (ha.mem ptr).1 hm hz
  have hother : ∀ x ∈ h.live, s'.clsid x.1 = h.alloc.clsid x.1 := by
    intro x hx
    rw [hc, Function.update_of_ne]
    rintro rfl
    exact hnot (List.mem_map_of_mem hx)
  constructor
  case nodup => simpa [Heap.hand] using ⟨by simpa using hnot, ha.nodup⟩
  case mem =>
    intro a
    simp only [Heap.hand, Option.map_some, Option.toList_some, List.singleton_append, List.map_cons,
      List.mem_cons, hc]
    by_cases hp : a = ptr
    · subst hp
      simpa using hid
    · rw [Function.update_of_ne hp, ← ha.mem a]
      simp [hp]
  case large =>
    intro x hx
    simp only [Heap.hand, Option.map_some, Option.toList_some, List.singleton_append,
      List.mem_cons] at hx
    rcases hx with rfl | hx
    · simpa [Heap.hand, hc] using hsize
    · have := ha.large x hx
      simpa [Heap.hand, hother x hx] using this
  case sum =>
    have hsum := ha.sum
    have hmap : h.live.map (fun x => (initClass (s'.clsid x.1)).size) =
        h.live.map (fun x => (initClass (h.alloc.clsid x.1)).size) :=
      List.map_congr_left fun x hx => by rw [hother x hx]
    simp only [Heap.hand, Option.map_some, Option.toList_some, List.singleton_append, List.map_cons,
      List.sum_cons, hmap]
    rw [hc, Function.update_self]
    omega

/-- The only chunk at an address comes first. -/
theorem perm_cons_filter {l : List (Nat × Nat)} {p n : Nat} (hnd : (l.map Prod.fst).Nodup)
    (hx : (p, n) ∈ l) : l.Perm ((p, n) :: l.filter fun x => x.1 ≠ p) := by
  induction l with
  | nil => cases hx
  | cons y l ih =>
    simp only [List.map_cons, List.nodup_cons] at hnd
    rcases List.mem_cons.1 hx with rfl | hx
    · have hall : l.filter (fun x => x.1 ≠ p) = l := by
        refine List.filter_eq_self.2 fun x hx' => ?_
        have : x.1 ≠ p := by
          rintro rfl
          exact hnd.1 (List.mem_map.2 ⟨x, hx', rfl⟩)
        simpa using this
      rw [List.filter_cons_of_neg (by simp), hall]
    · have hy : y.1 ≠ p := fun he => hnd.1 (he ▸ List.mem_map_of_mem hx)
      rw [List.filter_cons_of_pos (by simpa using hy)]
      exact (List.Perm.cons y (ih hnd.2 hx)).trans (List.Perm.swap _ _ _)

/-- A chunk comes back. -/
theorem Accounts.free {ptr : Nat} (ha : Accounts limit h)
    (hc : s'.clsid = Function.update h.alloc.clsid ptr 0) (hlive : h.alloc.clsid ptr ≠ 0)
    (hf : s'.memFree = h.alloc.memFree + (initClass (h.alloc.clsid ptr)).size) :
    Accounts limit { alloc := s', live := h.live.filter fun x => x.1 ≠ ptr } := by
  have hother : ∀ x ∈ h.live.filter (fun x => x.1 ≠ ptr), s'.clsid x.1 = h.alloc.clsid x.1 := by
    intro x hx
    obtain ⟨-, hne⟩ := List.mem_filter.1 hx
    rw [hc, Function.update_of_ne (by simpa using hne)]
  constructor
  case nodup => exact ha.nodup.sublist (List.filter_sublist.map _)
  case mem =>
    intro a
    have hmem := ha.mem a
    rw [hc]
    by_cases hp : a = ptr
    · subst hp
      simp
    · rw [Function.update_of_ne hp, ← hmem]
      simp [hp]
  case large =>
    intro x hx
    have := ha.large x (List.mem_filter.1 hx).1
    rwa [hother x hx]
  case sum =>
    obtain ⟨⟨p, n⟩, hx, rfl⟩ := List.mem_map.1 ((ha.mem ptr).2 hlive)
    have hperm := perm_cons_filter ha.nodup hx
    have hsum := ha.sum
    rw [(hperm.map _).sum_eq, List.map_cons, List.sum_cons] at hsum
    have hmap : (h.live.filter fun x => x.1 ≠ p).map (fun x => (initClass (s'.clsid x.1)).size) =
        (h.live.filter fun x => x.1 ≠ p).map (fun x => (initClass (h.alloc.clsid x.1)).size) :=
      List.map_congr_left fun x hx => by rw [hother x hx]
    dsimp only at hf hsum ⊢
    rw [hmap, hf]
    omega

/-- Either kind of allocation. -/
theorem Good.alloc {size : Size} {newsize : Nat} (hg : Good base limit h)
    (hfit : h.alloc.slabsClsid newsize = 0 ∨ size.toNat ≤ newsize) :
    Good base limit (h.hand size (h.alloc.doSlabsAlloc newsize (h.alloc.slabsClsid newsize))) := by
  obtain ⟨⟨pages, fl, hi⟩, ha⟩ := hg
  by_cases h0 : h.alloc.slabsClsid newsize = 0
  · rw [h0, SlabAllocator.doSlabsAlloc, if_pos (by omega)]
    exact ⟨⟨pages, fl, hi⟩, ha⟩
  · obtain ⟨hne, hle⟩ := slabsClsid_spec h0
    have hsize : size.toNat ≤ newsize := hfit.resolve_left h0
    obtain heq | ⟨hid, ptr, s', pages', fl', heq, hi', hz, hc, hf⟩ :=
      hi.doSlabsAlloc (h.alloc.slabsClsid newsize) hne
    · rw [heq]
      exact ⟨⟨pages, fl, hi⟩, ha⟩
    · rw [heq]
      rw [hi.size] at hle
      exact ⟨⟨pages', fl', hi'⟩, ha.hand h0 (Nat.le_trans hsize hle) hz hc hf⟩

theorem Good.free {ptr : Nat} (hg : Good base limit h) (hfit : Call.Fits (.free ptr) h)
    (hs : h.alloc.sbFree ptr = some s') :
    Good base limit { alloc := s', live := h.live.filter fun x => x.1 ≠ ptr } := by
  obtain ⟨⟨pages, fl, hi⟩, ha⟩ := hg
  by_cases hz : h.alloc.clsid ptr = 0
  · obtain ⟨hi', hc, hf⟩ := hi.sbFree_free hz hs
    have hall : h.live.filter (fun x => x.1 ≠ ptr) = h.live := by
      refine List.filter_eq_self.2 fun x hx => ?_
      have : x.1 ≠ ptr := by
        rintro rfl
        exact (ha.mem x.1).1 (List.mem_map_of_mem hx) hz
      simpa using this
    rw [hall]
    exact ⟨⟨pages, fl, hi'⟩, ha.congr hc hf⟩
  · obtain ⟨⟨fl', hi'⟩, hc, hf⟩ := hi.sbFree_live hz (hfit hz) hs
    exact ⟨⟨pages, fl', hi'⟩, ha.free hc hz hf⟩

theorem Good.step {c : Call} (hg : Good base limit h) (hfit : c.Fits h) (hs : h.step c = some h') :
    Good base limit h' := by
  cases c with
  | malloc size =>
    obtain rfl := Option.some.inj hs
    refine hg.alloc (.inr ?_)
    simp [SlabAllocator.prefixSize]
  | alignedMalloc size block =>
    obtain rfl := Option.some.inj hs
    refine hg.alloc ?_
    have hzero : size + SlabAllocator.prefixSize = size := BitVec.add_zero size
    rw [hzero]
    exact hfit
  | free ptr =>
    obtain ⟨s', hs', rfl⟩ := Option.map_eq_some_iff.1 hs
    exact hg.free hfit hs'

/-! ## Initialisation -/

theorem inv_empty (hbase : base ≠ 0) :
    Inv base limit [] (fun _ => []) (SlabAllocator.empty base limit malloced) where
  books := by
    have hcurr : ∀ c, (initClass c).slCurr = 0 ∧ (initClass c).slots = none := by
      intro c
      unfold initClass
      split
      · exact ⟨rfl, rfl⟩
      · split <;> exact ⟨rfl, rfl⟩
    constructor
    case linked =>
      intro c
      simp only [SlabAllocator.empty, (hcurr c).2]
      exact .nil
    case curr =>
      intro c
      simp only [SlabAllocator.empty, (hcurr c).1, List.length_nil]
    all_goals simp [SlabAllocator.empty, Cut, SlabAllocator.clsid]
  classes := rfl
  size _ := rfl
  perslab _ := rfl
  current := by simp [SlabAllocator.empty]
  avail := by simp [SlabAllocator.empty, hbase]
  sized := by simp [SlabAllocator.empty, SlabAllocator.clsid]
  room := by
    have hzero : freeBytes (SlabAllocator.empty base limit malloced) = 0 := by
      refine Finset.sum_eq_zero fun c _ => ?_
      have : (initClass c).slCurr = 0 := by
        unfold initClass
        split
        · rfl
        · split <;> rfl
      simp [SlabAllocator.empty, this]
    rw [hzero]
    simp [SlabAllocator.empty, hbase]

/-- A page for each of the classes from `i` on. -/
theorem Inv.preallocate {n i : Nat} (hi : Inv base limit pages fl s) (h1 : 1 ≤ i)
    (hn : i + n = sizes.length + 1) (hz : ∀ c, i ≤ c → (s.slabclass c).slCurr = 0)
    (hp : ∀ c, 1 ≤ c → c < i → 0 < (s.slabclass c).slCurr)
    (hs : (List.range' i n).foldlM (fun s id => s.doSlabsNewslab id) s = some s') :
    (∃ pages' fl', Inv base limit pages' fl' s') ∧ s'.clsid = s.clsid ∧ s'.memFree = s.memFree ∧
      ∀ c, IsClass c → 0 < (s'.slabclass c).slCurr := by
  induction n generalizing i s pages fl with
  | zero =>
    obtain rfl : s = s' := by simpa using hs
    refine ⟨⟨pages, fl, hi⟩, rfl, rfl, fun c hc => hp c hc.1 ?_⟩
    have := hc.2
    omega
  | succ n ih =>
    rw [List.range'_succ, List.foldlM_cons] at hs
    obtain ⟨t, ht, hs⟩ := Option.bind_eq_some_iff.1 hs
    have hid : IsClass i := ⟨h1, by omega⟩
    obtain ⟨⟨fl', hi'⟩, hpos, hothers, hc, hf, -⟩ := hi.newslab hid (hz i (Nat.le_refl i)) ht
    have hz' : ∀ c, i + 1 ≤ c → (t.slabclass c).slCurr = 0 := by
      intro c hle
      rw [hothers c (by omega)]
      exact hz c (by omega)
    have hp' : ∀ c, 1 ≤ c → c < i + 1 → 0 < (t.slabclass c).slCurr := by
      intro c hc1 hlt
      by_cases hci : c = i
      · exact hci ▸ hpos
      · rw [hothers c hci]
        exact hp c hc1 (by omega)
    obtain ⟨hinv, hc', hf', hall⟩ := ih hi' (by omega) (by omega) hz' hp' hs
    exact ⟨hinv, hc'.trans hc, hf'.trans hf, hall⟩

theorem base_ne_zero_of_slabsInit (h : slabsInit base limit malloced = some s₀) : base ≠ 0 := by
  have hlen : sizes.length = (sizes.length - 1) + 1 := by decide +kernel
  unfold slabsInit SlabAllocator.slabsPreallocate at h
  have hpl : (SlabAllocator.empty base limit malloced).powerLargest = sizes.length - 1 + 1 := hlen
  rw [hpl, List.range'_succ, List.foldlM_cons] at h
  obtain ⟨t, ht, -⟩ := Option.bind_eq_some_iff.1 h
  unfold SlabAllocator.doSlabsNewslab at ht
  simp only [Option.ite_none_left_eq_some] at ht
  obtain ⟨x, halloc, -⟩ := Option.map_eq_some_iff.1 ht.2
  exact (memoryAllocate_page halloc).1

theorem slabsInit_spec (h : slabsInit base limit malloced = some s₀) :
    Good base limit { alloc := s₀ } ∧ ∀ c, IsClass c → 0 < (s₀.slabclass c).slCurr := by
  have hi : Inv base limit [] (fun _ => []) (SlabAllocator.empty base limit malloced) :=
    inv_empty (base_ne_zero_of_slabsInit h)
  obtain ⟨hinv, hc, hf, hpos⟩ := hi.preallocate (Nat.le_refl 1) (Nat.add_comm _ _)
    (fun c _ => hi.books.curr c) (by omega) h
  refine ⟨⟨hinv, ?_⟩, hpos⟩
  have hclsid : ∀ a, s₀.clsid a = 0 := by
    intro a
    rw [hc]
    rfl
  constructor
  case nodup => exact .nil
  case mem => simp [hclsid]
  case large => simp
  case sum =>
    simp only [List.map_nil, List.sum_nil, Nat.add_zero, hf]
    rfl

/-- The allocator is safe in every state of every run whose calls fit. -/
theorem safe_of_reaches (hinit : slabsInit base limit malloced = some s₀)
    (hr : Reaches (fun c h => h.step c) Call.Fits { alloc := s₀ } h) : Safe base limit h := by
  refine Good.safe (hr.invariant (slabsInit_spec hinit).1 ?_)
  intro c t t' hg hfit hs
  exact hg.step hfit hs

end

/-! ## Powers of two -/

/-- A mask splits a number into the part below a power of two and the rest. -/
theorem mod_add_and_not {k : Nat} {m : Size} (hm : m.toNat = 2 ^ k - 1) (y : Size) :
    y.toNat % 2 ^ k + (y &&& ~~~m).toNat = y.toNat := by
  have hdis : (y &&& m) &&& (y &&& ~~~m) = 0#64 := by
    ext i
    simp only [BitVec.getElem_and, BitVec.getElem_not, BitVec.getElem_zero]
    cases y[i] <;> cases m[i] <;> rfl
  have hor : (y &&& m) ||| (y &&& ~~~m) = y := by
    ext i
    simp only [BitVec.getElem_or, BitVec.getElem_and, BitVec.getElem_not]
    cases y[i] <;> cases m[i] <;> rfl
  have hadd := BitVec.toNat_add_of_and_eq_zero hdis
  rw [BitVec.add_eq_or_of_and_eq_zero _ _ hdis, hor, BitVec.toNat_and y, hm,
    Nat.and_two_pow_sub_one_eq_mod] at hadd
  exact hadd.symm

/-- An alignment to a power of two, such as BLOCK_SIZE, fits. -/
theorem fits_alignedMalloc_twoPow (size : Size) {k : Nat} (hk : k < 64) (h : Heap) :
    Call.Fits (.alignedMalloc size (BitVec.ofNat 64 (2 ^ k))) h := by
  have hlt : 2 ^ k < 2 ^ 64 := Nat.pow_lt_pow_right (by decide) hk
  have hpos : 0 < 2 ^ k := Nat.two_pow_pos k
  have htwo : (BitVec.ofNat 64 (2 ^ k)).toNat = 2 ^ k := by
    rw [BitVec.toNat_ofNat, Nat.mod_eq_of_lt hlt]
  have hmask : (BitVec.ofNat 64 (2 ^ k) - 1).toNat = 2 ^ k - 1 := by
    rw [BitVec.toNat_sub_of_le (BitVec.le_def.2 (by rw [htwo]; exact hpos)), htwo]
    rfl
  have hsplit := mod_add_and_not hmask (size + (BitVec.ofNat 64 (2 ^ k) - 1))
  have hmod := Nat.mod_lt (size + (BitVec.ofNat 64 (2 ^ k) - 1)).toNat hpos
  change h.alloc.slabsClsid (align size (BitVec.ofNat 64 (2 ^ k))).toNat = 0 ∨
    size ≤ align size (BitVec.ofNat 64 (2 ^ k))
  rw [BitVec.le_def]
  by_cases hwrap : size.toNat + (2 ^ k - 1) < 2 ^ 64
  · have hsum : (size + (BitVec.ofNat 64 (2 ^ k) - 1)).toNat = size.toNat + (2 ^ k - 1) := by
      rw [BitVec.toNat_add, hmask, Nat.mod_eq_of_lt hwrap]
    right
    unfold align
    omega
  · -- the sum wraps around to less than the power of two, and all of it is masked
    have hsize := size.isLt
    have hsum : (size + (BitVec.ofNat 64 (2 ^ k) - 1)).toNat = size.toNat + (2 ^ k - 1) - 2 ^ 64 := by
      rw [BitVec.toNat_add, hmask, Nat.mod_eq_sub_mod (by omega), Nat.mod_eq_of_lt (by omega)]
    have hz : (align size (BitVec.ofNat 64 (2 ^ k))).toNat = 0 := by
      rw [Nat.mod_eq_of_lt (by omega)] at hsplit
      unfold align
      omega
    left
    rw [hz]
    rfl

/-! ## A region that is accepted -/

section
variable {base limit malloced : Nat} {s s₀ : SlabAllocator} {pages : List Nat} {fl : Nat → List Nat}

theorem exists_newslab {id : Nat} (hnone : (s.slabclass id).slabList = []) (hbase : s.memBase ≠ 0)
    (havail : itemSizeMax ≤ s.memAvail) : ∃ t, s.doSlabsNewslab id = some t := by
  unfold SlabAllocator.doSlabsNewslab SlabAllocator.memoryAllocate
  simp [hnone, hbase, Nat.not_lt.2 havail]

theorem Inv.exists_preallocate {n i : Nat} (hi : Inv base limit pages fl s) (h1 : 1 ≤ i)
    (hn : i + n = sizes.length + 1) (hz : ∀ c, i ≤ c → (s.slabclass c).slCurr = 0)
    (hl : ∀ c, i ≤ c → (s.slabclass c).slabList = []) (hbase : s.memBase ≠ 0)
    (havail : n * itemSizeMax ≤ s.memAvail) :
    ∃ t, (List.range' i n).foldlM (fun s id => s.doSlabsNewslab id) s = some t := by
  induction n generalizing i s pages fl with
  | zero => exact ⟨s, rfl⟩
  | succ n ih =>
    rw [Nat.succ_mul] at havail
    obtain ⟨t, ht⟩ := exists_newslab (hl i (Nat.le_refl i)) hbase (by omega)
    obtain ⟨⟨fl', hi'⟩, -, hothers, -, -, hbase', havail', hlists⟩ :=
      hi.newslab ⟨h1, by omega⟩ (hz i (Nat.le_refl i)) ht
    have hz' : ∀ c, i + 1 ≤ c → (t.slabclass c).slCurr = 0 := by
      intro c hc
      rw [hothers c (by omega)]
      exact hz c (by omega)
    have hl' : ∀ c, i + 1 ≤ c → (t.slabclass c).slabList = [] := by
      intro c hc
      rw [hlists c (by omega)]
      exact hl c (by omega)
    obtain ⟨u, hu⟩ := ih hi' (by omega) (by omega) hz' hl' (by rwa [hbase']) (by omega)
    refine ⟨u, ?_⟩
    rw [List.range'_succ, List.foldlM_cons, ht]
    exact hu

/-- A region with a page for every class is accepted. -/
theorem exists_slabsInit (hbase : base ≠ 0) (hlimit : sizes.length * itemSizeMax ≤ limit) :
    ∃ s₀, slabsInit base limit malloced = some s₀ := by
  have hi : Inv base limit [] (fun _ => []) (SlabAllocator.empty base limit malloced) :=
    inv_empty hbase
  refine hi.exists_preallocate (Nat.le_refl 1) (Nat.add_comm _ _) (fun c _ => hi.books.curr c)
    (fun c _ => ?_) hbase ?_
  · simp only [SlabAllocator.empty]
    unfold initClass
    split
    · rfl
    · split <;> rfl
  · simpa [SlabAllocator.empty, hbase] using hlimit

/-- Right after the start, a small request gets a chunk of the first class. -/
theorem small_alloc (size : Size) {newsize : Nat} (hinit : slabsInit base limit malloced = some s₀)
    (h0 : newsize ≠ 0) (hle : newsize ≤ (initClass 1).size) :
    ∃ ptr s', Heap.hand { alloc := s₀ } size (s₀.doSlabsAlloc newsize (s₀.slabsClsid newsize)) =
      { alloc := s', live := [(ptr, size.toNat)] } ∧ s'.clsid ptr = 1 ∧
      s'.extent ptr = (initClass 1).size := by
  obtain ⟨⟨⟨pages, fl, hi⟩, -⟩, hpos⟩ := slabsInit_spec hinit
  have hid : IsClass 1 := ⟨Nat.le_refl 1, by decide +kernel⟩
  have hone : s₀.slabsClsid newsize = 1 := by
    have hn : ¬ newsize > (s₀.slabclass 1).size := by
      rw [hi.size]
      omega
    unfold SlabAllocator.slabsClsid
    rw [if_neg h0]
    cases s₀.powerLargest - 1 with
    | zero => rw [SlabAllocator.clsidFrom, if_neg hn]
    | succ n => rw [SlabAllocator.clsidFrom, if_neg hn]
  have hne : (s₀.slabclass 1).slCurr ≠ 0 := Nat.pos_iff_ne_zero.1 (hpos 1 hid)
  obtain ⟨ptr, fl', s', htake, hi', -, hc, -⟩ := hi.takeSlot hid h0 hne
  have hrun : s₀.doSlabsAlloc newsize 1 = (some ptr, s') := by
    have hn : ¬ (1 < 1 ∨ s₀.powerLargest < 1) := by
      have hpl := hi.classes
      have hlen := hid.2
      rintro (hlt | hlt)
      · exact absurd hlt (Nat.lt_irrefl 1)
      · rw [hpl] at hlt
        omega
    rw [SlabAllocator.doSlabsAlloc, if_neg hn, if_pos hne, htake]
  have hcls : s'.clsid ptr = 1 := by rw [hc, Function.update_self]
  refine ⟨ptr, s', ?_, hcls, ?_⟩
  · rw [hone, hrun]
    rfl
  · rw [SlabAllocator.extent, hcls, hi'.size]

end

/-- A request of 40 bytes in a region of 256MB. -/
theorem safe_malloc : ∃ s₀ h ptr, slabsInit 4096 (2 ^ 28) 0 = some s₀ ∧
    Reaches (fun c h => Heap.step c h) Call.Fits { alloc := s₀ } h ∧ h.live = [(ptr, 40)] ∧
    Safe 4096 (2 ^ 28) h := by
  obtain ⟨s₀, hinit⟩ : ∃ s₀, slabsInit 4096 (2 ^ 28) 0 = some s₀ :=
    exists_slabsInit (by decide) (by decide +kernel)
  obtain ⟨ptr, s', hrun, -, -⟩ := small_alloc 40 hinit (show 40 ≠ 0 by decide)
    (by decide +kernel)
  have hr : Reaches (fun c h => Heap.step c h) Call.Fits { alloc := s₀ }
      { alloc := s', live := [(ptr, 40)] } :=
    Reaches.refl.tail (a := .malloc 40) trivial (congrArg some hrun)
  exact ⟨s₀, _, ptr, hinit, hr, rfl, safe_of_reaches hinit hr⟩

/-- Rounding 2^64 - 3 up to a multiple of 6 wraps around to 2: the chunk has 48 bytes. -/
theorem not_safe : ¬ ∀ base limit malloced s₀ h, slabsInit base limit malloced = some s₀ →
    Reaches (fun c h => Heap.step c h) anyStep { alloc := s₀ } h → Safe base limit h := by
  intro hall
  obtain ⟨s₀, hinit⟩ : ∃ s₀, slabsInit 4096 (2 ^ 28) 0 = some s₀ :=
    exists_slabsInit (by decide) (by decide +kernel)
  obtain ⟨ptr, s', hrun, -, hextent⟩ := small_alloc (-3) hinit (show 2 ≠ 0 by decide)
    (by decide +kernel)
  have hr : Reaches (fun c h => Heap.step c h) anyStep { alloc := s₀ }
      { alloc := s', live := [(ptr, (-3 : Size).toNat)] } :=
    Reaches.refl.tail (a := .alignedMalloc (-3) 6) trivial (congrArg some hrun)
  have hlarge := (hall 4096 (2 ^ 28) 0 s₀ _ hinit hr).large (ptr, (-3 : Size).toNat) (by simp)
  have h48 : (initClass 1).size < (-3 : Size).toNat := by decide +kernel
  dsimp only at hlarge
  rw [hextent] at hlarge
  omega

end HwGam.Slabs
