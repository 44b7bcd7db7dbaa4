import HwGam.Lib.Transition
import Mathlib.Algebra.Ring.Int.Defs
import Mathlib.Data.BitVec

/-!
# The slab allocator

`SlabAllocator` (`slabs.cc`) in preallocated mode with the default chunk size and growth factor,
without DHT and with assertions off, as the Makefile builds it. A region is cut into pages of 1MB;
each page belongs to a class and is cut into chunks of its size. The free chunks of a class are
threaded through items that stand beside the region and are found by the address of their chunk.
-/

namespace HwGam.Slabs

/-- `ITEM_SIZE_MAX`, the size of a page -/
def itemSizeMax : Nat := 1024 * 1024

/-- `POWER_LARGEST` -/
def maxClasses : Nat := 200

/-- `CHUNK_ALIGN_BYTES` -/
def chunkAlign : Nat := 8

/-- `chunk_size` -/
def chunkSize : Nat := 48

/-- `BLOCK_SIZE` -/
def blockSize : Nat := 512

/-- `item`; the items are named by the address of their chunk, `data`. -/
structure Item where
  next : Option Nat := none
  size : Nat := 0
  slabsClsid : Nat := 0
  deriving DecidableEq, Repr

/-- `slabclass_t` -/
structure SlabClass where
  size : Nat := 0
  perslab : Nat := 0
  slots : Option Nat := none
  /-- an `unsigned int` -/
  slCurr : Nat := 0
  slabList : List Nat := []
  deriving DecidableEq, Repr

structure SlabAllocator where
  slabclass : Nat → SlabClass
  powerLargest : Nat
  memLimit : Nat
  memMalloced : Nat
  /-- zero if the region could not be mapped -/
  memBase : Nat
  memCurrent : Nat
  memAvail : Nat
  memFree : Nat
  statsMap : Nat → Option Item := fun _ => none

/-! ## Free and alloc -/

namespace SlabAllocator

variable (s : SlabAllocator)

/-- `get_avail` -/
def getAvail : Nat := s.memFree

def setClass (id : Nat) (p : SlabClass) : SlabAllocator :=
  { s with slabclass := Function.update s.slabclass id p }

def setItem (ptr : Nat) (it : Item) : SlabAllocator :=
  { s with statsMap := Function.update s.statsMap ptr (some it) }

/-- The loop of `slabs_clsid` from class `res` on, with `n` classes after it. -/
def clsidFrom (size : Nat) : Nat → Nat → Nat
  | 0, res => if size > (s.slabclass res).size then 0 else res
  | n + 1, res => if size > (s.slabclass res).size then clsidFrom size n (res + 1) else res

/-- `slabs_clsid` -/
def slabsClsid (size : Nat) : Nat :=
  if size = 0 then 0 else s.clsidFrom size (s.powerLargest - 1) 1

/-- `do_slabs_free`; a chunk that is carved out of a new page has no item yet and comes with size 0. -/
def doSlabsFree (ptr size id : Nat) : SlabAllocator :=
  if id < 1 ∨ s.powerLargest < id then s
  else
    let p := s.slabclass id
    let it := (s.statsMap ptr).getD {}
    let s := s.setItem ptr { it with next := p.slots }
    let s := s.setClass id { p with slots := some ptr, slCurr := (p.slCurr + 1) % 2 ^ 32 }
    if size ≠ 0 then { s with memFree := s.memFree + p.size } else s

/-- The loop of `split_slab_page_into_freelist`, with `n` chunks to go. -/
def splitSlabPage (id : Nat) : Nat → Nat → SlabAllocator → SlabAllocator
  | 0, _, s => s
  | n + 1, ptr, s => splitSlabPage id n (ptr + (s.slabclass id).size) (s.doSlabsFree ptr 0 id)

/-- `memory_allocate` -/
def memoryAllocate (size : Nat) : Option (Nat × SlabAllocator) :=
  if s.memBase = 0 then none
  else if size > s.memAvail then none
  else
    let size' := if size % chunkAlign ≠ 0 then size + (chunkAlign - size % chunkAlign) else size
    some (s.memCurrent, { s with
      memCurrent := s.memCurrent + size'
      memAvail := if size' < s.memAvail then s.memAvail - size' else 0 })

/-- `do_slabs_newslab`; `none` if it fails. -/
def doSlabsNewslab (id : Nat) : Option SlabAllocator :=
  let p := s.slabclass id
  -- slab_reassign is set
  let len := itemSizeMax
  if s.memLimit ≠ 0 ∧ (s.memMalloced + len) % 2 ^ 64 > s.memLimit ∧ p.slabList.length > 0 then none
  else (s.memoryAllocate len).map fun x =>
    let s := splitSlabPage id p.perslab x.1 x.2
    let p := s.slabclass id
    { s.setClass id { p with slabList := p.slabList ++ [x.1] } with
      memMalloced := (s.memMalloced + len) % 2 ^ 64 }

/-- The head of the free list is handed out. -/
def takeSlot (size id : Nat) : Option Nat × SlabAllocator :=
  let p := s.slabclass id
  match p.slots with
  | some ptr =>
    let it := (s.statsMap ptr).getD {}
    let s := s.setItem ptr { it with size := size, slabsClsid := id }
    let s := s.setClass id { p with slots := it.next, slCurr := p.slCurr - 1 }
    (some ptr, { s with memFree := s.memFree - p.size })
  | none => (none, s)

/-- `do_slabs_alloc` -/
def doSlabsAlloc (size id : Nat) : Option Nat × SlabAllocator :=
  if id < 1 ∨ s.powerLargest < id then (none, s)
  else if (s.slabclass id).slCurr ≠ 0 then s.takeSlot size id
  else match s.doSlabsNewslab id with
    | none => (none, s)
    | some s => if (s.slabclass id).slCurr ≠ 0 then s.takeSlot size id else (none, s)

end SlabAllocator

/-! ## The interface -/

/-- `size_t` -/
abbrev Size := BitVec 64

/-- `ALIGN` -/
def align (x a : Size) : Size := (x + (a - 1)) &&& ~~~(a - 1)

namespace SlabAllocator

variable (s : SlabAllocator)

/-- `SB_PREFIX_SIZE` -/
def prefixSize : Size := 0

/-- `sb_malloc`; `none` is the null pointer. -/
def sbMalloc (size : Size) : Option Nat × SlabAllocator :=
  let newsize := (size + prefixSize).toNat
  s.doSlabsAlloc newsize (s.slabsClsid newsize)

/-- `sb_aligned_malloc` -/
def sbAlignedMalloc (size block : Size) : Option Nat × SlabAllocator :=
  let newsize := (align (size + prefixSize) block).toNat
  s.doSlabsAlloc newsize (s.slabsClsid newsize)

/-- `sb_free`; `none` is the exception of `stats_map.at`. -/
def sbFree (ptr : Nat) : Option SlabAllocator :=
  (s.statsMap ptr).map fun it =>
    (s.setItem ptr { it with size := 0, slabsClsid := 0 }).doSlabsFree ptr it.size it.slabsClsid

end SlabAllocator

/-! ## Initialisation -/

/-- The loop of `slabs_init` from class `i` on: the sizes of the classes. The growth factor 1.25 is
exact in a `double`, and so are the products. -/
def classSizes : Nat → Nat → Nat → Nat → List Nat
  | 0, _, _, _ => []
  | fuel + 1, i, size, preSize =>
    if i < maxClasses ∧ size * 5 ≤ itemSizeMax * 4 then
      let size := if size % chunkAlign ≠ 0 then size + (chunkAlign - size % chunkAlign) else size
      if preSize / blockSize < size / blockSize ∧ size % blockSize ≠ 0 then
        size / blockSize * blockSize :: size :: classSizes fuel (i + 2) (size * 5 / 4) size
      else size :: classSizes fuel (i + 1) (size * 5 / 4) size
    else []

/-- The sizes of all classes, from class 1 on; the last is a whole page. -/
def sizes : List Nat := classSizes maxClasses 1 chunkSize chunkSize ++ [itemSizeMax]

def initClass (id : Nat) : SlabClass :=
  match id with
  | 0 => {}
  | n + 1 => match sizes[n]? with
    | some size => { size, perslab := itemSizeMax / size }
    | none => {}

/-- `slabs_init` before the preallocation; `base` is the mapped region and `malloced` what
T_MEMD_INITIAL_MALLOC says. -/
def SlabAllocator.empty (base limit malloced : Nat) : SlabAllocator where
  slabclass := initClass
  powerLargest := sizes.length
  memLimit := limit
  memMalloced := malloced
  memBase := base
  memCurrent := base
  memAvail := if base = 0 then 0 else limit
  memFree := limit

/-- The loop of `slabs_preallocate`: a page for every class, or the process exits. -/
def SlabAllocator.slabsPreallocate (s : SlabAllocator) : Option SlabAllocator :=
  (List.range' 1 s.powerLargest).foldlM (fun s id => s.doSlabsNewslab id) s

/-- `slabs_init` in preallocated mode; `none` if the region is refused. -/
def slabsInit (base limit malloced : Nat) : Option SlabAllocator :=
  (SlabAllocator.empty base limit malloced).slabsPreallocate

/-! ## Runs -/

/-- The allocator and the chunks handed out and not freed, with the sizes asked for. -/
structure Heap where
  alloc : SlabAllocator
  live : List (Nat × Nat) := []

inductive Call
  | malloc (size : Size)
  | alignedMalloc (size block : Size)
  | free (ptr : Nat)
  deriving DecidableEq, Repr

namespace Heap

variable (h : Heap)

def hand (size : Size) (x : Option Nat × SlabAllocator) : Heap where
  alloc := x.2
  live := (x.1.map fun ptr => (ptr, size.toNat)).toList ++ h.live

def step (c : Call) (h : Heap) : Option Heap :=
  match c with
  | .malloc size => some (h.hand size (h.alloc.sbMalloc size))
  | .alignedMalloc size block => some (h.hand size (h.alloc.sbAlignedMalloc size block))
  | .free ptr => (h.alloc.sbFree ptr).map fun s =>
    { alloc := s, live := h.live.filter fun x => x.1 ≠ ptr }

end Heap

end HwGam.Slabs
