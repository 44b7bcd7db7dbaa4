import HwGam.Lib.Transition
import Mathlib.Data.Int.Log
import Mathlib.Data.Rat.Floor

/-!
# The global array

`GArray` (`garray.h`) over a store of buckets: the items are in the buckets of the last layer, and a
bucket of the layers above holds the addresses of buckets of the next one. The header in global
memory is what every call starts from (`SyncFrom`) and `Resize` leaves behind (`SyncTo`); here it is
the array itself. The number of layers is the exact value of the logarithm.
-/

namespace HwGam.GArray

/-- `sizeof(GAddr)` -/
def gaddrSize : Nat := 8

/-- A bucket, by byte offset: the layers above the last one use the pointers, the last the items. -/
structure Bucket (T : Type) where
  ptr : Nat → Nat
  item : Nat → T

/-- The parameters of the template, with room for two items and two addresses in a bucket, and what
is found in a bucket that has just been allocated. -/
structure Config (T : Type) where
  itemSize : Nat
  bucketSize : Nat
  two_items : 2 ≤ bucketSize / itemSize
  two_gaddrs : 2 ≤ bucketSize / gaddrSize
  fresh : Nat → Bucket T

namespace Config

variable {T : Type} (c : Config T)

def itemsPerBucket : Nat := c.bucketSize / c.itemSize

def gaddrsPerBucket : Nat := c.bucketSize / gaddrSize

end Config

/-- A byte of a bucket. -/
structure GAddr where
  bucket : Nat
  off : Nat
  deriving DecidableEq, Repr

/-! ## The store -/

/-- The buckets that are allocated, the name of the next one, and those freed so far. -/
structure Memory (T : Type) where
  bucket : Nat → Option (Bucket T) := fun _ => none
  next : Nat := 0
  freed : List Nat := []

namespace Memory

variable {T : Type} (m : Memory T)

/-- `AlignedMalloc` -/
def malloc (c : Config T) : Nat × Memory T :=
  (m.next, { m with
    bucket := Function.update m.bucket m.next (some (c.fresh m.next)), next := m.next + 1 })

/-- `Free`; a bucket that is not allocated cannot be freed. -/
def free (b : Nat) : Option (Memory T) :=
  if (m.bucket b).isSome then
    some { m with bucket := Function.update m.bucket b none, freed := m.freed ++ [b] }
  else none

def readPtr (a : GAddr) : Option Nat := (m.bucket a.bucket).map fun b => b.ptr a.off

def readItem (a : GAddr) : Option T := (m.bucket a.bucket).map fun b => b.item a.off

def writePtr (a : GAddr) (v : Nat) : Option (Memory T) :=
  (m.bucket a.bucket).map fun b => { m with
    bucket := Function.update m.bucket a.bucket (some { b with ptr := Function.update b.ptr a.off v }) }

def writeItem (a : GAddr) (v : T) : Option (Memory T) :=
  (m.bucket a.bucket).map fun b => { m with
    bucket := Function.update m.bucket a.bucket (some { b with item := Function.update b.item a.off v }) }

/-- The loop over the layers: one pointer is read in each. -/
def descend (root : Nat) (offs : List Nat) : Option Nat :=
  offs.foldlM (fun curr off => m.readPtr ⟨curr, gaddrSize * off⟩) root

end Memory

/-! ## Layers -/

/-- `ceil_divide` -/
def ceilDivide (a b : Nat) : Nat := (a + b - 1) / b

namespace Config

variable {T : Type} (c : Config T)

/-- `Layers` -/
def layers (size : Nat) : Int :=
  Int.clog c.gaddrsPerBucket ((size : ℚ) / c.itemsPerBucket) + 1

/-- `Capacity` -/
def capacity (size : Nat) : Nat := ceilDivide size c.itemsPerBucket * c.itemsPerBucket

/-- `layers[k]` after `CalLayers`: the number of buckets in layer `k + 1` of `layer` layers. -/
def calLayers (size layer k : Nat) : Nat :=
  (fun n => ceilDivide n c.gaddrsPerBucket)^[layer - 1 - k] (ceilDivide size c.itemsPerBucket)

/-- `offs[0]` to `offs[n - 1]`, computed from the last one to the first. -/
def offsets : Nat → Nat → List Nat
  | 0, _ => []
  | n + 1, bks => offsets n (bks / c.gaddrsPerBucket) ++ [bks % c.gaddrsPerBucket]

/-- `LocateInternal` -/
def locateInternal (m : Memory T) (root totalLayer layer idx : Nat) : Option GAddr :=
  let numPerBucket := if layer = totalLayer then c.itemsPerBucket else c.gaddrsPerBucket
  let itemSize := if layer = totalLayer then c.itemSize else gaddrSize
  (m.descend root (c.offsets (layer - 1) (idx / numPerBucket))).map fun curr =>
    ⟨curr, idx % numPerBucket * itemSize⟩

/-- `InsertBlock` -/
def insertBlock (root totalLayer l idx newbk : Nat) (m : Memory T) : Option (Memory T) :=
  (c.locateInternal m root totalLayer l idx).bind fun addr => m.writePtr addr newbk

/-- The loop that allocates the blocks `js` of layer `l + 1` and inserts them. -/
def addBlocks (root totalLayer l : Nat) (js : List Nat) (m : Memory T) : Option (Memory T) :=
  js.foldlM (fun m j => c.insertBlock root totalLayer l j (m.malloc c).1 (m.malloc c).2) m

/-- The loop over the layers `ls`, from `lo l` blocks to `hi l`. -/
def addLayers (root totalLayer : Nat) (lo hi : Nat → Nat) (ls : List Nat) (m : Memory T) :
    Option (Memory T) :=
  ls.foldlM (fun m l => c.addBlocks root totalLayer l (List.range' (lo l) (hi l - lo l)) m) m

end Config

/-! ## The array -/

/-- The members of `GArray` that are in its header. -/
structure Header where
  rootAddr : Nat
  size : Nat
  capacity : Nat
  layer : Int
  deriving DecidableEq, Repr

/-- The array and the store; `content i` is the last value written at `i`, if `i` has been below the
size since. -/
structure Sys (T : Type) where
  mem : Memory T
  arr : Header
  content : Nat → Option T := fun _ => none

namespace Config

variable {T : Type} (c : Config T)

/-- `Locate`; with no layer there is no `offs[layer_ - 1]`. -/
def locate (s : Sys T) (off : Nat) : Option GAddr :=
  if s.arr.layer < 1 then none
  else (s.mem.descend s.arr.rootAddr
      (c.offsets (s.arr.layer.toNat - 1) (off / c.itemsPerBucket))).map fun curr =>
    ⟨curr, off % c.itemsPerBucket * c.itemSize⟩

/-- `Read` -/
def read (s : Sys T) (i : Nat) : Option T := (c.locate s i).bind s.mem.readItem

/-- `Write` -/
def write (i : Nat) (v : T) (s : Sys T) : Option (Sys T) :=
  (c.locate s i).bind fun addr => (s.mem.writeItem addr v).map fun m =>
    { s with mem := m, content := Function.update s.content i (some v) }

/-- The constructor; its loops count the blocks of a layer in an `int`. -/
def create (size : Nat) : Option (Sys T) :=
  let root := (({} : Memory T).malloc c).1
  let m := (({} : Memory T).malloc c).2
  if size ≤ c.itemsPerBucket then
    some { mem := m, arr := ⟨root, size, c.itemsPerBucket, 1⟩ }
  else
    let layer := (c.layers size).toNat
    if 2 ^ 31 ≤ ceilDivide size c.itemsPerBucket then none
    else (c.addLayers root layer (fun _ => 0) (c.calLayers size layer) (List.range' 1 (layer - 1)) m).map
      fun m => { mem := m, arr := ⟨root, size, c.capacity size, c.layers size⟩ }

/-- The blocks of a larger array: `Resize` for `n > capacity_`. -/
def grow (n : Nat) (s : Sys T) : Option (Nat × Memory T) :=
  let oldLayer := s.arr.layer.toNat
  let layer := (c.layers n).toNat
  let old := c.calLayers s.arr.size oldLayer
  let new := c.calLayers n layer
  if s.arr.layer < c.layers n then do
    let d := layer - oldLayer
    let root := (s.mem.malloc c).1
    let m := (s.mem.malloc c).2
    -- the layers above the old root
    let m ← c.addLayers root layer (fun _ => 0) new (List.range' 1 (d - 1)) m
    -- the layer of the old root
    let m ← c.insertBlock root layer d 0 s.arr.rootAddr m
    let m ← c.addBlocks root layer d (List.range' 1 (new d - 1)) m
    -- the layers below
    let m ← c.addLayers root layer (fun i => old (i - d)) new (List.range' (d + 1) (layer - (d + 1))) m
    pure (root, m)
  else do
    let m ← c.addLayers s.arr.rootAddr oldLayer old new (List.range' 1 (layer - 1)) s.mem
    pure (s.arr.rootAddr, m)

/-- The block `j` of layer `i + 1` is freed, found through its parent. -/
def freeBlock (root totalLayer i j : Nat) (m : Memory T) : Option (Memory T) :=
  (c.locateInternal m root totalLayer i j).bind fun parent => (m.readPtr parent).bind m.free

/-- The values of `for (int j = old - 1; j >= new; j--)`. -/
def countDown (old new : Nat) : List Nat :=
  let start := ((old : Int) - 1).bmod (2 ^ 32)
  (List.range' new (start + 1 - new).toNat).reverse

/-- `new_layers[i]` of a smaller array: `CalLayers` fills the last `layer` entries, the last one of
all in any case. -/
def newLayers (n oldLayer : Nat) (layer : Int) (i : Nat) : Nat :=
  if i + 1 = oldLayer ∨ oldLayer ≤ i + layer then c.calLayers n oldLayer i else 0

/-- `Resize` for `n < size_`: the new root, and the blocks that are freed bottom-up. -/
def shrink (n : Nat) (s : Sys T) : Option (Nat × Memory T) := do
  let oldLayer := s.arr.layer.toNat
  let layer := c.layers n
  let reduced := (s.arr.layer - layer).toNat
  let root ← s.mem.descend s.arr.rootAddr (List.replicate reduced 0)
  let old := c.calLayers s.arr.size oldLayer
  let new := c.newLayers n oldLayer layer
  let m ← (List.range' 1 (oldLayer - 1)).reverse.foldlM (fun m i =>
    (countDown (old i) (new i)).foldlM (fun m j => c.freeBlock s.arr.rootAddr oldLayer i j m) m) s.mem
  let m ← if reduced ≠ 0 then m.free s.arr.rootAddr else some m
  pure (root, m)

/-- `Resize` -/
def resize (n : Nat) (s : Sys T) : Option (Sys T) :=
  let content := fun i => if i < n then s.content i else none
  if s.arr.size < n then
    if s.arr.capacity < n then
      (c.grow n s).map fun x =>
        { mem := x.2, arr := ⟨x.1, n, c.capacity n, max s.arr.layer (c.layers n)⟩, content }
    else some { s with arr := { s.arr with size := n }, content }
  else if n < s.arr.size then
    (c.shrink n s).map fun x => { mem := x.2, arr := ⟨x.1, n, c.capacity n, c.layers n⟩, content }
  else some s

end Config

inductive Call (T : Type)
  | resize (n : Nat)
  | write (i : Nat) (v : T)

/-- A call on the array: `Resize(n)` with `n ≥ 1`, or `Write` below the size. -/
def Config.step {T : Type} (c : Config T) (a : Call T) (s : Sys T) : Option (Sys T) :=
  match a with
  | .resize n => if 1 ≤ n then c.resize n s else none
  | .write i v => if i < s.arr.size then c.write i v s else none

end HwGam.GArray
