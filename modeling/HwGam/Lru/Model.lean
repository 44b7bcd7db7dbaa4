import Mathlib.Data.List.AList
import HwGam.Lib.Transition

/-!
# The cache of a worker

The lines of `Cache` with their states, the LRU lists they hang on and the counters `used_bytes`
and `to_evicted`, as the handlers of a worker change them: `Cache::ReadWrite`, `Cache::Lock` and
`Cache::Evict`, the replies and completions, and what other workers ask for. A `CacheLine` is
deleted when it leaves the map, so a pointer to a line is the address of its block here.
-/

namespace HwGam.Lru

/-- A block-aligned address. -/
abbrev GAddr := Nat

inductive CacheState
  | invalid | shared | dirty | toInvalid | toShared | toDirty
  deriving DecidableEq, Repr

/-- `InTransitionState` -/
def CacheState.inTransition : CacheState → Bool
  | .toDirty | .toInvalid | .toShared => true
  | _ => false

/-- The states in which a line serves requests. -/
def CacheState.stable : CacheState → Bool
  | .shared | .dirty => true
  | _ => false

structure CacheLine where
  state : CacheState := .invalid
  /-- `locks.size()` -/
  locks : Nat := 0
  next : Option GAddr := none
  prev : Option GAddr := none
  /-- the LRU list, `none` for -1 -/
  pos : Option Nat := none
  deriving DecidableEq

/-- A request in `pending_works` that concerns a line. -/
inductive Pending
  | read | write | writePermissionOnly | writeBack | pendingInvalidate
  deriving DecidableEq, Repr

structure Cache where
  caches : AList fun _ : GAddr => CacheLine
  heads : Nat → Option GAddr
  tails : Nat → Option GAddr
  usedBytes : Int
  toEvicted : Int
  pending : GAddr → Option Pending

/-- `BLOCK_SIZE` -/
def blockSize : Int := 512

/-- `LRU_NUM` -/
def lruNum : Nat := 10

namespace Cache

variable (c : Cache) (a : GAddr) (i : Nat)

/-- A new cache. `Cache() {}` sets neither the counters nor the lists; this is the object in storage
that was zero before. -/
def init : Cache := ⟨∅, fun _ => none, fun _ => none, 0, 0, fun _ => none⟩

/-- `caches.at(a)` -/
def line : Option CacheLine := c.caches.lookup a

/-- A change of the fields of a line. -/
def modify (f : CacheLine → CacheLine) : Cache :=
  match c.line a with
  | none => c
  | some l => { c with caches := c.caches.insert a (f l) }

def setState (s : CacheState) : Cache := c.modify a fun l => { l with state := s }

def setPending (p : Option Pending) : Cache := { c with pending := Function.update c.pending a p }

/-! ## The LRU lists -/

/-- `LinkLRU`, with the list it has picked. -/
def linkLRU : Cache :=
  let c₁ := c.modify a fun l => { l with pos := some i, prev := none, next := c.heads i }
  let c₂ :=
    match c.heads i with
    | some h => c₁.modify h fun l => { l with prev := some a }
    | none => c₁
  { c₂ with
    heads := Function.update c.heads i (some a)
    tails := if c.tails i = none then Function.update c.tails i (some a) else c.tails }

/-- `UnLinkLRU(cline, i)`: the position is left as it is. -/
def unLinkAt : Cache :=
  match c.line a with
  | none => c
  | some l =>
    let c₁ :=
      match l.next with
      | some n => c.modify n fun x => { x with prev := l.prev }
      | none => c
    let c₂ :=
      match l.prev with
      | some p => c₁.modify p fun x => { x with next := l.next }
      | none => c₁
    { c₂.modify a fun x => { x with next := none, prev := none } with
      heads := if c.heads i = some a then Function.update c.heads i l.next else c.heads
      tails := if c.tails i = some a then Function.update c.tails i l.prev else c.tails }

/-- `UnLinkLRU(cline)` -/
def unLinkLRU : Cache :=
  match (c.line a).bind CacheLine.pos with
  | none => c
  | some i => (c.modify a fun l => { l with pos := none }).unLinkAt a i

/-! ## The states -/

/-- `SetCLine` of a block that may be in the cache already. -/
def setCLine : Cache :=
  match c.line a with
  | some _ => c
  | none => { c with caches := c.caches.insert a {}, usedBytes := c.usedBytes + blockSize }

/-- `ToInvalid` -/
def toInvalid : Cache :=
  let c := { c with usedBytes := c.usedBytes - blockSize }.unLinkLRU a
  { c with caches := c.caches.erase a }

/-- `ToShared`; only a line that has waited for its data is linked. -/
def toShared : Cache :=
  let c := if (c.line a).map CacheLine.state = some .toShared then c.linkLRU a i else c
  c.setState a .shared

/-- `ToDirty` -/
def toDirty : Cache := (c.setState a .dirty).linkLRU a i

/-- `ToToInvalid` -/
def toToInvalid : Cache := { c.setState a .toInvalid with toEvicted := c.toEvicted + 1 }

/-- `UndoShared` -/
def undoShared : Cache := c.setState a .shared

/-- `Evict(CacheLine*)` -/
def evictLine : Cache :=
  match (c.line a).map CacheLine.state with
  | some .shared => c.toInvalid a
  | some .dirty => (c.toToInvalid a).setPending a (some .writeBack)
  | _ => c

/-- One round of `Evict(int)` on list `i`: the tail, unless it is locked or in transition. -/
def evict : Option Cache := do
  let a ← c.tails i
  let l ← c.line a
  if l.locks ≠ 0 ∨ l.state.inTransition then none
  else
    let pos ← l.pos
    some ((c.unLinkAt a pos).evictLine a)

/-- The `used` of `Evict`. -/
def used : Int := c.usedBytes - c.toEvicted * blockSize

end Cache

/-! ## What happens to a cache -/

inductive Act
  /-- a READ or RLOCK, or a WRITE or WLOCK, of a block without a line -/
  | miss (a : GAddr) (write : Bool)
  /-- a request that a stable line serves -/
  | hit (a : GAddr) (i : Nat)
  /-- a WRITE or WLOCK of a shared line -/
  | upgrade (a : GAddr)
  /-- locks are taken or given back -/
  | lock (a : GAddr) (n : Nat)
  /-- the data or the permission is there -/
  | reply (a : GAddr) (i : Nat)
  /-- the answer is LOCK_FAILED -/
  | fail (a : GAddr)
  /-- FETCH_AND_SHARED or READ_FORWARD -/
  | share (a : GAddr)
  /-- INVALIDATE or INVALIDATE_FORWARD -/
  | invalidate (a : GAddr)
  /-- FETCH_AND_INVALIDATE or WRITE_FORWARD -/
  | surrender (a : GAddr)
  /-- `CompletionCheck` of a PENDING_INVALIDATE -/
  | completionCheck (a : GAddr)
  | evict (i : Nat)
  /-- `ProcessPendingEvictDirty` -/
  | evictDirty (a : GAddr)

open Cache in
def step (act : Act) (c : Cache) : Option Cache :=
  match act with
  | .miss a write =>
    if c.line a = none then
      let c := c.setCLine a
      some (if write then (c.setState a .toDirty).setPending a (some .write)
        else (c.setState a .toShared).setPending a (some .read))
    else none
  | .hit a i => do
    let l ← c.line a
    if l.state.stable ∧ i < lruNum then some ((c.unLinkLRU a).linkLRU a i) else none
  | .upgrade a => do
    let l ← c.line a
    if l.state = .shared then
      some (((c.setState a .toDirty).unLinkLRU a).setPending a (some .writePermissionOnly))
    else none
  | .lock a n => some (c.modify a fun l => { l with locks := n })
  | .reply a i =>
    if i < lruNum then
      match c.pending a with
      | some .read => some ((c.toShared a i).setPending a none)
      | some .write | some .writePermissionOnly => some ((c.toDirty a i).setPending a none)
      | _ => none
    else none
  | .fail a =>
    match c.pending a with
    | some .read | some .write => some ((c.toInvalid a).setPending a none)
    | some .writePermissionOnly => some ((c.undoShared a).setPending a none)
    | _ => none
  | .share a => do
    let l ← c.line a
    -- the line is linked already: no list is picked
    if l.state.inTransition then none else some (c.toShared a 0)
  | .invalidate a => do
    let l ← c.line a
    if l.state.inTransition ∨ l.locks ≠ 0 then none else some (c.toInvalid a)
  | .surrender a => do
    let l ← c.line a
    if l.state.inTransition ∨ l.locks ≠ 0 then none
    else some ((c.toToInvalid a).setPending a (some .pendingInvalidate))
  | .completionCheck a =>
    if c.pending a = some .pendingInvalidate then some ((c.toInvalid a).setPending a none)
    else none
  | .evict i => if i < lruNum then c.evict i else none
  | .evictDirty a =>
    if c.pending a = some .writeBack then
      some (({ c with toEvicted := c.toEvicted - 1 }.toInvalid a).setPending a none)
    else none

end HwGam.Lru
