import HwGam.Lib.Bytes

/-!
# Work requests on the wire

`WorkRequest::Ser` writes the fields an operation carries one after the other, and
`WorkRequest::Deser` reads them back with a switch of its own. The model has the default build:
`GFUNC_SUPPORT` on, `NOCACHE`, `SELECTIVE_CACHING` and `DHT` off.
-/

namespace HwGam.Wire

open Lib

/-- `enum Work`. -/
inductive Work where
  | malloc | read | fetchAndShared | readForward | write | writePermissionOnly
  | fetchAndInvalidate | invalidate | invalidateForward | writeForward
  | writePermissionOnlyForward | atomic | updateMemStats | fetchMemStats | broadcastMemStats
  | mfence | sfence | rlock | rlockLen | wlock | wlockLen | unlock | unlockLen | free
  | activeInvalidate | writeBack | pendingInvalidate | put | get
  | reply | mallocReply | fetchMemStatsReply | readReply | writeReply | lockReply | freeReply
  | getReply
  /-- A value outside the enumeration. -/
  | other (code : BitVec 32)
  deriving DecidableEq, Repr

namespace Work

/-- The enumerators in the order of their values: from 1, and from `REPLY = 1 << 16`. -/
def requests : List Work :=
  [malloc, read, fetchAndShared, readForward, write, writePermissionOnly, fetchAndInvalidate,
    invalidate, invalidateForward, writeForward, writePermissionOnlyForward, atomic,
    updateMemStats, fetchMemStats, broadcastMemStats, mfence, sfence, rlock, rlockLen, wlock,
    wlockLen, unlock, unlockLen, free, activeInvalidate, writeBack, pendingInvalidate, put, get]

def replies : List Work :=
  [reply, mallocReply, fetchMemStatsReply, readReply, writeReply, lockReply, freeReply, getReply]

/-- `static_cast<wtype>(op)`. -/
def code (op : Work) : BitVec 32 :=
  match op with
  | other c => c
  | op =>
    if op ∈ requests then BitVec.ofNat 32 (1 + requests.idxOf op)
    else BitVec.ofNat 32 (2 ^ 16 + replies.idxOf op)

/-- `static_cast<Work>(lop)`. -/
def ofCode (c : BitVec 32) : Work :=
  if 0 < c.toNat ∧ c.toNat ≤ requests.length then (requests[c.toNat - 1]?).getD (other c)
  else if 2 ^ 16 ≤ c.toNat then (replies[c.toNat - 2 ^ 16]?).getD (other c)
  else other c

end Work

/-- The functions of `gfunc.h`, and any other. -/
inductive GFunc where
  | incr | incrDouble | gatherPagerank | applyPagerank | scatterPagerank
  | other (addr : BitVec 64)
  deriving DecidableEq, Repr

/-- `GAllocFactory::gfuncs`, without the null entries that fill the array. -/
def gfuncs : List GFunc :=
  [.incr, .incrDouble, .gatherPagerank, .applyPagerank, .scatterPagerank]

def getGFuncID (gfunc : Option GFunc) : BitVec 32 :=
  match gfunc with
  | none => -1
  | some g => if g ∈ gfuncs then BitVec.ofNat 32 (gfuncs.idxOf g) else -1

def getGFunc (id : BitVec 32) : Option GFunc :=
  if id = -1 then none else gfuncs[id.toNat]?

/-- The fields that `Ser` and `Deser` move. `key` and `free` share the storage of `addr`;
`payload` is what `ptr` points to, for the operations that send it. -/
structure WorkRequest where
  id : BitVec 32 := 0
  pid : BitVec 32 := 0
  pwid : BitVec 32 := 0
  op : Work := .other 0
  addr : BitVec 64 := 0
  size : BitVec 64 := 0
  status : BitVec 32 := 0
  flag : BitVec 32 := 0
  ptr : BitVec 64 := 0
  wid : BitVec 32 := 0
  counter : BitVec 32 := 0
  gfunc : Option GFunc := none
  arg : BitVec 64 := 0
  payload : List Byte := []
  deriving DecidableEq, Repr

namespace WorkRequest

/-- `appendInteger` of one value. -/
abbrev appendInteger {w : Nat} (x : BitVec w) : List Byte := encodeLe x

/-- `WorkRequest::Ser`: the bytes written to the buffer. The string of a statistics message ends
before its first zero. -/
def ser (r : WorkRequest) : List Byte :=
  let lop := r.op.code
  match r.op with
  | .updateMemStats =>
    appendInteger lop ++ appendInteger r.wid ++ appendInteger r.size ++ appendInteger r.addr
  | .fetchMemStatsReply | .broadcastMemStats =>
    appendInteger lop ++ appendInteger r.size ++ r.payload.takeWhile (· ≠ 0)
  | .get =>
    appendInteger lop ++ appendInteger r.id ++ appendInteger r.wid ++ appendInteger r.addr
  | .put | .getReply =>
    appendInteger lop ++ appendInteger r.id ++ appendInteger r.wid ++ appendInteger r.addr ++
      appendInteger r.size ++ r.payload.take r.size.toNat
  | .fetchMemStats => appendInteger lop ++ appendInteger r.wid
  | .malloc =>
    appendInteger lop ++ appendInteger r.id ++ appendInteger r.wid ++ appendInteger r.size ++
      appendInteger r.flag
  | .mallocReply =>
    appendInteger lop ++ appendInteger r.id ++ appendInteger r.wid ++ appendInteger r.addr ++
      appendInteger r.status
  | .free =>
    appendInteger lop ++ appendInteger r.id ++ appendInteger r.wid ++ appendInteger r.addr
  | .write | .writePermissionOnly =>
    let gid := getGFuncID r.gfunc
    appendInteger lop ++ appendInteger r.id ++ appendInteger r.wid ++ appendInteger r.addr ++
      appendInteger r.size ++ appendInteger r.ptr ++ appendInteger r.flag ++ appendInteger gid ++
      appendInteger r.arg
  | .read | .fetchAndShared | .fetchAndInvalidate | .invalidate =>
    appendInteger lop ++ appendInteger r.id ++ appendInteger r.wid ++ appendInteger r.addr ++
      appendInteger r.size ++ appendInteger r.ptr ++ appendInteger r.flag
  | .readForward | .writeForward | .invalidateForward | .writePermissionOnlyForward =>
    appendInteger lop ++ appendInteger r.id ++ appendInteger r.wid ++ appendInteger r.addr ++
      appendInteger r.size ++ appendInteger r.ptr ++ appendInteger r.flag ++ appendInteger r.pid ++
      appendInteger r.pwid
  | .readReply =>
    appendInteger lop ++ appendInteger r.id ++ appendInteger r.wid ++ appendInteger r.status
  | .writeReply =>
    appendInteger lop ++ appendInteger r.id ++ appendInteger r.wid ++ appendInteger r.status ++
      appendInteger r.counter
  | .activeInvalidate | .writeBack =>
    appendInteger lop ++ appendInteger r.id ++ appendInteger r.wid ++ appendInteger r.addr ++
      appendInteger r.ptr
  | _ => []

/-- `readInteger` of one value. -/
abbrev readInteger (w : Nat) : Reader (BitVec w) := decodeLe w

/-- The switch of `WorkRequest::Deser`, into a fresh request. -/
def readFields (op : Work) : Reader WorkRequest :=
  match op with
  | .updateMemStats => do
    let wid ← readInteger 32
    let size ← readInteger 64
    let free ← readInteger 64
    pure { op, wid, size, addr := free }
  | .fetchMemStatsReply | .broadcastMemStats => do
    let size ← readInteger 64
    let payload ← readCString
    pure { op, size, payload }
  | .get => do
    let id ← readInteger 32
    let wid ← readInteger 32
    let key ← readInteger 64
    pure { op, id, wid, addr := key }
  | .put | .getReply => do
    let id ← readInteger 32
    let wid ← readInteger 32
    let key ← readInteger 64
    let size ← readInteger 64
    let payload ← readBytes size.toNat
    pure { op, id, wid, addr := key, size, payload }
  | .fetchMemStats => do
    let wid ← readInteger 32
    pure { op, wid }
  | .malloc => do
    let id ← readInteger 32
    let wid ← readInteger 32
    let size ← readInteger 64
    let flag ← readInteger 32
    pure { op, id, wid, size, flag }
  | .mallocReply => do
    let id ← readInteger 32
    let wid ← readInteger 32
    let addr ← readInteger 64
    let status ← readInteger 32
    pure { op, id, wid, addr, status }
  | .free => do
    let id ← readInteger 32
    let wid ← readInteger 32
    let addr ← readInteger 64
    pure { op, id, wid, addr }
  | .write | .writePermissionOnly => do
    let id ← readInteger 32
    let wid ← readInteger 32
    let addr ← readInteger 64
    let size ← readInteger 64
    let ptr ← readInteger 64
    let flag ← readInteger 32
    let gid ← readInteger 32
    let arg ← readInteger 64
    pure { op, id, wid, addr, size, ptr, flag, gfunc := getGFunc gid, arg }
  | .read | .fetchAndShared | .fetchAndInvalidate | .invalidate => do
    let id ← readInteger 32
    let wid ← readInteger 32
    let addr ← readInteger 64
    let size ← readInteger 64
    let ptr ← readInteger 64
    let flag ← readInteger 32
    pure { op, id, wid, addr, size, ptr, flag }
  | .readForward | .writeForward | .invalidateForward | .writePermissionOnlyForward => do
    let id ← readInteger 32
    let wid ← readInteger 32
    let addr ← readInteger 64
    let size ← readInteger 64
    let ptr ← readInteger 64
    let flag ← readInteger 32
    let pid ← readInteger 32
    let pwid ← readInteger 32
    pure { op, id, wid, addr, size, ptr, flag, pid, pwid }
  | .readReply => do
    let id ← readInteger 32
    let wid ← readInteger 32
    let status ← readInteger 32
    pure { op, id, wid, status }
  | .writeReply => do
    let id ← readInteger 32
    let wid ← readInteger 32
    let status ← readInteger 32
    let counter ← readInteger 32
    pure { op, id, wid, status, counter }
  | .activeInvalidate | .writeBack => do
    let id ← readInteger 32
    let wid ← readInteger 32
    let addr ← readInteger 64
    let ptr ← readInteger 64
    pure { op, id, wid, addr, ptr }
  | op => pure { op }

/-- `WorkRequest::Deser`: the request and the length consumed. -/
def deser (buf : List Byte) : Option (WorkRequest × Nat) := do
  let (lop, p) ← readInteger 32 buf
  let (r, p) ← readFields (Work.ofCode lop) p
  some (r, buf.length - p.length)

end WorkRequest

/-! ## What an operation carries -/

inductive Field where
  | id | pid | pwid | addr | size | status | flag | ptr | wid | counter | gfunc | arg | payload
  deriving DecidableEq, Repr

/-- The fields an operation that `Ser` handles carries. -/
def Work.carries : Work → Option (List Field)
  | .updateMemStats => some [.wid, .size, .addr]
  | .fetchMemStatsReply | .broadcastMemStats => some [.size, .payload]
  | .get | .free => some [.id, .wid, .addr]
  | .put | .getReply => some [.id, .wid, .addr, .size, .payload]
  | .fetchMemStats => some [.wid]
  | .malloc => some [.id, .wid, .size, .flag]
  | .mallocReply => some [.id, .wid, .addr, .status]
  | .write | .writePermissionOnly =>
    some [.id, .wid, .addr, .size, .ptr, .flag, .gfunc, .arg]
  | .read | .fetchAndShared | .fetchAndInvalidate | .invalidate =>
    some [.id, .wid, .addr, .size, .ptr, .flag]
  | .readForward | .writeForward | .invalidateForward | .writePermissionOnlyForward =>
    some [.id, .wid, .addr, .size, .ptr, .flag, .pid, .pwid]
  | .readReply => some [.id, .wid, .status]
  | .writeReply => some [.id, .wid, .status, .counter]
  | .activeInvalidate | .writeBack => some [.id, .wid, .addr, .ptr]
  | _ => none

/-- A fresh request with the operation and the given fields of `r`. -/
def WorkRequest.keep (r : WorkRequest) (fs : List Field) : WorkRequest where
  op := r.op
  id := if .id ∈ fs then r.id else 0
  pid := if .pid ∈ fs then r.pid else 0
  pwid := if .pwid ∈ fs then r.pwid else 0
  addr := if .addr ∈ fs then r.addr else 0
  size := if .size ∈ fs then r.size else 0
  status := if .status ∈ fs then r.status else 0
  flag := if .flag ∈ fs then r.flag else 0
  ptr := if .ptr ∈ fs then r.ptr else 0
  wid := if .wid ∈ fs then r.wid else 0
  counter := if .counter ∈ fs then r.counter else 0
  gfunc := if .gfunc ∈ fs then r.gfunc else none
  arg := if .arg ∈ fs then r.arg else 0
  payload := if .payload ∈ fs then r.payload else []

/-- `Ser` handles the operation; a payload has the announced size, a statistics string has no zero
byte, a function is registered. -/
structure WorkRequest.WellFormed (r : WorkRequest) : Prop where
  handled : r.op.carries.isSome
  sized : r.op = .put ∨ r.op = .getReply → r.payload.length = r.size.toNat
  text : r.op = .fetchMemStatsReply ∨ r.op = .broadcastMemStats → 0 ∉ r.payload
  registered : ∀ g ∈ r.gfunc, g ∈ gfuncs

end HwGam.Wire
