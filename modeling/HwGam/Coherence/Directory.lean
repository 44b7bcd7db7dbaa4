import HwGam.Coherence.Request

/-!
# The home directory

`Directory` of `directory.cc`, for one block: an entry may be missing (`nullptr`), which counts as
`DIR_UNSHARED`. The shared list holds global addresses of cache lines, a worker and a pointer into
its memory; `Remove` looks for the worker, `Clear` for the whole address.
-/

namespace HwGam.Coherence

inductive DirState
  | unshared | dirty | shared | toDirty | toShared | toUnShared
  deriving DecidableEq, Repr

/-- `Directory::InTransitionState` -/
def DirState.inTransition : DirState → Bool
  | .toDirty | .toShared | .toUnShared => true
  | _ => false

/-- The address of a cache line in its worker's memory. -/
abbrev Ptr := Nat

structure DirEntry (W : Type*) where
  state : DirState := .unshared
  shared : List (W × Ptr) := []
  locks : Locks := ∅

/-- The directory's map at one block. -/
abbrev Dir (W : Type*) := Option (DirEntry W)

namespace Dir

variable {W : Type*} (e : Dir W)

/-- `GetState` -/
def getState : DirState :=
  match e with
  | some e => e.state
  | none => .unshared

def inTransition : Bool := e.getState.inTransition

/-- `GetSList` -/
def getSList : List (W × Ptr) :=
  match e with
  | some e => e.shared
  | none => []

def locks : Locks :=
  match e with
  | some e => e.locks
  | none => ∅

def isBlockLocked : Bool := e.locks.isBlockLocked

def isBlockWLocked : Bool := e.locks.isBlockWLocked

/-- `IsWLocked`: an exclusive tag counts in state DIR_UNSHARED only. -/
def isWLocked (addr : Nat) : Bool :=
  e.getState = .unshared && e.locks.lookup addr = some exclusive

/-- `IsRLocked` -/
def isRLocked (addr : Nat) : Bool :=
  match e.locks.lookup addr with
  | some n => decide (0 < n) && n != exclusive
  | none => false

/-- `ToShared(entry, addr)` with an address; DIR_TO_SHARED ends with the owner still in front. -/
def toShared (a : W × Ptr) : Dir W :=
  match e with
  | none => some { state := .shared, shared := [a] }
  | some e =>
    if e.state = .toShared then some { e with state := .shared, shared := e.shared.tail ++ [a] }
    else some { e with state := .shared, shared := e.shared ++ [a] }

/-- `ToShared(entry, Gnullptr)`: the owner has written its copy back. -/
def toSharedNull : Dir W := e.map fun e => { e with state := .shared }

/-- `ToUnShared` -/
def toUnShared : Dir W :=
  match e with
  | none => none
  | some e =>
    if e.locks.isBlockLocked then some { e with state := .unshared, shared := [] } else none

/-- `ToDirty` -/
def toDirty (a : W × Ptr) : Dir W :=
  match e with
  | none => some { state := .dirty, shared := [a] }
  | some e => some { e with state := .dirty, shared := [a] }

/-- `ToToShared`, `ToToUnShared`, `ToToDirty`, `UndoShared` and `UndoDirty` set the state. -/
def setState (s : DirState) : Dir W := e.map fun e => { e with state := s }

/-- `RLock`; `none` where it returns -1. -/
def rLock (addr : Nat) : Option (Dir W) :=
  if e.isWLocked addr then none
  else match e with
    | none => some (some { locks := (∅ : Locks).share addr })
    | some e => some (some { e with locks := e.locks.share addr })

/-- `WLock`; `none` where it returns -1. -/
def wLock (addr : Nat) : Option (Dir W) :=
  if e.isWLocked addr || e.isRLocked addr then none
  else match e with
    | none => some (some { locks := (∅ : Locks).insert addr exclusive })
    | some e => some (some { e with locks := e.locks.insert addr exclusive })

/-- `UnLock` -/
def unLock (addr : Nat) : Dir W :=
  match e with
  | none => none
  | some d =>
    let n := if e.isWLocked addr then 0 else (d.locks.lookup addr).getD 0 - 1
    let locks : Locks := if n = 0 then d.locks.erase addr else d.locks.insert addr n
    if d.state = .unshared && !locks.isBlockLocked then none else some { d with locks := locks }

variable [DecidableEq W]

/-- `Remove(entry, wid)` -/
def remove (w : W) : Dir W :=
  match e with
  | none => none
  | some e =>
    let shared := e.shared.eraseP fun a => a.1 = w
    if shared.isEmpty && !e.locks.isBlockLocked then none else some { e with shared := shared }

/-- `Clear(entry, addr)` -/
def clear (a : W × Ptr) : Dir W :=
  match e with
  | none => none
  | some e =>
    let shared :=
      if e.state = .dirty then if e.shared.head? = some a then e.shared.tail else e.shared
      else e.shared.filter (· ≠ a)
    if shared.isEmpty then
      if e.locks.isBlockLocked then some { e with state := .unshared, shared := [] } else none
    else some { e with shared := shared }

end Dir

end HwGam.Coherence
