import Mathlib.Data.List.AList

/-!
# Requests, block data and lock tables

What the home directory and the caches have in common: the requests of the application threads
(`WorkRequest` as far as the protocol reads it), the bytes of a block with the `memcpy`s of
`Cache::ReadWrite`, `ProcessLocalWrite` and `ProcessPendingWrite`, and the lock tables
(`unordered_map<addr, int>`) of directory entries and cache lines.
-/

namespace HwGam.Coherence

/-- `BLOCK_SIZE`, `1 << BLOCK_POWER` -/
def blockSize : Nat := 512

/-- The start address of block `i`. -/
def blockAddr (i : Nat) : Nat := i * blockSize

/-- `TOBLOCK`, as a block number -/
def toBlock (addr : Nat) : Nat := addr / blockSize

/-- The bytes of a block (or of a user buffer), by offset. -/
abbrev Data := Nat → UInt8

/-- `memcpy(dst + d, src + s, len)` -/
def memcpy (dst : Data) (d : Nat) (src : Data) (s len : Nat) : Data :=
  fun k => if d ≤ k ∧ k < d + len then src (s + (k - d)) else dst k

inductive Op
  | read
  | write
  | rlock (tryLock : Bool)
  | wlock (tryLock : Bool)
  deriving DecidableEq, Repr

namespace Op

/-- The flag LOCKED of the request sent on behalf of this one. -/
def isLock : Op → Bool
  | .rlock _ | .wlock _ => true
  | _ => false

def isRLock : Op → Bool
  | .rlock _ => true
  | _ => false

/-- The flag TRY_LOCK, which only lock requests carry. -/
def isTry : Op → Bool
  | .rlock t | .wlock t => t
  | _ => false

end Op

/-- A request of an application thread. `ptr` is the content of the user's buffer; a write with a
`gfunc` applies it to the block instead of copying the buffer. -/
structure Request where
  id : Nat
  thread : Nat
  op : Op
  addr : Nat
  size : Nat := 0
  ptr : Data := fun _ => 0
  gfunc : Option (Data → Data) := none
  /-- the flag ASYNC of a WRITE -/
  async : Bool := false
  /-- the flag FENCE: the request has waited in the fence's queue -/
  fenced : Bool := false

namespace Request

variable (q : Request) (i : Nat)

/-- The first address of block `i` the request covers: `gs`. -/
def gs : Nat := max (blockAddr i) q.addr

/-- The number of bytes from `gs` on: `nextb > end ? end - gs : nextb - gs`. -/
def len : Nat :=
  let nextb := blockAddr (i + 1)
  let stop := q.addr + q.size
  if nextb > stop then stop - q.gs i else nextb - q.gs i

/-- `memcpy(cs, ls, len)`: the user's bytes go into block `i`. -/
def copyIn (d : Data) : Data :=
  memcpy d (q.gs i - blockAddr i) q.ptr (q.gs i - q.addr) (q.len i)

/-- `memcpy(ls, cs, len)`: the bytes of block `i` go into the user's buffer. -/
def copyOut (d buf : Data) : Data :=
  memcpy buf (q.gs i - q.addr) d (q.gs i - blockAddr i) (q.len i)

/-- What the request does to block `i` where it has write access. A lock changes no data. -/
def apply (d : Data) : Data :=
  match q.op with
  | .write => match q.gfunc with
    | some f => f d
    | none => q.copyIn i d
  | _ => d

/-- The copy a plain write makes in advance when it upgrades a shared line. -/
def early (d : Data) : Data :=
  match q.op, q.gfunc with
  | .write, none => q.copyIn i d
  | _, _ => d

/-- The blocks of the loop `for (i = start_blk; i < end; i = nextb)`. -/
def blocks : List Nat :=
  let first := toBlock q.addr
  List.range' first ((q.addr + q.size - blockAddr first + (blockSize - 1)) / blockSize)

end Request

theorem memcpy_idem (dst : Data) (d : Nat) (src : Data) (s len : Nat) :
    memcpy (memcpy dst d src s len) d src s len = memcpy dst d src s len := by
  funext k
  unfold memcpy
  split <;> rfl

/-- "we blindly copy the data again": the copy in advance makes no difference. -/
theorem Request.apply_early (q : Request) (i : Nat) (d : Data) :
    q.apply i (q.early i d) = q.apply i d := by
  unfold apply early
  cases q.op <;> cases q.gfunc <;> simp [copyIn, memcpy_idem]

theorem Request.early_of_isLock {q : Request} (h : q.op.isLock = true) (i : Nat) (d : Data) :
    q.early i d = d := by
  unfold early
  cases hq : q.op <;> simp_all [Op.isLock]

theorem Request.apply_of_isLock {q : Request} (h : q.op.isLock = true) (i : Nat) (d : Data) :
    q.apply i d = d := by
  unfold apply
  cases hq : q.op <;> simp_all [Op.isLock]

/-! ## Lock tables -/

/-- `EXCLUSIVE_LOCK_TAG` -/
def exclusive : Nat := 255

/-- `unordered_map<addr, int> locks` -/
abbrev Locks := AList (fun _ : Nat => Nat)

namespace Locks

variable (l : Locks) (addr : Nat)

/-- `IsBlockLocked` -/
def isBlockLocked : Bool := !l.entries.isEmpty

/-- `IsBlockWLocked` -/
def isBlockWLocked : Bool := l.entries.any fun e => e.2 == exclusive

/-- The shared count goes up, from zero where there is no entry yet. -/
def share : Locks :=
  match l.lookup addr with
  | some n => l.insert addr (n + 1)
  | none => l.insert addr 1

/-- `Cache::UnLock`: an exclusive lock is dropped, a shared one counted down. -/
def unLock : Locks :=
  match l.lookup addr with
  | some n =>
    if n = exclusive then l.erase addr
    else if n - 1 = 0 then l.erase addr
    else l.insert addr (n - 1)
  | none => l

/-- One more reader still has a count of its own, other than the exclusive tag. -/
def hasRoom : Prop := l.lookup addr ≠ some (exclusive - 1)

instance : Decidable (l.hasRoom addr) := inferInstanceAs (Decidable (_ ≠ _))

/-- Every count in the table is below `n`. -/
def Below (n : Nat) (l : Locks) : Prop := ∀ a k, l.lookup a = some k → k < n

variable {l : Locks} {addr n : Nat}

theorem lookup_of_not_isBlockLocked (h : l.isBlockLocked = false) (a : Nat) :
    l.lookup a = none := by
  have h : l.entries = [] := by simpa [isBlockLocked] using h
  simp [AList.lookup, h]

theorem not_isBlockLocked_of_lookup (h : ∀ a, l.lookup a = none) : l.isBlockLocked = false := by
  have h : l.entries = [] := List.eq_nil_iff_forall_not_mem.mpr fun e he => by
    have hk := AList.mem_lookup_iff.mpr he
    rw [h e.1] at hk
    cases hk
  simp [isBlockLocked, h]

theorem isBlockWLocked_iff : l.isBlockWLocked = true ↔ ∃ a, l.lookup a = some exclusive := by
  simp only [isBlockWLocked, List.any_eq_true, beq_iff_eq]
  constructor
  · rintro ⟨e, he, hx⟩
    exact ⟨e.1, hx ▸ AList.mem_lookup_iff.mpr he⟩
  · rintro ⟨a, ha⟩
    exact ⟨⟨a, exclusive⟩, AList.mem_lookup_iff.mp ha, rfl⟩

theorem Below.of_not_isBlockLocked (h : l.isBlockLocked = false) : l.Below n := by
  intro a k hk
  simp [lookup_of_not_isBlockLocked h] at hk

theorem Below.of_not_isBlockWLocked (h : l.Below (exclusive + 1))
    (hw : l.isBlockWLocked = false) : l.Below exclusive := by
  intro a k hk
  have hne : k ≠ exclusive := by
    rintro rfl
    exact absurd (isBlockWLocked_iff.mpr ⟨a, hk⟩) (by simp [hw])
  have := h a k hk
  omega

theorem Below.not_isBlockWLocked (h : l.Below exclusive) : l.isBlockWLocked = false := by
  cases hw : l.isBlockWLocked with
  | false => rfl
  | true =>
    obtain ⟨a, ha⟩ := isBlockWLocked_iff.mp hw
    exact absurd (h a _ ha) (lt_irrefl _)

theorem Below.mono {m : Nat} (h : l.Below n) (hnm : n ≤ m) : l.Below m :=
  fun a k hk => Nat.lt_of_lt_of_le (h a k hk) hnm

theorem Below.insert (h : l.Below n) {k : Nat} (hk : k < n) :
    Below n (AList.insert addr k l) := by
  intro a k' hk'
  by_cases ha : a = addr
  · subst ha
    rw [AList.lookup_insert] at hk'
    cases hk'
    exact hk
  · rw [AList.lookup_insert_ne ha] at hk'
    exact h a k' hk'

theorem Below.erase (h : l.Below n) : Below n (AList.erase addr l) := by
  intro a k hk
  by_cases ha : a = addr
  · subst ha
    simp [AList.lookup_erase] at hk
  · rw [AList.lookup_erase_ne ha] at hk
    exact h a k hk

/-- A reader that finds room is counted below the exclusive tag. -/
theorem Below.share (h : l.Below n) (hn : exclusive ≤ n)
    (hx : l.lookup addr ≠ some exclusive) (hr : l.hasRoom addr) (hle : n ≤ exclusive + 1) :
    (l.share addr).Below n := by
  have h1 : 1 < n := Nat.lt_of_lt_of_le (by decide) hn
  unfold Locks.share
  split
  · rename_i k hk
    have hk' := h _ _ hk
    rw [hk] at hx
    rw [hasRoom, hk] at hr
    simp only [ne_eq, Option.some.injEq] at hx hr
    exact h.insert (by omega)
  · exact h.insert h1

theorem Below.unLock (h : l.Below n) : (l.unLock addr).Below n := by
  unfold Locks.unLock
  split
  · rename_i k hk
    split
    · exact h.erase
    split
    · exact h.erase
    · exact h.insert (Nat.lt_of_le_of_lt (Nat.sub_le k 1) (h _ _ hk))
  · exact h

theorem unLock_of_not_isBlockLocked (h : l.isBlockLocked = false) : l.unLock addr = l := by
  simp [unLock, lookup_of_not_isBlockLocked h]

end Locks

end HwGam.Coherence
