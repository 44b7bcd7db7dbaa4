import Mathlib.Algebra.Group.Nat.Defs
import Mathlib.Algebra.Ring.Int.Defs
import Mathlib.Data.BitVec
import Mathlib.Data.Multiset.AddSub
import Mathlib.Order.Interval.Finset.Nat
import HwGam.Lib.Bytes

/-!
# Locks over several blocks

`GAlloc::Lock` locks an address and the first address of every further block of a range, one
request after the other. When an attempt fails it unlocks what it has locked; `UnLock` runs the
same loop with the operation `UNLOCK`. Unlocks are asynchronous (`ASYNC_UNLOCK`): the call goes on
while the request may still wait behind a fence.
-/

namespace HwGam.Galloc

abbrev GAddr := BitVec 64

def blockSize : Nat := 512

/-- `TOBLOCK`. -/
def toBlock (x : GAddr) : GAddr := x &&& 0xFFFFFFFFFFFFFE00

/-- `i*BLOCK_SIZE`, a product of two `int`s. It has no value where it overflows. -/
def blockOffset (i : Nat) : Option GAddr :=
  if i * blockSize < 2 ^ 31 then some (BitVec.ofNat 64 (i * blockSize)) else none

theorem blockOffset_lt {i : Nat} {off : GAddr} (h : blockOffset i = some off) : i < 2 ^ 22 := by
  unfold blockOffset blockSize at h
  split at h
  · omega
  · cases h

inductive Op where
  | rlock | wlock | unlock
  deriving DecidableEq, Repr

inductive Status where
  | success | lockFailed
  deriving DecidableEq, Repr

/-- The flags `TRY_LOCK` and `ASYNC`. -/
structure Flag where
  tryLock : Bool := false
  async : Bool := false
  deriving DecidableEq, Repr

/-- An application thread: the locks it holds, and its unlocks that are not served yet. It unlocks
only what it holds. -/
structure Thread where
  held : Multiset GAddr
  pending : List GAddr
  owned : (pending : Multiset GAddr) ≤ held

namespace Thread

/-- The oldest unlock is served. -/
def serve : Thread → Thread
  | ⟨held, [], h⟩ => ⟨held, [], h⟩
  | ⟨held, a :: as, h⟩ =>
    ⟨held.erase a, as, by simpa [← Multiset.cons_coe] using Multiset.erase_le_erase a h⟩

/-- All unlocks are served. -/
def served (t : Thread) : Thread := serve^[t.pending.length] t

/-- The locks once all unlocks are served. -/
def settled (t : Thread) : Multiset GAddr := t.served.held

def acquire (t : Thread) (a : GAddr) : Thread where
  held := a ::ₘ t.held
  pending := t.pending
  owned := t.owned.trans (Multiset.le_cons_self _ _)

end Thread

/-- What the thread meets: the addresses where an attempt fails, and how many unlocks the worker
serves after each request. -/
structure Worker where
  fails : GAddr → Bool
  serves : Thread → Nat

/-- `WorkerHandle::SendRequest` of a lock request, with the status it returns. A lock without
`TRY_LOCK` waits until it is granted, an unlock without `ASYNC` until it is served. To unlock what
is not held has no value. -/
def Worker.sendRequest (w : Worker) (op : Op) (flag : Flag) (addr : GAddr) (t : Thread) :
    Option (Thread × Status) :=
  if op = .unlock then
    if h : ((t.pending ++ [addr] : List GAddr) : Multiset GAddr) ≤ t.held then
      let t' : Thread := ⟨t.held, t.pending ++ [addr], h⟩
      some (if flag.async then Thread.serve^[w.serves t'] t' else t'.served, .success)
    else none
  else if w.fails addr && flag.tryLock then some (Thread.serve^[w.serves t] t, .lockFailed)
  else some (Thread.serve^[w.serves (t.acquire addr)] (t.acquire addr), .success)

/-- The loop of `GAlloc::Lock` from the `i`-th request on: the number of requests that went well,
and the last status. -/
def lockLoop (w : Worker) (op : Op) (flag : Flag) (startBlk endBlk : GAddr) (i : Nat)
    (addr : GAddr) (t : Thread) : Option (Thread × Nat × Status) :=
  match w.sendRequest op flag addr t with
  | none => none
  | some (t, .lockFailed) => some (t, i, .lockFailed)
  | some (t, .success) =>
    match _ : blockOffset (i + 1) with
    | none => none
    | some off =>
      if endBlk < startBlk + off then some (t, i + 1, .success)
      else lockLoop w op flag startBlk endBlk (i + 1) (startBlk + off) t
termination_by 2 ^ 22 - i
decreasing_by
  have := blockOffset_lt ‹_›
  omega

/-- The unlocks after the `i`-th request has failed. -/
def rollBack (w : Worker) (flag : Flag) (addr startBlk : GAddr) (i : Nat) (t : Thread) :
    Option Thread := do
  let flag := { flag with async := true }
  let t ← if 1 ≤ i then (w.sendRequest .unlock flag addr t).map (·.1) else some t
  (List.range' 1 (i - 1)).foldlM
    (fun t j => do
      let off ← blockOffset j
      let (t, _) ← w.sendRequest .unlock flag (startBlk + off) t
      some t) t

/-- `GAlloc::Lock`: the thread behind it and the value returned. -/
def lock (w : Worker) (op : Op) (addr count : GAddr) (flag : Flag) (t : Thread) :
    Option (Thread × Int) := do
  let flag := if op = .unlock then { flag with async := true } else flag
  let startBlk := toBlock addr
  let endBlk := toBlock (addr + (count - 1))
  let (t, i, status) ← lockLoop w op flag startBlk endBlk 0 addr t
  if op ≠ .unlock ∧ status = .lockFailed then
    let t ← rollBack w flag addr startBlk i t
    some (t, -1)
  else some (t, 0)

def tryRLock (w : Worker) (addr count : GAddr) (t : Thread) : Option (Thread × Int) :=
  lock w .rlock addr count { tryLock := true } t

def tryWLock (w : Worker) (addr count : GAddr) (t : Thread) : Option (Thread × Int) :=
  lock w .wlock addr count { tryLock := true } t

def unLock (w : Worker) (addr count : GAddr) (t : Thread) : Option Thread :=
  (lock w .unlock addr count {} t).map (·.1)

/-! ## What the calls are for -/

/-- The first addresses of the blocks behind the first that `[addr, addr + count)` overlaps. -/
def further (addr count : Nat) : Finset Nat := {b ∈ Finset.Ioo addr (addr + count) | blockSize ∣ b}

/-- The locks that a range of addresses stands for. -/
def taken (addr count : Nat) : Multiset Nat := addr ::ₘ (further addr count).val

/-- An attempt on the range locks all of `taken`, which `UnLock` gives back, or it fails at one of
its addresses and locks nothing. -/
def AllOrNothing (addr count : GAddr) : Prop :=
  ∀ (w : Worker) (op : Op) (t : Thread), op ≠ .unlock →
    ∃ t' ret, lock w op addr count { tryLock := true } t = some (t', ret) ∧
      ((ret = 0 ∧ (∀ a, a.toNat ∈ taken addr.toNat count.toNat → w.fails a = false) ∧
          t'.settled.map BitVec.toNat =
            t.settled.map BitVec.toNat + taken addr.toNat count.toNat ∧
          ∃ t'', unLock w addr count t' = some t'' ∧ t''.settled = t.settled) ∨
        (ret = -1 ∧ (∃ a, a.toNat ∈ taken addr.toNat count.toNat ∧ w.fails a = true) ∧
          t'.settled = t.settled))

/-! ## Requests and what they settle to -/

namespace Thread

variable {t : Thread} {a : GAddr}

theorem sub_serve : t.serve.held - (t.serve.pending : Multiset GAddr) = t.held - t.pending := by
  obtain ⟨held, pending, h⟩ := t
  cases pending with
  | nil => rfl
  | cons a as => exact (Multiset.sub_cons a held as).symm

theorem sub_serve_iterate (n : Nat) :
    (serve^[n] t).held - ((serve^[n] t).pending : Multiset GAddr) = t.held - t.pending := by
  induction n generalizing t with
  | zero => rfl
  | succ n ih => rw [Function.iterate_succ_apply, ih, sub_serve]

theorem pending_serve_iterate (n : Nat) : (serve^[n] t).pending = t.pending.drop n := by
  induction n generalizing t with
  | zero => rfl
  | succ n ih =>
    rw [Function.iterate_succ_apply, ih]
    obtain ⟨held, pending, h⟩ := t
    cases pending with
    | nil => simp [serve]
    | cons a as => rfl

theorem settled_eq : t.settled = t.held - t.pending := by
  have h := sub_serve_iterate (t := t) t.pending.length
  rw [pending_serve_iterate, List.drop_length] at h
  simpa [settled, served] using h

/-- When the worker serves the unlocks makes no difference in the end. -/
@[simp] theorem settled_serve_iterate (n : Nat) : (serve^[n] t).settled = t.settled := by
  rw [settled_eq, settled_eq, sub_serve_iterate]

@[simp] theorem settled_served : t.served.settled = t.settled :=
  settled_serve_iterate _

theorem settled_acquire : (t.acquire a).settled = a ::ₘ t.settled := by
  rw [settled_eq, settled_eq, acquire, Multiset.cons_sub_of_le a t.owned]

theorem append_le_held (h : a ∈ t.settled) :
    ((t.pending ++ [a] : List GAddr) : Multiset GAddr) ≤ t.held := by
  rw [settled_eq] at h
  rw [← Multiset.coe_add, Multiset.coe_singleton, add_comm]
  exact (le_tsub_iff_right t.owned).1 (Multiset.singleton_le.2 h)

theorem settled_append (h : ((t.pending ++ [a] : List GAddr) : Multiset GAddr) ≤ t.held) :
    (Thread.mk t.held (t.pending ++ [a]) h).settled = t.settled.erase a := by
  rw [settled_eq, settled_eq, ← Multiset.coe_add, ← tsub_tsub, Multiset.coe_singleton,
    Multiset.sub_singleton]

end Thread

namespace Worker

variable {w : Worker} {op : Op} {flag : Flag} {t : Thread} {a : GAddr}

theorem sendRequest_unlock (flag : Flag) (h : a ∈ t.settled) :
    ∃ t', w.sendRequest .unlock flag a t = some (t', .success) ∧ t'.settled = t.settled.erase a := by
  have hle := Thread.append_le_held h
  refine ⟨_, by rw [sendRequest, if_pos rfl, dif_pos hle], ?_⟩
  split
  · rw [Thread.settled_serve_iterate, Thread.settled_append]
  · rw [Thread.settled_served, Thread.settled_append]

theorem sendRequest_try (hop : op ≠ .unlock) (t : Thread) (a : GAddr) :
    ∃ t', w.sendRequest op { tryLock := true } a t =
        some (t', if w.fails a then .lockFailed else .success) ∧
      t'.settled = if w.fails a then t.settled else a ::ₘ t.settled := by
  by_cases hf : w.fails a = true
  · exact ⟨Thread.serve^[w.serves t] t, by simp [sendRequest, hop, hf], by simp [hf]⟩
  · exact ⟨Thread.serve^[w.serves (t.acquire a)] (t.acquire a), by simp [sendRequest, hop, hf],
      by simp [hf, Thread.settled_acquire]⟩

end Worker

/-! ## The addresses of a call -/

variable {w : Worker} {op : Op} {t : Thread} {addr count : GAddr} {i m : Nat} {s : Multiset GAddr}

/-- The address of the `k`-th request. -/
def site (addr : GAddr) (k : Nat) : GAddr :=
  if k = 0 then addr else toBlock addr + BitVec.ofNat 64 (k * blockSize)

/-- The addresses of `m` requests from the `i`-th on. -/
def sites (addr : GAddr) (i m : Nat) : Multiset GAddr := ((List.range' i m).map (site addr) : List GAddr)

theorem sites_succ : sites addr i (m + 1) = site addr i ::ₘ sites addr (i + 1) m := by
  simp [sites, List.range'_succ]

theorem toNat_toBlock (x : GAddr) : (toBlock x).toNat = x.toNat / blockSize * blockSize := by
  have hmask : (0xFFFFFFFFFFFFFE00 : GAddr) = BitVec.allOnes 64 <<< 9 := by decide
  rw [toBlock, hmask, Lib.toNat_and_mask]
  rfl

/-- How many blocks the range overlaps. -/
def blocks (addr count : Nat) : Nat := (addr % blockSize + count - 1) / blockSize + 1

/-- The range ends before the last block of the address space, and the offsets of its blocks are
`int`s. -/
structure InRange (addr count : GAddr) : Prop where
  fits : addr.toNat + count.toNat ≤ 2 ^ 64 - blockSize
  few : blocks addr.toNat count.toNat < 2 ^ 22

theorem blockOffset_eq (h : i < 2 ^ 22) :
    blockOffset i = some (BitVec.ofNat 64 (i * blockSize)) := by
  unfold blockOffset blockSize
  rw [if_pos (by omega)]

theorem toNat_site (h : InRange addr count) (hc : 1 ≤ count.toNat) (hi : 1 ≤ i)
    (hn : i ≤ blocks addr.toNat count.toNat) :
    (toBlock addr + BitVec.ofNat 64 (i * blockSize)).toNat =
      addr.toNat / blockSize * blockSize + i * blockSize := by
  obtain ⟨hfits, hfew⟩ := h
  rw [BitVec.toNat_add, toNat_toBlock, BitVec.toNat_ofNat]
  unfold blocks blockSize at *
  omega

theorem toNat_endBlk (h : addr.toNat + count.toNat ≤ 2 ^ 64) (hc : 1 ≤ count.toNat) :
    (toBlock (addr + (count - 1))).toNat =
      addr.toNat / blockSize * blockSize +
        (blocks addr.toNat count.toNat - 1) * blockSize := by
  have hcount : (count - 1).toNat = count.toNat - 1 := by
    rw [BitVec.toNat_sub_of_le (by simpa [BitVec.le_def] using hc)]
    rfl
  rw [toNat_toBlock, BitVec.toNat_add, hcount]
  unfold blocks blockSize at *
  omega

/-- The loop stops behind the last block. -/
theorem next_gt_iff (h : InRange addr count) (hc : 1 ≤ count.toNat) (hi : 1 ≤ i)
    (hn : i ≤ blocks addr.toNat count.toNat) :
    toBlock (addr + (count - 1)) < toBlock addr + BitVec.ofNat 64 (i * blockSize) ↔
      i = blocks addr.toNat count.toNat := by
  rw [BitVec.lt_def, toNat_site h hc hi hn, toNat_endBlk (by have := h.fits; omega) hc]
  unfold blocks blockSize at *
  omega

/-! ## The loops -/

/-- One round of the loop behind a granted request. -/
theorem lockLoop_step {flag : Flag} {t' : Thread} (h : InRange addr count) (hc : 1 ≤ count.toNat)
    (hi : i < blocks addr.toNat count.toNat)
    (hsend : w.sendRequest op flag (site addr i) t = some (t', .success)) :
    lockLoop w op flag (toBlock addr) (toBlock (addr + (count - 1))) i (site addr i) t =
      if i + 1 = blocks addr.toNat count.toNat then some (t', i + 1, .success)
      else lockLoop w op flag (toBlock addr) (toBlock (addr + (count - 1))) (i + 1)
        (site addr (i + 1)) t' := by
  have hoff := blockOffset_eq (i := i + 1) (by have := h.few; omega)
  have hnext := next_gt_iff h hc (i := i + 1) (by omega) (by omega)
  rw [lockLoop]
  simp only [hsend]
  split
  · rename_i hnone
    rw [hoff] at hnone
    cases hnone
  · rename_i off hsome
    rw [hoff] at hsome
    obtain rfl := Option.some.inj hsome
    simp only [hnext, site, Nat.add_eq_zero_iff, one_ne_zero, and_false, if_false]

/-- How the loop ends when `k` attempts from the `i`-th on are granted. -/
structure Ended (w : Worker) (addr : GAddr) (i m : Nat) (t t' : Thread) (k : Nat)
    (status : Status) : Prop where
  settled : t'.settled = sites addr i k + t.settled
  granted : ∀ a ∈ sites addr i k, w.fails a = false
  status : (status = .success ∧ k = m + 1) ∨
    (status = .lockFailed ∧ k ≤ m ∧ w.fails (site addr (i + k)) = true)

theorem Ended.cons {t₁ t₂ : Thread} {k : Nat} {status : Status}
    (hset : t₁.settled = site addr i ::ₘ t.settled) (hf : w.fails (site addr i) = false)
    (h : Ended w addr (i + 1) m t₁ t₂ k status) : Ended w addr i (m + 1) t t₂ (k + 1) status where
  settled := by
    rw [h.settled, hset, sites_succ, Multiset.add_cons, Multiset.cons_add]
  granted := by
    intro a ha
    rw [sites_succ, Multiset.mem_cons] at ha
    obtain rfl | ha := ha
    · exact hf
    · exact h.granted a ha
  status := by
    have hst := h.status
    rw [Nat.add_right_comm, Nat.add_assoc] at hst
    simpa using hst

theorem lockLoop_failed {flag : Flag} {startBlk endBlk : GAddr} {t' : Thread} (m : Nat)
    (hsend : w.sendRequest op flag (site addr i) t = some (t', .lockFailed))
    (hset : t'.settled = t.settled) (hf : w.fails (site addr i) = true) :
    lockLoop w op flag startBlk endBlk i (site addr i) t = some (t', i, .lockFailed) ∧
      Ended w addr i m t t' 0 .lockFailed := by
  refine ⟨?_, by simpa [sites] using hset, by simp [sites], .inr ⟨rfl, Nat.zero_le m, hf⟩⟩
  rw [lockLoop]
  simp only [hsend]

theorem lockLoop_try (h : InRange addr count) (hc : 1 ≤ count.toNat) (hop : op ≠ .unlock)
    (hi : i + m + 1 = blocks addr.toNat count.toNat) (t : Thread) :
    ∃ t' k status, lockLoop w op { tryLock := true } (toBlock addr)
        (toBlock (addr + (count - 1))) i (site addr i) t = some (t', i + k, status) ∧
      Ended w addr i m t t' k status := by
  induction m generalizing i t with
  | zero =>
    obtain ⟨t', hsend, hset⟩ := w.sendRequest_try hop t (site addr i)
    by_cases hf : w.fails (site addr i) = true
    · rw [if_pos hf] at hsend hset
      exact ⟨t', 0, _, lockLoop_failed 0 hsend hset hf⟩
    · rw [if_neg hf] at hsend hset
      rw [lockLoop_step h hc (by omega) hsend, if_pos (by omega)]
      exact ⟨t', 1, .success, rfl, by simpa [sites] using hset, by simpa [sites] using hf,
        .inl ⟨rfl, rfl⟩⟩
  | succ m ih =>
    obtain ⟨t', hsend, hset⟩ := w.sendRequest_try hop t (site addr i)
    by_cases hf : w.fails (site addr i) = true
    · rw [if_pos hf] at hsend hset
      exact ⟨t', 0, _, lockLoop_failed (m + 1) hsend hset hf⟩
    · rw [if_neg hf] at hsend hset
      rw [lockLoop_step h hc (by omega) hsend, if_neg (by omega)]
      obtain ⟨t₂, k, status, hloop, hend⟩ := ih (i := i + 1) (by omega) t'
      exact ⟨t₂, k + 1, status, by rw [hloop, Nat.add_assoc, Nat.add_comm 1],
        hend.cons hset (by simpa using hf)⟩

theorem erase_sites (h : sites addr i (m + 1) ≤ s) :
    site addr i ∈ s ∧ sites addr (i + 1) m ≤ s.erase (site addr i) ∧
      s.erase (site addr i) - sites addr (i + 1) m = s - sites addr i (m + 1) := by
  rw [sites_succ] at h ⊢
  refine ⟨Multiset.mem_of_le h (Multiset.mem_cons_self _ _), ?_, (Multiset.sub_cons _ _ _).symm⟩
  simpa using Multiset.erase_le_erase (site addr i) h

theorem lockLoop_unlock (flag : Flag) (h : InRange addr count) (hc : 1 ≤ count.toNat)
    (hi : i + m + 1 = blocks addr.toNat count.toNat) (hle : sites addr i (m + 1) ≤ t.settled) :
    ∃ t', lockLoop w .unlock flag (toBlock addr) (toBlock (addr + (count - 1))) i (site addr i) t =
        some (t', i + m + 1, .success) ∧ t'.settled = t.settled - sites addr i (m + 1) := by
  induction m generalizing i t with
  | zero =>
    obtain ⟨hmem, -, hsub⟩ := erase_sites hle
    obtain ⟨t', hsend, hset⟩ := w.sendRequest_unlock flag hmem
    rw [lockLoop_step h hc (by omega) hsend, if_pos (by omega)]
    exact ⟨t', rfl, by rw [hset, ← hsub]; simp [sites]⟩
  | succ m ih =>
    obtain ⟨hmem, hle', hsub⟩ := erase_sites hle
    obtain ⟨t', hsend, hset⟩ := w.sendRequest_unlock flag hmem
    rw [lockLoop_step h hc (by omega) hsend, if_neg (by omega)]
    obtain ⟨t₂, hloop, hset₂⟩ := ih (i := i + 1) (t := t') (by omega) (hset ▸ hle')
    exact ⟨t₂, by rw [hloop, Nat.add_right_comm i 1 m, Nat.add_assoc i m 1],
      by rw [hset₂, hset, hsub]⟩

/-- The second loop of the rollback. -/
theorem foldlM_unlock (flag : Flag) (hi : 1 ≤ i) (him : i + m ≤ 2 ^ 22)
    (hle : sites addr i m ≤ t.settled) :
    ∃ t', (List.range' i m).foldlM
        (fun t j => do
          let off ← blockOffset j
          let (t, _) ← w.sendRequest .unlock flag (toBlock addr + off) t
          some t) t = some t' ∧ t'.settled = t.settled - sites addr i m := by
  induction m generalizing i t with
  | zero => exact ⟨t, rfl, by simp [sites]⟩
  | succ m ih =>
    obtain ⟨hmem, hle', hsub⟩ := erase_sites hle
    obtain ⟨t', hsend, hset⟩ := w.sendRequest_unlock flag hmem
    obtain ⟨t₂, hfold, hset₂⟩ := ih (i := i + 1) (t := t') (by omega) (by omega) (hset ▸ hle')
    refine ⟨t₂, ?_, by rw [hset₂, hset, hsub]⟩
    rw [site, if_neg (by omega)] at hsend
    rw [List.range'_succ, List.foldlM_cons, blockOffset_eq (by omega)]
    simpa only [Option.bind_eq_bind, Option.bind_some, hsend] using hfold

theorem rollBack_eq (flag : Flag) (hm : m ≤ 2 ^ 22) (hset : t.settled = sites addr 0 m + s) :
    ∃ t', rollBack w flag addr (toBlock addr) m t = some t' ∧ t'.settled = s := by
  cases m with
  | zero => exact ⟨t, rfl, by simpa [sites] using hset⟩
  | succ m =>
    obtain ⟨hmem, hle, hsub⟩ := erase_sites (hset ▸ Multiset.le_add_right _ _)
    obtain ⟨t', hsend, hset'⟩ := w.sendRequest_unlock { flag with async := true } hmem
    obtain ⟨t₂, hfold, hset₂⟩ := foldlM_unlock (w := w) (t := t') { flag with async := true }
      (Nat.le_refl 1) (by omega) (hset' ▸ hle)
    refine ⟨t₂, ?_, ?_⟩
    · rw [site, if_pos rfl] at hsend
      simpa [rollBack, hsend] using hfold
    · rw [hset₂, hset', hsub, hset, add_tsub_cancel_left]

/-! ## All or nothing -/

theorem mem_further {b addr count : Nat} :
    b ∈ further addr count ↔ addr < b ∧ b < addr + count ∧ blockSize ∣ b := by
  simp [further, and_assoc]

/-- The addresses of a call that goes through are those the range stands for. -/
theorem map_toNat_sites (h : InRange addr count) (hc : 1 ≤ count.toNat) :
    (sites addr 0 (blocks addr.toNat count.toNat)).map BitVec.toNat =
      taken addr.toNat count.toNat := by
  have hsites : ((List.range' 1 (blocks addr.toNat count.toNat - 1)).map (site addr)).map
      BitVec.toNat = (List.range' 1 (blocks addr.toNat count.toNat - 1)).map
        fun k => addr.toNat / blockSize * blockSize + k * blockSize := by
    rw [List.map_map]
    refine List.map_congr_left fun k hk => ?_
    rw [List.mem_range'_1] at hk
    rw [Function.comp_apply, site, if_neg (by omega), toNat_site h hc (by omega) (by omega)]
  have hfurther : ((List.range' 1 (blocks addr.toNat count.toNat - 1)).map
      fun k => addr.toNat / blockSize * blockSize + k * blockSize : List Nat) =
        (further addr.toNat count.toNat).val := by
    refine (Multiset.Nodup.ext ?_ (Finset.nodup _)).2 fun b => ?_
    · refine List.Nodup.map (fun x y hxy => ?_) List.nodup_range'
      unfold blockSize at hxy
      omega
    · simp only [Multiset.mem_coe, List.mem_map, List.mem_range'_1, Finset.mem_val, mem_further]
      unfold blocks blockSize
      constructor
      · rintro ⟨k, hk, rfl⟩
        omega
      · intro hb
        exact ⟨b / 512 - addr.toNat / 512, by omega, by omega⟩
  obtain ⟨n, hn⟩ : ∃ n, blocks addr.toNat count.toNat = n + 1 := ⟨_, rfl⟩
  rw [hn, Nat.add_sub_cancel] at hsites hfurther
  rw [hn, sites_succ, Multiset.map_cons, taken, ← hfurther, ← hsites]
  rfl

theorem allOrNothing (h : InRange addr count) (hc : 1 ≤ count.toNat) : AllOrNothing addr count := by
  intro w op t hop
  obtain ⟨n, hn⟩ : ∃ n, blocks addr.toNat count.toNat = n + 1 := ⟨_, rfl⟩
  have htaken := map_toNat_sites h hc
  have hmem : ∀ a : GAddr, a.toNat ∈ taken addr.toNat count.toNat ↔ a ∈ sites addr 0 (n + 1) := by
    intro a
    rw [← htaken, ← hn, Multiset.mem_map_of_injective BitVec.toNat_injective]
  obtain ⟨t', k, status, hloop, hend⟩ := lockLoop_try (w := w) h hc hop (i := 0) (m := n)
    (by omega) t
  rw [Nat.zero_add, site, if_pos rfl] at hloop
  obtain ⟨rfl, rfl⟩ | ⟨rfl, hk, hf⟩ := hend.status
  · refine ⟨t', 0, ?_, .inl ⟨rfl, fun a ha => hend.granted a ((hmem a).1 ha), ?_, ?_⟩⟩
    · simp only [lock, hop, if_false, hloop, Option.bind_eq_bind, Option.bind_some, reduceCtorEq,
        and_false]
    · rw [hend.settled, Multiset.map_add, ← htaken, hn, add_comm]
    · obtain ⟨t'', hunlock, hset⟩ := lockLoop_unlock (w := w) (t := t') { async := true }
        (i := 0) (m := n) h hc (by omega) (hend.settled ▸ Multiset.le_add_right _ _)
      rw [site, if_pos rfl] at hunlock
      refine ⟨t'', ?_, ?_⟩
      · simp only [unLock, lock, if_true, hunlock, Option.bind_eq_bind, Option.bind_some, ne_eq,
          not_true, false_and, if_false, Option.map_some]
      · rw [hset, hend.settled, add_tsub_cancel_left]
  · obtain ⟨t'', hback, hset⟩ := rollBack_eq (w := w) { tryLock := true }
      (by have := h.few; omega) hend.settled
    refine ⟨t'', -1, ?_, .inr ⟨rfl, ⟨_, (hmem _).2 ?_, hf⟩, hset⟩⟩
    · simp only [lock, hop, if_false, hloop, Option.bind_eq_bind, Option.bind_some, ne_eq,
        not_false_eq_true, and_self, if_true, hback]
    · rw [Nat.zero_add, sites, Multiset.mem_coe]
      exact List.mem_map_of_mem (List.mem_range'_1.2 (by omega))

/-! ## Ranges that are too long -/

/-- While the next block is not behind the last one, the loop goes on until `i*BLOCK_SIZE`
overflows. -/
theorem lockLoop_overflow (addr : GAddr) {endBlk : GAddr} (hop : op ≠ .unlock) (hw : ∀ a, w.fails a = false)
    (hnext : ∀ j, j < 2 ^ 22 → toBlock addr + BitVec.ofNat 64 (j * blockSize) ≤ endBlk)
    (i : Nat) (a : GAddr) (t : Thread) :
    lockLoop w op { tryLock := true } (toBlock addr) endBlk i a t = none := by
  obtain ⟨t', hsend, -⟩ := w.sendRequest_try hop t a
  rw [hw a] at hsend
  rw [lockLoop]
  simp only [hsend, Bool.false_eq_true, if_false]
  split
  · rfl
  · rename_i off hoff
    have hi := blockOffset_lt hoff
    rw [blockOffset_eq hi] at hoff
    obtain rfl := Option.some.inj hoff
    rw [if_neg (BitVec.not_lt.2 (hnext (i + 1) hi))]
    exact lockLoop_overflow addr hop hw hnext (i + 1) _ t'
termination_by 2 ^ 22 - i

theorem inRange_of_allOrNothing (hc : 1 ≤ count.toNat) (h : AllOrNothing addr count) :
    InRange addr count := by
  obtain ⟨t', ret, hlock, hret⟩ := h ⟨fun _ => false, fun _ => 0⟩ .wlock ⟨0, [], by simp⟩ (by decide)
  have hall : t'.settled.map BitVec.toNat = taken addr.toNat count.toNat := by
    obtain ⟨-, -, hset, -⟩ | ⟨-, ⟨a, -, hf⟩, -⟩ := hret
    · simpa [Thread.settled_eq] using hset
    · cases hf
  -- every address that is locked has 64 bits
  have hend : addr.toNat + count.toNat ≤ 2 ^ 64 := by
    by_contra hlong
    have hlast : (addr.toNat + count.toNat - 1) / blockSize * blockSize ∈
        taken addr.toNat count.toNat := by
      refine Multiset.mem_cons_of_mem ?_
      rw [Finset.mem_val, mem_further]
      have := addr.isLt
      unfold blockSize
      omega
    rw [← hall] at hlast
    obtain ⟨a, -, ha⟩ := Multiset.mem_map.1 hlast
    have := a.isLt
    unfold blockSize at ha
    omega
  have hover : ∃ j, j < 2 ^ 22 ∧
      toBlock (addr + (count - 1)) < toBlock addr + BitVec.ofNat 64 (j * blockSize) := by
    by_contra hno
    have hloop := lockLoop_overflow addr (w := ⟨fun _ => false, fun _ => 0⟩)
      (show Op.wlock ≠ .unlock by decide) (fun _ => rfl)
      (fun j hj => BitVec.not_lt.1 fun hlt => hno ⟨j, hj, hlt⟩) 0 addr ⟨0, [], by simp⟩
    simp only [lock, reduceCtorEq, if_false, hloop, Option.bind_eq_bind, Option.bind_none] at hlock
  obtain ⟨j, hj, hlt⟩ := hover
  rw [BitVec.lt_def, toNat_endBlk hend hc, BitVec.toNat_add, toNat_toBlock,
    BitVec.toNat_ofNat] at hlt
  constructor
  · unfold blocks blockSize at *
    omega
  · unfold blocks blockSize at *
    omega

end HwGam.Galloc
