import HwGam.Wire.MemStats

/-!
# Messages in their slots

`Ser` knows no bound. It writes a message and a zero behind it to a buffer of `MAX_REQUEST_SIZE`
bytes, which is also the length of the peer's receive slot. How long the message is depends on the
operation, on the size of a value and on the text of the statistics.
-/

namespace HwGam.Wire

open Lib WorkRequest

/-- `MAX_REQUEST_SIZE`. -/
def maxRequestSize : Nat := 1024

abbrev Memory := Int → Byte

/-- `memcpy` of `bytes` to `dest`. -/
def store (mem : Memory) (dest : Int) (bytes : List Byte) : Memory := fun a =>
  if dest ≤ a ∧ a < dest + bytes.length then bytes.getD (a - dest).toNat 0 else mem a

/-- `Ser` as it changes the memory: the message from `buf` on and `buf[len] = '\0'`, where `len` is
an `int`. -/
def WorkRequest.serInto (r : WorkRequest) (mem : Memory) (buf : Int) : Memory :=
  store (store mem buf r.ser) (buf + (BitVec.ofNat 32 r.ser.length).toInt) [0]

/-- The message has room in a slot and nothing behind or before the slot changes, or it is refused
and nothing changes at all. -/
def WorkRequest.Contained (r : WorkRequest) : Prop :=
  ∀ (mem : Memory) (buf : Int),
    (r.ser.length + 1 ≤ maxRequestSize ∧
      ∀ a, ¬ (buf ≤ a ∧ a < buf + maxRequestSize) → r.serInto mem buf a = mem a) ∨
    r.serInto mem buf = mem

/-- The operations that send fields of a fixed width only. -/
def Work.Plain (op : Work) : Prop := Field.payload ∉ op.carries.getD []

/-- The requests that the public API, a worker and the master hand to `Ser`. A value is `count`
bytes at a pointer; the statistics are those of a master after some reports. -/
inductive Message (unsyncedTh : Nat) where
  /-- `GAlloc::Put`. -/
  | put (psn wid : BitVec 32) (key count : BitVec 64) (value : Nat → Byte)
  /-- The answer to a `GET`, out of `kvs`. -/
  | getReply (psn wid : BitVec 32) (key count : BitVec 64) (value : Nat → Byte)
  | fetchReply (rs : List Report) (ws : List Wid)
      (all : ws.Perm (Master.run unsyncedTh rs).known)
  | broadcast (rs : List Report) (r : Report) (ws : List Wid)
      (due : ((Master.run unsyncedTh rs).updateMemStats unsyncedTh r).2 = some ws)
  | plain (r : WorkRequest) (fixed : r.op.Plain)

namespace Message

variable {th : Nat} {qp : Wid → BitVec 32} {r : WorkRequest} {mem : Memory} {buf a : Int}

def request (qp : Wid → BitVec 32) : Message th → WorkRequest
  | put psn wid key count value =>
    { op := .put, id := psn, wid, addr := key, size := count
      payload := (List.range count.toNat).map value }
  | getReply psn wid key count value =>
    { op := .getReply, id := psn, wid, addr := key, size := count
      payload := (List.range count.toNat).map value }
  | fetchReply rs ws _ => (Master.run th rs).fetchReply qp ws
  | broadcast rs r ws _ => (((Master.run th rs).updateMemStats th r).1).broadcastMsg qp th ws
  | plain r _ => r

/-- What is left of a slot for a value behind the 28 bytes of the header and before the zero, and
for a text behind 12 bytes. -/
def Fits (qp : Wid → BitVec 32) : Message th → Prop
  | put _ _ _ count _ | getReply _ _ _ count _ => count.toNat ≤ 995
  | fetchReply rs ws _ => (ws.flatMap ((Master.run th rs).fetchEntry qp)).length ≤ 1011
  | broadcast rs r ws _ =>
    (ws.flatMap ((((Master.run th rs).updateMemStats th r).1).broadcastEntry qp)).length ≤ 1011
  | plain _ _ => True

/-! ## What `Ser` writes -/

theorem store_outside {bytes : List Byte} {dest : Int}
    (h : ¬ (dest ≤ a ∧ a < dest + bytes.length)) : store mem dest bytes a = mem a := by
  rw [store, if_neg h]

/-- Whatever the length is, the zero is written last. -/
theorem serInto_zero (mem : Memory) (buf : Int) :
    r.serInto mem buf (buf + (BitVec.ofNat 32 r.ser.length).toInt) = 0 := by
  unfold serInto store
  rw [if_pos ⟨Int.le_refl _, by simp⟩]
  simp

theorem contained_iff : r.Contained ↔ r.ser.length + 1 ≤ maxRequestSize := by
  constructor
  · intro h
    obtain ⟨hfit, -⟩ | hsame := h (fun _ => 1) 0
    · exact hfit
    · have hzero := serInto_zero (r := r) (fun _ => 1) 0
      rw [hsame] at hzero
      cases hzero
  · intro hfit mem buf
    refine .inl ⟨hfit, fun a ha => ?_⟩
    unfold maxRequestSize at hfit ha
    have hlen : (BitVec.ofNat 32 r.ser.length).toInt = r.ser.length := by
      rw [BitVec.toInt_ofNat', Int.bmod_eq_of_le (by omega) (by omega)]
    rw [serInto, hlen, store_outside, store_outside]
    · omega
    · rw [List.length_singleton]
      omega

/-! ## The length of a message -/

/-- No message of fixed fields is longer than a `WRITE`. -/
theorem length_ser_plain (h : r.op.Plain) : r.ser.length ≤ 52 := by
  obtain ⟨id, pid, pwid, op, addr, size, status, flag, ptr, wid, counter, gfunc, arg, payload⟩ := r
  cases op <;>
    first
    | (simp [ser]; done)
    | simp [Work.Plain, Work.carries] at h

theorem length_ser_value (h : r.op = .put ∨ r.op = .getReply)
    (hsize : r.payload.length = r.size.toNat) : r.ser.length = 28 + r.size.toNat := by
  obtain ⟨id, pid, pwid, op, addr, size, status, flag, ptr, wid, counter, gfunc, arg, payload⟩ := r
  simp only at hsize
  obtain rfl | rfl := h
  · simp [ser, hsize]
    omega
  · simp [ser, hsize]
    omega

theorem length_ser_put {psn wid : BitVec 32} {key count : BitVec 64} {value : Nat → Byte} :
    ((put psn wid key count value : Message th).request qp).ser.length = 28 + count.toNat :=
  length_ser_value (.inl rfl) (by simp [request])

theorem length_ser_getReply {psn wid : BitVec 32} {key count : BitVec 64} {value : Nat → Byte} :
    ((getReply psn wid key count value : Message th).request qp).ser.length = 28 + count.toNat :=
  length_ser_value (.inr rfl) (by simp [request])

/-- A message stays in its slot exactly when its value has at most 995 bytes, its text 1011. -/
theorem contained_iff_fits (qp : Wid → BitVec 32) (m : Message th) :
    (m.request qp).Contained ↔ m.Fits qp := by
  rw [contained_iff, maxRequestSize]
  cases m with
  | put psn wid key count value =>
    rw [length_ser_put, Fits]
    omega
  | getReply psn wid key count value =>
    rw [length_ser_getReply, Fits]
    omega
  | fetchReply rs ws all =>
    rw [request, length_ser_fetch, Fits]
    omega
  | broadcast rs r ws due =>
    rw [request, length_ser_broadcast, Fits]
    omega
  | plain r fixed =>
    have hle := length_ser_plain fixed
    simp only [request, Fits, iff_true]
    omega

/-- A value of 996 bytes sets the byte behind the slot to zero. -/
theorem not_contained_put :
    ¬ ((put 0 1 7 996 (fun _ => 65) : Message 1).request fun _ => 0).Contained := by
  rw [contained_iff, length_ser_put]
  decide

/-! ## Few workers -/

theorem Master.stats_record {m : Master} {r : Report} {w : Wid}
    (h : ∃ s, m.stats w = setMemStat s) : ∃ s, (m.record r).stats w = setMemStat s := by
  by_cases hw : w = r.wid
  · exact ⟨r.stat, by simp [Master.record, hw]⟩
  · simpa [Master.record, hw] using h

/-- Every record of the master is a pair of `int`s. -/
theorem Master.stats_run (th : Nat) (rs : List Report) (w : Wid) :
    ∃ s, (Master.run th rs).stats w = setMemStat s := by
  induction rs using List.reverseRecOn with
  | nil => exact ⟨⟨0, 0⟩, rfl⟩
  | append_singleton rs r ih =>
    rw [Master.run, List.foldl_append, ← Master.run, List.foldl_cons, List.foldl_nil,
      Master.updateMemStats]
    split
    · exact Master.stats_record ih
    · exact Master.stats_record ih

theorem length_flatMap_le {f : Wid → List Byte} {k : Nat} {ws : List Wid}
    (h : ∀ w ∈ ws, (f w).length ≤ k) : (ws.flatMap f).length ≤ ws.length * k := by
  induction ws with
  | nil => simp
  | cons w ws ih =>
    have hw := h w (by simp)
    have ih := ih fun x hx => h x (by simp [hx])
    rw [List.flatMap_cons, List.length_append, List.length_cons, Nat.succ_mul]
    omega

theorem fits_fetchReply {rs : List Report} {ws : List Wid}
    {all : ws.Perm (Master.run th rs).known} (h : ws.length ≤ 21) :
    (fetchReply rs ws all : Message th).Fits qp := by
  have hentry : ∀ w ∈ ws, ((Master.run th rs).fetchEntry qp w).length ≤ 47 := by
    intro w _
    obtain ⟨s, hs⟩ := Master.stats_run th rs w
    have hle := length_broadcastEntry_le qp hs
    have hone : (Master.run th rs).fetchEntry qp w =
        (Master.run th rs).broadcastEntry qp w ++ [Master.colon] := rfl
    rw [hone, List.length_append, List.length_singleton]
    omega
  have hle := length_flatMap_le hentry
  rw [Fits]
  omega

theorem fits_broadcast {rs : List Report} {r : Report} {ws : List Wid}
    {due : ((Master.run th rs).updateMemStats th r).2 = some ws} (h : th ≤ 21) :
    (broadcast rs r ws due : Message th).Fits qp := by
  rw [Fits]
  have hdue := due
  rw [Master.updateMemStats] at hdue ⊢
  split at hdue
  · rename_i hlen
    obtain rfl := Option.some.inj hdue
    rw [if_pos hlen]
    have hentry : ∀ w ∈ ((Master.run th rs).record r).unsynced,
        (Master.broadcastEntry qp { (Master.run th rs).record r with unsynced := [] } w).length ≤
          46 := by
      intro w _
      obtain ⟨s, hs⟩ := Master.stats_record (r := r) (Master.stats_run th rs w)
      exact length_broadcastEntry_le qp hs
    have hle := length_flatMap_le hentry
    exact Nat.le_trans hle (by omega)
  · cases hdue

end Message

end HwGam.Wire
