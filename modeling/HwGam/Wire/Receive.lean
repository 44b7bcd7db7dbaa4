import HwGam.Wire.WorkRequest

/-!
# The receive loop

A merged message is a list of serialised requests with a zero byte between them; the receive loop
of `Server::ProcessRdmaRequest` cuts it up again with `Deser`.
-/

namespace HwGam.Wire

open Lib

/-- An operation that `Ser` handles is recognised. -/
theorem Work.ofCode_code {op : Work} (h : op.carries.isSome) : Work.ofCode op.code = op := by
  cases op <;> first | decide +kernel | simp [Work.carries] at h

namespace WorkRequest

variable {r : WorkRequest} {rest : List Byte}

/-! ## One request -/

theorem getGFunc_getGFuncID {g : Option GFunc} (h : ∀ x ∈ g, x ∈ gfuncs) :
    getGFunc (getGFuncID g) = g := by
  cases g with
  | none => rfl
  | some x =>
    have hx := h x rfl
    cases x with
    | other => simp [gfuncs] at hx
    | _ => rfl

/-- What `Ser` writes after the operation. -/
def body (r : WorkRequest) : List Byte := r.ser.drop 4

theorem ser_eq (h : r.op.carries.isSome) : r.ser = appendInteger r.op.code ++ r.body := by
  have hlen : ∀ bs : List Byte, (appendInteger r.op.code ++ bs).drop 4 = bs :=
    fun bs => List.drop_left' (length_encodeLe _)
  cases hop : r.op <;> simp [Work.carries, hop] at h <;>
    simp only [body, ser, hop, List.append_assoc] at hlen ⊢ <;> rw [hlen]

/-- The fields read are those carried, up to the zero that follows. -/
theorem readFields_body (rest : List Byte) (h : r.WellFormed) {fs : List Field}
    (hfs : r.op.carries = some fs) :
    readFields r.op (r.body ++ 0 :: rest) = some (r.keep fs, 0 :: rest) := by
  obtain ⟨-, hsized, htext, hreg⟩ := h
  have hg := getGFunc_getGFuncID hreg
  have hdrop : ∀ (w : BitVec 32) (bs : List Byte), (appendInteger w ++ bs).drop 4 = bs :=
    fun w bs => List.drop_left' (length_encodeLe _)
  cases hop : r.op
  case put | getReply =>
    obtain rfl := Option.some.inj ((congrArg Work.carries hop).symm.trans hfs)
    have hlen := hsized (by simp [hop])
    have hp : r.payload.take r.size.toNat = r.payload :=
      List.take_of_length_le (Nat.le_of_eq hlen)
    simp [body, ser, hop, hdrop, readFields, keep, hp, readBytes_append hlen]
  case fetchMemStatsReply | broadcastMemStats =>
    obtain rfl := Option.some.inj ((congrArg Work.carries hop).symm.trans hfs)
    have hzero := htext (by simp [hop])
    simp only [body, ser, hop, takeWhile_eq_self hzero, List.append_assoc, hdrop]
    simpa [readFields, keep, hop] using readCString_append rest hzero
  all_goals first
    | (rw [hop] at hfs; cases hfs; done)
    | obtain rfl := Option.some.inj ((congrArg Work.carries hop).symm.trans hfs)
      simp only [body, ser, hop, List.append_assoc, hdrop, readFields, Reader.bind_apply, hg,
        decodeLe_encodeLe_32, decodeLe_encodeLe_64, Option.bind_some, Reader.pure_apply]
      simp [keep, hop]

/-- The request as its receiver sees it: a fresh one with the fields its operation carries. -/
def carried (r : WorkRequest) : WorkRequest := r.keep (r.op.carries.getD [])

/-- `Deser` reads a request back and consumes what `Ser` wrote. -/
theorem deser_ser (rest : List Byte) (h : r.WellFormed) :
    deser (r.ser ++ 0 :: rest) = some (r.carried, r.ser.length) := by
  obtain ⟨fs, hfs⟩ := Option.isSome_iff_exists.1 h.handled
  have hbody := readFields_body rest h hfs
  have hlen : (r.ser ++ 0 :: rest).length - (0 :: rest).length = r.ser.length := by
    rw [List.length_append]
    omega
  have hop : readInteger 32 (r.ser ++ 0 :: rest) = some (r.op.code, r.body ++ 0 :: rest) := by
    rw [ser_eq h.handled, List.append_assoc]
    exact decodeLe_encodeLe_32 _
  simp only [deser, hop, Option.bind_eq_bind, Option.bind_some, Work.ofCode_code h.handled, hbody,
    hlen, carried, hfs, Option.getD_some]

theorem length_ser_pos (h : r.WellFormed) : 0 < r.ser.length := by
  rw [ser_eq h.handled, List.length_append, length_encodeLe]
  omega

end WorkRequest

/-! ## A merged message -/

open WorkRequest

/-- What the receive loop did: the requests with the length consumed for each, where it stopped,
and whether every request but the last was followed by a zero byte. -/
structure Received where
  requests : List (WorkRequest × Nat)
  consumedLen : Nat
  inSync : Bool
  deriving DecidableEq, Repr

/-- The loop of `Server::ProcessRdmaRequest` from `consumedLen` on. A request that is followed by
something else than a zero byte is reported, and the loop goes on. -/
def recvLoop (data : List Byte) (byteLen consumedLen : Nat) : Option Received :=
  if consumedLen < byteLen then do
    let (wr, len) ← deser (data.drop consumedLen)
    let pos := consumedLen + len
    let rest ← recvLoop data byteLen (pos + 1)
    some ⟨(wr, len) :: rest.requests, rest.consumedLen,
      (decide (byteLen ≤ pos) || data[pos]? == some 0) && rest.inSync⟩
  else some ⟨[], consumedLen, true⟩
termination_by byteLen - consumedLen

/-- A received message: the buffer is terminated by a zero byte before the loop. -/
def receive (msg : List Byte) : Option Received := recvLoop (msg ++ [0]) msg.length 0

/-- The merge path puts a zero byte between two messages. -/
def merge (msgs : List (List Byte)) : List Byte := List.intercalate [0] msgs

theorem merge_cons_cons (m m' : List Byte) (ms : List (List Byte)) :
    merge (m :: m' :: ms) = m ++ 0 :: merge (m' :: ms) := by
  simp [merge, List.intercalate]

/-- One round of the loop at a request. -/
theorem recvLoop_ser {r : WorkRequest} {pre rest : List Byte} {n : Nat} (h : r.WellFormed)
    (hn : pre.length < n) :
    recvLoop (pre ++ (r.ser ++ 0 :: rest)) n pre.length =
      (recvLoop (pre ++ (r.ser ++ 0 :: rest)) n (pre.length + r.ser.length + 1)).map fun x =>
        ⟨(r.carried, r.ser.length) :: x.requests, x.consumedLen, x.inSync⟩ := by
  have hsep : (pre ++ (r.ser ++ 0 :: rest))[pre.length + r.ser.length]? = some 0 := by
    rw [← List.append_assoc, List.getElem?_append_right (by simp)]
    simp
  rw [recvLoop, if_pos hn, List.drop_left, deser_ser _ h]
  simp only [Option.bind_eq_bind, Option.bind_some, hsep, beq_self_eq_true, Bool.or_true,
    Bool.true_and]
  rw [Option.map_eq_bind]
  rfl

theorem recvLoop_merge {reqs : List WorkRequest} (hne : reqs ≠ [])
    (h : ∀ r ∈ reqs, r.WellFormed) (pre : List Byte) :
    recvLoop (pre ++ (merge (reqs.map ser) ++ [0])) (pre.length + (merge (reqs.map ser)).length)
        pre.length =
      some ⟨reqs.map fun r => (r.carried, r.ser.length),
        pre.length + (merge (reqs.map ser)).length + 1, true⟩ := by
  induction reqs generalizing pre with
  | nil => exact absurd rfl hne
  | cons r reqs ih =>
    have hr := h r (by simp)
    have hpos := length_ser_pos hr
    cases reqs with
    | nil =>
      have hm : merge ([r].map ser) = r.ser := by simp [merge, List.intercalate]
      rw [hm, recvLoop_ser hr (by omega), recvLoop, if_neg (by omega)]
      rfl
    | cons r' reqs =>
      have hm : merge ((r :: r' :: reqs).map ser) = r.ser ++ 0 :: merge ((r' :: reqs).map ser) :=
        merge_cons_cons _ _ _
      have ih := ih (by simp) (fun x hx => h x (by simp [hx])) (pre ++ (r.ser ++ [0]))
      have hlen : (pre ++ (r.ser ++ [0])).length = pre.length + r.ser.length + 1 := by
        simp [Nat.add_assoc]
      have happ : ∀ bs : List Byte,
          (pre ++ (r.ser ++ [0])) ++ (bs ++ [0]) = pre ++ (r.ser ++ 0 :: (bs ++ [0])) := by
        simp
      rw [hlen, happ] at ih
      rw [hm, List.append_assoc, List.cons_append, recvLoop_ser hr
        (by rw [List.length_append]; omega), List.length_append, List.length_cons]
      have hn : pre.length + (r.ser.length + ((merge ((r' :: reqs).map ser)).length + 1)) =
          pre.length + r.ser.length + 1 + (merge ((r' :: reqs).map ser)).length := by
        omega
      rw [hn, ih]
      rfl

/-- A write with a registered function, a statistics message and a read. -/
def sampleRequests : List WorkRequest :=
  [{ op := .write, id := 7, wid := 1, addr := 0x1000, size := 8, flag := 1, gfunc := some .incr,
      arg := 3 },
    { op := .broadcastMemStats, size := 1, payload := [0x31, 0x3a, 0x32] },
    { op := .read, id := 8, wid := 1, addr := 0x2000, size := 512, ptr := 0x7fff }]

end HwGam.Wire
