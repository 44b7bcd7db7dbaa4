import HwGam.Wire.Receive

/-!
# The other builds of `Ser` and `Deser`

`DHT` adds two operations, `GFUNC_SUPPORT` two fields of the writes, `SELECTIVE_CACHING` a payload
to a write that is not to be cached. `NOCACHE` is off, as in the default build, from which the
operations that no option touches are taken.
-/

namespace HwGam.Wire

open Lib WorkRequest

/-- The compile-time options. -/
structure Config where
  dht : Bool
  gfuncSupport : Bool
  selectiveCaching : Bool
  deriving DecidableEq, Repr

/-- `enum Work` with the operations of `DHT`. -/
inductive Op where
  | work (w : Work)
  | getHtable
  | getHtableReply
  deriving DecidableEq, Repr

namespace Op

/-- The requests in the order of their values. -/
def requests (dht : Bool) : List Op :=
  Work.requests.map work ++ if dht then [getHtable] else []

/-- The replies in the order of their values; `GET_HTABLE_REPLY` comes before `GET_REPLY`. -/
def replies (dht : Bool) : List Op :=
  Work.replies.dropLast.map work ++ (if dht then [getHtableReply] else []) ++ [work .getReply]

def code (dht : Bool) (op : Op) : BitVec 32 :=
  match op with
  | work (.other c) => c
  | op =>
    if op ∈ requests dht then BitVec.ofNat 32 (1 + (requests dht).idxOf op)
    else BitVec.ofNat 32 (2 ^ 16 + (replies dht).idxOf op)

def ofCode (dht : Bool) (c : BitVec 32) : Op :=
  if 0 < c.toNat ∧ c.toNat ≤ (requests dht).length then
    ((requests dht)[c.toNat - 1]?).getD (work (.other c))
  else if 2 ^ 16 ≤ c.toNat then ((replies dht)[c.toNat - 2 ^ 16]?).getD (work (.other c))
  else work (.other c)

/-- What the model's request records as its operation. -/
def toWork : Op → Work
  | work w => w
  | _ => .other 0

end Op

namespace Config

variable (c : Config)

/-- `flag & NOT_CACHE`. -/
def notCache (flag : BitVec 32) : Bool := flag.getLsbD 13

/-- `flag & GFUNC`. -/
def isGFunc (flag : BitVec 32) : Bool := flag.getLsbD 14

/-- A write with these flags sends its data. -/
def sendsData (flag : BitVec 32) : Bool :=
  c.selectiveCaching && notCache flag && !(c.gfuncSupport && isGFunc flag)

/-- The fields `Ser` writes for `WRITE` and `WRITE_PERMISSION_ONLY`. -/
def writeFields (r : WorkRequest) : List Byte :=
  appendInteger r.id ++ (appendInteger r.wid ++ (appendInteger r.addr ++ (appendInteger r.size ++
    (appendInteger r.ptr ++ (appendInteger r.flag ++
      if c.gfuncSupport then appendInteger (getGFuncID r.gfunc) ++ appendInteger r.arg else [])))))

/-- What `Ser` writes after the operation. -/
def body : Op → WorkRequest → List Byte
  | .getHtable, r => if c.dht then appendInteger r.id else []
  | .getHtableReply, r =>
    if c.dht then appendInteger r.id ++ (appendInteger r.addr ++ appendInteger r.status) else []
  | .work .write, r =>
    c.writeFields r ++ if c.sendsData r.flag then r.payload.take r.size.toNat else []
  | .work .writePermissionOnly, r => c.writeFields r
  | .work w, r => WorkRequest.body { r with op := w }

/-- `Ser` has a case for the operation. -/
def handles : Op → Bool
  | .getHtable | .getHtableReply => c.dht
  | .work w => w.carries.isSome

/-- `WorkRequest::Ser` in the build `c`. -/
def ser (op : Op) (r : WorkRequest) : List Byte :=
  if c.handles op then appendInteger (op.code c.dht) ++ c.body op r else []

/-- The fields `Deser` reads for a write. -/
def readWrite (op : Work) : Reader WorkRequest := do
  let id ← readInteger 32
  let wid ← readInteger 32
  let addr ← readInteger 64
  let size ← readInteger 64
  let ptr ← readInteger 64
  let flag ← readInteger 32
  if c.gfuncSupport then do
    let gid ← readInteger 32
    let arg ← readInteger 64
    pure { op, id, wid, addr, size, ptr, flag, gfunc := getGFunc gid, arg }
  else pure { op, id, wid, addr, size, ptr, flag }

/-- The switch of `WorkRequest::Deser` in the build `c`. The data of a write is left in the buffer
and `ptr` set to it. -/
def readFields : Op → Reader WorkRequest
  | .getHtable =>
    if c.dht then do
      let id ← readInteger 32
      let wid ← readInteger 32
      pure { id, wid }
    else pure {}
  | .getHtableReply =>
    if c.dht then do
      let id ← readInteger 32
      let addr ← readInteger 64
      let status ← readInteger 32
      pure { id, addr, status }
    else pure {}
  | .work .write => do
    let r ← c.readWrite .write
    if c.sendsData r.flag then do
      let payload ← readBytes r.size.toNat
      pure { r with ptr := 0, payload }
    else pure r
  | .work .writePermissionOnly => c.readWrite .writePermissionOnly
  | .work w => WorkRequest.readFields w

/-- `WorkRequest::Deser` in the build `c`: the operation, the request and the length consumed. -/
def deser (buf : List Byte) : Option (Op × WorkRequest × Nat) := do
  let (lop, p) ← readInteger 32 buf
  let op := Op.ofCode c.dht lop
  let (r, p) ← c.readFields op p
  some (op, r, buf.length - p.length)

/-! ## What an operation carries -/

/-- The fields of a write; with its data, `ptr` stands for the data. -/
def writeCarries (data : Bool) : List Field :=
  [.id, .wid, .addr, .size, .flag] ++ (if c.gfuncSupport then [.gfunc, .arg] else []) ++
    if data then [.payload] else [.ptr]

def carries : Op → WorkRequest → List Field
  | .getHtable, _ => [.id]
  | .getHtableReply, _ => [.id, .addr, .status]
  | .work .write, r => c.writeCarries (c.sendsData r.flag)
  | .work .writePermissionOnly, _ => c.writeCarries false
  | .work w, _ => w.carries.getD []

/-- The request as its receiver should see it. -/
def carried (op : Op) (r : WorkRequest) : WorkRequest :=
  WorkRequest.keep { r with op := op.toWork } (c.carries op r)

structure WellFormed (op : Op) (r : WorkRequest) : Prop where
  handled : c.handles op = true
  sized : op = .work .put ∨ op = .work .getReply ∨ op = .work .write ∧ c.sendsData r.flag = true →
    r.payload.length = r.size.toNat
  text : op = .work .fetchMemStatsReply ∨ op = .work .broadcastMemStats → 0 ∉ r.payload
  registered : ∀ g ∈ r.gfunc, g ∈ gfuncs

/-- `Deser` restores what `Ser` wrote and consumes just that, in front of the zero byte that follows
a request. -/
def Agrees (op : Op) (r : WorkRequest) (rest : List Byte) : Prop :=
  c.deser (c.ser op r ++ 0 :: rest) = some (op, c.carried op r, (c.ser op r).length)

/-! ## Reading back -/

variable {c} {op : Op} {r : WorkRequest} {rest : List Byte}

/-- An operation that `Ser` handles is recognised. -/
theorem ofCode_code (h : c.handles op = true) : Op.ofCode c.dht (op.code c.dht) = op := by
  cases op with
  | work w =>
    simp only [handles] at h
    generalize c.dht = dht
    cases w <;> first | (cases dht <;> decide +kernel) | simp [Work.carries] at h
  | getHtable =>
    rw [show c.dht = true from h]
    decide +kernel
  | getHtableReply =>
    rw [show c.dht = true from h]
    decide +kernel

/-- `Deser` behind the operation. -/
theorem deser_ser_eq (h : c.handles op = true) (tail : List Byte) :
    c.deser (c.ser op r ++ tail) = (c.readFields op (c.body op r ++ tail)).map fun x =>
      (op, x.1, (c.ser op r ++ tail).length - x.2.length) := by
  have hser : c.ser op r = appendInteger (op.code c.dht) ++ c.body op r := by
    rw [ser, if_pos h]
  have hop : readInteger 32 (c.ser op r ++ tail) = some (op.code c.dht, c.body op r ++ tail) := by
    rw [hser, List.append_assoc]
    exact decodeLe_encodeLe_32 _
  rw [deser, hop]
  simp only [Option.bind_eq_bind, Option.bind_some, ofCode_code h]
  rw [Option.map_eq_bind]
  rfl

theorem readWrite_writeFields (w : Work) (hreg : ∀ g ∈ r.gfunc, g ∈ gfuncs) :
    c.readWrite w (c.writeFields r ++ rest) =
      some (WorkRequest.keep { r with op := w } (c.writeCarries false), rest) := by
  have hg := getGFunc_getGFuncID hreg
  obtain ⟨dht, gfuncSupport, selectiveCaching⟩ := c
  cases gfuncSupport with
  | true =>
    simp only [readWrite, writeFields, if_true, List.append_assoc, Reader.bind_apply,
      decodeLe_encodeLe_32, decodeLe_encodeLe_64, Option.bind_some, Reader.pure_apply, hg]
    simp [keep, writeCarries]
  | false =>
    simp only [readWrite, writeFields, List.append_assoc, Reader.bind_apply,
      decodeLe_encodeLe_32, decodeLe_encodeLe_64, Option.bind_some]
    simp [keep, writeCarries]

theorem readFields_write (h : c.WellFormed (.work .write) r) :
    c.readFields (.work .write) (c.body (.work .write) r ++ 0 :: rest) =
      some (c.carried (.work .write) r, 0 :: rest) := by
  rw [readFields, body, Reader.bind_apply, List.append_assoc,
    readWrite_writeFields _ h.registered, Option.bind_some]
  have hflag : (WorkRequest.keep { r with op := .write } (c.writeCarries false)).flag = r.flag := by
    simp [keep, writeCarries]
  have hsize : (WorkRequest.keep { r with op := .write } (c.writeCarries false)).size = r.size := by
    simp [keep, writeCarries]
  simp only [hflag, hsize]
  cases hdata : c.sendsData r.flag with
  | true =>
    have hlen := h.sized (.inr (.inr ⟨rfl, hdata⟩))
    have hp : r.payload.take r.size.toNat = r.payload :=
      List.take_of_length_le (Nat.le_of_eq hlen)
    simp only [if_true, hp, Reader.bind_apply, readBytes_append hlen, Option.bind_some,
      Reader.pure_apply, carried, carries, hdata, Op.toWork]
    cases hgf : c.gfuncSupport <;> simp [keep, writeCarries, hgf]
  | false => simp [carried, carries, hdata, Op.toWork]

/-- The operations no option touches. -/
theorem default_of_ne {w : Work} (hw : w ≠ .write) (hwp : w ≠ .writePermissionOnly) :
    c.readFields (.work w) = WorkRequest.readFields w ∧
      c.body (.work w) r = WorkRequest.body { r with op := w } ∧
      c.carries (.work w) r = w.carries.getD [] := by
  cases w <;> first | exact absurd rfl hw | exact absurd rfl hwp | exact ⟨rfl, rfl, rfl⟩

/-- The fields read are those carried, up to the zero that follows, for every operation but one. -/
theorem readFields_body (h : c.WellFormed op r) (hop : op ≠ .getHtable) :
    c.readFields op (c.body op r ++ 0 :: rest) = some (c.carried op r, 0 :: rest) := by
  cases op with
  | getHtable => exact absurd rfl hop
  | getHtableReply =>
    have hdht : c.dht = true := h.handled
    simp only [readFields, body, hdht, if_true, List.append_assoc, Reader.bind_apply,
      decodeLe_encodeLe_32, decodeLe_encodeLe_64, Option.bind_some, Reader.pure_apply]
    simp [carried, carries, keep, Op.toWork]
  | work w =>
    by_cases hw : w = .write
    · subst hw
      exact readFields_write h
    by_cases hwp : w = .writePermissionOnly
    · subst hwp
      rw [readFields, body, readWrite_writeFields _ h.registered]
      rfl
    · obtain ⟨fs, hfs⟩ := Option.isSome_iff_exists.1 (show w.carries.isSome from h.handled)
      have hwf : WorkRequest.WellFormed { r with op := w } := by
        refine ⟨h.handled, fun hput => h.sized ?_, fun htext => h.text ?_, h.registered⟩
        · exact hput.imp (congrArg Op.work) fun hget => .inl (congrArg Op.work hget)
        · exact htext.imp (congrArg Op.work) (congrArg Op.work)
      obtain ⟨hrd, hbody, hcarries⟩ := default_of_ne (c := c) (r := r) hw hwp
      rw [hrd, hbody, carried, hcarries, hfs]
      exact WorkRequest.readFields_body rest hwf hfs

/-- An integer is read from as many bytes as it has. -/
theorem decodeLe_length {w : Nat} {bs : List Byte} {x : BitVec w × List Byte}
    (h : decodeLe w bs = some x) : w / 8 ≤ bs.length ∧ x.2.length = bs.length - w / 8 := by
  rw [decodeLe, Reader.bind_apply, readBytes] at h
  split at h
  · rename_i hle
    cases h
    exact ⟨hle, List.length_drop⟩
  · cases h

end Config

end HwGam.Wire
