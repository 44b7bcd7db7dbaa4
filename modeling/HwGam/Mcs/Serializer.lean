import HwGam.Lib.Msgpack

/-!
# Plain and cross-language payloads

`Serializer` packs a value into a buffer without a tag of its own; `IsXLang` takes a buffer for
cross-language data when it starts with a positive integer and is at least as long as the header
that `WrapArgsImpl` puts before such data. `GetFromRuntime` goes by that.
-/

namespace HwGam.Mcs

open Lib.Msgpack

/-- `XLANG_HEADER_LEN`. -/
def xlangHeaderLen : Nat := 9

/-- The strings an actor handle is turned into and made from. -/
structure ActorHandle (T : Type*) where
  /-- `SerializeActorHandle`. -/
  toBytes : T → List Lib.Byte
  fromBytes : List Lib.Byte → Option T

/-- The msgpack adaptors of a type. -/
structure Adaptor (T : Type*) where
  /-- The object `msgpack::pack` writes. -/
  toObj : T → Obj
  /-- `object::as`, which may throw. -/
  as : Obj → Option T
  /-- Set where `is_actor_handle_v` holds. -/
  handle : Option (ActorHandle T)

/-- What was packed is converted back. -/
structure Adaptor.Lawful {T : Type*} (A : Adaptor T) : Prop where
  as_toObj : ∀ v, A.as (A.toObj v) = some v
  fromBytes_toBytes : ∀ h v, A.handle = some h → h.fromBytes (h.toBytes v) = some v

/-- `msgpack::unpack`: the first object of the buffer. An object is not deeper than its bytes are
many. -/
def firstObj (data : List Lib.Byte) : Option Obj := (unpack data.length data).map (·.1)

namespace Serializer

/-- `HasError`; `none` where unpacking throws. -/
def hasError (data : List Lib.Byte) : Option Bool :=
  match firstObj data with
  | none => none
  | some .nil => some (decide (1 < data.length))
  | some _ => some false

def isXLang (data : List Lib.Byte) : Option Bool :=
  match firstObj data with
  | none => none
  | some (.pos _) => some (decide (xlangHeaderLen ≤ data.length))
  | some _ => some false

end Serializer

inductive Got (T : Type*) where
  /-- A pointer to the value. -/
  | value (v : T)
  /-- The null pointer. -/
  | null
  | threw
  deriving DecidableEq, Repr

variable {T : Type*} (A : Adaptor T)

/-- `Deserialize<std::shared_ptr<T>>`. -/
def Adaptor.deserialize (data : List Lib.Byte) : Got T :=
  match firstObj data with
  | none => .threw
  | some .nil => .null
  | some o => (A.as o).elim .threw .value

/-- `T::FromBytes` of `Deserialize<std::string>`. -/
def ActorHandle.deserialize (h : ActorHandle T) (data : List Lib.Byte) : Got T :=
  match firstObj data with
  | some (.str bs) | some (.bin bs) => (h.fromBytes bs).elim .threw .value
  | _ => .threw

/-- `GetFromRuntime`, when the runtime returns `data`. `CheckResult` throws on an error buffer. -/
def Adaptor.getFromRuntime (data : List Lib.Byte) : Got T :=
  match Serializer.hasError data, Serializer.isXLang data with
  | some false, some true => A.deserialize (data.drop xlangHeaderLen)
  | some false, some false =>
    match A.handle with
    | some h => h.deserialize data
    | none => A.deserialize data
  | _, _ => .threw

/-- `Serializer::Serialize` of a value; an actor handle goes as its string. `none` where a size does
not fit. -/
def Adaptor.serialize (v : T) : Option (List Lib.Byte) :=
  match A.handle with
  | some h => pack (.str (h.toBytes v))
  | none => pack (A.toObj v)

/-- The cross-language frame of `WrapArgsImpl`: the length, padded, and the data. -/
def xlangFrame (dataBuf : List Lib.Byte) : List Lib.Byte :=
  let lenBuf := packHead (.pos (BitVec.ofNat 64 dataBuf.length))
  lenBuf ++ (List.replicate (xlangHeaderLen - lenBuf.length) 0 ++ dataBuf)

/-- A plain buffer is told from cross-language data and decoded to the value. -/
def Adaptor.PlainRight (v : T) (buf : List Lib.Byte) : Prop :=
  Serializer.isXLang buf = some false ∧ A.getFromRuntime buf = .value v

/-- A framed buffer is told from plain data and decoded to the value. -/
def Adaptor.FramedRight (v : T) (buf : List Lib.Byte) : Prop :=
  Serializer.isXLang (xlangFrame buf) = some true ∧ A.getFromRuntime (xlangFrame buf) = .value v

/-- The value is not packed as nil and, if it goes as itself, not as an integer of nine bytes. -/
def Adaptor.Distinct (v : T) : Prop :=
  A.toObj v ≠ .nil ∧ (A.handle = none → ∀ n, A.toObj v = .pos n → n.toNat < 2 ^ 32)

/-! ## First objects -/

variable {A} {v : T} {o : Obj} {buf rest : List Lib.Byte}

theorem firstObj_pack (hp : pack o = some buf) : firstObj (buf ++ rest) = some o := by
  rw [firstObj, unpack_pack hp (by simp)]
  rfl

theorem firstObj_pack_self (hp : pack o = some buf) : firstObj buf = some o := by
  have h : firstObj (buf ++ []) = some o := firstObj_pack hp
  rwa [List.append_nil] at h

theorem pack_pos (n : BitVec 64) : pack (.pos n) = some (packHead (.pos n)) := by
  rw [pack, framed, if_pos (show (Head.pos n).Fits from trivial), List.append_nil]

/-- An integer takes nine bytes exactly from `2 ^ 32` on. -/
theorem length_packHead_pos (n : BitVec 64) :
    (packHead (.pos n)).length ≤ 9 ∧ (9 ≤ (packHead (.pos n)).length ↔ 2 ^ 32 ≤ n.toNat) := by
  simp only [packHead]
  split_ifs <;> simp [tag] <;> omega

/-! ## Decoding -/

theorem hasError_of_ne_nil (hf : firstObj buf = some o) (ho : o ≠ .nil) :
    Serializer.hasError buf = some false := by
  rw [Serializer.hasError, hf]
  cases o <;> first | rfl | exact absurd rfl ho

theorem isXLang_of_not_pos (hf : firstObj buf = some o) (ho : ∀ n, o ≠ .pos n) :
    Serializer.isXLang buf = some false := by
  rw [Serializer.isXLang, hf]
  cases o <;> first | rfl | exact absurd rfl (ho _)

theorem deserialize_of_ne_nil (hf : firstObj buf = some o) (ho : o ≠ .nil) :
    A.deserialize buf = (A.as o).elim .threw .value := by
  rw [Adaptor.deserialize, hf]
  cases o <;> first | rfl | exact absurd rfl ho

/-- Packed data is decoded to a pointer to the value, unless it is a nil. -/
theorem deserialize_pack (hA : A.Lawful) (hp : pack (A.toObj v) = some buf) :
    A.deserialize buf = .value v ↔ A.toObj v ≠ .nil := by
  have hf := firstObj_pack_self hp
  constructor
  · intro hget hnil
    rw [Adaptor.deserialize, hf, hnil] at hget
    cases hget
  · intro hne
    rw [deserialize_of_ne_nil hf hne, hA.as_toObj]
    rfl

/-! ## Framed data -/

theorem length_frame (buf : List Lib.Byte) : (packHead (.pos (BitVec.ofNat 64 buf.length)) ++ List.replicate
    (xlangHeaderLen - (packHead (.pos (BitVec.ofNat 64 buf.length))).length) (0 : Lib.Byte)).length =
      xlangHeaderLen := by
  have hle := (length_packHead_pos (BitVec.ofNat 64 buf.length)).1
  simp only [xlangHeaderLen, List.length_append, List.length_replicate]
  omega

theorem firstObj_frame (buf : List Lib.Byte) :
    firstObj (xlangFrame buf) = some (.pos (BitVec.ofNat 64 buf.length)) := firstObj_pack (pack_pos _)

theorem isXLang_frame (buf : List Lib.Byte) : Serializer.isXLang (xlangFrame buf) = some true := by
  have hlen : xlangHeaderLen ≤ (xlangFrame buf).length := by
    have h := length_frame buf
    rw [xlangFrame, ← List.append_assoc, List.length_append, h]
    exact Nat.le_add_right _ _
  simp only [Serializer.isXLang, firstObj_frame, hlen, decide_true]

theorem getFromRuntime_frame (buf : List Lib.Byte) :
    A.getFromRuntime (xlangFrame buf) = A.deserialize buf := by
  have herr : Serializer.hasError (xlangFrame buf) = some false :=
    hasError_of_ne_nil (firstObj_frame buf) (by simp)
  have hdrop : (xlangFrame buf).drop xlangHeaderLen = buf := by
    rw [xlangFrame, ← List.append_assoc]
    exact List.drop_left' (length_frame buf)
  simp only [Adaptor.getFromRuntime, herr, isXLang_frame, hdrop]

theorem framedRight_iff (hA : A.Lawful) (hp : pack (A.toObj v) = some buf) :
    A.FramedRight v buf ↔ A.toObj v ≠ .nil := by
  rw [Adaptor.FramedRight, getFromRuntime_frame, deserialize_pack hA hp, isXLang_frame]
  simp

/-! ## Plain data -/

/-- A string is never taken for something else. -/
theorem plainRight_handle {h : ActorHandle T} (hA : A.Lawful) (hh : A.handle = some h)
    (hp : pack (.str (h.toBytes v)) = some buf) : A.PlainRight v buf := by
  have hf := firstObj_pack_self hp
  have herr : Serializer.hasError buf = some false := hasError_of_ne_nil hf (by simp)
  have hx : Serializer.isXLang buf = some false := isXLang_of_not_pos hf (by simp)
  refine ⟨hx, ?_⟩
  simp only [Adaptor.getFromRuntime, herr, hx, hh, ActorHandle.deserialize, hf,
    hA.fromBytes_toBytes h v hh]
  rfl

theorem isXLang_pos {n : BitVec 64} (hp : pack (.pos n) = some buf) :
    Serializer.isXLang buf = some (decide (2 ^ 32 ≤ n.toNat)) := by
  have hf := firstObj_pack_self hp
  rw [pack_pos, Option.some.injEq] at hp
  have hlen := (length_packHead_pos n).2
  rw [hp] at hlen
  simp only [Serializer.isXLang, hf, xlangHeaderLen]
  exact congrArg some (decide_eq_decide.mpr hlen)

theorem plainRight_iff (hA : A.Lawful) (hh : A.handle = none) (hp : pack (A.toObj v) = some buf) :
    A.PlainRight v buf ↔ A.toObj v ≠ .nil ∧ ∀ n, A.toObj v = .pos n → n.toNat < 2 ^ 32 := by
  have hf := firstObj_pack_self hp
  -- a value is only got through the plain branch
  have hplain : A.PlainRight v buf ↔
      Serializer.isXLang buf = some false ∧ A.toObj v ≠ .nil := by
    rw [Adaptor.PlainRight, and_congr_right_iff]
    intro hx
    rw [← deserialize_pack hA hp, Adaptor.getFromRuntime, hx, hh]
    constructor
    · cases Serializer.hasError buf with
      | none => simp
      | some b => cases b <;> simp
    · intro hget
      have hne := (deserialize_pack hA hp).mp hget
      simp only [hasError_of_ne_nil hf hne, hget]
  rw [hplain, and_comm, and_congr_right_iff]
  intro hne
  by_cases hpos : ∃ n, A.toObj v = .pos n
  · obtain ⟨n, hn⟩ := hpos
    rw [hn] at hp
    rw [isXLang_pos hp, hn]
    simp
  · rw [isXLang_of_not_pos hf fun n hn => hpos ⟨n, hn⟩]
    simp only [true_iff]
    intro n hn
    exact absurd ⟨n, hn⟩ hpos

/-- Both encodings of a value are told apart and decoded exactly for a value that is not packed as
nil and, if it goes as itself, not as an integer of nine bytes. -/
theorem right_iff_distinct {buf dataBuf : List Lib.Byte} (hA : A.Lawful)
    (hp : A.serialize v = some buf) (hd : pack (A.toObj v) = some dataBuf) :
    A.PlainRight v buf ∧ A.FramedRight v dataBuf ↔ A.Distinct v := by
  rw [framedRight_iff hA hd, Adaptor.Distinct]
  rw [Adaptor.serialize] at hp
  cases hh : A.handle with
  | some h =>
    rw [hh] at hp
    simp [plainRight_handle hA hh hp]
  | none =>
    rw [hh] at hp
    rw [plainRight_iff hA hh hp]
    simp only [forall_const]
    tauto

/-- The adaptors of `uint64_t`. -/
def uint64Adaptor : Adaptor (BitVec 64) where
  toObj := .pos
  as := fun o =>
    match o with
    | .pos n => some n
    | _ => none
  handle := none

theorem uint64Adaptor_lawful : uint64Adaptor.Lawful := ⟨fun _ => rfl, by simp [uint64Adaptor]⟩

theorem right_iff_distinct_seven :
    uint64Adaptor.Distinct 7 ∧ uint64Adaptor.PlainRight 7 [7] ∧ uint64Adaptor.FramedRight 7 [7] := by
  have hdist : uint64Adaptor.Distinct 7 := by
    refine ⟨by simp [uint64Adaptor], fun _ n hn => ?_⟩
    cases hn
    decide
  exact ⟨hdist, (right_iff_distinct uint64Adaptor_lawful rfl rfl).mpr hdist⟩

/-- The integer `2 ^ 32` is packed into nine bytes and taken for cross-language data. -/
theorem not_plainRight_wide :
    ¬ ∀ (v : BitVec 64) (buf : List Lib.Byte), uint64Adaptor.serialize v = some buf →
      uint64Adaptor.PlainRight v buf ∧ uint64Adaptor.FramedRight v buf := by
  intro h
  have hx := (h (2 ^ 32) [0xcf, 0, 0, 0, 1, 0, 0, 0, 0] (by decide)).1.1
  revert hx
  decide

end HwGam.Mcs
