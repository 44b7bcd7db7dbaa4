import HwGam.Lib.Bytes
import Mathlib.Data.List.Basic

/-!
# Calling a remote function

`Invoker::Apply` and `ApplyMember` decode one argument buffer per parameter and call the function.
Msgpack and the actor handles are parameters (`Codec`): decoding a buffer throws, meets a nil or
gives a value. An exception is `none` where its text comes from the library.
-/

namespace HwGam.Mcs

open Lib (Byte)

/-- How `ParseArg` treats a parameter type. -/
inductive ParamKind where
  | objectRef
  | actorHandle
  | plain
  deriving DecidableEq, Repr

/-- What msgpack makes of a buffer. -/
inductive Decoded (V : Type*) where
  | throws
  | nil
  | value (v : V)
  deriving DecidableEq, Repr

/-- Parameter types `P`, values `V`, and what `ParseArg` uses for them. -/
structure Codec (P V : Type*) where
  kind : P → ParamKind
  /-- `T(std::string(data, size))` of an `ObjectRef`. -/
  objectRef : P → List Byte → V
  /-- `Deserialize<std::string>` and `T::FromBytes`, either of which may throw. -/
  fromBytes : P → List Byte → Option V
  /-- `convert_if_not_nil`. -/
  unpack : P → List Byte → Decoded V
  /-- `T{}`. -/
  default : P → V
  /-- `Deserialize<uint64_t>` of the actor pointer. -/
  actorPtr : List Byte → Option (BitVec 64)

variable {P V : Type*} (c : Codec P V)

/-- `Serializer::DeserializeWhenNil`. -/
def Codec.deserializeWhenNil (p : P) (buf : List Byte) : Option (Bool × V) :=
  match c.unpack p buf with
  | .throws => none
  | .nil => some (false, c.default p)
  | .value v => some (true, v)

/-- `Invoker::ParseArg`: the value, and what it leaves in `is_ok`. -/
def Codec.parseArg (p : P) (buf : List Byte) : Option (V × Bool) :=
  match c.kind p with
  | .objectRef => some (c.objectRef p buf, true)
  | .actorHandle => (c.fromBytes p buf).map fun v => (v, true)
  | .plain => do
    let (success, value) ← c.deserializeWhenNil p buf
    some (value, success)

/-- The pack expansion of `GetArgsTuple`, from left to right; `at` throws behind the last buffer.
`isOk` is what the parameters before have left. -/
def Codec.parseArgs : List P → List (List Byte) → Bool → Option (List V × Bool)
  | [], _, isOk => some ([], isOk)
  | _ :: _, [], _ => none
  | p :: ps, buf :: bufs, _ => do
    let (v, isOk) ← c.parseArg p buf
    let (vs, isOk) ← Codec.parseArgs ps bufs isOk
    some (v :: vs, isOk)

/-- `Invoker::GetArgsTuple`. -/
def Codec.getArgsTuple (params : List P) (bufs : List (List Byte)) : Option (List V × Bool) :=
  c.parseArgs params bufs true

inductive Outcome (A : Type*) where
  /-- The function is called with these arguments. -/
  | called (args : A)
  /-- `std::invalid_argument`. -/
  | invalidArgument (what : String)
  /-- An exception of the library. -/
  | threw
  deriving DecidableEq, Repr

/-- `Invoker::Apply` of a function with the parameters `params`. -/
def Codec.apply (params : List P) (bufs : List (List Byte)) : Outcome (List V) :=
  if params.length ≠ bufs.length then .invalidArgument "Arguments number not match"
  else
    match c.getArgsTuple params bufs with
    | none => .threw
    | some (tp, isOk) => if !isOk then .invalidArgument "Arguments error" else .called tp

/-- `Invoker::ApplyMember`; `ptr` holds the address of the actor. -/
def Codec.applyMember (params : List P) (ptr : List Byte) (bufs : List (List Byte)) :
    Outcome (BitVec 64 × List V) :=
  if params.length ≠ bufs.length then .invalidArgument "Arguments number not match"
  else
    match c.getArgsTuple params bufs with
    | none => .threw
    | some (tp, isOk) =>
      if !isOk then .invalidArgument "Arguments error"
      else
        match c.actorPtr ptr with
        | none => .threw
        | some self => .called (self, tp)

/-! ## What a call should decode -/

/-- The buffer as an argument of type `p`. -/
def Codec.decode (p : P) (buf : List Byte) : Decoded V :=
  match c.kind p with
  | .objectRef => .value (c.objectRef p buf)
  | .actorHandle => (c.fromBytes p buf).elim .throws .value
  | .plain => c.unpack p buf

/-- As many buffers as parameters, each of which decodes: the values in order. -/
def Codec.decodeAll : List P → List (List Byte) → Option (List V)
  | [], [] => some []
  | p :: ps, buf :: bufs =>
    match c.decode p buf with
    | .value v => (Codec.decodeAll ps bufs).map (v :: ·)
    | _ => none
  | _, _ => none

/-- The function is called exactly with the arguments that decode. -/
def Codec.Faithful (params : List P) (bufs : List (List Byte)) : Prop :=
  ∀ vs, c.apply params bufs = .called vs ↔ c.decodeAll params bufs = some vs

def Codec.FaithfulMember (params : List P) (ptr : List Byte) (bufs : List (List Byte)) : Prop :=
  ∀ self vs, c.applyMember params ptr bufs = .called (self, vs) ↔
    c.decodeAll params bufs = some vs ∧ c.actorPtr ptr = some self

/-- What the buffers of a call decode to, nils and failures included. -/
def Codec.decoded (params : List P) (bufs : List (List Byte)) : List (Decoded V) :=
  List.zipWith c.decode params bufs

/-- A nil goes unnoticed only before a last argument that is not nil, in a call whose buffers are
as many as the parameters and none of which throws. -/
def Codec.NilSeen (params : List P) (bufs : List (List Byte)) : Prop :=
  params.length ≠ bufs.length ∨ .throws ∈ c.decoded params bufs ∨
    (c.decoded params bufs).getLast? = some .nil ∨ .nil ∉ c.decoded params bufs

/-! ## One flag for all arguments -/

variable {c} {p : P} {ps params : List P} {buf ptr : List Byte} {bufs : List (List Byte)}
  {vs : List V} {ok : Bool}

def Decoded.isNil : Decoded V → Bool
  | .nil => true
  | _ => false

/-- What the pack expansion leaves in the flag: the status of the last argument. -/
def lastOk (ds : List (Decoded V)) (ok : Bool) : Bool := (ds.getLast?).elim ok fun d => !d.isNil

theorem lastOk_cons (d : Decoded V) (ds : List (Decoded V)) :
    lastOk (d :: ds) ok = lastOk ds (!d.isNil) := by
  cases ds with
  | nil => rfl
  | cons d' ds => simp [lastOk, List.getLast?_cons]

theorem lastOk_eq_false {ds : List (Decoded V)} :
    lastOk ds true = false ↔ ds.getLast? = some .nil := by
  rw [lastOk]
  cases ds.getLast? with
  | none => simp
  | some d => cases d <;> simp [Decoded.isNil]

theorem parseArg_eq : c.parseArg p buf =
    match c.decode p buf with
    | .throws => none
    | .nil => some (c.default p, false)
    | .value v => some (v, true) := by
  rw [Codec.parseArg, Codec.decode]
  cases c.kind p with
  | objectRef => rfl
  | actorHandle => cases c.fromBytes p buf <;> rfl
  | plain =>
    simp only [Codec.deserializeWhenNil]
    cases c.unpack p buf <;> rfl

theorem decoded_cons :
    c.decoded (p :: ps) (buf :: bufs) = c.decode p buf :: c.decoded ps bufs := rfl

theorem parseArgs_eq_none (hlen : ps.length = bufs.length) (h : .throws ∈ c.decoded ps bufs) :
    c.parseArgs ps bufs ok = none := by
  induction ps generalizing bufs ok with
  | nil => simp [Codec.decoded] at h
  | cons p ps ih =>
    cases bufs with
    | nil => rfl
    | cons buf bufs =>
      rw [decoded_cons, List.mem_cons] at h
      rw [Codec.parseArgs, parseArg_eq]
      cases hd : c.decode p buf with
      | throws => rfl
      | nil => simp [ih (by simpa using hlen) (h.resolve_left (by simp [hd]))]
      | value v => simp [ih (by simpa using hlen) (h.resolve_left (by simp [hd]))]

theorem parseArgs_eq_some (ok : Bool) (hlen : ps.length = bufs.length) (h : .throws ∉ c.decoded ps bufs) :
    ∃ vs, c.parseArgs ps bufs ok = some (vs, lastOk (c.decoded ps bufs) ok) ∧
      (.nil ∉ c.decoded ps bufs → c.decodeAll ps bufs = some vs) := by
  induction ps generalizing bufs ok with
  | nil =>
    obtain rfl : bufs = [] := List.eq_nil_of_length_eq_zero hlen.symm
    exact ⟨[], rfl, fun _ => rfl⟩
  | cons p ps ih =>
    cases bufs with
    | nil => simp at hlen
    | cons buf bufs =>
      rw [decoded_cons, List.mem_cons, not_or] at h
      obtain ⟨vs, hvs, hall⟩ := ih (!(c.decode p buf).isNil) (by simpa using hlen) h.2
      rw [decoded_cons, Codec.parseArgs, parseArg_eq, Codec.decodeAll, lastOk_cons]
      cases hd : c.decode p buf with
      | throws => exact absurd hd.symm h.1
      | nil =>
        rw [hd] at hvs
        refine ⟨c.default p :: vs, ?_, fun hn => absurd (List.mem_cons_self ..) hn⟩
        simp only [Decoded.isNil, Bool.not_true] at hvs
        simp [hvs, Decoded.isNil]
      | value v =>
        rw [hd] at hvs
        refine ⟨v :: vs, ?_, fun hn => ?_⟩
        · simp only [Decoded.isNil, Bool.not_false] at hvs
          simp [hvs, Decoded.isNil]
        · simp [hall fun hmem => hn (List.mem_cons_of_mem _ hmem)]

/-- Arguments that all decode are as many as the parameters, none nil and none a failure. -/
theorem decodeAll_eq_some (h : c.decodeAll ps bufs = some vs) :
    ps.length = bufs.length ∧ .throws ∉ c.decoded ps bufs ∧ .nil ∉ c.decoded ps bufs := by
  induction ps generalizing bufs vs with
  | nil =>
    cases bufs with
    | nil => simp [Codec.decoded]
    | cons buf bufs => simp [Codec.decodeAll] at h
  | cons p ps ih =>
    cases bufs with
    | nil => simp [Codec.decodeAll] at h
    | cons buf bufs =>
      rw [Codec.decodeAll] at h
      cases hd : c.decode p buf with
      | throws => simp [hd] at h
      | nil => simp [hd] at h
      | value v =>
        simp only [hd, Option.map_eq_some_iff] at h
        obtain ⟨vs, hvs, -⟩ := h
        obtain ⟨h1, h2, h3⟩ := ih hvs
        rw [decoded_cons, hd]
        exact ⟨by simp [h1], by simp [h2], by simp [h3]⟩

/-- What a call comes to: the tuple that is passed on, if any. -/
def Codec.passed (c : Codec P V) (params : List P) (bufs : List (List Byte)) : Option (List V) :=
  if params.length ≠ bufs.length then none
  else (c.getArgsTuple params bufs).bind fun t => if t.2 then some t.1 else none

theorem apply_eq_called : c.apply params bufs = .called vs ↔ c.passed params bufs = some vs := by
  rw [Codec.apply, Codec.passed]
  split
  · simp
  · cases c.getArgsTuple params bufs with
    | none => simp
    | some t => cases ht : t.2 <;> simp [ht]

theorem applyMember_eq_called {self : BitVec 64} :
    c.applyMember params ptr bufs = .called (self, vs) ↔
      c.passed params bufs = some vs ∧ c.actorPtr ptr = some self := by
  rw [Codec.applyMember, Codec.passed]
  split
  · simp
  · cases c.getArgsTuple params bufs with
    | none => simp
    | some t =>
      cases ht : t.2 with
      | false => simp [ht]
      | true => cases c.actorPtr ptr <;> simp [ht, and_comm]

/-- The tuple passed on is the decoded one, unless a nil went unnoticed. -/
theorem passed_eq_decodeAll_iff :
    c.passed params bufs = c.decodeAll params bufs ↔ c.NilSeen params bufs := by
  have hnone : ¬ (params.length = bufs.length ∧ .throws ∉ c.decoded params bufs ∧
      .nil ∉ c.decoded params bufs) → c.decodeAll params bufs = none := by
    intro hbad
    refine Option.eq_none_iff_forall_ne_some.mpr fun vs hvs => hbad (decodeAll_eq_some hvs)
  rw [Codec.passed, Codec.NilSeen]
  by_cases hlen : params.length = bufs.length
  · rw [if_neg (by simpa using hlen), Codec.getArgsTuple]
    by_cases hthrow : .throws ∈ c.decoded params bufs
    · rw [parseArgs_eq_none hlen hthrow, hnone (by simp [hthrow])]
      simp [hthrow]
    · obtain ⟨vs, hvs, hall⟩ := parseArgs_eq_some true hlen hthrow
      rw [hvs]
      by_cases hnil : .nil ∈ c.decoded params bufs
      · rw [hnone (by simp [hnil])]
        simp [hlen, hthrow, hnil, ← lastOk_eq_false]
      · rw [hall hnil]
        have hlast : lastOk (c.decoded params bufs) true = true := by
          rw [← Bool.not_eq_false, lastOk_eq_false]
          intro hlast
          exact hnil (List.mem_of_getLast? hlast)
        simp [hnil, hlast]
  · rw [if_pos hlen, hnone (by simp [hlen])]
    simp [hlen]

/-- The function runs exactly on decoded arguments unless a nil goes unnoticed before the last. -/
theorem faithful_iff (c : Codec P V) (params : List P) (ptr : List Byte) (bufs : List (List Byte)) :
    (c.Faithful params bufs ↔ c.NilSeen params bufs) ∧
      (c.FaithfulMember params ptr bufs ↔ c.actorPtr ptr = none ∨ c.NilSeen params bufs) := by
  constructor
  · rw [← passed_eq_decodeAll_iff, Option.ext_iff]
    simp only [Codec.Faithful, apply_eq_called]
  · rw [← passed_eq_decodeAll_iff]
    simp only [Codec.FaithfulMember, applyMember_eq_called]
    cases c.actorPtr ptr with
    | none => simp
    | some self =>
      constructor
      · intro h
        right
        apply Option.ext
        intro vs
        simpa using h self vs
      · rintro (h | h) self' vs
        · cases h
        · rw [h]

/-- Parameters of type `uint8_t` on one-byte buffers: `0xc0` is nil and a byte below `0x80` is a
positive integer. -/
def byteCodec : Codec Unit (BitVec 8) where
  kind := fun _ => .plain
  objectRef := fun _ _ => 0
  fromBytes := fun _ _ => none
  unpack := fun _ buf =>
    match buf with
    | [] => .throws
    | b :: _ => if b = 0xc0 then .nil else if b < 0x80 then .value b else .throws
  default := fun _ => 0
  actorPtr := fun buf => some (BitVec.ofNat 64 (Lib.ofLeBytes buf))

/-- A nil before the last argument: the function is called with a zero in its place. -/
theorem not_faithful_nil_first :
    ¬ byteCodec.Faithful [(), ()] [[0xc0], [7]] ∧
      byteCodec.apply [(), ()] [[0xc0], [7]] = .called [0, 7] := by
  refine ⟨fun h => ?_, by decide⟩
  have hcall := (h [0, 7]).mp (by decide)
  revert hcall
  decide

end HwGam.Mcs
