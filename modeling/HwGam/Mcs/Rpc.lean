import Mathlib.Algebra.Group.Nat.Defs
import Mathlib.Algebra.Ring.Int.Defs
import Mathlib.Data.List.Basic

/-!
# Argument marshalling of the task RPC

`McsClient::rpc_resister` copies the argument buffers one byte at a time into `args_data` and
their sizes into `args_size`, an array of `char`; the handler of `Regiser` cuts them out again.
A read outside an array is undefined in the source and has no value here.
-/

namespace HwGam.Mcs

/-- A byte of a buffer, and an element of `args_size`: `char`, a signed byte. -/
abbrev Byte := BitVec 8

structure LocalMemoryBuffer where
  data : List Byte
  deriving DecidableEq, Repr

def LocalMemoryBuffer.size (b : LocalMemoryBuffer) : Nat := b.data.length

/-- `Regiser::Request`. -/
structure Request where
  functionName : String
  argsData : List Byte
  argsSize : List Byte
  deriving DecidableEq, Repr

/-- `std::vector<char>::max_size`. -/
def maxSize : Nat := 2 ^ 63 - 1

/-- `std::vector<char>::push_back`, which throws at `max_size`. -/
def pushBack (v : List Byte) (b : Byte) : Option (List Byte) :=
  if v.length < maxSize then some (v ++ [b]) else none

/-- The loops of `rpc_resister` over the arguments and over the bytes of each. -/
def flattenArgs : List LocalMemoryBuffer → List Byte → List Byte → Option (List Byte × List Byte)
  | [], argsData, argsSize => some (argsData, argsSize)
  | a :: args, argsData, argsSize => do
    let argsData ← a.data.foldlM pushBack argsData
    -- `size_t` to `char`
    let argsSize ← pushBack argsSize (BitVec.ofNat 8 a.size)
    flattenArgs args argsData argsSize

/-- `McsClient::rpc_resister`: the request it sends. -/
def rpcResister (functionName : String) (args : List LocalMemoryBuffer) : Option Request := do
  let (argsData, argsSize) ← flattenArgs args [] []
  -- the `printf` reads the first element of both arrays
  let _ ← argsData[0]?
  let _ ← argsSize[0]?
  some ⟨functionName, argsData, argsSize⟩

/-- `sbuf.write(addr + off, len)` into an empty buffer. -/
def write (argsData : List Byte) (off : Int) (len : Nat) : Option (List Byte) :=
  if 0 ≤ off ∧ off.toNat + len ≤ argsData.length then
    some ((argsData.drop off.toNat).take len)
  else none

/-- One round of the handler's loop. -/
def argBuffer (req : Request) (i : Nat) : Option (List Byte) := do
  let _ ← req.argsData[0]?
  let _ ← req.argsSize[0]?
  let len ← req.argsSize[i]?
  if i = 0 then write req.argsData 0 (len.signExtend 64).toNat
  else do
    let off ← req.argsSize[i - 1]?
    write req.argsData off.toInt (len.signExtend 64).toNat

/-- `McsServer::do_rpc_service(Regiser)`: the buffers passed to `TaskExecutionHandler`. -/
def doRpcService (req : Request) : Option (List (List Byte)) :=
  (List.range req.argsSize.length).mapM (argBuffer req)

/-- The argument list the handler passes on for a call of the client, the request being delivered
unchanged. -/
def received (functionName : String) (args : List LocalMemoryBuffer) :
    Option (List (List Byte)) :=
  (rpcResister functionName args).bind doRpcService

/-! ## The request -/

/-- The arguments' bytes, one after the other. -/
def argBytes (args : List LocalMemoryBuffer) : List Byte :=
  args.flatMap (·.data)

def argSizes (args : List LocalMemoryBuffer) : List Byte :=
  args.map fun a => BitVec.ofNat 8 a.size

variable {a : LocalMemoryBuffer} {args : List LocalMemoryBuffer} {bs : List Byte}

@[simp] theorem length_argSizes : (argSizes args).length = args.length :=
  List.length_map _

theorem foldlM_pushBack (v : List Byte) (hv : v.length ≤ maxSize) :
    bs.foldlM pushBack v = if (v ++ bs).length ≤ maxSize then some (v ++ bs) else none := by
  induction bs generalizing v with
  | nil => simp [hv]
  | cons b bs ih =>
    rw [List.foldlM_cons, pushBack]
    split
    · have hv' : (v ++ [b]).length ≤ maxSize := by
        rw [List.length_append, List.length_singleton]
        omega
      simpa using ih (v ++ [b]) hv'
    · have hlt : ¬ (v ++ b :: bs).length ≤ maxSize := by
        rw [List.length_append, List.length_cons]
        omega
      simp only [hlt, if_false]
      rfl

theorem flattenArgs_eq (args : List LocalMemoryBuffer) (d s : List Byte) (hd : d.length ≤ maxSize)
    (hs : s.length ≤ maxSize) :
    flattenArgs args d s =
      if (d ++ argBytes args).length ≤ maxSize ∧ (s ++ argSizes args).length ≤ maxSize then
        some (d ++ argBytes args, s ++ argSizes args) else none := by
  induction args generalizing d s with
  | nil => simp [flattenArgs, argBytes, argSizes, hd, hs]
  | cons a args ih =>
    have hbytes : d ++ argBytes (a :: args) = (d ++ a.data) ++ argBytes args := by
      simp [argBytes]
    have hsizes : s ++ argSizes (a :: args) = (s ++ [BitVec.ofNat 8 a.size]) ++ argSizes args := by
      simp [argSizes]
    rw [flattenArgs, foldlM_pushBack d hd, pushBack, hbytes, hsizes]
    by_cases h1 : (d ++ a.data).length ≤ maxSize
    · by_cases h2 : s.length < maxSize
      · have hs' : (s ++ [BitVec.ofNat 8 a.size]).length ≤ maxSize := by
          rw [List.length_append, List.length_singleton]
          omega
        rw [if_pos h1, if_pos h2]
        exact ih (d ++ a.data) _ h1 hs'
      · have hn : ¬ ((s ++ [BitVec.ofNat 8 a.size]) ++ argSizes args).length ≤ maxSize := by
          simp only [List.length_append, List.length_singleton]
          omega
        simp only [if_pos h1, if_neg h2, if_neg (fun h => hn (And.right h))]
        rfl
    · have hn : ¬ ((d ++ a.data) ++ argBytes args).length ≤ maxSize := by
        rw [List.length_append]
        omega
      simp only [if_neg h1, if_neg (fun h => hn (And.left h))]
      rfl

/-- Both arrays fit into a `std::vector`. -/
def Fits (args : List LocalMemoryBuffer) : Prop :=
  (argBytes args).length ≤ maxSize ∧ args.length ≤ maxSize

/-- A request is sent when the arrays fit and there is a byte to print. -/
theorem rpcResister_eq_some {name : String} {req : Request} :
    rpcResister name args = some req ↔
      Fits args ∧ argBytes args ≠ [] ∧ req = ⟨name, argBytes args, argSizes args⟩ := by
  have hflat : flattenArgs args [] [] =
      if (argBytes args).length ≤ maxSize ∧ args.length ≤ maxSize then
        some (argBytes args, argSizes args) else none := by
    simpa using flattenArgs_eq args [] [] (Nat.zero_le _) (Nat.zero_le _)
  rw [rpcResister, hflat]
  by_cases hf : (argBytes args).length ≤ maxSize ∧ args.length ≤ maxSize
  · rw [if_pos hf]
    cases args with
    | nil => simp [argBytes]
    | cons a args =>
      cases hb : argBytes (a :: args) with
      | nil => simp
      | cons b bs =>
        have hfit : Fits (a :: args) := hf
        simp [hfit, argSizes, eq_comm]
  · rw [if_neg hf]
    exact ⟨fun h => (by cases h), fun h => absurd h.1 hf⟩

/-! ## The handler -/

theorem mapM_eq_some_iff {α β : Type} {f : α → Option β} {l : List α} {r : List β} :
    l.mapM f = some r ↔ l.map f = r.map some := by
  induction l generalizing r with
  | nil => cases r <;> simp
  | cons x l ih =>
    rw [List.mapM_cons]
    cases hx : f x with
    | none => cases r <;> simp [hx]
    | some y =>
      cases hl : l.mapM f with
      | none =>
        cases r with
        | nil => simp
        | cons z r =>
          have hne : ¬ l.map f = r.map some := fun h => by simp [ih.2 h] at hl
          simp [hx, hne]
      | some ys =>
        cases r with
        | nil => simp
        | cons z r => simp [hx, ← ih, hl]

theorem write_eq_some {off : Int} {len : Nat} {d : List Byte} :
    write d off len = some bs ↔
      0 ≤ off ∧ off.toNat + len ≤ d.length ∧ (d.drop off.toNat).take len = bs := by
  rw [write]
  split
  · rename_i h
    simp [h]
  · rename_i h
    refine ⟨fun hc => (by cases hc), fun hc => absurd ⟨hc.1, hc.2.1⟩ h⟩

theorem length_of_write {off : Int} {len : Nat} {d : List Byte} (h : write d off len = some bs) :
    bs.length = len := by
  obtain ⟨-, hlen, rfl⟩ := write_eq_some.1 h
  rw [List.length_take, List.length_drop]
  omega

/-- What the handler makes of the size of a buffer: sizes from 128 on come back negative, that is
huge, or reduced modulo 256. -/
theorem toNat_signExtend_size {n : Nat} (hn : n ≤ maxSize) :
    ((BitVec.ofNat 8 n).signExtend 64).toNat = n ↔ n ≤ 127 := by
  have hmod : n % 256 < 256 := Nat.mod_lt _ (by decide)
  rw [maxSize] at hn
  rw [BitVec.toNat_signExtend, BitVec.msb_eq_decide, BitVec.toNat_setWidth, BitVec.toNat_ofNat]
  by_cases h : 128 ≤ n % 256
  · simp only [show 2 ^ (8 - 1) ≤ n % 2 ^ 8 from h, decide_true, if_true]
    omega
  · simp only [show ¬ 2 ^ (8 - 1) ≤ n % 2 ^ 8 from h, decide_false, Bool.false_eq_true,
      if_false]
    omega

theorem toInt_size {n : Nat} (hn : n ≤ 127) : (BitVec.ofNat 8 n).toInt = n := by
  rw [BitVec.toInt_eq_toNat_cond, BitVec.toNat_ofNat]
  split <;> omega

/-! ## When the arguments arrive -/

/-- The request the client sends for `args`. -/
def sent (name : String) (args : List LocalMemoryBuffer) : Request :=
  ⟨name, argBytes args, argSizes args⟩

theorem argSizes_getElem? {i : Nat} (h : args[i]? = some a) :
    (argSizes args)[i]? = some (BitVec.ofNat 8 a.size) := by
  simp [argSizes, h]

theorem size_le_length {i : Nat} (h : args[i]? = some a) : a.size ≤ (argBytes args).length :=
  (List.sublist_flatten_of_mem
    (List.mem_map_of_mem (List.mem_of_getElem? h))).length_le

theorem size_add_le {b : LocalMemoryBuffer} {i : Nat} (ha : args[i]? = some a)
    (hb : args[i + 1]? = some b) : a.size + b.size ≤ (argBytes args).length := by
  induction args generalizing i with
  | nil => simp at ha
  | cons x args ih =>
    have hcons : (argBytes (x :: args)).length = x.size + (argBytes args).length := by
      simp [argBytes, LocalMemoryBuffer.size]
    rcases i with _ | i
    · obtain rfl : x = a := by simpa using ha
      have hb0 : args[0]? = some b := by simpa using hb
      have := size_le_length hb0
      omega
    · have := ih (i := i) (by simpa using ha) (by simpa using hb)
      omega

/-- The round for the argument at `i`. -/
theorem argBuffer_sent {i : Nat} {name : String} (hne : argBytes args ≠ [])
    (h : args[i]? = some a) :
    argBuffer (sent name args) i =
      if i = 0 then write (argBytes args) 0 ((BitVec.ofNat 8 a.size).signExtend 64).toNat
      else (argSizes args)[i - 1]?.bind fun off =>
        write (argBytes args) off.toInt ((BitVec.ofNat 8 a.size).signExtend 64).toNat := by
  obtain ⟨b, bs, hb⟩ := List.exists_cons_of_ne_nil hne
  obtain ⟨x, xs, rfl⟩ : ∃ x xs, args = x :: xs := by
    cases args with
    | nil => simp at h
    | cons x xs => exact ⟨x, xs, rfl⟩
  have hs : (argSizes (x :: xs))[0]? = some (BitVec.ofNat 8 x.size) := argSizes_getElem? rfl
  simp only [argBuffer, sent, hb, hs, argSizes_getElem? h]
  rfl

/-- From the third on, an argument stands in `args_data` where the handler looks for it: at the size
of the argument before it. -/
def Aligned (args : List LocalMemoryBuffer) : Prop :=
  ∀ i a b, args[i + 1]? = some a → args[i + 2]? = some b →
    ((argBytes args).drop a.size).take b.size = b.data

/-- The second argument always does. -/
theorem aligned_second {a b : LocalMemoryBuffer} (ha : args[0]? = some a) (hb : args[1]? = some b) :
    ((argBytes args).drop a.size).take b.size = b.data := by
  rcases args with _ | ⟨x, _ | ⟨y, args⟩⟩
  · simp at ha
  · simp at hb
  · obtain rfl : x = a := by simpa using ha
    obtain rfl : y = b := by simpa using hb
    simp [argBytes, LocalMemoryBuffer.size]

theorem received_eq_some_iff {name : String} :
    received name args = some (args.map (·.data)) ↔
      Fits args ∧ argBytes args ≠ [] ∧
        ∀ i a, args[i]? = some a → argBuffer (sent name args) i = some a.data := by
  have hserve : doRpcService (sent name args) = some (args.map (·.data)) ↔
      ∀ i a, args[i]? = some a → argBuffer (sent name args) i = some a.data := by
    rw [doRpcService, mapM_eq_some_iff, List.ext_getElem?_iff]
    refine forall_congr' fun i => ?_
    simp only [sent, length_argSizes, List.getElem?_map]
    cases h : args[i]? with
    | none =>
      have hlen : ¬ i < args.length := by simpa using h
      simp [hlen]
    | some a =>
      have hlen : i < args.length := (List.getElem?_eq_some_iff.1 h).1
      simp [hlen]
  rw [received, Option.bind_eq_some_iff]
  constructor
  · rintro ⟨req, hreq, hd⟩
    obtain ⟨hf, hne, rfl⟩ := rpcResister_eq_some.1 hreq
    exact ⟨hf, hne, hserve.1 hd⟩
  · rintro ⟨hf, hne, hall⟩
    exact ⟨sent name args, rpcResister_eq_some.2 ⟨hf, hne, rfl⟩, hserve.2 hall⟩

/-- The handler receives the client's arguments exactly when there is a byte among them, the arrays
fit, no argument is longer than 127 bytes, and the arguments from the third on are aligned. -/
theorem received_eq_args_iff (name : String) (args : List LocalMemoryBuffer) :
    received name args = some (args.map (·.data)) ↔
      Fits args ∧ argBytes args ≠ [] ∧ (∀ a ∈ args, a.size ≤ 127) ∧ Aligned args := by
  rw [received_eq_some_iff]
  refine and_congr_right fun hf => and_congr_right fun hne => ⟨fun hall => ?_, ?_⟩
  · -- a buffer of the right length was cut with the right length
    have hsize : ∀ (i : Nat) (a : LocalMemoryBuffer), args[i]? = some a →
        ((BitVec.ofNat 8 a.size).signExtend 64).toNat = a.size ∧ a.size ≤ 127 := by
      intro i a ha
      have hw := hall i a ha
      rw [argBuffer_sent hne ha] at hw
      have hlen : a.size = ((BitVec.ofNat 8 a.size).signExtend 64).toNat := by
        split at hw
        · exact length_of_write hw
        · obtain ⟨off, -, hw⟩ := Option.bind_eq_some_iff.1 hw
          exact length_of_write hw
      exact ⟨hlen.symm, (toNat_signExtend_size (Nat.le_trans (size_le_length ha) hf.1)).1 hlen.symm⟩
    refine ⟨fun a ha => ?_, fun i a b ha hb => ?_⟩
    · obtain ⟨i, hi⟩ := List.getElem?_of_mem ha
      exact (hsize i a hi).2
    · have hw := hall _ b hb
      rw [argBuffer_sent hne hb, if_neg (by omega)] at hw
      rw [show i + 2 - 1 = i + 1 by omega, argSizes_getElem? ha, Option.bind_some,
        toInt_size (hsize _ a ha).2, (hsize _ b hb).1] at hw
      simpa using (write_eq_some.1 hw).2.2
  · rintro ⟨hsmall, hal⟩ i a ha
    have hle : ∀ {j : Nat} {c : LocalMemoryBuffer}, args[j]? = some c → c.size ≤ 127 :=
      fun hc => hsmall _ (List.mem_of_getElem? hc)
    have hlen := (toNat_signExtend_size (Nat.le_trans (size_le_length ha) hf.1)).2 (hle ha)
    rw [argBuffer_sent hne ha, hlen]
    rcases i with _ | i
    · obtain ⟨xs, rfl⟩ : ∃ xs, args = a :: xs := by
        cases args with
        | nil => simp at ha
        | cons x xs => exact ⟨xs, by simpa using ha⟩
      rw [if_pos rfl, write_eq_some]
      simp [argBytes, LocalMemoryBuffer.size]
    · obtain ⟨c, hc⟩ : ∃ c, args[i]? = some c := by
        have hlt := (List.getElem?_eq_some_iff.1 ha).1
        exact ⟨args[i], List.getElem?_eq_getElem (by omega)⟩
      rw [if_neg (by omega), Nat.add_sub_cancel, argSizes_getElem? hc, Option.bind_some,
        toInt_size (hle hc), write_eq_some]
      refine ⟨by omega, ?_, ?_⟩
      · have := size_add_le hc ha
        omega
      · rcases i with _ | i
        · exact aligned_second hc ha
        · exact hal i c a hc ha

/-- Three arguments of one byte: the handler passes the second one twice. -/
theorem received_three_args :
    received "f" [⟨[1]⟩, ⟨[2]⟩, ⟨[3]⟩] = some [[1], [2], [2]] ∧
      received "f" [⟨[1]⟩, ⟨[2]⟩, ⟨[3]⟩] ≠ some ([⟨[1]⟩, ⟨[2]⟩, ⟨[3]⟩].map LocalMemoryBuffer.data) := by
  decide

end HwGam.Mcs
