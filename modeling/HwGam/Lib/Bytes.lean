import Mathlib.Algebra.Group.Nat.Defs
import Mathlib.Algebra.Ring.Int.Defs
import Mathlib.Data.Nat.Basic

/-!
# Integers as bytes

Little-endian encoding of fixed-width integers, and readers that consume a buffer from the front.
A reader has no value where it would read past the end.
-/

namespace HwGam.Lib

abbrev Byte := BitVec 8

/-- The `n` lowest bytes of `x`, the lowest first. -/
def leBytes : Nat → Nat → List Byte
  | 0, _ => []
  | n + 1, x => BitVec.ofNat 8 x :: leBytes n (x / 256)

def ofLeBytes : List Byte → Nat
  | [] => 0
  | b :: bs => b.toNat + 256 * ofLeBytes bs

variable {w n x : Nat} {bs rest : List Byte}

@[simp] theorem length_leBytes : (leBytes n x).length = n := by
  induction n generalizing x with
  | zero => rfl
  | succ n ih => simp [leBytes, ih]

theorem ofLeBytes_leBytes : ofLeBytes (leBytes n x) = x % 256 ^ n := by
  induction n generalizing x with
  | zero => simp [leBytes, ofLeBytes, Nat.mod_one]
  | succ n ih =>
    rw [leBytes, ofLeBytes, ih, Nat.pow_succ', Nat.mod_mul]
    simp

/-! ## Readers -/

/-- A value read from the front of a buffer, and the rest of it. -/
abbrev Reader := StateT (List Byte) Option

def readBytes (n : Nat) : Reader (List Byte) := fun bs =>
  if n ≤ bs.length then some (bs.take n, bs.drop n) else none

/-- The bytes before the first zero; the zero is left in the buffer. -/
def readCString : Reader (List Byte) := fun bs =>
  if 0 ∈ bs then some (bs.takeWhile (· ≠ 0), bs.dropWhile (· ≠ 0)) else none

def encodeLe (x : BitVec w) : List Byte := leBytes (w / 8) x.toNat

def decodeLe (w : Nat) : Reader (BitVec w) := do
  let bs ← readBytes (w / 8)
  pure (BitVec.ofNat w (ofLeBytes bs))

@[simp] theorem Reader.bind_apply {α β : Type} (m : Reader α) (k : α → Reader β) :
    (m >>= k) bs = (m bs).bind fun r => k r.1 r.2 :=
  rfl

@[simp] theorem Reader.pure_apply {α : Type} (a : α) : (pure a : Reader α) bs = some (a, bs) :=
  rfl

@[simp] theorem Reader.map_apply {α β : Type} (f : α → β) (m : Reader α) :
    (f <$> m) bs = (m bs).map fun r => (f r.1, r.2) := by
  change (m bs).bind _ = _
  cases m bs <;> rfl

theorem readBytes_append (h : bs.length = n) : readBytes n (bs ++ rest) = some (bs, rest) := by
  subst h
  simp [readBytes]

/-- A string without zero bytes ends at its end. -/
theorem takeWhile_eq_self (h : 0 ∉ bs) : bs.takeWhile (· ≠ 0) = bs := by
  have hall : ∀ b ∈ bs, decide (b ≠ 0) = true := fun b hb => decide_eq_true fun hc => h (hc ▸ hb)
  have htake : (bs ++ []).takeWhile (· ≠ 0) = bs ++ [].takeWhile (· ≠ 0) :=
    List.takeWhile_append_of_pos hall
  simpa using htake

theorem readCString_append (rest : List Byte) (h : 0 ∉ bs) : readCString (bs ++ 0 :: rest) = some (bs, 0 :: rest) := by
  have hall : ∀ b ∈ bs, decide (b ≠ 0) = true := fun b hb => decide_eq_true fun hc => h (hc ▸ hb)
  have htake : (bs ++ 0 :: rest).takeWhile (· ≠ 0) = bs := by
    rw [List.takeWhile_append_of_pos hall]
    simp
  have hdrop : (bs ++ 0 :: rest).dropWhile (· ≠ 0) = 0 :: rest := by
    rw [List.dropWhile_append_of_pos hall]
    simp
  rw [readCString, if_pos (by simp), htake, hdrop]

@[simp] theorem length_encodeLe (x : BitVec w) : (encodeLe x).length = w / 8 :=
  length_leBytes

/-- What was encoded is read back, and nothing else is consumed. -/
theorem decodeLe_encodeLe (hw : 8 * (w / 8) = w) (x : BitVec w) :
    decodeLe w (encodeLe x ++ rest) = some (x, rest) := by
  have hpow : 256 ^ (w / 8) = 2 ^ w := by
    rw [show 256 = 2 ^ 8 from rfl, ← Nat.pow_mul, hw]
  have hx : BitVec.ofNat w (ofLeBytes (encodeLe x)) = x := by
    rw [encodeLe, ofLeBytes_leBytes, hpow, Nat.mod_eq_of_lt x.isLt, BitVec.ofNat_toNat,
      BitVec.setWidth_eq]
  rw [decodeLe, Reader.bind_apply, readBytes_append (length_encodeLe x)]
  simp [hx]

@[simp] theorem decodeLe_encodeLe_32 (x : BitVec 32) :
    decodeLe 32 (encodeLe x ++ rest) = some (x, rest) :=
  decodeLe_encodeLe (by decide) x

@[simp] theorem decodeLe_encodeLe_64 (x : BitVec 64) :
    decodeLe 64 (encodeLe x ++ rest) = some (x, rest) :=
  decodeLe_encodeLe (by decide) x

/-! ## Alignment -/

/-- A mask of high ones rounds down to a multiple of a power of two. -/
theorem toNat_and_mask (x : BitVec w) (k : Nat) :
    (x &&& BitVec.allOnes w <<< k).toNat = x.toNat / 2 ^ k * 2 ^ k := by
  have hand : x &&& BitVec.allOnes w <<< k = x >>> k <<< k := by
    ext i hi
    rw [BitVec.getElem_and, BitVec.getElem_shiftLeft, BitVec.getElem_shiftLeft]
    by_cases hk : i < k
    · simp [hk]
    · rw [BitVec.getElem_allOnes, BitVec.getElem_ushiftRight]
      simp [hk, show k + (i - k) = i by omega, BitVec.getLsbD_eq_getElem hi]
  have hle : x.toNat / 2 ^ k * 2 ^ k < 2 ^ w :=
    Nat.lt_of_le_of_lt (Nat.div_mul_le_self _ _) x.isLt
  rw [hand, BitVec.toNat_shiftLeft, BitVec.toNat_ushiftRight, Nat.shiftRight_eq_div_pow,
    Nat.shiftLeft_eq, Nat.mod_eq_of_lt hle]

end HwGam.Lib
