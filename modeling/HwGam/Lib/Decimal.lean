import Mathlib.Data.Nat.Digits.Lemmas
import HwGam.Lib.Bytes

/-!
# Decimal text

Printing integers in decimal, extracting an unsigned 64-bit number from a stream as `operator>>`
does, and splitting a text into such numbers at a delimiter.
-/

namespace HwGam.Lib

/-- `'-'` and `'+'`. -/
def minusSign : Byte := 45
def plusSign : Byte := 43

def digitByte (d : Nat) : Byte := BitVec.ofNat 8 (48 + d)

def isDigitByte (b : Byte) : Bool := 48 ≤ b.toNat && b.toNat ≤ 57

def isSpaceByte (b : Byte) : Bool := b == 32 || (9 ≤ b.toNat && b.toNat ≤ 13)

/-- `%u` and `%lu`. -/
def printNat (n : Nat) : List Byte :=
  if n = 0 then [digitByte 0] else ((Nat.digits 10 n).reverse.map digitByte)

/-- `%d` and `%ld`. -/
def printInt (z : Int) : List Byte :=
  if z < 0 then minusSign :: printNat (-z).toNat else printNat z.toNat

def valueOfDigits (ds : List Byte) : Nat :=
  ds.foldl (fun v b => 10 * v + (b.toNat - 48)) 0

/-- `ss >> item` for an unsigned 64-bit item: blanks, a sign, digits. It fails when there is no
digit and when the number is too large; a minus sign negates modulo `2 ^ 64`. -/
def extract (s : List Byte) : Option (BitVec 64 × List Byte) :=
  let s := s.dropWhile isSpaceByte
  let neg := s.head? == some minusSign
  let s := if neg || s.head? == some plusSign then s.tail else s
  let n := valueOfDigits (s.takeWhile isDigitByte)
  if s.takeWhile isDigitByte ≠ [] ∧ n < 2 ^ 64 then
    some (if neg then -BitVec.ofNat 64 n else BitVec.ofNat 64 n, s.dropWhile isDigitByte)
  else none

/-- Extracts numbers until it fails, skipping one delimiter after each; `fuel` bounds their
number. -/
def splitFuel (delim : Byte) : Nat → List Byte → List (BitVec 64)
  | 0, _ => []
  | fuel + 1, s =>
    match extract s with
    | none => []
    | some (v, s) => v :: splitFuel delim fuel (if s.head? = some delim then s.tail else s)

/-- Every extraction consumes a byte. -/
def split (delim : Byte) (s : List Byte) : List (BitVec 64) := splitFuel delim (s.length + 1) s

/-! ## Printing -/

/-- A nonempty string of digits. -/
def IsDigits (ds : List Byte) : Prop := ds ≠ [] ∧ ∀ b ∈ ds, isDigitByte b = true

/-- Digits with or without a minus sign. -/
def IsNumeral (t : List Byte) : Prop := IsDigits t ∨ ∃ ds, IsDigits ds ∧ t = minusSign :: ds

/-- Nothing that a number could go on with. -/
def Ends (s : List Byte) : Prop := ∀ b ∈ s.head?, isDigitByte b = false

variable {n k : Nat} {z : Int} {ds t rest s : List Byte} {delim : Byte} {v : BitVec 64}

theorem toNat_digitByte {d : Nat} (hd : d < 10) : (digitByte d).toNat = 48 + d := by
  rw [digitByte, BitVec.toNat_ofNat]
  omega

theorem isDigitByte_digitByte {d : Nat} (hd : d < 10) : isDigitByte (digitByte d) = true := by
  simp only [isDigitByte, toNat_digitByte hd, Bool.and_eq_true, decide_eq_true_eq]
  omega

theorem isDigits_printNat : IsDigits (printNat n) := by
  rw [printNat]
  split
  · exact ⟨by simp, by simp; decide⟩
  · rename_i hn
    refine ⟨by simpa [Nat.digits_eq_nil_iff_eq_zero] using hn, fun b hb => ?_⟩
    obtain ⟨d, hd, rfl⟩ := List.mem_map.1 hb
    exact isDigitByte_digitByte (Nat.digits_lt_base (by omega) (List.mem_reverse.1 hd))

theorem isNumeral_printInt : IsNumeral (printInt z) := by
  rw [printInt]
  split
  · exact .inr ⟨_, isDigits_printNat, rfl⟩
  · exact .inl isDigits_printNat

theorem IsDigits.append (hs : IsDigits s) (ht : IsDigits t) : IsDigits (s ++ t) := by
  refine ⟨by simp [hs.1], fun b hb => ?_⟩
  rcases List.mem_append.1 hb with hb | hb
  · exact hs.2 b hb
  · exact ht.2 b hb

theorem IsNumeral.append (hs : IsNumeral s) (ht : IsDigits t) : IsNumeral (s ++ t) := by
  rcases hs with hs | ⟨ds, hs, rfl⟩
  · exact .inl (hs.append ht)
  · exact .inr ⟨ds ++ t, hs.append ht, rfl⟩

theorem valueOfDigits_printNat : valueOfDigits (printNat n) = n := by
  rw [printNat]
  split
  · rename_i hn
    simp [valueOfDigits, hn, digitByte]
  · have hfold : ∀ l : List Nat, (∀ d ∈ l, d < 10) →
        valueOfDigits (l.reverse.map digitByte) = Nat.ofDigits 10 l := by
      intro l
      induction l with
      | nil => intro _; rfl
      | cons d l ih =>
        intro hl
        have hd := toNat_digitByte (hl d (by simp))
        have ih := ih fun x hx => hl x (by simp [hx])
        rw [Nat.ofDigits_cons, ← ih]
        simp only [valueOfDigits, List.reverse_cons, List.map_append, List.map_cons, List.map_nil,
          List.foldl_append, List.foldl_cons, List.foldl_nil, hd]
        omega
    rw [hfold _ fun d hd => Nat.digits_lt_base (by omega) hd, Nat.ofDigits_digits]

theorem length_printNat_le (hk : 0 < k) (hn : n < 10 ^ k) : (printNat n).length ≤ k := by
  rw [printNat]
  split
  · exact hk
  · rw [List.length_map, List.length_reverse]
    exact (Nat.digits_length_le_iff (by omega) n).2 hn

/-! ## Extraction -/

theorem isDigitByte_minusSign : isDigitByte minusSign = false := rfl

theorem not_isSpace_of_isDigit {b : Byte} (h : isDigitByte b = true) : isSpaceByte b = false := by
  simp only [isDigitByte, isSpaceByte, Bool.and_eq_true, decide_eq_true_eq, Bool.or_eq_false_iff,
    Bool.and_eq_false_iff, decide_eq_false_iff_not, beq_eq_false_iff_ne] at h ⊢
  refine ⟨fun hc => ?_, by omega⟩
  subst hc
  simp at h

theorem takeWhile_digits (hd : IsDigits ds) (he : Ends rest) :
    (ds ++ rest).takeWhile isDigitByte = ds ∧ (ds ++ rest).dropWhile isDigitByte = rest := by
  rw [List.takeWhile_append_of_pos hd.2, List.dropWhile_append_of_pos hd.2]
  cases rest with
  | nil => simp
  | cons b rest =>
    have hb : isDigitByte b = false := he b rfl
    simp [hb]

/-- Digits are extracted up to what ends them. -/
theorem extract_digits (hd : IsDigits ds) (he : Ends rest) :
    extract (ds ++ rest) =
      if valueOfDigits ds < 2 ^ 64 then some (BitVec.ofNat 64 (valueOfDigits ds), rest) else none := by
  obtain ⟨b, ds', rfl⟩ := List.exists_cons_of_ne_nil hd.1
  have hb := hd.2 b (by simp)
  have hm : ¬ b = minusSign := fun hc => by simp [hc, isDigitByte_minusSign] at hb
  have hp : ¬ b = plusSign := fun hc => by simp [hc, isDigitByte, plusSign] at hb
  have htd := takeWhile_digits hd he
  simp only [extract, List.cons_append, List.dropWhile_cons, not_isSpace_of_isDigit hb,
    Bool.false_eq_true, if_false, List.head?_cons, Option.some_beq_some, beq_iff_eq, hm, hp,
    Bool.or_eq_true, or_self] at htd ⊢
  rw [htd.1, htd.2]
  simp

theorem extract_minus (hd : IsDigits ds) (he : Ends rest) :
    extract (minusSign :: ds ++ rest) =
      if valueOfDigits ds < 2 ^ 64 then some (-BitVec.ofNat 64 (valueOfDigits ds), rest)
      else none := by
  have hsp : isSpaceByte minusSign = false := rfl
  have htd := takeWhile_digits hd he
  simp only [extract, List.cons_append, List.dropWhile_cons, hsp, Bool.false_eq_true, if_false,
    List.head?_cons, beq_self_eq_true, Bool.true_or, if_true, List.tail_cons, htd.1, htd.2]
  simp [hd.1]

/-- A numeral is read to its end or not at all. -/
theorem extract_numeral (h : IsNumeral t) (he : Ends rest) :
    (∃ v, extract (t ++ rest) = some (v, rest)) ∨ extract (t ++ rest) = none := by
  rcases h with h | ⟨ds, h, rfl⟩
  · rw [extract_digits h he]
    split
    · exact .inl ⟨_, rfl⟩
    · exact .inr rfl
  · rw [extract_minus h he]
    split
    · exact .inl ⟨_, rfl⟩
    · exact .inr rfl

theorem extract_printNat (hn : n < 2 ^ 64) (he : Ends rest) :
    extract (printNat n ++ rest) = some (BitVec.ofNat 64 n, rest) := by
  rw [extract_digits isDigits_printNat he, valueOfDigits_printNat, if_pos hn]

/-- A printed 64-bit number is read back, negative ones included. -/
theorem extract_printInt (x : BitVec 64) (he : Ends rest) :
    extract (printInt x.toInt ++ rest) = some (x, rest) := by
  have hx := x.isLt
  rw [printInt]
  split
  · rename_i hneg
    have hint := BitVec.toInt_eq_toNat_cond x
    have hv : (-x.toInt).toNat = 2 ^ 64 - x.toNat := by
      split at hint <;> omega
    rw [extract_minus isDigits_printNat he, valueOfDigits_printNat, if_pos (by omega)]
    congr 2
    apply BitVec.eq_of_toNat_eq
    rw [BitVec.toNat_neg, BitVec.toNat_ofNat, hv]
    have : 0 < x.toNat := by
      split at hint <;> omega
    omega
  · have hint := BitVec.toInt_eq_toNat_cond x
    have hv : x.toInt.toNat = x.toNat := by
      split at hint <;> omega
    rw [hv, extract_printNat hx he, BitVec.ofNat_toNat, BitVec.setWidth_eq]

/-! ## Splitting -/

/-- Each text followed by the delimiter. -/
def terminated (delim : Byte) (ts : List (List Byte)) : List Byte :=
  ts.flatMap (· ++ [delim])

theorem length_le_terminated (delim : Byte) (ts : List (List Byte)) : ts.length ≤ (terminated delim ts).length := by
  induction ts with
  | nil => simp [terminated]
  | cons t ts ih =>
    simp only [terminated, List.flatMap_cons, List.length_append, List.length_cons,
      List.length_nil] at ih ⊢
    omega

theorem splitFuel_nil (k : Nat) : splitFuel delim k [] = [] := by
  cases k <;> rfl

/-- `t` is read as `v` wherever it ends. -/
def Reads (t : List Byte) (v : BitVec 64) : Prop :=
  ∀ rest, Ends rest → extract (t ++ rest) = some (v, rest)

theorem ends_cons (hd : isDigitByte delim = false) : Ends (delim :: rest) := by
  rintro b ⟨⟩
  exact hd

theorem splitFuel_terminated (k : Nat) (rest : List Byte) (hd : isDigitByte delim = false)
    {ts : List (List Byte)} {vs : List (BitVec 64)} (h : List.Forall₂ Reads ts vs) :
    splitFuel delim (ts.length + k) (terminated delim ts ++ rest) =
      vs ++ splitFuel delim k rest := by
  induction h with
  | nil => simp [terminated]
  | @cons t v ts vs ht _ ih =>
    have hone : extract (terminated delim (t :: ts) ++ rest) =
        some (v, delim :: (terminated delim ts ++ rest)) := by
      have := ht (delim :: (terminated delim ts ++ rest)) (ends_cons hd)
      simpa [terminated] using this
    rw [List.length_cons, Nat.add_right_comm, splitFuel, hone]
    simp [ih]

/-- Printed numbers, each followed by the delimiter, are read back. -/
theorem split_terminated (hd : isDigitByte delim = false) {ts : List (List Byte)}
    {vs : List (BitVec 64)} (h : List.Forall₂ Reads ts vs) :
    split delim (terminated delim ts) = vs := by
  obtain ⟨k, hk⟩ := Nat.exists_eq_add_of_le (length_le_terminated delim ts)
  have := splitFuel_terminated (k + 1) [] hd h
  rwa [List.append_nil, splitFuel_nil, List.append_nil, ← Nat.add_assoc, ← hk] at this

/-- The delimiter after the last number may be missing. -/
theorem split_terminated_append (hd : isDigitByte delim = false) {ts : List (List Byte)}
    {vs : List (BitVec 64)} (h : List.Forall₂ Reads ts vs) (ht : Reads t v) :
    split delim (terminated delim ts ++ t) = vs ++ [v] := by
  have hlast : extract t = some (v, []) := by
    simpa using ht [] (by simp [Ends])
  obtain ⟨k, hk⟩ := Nat.exists_eq_add_of_le (length_le_terminated delim ts)
  have := splitFuel_terminated (k + t.length + 1) t hd h
  rw [split, List.length_append, hk, Nat.add_assoc, Nat.add_assoc, ← Nat.add_assoc k, this,
    splitFuel, hlast]
  simp [splitFuel_nil]

/-- Numerals with delimiters between them give at most one number each. -/
theorem length_splitFuel_le (hd : isDigitByte delim = false) {ts : List (List Byte)}
    (h : ∀ t ∈ ts, IsNumeral t) (ht : IsNumeral t) :
    (splitFuel delim k (terminated delim ts ++ t)).length ≤ ts.length + 1 := by
  induction ts generalizing k with
  | nil =>
    cases k with
    | zero => simp [splitFuel]
    | succ k =>
      have hnil : extract [] = none := rfl
      have hend : Ends [] := by simp [Ends]
      rcases extract_numeral ht hend with ⟨v, hv⟩ | hv
      · rw [List.append_nil] at hv
        cases k <;> simp [terminated, splitFuel, hv, hnil]
      · rw [List.append_nil] at hv
        simp [terminated, splitFuel, hv]
  | cons t' ts ih =>
    cases k with
    | zero => simp [splitFuel]
    | succ k =>
      have hs : terminated delim (t' :: ts) ++ t = t' ++ delim :: (terminated delim ts ++ t) := by
        simp [terminated]
      rw [hs, splitFuel]
      have hend : Ends (delim :: (terminated delim ts ++ t)) := ends_cons hd
      rcases extract_numeral (h t' (by simp)) hend with ⟨v, hv⟩ | hv
      · have := ih (k := k) fun x hx => h x (by simp [hx])
        simpa [hv] using this
      · simp [hv]

end HwGam.Lib
