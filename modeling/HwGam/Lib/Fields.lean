import HwGam.Lib.Decimal

/-!
# Hexadecimal text and fields

Printing in hexadecimal with a fixed width, scanning such numbers again, and splitting a text into
its nonempty fields at a delimiter.
-/

namespace HwGam.Lib

/-! ## Numbers -/

def hexByte (d : Nat) : Byte := if d < 10 then digitByte d else BitVec.ofNat 8 (87 + d)

def hexValue? (b : Byte) : Option Nat :=
  if 48 ≤ b.toNat ∧ b.toNat ≤ 57 then some (b.toNat - 48)
  else if 97 ≤ b.toNat ∧ b.toNat ≤ 102 then some (b.toNat - 87)
  else if 65 ≤ b.toNat ∧ b.toNat ≤ 70 then some (b.toNat - 55)
  else none

/-- `%0wx` of `printf`, for a width other than zero -/
def printHex (w n : Nat) : List Byte :=
  let ds := (Nat.digits 16 n).reverse
  (List.replicate (w - ds.length) 0 ++ ds).map hexByte

def valueOfHex (ds : List Byte) : Nat :=
  ds.foldl (fun v b => 16 * v + (hexValue? b).getD 0) 0

/-- `%x` of `sscanf`, for a number without a sign or a `0x` in front of it -/
def scanHex (s : List Byte) : Option (Nat × List Byte) :=
  let s := s.dropWhile isSpaceByte
  let ds := s.takeWhile fun b => (hexValue? b).isSome
  if ds = [] then none else some (valueOfHex ds, s.drop ds.length)

variable {n w d : Nat} {b sep : Byte} {s t : List Byte}

theorem hexByte_toNat (hd : d < 16) :
    (hexByte d).toNat = if d < 10 then 48 + d else 87 + d := by
  unfold hexByte
  split
  · exact toNat_digitByte ‹_›
  · rw [BitVec.toNat_ofNat]
    omega

theorem hexValue_hexByte (hd : d < 16) : hexValue? (hexByte d) = some d := by
  have ht := hexByte_toNat hd
  unfold hexValue?
  split at ht
  · rw [if_pos (by omega), ht]
    congr 1
    omega
  · rw [if_neg (by omega), if_pos (by omega), ht]
    congr 1
    omega

theorem not_isSpace_of_hexValue (h : (hexValue? b).isSome = true) : isSpaceByte b = false := by
  unfold hexValue? at h
  simp only [isSpaceByte, Bool.or_eq_false_iff, Bool.and_eq_false_iff, decide_eq_false_iff_not,
    beq_eq_false_iff_ne]
  refine ⟨?_, ?_⟩
  · rintro rfl
    simp at h
  · by_contra hc
    rw [if_neg (by omega), if_neg (by omega), if_neg (by omega)] at h
    cases h

theorem digits_lt (hd : d ∈ (List.replicate (w - (Nat.digits 16 n).reverse.length) 0 ++
    (Nat.digits 16 n).reverse)) : d < 16 := by
  rcases List.mem_append.mp hd with hd | hd
  · rw [(List.mem_replicate.mp hd).2]
    decide
  · exact Nat.digits_lt_base (by decide) (List.mem_reverse.mp hd)

theorem isSome_of_printHex (hb : b ∈ printHex w n) : (hexValue? b).isSome = true := by
  obtain ⟨d, hd, rfl⟩ := List.mem_map.mp hb
  rw [hexValue_hexByte (digits_lt hd)]
  rfl

theorem length_printHex (hn : n < 16 ^ w) : (printHex w n).length = w := by
  have hlen : (Nat.digits 16 n).length ≤ w := (Nat.digits_length_le_iff (by decide) n).mpr hn
  simp only [printHex, List.length_map, List.length_append, List.length_replicate,
    List.length_reverse]
  omega

theorem valueOfHex_printHex : valueOfHex (printHex w n) = n := by
  have hfold : ∀ ds : List Nat, (∀ d ∈ ds, d < 16) → ∀ v,
      (ds.map hexByte).foldl (fun v b => 16 * v + (hexValue? b).getD 0) v =
        ds.foldl (fun v d => 16 * v + d) v := by
    intro ds
    induction ds with
    | nil => intro _ v; rfl
    | cons d ds ih =>
      intro hds v
      rw [List.map_cons, List.foldl_cons, List.foldl_cons, hexValue_hexByte (hds d (by simp)),
        Option.getD_some]
      exact ih (fun x hx => hds x (by simp [hx])) _
  have hzero : ∀ k, (List.replicate k 0).foldl (fun v d => 16 * v + d) 0 = 0 := by
    intro k
    induction k with
    | zero => rfl
    | succ k ih => simpa [List.replicate_succ] using ih
  unfold valueOfHex printHex
  rw [hfold _ (fun d hd => digits_lt hd), List.foldl_append, hzero, List.foldl_reverse]
  have hdig : ∀ ds : List Nat, ds.foldr (fun d v => 16 * v + d) 0 = Nat.ofDigits 16 ds := by
    intro ds
    induction ds with
    | nil => rfl
    | cons d ds ih =>
      rw [List.foldr_cons, ih, Nat.ofDigits_cons, Nat.add_comm]
  exact (hdig _).trans (Nat.ofDigits_digits 16 n)

/-- A printed number is scanned up to what ends it. -/
theorem scanHex_printHex (hw : 0 < w) (hs : ∀ b ∈ s.head?, (hexValue? b).isSome = false) :
    scanHex (printHex w n ++ s) = some (n, s) := by
  have hne : printHex w n ≠ [] := by
    have : 0 < (printHex w n).length := by
      simp only [printHex, List.length_map, List.length_append, List.length_replicate,
        List.length_reverse]
      omega
    exact List.ne_nil_of_length_pos this
  have hdrop : (printHex w n ++ s).dropWhile isSpaceByte = printHex w n ++ s := by
    obtain ⟨b, bs, hb⟩ := List.exists_cons_of_ne_nil hne
    have hspace := not_isSpace_of_hexValue (isSome_of_printHex (w := w) (n := n) (b := b) (by simp [hb]))
    rw [hb, List.cons_append, List.dropWhile_cons, hspace]
    simp
  have htake : (printHex w n ++ s).takeWhile (fun b => (hexValue? b).isSome) = printHex w n := by
    rw [List.takeWhile_append_of_pos fun b hb => isSome_of_printHex hb]
    cases s with
    | nil => simp
    | cons b s => simp [hs b rfl]
  unfold scanHex
  simp only [hdrop, htake, if_neg hne, valueOfHex_printHex, List.drop_left]

/-! ## Fields -/

/-- The nonempty fields of a text. -/
def fields (sep : Byte) (s : List Byte) : List (List Byte) :=
  (s.splitOn sep).filter fun f => !f.isEmpty

theorem fields_append_cons (sep : Byte) (s t : List Byte) :
    fields sep (s ++ sep :: t) = fields sep s ++ fields sep t := by
  rw [fields, List.splitOn_append_cons_self, List.filter_append]
  rfl

@[simp] theorem fields_nil (sep : Byte) : fields sep [] = [] := by
  simp [fields]

/-- A text without the delimiter is one field. -/
theorem fields_eq_singleton (hne : s ≠ []) (hs : sep ∉ s) : fields sep s = [s] := by
  cases s with
  | nil => exact absurd rfl hne
  | cons b s => simp [fields, List.splitOn_eq_singleton hs]

end HwGam.Lib
