import HwGam.Lib.Bytes
import Mathlib.Algebra.Group.Nat.Defs
import Mathlib.Data.List.Basic

/-!
# Msgpack

Objects, their encoding and a decoder that reads one object from the front of a buffer. An encoding
is a head, which holds the kind and the size, and a body. A size that does not fit 32 bits has no
encoding.
-/

namespace HwGam.Lib.Msgpack

inductive Obj where
  | nil
  | bool (b : Bool)
  /-- `POSITIVE_INTEGER`. -/
  | pos (n : BitVec 64)
  /-- `NEGATIVE_INTEGER`, of value `-1 - n`. -/
  | neg (n : BitVec 63)
  | float (bits : BitVec 32)
  | double (bits : BitVec 64)
  | str (bs : List Byte)
  | bin (bs : List Byte)
  | ext (type : Byte) (bs : List Byte)
  | array (xs : List Obj)
  | map (kvs : List (Obj × Obj))

inductive Head where
  | nil
  | bool (b : Bool)
  | pos (n : BitVec 64)
  | neg (n : BitVec 63)
  | float (bits : BitVec 32)
  | double (bits : BitVec 64)
  | str (size : Nat)
  | bin (size : Nat)
  | ext (size : Nat) (type : Byte)
  | array (size : Nat)
  | map (size : Nat)
  deriving DecidableEq, Repr

/-! ## Big-endian integers -/

def beBytes (n x : Nat) : List Byte := (leBytes n x).reverse

def readBe (n : Nat) : Reader Nat := do
  let bs ← readBytes n
  pure (ofLeBytes bs.reverse)

def readByte : Reader Nat := readBe 1

@[simp] theorem length_beBytes {n x : Nat} : (beBytes n x).length = n := by simp [beBytes]

theorem readBe_append {n x : Nat} {rest : List Byte} (h : x < 256 ^ n) :
    readBe n (beBytes n x ++ rest) = some (x, rest) := by
  rw [readBe, Reader.bind_apply, readBytes_append length_beBytes]
  simp [beBytes, ofLeBytes_leBytes, Nat.mod_eq_of_lt h]

/-! ## Heads -/

def tag (t : Nat) : List Byte := beBytes 1 t

def packHead : Head → List Byte
  | .nil => tag 0xc0
  | .bool b => tag (if b then 0xc3 else 0xc2)
  | .pos n =>
    let d := n.toNat
    if d < 2 ^ 7 then tag d
    else if d < 2 ^ 8 then tag 0xcc ++ beBytes 1 d
    else if d < 2 ^ 16 then tag 0xcd ++ beBytes 2 d
    else if d < 2 ^ 32 then tag 0xce ++ beBytes 4 d
    else tag 0xcf ++ beBytes 8 d
  | .neg n =>
    let d := n.toNat
    if d < 2 ^ 5 then tag (2 ^ 8 - 1 - d)
    else if d < 2 ^ 7 then tag 0xd0 ++ beBytes 1 (2 ^ 8 - 1 - d)
    else if d < 2 ^ 15 then tag 0xd1 ++ beBytes 2 (2 ^ 16 - 1 - d)
    else if d < 2 ^ 31 then tag 0xd2 ++ beBytes 4 (2 ^ 32 - 1 - d)
    else tag 0xd3 ++ beBytes 8 (2 ^ 64 - 1 - d)
  | .float bits => tag 0xca ++ beBytes 4 bits.toNat
  | .double bits => tag 0xcb ++ beBytes 8 bits.toNat
  | .str l =>
    if l < 32 then tag (0xa0 + l)
    else if l < 2 ^ 8 then tag 0xd9 ++ beBytes 1 l
    else if l < 2 ^ 16 then tag 0xda ++ beBytes 2 l
    else tag 0xdb ++ beBytes 4 l
  | .bin l =>
    if l < 2 ^ 8 then tag 0xc4 ++ beBytes 1 l
    else if l < 2 ^ 16 then tag 0xc5 ++ beBytes 2 l
    else tag 0xc6 ++ beBytes 4 l
  | .ext l type =>
    if l = 1 then tag 0xd4 ++ tag type.toNat
    else if l = 2 then tag 0xd5 ++ tag type.toNat
    else if l = 4 then tag 0xd6 ++ tag type.toNat
    else if l = 8 then tag 0xd7 ++ tag type.toNat
    else if l = 16 then tag 0xd8 ++ tag type.toNat
    else if l < 2 ^ 8 then tag 0xc7 ++ (beBytes 1 l ++ tag type.toNat)
    else if l < 2 ^ 16 then tag 0xc8 ++ (beBytes 2 l ++ tag type.toNat)
    else tag 0xc9 ++ (beBytes 4 l ++ tag type.toNat)
  | .array n =>
    if n < 16 then tag (0x90 + n)
    else if n < 2 ^ 16 then tag 0xdc ++ beBytes 2 n
    else tag 0xdd ++ beBytes 4 n
  | .map n =>
    if n < 16 then tag (0x80 + n)
    else if n < 2 ^ 16 then tag 0xde ++ beBytes 2 n
    else tag 0xdf ++ beBytes 4 n

/-- A signed integer of `8 * k` bits. -/
def readInt (k : Nat) : Reader Head := do
  let d ← readBe k
  pure (if d < 2 ^ (8 * k - 1) then .pos (BitVec.ofNat 64 d)
    else .neg (BitVec.ofNat 63 (2 ^ (8 * k) - 1 - d)))

def readExt (size : Reader Nat) : Reader Head := do
  let l ← size
  let type ← readByte
  pure (.ext l (BitVec.ofNat 8 type))

/-- The rest of the head behind the tag `t`. -/
def headOf (t : Nat) : Reader Head :=
  if t < 0x80 then pure (.pos (BitVec.ofNat 64 t))
  else if t < 0x90 then pure (.map (t - 0x80))
  else if t < 0xa0 then pure (.array (t - 0x90))
  else if t < 0xc0 then pure (.str (t - 0xa0))
  else if 0xe0 ≤ t then pure (.neg (BitVec.ofNat 63 (0xff - t)))
  else if t = 0xc0 then pure .nil
  else if t = 0xc2 then pure (.bool false)
  else if t = 0xc3 then pure (.bool true)
  else if t = 0xc4 then .bin <$> readBe 1
  else if t = 0xc5 then .bin <$> readBe 2
  else if t = 0xc6 then .bin <$> readBe 4
  else if t = 0xc7 then readExt (readBe 1)
  else if t = 0xc8 then readExt (readBe 2)
  else if t = 0xc9 then readExt (readBe 4)
  else if t = 0xca then (fun x => .float (BitVec.ofNat 32 x)) <$> readBe 4
  else if t = 0xcb then (fun x => .double (BitVec.ofNat 64 x)) <$> readBe 8
  else if t = 0xcc then (fun x => .pos (BitVec.ofNat 64 x)) <$> readBe 1
  else if t = 0xcd then (fun x => .pos (BitVec.ofNat 64 x)) <$> readBe 2
  else if t = 0xce then (fun x => .pos (BitVec.ofNat 64 x)) <$> readBe 4
  else if t = 0xcf then (fun x => .pos (BitVec.ofNat 64 x)) <$> readBe 8
  else if t = 0xd0 then readInt 1
  else if t = 0xd1 then readInt 2
  else if t = 0xd2 then readInt 4
  else if t = 0xd3 then readInt 8
  else if t = 0xd4 then readExt (pure 1)
  else if t = 0xd5 then readExt (pure 2)
  else if t = 0xd6 then readExt (pure 4)
  else if t = 0xd7 then readExt (pure 8)
  else if t = 0xd8 then readExt (pure 16)
  else if t = 0xd9 then .str <$> readBe 1
  else if t = 0xda then .str <$> readBe 2
  else if t = 0xdb then .str <$> readBe 4
  else if t = 0xdc then .array <$> readBe 2
  else if t = 0xdd then .array <$> readBe 4
  else if t = 0xde then .map <$> readBe 2
  else if t = 0xdf then .map <$> readBe 4
  else fun _ => none

def readHead : Reader Head := do
  let t ← readByte
  headOf t

/-- The size in a head fits 32 bits. -/
def Head.Fits : Head → Prop
  | .str l | .bin l | .ext l _ | .array l | .map l => l < 2 ^ 32
  | _ => True

variable {h : Head} {rest : List Byte} {t : Nat}

theorem readHead_tag (ht : t < 256) (bs : List Byte) : readHead (tag t ++ bs) = headOf t bs := by
  rw [readHead, Reader.bind_apply, readByte, tag, readBe_append (by simpa using ht)]
  rfl

/-- A tag and one integer behind it. -/
theorem readHead_int {k x : Nat} {f : Nat → Head} (ht : t < 256) (heq : headOf t = f <$> readBe k)
    (hx : x < 256 ^ k) : readHead ((tag t ++ beBytes k x) ++ rest) = some (f x, rest) := by
  rw [List.append_assoc, readHead_tag ht, heq, Reader.map_apply, readBe_append hx]
  rfl

/-- A tag and a negative integer behind it. -/
theorem readHead_neg {k d : Nat} (ht : t < 256) (heq : headOf t = readInt k) (hk : 0 < k)
    (hd : d < 2 ^ (8 * k - 1)) :
    readHead ((tag t ++ beBytes k (2 ^ (8 * k) - 1 - d)) ++ rest) =
      some (.neg (BitVec.ofNat 63 d), rest) := by
  have hpow : 2 ^ (8 * k) = 2 * 2 ^ (8 * k - 1) := by
    rw [← Nat.pow_succ', show (8 * k - 1).succ = 8 * k by omega]
  have hbytes : 256 ^ k = 2 ^ (8 * k) := by rw [Nat.pow_mul]
  have hlt : 2 ^ (8 * k) - 1 - d < 256 ^ k := by omega
  have hge : ¬ 2 ^ (8 * k) - 1 - d < 2 ^ (8 * k - 1) := by omega
  have hback : 2 ^ (8 * k) - 1 - (2 ^ (8 * k) - 1 - d) = d := by omega
  rw [List.append_assoc, readHead_tag ht, heq, readInt, Reader.bind_apply, readBe_append hlt]
  simp only [Option.bind_some, if_neg hge, hback]
  rfl

theorem readExt_append {size : Reader Nat} {l : Nat} {bs : List Byte} {b : Byte}
    (hsize : size bs = some (l, tag b.toNat ++ rest)) :
    readExt size bs = some (.ext l b, rest) := by
  have hb : b.toNat < 256 ^ 1 := by simpa using b.isLt
  rw [readExt, Reader.bind_apply, hsize, Option.bind_some, Reader.bind_apply, readByte, tag,
    readBe_append hb]
  simp

/-- A tag that gives the size, and the type behind it. -/
theorem readHead_fixext {l : Nat} {b : Byte} (ht : t < 256) (heq : headOf t = readExt (pure l)) :
    readHead ((tag t ++ tag b.toNat) ++ rest) = some (.ext l b, rest) := by
  rw [List.append_assoc, readHead_tag ht, heq]
  exact readExt_append rfl

theorem readHead_ext {k l : Nat} {b : Byte} (ht : t < 256) (heq : headOf t = readExt (readBe k))
    (hl : l < 256 ^ k) :
    readHead ((tag t ++ (beBytes k l ++ tag b.toNat)) ++ rest) = some (.ext l b, rest) := by
  rw [List.append_assoc, readHead_tag ht, heq, List.append_assoc]
  exact readExt_append (readBe_append hl)

theorem readHead_packHead_pos (n : BitVec 64) :
    readHead (packHead (.pos n) ++ rest) = some (.pos n, rest) := by
  have hn : BitVec.ofNat 64 n.toNat = n := by simp
  have hlt := n.isLt
  have hpos : ∀ k, n.toNat < 256 ^ k → ∀ t < 256,
      headOf t = (fun x => .pos (BitVec.ofNat 64 x)) <$> readBe k →
      readHead ((tag t ++ beBytes k n.toNat) ++ rest) = some (.pos n, rest) := by
    intro k hk t ht heq
    rw [readHead_int ht heq hk, hn]
  simp only [packHead]
  split_ifs with h1 h2 h3 h4
  · rw [readHead_tag (by omega), headOf, if_pos (by omega), hn]
    rfl
  · exact hpos 1 (by omega) _ (by decide) rfl
  · exact hpos 2 (by omega) _ (by decide) rfl
  · exact hpos 4 (by omega) _ (by decide) rfl
  · exact hpos 8 (by omega) _ (by decide) rfl

theorem readHead_packHead_neg (n : BitVec 63) :
    readHead (packHead (.neg n) ++ rest) = some (.neg n, rest) := by
  have hn : BitVec.ofNat 63 n.toNat = n := by simp
  have hlt := n.isLt
  have hneg : ∀ k, 0 < k → n.toNat < 2 ^ (8 * k - 1) → ∀ t < 256, headOf t = readInt k →
      readHead ((tag t ++ beBytes k (2 ^ (8 * k) - 1 - n.toNat)) ++ rest) = some (.neg n, rest) := by
    intro k hk hd t ht heq
    rw [readHead_neg ht heq hk hd, hn]
  simp only [packHead]
  split_ifs with h1 h2 h3 h4
  · rw [readHead_tag (by omega), headOf, if_neg (by omega), if_neg (by omega), if_neg (by omega),
      if_neg (by omega), if_pos (by omega), show 0xff - (2 ^ 8 - 1 - n.toNat) = n.toNat by omega, hn]
    rfl
  · exact hneg 1 (by decide) h2 0xd0 (by decide) rfl
  · exact hneg 2 (by decide) h3 0xd1 (by decide) rfl
  · exact hneg 4 (by decide) h4 0xd2 (by decide) rfl
  · exact hneg 8 (by decide) hlt 0xd3 (by decide) rfl

theorem readHead_packHead (hf : h.Fits) : readHead (packHead h ++ rest) = some (h, rest) := by
  cases h with
  | nil => exact readHead_tag (by decide) rest
  | bool b => cases b <;> exact readHead_tag (by decide) rest
  | pos n => exact readHead_packHead_pos n
  | neg n => exact readHead_packHead_neg n
  | float bits =>
    have hlt := bits.isLt
    rw [packHead, readHead_int (by decide) rfl (by omega)]
    simp
  | double bits =>
    have hlt := bits.isLt
    rw [packHead, readHead_int (by decide) rfl (by omega)]
    simp
  | str l =>
    have hl : l < 2 ^ 32 := hf
    simp only [packHead]
    split_ifs with h1 h2 h3
    · rw [readHead_tag (by omega), headOf, if_neg (by omega), if_neg (by omega), if_neg (by omega),
        if_pos (by omega), Nat.add_sub_cancel_left]
      rfl
    · exact readHead_int (by decide) rfl (by omega)
    · exact readHead_int (by decide) rfl (by omega)
    · exact readHead_int (by decide) rfl (by omega)
  | bin l =>
    have hl : l < 2 ^ 32 := hf
    simp only [packHead]
    split_ifs with h1 h2
    · exact readHead_int (by decide) rfl (by omega)
    · exact readHead_int (by decide) rfl (by omega)
    · exact readHead_int (by decide) rfl (by omega)
  | ext l b =>
    have hl : l < 2 ^ 32 := hf
    simp only [packHead]
    split_ifs with h1 h2 h3 h4 h5 h6 h7
    · rw [h1]
      exact readHead_fixext (by decide) rfl
    · rw [h2]
      exact readHead_fixext (by decide) rfl
    · rw [h3]
      exact readHead_fixext (by decide) rfl
    · rw [h4]
      exact readHead_fixext (by decide) rfl
    · rw [h5]
      exact readHead_fixext (by decide) rfl
    · exact readHead_ext (by decide) rfl (by omega)
    · exact readHead_ext (by decide) rfl (by omega)
    · exact readHead_ext (by decide) rfl (by omega)
  | array n =>
    have hl : n < 2 ^ 32 := hf
    simp only [packHead]
    split_ifs with h1 h2
    · rw [readHead_tag (by omega), headOf, if_neg (by omega), if_neg (by omega), if_pos (by omega),
        Nat.add_sub_cancel_left]
      rfl
    · exact readHead_int (by decide) rfl (by omega)
    · exact readHead_int (by decide) rfl (by omega)
  | map n =>
    have hl : n < 2 ^ 32 := hf
    simp only [packHead]
    split_ifs with h1 h2
    · rw [readHead_tag (by omega), headOf, if_neg (by omega), if_pos (by omega),
        Nat.add_sub_cancel_left]
      rfl
    · exact readHead_int (by decide) rfl (by omega)
    · exact readHead_int (by decide) rfl (by omega)

/-! ## Objects -/

def Obj.head : Obj → Head
  | .nil => .nil
  | .bool b => .bool b
  | .pos n => .pos n
  | .neg n => .neg n
  | .float bits => .float bits
  | .double bits => .double bits
  | .str bs => .str bs.length
  | .bin bs => .bin bs.length
  | .ext type bs => .ext bs.length type
  | .array xs => .array xs.length
  | .map kvs => .map kvs.length

instance : ∀ h : Head, Decidable h.Fits
  | .str l | .bin l | .ext l _ | .array l | .map l => inferInstanceAs (Decidable (l < 2 ^ 32))
  | .nil | .bool _ | .pos _ | .neg _ | .float _ | .double _ => inferInstanceAs (Decidable True)

/-- A head and the bytes behind it, if the size fits. -/
def framed (h : Head) (body : List Byte) : Option (List Byte) :=
  if h.Fits then some (packHead h ++ body) else none

mutual

def pack : Obj → Option (List Byte)
  | .nil => framed .nil []
  | .bool b => framed (.bool b) []
  | .pos n => framed (.pos n) []
  | .neg n => framed (.neg n) []
  | .float bits => framed (.float bits) []
  | .double bits => framed (.double bits) []
  | .str bs => framed (.str bs.length) bs
  | .bin bs => framed (.bin bs.length) bs
  | .ext type bs => framed (.ext bs.length type) bs
  | .array xs => (packAll xs).bind (framed (.array xs.length))
  | .map kvs => (packPairs kvs).bind (framed (.map kvs.length))

def packAll : List Obj → Option (List Byte)
  | [] => some []
  | x :: xs => (pack x).bind fun a => (packAll xs).map (a ++ ·)

def packPairs : List (Obj × Obj) → Option (List Byte)
  | [] => some []
  | (k, v) :: kvs =>
    (pack k).bind fun a => (pack v).bind fun b => (packPairs kvs).map (a ++ b ++ ·)

end

def readMany {α : Type} (r : Reader α) : Nat → Reader (List α)
  | 0 => pure []
  | n + 1 => do
    let x ← r
    let xs ← readMany r n
    pure (x :: xs)

def readPair {α : Type} (r : Reader α) : Reader (α × α) := do
  let k ← r
  let v ← r
  pure (k, v)

/-- What stands behind a head; `r` reads the objects inside. -/
def unpackBody (r : Reader Obj) : Head → Reader Obj
  | .nil => pure .nil
  | .bool b => pure (.bool b)
  | .pos n => pure (.pos n)
  | .neg n => pure (.neg n)
  | .float bits => pure (.float bits)
  | .double bits => pure (.double bits)
  | .str l => .str <$> readBytes l
  | .bin l => .bin <$> readBytes l
  | .ext l type => .ext type <$> readBytes l
  | .array n => .array <$> readMany r n
  | .map n => .map <$> readMany (readPair r) n

/-- The object at the front of the buffer; `fuel` bounds its depth. -/
def unpack : Nat → Reader Obj
  | 0 => fun _ => none
  | fuel + 1 => do
    let h ← readHead
    unpackBody (unpack fuel) h

/-! ## Round trip -/

variable {o : Obj} {bs body : List Byte} {fuel : Nat}

theorem framed_eq_some (hp : framed h body = some bs) : h.Fits ∧ packHead h ++ body = bs := by
  rw [framed] at hp
  split at hp
  · rename_i hfits
    exact ⟨hfits, Option.some.inj hp⟩
  · cases hp

theorem packHead_length_pos (h : Head) : 0 < (packHead h).length := by
  cases h <;> simp only [packHead] <;> (try split_ifs) <;> simp [tag]

/-- Reading behind a head that was framed. -/
theorem unpack_framed (hp : framed h body = some bs) :
    readHead (bs ++ rest) = some (h, body ++ rest) := by
  obtain ⟨hfits, rfl⟩ := framed_eq_some hp
  rw [List.append_assoc, readHead_packHead hfits]

theorem framed_length (hp : framed h body = some bs) : body.length < bs.length := by
  obtain ⟨-, rfl⟩ := framed_eq_some hp
  have := packHead_length_pos h
  rw [List.length_append]
  omega

section
variable (ih : ∀ {o bs rest}, pack o = some bs → bs.length ≤ fuel →
  unpack fuel (bs ++ rest) = some (o, rest))

include ih

theorem readMany_packAll {xs : List Obj} (hp : packAll xs = some bs) (hfuel : bs.length ≤ fuel) :
    readMany (unpack fuel) xs.length (bs ++ rest) = some (xs, rest) := by
  induction xs generalizing bs with
  | nil =>
    cases hp
    rfl
  | cons x xs ihx =>
    rw [packAll, Option.bind_eq_some_iff] at hp
    obtain ⟨a, ha, hp⟩ := hp
    obtain ⟨b, hb, rfl⟩ := Option.map_eq_some_iff.mp hp
    rw [List.length_append] at hfuel
    rw [List.length_cons, readMany, Reader.bind_apply, List.append_assoc, ih ha (by omega),
      Option.bind_some, Reader.bind_apply, ihx hb (by omega)]
    rfl

theorem readPair_pack {k v : Obj} {a b : List Byte} (ha : pack k = some a) (hb : pack v = some b)
    (hfuel : a.length + b.length ≤ fuel) :
    readPair (unpack fuel) (a ++ b ++ rest) = some ((k, v), rest) := by
  rw [readPair, Reader.bind_apply, List.append_assoc, ih ha (by omega), Option.bind_some,
    Reader.bind_apply, ih hb (by omega)]
  rfl

theorem readMany_packPairs {kvs : List (Obj × Obj)} (hp : packPairs kvs = some bs)
    (hfuel : bs.length ≤ fuel) :
    readMany (readPair (unpack fuel)) kvs.length (bs ++ rest) = some (kvs, rest) := by
  induction kvs generalizing bs with
  | nil =>
    cases hp
    rfl
  | cons kv kvs ihx =>
    obtain ⟨k, v⟩ := kv
    rw [packPairs, Option.bind_eq_some_iff] at hp
    obtain ⟨a, ha, hp⟩ := hp
    obtain ⟨b, hb, hp⟩ := Option.bind_eq_some_iff.mp hp
    obtain ⟨c, hc, rfl⟩ := Option.map_eq_some_iff.mp hp
    simp only [List.length_append] at hfuel
    rw [List.length_cons, readMany, Reader.bind_apply, List.append_assoc (a ++ b),
      readPair_pack ih ha hb (by omega), Option.bind_some, Reader.bind_apply, ihx hc (by omega)]
    rfl

end

theorem pack_length_pos (hp : pack o = some bs) : 0 < bs.length := by
  have hframed : ∃ body, framed o.head body = some bs := by
    cases o with
    | array xs =>
      rw [pack, Option.bind_eq_some_iff] at hp
      obtain ⟨body, -, hp⟩ := hp
      exact ⟨body, hp⟩
    | map kvs =>
      rw [pack, Option.bind_eq_some_iff] at hp
      obtain ⟨body, -, hp⟩ := hp
      exact ⟨body, hp⟩
    | _ =>
      rw [pack] at hp
      exact ⟨_, hp⟩
  obtain ⟨body, hframed⟩ := hframed
  exact Nat.zero_lt_of_lt (framed_length hframed)

/-- What was encoded is read back, and nothing else is consumed. -/
theorem unpack_pack (hp : pack o = some bs) (hfuel : bs.length ≤ fuel) :
    unpack fuel (bs ++ rest) = some (o, rest) := by
  induction fuel generalizing o bs rest with
  | zero => exact absurd (pack_length_pos hp) (by omega)
  | succ fuel ih =>
    rw [unpack, Reader.bind_apply]
    cases o with
    | array xs =>
      rw [pack, Option.bind_eq_some_iff] at hp
      obtain ⟨body, hbody, hp⟩ := hp
      have hlen := framed_length hp
      rw [unpack_framed hp, Option.bind_some, unpackBody, Reader.map_apply,
        readMany_packAll ih hbody (by omega)]
      rfl
    | map kvs =>
      rw [pack, Option.bind_eq_some_iff] at hp
      obtain ⟨body, hbody, hp⟩ := hp
      have hlen := framed_length hp
      rw [unpack_framed hp, Option.bind_some, unpackBody, Reader.map_apply,
        readMany_packPairs ih hbody (by omega)]
      rfl
    | str bs =>
      rw [pack] at hp
      rw [unpack_framed hp, Option.bind_some, unpackBody, Reader.map_apply,
        readBytes_append rfl]
      rfl
    | bin bs =>
      rw [pack] at hp
      rw [unpack_framed hp, Option.bind_some, unpackBody, Reader.map_apply,
        readBytes_append rfl]
      rfl
    | ext type bs =>
      rw [pack] at hp
      rw [unpack_framed hp, Option.bind_some, unpackBody, Reader.map_apply,
        readBytes_append rfl]
      rfl
    | _ =>
      rw [pack] at hp
      rw [unpack_framed hp]
      rfl

end HwGam.Lib.Msgpack
