import HwGam.Slabs.Safety

/-!
# Size classes

`slabs_init` for any growth factor above one and any chunk size, and the alignment of what
`sb_aligned_malloc` returns. The class table has room for the indices up to POWER_LARGEST; a size
that starts a new block takes two of them.
-/

namespace HwGam.Slabs

open HwGam.Lib

/-- A growth factor `num / den` above one. -/
structure Factor where
  num : Nat
  den : Nat
  den_pos : 0 < den
  gt_one : den < num

namespace Factor

variable (f : Factor)

/-- `size *= factor` -/
def grow (size : Nat) : Nat := size * f.num / f.den

/-- `size <= item_size_max / factor` -/
def Room (size : Nat) : Prop := size * f.num ≤ itemSizeMax * f.den

instance (size : Nat) : Decidable (f.Room size) := inferInstanceAs (Decidable (_ ≤ _))

end Factor

/-- Items are always aligned to CHUNK_ALIGN_BYTES. -/
def alignChunk (size : Nat) : Nat :=
  if size % chunkAlign ≠ 0 then size + (chunkAlign - size % chunkAlign) else size

/-- The size is beyond the block of the one before, and not at the start of a block. -/
def Crosses (preSize size : Nat) : Prop :=
  preSize / blockSize < size / blockSize ∧ size % blockSize ≠ 0

instance (preSize size : Nat) : Decidable (Crosses preSize size) := inferInstanceAs (Decidable (_ ∧ _))

/-- The loop of `slabs_init` from class `i` on; `none` is a division by zero. -/
def classSizesBy (f : Factor) : Nat → Nat → Nat → Nat → Option (List Nat)
  | 0, _, _, _ => some []
  | fuel + 1, i, size, preSize =>
    if i < maxClasses ∧ f.Room size then
      let size := alignChunk size
      if size = 0 then none
      else if Crosses preSize size then
        (classSizesBy f fuel (i + 2) (f.grow size) size).map fun l =>
          size / blockSize * blockSize :: size :: l
      else (classSizesBy f fuel (i + 1) (f.grow size) size).map fun l => size :: l
    else some []

/-- `SB_PREFIX_SIZE + chunk_size` as an `unsigned int` -/
def firstSize (chunk : Int) : Nat := (chunk % 2 ^ 32).toNat

/-- The sizes of all classes, from class 1 on. -/
def sizesBy (f : Factor) (chunk : Int) : Option (List Nat) :=
  (classSizesBy f maxClasses 1 (firstSize chunk) (firstSize chunk)).map fun l => l ++ [itemSizeMax]

/-- `slabclass[id]` -/
def initClassBy (table : List Nat) (id : Nat) : SlabClass :=
  match id with
  | 0 => {}
  | n + 1 => match table[n]? with
    | some size => { size, perslab := itemSizeMax / size }
    | none => {}

/-- `slabs_init` with a class table, before the preallocation. -/
def SlabAllocator.emptyBy (table : List Nat) (base limit malloced : Nat) : SlabAllocator where
  slabclass := initClassBy table
  powerLargest := table.length
  memLimit := limit
  memMalloced := malloced
  memBase := base
  memCurrent := base
  memAvail := if base = 0 then 0 else limit
  memFree := limit

/-- `slabs_init` with a class table. -/
def slabsInitBy (table : List Nat) (base limit malloced : Nat) : Option SlabAllocator :=
  (SlabAllocator.emptyBy table base limit malloced).slabsPreallocate

theorem slabsInitBy_sizes : slabsInitBy sizes = slabsInit := rfl

/-- The default factor and chunk size. -/
def Factor.default : Factor := ⟨5, 4, by decide, by decide⟩

example : sizesBy Factor.default chunkSize = some sizes := by decide +kernel

/-! ## The class that spills -/

/-- `size` at the test of the loop, the `n`-th time. -/
def sizeAt (f : Factor) (first : Nat) : Nat → Nat
  | 0 => first
  | n + 1 => f.grow (alignChunk (sizeAt f first n))

/-- `pre_size` at the test of the loop, the `n`-th time. -/
def preSizeAt (f : Factor) (first : Nat) : Nat → Nat
  | 0 => first
  | n + 1 => alignChunk (sizeAt f first n)

def CrossesAt (f : Factor) (first n : Nat) : Prop :=
  Crosses (preSizeAt f first n) (alignChunk (sizeAt f first n))

instance (f : Factor) (first n : Nat) : Decidable (CrossesAt f first n) :=
  inferInstanceAs (Decidable (Crosses _ _))

/-- The class of the `n`-th size. -/
def classAt (f : Factor) (first : Nat) : Nat → Nat
  | 0 => 1
  | n + 1 => classAt f first n + if CrossesAt f first n then 2 else 1

/-- A size for the last class but one starts a new block. -/
def Spills (f : Factor) (first : Nat) : Prop :=
  ∃ n, classAt f first n + 1 = maxClasses ∧ f.Room (sizeAt f first n) ∧ CrossesAt f first n

/-! ## The table -/

/-- A class table: its indices, from 1 on, are those of the array; the sizes grow up to a page; and
whole blocks are found in a class of whole blocks. -/
structure Table (table : List Nat) : Prop where
  indices : table.length ≤ maxClasses
  sorted : table.Pairwise (· ≤ ·)
  last : table.getLast? = some itemSizeMax
  blocks : ∀ k, 1 ≤ k → k * blockSize ≤ itemSizeMax →
    ∃ z, table.find? (fun z => k * blockSize ≤ z) = some z ∧ blockSize ∣ z

section
variable {f : Factor} {i size preSize : Nat} {l : List Nat}

theorem le_alignChunk (size : Nat) : size ≤ alignChunk size := by
  unfold alignChunk
  split <;> omega

theorem alignChunk_le {n : Nat} (hn : chunkAlign ∣ n) (h : size ≤ n) : alignChunk size ≤ n := by
  obtain ⟨k, rfl⟩ := hn
  unfold alignChunk chunkAlign at *
  split <;> omega

theorem Factor.le_grow (f : Factor) (size : Nat) : size ≤ f.grow size := by
  rw [Factor.grow, Nat.le_div_iff_mul_le f.den_pos]
  exact Nat.mul_le_mul_left _ f.gt_one.le

theorem Factor.Room.le (h : f.Room size) : size ≤ itemSizeMax := by
  have hle : size * f.den ≤ size * f.num := Nat.mul_le_mul_left _ f.gt_one.le
  exact Nat.le_of_mul_le_mul_right (Nat.le_trans hle h) f.den_pos

theorem Factor.Room.mono {size' : Nat} (h : f.Room size') (hle : size ≤ size') : f.Room size :=
  Nat.le_trans (Nat.mul_le_mul_right _ hle) h

/-- A size that starts a new block is not below the block before. -/
theorem Crosses.lt (h : Crosses preSize size) : preSize < size / blockSize * blockSize := by
  have := h.1
  unfold blockSize at *
  omega

/-- The sizes the loop writes from class `i` on. -/
inductive Filled (f : Factor) : Nat → Nat → Nat → List Nat → Prop
  | stop {i size preSize : Nat} (h : ¬ (i < maxClasses ∧ f.Room size)) : Filled f i size preSize []
  | two {i size preSize : Nat} {l : List Nat} (hi : i < maxClasses) (hr : f.Room size)
      (hc : Crosses preSize (alignChunk size))
      (hl : Filled f (i + 2) (f.grow (alignChunk size)) (alignChunk size) l) :
      Filled f i size preSize (alignChunk size / blockSize * blockSize :: alignChunk size :: l)
  | one {i size preSize : Nat} {l : List Nat} (hi : i < maxClasses) (hr : f.Room size)
      (hc : ¬ Crosses preSize (alignChunk size))
      (hl : Filled f (i + 1) (f.grow (alignChunk size)) (alignChunk size) l) :
      Filled f i size preSize (alignChunk size :: l)

/-- The loop ends, with a size above zero. -/
theorem exists_filled (f : Factor) (fuel i preSize : Nat) (hsize : size ≠ 0)
    (hfuel : maxClasses ≤ i + fuel) :
    ∃ l, classSizesBy f fuel i size preSize = some l ∧ Filled f i size preSize l := by
  induction fuel generalizing i size preSize with
  | zero => exact ⟨[], rfl, .stop (by omega)⟩
  | succ fuel ih =>
    by_cases h : i < maxClasses ∧ f.Room size
    · have hpos : alignChunk size ≠ 0 := by
        have := le_alignChunk size
        omega
      have hgrow : f.grow (alignChunk size) ≠ 0 := by
        have := f.le_grow (alignChunk size)
        omega
      by_cases hc : Crosses preSize (alignChunk size)
      · obtain ⟨l, hl, hf⟩ := ih (i + 2) (alignChunk size) hgrow (by omega)
        refine ⟨_, ?_, .two h.1 h.2 hc hf⟩
        simp only [classSizesBy, if_pos h, if_neg hpos, if_pos hc, hl, Option.map_some]
      · obtain ⟨l, hl, hf⟩ := ih (i + 1) (alignChunk size) hgrow (by omega)
        refine ⟨_, ?_, .one h.1 h.2 hc hf⟩
        simp only [classSizesBy, if_pos h, if_neg hpos, if_neg hc, hl, Option.map_some]
    · refine ⟨[], ?_, .stop h⟩
      simp only [classSizesBy, if_neg h]

/-- The sizes grow, from the one before and up to a page. -/
theorem Filled.sorted (h : Filled f i size preSize l) (hle : preSize ≤ size) :
    (∀ z ∈ l, preSize ≤ z ∧ z ≤ itemSizeMax) ∧ l.Pairwise (· ≤ ·) := by
  induction h with
  | stop _ => exact ⟨by simp, .nil⟩
  | two hi hr hc hl ih =>
    rename_i i size preSize l
    obtain ⟨hbound, hsorted⟩ := ih (f.le_grow _)
    have hpage : alignChunk size ≤ itemSizeMax := alignChunk_le (by decide) hr.le
    have hlt := hc.lt
    have hblock : alignChunk size / blockSize * blockSize ≤ alignChunk size := Nat.div_mul_le_self _ _
    constructor
    · intro z hz
      rcases List.mem_cons.1 hz with rfl | hz
      · omega
      · rcases List.mem_cons.1 hz with rfl | hz
        · omega
        · have := hbound z hz
          omega
    · refine .cons ?_ (.cons (fun z hz => (hbound z hz).1) hsorted)
      intro z hz
      rcases List.mem_cons.1 hz with rfl | hz
      · exact hblock
      · have := hbound z hz
        omega
  | one hi hr hc hl ih =>
    rename_i i size preSize l
    obtain ⟨hbound, hsorted⟩ := ih (f.le_grow _)
    have hpage : alignChunk size ≤ itemSizeMax := alignChunk_le (by decide) hr.le
    have hge := le_alignChunk size
    constructor
    · intro z hz
      rcases List.mem_cons.1 hz with rfl | hz
      · omega
      · have := hbound z hz
        omega
    · exact .cons (fun z hz => (hbound z hz).1) hsorted

/-- Blocks beyond the one of the size before are found in a class of whole blocks. -/
theorem Filled.find (h : Filled f i size preSize l) (hle : preSize ≤ size) {k : Nat}
    (hk : preSize / blockSize < k) (hmax : k * blockSize ≤ itemSizeMax) :
    ∃ z, (l ++ [itemSizeMax]).find? (fun z => k * blockSize ≤ z) = some z ∧ blockSize ∣ z := by
  induction h with
  | stop _ => exact ⟨itemSizeMax, by simp [hmax], by decide⟩
  | two hi hr hc hl ih =>
    rename_i i size preSize l
    by_cases hfit : k * blockSize ≤ alignChunk size / blockSize * blockSize
    · exact ⟨alignChunk size / blockSize * blockSize, by simp [hfit], Nat.dvd_mul_left _ _⟩
    · have hskip : ¬ k * blockSize ≤ alignChunk size := by
        unfold blockSize at *
        omega
      obtain ⟨z, hz, hdvd⟩ := ih (f.le_grow _) (by unfold blockSize at *; omega)
      exact ⟨z, by simpa [hfit, hskip] using hz, hdvd⟩
  | one hi hr hc hl ih =>
    rename_i i size preSize l
    by_cases hfit : k * blockSize ≤ alignChunk size
    · refine ⟨alignChunk size, by simp [hfit], Nat.dvd_of_mod_eq_zero ?_⟩
      by_contra hmod
      refine hc ⟨?_, hmod⟩
      unfold blockSize at *
      omega
    · obtain ⟨z, hz, hdvd⟩ := ih (f.le_grow _) (by unfold blockSize at *; omega)
      exact ⟨z, by simpa [hfit] using hz, hdvd⟩

/-! ## Indices -/

theorem sizeAt_le_succ (f : Factor) (first n : Nat) : sizeAt f first n ≤ sizeAt f first (n + 1) :=
  (le_alignChunk _).trans (f.le_grow _)

theorem sizeAt_mono (f : Factor) (first : Nat) : Monotone (sizeAt f first) :=
  monotone_nat_of_le_succ (sizeAt_le_succ f first)

theorem classAt_mono (f : Factor) (first : Nat) : Monotone (classAt f first) :=
  monotone_nat_of_le_succ fun n => by
    rw [classAt]
    omega

/-- A size at which the loop spills, from the `n`-th on. -/
def SpillsFrom (f : Factor) (first n : Nat) : Prop :=
  ∃ m ≥ n, classAt f first m + 1 = maxClasses ∧ f.Room (sizeAt f first m) ∧ CrossesAt f first m

theorem spillsFrom_succ {first n : Nat} (hn : ¬ (classAt f first n + 1 = maxClasses ∧
    f.Room (sizeAt f first n) ∧ CrossesAt f first n)) :
    SpillsFrom f first n ↔ SpillsFrom f first (n + 1) := by
  constructor
  · rintro ⟨m, hm, h⟩
    rcases Nat.lt_or_eq_of_le hm with hlt | rfl
    · exact ⟨m, hlt, h⟩
    · exact absurd h hn
  · rintro ⟨m, hm, h⟩
    exact ⟨m, by omega, h⟩

/-- From the `n`-th size on, the index of the last class is in the array if no size spills. -/
theorem Filled.length_iff {first n : Nat} (h : Filled f i size preSize l)
    (hi : i = classAt f first n) (hs : size = sizeAt f first n) (hp : preSize = preSizeAt f first n)
    (hn : i ≤ maxClasses) : i + l.length ≤ maxClasses ↔ ¬ SpillsFrom f first n := by
  induction h generalizing n with
  | stop hstop =>
    refine ⟨?_, fun _ => hn⟩
    rintro _ ⟨m, hm, hclass, hroom, -⟩
    have hle := classAt_mono f first hm
    refine hstop ⟨by omega, ?_⟩
    rw [hs]
    exact hroom.mono (sizeAt_mono f first hm)
  | two hlt hr hc hl ih =>
    rename_i i size preSize l
    have hcross : CrossesAt f first n := by
      rw [CrossesAt, ← hs, ← hp]
      exact hc
    have hnext : i + 2 = classAt f first (n + 1) := by rw [classAt, if_pos hcross, hi]
    by_cases hlast : i + 1 = maxClasses
    · constructor
      · intro hle
        simp only [List.length_cons] at hle
        omega
      · intro hno
        exact absurd ⟨n, le_rfl, by omega, hs ▸ hr, hcross⟩ hno
    · rw [spillsFrom_succ (by omega), ← ih hnext (by rw [sizeAt, hs]) (by rw [preSizeAt, hs]) (by omega)]
      simp only [List.length_cons]
      omega
  | one hlt hr hc hl ih =>
    rename_i i size preSize l
    have hcross : ¬ CrossesAt f first n := by
      rw [CrossesAt, ← hs, ← hp]
      exact hc
    have hnext : i + 1 = classAt f first (n + 1) := by rw [classAt, if_neg hcross, hi]
    rw [spillsFrom_succ fun h => hcross h.2.2,
      ← ih hnext (by rw [sizeAt, hs]) (by rw [preSizeAt, hs]) (by omega)]
    simp only [List.length_cons]
    omega

theorem spillsFrom_zero {first : Nat} : SpillsFrom f first 0 ↔ Spills f first := by
  constructor
  · rintro ⟨m, -, h⟩
    exact ⟨m, h⟩
  · rintro ⟨m, h⟩
    exact ⟨m, Nat.zero_le m, h⟩

theorem firstSize_eq {chunk : Int} (hlo : 0 ≤ chunk) (hhi : chunk < blockSize) :
    firstSize chunk = chunk.toNat := by
  rw [firstSize, Int.emod_eq_of_lt hlo (by unfold blockSize at hhi; omega)]

/-- A size beyond a page stops the loop at once. -/
theorem Filled.nil_of_lt (h : Filled f i size preSize l) (hsize : itemSizeMax < size) : l = [] := by
  cases h with
  | stop _ => rfl
  | two _ hr =>
    have := hr.le
    omega
  | one _ hr =>
    have := hr.le
    omega

/-- The table has all that is asked of it if its indices are those of the array. -/
theorem exists_table (f : Factor) {chunk : Int} (hlo : -2 ^ 31 ≤ chunk) (hhi : chunk < blockSize)
    (h0 : chunk ≠ 0) :
    ∃ table, sizesBy f chunk = some table ∧ (∀ z ∈ table, z ≠ 0) ∧
      (Table table ↔ ¬ Spills f (firstSize chunk)) := by
  have hne : firstSize chunk ≠ 0 := by
    unfold firstSize
    unfold blockSize at hhi
    omega
  obtain ⟨l, hl, hf⟩ := exists_filled f maxClasses 1 (firstSize chunk) hne (by omega)
  obtain ⟨hbound, hsorted⟩ := hf.sorted le_rfl
  have hlen : 1 + l.length ≤ maxClasses ↔ ¬ Spills f (firstSize chunk) := by
    rw [← spillsFrom_zero]
    exact hf.length_iff (n := 0) rfl rfl rfl (by decide)
  refine ⟨l ++ [itemSizeMax], by rw [sizesBy, hl, Option.map_some], ?_, ?_, ?_⟩
  · intro z hz
    rcases List.mem_append.1 hz with hz | hz
    · have := hbound z hz
      omega
    · rw [List.mem_singleton.1 hz]
      decide
  · intro ht
    rw [← hlen]
    have := ht.indices
    simp only [List.length_append, List.length_singleton] at this
    omega
  · intro hno
    constructor
    case indices =>
      rw [← hlen] at hno
      simp only [List.length_append, List.length_singleton]
      omega
    case sorted =>
      refine List.pairwise_append.2 ⟨hsorted, List.pairwise_singleton _ _, fun z hz m hm => ?_⟩
      rw [List.mem_singleton.1 hm]
      exact (hbound z hz).2
    case last => simp
    case blocks =>
      intro k hk hmax
      rcases lt_or_ge chunk 0 with hneg | hpos
      · -- as an unsigned value the size is beyond every page
        have hbig : itemSizeMax < firstSize chunk := by
          unfold itemSizeMax firstSize
          omega
        rw [hf.nil_of_lt hbig]
        exact ⟨itemSizeMax, by simp [hmax], by decide⟩
      · refine hf.find le_rfl ?_ hmax
        rw [firstSize_eq hpos hhi]
        unfold blockSize at *
        omega

/-! ## Alignment -/

/-- The class found for a size is the first that is large enough. -/
theorem clsidFrom_find {s : SlabAllocator} {n k res : Nat} {table : List Nat}
    (hsize : ∀ j ≤ k, table[j]? = some (s.slabclass (res + j)).size)
    (hid : s.clsidFrom n k res ≠ 0) :
    table.find? (fun z => n ≤ z) = some (s.slabclass (s.clsidFrom n k res)).size := by
  induction k generalizing res table with
  | zero =>
    have h0 := hsize 0 le_rfl
    cases table with
    | nil => simp at h0
    | cons z table =>
      obtain rfl : z = (s.slabclass res).size := by simpa using h0
      rw [SlabAllocator.clsidFrom] at hid ⊢
      by_cases hn : n > (s.slabclass res).size
      · exact absurd (if_pos hn) hid
      · rw [if_neg hn, List.find?_cons_of_pos (by simpa using hn)]
  | succ k ih =>
    have h0 := hsize 0 (Nat.zero_le _)
    cases table with
    | nil => simp at h0
    | cons z table =>
      obtain rfl : z = (s.slabclass res).size := by simpa using h0
      rw [SlabAllocator.clsidFrom] at hid ⊢
      by_cases hn : n > (s.slabclass res).size
      · rw [if_pos hn] at hid ⊢
        rw [List.find?_cons_of_neg (by simpa using hn)]
        refine ih (fun j hj => ?_) hid
        have := hsize (j + 1) (by omega)
        rwa [List.getElem?_cons_succ, Nat.add_comm j 1, ← Nat.add_assoc] at this
      · rw [if_neg hn, List.find?_cons_of_pos (by simpa using hn)]

/-- The chunks known so far, each with the class `own` it was cut for: every link stays in a class,
and a class of whole blocks has aligned chunks only. -/
structure Placed (table : List Nat) (own : Nat → Nat) (s : SlabAllocator) : Prop where
  classes : s.powerLargest = table.length
  size : ∀ c, (s.slabclass c).size = (initClassBy table c).size
  perslab : ∀ c, (s.slabclass c).perslab = (initClassBy table c).perslab
  slots : ∀ c p, (s.slabclass c).slots = some p → (s.statsMap p).isSome = true ∧ own p = c
  next : ∀ a it q, s.statsMap a = some it → it.next = some q →
    (s.statsMap q).isSome = true ∧ own q = own a
  clsid : ∀ a it, s.statsMap a = some it → it.slabsClsid = 0 ∨ it.slabsClsid = own a
  aligned : ∀ a, (s.statsMap a).isSome = true → blockSize ∣ (initClassBy table (own a)).size →
    blockSize ∣ a

/-- No chunk is known from `memCurrent` on. -/
structure Placed.Room (table : List Nat) (own : Nat → Nat) (s : SlabAllocator) : Prop extends
    Placed table own s where
  current : blockSize ∣ s.memCurrent
  fresh : ∀ a, s.memCurrent ≤ a → s.statsMap a = none

section
variable {table : List Nat} {own : Nat → Nat} {s s' : SlabAllocator} {ptr n id : Nat} {it : Item}

/-- An item is known to be in the class of the chunk, and changes within it. -/
theorem Placed.setItem (h : Placed table own s) (hnext : ∀ q, it.next = some q →
    (s.statsMap q).isSome = true ∧ own q = own ptr)
    (hcls : it.slabsClsid = 0 ∨ it.slabsClsid = own ptr)
    (halign : blockSize ∣ (initClassBy table (own ptr)).size → blockSize ∣ ptr) :
    Placed table own (s.setItem ptr it) := by
  have hsome : ∀ q, (s.statsMap q).isSome = true → ((s.setItem ptr it).statsMap q).isSome = true := by
    intro q hq
    by_cases hqp : q = ptr
    · simp [SlabAllocator.setItem, hqp]
    · simpa [SlabAllocator.setItem, hqp] using hq
  have hget : ∀ a x, (s.setItem ptr it).statsMap a = some x →
      (a = ptr ∧ x = it) ∨ (a ≠ ptr ∧ s.statsMap a = some x) := by
    intro a x hx
    by_cases ha : a = ptr
    · subst ha
      exact .inl ⟨rfl, by simpa [SlabAllocator.setItem, eq_comm] using hx⟩
    · exact .inr ⟨ha, by simpa [SlabAllocator.setItem, ha] using hx⟩
  constructor
  case classes => exact h.classes
  case size => exact h.size
  case perslab => exact h.perslab
  case slots =>
    intro c p hp
    obtain ⟨h1, h2⟩ := h.slots c p hp
    exact ⟨hsome p h1, h2⟩
  case next =>
    intro a x q hx hq
    rcases hget a x hx with ⟨rfl, rfl⟩ | ⟨-, hx⟩
    · obtain ⟨h1, h2⟩ := hnext q hq
      exact ⟨hsome q h1, h2⟩
    · obtain ⟨h1, h2⟩ := h.next a x q hx hq
      exact ⟨hsome q h1, h2⟩
  case clsid =>
    intro a x hx
    rcases hget a x hx with ⟨rfl, rfl⟩ | ⟨-, hx⟩
    · exact hcls
    · exact h.clsid a x hx
  case aligned =>
    intro a ha hdvd
    obtain ⟨x, hx⟩ := Option.isSome_iff_exists.1 ha
    rcases hget a x hx with ⟨rfl, -⟩ | ⟨-, hx⟩
    · exact halign hdvd
    · exact h.aligned a (by rw [hx]; rfl) hdvd

/-- A class changes its list within its chunks. -/
theorem Placed.setClass {p : SlabClass} (h : Placed table own s)
    (hsize : p.size = (s.slabclass id).size) (hper : p.perslab = (s.slabclass id).perslab)
    (hslots : ∀ q, p.slots = some q → (s.statsMap q).isSome = true ∧ own q = id) :
    Placed table own (s.setClass id p) := by
  refine ⟨h.classes, fun c => ?_, fun c => ?_, fun c q hq => ?_, h.next, h.clsid, h.aligned⟩
  · by_cases hc : c = id
    · subst hc
      simpa [SlabAllocator.setClass, hsize] using h.size c
    · simpa [SlabAllocator.setClass, hc] using h.size c
  · by_cases hc : c = id
    · subst hc
      simpa [SlabAllocator.setClass, hper] using h.perslab c
    · simpa [SlabAllocator.setClass, hc] using h.perslab c
  · by_cases hc : c = id
    · subst hc
      exact hslots q (by simpa [SlabAllocator.setClass] using hq)
    · exact h.slots c q (by simpa [SlabAllocator.setClass, hc] using hq)

/-- A chunk that is not known yet is given to a class. -/
theorem Placed.give (h : Placed table own s) (hnew : s.statsMap ptr = none) (id : Nat) :
    Placed table (Function.update own ptr id) s := by
  have hown : ∀ a, (s.statsMap a).isSome = true → Function.update own ptr id a = own a := by
    intro a ha
    refine Function.update_of_ne ?_ _ _
    rintro rfl
    simp [hnew] at ha
  refine ⟨h.classes, h.size, h.perslab, fun c p hp => ?_, fun a x q hx hq => ?_, fun a x hx => ?_,
    fun a ha hdvd => ?_⟩
  · obtain ⟨h1, h2⟩ := h.slots c p hp
    exact ⟨h1, (hown p h1).trans h2⟩
  · obtain ⟨h1, h2⟩ := h.next a x q hx hq
    refine ⟨h1, ?_⟩
    rw [hown q h1, hown a (by rw [hx]; rfl), h2]
  · rw [hown a (by rw [hx]; rfl)]
    exact h.clsid a x hx
  · rw [hown a ha] at hdvd
    exact h.aligned a ha hdvd

/-- A chunk goes to the list of its class; nothing but its item and the list changes. -/
theorem Placed.doSlabsFree (h : Placed table own s) (n : Nat) (hown : own ptr = id)
    (hcls : ((s.statsMap ptr).getD {}).slabsClsid = 0 ∨ ((s.statsMap ptr).getD {}).slabsClsid = id)
    (halign : blockSize ∣ (initClassBy table id).size → blockSize ∣ ptr) :
    Placed table own (s.doSlabsFree ptr n id) ∧
      (s.doSlabsFree ptr n id).memCurrent = s.memCurrent ∧
      ∀ a, a ≠ ptr → (s.doSlabsFree ptr n id).statsMap a = s.statsMap a := by
  rw [SlabAllocator.doSlabsFree]
  split
  · exact ⟨h, rfl, fun _ _ => rfl⟩
  · have h₁ : Placed table own
        (s.setItem ptr { (s.statsMap ptr).getD {} with next := (s.slabclass id).slots }) := by
      refine h.setItem (fun q hq => ?_) ?_ ?_
      · rw [hown]
        exact h.slots id q hq
      · rw [hown]
        exact hcls
      · rw [hown]
        exact halign
    have h₂ : Placed table own
        ((s.setItem ptr { (s.statsMap ptr).getD {} with next := (s.slabclass id).slots }).setClass id
          { s.slabclass id with
            slots := some ptr, slCurr := ((s.slabclass id).slCurr + 1) % 2 ^ 32 }) := by
      refine h₁.setClass rfl rfl fun q hq => ?_
      obtain rfl : ptr = q := by simpa using hq
      exact ⟨by simp [SlabAllocator.setItem], hown⟩
    have hmap : ∀ a, a ≠ ptr → (s.setItem ptr { (s.statsMap ptr).getD {} with
        next := (s.slabclass id).slots }).statsMap a = s.statsMap a := by
      intro a ha
      simp [SlabAllocator.setItem, ha]
    dsimp only
    split
    · exact ⟨⟨h₂.classes, h₂.size, h₂.perslab, h₂.slots, h₂.next, h₂.clsid, h₂.aligned⟩, rfl, hmap⟩
    · exact ⟨h₂, rfl, hmap⟩

/-- A page is cut for a class, from `ptr` on. -/
theorem Placed.split (h : Placed table own s) (ptr n : Nat) (hpos : 0 < (initClassBy table id).size)
    (hnew : ∀ a, ptr ≤ a → s.statsMap a = none)
    (halign : blockSize ∣ (initClassBy table id).size → blockSize ∣ ptr) :
    (∃ own', Placed table own' (SlabAllocator.splitSlabPage id n ptr s)) ∧
      (SlabAllocator.splitSlabPage id n ptr s).memCurrent = s.memCurrent ∧
      ∀ a, ptr + n * (initClassBy table id).size ≤ a →
        (SlabAllocator.splitSlabPage id n ptr s).statsMap a = none := by
  induction n generalizing ptr s own with
  | zero => exact ⟨⟨own, h⟩, rfl, fun a ha => hnew a (by omega)⟩
  | succ n ih =>
    have hz := hnew ptr le_rfl
    obtain ⟨h₁, hcur, hmap⟩ := (h.give hz id).doSlabsFree 0 (Function.update_self ..)
      (.inl (by rw [hz]; rfl)) halign
    rw [SlabAllocator.splitSlabPage, h.size]
    obtain ⟨h₂, hcur₂, hnone⟩ := ih h₁ (ptr + (initClassBy table id).size)
      (fun a ha => (hmap a (by omega)).trans (hnew a (by omega)))
      (fun hdvd => Nat.dvd_add (halign hdvd) hdvd)
    refine ⟨h₂, hcur₂.trans hcur, fun a ha => hnone a ?_⟩
    rw [Nat.succ_mul] at ha
    omega

theorem initClassBy_perslab_mul_le (table : List Nat) (c : Nat) :
    (initClassBy table c).perslab * (initClassBy table c).size ≤ itemSizeMax := by
  unfold initClassBy
  split
  · simp
  · split
    · exact Nat.div_mul_le_self _ _
    · simp

/-- A page is a whole number of blocks. -/
theorem Placed.Room.newslab (h : Placed.Room table own s) (hpos : 0 < (initClassBy table id).size)
    (hs : s.doSlabsNewslab id = some s') : ∃ own', Placed.Room table own' s' := by
  rw [SlabAllocator.doSlabsNewslab] at hs
  obtain ⟨-, hs⟩ := Option.ite_none_left_eq_some.1 hs
  obtain ⟨⟨ptr, s₁⟩, hmem, rfl⟩ := Option.map_eq_some_iff.1 hs
  obtain ⟨-, -, rfl, hs₁⟩ := memoryAllocate_page hmem
  have h₁ : Placed table own s₁ := by
    rw [hs₁]
    exact ⟨h.classes, h.size, h.perslab, h.slots, h.next, h.clsid, h.aligned⟩
  have hcur₁ : s₁.memCurrent = s.memCurrent + itemSizeMax := by rw [hs₁]
  obtain ⟨⟨own', h₂⟩, hcur, hnone⟩ := h₁.split s.memCurrent (s.slabclass id).perslab hpos
    (by rw [hs₁]; exact h.fresh) (fun _ => h.current)
  dsimp only
  generalize SlabAllocator.splitSlabPage id (s.slabclass id).perslab s.memCurrent s₁ = t at *
  have h₃ : Placed table own' (t.setClass id { t.slabclass id with
      slabList := (t.slabclass id).slabList ++ [s.memCurrent] }) :=
    h₂.setClass rfl rfl (h₂.slots id)
  refine ⟨own', ⟨h₃.classes, h₃.size, h₃.perslab, h₃.slots, h₃.next, h₃.clsid, h₃.aligned⟩, ?_, ?_⟩
  · change blockSize ∣ t.memCurrent
    rw [hcur, hcur₁]
    exact Nat.dvd_add h.current (by decide)
  · intro a ha
    change t.memCurrent ≤ a at ha
    refine hnone a ?_
    have hle := initClassBy_perslab_mul_le table id
    have hper := h.perslab id
    rw [hper]
    omega

theorem initClassBy_pos (hz : ∀ z ∈ table, z ≠ 0) {id : Nat} (h1 : 1 ≤ id) (hid : id ≤ table.length) :
    0 < (initClassBy table id).size := by
  obtain ⟨m, rfl⟩ := Nat.exists_eq_add_of_le' h1
  have hlt : m < table.length := by omega
  simp only [initClassBy, List.getElem?_eq_getElem hlt]
  exact Nat.pos_of_ne_zero (hz _ (List.getElem_mem hlt))

/-- The chunk taken from a list is one of the class. -/
theorem Placed.Room.takeSlot (h : Placed.Room table own s) (size id : Nat) :
    Placed.Room table own (s.takeSlot size id).2 ∧ ∀ p, (s.takeSlot size id).1 = some p →
      blockSize ∣ (initClassBy table id).size → blockSize ∣ p := by
  cases hslots : (s.slabclass id).slots with
  | none => simpa [SlabAllocator.takeSlot, hslots] using h
  | some ptr =>
    obtain ⟨hsome, hown⟩ := h.slots id ptr hslots
    obtain ⟨it, hit⟩ := Option.isSome_iff_exists.1 hsome
    have halign : blockSize ∣ (initClassBy table id).size → blockSize ∣ ptr := by
      intro hdvd
      exact h.aligned ptr hsome (hown.symm ▸ hdvd)
    have h₁ : Placed table own (s.setItem ptr { it with size := size, slabsClsid := id }) :=
      h.setItem (fun q hq => h.next ptr it q hit hq) (.inr hown.symm) (hown.symm ▸ halign)
    have h₂ : Placed table own ((s.setItem ptr { it with size := size, slabsClsid := id }).setClass id
        { s.slabclass id with slots := it.next, slCurr := (s.slabclass id).slCurr - 1 }) := by
      refine h₁.setClass rfl rfl fun q hq => ?_
      obtain ⟨hq₁, hq₂⟩ := h.next ptr it q hit hq
      refine ⟨?_, hq₂.trans hown⟩
      by_cases hqp : q = ptr
      · simp [SlabAllocator.setItem, hqp]
      · simpa [SlabAllocator.setItem, hqp] using hq₁
    simp only [SlabAllocator.takeSlot, hslots, hit, Option.getD_some, Option.some.injEq]
    refine ⟨⟨⟨h₂.classes, h₂.size, h₂.perslab, h₂.slots, h₂.next, h₂.clsid, h₂.aligned⟩, h.current, ?_⟩,
      ?_⟩
    · intro a ha
      have hnone := h.fresh a ha
      have hne : a ≠ ptr := by
        rintro rfl
        simp [hnone] at hsome
      simpa [SlabAllocator.setItem, SlabAllocator.setClass, hne] using hnone
    · rintro p rfl
      exact halign

theorem Placed.Room.doSlabsAlloc (h : Placed.Room table own s) (hz : ∀ z ∈ table, z ≠ 0)
    (size id : Nat) :
    (∃ own', Placed.Room table own' (s.doSlabsAlloc size id).2) ∧
      ∀ p, (s.doSlabsAlloc size id).1 = some p → blockSize ∣ (initClassBy table id).size →
        blockSize ∣ p := by
  unfold SlabAllocator.doSlabsAlloc
  split
  · exact ⟨⟨own, h⟩, by simp⟩
  · rename_i hid
    have hcls := h.classes
    have hpos : 0 < (initClassBy table id).size := initClassBy_pos hz (by omega) (by omega)
    split
    · obtain ⟨h₁, h₂⟩ := h.takeSlot size id
      exact ⟨⟨own, h₁⟩, h₂⟩
    · split
      · exact ⟨⟨own, h⟩, by simp⟩
      · rename_i s₁ hs₁
        obtain ⟨own', h₁⟩ := h.newslab hpos hs₁
        split
        · obtain ⟨h₂, h₃⟩ := h₁.takeSlot size id
          exact ⟨⟨own', h₂⟩, h₃⟩
        · exact ⟨⟨own', h₁⟩, by simp⟩

theorem Placed.Room.sbFree (h : Placed.Room table own s) (hs : s.sbFree ptr = some s') :
    Placed.Room table own s' := by
  obtain ⟨it, hit, rfl⟩ := Option.map_eq_some_iff.1 hs
  have hsome : (s.statsMap ptr).isSome = true := by rw [hit]; rfl
  have h₁ : Placed table own (s.setItem ptr { it with size := 0, slabsClsid := 0 }) :=
    h.setItem (fun q hq => h.next ptr it q hit hq) (.inl rfl) (h.aligned ptr hsome)
  have hmap : ∀ a, a ≠ ptr →
      (s.setItem ptr { it with size := 0, slabsClsid := 0 }).statsMap a = s.statsMap a := by
    intro a ha
    simp [SlabAllocator.setItem, ha]
  have hfresh : ∀ a, s.memCurrent ≤ a → a ≠ ptr := by
    rintro a ha rfl
    simp [h.fresh a ha] at hsome
  rcases h.clsid ptr it hit with hc | hc
  · rw [hc, SlabAllocator.doSlabsFree, if_pos (by omega)]
    refine ⟨h₁, h.current, fun a ha => ?_⟩
    rw [hmap a (hfresh a ha)]
    exact h.fresh a ha
  · obtain ⟨h₂, hcur, hmap₂⟩ := h₁.doSlabsFree it.size hc.symm
      (.inl (by simp [SlabAllocator.setItem])) (hc.symm ▸ h.aligned ptr hsome)
    refine ⟨h₂, by rw [hcur]; exact h.current, fun a ha => ?_⟩
    rw [hcur] at ha
    rw [hmap₂ a (hfresh a ha), hmap a (hfresh a ha)]
    exact h.fresh a ha

theorem Placed.Room.step {h h' : Heap} {c : Call} (hr : Placed.Room table own h.alloc)
    (hz : ∀ z ∈ table, z ≠ 0) (hs : h.step c = some h') : ∃ own', Placed.Room table own' h'.alloc := by
  cases c with
  | malloc size =>
    obtain rfl := Option.some.inj hs
    exact (hr.doSlabsAlloc hz _ _).1
  | alignedMalloc size block =>
    obtain rfl := Option.some.inj hs
    exact (hr.doSlabsAlloc hz _ _).1
  | free ptr =>
    obtain ⟨s', hs', rfl⟩ := Option.map_eq_some_iff.1 hs
    exact ⟨own, hr.sbFree hs'⟩

theorem placed_emptyBy (table : List Nat) {base : Nat} (limit malloced : Nat)
    (hbase : blockSize ∣ base) :
    Placed.Room table (fun _ => 0) (SlabAllocator.emptyBy table base limit malloced) := by
  have hslots : ∀ c, (initClassBy table c).slots = none := by
    intro c
    unfold initClassBy
    split
    · rfl
    · split <;> rfl
  refine ⟨⟨rfl, fun _ => rfl, fun _ => rfl, ?_, ?_, ?_, ?_⟩, hbase, fun _ _ => rfl⟩
  · intro c p hp
    simp [SlabAllocator.emptyBy, hslots] at hp
  all_goals simp [SlabAllocator.emptyBy]

theorem Placed.Room.preallocate {ids : List Nat} (h : Placed.Room table own s)
    (hz : ∀ z ∈ table, z ≠ 0) (hids : ∀ id ∈ ids, 1 ≤ id ∧ id ≤ table.length)
    (hs : ids.foldlM (fun s id => s.doSlabsNewslab id) s = some s') :
    ∃ own', Placed.Room table own' s' := by
  induction ids generalizing s own with
  | nil =>
    obtain rfl : s = s' := by simpa using hs
    exact ⟨own, h⟩
  | cons id ids ih =>
    rw [List.foldlM_cons] at hs
    obtain ⟨s₁, hs₁, hs⟩ := Option.bind_eq_some_iff.1 hs
    obtain ⟨h1, h2⟩ := hids id List.mem_cons_self
    obtain ⟨own', h₁⟩ := h.newslab (initClassBy_pos hz h1 h2) hs₁
    exact ih h₁ (fun j hj => hids j (List.mem_cons_of_mem _ hj)) hs

/-- The size of an aligned request is a number of blocks. -/
theorem blockSize_dvd_align (size : Size) :
    blockSize ∣ (align size (BitVec.ofNat 64 blockSize)).toNat := by
  have hmask : (BitVec.ofNat 64 blockSize - 1).toNat = 2 ^ 9 - 1 := by decide
  have hsplit := mod_add_and_not hmask (size + (BitVec.ofNat 64 blockSize - 1))
  rw [align]
  have : (2 : Nat) ^ 9 = blockSize := by decide
  rw [this] at hsplit
  unfold blockSize at *
  omega

/-- With a region that starts at a block, whatever is allocated aligned is aligned, after any calls. -/
def AlignsBlocks (table : List Nat) : Prop :=
  ∀ base limit malloced s₀, blockSize ∣ base → slabsInitBy table base limit malloced = some s₀ →
    ∀ h, Reaches (fun c h => Heap.step c h) anyStep { alloc := s₀ } h → ∀ size p,
      (h.alloc.sbAlignedMalloc size (BitVec.ofNat 64 blockSize)).1 = some p → blockSize ∣ p

theorem Table.le (ht : Table table) {z : Nat} (hz : z ∈ table) : z ≤ itemSizeMax := by
  obtain ⟨l, rfl⟩ := List.getLast?_eq_some_iff.1 ht.last
  rcases List.mem_append.1 hz with hz | hz
  · exact (List.pairwise_append.1 ht.sorted).2.2 z hz _ (by simp)
  · exact (List.mem_singleton.1 hz).le

/-- The class found is the first of the table that is large enough. -/
theorem Placed.find (h : Placed table own s) (hne : table ≠ []) (hcls : s.slabsClsid n ≠ 0) :
    table.find? (fun z => n ≤ z) = some (s.slabclass (s.slabsClsid n)).size := by
  unfold SlabAllocator.slabsClsid at *
  split at hcls
  · exact absurd rfl hcls
  · rename_i hn
    rw [if_neg hn]
    refine clsidFrom_find (fun j hj => ?_) hcls
    rw [h.size, Nat.add_comm 1 j]
    have hlen : j < table.length := by
      have := h.classes
      have := List.length_pos_iff.2 hne
      omega
    simp only [initClassBy, List.getElem?_eq_getElem hlen]

theorem Table.alignsBlocks (ht : Table table) (hz : ∀ z ∈ table, z ≠ 0) : AlignsBlocks table := by
  intro base limit malloced s₀ hbase hinit h hr size p hp
  have hids : ∀ id ∈ List.range' 1 table.length, 1 ≤ id ∧ id ≤ table.length := by
    intro id hid
    rw [List.mem_range'_1] at hid
    omega
  have hroom : ∃ own, Placed.Room table own h.alloc := by
    refine hr.invariant (I := fun h => ∃ own, Placed.Room table own h.alloc) ?_ ?_
    · exact (placed_emptyBy table limit malloced hbase).preallocate hz hids hinit
    · rintro c t t' ⟨own, ht⟩ - hs
      exact ht.step hz hs
  obtain ⟨own, hroom⟩ := hroom
  rw [SlabAllocator.sbAlignedMalloc] at hp
  have hzero : size + SlabAllocator.prefixSize = size := BitVec.add_zero size
  rw [hzero] at hp
  have hdvd := blockSize_dvd_align size
  generalize (align size (BitVec.ofNat 64 blockSize)).toNat = newsize at hp hdvd
  refine (hroom.doSlabsAlloc hz _ _).2 p hp ?_
  obtain ⟨hne, hcls⟩ := ne_zero_of_alloc (by rw [hp]; simp)
  have hnil : table ≠ [] := by
    rintro rfl
    have := ht.last
    simp at this
  have hfind := hroom.find hnil hcls
  obtain ⟨k, rfl⟩ := hdvd
  rw [Nat.mul_comm] at hne hfind ⊢
  have hpage : k * blockSize ≤ itemSizeMax := by
    refine Nat.le_trans ?_ (ht.le (List.mem_of_find?_eq_some hfind))
    simpa using List.find?_some hfind
  obtain ⟨z, hz', hdvd⟩ := ht.blocks k (Nat.pos_of_ne_zero (by rintro rfl; simp at hne)) hpage
  rw [hz', Option.some.injEq] at hfind
  rw [← hroom.size, ← hfind]
  exact hdvd

end

end

/-- The table is right, and aligned requests with it, if and only if the chunk size is not zero and
no size for the last class but one starts a new block. -/
theorem sizesBy_iff (f : Factor) {chunk : Int} (hlo : -2 ^ 31 ≤ chunk) (hhi : chunk < blockSize) :
    (∃ table, sizesBy f chunk = some table ∧ Table table ∧ AlignsBlocks table) ↔
      chunk ≠ 0 ∧ ¬ Spills f (firstSize chunk) := by
  constructor
  · rintro ⟨table, hsizes, ht, -⟩
    have h0 : chunk ≠ 0 := by
      rintro rfl
      have hnone : sizesBy f 0 = none := by
        have hr : 1 < maxClasses ∧ f.Room 0 := ⟨by decide, by simp [Factor.Room]⟩
        have hfirst : firstSize 0 = 0 := rfl
        have hloop : ∀ fuel, classSizesBy f (fuel + 1) 1 0 0 = none := by
          intro fuel
          simp only [classSizesBy, if_pos hr]
          rfl
        rw [sizesBy, hfirst, show maxClasses = 199 + 1 from rfl, hloop]
        rfl
      rw [hnone] at hsizes
      cases hsizes
    obtain ⟨table', hsizes', -, hiff⟩ := exists_table f hlo hhi h0
    obtain rfl : table = table' := Option.some.inj (hsizes.symm.trans hsizes')
    exact ⟨h0, hiff.1 ht⟩
  · rintro ⟨h0, hno⟩
    obtain ⟨table, hsizes, hz, hiff⟩ := exists_table f hlo hhi h0
    exact ⟨table, hsizes, hiff.2 hno, (hiff.2 hno).alignsBlocks hz⟩

theorem sizesBy_default : -2 ^ 31 ≤ (48 : Int) ∧ (48 : Int) < blockSize ∧
    ((∃ table, sizesBy Factor.default 48 = some table ∧ Table table ∧ AlignsBlocks table) ↔
      (48 : Int) ≠ 0 ∧ ¬ Spills Factor.default (firstSize 48)) :=
  ⟨by decide, by decide, sizesBy_iff Factor.default (by decide) (by decide)⟩

/-- With a factor of 1.0625 the last class has index 201. -/
theorem not_table_sixteenth : ∃ table, sizesBy ⟨17, 16, by decide, by decide⟩ chunkSize = some table ∧
    table.length = 201 ∧ ¬ Table table := by
  have hlen : (sizesBy ⟨17, 16, by decide, by decide⟩ chunkSize).map List.length = some 201 := by
    decide +kernel
  obtain ⟨table, hsizes, hlen⟩ := Option.map_eq_some_iff.1 hlen
  refine ⟨table, hsizes, hlen, fun ht => ?_⟩
  have hle := ht.indices
  rw [hlen] at hle
  exact absurd hle (by decide)

end HwGam.Slabs
