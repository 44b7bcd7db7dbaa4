import HwGam.GArray.Shrink

/-!
# Runs of a global array

The tree of buckets and the values written last, over every sequence of calls. A call `Fits` unless
it is a `Resize` for which the logarithm in `Layers` is below zero, or one that counts down from
more buckets than an `int` holds.
-/

namespace HwGam.GArray

open HwGam.Lib

variable {T : Type} {c : Config T} {s s' : Sys T} {H : Nat} {node : Nat → Nat → Nat}

/-- Where an item is. -/
def Config.slot (c : Config T) (node : Nat → Nat → Nat) (i : Nat) : GAddr :=
  ⟨node 0 (i / c.itemsPerBucket), i % c.itemsPerBucket * c.itemSize⟩

/-- The tree of the array, with the values written last in its leaves. -/
structure Inv (c : Config T) (s : Sys T) (H : Nat) (node : Nat → Nat → Nat) : Prop extends
    Shape c s H node where
  bound : ∀ i v, s.content i = some v → i < s.arr.size
  item : ∀ i v, s.content i = some v → s.mem.readItem (c.slot node i) = some v

/-! ## Slots -/

theorem Config.div_lt_width {i n : Nat} (hi : i < n) : i / c.itemsPerBucket < c.width (max n 1) 0 := by
  rw [Config.lt_width, Config.span_zero]
  have := Nat.div_mul_le_self i c.itemsPerBucket
  omega

theorem Shape.locate (hs : Shape c s H node) {i : Nat} (hi : i < s.arr.size) :
    c.locate s i = some (c.slot node i) := by
  have hlayer : s.arr.layer.toNat - 1 = H := by
    rw [hs.layer]
    omega
  have hlt : ¬ s.arr.layer < 1 := by
    rw [hs.layer]
    omega
  have hd := hs.tree.descend (Nat.zero_add H) (by simp) (Config.div_lt_width (c := c) hi)
  rw [Config.locate, if_neg hlt, hlayer, hs.root, hd]
  rfl

theorem Shape.slot_alloc (hs : Shape c s H node) {i : Nat} (hi : i < s.arr.size) :
    (s.mem.bucket (c.slot node i).bucket).isSome = true :=
  (hs.tree.alloc _).2 ⟨0, Nat.zero_le _, _, Config.div_lt_width hi, rfl⟩

theorem Config.slot_fits (c : Config T) (node : Nat → Nat → Nat) (i : Nat) :
    (c.slot node i).off + c.itemSize ≤ c.bucketSize := by
  have hlt : i % c.itemsPerBucket < c.itemsPerBucket := Nat.mod_lt _ c.itemsPerBucket_pos
  calc i % c.itemsPerBucket * c.itemSize + c.itemSize
      = (i % c.itemsPerBucket + 1) * c.itemSize := by rw [Nat.succ_mul]
    _ ≤ c.itemsPerBucket * c.itemSize := Nat.mul_le_mul_right _ hlt
    _ ≤ c.bucketSize := Nat.div_mul_le_self _ _

/-- Two items are in different buckets or do not overlap. -/
theorem Shape.slot_apart (hs : Shape c s H node) {i j : Nat} (hi : i < s.arr.size)
    (hj : j < s.arr.size) (hij : i ≠ j) :
    (c.slot node i).bucket ≠ (c.slot node j).bucket ∨
      (c.slot node i).off + c.itemSize ≤ (c.slot node j).off ∨
      (c.slot node j).off + c.itemSize ≤ (c.slot node i).off := by
  by_cases hb : (c.slot node i).bucket = (c.slot node j).bucket
  · have hdiv := (hs.tree.inj 0 (Nat.zero_le _) _ (Config.div_lt_width hi) 0 (Nat.zero_le _) _
      (Config.div_lt_width hj) hb).2
    have hmod : i % c.itemsPerBucket ≠ j % c.itemsPerBucket := by
      intro hmod
      apply hij
      rw [← Nat.div_add_mod i c.itemsPerBucket, hdiv, hmod, Nat.div_add_mod]
    have hmul : ∀ a b : Nat, a < b → a * c.itemSize + c.itemSize ≤ b * c.itemSize := by
      intro a b hab
      rw [← Nat.succ_mul]
      exact Nat.mul_le_mul_right _ hab
    rcases Nat.lt_or_gt_of_ne hmod with hlt | hgt
    · exact .inr (.inl (hmul _ _ hlt))
    · exact .inr (.inr (hmul _ _ hgt))
  · exact .inl hb

theorem Shape.slot_ne (hs : Shape c s H node) {i j : Nat} (hi : i < s.arr.size)
    (hj : j < s.arr.size) (hij : i ≠ j) : c.slot node i ≠ c.slot node j := by
  intro heq
  have hpos := c.itemSize_pos
  have := hs.slot_apart hi hj hij
  rw [heq] at this
  omega

/-! ## Write -/

/-- An item is written into an allocated bucket. -/
theorem Memory.exists_writeItem {m : Memory T} {a : GAddr} (v : T)
    (h : (m.bucket a.bucket).isSome = true) :
    ∃ m', m.writeItem a v = some m' ∧ m'.next = m.next ∧ m'.freed = m.freed ∧
      (∀ b, (m'.bucket b).isSome = (m.bucket b).isSome) ∧
      (∀ x, m'.readPtr x = m.readPtr x) ∧ m'.readItem a = some v ∧
      ∀ x, x ≠ a → m'.readItem x = m.readItem x := by
  obtain ⟨bk, hbk⟩ := Option.isSome_iff_exists.1 h
  have hw : m.writeItem a v = some { m with
      bucket := Function.update m.bucket a.bucket
        (some { bk with item := Function.update bk.item a.off v }) } := by
    rw [Memory.writeItem, hbk]
    rfl
  refine ⟨_, hw, rfl, rfl, ?_, ?_, ?_, ?_⟩
  · intro b
    by_cases hb : b = a.bucket
    · rw [hb]
      simp [hbk]
    · simp [Function.update_of_ne hb]
  · intro x
    by_cases hb : x.bucket = a.bucket
    · simp [Memory.readPtr, hb, hbk]
    · simp [Memory.readPtr, Function.update_of_ne hb]
  · simp [Memory.readItem]
  · intro x hx
    by_cases hb : x.bucket = a.bucket
    · have hoff : x.off ≠ a.off := by
        intro hoff
        apply hx
        cases x
        cases a
        simp_all
      simp [Memory.readItem, hb, hbk, Function.update_of_ne hoff]
    · simp [Memory.readItem, Function.update_of_ne hb]

theorem Tree.writeItem {m m' : Memory T} {cnt : Nat → Nat} {gap : Option Nat}
    (t : Tree c m H cnt node gap) (hnext : m'.next = m.next) (hfreed : m'.freed = m.freed)
    (hsome : ∀ b, (m'.bucket b).isSome = (m.bucket b).isSome)
    (hptr : ∀ x, m'.readPtr x = m.readPtr x) : Tree c m' H cnt node gap where
  top := t.top
  parent := t.parent
  child h hh hg j hj := (hptr _).trans (t.child h hh hg j hj)
  ok := t.ok.writePtr hnext hfreed hsome
  alloc b := by
    rw [hsome]
    exact t.alloc b
  inj := t.inj

theorem Inv.write (hs : Inv c s H node) {i : Nat} (v : T) (hi : i < s.arr.size) :
    ∃ s', c.write i v s = some s' ∧ Inv c s' H node := by
  obtain ⟨m', hw, hnext, hfreed, hsome, hptr, hitem, hother⟩ :=
    Memory.exists_writeItem v (hs.slot_alloc hi)
  refine ⟨{ s with mem := m', content := Function.update s.content i (some v) }, ?_, ?_⟩
  · rw [Config.write, hs.locate hi, Option.bind_some, hw]
    rfl
  · refine ⟨⟨hs.layer, hs.root, hs.height, hs.tree.writeItem hnext hfreed hsome hptr, hs.capacity⟩,
      ?_, ?_⟩
    · intro j w hj
      by_cases hij : j = i
      · exact hij ▸ hi
      · exact hs.bound j w (by simpa [Function.update_of_ne hij] using hj)
    · intro j w hj
      by_cases hij : j = i
      · subst hij
        have hw : v = w := by simpa using hj
        rw [← hw]
        exact hitem
      · have hj : s.content j = some w := by simpa [Function.update_of_ne hij] using hj
        exact (hother _ (hs.slot_ne (hs.bound j w hj) hi hij)).trans (hs.item j w hj)

/-! ## Resize -/

/-- The values below the new size, where their buckets have stayed. -/
theorem Inv.of_keeps (hs : Inv c s H node) {H' K n : Nat} {node' : Nat → Nat → Nat} {m' : Memory T}
    {cnt : Nat → Nat} (h1 : 1 ≤ n) (hH : c.Height n H') (t : Tree c m' H' (c.width n) node' none)
    (hk : Keeps cnt node node' K s.mem m')
    (hcnt : ∀ i, i < s.arr.size → i < n → i / c.itemsPerBucket < cnt 0) :
    Inv c { mem := m', arr := ⟨node' H' 0, n, c.capacity n, H' + 1⟩,
            content := fun i => if i < n then s.content i else none } H' node' := by
  have hmax : max n 1 = n := max_eq_left h1
  refine ⟨⟨rfl, rfl, ?_, ?_, ?_⟩, ?_, ?_⟩
  · simpa only [hmax] using hH
  · simpa only [hmax] using t
  · simp only [hmax]
  · intro i v hi
    simp only [Option.ite_none_right_eq_some] at hi
    exact hi.1
  · intro i v hi
    simp only [Option.ite_none_right_eq_some] at hi
    have hlt := hcnt i (hs.bound i v hi.2) hi.1
    have hslot : c.slot node' i = c.slot node i := by
      rw [Config.slot, Config.slot, hk.same 0 (Nat.zero_le _) _ hlt]
    rw [hslot]
    exact (hk.item _ hlt _).trans (hs.item i v hi.2)

/-- Sizes with the same number of leaves have the same tree. -/
theorem Config.height_congr {n n' : Nat}
    (hn : ceilDivide n c.itemsPerBucket = ceilDivide n' c.itemsPerBucket) (hH : c.Height n H) :
    c.Height n' H := by
  have hiff : ∀ h, c.span h < n ↔ c.span h < n' := by
    intro h
    rw [Config.span, ← lt_ceilDivide c.itemsPerBucket_pos, ← lt_ceilDivide c.itemsPerBucket_pos, hn]
  refine ⟨?_, fun h hh => (hiff h).1 (hH.2 h hh)⟩
  have := hH.1
  have := hiff H
  omega

theorem ceilDivide_mono {a a' b : Nat} (h : a ≤ a') : ceilDivide a b ≤ ceilDivide a' b :=
  Nat.div_le_div_right (by omega)

/-- `Resize` within the capacity. -/
theorem Inv.within (hs : Inv c s H node) {n : Nat} (h1 : s.arr.size < n) (hn : n ≤ s.arr.capacity) :
    Inv c { s with arr := { s.arr with size := n },
                   content := fun i => if i < n then s.content i else none } H node := by
  have hmax : max n 1 = n := max_eq_left (by omega)
  have hpos := c.itemsPerBucket_pos
  have hceil : ceilDivide (max s.arr.size 1) c.itemsPerBucket = ceilDivide n c.itemsPerBucket := by
    refine Nat.le_antisymm (ceilDivide_mono (by omega)) (Nat.not_lt.1 fun hlt => ?_)
    rw [lt_ceilDivide hpos] at hlt
    have := hs.capacity
    rw [Config.capacity] at this
    omega
  refine ⟨⟨hs.layer, hs.root, ?_, ?_, ?_⟩, ?_, ?_⟩
  · simpa only [hmax] using Config.height_congr hceil hs.height
  · refine hs.tree.congr fun h _ => ?_
    simp only [hmax, Config.width, hceil]
  · simp only [hmax]
    rw [hs.capacity, Config.capacity, Config.capacity, hceil]
  · intro i v hi
    simp only [Option.ite_none_right_eq_some] at hi
    exact hi.1
  · intro i v hi
    simp only [Option.ite_none_right_eq_some] at hi
    exact hs.item i v hi.2

/-- The calls for which `Layers` finds a layer for every block and no `int` runs over. -/
def Config.Fits (c : Config T) (a : Call T) (s : Sys T) : Prop :=
  match a with
  | .resize n => n < s.arr.size → c.itemsPerBucket < c.gaddrsPerBucket * n ∧
      ceilDivide s.arr.size c.itemsPerBucket ≤ 2 ^ 31
  | .write _ _ => True

theorem Inv.resize (hs : Inv c s H node) {n : Nat} (h1 : 1 ≤ n) (hf : c.Fits (.resize n) s) :
    ∃ s' H' node', c.resize n s = some s' ∧ Inv c s' H' node' := by
  rcases Nat.lt_trichotomy s.arr.size n with hlt | heq | hgt
  · by_cases hcap : s.arr.capacity < n
    · obtain ⟨H', node', m', hle, hH', hlay, hgrow, t, hk⟩ := hs.toShape.grow hcap
      have hmax : max s.arr.layer (c.layers n) = H' + 1 := by
        rw [hs.layer, hlay]
        omega
      refine ⟨_, H', node', ?_, hs.of_keeps h1 hH' t hk fun i hi _ => Config.div_lt_width hi⟩
      rw [Config.resize, if_pos hlt, if_pos hcap, hgrow, Option.map_some, hmax]
    · refine ⟨_, H, node, ?_, hs.within hlt (Nat.not_lt.1 hcap)⟩
      rw [Config.resize, if_pos hlt, if_neg hcap]
  · refine ⟨s, H, node, ?_, hs⟩
    rw [Config.resize, if_neg (by omega), if_neg (by omega)]
  · obtain ⟨hlog, hint⟩ := hf hgt
    obtain ⟨H', m', hle, hH', hlay, hshrink, t, hk⟩ := hs.toShape.shrink h1 hgt hlog hint
    refine ⟨_, H', node, ?_, hs.of_keeps h1 hH' t hk fun i _ hi => ?_⟩
    · rw [Config.resize, if_neg (by omega), if_pos hgt, hshrink, Option.map_some, hlay]
    · have := Config.div_lt_width (c := c) hi
      rwa [max_eq_left h1] at this

/-! ## Runs -/

/-- The buckets at height `h` over `max 1 ⌈size / items_per_bucket⌉` leaves. -/
def Config.nodes (c : Config T) (size h : Nat) : Nat :=
  (fun n => ceilDivide n c.gaddrsPerBucket)^[h] (max 1 (ceilDivide size c.itemsPerBucket))

/-- Bucket `j` of the layer `k` steps below the root. -/
def Config.Node (c : Config T) (s : Sys T) (k j b : Nat) : Prop :=
  (k : Int) < s.arr.layer ∧ j < c.nodes s.arr.size (s.arr.layer.toNat - 1 - k) ∧
    s.mem.descend s.arr.rootAddr (c.offsets k j) = some b

/-- The calls a user can make. -/
def Call.Enabled (a : Call T) (s : Sys T) : Prop :=
  match a with
  | .resize n => 1 ≤ n
  | .write i _ => i < s.arr.size

/-- A resizable array: the last values are read, the items have slots of their own in allocated
buckets, the allocated buckets are the nodes of the tree, each at one place, and what has been freed
was freed once and is not among them. -/
structure Config.Spec (c : Config T) (s : Sys T) : Prop where
  last : ∀ i v, s.content i = some v → c.read s i = some v
  slots : ∀ i < s.arr.size, ∃ a, c.locate s i = some a ∧ (s.mem.bucket a.bucket).isSome = true ∧
    a.off + c.itemSize ≤ c.bucketSize
  apart : ∀ i < s.arr.size, ∀ j < s.arr.size, i ≠ j → ∀ a b, c.locate s i = some a →
    c.locate s j = some b →
    a.bucket ≠ b.bucket ∨ a.off + c.itemSize ≤ b.off ∨ b.off + c.itemSize ≤ a.off
  root : 1 ≤ s.arr.layer ∧ c.nodes s.arr.size (s.arr.layer.toNat - 1) = 1
  total : ∀ k j : Nat, (k : Int) < s.arr.layer → j < c.nodes s.arr.size (s.arr.layer.toNat - 1 - k) →
    ∃ b, c.Node s k j b
  alloc : ∀ b, (s.mem.bucket b).isSome = true ↔ ∃ k j, c.Node s k j b
  inj : ∀ k j k' j' b, c.Node s k j b → c.Node s k' j' b → k = k' ∧ j = j'
  freed : s.mem.freed.Nodup ∧ ∀ b ∈ s.mem.freed, ∀ k j, ¬ c.Node s k j b

theorem Config.nodes_eq (c : Config T) (size h : Nat) : c.nodes size h = c.width (max size 1) h := by
  rw [Config.nodes, Config.width]
  congr 1
  have hpos := c.itemsPerBucket_pos
  have hone : ∀ n, 1 ≤ n → 1 ≤ ceilDivide n c.itemsPerBucket := by
    intro n hn
    refine (lt_ceilDivide hpos).2 ?_
    omega
  rcases Nat.eq_zero_or_pos size with rfl | hsize
  · have hz : ceilDivide 0 c.itemsPerBucket = 0 := Nat.div_eq_of_lt (by omega)
    have hle : ¬ 1 < ceilDivide 1 c.itemsPerBucket := by
      rw [lt_ceilDivide hpos]
      omega
    have := hone 1 le_rfl
    rw [hz, max_eq_right (Nat.zero_le 1)]
    omega
  · rw [max_eq_right (hone _ hsize), max_eq_left (Nat.succ_le_of_lt hsize)]

/-- The nodes the code reaches are those of the tree. -/
theorem Shape.node_iff (hs : Shape c s H node) {k j b : Nat} :
    c.Node s k j b ↔ k ≤ H ∧ j < c.width (max s.arr.size 1) (H - k) ∧ b = node (H - k) j := by
  have hlayer : s.arr.layer.toNat - 1 = H := by
    rw [hs.layer]
    omega
  have hk : (k : Int) < s.arr.layer ↔ k ≤ H := by
    rw [hs.layer]
    omega
  rw [Config.Node, Config.nodes_eq, hlayer, hk, hs.root]
  refine and_congr_right fun hle => and_congr_right fun hj => ?_
  rw [hs.tree.descend (Nat.sub_add_cancel hle) (by simp) hj, Option.some.injEq, eq_comm]

theorem Inv.spec (hs : Inv c s H node) : c.Spec s := by
  have hlayer : s.arr.layer.toNat - 1 = H := by
    rw [hs.layer]
    omega
  have hnode : ∀ b, (s.mem.bucket b).isSome = true ↔ ∃ k j, c.Node s k j b := by
    intro b
    rw [hs.tree.alloc]
    constructor
    · rintro ⟨h, hh, j, hj, rfl⟩
      refine ⟨H - h, j, hs.node_iff.2 ⟨Nat.sub_le _ _, ?_⟩⟩
      rw [Nat.sub_sub_self hh]
      exact ⟨hj, rfl⟩
    · rintro ⟨k, j, hkj⟩
      obtain ⟨-, hj, rfl⟩ := hs.node_iff.1 hkj
      exact ⟨H - k, Nat.sub_le _ _, j, hj, rfl⟩
  refine ⟨?_, ?_, ?_, ?_, ?_, hnode, ?_, ?_⟩
  · intro i v hi
    rw [Config.read, hs.locate (hs.bound i v hi), Option.bind_some]
    exact hs.item i v hi
  · exact fun i hi => ⟨_, hs.locate hi, hs.slot_alloc hi, c.slot_fits node i⟩
  · intro i hi j hj hij a b ha hb
    rw [hs.locate hi, Option.some.injEq] at ha
    rw [hs.locate hj, Option.some.injEq] at hb
    rw [← ha, ← hb]
    exact hs.slot_apart hi hj hij
  · refine ⟨by rw [hs.layer]; omega, ?_⟩
    rw [hlayer, Config.nodes_eq]
    exact hs.tree.top
  · intro k j hk hj
    have hle : k ≤ H := by
      rw [hs.layer] at hk
      omega
    rw [hlayer, Config.nodes_eq] at hj
    exact ⟨_, hs.node_iff.2 ⟨hle, hj, rfl⟩⟩
  · intro k j k' j' b hkj hkj'
    obtain ⟨hk, hj, rfl⟩ := hs.node_iff.1 hkj
    obtain ⟨hk', hj', heq⟩ := hs.node_iff.1 hkj'
    obtain ⟨h1, h2⟩ := hs.tree.inj _ (Nat.sub_le _ _) _ hj _ (Nat.sub_le _ _) _ hj' heq
    exact ⟨by omega, h2⟩
  · refine ⟨hs.tree.ok.once, fun b hb k j hkj => ?_⟩
    have := (hnode b).2 ⟨k, j, hkj⟩
    rw [(hs.tree.ok.gone b hb).2] at this
    cases this

/-- A call that fits returns and keeps the invariant. -/
theorem Inv.step (hs : Inv c s H node) {a : Call T} (ha : a.Enabled s) (hf : c.Fits a s) :
    ∃ s' H' node', c.step a s = some s' ∧ Inv c s' H' node' := by
  cases a with
  | resize n =>
    obtain ⟨s', H', node', hr, hs'⟩ := hs.resize ha hf
    exact ⟨s', H', node', (if_pos ha).trans hr, hs'⟩
  | write i v =>
    obtain ⟨s', hw, hs'⟩ := hs.write v ha
    exact ⟨s', H, node, (if_pos ha).trans hw, hs'⟩

theorem enabled_of_step {a : Call T} (h : c.step a s = some s') : a.Enabled s := by
  cases a with
  | resize n =>
    simp only [Config.step, Option.ite_none_right_eq_some] at h
    exact h.1
  | write i v =>
    simp only [Config.step, Option.ite_none_right_eq_some] at h
    exact h.1

/-- Items of four bytes, eight to a bucket of 32 bytes, which has four addresses. -/
def octets : Config Nat where
  itemSize := 4
  bucketSize := 32
  two_items := by decide
  two_gaddrs := by decide
  fresh _ := ⟨fun _ => 0, fun _ => 0⟩

/-- A quarter of a bucket has no layer. -/
theorem layers_octets : octets.layers 2 = 0 := by
  have hq : ((2 : Nat) : ℚ) / (octets.itemsPerBucket : Nat) =
      ((octets.gaddrsPerBucket : Nat) : ℚ) ^ (-1 : Int) := by
    norm_num [octets, Config.itemsPerBucket, Config.gaddrsPerBucket, gaddrSize]
  rw [Config.layers, hq, Int.clog_zpow (by decide)]
  rfl

/-- An array of one bucket loses it when the logarithm is below zero. -/
theorem Config.step_lost {n : Nat} {b : Bucket T} (h1 : 1 ≤ n) (hn : n < s.arr.size)
    (harr : s.arr.layer = 1) (hlay : c.layers n = 0)
    (hroot : s.mem.bucket s.arr.rootAddr = some b) :
    c.step (.resize n) s = some {
      mem := { s.mem with bucket := Function.update s.mem.bucket s.arr.rootAddr none,
                          freed := s.mem.freed ++ [s.arr.rootAddr] }
      arr := ⟨b.ptr 0, n, c.capacity n, 0⟩
      content := fun i => if i < n then s.content i else none } := by
  have hptr : s.mem.descend s.arr.rootAddr [0] = some (b.ptr 0) := by
    simp [Memory.descend, Memory.readPtr, hroot]
  have hshrink : c.shrink n s = some (b.ptr 0, { s.mem with
      bucket := Function.update s.mem.bucket s.arr.rootAddr none,
      freed := s.mem.freed ++ [s.arr.rootAddr] }) := by
    simp [Config.shrink, harr, hlay, hptr, Memory.free, hroot]
  rw [Config.step, if_pos h1, Config.resize, if_neg (by omega), if_pos hn, hshrink, Option.map_some,
    hlay]

end HwGam.GArray
