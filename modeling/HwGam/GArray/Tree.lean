import HwGam.GArray.Model
import Mathlib.Analysis.SpecialFunctions.Log.Base

/-!
# The tree of buckets

The buckets of an array by their height over the last layer and their index in the layer: growing
and shrinking leave the heights of the buckets as they are. `Tree` says which buckets there are and
how they are linked; blocks are added and removed at the end of a layer.
-/

namespace HwGam.GArray

variable {T : Type} {c : Config T}

/-! ## Widths and heights -/

theorem lt_ceilDivide {a b j : Nat} (hb : 0 < b) : j < ceilDivide a b ↔ j * b < a := by
  rw [ceilDivide, Nat.lt_iff_add_one_le, Nat.le_div_iff_mul_le hb, Nat.add_mul, Nat.one_mul]
  omega

namespace Config

theorem itemsPerBucket_pos (c : Config T) : 0 < c.itemsPerBucket := by
  have := c.two_items
  unfold itemsPerBucket
  omega

theorem gaddrsPerBucket_gt (c : Config T) : 1 < c.gaddrsPerBucket := by
  have := c.two_gaddrs
  unfold gaddrsPerBucket
  omega

theorem itemSize_pos (c : Config T) : 0 < c.itemSize := by
  have := c.two_items
  rcases Nat.eq_zero_or_pos c.itemSize with h | h
  · rw [h, Nat.div_zero] at this
    omega
  · exact h

/-- The number of buckets at height `h` of an array of `size` items. -/
def width (c : Config T) (size h : Nat) : Nat :=
  (fun n => ceilDivide n c.gaddrsPerBucket)^[h] (ceilDivide size c.itemsPerBucket)

theorem calLayers_eq (size H k : Nat) : c.calLayers size (H + 1) k = c.width size (H - k) := by
  rw [calLayers, width, Nat.add_sub_cancel]

/-- The items below a bucket of height `h`. -/
def span (c : Config T) (h : Nat) : Nat := c.gaddrsPerBucket ^ h * c.itemsPerBucket

theorem span_pos (c : Config T) (h : Nat) : 0 < c.span h :=
  Nat.mul_pos (Nat.pow_pos (Nat.lt_of_lt_of_le Nat.zero_lt_one c.gaddrsPerBucket_gt.le))
    c.itemsPerBucket_pos

theorem span_zero (c : Config T) : c.span 0 = c.itemsPerBucket := by
  rw [span, Nat.pow_zero, Nat.one_mul]

theorem span_succ (c : Config T) (h : Nat) : c.span (h + 1) = c.gaddrsPerBucket * c.span h := by
  rw [span, span, Nat.pow_succ, Nat.mul_comm (_ ^ _), Nat.mul_assoc]

theorem span_lt_succ (c : Config T) (h : Nat) : c.span h < c.span (h + 1) := by
  rw [span_succ]
  have hg := c.gaddrsPerBucket_gt
  have hp := c.span_pos h
  exact lt_mul_of_one_lt_left hp hg

theorem span_mono (c : Config T) : Monotone c.span :=
  monotone_nat_of_le_succ fun h => (c.span_lt_succ h).le

theorem width_succ (size h : Nat) :
    c.width size (h + 1) = ceilDivide (c.width size h) c.gaddrsPerBucket := by
  rw [width, Function.iterate_succ_apply']
  rfl

/-- Bucket `j` at height `h` is there if its first item is. -/
theorem lt_width {size h j : Nat} : j < c.width size h ↔ j * c.span h < size := by
  induction h generalizing j with
  | zero => rw [span_zero, width, Function.iterate_zero_apply, lt_ceilDivide c.itemsPerBucket_pos]
  | succ h ih =>
    rw [width_succ, lt_ceilDivide (Nat.lt_of_lt_of_le Nat.zero_lt_one c.gaddrsPerBucket_gt.le), ih,
      span_succ, Nat.mul_assoc]

theorem width_parent {size h j : Nat} (hj : j < c.width size h) :
    j / c.gaddrsPerBucket < c.width size (h + 1) := by
  rw [lt_width] at hj ⊢
  rw [span_succ, ← Nat.mul_assoc]
  exact Nat.lt_of_le_of_lt (Nat.mul_le_mul_right _ (Nat.div_mul_le_self _ _)) hj

theorem width_mono {size size' : Nat} (h : size ≤ size') (k : Nat) :
    c.width size k ≤ c.width size' k := by
  by_contra hlt
  have h1 := lt_width.1 (Nat.lt_of_not_le hlt)
  have h2 := mt (lt_width (c := c) (h := k)).2 (Nat.lt_irrefl (c.width size' k))
  omega

theorem width_eq_one {size h : Nat} (h0 : 0 < size) (hle : size ≤ c.span h) :
    c.width size h = 1 := by
  have h1 : 0 < c.width size h := lt_width.2 (by rwa [Nat.zero_mul])
  have h2 : ¬ 1 < c.width size h := by
    rw [lt_width, Nat.one_mul]
    omega
  omega

/-- `H` is the height of the root of an array of `n` items. -/
def Height (c : Config T) (n H : Nat) : Prop := n ≤ c.span H ∧ ∀ h < H, c.span h < n

theorem exists_height (c : Config T) (n : Nat) : ∃ H, c.Height n H := by
  classical
  have hex : ∃ H, n ≤ c.span H := by
    refine ⟨n, Nat.le_trans (Nat.lt_pow_self c.gaddrsPerBucket_gt).le ?_⟩
    exact Nat.le_mul_of_pos_right _ c.itemsPerBucket_pos
  exact ⟨Nat.find hex, Nat.find_spec hex, fun h hh => Nat.lt_of_not_le (Nat.find_min hex hh)⟩

theorem Height.le {n n' H H' : Nat} (h : c.Height n H) (h' : c.Height n' H') (hn : n ≤ n') :
    H ≤ H' := by
  by_contra hlt
  have h1 := h.2 H' (by omega)
  have h2 := h'.1
  omega

/-- The logarithm is the height, unless it is below zero. -/
theorem layers_of_height {n H : Nat} (h : c.Height n H) (h1 : 1 ≤ n)
    (hn : c.itemsPerBucket < c.gaddrsPerBucket * n) : c.layers n = H + 1 := by
  have hg := c.gaddrsPerBucket_gt
  have hi := c.itemsPerBucket_pos
  have hiq : (0 : ℚ) < c.itemsPerBucket := by exact_mod_cast hi
  have hgq : (0 : ℚ) < c.gaddrsPerBucket := by exact_mod_cast Nat.lt_of_lt_of_le Nat.zero_lt_one hg.le
  have hpos : (0 : ℚ) < (n : ℚ) / c.itemsPerBucket := div_pos (by exact_mod_cast h1) hiq
  have hle : Int.clog c.gaddrsPerBucket ((n : ℚ) / c.itemsPerBucket) ≤ H := by
    rw [← Int.le_zpow_iff_clog_le hg hpos, div_le_iff₀ hiq, zpow_natCast]
    exact_mod_cast h.1
  have hge : (H : Int) - 1 < Int.clog c.gaddrsPerBucket ((n : ℚ) / c.itemsPerBucket) := by
    rw [← Int.zpow_lt_iff_lt_clog hg hpos, lt_div_iff₀ hiq]
    rcases H with _ | H
    · rw [Nat.cast_zero, zero_sub, zpow_neg_one, inv_mul_lt_iff₀ hgq]
      exact_mod_cast hn
    · rw [Nat.cast_succ, add_sub_cancel_right, zpow_natCast]
      exact_mod_cast h.2 H (Nat.lt_succ_self H)
  rw [layers]
  omega

/-- `ceil(log(size / items_per_bucket) / log(gaddrs_per_bucket)) + 1` -/
theorem layers_eq_ceil_logb (size : Nat) :
    c.layers size = ⌈Real.logb c.gaddrsPerBucket (size / c.itemsPerBucket)⌉ + 1 := by
  have hg := c.gaddrsPerBucket_gt
  rw [Real.ceil_logb_natCast (by positivity), layers, add_left_inj]
  rcases Nat.eq_zero_or_pos size with rfl | h0
  · simp
  · have hi : (0 : ℚ) < c.itemsPerBucket := by exact_mod_cast c.itemsPerBucket_pos
    have hq : (0 : ℚ) < (size : ℚ) / c.itemsPerBucket := div_pos (by exact_mod_cast h0) hi
    have hcast : (((size : ℚ) / c.itemsPerBucket : ℚ) : ℝ) = (size : ℝ) / c.itemsPerBucket := by
      push_cast
      rfl
    have hr : (0 : ℝ) < (size : ℝ) / c.itemsPerBucket := by
      rw [← hcast]
      exact_mod_cast hq
    have hiff : ∀ z, Int.clog c.gaddrsPerBucket ((size : ℚ) / c.itemsPerBucket) ≤ z ↔
        Int.clog c.gaddrsPerBucket ((size : ℝ) / c.itemsPerBucket) ≤ z := by
      intro z
      have hpow : (((c.gaddrsPerBucket : ℚ) ^ z : ℚ) : ℝ) = (c.gaddrsPerBucket : ℝ) ^ z := by
        push_cast
        rfl
      rw [← Int.le_zpow_iff_clog_le hg hq, ← Int.le_zpow_iff_clog_le hg hr, ← hcast, ← hpow,
        Rat.cast_le]
    exact le_antisymm ((hiff _).2 le_rfl) ((hiff _).1 le_rfl)

end Config

/-! ## Trees -/

/-- Buckets that are allocated have a name already; those freed are gone, each freed once. -/
structure Memory.Ok (m : Memory T) : Prop where
  named : ∀ b, (m.bucket b).isSome = true → b < m.next
  gone : ∀ b ∈ m.freed, b < m.next ∧ m.bucket b = none
  once : m.freed.Nodup

/-- `node h j` is bucket `j` of the `cnt h` buckets at height `h`, up to the root at height `H`. All
but those at height `gap` are linked to their parents. -/
structure Links (c : Config T) (m : Memory T) (H : Nat) (cnt : Nat → Nat) (node : Nat → Nat → Nat)
    (gap : Option Nat) : Prop where
  top : cnt H = 1
  parent : ∀ h < H, gap ≠ some h → ∀ j < cnt h, j / c.gaddrsPerBucket < cnt (h + 1)
  child : ∀ h < H, gap ≠ some h → ∀ j < cnt h,
    m.readPtr ⟨node (h + 1) (j / c.gaddrsPerBucket), gaddrSize * (j % c.gaddrsPerBucket)⟩ =
      some (node h j)

/-- The nodes are the allocated buckets, each at one place. -/
structure Tree (c : Config T) (m : Memory T) (H : Nat) (cnt : Nat → Nat) (node : Nat → Nat → Nat)
    (gap : Option Nat) : Prop extends Links c m H cnt node gap where
  ok : m.Ok
  alloc : ∀ b, (m.bucket b).isSome = true ↔ ∃ h ≤ H, ∃ j < cnt h, b = node h j
  inj : ∀ h ≤ H, ∀ j < cnt h, ∀ h' ≤ H, ∀ j' < cnt h', node h j = node h' j' → h = h' ∧ j = j'

namespace Links

variable {m m' : Memory T} {H h l j : Nat} {cnt : Nat → Nat} {node : Nat → Nat → Nat}
  {gap : Option Nat}

/-- The offsets of an index lead from the root to its bucket. -/
theorem descend {k : Nat} (t : Links c m H cnt node gap) (hk : h + k = H)
    (hgap : ∀ h', h ≤ h' → gap ≠ some h') (hj : j < cnt h) :
    m.descend (node H 0) (c.offsets k j) = some (node h j) := by
  induction k generalizing h j with
  | zero =>
    obtain rfl : h = H := hk
    obtain rfl : j = 0 := by
      have := t.top
      omega
    rfl
  | succ k ih =>
    have hp := t.parent h (by omega) (hgap h le_rfl) j hj
    have hread := t.child h (by omega) (hgap h le_rfl) j hj
    have hup := ih (h := h + 1) (by omega) (fun h' hh => hgap h' (by omega)) hp
    rw [Config.offsets, Memory.descend, List.foldlM_append]
    rw [Memory.descend] at hup
    rw [hup]
    simpa using hread

/-- Where the pointer to bucket `j` of the layer below layer `l` is. -/
theorem locateInternal (t : Links c m H cnt node gap) (hl : h + l = H) (h1 : 1 ≤ l)
    (hgap : ∀ h', h + 1 ≤ h' → gap ≠ some h') (hj : j / c.gaddrsPerBucket < cnt (h + 1)) :
    c.locateInternal m (node H 0) (H + 1) l j =
      some ⟨node (h + 1) (j / c.gaddrsPerBucket), j % c.gaddrsPerBucket * gaddrSize⟩ := by
  have hn : ¬ l = H + 1 := by omega
  rw [Config.locateInternal]
  simp only [if_neg hn]
  rw [t.descend (by omega) hgap hj]
  rfl

end Links

/-- What is left of the items when blocks come and go: the buckets at the nodes of `cnt` are those
of before, with their items. -/
structure Keeps (cnt : Nat → Nat) (node node' : Nat → Nat → Nat) (H : Nat) (m m' : Memory T) : Prop where
  same : ∀ h ≤ H, ∀ j < cnt h, node' h j = node h j
  item : ∀ j < cnt 0, ∀ o, m'.readItem ⟨node 0 j, o⟩ = m.readItem ⟨node 0 j, o⟩

theorem Keeps.refl {cnt : Nat → Nat} {node : Nat → Nat → Nat} {H : Nat} {m : Memory T} :
    Keeps cnt node node H m m :=
  ⟨fun _ _ _ _ => rfl, fun _ _ _ => rfl⟩

theorem Keeps.trans {cnt cnt' : Nat → Nat} {node node' node'' : Nat → Nat → Nat} {H : Nat}
    {m m' m'' : Memory T} (h : Keeps cnt node node' H m m') (h' : Keeps cnt' node' node'' H m' m'')
    (hle : ∀ h ≤ H, cnt h ≤ cnt' h) : Keeps cnt node node'' H m m'' where
  same k hk j hj := by
    have hlt : j < cnt' k := Nat.lt_of_lt_of_le hj (hle k hk)
    rw [h'.same k hk j hlt, h.same k hk j hj]
  item j hj o := by
    have hlt : j < cnt' 0 := Nat.lt_of_lt_of_le hj (hle 0 (Nat.zero_le H))
    have hn := h.same 0 (Nat.zero_le H) j hj
    have h2 := h'.item j hlt o
    rw [hn] at h2
    rw [h2, h.item j hj o]

/-! ## Blocks are added -/

/-- The node function with one more node. -/
def setNode (node : Nat → Nat → Nat) (h j b : Nat) : Nat → Nat → Nat :=
  Function.update node h (Function.update (node h) j b)

section
variable {m m' : Memory T} {H h l j b : Nat} {cnt : Nat → Nat} {node : Nat → Nat → Nat}
  {gap : Option Nat}

theorem setNode_self : setNode node h j b h j = b := by
  simp [setNode]

theorem setNode_of_ne {h' j' : Nat} (hne : ¬ (h' = h ∧ j' = j)) :
    setNode node h j b h' j' = node h' j' := by
  by_cases hh : h' = h
  · subst hh
    have hj : j' ≠ j := fun hj => hne ⟨rfl, hj⟩
    simp [setNode, hj]
  · simp [setNode, hh]

theorem Memory.Ok.malloc (hm : m.Ok) : (m.malloc c).2.Ok where
  named b hb := by
    by_cases hn : b = m.next
    · subst hn
      exact Nat.lt_succ_self _
    · simp only [Memory.malloc, Function.update_of_ne hn] at hb
      exact Nat.lt_succ_of_lt (hm.named b hb)
  gone b hb := by
    obtain ⟨hlt, hnone⟩ := hm.gone b hb
    have hn : b ≠ m.next := Nat.ne_of_lt hlt
    refine ⟨Nat.lt_succ_of_lt hlt, ?_⟩
    simpa only [Memory.malloc, Function.update_of_ne hn] using hnone
  once := hm.once

theorem Memory.bucket_next (hm : m.Ok) : m.bucket m.next = none := by
  cases hb : m.bucket m.next with
  | none => rfl
  | some b => exact absurd (hm.named m.next (by rw [hb]; rfl)) (Nat.lt_irrefl _)

/-- A pointer is written into an allocated bucket. -/
theorem Memory.exists_writePtr {a : GAddr} (v : Nat) (h : (m.bucket a.bucket).isSome = true) :
    ∃ m', m.writePtr a v = some m' ∧ m'.next = m.next ∧ m'.freed = m.freed ∧
      (∀ b, (m'.bucket b).isSome = (m.bucket b).isSome) ∧
      (∀ x, m'.readItem x = m.readItem x) ∧ m'.readPtr a = some v ∧
      ∀ x, x ≠ a → m'.readPtr x = m.readPtr x := by
  obtain ⟨bk, hb⟩ := Option.isSome_iff_exists.1 h
  have hw : m.writePtr a v = some { m with
      bucket := Function.update m.bucket a.bucket
        (some { bk with ptr := Function.update bk.ptr a.off v }) } := by
    rw [Memory.writePtr, hb]
    rfl
  refine ⟨_, hw, rfl, rfl, ?_, ?_, ?_, ?_⟩
  · intro b
    by_cases hn : b = a.bucket
    · subst hn
      simp [hb]
    · simp [hn]
  · intro x
    by_cases hn : x.bucket = a.bucket
    · simp [Memory.readItem, hn, hb]
    · simp [Memory.readItem, hn]
  · simp [Memory.readPtr]
  · intro x hx
    by_cases hn : x.bucket = a.bucket
    · have ho : x.off ≠ a.off := by
        intro ho
        apply hx
        cases x
        cases a
        simp_all
      simp [Memory.readPtr, hn, hb, ho]
    · simp [Memory.readPtr, hn]

theorem Memory.Ok.writePtr (hm : m.Ok) (hnext : m'.next = m.next) (hfreed : m'.freed = m.freed)
    (hsome : ∀ b, (m'.bucket b).isSome = (m.bucket b).isSome) : m'.Ok where
  named b hb := by
    rw [hnext]
    exact hm.named b (by rwa [← hsome])
  gone b hb := by
    rw [hfreed] at hb
    obtain ⟨hlt, hnone⟩ := hm.gone b hb
    refine ⟨by rwa [hnext], ?_⟩
    have := hsome b
    rw [hnone] at this
    exact Option.not_isSome_iff_eq_none.1 (by rw [this]; simp)
  once := by
    rw [hfreed]
    exact hm.once

theorem Memory.readPtr_malloc {a : GAddr} (hm : m.Ok) (ha : (m.bucket a.bucket).isSome = true) :
    (m.malloc c).2.readPtr a = m.readPtr a ∧ (m.malloc c).2.readItem a = m.readItem a := by
  have hn : a.bucket ≠ m.next := Nat.ne_of_lt (hm.named _ ha)
  simp [Memory.malloc, Memory.readPtr, Memory.readItem, hn]

/-- A new bucket does not change the links. -/
theorem Tree.links_malloc (t : Tree c m H cnt node gap) : Links c (m.malloc c).2 H cnt node gap where
  top := t.top
  parent := t.parent
  child h hh hg j hj := by
    have hp := t.parent h hh hg j hj
    have hsome := (t.alloc (node (h + 1) (j / c.gaddrsPerBucket))).2 ⟨h + 1, hh, _, hp, rfl⟩
    rw [(Memory.readPtr_malloc t.ok hsome).1]
    exact t.child h hh hg j hj

/-- A bucket is allocated for the end of a layer and its address written into its parent. -/
theorem Tree.add (t : Tree c m H cnt node gap) (hl : h + l = H) (h1 : 1 ≤ l)
    (hgap : ∀ h', h ≤ h' → gap ≠ some h') (hp : cnt h / c.gaddrsPerBucket < cnt (h + 1)) :
    ∃ m', c.insertBlock (node H 0) (H + 1) l (cnt h) (m.malloc c).1 (m.malloc c).2 = some m' ∧
      Tree c m' H (Function.update cnt h (cnt h + 1)) (setNode node h (cnt h) m.next) gap ∧
      Keeps cnt node (setNode node h (cnt h) m.next) H m m' := by
  have hpar : (m.bucket (node (h + 1) (cnt h / c.gaddrsPerBucket))).isSome = true :=
    (t.alloc _).2 ⟨h + 1, by omega, _, hp, rfl⟩
  have hsome : ∀ b, ((m.malloc c).2.bucket b).isSome = true ↔
      b = m.next ∨ (m.bucket b).isSome = true := by
    intro b
    by_cases hb : b = m.next
    · subst hb
      simp [Memory.malloc]
    · simp [Memory.malloc, hb]
  have hloc := t.links_malloc.locateInternal hl h1 (fun h' hh => hgap h' (by omega)) hp
  obtain ⟨m', hw, hnext, hfreed, hsome', hitem, hself, hother⟩ :=
    Memory.exists_writePtr (m := (m.malloc c).2)
      (a := ⟨node (h + 1) (cnt h / c.gaddrsPerBucket), cnt h % c.gaddrsPerBucket * gaddrSize⟩)
      m.next ((hsome _).2 (.inr hpar))
  have hne : h ≠ H := by omega
  have hle : ∀ k, cnt k ≤ Function.update cnt h (cnt h + 1) k := by
    intro k
    by_cases hk : k = h
    · subst hk
      simp
    · simp [hk]
  have hlt : ∀ k j, j < Function.update cnt h (cnt h + 1) k → j < cnt k ∨ (k = h ∧ j = cnt h) := by
    intro k j hj
    by_cases hk : k = h
    · subst hk
      simp only [Function.update_self] at hj
      omega
    · simp only [Function.update_of_ne hk] at hj
      exact .inl hj
  have hold : ∀ k j, j < cnt k → setNode node h (cnt h) m.next k j = node k j := by
    intro k j hj
    refine setNode_of_ne ?_
    rintro ⟨rfl, rfl⟩
    omega
  have hold' : ∀ k ≤ H, ∀ j < cnt k, node k j ≠ m.next := by
    intro k hk j hj
    exact Nat.ne_of_lt (t.ok.named _ ((t.alloc _).2 ⟨k, hk, j, hj, rfl⟩))
  refine ⟨m', ?_, ⟨⟨?_, ?_, ?_⟩, ?_, ?_, ?_⟩, ?_, ?_⟩
  · rw [Config.insertBlock, hloc]
    exact hw
  · rw [Function.update_of_ne hne.symm]
    exact t.top
  · intro k hk hg j hj
    refine Nat.lt_of_lt_of_le ?_ (hle (k + 1))
    rcases hlt k j hj with hj | ⟨rfl, rfl⟩
    · exact t.parent k hk hg j hj
    · exact hp
  · intro k hk hg j hj
    rcases hlt k j hj with hj | ⟨rfl, rfl⟩
    · have hup := t.parent k hk hg j hj
      have hsome := (t.alloc (node (k + 1) (j / c.gaddrsPerBucket))).2 ⟨k + 1, hk, _, hup, rfl⟩
      rw [hold k j hj, hold (k + 1) _ hup, hother, (Memory.readPtr_malloc t.ok hsome).1]
      · exact t.child k hk hg j hj
      · intro heq
        obtain ⟨hb, ho⟩ := GAddr.mk.inj heq
        obtain ⟨hkh, hdiv⟩ := t.inj (k + 1) hk _ hup (h + 1) (by omega) _ hp hb
        have hmod : j % c.gaddrsPerBucket = cnt h % c.gaddrsPerBucket := by
          unfold gaddrSize at ho
          omega
        have hj' : j = cnt h := by
          rw [← Nat.div_add_mod j c.gaddrsPerBucket, hdiv, hmod, Nat.div_add_mod]
        obtain rfl : k = h := by omega
        omega
    · have hup : setNode node k (cnt k) m.next (k + 1) (cnt k / c.gaddrsPerBucket) =
          node (k + 1) (cnt k / c.gaddrsPerBucket) := hold (k + 1) _ hp
      rw [hup, setNode_self, Nat.mul_comm]
      exact hself
  · exact t.ok.malloc.writePtr hnext hfreed hsome'
  · intro b
    rw [hsome', hsome]
    constructor
    · rintro (rfl | hb)
      · exact ⟨h, by omega, cnt h, by simp, setNode_self.symm⟩
      · obtain ⟨k, hk, j, hj, rfl⟩ := (t.alloc b).1 hb
        exact ⟨k, hk, j, Nat.lt_of_lt_of_le hj (hle k), (hold k j hj).symm⟩
    · rintro ⟨k, hk, j, hj, rfl⟩
      rcases hlt k j hj with hj | ⟨rfl, rfl⟩
      · rw [hold k j hj]
        exact .inr ((t.alloc _).2 ⟨k, hk, j, hj, rfl⟩)
      · exact .inl setNode_self
  · intro k hk j hj k' hk' j' hj' heq
    rcases hlt k j hj with hlt₁ | ⟨rfl, rfl⟩
    · rw [hold k j hlt₁] at heq
      rcases hlt k' j' hj' with hlt₂ | ⟨rfl, rfl⟩
      · rw [hold k' j' hlt₂] at heq
        exact t.inj k hk j hlt₁ k' hk' j' hlt₂ heq
      · rw [setNode_self] at heq
        exact absurd heq (hold' k hk j hlt₁)
    · rw [setNode_self] at heq
      rcases hlt k' j' hj' with hlt₂ | ⟨rfl, rfl⟩
      · rw [hold k' j' hlt₂] at heq
        exact absurd heq.symm (hold' k' hk' j' hlt₂)
      · exact ⟨rfl, rfl⟩
  · intro k _ j hj
    exact hold k j hj
  · intro j hj o
    have hsome := (t.alloc (node 0 j)).2 ⟨0, Nat.zero_le H, j, hj, rfl⟩
    rw [hitem, (Memory.readPtr_malloc (a := ⟨node 0 j, o⟩) t.ok hsome).2]

end

end HwGam.GArray
