import HwGam.GArray.Tree

/-!
# Growing

The loops of the constructor and of an enlarging `Resize`: they go from the root downwards and
extend one layer after the other.
-/

namespace HwGam.GArray

variable {T : Type} {c : Config T} {m : Memory T} {H h l : Nat} {cnt : Nat → Nat}
  {node : Nat → Nat → Nat} {gap : Option Nat}

/-- Only the counts up to the root matter. -/
theorem Tree.congr {cnt' : Nat → Nat} (t : Tree c m H cnt node gap) (hc : ∀ h ≤ H, cnt' h = cnt h) :
    Tree c m H cnt' node gap where
  top := (hc H le_rfl).trans t.top
  parent h hh hg j hj := by
    rw [hc h hh.le] at hj
    rw [hc (h + 1) hh]
    exact t.parent h hh hg j hj
  child h hh hg j hj := by
    rw [hc h hh.le] at hj
    exact t.child h hh hg j hj
  ok := t.ok
  alloc b := by
    rw [t.alloc b]
    constructor
    · rintro ⟨h, hh, j, hj, rfl⟩
      exact ⟨h, hh, j, by rwa [hc h hh], rfl⟩
    · rintro ⟨h, hh, j, hj, rfl⟩
      exact ⟨h, hh, j, by rwa [← hc h hh], rfl⟩
  inj h hh j hj h' hh' j' hj' := by
    rw [hc h hh] at hj
    rw [hc h' hh'] at hj'
    exact t.inj h hh j hj h' hh' j' hj'

/-- One layer gets `k` more blocks. -/
theorem Tree.addBlocks {k : Nat} (t : Tree c m H cnt node gap) (hl : h + l = H) (h1 : 1 ≤ l)
    (hgap : ∀ h', h ≤ h' → gap ≠ some h')
    (hp : ∀ j < cnt h + k, j / c.gaddrsPerBucket < cnt (h + 1)) :
    ∃ m' node', c.addBlocks (node H 0) (H + 1) l (List.range' (cnt h) k) m = some m' ∧
      Tree c m' H (Function.update cnt h (cnt h + k)) node' gap ∧ Keeps cnt node node' H m m' := by
  induction k generalizing m cnt node with
  | zero =>
    refine ⟨m, node, rfl, t.congr fun h' _ => ?_, .refl⟩
    by_cases hh : h' = h
    · subst hh
      simp
    · simp [hh]
  | succ k ih =>
    obtain ⟨m₁, hm₁, t₁, hk₁⟩ := t.add hl h1 hgap (hp (cnt h) (by omega))
    have hroot : setNode node h (cnt h) m.next H 0 = node H 0 :=
      hk₁.same H le_rfl 0 (by have := t.top; omega)
    have hself : Function.update cnt h (cnt h + 1) h = cnt h + 1 := Function.update_self _ _ _
    have habove : Function.update cnt h (cnt h + 1) (h + 1) = cnt (h + 1) :=
      Function.update_of_ne (by omega) _ _
    obtain ⟨m', node', hm', t', hk'⟩ := ih t₁ (by
      intro j hj
      rw [habove]
      rw [hself] at hj
      exact hp j (by omega))
    rw [hself, hroot] at hm'
    rw [hself, Function.update_idem] at t'
    refine ⟨m', node', ?_, t'.congr fun h' _ => ?_, hk₁.trans hk' fun h' _ => ?_⟩
    · rw [List.range'_succ, Config.addBlocks, List.foldlM_cons, hm₁]
      exact hm'
    · rw [Nat.add_right_comm, Nat.add_assoc]
    · by_cases hh : h' = h
      · subst hh
        simp
      · simp [hh]

/-- The layers `l₀` to `l₀ + k - 1` get the widths `tgt`, below a layer that has its width. -/
theorem Tree.addLayers (t : Tree c m H cnt node gap) (l₀ k : Nat) (tgt lo hi : Nat → Nat)
    (hl : l₀ + k ≤ H + 1) (h1 : 1 ≤ l₀) (hgap : ∀ h', H < h' + l₀ + k → gap ≠ some h')
    (htgt : ∀ h, ∀ j < tgt h, j / c.gaddrsPerBucket < tgt (h + 1))
    (habove : ∀ h, h + l₀ = H + 1 → cnt h = tgt h)
    (hcnt : ∀ h, H < h + l₀ + k → h + l₀ ≤ H → cnt h ≤ tgt h)
    (hlo : ∀ l, l₀ ≤ l → l < l₀ + k → lo l = cnt (H - l))
    (hhi : ∀ l, l₀ ≤ l → l < l₀ + k → hi l = tgt (H - l)) :
    ∃ m' node', c.addLayers (node H 0) (H + 1) lo hi (List.range' l₀ k) m = some m' ∧
      Tree c m' H (fun h => if H < h + l₀ + k ∧ h + l₀ ≤ H then tgt h else cnt h) node' gap ∧
      Keeps cnt node node' H m m' := by
  induction k generalizing m cnt node l₀ with
  | zero =>
    refine ⟨m, node, rfl, t.congr fun h' _ => ?_, .refl⟩
    rw [if_neg (by omega)]
  | succ k ih =>
    have hle : cnt (H - l₀) ≤ tgt (H - l₀) := hcnt (H - l₀) (by omega) (by omega)
    have hsum : cnt (H - l₀) + (tgt (H - l₀) - cnt (H - l₀)) = tgt (H - l₀) := by omega
    obtain ⟨m₁, node₁, hm₁, t₁, hk₁⟩ := t.addBlocks (h := H - l₀) (l := l₀)
      (k := tgt (H - l₀) - cnt (H - l₀)) (by omega) h1 (fun h' hh => hgap h' (by omega)) (by
        intro j hj
        rw [hsum] at hj
        rw [habove (H - l₀ + 1) (by omega)]
        exact htgt _ j hj)
    rw [hsum] at t₁
    have hroot : node₁ H 0 = node H 0 := hk₁.same H le_rfl 0 (by have := t.top; omega)
    have hself : Function.update cnt (H - l₀) (tgt (H - l₀)) (H - l₀) = tgt (H - l₀) :=
      Function.update_self _ _ _
    have hother : ∀ h, h ≠ H - l₀ → Function.update cnt (H - l₀) (tgt (H - l₀)) h = cnt h :=
      fun h hh => Function.update_of_ne hh _ _
    obtain ⟨m', node', hm', t', hk'⟩ := ih t₁ (l₀ + 1) (by omega) (by omega)
      (fun h' hh => hgap h' (by omega))
      (fun h hh => by
        obtain rfl : h = H - l₀ := by omega
        exact hself)
      (fun h hh hh' => by
        rw [hother h (by omega)]
        exact hcnt h (by omega) (by omega))
      (fun l hl hl' => by
        rw [hother (H - l) (by omega)]
        exact hlo l (by omega) (by omega))
      (fun l hl hl' => hhi l (by omega) (by omega))
    rw [hroot] at hm'
    refine ⟨m', node', ?_, t'.congr fun h' hh => ?_, hk₁.trans hk' fun h' hh => ?_⟩
    · rw [List.range'_succ, Config.addLayers, List.foldlM_cons, hlo l₀ le_rfl (by omega),
        hhi l₀ le_rfl (by omega), hm₁]
      exact hm'
    · by_cases heq : h' = H - l₀
      · subst heq
        rw [if_pos (by omega), if_neg (by omega), hself]
      · rw [hother h' heq]
        by_cases hin : H < h' + l₀ + (k + 1) ∧ h' + l₀ ≤ H
        · rw [if_pos hin, if_pos (by omega)]
        · rw [if_neg hin, if_neg (by omega)]
    · by_cases heq : h' = H - l₀
      · subst heq
        rw [hself]
        exact hle
      · rw [hother h' heq]

/-- A root that stands over an old one, not yet linked to it. -/
theorem Tree.newRoot {H' : Nat} (t : Tree c m H cnt node none) (hH : H < H') :
    Tree c (m.malloc c).2 H' (fun h => if h ≤ H then cnt h else if h = H' then 1 else 0)
      (setNode node H' 0 m.next) (some H) ∧
    Keeps cnt node (setNode node H' 0 m.next) H m (m.malloc c).2 := by
  have hsome : ∀ b, ((m.malloc c).2.bucket b).isSome = true ↔
      b = m.next ∨ (m.bucket b).isSome = true := by
    intro b
    by_cases hb : b = m.next
    · subst hb
      simp [Memory.malloc]
    · simp [Memory.malloc, hb]
  have hold : ∀ k ≤ H, ∀ j, setNode node H' 0 m.next k j = node k j := by
    intro k hk j
    refine setNode_of_ne ?_
    omega
  have hold' : ∀ k ≤ H, ∀ j < cnt k, node k j ≠ m.next := by
    intro k hk j hj
    exact Nat.ne_of_lt (t.ok.named _ ((t.alloc _).2 ⟨k, hk, j, hj, rfl⟩))
  have hlt : ∀ k j, j < (if k ≤ H then cnt k else if k = H' then 1 else 0) →
      (k ≤ H ∧ j < cnt k) ∨ (k = H' ∧ j = 0) := by
    intro k j hj
    split at hj
    · exact .inl ⟨by assumption, hj⟩
    · split at hj
      · exact .inr ⟨by assumption, by omega⟩
      · omega
  refine ⟨⟨⟨?_, ?_, ?_⟩, t.ok.malloc, ?_, ?_⟩, ?_, ?_⟩
  · rw [if_neg (by omega), if_pos rfl]
  · intro k hk hg j hj
    rcases hlt k j hj with ⟨hle, hj⟩ | ⟨rfl, -⟩
    · have hne : k ≠ H := fun heq => hg (by rw [heq])
      rw [if_pos (by omega)]
      exact t.parent k (by omega) (by simp) j hj
    · omega
  · intro k hk hg j hj
    rcases hlt k j hj with ⟨hle, hj⟩ | ⟨rfl, -⟩
    · have hne : k ≠ H := fun heq => hg (by rw [heq])
      have hup := t.parent k (by omega) (by simp) j hj
      have hs := (t.alloc (node (k + 1) (j / c.gaddrsPerBucket))).2 ⟨k + 1, by omega, _, hup, rfl⟩
      rw [hold k hle, hold (k + 1) (by omega), (Memory.readPtr_malloc t.ok hs).1]
      exact t.child k (by omega) (by simp) j hj
    · omega
  · intro b
    rw [hsome]
    constructor
    · rintro (rfl | hb)
      · refine ⟨H', le_rfl, 0, ?_, setNode_self.symm⟩
        rw [if_neg (by omega), if_pos rfl]
        omega
      · obtain ⟨k, hk, j, hj, rfl⟩ := (t.alloc b).1 hb
        exact ⟨k, by omega, j, by rwa [if_pos hk], (hold k hk j).symm⟩
    · rintro ⟨k, hk, j, hj, rfl⟩
      rcases hlt k j hj with ⟨hle, hj⟩ | ⟨rfl, rfl⟩
      · rw [hold k hle]
        exact .inr ((t.alloc _).2 ⟨k, hle, j, hj, rfl⟩)
      · exact .inl setNode_self
  · intro k hk j hj k' hk' j' hj' heq
    rcases hlt k j hj with ⟨hle, hlt₁⟩ | ⟨rfl, rfl⟩
    · rw [hold k hle] at heq
      rcases hlt k' j' hj' with ⟨hle', hlt₂⟩ | ⟨rfl, rfl⟩
      · rw [hold k' hle'] at heq
        exact t.inj k hle j hlt₁ k' hle' j' hlt₂ heq
      · rw [setNode_self] at heq
        exact absurd heq (hold' k hle j hlt₁)
    · rw [setNode_self] at heq
      rcases hlt k' j' hj' with ⟨hle', hlt₂⟩ | ⟨rfl, rfl⟩
      · rw [hold k' hle'] at heq
        exact absurd heq.symm (hold' k' hle' j' hlt₂)
      · exact ⟨rfl, rfl⟩
  · intro k hk j _
    exact hold k hk j
  · intro j hj o
    have hs := (t.alloc (node 0 j)).2 ⟨0, Nat.zero_le H, j, hj, rfl⟩
    exact (Memory.readPtr_malloc (a := ⟨node 0 j, o⟩) t.ok hs).2

/-- The old root becomes the first block of its layer. -/
theorem Tree.link (t : Tree c m H cnt node (some h)) (hl : h + l = H) (h1 : 1 ≤ l)
    (hone : cnt h = 1) (hp : 0 < cnt (h + 1)) :
    ∃ m', c.insertBlock (node H 0) (H + 1) l 0 (node h 0) m = some m' ∧
      Tree c m' H cnt node none ∧ Keeps cnt node node H m m' := by
  have hzero : 0 / c.gaddrsPerBucket = 0 := Nat.zero_div _
  have hloc := t.locateInternal (j := 0) hl h1 (fun h' hh heq => by
    rw [Option.some.injEq] at heq
    omega) (by rwa [hzero])
  have hpar : (m.bucket (node (h + 1) (0 / c.gaddrsPerBucket))).isSome = true :=
    (t.alloc _).2 ⟨h + 1, by omega, _, by rwa [hzero], rfl⟩
  obtain ⟨m', hw, hnext, hfreed, hsome, hitem, hself, hother⟩ :=
    Memory.exists_writePtr (m := m)
      (a := ⟨node (h + 1) (0 / c.gaddrsPerBucket), 0 % c.gaddrsPerBucket * gaddrSize⟩) (node h 0) hpar
  refine ⟨m', ?_, ⟨⟨t.top, ?_, ?_⟩, t.ok.writePtr hnext hfreed hsome, ?_, t.inj⟩, ?_, ?_⟩
  · rw [Config.insertBlock, hloc]
    exact hw
  · intro k hk _ j hj
    by_cases heq : k = h
    · subst heq
      obtain rfl : j = 0 := by omega
      rwa [hzero]
    · exact t.parent k hk (by simpa using Ne.symm heq) j hj
  · intro k hk _ j hj
    by_cases heq : k = h
    · subst heq
      obtain rfl : j = 0 := by omega
      rw [Nat.mul_comm]
      exact hself
    · have hg : some h ≠ some k := by simpa using Ne.symm heq
      have hup := t.parent k hk hg j hj
      rw [hother]
      · exact t.child k hk hg j hj
      · intro ha
        obtain ⟨hb, -⟩ := GAddr.mk.inj ha
        obtain ⟨hkh, -⟩ := t.inj (k + 1) hk _ hup (h + 1) (by omega) _ (by rwa [hzero]) hb
        omega
  · intro b
    rw [hsome]
    exact t.alloc b
  · intro _ _ _ _
    rfl
  · intro j _ o
    exact hitem _


theorem Keeps.mono {cnt : Nat → Nat} {node node' : Nat → Nat → Nat} {H H' : Nat} {m m' : Memory T}
    (h : Keeps cnt node node' H' m m') (hle : H ≤ H') : Keeps cnt node node' H m m' :=
  ⟨fun k hk => h.same k (hk.trans hle), h.item⟩

/-! ## The array -/

/-- The array as a tree of height `H`; an array of no items has a bucket too. -/
structure Shape (c : Config T) (s : Sys T) (H : Nat) (node : Nat → Nat → Nat) : Prop where
  layer : s.arr.layer = H + 1
  root : s.arr.rootAddr = node H 0
  height : c.Height (max s.arr.size 1) H
  tree : Tree c s.mem H (c.width (max s.arr.size 1)) node none
  capacity : s.arr.capacity = c.capacity (max s.arr.size 1)

section
variable {s : Sys T} {n H' : Nat} {node' : Nat → Nat → Nat}

theorem le_capacity (c : Config T) (n : Nat) : n ≤ c.capacity n := by
  by_contra hlt
  have := mt (lt_ceilDivide c.itemsPerBucket_pos).2 (Nat.lt_irrefl (ceilDivide n c.itemsPerBucket))
  rw [Config.capacity] at hlt
  omega

theorem itemsPerBucket_le_capacity (c : Config T) (h1 : 1 ≤ n) : c.itemsPerBucket ≤ c.capacity n := by
  have h0 : 0 < ceilDivide n c.itemsPerBucket := by
    rw [lt_ceilDivide c.itemsPerBucket_pos]
    omega
  exact Nat.le_mul_of_pos_left _ h0

/-- A larger array has more items than a bucket. -/
theorem Shape.lt_of_capacity_lt (hs : Shape c s H node) (hn : s.arr.capacity < n) :
    c.itemsPerBucket < n ∧ max s.arr.size 1 < n := by
  rw [hs.capacity] at hn
  have h1 := le_capacity c (max s.arr.size 1)
  have h2 := itemsPerBucket_le_capacity c (le_max_right s.arr.size 1)
  omega

theorem lt_gaddrs_mul (c : Config T) (h : c.itemsPerBucket < n) :
    c.itemsPerBucket < c.gaddrsPerBucket * n :=
  Nat.lt_of_lt_of_le h (Nat.le_mul_of_pos_left _ (Nat.lt_of_lt_of_le Nat.zero_lt_one
    c.gaddrsPerBucket_gt.le))

/-- The widths `CalLayers` finds for the old size are those of the tree, below its root. -/
theorem Shape.width_size (hs : Shape c s H node) (hH : 0 < H) (h : Nat) :
    c.width s.arr.size h = c.width (max s.arr.size 1) h := by
  have hspan := hs.height.2 0 hH
  have hpos := c.span_pos 0
  rw [max_eq_left (by omega)]

/-- New layers above the old root. -/
theorem Shape.grow_above (hs : Shape c s H node) (hn : max s.arr.size 1 < n) (hH : H < H')
    (hn' : c.Height n H') (hlay : c.layers n = H' + 1) :
    ∃ node' m', c.grow n s = some (node' H' 0, m') ∧ Tree c m' H' (c.width n) node' none ∧
      Keeps (c.width (max s.arr.size 1)) node node' H s.mem m' := by
  have hold : s.arr.layer.toNat = H + 1 := by rw [hs.layer]; omega
  have hnew : (c.layers n).toNat = H' + 1 := by rw [hlay]; omega
  have htop : c.width n H' = 1 := Config.width_eq_one (by omega) hn'.1
  have hone : c.width (max s.arr.size 1) H = 1 := hs.tree.top
  have hpos : ∀ h, 0 < c.width n h := fun h => Config.lt_width.2 (by omega)
  obtain ⟨t₁, hk₁⟩ := hs.tree.newRoot hH
  -- the layers above that of the old root
  obtain ⟨m₂, node₂, hm₂, t₂, hk₂⟩ := t₁.addLayers 1 (H' - H - 1) (c.width n) (fun _ => 0)
    (c.calLayers n (H' + 1)) (by omega) le_rfl
    (fun h' hh heq => by
      rw [Option.some.injEq] at heq
      omega)
    (fun h j => Config.width_parent)
    (fun h hh => by
      obtain rfl : h = H' := by omega
      rw [if_neg (by omega), if_pos rfl, htop])
    (fun h hh hh' => by
      rw [if_neg (by omega), if_neg (by omega)]
      omega)
    (fun l hl hl' => by
      rw [if_neg (by omega), if_neg (by omega)])
    (fun l _ _ => Config.calLayers_eq n H' l)
  have hroot₂ : node₂ H' 0 = s.mem.next := by
    rw [hk₂.same H' le_rfl 0 (by rw [if_neg (by omega), if_pos rfl]; omega), setNode_self]
  have hkeep₂ : Keeps (c.width (max s.arr.size 1)) node node₂ H s.mem m₂ :=
    hk₁.trans (hk₂.mono hH.le) fun h hh => by rw [if_pos hh]
  -- the old root is linked
  obtain ⟨m₃, hm₃, t₃, hk₃⟩ := t₂.link (l := H' - H) (by omega) (by omega)
    (by rw [if_neg (by omega), if_pos le_rfl, hone])
    (by
      by_cases hin : H + 1 = H'
      · rw [if_neg (by omega), if_neg (by omega), if_pos hin]
        omega
      · rw [if_pos (by omega)]
        exact hpos _)
  have hlast : node₂ H 0 = s.arr.rootAddr := by
    rw [hs.root, hkeep₂.same H le_rfl 0 (by omega)]
  have t₃ : Tree c m₃ H' (fun h => if h ≤ H then c.width (max s.arr.size 1) h else c.width n h)
      node₂ none := by
    refine t₃.congr fun h hh => ?_
    by_cases hle : h ≤ H
    · rw [if_pos hle, if_neg (by omega), if_pos hle]
    · by_cases heq : h = H'
      · subst heq
        rw [if_neg hle, if_neg (by omega), if_neg hle, if_pos rfl, htop]
      · rw [if_neg hle, if_pos (by omega)]
  have hwidth : ∀ h ≤ H', c.width n h = 1 + (c.width n h - 1) := by
    intro h _
    have := hpos h
    omega
  -- the rest of its layer
  obtain ⟨m₄, node₄, hm₄, t₄, hk₄⟩ := t₃.addBlocks (h := H) (l := H' - H) (k := c.width n H - 1)
    (by omega) (by omega) (by simp)
    (fun j hj => by
      rw [if_pos le_rfl, hone, ← hwidth H hH.le] at hj
      rw [if_neg (by omega)]
      exact Config.width_parent hj)
  rw [if_pos le_rfl, hone, ← hwidth H hH.le] at t₄
  rw [if_pos le_rfl, hone] at hm₄
  have t₄ : Tree c m₄ H' (fun h => if h < H then c.width (max s.arr.size 1) h else c.width n h)
      node₄ none := by
    refine t₄.congr fun h hh => ?_
    by_cases heq : h = H
    · subst heq
      rw [if_neg (by omega), Function.update_self]
    · rw [Function.update_of_ne heq]
      by_cases hle : h < H
      · rw [if_pos hle, if_pos hle.le]
      · rw [if_neg hle, if_neg (by omega)]
  have hroot₄ : node₄ H' 0 = node₂ H' 0 := hk₄.same H' le_rfl 0 (by
    rw [if_neg (by omega)]
    exact hpos _)
  -- the layers below
  obtain ⟨m', node', hm', t', hk'⟩ := t₄.addLayers (H' - H + 1) H (c.width n)
    (fun i => c.calLayers s.arr.size (H + 1) (i - (H' - H))) (c.calLayers n (H' + 1)) (by omega)
    (by omega) (by simp) (fun h j => Config.width_parent)
    (fun h hh => by
      obtain rfl : h = H := by omega
      rw [if_neg (by omega)])
    (fun h hh hh' => by
      rw [if_pos (by omega)]
      exact Config.width_mono hn.le h)
    (fun l hl hl' => by
      rw [Config.calLayers_eq, hs.width_size (by omega), if_pos (by omega)]
      congr 1
      omega)
    (fun l _ _ => Config.calLayers_eq n H' l)
  have hroot' : node' H' 0 = node₄ H' 0 := hk'.same H' le_rfl 0 (by
    rw [if_neg (by omega)]
    exact hpos _)
  refine ⟨node', m', ?_, t'.congr fun h hh => ?_, ?_⟩
  · have hd : H' + 1 - (H + 1) = H' - H := by omega
    have hcount : c.calLayers n (H' + 1) (H' - H) = c.width n H := by
      rw [Config.calLayers_eq]
      congr 1
      omega
    have hrest : H' + 1 - (H' - H + 1) = H := by omega
    rw [hroot', hroot₄] at *
    rw [hroot₂] at *
    rw [Config.grow]
    simp only [hold, hnew, hd, hcount, hrest]
    rw [if_pos (by rw [hs.layer, hlay]; omega)]
    rw [setNode_self] at hm₂
    rw [hlast] at hm₃
    simp only [Memory.malloc] at hm₂ ⊢
    simp only [hm₂, hm₃, hm₄, hm', Option.bind_eq_bind, Option.bind_some]
    rfl
  · by_cases hlt : h < H
    · rw [if_pos (by omega)]
    · by_cases heq : H' < h + (H' - H + 1) + H ∧ h + (H' - H + 1) ≤ H'
      · rw [if_pos heq]
      · rw [if_neg heq, if_neg hlt]
  · refine (hkeep₂.trans (hk₃.mono hH.le) fun h hh => ?_).trans ((hk₄.trans hk' fun h _ => ?_).mono
      hH.le) fun h hh => ?_
    · rw [if_neg (by omega), if_pos hh]
    · by_cases hlt : h < H
      · rw [if_pos hlt, if_pos hlt.le]
      · rw [if_neg hlt]
        by_cases hle : h ≤ H
        · rw [if_pos hle]
          exact Config.width_mono hn.le h
        · rw [if_neg hle]
    · rw [if_pos hh]

/-- More blocks in the layers below the root. -/
theorem Shape.grow_below (hs : Shape c s H node) (hn : max s.arr.size 1 < n) (hn' : c.Height n H)
    (hlay : c.layers n = H + 1) :
    ∃ node' m', c.grow n s = some (node' H 0, m') ∧ Tree c m' H (c.width n) node' none ∧
      Keeps (c.width (max s.arr.size 1)) node node' H s.mem m' := by
  have hold : s.arr.layer.toNat = H + 1 := by rw [hs.layer]; omega
  have hnew : (c.layers n).toNat = H + 1 := by rw [hlay]; omega
  have htop : c.width n H = 1 := Config.width_eq_one (by omega) hn'.1
  have hone : c.width (max s.arr.size 1) H = 1 := hs.tree.top
  obtain ⟨m', node', hm', t', hk'⟩ := hs.tree.addLayers 1 H (c.width n)
    (c.calLayers s.arr.size (H + 1)) (c.calLayers n (H + 1)) (by omega) le_rfl (by simp)
    (fun h j => Config.width_parent)
    (fun h hh => by
      obtain rfl : h = H := by omega
      rw [hone, htop])
    (fun h _ _ => Config.width_mono hn.le h)
    (fun l hl hl' => by rw [Config.calLayers_eq, hs.width_size (by omega)])
    (fun l _ _ => Config.calLayers_eq n H l)
  have hroot : node' H 0 = node H 0 := hk'.same H le_rfl 0 (by omega)
  refine ⟨node', m', ?_, t'.congr fun h hh => ?_, hk'⟩
  · rw [hroot, ← hs.root, Config.grow]
    simp only [hold, hnew]
    rw [if_neg (by rw [hs.layer, hlay]; omega), Nat.add_sub_cancel, hs.root, hm']
    rfl
  · by_cases heq : h = H
    · subst heq
      rw [if_neg (by omega), hone, htop]
    · rw [if_pos (by omega)]

/-- `Resize` beyond the capacity. -/
theorem Shape.grow (hs : Shape c s H node) (hn : s.arr.capacity < n) :
    ∃ H' node' m', H ≤ H' ∧ c.Height n H' ∧ c.layers n = H' + 1 ∧
      c.grow n s = some (node' H' 0, m') ∧ Tree c m' H' (c.width n) node' none ∧
      Keeps (c.width (max s.arr.size 1)) node node' H s.mem m' := by
  obtain ⟨hi, hlt⟩ := hs.lt_of_capacity_lt hn
  obtain ⟨H', hH'⟩ := c.exists_height n
  have hlay := Config.layers_of_height hH' (by omega) (lt_gaddrs_mul c hi)
  have hle := hs.height.le hH' hlt.le
  rcases Nat.lt_or_eq_of_le hle with h | rfl
  · obtain ⟨node', m', hg, t, hk⟩ := hs.grow_above hlt h hH' hlay
    exact ⟨H', node', m', hle, hH', hlay, hg, t, hk⟩
  · obtain ⟨node', m', hg, t, hk⟩ := hs.grow_below hlt hH' hlay
    exact ⟨H, node', m', hle, hH', hlay, hg, t, hk⟩

/-- A root alone. -/
theorem tree_root (c : Config T) (H : Nat) :
    Tree c (({} : Memory T).malloc c).2 H (fun h => if h = H then 1 else 0) (fun _ _ => 0) none := by
  have hempty : ({} : Memory T).Ok := ⟨by simp, by simp, .nil⟩
  have hlt : ∀ h j, j < (if h = H then 1 else 0) → h = H ∧ j = 0 := by
    intro h j hj
    split at hj
    · exact ⟨by assumption, by omega⟩
    · omega
  refine ⟨⟨if_pos rfl, ?_, ?_⟩, hempty.malloc, ?_, ?_⟩
  · intro h hh _ j hj
    have := (hlt h j hj).1
    omega
  · intro h hh _ j hj
    have := (hlt h j hj).1
    omega
  · intro b
    constructor
    · intro hb
      refine ⟨H, le_rfl, 0, by rw [if_pos rfl]; omega, ?_⟩
      have := hempty.malloc.named b hb
      simp only [Memory.malloc] at this
      omega
    · rintro ⟨h, -, j, -, rfl⟩
      simp [Memory.malloc]
  · intro h _ j hj h' _ j' hj' _
    obtain ⟨rfl, rfl⟩ := hlt h j hj
    obtain ⟨rfl, rfl⟩ := hlt h' j' hj'
    exact ⟨rfl, rfl⟩

/-- The constructor. -/
theorem exists_create (c : Config T) {size : Nat} (hsize : ceilDivide size c.itemsPerBucket < 2 ^ 31) :
    ∃ s H node, c.create size = some s ∧ Shape c s H node ∧ s.content = fun _ => none := by
  by_cases hle : size ≤ c.itemsPerBucket
  · have hwidth : c.width (max size 1) 0 = 1 :=
      Config.width_eq_one (by omega) (by
        rw [Config.span_zero]
        have := c.itemsPerBucket_pos
        omega)
    have hcap : c.capacity (max size 1) = c.itemsPerBucket := by
      have : ceilDivide (max size 1) c.itemsPerBucket = 1 := hwidth
      rw [Config.capacity, this, Nat.one_mul]
    refine ⟨_, 0, fun _ _ => 0, by rw [Config.create, if_pos hle], ⟨rfl, rfl, ?_, ?_, hcap.symm⟩, rfl⟩
    · refine ⟨?_, by omega⟩
      rw [Config.span_zero]
      have := c.itemsPerBucket_pos
      dsimp only
      omega
    · refine (tree_root c 0).congr fun h hh => ?_
      obtain rfl : h = 0 := by omega
      rw [if_pos rfl]
      exact hwidth
  · have hi : c.itemsPerBucket < size := by omega
    have hmax : max size 1 = size := max_eq_left (by omega)
    obtain ⟨H, hH⟩ := c.exists_height size
    have hlay := Config.layers_of_height hH (by omega) (lt_gaddrs_mul c hi)
    have hnew : (c.layers size).toNat = H + 1 := by rw [hlay]; omega
    have htop : c.width size H = 1 := Config.width_eq_one (by omega) hH.1
    obtain ⟨m', node', hm', t', hk'⟩ := (tree_root c H).addLayers 1 H (c.width size) (fun _ => 0)
      (c.calLayers size (H + 1)) (by omega) le_rfl (by simp) (fun h j => Config.width_parent)
      (fun h hh => by
        obtain rfl : h = H := by omega
        rw [if_pos rfl, htop])
      (fun h hh hh' => by
        rw [if_neg (by omega)]
        omega)
      (fun l hl hl' => by rw [if_neg (by omega)])
      (fun l _ _ => Config.calLayers_eq size H l)
    have hroot : node' H 0 = 0 := hk'.same H le_rfl 0 (by
      rw [if_pos rfl]
      omega)
    refine ⟨{ mem := m', arr := ⟨0, size, c.capacity size, c.layers size⟩ }, H, node', ?_,
      ⟨hlay, hroot.symm, ?_, ?_, ?_⟩, rfl⟩
    · rw [Config.create, if_neg hle]
      simp only [hnew, if_neg (Nat.not_le.2 hsize), Nat.add_sub_cancel]
      rw [show (({} : Memory T).malloc c).1 = 0 from rfl, hm']
      rfl
    · dsimp only
      rwa [hmax]
    · dsimp only
      rw [hmax]
      refine t'.congr fun h hh => ?_
      by_cases heq : h = H
      · subst heq
        rw [if_neg (by omega), if_pos rfl, htop]
      · rw [if_pos (by omega)]
    · dsimp only
      rw [hmax]

end

end HwGam.GArray
