import HwGam.GArray.Grow

/-!
# Shrinking

A shrinking `Resize` frees the blocks bottom-up, the last of a layer first, and finds each of them
from the old root. The new root is no longer linked once the layer above it goes.
-/

namespace HwGam.GArray

variable {T : Type} {c : Config T} {m m' : Memory T} {H h l : Nat} {cnt : Nat → Nat}
  {node : Nat → Nat → Nat} {gap : Option Nat}

/-! ## One block -/

theorem Memory.exists_free {b : Nat} (hm : m.Ok) (hb : (m.bucket b).isSome = true) :
    ∃ m', m.free b = some m' ∧ m'.Ok ∧ (m'.bucket b).isSome = false ∧
      ∀ x, x ≠ b → m'.bucket x = m.bucket x := by
  have hfree : m.free b = some { m with
      bucket := Function.update m.bucket b none, freed := m.freed ++ [b] } := if_pos hb
  refine ⟨_, hfree, ⟨?_, ?_, ?_⟩, by simp, fun x hx => Function.update_of_ne hx _ _⟩
  · intro x hx
    by_cases heq : x = b
    · subst heq
      simp at hx
    · dsimp only at hx
      rw [Function.update_of_ne heq] at hx
      exact hm.named x hx
  · intro x hx
    rcases List.mem_append.1 hx with hx | hx
    · obtain ⟨hlt, hnone⟩ := hm.gone x hx
      have heq : x ≠ b := by
        rintro rfl
        rw [hnone] at hb
        cases hb
      exact ⟨hlt, (Function.update_of_ne heq _ _).trans hnone⟩
    · obtain rfl := List.mem_singleton.1 hx
      exact ⟨hm.named x hb, Function.update_self _ _ _⟩
  · refine List.nodup_append.2 ⟨hm.once, List.nodup_singleton b, fun x hx y hy => ?_⟩
    obtain rfl := List.mem_singleton.1 hy
    rintro rfl
    rw [(hm.gone x hx).2] at hb
    cases hb

/-- The last block of a layer is freed; it has no children any more, or is not linked to them. -/
theorem Tree.remove {k : Nat} (t : Tree c m H cnt node gap) (hl : h + l = H) (h1 : 1 ≤ l)
    (hk : cnt h = k + 1) (hgap : ∀ h', h ≤ h' → gap ≠ some h')
    (hchild : ∀ h', h' + 1 = h → gap ≠ some h' → ∀ j < cnt h', j / c.gaddrsPerBucket < k) :
    ∃ m', c.freeBlock (node H 0) (H + 1) l k m = some m' ∧
      Tree c m' H (Function.update cnt h k) node gap ∧
      Keeps (Function.update cnt h k) node node H m m' := by
  have hpk := t.parent h (by omega) (hgap h le_rfl) k (by omega)
  have hread := t.child h (by omega) (hgap h le_rfl) k (by omega)
  have hloc := t.locateInternal hl h1 (fun h' hh => hgap h' (by omega)) hpk
  obtain ⟨m', hfree, hok, hgone, hother⟩ :=
    Memory.exists_free t.ok ((t.alloc (node h k)).2 ⟨h, by omega, k, by omega, rfl⟩)
  have hlt : ∀ h' j, j < Function.update cnt h k h' → j < cnt h' ∧ ¬ (h' = h ∧ j = k) := by
    intro h' j hj
    by_cases heq : h' = h
    · subst heq
      rw [Function.update_self] at hj
      omega
    · rw [Function.update_of_ne heq] at hj
      exact ⟨hj, fun hh => heq hh.1⟩
  have hlt' : ∀ h' j, j < cnt h' → ¬ (h' = h ∧ j = k) → j < Function.update cnt h k h' := by
    intro h' j hj hne
    by_cases heq : h' = h
    · subst heq
      rw [Function.update_self]
      omega
    · rwa [Function.update_of_ne heq]
  have hnode : ∀ h' ≤ H, ∀ j, j < Function.update cnt h k h' → node h' j ≠ node h k := by
    intro h' hh j hj heq
    obtain ⟨hj', hne⟩ := hlt h' j hj
    exact hne (t.inj h' hh j hj' h (by omega) k (by omega) heq)
  refine ⟨m', ?_, ⟨⟨?_, ?_, ?_⟩, hok, ?_, ?_⟩, fun _ _ _ _ => rfl, ?_⟩
  · rw [Config.freeBlock, hloc, Option.bind_some, Nat.mul_comm, hread]
    exact hfree
  · rw [Function.update_of_ne (by omega)]
    exact t.top
  · intro h' hh hg j hj
    obtain ⟨hj', -⟩ := hlt h' j hj
    refine hlt' _ _ (t.parent h' hh hg j hj') ?_
    rintro ⟨heq, hjk⟩
    have := hchild h' heq hg j hj'
    omega
  · intro h' hh hg j hj
    obtain ⟨hj', -⟩ := hlt h' j hj
    have hup : node (h' + 1) (j / c.gaddrsPerBucket) ≠ node h k := by
      refine hnode (h' + 1) hh _ (hlt' _ _ (t.parent h' hh hg j hj') ?_)
      rintro ⟨heq, hjk⟩
      have := hchild h' heq hg j hj'
      omega
    rw [Memory.readPtr, hother _ hup]
    exact t.child h' hh hg j hj'
  · intro b
    by_cases hb : b = node h k
    · subst hb
      rw [hgone]
      constructor
      · intro hf
        cases hf
      · rintro ⟨h', hh, j, hj, heq⟩
        exact absurd heq.symm (hnode h' hh j hj)
    · rw [hother b hb, t.alloc b]
      constructor
      · rintro ⟨h', hh, j, hj, rfl⟩
        refine ⟨h', hh, j, hlt' h' j hj ?_, rfl⟩
        rintro ⟨rfl, rfl⟩
        exact hb rfl
      · rintro ⟨h', hh, j, hj, rfl⟩
        exact ⟨h', hh, j, (hlt h' j hj).1, rfl⟩
  · intro h' hh j hj h'' hh' j' hj'
    exact t.inj h' hh j (hlt h' j hj).1 h'' hh' j' (hlt h'' j' hj').1
  · intro j hj o
    rw [Memory.readItem, hother _ (hnode 0 (Nat.zero_le H) j hj), Memory.readItem]

/-! ## The loops -/

theorem countDown_eq {old new : Nat} (hle : new ≤ old) (h : old ≤ 2 ^ 31) :
    Config.countDown old new = (List.range' new (old - new)).reverse := by
  have hbmod : ((old : Int) - 1).bmod (2 ^ 32) = (old : Int) - 1 := by
    rw [Int.bmod_eq_of_le] <;> omega
  rw [Config.countDown, hbmod]
  congr 2
  omega

/-- The blocks of a layer from the last one on, down to `k` of them. -/
theorem Tree.freeBlocks {k n : Nat} (t : Tree c m H cnt node gap) (hl : h + l = H) (h1 : 1 ≤ l)
    (hk : cnt h = k + n) (hgap : ∀ h', h ≤ h' → gap ≠ some h')
    (hchild : ∀ h', h' + 1 = h → gap ≠ some h' → ∀ j < cnt h', j / c.gaddrsPerBucket < k) :
    ∃ m', (List.range' k n).reverse.foldlM (fun m j => c.freeBlock (node H 0) (H + 1) l j m) m =
        some m' ∧ Tree c m' H (Function.update cnt h k) node gap ∧
      Keeps (Function.update cnt h k) node node H m m' := by
  induction n generalizing m cnt with
  | zero =>
    obtain rfl : cnt h = k := by omega
    rw [Function.update_eq_self]
    exact ⟨m, rfl, t, .refl⟩
  | succ n ih =>
    obtain ⟨m₁, hm₁, t₁, hk₁⟩ := t.remove (k := k + n) hl h1 (by omega) hgap
      fun h' hh hg j hj => Nat.lt_of_lt_of_le (hchild h' hh hg j hj) (Nat.le_add_right k n)
    have hself : Function.update cnt h (k + n) h = k + n := Function.update_self _ _ _
    obtain ⟨m', hm', t', hk'⟩ := ih t₁ hself fun h' hh hg j hj => by
      rw [Function.update_of_ne (by omega)] at hj
      exact hchild h' hh hg j hj
    rw [Function.update_idem] at t' hk'
    refine ⟨m', ?_, t', ?_, ?_⟩
    · rw [List.range'_concat, Nat.one_mul, List.reverse_append, List.reverse_singleton,
        List.singleton_append, List.foldlM_cons, hm₁]
      exact hm'
    · intro _ _ _ _
      rfl
    · intro j hj o
      rw [hk'.item j hj o, hk₁.item j ?_ o]
      by_cases h0 : 0 = h
      · subst h0
        rw [Function.update_self] at hj ⊢
        omega
      · rwa [Function.update_of_ne h0] at hj ⊢

theorem Keeps.mono_cnt {cnt' : Nat → Nat} (hk : Keeps cnt node node H m m')
    (hle : ∀ h ≤ H, cnt' h ≤ cnt h) : Keeps cnt' node node H m m' :=
  ⟨fun _ _ _ _ => rfl, fun j hj => hk.item j (Nat.lt_of_lt_of_le hj (hle 0 (Nat.zero_le H)))⟩

/-- A link is forgotten. -/
theorem Tree.forget (t : Tree c m H cnt node none) (gap : Option Nat) : Tree c m H cnt node gap where
  top := t.top
  parent h hh _ := t.parent h hh (by simp)
  child h hh _ := t.child h hh (by simp)
  ok := t.ok
  alloc := t.alloc
  inj := t.inj

/-- The upper `q` layers below the root are still to come; above the new root at height `H'` nothing
is left. -/
theorem Tree.freeLayers (H' q : Nat) (tgt old : Nat → Nat) (js : Nat → List Nat) (hq : q ≤ H)
    (t : Tree c m H (fun h => if h + q < H then tgt h else old h) node
      (if H' + q < H then some H' else none))
    (htgt : ∀ h, tgt h ≤ old h) (hpar : ∀ h < H', ∀ j < tgt h, j / c.gaddrsPerBucket < tgt (h + 1))
    (hzero : ∀ h, H' < h → tgt h = 0)
    (hjs : ∀ i, 1 ≤ i → i ≤ H →
      js i = (List.range' (tgt (H - i)) (old (H - i) - tgt (H - i))).reverse) :
    ∃ m', (List.range' 1 q).reverse.foldlM (fun m i =>
        (js i).foldlM (fun m j => c.freeBlock (node H 0) (H + 1) i j m) m) m = some m' ∧
      Tree c m' H (fun h => if h < H then tgt h else old h) node
        (if H' < H then some H' else none) ∧
      Keeps (fun h => if h < H then tgt h else old h) node node H m m' := by
  induction q generalizing m with
  | zero => exact ⟨m, rfl, t, .refl⟩
  | succ q ih =>
    have hcnt : (if H - (q + 1) + (q + 1) < H then tgt (H - (q + 1)) else old (H - (q + 1))) =
        tgt (H - (q + 1)) + (old (H - (q + 1)) - tgt (H - (q + 1))) := by
      have := htgt (H - (q + 1))
      rw [if_neg (by omega)]
      omega
    obtain ⟨m₁, hm₁, t₁, hk₁⟩ := t.freeBlocks (h := H - (q + 1)) (l := q + 1)
      (k := tgt (H - (q + 1))) (n := old (H - (q + 1)) - tgt (H - (q + 1))) (by omega) (by omega) hcnt
      (fun h' hh => by
        split
        · rw [ne_eq, Option.some.injEq]
          omega
        · simp)
      (fun h' hh hg j hj => by
        rw [if_pos (by omega)] at hj
        rcases Nat.lt_trichotomy h' H' with hlt | rfl | hlt
        · rw [← hh]
          exact hpar h' hlt j hj
        · rw [if_pos (by omega)] at hg
          exact absurd rfl hg
        · rw [hzero h' hlt] at hj
          omega)
    have hsame : ∀ h ≤ H, (if h + q < H then tgt h else old h) =
        Function.update (fun h => if h + (q + 1) < H then tgt h else old h) (H - (q + 1))
          (tgt (H - (q + 1))) h := by
      intro h hh
      by_cases heq : h = H - (q + 1)
      · rw [heq, Function.update_self, if_pos (by omega)]
      · rw [Function.update_of_ne heq]
        by_cases hlt : h + q < H
        · rw [if_pos hlt, if_pos (by omega)]
        · rw [if_neg hlt, if_neg (by omega)]
    have t₂ : Tree c m₁ H (fun h => if h + q < H then tgt h else old h) node
        (if H' + q < H then some H' else none) := by
      have t₂ := t₁.congr hsame
      by_cases hlt : H' + (q + 1) < H
      · rw [if_pos hlt] at t₂
        rwa [if_pos (by omega)]
      · rw [if_neg hlt] at t₂
        exact t₂.forget _
    obtain ⟨m', hm', t', hk'⟩ := ih (by omega) t₂
    refine ⟨m', ?_, t', (hk₁.mono_cnt fun h hh => ?_).trans hk' fun _ _ => le_rfl⟩
    · rw [List.range'_concat, Nat.one_mul, List.reverse_append, List.reverse_singleton,
        List.singleton_append, List.foldlM_cons, Nat.add_comm 1 q, hjs (q + 1) (by omega) hq, hm₁]
      exact hm'
    · rw [← hsame h hh]
      have := htgt h
      split
      · split <;> omega
      · rw [if_neg (by omega)]

/-- The old root goes last. -/
theorem Tree.freeRoot {H' : Nat} (t : Tree c m H cnt node (some H')) (hH : H' < H)
    (hone : cnt H' = 1) (hzero : ∀ h, H' < h → h < H → cnt h = 0) :
    ∃ m', m.free (node H 0) = some m' ∧ Tree c m' H' cnt node none ∧
      Keeps cnt node node H' m m' := by
  have htop := t.top
  obtain ⟨m', hfree, hok, hgone, hother⟩ :=
    Memory.exists_free t.ok ((t.alloc (node H 0)).2 ⟨H, le_rfl, 0, by omega, rfl⟩)
  have hne : ∀ h ≤ H', ∀ j < cnt h, node h j ≠ node H 0 := by
    intro h hh j hj heq
    have := (t.inj h (by omega) j hj H le_rfl 0 (by omega) heq).1
    omega
  refine ⟨m', hfree, ⟨⟨hone, ?_, ?_⟩, hok, ?_, ?_⟩, fun _ _ _ _ => rfl, ?_⟩
  · intro h hh _ j hj
    exact t.parent h (by omega) (by rw [ne_eq, Option.some.injEq]; omega) j hj
  · intro h hh _ j hj
    have hg : some H' ≠ some h := by
      rw [ne_eq, Option.some.injEq]
      omega
    have hup := t.parent h (by omega) hg j hj
    rw [Memory.readPtr, hother _ (hne (h + 1) hh _ hup)]
    exact t.child h (by omega) hg j hj
  · intro b
    by_cases hb : b = node H 0
    · subst hb
      rw [hgone]
      constructor
      · intro hf
        cases hf
      · rintro ⟨h, hh, j, hj, heq⟩
        exact absurd heq.symm (hne h hh j hj)
    · rw [hother b hb, t.alloc b]
      constructor
      · rintro ⟨h, hh, j, hj, rfl⟩
        rcases Nat.lt_or_ge H' h with hlt | hle
        · rcases Nat.lt_or_eq_of_le hh with hlt' | rfl
          · rw [hzero h hlt hlt'] at hj
            omega
          · obtain rfl : j = 0 := by omega
            exact absurd rfl hb
        · exact ⟨h, hle, j, hj, rfl⟩
      · rintro ⟨h, hh, j, hj, rfl⟩
        exact ⟨h, by omega, j, hj, rfl⟩
  · intro h hh j hj h' hh' j' hj'
    exact t.inj h (by omega) j hj h' (by omega) j' hj'
  · intro j hj o
    rw [Memory.readItem, hother _ (hne 0 (Nat.zero_le H') j hj), Memory.readItem]

/-! ## The array -/

section
variable {s : Sys T} {n : Nat}

theorem offsets_zero (c : Config T) (k : Nat) : c.offsets k 0 = List.replicate k 0 := by
  induction k with
  | zero => rfl
  | succ k ih => rw [Config.offsets, Nat.zero_div, Nat.zero_mod, ih, List.replicate_succ']

theorem width_le_leaves (c : Config T) (size h : Nat) :
    c.width size h ≤ ceilDivide size c.itemsPerBucket := by
  by_contra hlt
  have h1 := Config.lt_width.1 (Nat.lt_of_not_le hlt)
  have h2 := mt (lt_ceilDivide c.itemsPerBucket_pos).2
    (Nat.lt_irrefl (ceilDivide size c.itemsPerBucket))
  have h3 := c.span_mono (Nat.zero_le h)
  rw [Config.span_zero] at h3
  have h4 := Nat.mul_le_mul_left (ceilDivide size c.itemsPerBucket) h3
  omega

/-- `Resize` to fewer items, if the logarithm is not below zero. -/
theorem Shape.shrink (hs : Shape c s H node) (h1 : 1 ≤ n) (hn : n < s.arr.size)
    (hlog : c.itemsPerBucket < c.gaddrsPerBucket * n)
    (hint : ceilDivide s.arr.size c.itemsPerBucket ≤ 2 ^ 31) :
    ∃ H' m', H' ≤ H ∧ c.Height n H' ∧ c.layers n = H' + 1 ∧
      c.shrink n s = some (node H' 0, m') ∧ Tree c m' H' (c.width n) node none ∧
      Keeps (c.width n) node node H' s.mem m' := by
  have hmax : max s.arr.size 1 = s.arr.size := max_eq_left (by omega)
  obtain ⟨H', hH'⟩ := c.exists_height n
  have hlay := Config.layers_of_height hH' h1 hlog
  have hle : H' ≤ H := hH'.le hs.height (by omega)
  have hold : s.arr.layer.toNat = H + 1 := by rw [hs.layer]; omega
  have hred : (s.arr.layer - c.layers n).toNat = H - H' := by
    rw [hs.layer, hlay]
    omega
  have htop : c.width n H' = 1 := Config.width_eq_one (by omega) hH'.1
  have htree := hs.tree
  rw [hmax] at htree
  have hroot : s.mem.descend s.arr.rootAddr (List.replicate (H - H') 0) = some (node H' 0) := by
    rw [hs.root, ← offsets_zero c]
    exact htree.descend (by omega) (by simp) (Config.lt_width.2 (by omega))
  have hnew : ∀ i, 1 ≤ i → i ≤ H → c.newLayers n (H + 1) (c.layers n) i =
      if H - i ≤ H' then c.width n (H - i) else 0 := by
    intro i hi hi'
    rw [Config.newLayers, hlay, Config.calLayers_eq]
    by_cases hin : H - i ≤ H'
    · rw [if_pos hin, if_pos (by omega)]
    · rw [if_neg hin, if_neg (by omega)]
  have htgt : ∀ h, (if h ≤ H' then c.width n h else 0) ≤ c.width s.arr.size h := by
    intro h
    split
    · exact Config.width_mono hn.le h
    · exact Nat.zero_le _
  obtain ⟨m₁, hm₁, t₁, hk₁⟩ := Tree.freeLayers H' H
    (fun h => if h ≤ H' then c.width n h else 0) (c.width s.arr.size)
    (fun i => Config.countDown (c.calLayers s.arr.size (H + 1) i)
      (c.newLayers n (H + 1) (c.layers n) i)) le_rfl
    (by
      rw [if_neg (by omega)]
      exact htree.congr fun h hh => if_neg (by omega))
    htgt
    (fun h hh j hj => by
      rw [if_pos hh.le] at hj
      rw [if_pos (by omega)]
      exact Config.width_parent hj)
    (fun h hh => if_neg (by omega))
    (fun i hi hi' => by
      rw [Config.calLayers_eq, hnew i hi hi']
      exact countDown_eq (htgt _) ((width_le_leaves c _ _).trans hint))
  have hrun : ∀ m', (if H - H' ≠ 0 then m₁.free (node H 0) else some m₁) = some m' →
      c.shrink n s = some (node H' 0, m') := by
    intro m' hm'
    rw [Config.shrink]
    simp only [hold, hred, hroot, Option.bind_eq_bind, Option.bind_some, Nat.add_sub_cancel]
    rw [hs.root]
    simp only [hm₁, Option.bind_some]
    by_cases hd : H - H' ≠ 0
    · rw [if_pos hd] at hm' ⊢
      rw [hm']
      rfl
    · rw [if_neg hd] at hm' ⊢
      rw [Option.some.inj hm']
      rfl
  rcases Nat.lt_or_eq_of_le hle with hlt | rfl
  · rw [if_pos hlt] at t₁
    obtain ⟨m', hfree, t', hk'⟩ := t₁.freeRoot hlt (by rw [if_pos hlt, if_pos le_rfl, htop])
      (fun h hh hh' => by rw [if_pos hh', if_neg (by omega)])
    refine ⟨H', m', hle, hH', hlay, hrun m' (by rw [if_pos (by omega)]; exact hfree),
      t'.congr fun h hh => ?_, ?_⟩
    · rw [if_pos (by omega), if_pos hh]
    · refine ((hk₁.mono hle).trans hk' fun _ _ => le_rfl).mono_cnt fun h hh => ?_
      rw [if_pos (by omega), if_pos hh]
  · rw [if_neg (Nat.lt_irrefl _)] at t₁
    have hH : c.width s.arr.size H' = 1 := htree.top
    have hsame : ∀ h ≤ H', c.width n h = if h < H' then (if h ≤ H' then c.width n h else 0)
        else c.width s.arr.size h := by
      intro h hh
      rcases Nat.lt_or_eq_of_le hh with hlt | rfl
      · rw [if_pos hlt, if_pos hh]
      · rw [if_neg (Nat.lt_irrefl _), hH, htop]
    exact ⟨H', m₁, le_rfl, hH', hlay, hrun m₁ (by rw [if_neg (by omega)]), t₁.congr hsame,
      hk₁.mono_cnt fun h hh => (hsame h hh).le⟩

end

end HwGam.GArray
