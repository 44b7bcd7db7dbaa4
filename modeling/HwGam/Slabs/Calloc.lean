import HwGam.Slabs.Realloc

/-!
# Zeroed allocation

`sb_calloc` and `sb_aligned_calloc` over the bytes of the region. They clear `size` bytes of a chunk
of `count * size`; the rest is zero if the chunk came back so. `sb_free` clears the size in the item,
and `sb_realloc` gives a chunk back as it is.
-/

namespace HwGam.Slabs

open HwGam.Lib

/-- `memset` to zero -/
def memzero (bytes : Nat → UInt8) (dst n : Nat) : Nat → UInt8 :=
  fun a => if dst ≤ a ∧ a < dst + n then 0 else bytes a

namespace Store

variable (st : Store)

/-- What follows the allocation in both: the chunk is handed out and its first bytes are cleared. -/
def cleared (asked size : Size) (x : Option Nat × SlabAllocator) : Option Nat × Store where
  fst := x.1
  snd := { heap := st.heap.hand asked x
           bytes := match x.1 with
             | some ptr => memzero st.bytes ptr size.toNat
             | none => st.bytes }

/-- `sb_calloc` -/
def calloc (count size : Size) : Option Nat × Store :=
  st.cleared (count * size) size (st.heap.alloc.sbMalloc (count * size))

/-- `sb_aligned_calloc` -/
def alignedCalloc (count size block : Size) : Option Nat × Store :=
  st.cleared (count * size) size (st.heap.alloc.sbAlignedMalloc (count * size) block)

/-- The address is in a chunk that is handed out. -/
def Held (a : Nat) : Prop := ∃ x ∈ st.heap.live, x.1 ≤ a ∧ a < x.1 + st.heap.alloc.extent x.1

instance (a : Nat) : Decidable (st.Held a) :=
  inferInstanceAs (Decidable (∃ x ∈ st.heap.live, x.1 ≤ a ∧ a < x.1 + st.heap.alloc.extent x.1))

end Store

inductive Use
  | malloc (size : Size)
  | alignedMalloc (size block : Size)
  | calloc (count size : Size)
  | alignedCalloc (count size block : Size)
  | realloc (ptr : Option Nat) (size : Size)
  | free (ptr : Nat)
  /-- the user of a chunk writes to it -/
  | store (a : Nat) (v : UInt8)
  deriving DecidableEq, Repr

/-- What a use does to the chunks. -/
def Use.act : Use → Act
  | .malloc size => .call (.malloc size)
  | .alignedMalloc size block => .call (.alignedMalloc size block)
  | .calloc count size => .call (.malloc (count * size))
  | .alignedCalloc count size block => .call (.alignedMalloc (count * size) block)
  | .realloc ptr size => .realloc ptr size
  | .free ptr => .call (.free ptr)
  | .store a v => .store a v

def Store.use (u : Use) (st : Store) : Option Store :=
  match u with
  | .calloc count size => some (st.calloc count size).2
  | .alignedCalloc count size block => some (st.alignedCalloc count size block).2
  | .free ptr => (st.step (.call (.free ptr))).map fun t =>
    -- the size in the item before it is cleared
    { t with bytes := memzero st.bytes ptr (st.heap.alloc.asked ptr) }
  | .store a v => if st.Held a then st.step (.store a v) else none
  | .malloc size => st.step (.call (.malloc size))
  | .alignedMalloc size block => st.step (.call (.alignedMalloc size block))
  | .realloc ptr size => st.step (.realloc ptr size)

def Use.Fits (u : Use) (st : Store) : Prop := u.act.Fits st

/-- What a chunk that comes back has in it, past what is cleared then, is zero. -/
def Use.Leaves (u : Use) (st : Store) : Prop :=
  match u with
  | .free p => st.heap.alloc.clsid p ≠ 0 →
    ∀ i < st.heap.alloc.extent p, st.heap.alloc.asked p ≤ i → st.bytes (p + i) = 0
  | .realloc (some p) size =>
    ¬ st.heap.alloc.SameClass p size → ¬ st.heap.alloc.Refuses size →
      ∀ i < st.heap.alloc.extent p, st.bytes (p + i) = 0
  | _ => True

/-- The call hands out a chunk whose first `n` bytes are zero. -/
def Zeroed (x : Option Nat × Store) (n : Nat) : Prop :=
  ∃ q, x.1 = some q ∧ ∀ i < n, x.2.bytes (q + i) = 0

/-- Nothing is left in the free chunks. -/
def Store.Clean (st : Store) : Prop := ∀ a, st.bytes a ≠ 0 → st.Held a

section
variable {base limit : Nat} {pages : List Nat} {fl : Nat → List Nat} {s s' : SlabAllocator}
  {st st' : Store} {u : Use} {a p n : Nat} {count size block : Size} {bytes : Nat → UInt8}

theorem memzero_ne_zero (h : memzero bytes p n a ≠ 0) : bytes a ≠ 0 ∧ ¬ (p ≤ a ∧ a < p + n) := by
  unfold memzero at h
  split at h
  · exact absurd rfl h
  · rename_i hout
    exact ⟨h, hout⟩

/-- The chunks change as in the runs without the bytes. -/
theorem Store.use_heap (hs : st.use u = some st') :
    ∃ t, st.step u.act = some t ∧ t.heap = st'.heap := by
  cases u with
  | malloc size => exact ⟨st', hs, rfl⟩
  | alignedMalloc size block => exact ⟨st', hs, rfl⟩
  | calloc count size =>
    obtain rfl := Option.some.inj hs
    exact ⟨_, rfl, rfl⟩
  | alignedCalloc count size block =>
    obtain rfl := Option.some.inj hs
    exact ⟨_, rfl, rfl⟩
  | realloc ptr size => exact ⟨st', hs, rfl⟩
  | free ptr =>
    obtain ⟨t, ht, rfl⟩ := Option.map_eq_some_iff.1 hs
    exact ⟨t, ht, rfl⟩
  | store a v => exact ⟨st', ((Option.ite_none_right_eq_some).1 hs).2, rfl⟩

theorem Store.Good.use (hg : st.Good base limit) (hbase : base ≠ 0) (hfit : u.Fits st)
    (hs : st.use u = some st') : st'.Good base limit := by
  obtain ⟨t, ht, heq⟩ := Store.use_heap hs
  have hgood := hg.step hbase hfit ht
  rw [Store.Good, ← heq]
  exact hgood

theorem Store.Good.extent_eq (hg : st.Good base limit) (p : Nat) :
    st.heap.alloc.extent p = (initClass (st.heap.alloc.clsid p)).size := by
  obtain ⟨⟨⟨pages, fl, hi⟩, -⟩, -⟩ := hg
  exact hi.size _

theorem Store.Good.held_iff (hg : st.Good base limit) : st.Held a ↔
    ∃ p, st.heap.alloc.clsid p ≠ 0 ∧ p ≤ a ∧ a < p + (initClass (st.heap.alloc.clsid p)).size := by
  constructor
  · rintro ⟨x, hx, hle, hlt⟩
    rw [hg.extent_eq] at hlt
    exact ⟨x.1, (hg.1.2.mem x.1).1 (List.mem_map_of_mem hx), hle, hlt⟩
  · rintro ⟨p, hp, hle, hlt⟩
    obtain ⟨x, hx, rfl⟩ := List.mem_map.1 ((hg.1.2.mem p).2 hp)
    exact ⟨x, hx, hle, by rwa [hg.extent_eq]⟩

/-- Bytes are written in the chunks only, and what is not zero in a chunk stays in it. -/
theorem Store.Clean.of_clsid (hc : st.Clean) (hg : st.Good base limit) (hg' : st'.Good base limit)
    (hbytes : ∀ a, st'.bytes a ≠ 0 → st.bytes a ≠ 0)
    (hkept : ∀ p, st.heap.alloc.clsid p ≠ 0 → st'.heap.alloc.clsid p = st.heap.alloc.clsid p ∨
      ∀ i < st.heap.alloc.extent p, st'.bytes (p + i) = 0) : st'.Clean := by
  intro a ha
  obtain ⟨p, hp, hle, hlt⟩ := hg.held_iff.1 (hc a (hbytes a ha))
  rcases hkept p hp with heq | hzero
  · exact hg'.held_iff.2 ⟨p, by rwa [heq], hle, by rwa [heq]⟩
  · have hz := hzero (a - p) (by rw [hg.extent_eq]; omega)
    rw [Nat.add_sub_cancel' hle] at hz
    exact absurd hz ha

/-- A chunk that is handed out was in no use before. -/
theorem Store.Good.alloc_clsid (hg : st.Good base limit) {x : Option Nat × SlabAllocator}
    (hx : st.heap.alloc.doSlabsAlloc n (st.heap.alloc.slabsClsid n) = x) :
    (x = (none, st.heap.alloc)) ∨ ∃ q, x.1 = some q ∧ st.heap.alloc.clsid q = 0 ∧
      x.2.clsid = Function.update st.heap.alloc.clsid q (st.heap.alloc.slabsClsid n) ∧
      st.heap.alloc.slabsClsid n ≠ 0 ∧ n ≤ (initClass (st.heap.alloc.slabsClsid n)).size ∧
      x.2.memFree + (initClass (st.heap.alloc.slabsClsid n)).size = st.heap.alloc.memFree ∧
      ∃ pages fl, Inv base limit pages fl x.2 := by
  obtain ⟨⟨⟨pages, fl, hi⟩, -⟩, -⟩ := hg
  by_cases h0 : st.heap.alloc.slabsClsid n = 0
  · left
    rw [← hx, h0, doSlabsAlloc_zero]
  · obtain ⟨hn, hle⟩ := slabsClsid_spec h0
    rw [hi.size] at hle
    rcases hi.doSlabsAlloc (st.heap.alloc.slabsClsid n) hn with
      hnone | ⟨-, q, s', pages', fl', hsome, hi', hz, hcls, hfree⟩
    · exact .inl (hx.symm.trans hnone)
    · obtain rfl := hx.symm.trans hsome
      exact .inr ⟨q, rfl, hz, hcls, h0, hle, hfree, pages', fl', hi'⟩

theorem Store.Good.alloc_kept (hg : st.Good base limit) {x : Option Nat × SlabAllocator}
    (hx : st.heap.alloc.doSlabsAlloc n (st.heap.alloc.slabsClsid n) = x)
    (hp : st.heap.alloc.clsid p ≠ 0) : x.2.clsid p = st.heap.alloc.clsid p := by
  rcases hg.alloc_clsid hx with rfl | ⟨q, -, hz, hcls, -⟩
  · rfl
  · have hpq : p ≠ q := by
      rintro rfl
      exact hp hz
    rw [hcls, Function.update_of_ne hpq]

theorem cleared_ne_zero {asked : Size} {x : Option Nat × SlabAllocator}
    (h : (st.cleared asked size x).2.bytes a ≠ 0) : st.bytes a ≠ 0 := by
  obtain ⟨q, s'⟩ := x
  cases q with
  | none => exact h
  | some q => exact (memzero_ne_zero h).1

theorem Store.Clean.free (hc : st.Clean) (hg : st.Good base limit) (hg' : st'.Good base limit)
    (hleave : Use.Leaves (.free p) st) (hfit : Use.Fits (.free p) st)
    (hs : st.use (.free p) = some st') : st'.Clean := by
  obtain ⟨t, ht, rfl⟩ := Option.map_eq_some_iff.1 hs
  obtain ⟨h', hstep, rfl⟩ := Option.map_eq_some_iff.1 ht
  obtain ⟨s', hfree, rfl⟩ := Option.map_eq_some_iff.1 hstep
  have hgood := hg
  obtain ⟨⟨⟨pages, fl, hi⟩, -⟩, -⟩ := hgood
  refine hc.of_clsid hg hg' (fun a ha => (memzero_ne_zero ha).1) fun r hr => ?_
  by_cases hz : st.heap.alloc.clsid p = 0
  · exact .inl (congrFun (hi.sbFree_free hz hfree).2.1 r)
  · have hcls : s'.clsid = Function.update st.heap.alloc.clsid p 0 :=
      (hi.sbFree_live hz (hfit hz) hfree).2.1
    by_cases hrp : r = p
    · subst hrp
      refine .inr fun i hlt => ?_
      by_contra hne
      obtain ⟨hne, hout⟩ := memzero_ne_zero hne
      exact hne (hleave hz i hlt (by omega))
    · exact .inl (by rw [hcls, Function.update_of_ne hrp])

theorem Store.Clean.realloc (hc : st.Clean) (hg : st.Good base limit) (hbase : base ≠ 0)
    (hg' : st'.Good base limit) {ptr : Option Nat} (hleave : Use.Leaves (.realloc ptr size) st)
    (hfit : Use.Fits (.realloc ptr size) st) (hs : st.use (.realloc ptr size) = some st') :
    st'.Clean := by
  obtain ⟨hptr, hs⟩ := (Option.ite_none_right_eq_some).1 hs
  obtain rfl := Option.some.inj hs
  cases ptr with
  | none =>
    rw [Store.realloc_none] at hg' ⊢
    refine hc.of_clsid hg hg' (fun a ha => ha) fun r hr => .inl ?_
    exact hg.alloc_kept rfl hr
  | some p =>
    obtain ⟨⟨p, old⟩, hx, rfl⟩ := List.mem_map.1 (hptr p rfl)
    rcases Good.sbRealloc st.bytes size hg.1 hbase hx (hfit p rfl) with
      ⟨-, s', hr, hcls, -⟩ | ⟨-, -, hr⟩ | ⟨hsame, hsat, q, s', hr, -, hq, hcls, -⟩
    · rw [Store.realloc_ok hr] at hg' ⊢
      exact hc.of_clsid hg hg' (fun a ha => ha) fun r _ => .inl (congrFun hcls r)
    · rwa [Store.realloc_outOfRange hr]
    · rw [Store.realloc_ok hr] at hg' ⊢
      refine hc.of_clsid hg hg' (fun a ha => ha) fun r hlive => ?_
      by_cases hrp : r = p
      · subst hrp
        exact .inr (hleave hsame hsat)
      · have hrq : r ≠ q := by
          rintro rfl
          exact hq ((hg.1.2.mem r).2 hlive)
        exact .inl (by rw [hcls, Function.update_of_ne hrp, Function.update_of_ne hrq])

theorem Store.Clean.use (hc : st.Clean) (hg : st.Good base limit) (hbase : base ≠ 0)
    (hfit : u.Fits st) (hleave : u.Leaves st) (hs : st.use u = some st') : st'.Clean := by
  have hg' := hg.use hbase hfit hs
  cases u with
  | malloc size =>
    obtain rfl := Option.some.inj hs
    exact hc.of_clsid hg hg' (fun a ha => ha) fun r hr => .inl (hg.alloc_kept rfl hr)
  | alignedMalloc size block =>
    obtain rfl := Option.some.inj hs
    exact hc.of_clsid hg hg' (fun a ha => ha) fun r hr => .inl (hg.alloc_kept rfl hr)
  | calloc count size =>
    obtain rfl := Option.some.inj hs
    exact hc.of_clsid hg hg' (fun a => cleared_ne_zero) fun r hr => .inl (hg.alloc_kept rfl hr)
  | alignedCalloc count size block =>
    obtain rfl := Option.some.inj hs
    exact hc.of_clsid hg hg' (fun a => cleared_ne_zero) fun r hr => .inl (hg.alloc_kept rfl hr)
  | realloc ptr size => exact hc.realloc hg hbase hg' hleave hfit hs
  | free p => exact hc.free hg hg' hleave hfit hs
  | store a v =>
    obtain ⟨hheld, hs⟩ := (Option.ite_none_right_eq_some).1 hs
    obtain rfl := Option.some.inj hs
    intro b hb
    by_cases hab : b = a
    · exact hab ▸ hheld
    · exact hc b (by simpa [Function.update_of_ne hab] using hb)

/-- What is asked for is cleared now, or it is in a free chunk that is clean. -/
theorem Store.Good.zeroed {asked : Size} {m : Nat} (hg : st.Good base limit)
    (hsat : (st.heap.alloc.doSlabsAlloc n (st.heap.alloc.slabsClsid n)).1 ≠ none)
    (hm : m ≤ size.toNat ∨ st.Clean ∧ m ≤ n) :
    Zeroed (st.cleared asked size
      (st.heap.alloc.doSlabsAlloc n (st.heap.alloc.slabsClsid n))) m := by
  rcases hg.alloc_clsid (n := n) rfl with hnone | ⟨q, hq, hz, hcls, h0, hle, -, pages, fl, hi⟩
  · exact absurd (congrArg Prod.fst hnone) hsat
  · refine ⟨q, hq, fun i hlt => ?_⟩
    by_contra hne
    simp only [Store.cleared, hq] at hne
    obtain ⟨hne, hout⟩ := memzero_ne_zero hne
    rcases hm with hm | ⟨hc, hm⟩
    · omega
    · -- a chunk in use that has the byte is apart from the new one
      obtain ⟨p, hp, hple, hplt⟩ := hg.held_iff.1 (hc _ hne)
      have hpq : p ≠ q := by
        rintro rfl
        exact hp hz
      have hpcls := hg.alloc_kept (n := n) rfl hp
      have hqcls := congrFun hcls q
      rw [Function.update_self] at hqcls
      have hcutp := hi.books.used p (by rwa [hpcls])
      have hcutq := hi.books.used q (by rwa [hqcls])
      have hapart := hcutp.apart hcutq (hi.books.isClass _ _ hcutp) (hi.books.isClass _ _ hcutq)
      rw [hpcls, hqcls] at hapart
      rcases hapart with ⟨heq, -⟩ | hor | hor
      · exact hpq heq
      · omega
      · omega

/-! ## Runs -/

theorem Store.good_of_uses {malloced : Nat} {s₀ : SlabAllocator}
    (hinit : slabsInit base limit malloced = some s₀)
    (hr : Reaches Store.use Use.Fits { heap := { alloc := s₀ } } st) : st.Good base limit := by
  refine hr.invariant (I := Store.Good base limit) ⟨(slabsInit_spec hinit).1, by simp⟩ ?_
  intro u t t' ht hfit hs
  exact ht.use (base_ne_zero_of_slabsInit hinit) hfit hs

theorem Store.clean_of_uses {malloced : Nat} {s₀ : SlabAllocator}
    (hinit : slabsInit base limit malloced = some s₀)
    (hr : Reaches Store.use (fun u st => u.Fits st ∧ u.Leaves st) { heap := { alloc := s₀ } } st) :
    st.Clean := by
  have hall : st.Good base limit ∧ st.Clean := by
    refine hr.invariant (I := fun t => t.Good base limit ∧ t.Clean)
      ⟨⟨(slabsInit_spec hinit).1, by simp⟩, fun a ha => absurd rfl ha⟩ ?_
    rintro u t t' ⟨hg, hc⟩ ⟨hfit, hleave⟩ hs
    have hbase := base_ne_zero_of_slabsInit hinit
    exact ⟨hg.use hbase hfit hs, hc.use hg hbase hfit hleave hs⟩
  exact hall.2

theorem toNat_mul_of_lt (h : count.toNat * size.toNat < 2 ^ 64) :
    (count * size).toNat = count.toNat * size.toNat := by
  rw [BitVec.toNat_mul, Nat.mod_eq_of_lt h]

end

/-! ## A byte in a chunk of 40 -/

/-- After `sb_malloc(40)` at the start and a write to byte 30 of the chunk. -/
theorem exists_written : ∃ s₀ st p, slabsInit 4096 (2 ^ 28) 0 = some s₀ ∧
    Reaches Store.use (fun u st => u.Fits st ∧ u.Leaves st) { heap := { alloc := s₀ } } st ∧
    st.heap.live = [(p, 40)] ∧ st.heap.alloc.clsid p = 1 ∧ Call.Fits (.free p) st.heap ∧
    st.heap.alloc.slabsClsid 100 = 4 ∧ ¬ st.heap.alloc.Refuses 100 ∧ st.bytes (p + 30) = 1 := by
  obtain ⟨s₀, ⟨h, bytes⟩, p, hinit, hr, hlive, hcls, hfit, -, h100, hsat, -, hstep⟩ := exists_malloc
  have hg := Store.good_of_reaches hinit hr
  have h₁ : Reaches Store.use (fun u st => u.Fits st ∧ u.Leaves st) { heap := { alloc := s₀ } }
      { heap := h } :=
    Reaches.refl.tail (a := .malloc 40) ⟨trivial, trivial⟩
      (congrArg (Option.map fun h => Store.mk h fun _ => 0) hstep)
  have hheld : Store.Held { heap := h } (p + 30) := by
    have hextent : h.alloc.extent p = (initClass (h.alloc.clsid p)).size := hg.extent_eq p
    have h48 : 30 < (initClass 1).size := by decide +kernel
    dsimp only at hcls hlive
    refine ⟨(p, 40), by simp [hlive], Nat.le_add_right p 30, ?_⟩
    dsimp only
    rw [hextent, hcls]
    omega
  refine ⟨s₀, _, p, hinit, h₁.tail (a := .store (p + 30) 1) ⟨trivial, trivial⟩ (if_pos hheld),
    hlive, hcls, hfit, h100, hsat, ?_⟩
  exact Function.update_self ..

end HwGam.Slabs
