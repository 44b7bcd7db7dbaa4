import HwGam.Lib.Linked
import HwGam.Slabs.Allocator
import Mathlib.Algebra.BigOperators.Fin
import Mathlib.Algebra.Order.BigOperators.Group.Finset

/-!
# The books of the slab allocator

The chunks of a region are those of the pages cut so far. Every chunk is on the free list of its
class or handed out, told apart by the class id in its item. `Inv` is the invariant of the
allocator, with one lemma for each operation.
-/

namespace HwGam.Slabs

open Lib

/-! ## The class table -/

theorem sizes_bounds : ∀ z ∈ sizes, 0 < z ∧ z ≤ itemSizeMax := by
  decide +kernel

theorem length_sizes_lt : sizes.length < 200 := by
  decide +kernel

/-- The class exists. -/
def IsClass (c : Nat) : Prop := 1 ≤ c ∧ c ≤ sizes.length

theorem initClass_bounds {c : Nat} (h : IsClass c) :
    0 < (initClass c).size ∧ 0 < (initClass c).perslab ∧ (initClass c).perslab ≤ itemSizeMax ∧
      (initClass c).perslab * (initClass c).size ≤ itemSizeMax := by
  obtain ⟨h1, h2⟩ := h
  obtain ⟨n, rfl⟩ : ∃ n, c = n + 1 := ⟨c - 1, by omega⟩
  have hn : n < sizes.length := by omega
  have hz := sizes_bounds sizes[n] (List.getElem_mem hn)
  simp only [initClass, List.getElem?_eq_getElem hn]
  exact ⟨hz.1, Nat.div_pos hz.2 hz.1, Nat.div_le_self _ _, Nat.div_mul_le_self _ _⟩

/-! ## The books -/

namespace SlabAllocator

variable (s : SlabAllocator)

def next (a : Nat) : Option Nat := (s.statsMap a).bind Item.next

/-- The class id in the item of a chunk, zero if there is none. -/
def clsid (a : Nat) : Nat := ((s.statsMap a).map Item.slabsClsid).getD 0

/-- The size in the item of a chunk. -/
def asked (a : Nat) : Nat := ((s.statsMap a).map Item.size).getD 0

/-- A chunk goes to the front of a free list. -/
def pushed (ptr id : Nat) : SlabAllocator :=
  (s.setItem ptr { next := (s.slabclass id).slots }).setClass id { s.slabclass id with
    slots := some ptr, slCurr := (s.slabclass id).slCurr + 1 }

/-- The first chunk of a free list is taken. -/
def popped (ptr size id : Nat) : SlabAllocator :=
  (s.setItem ptr { next := s.next ptr, size := size, slabsClsid := id }).setClass id
    { s.slabclass id with slots := s.next ptr, slCurr := (s.slabclass id).slCurr - 1 }

end SlabAllocator

/-- The items and the free lists `fl` of the classes, over the chunks cut so far. -/
structure Books (chunk : Nat → Nat → Prop) (fl : Nat → List Nat) (s : SlabAllocator) : Prop where
  item : ∀ a, (s.statsMap a).isSome = true ↔ ∃ c, chunk c a
  isClass : ∀ c a, chunk c a → IsClass c
  unique : ∀ c c' a, chunk c a → chunk c' a → c = c'
  linked : ∀ c, Linked s.next (s.slabclass c).slots (fl c)
  nodup : ∀ c, (fl c).Nodup
  curr : ∀ c, (s.slabclass c).slCurr = (fl c).length
  free : ∀ c a, a ∈ fl c ↔ chunk c a ∧ s.clsid a = 0
  used : ∀ a, s.clsid a ≠ 0 → chunk (s.clsid a) a

namespace Books

variable {chunk chunk' : Nat → Nat → Prop} {fl : Nat → List Nat} {s : SlabAllocator}
  {ptr size id : Nat}

theorem congr (h : Books chunk fl s) (hc : ∀ c a, chunk' c a ↔ chunk c a) : Books chunk' fl s := by
  obtain rfl : chunk' = chunk := by
    funext c a
    exact propext (hc c a)
  exact h

theorem next_pushed : (s.pushed ptr id).next = Function.update s.next ptr (s.slabclass id).slots := by
  funext a
  by_cases ha : a = ptr
  · subst ha
    simp [SlabAllocator.next, SlabAllocator.pushed, SlabAllocator.setItem, SlabAllocator.setClass]
  · simp [SlabAllocator.next, SlabAllocator.pushed, SlabAllocator.setItem, SlabAllocator.setClass, ha]

theorem clsid_pushed : (s.pushed ptr id).clsid = Function.update s.clsid ptr 0 := by
  funext a
  by_cases ha : a = ptr
  · subst ha
    simp [SlabAllocator.clsid, SlabAllocator.pushed, SlabAllocator.setItem, SlabAllocator.setClass]
  · simp [SlabAllocator.clsid, SlabAllocator.pushed, SlabAllocator.setItem, SlabAllocator.setClass, ha]

theorem asked_pushed : (s.pushed ptr id).asked = Function.update s.asked ptr 0 := by
  funext a
  by_cases ha : a = ptr
  · subst ha
    simp [SlabAllocator.asked, SlabAllocator.pushed, SlabAllocator.setItem, SlabAllocator.setClass]
  · simp [SlabAllocator.asked, SlabAllocator.pushed, SlabAllocator.setItem, SlabAllocator.setClass, ha]

theorem next_popped : (s.popped ptr size id).next = s.next := by
  funext a
  by_cases ha : a = ptr
  · subst ha
    simp [SlabAllocator.next, SlabAllocator.popped, SlabAllocator.setItem, SlabAllocator.setClass]
  · simp [SlabAllocator.next, SlabAllocator.popped, SlabAllocator.setItem, SlabAllocator.setClass, ha]

theorem clsid_popped : (s.popped ptr size id).clsid = Function.update s.clsid ptr id := by
  funext a
  by_cases ha : a = ptr
  · subst ha
    simp [SlabAllocator.clsid, SlabAllocator.popped, SlabAllocator.setItem, SlabAllocator.setClass]
  · simp [SlabAllocator.clsid, SlabAllocator.popped, SlabAllocator.setItem, SlabAllocator.setClass, ha]

theorem asked_popped : (s.popped ptr size id).asked = Function.update s.asked ptr size := by
  funext a
  by_cases ha : a = ptr
  · subst ha
    simp [SlabAllocator.asked, SlabAllocator.popped, SlabAllocator.setItem, SlabAllocator.setClass]
  · simp [SlabAllocator.asked, SlabAllocator.popped, SlabAllocator.setItem, SlabAllocator.setClass, ha]

/-- A chunk that is on no list goes to the front of the list of its class, whether it is new or was
handed out. -/
theorem push (h : Books chunk fl s) (hid : IsClass id) (hptr : ∀ c, ptr ∉ fl c)
    (hown : ∀ c, chunk c ptr → c = id) :
    Books (fun c a => chunk c a ∨ (c = id ∧ a = ptr)) (Function.update fl id (ptr :: fl id))
      (s.pushed ptr id) where
  item a := by
    by_cases ha : a = ptr
    · subst ha
      simp [SlabAllocator.pushed, SlabAllocator.setItem, SlabAllocator.setClass]
    · simpa [SlabAllocator.pushed, SlabAllocator.setItem, SlabAllocator.setClass, ha] using h.item a
  isClass c a hc := by
    rcases hc with hc | ⟨rfl, -⟩
    · exact h.isClass c a hc
    · exact hid
  unique c c' a hc hc' := by
    rcases hc with hc | ⟨rfl, rfl⟩
    · rcases hc' with hc' | ⟨rfl, rfl⟩
      · exact h.unique c c' a hc hc'
      · exact hown c hc
    · rcases hc' with hc' | ⟨rfl, -⟩
      · exact (hown c' hc').symm
      · rfl
  linked c := by
    rw [next_pushed]
    by_cases hc : c = id
    · subst hc
      simpa [SlabAllocator.pushed, SlabAllocator.setClass] using (h.linked c).push (hptr c)
    · simp only [SlabAllocator.pushed, SlabAllocator.setClass, SlabAllocator.setItem,
        Function.update_of_ne hc]
      refine (h.linked c).transport fun a ha => Function.update_of_ne ?_ _ _
      rintro rfl
      exact hptr c ha
  nodup c := by
    by_cases hc : c = id
    · subst hc
      simpa using ⟨hptr c, h.nodup c⟩
    · simpa [hc] using h.nodup c
  curr c := by
    by_cases hc : c = id
    · subst hc
      simpa [SlabAllocator.pushed, SlabAllocator.setClass, SlabAllocator.setItem] using h.curr c
    · simpa [SlabAllocator.pushed, SlabAllocator.setClass, SlabAllocator.setItem, hc] using h.curr c
  free c a := by
    rw [clsid_pushed]
    by_cases ha : a = ptr
    · subst ha
      by_cases hc : c = id
      · subst hc
        simp
      · have hn : ¬ chunk c a := fun h' => hc (hown c h')
        simp [hc, hptr c, hn]
    · have hf := h.free c a
      by_cases hc : c = id
      · subst hc
        simpa [ha] using hf
      · simpa [ha, hc] using hf
  used a ha := by
    rw [clsid_pushed] at ha ⊢
    by_cases hp : a = ptr
    · subst hp
      simp at ha
    · rw [Function.update_of_ne hp] at ha ⊢
      exact .inl (h.used a ha)

/-- The first chunk of a list is handed out. -/
theorem pop {rest : List Nat} (h : Books chunk fl s) (hid : IsClass id)
    (hl : fl id = ptr :: rest) :
    Books chunk (Function.update fl id rest) (s.popped ptr size id) := by
  have hmem : chunk id ptr ∧ s.clsid ptr = 0 := (h.free id ptr).1 (by simp [hl])
  have hnd : ptr ∉ rest ∧ rest.Nodup := by simpa [hl] using h.nodup id
  have hlinked : Linked s.next (s.next ptr) rest := by
    have := h.linked id
    rw [hl] at this
    cases hs : (s.slabclass id).slots with
    | none =>
      rw [hs] at this
      cases this
    | some a =>
      rw [hs] at this
      cases this with
      | cons h => exact h
  constructor
  case item =>
    intro a
    by_cases ha : a = ptr
    · subst ha
      simpa [SlabAllocator.popped, SlabAllocator.setItem, SlabAllocator.setClass] using ⟨id, hmem.1⟩
    · simpa [SlabAllocator.popped, SlabAllocator.setItem, SlabAllocator.setClass, ha] using h.item a
  case isClass => exact h.isClass
  case unique => exact h.unique
  case linked =>
    intro c
    rw [next_popped]
    by_cases hc : c = id
    · subst hc
      simpa [SlabAllocator.popped, SlabAllocator.setClass] using hlinked
    · simpa [SlabAllocator.popped, SlabAllocator.setClass, SlabAllocator.setItem, hc] using h.linked c
  case nodup =>
    intro c
    by_cases hc : c = id
    · subst hc
      simpa using hnd.2
    · simpa [hc] using h.nodup c
  case curr =>
    intro c
    by_cases hc : c = id
    · subst hc
      simp [SlabAllocator.popped, SlabAllocator.setClass, SlabAllocator.setItem, h.curr, hl]
    · simpa [SlabAllocator.popped, SlabAllocator.setClass, SlabAllocator.setItem, hc] using h.curr c
  case free =>
    intro c a
    rw [clsid_popped]
    by_cases ha : a = ptr
    · subst ha
      have h0 : id ≠ 0 := Nat.one_le_iff_ne_zero.1 hid.1
      by_cases hc : c = id
      · subst hc
        simp [hnd.1, h0]
      · have hn : a ∉ fl c := fun h' => hc (h.unique c id a ((h.free c a).1 h').1 hmem.1)
        simp [hc, hn, h0]
    · have hf := h.free c a
      by_cases hc : c = id
      · subst hc
        simpa [ha, hl] using hf
      · simpa [ha, hc] using hf
  case used =>
    intro a ha
    rw [clsid_popped] at ha ⊢
    by_cases hp : a = ptr
    · subst hp
      simpa using hmem.1
    · rw [Function.update_of_ne hp] at ha ⊢
      exact h.used a ha

end Books

/-! ## Pages -/

/-- `a` is a chunk of class `c`: page `k` of the region belongs to class `pages[k]`. -/
def Cut (base : Nat) (pages : List Nat) (c a : Nat) : Prop :=
  ∃ k x, pages[k]? = some c ∧ x < (initClass c).perslab ∧
    a = base + k * itemSizeMax + x * (initClass c).size

section
variable {base c c' a a' id : Nat} {pages : List Nat}

theorem cut_append : Cut base (pages ++ [id]) c a ↔ Cut base pages c a ∨
    (c = id ∧ ∃ x < (initClass id).perslab,
      a = base + pages.length * itemSizeMax + x * (initClass id).size) := by
  constructor
  · rintro ⟨k, x, hk, hx, rfl⟩
    rcases Nat.lt_trichotomy k pages.length with h | rfl | h
    · rw [List.getElem?_append_left h] at hk
      exact .inl ⟨k, x, hk, hx, rfl⟩
    · obtain rfl : id = c := by simpa using hk
      exact .inr ⟨rfl, x, hx, rfl⟩
    · have hlen : (pages ++ [id]).length ≤ k := by
        rw [List.length_append, List.length_singleton]
        omega
      rw [List.getElem?_eq_none hlen] at hk
      cases hk
  · rintro (⟨k, x, hk, hx, rfl⟩ | ⟨rfl, x, hx, rfl⟩)
    · obtain ⟨hlt, -⟩ := List.getElem?_eq_some_iff.1 hk
      exact ⟨k, x, by rwa [List.getElem?_append_left hlt], hx, rfl⟩
    · exact ⟨pages.length, x, by simp, hx, rfl⟩

/-- A chunk lies inside its page. -/
theorem chunk_in_page (hc : IsClass c) {x : Nat} (hx : x < (initClass c).perslab) :
    x * (initClass c).size + (initClass c).size ≤ itemSizeMax := by
  obtain ⟨-, -, -, h⟩ := initClass_bounds hc
  have hle := Nat.mul_le_mul_right (initClass c).size hx
  rw [Nat.succ_mul] at hle
  exact Nat.le_trans hle h

theorem Cut.inside (h : Cut base pages c a) (hc : IsClass c) :
    base ≤ a ∧ a + (initClass c).size ≤ base + pages.length * itemSizeMax := by
  obtain ⟨k, x, hk, hx, rfl⟩ := h
  obtain ⟨hlt, -⟩ := List.getElem?_eq_some_iff.1 hk
  have hpage := chunk_in_page hc hx
  have hle := Nat.mul_le_mul_right itemSizeMax hlt
  rw [Nat.succ_mul] at hle
  omega

/-- Two chunks of a region are apart, or the same. -/
theorem Cut.apart (h : Cut base pages c a) (h' : Cut base pages c' a') (hc : IsClass c)
    (hc' : IsClass c') :
    (a = a' ∧ c = c') ∨ a + (initClass c).size ≤ a' ∨ a' + (initClass c').size ≤ a := by
  obtain ⟨k, x, hk, hx, rfl⟩ := h
  obtain ⟨k', x', hk', hx', rfl⟩ := h'
  have hpage := chunk_in_page hc hx
  have hpage' := chunk_in_page hc' hx'
  rcases Nat.lt_trichotomy k k' with hlt | rfl | hlt
  · have hle := Nat.mul_le_mul_right itemSizeMax hlt
    rw [Nat.succ_mul] at hle
    omega
  · obtain rfl : c = c' := Option.some.inj (hk.symm.trans hk')
    rcases Nat.lt_trichotomy x x' with hlt | rfl | hlt
    · have hle := Nat.mul_le_mul_right (initClass c).size hlt
      rw [Nat.succ_mul] at hle
      omega
    · exact .inl ⟨rfl, rfl⟩
    · have hle := Nat.mul_le_mul_right (initClass c).size hlt
      rw [Nat.succ_mul] at hle
      omega
  · have hle := Nat.mul_le_mul_right itemSizeMax hlt
    rw [Nat.succ_mul] at hle
    omega

theorem Cut.unique (h : Cut base pages c a) (h' : Cut base pages c' a) (hc : IsClass c)
    (hc' : IsClass c') : c = c' := by
  have hpos := (initClass_bounds hc).1
  have hpos' := (initClass_bounds hc').1
  rcases h.apart h' hc hc' with ⟨-, hcc⟩ | hlt | hlt
  · exact hcc
  · omega
  · omega

end

/-! ## A page is carved -/

section
variable {chunk : Nat → Nat → Prop} {fl : Nat → List Nat} {s s' : SlabAllocator} {ptr id n : Nat}

/-- What carving chunks for class `id` leaves as it is; `n` of them are added. -/
structure Carved (id n : Nat) (s s' : SlabAllocator) : Prop where
  powerLargest : s'.powerLargest = s.powerLargest
  memBase : s'.memBase = s.memBase
  memCurrent : s'.memCurrent = s.memCurrent
  memAvail : s'.memAvail = s.memAvail
  memFree : s'.memFree = s.memFree
  size : ∀ c, (s'.slabclass c).size = (s.slabclass c).size
  perslab : ∀ c, (s'.slabclass c).perslab = (s.slabclass c).perslab
  slabList : ∀ c, (s'.slabclass c).slabList = (s.slabclass c).slabList
  curr : (s'.slabclass id).slCurr = (s.slabclass id).slCurr + n
  others : ∀ c, c ≠ id → (s'.slabclass c).slCurr = (s.slabclass c).slCurr
  clsid : s'.clsid = s.clsid
  asked : s'.asked = s.asked

theorem doSlabsFree_fresh (hid : IsClass id) (hpl : s.powerLargest = sizes.length)
    (hnew : s.statsMap ptr = none) (hcurr : (s.slabclass id).slCurr + 1 < 2 ^ 32) :
    s.doSlabsFree ptr 0 id = s.pushed ptr id := by
  have hn : ¬ (id < 1 ∨ s.powerLargest < id) := by
    have h1 := hid.1
    have h2 := hid.2
    omega
  simp only [SlabAllocator.doSlabsFree, if_neg hn, hnew, Option.getD_none, ne_eq, not_true_eq_false,
    if_false, Nat.mod_eq_of_lt hcurr]
  rfl

theorem carved_pushed (hnew : s.statsMap ptr = none) : Carved id 1 s (s.pushed ptr id) where
  powerLargest := rfl
  memBase := rfl
  memCurrent := rfl
  memAvail := rfl
  memFree := rfl
  size c := by
    by_cases hc : c = id
    · subst hc
      simp [SlabAllocator.pushed, SlabAllocator.setClass]
    · simp [SlabAllocator.pushed, SlabAllocator.setClass, SlabAllocator.setItem, hc]
  perslab c := by
    by_cases hc : c = id
    · subst hc
      simp [SlabAllocator.pushed, SlabAllocator.setClass]
    · simp [SlabAllocator.pushed, SlabAllocator.setClass, SlabAllocator.setItem, hc]
  slabList c := by
    by_cases hc : c = id
    · subst hc
      simp [SlabAllocator.pushed, SlabAllocator.setClass]
    · simp [SlabAllocator.pushed, SlabAllocator.setClass, SlabAllocator.setItem, hc]
  curr := by simp [SlabAllocator.pushed, SlabAllocator.setClass]
  others c hc := by simp [SlabAllocator.pushed, SlabAllocator.setClass, SlabAllocator.setItem, hc]
  clsid := by
    rw [Books.clsid_pushed, Function.update_eq_self_iff]
    simp [SlabAllocator.clsid, hnew]
  asked := by
    rw [Books.asked_pushed, Function.update_eq_self_iff]
    simp [SlabAllocator.asked, hnew]

theorem Carved.trans {s'' : SlabAllocator} {m : Nat} (h : Carved id m s s') (h' : Carved id n s' s'') :
    Carved id (n + m) s s'' where
  powerLargest := h'.powerLargest.trans h.powerLargest
  memBase := h'.memBase.trans h.memBase
  memCurrent := h'.memCurrent.trans h.memCurrent
  memAvail := h'.memAvail.trans h.memAvail
  memFree := h'.memFree.trans h.memFree
  size c := (h'.size c).trans (h.size c)
  perslab c := (h'.perslab c).trans (h.perslab c)
  slabList c := (h'.slabList c).trans (h.slabList c)
  curr := by
    rw [h'.curr, h.curr]
    omega
  others c hc := (h'.others c hc).trans (h.others c hc)
  clsid := h'.clsid.trans h.clsid
  asked := h'.asked.trans h.asked

/-- The loop over a page puts all its chunks on the free list of the class. -/
theorem Books.split (h : Books chunk fl s) (hid : IsClass id) (hpl : s.powerLargest = sizes.length)
    (hsize : 0 < (s.slabclass id).size)
    (hnew : ∀ x < n, ∀ c, ¬ chunk c (ptr + x * (s.slabclass id).size))
    (hcurr : (s.slabclass id).slCurr + n < 2 ^ 32) :
    Carved id n s (SlabAllocator.splitSlabPage id n ptr s) ∧
    ∃ fl', Books (fun c a => chunk c a ∨
        (c = id ∧ ∃ x < n, a = ptr + x * (s.slabclass id).size)) fl'
      (SlabAllocator.splitSlabPage id n ptr s) := by
  induction n generalizing chunk fl s ptr with
  | zero =>
    refine ⟨⟨rfl, rfl, rfl, rfl, rfl, fun _ => rfl, fun _ => rfl, fun _ => rfl, rfl,
      fun _ _ => rfl, rfl, rfl⟩, fl, ?_⟩
    refine h.congr fun c a => ?_
    simp
  | succ n ih =>
    have hfresh : ∀ c, ¬ chunk c ptr := by
      intro c
      simpa using hnew 0 (by omega) c
    have hnone : s.statsMap ptr = none := by
      rw [← Option.not_isSome_iff_eq_none, h.item]
      rintro ⟨c, hc⟩
      exact hfresh c hc
    have hlist : ∀ c, ptr ∉ fl c := fun c hc => hfresh c ((h.free c ptr).1 hc).1
    have hone : Carved id 1 s (s.pushed ptr id) := carved_pushed hnone
    have hpush := h.push hid hlist fun c hc => absurd hc (hfresh c)
    rw [SlabAllocator.splitSlabPage, doSlabsFree_fresh hid hpl hnone (by omega), ← hone.size id]
    rw [← hone.size id] at hsize hnew
    generalize (s.pushed ptr id) = t at *
    have hnext : ∀ x < n, ∀ c, ¬ (chunk c (ptr + (t.slabclass id).size + x * (t.slabclass id).size) ∨
        (c = id ∧ ptr + (t.slabclass id).size + x * (t.slabclass id).size = ptr)) := by
      intro x hx c
      have hx' := hnew (x + 1) (by omega) c
      rw [Nat.succ_mul, Nat.add_comm (x * _), ← Nat.add_assoc] at hx'
      rintro (hc | ⟨rfl, hp⟩)
      · exact hx' hc
      · omega
    have hroom : (t.slabclass id).slCurr + n < 2 ^ 32 := by
      rw [hone.curr]
      omega
    obtain ⟨hcarved, fl', hbooks⟩ := ih hpush (hone.powerLargest.trans hpl) hsize hnext hroom
    refine ⟨hone.trans hcarved, fl', hbooks.congr fun c a => ?_⟩
    constructor
    · rintro (hc | ⟨rfl, x, hx, rfl⟩)
      · exact .inl (.inl hc)
      · rcases x with _ | x
        · exact .inl (.inr ⟨rfl, by simp⟩)
        · refine .inr ⟨rfl, x, by omega, ?_⟩
          rw [Nat.succ_mul]
          omega
    · rintro ((hc | ⟨rfl, rfl⟩) | ⟨rfl, x, hx, rfl⟩)
      · exact .inl hc
      · exact .inr ⟨rfl, 0, by omega, by simp⟩
      · refine .inr ⟨rfl, x + 1, by omega, ?_⟩
        rw [Nat.succ_mul]
        omega

end

/-! ## The invariant -/

/-- The bytes on the free lists. -/
def freeBytes (s : SlabAllocator) : Nat :=
  ∑ c ∈ Finset.Icc 1 sizes.length, (s.slabclass c).slCurr * (initClass c).size

/-- The allocator over a region of `limit` bytes at `base`, of which `pages` are cut. -/
structure Inv (base limit : Nat) (pages : List Nat) (fl : Nat → List Nat) (s : SlabAllocator) :
    Prop where
  books : Books (Cut base pages) fl s
  classes : s.powerLargest = sizes.length
  size : ∀ c, (s.slabclass c).size = (initClass c).size
  perslab : ∀ c, (s.slabclass c).perslab = (initClass c).perslab
  current : s.memCurrent = base + pages.length * itemSizeMax
  avail : s.memCurrent + s.memAvail = base + limit
  /-- a chunk that is handed out was asked for with a size -/
  sized : ∀ a, s.clsid a ≠ 0 → s.asked a ≠ 0
  room : s.memAvail + freeBytes s ≤ s.memFree

section
variable {base limit : Nat} {pages : List Nat} {chunk : Nat → Nat → Prop} {fl : Nat → List Nat}
  {s s' : SlabAllocator} {ptr size id n : Nat}

/-- Only the class ids and the lists matter. -/
theorem Books.frame (h : Books chunk fl s)
    (hitem : ∀ a, (s'.statsMap a).isSome = (s.statsMap a).isSome) (hnext : s'.next = s.next)
    (hclsid : s'.clsid = s.clsid) (hslots : ∀ c, (s'.slabclass c).slots = (s.slabclass c).slots)
    (hcurr : ∀ c, (s'.slabclass c).slCurr = (s.slabclass c).slCurr) : Books chunk fl s' where
  item := by simpa [hitem] using h.item
  isClass := h.isClass
  unique := h.unique
  linked := by simpa [hslots, hnext] using h.linked
  nodup := h.nodup
  curr := by simpa [hcurr] using h.curr
  free := by simpa [hclsid] using h.free
  used := by simpa [hclsid] using h.used

/-- The free bytes change with the list of one class. -/
theorem freeBytes_of_others (hid : IsClass id)
    (h : ∀ c, c ≠ id → (s'.slabclass c).slCurr = (s.slabclass c).slCurr) :
    freeBytes s' + (s.slabclass id).slCurr * (initClass id).size =
      freeBytes s + (s'.slabclass id).slCurr * (initClass id).size := by
  have hmem : id ∈ Finset.Icc 1 sizes.length := Finset.mem_Icc.2 hid
  have hrest : ∑ c ∈ (Finset.Icc 1 sizes.length).erase id,
        (s'.slabclass c).slCurr * (initClass c).size =
      ∑ c ∈ (Finset.Icc 1 sizes.length).erase id, (s.slabclass c).slCurr * (initClass c).size := by
    refine Finset.sum_congr rfl fun c hc => ?_
    rw [h c (Finset.ne_of_mem_erase hc)]
  unfold freeBytes
  rw [← Finset.add_sum_erase _ _ hmem, ← Finset.add_sum_erase _ _ hmem, hrest]
  omega

theorem memoryAllocate_page (hs : s.memoryAllocate itemSizeMax = some (ptr, s')) :
    s.memBase ≠ 0 ∧ itemSizeMax ≤ s.memAvail ∧ ptr = s.memCurrent ∧ s' = { s with
      memCurrent := s.memCurrent + itemSizeMax, memAvail := s.memAvail - itemSizeMax } := by
  have hmod : itemSizeMax % chunkAlign = 0 := rfl
  unfold SlabAllocator.memoryAllocate at hs
  split at hs
  · cases hs
  · rename_i hb
    split at hs
    · cases hs
    · rename_i hle
      simp only [hmod, ne_eq, not_true_eq_false, if_false, Option.some.injEq, Prod.mk.injEq] at hs
      obtain ⟨rfl, rfl⟩ := hs
      refine ⟨hb, by omega, rfl, ?_⟩
      split
      · rfl
      · rw [Nat.sub_eq_zero_of_le (by omega)]

/-- A new page for a class whose list is empty. -/
theorem Inv.newslab (h : Inv base limit pages fl s) (hid : IsClass id)
    (hcurr : (s.slabclass id).slCurr = 0) (hs : s.doSlabsNewslab id = some s') :
    (∃ fl', Inv base limit (pages ++ [id]) fl' s') ∧ 0 < (s'.slabclass id).slCurr ∧
      (∀ c, c ≠ id → (s'.slabclass c).slCurr = (s.slabclass c).slCurr) ∧
      s'.clsid = s.clsid ∧ s'.memFree = s.memFree ∧ s'.memBase = s.memBase ∧
      s'.memAvail = s.memAvail - itemSizeMax ∧
      ∀ c, c ≠ id → (s'.slabclass c).slabList = (s.slabclass c).slabList := by
  obtain ⟨hpos, hper, hmax, hfit⟩ := initClass_bounds hid
  have hM : itemSizeMax = 1048576 := rfl
  unfold SlabAllocator.doSlabsNewslab at hs
  simp only [Option.ite_none_left_eq_some] at hs
  obtain ⟨-, hs⟩ := hs
  obtain ⟨⟨ptr, s₁⟩, halloc, hs⟩ := Option.map_eq_some_iff.1 hs
  obtain ⟨-, hle, rfl, hs₁⟩ := memoryAllocate_page halloc
  have hbooks₁ : Books (Cut base pages) fl s₁ := by
    rw [hs₁]
    exact h.books.frame (fun _ => rfl) rfl rfl (fun _ => rfl) (fun _ => rfl)
  have hclass₁ : s₁.slabclass = s.slabclass := by rw [hs₁]
  have hnew : ∀ x < (s.slabclass id).perslab, ∀ c,
      ¬ Cut base pages c (s.memCurrent + x * (s₁.slabclass id).size) := by
    intro x hx c hc
    have hin := (hc.inside (hbooks₁.isClass c _ hc)).2
    have hpos' := (initClass_bounds (hbooks₁.isClass c _ hc)).1
    rw [h.current] at hin
    omega
  obtain ⟨hcarved, fl', hbooks⟩ := hbooks₁.split hid (by rw [hs₁]; exact h.classes)
    (by rw [hclass₁, h.size]; exact hpos) hnew (by rw [hclass₁, hcurr, h.perslab]; omega)
  dsimp only at hs
  generalize SlabAllocator.splitSlabPage id (s.slabclass id).perslab s.memCurrent s₁ = t at *
  have hclass : ∀ c, (s'.slabclass c).size = (t.slabclass c).size ∧
      (s'.slabclass c).perslab = (t.slabclass c).perslab ∧
      (s'.slabclass c).slots = (t.slabclass c).slots ∧
      (s'.slabclass c).slCurr = (t.slabclass c).slCurr := by
    intro c
    rw [← hs]
    by_cases hc : c = id
    · subst hc
      simp [SlabAllocator.setClass]
    · simp [SlabAllocator.setClass, hc]
  have hstats : s'.statsMap = t.statsMap := by rw [← hs]; rfl
  have hclsid_t : s'.clsid = t.clsid := by rw [← hs]; rfl
  have hclsid : s'.clsid = s.clsid := by
    rw [hclsid_t, hcarved.clsid, hs₁]
    rfl
  have hasked : s'.asked = s.asked := by
    have : s'.asked = t.asked := by rw [← hs]; rfl
    rw [this, hcarved.asked, hs₁]
    rfl
  have hothers : ∀ c, c ≠ id → (s'.slabclass c).slCurr = (s.slabclass c).slCurr := by
    intro c hc
    rw [(hclass c).2.2.2, hcarved.others c hc, hclass₁]
  have hcurr' : (s'.slabclass id).slCurr = (initClass id).perslab := by
    rw [(hclass id).2.2.2, hcarved.curr, hclass₁, hcurr, h.perslab, Nat.zero_add]
  have hfree : s'.memFree = s.memFree := by
    have : s'.memFree = t.memFree := by rw [← hs]; rfl
    rw [this, hcarved.memFree, hs₁]
  have havail : s'.memAvail = s.memAvail - itemSizeMax := by
    have : s'.memAvail = t.memAvail := by rw [← hs]; rfl
    rw [this, hcarved.memAvail, hs₁]
  have hcurrent : s'.memCurrent = s.memCurrent + itemSizeMax := by
    have : s'.memCurrent = t.memCurrent := by rw [← hs]; rfl
    rw [this, hcarved.memCurrent, hs₁]
  have hbase : s'.memBase = s.memBase := by
    have : s'.memBase = t.memBase := by rw [← hs]; rfl
    rw [this, hcarved.memBase, hs₁]
  have hlists : ∀ c, c ≠ id → (s'.slabclass c).slabList = (s.slabclass c).slabList := by
    intro c hc
    have : (s'.slabclass c).slabList = (t.slabclass c).slabList := by
      rw [← hs]
      simp [SlabAllocator.setClass, hc]
    rw [this, hcarved.slabList, hclass₁]
  refine ⟨⟨fl', ?_⟩, by omega, hothers, hclsid, hfree, hbase, havail, hlists⟩
  constructor
  case books =>
    have hnext : s'.next = t.next := by rw [← hs]; rfl
    refine (hbooks.frame (fun a => by rw [hstats]) hnext hclsid_t (fun c => (hclass c).2.2.1)
      (fun c => (hclass c).2.2.2)).congr fun c a => ?_
    rw [cut_append, h.current, hclass₁, h.size, h.perslab]
  case classes =>
    have : s'.powerLargest = t.powerLargest := by rw [← hs]; rfl
    rw [this, hcarved.powerLargest, hs₁]
    exact h.classes
  case size =>
    intro c
    rw [(hclass c).1, hcarved.size, hclass₁, h.size]
  case perslab =>
    intro c
    rw [(hclass c).2.1, hcarved.perslab, hclass₁, h.perslab]
  case current =>
    rw [hcurrent, h.current, List.length_append, List.length_singleton, Nat.add_mul, Nat.one_mul,
      Nat.add_assoc]
  case avail =>
    have := h.avail
    omega
  case sized =>
    rw [hclsid, hasked]
    exact h.sized
  case room =>
    have hbytes := freeBytes_of_others hid hothers
    have := h.room
    rw [hcurr, Nat.zero_mul, Nat.add_zero, hcurr'] at hbytes
    omega

/-- A chunk of the free list is handed out. -/
theorem Inv.takeSlot (h : Inv base limit pages fl s) (hid : IsClass id) (hsize : size ≠ 0)
    (hne : (s.slabclass id).slCurr ≠ 0) :
    ∃ ptr fl' s', s.takeSlot size id = (some ptr, s') ∧ Inv base limit pages fl' s' ∧
      s.clsid ptr = 0 ∧ s'.clsid = Function.update s.clsid ptr id ∧
      s'.memFree + (initClass id).size = s.memFree := by
  have hlen := h.books.curr id
  obtain ⟨ptr, rest, hslots, hl, -⟩ := (h.books.linked id).exists_cons (by
    intro hnil
    rw [hnil] at hlen
    exact hne hlen)
  obtain ⟨hcut, hzero⟩ := (h.books.free id ptr).1 (by simp [hl])
  obtain ⟨it, hit⟩ := Option.isSome_iff_exists.1 ((h.books.item ptr).2 ⟨id, hcut⟩)
  have hnext : s.next ptr = it.next := by simp [SlabAllocator.next, hit]
  have htake : s.takeSlot size id = (some ptr, { s.popped ptr size id with
      memFree := s.memFree - (initClass id).size }) := by
    simp only [SlabAllocator.takeSlot, hslots, hit, Option.getD_some, SlabAllocator.popped, hnext,
      ← h.size id]
    rfl
  have hothers : ∀ c, c ≠ id →
      ((s.popped ptr size id).slabclass c).slCurr = (s.slabclass c).slCurr := by
    intro c hc
    simp [SlabAllocator.popped, SlabAllocator.setClass, SlabAllocator.setItem, hc]
  have hcurr : ((s.popped ptr size id).slabclass id).slCurr + 1 = (s.slabclass id).slCurr := by
    simp only [SlabAllocator.popped, SlabAllocator.setClass, Function.update_self]
    omega
  have hbytes : freeBytes (s.popped ptr size id) + (initClass id).size = freeBytes s := by
    have := freeBytes_of_others hid hothers
    rw [← hcurr, Nat.add_mul, Nat.one_mul] at this
    omega
  have hroom := h.room
  have hclass : ∀ c, ((s.popped ptr size id).slabclass c).size = (s.slabclass c).size ∧
      ((s.popped ptr size id).slabclass c).perslab = (s.slabclass c).perslab := by
    intro c
    by_cases hc : c = id
    · subst hc
      simp [SlabAllocator.popped, SlabAllocator.setClass]
    · simp [SlabAllocator.popped, SlabAllocator.setClass, SlabAllocator.setItem, hc]
  refine ⟨ptr, Function.update fl id rest, _, htake, ?_, hzero, Books.clsid_popped, ?_⟩
  · constructor
    case books =>
      exact (h.books.pop hid hl).frame (fun _ => rfl) rfl rfl (fun _ => rfl) (fun _ => rfl)
    case classes => exact h.classes
    case size =>
      intro c
      exact (hclass c).1.trans (h.size c)
    case perslab =>
      intro c
      exact (hclass c).2.trans (h.perslab c)
    case current => exact h.current
    case avail => exact h.avail
    case sized =>
      intro a ha
      change (s.popped ptr size id).clsid a ≠ 0 at ha
      change (s.popped ptr size id).asked a ≠ 0
      rw [Books.clsid_popped] at ha
      rw [Books.asked_popped]
      by_cases hp : a = ptr
      · subst hp
        simpa using hsize
      · rw [Function.update_of_ne hp] at ha ⊢
        exact h.sized a ha
    case room =>
      change s.memAvail + freeBytes (s.popped ptr size id) ≤ s.memFree - (initClass id).size
      omega
  · change s.memFree - (initClass id).size + (initClass id).size = s.memFree
    omega

/-- `do_slabs_alloc` hands out a chunk of the class, or nothing. -/
theorem Inv.doSlabsAlloc (h : Inv base limit pages fl s) (id : Nat) (hsize : size ≠ 0) :
    s.doSlabsAlloc size id = (none, s) ∨
      (IsClass id ∧ ∃ ptr s' pages' fl', s.doSlabsAlloc size id = (some ptr, s') ∧
        Inv base limit pages' fl' s' ∧ s.clsid ptr = 0 ∧ s'.clsid = Function.update s.clsid ptr id ∧
        s'.memFree + (initClass id).size = s.memFree) := by
  unfold SlabAllocator.doSlabsAlloc
  split
  · exact .inl rfl
  · rename_i hn
    have hid : IsClass id := by
      have := h.classes
      constructor <;> omega
    split
    · rename_i hne
      obtain ⟨ptr, fl', s', htake, hinv, hz, hc, hf⟩ := h.takeSlot hid hsize hne
      exact .inr ⟨hid, ptr, s', pages, fl', htake, hinv, hz, hc, hf⟩
    · rename_i hne
      have hne : (s.slabclass id).slCurr = 0 := by simpa using hne
      split
      · exact .inl rfl
      · rename_i s₁ hs₁
        obtain ⟨⟨fl₁, h₁⟩, hpos, -, hc₁, hf₁, -⟩ := h.newslab hid hne hs₁
        have hne₁ : (s₁.slabclass id).slCurr ≠ 0 := by omega
        rw [if_pos hne₁]
        obtain ⟨ptr, fl', s', htake, hinv, hz, hc, hf⟩ := h₁.takeSlot hid hsize hne₁
        rw [hc₁] at hz hc
        rw [hf₁] at hf
        exact .inr ⟨hid, ptr, s', pages ++ [id], fl', htake, hinv, hz, hc, hf⟩

/-- The class found is large enough. -/
theorem clsidFrom_spec (s : SlabAllocator) (size n res : Nat) :
    s.clsidFrom size n res = 0 ∨ size ≤ (s.slabclass (s.clsidFrom size n res)).size := by
  induction n generalizing res with
  | zero =>
    rw [SlabAllocator.clsidFrom]
    split
    · exact .inl rfl
    · exact .inr (by omega)
  | succ n ih =>
    rw [SlabAllocator.clsidFrom]
    split
    · exact ih (res + 1)
    · exact .inr (by omega)

theorem slabsClsid_spec (h : s.slabsClsid size ≠ 0) :
    size ≠ 0 ∧ size ≤ (s.slabclass (s.slabsClsid size)).size := by
  unfold SlabAllocator.slabsClsid at h ⊢
  split at h
  · exact absurd rfl h
  · rename_i hsize
    rw [if_neg hsize]
    refine ⟨hsize, ?_⟩
    rcases clsidFrom_spec s size (s.powerLargest - 1) 1 with h0 | hle
    · exact absurd h0 h
    · exact hle

theorem doSlabsAlloc_zero (s : SlabAllocator) (n : Nat) : s.doSlabsAlloc n 0 = (none, s) := by
  rw [SlabAllocator.doSlabsAlloc, if_pos (by omega)]

/-- Nothing is handed out for no bytes, or without a class. -/
theorem ne_zero_of_alloc (hq : (s.doSlabsAlloc n (s.slabsClsid n)).1 ≠ none) :
    n ≠ 0 ∧ s.slabsClsid n ≠ 0 := by
  have hcls : s.slabsClsid n ≠ 0 := by
    intro hz
    rw [hz, doSlabsAlloc_zero] at hq
    exact hq rfl
  exact ⟨(slabsClsid_spec hcls).1, hcls⟩

/-- A chunk that is not handed out is freed: nothing happens but that its size is cleared. -/
theorem Inv.sbFree_free (h : Inv base limit pages fl s) (hz : s.clsid ptr = 0)
    (hs : s.sbFree ptr = some s') :
    Inv base limit pages fl s' ∧ s'.clsid = s.clsid ∧ s'.memFree = s.memFree := by
  obtain ⟨it, hit, rfl⟩ := Option.map_eq_some_iff.1 hs
  have h0 : it.slabsClsid = 0 := by simpa [SlabAllocator.clsid, hit] using hz
  have hskip : (s.setItem ptr { it with size := 0, slabsClsid := 0 }).doSlabsFree ptr it.size
      it.slabsClsid = s.setItem ptr { it with size := 0, slabsClsid := 0 } := by
    rw [h0, SlabAllocator.doSlabsFree, if_pos (by omega)]
  rw [hskip]
  have hclsid : (s.setItem ptr { it with size := 0, slabsClsid := 0 }).clsid = s.clsid := by
    funext a
    by_cases ha : a = ptr
    · subst ha
      simp [SlabAllocator.clsid, SlabAllocator.setItem, hit, h0]
    · simp [SlabAllocator.clsid, SlabAllocator.setItem, ha]
  have hnext : (s.setItem ptr { it with size := 0, slabsClsid := 0 }).next = s.next := by
    funext a
    by_cases ha : a = ptr
    · subst ha
      simp [SlabAllocator.next, SlabAllocator.setItem, hit]
    · simp [SlabAllocator.next, SlabAllocator.setItem, ha]
  refine ⟨⟨h.books.frame (fun a => ?_) hnext hclsid (fun _ => rfl) (fun _ => rfl), h.classes, h.size,
    h.perslab, h.current, h.avail, ?_, h.room⟩, hclsid, rfl⟩
  · by_cases ha : a = ptr
    · subst ha
      simp [SlabAllocator.setItem, hit]
    · simp [SlabAllocator.setItem, ha]
  · intro a ha
    have hne : a ≠ ptr := by
      rintro rfl
      rw [hclsid] at ha
      exact ha hz
    rw [hclsid] at ha
    have hasked := h.sized a ha
    simpa [SlabAllocator.asked, SlabAllocator.setItem, hne] using hasked

/-- A chunk that is handed out goes back to the list of its class. -/
theorem Inv.sbFree_live (h : Inv base limit pages fl s) (hlive : s.clsid ptr ≠ 0)
    (hroom : (s.slabclass (s.clsid ptr)).slCurr + 1 < 2 ^ 32) (hs : s.sbFree ptr = some s') :
    (∃ fl', Inv base limit pages fl' s') ∧ s'.clsid = Function.update s.clsid ptr 0 ∧
      s'.memFree = s.memFree + (initClass (s.clsid ptr)).size := by
  obtain ⟨it, hit, rfl⟩ := Option.map_eq_some_iff.1 hs
  have hcut := h.books.used ptr hlive
  have hid := h.books.isClass _ _ hcut
  have hasked := h.sized ptr hlive
  have hclsid : s.clsid ptr = it.slabsClsid := by simp [SlabAllocator.clsid, hit]
  have hsize : it.size ≠ 0 := by simpa [SlabAllocator.asked, hit] using hasked
  rw [hclsid] at hcut hid hroom hlive
  obtain ⟨h1, h2⟩ := hid
  have hpush : (s.setItem ptr { it with size := 0, slabsClsid := 0 }).doSlabsFree ptr it.size
      it.slabsClsid = { s.pushed ptr it.slabsClsid with
        memFree := s.memFree + (initClass it.slabsClsid).size } := by
    have hn : ¬ (it.slabsClsid < 1 ∨
        (s.setItem ptr { it with size := 0, slabsClsid := 0 }).powerLargest < it.slabsClsid) := by
      have := h.classes
      simp only [SlabAllocator.setItem]
      omega
    rw [SlabAllocator.doSlabsFree, if_neg hn]
    simp only [SlabAllocator.setItem, SlabAllocator.setClass, SlabAllocator.pushed,
      Function.update_self, Option.getD_some, Function.update_idem, if_pos hsize,
      Nat.mod_eq_of_lt hroom, ← h.size]
  rw [hpush]
  have hlist : ∀ c, ptr ∉ fl c := by
    intro c hc
    have := ((h.books.free c ptr).1 hc).2
    rw [hclsid] at this
    exact hlive this
  have hbooks : Books (Cut base pages) (Function.update fl it.slabsClsid (ptr :: fl it.slabsClsid))
      (s.pushed ptr it.slabsClsid) := by
    refine (h.books.push ⟨h1, h2⟩ hlist fun c hc => h.books.unique c _ ptr hc hcut).congr
      fun c a => ?_
    constructor
    · exact .inl
    · rintro (hc | ⟨rfl, rfl⟩)
      · exact hc
      · exact hcut
  have hothers : ∀ c, c ≠ it.slabsClsid →
      ((s.pushed ptr it.slabsClsid).slabclass c).slCurr = (s.slabclass c).slCurr := by
    intro c hc
    simp [SlabAllocator.pushed, SlabAllocator.setClass, SlabAllocator.setItem, hc]
  have hcurr : ((s.pushed ptr it.slabsClsid).slabclass it.slabsClsid).slCurr =
      (s.slabclass it.slabsClsid).slCurr + 1 := by
    simp [SlabAllocator.pushed, SlabAllocator.setClass]
  have hbytes : freeBytes (s.pushed ptr it.slabsClsid) =
      freeBytes s + (initClass it.slabsClsid).size := by
    have := freeBytes_of_others ⟨h1, h2⟩ hothers
    rw [hcurr, Nat.add_mul, Nat.one_mul] at this
    omega
  have hclass : ∀ c, ((s.pushed ptr it.slabsClsid).slabclass c).size = (s.slabclass c).size ∧
      ((s.pushed ptr it.slabsClsid).slabclass c).perslab = (s.slabclass c).perslab := by
    intro c
    by_cases hc : c = it.slabsClsid
    · subst hc
      simp [SlabAllocator.pushed, SlabAllocator.setClass]
    · simp [SlabAllocator.pushed, SlabAllocator.setClass, SlabAllocator.setItem, hc]
  refine ⟨⟨_, ⟨hbooks.frame (fun _ => rfl) rfl rfl (fun _ => rfl) (fun _ => rfl), h.classes,
    fun c => (hclass c).1.trans (h.size c), fun c => (hclass c).2.trans (h.perslab c), h.current,
    h.avail, ?_, ?_⟩⟩, Books.clsid_pushed, by rw [hclsid]⟩
  · intro a ha
    change (s.pushed ptr it.slabsClsid).clsid a ≠ 0 at ha
    change (s.pushed ptr it.slabsClsid).asked a ≠ 0
    rw [Books.clsid_pushed] at ha
    rw [Books.asked_pushed]
    by_cases hp : a = ptr
    · subst hp
      simp at ha
    · rw [Function.update_of_ne hp] at ha ⊢
      exact h.sized a ha
  · change s.memAvail + freeBytes (s.pushed ptr it.slabsClsid) ≤
      s.memFree + (initClass it.slabsClsid).size
    have := h.room
    omega

end

end HwGam.Slabs
