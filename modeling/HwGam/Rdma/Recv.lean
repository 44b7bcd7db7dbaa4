import HwGam.Lib.Cyclic
import HwGam.Lib.Transition
import Mathlib.Algebra.Group.Nat.Defs
import Mathlib.Algebra.Ring.Int.Defs

/-!
# Receive slots

`RdmaResource` posts receives to the shared receive queue, one per communication slot. A slot is
marked used while its receive is posted and while the message it received is processed; the handler
then posts it again with `PostRecvSlot`. `posted` and `processing` are history: the receives the
verbs layer accepted and has not completed, and the slots a handler works on.
-/

namespace HwGam.Rdma

open Lib

/-- `RECV_SLOT_STEP`. -/
def recvSlotStep : Nat := 100

structure RdmaResource where
  rxDepth : Nat
  slots : List Bool
  slotHead : Nat
  slotInuse : Nat
  /-- Registered chunks of `RECV_SLOT_STEP` slots. -/
  commBuf : Nat
  recvPosted : Int
  posted : List Nat
  processing : List Nat
  deriving DecidableEq, Repr

def RdmaResource.new (rxDepth : Nat) : RdmaResource := ⟨rxDepth, [], 0, 0, 0, 0, [], []⟩

namespace RdmaResource

/-- The end of `RegCommSlot`: the new chunks are there and their slots are free. -/
def enlarge (s : RdmaResource) (inuse chunks : Nat) : RdmaResource :=
  { s with
    slotInuse := inuse
    commBuf := s.commBuf + chunks
    slots := s.slots ++ List.replicate (chunks * recvSlotStep) false }

/-- `RegCommSlot`; with `failAt = some k` the registration of the `k`-th new chunk fails. -/
def regCommSlot (s : RdmaResource) (slot : Nat) (failAt : Option Nat) : RdmaResource × Int :=
  -- `slots.size() - slot_inuse` is a `size_t`
  if (slot : Int) ≤ ((s.slots.length : Int) - s.slotInuse) % 2 ^ 64 then
    ({ s with slotInuse := s.slotInuse + slot }, 0)
  else
    let inuse := s.slotInuse + slot
    let chunks := (inuse - s.slots.length + recvSlotStep - 1) / recvSlotStep
    match failAt with
    | some k =>
      if k < chunks then ({ s with slotInuse := inuse, commBuf := s.commBuf + k }, -1)
      else (s.enlarge inuse chunks, 0)
    | none => (s.enlarge inuse chunks, 0)

/-- `if (++slot_head == slot_inuse) slot_head = 0`. -/
def next (inuse head : Nat) : Nat := if head + 1 = inuse then 0 else head + 1

/-- The loop of `PostRecv` with `m` receives to go: the slots, the head, and the work requests as
the slots they are for. `none` where `slots.at` throws or `fuel` rounds are not enough. -/
def scan (inuse headInit : Nat) :
    Nat → Nat → List Bool → Nat → List Nat → Option (List Bool × Nat × List Nat)
  | _, 0, slots, head, rr => some (slots, head, rr)
  | 0, _ + 1, _, _, _ => none
  | fuel + 1, m + 1, slots, head, rr =>
    match slots[head]? with
    | none => none
    | some true =>
      if next inuse head = headInit then some (slots, next inuse head, rr)
      else scan inuse headInit fuel (m + 1) slots (next inuse head) rr
    | some false =>
      scan inuse headInit fuel m (slots.set head true) (next inuse head) (rr ++ [head])

/-- `ibv_post_srq_recv` of a chain: what it accepts and `bad_rr`, if the element at `reject` is
refused. -/
def postSrqRecv (rr : List Nat) (reject : Option Nat) : List Nat × Option Nat :=
  match reject with
  | none => (rr, none)
  | some k =>
    match rr[k]? with
    | some bad => (rr.take k, some bad)
    | none => (rr, none)

/-- `RMINUS`. -/
def rminus (a b rz : Nat) : Nat := if b ≤ a then a - b else a + rz - b

/-- The loop that takes the slots back, from `s` up to `head`. -/
def clear (inuse head : Nat) : Nat → Nat → List Bool → List Bool
  | 0, _, slots => slots
  | fuel + 1, s, slots =>
    if s = head then slots else clear inuse head fuel (next inuse s) (slots.set s false)

/-- `n` as `PostRecv` clips it. -/
def wanted (s : RdmaResource) (n : Nat) : Int :=
  if (n : Int) > s.rxDepth - s.recvPosted then s.rxDepth - s.recvPosted else n

def postRecv (s : RdmaResource) (n : Nat) (reject : Option Nat) : Option (RdmaResource × Int) := do
  let n := s.wanted n
  if n < 0 then none
  else if n = 0 then some (s, 0)
  else
    let (slots, head, rr) ←
      scan s.slotInuse s.slotHead (2 * s.slotInuse + 1) n.toNat s.slots s.slotHead []
    let s := { s with slotHead := head, recvPosted := s.recvPosted + n }
    match postSrqRecv rr reject with
    | (accepted, none) =>
      some ({ s with slots := slots, posted := s.posted ++ accepted }, rr.length)
    | (accepted, some bad) =>
      some ({ s with
        slots := clear s.slotInuse head s.slotInuse bad slots
        posted := s.posted ++ accepted }, rr.length - rminus head bad s.slotInuse)

/-- `PostRecvSlot`, which the handler calls with the slot it has worked on. -/
def postRecvSlot (s : RdmaResource) (slot : Nat) (reject : Bool) : Option (RdmaResource × Int) :=
  if slot ∉ s.processing then none
  else
    let s := { s with processing := s.processing.erase slot }
    if (s.rxDepth : Int) = s.recvPosted then some (s, 0)
    else
      let s := { s with recvPosted := s.recvPosted + 1 }
      if reject then some ({ s with slots := s.slots.set slot false }, 0)
      else some ({ s with posted := s.posted ++ [slot] }, 1)

/-- `RecvComp` of a posted receive. -/
def recvComp (s : RdmaResource) (slot : Nat) : Option (RdmaResource × Int) :=
  if slot ∉ s.posted then none
  else some ({ s with
    recvPosted := s.recvPosted - 1
    posted := s.posted.erase slot
    processing := s.processing ++ [slot] }, 0)

end RdmaResource

inductive RecvAct where
  | regCommSlot (slot : Nat) (failAt : Option Nat)
  | postRecv (n : Nat) (reject : Option Nat)
  | postRecvSlot (slot : Nat) (reject : Bool)
  | recvComp (slot : Nat)
  deriving DecidableEq, Repr

/-- The state and the return value. -/
def RecvAct.run : RecvAct → RdmaResource → Option (RdmaResource × Int)
  | .regCommSlot slot failAt, s => some (s.regCommSlot slot failAt)
  | .postRecv n reject, s => s.postRecv n reject
  | .postRecvSlot slot reject, s => s.postRecvSlot slot reject
  | .recvComp slot, s => s.recvComp slot

def recvStep (a : RecvAct) (s : RdmaResource) : Option RdmaResource := (a.run s).map (·.1)

def RecvAct.isPost : RecvAct → Bool
  | .postRecv .. | .postRecvSlot .. => true
  | _ => false

structure RdmaResource.Accounts (s : RdmaResource) : Prop where
  count : s.recvPosted = s.posted.length
  used : ∀ slot, s.slots[slot]? = some true ↔ slot ∈ s.posted ∨ slot ∈ s.processing
  once : s.posted.Nodup

/-- A post returns the number of receives accepted. -/
def RecvAct.Counts (a : RecvAct) (s : RdmaResource) : Prop :=
  ∀ s' ret, a.isPost = true → a.run s = some (s', ret) →
    ret = (s'.posted.length : Int) - s.posted.length

/-- The slots in use that are not marked. -/
def RdmaResource.free (s : RdmaResource) : Nat :=
  (List.range s.slotInuse).countP fun slot => s.slots[slot]? = some false

/-- Nothing is refused, `PostRecv` finds as many free slots as it wants after the clip, and
`PostRecvSlot` finds room in the queue. -/
def smooth : RecvAct → RdmaResource → Prop
  | .regCommSlot _ failAt, _ => failAt = none
  | .postRecv n reject, s => reject = none ∧ s.wanted n ≤ s.free
  | .postRecvSlot _ reject, s => reject = false ∧ s.recvPosted < s.rxDepth
  | .recvComp _, _ => True

instance : ∀ (a : RecvAct) (s : RdmaResource), Decidable (smooth a s)
  | .regCommSlot _ failAt, _ => inferInstanceAs (Decidable (failAt = none))
  | .postRecv n reject, s => inferInstanceAs (Decidable (reject = none ∧ s.wanted n ≤ s.free))
  | .postRecvSlot _ reject, s =>
    inferInstanceAs (Decidable (reject = false ∧ s.recvPosted < s.rxDepth))
  | .recvComp _, _ => inferInstanceAs (Decidable True)

/-! ## Looking for free slots -/

open RdmaResource

variable {N hi k m fuel head : Nat} {slots : List Bool} {rr l : List Nat} {s s' : RdmaResource}
  {ret : Int}

/-- `slots` with those of `l` marked used. -/
def mark (slots : List Bool) (l : List Nat) : List Bool := l.foldl (fun t i => t.set i true) slots

@[simp] theorem length_mark : (mark slots l).length = slots.length := by
  induction l generalizing slots with
  | nil => rfl
  | cons i l ih =>
    have hset : (mark (slots.set i true) l).length = (slots.set i true).length := ih
    simpa [mark] using hset

theorem mark_eq_true {i : Nat} (hl : ∀ i ∈ l, i < slots.length) :
    (mark slots l)[i]? = some true ↔ slots[i]? = some true ∨ i ∈ l := by
  induction l generalizing slots with
  | nil => simp [mark]
  | cons j l ih =>
    have hj : j < slots.length := hl j (List.mem_cons_self ..)
    have hmark : mark slots (j :: l) = mark (slots.set j true) l := rfl
    rw [hmark, ih (fun i hi => by simpa using hl i (List.mem_cons_of_mem _ hi)),
      List.getElem?_set, List.mem_cons]
    by_cases hij : j = i
    · simp [hij, hij ▸ hj]
    · simp [hij, Ne.symm hij]

theorem next_wrap (hhi : hi < N) (hk : k < N) : next N ((hi + k) % N) = (hi + (k + 1)) % N := by
  rw [wrap_eq hhi hk.le, wrap_eq hhi hk, next]
  split_ifs <;> omega

/-- The free ones among the slots from the `k`-th behind `hi` on, for the rest of the turn. -/
def ahead (N hi k : Nat) (slots : List Bool) : Nat :=
  (List.range' k (N - k)).countP fun j => slots[(hi + j) % N]? = some false

theorem ahead_succ (hk : k < N) : ahead N hi k slots =
    ahead N hi (k + 1) slots + if slots[(hi + k) % N]? = some false then 1 else 0 := by
  rw [ahead, show N - k = N - (k + 1) + 1 by omega, List.range'_succ, List.countP_cons]
  simp [ahead]

theorem ahead_set (hhi : hi < N) (hk : k < N) :
    ahead N hi (k + 1) (slots.set ((hi + k) % N) true) = ahead N hi (k + 1) slots := by
  apply List.countP_congr
  intro j hj
  rw [List.mem_range'_1] at hj
  have hne : (hi + k) % N ≠ (hi + j) % N := by
    intro heq
    have := wrap_inj hhi hk (by omega) heq
    omega
  rw [List.getElem?_set_ne hne]

theorem ahead_zero (hhi : hi < N) : ahead N hi 0 slots =
    (List.range N).countP fun i => slots[i]? = some false := by
  rw [← (range_turn hhi).countP_eq, List.countP_map, ahead, Nat.sub_zero, List.range_eq_range']
  rfl

/-- With enough free slots ahead the loop finds `m` of them within the turn. -/
theorem scan_free (rr : List Nat) (hhi : hi < N) (hN : N ≤ slots.length) (hk : k ≤ N) (hfuel : N - k ≤ fuel)
    (hfree : m ≤ ahead N hi k slots) :
    ∃ l head, scan N hi fuel m slots ((hi + k) % N) rr = some (mark slots l, head, rr ++ l) ∧
      head < N ∧ l.length = m ∧ l.Nodup ∧ ∀ i ∈ l, i < N ∧ slots[i]? = some false := by
  induction fuel generalizing m k slots rr with
  | zero =>
    obtain rfl : k = N := by omega
    have hm : m = 0 := by simpa [ahead] using hfree
    subst hm
    exact ⟨[], (hi + k) % k, by simp [scan, mark], Nat.mod_lt _ (by omega), rfl, List.nodup_nil,
      by simp⟩
  | succ fuel ih =>
    rcases m with _ | m
    · exact ⟨[], (hi + k) % N, by simp [scan, mark], Nat.mod_lt _ (by omega), rfl,
        List.nodup_nil, by simp⟩
    · have hkN : k < N := by
        by_contra hge
        obtain rfl : k = N := by omega
        simp [ahead] at hfree
      have hlt : (hi + k) % N < N := Nat.mod_lt _ (by omega)
      rw [ahead_succ hkN] at hfree
      rw [scan]
      cases hb : slots[(hi + k) % N]? with
      | none => rw [List.getElem?_eq_none_iff] at hb; omega
      | some b =>
        cases b with
        | true =>
          rw [hb] at hfree
          have hkN' : k + 1 < N := by
            by_contra hge
            obtain rfl : k + 1 = N := by omega
            simp [ahead] at hfree
          have hne : (hi + (k + 1)) % N ≠ hi := by
            intro heq
            have h0 : (hi + (k + 1)) % N = (hi + 0) % N := by
              rw [heq, Nat.add_zero, Nat.mod_eq_of_lt hhi]
            have := wrap_inj hhi hkN' (by omega) h0
            omega
          simp only [next_wrap hhi hkN, if_neg hne]
          exact ih rr hN (by omega) (by omega) (by simpa using hfree)
        | false =>
          rw [hb] at hfree
          simp only [next_wrap hhi hkN]
          have hN' : N ≤ (slots.set ((hi + k) % N) true).length := by simpa using hN
          obtain ⟨l, head, hscan, hhead, hlen, hnodup, hl⟩ := ih (m := m) (rr ++ [(hi + k) % N]) hN'
            (show k + 1 ≤ N by omega) (by omega)
            (by rw [ahead_set hhi hkN]; simpa using hfree)
          refine ⟨(hi + k) % N :: l, head, ?_, hhead, by simp [hlen], ?_, ?_⟩
          · rw [hscan, List.append_assoc]
            rfl
          · refine List.nodup_cons.mpr ⟨fun hmem => ?_, hnodup⟩
            have := (hl _ hmem).2
            rw [List.getElem?_set_self (by omega)] at this
            cases this
          · intro i hi'
            rcases List.mem_cons.mp hi' with rfl | hmem
            · exact ⟨hlt, hb⟩
            · obtain ⟨h1, h2⟩ := hl i hmem
              refine ⟨h1, ?_⟩
              rw [List.getElem?_set] at h2
              split at h2
              · split at h2 <;> cases h2
              · exact h2

/-- The loop as `PostRecv` runs it, when there are enough free slots. -/
theorem scan_turn (hhi : hi < N) (hN : N ≤ slots.length)
    (hfree : m ≤ (List.range N).countP fun i => slots[i]? = some false) :
    ∃ l head, scan N hi (2 * N + 1) m slots hi [] = some (mark slots l, head, l) ∧
      head < N ∧ l.length = m ∧ l.Nodup ∧ ∀ i ∈ l, i < N ∧ slots[i]? = some false := by
  rw [← ahead_zero hhi] at hfree
  have h := scan_free [] hhi hN (Nat.zero_le N) (show N - 0 ≤ 2 * N + 1 by omega) hfree
  simpa [Nat.mod_eq_of_lt hhi] using h

/-! ## The books of a resource -/

/-- What the calls keep as long as they go smoothly. -/
structure RdmaResource.Books (s : RdmaResource) : Prop extends s.Accounts where
  apart : (s.posted ++ s.processing).Nodup
  inuse_le : s.slotInuse ≤ s.slots.length
  head_lt : s.slotHead = 0 ∨ s.slotHead < s.slotInuse
  below : ∀ slot, slot ∈ s.posted ∨ slot ∈ s.processing → slot < s.slotInuse
  depth : s.recvPosted ≤ s.rxDepth

theorem RdmaResource.Books.new (rxDepth : Nat) : (RdmaResource.new rxDepth).Books where
  count := rfl
  used := by simp [RdmaResource.new]
  once := List.nodup_nil
  apart := List.nodup_nil
  inuse_le := le_rfl
  head_lt := .inl rfl
  below := by simp [RdmaResource.new]
  depth := by simp [RdmaResource.new]

/-- Growing the table keeps the books. -/
theorem RdmaResource.Books.grow {inuse commBuf k : Nat} (h : s.Books) (hle : s.slotInuse ≤ inuse)
    (hlen : inuse ≤ s.slots.length + k) :
    RdmaResource.Books { s with
      slotInuse := inuse
      commBuf := commBuf
      slots := s.slots ++ List.replicate k false } where
  count := h.count
  used := by
    intro slot
    rw [← h.used, List.getElem?_append]
    split
    · rfl
    · rename_i hge
      rw [List.getElem?_replicate, List.getElem?_eq_none (by omega)]
      split <;> simp
  once := h.once
  apart := h.apart
  inuse_le := by simpa using hlen
  head_lt := h.head_lt.imp_right fun hlt => Nat.lt_of_lt_of_le hlt hle
  below := fun slot hs => Nat.lt_of_lt_of_le (h.below slot hs) hle
  depth := h.depth

theorem RdmaResource.Books.regCommSlot (h : s.Books) (slot : Nat) : (s.regCommSlot slot none).1.Books := by
  have hle := h.inuse_le
  rw [RdmaResource.regCommSlot]
  split
  · rename_i hroom
    have hgrow : RdmaResource.Books { s with
        slotInuse := s.slotInuse + slot
        commBuf := s.commBuf
        slots := s.slots ++ List.replicate 0 false } := h.grow (Nat.le_add_right _ _) (by omega)
    simpa using hgrow
  · rename_i hroom
    apply h.grow (Nat.le_add_right _ _)
    simp only [recvSlotStep]
    omega

theorem wanted_le (s : RdmaResource) (n : Nat) : s.wanted n ≤ s.rxDepth - s.recvPosted := by
  rw [wanted]
  split <;> omega

/-- A call of `PostRecv` that goes smoothly: the slots it finds are posted, and it returns their
number. -/
theorem RdmaResource.Books.postRecv {n : Nat} (h : s.Books) (hfree : s.wanted n ≤ s.free) :
    ∃ s' ret, s.postRecv n none = some (s', ret) ∧ s'.Books ∧
      ret = (s'.posted.length : Int) - s.posted.length := by
  have hdepth := h.depth
  have hclip := wanted_le s n
  have h0 : 0 ≤ s.wanted n := by
    rw [wanted]
    split <;> omega
  rw [RdmaResource.postRecv]
  simp only [if_neg (Int.not_lt.mpr h0)]
  by_cases hz : s.wanted n = 0
  · simp only [if_pos hz]
    exact ⟨s, 0, rfl, h, by omega⟩
  · simp only [if_neg hz]
    have hhead : s.slotHead < s.slotInuse := by
      rcases h.head_lt with h0 | hlt
      · rw [h0]
        apply Nat.pos_of_ne_zero
        intro hnone
        simp [RdmaResource.free, hnone] at hfree
        omega
      · exact hlt
    obtain ⟨l, head, hscan, hheadlt, hlen, hnodup, hl⟩ := scan_turn hhead h.inuse_le
      (show (s.wanted n).toNat ≤ _ by rw [RdmaResource.free] at hfree; omega)
    rw [hscan]
    refine ⟨_, _, rfl, ?_, by simp⟩
    -- the slots found were free, so neither posted nor with a handler
    have hfresh : ∀ i ∈ l, i ∉ s.posted ∧ i ∉ s.processing := by
      intro i hi
      rw [← not_or, ← h.used, (hl i hi).2]
      simp
    have happ := h.apart
    rw [List.nodup_append'] at happ
    constructor
    · constructor
      · simp only [List.length_append, h.count, hlen]
        omega
      · intro i
        rw [mark_eq_true fun i hi => Nat.lt_of_lt_of_le (hl i hi).1 h.inuse_le, h.used,
          List.mem_append]
        tauto
      · refine List.nodup_append'.mpr ⟨h.once, hnodup, ?_⟩
        intro i hp hi
        exact (hfresh i hi).1 hp
    · rw [List.append_assoc, List.nodup_append']
      refine ⟨h.once, List.nodup_append'.mpr ⟨hnodup, happ.2.1, ?_⟩, ?_⟩
      · intro i hi hp
        exact (hfresh i hi).2 hp
      · intro i hp hi
        rcases List.mem_append.mp hi with hi | hi
        · exact (hfresh i hi).1 hp
        · exact happ.2.2 hp hi
    · simpa using h.inuse_le
    · exact .inr hheadlt
    · intro i hi
      rw [List.mem_append, or_assoc] at hi
      rcases hi with hp | hl' | hp
      · exact h.below i (.inl hp)
      · exact (hl i hl').1
      · exact h.below i (.inr hp)
    · simp only
      omega

/-- A slot goes from one list to the other. -/
theorem RdmaResource.Books.move {posted processing : List Nat} {recvPosted : Int} (h : s.Books)
    (hperm : (posted ++ processing).Perm (s.posted ++ s.processing))
    (hcount : recvPosted = posted.length) (hdepth : recvPosted ≤ s.rxDepth) :
    RdmaResource.Books { s with
      posted := posted
      processing := processing
      recvPosted := recvPosted } := by
  have hmem : ∀ i, i ∈ posted ∨ i ∈ processing ↔ i ∈ s.posted ∨ i ∈ s.processing := by
    intro i
    rw [← List.mem_append, ← List.mem_append, hperm.mem_iff]
  have hapart : (posted ++ processing).Nodup := hperm.nodup_iff.mpr h.apart
  constructor
  · exact ⟨hcount, fun i => by rw [hmem]; exact h.used i, (List.nodup_append'.mp hapart).1⟩
  · exact hapart
  · exact h.inuse_le
  · exact h.head_lt
  · exact fun i hi => h.below i ((hmem i).mp hi)
  · exact hdepth

theorem RdmaResource.Books.postRecvSlot {slot : Nat} (h : s.Books) (hroom : s.recvPosted < s.rxDepth)
    (hs : s.postRecvSlot slot false = some (s', ret)) :
    s'.Books ∧ ret = (s'.posted.length : Int) - s.posted.length := by
  rw [RdmaResource.postRecvSlot] at hs
  split at hs
  · cases hs
  · rename_i hslot
    rw [not_not] at hslot
    have hne : ¬ (s.rxDepth : Int) = s.recvPosted := by omega
    simp only [if_neg hne] at hs
    cases hs
    refine ⟨h.move ?_ (by simp [h.count]) (by omega), by simp⟩
    rw [List.append_assoc]
    apply List.Perm.append_left
    exact (List.perm_cons_erase hslot).symm

theorem RdmaResource.Books.recvComp {slot : Nat} (h : s.Books)
    (hs : s.recvComp slot = some (s', ret)) : s'.Books := by
  rw [RdmaResource.recvComp] at hs
  split at hs
  · cases hs
  · rename_i hslot
    rw [not_not] at hslot
    cases hs
    have hlen := List.length_erase_of_mem hslot
    have hpos := List.length_pos_of_mem hslot
    have hcount := h.count
    have hdepth := h.depth
    refine h.move ?_ (by omega) (by omega)
    rw [← List.append_assoc]
    refine (List.perm_append_singleton _ _).trans ?_
    rw [← List.cons_append]
    apply List.Perm.append_right
    exact (List.perm_cons_erase hslot).symm

theorem recvStep_books {a : RecvAct} (h : s.Books) (ha : smooth a s) (hs : recvStep a s = some s') :
    s'.Books := by
  obtain ⟨⟨t, ret⟩, hrun, rfl⟩ := Option.map_eq_some_iff.mp hs
  cases a with
  | regCommSlot slot failAt =>
    have hb := h.regCommSlot slot
    have heq : s.regCommSlot slot failAt = (t, ret) := Option.some.inj hrun
    rw [← show failAt = none from ha, heq] at hb
    exact hb
  | postRecv n reject =>
    obtain ⟨s', ret', hpost, hbooks, -⟩ := h.postRecv ha.2
    rw [RecvAct.run, ha.1, hpost] at hrun
    cases hrun
    exact hbooks
  | postRecvSlot slot reject =>
    rw [RecvAct.run, ha.1] at hrun
    exact (h.postRecvSlot ha.2 hrun).1
  | recvComp slot => exact h.recvComp hrun

theorem RdmaResource.Books.counts {a : RecvAct} (h : s.Books) (ha : smooth a s) : a.Counts s := by
  intro s' ret hpost hrun
  cases a with
  | regCommSlot slot failAt => cases hpost
  | postRecv n reject =>
    obtain ⟨t, ret', heq, -, hret⟩ := h.postRecv ha.2
    rw [RecvAct.run, ha.1, heq] at hrun
    cases hrun
    exact hret
  | postRecvSlot slot reject =>
    rw [RecvAct.run, ha.1] at hrun
    exact (h.postRecvSlot ha.2 hrun).2
  | recvComp slot => cases hpost

/-- In a run of calls that go smoothly the books are right, every further such call returns the
receives it got accepted, and `PostRecv` comes back. -/
theorem accounts_of_reaches {rxDepth : Nat} (h : Reaches recvStep smooth (.new rxDepth) s) :
    s.Accounts ∧ (∀ a, smooth a s → a.Counts s) ∧
      ∀ n, smooth (.postRecv n none) s → (s.postRecv n none).isSome := by
  have hb : s.Books := h.invariant (.new rxDepth) fun a t t' => recvStep_books
  refine ⟨hb.toAccounts, fun a => hb.counts, fun n ha => ?_⟩
  obtain ⟨s', ret, hs, -⟩ := hb.postRecv ha.2
  rw [hs]
  rfl

/-- Two receives are posted, one completes and is posted again. -/
theorem accounts_of_reaches_again : ∃ s : RdmaResource,
    (Reaches recvStep smooth (.new 4) s ∧ s.posted = [1, 0] ∧ s.recvPosted = 2) ∧ s.Accounts := by
  obtain ⟨s, hs, hend⟩ := Reaches.exists_of_runs recvStep smooth
    [.regCommSlot 3 none, .postRecv 2 none, .recvComp 0, .postRecvSlot 0 false] (.new 4)
    (fun s => s.posted = [1, 0] ∧ s.recvPosted = 2) (by decide)
  exact ⟨s, ⟨hs, hend⟩, (accounts_of_reaches hs).1⟩

/-- Three receives asked for with two slots: two are posted, three are counted. -/
theorem not_accounts_few_slots :
    ¬ ∀ s : RdmaResource, Reaches recvStep anyStep (.new 4) s →
      s.Accounts ∧ ∀ a : RecvAct, a.Counts s := by
  intro h
  obtain ⟨s, hs, hend⟩ := Reaches.exists_of_runs recvStep anyStep
    [.regCommSlot 2 none, .postRecv 3 none] (.new 4)
    (fun s => s.posted = [0, 1] ∧ s.recvPosted = 3) (by decide)
  have hcount := (h s hs).1.count
  rw [hend.1, hend.2] at hcount
  cases hcount

end HwGam.Rdma
