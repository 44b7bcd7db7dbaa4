import Mathlib.Data.BitVec
import HwGam.Coherence.Request
import HwGam.Lib.Bytes
import HwGam.Lib.Transition

/-!
# A request over several blocks

A READ or WRITE goes through its blocks one by one. What it finds it copies at once, for the rest
it sends a request of the size of a block and copies when the answer is there, and where a block is
in transition it stops and later starts again from its first block. Which bytes of a block belong
to the request is worked out anew in each of these places, from 64-bit addresses.
-/

namespace HwGam.Coherence.Split

open Lib

abbrev GAddr := BitVec 64

/-- `TOBLOCK` -/
def toBlk (x : GAddr) : GAddr := x &&& 0xFFFFFFFFFFFFFE00

/-- `BADD(i, 1)` -/
def badd (i : GAddr) : GAddr := toBlk (i + 512)

/-- `OFF` -/
def off (x : GAddr) : GAddr := x &&& 0xFFFFFFFFFFFF

/-- The arguments of a `memcpy` between a block and the user's buffer. -/
structure Slice where
  user : GAddr
  blk : GAddr
  len : GAddr

/-- The `addr` and `size` of a request. -/
structure Span where
  addr : GAddr
  size : GAddr

namespace Span

variable (r : Span) (i : GAddr)

/-- `GADD(wr->addr, wr->size)` -/
def stop : GAddr := r.addr + r.size

def gs : GAddr := if r.addr < i then i else r.addr

/-- `int len = nextb > end ? GMINUS(end, gs) : GMINUS(nextb, gs)`, as `memcpy` takes it. -/
def loopLen : GAddr :=
  BitVec.signExtend 64
    (BitVec.setWidth 32 (if r.stop < badd i then r.stop - r.gs i else badd i - r.gs i))

/-- The copies of `Cache::ReadWrite`. -/
def readWrite : Slice := ⟨r.gs i - r.addr, r.gs i - i, r.loopLen i⟩

/-- The copies of `ProcessLocalRead` and `ProcessLocalWrite`, from or to `ToLocal(gs)`, seen from
`ToLocal(i)`. -/
def processLocal : Slice := ⟨r.gs i - r.addr, off (r.gs i) - off i, r.loopLen i⟩

/-- The copies of `ProcessPendingRead` and `ProcessPendingWrite` for the request of block `i`. -/
def processPending : Slice :=
  let blkEnd := i + 512
  ⟨r.gs i - r.addr, r.gs i - i, if r.stop < blkEnd then r.stop - r.gs i else blkEnd - r.gs i⟩

end Span

/-- A copy that was made, with the content of the block before it. -/
structure Copy where
  /-- a write's copy in advance, before it has the permission -/
  early : Bool
  blk : GAddr
  slice : Slice
  data : Data

/-- A request on its way: the loop variable (`none` while the request is parked), the blocks it
waits for, and its copies, the newest first. -/
structure Trip where
  pos : Option GAddr
  pending : List GAddr := []
  copies : List Copy := []

/-- What a block's state makes of the request. -/
inductive Act
  /-- the block is here, with this content -/
  | hit (d : Data)
  | miss
  /-- a WRITE finds the block shared -/
  | upgrade (d : Data)
  | park
  | replay
  /-- the answer for a block is there, with this content -/
  | complete (i : GAddr) (d : Data)

/-- Where the request runs and what it does. -/
structure Mode where
  atHome : Bool
  write : Bool
  deriving DecidableEq

def Mode.slice (m : Mode) (r : Span) (i : GAddr) : Slice :=
  if m.atHome then r.processLocal i else r.readWrite i

namespace Trip

variable (m : Mode) (r : Span)

/-- The loop starts at the first block, also when the request is replayed. -/
def init : Trip := { pos := some (toBlk r.addr) }

def step (act : Act) (t : Trip) : Option Trip :=
  match act with
  | .hit d => do
    let i ← t.pos
    if i < r.stop then
      some { t with pos := some (badd i), copies := ⟨false, i, m.slice r i, d⟩ :: t.copies }
    else none
  | .miss => do
    let i ← t.pos
    if i < r.stop then some { t with pos := some (badd i), pending := i :: t.pending } else none
  | .upgrade d => do
    let i ← t.pos
    if i < r.stop ∧ m.write = true ∧ m.atHome = false then
      some { pos := some (badd i), pending := i :: t.pending
             copies := ⟨true, i, m.slice r i, d⟩ :: t.copies }
    else none
  | .park => do
    let i ← t.pos
    if i < r.stop then some { t with pos := none } else none
  | .replay => if t.pos.isNone then some { t with pos := some (toBlk r.addr) } else none
  | .complete i d =>
    if i ∈ t.pending then
      some { t with
        pending := t.pending.erase i
        copies := ⟨false, i, r.processPending i, d⟩ :: t.copies }
    else none

/-- The loop is over and nothing is awaited. -/
def Completed (t : Trip) : Prop := ∃ i, t.pos = some i ∧ ¬ i < r.stop ∧ t.pending = []

end Trip

/-- The user's buffer after the copies of a READ. -/
def readInto (cs : List Copy) (buf : Data) : Data :=
  cs.foldr (fun c b => memcpy b c.slice.user.toNat c.data c.slice.blk.toNat c.slice.len.toNat) buf

/-- The block after a copy of a WRITE. -/
def Copy.written (c : Copy) (ptr : Data) : Data :=
  memcpy c.data c.slice.blk.toNat ptr c.slice.user.toNat c.slice.len.toNat

/-- The last content of the block at `b` that was copied. -/
def lastCopy (cs : List Copy) (b : Nat) : Option Copy := cs.find? fun c => c.blk.toNat = b

/-- The copies of a request are the bytes `[addr, addr + size)`, whatever its blocks are like. -/
structure Exact (m : Mode) (r : Span) : Prop where
  /-- no pattern keeps the request from its end -/
  completes : ∀ t, Reaches (Trip.step m r) anyStep (Trip.init r) t →
    ∃ t', Reaches (Trip.step m r) anyStep t t' ∧ t'.Completed r
  /-- every byte of the range is copied -/
  covers : ∀ t, Reaches (Trip.step m r) anyStep (Trip.init r) t → t.Completed r →
    ∀ k < r.size.toNat, ∃ c ∈ t.copies, c.early = false ∧
      c.blk.toNat = blockAddr (toBlock (r.addr.toNat + k))
  /-- the buffer of a READ holds the bytes of the blocks, and keeps its others -/
  read : m.write = false → ∀ t, Reaches (Trip.step m r) anyStep (Trip.init r) t → t.Completed r →
    ∀ (buf : Data) (k : Nat),
      (k < r.size.toNat → ∃ c,
        lastCopy t.copies (blockAddr (toBlock (r.addr.toNat + k))) = some c ∧
        readInto t.copies buf k = c.data (r.addr.toNat + k - c.blk.toNat)) ∧
      (r.size.toNat ≤ k → readInto t.copies buf k = buf k)
  /-- a WRITE changes the bytes of the range and no others of any block -/
  write : ∀ t, Reaches (Trip.step m r) anyStep (Trip.init r) t → ∀ c ∈ t.copies,
    ∀ (ptr : Data) (k : Nat), c.written ptr k =
      if k < blockSize ∧ r.addr.toNat ≤ c.blk.toNat + k ∧
          c.blk.toNat + k < r.addr.toNat + r.size.toNat then
        ptr (c.blk.toNat + k - r.addr.toNat)
      else c.data k

/-! ## The ranges agree -/

theorem toNat_toBlk (x : GAddr) : (toBlk x).toNat = x.toNat / 512 * 512 := by
  have hmask : (0xFFFFFFFFFFFFFE00 : GAddr) = BitVec.allOnes 64 <<< 9 := by decide
  rw [toBlk, hmask, toNat_and_mask]
  rfl

theorem toNat_off (x : GAddr) : (off x).toNat = x.toNat % 2 ^ 48 := by
  rw [off, BitVec.toNat_and]
  exact Nat.and_two_pow_sub_one_eq_mod x.toNat 48

/-- The range ends before the last block of the address space. -/
def InRange (r : Span) : Prop := r.addr.toNat + r.size.toNat ≤ 2 ^ 64 - blockSize

/-- Block `i` overlaps the range. -/
structure Overlaps (r : Span) (i : GAddr) : Prop where
  aligned : i.toNat % blockSize = 0
  first : r.addr.toNat < i.toNat + blockSize
  last : i.toNat < r.addr.toNat + r.size.toNat

variable {m : Mode} {r : Span} {i : GAddr} {t t' : Trip}

/-- The part of block `i` in the request, as numbers. -/
structure Slice.Meets (s : Slice) (r : Span) (i : GAddr) : Prop where
  user : s.user.toNat = max i.toNat r.addr.toNat - r.addr.toNat
  blk : s.blk.toNat = max i.toNat r.addr.toNat - i.toNat
  len : s.len.toNat =
    min (i.toNat + blockSize) (r.addr.toNat + r.size.toNat) - max i.toNat r.addr.toNat

theorem toNat_stop (h : InRange r) : r.stop.toNat = r.addr.toNat + r.size.toNat := by
  unfold InRange blockSize at h
  rw [Span.stop, BitVec.toNat_add]
  omega

theorem toNat_gs (r : Span) (i : GAddr) : (r.gs i).toNat = max i.toNat r.addr.toNat := by
  unfold Span.gs
  split
  · rename_i hlt
    rw [BitVec.lt_def] at hlt
    omega
  · rename_i hlt
    rw [BitVec.lt_def] at hlt
    omega

theorem toNat_blkEnd (h : InRange r) (hi : Overlaps r i) :
    (i + 512).toNat = i.toNat + blockSize := by
  have hlast := hi.last
  unfold InRange at h
  rw [BitVec.toNat_add, show (512 : GAddr).toNat = blockSize from rfl]
  unfold blockSize at *
  omega

theorem toNat_badd (h : InRange r) (hi : Overlaps r i) : (badd i).toNat = i.toNat + blockSize := by
  have hal := hi.aligned
  rw [badd, toNat_toBlk, toNat_blkEnd h hi]
  unfold blockSize at *
  omega

/-- A length below `2 ^ 31` survives the `int`. -/
theorem toNat_int (x : GAddr) (h : x.toNat < 2 ^ 31) :
    (BitVec.signExtend 64 (BitVec.setWidth 32 x)).toNat = x.toNat := by
  have hmsb : (BitVec.setWidth 32 x).msb = false := by
    rw [BitVec.msb_eq_decide, decide_eq_false_iff_not, BitVec.toNat_setWidth]
    omega
  rw [BitVec.signExtend_eq_setWidth_of_msb_false hmsb, BitVec.toNat_setWidth,
    BitVec.toNat_setWidth]
  omega

theorem toNat_len (h : InRange r) (hi : Overlaps r i) {stop : GAddr}
    (hstop : stop.toNat = i.toNat + blockSize) :
    (if r.stop < stop then r.stop - r.gs i else stop - r.gs i).toNat =
      min (i.toNat + blockSize) (r.addr.toNat + r.size.toNat) - max i.toNat r.addr.toNat := by
  have hr := toNat_stop h
  have hgs := toNat_gs r i
  obtain ⟨hal, hfirst, hlast⟩ := hi
  unfold InRange blockSize at *
  split
  · rename_i hlt
    rw [BitVec.lt_def] at hlt
    rw [BitVec.toNat_sub_of_le (by rw [BitVec.le_def]; omega)]
    omega
  · rename_i hlt
    rw [BitVec.lt_def] at hlt
    rw [BitVec.toNat_sub_of_le (by rw [BitVec.le_def]; omega)]
    omega

theorem toNat_loopLen (h : InRange r) (hi : Overlaps r i) :
    (r.loopLen i).toNat =
      min (i.toNat + blockSize) (r.addr.toNat + r.size.toNat) - max i.toNat r.addr.toNat := by
  have hlen := toNat_len h hi (toNat_badd h hi)
  rw [Span.loopLen, toNat_int _ (by rw [hlen]; unfold blockSize; omega), hlen]

theorem toNat_gs_sub {x : GAddr} (hx : x = r.addr ∨ x = i) :
    (r.gs i - x).toNat = max i.toNat r.addr.toNat - x.toNat := by
  have hle : x ≤ r.gs i := by
    rw [BitVec.le_def, toNat_gs]
    obtain rfl | rfl := hx
    · exact Nat.le_max_right _ _
    · exact Nat.le_max_left _ _
  rw [BitVec.toNat_sub_of_le hle, toNat_gs]

theorem readWrite_meets (h : InRange r) (hi : Overlaps r i) : (r.readWrite i).Meets r i where
  user := toNat_gs_sub (.inl rfl)
  blk := toNat_gs_sub (.inr rfl)
  len := toNat_loopLen h hi

/-- The block does not cross the border of a worker's addresses. -/
theorem off_sub_off (hi : Overlaps r i) : off (r.gs i) - off i = r.gs i - i := by
  have hgs := toNat_gs r i
  have hg := toNat_off (r.gs i)
  have ho := toNat_off i
  obtain ⟨hal, hfirst, -⟩ := hi
  unfold blockSize at *
  apply BitVec.eq_of_toNat_eq
  rw [BitVec.toNat_sub_of_le (by rw [BitVec.le_def]; omega),
    BitVec.toNat_sub_of_le (by rw [BitVec.le_def]; omega)]
  omega

theorem slice_meets (h : InRange r) (hi : Overlaps r i) : (m.slice r i).Meets r i := by
  unfold Mode.slice
  split
  · have hloc : r.processLocal i = r.readWrite i := by
      rw [Span.processLocal, Span.readWrite, off_sub_off hi]
    rw [hloc]
    exact readWrite_meets h hi
  · exact readWrite_meets h hi

theorem processPending_meets (h : InRange r) (hi : Overlaps r i) :
    (r.processPending i).Meets r i := by
  have hlen := toNat_len h hi (toNat_blkEnd h hi)
  constructor
  · exact toNat_gs_sub (.inl rfl)
  · exact toNat_gs_sub (.inr rfl)
  · simp only [Span.processPending]
    exact hlen

/-- A copy between a block and the buffer moves the bytes of the range in the block. -/
theorem Slice.Meets.read {s : Slice} (hs : s.Meets r i) (hi : Overlaps r i) (buf d : Data)
    (k : Nat) :
    memcpy buf s.user.toNat d s.blk.toNat s.len.toNat k =
      if k < r.size.toNat ∧ blockAddr (toBlock (r.addr.toNat + k)) = i.toNat then
        d (r.addr.toNat + k - i.toNat)
      else buf k := by
  obtain ⟨hal, hfirst, hlast⟩ := hi
  rw [memcpy, hs.user, hs.blk, hs.len]
  unfold blockAddr toBlock blockSize at *
  by_cases hk : k < r.size.toNat ∧ (r.addr.toNat + k) / 512 * 512 = i.toNat
  · rw [if_pos hk, if_pos (by omega)]
    congr 1
    omega
  · rw [if_neg hk, if_neg (by omega)]

theorem Slice.Meets.write {s : Slice} (hs : s.Meets r i) (hi : Overlaps r i) (ptr d : Data)
    (k : Nat) :
    memcpy d s.blk.toNat ptr s.user.toNat s.len.toNat k =
      if k < blockSize ∧ r.addr.toNat ≤ i.toNat + k ∧
          i.toNat + k < r.addr.toNat + r.size.toNat then
        ptr (i.toNat + k - r.addr.toNat)
      else d k := by
  obtain ⟨hal, hfirst, hlast⟩ := hi
  rw [memcpy, hs.user, hs.blk, hs.len]
  unfold blockSize at *
  by_cases hk : k < 512 ∧ r.addr.toNat ≤ i.toNat + k ∧ i.toNat + k < r.addr.toNat + r.size.toNat
  · rw [if_pos hk, if_pos (by omega)]
    congr 1
    omega
  · rw [if_neg hk, if_neg (by omega)]

/-! ## Runs -/

/-- What every run keeps: the loop variable is the first address of a block, and the blocks before
it are copied or awaited. -/
structure Sane (r : Span) (t : Trip) : Prop where
  pos : ∀ i, t.pos = some i → i.toNat % blockSize = 0 ∧ r.addr.toNat < i.toNat + blockSize
  pending : ∀ i ∈ t.pending, Overlaps r i
  copies : ∀ c ∈ t.copies, Overlaps r c.blk ∧ c.slice.Meets r c.blk
  covered : ∀ i, t.pos = some i → ∀ b, Overlaps r b → b.toNat < i.toNat →
    b ∈ t.pending ∨ ∃ c ∈ t.copies, c.early = false ∧ c.blk = b

theorem Sane.overlaps (h : Sane r t) (hr : InRange r) (hpos : t.pos = some i) (hi : i < r.stop) :
    Overlaps r i := by
  obtain ⟨hal, hfirst⟩ := h.pos i hpos
  rw [BitVec.lt_def, toNat_stop hr] at hi
  exact ⟨hal, hfirst, hi⟩

/-- The loop goes on to the next block when this one is copied or awaited. -/
theorem Sane.next (h : Sane r t) (hr : InRange r) (hpos : t.pos = some i) (hi : Overlaps r i)
    {pending : List GAddr} {copies : List Copy}
    (hpend : ∀ b, b ∈ pending → b ∈ t.pending ∨ b = i)
    (hcopy : ∀ c, c ∈ copies → c ∈ t.copies ∨ c.blk = i ∧ c.slice.Meets r i)
    (hkeep : t.pending ⊆ pending ∧ t.copies ⊆ copies)
    (hnew : i ∈ pending ∨ ∃ c ∈ copies, c.early = false ∧ c.blk = i) :
    Sane r ⟨some (badd i), pending, copies⟩ where
  pos j hj := by
    obtain rfl := Option.some.inj hj
    have := hi.aligned
    have := hi.first
    rw [toNat_badd hr hi]
    unfold blockSize at *
    omega
  pending b hb := by
    obtain hb | rfl := hpend b hb
    · exact h.pending b hb
    · exact hi
  copies c hc := by
    obtain hc | ⟨rfl, hm⟩ := hcopy c hc
    · exact h.copies c hc
    · exact ⟨hi, hm⟩
  covered j hj b hb hlt := by
    obtain rfl := Option.some.inj hj
    have hal := hi.aligned
    have hbal := hb.aligned
    rw [toNat_badd hr hi] at hlt
    by_cases heq : b = i
    · rwa [heq]
    · have hne : b.toNat ≠ i.toNat := fun hn => heq (BitVec.eq_of_toNat_eq hn)
      have hbefore : b.toNat < i.toNat := by
        unfold blockSize at *
        omega
      obtain hp | ⟨c, hc, hce⟩ := h.covered i hpos b hb hbefore
      · exact .inl (hkeep.1 hp)
      · exact .inr ⟨c, hkeep.2 hc, hce⟩

theorem Sane.init (r : Span) : Sane r (Trip.init r) where
  pos i hi := by
    obtain rfl := Option.some.inj hi
    rw [toNat_toBlk]
    unfold blockSize
    omega
  pending i hi := by cases hi
  copies c hc := by cases hc
  covered i hi b hb hlt := by
    obtain rfl := Option.some.inj hi
    have := hb.first
    have := hb.aligned
    rw [toNat_toBlk] at hlt
    unfold blockSize at *
    omega

theorem Sane.step {act : Act} (h : Sane r t) (hr : InRange r)
    (hs : Trip.step m r act t = some t') : Sane r t' := by
  cases act with
  | hit d =>
    simp only [Trip.step, Option.bind_eq_bind, Option.bind_eq_some_iff,
      Option.ite_none_right_eq_some, Option.some.injEq] at hs
    obtain ⟨i, hpos, hlt, rfl⟩ := hs
    have hi := h.overlaps hr hpos hlt
    refine h.next hr hpos hi (fun b hb => .inl hb) (fun c hc => ?_)
      ⟨fun _ hx => hx, List.subset_cons_self _ _⟩ (.inr ⟨_, List.mem_cons_self, rfl, rfl⟩)
    obtain rfl | hc := List.mem_cons.1 hc
    · exact .inr ⟨rfl, slice_meets hr hi⟩
    · exact .inl hc
  | miss =>
    simp only [Trip.step, Option.bind_eq_bind, Option.bind_eq_some_iff,
      Option.ite_none_right_eq_some, Option.some.injEq] at hs
    obtain ⟨i, hpos, hlt, rfl⟩ := hs
    have hi := h.overlaps hr hpos hlt
    exact h.next hr hpos hi (fun b hb => (List.mem_cons.1 hb).symm) (fun c hc => .inl hc)
      ⟨List.subset_cons_self _ _, fun _ hx => hx⟩ (.inl List.mem_cons_self)
  | upgrade d =>
    simp only [Trip.step, Option.bind_eq_bind, Option.bind_eq_some_iff,
      Option.ite_none_right_eq_some, Option.some.injEq] at hs
    obtain ⟨i, hpos, ⟨hlt, -⟩, rfl⟩ := hs
    have hi := h.overlaps hr hpos hlt
    refine h.next hr hpos hi (fun b hb => (List.mem_cons.1 hb).symm) (fun c hc => ?_)
      ⟨List.subset_cons_self _ _, List.subset_cons_self _ _⟩ (.inl List.mem_cons_self)
    obtain rfl | hc := List.mem_cons.1 hc
    · exact .inr ⟨rfl, slice_meets hr hi⟩
    · exact .inl hc
  | park =>
    simp only [Trip.step, Option.bind_eq_bind, Option.bind_eq_some_iff,
      Option.ite_none_right_eq_some, Option.some.injEq] at hs
    obtain ⟨i, hpos, hlt, rfl⟩ := hs
    exact ⟨by simp, h.pending, h.copies, by simp⟩
  | replay =>
    simp only [Trip.step, Option.ite_none_right_eq_some, Option.some.injEq] at hs
    obtain ⟨-, rfl⟩ := hs
    refine ⟨(Sane.init r).pos, h.pending, h.copies, fun i hi b hb hlt => ?_⟩
    obtain hnone | ⟨c, hc, -⟩ := (Sane.init r).covered i hi b hb hlt
    · cases hnone
    · cases hc
  | complete i d =>
    simp only [Trip.step, Option.ite_none_right_eq_some, Option.some.injEq] at hs
    obtain ⟨hmem, rfl⟩ := hs
    have hi := h.pending i hmem
    refine ⟨h.pos, fun b hb => h.pending b (List.mem_of_mem_erase hb), fun c hc => ?_,
      fun j hj b hb hlt => ?_⟩
    · obtain rfl | hc := List.mem_cons.1 hc
      · exact ⟨hi, processPending_meets hr hi⟩
      · exact h.copies c hc
    · by_cases heq : b = i
      · exact .inr ⟨_, List.mem_cons_self, rfl, heq.symm⟩
      · obtain hp | ⟨c, hc, hce⟩ := h.covered j hj b hb hlt
        · exact .inl ((List.mem_erase_of_ne heq).2 hp)
        · exact .inr ⟨c, List.mem_cons_of_mem _ hc, hce⟩

theorem sane_of_reaches (hr : InRange r)
    (h : Reaches (Trip.step m r) anyStep (Trip.init r) t) : Sane r t :=
  h.invariant (Sane.init r) fun _ _ _ hs _ hstep => hs.step hr hstep

/-! ## Every request comes to its end -/

theorem reaches_end (hr : InRange r) (n : Nat) (h : Sane r t) (hpos : t.pos = some i)
    (hn : r.addr.toNat + r.size.toNat ≤ i.toNat + n * blockSize) :
    ∃ t', Reaches (Trip.step m r) anyStep t t' ∧ t'.pending = t.pending ∧
      ∃ j, t'.pos = some j ∧ ¬ j < r.stop := by
  induction n generalizing t i with
  | zero =>
    refine ⟨t, .refl, rfl, i, hpos, ?_⟩
    rw [BitVec.lt_def, toNat_stop hr]
    omega
  | succ n ih =>
    by_cases hlt : i < r.stop
    · have hi := h.overlaps hr hpos hlt
      have hstep : Trip.step m r (.hit fun _ => 0) t =
          some { t with
            pos := some (badd i)
            copies := ⟨false, i, m.slice r i, fun _ => 0⟩ :: t.copies } := by
        simp [Trip.step, hpos, hlt]
      obtain ⟨t', hrun, hpend, hend⟩ := ih (h.step hr hstep) rfl (by
        rw [toNat_badd hr hi]
        rw [Nat.succ_mul] at hn
        omega)
      exact ⟨t', .trans (Reaches.refl.tail trivial hstep) hrun, hpend, hend⟩
    · exact ⟨t, .refl, rfl, i, hpos, hlt⟩

theorem reaches_served (t : Trip) :
    ∃ t', Reaches (Trip.step m r) anyStep t t' ∧ t'.pending = [] ∧ t'.pos = t.pos := by
  cases hp : t.pending with
  | nil => exact ⟨t, .refl, hp, rfl⟩
  | cons i is =>
    have hstep : Trip.step m r (.complete i fun _ => 0) t =
        some { t with
          pending := t.pending.erase i
          copies := ⟨false, i, r.processPending i, fun _ => 0⟩ :: t.copies } := by
      simp [Trip.step, hp]
    obtain ⟨t', hrun, hpend, hpos⟩ := reaches_served { t with
      pending := t.pending.erase i
      copies := ⟨false, i, r.processPending i, fun _ => 0⟩ :: t.copies }
    exact ⟨t', .trans (Reaches.refl.tail trivial hstep) hrun, hpend, hpos⟩
termination_by t.pending.length
decreasing_by simp [hp]

theorem reaches_completed (hr : InRange r) (h : Sane r t) :
    ∃ t', Reaches (Trip.step m r) anyStep t t' ∧ t'.Completed r := by
  -- a parked request starts again
  obtain ⟨t₁, hrun₁, hs₁, i, hi⟩ : ∃ t₁, Reaches (Trip.step m r) anyStep t t₁ ∧ Sane r t₁ ∧
      ∃ i, t₁.pos = some i := by
    cases hpos : t.pos with
    | some i => exact ⟨t, .refl, h, i, hpos⟩
    | none =>
      have hstep : Trip.step m r .replay t = some { t with pos := some (toBlk r.addr) } := by
        simp [Trip.step, hpos]
      exact ⟨_, Reaches.refl.tail trivial hstep, h.step hr hstep, _, rfl⟩
  obtain ⟨t₂, hrun₂, -, j, hj, hend⟩ := reaches_end (m := m) hr
    (r.addr.toNat + r.size.toNat) hs₁ hi (by unfold blockSize; omega)
  obtain ⟨t₃, hrun₃, hpend, hpos⟩ := reaches_served (m := m) (r := r) t₂
  exact ⟨t₃, .trans hrun₁ (.trans hrun₂ hrun₃), j, hpos.trans hj, hend, hpend⟩

/-! ## What the copies amount to -/

theorem readInto_eq {cs : List Copy} (h : ∀ c ∈ cs, Overlaps r c.blk ∧ c.slice.Meets r c.blk)
    (buf : Data) (k : Nat) :
    readInto cs buf k =
      if k < r.size.toNat then
        match lastCopy cs (blockAddr (toBlock (r.addr.toNat + k))) with
        | some c => c.data (r.addr.toNat + k - c.blk.toNat)
        | none => buf k
      else buf k := by
  induction cs with
  | nil => simp [readInto, lastCopy]
  | cons c cs ih =>
    obtain ⟨hov, hm⟩ := h c List.mem_cons_self
    have ih := ih fun x hx => h x (List.mem_cons_of_mem _ hx)
    have hcons (b : Nat) :
        lastCopy (c :: cs) b = if c.blk.toNat = b then some c else lastCopy cs b := by
      rw [lastCopy, List.find?_cons]
      by_cases hb : c.blk.toNat = b
      · simp [hb]
      · simp [hb, lastCopy]
    rw [readInto, List.foldr_cons, ← readInto, hm.read hov, ih, hcons]
    by_cases hk : k < r.size.toNat
    · by_cases hb : c.blk.toNat = blockAddr (toBlock (r.addr.toNat + k))
      · simp [hk, hb]
      · simp [hk, hb, Ne.symm hb]
    · simp [hk]

theorem covers_of_completed (hr : InRange r) (h : Sane r t) (hend : t.Completed r) {k : Nat}
    (hk : k < r.size.toNat) :
    ∃ c ∈ t.copies, c.early = false ∧ c.blk.toNat = blockAddr (toBlock (r.addr.toNat + k)) := by
  obtain ⟨i, hpos, hstop, hpend⟩ := hend
  rw [BitVec.lt_def, toNat_stop hr] at hstop
  have hnat : (BitVec.ofNat 64 (blockAddr (toBlock (r.addr.toNat + k)))).toNat =
      blockAddr (toBlock (r.addr.toNat + k)) := by
    rw [BitVec.toNat_ofNat]
    unfold InRange blockAddr toBlock blockSize at *
    omega
  have hov : Overlaps r (BitVec.ofNat 64 (blockAddr (toBlock (r.addr.toNat + k)))) := by
    refine ⟨?_, ?_, ?_⟩ <;> rw [hnat] <;> unfold blockAddr toBlock blockSize <;> omega
  obtain hp | ⟨c, hc, hearly, hblk⟩ := h.covered i hpos _ hov (by
    rw [hnat]
    unfold blockAddr toBlock blockSize
    omega)
  · rw [hpend] at hp
    cases hp
  · exact ⟨c, hc, hearly, by rw [hblk, hnat]⟩

theorem exact_of_inRange (hr : InRange r) : Exact m r where
  completes t h := reaches_completed hr (sane_of_reaches hr h)
  covers t h hend k hk := covers_of_completed hr (sane_of_reaches hr h) hend hk
  read _ t h hend buf k := by
    have hs := sane_of_reaches hr h
    rw [readInto_eq hs.copies]
    constructor
    · intro hk
      rw [if_pos hk]
      obtain ⟨c, hc, -, hblk⟩ := covers_of_completed hr hs hend hk
      have hsome : (lastCopy t.copies (blockAddr (toBlock (r.addr.toNat + k)))).isSome :=
        List.find?_isSome.2 ⟨c, hc, by simpa using hblk⟩
      obtain ⟨c', hc'⟩ := Option.isSome_iff_exists.1 hsome
      exact ⟨c', hc', by rw [hc']⟩
    · intro hk
      rw [if_neg (by omega)]
  write t h c hc ptr k := by
    obtain ⟨hov, hm⟩ := (sane_of_reaches hr h).copies c hc
    exact hm.write hov ptr c.data k

/-! ## Ranges at the end of the address space -/

/-- The loop variable is always a multiple of the block size. -/
theorem pos_aligned (h : Reaches (Trip.step m r) anyStep (Trip.init r) t) :
    ∀ i, t.pos = some i → i.toNat % blockSize = 0 := by
  have hmod : ∀ x : GAddr, (toBlk x).toNat % blockSize = 0 := fun x => by
    rw [toNat_toBlk]
    unfold blockSize
    omega
  refine h.invariant (I := fun t : Trip => ∀ i, t.pos = some i → i.toNat % blockSize = 0) ?_ ?_
  · intro i hi
    obtain rfl := Option.some.inj hi
    exact hmod _
  · intro act t t' ih _ hs i hi
    cases act <;>
      simp only [Trip.step, Option.bind_eq_bind, Option.bind_eq_some_iff,
        Option.ite_none_right_eq_some, Option.some.injEq] at hs
    case complete =>
      obtain ⟨-, rfl⟩ := hs
      exact ih i hi
    case replay =>
      obtain ⟨-, rfl⟩ := hs
      obtain rfl := Option.some.inj hi
      exact hmod _
    case park =>
      obtain ⟨j, -, -, rfl⟩ := hs
      cases hi
    all_goals
      obtain ⟨j, -, -, rfl⟩ := hs
      obtain rfl := Option.some.inj hi
      exact hmod _

theorem inRange_of_exact (hsize : 0 < r.size.toNat) (h : Exact m r) : InRange r := by
  obtain ⟨t, hrun, i, hpos, hstop, hpend⟩ := h.completes _ .refl
  have hal := pos_aligned hrun i hpos
  by_contra hlong
  unfold InRange at hlong
  obtain hover | hover | hover : r.addr.toNat + r.size.toNat < 2 ^ 64 ∨
      r.addr.toNat + r.size.toNat = 2 ^ 64 ∨ 2 ^ 64 < r.addr.toNat + r.size.toNat := by omega
  · -- no first address of a block is behind the range
    rw [BitVec.lt_def, Span.stop, BitVec.toNat_add] at hstop
    have := i.isLt
    unfold blockSize at *
    omega
  · -- the end wraps to zero and the loop does nothing
    have hzero : r.stop.toNat = 0 := by
      rw [Span.stop, BitVec.toNat_add]
      omega
    obtain ⟨c, hc, -⟩ := h.covers (Trip.init r) .refl
      ⟨_, rfl, by rw [BitVec.lt_def, hzero]; omega, rfl⟩ 0 hsize
    cases hc
  · -- the blocks behind the address space are never copied
    obtain ⟨c, -, -, hblk⟩ := h.covers t hrun ⟨i, hpos, hstop, hpend⟩ (2 ^ 64 - r.addr.toNat)
      (by have := r.addr.isLt; omega)
    have := c.blk.isLt
    have := r.addr.isLt
    unfold blockAddr toBlock blockSize at hblk
    omega

/-- A request copies its bytes and no others exactly when its range ends before the last block of
the address space. -/
theorem exact_iff (m : Mode) (r : Span) (hsize : 0 < r.size.toNat) : Exact m r ↔ InRange r :=
  ⟨inRange_of_exact hsize, fun h => exact_of_inRange h⟩

/-- A misaligned range over three blocks. -/
theorem exact_misaligned : Exact ⟨false, true⟩ ⟨0x00010000000001F0, 0x300⟩ :=
  (exact_iff _ _ (by decide)).2 (by unfold InRange blockSize; decide)

/-- Sixteen bytes of the last block: the next block is at zero and the loop does not stop. -/
theorem not_exact_last_block : ¬ Exact ⟨false, false⟩ ⟨0xFFFFFFFFFFFFFF00, 16⟩ := by
  intro h
  exact absurd (inRange_of_exact (by decide) h) (by unfold InRange blockSize; decide)

end HwGam.Coherence.Split
