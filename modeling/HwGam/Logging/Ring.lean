import HwGam.Lib.Bytes
import HwGam.Lib.Cyclic
import HwGam.Lib.Transition

/-!
# The log ring

`Log::reserve` takes the next bytes of a ring of `BUF_SIZE` bytes for a record, `writeToBuf` copies
the record there and `Log::write` appends what was logged since its last call to the file.
Between the calls the reclaimer is not running, so `running_` is not part of the state.

`logged` and `unflushed` are history: the records so far, and how many of their bytes were
reserved since the last flush.
-/

namespace HwGam.Logging

open Lib

/-- `BUF_SIZE`. -/
def bufSize : Nat := 128 * 1024 * 1024

theorem bufSize_pos : 0 < bufSize := by decide

def distance (start stop : Nat) : Nat :=
  if start < stop then stop - start else stop + bufSize - start

structure Log where
  spos : Nat
  epos : Nat
  buf : Nat → Byte
  /-- What `fd_` holds. -/
  file : List Byte
  logged : List Byte
  unflushed : Nat

/-- `Log::Log`; the contents of the new array are arbitrary. -/
def Log.new (buf : Nat → Byte) : Log := ⟨0, bufSize, buf, [], [], 0⟩

/-- `int start = epos_ % BUF_SIZE` of `Log::write`. -/
def Log.start (l : Log) : Nat := l.epos % bufSize

/-- The bytes `Log::write` appends to the file. -/
def Log.flushed (l : Log) : List Byte :=
  if l.start < l.spos then slice l.buf l.start l.spos
  else slice l.buf l.spos bufSize ++ slice l.buf 0 l.start

def Log.write (l : Log) : Log :=
  { l with file := l.file ++ l.flushed, epos := l.spos, unflushed := 0 }

/-- `Log::reserve`: the position and the log after it; `none` when `fuel` rounds are not enough. -/
def Log.reserve (l : Log) (sz : Nat) : Nat → Option (Nat × Log)
  | 0 => none
  | fuel + 1 =>
    if sz ≤ distance l.spos l.epos then
      some (l.spos, { l with
        spos := (l.spos + sz) % bufSize
        unflushed := l.unflushed + sz })
    else l.write.reserve sz fuel

/-- `Log::writeToBuf`: the buffer and the position after the copy. -/
def writeToBuf (buf : Nat → Byte) (ptr : List Byte) (spos : Nat) : (Nat → Byte) × Nat :=
  if spos + ptr.length < bufSize then (memcpy buf spos ptr, spos + ptr.length)
  else
    let bytesToEnd := bufSize - spos
    (memcpy (memcpy buf spos (ptr.take bytesToEnd)) 0 (ptr.drop bytesToEnd),
      ptr.length - bytesToEnd)

/-- The copies of one record, in order. -/
def copyAll : (Nat → Byte) → List (List Byte) → Nat → (Nat → Byte)
  | buf, [], _ => buf
  | buf, ptr :: ptrs, spos =>
    let (buf, spos) := writeToBuf buf ptr spos
    copyAll buf ptrs spos

inductive Record where
  /-- `logWrite(addr, size, content)`; `p` is what the memory at `TO_LOCAL(addr, base_)` holds. -/
  | write (addr : BitVec 64) (p : List Byte)
  | owner (node : BitVec 32) (addr : BitVec 64)
  deriving DecidableEq, Repr

/-- The buffers `logWrite` and `logOwner` pass to `writeToBuf`. -/
def Record.parts : Record → List (List Byte)
  | .write addr p => [encodeLe addr, encodeLe (BitVec.ofNat 64 p.length), p]
  | .owner node addr => [encodeLe addr, encodeLe (node.signExtend 64 ||| BitVec.twoPow 64 63)]

def Record.bytes (r : Record) : List Byte := r.parts.flatten

/-- The argument of `reserve`. -/
def Record.sz : Record → Nat
  | .write _ p => p.length + 8 + 8
  | .owner _ _ => 8 + 8

/-- `Log::logWrite` and `Log::logOwner`. -/
def Log.log (l : Log) (r : Record) (fuel : Nat) : Option Log := do
  let (spos, l) ← l.reserve r.sz fuel
  some { l with buf := copyAll l.buf r.parts spos, logged := l.logged ++ r.bytes }

inductive Act where
  | log (r : Record)
  | flush
  deriving DecidableEq, Repr

/-- Two rounds are enough for `reserve`: see `reserve_returns`. -/
def step : Act → Log → Option Log
  | .log r, l => l.log r 2
  | .flush, l => some l.write

/-- Records are smaller than the ring. -/
def fits : Act → Log → Prop
  | .log r, _ => r.sz < bufSize
  | .flush, _ => True

/-- The bytes reserved and not yet flushed. -/
def Log.pending (l : Log) : List Byte := window bufSize l.buf l.start l.unflushed

/-- File and ring together hold the records, in order. -/
def Log.Complete (l : Log) : Prop := l.file ++ l.pending = l.logged

/-- A reservation comes back, and none of the bytes it hands out waits to be flushed. -/
def Act.Safe : Act → Log → Prop
  | .log r, l => ∃ spos l', l.reserve r.sz 2 = some (spos, l') ∧
      ∀ i < r.sz, ∀ j < l'.unflushed - r.sz,
        (spos + i) % bufSize ≠ (l'.start + j) % bufSize
  | .flush, _ => True

/-- What `Log::write` gets right: the bytes to flush do not go over the end of the ring, or they
are the whole ring. -/
def Log.Straight (l : Log) : Prop := l.start < l.spos ∨ l.unflushed = bufSize

instance (l : Log) : Decidable l.Straight := inferInstanceAs (Decidable (_ ∨ _))

/-- A flush finds the bytes straight, and a record finds the ring not full; where `reserve` flushes
by itself, it finds them straight too. -/
def straight : Act → Log → Prop
  | .log r, l => r.sz < bufSize ∧ l.unflushed < bufSize ∧
      (distance l.spos l.epos < r.sz → l.Straight)
  | .flush, l => l.Straight

/-! ## The copies of a record -/

variable {l l' : Log} {r : Record} {spos sz : Nat} {buf : Nat → Byte} {ptr : List Byte}

theorem writeToBuf_eq (hs : spos < bufSize) (hlen : ptr.length ≤ bufSize) :
    writeToBuf buf ptr spos = (put bufSize buf spos ptr, (spos + ptr.length) % bufSize) := by
  rw [writeToBuf, wrap_eq hs hlen]
  by_cases h : spos + ptr.length < bufSize
  · rw [if_pos h, if_pos h, put_eq_memcpy hs h.le]
  · have hend : ptr.length - (bufSize - spos) = spos + ptr.length - bufSize := by omega
    simp only [if_neg h, put_eq_memcpy_memcpy hs (show bufSize ≤ spos + ptr.length by omega) hlen,
      hend]

theorem copyAll_eq {ptrs : List (List Byte)} (hs : spos < bufSize)
    (hlen : ptrs.flatten.length ≤ bufSize) :
    copyAll buf ptrs spos = put bufSize buf spos ptrs.flatten := by
  induction ptrs generalizing buf spos with
  | nil => rw [copyAll, List.flatten_nil, put_nil]
  | cons ptr ptrs ih =>
    rw [List.flatten_cons, List.length_append] at hlen
    have hnext : (spos + ptr.length) % bufSize < bufSize := Nat.mod_lt _ bufSize_pos
    simp only [copyAll, writeToBuf_eq hs (show ptr.length ≤ bufSize by omega)]
    rw [ih hnext (by omega), List.flatten_cons, put_put hs (by omega)]

@[simp] theorem length_bytes (r : Record) : r.bytes.length = r.sz := by
  cases r <;> simp [Record.bytes, Record.parts, Record.sz]
  omega

theorem sz_pos (r : Record) : 0 < r.sz := by
  cases r <;> simp [Record.sz]

/-! ## Positions -/

theorem start_lt (l : Log) : l.start < bufSize := Nat.mod_lt _ bufSize_pos

@[simp] theorem distance_self (n : Nat) : distance n n = bufSize := by
  simp [distance]

/-- A record that is not larger than the ring gets its bytes, after one flush at most. -/
theorem reserve_returns (l : Log) (h : sz ≤ bufSize) :
    l.reserve sz 2 = some (if sz ≤ distance l.spos l.epos
      then (l.spos, { l with spos := (l.spos + sz) % bufSize, unflushed := l.unflushed + sz })
      else (l.spos, { l.write with spos := (l.spos + sz) % bufSize, unflushed := sz })) := by
  rw [Log.reserve]
  split
  · rfl
  · simp [Log.reserve, Log.write, h]

/-- The positions say which bytes are unflushed, and these and the file hold the records. -/
structure Log.Tidy (l : Log) : Prop where
  spos_lt : l.spos < bufSize
  epos_le : l.epos ≤ bufSize
  unflushed_le : l.unflushed ≤ bufSize
  spos_eq : l.spos = (l.start + l.unflushed) % bufSize
  complete : l.Complete

theorem Log.Tidy.new (buf : Nat → Byte) : (Log.new buf).Tidy where
  spos_lt := bufSize_pos
  epos_le := le_rfl
  unflushed_le := Nat.zero_le _
  spos_eq := by simp [Log.new, Log.start]
  complete := by simp [Log.Complete, Log.new, Log.pending, window]

theorem Log.Tidy.distance_eq (h : l.Tidy) :
    distance l.spos l.epos = if l.unflushed < bufSize then bufSize - l.unflushed else bufSize := by
  have hs := h.spos_eq
  have hlt := start_lt l
  have hepos : l.epos = l.start ∨ l.epos = bufSize ∧ l.start = 0 := by
    rcases Nat.lt_or_eq_of_le h.epos_le with hlt | heq
    · exact .inl (Nat.mod_eq_of_lt hlt).symm
    · exact .inr ⟨heq, by rw [Log.start, heq, Nat.mod_self]⟩
  have hu := h.unflushed_le
  rw [wrap_eq hlt hu] at hs
  rw [distance]
  split_ifs at hs ⊢ <;> omega

/-! ## Flushing -/

theorem length_flushed (h : ¬ l.start < l.spos) :
    l.flushed.length = bufSize - l.spos + l.start := by
  simp [Log.flushed, h]

theorem Log.Tidy.flushed_eq (h : l.Tidy) (hst : l.Straight) : l.flushed = l.pending := by
  have hs := h.spos_eq
  have hu := h.unflushed_le
  have hlt := start_lt l
  rw [wrap_eq hlt hu] at hs
  rw [Log.flushed, Log.pending]
  obtain hst | hfull := hst
  · rw [if_pos hst]
    have hend : l.spos = l.start + l.unflushed := by
      split at hs <;> omega
    rw [hend, window_eq_slice (by have := h.spos_lt; omega)]
  · have hend : l.spos = l.start := by
      split at hs <;> omega
    rw [hend, if_neg (lt_irrefl _), window_eq_slices hlt (by omega) hu,
      show l.start + l.unflushed - bufSize = l.start by omega]

/-- The flush appends what is unflushed only if that lies straight. -/
theorem Log.Tidy.flushed_eq_iff (h : l.Tidy) : l.flushed.length = l.unflushed ↔ l.Straight := by
  constructor
  · intro heq
    by_cases hlt : l.start < l.spos
    · exact .inl hlt
    · rw [length_flushed hlt] at heq
      have := h.unflushed_le
      have := h.spos_lt
      exact .inr (by omega)
  · intro hst
    rw [h.flushed_eq hst, Log.pending, length_window]

theorem Log.Tidy.write (h : l.Tidy) (hst : l.Straight) : l.write.Tidy where
  spos_lt := h.spos_lt
  epos_le := h.spos_lt.le
  unflushed_le := Nat.zero_le _
  spos_eq := by simp [Log.write, Log.start, Nat.mod_eq_of_lt h.spos_lt]
  complete := by
    have hc := h.complete
    rw [Log.Complete] at hc ⊢
    rw [← h.flushed_eq hst] at hc
    simpa [Log.write, Log.pending, window] using hc

/-! ## Logging a record -/

/-- The log after `r` got its bytes and was copied there. -/
def Log.add (l : Log) (r : Record) : Log :=
  { l with
    spos := (l.spos + r.sz) % bufSize
    unflushed := l.unflushed + r.sz
    buf := copyAll l.buf r.parts l.spos
    logged := l.logged ++ r.bytes }

@[simp] theorem new_start : (Log.new buf).start = 0 := Nat.mod_self _
@[simp] theorem write_spos : l.write.spos = l.spos := rfl
@[simp] theorem write_start : l.write.start = l.spos % bufSize := rfl
@[simp] theorem write_unflushed : l.write.unflushed = 0 := rfl
@[simp] theorem add_spos : (l.add r).spos = (l.spos + r.sz) % bufSize := rfl
@[simp] theorem add_start : (l.add r).start = l.start := rfl
@[simp] theorem add_unflushed : (l.add r).unflushed = l.unflushed + r.sz := rfl

theorem log_eq (l : Log) (h : r.sz ≤ bufSize) :
    l.log r 2 = some (if r.sz ≤ distance l.spos l.epos then l.add r else l.write.add r) := by
  rw [Log.log, reserve_returns l h]
  split <;> simp [Log.add, Log.write]

theorem Log.Tidy.add (h : l.Tidy) (hroom : l.unflushed + r.sz ≤ bufSize) : (l.add r).Tidy := by
  have hspos : (l.spos + r.sz) % bufSize = (l.start + (l.unflushed + r.sz)) % bufSize := by
    rw [h.spos_eq, Nat.mod_add_mod, Nat.add_assoc]
  have hlen : r.parts.flatten.length ≤ bufSize := by
    have := length_bytes r
    rw [Record.bytes] at this
    omega
  constructor
  · exact Nat.mod_lt _ bufSize_pos
  · exact h.epos_le
  · exact hroom
  · exact hspos
  · have hc := h.complete
    rw [Log.Complete] at hc ⊢
    have hwin : window bufSize (put bufSize l.buf ((l.start + l.unflushed) % bufSize) r.bytes) l.start
        (l.unflushed + r.bytes.length) = window bufSize l.buf l.start l.unflushed ++ r.bytes :=
      window_put (start_lt l) (by rw [length_bytes]; exact hroom)
    rw [length_bytes, ← h.spos_eq] at hwin
    have hbuf : copyAll l.buf r.parts l.spos = put bufSize l.buf l.spos r.bytes :=
      copyAll_eq h.spos_lt hlen
    have hpend : (l.add r).pending = l.pending ++ r.bytes := by
      rw [Log.pending, Log.pending, ← hwin, ← hbuf]
      rfl
    rw [hpend, ← List.append_assoc]
    exact congrArg (· ++ r.bytes) hc

theorem step_tidy {a : Act} (h : l.Tidy) (ha : straight a l) (hs : step a l = some l') :
    l'.Tidy := by
  cases a with
  | log r =>
    obtain ⟨hsz, hfull, hflush⟩ := ha
    rw [step, log_eq l hsz.le] at hs
    have hd := h.distance_eq
    rw [if_pos hfull] at hd
    split at hs
    · cases hs
      apply h.add
      omega
    · rename_i hroom
      cases hs
      apply (h.write (hflush (by omega))).add
      simp only [Log.write]
      omega
  | flush =>
    cases hs
    exact h.write ha

theorem step_log (hsz : r.sz ≤ bufSize) (hroom : r.sz ≤ distance l.spos l.epos) :
    step (.log r) l = some (l.add r) := by
  rw [step, log_eq l hsz, if_pos hroom]

/-! ## Which steps are right -/

theorem Log.Complete.length (h : l.Complete) : l.file.length + l.unflushed = l.logged.length := by
  have := congrArg List.length h
  simpa [Log.pending] using this

/-- A flush is complete exactly if the bytes lie straight. -/
theorem Log.Tidy.write_complete_iff (h : l.Tidy) : l.write.Complete ↔ l.Straight := by
  refine ⟨fun hc => ?_, fun hst => (h.write hst).complete⟩
  have hlen := hc.length
  have hlen' := h.complete.length
  simp only [Log.write, List.length_append] at hlen
  exact h.flushed_eq_iff.mp (by omega)

/-- A record on a full ring is handed bytes that wait to be flushed. -/
theorem Log.Tidy.not_safe_full (h : l.Tidy) (hsz : r.sz < bufSize) (hfull : l.unflushed = bufSize) :
    ¬ (Act.log r).Safe l := by
  rintro ⟨spos, l', hres, hfree⟩
  have hd := h.distance_eq
  rw [if_neg (by omega)] at hd
  rw [reserve_returns l hsz.le, if_pos (by omega), Option.some.injEq, Prod.mk.injEq] at hres
  obtain ⟨rfl, rfl⟩ := hres
  refine hfree 0 (sz_pos r) 0 (by simp [hfull, bufSize_pos]) ?_
  have hs := h.spos_eq
  rw [hfull, Nat.add_mod_right] at hs
  simp only [Nat.add_zero]
  rw [hs, Nat.mod_mod]
  rfl

theorem Log.Tidy.safe (h : l.Tidy) (hsz : r.sz < bufSize) (hfull : l.unflushed < bufSize) :
    (Act.log r).Safe l := by
  have hd := h.distance_eq
  rw [if_pos hfull] at hd
  rw [Act.Safe, reserve_returns l hsz.le]
  by_cases hroom : r.sz ≤ distance l.spos l.epos
  · rw [if_pos hroom]
    refine ⟨_, _, rfl, ?_⟩
    intro i hi j hj heq
    simp only [Nat.add_sub_cancel] at hj
    rw [h.spos_eq, Nat.mod_add_mod, Nat.add_assoc] at heq
    have := wrap_inj (start_lt l) (by omega) (by omega) heq
    omega
  · rw [if_neg hroom]
    refine ⟨_, _, rfl, ?_⟩
    intro i _ j hj
    simp at hj

/-- A step is right, in itself and in what it leaves, exactly if it meets `straight`. -/
theorem Log.Tidy.right_iff {a : Act} (h : l.Tidy) (hfit : fits a l) :
    (a.Safe l ∧ ∀ l', step a l = some l' → l'.Complete) ↔ straight a l := by
  cases a with
  | log r =>
    have hsz : r.sz < bufSize := hfit
    constructor
    · rintro ⟨hsafe, hstep⟩
      have hfull : l.unflushed < bufSize := by
        rcases Nat.lt_or_eq_of_le h.unflushed_le with hlt | heq
        · exact hlt
        · exact absurd hsafe (h.not_safe_full hsz heq)
      refine ⟨hsz, hfull, fun hroom => ?_⟩
      have hc := (hstep _ (log_eq l hsz.le)).length
      rw [if_neg (by omega)] at hc
      have hlen := h.complete.length
      simp only [Log.add, Log.write, List.length_append, length_bytes] at hc
      exact h.flushed_eq_iff.mp (by omega)
    · intro hst
      exact ⟨h.safe hsz hst.2.1, fun l' hs => (step_tidy h hst hs).complete⟩
  | flush =>
    constructor
    · rintro ⟨-, hstep⟩
      exact h.write_complete_iff.mp (hstep _ rfl)
    · intro hst
      refine ⟨trivial, fun l' hs => ?_⟩
      cases hs
      exact (h.write hst).complete

/-- In a run whose steps are all straight, file and ring hold the records in order, every record
that fits is served, and the next step is right exactly if it is straight too. -/
theorem complete_of_reaches {buf : Nat → Byte} {l : Log}
    (h : Reaches step straight (.new buf) l) :
    l.Complete ∧ (∀ r : Record, r.sz < bufSize → (l.log r 2).isSome) ∧
      ∀ a, fits a l → ((a.Safe l ∧ ∀ l', step a l = some l' → l'.Complete) ↔ straight a l) := by
  have ht : l.Tidy := h.invariant (.new buf) fun a t t' => step_tidy
  refine ⟨ht.complete, fun r hr => ?_, fun a => ht.right_iff⟩
  rw [log_eq l hr.le]
  rfl

/-- Two records with a flush between them. -/
theorem complete_of_reaches_flushed :
    ∃ l : Log, (Reaches step straight (.new fun _ => 0) l ∧ l.unflushed = 16 ∧
      l.file.length = 16) ∧ l.Complete := by
  have h1 : Reaches step straight (.new fun _ => 0) ((Log.new fun _ => 0).add (.owner 1 0)) :=
    Reaches.refl.tail (a := Act.log (.owner 1 0))
      ⟨by decide, by decide, fun h => absurd h (by decide)⟩ (step_log (by decide) (by decide))
  have h2 := h1.tail (a := Act.flush) (Or.inl (by decide)) rfl
  have h3 := h2.tail (a := Act.log (.owner 2 0))
    ⟨by decide, by decide, fun h => absurd h (by decide)⟩ (step_log (by decide) (by decide))
  exact ⟨_, ⟨h3, rfl, rfl⟩, (complete_of_reaches h3).1⟩

/-- A record, flushed, and the same once more. -/
def wrapped (r : Record) : Log := (((Log.new fun _ => 0).add r).write).add r

/-- The second record of all but eight bytes of the ring goes over its end. -/
theorem wrapped_positions (hr : r.sz = bufSize - 8) :
    (wrapped r).spos = bufSize - 16 ∧ (wrapped r).start = bufSize - 8 ∧
      (wrapped r).unflushed = bufSize - 8 := by
  have h0 : (Log.new fun _ => 0).spos = 0 := rfl
  simp only [wrapped, add_spos, add_start, add_unflushed, write_spos, write_start, write_unflushed,
    hr, h0]
  decide

theorem reaches_wrapped (hr : r.sz = bufSize - 8) :
    Reaches step straight (.new fun _ => 0) (wrapped r) := by
  have hsz : r.sz < bufSize := by
    rw [hr]
    decide
  have h1 : Reaches step straight (.new fun _ => 0) ((Log.new fun _ => 0).add r) := by
    refine Reaches.refl.tail (a := Act.log r) ⟨hsz, bufSize_pos, fun hlt => absurd hlt ?_⟩
      (step_log hsz.le ?_)
    · rw [hr]
      decide
    · rw [hr]
      decide
  have hst : ((Log.new fun _ => 0).add r).Straight := by
    left
    rw [add_start, new_start, add_spos, hr]
    decide
  have h2 := h1.tail (a := Act.flush) hst rfl
  have hd : distance ((Log.new fun _ => 0).add r).write.spos
      ((Log.new fun _ => 0).add r).write.epos = bufSize := distance_self _
  exact h2.tail (a := Act.log r)
    ⟨hsz, bufSize_pos, fun hlt => absurd hlt (by rw [hd]; exact hsz.le.not_gt)⟩
    (step_log hsz.le (by rw [hd]; exact hsz.le))

/-- The flush of the record that goes over the end appends other bytes. -/
theorem not_complete_wrapped :
    ¬ ∀ l : Log, Reaches step fits (.new fun _ => 0) l → l.Complete := by
  obtain ⟨r, hr⟩ : ∃ r : Record, r.sz = bufSize - 8 := by
    refine ⟨.write 0 (List.replicate (bufSize - 24) 1), ?_⟩
    rw [Record.sz, List.length_replicate]
    decide
  intro h
  have hrun := reaches_wrapped hr
  have ht : (wrapped r).Tidy := hrun.invariant (.new _) fun a t t' => step_tidy
  have hfits : Reaches step fits (.new fun _ => 0) (wrapped r) := by
    refine hrun.mono fun a l ha => ?_
    cases a with
    | log r => exact ha.1
    | flush => trivial
  have hst := ht.write_complete_iff.mp (h _ (hfits.tail (a := Act.flush) trivial rfl))
  obtain ⟨hspos, hstart, hunflushed⟩ := wrapped_positions hr
  rw [Log.Straight, hspos, hstart, hunflushed] at hst
  revert hst
  decide

end HwGam.Logging
