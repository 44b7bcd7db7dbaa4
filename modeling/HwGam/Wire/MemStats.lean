import Mathlib.Data.BitVec
import HwGam.Lib.Decimal
import HwGam.Wire.Receive

/-!
# Memory statistics

A worker reports its total and free memory to the master; the master prints the records of several
workers into one text and sends it to the workers, each of which splits it into numbers again.
-/

namespace HwGam.Wire

open Lib WorkRequest

/-- A worker's id, an `int`. -/
abbrev Wid := BitVec 32

/-- The `size` and `free` of a `Client` record. -/
structure MemStat where
  size : BitVec 64
  free : BitVec 64
  deriving DecidableEq, Repr

/-- A `Size` passed as an `int` and stored as a `Size`. -/
def narrow (x : BitVec 64) : BitVec 64 := (x.setWidth 32).signExtend 64

/-- `Client::SetMemStat(int size, int free)`. -/
def setMemStat (s : MemStat) : MemStat := ⟨narrow s.size, narrow s.free⟩

/-- An `UPDATE_MEM_STATS` as the master processes it. -/
structure Report where
  wid : Wid
  stat : MemStat
  deriving DecidableEq, Repr

/-- The master's client records, `unsynced_workers` and the keys of `widCliMapWorker`. -/
structure Master where
  stats : Wid → MemStat
  unsynced : List Wid
  known : List Wid

namespace Master

def init : Master := ⟨fun _ => ⟨0, 0⟩, [], []⟩

def record (m : Master) (r : Report) : Master where
  stats := Function.update m.stats r.wid (setMemStat r.stat)
  unsynced := m.unsynced ++ [r.wid]
  known := if r.wid ∈ m.known then m.known else r.wid :: m.known

/-- `UPDATE_MEM_STATS`: the state after it, and the workers of the broadcast if one is due. -/
def updateMemStats (unsyncedTh : Nat) (m : Master) (r : Report) : Master × Option (List Wid) :=
  let m := m.record r
  if m.unsynced.length = unsyncedTh then ({ m with unsynced := [] }, some m.unsynced)
  else (m, none)

/-- The master after a list of reports. -/
def run (unsyncedTh : Nat) (rs : List Report) : Master :=
  rs.foldl (fun m r => (m.updateMemStats unsyncedTh r).1) init

/-! ## The messages -/

def colon : Byte := 58

/-- `sprintf(buf, "%u:%d:%ld:%ld", ...)`. -/
def broadcastEntry (qp : Wid → BitVec 32) (m : Master) (w : Wid) : List Byte :=
  printNat (qp w).toNat ++ [colon] ++ printInt w.toInt ++ [colon] ++
    printInt (m.stats w).size.toInt ++ [colon] ++ printInt (m.stats w).free.toInt

/-- `sprintf(buf, "%u:%d:%ld:%ld:", ...)`. -/
def fetchEntry (qp : Wid → BitVec 32) (m : Master) (w : Wid) : List Byte :=
  printNat (qp w).toNat ++ [colon] ++ printInt w.toInt ++ [colon] ++
    printInt (m.stats w).size.toInt ++ [colon] ++ printInt (m.stats w).free.toInt ++ [colon]

def broadcastMsg (qp : Wid → BitVec 32) (m : Master) (unsyncedTh : Nat) (ws : List Wid) :
    WorkRequest :=
  { op := .broadcastMemStats, size := BitVec.ofNat 64 unsyncedTh
    payload := ws.flatMap (m.broadcastEntry qp) }

/-- The reply to `FETCH_MEM_STATS`, the known workers in the order of the map's iteration. -/
def fetchReply (qp : Wid → BitVec 32) (m : Master) (ws : List Wid) : WorkRequest :=
  { op := .fetchMemStatsReply, size := BitVec.ofNat 64 ws.length
    payload := ws.flatMap (m.fetchEntry qp) }

end Master

/-- `Ser` into a buffer of `MAX_REQUEST_SIZE` bytes; it also writes a zero behind the message. -/
def serBuf (r : WorkRequest) : Option (List Byte) :=
  if r.ser.length + 1 ≤ 1024 then some r.ser else none

/-! ## The receiving worker -/

/-- The clients of `widCliMap` with their records. -/
abbrev Clients := Wid → Option MemStat

/-- One round of the loop in `ProcessRemoteMemStat`. It has no value where `stats` is too short
and where there is no client to lock. -/
def memStatRound (stats : List (BitVec 64)) (clients : Clients) (i : Nat) : Option Clients := do
  let _ ← stats[i * 4]?
  let wid ← stats[i * 4 + 1]?
  let mtotal ← stats[i * 4 + 2]?
  let mfree ← stats[i * 4 + 3]?
  let wid := wid.setWidth 32
  let _ ← clients wid
  some (Function.update clients wid (some (setMemStat ⟨mtotal, mfree⟩)))

def processRemoteMemStat (clients : Clients) (wr : WorkRequest) : Option Clients :=
  (List.range wr.size.toNat).foldlM (memStatRound (split Master.colon wr.payload)) clients

/-- A message serialised, sent, read and processed. -/
def deliver (clients : Clients) (r : WorkRequest) : Option Clients := do
  let msg ← serBuf r
  let (wr, _) ← deser (msg ++ [0])
  processRemoteMemStat clients wr

/-- The last report of a worker. -/
def lastReport (rs : List Report) (w : Wid) : Option MemStat :=
  (rs.reverse.find? (·.wid = w)).map (·.stat)

/-- After the message, the record of each of the workers is what that worker last reported. -/
def Faithful (rs : List Report) (ws : List Wid) (after : Option Clients) : Prop :=
  ∃ c, after = some c ∧ ∀ w ∈ ws, c w = lastReport rs w

/-- Both numbers are `int`s. -/
def MemStat.FitsInt (s : MemStat) : Prop := narrow s.size = s.size ∧ narrow s.free = s.free

/-! ## The master's records -/

variable {th : Nat} {rs : List Report} {r : Report} {w : Wid} {ws : List Wid} {m : Master}
  {qp : Wid → BitVec 32} {clients : Clients}

theorem setWidth_signExtend (y : BitVec 32) : (y.signExtend 64).setWidth 32 = y := by
  apply BitVec.eq_of_toNat_eq
  have hy := y.isLt
  rw [BitVec.toNat_setWidth, BitVec.toNat_signExtend, BitVec.toNat_setWidth]
  split <;> omega

theorem narrow_narrow (x : BitVec 64) : narrow (narrow x) = narrow x := by
  rw [narrow, narrow, setWidth_signExtend]

theorem setMemStat_idem (s : MemStat) : setMemStat (setMemStat s) = setMemStat s := by
  simp [setMemStat, narrow_narrow]

theorem setMemStat_eq_iff {s : MemStat} : setMemStat s = s ↔ s.FitsInt := by
  cases s
  simp [setMemStat, MemStat.FitsInt]

theorem lastReport_append :
    lastReport (rs ++ [r]) w = if r.wid = w then some r.stat else lastReport rs w := by
  rw [lastReport, List.reverse_append, List.reverse_singleton, List.singleton_append,
    List.find?_cons]
  by_cases h : r.wid = w <;> simp [h, lastReport]

/-- The master holds the last report of each worker, as far as an `int` can. -/
structure Master.Holds (th : Nat) (rs : List Report) (m : Master) : Prop where
  stat : ∀ w, ∀ s ∈ lastReport rs w, m.stats w = setMemStat s
  known : ∀ w, w ∈ m.known ↔ (lastReport rs w).isSome
  waiting : m.unsynced.length < th
  unsynced : ∀ w ∈ m.unsynced, (lastReport rs w).isSome

theorem Master.record_stat (h : m.Holds th rs) :
    ∀ w, ∀ s ∈ lastReport (rs ++ [r]) w, (m.record r).stats w = setMemStat s := by
  intro w s hs
  rw [lastReport_append] at hs
  by_cases hw : r.wid = w
  · rw [if_pos hw] at hs
    obtain rfl : r.stat = s := by simpa using hs
    simp [Master.record, hw]
  · rw [if_neg hw] at hs
    have hne : w ≠ r.wid := fun hc => hw hc.symm
    simpa [Master.record, hne] using h.stat w s hs

theorem Master.record_known (h : m.Holds th rs) :
    ∀ w, w ∈ (m.record r).known ↔ (lastReport (rs ++ [r]) w).isSome := by
  intro w
  rw [lastReport_append, Master.record]
  by_cases hw : r.wid = w
  · subst hw
    by_cases hk : r.wid ∈ m.known <;> simp [hk]
  · have hne : w ≠ r.wid := fun hc => hw hc.symm
    by_cases hk : r.wid ∈ m.known <;> simp [hk, hw, hne, h.known]

theorem Master.record_unsynced (h : m.Holds th rs) :
    ∀ w ∈ (m.record r).unsynced, (lastReport (rs ++ [r]) w).isSome := by
  intro w hw
  rw [lastReport_append]
  split
  · rfl
  · rename_i hne
    rcases List.mem_append.1 hw with hw | hw
    · exact h.unsynced w hw
    · exact absurd (List.mem_singleton.1 hw).symm hne

theorem Master.holds_run (rs : List Report) (hth : 1 ≤ th) : (Master.run th rs).Holds th rs := by
  induction rs using List.reverseRecOn with
  | nil => exact ⟨by simp [lastReport], by simp [Master.run, Master.init, lastReport], hth, by
      simp [Master.run, Master.init]⟩
  | append_singleton rs r ih =>
    rw [Master.run, List.foldl_append, ← Master.run, List.foldl_cons, List.foldl_nil,
      Master.updateMemStats]
    split
    · exact ⟨Master.record_stat ih, Master.record_known ih, hth, by simp⟩
    · rename_i hne
      refine ⟨Master.record_stat ih, Master.record_known ih, ?_, Master.record_unsynced ih⟩
      have hlen : ((Master.run th rs).record r).unsynced.length =
          (Master.run th rs).unsynced.length + 1 := by
        simp [Master.record]
      have hwait := ih.waiting
      change ((Master.run th rs).record r).unsynced.length < th
      omega

/-! ## The text of a message -/

namespace Master

/-- The four texts of a worker's entry. -/
def entryTexts (qp : Wid → BitVec 32) (m : Master) (w : Wid) : List (List Byte) :=
  [printNat (qp w).toNat, printInt w.toInt, printInt (m.stats w).size.toInt,
    printInt (m.stats w).free.toInt]

/-- The four numbers they are read as. -/
def entryNumbers (qp : Wid → BitVec 32) (m : Master) (w : Wid) : List (BitVec 64) :=
  [BitVec.ofNat 64 (qp w).toNat, w.signExtend 64, (m.stats w).size, (m.stats w).free]

theorem reads_entry (qp : Wid → BitVec 32) (m : Master) (w : Wid) :
    List.Forall₂ Reads (m.entryTexts qp w) (m.entryNumbers qp w) := by
  have hqp : Reads (printNat (qp w).toNat) (BitVec.ofNat 64 (qp w).toNat) :=
    fun _ he => extract_printNat (by have := (qp w).isLt; omega) he
  have hw : Reads (printInt w.toInt) (w.signExtend 64) := by
    intro rest he
    rw [← BitVec.toInt_signExtend_of_le (x := w) (v := 64) (by omega)]
    exact extract_printInt _ he
  exact .cons hqp (.cons hw (.cons (fun _ => extract_printInt _) (.cons (fun _ => extract_printInt _)
    .nil)))

theorem broadcastEntry_eq : m.broadcastEntry qp w =
    terminated colon ((m.entryTexts qp w).take 3) ++ printInt (m.stats w).free.toInt := by
  simp [broadcastEntry, terminated, entryTexts]

theorem flatMap_fetchEntry :
    ws.flatMap (m.fetchEntry qp) = terminated colon (ws.flatMap (m.entryTexts qp)) := by
  induction ws with
  | nil => rfl
  | cons w ws ih => simp [ih, fetchEntry, terminated, entryTexts]

end Master

theorem isDigitByte_colon : isDigitByte Master.colon = false := rfl

/-- The fetch reply is split into the numbers it was printed from. -/
theorem split_fetch :
    split Master.colon (ws.flatMap (m.fetchEntry qp)) = ws.flatMap (m.entryNumbers qp) := by
  have hreads : List.Forall₂ Reads (ws.flatMap (m.entryTexts qp)) (ws.flatMap (m.entryNumbers qp)) := by
    induction ws with
    | nil => exact .nil
    | cons w ws ih => exact List.rel_append (Master.reads_entry qp m w) ih
  rw [Master.flatMap_fetchEntry]
  exact split_terminated isDigitByte_colon hreads

/-- So is a broadcast of one worker. -/
theorem split_broadcast_one (qp : Wid → BitVec 32) (m : Master) (w : Wid) :
    split Master.colon (m.broadcastEntry qp w) = m.entryNumbers qp w := by
  have hreads := Master.reads_entry qp m w
  have htake : List.Forall₂ Reads ((m.entryTexts qp w).take 3) ((m.entryNumbers qp w).take 3) :=
    List.forall₂_take 3 hreads
  rw [Master.broadcastEntry_eq,
    split_terminated_append isDigitByte_colon htake fun _ => extract_printInt _]
  simp [Master.entryNumbers]

/-- A broadcast of `n` workers is `3 * n + 1` numerals: the last number of an entry and the first
of the next one run together. -/
theorem broadcast_numerals (qp : Wid → BitVec 32) (m : Master) (hne : ws ≠ []) :
    ∃ t ts last, ws.flatMap (m.broadcastEntry qp) = terminated Master.colon (t :: ts) ++ last ∧
      ts.length + 1 = 3 * ws.length ∧ IsDigits t ∧ (∀ t ∈ ts, IsNumeral t) ∧ IsNumeral last := by
  induction ws with
  | nil => exact absurd rfl hne
  | cons w ws ih =>
    by_cases hws : ws = []
    · subst hws
      refine ⟨printNat (qp w).toNat, [printInt w.toInt, printInt (m.stats w).size.toInt],
        printInt (m.stats w).free.toInt, ?_, rfl, isDigits_printNat, ?_, isNumeral_printInt⟩
      · simp [Master.broadcastEntry, terminated]
      · simp [isNumeral_printInt]
    · obtain ⟨t, ts, last, htext, hlen, ht, hts, hlast⟩ := ih hws
      refine ⟨printNat (qp w).toNat, [printInt w.toInt, printInt (m.stats w).size.toInt,
        printInt (m.stats w).free.toInt ++ t] ++ ts, last, ?_, ?_, isDigits_printNat, ?_, hlast⟩
      · rw [List.flatMap_cons, htext]
        simp [Master.broadcastEntry, terminated]
      · simp only [List.length_append, List.length_cons, List.length_nil] at hlen ⊢
        omega
      · have happ : IsNumeral (printInt (m.stats w).free.toInt ++ t) :=
          isNumeral_printInt.append ht
        simpa [isNumeral_printInt, happ] using hts

theorem length_split_broadcast_le (qp : Wid → BitVec 32) (m : Master) (hne : ws ≠ []) :
    (split Master.colon (ws.flatMap (m.broadcastEntry qp))).length ≤ 3 * ws.length + 1 := by
  obtain ⟨t, ts, last, htext, hlen, ht, hts, hlast⟩ := broadcast_numerals qp m hne
  rw [htext, split, ← hlen]
  have hall : ∀ x ∈ t :: ts, IsNumeral x := by
    intro x hx
    rcases List.mem_cons.1 hx with rfl | hx
    · exact .inl ht
    · exact hts x hx
  exact length_splitFuel_le isDigitByte_colon hall hlast

/-! ## The loop of the receiver -/

/-- A round only looks at its own four numbers. -/
theorem memStatRound_append (clients : Clients) {stats : List (BitVec 64)} (more : List (BitVec 64))
    {i : Nat} (h : i * 4 + 3 < stats.length) :
    memStatRound (stats ++ more) clients i = memStatRound stats clients i := by
  simp only [memStatRound]
  rw [List.getElem?_append_left (by omega), List.getElem?_append_left (by omega),
    List.getElem?_append_left (by omega), List.getElem?_append_left (by omega)]

theorem foldlM_memStatRound_append {stats more : List (BitVec 64)} {n : Nat}
    (h : n * 4 ≤ stats.length) :
    (List.range n).foldlM (memStatRound (stats ++ more)) clients =
      (List.range n).foldlM (memStatRound stats) clients := by
  induction n with
  | zero => rfl
  | succ n ih =>
    rw [List.range_succ, List.foldlM_append, List.foldlM_append, ih (by omega)]
    congr 1
    funext c
    simp [memStatRound_append c more (show n * 4 + 3 < stats.length by omega)]

/-- The records after the numbers of the workers `ws`. -/
def noted (m : Master) (ws : List Wid) (clients : Clients) : Clients := fun w =>
  if w ∈ ws then some (setMemStat (m.stats w)) else clients w

theorem length_entryNumbers (qp : Wid → BitVec 32) (m : Master) (ws : List Wid) :
    (ws.flatMap (m.entryNumbers qp)).length = ws.length * 4 := by
  induction ws with
  | nil => rfl
  | cons w ws ih =>
    simp only [List.flatMap_cons, List.length_append, ih, Master.entryNumbers, List.length_cons,
      List.length_nil]
    omega

theorem foldlM_entryNumbers (qp : Wid → BitVec 32) (m : Master) (hreg : ∀ w ∈ ws, (clients w).isSome) :
    (List.range ws.length).foldlM (memStatRound (ws.flatMap (m.entryNumbers qp))) clients =
      some (noted m ws clients) := by
  induction ws using List.reverseRecOn with
  | nil =>
    have hnil : noted m [] clients = clients := by
      funext w
      simp [noted]
    simp [hnil]
  | append_singleton ws w ih =>
    have hlen := length_entryNumbers qp m ws
    have ih := ih fun x hx => hreg x (by simp [hx])
    have hget : ∀ k, k < 4 → (ws.flatMap (m.entryNumbers qp) ++ m.entryNumbers qp w)[ws.length * 4 + k]? =
        (m.entryNumbers qp w)[k]? := by
      intro k hk
      rw [List.getElem?_append_right (by omega), hlen, Nat.add_sub_cancel_left]
    have hsome : (noted m ws clients w).isSome := by
      rw [noted]
      split
      · rfl
      · exact hreg w (by simp)
    obtain ⟨x, hx⟩ := Option.isSome_iff_exists.1 hsome
    have hround : memStatRound (ws.flatMap (m.entryNumbers qp) ++ m.entryNumbers qp w)
        (noted m ws clients) ws.length = some (noted m (ws ++ [w]) clients) := by
      simp only [memStatRound]
      rw [← Nat.add_zero (ws.length * 4), hget 0 (by omega), Nat.add_zero, hget 1 (by omega),
        hget 2 (by omega), hget 3 (by omega)]
      simp only [Master.entryNumbers, List.getElem?_cons_zero, List.getElem?_cons_succ,
        Option.bind_eq_bind, Option.bind_some, setWidth_signExtend, hx]
      congr 1
      funext y
      by_cases hy : y = w
      · subst hy
        simp [noted]
      · simp [noted, hy]
    rw [List.flatMap_append, List.length_append, List.length_singleton, List.range_succ,
      List.foldlM_append, List.flatMap_singleton, foldlM_memStatRound_append (by omega), ih]
    simpa using hround

/-- The loop needs four numbers a worker. -/
theorem processRemoteMemStat_short {wr : WorkRequest}
    (h : (split Master.colon wr.payload).length < wr.size.toNat * 4) :
    processRemoteMemStat clients wr = none := by
  obtain ⟨n, hn⟩ : ∃ n, wr.size.toNat = n + 1 := ⟨wr.size.toNat - 1, by omega⟩
  rw [processRemoteMemStat, hn, List.range_succ, List.foldlM_append]
  cases (List.range n).foldlM (memStatRound (split Master.colon wr.payload)) clients with
  | none => rfl
  | some c =>
    have hlast : (split Master.colon wr.payload)[n * 4 + 3]? = none := by
      rw [List.getElem?_eq_none_iff]
      omega
    simp only [Option.bind_eq_bind, Option.bind_some, List.foldlM_cons, memStatRound, hlast]
    cases (split Master.colon wr.payload)[n * 4]? <;> try rfl
    cases (split Master.colon wr.payload)[n * 4 + 1]? <;> try rfl
    cases (split Master.colon wr.payload)[n * 4 + 2]? <;> rfl

/-! ## Delivery -/

theorem printNat_zero_free {n : Nat} : 0#8 ∉ printNat n := fun h => by
  cases isDigits_printNat.2 0#8 h

theorem printInt_zero_free {z : Int} : 0#8 ∉ printInt z := by
  rw [printInt]
  split
  · simpa [minusSign] using printNat_zero_free
  · exact printNat_zero_free

theorem broadcastEntry_zero_free : 0#8 ∉ m.broadcastEntry qp w := by
  simp [Master.broadcastEntry, printNat_zero_free, printInt_zero_free, Master.colon]

theorem fetchEntry_zero_free : 0#8 ∉ m.fetchEntry qp w := by
  simp [Master.fetchEntry, printNat_zero_free, printInt_zero_free, Master.colon]

theorem deliver_eq {r : WorkRequest} (hr : r.WellFormed) (hfit : r.ser.length + 1 ≤ 1024) :
    deliver clients r = processRemoteMemStat clients r.carried := by
  have hdes := deser_ser [] hr
  simp only [deliver, serBuf, if_pos hfit, Option.bind_eq_bind, Option.bind_some, hdes]

theorem broadcastMsg_wellFormed : (m.broadcastMsg qp th ws).WellFormed where
  handled := rfl
  sized h := by simp [Master.broadcastMsg] at h
  text _ h := by
    obtain ⟨w, -, hw⟩ := List.mem_flatMap.1 h
    exact broadcastEntry_zero_free hw
  registered g hg := by simp [Master.broadcastMsg] at hg

theorem fetchReply_wellFormed : (m.fetchReply qp ws).WellFormed where
  handled := rfl
  sized h := by simp [Master.fetchReply] at h
  text _ h := by
    obtain ⟨w, -, hw⟩ := List.mem_flatMap.1 h
    exact fetchEntry_zero_free hw
  registered g hg := by simp [Master.fetchReply] at hg

theorem length_ser_broadcast (qp : Wid → BitVec 32) (m : Master) (th : Nat) (ws : List Wid) :
    (m.broadcastMsg qp th ws).ser.length =
    12 + (ws.flatMap (m.broadcastEntry qp)).length := by
  have hzero : 0 ∉ ws.flatMap (m.broadcastEntry qp) := by
    intro h
    obtain ⟨w, -, hw⟩ := List.mem_flatMap.1 h
    exact broadcastEntry_zero_free hw
  have htext := takeWhile_eq_self hzero
  simp only [ser, Master.broadcastMsg, htext, List.length_append, length_encodeLe]

theorem length_ser_fetch (qp : Wid → BitVec 32) (m : Master) (ws : List Wid) :
    (m.fetchReply qp ws).ser.length =
    12 + (ws.flatMap (m.fetchEntry qp)).length := by
  have hzero : 0 ∉ ws.flatMap (m.fetchEntry qp) := by
    intro h
    obtain ⟨w, -, hw⟩ := List.mem_flatMap.1 h
    exact fetchEntry_zero_free hw
  have htext := takeWhile_eq_self hzero
  simp only [ser, Master.fetchReply, htext, List.length_append, length_encodeLe]

theorem length_printInt_le {z : Int} (h1 : -2 ^ 31 ≤ z) (h2 : z < 2 ^ 31) :
    (printInt z).length ≤ 11 := by
  rw [printInt]
  split
  · have := length_printNat_le (n := (-z).toNat) (k := 10) (by omega) (by omega)
    rw [List.length_cons]
    omega
  · have := length_printNat_le (n := z.toNat) (k := 10) (by omega) (by omega)
    omega

theorem toInt_narrow_bounds (x : BitVec 64) :
    -2 ^ 31 ≤ (narrow x).toInt ∧ (narrow x).toInt < 2 ^ 31 := by
  rw [narrow, BitVec.toInt_signExtend_of_le (by omega)]
  exact ⟨BitVec.le_toInt _, BitVec.toInt_lt⟩

theorem length_broadcastEntry_le (qp : Wid → BitVec 32) {s : MemStat} (h : m.stats w = setMemStat s) :
    (m.broadcastEntry qp w).length ≤ 46 := by
  have hqp := length_printNat_le (n := (qp w).toNat) (k := 10) (by omega)
    (by have := (qp w).isLt; omega)
  have hw := length_printInt_le (z := w.toInt) (BitVec.le_toInt _) BitVec.toInt_lt
  have hsize := toInt_narrow_bounds s.size
  have hfree := toInt_narrow_bounds s.free
  have h1 := length_printInt_le hsize.1 hsize.2
  have h2 := length_printInt_le hfree.1 hfree.2
  simp only [Master.broadcastEntry, h, setMemStat, List.length_append, List.length_singleton]
  omega

/-! ## When the statistics arrive unchanged -/

theorem not_faithful_none : ¬ Faithful rs ws none := by
  rintro ⟨c, hc, -⟩
  cases hc

/-- Once the loop has gone through, the records are the last reports as far as these are `int`s. -/
theorem faithful_noted_iff (h : ∀ w ∈ ws, ∃ s ∈ lastReport rs w, m.stats w = setMemStat s) :
    Faithful rs ws (some (noted m ws clients)) ↔
      ∀ w ∈ ws, ∀ s ∈ lastReport rs w, s.FitsInt := by
  have hnoted : ∀ w ∈ ws, ∀ s ∈ lastReport rs w,
      (noted m ws clients w = lastReport rs w ↔ s.FitsInt) := by
    intro w hw s hs
    obtain ⟨s', hs', hm⟩ := h w hw
    obtain rfl : s = s' := Option.some.inj ((Option.mem_def.1 hs).symm.trans hs')
    rw [noted, if_pos hw, hm, setMemStat_idem, Option.mem_def.1 hs, Option.some.injEq,
      setMemStat_eq_iff]
  constructor
  · rintro ⟨c, hc, hall⟩ w hw s hs
    obtain rfl := Option.some.inj hc
    exact (hnoted w hw s hs).1 (hall w hw)
  · intro hall
    refine ⟨_, rfl, fun w hw => ?_⟩
    obtain ⟨s, hs, -⟩ := h w hw
    exact (hnoted w hw s hs).2 (hall w hw s hs)

/-- The broadcast of one worker is understood, that of several is not: `stats` is too short. -/
theorem deliver_broadcast (hreg : ∀ w ∈ ws, (clients w).isSome) (hlen : ws.length = th)
    (hstat : ∀ w ∈ ws, ∃ s, m.stats w = setMemStat s) (hth : 1 ≤ th) :
    deliver clients (m.broadcastMsg qp th ws) =
      if th = 1 then some (noted m ws clients) else none := by
  split
  · rename_i h1
    obtain ⟨w, rfl⟩ := List.length_eq_one_iff.1 (hlen.trans h1)
    obtain ⟨s, hs⟩ := hstat w (by simp)
    have hfit := length_ser_broadcast qp m th [w]
    have hle := length_broadcastEntry_le qp hs
    rw [List.flatMap_singleton] at hfit
    rw [deliver_eq broadcastMsg_wellFormed (by omega)]
    have hsplit := split_broadcast_one qp m w
    have hloop := foldlM_entryNumbers qp m hreg
    simp only [List.flatMap_singleton, List.length_singleton] at hloop
    simpa [processRemoteMemStat, Master.broadcastMsg, carried, keep, Work.carries, h1, hsplit] using
      hloop
  · rename_i h1
    by_cases hfit : (m.broadcastMsg qp th ws).ser.length + 1 ≤ 1024
    · have hne : ws ≠ [] := by
        rintro rfl
        simp at hlen
        omega
      obtain ⟨t, ts, last, htext, hts, -, -, -⟩ := broadcast_numerals qp m hne
      have hmin := length_le_terminated Master.colon (t :: ts)
      have hshort := length_split_broadcast_le qp m hne
      rw [length_ser_broadcast, htext, List.length_append] at hfit
      rw [List.length_cons] at hmin
      rw [deliver_eq broadcastMsg_wellFormed
        (by rw [length_ser_broadcast, htext, List.length_append]; omega)]
      apply processRemoteMemStat_short
      simp only [Master.broadcastMsg, carried, keep, Work.carries, Option.getD_some, List.mem_cons,
        reduceCtorEq, or_true, if_true, true_or, BitVec.toNat_ofNat]
      rw [Nat.mod_eq_of_lt (by omega)]
      omega
    · rw [deliver, serBuf, if_neg hfit]
      rfl

theorem broadcast_faithful_iff (rs : List Report) (r : Report) (hth : 1 ≤ th)
    (hdue : ((Master.run th rs).updateMemStats th r).2 = some ws)
    (hreg : ∀ w ∈ ws, (clients w).isSome) :
    Faithful (rs ++ [r]) ws
        (deliver clients ((((Master.run th rs).updateMemStats th r).1).broadcastMsg qp th ws)) ↔
      th = 1 ∧ r.stat.FitsInt := by
  have hh := Master.holds_run rs hth
  have hstat := Master.record_stat (r := r) hh
  have hrep := Master.record_unsynced (r := r) hh
  rw [Master.updateMemStats] at hdue ⊢
  split at hdue
  · rename_i hlen
    obtain rfl := Option.some.inj hdue
    have hall : ∀ w ∈ ((Master.run th rs).record r).unsynced,
        ∃ s ∈ lastReport (rs ++ [r]) w, ((Master.run th rs).record r).stats w = setMemStat s := by
      intro w hw
      obtain ⟨s, hs⟩ := Option.isSome_iff_exists.1 (hrep w hw)
      exact ⟨s, hs, hstat w s hs⟩
    rw [if_pos hlen, deliver_broadcast hreg hlen (fun w hw => ?_) hth]
    · by_cases h1 : th = 1
      · rw [if_pos h1]
        refine (faithful_noted_iff hall).trans ?_
        have hun : (Master.run th rs).unsynced = [] := by
          have := hh.waiting
          exact List.eq_nil_of_length_eq_zero (by omega)
        have hone : ((Master.run th rs).record r).unsynced = [r.wid] := by
          simp [Master.record, hun]
        rw [hone]
        simp [h1, lastReport_append]
      · rw [if_neg h1]
        exact ⟨fun h => absurd h not_faithful_none, fun h => absurd h.1 h1⟩
    · obtain ⟨s, -, hs⟩ := hall w hw
      exact ⟨s, hs⟩
  · cases hdue

theorem fetch_faithful_iff (hth : 1 ≤ th) (hperm : ws.Perm (Master.run th rs).known)
    (hreg : ∀ w ∈ ws, (clients w).isSome) :
    Faithful rs ws (deliver clients ((Master.run th rs).fetchReply qp ws)) ↔
      (ws.flatMap ((Master.run th rs).fetchEntry qp)).length + 13 ≤ 1024 ∧
        ∀ w ∈ ws, ∀ s ∈ lastReport rs w, s.FitsInt := by
  have hh := Master.holds_run rs hth
  have hall : ∀ w ∈ ws, ∃ s ∈ lastReport rs w, (Master.run th rs).stats w = setMemStat s := by
    intro w hw
    obtain ⟨s, hs⟩ := Option.isSome_iff_exists.1 ((hh.known w).1 (hperm.mem_iff.1 hw))
    exact ⟨s, hs, hh.stat w s hs⟩
  by_cases hfit : (ws.flatMap ((Master.run th rs).fetchEntry qp)).length + 13 ≤ 1024
  · have hser := length_ser_fetch qp (Master.run th rs) ws
    have hmin : ws.length ≤ (ws.flatMap ((Master.run th rs).fetchEntry qp)).length := by
      have h4 := length_entryNumbers qp (Master.run th rs) ws
      have := length_le_terminated Master.colon (ws.flatMap ((Master.run th rs).entryTexts qp))
      rw [Master.flatMap_fetchEntry]
      refine Nat.le_trans ?_ this
      rw [List.length_flatMap]
      simp [Master.entryTexts]
      omega
    have hloop := foldlM_entryNumbers qp (Master.run th rs) hreg
    have hsize : (BitVec.ofNat 64 ws.length).toNat = ws.length := by
      rw [BitVec.toNat_ofNat]
      omega
    rw [deliver_eq fetchReply_wellFormed (by omega)]
    have hproc : processRemoteMemStat clients ((Master.run th rs).fetchReply qp ws).carried =
        some (noted (Master.run th rs) ws clients) := by
      simp only [processRemoteMemStat, Master.fetchReply, carried, keep, Work.carries,
        Option.getD_some, List.mem_cons, reduceCtorEq, or_true, if_true, true_or, hsize,
        split_fetch, hloop]
    rw [hproc, faithful_noted_iff hall]
    exact ⟨fun h => ⟨hfit, h⟩, fun h => h.2⟩
  · have hnone : deliver clients ((Master.run th rs).fetchReply qp ws) = none := by
      rw [deliver, serBuf, length_ser_fetch, if_neg (by omega)]
      rfl
    rw [hnone]
    exact ⟨fun h => absurd h not_faithful_none, fun h => absurd h.1 hfit⟩

/-- The workers' records are the reports exactly when a broadcast names one worker only, a fetch
reply fits into its buffer, and the numbers are `int`s. -/
theorem memStats_faithful_iff (th : Nat) (hth : 1 ≤ th) (qp : Wid → BitVec 32)
    (rs : List Report) (clients : Clients) :
    (∀ r ws, ((Master.run th rs).updateMemStats th r).2 = some ws →
      (∀ w ∈ ws, (clients w).isSome) →
      (Faithful (rs ++ [r]) ws
          (deliver clients ((((Master.run th rs).updateMemStats th r).1).broadcastMsg qp th ws)) ↔
        th = 1 ∧ r.stat.FitsInt)) ∧
    ∀ ws, ws.Perm (Master.run th rs).known → (∀ w ∈ ws, (clients w).isSome) →
      (Faithful rs ws (deliver clients ((Master.run th rs).fetchReply qp ws)) ↔
        (ws.flatMap ((Master.run th rs).fetchEntry qp)).length + 13 ≤ 1024 ∧
          ∀ w ∈ ws, ∀ s ∈ lastReport rs w, s.FitsInt) :=
  ⟨fun _ _ hdue hreg => broadcast_faithful_iff _ _ hth hdue hreg,
    fun _ hperm hreg => fetch_faithful_iff hth hperm hreg⟩

/-- One worker's report of a gigabyte, half of it free. -/
theorem memStats_faithful_gigabyte :
    Faithful [⟨1, ⟨2 ^ 30, 2 ^ 29⟩⟩] [1]
      (deliver (fun _ => some ⟨0, 0⟩)
        (((Master.run 1 []).updateMemStats 1 ⟨1, ⟨2 ^ 30, 2 ^ 29⟩⟩).1.broadcastMsg
          (fun _ => 77) 1 [1])) :=
  ((memStats_faithful_iff 1 (by decide) (fun _ => 77) [] fun _ => some ⟨0, 0⟩).1
    ⟨1, ⟨2 ^ 30, 2 ^ 29⟩⟩ [1] rfl (fun _ _ => rfl)).2
    ⟨rfl, by constructor <;> decide⟩

/-- Four gigabytes do not arrive, and neither do two small reports in one broadcast. -/
theorem not_memStats_faithful :
    ¬ Faithful [⟨1, ⟨2 ^ 32, 2 ^ 32⟩⟩] [1]
      (deliver (fun _ => some ⟨0, 0⟩)
        (((Master.run 1 []).updateMemStats 1 ⟨1, ⟨2 ^ 32, 2 ^ 32⟩⟩).1.broadcastMsg
          (fun _ => 77) 1 [1])) ∧
    ¬ Faithful [⟨1, ⟨100, 50⟩⟩, ⟨2, ⟨200, 80⟩⟩] [1, 2]
      (deliver (fun _ => some ⟨0, 0⟩)
        (((Master.run 2 [⟨1, ⟨100, 50⟩⟩]).updateMemStats 2 ⟨2, ⟨200, 80⟩⟩).1.broadcastMsg
          (fun _ => 77) 2 [1, 2])) := by
  constructor
  · intro h
    have h := (broadcast_faithful_iff [] ⟨1, ⟨2 ^ 32, 2 ^ 32⟩⟩ (by decide) rfl (fun _ _ => rfl)).1 h
    exact absurd h.2.1 (by decide)
  · intro h
    have h := (broadcast_faithful_iff [⟨1, ⟨100, 50⟩⟩] ⟨2, ⟨200, 80⟩⟩ (by decide) rfl
      (fun _ _ => rfl)).1 h
    exact absurd h.1 (by decide)

end HwGam.Wire
