import HwGam.Lib.Fields

/-!
# Connection strings and addresses

What two nodes tell each other to connect a pair of RDMA contexts, and how the list of the workers
that the master keeps is written and read.
-/

namespace HwGam.Cluster

open HwGam.Lib

def colon : Byte := 58
def comma : Byte := 44
def dot : Byte := 46

/-! ## RDMA contexts -/

/-- What a node tells of an RDMA context. The key and the base address of its memory are told to
workers only. -/
structure Params where
  lid : BitVec 16
  qpn : BitVec 32
  psn : BitVec 32
  mem : Option (BitVec 32 × BitVec 64)
  deriving DecidableEq, Repr

/-- `RdmaContext::GetRdmaConnString` -/
def Params.getRdmaConnString (p : Params) : List Byte :=
  printHex 4 p.lid.toNat ++ (colon :: printHex 8 p.qpn.toNat ++ (colon :: printHex 8 p.psn.toNat ++
    match p.mem with
    | none => []
    | some (rkey, base) => colon :: printHex 8 rkey.toNat ++ colon :: printHex 16 base.toNat))

/-- `Client::GetConnString` -/
def getConnString (wid : Nat) (p : Params) : List Byte :=
  printHex 4 wid ++ colon :: p.getRdmaConnString

def skipColon : List Byte → Option (List Byte)
  | [] => none
  | b :: s => if b = colon then some s else none

/-- `RdmaContext::SetRemoteConnParam`; `none` where `sscanf` leaves a field as it was -/
def setRemoteConnParam (isForMaster : Bool) (conn : List Byte) : Option Params := do
  let (lid, s) ← scanHex conn
  let (qpn, s) ← scanHex (← skipColon s)
  let (psn, s) ← scanHex (← skipColon s)
  if isForMaster then
    return ⟨.ofNat 16 lid, .ofNat 32 qpn, .ofNat 32 psn, none⟩
  let (rkey, s) ← scanHex (← skipColon s)
  let (base, _) ← scanHex (← skipColon s)
  return ⟨.ofNat 16 lid, .ofNat 32 qpn, .ofNat 32 psn, some (.ofNat 32 rkey, .ofNat 64 base)⟩

/-- The id in front of a connection string. -/
def widOf (conn : List Byte) : Option Nat := (scanHex conn).map fun x => x.1 % 2 ^ 32

/-- The string behind `strchr(conn, ':')`. -/
def afterColon (conn : List Byte) : List Byte := (conn.dropWhile (· ≠ colon)).tail

variable {wid n w : Nat} {p : Params} {s : List Byte}

theorem hexValue_colon : hexValue? colon = none := rfl

theorem colon_notMem_printHex : colon ∉ printHex w n := fun h => by
  simpa [hexValue_colon] using isSome_of_printHex h

theorem scan_colon (hw : 0 < w) : scanHex (printHex w n ++ colon :: s) = some (n, colon :: s) :=
  scanHex_printHex hw (by simp [hexValue_colon])

theorem setRemoteConnParam_getRdmaConnString (p : Params) :
    setRemoteConnParam p.mem.isNone p.getRdmaConnString = some p := by
  obtain ⟨lid, qpn, psn, mem⟩ := p
  cases mem with
  | none =>
    have hlast : scanHex (printHex 8 psn.toNat ++ []) = some (psn.toNat, []) :=
      scanHex_printHex (by decide) (by simp)
    rw [List.append_nil] at hlast
    simp [setRemoteConnParam, Params.getRdmaConnString, scan_colon, skipColon, hlast]
  | some m =>
    have hlast : scanHex (printHex 16 m.2.toNat ++ []) = some (m.2.toNat, []) :=
      scanHex_printHex (by decide) (by simp)
    rw [List.append_nil] at hlast
    simp [setRemoteConnParam, Params.getRdmaConnString, scan_colon, skipColon, hlast]

theorem widOf_getConnString (hw : wid < 16 ^ 4) : widOf (getConnString wid p) = some wid := by
  simp only [widOf, getConnString, scan_colon (w := 4) (by decide), Option.map_some]
  congr 1
  omega

theorem afterColon_getConnString : afterColon (getConnString wid p) = p.getRdmaConnString := by
  have hall : ∀ b ∈ printHex 4 wid, (decide (b ≠ colon)) = true := by
    intro b hb
    simp only [ne_eq, decide_not, Bool.not_eq_true', decide_eq_false_iff_not]
    rintro rfl
    exact colon_notMem_printHex hb
  rw [afterColon, getConnString, List.dropWhile_append_of_pos hall]
  simp

theorem length_getRdmaConnString (p : Params) :
    p.getRdmaConnString.length = if p.mem.isNone then 22 else 48 := by
  obtain ⟨lid, qpn, psn, mem⟩ := p
  have h16 : (printHex 4 lid.toNat).length = 4 := length_printHex lid.isLt
  have h32 (x : BitVec 32) : (printHex 8 x.toNat).length = 8 := length_printHex x.isLt
  have h64 (x : BitVec 64) : (printHex 16 x.toNat).length = 16 := length_printHex x.isLt
  cases mem <;> simp [Params.getRdmaConnString, h16, h32, h64]

/-- All ids of four digits make strings of one length. -/
theorem length_getConnString (hw : wid < 16 ^ 4) :
    (getConnString wid p).length = if p.mem.isNone then 27 else 53 := by
  rw [getConnString, List.length_append, List.length_cons, length_printHex hw,
    length_getRdmaConnString]
  split <;> rfl

/-! ## Addresses -/

/-- The dotted address and the port at which a worker listens. -/
structure Addr where
  (a b c d : BitVec 8)
  port : BitVec 16
  deriving DecidableEq, Repr

namespace Addr

variable (x : Addr)

/-- `Server::GetIP` -/
def getIP : List Byte :=
  printNat x.a.toNat ++ dot :: (printNat x.b.toNat ++ dot :: (printNat x.c.toNat ++
    dot :: printNat x.d.toNat))

/-- What a worker sends to the master. -/
def ipPort : List Byte := x.getIP ++ colon :: printNat x.port.toNat

/-- Where `anetTcpConnect` connects to. -/
def dest : List Byte × Nat := (x.getIP, x.port.toNat)

end Addr

/-- `atoi` of a number without a sign -/
def atoi (s : List Byte) : Nat := valueOfDigits ((s.dropWhile isSpaceByte).takeWhile isDigitByte)

/-- The split of an entry, which is asserted to have two fields. -/
def ipPortOf (s : List Byte) : Option (List Byte × Nat) :=
  match fields colon s with
  | [ip, port] => some (ip, atoi port)
  | _ => none

/-- The workers in the list of the master, as `Worker::PostConnectMaster` reads it. -/
def workersOf (inmsg : List Byte) : Option (List (List Byte × Nat)) :=
  ((fields comma inmsg).filter fun s => 9 ≤ s.length).mapM ipPortOf

variable {x : Addr} {b : Byte}

theorem printNat_ne_nil : printNat n ≠ [] := isDigits_printNat.1

theorem mem_printNat (hb : b ∈ printNat n) : isDigitByte b = true := isDigits_printNat.2 b hb

theorem notMem_printNat (h : isDigitByte b = false) : b ∉ printNat n := fun hb => by
  simp [mem_printNat hb] at h

theorem fields_dot_getIP (x : Addr) : fields dot x.getIP =
    [printNat x.a.toNat, printNat x.b.toNat, printNat x.c.toNat, printNat x.d.toNat] := by
  have hone (n : Nat) : fields dot (printNat n) = [printNat n] :=
    fields_eq_singleton printNat_ne_nil (notMem_printNat rfl)
  simp [Addr.getIP, fields_append_cons, hone]

theorem notMem_getIP (h : isDigitByte b = false) (hd : b ≠ dot) : b ∉ x.getIP := by
  simp [Addr.getIP, notMem_printNat h, hd]

theorem notMem_ipPort (h : isDigitByte b = false) (hd : b ≠ dot) (hc : b ≠ colon) :
    b ∉ x.ipPort := by
  simp [Addr.ipPort, notMem_printNat h, notMem_getIP h hd, hc]

theorem printNat_injective {m : Nat} (h : printNat m = printNat n) : m = n := by
  rw [← valueOfDigits_printNat (n := m), h, valueOfDigits_printNat]

theorem Addr.dest_injective : Function.Injective Addr.dest := by
  intro x y h
  obtain ⟨hip, hport⟩ := Prod.ext_iff.mp h
  have hf := fields_dot_getIP x
  rw [show x.getIP = y.getIP from hip, fields_dot_getIP y] at hf
  simp only [List.cons.injEq, and_true] at hf
  obtain ⟨ha, hb, hc, hd⟩ := hf
  obtain ⟨xa, xb, xc, xd, xp⟩ := x
  obtain ⟨ya, yb, yc, yd, yp⟩ := y
  simp only [Addr.mk.injEq]
  exact ⟨BitVec.eq_of_toNat_eq (printNat_injective ha).symm,
    BitVec.eq_of_toNat_eq (printNat_injective hb).symm,
    BitVec.eq_of_toNat_eq (printNat_injective hc).symm,
    BitVec.eq_of_toNat_eq (printNat_injective hd).symm, BitVec.eq_of_toNat_eq hport⟩

/-- An entry is long enough not to be skipped, and fits its buffer. -/
theorem length_ipPort (x : Addr) : 9 ≤ x.ipPort.length ∧ x.ipPort.length ≤ 21 := by
  have hpos (n : Nat) : 1 ≤ (printNat n).length := List.length_pos_of_ne_nil printNat_ne_nil
  have h8 (y : BitVec 8) : (printNat y.toNat).length ≤ 3 :=
    length_printNat_le (by decide) (y.isLt.trans (by decide))
  have h16 : (printNat x.port.toNat).length ≤ 5 :=
    length_printNat_le (by decide) (x.port.isLt.trans (by decide))
  have ha := h8 x.a
  have hb := h8 x.b
  have hc := h8 x.c
  have hd := h8 x.d
  have ha' := hpos x.a.toNat
  have hb' := hpos x.b.toNat
  have hc' := hpos x.c.toNat
  have hd' := hpos x.d.toNat
  have hp' := hpos x.port.toNat
  simp only [Addr.ipPort, Addr.getIP, List.length_append, List.length_cons]
  omega

theorem atoi_printNat : atoi (printNat n) = n := by
  obtain ⟨b, ds, hb⟩ := List.exists_cons_of_ne_nil (printNat_ne_nil (n := n))
  have hdigit : isDigitByte b = true := mem_printNat (n := n) (by simp [hb])
  have hdrop : (printNat n).dropWhile isSpaceByte = printNat n := by
    rw [hb, List.dropWhile_cons, not_isSpace_of_isDigit hdigit]
    simp
  have htake := (takeWhile_digits (isDigits_printNat (n := n)) (by simp [Ends] : Ends [])).1
  rw [List.append_nil] at htake
  rw [atoi, hdrop, htake, valueOfDigits_printNat]

theorem ipPortOf_ipPort (x : Addr) : ipPortOf x.ipPort = some x.dest := by
  have hip : fields colon x.getIP = [x.getIP] :=
    fields_eq_singleton (by simp [Addr.getIP]) (notMem_getIP rfl (by decide))
  have hport : fields colon (printNat x.port.toNat) = [printNat x.port.toNat] :=
    fields_eq_singleton printNat_ne_nil (notMem_printNat rfl)
  simp [ipPortOf, Addr.ipPort, fields_append_cons, hip, hport, atoi_printNat, Addr.dest]

theorem fields_comma_ipPort (x : Addr) : fields comma x.ipPort = [x.ipPort] := by
  refine fields_eq_singleton ?_ (notMem_ipPort rfl (by decide) (by decide))
  exact List.ne_nil_of_length_pos (Nat.lt_of_lt_of_le (by decide) (length_ipPort x).1)

/-- A list of addresses is read back. -/
theorem workersOf_eq {xs : List Addr} (h : fields comma s = xs.map Addr.ipPort) :
    workersOf s = some (xs.map Addr.dest) := by
  have hfilter : (xs.map Addr.ipPort).filter (fun s => decide (9 ≤ s.length)) =
      xs.map Addr.ipPort := by
    refine List.filter_eq_self.mpr fun t ht => ?_
    obtain ⟨x, -, rfl⟩ := List.mem_map.mp ht
    simpa using (length_ipPort x).1
  rw [workersOf, h, hfilter]
  clear h hfilter
  induction xs with
  | nil => rfl
  | cons x xs ih => simp [List.mapM_cons, ipPortOf_ipPort, ih]

end HwGam.Cluster
