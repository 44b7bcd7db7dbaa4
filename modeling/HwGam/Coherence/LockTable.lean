import Mathlib.Logic.Function.Basic
import HwGam.Coherence.Block
import HwGam.Lib.Transition

/-!
# Lock tables as reader/writer locks

A directory entry and a cache line store one integer for each locked address: the number of its
readers, or `EXCLUSIVE_LOCK_TAG`. Beside it stands here who holds the lock, which is what the
operations have granted and the holders have not given back.
-/

namespace HwGam.Coherence

open Lib

/-! ## The table of a cache line -/

namespace Line

variable (l : Line) (addr : Nat)

/-- `Cache::IsWLocked` -/
def isWLocked : Bool := l.locks.lookup addr = some exclusive

/-- `Cache::IsRLocked` -/
def isRLocked : Bool :=
  match l.locks.lookup addr with
  | none => false
  | some n => n != exclusive

/-- `Cache::RLock`; `none` where it returns -1. -/
def rLock : Option Line :=
  if l.isWLocked addr then none else some { l with locks := l.locks.share addr }

/-- `Cache::WLock`; `none` where it returns -1. -/
def wLock : Option Line :=
  if l.isWLocked addr || l.isRLocked addr then none
  else some { l with locks := l.locks.insert addr exclusive }

end Line

/-! ## Both tables -/

/-- A lock table in the hands of its callers. -/
structure LockTable (σ α : Type*) where
  /-- the integer at an address -/
  stored : σ → Nat → Option Nat
  isWLocked : σ → Nat → Bool
  rLock : σ → Nat → Option σ
  wLock : σ → Nat → Option σ
  unLock : σ → Nat → σ
  /-- the states in which a write lock may be asked for -/
  writable : σ → Bool
  /-- what else happens to the entry -/
  other : α → σ → Option σ

/-- A cache line may be locked in any state; its state and its data change besides. -/
def cacheLine : LockTable Line (CacheState × Data) where
  stored l a := l.locks.lookup a
  isWLocked := Line.isWLocked
  rLock := Line.rLock
  wLock := Line.wLock
  unLock := Line.unLock
  writable _ := true
  other x l := some { l with state := x.1, data := x.2 }

/-- "we should call ToUnshared before call WLock", and an entry that is write-locked stays
unshared. Without locks it may also be erased. -/
def dirEntry (W : Type*) : LockTable (Dir W) (Option (DirState × List (W × Ptr))) where
  stored e a := e.locks.lookup a
  isWLocked := Dir.isWLocked
  rLock := Dir.rLock
  wLock := Dir.wLock
  unLock := Dir.unLock
  writable e := e.getState = .unshared
  other x e :=
    match x with
    | none => if e.isBlockLocked then none else some none
    | some (state, shared) =>
      if e.isBlockWLocked && state ≠ .unshared then none
      else some (some { state, shared, locks := e.locks })

/-- Who holds the lock at an address. -/
structure Holders where
  readers : Nat := 0
  writers : Nat := 0
  deriving DecidableEq

/-- The integer that stands for the holders. -/
def Holders.code (h : Holders) : Option Nat :=
  if 0 < h.writers then some exclusive else if 0 < h.readers then some h.readers else none

/-- A table and the locks granted in it. -/
structure Ledger (σ : Type*) where
  table : σ
  holders : Nat → Holders := fun _ => {}

inductive LockAct (α : Type*)
  | rLock (addr : Nat)
  | wLock (addr : Nat)
  /-- `UnLock` by a reader -/
  | rUnLock (addr : Nat)
  /-- `UnLock` by a writer -/
  | wUnLock (addr : Nat)
  | other (x : α)

namespace LockTable

variable {σ α : Type*} (T : LockTable σ α)

/-- Only a holder unlocks; a lock that is refused changes nothing. -/
def step (act : LockAct α) (b : Ledger σ) : Option (Ledger σ) :=
  match act with
  | .rLock a =>
    match T.rLock b.table a with
    | none => some b
    | some t =>
      some ⟨t, Function.update b.holders a
        { b.holders a with readers := (b.holders a).readers + 1 }⟩
  | .wLock a =>
    if T.writable b.table then
      match T.wLock b.table a with
      | none => some b
      | some t =>
        some ⟨t, Function.update b.holders a
          { b.holders a with writers := (b.holders a).writers + 1 }⟩
    else none
  | .rUnLock a =>
    if 0 < (b.holders a).readers then
      some ⟨T.unLock b.table a, Function.update b.holders a
        { b.holders a with readers := (b.holders a).readers - 1 }⟩
    else none
  | .wUnLock a =>
    if 0 < (b.holders a).writers then
      some ⟨T.unLock b.table a, Function.update b.holders a
        { b.holders a with writers := (b.holders a).writers - 1 }⟩
    else none
  | .other x => (T.other x b.table).map fun t => { b with table := t }

/-- The table is a reader/writer lock at every address. -/
structure Refines (b : Ledger σ) : Prop where
  /-- nobody, readers, or one writer -/
  excl : ∀ a, (b.holders a).writers = 0 ∨ b.holders a = { writers := 1 }
  stored : ∀ a, T.stored b.table a = (b.holders a).code
  /-- no number of readers is the exclusive tag -/
  distinct : ∀ a, (b.holders a).readers ≠ exclusive
  isWLocked : ∀ a, T.isWLocked b.table a = true ↔ 0 < (b.holders a).writers
  rLock : ∀ a, (T.rLock b.table a).isSome ↔ (b.holders a).writers = 0
  wLock : T.writable b.table → ∀ a, (T.wLock b.table a).isSome ↔ b.holders a = {}
  /-- the last holder frees the entry, another reader leaves the others their locks -/
  unLock : ∀ a, b.holders a ≠ {} →
    T.stored (T.unLock b.table a) a =
      if (b.holders a).readers + (b.holders a).writers = 1 then none
      else some ((b.holders a).readers - 1)

/-- A read lock is asked for while at most 253 readers hold the address. -/
def fewReaders (act : LockAct α) (b : Ledger σ) : Prop :=
  match act with
  | .rLock a => (b.holders a).readers < exclusive - 1
  | _ => True

/-! ## What the tables have in common -/

/-- How the operations change the stored integers. -/
structure Lawful : Prop where
  isWLocked : ∀ s a,
    T.isWLocked s a = true ↔ T.writable s = true ∧ T.stored s a = some exclusive
  rLock : ∀ s a, T.rLock s a = none ↔ T.isWLocked s a = true
  rLock_some : ∀ s a s', T.rLock s a = some s' → T.writable s' = T.writable s ∧
    T.stored s' = Function.update (T.stored s) a (some ((T.stored s a).getD 0 + 1))
  wLock : ∀ s a, T.writable s = true → T.stored s a ≠ some 0 →
    (T.wLock s a = none ↔ T.stored s a ≠ none)
  wLock_some : ∀ s a s', T.wLock s a = some s' → T.writable s' = T.writable s ∧
    T.stored s' = Function.update (T.stored s) a (some exclusive)
  unLock : ∀ s a n, T.stored s a = some n → 0 < n →
    T.writable (T.unLock s a) = T.writable s ∧
    T.stored (T.unLock s a) = Function.update (T.stored s) a
      (if T.isWLocked s a || n = 1 then none else some (n - 1))
  other : ∀ x s s', T.other x s = some s' → T.stored s' = T.stored s ∧
    (∀ a, T.stored s a = some exclusive → T.writable s' = true)

end LockTable

theorem lookup_share (l : Locks) (a : Nat) :
    (fun x => (l.share a).lookup x) =
      Function.update (fun x => l.lookup x) a (some ((l.lookup a).getD 0 + 1)) := by
  funext x
  unfold Locks.share
  by_cases hx : x = a
  · subst hx
    cases hl : l.lookup x <;> simp [AList.lookup_insert]
  · cases hl : l.lookup a <;> simp [AList.lookup_insert_ne hx, hx]

theorem lookup_insert (l : Locks) (a n : Nat) :
    (fun x => (AList.insert a n l : Locks).lookup x) =
      Function.update (fun x => l.lookup x) a (some n) := by
  funext x
  by_cases hx : x = a
  · subst hx
    simp [AList.lookup_insert]
  · simp [AList.lookup_insert_ne hx, hx]

theorem lookup_erase (l : Locks) (a : Nat) :
    (fun x => (AList.erase a l : Locks).lookup x) =
      Function.update (fun x => l.lookup x) a none := by
  funext x
  by_cases hx : x = a
  · subst hx
    simp [AList.lookup_erase]
  · simp [AList.lookup_erase_ne hx, hx]

/-- `Directory::UnLock` on the stored integers. -/
theorem Dir.lookup_unLock {W : Type*} {e : Dir W} {a n : Nat} (hl : e.locks.lookup a = some n)
    (hn : 0 < n) :
    (e.unLock a).getState = e.getState ∧
      (fun x => (e.unLock a).locks.lookup x) = Function.update (fun x => e.locks.lookup x) a
        (if e.isWLocked a || n = 1 then none else some (n - 1)) := by
  cases e with
  | none => cases hl
  | some d =>
    have hl : d.locks.lookup a = some n := hl
    unfold Dir.unLock
    simp only [hl, Option.getD_some]
    generalize hlocks : (if (if Dir.isWLocked (some d) a then 0 else n - 1) = 0 then d.locks.erase a
      else d.locks.insert a (if Dir.isWLocked (some d) a then 0 else n - 1) : Locks) = locks
    have hlookup : (fun x => locks.lookup x) = Function.update (fun x => d.locks.lookup x) a
        (if Dir.isWLocked (some d) a || n = 1 then none else some (n - 1)) := by
      rw [← hlocks]
      by_cases hw : Dir.isWLocked (some d) a = true
      · simpa [hw] using lookup_erase d.locks a
      · by_cases h1 : n = 1
        · simpa [hw, h1] using lookup_erase d.locks a
        · simpa [hw, h1, show n - 1 ≠ 0 by omega] using lookup_insert d.locks a (n - 1)
    split
    · -- the last lock of an unshared entry: the entry is erased
      rename_i hgone
      simp only [Bool.and_eq_true, decide_eq_true_eq, Bool.not_eq_true'] at hgone
      refine ⟨by simp [Dir.getState, hgone.1], ?_⟩
      refine Eq.trans ?_ hlookup
      funext x
      exact (Locks.lookup_of_not_isBlockLocked hgone.2 x).symm
    · exact ⟨rfl, hlookup⟩

theorem dirEntry_lawful (W : Type*) : (dirEntry W).Lawful where
  isWLocked e a := by simp [dirEntry, Dir.isWLocked]
  rLock e a := by
    cases e <;> simp [dirEntry, Dir.rLock]
  rLock_some e a e' h := by
    simp only [dirEntry, Dir.rLock, Option.ite_none_left_eq_some] at h
    obtain ⟨-, h⟩ := h
    cases e with
    | none =>
      obtain rfl := Option.some.inj h
      exact ⟨rfl, lookup_share ∅ a⟩
    | some d =>
      obtain rfl := Option.some.inj h
      exact ⟨rfl, lookup_share d.locks a⟩
  wLock e a hw h0 := by
    simp only [dirEntry, decide_eq_true_eq] at hw h0
    cases e with
    | none => simp [dirEntry, Dir.wLock, Dir.isWLocked, Dir.isRLocked, Dir.locks]
    | some d =>
      simp only [Dir.locks] at h0
      cases hl : d.locks.lookup a with
      | none => simp [dirEntry, Dir.wLock, Dir.isWLocked, Dir.isRLocked, Dir.locks, hl]
      | some n =>
        rw [hl] at h0
        have hn : 0 < n := Nat.pos_of_ne_zero fun h => h0 (by rw [h])
        by_cases hx : n = exclusive <;>
          simp [dirEntry, Dir.wLock, Dir.isWLocked, Dir.isRLocked, Dir.locks, hl, hx, hn, hw]
  wLock_some e a e' h := by
    simp only [dirEntry, Dir.wLock, Option.ite_none_left_eq_some] at h
    obtain ⟨-, h⟩ := h
    cases e with
    | none =>
      obtain rfl := Option.some.inj h
      exact ⟨rfl, lookup_insert ∅ a exclusive⟩
    | some d =>
      obtain rfl := Option.some.inj h
      exact ⟨rfl, lookup_insert d.locks a exclusive⟩
  unLock e a n hl hn := by
    obtain ⟨hs, hu⟩ := Dir.lookup_unLock hl hn
    exact ⟨by simp only [dirEntry, hs], hu⟩
  other x e e' h := by
    cases x with
    | none =>
      simp only [dirEntry, Option.ite_none_left_eq_some, Option.some.injEq] at h
      obtain ⟨hlock, rfl⟩ := h
      have hnone := Locks.lookup_of_not_isBlockLocked (l := e.locks) (by simpa [Dir.isBlockLocked] using hlock)
      refine ⟨by funext a; exact (hnone a).symm, fun a ha => ?_⟩
      simp only [dirEntry, hnone] at ha
      cases ha
    | some p =>
      simp only [dirEntry, Option.ite_none_left_eq_some, Option.some.injEq] at h
      obtain ⟨hw, rfl⟩ := h
      refine ⟨rfl, fun a ha => ?_⟩
      have hlocked : e.isBlockWLocked = true := Locks.isBlockWLocked_iff.2 ⟨a, ha⟩
      exact decide_eq_true (show p.1 = .unshared by simpa [hlocked] using hw)

theorem cacheLine_lawful : cacheLine.Lawful where
  isWLocked l a := by simp [cacheLine, Line.isWLocked]
  rLock l a := by simp [cacheLine, Line.rLock]
  rLock_some l a l' h := by
    refine ⟨rfl, ?_⟩
    simp only [cacheLine, Line.rLock, Option.ite_none_left_eq_some, Option.some.injEq] at h
    obtain ⟨-, rfl⟩ := h
    exact lookup_share l.locks a
  wLock l a _ _ := by
    cases hl : l.locks.lookup a with
    | none => simp [cacheLine, Line.wLock, Line.isWLocked, Line.isRLocked, hl]
    | some n =>
      by_cases hn : n = exclusive <;>
        simp [cacheLine, Line.wLock, Line.isWLocked, Line.isRLocked, hl, hn]
  wLock_some l a l' h := by
    refine ⟨rfl, ?_⟩
    simp only [cacheLine, Line.wLock, Option.ite_none_left_eq_some, Option.some.injEq] at h
    obtain ⟨-, rfl⟩ := h
    exact lookup_insert l.locks a exclusive
  unLock l a n hl hn := by
    refine ⟨rfl, ?_⟩
    simp only [cacheLine] at hl
    by_cases hx : n = exclusive
    · simpa [cacheLine, Line.unLock, Locks.unLock, Line.isWLocked, hl, hx] using
        lookup_erase l.locks a
    · by_cases h1 : n = 1
      · simpa [cacheLine, Line.unLock, Locks.unLock, Line.isWLocked, hl, h1, exclusive] using
          lookup_erase l.locks a
      · simpa [cacheLine, Line.unLock, Locks.unLock, Line.isWLocked, hl, hx, h1,
          show n - 1 ≠ 0 by omega] using lookup_insert l.locks a (n - 1)
  other x l l' h := by
    simp only [cacheLine, Option.some.injEq] at h
    subst h
    exact ⟨rfl, fun _ _ => rfl⟩

/-! ## Runs -/

theorem Holders.code_ne_zero (h : Holders) : h.code ≠ some 0 := by
  unfold Holders.code
  split
  · exact fun hc => absurd (Option.some.inj hc) (by decide)
  · split
    · exact fun hc => absurd (Option.some.inj hc) (by omega)
    · simp

namespace LockTable

variable {σ α : Type*} {T : LockTable σ α} {b b' : Ledger σ} {act : LockAct α} {a : Nat} {t : σ}

/-- What every run with few readers keeps. -/
structure Kept (T : LockTable σ α) (b : Ledger σ) : Prop where
  excl : ∀ a, ((b.holders a).writers = 0 ∧ (b.holders a).readers < exclusive) ∨
    b.holders a = { writers := 1 }
  stored : ∀ a, T.stored b.table a = (b.holders a).code
  writable : ∀ a, 0 < (b.holders a).writers → T.writable b.table = true

theorem Kept.stored_eq_exclusive (h : Kept T b) (a : Nat) :
    T.stored b.table a = some exclusive ↔ 0 < (b.holders a).writers := by
  rw [h.stored a, Holders.code]
  obtain ⟨hw, hr⟩ | heq := h.excl a
  · rw [hw, if_neg (by omega)]
    split
    · simp only [Option.some.injEq]
      omega
    · simp
  · simp [heq]

theorem Kept.stored_eq_none (h : Kept T b) (a : Nat) :
    T.stored b.table a = none ↔ b.holders a = {} := by
  rw [h.stored a, Holders.code]
  cases hb : b.holders a with
  | mk r w =>
    by_cases hw : 0 < w
    · simp [hw]
      omega
    · by_cases hr : 0 < r
      · simp [hw, hr]
        omega
      · simp [hw, hr]
        omega

theorem Kept.isWLocked (hT : T.Lawful) (h : Kept T b) (a : Nat) :
    T.isWLocked b.table a = true ↔ 0 < (b.holders a).writers := by
  rw [hT.isWLocked, h.stored_eq_exclusive]
  exact ⟨fun hw => hw.2, fun hw => ⟨h.writable a hw, hw⟩⟩

/-- A change at one address. -/
theorem Kept.update (h : Kept T b) {k : Holders}
    (hk : (k.writers = 0 ∧ k.readers < exclusive) ∨ k = { writers := 1 })
    (hstored : T.stored t = Function.update (T.stored b.table) a k.code)
    (hw : T.writable t = T.writable b.table) (hnew : 0 < k.writers → T.writable b.table = true) :
    Kept T ⟨t, Function.update b.holders a k⟩ where
  excl x := by
    by_cases hx : x = a
    · subst hx
      simpa using hk
    · simpa [hx] using h.excl x
  stored x := by
    rw [hstored]
    by_cases hx : x = a
    · subst hx
      simp
    · simpa [hx] using h.stored x
  writable x hpos := by
    rw [hw]
    by_cases hx : x = a
    · subst hx
      exact hnew (by simpa using hpos)
    · exact h.writable x (by simpa [hx] using hpos)

theorem Kept.unLock (hT : T.Lawful) (h : Kept T b) (hne : b.holders a ≠ {}) :
    T.writable (T.unLock b.table a) = T.writable b.table ∧
      T.stored (T.unLock b.table a) = Function.update (T.stored b.table) a
        (if (b.holders a).readers + (b.holders a).writers = 1 then none
          else some ((b.holders a).readers - 1)) := by
  have hcode := h.stored a
  have hw := h.isWLocked hT a
  obtain ⟨hw0, hr⟩ | heq := h.excl a
  · have hpos : 0 < (b.holders a).readers := by
      refine Nat.pos_of_ne_zero fun h0 => hne ?_
      cases hb : b.holders a with
      | mk r w => simp_all
    rw [Holders.code, if_neg (by omega), if_pos hpos] at hcode
    obtain ⟨hwr, hst⟩ := hT.unLock b.table a _ hcode hpos
    refine ⟨hwr, hst.trans ?_⟩
    have hnot : T.isWLocked b.table a = false := by
      rw [← Bool.not_eq_true, hw]
      omega
    simp [hnot, hw0]
  · rw [Holders.code, heq, if_pos (by decide)] at hcode
    obtain ⟨hwr, hst⟩ := hT.unLock b.table a _ hcode (by decide)
    refine ⟨hwr, hst.trans ?_⟩
    rw [hw.2 (by simp [heq])]
    simp [heq]

theorem Kept.refines (hT : T.Lawful) (h : Kept T b) : T.Refines b where
  excl a := (h.excl a).imp_left And.left
  stored := h.stored
  distinct a := by
    obtain ⟨-, hr⟩ | heq := h.excl a
    · omega
    · rw [heq]
      decide
  isWLocked := h.isWLocked hT
  rLock a := by
    rw [Option.isSome_iff_ne_none, ne_eq, hT.rLock, h.isWLocked hT]
    omega
  wLock hw a := by
    have hne : T.stored b.table a ≠ some 0 := h.stored a ▸ Holders.code_ne_zero _
    rw [Option.isSome_iff_ne_none, ne_eq, hT.wLock b.table a hw hne, not_ne_iff, h.stored_eq_none]
  unLock a hne := by
    rw [(h.unLock hT hne).2, Function.update_self]

theorem Kept.step (hT : T.Lawful) (h : Kept T b) (hok : fewReaders act b)
    (hs : T.step act b = some b') : Kept T b' := by
  cases act with
  | rLock a =>
    rw [LockTable.step] at hs
    cases ht : T.rLock b.table a with
    | none =>
      rw [ht] at hs
      exact Option.some.inj hs ▸ h
    | some t =>
      rw [ht] at hs
      obtain rfl := Option.some.inj hs
      obtain ⟨hw, hst⟩ := hT.rLock_some _ _ _ ht
      have hnot : (b.holders a).writers = 0 := by
        have hno : ¬ T.isWLocked b.table a = true := by
          rw [← hT.rLock, ht]
          simp
        rw [h.isWLocked hT] at hno
        omega
      have hok : (b.holders a).readers < exclusive - 1 := hok
      refine h.update (.inl ⟨hnot, ?_⟩) (hst.trans ?_) hw (fun hpos => ?_)
      · simp only
        omega
      · rw [h.stored a]
        by_cases hr : 0 < (b.holders a).readers
        · simp [Holders.code, hnot, hr]
        · simp [Holders.code, hnot, show (b.holders a).readers = 0 by omega]
      · simp only at hpos
        omega
  | wLock a =>
    rw [LockTable.step] at hs
    split at hs
    · rename_i hwr
      cases ht : T.wLock b.table a with
      | none =>
        rw [ht] at hs
        exact Option.some.inj hs ▸ h
      | some t =>
        rw [ht] at hs
        obtain rfl := Option.some.inj hs
        obtain ⟨hw, hst⟩ := hT.wLock_some _ _ _ ht
        have hfree : b.holders a = {} := (h.refines hT).wLock hwr a |>.1 (by simp [ht])
        refine h.update (.inr (by simp [hfree])) (hst.trans ?_) hw fun _ => hwr
        simp [Holders.code, hfree]
    · cases hs
  | rUnLock a =>
    rw [LockTable.step] at hs
    split at hs
    · rename_i hpos
      obtain rfl := Option.some.inj hs
      obtain ⟨hw, hst⟩ := h.unLock (a := a) hT (by rintro heq; simp [heq] at hpos)
      have hfew : (b.holders a).writers = 0 ∧ (b.holders a).readers < exclusive :=
        (h.excl a).resolve_right fun heq => by simp [heq] at hpos
      obtain ⟨hw0, hr⟩ := hfew
      refine h.update (.inl ⟨hw0, ?_⟩) (hst.trans ?_) hw (fun hpos => ?_)
      · simp only
        omega
      · by_cases h1 : (b.holders a).readers = 1
        · simp [Holders.code, hw0, h1]
        · simp [Holders.code, hw0, h1, show 0 < (b.holders a).readers - 1 by omega]
      · simp only at hpos
        omega
    · cases hs
  | wUnLock a =>
    rw [LockTable.step] at hs
    split at hs
    · rename_i hpos
      obtain rfl := Option.some.inj hs
      obtain ⟨hw, hst⟩ := h.unLock (a := a) hT (by rintro heq; simp [heq] at hpos)
      have heq : b.holders a = { writers := 1 } :=
        (h.excl a).resolve_left fun hno => by omega
      refine h.update (.inl ?_) (hst.trans ?_) hw (fun hpos => ?_)
      · simp [heq, exclusive]
      · simp [heq, Holders.code]
      · simp [heq] at hpos
    · cases hs
  | other x =>
    rw [LockTable.step, Option.map_eq_some_iff] at hs
    obtain ⟨t, ht, rfl⟩ := hs
    obtain ⟨hst, hw⟩ := hT.other x _ _ ht
    refine ⟨h.excl, fun a => ?_, fun a hpos => ?_⟩
    · rw [hst]
      exact h.stored a
    · exact hw a ((h.stored_eq_exclusive a).2 hpos)

theorem Kept.of_free (hfree : ∀ a, T.stored t a = none) : Kept T ⟨t, fun _ => {}⟩ where
  excl _ := .inl ⟨rfl, Nat.zero_lt_succ 254⟩
  stored a := by
    rw [hfree a]
    rfl
  writable _ hpos := absurd hpos (Nat.lt_irrefl 0)

theorem refines_run (hT : T.Lawful) (hfree : ∀ a, T.stored t a = none)
    (h : Reaches T.step fewReaders ⟨t, fun _ => {}⟩ b) : T.Refines b :=
  (h.invariant (Kept.of_free hfree) fun _ _ _ hk hok hs => hk.step hT hok hs).refines hT

/-- `n` readers are all granted the lock while the table holds their number. -/
theorem reaches_readers (hT : T.Lawful) (hfree : ∀ a, T.stored t a = none) (a n : Nat)
    (hn : n ≤ exclusive) :
    ∃ b, Reaches T.step anyStep ⟨t, fun _ => {}⟩ b ∧ b.holders a = { readers := n } ∧
      T.writable b.table = T.writable t ∧ T.stored b.table a = if n = 0 then none else some n := by
  induction n with
  | zero => exact ⟨_, .refl, rfl, rfl, hfree a⟩
  | succ n ih =>
    obtain ⟨b, hb, hold, hw, hst⟩ := ih (by omega)
    have hnot : T.rLock b.table a ≠ none := by
      rw [ne_eq, hT.rLock, hT.isWLocked, hst]
      split
      · simp
      · simp only [Option.some.injEq, not_and]
        omega
    obtain ⟨t', ht⟩ := Option.ne_none_iff_exists'.1 hnot
    obtain ⟨hw', hst'⟩ := hT.rLock_some _ _ _ ht
    refine ⟨_, hb.tail trivial (a := .rLock a) (by rw [LockTable.step, ht]), ?_, ?_, ?_⟩
    · simp [hold]
    · exact hw'.trans hw
    · rw [hst', Function.update_self, hst]
      split <;> simp_all

/-- The 255th reader makes the readers look like a writer, and one of them unlocks for all. -/
theorem readers_like_writer (hT : T.Lawful) (hfree : ∀ a, T.stored t a = none)
    (hw : T.writable t = true) :
    ∃ b, Reaches T.step anyStep ⟨t, fun _ => {}⟩ b ∧ b.holders 0 = { readers := 255 } ∧
      T.isWLocked b.table 0 = true ∧ T.stored (T.unLock b.table 0) 0 = none := by
  obtain ⟨b, hb, hold, hwb, hst⟩ := reaches_readers hT hfree 0 exclusive (Nat.le_refl _)
  rw [if_neg (by decide)] at hst
  have hlocked := (hT.isWLocked b.table 0).2 ⟨hwb.trans hw, hst⟩
  refine ⟨b, hb, hold, hlocked, ?_⟩
  rw [(hT.unLock _ _ _ hst (by decide)).2, Function.update_self, hlocked]
  rfl

instance (act : LockAct α) (b : Ledger σ) : Decidable (fewReaders act b) :=
  match act with
  | .rLock a => inferInstanceAs (Decidable ((b.holders a).readers < exclusive - 1))
  | .wLock _ | .rUnLock _ | .wUnLock _ | .other _ => inferInstanceAs (Decidable True)

end LockTable

open LockTable

/-- Both tables are reader/writer locks as long as no 255th reader asks for a lock. -/
theorem lockTables_refine (W : Type*) :
    (∀ l : Line, l.locks = ∅ → ∀ b, Reaches cacheLine.step fewReaders ⟨l, fun _ => {}⟩ b →
      cacheLine.Refines b) ∧
    (∀ e : Dir W, e.locks = ∅ → ∀ b, Reaches (dirEntry W).step fewReaders ⟨e, fun _ => {}⟩ b →
      (dirEntry W).Refines b) := by
  constructor
  · intro l hl b h
    exact refines_run cacheLine_lawful (fun a => by simp [cacheLine, hl]) h
  · intro e he b h
    exact refines_run (dirEntry_lawful W) (fun a => by simp [dirEntry, he]) h

/-- Two readers and then a writer, in a cache line and in the directory. -/
theorem lockTables_refine_writer :
    (∃ b, runs cacheLine.step fewReaders
        [.rLock 8, .rLock 8, .rUnLock 8, .rUnLock 8, .wLock 8]
        ⟨{ state := .dirty, data := fun _ => 0, ptr := 0 }, fun _ => {}⟩ = some b ∧
      cacheLine.Refines b) ∧
    ∃ b, runs (dirEntry Unit).step fewReaders
        [.rLock 8, .rLock 8, .rUnLock 8, .rUnLock 8, .wLock 8] ⟨none, fun _ => {}⟩ = some b ∧
      (dirEntry Unit).Refines b := by
  constructor
  · obtain ⟨b, hb⟩ := Option.isSome_iff_exists.1 (show (runs cacheLine.step fewReaders
      [.rLock 8, .rLock 8, .rUnLock 8, .rUnLock 8, .wLock 8]
      ⟨{ state := .dirty, data := fun _ => 0, ptr := 0 }, fun _ => {}⟩).isSome by decide)
    exact ⟨b, hb, (lockTables_refine Unit).1 _ rfl b (.of_runs hb)⟩
  · obtain ⟨b, hb⟩ := Option.isSome_iff_exists.1 (show (runs (dirEntry Unit).step fewReaders
      [.rLock 8, .rLock 8, .rUnLock 8, .rUnLock 8, .wLock 8] ⟨none, fun _ => {}⟩).isSome by decide)
    exact ⟨b, hb, (lockTables_refine Unit).2 _ rfl b (.of_runs hb)⟩

/-- 255 readers of a cache line, and of a block at home. -/
theorem not_lockTables_refine :
    (∃ b, Reaches cacheLine.step anyStep
        ⟨{ state := .dirty, data := fun _ => 0, ptr := 0 }, fun _ => {}⟩ b ∧
      b.holders 0 = { readers := 255 } ∧ cacheLine.isWLocked b.table 0 = true ∧
      cacheLine.stored (cacheLine.unLock b.table 0) 0 = none ∧ ¬ cacheLine.Refines b) ∧
    ∃ b, Reaches (dirEntry Unit).step anyStep ⟨none, fun _ => {}⟩ b ∧
      b.holders 0 = { readers := 255 } ∧ (dirEntry Unit).isWLocked b.table 0 = true ∧
      (dirEntry Unit).stored ((dirEntry Unit).unLock b.table 0) 0 = none ∧
      ¬ (dirEntry Unit).Refines b := by
  constructor
  · obtain ⟨b, hb, hold, hw, hun⟩ := readers_like_writer cacheLine_lawful
      (t := { state := .dirty, data := fun _ => 0, ptr := 0 }) (fun _ => rfl) rfl
    exact ⟨b, hb, hold, hw, hun, fun h => h.distinct 0 (by rw [hold]; rfl)⟩
  · obtain ⟨b, hb, hold, hw, hun⟩ := readers_like_writer (dirEntry_lawful Unit)
      (t := none) (fun _ => rfl) rfl
    exact ⟨b, hb, hold, hw, hun, fun h => h.distinct 0 (by rw [hold]; rfl)⟩

end HwGam.Coherence
