import HwGam.Lib.Transition
import Mathlib.Logic.Function.Basic

/-!
# The table of remote functions

`FunctionManager` keeps, for free and for member functions, a map from the function to its name
and a map from the name to the invoker that `std::bind` made of a function. A free function is known
by the bytes of its address, a member function by its class and those bytes.
-/

namespace HwGam.Mcs

open Lib (Reaches)

variable {F M K V : Type*} [DecidableEq F] [DecidableEq M] [DecidableEq K]

/-- `emplace` of a map: an entry that is there stays. -/
def emplace (m : K → Option V) (k : K) (v : V) : (K → Option V) × Bool :=
  match m k with
  | some _ => (m, false)
  | none => (Function.update m k (some v), true)

/-- `F` and `M` are the free and the member functions; an invoker is the function it calls. -/
structure FunctionManager (F M : Type*) where
  mapInvokers : String → Option F
  mapMemFuncInvokers : String → Option M
  funcPtrToKeyMap : F → Option String
  memFuncToKeyMap : M → Option String

def FunctionManager.new : FunctionManager F M :=
  ⟨fun _ => none, fun _ => none, fun _ => none, fun _ => none⟩

/-- `FunctionManager::GetFunction`. -/
def FunctionManager.getFunction (m : FunctionManager F M) (funcName : String) : Option F :=
  m.mapInvokers funcName

def FunctionManager.getMemberFunction (m : FunctionManager F M) (funcName : String) : Option M :=
  m.mapMemFuncInvokers funcName

/-- `GetFunctionName` of a free function. -/
def FunctionManager.getFunctionName (m : FunctionManager F M) (f : F) : String :=
  (m.funcPtrToKeyMap f).getD ""

/-- `GetFunctionName` of a member function. -/
def FunctionManager.getMemberFunctionName (m : FunctionManager F M) (f : M) : String :=
  (m.memFuncToKeyMap f).getD ""

/-- A map from functions to names and one from names to functions, as each kind has them. -/
abbrev Maps (K : Type*) := (K → Option String) × (String → Option K)

/-- The body of both `RegisterRemoteFunction`: the maps it leaves and what it throws. -/
def register (m : Maps K) (name : String) (f : K) : Maps K × Except String Bool :=
  let (keys, fresh) := emplace m.1 f name
  if !fresh then ((keys, m.2), .error ("Duplicate MCS_REMOTE function: " ++ name))
  else
    let (invokers, ok) := emplace m.2 name f
    if !ok then ((keys, invokers), .error ("Duplicate MCS_REMOTE function: " ++ name))
    else ((keys, invokers), .ok true)

inductive Call (F M : Type*) where
  | func (name : String) (f : F)
  | member (name : String) (f : M)
  deriving DecidableEq, Repr

def FunctionManager.funcs (m : FunctionManager F M) : Maps F := (m.funcPtrToKeyMap, m.mapInvokers)

def FunctionManager.members (m : FunctionManager F M) : Maps M :=
  (m.memFuncToKeyMap, m.mapMemFuncInvokers)

/-- `RegisterRemoteFunction`. -/
def FunctionManager.registerRemoteFunction (m : FunctionManager F M) :
    Call F M → FunctionManager F M × Except String Bool
  | .func name f =>
    let (t, r) := register m.funcs name f
    ({ m with funcPtrToKeyMap := t.1, mapInvokers := t.2 }, r)
  | .member name f =>
    let (t, r) := register m.members name f
    ({ m with memFuncToKeyMap := t.1, mapMemFuncInvokers := t.2 }, r)

def registerStep (c : Call F M) (m : FunctionManager F M) : Option (FunctionManager F M) :=
  some (m.registerRemoteFunction c).1

/-! ## The property -/

/-- A call that throws leaves the maps as they are. -/
def FunctionManager.Atomic (m : FunctionManager F M) (c : Call F M) : Prop :=
  ∀ what, (m.registerRemoteFunction c).2 = .error what → (m.registerRemoteFunction c).1 = m

/-- The name of a function leads back to it. -/
def FunctionManager.Consistent (m : FunctionManager F M) : Prop :=
  (∀ f, m.getFunctionName f ≠ "" → m.getFunction (m.getFunctionName f) = some f) ∧
    ∀ f, m.getMemberFunctionName f ≠ "" →
      m.getMemberFunction (m.getMemberFunctionName f) = some f

/-- The name of a function that is not in the table is not taken by another of its kind. -/
def nameFree : Call F M → FunctionManager F M → Prop
  | .func name f, m => m.funcPtrToKeyMap f = none → m.mapInvokers name = none
  | .member name f, m => m.memFuncToKeyMap f = none → m.mapMemFuncInvokers name = none

/-! ## One pair of maps -/

/-- Every name given to a function leads back to it. -/
def Inverse (m : Maps K) : Prop := ∀ f name, m.1 f = some name → m.2 name = some f

variable {m : Maps K} {name : String} {f : K}

theorem register_known (h : m.1 f ≠ none) :
    register m name f = (m, .error ("Duplicate MCS_REMOTE function: " ++ name)) := by
  obtain ⟨old, hold⟩ := Option.ne_none_iff_exists'.mp h
  simp [register, emplace, hold]

theorem register_taken (h : m.1 f = none) (hn : m.2 name ≠ none) :
    register m name f = ((Function.update m.1 f (some name), m.2),
      .error ("Duplicate MCS_REMOTE function: " ++ name)) := by
  obtain ⟨g, hg⟩ := Option.ne_none_iff_exists'.mp hn
  simp [register, emplace, h, hg]

theorem register_new (h : m.1 f = none) (hn : m.2 name = none) :
    register m name f = ((Function.update m.1 f (some name), Function.update m.2 name (some f)),
      .ok true) := by
  simp [register, emplace, h, hn]

/-- A call is atomic unless it names a new function after another one. -/
theorem register_atomic_iff :
    (∀ what, (register m name f).2 = .error what → (register m name f).1 = m) ↔
      (m.1 f = none → m.2 name = none) := by
  by_cases hf : m.1 f = none
  · by_cases hn : m.2 name = none
    · rw [register_new hf hn]
      simp [hn]
    · rw [register_taken hf hn]
      simp only [hf, hn, forall_const, iff_false]
      intro h
      have hmaps := congrFun (congrArg Prod.fst (h _ rfl)) f
      simp [hf] at hmaps
  · rw [register_known hf]
    simp [hf]

theorem Inverse.register (h : Inverse m) (hfree : m.1 f = none → m.2 name = none) :
    Inverse (register m name f).1 := by
  by_cases hf : m.1 f = none
  · rw [register_new hf (hfree hf)]
    intro g n hg
    simp only [Function.update_apply] at hg ⊢
    by_cases hgf : g = f
    · subst hgf
      simp_all
    · rw [if_neg hgf] at hg
      have hback := h g n hg
      have hne : n ≠ name := by
        rintro rfl
        rw [hfree hf] at hback
        cases hback
      rw [if_neg hne, hback]
  · rw [register_known hf]
    exact h

omit [DecidableEq K] in
theorem Inverse.getD {g : K} (h : Inverse m) (hne : (m.1 g).getD "" ≠ "") :
    m.2 ((m.1 g).getD "") = some g := by
  cases hg : m.1 g with
  | none => simp [hg] at hne
  | some n => exact h g n hg

/-! ## Runs of registrations -/

section
variable {m m' : FunctionManager F M}

theorem atomic_iff (m : FunctionManager F M) (c : Call F M) : m.Atomic c ↔ nameFree c m := by
  cases c with
  | func name f =>
    refine Iff.trans ?_ (register_atomic_iff (m := m.funcs))
    simp only [FunctionManager.Atomic, FunctionManager.registerRemoteFunction]
    constructor
    · intro h what herr
      have hm := h what herr
      exact Prod.ext (congrArg FunctionManager.funcPtrToKeyMap hm)
        (congrArg FunctionManager.mapInvokers hm)
    · intro h what herr
      rw [h what herr]
      rfl
  | member name f =>
    refine Iff.trans ?_ (register_atomic_iff (m := m.members))
    simp only [FunctionManager.Atomic, FunctionManager.registerRemoteFunction]
    constructor
    · intro h what herr
      have hm := h what herr
      exact Prod.ext (congrArg FunctionManager.memFuncToKeyMap hm)
        (congrArg FunctionManager.mapMemFuncInvokers hm)
    · intro h what herr
      rw [h what herr]
      rfl

/-- Both pairs of maps are inverse to each other. -/
def FunctionManager.Paired (m : FunctionManager F M) : Prop := Inverse m.funcs ∧ Inverse m.members

omit [DecidableEq F] [DecidableEq M] in
theorem FunctionManager.Paired.new : (FunctionManager.new : FunctionManager F M).Paired := by
  constructor <;> intro f name h <;> cases h

omit [DecidableEq F] [DecidableEq M] in
theorem FunctionManager.Paired.consistent (h : m.Paired) : m.Consistent :=
  ⟨fun _ => h.1.getD, fun _ => h.2.getD⟩

theorem registerStep_paired {c : Call F M} (h : m.Paired) (hc : nameFree c m)
    (hs : registerStep c m = some m') : m'.Paired := by
  cases hs
  cases c with
  | func name f => exact ⟨h.1.register hc, h.2⟩
  | member name f => exact ⟨h.1, h.2.register hc⟩

/-- While no new function takes the name of another, names lead back to their functions; and it is
exactly such a call that throws and leaves something behind. -/
theorem consistent_of_reaches (h : Reaches registerStep nameFree .new m) :
    m.Consistent ∧ ∀ c, m.Atomic c ↔ nameFree c m := by
  have hp : m.Paired := h.invariant .new fun c t t' => registerStep_paired
  exact ⟨hp.consistent, atomic_iff m⟩

end

/-- Two functions, one registered twice. -/
theorem consistent_of_reaches_twice : ∃ m : FunctionManager Nat Nat,
    (Reaches registerStep nameFree .new m ∧ m.getFunctionName 1 = "g") ∧ m.Consistent := by
  have h0 : Reaches registerStep nameFree (.new : FunctionManager Nat Nat) .new := .refl
  have h1 := h0.tail (a := Call.func "f" 0) (fun _ => rfl) rfl
  have h2 := h1.tail (a := Call.func "g" 1) (fun _ => rfl) rfl
  have h3 := h2.tail (a := Call.func "g" 0) (fun h => absurd h (by decide)) rfl
  exact ⟨_, ⟨h3, rfl⟩, (consistent_of_reaches h3).1⟩

/-- The second function is registered under the name of the first: the call throws, and from then
on its name leads to the first. -/
theorem not_consistent_same_name :
    ¬ ∀ m : FunctionManager Nat Nat, Reaches registerStep Lib.anyStep .new m →
      m.Consistent ∧ ∀ c, m.Atomic c := by
  intro h
  have h0 : Reaches registerStep Lib.anyStep (.new : FunctionManager Nat Nat) .new := .refl
  have h1 := h0.tail (a := Call.func "f" 0) trivial rfl
  have h2 := h1.tail (a := Call.func "f" 1) trivial rfl
  have hback := (h _ h2).1.1 1 (by decide)
  revert hback
  decide

end HwGam.Mcs
