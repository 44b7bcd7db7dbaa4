import Mathlib.Algebra.BigOperators.Group.Finset.Piecewise
import Mathlib.Data.Finset.Dedup
import Mathlib.Tactic.Common

/-!
# Split requests

A request is served part by part. A part is served at once, or waits for an answer, or parks the
whole request, whose next try starts from its first part. A counter has one for each answer that is
due and one for a parked request; the requester is told when it is at zero. It may be told by the
call's return, if that is its first try.
-/

namespace HwGam.Lib

variable {ι : Type*} [DecidableEq ι]

/-- The account of one request. -/
@[ext]
structure Account (ι : Type*) where
  /-- the parts its loop has not reached, while it is in hand -/
  hand : Option (List ι)
  waits : ι → Nat
  parked : ι → Nat
  served : ι → Nat
  counter : Int
  told : Nat
  /-- how often a part had to wait or parked the request -/
  opened : Nat
  /-- the request has been parked, and this is another try -/
  again : Bool
  /-- how often the requester was told by a return -/
  returned : Nat

namespace Account

variable {parts : List ι} {a a' : Account ι} {i : ι}

inductive Step (parts : List ι) (a : Account ι) : Account ι → Prop
  | serve (i : ι) (is : List ι) (hh : a.hand = some (i :: is)) :
    Step parts a { a with
      hand := some is, served := Function.update a.served i (a.served i + 1) }
  | wait (i : ι) (is : List ι) (hh : a.hand = some (i :: is)) (hw : a.waits i = 0) :
    Step parts a { a with
      hand := some is, waits := Function.update a.waits i 1, counter := a.counter + 1
      opened := a.opened + 1 }
  | park (i : ι) (is : List ι) (hh : a.hand = some (i :: is)) :
    Step parts a { a with
      hand := none, parked := Function.update a.parked i (a.parked i + 1)
      counter := a.counter + 1, opened := a.opened + 1 }
  | finish (hh : a.hand = some []) (hc : a.counter ≠ 0) : Step parts a { a with hand := none }
  | tell (hh : a.hand = some []) (hc : a.counter = 0) :
    Step parts a { a with hand := none, told := a.told + 1 }
  | returns (hh : a.hand = some []) (hc : a.counter = 0) (ha : a.again = false) :
    Step parts a { a with hand := none, told := a.told + 1, returned := a.returned + 1 }
  | resume (i : ι) (hi : i ∈ parts) (hh : a.hand = none) (n : Nat) (hp : a.parked i = n + 1) :
    Step parts a { a with
      hand := some parts, parked := Function.update a.parked i n, counter := a.counter - 1
      again := true }
  | answer (i : ι) (hi : i ∈ parts) (hh : a.hand = none) (hw : a.waits i = 1) :
    Step parts a { a with
      waits := Function.update a.waits i 0
      served := Function.update a.served i (a.served i + 1), counter := a.counter - 1
      told := if a.counter - 1 = 0 then a.told + 1 else a.told }

/-- A request that has just been taken in hand. -/
def start (parts : List ι) : Account ι :=
  ⟨some parts, fun _ => 0, fun _ => 0, fun _ => 0, 0, 0, 0, false, 0⟩

/-- A request that does not exist yet. -/
def blank : Account ι := ⟨none, fun _ => 0, fun _ => 0, fun _ => 0, 0, 0, 0, false, 0⟩

/-- The answers that are due. -/
def due (parts : List ι) (a : Account ι) : Nat := ∑ i ∈ parts.toFinset, a.waits i

/-- How often the request is parked. -/
def queued (parts : List ι) (a : Account ι) : Nat := ∑ i ∈ parts.toFinset, a.parked i

/-- Nothing is left of the request. -/
def Closed (parts : List ι) (a : Account ι) : Prop :=
  a.hand = none ∧ a.queued parts = 0 ∧ a.due parts = 0

instance (parts : List ι) (a : Account ι) : Decidable (a.Closed parts) :=
  inferInstanceAs (Decidable (_ ∧ _))

/-- The parts its loop has not reached. -/
def rest (a : Account ι) : List ι := a.hand.getD []

/-- How often part `i` has been served or will be. -/
def total (parts : List ι) (a : Account ι) (i : ι) : Nat :=
  a.served i + a.waits i + a.rest.count i + a.queued parts

structure Balanced (parts : List ι) (a : Account ι) : Prop where
  rest : a.rest <:+ parts
  once : a.queued parts ≤ 1 ∧ (a.hand ≠ none → a.queued parts = 0)
  counter : a.counter = a.due parts + a.queued parts
  told : a.told = if a.Closed parts then 1 else 0
  covered : ∀ i ∈ parts, 1 ≤ a.total parts i
  first : a.hand ≠ none → a.again = false → a.opened = a.due parts
  returned : a.returned ≤ a.told ∧ (a.returned ≠ 0 → a.opened = 0)

/-- The value at one of the parts goes from `m` to `n`. -/
theorem sum_update {m n : Nat} {f : ι → Nat} (hi : i ∈ parts) (hm : f i = m) :
    (∑ j ∈ parts.toFinset, Function.update f i n j) + m = (∑ j ∈ parts.toFinset, f j) + n := by
  have hi' : i ∈ parts.toFinset := List.mem_toFinset.mpr hi
  rw [Finset.sum_update_of_mem hi', Finset.sum_eq_add_sum_sdiff_singleton_of_mem hi' f, hm]
  omega

theorem Balanced.start (parts : List ι) : (start parts).Balanced parts where
  rest := List.suffix_refl _
  once := by simp [Account.start, queued]
  counter := by simp [Account.start, due, queued]
  told := by simp [Account.start, Closed]
  covered i hi := by
    have := List.one_le_count_iff.mpr hi
    simp only [total, Account.rest, Account.start, Option.getD_some]
    omega
  first _ _ := by simp [Account.start, due]
  returned := by simp [Account.start]

theorem Balanced.mem (h : a.Balanced parts) {is : List ι} (hh : a.hand = some (i :: is)) :
    i ∈ parts := by
  have hr : a.rest = i :: is := by simp [Account.rest, hh]
  exact (hr ▸ h.rest).subset List.mem_cons_self

/-- Where something is left, the requester has not been told. -/
theorem Balanced.told_eq_zero (h : a.Balanced parts) (hc : ¬ a.Closed parts) : a.told = 0 := by
  rw [h.told, if_neg hc]

/-- Only a request that is parked after its first part has been reached is served again. -/
theorem Step.total (hs : Step parts a a') (h : a.Balanced parts) (hn : parts.Nodup) {j : ι}
    (hj : j ∈ parts) : a.total parts j ≤ a'.total parts j ∧
      ((∀ i is, a.hand = some (i :: is) → a'.hand = none → i :: is = parts) →
        a'.total parts j = a.total parts j) := by
  cases hs with
  | serve i is hh =>
    have heq : Account.total parts { a with
        hand := some is, served := Function.update a.served i (a.served i + 1) } j =
        a.total parts j := by
      unfold Account.total Account.rest queued
      by_cases hji : j = i
      · subst hji
        simp [hh]
        omega
      · simp [hh, hji, List.count_cons_of_ne (Ne.symm hji)]
    exact ⟨heq.ge, fun _ => heq⟩
  | wait i is hh hw =>
    have heq : Account.total parts { a with
        hand := some is, waits := Function.update a.waits i 1, counter := a.counter + 1
        opened := a.opened + 1 } j = a.total parts j := by
      unfold Account.total Account.rest queued
      by_cases hji : j = i
      · subst hji
        simp [hh, hw]
        omega
      · simp [hh, hji, List.count_cons_of_ne (Ne.symm hji)]
    exact ⟨heq.ge, fun _ => heq⟩
  | park i is hh =>
    have hr : a.rest = i :: is := by simp [Account.rest, hh]
    have hq := sum_update (n := a.parked i + 1) (h.mem hh) (f := a.parked) rfl
    have hle : (i :: is).count j ≤ 1 := by
      have hsuf : i :: is <:+ parts := hr ▸ h.rest
      exact List.nodup_iff_count_le_one.mp (hn.sublist hsuf.sublist) j
    simp only [Account.total, hr, queued] at hq ⊢
    simp only [Account.rest, Option.getD_none, List.count_nil]
    refine ⟨by omega, fun hlate => ?_⟩
    have hcount : (i :: is).count j = 1 := by
      rw [hlate i is hh trivial]
      exact List.count_eq_one_of_mem hn hj
    omega
  | finish hh | tell hh | returns hh =>
    simp [Account.total, Account.rest, queued, hh]
  | resume i hi hh n hp =>
    have hq := sum_update (n := n) hi hp
    have hcount := List.count_eq_one_of_mem hn hj
    simp only [Account.total, Account.rest, hh, queued, Option.getD_none, Option.getD_some,
      List.count_nil] at hq ⊢
    omega
  | answer i hi hh hw =>
    have heq : Account.total parts { a with
        waits := Function.update a.waits i 0
        served := Function.update a.served i (a.served i + 1), counter := a.counter - 1
        told := if a.counter - 1 = 0 then a.told + 1 else a.told } j = a.total parts j := by
      unfold Account.total Account.rest queued
      by_cases hji : j = i
      · subst hji
        simp [hw]
      · simp [hji]
    exact ⟨heq.ge, fun _ => heq⟩

theorem Balanced.not_closed_of_waits (hi : i ∈ parts) (hw : a.waits i = 1) : ¬ a.Closed parts := by
  rintro ⟨-, -, hd⟩
  have := Finset.sum_eq_zero_iff.mp hd i (List.mem_toFinset.mpr hi)
  omega

theorem Balanced.not_closed_of_parked {n : Nat} (hi : i ∈ parts) (hp : a.parked i = n + 1) :
    ¬ a.Closed parts := by
  rintro ⟨-, hq, -⟩
  have := Finset.sum_eq_zero_iff.mp hq i (List.mem_toFinset.mpr hi)
  omega

/-- Nothing happens to a request any more of which nothing is left. -/
theorem Step.not_closed (hs : Step parts a a') : ¬ a.Closed parts := by
  cases hs with
  | serve i is hh | wait i is hh | park i is hh | finish hh | tell hh | returns hh =>
    simp [Closed, hh]
  | resume i hi hh n hp => exact Balanced.not_closed_of_parked hi hp
  | answer i hi hh hw => exact Balanced.not_closed_of_waits hi hw

theorem Step.balanced (hs : Step parts a a') (h : a.Balanced parts) (hn : parts.Nodup) :
    a'.Balanced parts := by
  have hcov : ∀ j ∈ parts, 1 ≤ a'.total parts j := fun j hj =>
    (h.covered j hj).trans (hs.total h hn hj).1
  have htail {i : ι} {is : List ι} (hh : a.hand = some (i :: is)) : is <:+ parts := by
    have hr : a.rest = i :: is := by simp [Account.rest, hh]
    exact (List.suffix_cons i is).trans (hr ▸ h.rest)
  have ht : a.told = 0 := h.told_eq_zero hs.not_closed
  have hret : a.returned = 0 := Nat.le_zero.mp (ht ▸ h.returned.1)
  have hc := h.counter
  cases hs with
  | serve i is hh =>
    refine ⟨htail hh, ⟨h.once.1, fun _ => h.once.2 (by simp [hh])⟩, hc, ?_, hcov,
      fun _ ha => h.first (by simp [hh]) ha, h.returned⟩
    simp [Closed, ht]
  | wait i is hh hw =>
    have hd := sum_update (n := 1) (h.mem hh) hw
    have hf := h.first (by simp [hh])
    refine ⟨htail hh, ⟨h.once.1, fun _ => h.once.2 (by simp [hh])⟩, ?_, ?_, hcov, fun _ ha => ?_,
      by simp [hret]⟩
    · simp only [due, queued] at hc ⊢
      omega
    · simp [Closed, ht]
    · have hf := hf ha
      simp only [due] at hf ⊢
      omega
  | park i is hh =>
    have hq := sum_update (n := a.parked i + 1) (h.mem hh) (f := a.parked) rfl
    have h0 := h.once.2 (by simp [hh])
    have hone : (∑ j ∈ parts.toFinset, Function.update a.parked i (a.parked i + 1) j) = 1 := by
      simp only [queued] at h0
      omega
    refine ⟨List.nil_suffix, ⟨hone.le, fun hne => absurd rfl hne⟩, ?_, ?_, hcov,
      fun hne => absurd rfl hne, by simp [hret]⟩
    · simp only [due, queued, hone] at hc h0 ⊢
      omega
    · simp [Closed, queued, hone, ht]
  | finish hh hne =>
    have h0 := h.once.2 (by simp [hh])
    refine ⟨List.nil_suffix, ⟨h.once.1, fun hne => absurd rfl hne⟩, hc, ?_, hcov,
      fun hne => absurd rfl hne, h.returned⟩
    rw [if_neg, ht]
    rintro ⟨-, -, hd⟩
    simp only [due, queued] at hc h0 hd
    omega
  | tell hh h0' =>
    have h0 := h.once.2 (by simp [hh])
    refine ⟨List.nil_suffix, ⟨h.once.1, fun hne => absurd rfl hne⟩, hc, ?_, hcov,
      fun hne => absurd rfl hne, by simp [hret]⟩
    rw [if_pos, ht]
    refine ⟨rfl, h0, ?_⟩
    simp only [due, queued] at hc h0 ⊢
    omega
  | returns hh h0' ha =>
    have h0 := h.once.2 (by simp [hh])
    have hd : a.due parts = 0 := by omega
    refine ⟨List.nil_suffix, ⟨h.once.1, fun hne => absurd rfl hne⟩, hc, ?_, hcov,
      fun hne => absurd rfl hne, by simp [hret, ht], fun _ => (h.first (by simp [hh]) ha).trans hd⟩
    rw [if_pos, ht]
    exact ⟨rfl, h0, hd⟩
  | resume i hi hh n hp =>
    have hq := sum_update (n := n) hi hp
    have hle := h.once.1
    have hzero : (∑ j ∈ parts.toFinset, Function.update a.parked i n j) = 0 := by
      simp only [queued] at hle
      omega
    refine ⟨List.suffix_refl _, ⟨by simp [queued, hzero], fun _ => hzero⟩, ?_, ?_, hcov,
      fun _ ha => absurd ha (by simp), h.returned⟩
    · simp only [due, queued] at hq hc hzero ⊢
      omega
    · simp [Closed, ht]
  | answer i hi hh hw =>
    have hd := sum_update (n := 0) hi hw
    refine ⟨h.rest, h.once, ?_, ?_, hcov, fun hne => absurd hh hne, by simp [hret]⟩
    · simp only [due, queued] at hd hc ⊢
      omega
    · have hiff : Closed parts { a with
          waits := Function.update a.waits i 0
          served := Function.update a.served i (a.served i + 1), counter := a.counter - 1
          told := if a.counter - 1 = 0 then a.told + 1 else a.told } ↔ a.counter - 1 = 0 := by
        simp only [Closed, due, queued, hh, true_and] at hd hc ⊢
        omega
      rw [if_congr hiff rfl rfl]
      simp only [ht, zero_add]

/-- Once the requester is told, all parts have been served, and nothing is left. -/
theorem Balanced.of_told (h : a.Balanced parts) (ht : a.told ≠ 0) :
    a.Closed parts ∧ ∀ i ∈ parts, 1 ≤ a.served i := by
  have hc : a.Closed parts := by
    by_contra hc
    exact ht (h.told_eq_zero hc)
  refine ⟨hc, fun i hi => ?_⟩
  obtain ⟨hh, hq, hd⟩ := hc
  have hw : a.waits i = 0 := Finset.sum_eq_zero_iff.mp hd i (List.mem_toFinset.mpr hi)
  have hcov := h.covered i hi
  simp only [total, Account.rest, hh, hq, hw, Option.getD_none, List.count_nil] at hcov
  omega

end Account

end HwGam.Lib
