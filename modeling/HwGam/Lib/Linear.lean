import Mathlib.Data.List.Induction
import Mathlib.Data.List.Nodup
import Mathlib.Tactic.Common

/-!
# Linearizable histories

An object is called by many callers at a time. Its history has the calls and the returns, and between
them the points at which the object acts for a call and what the caller gets there. The history is
linearizable if the calls can be put in an order in which a caller after the other gets the same, and
which is that of the calls and returns where these tell one.
-/

namespace HwGam.Lib

variable {σ κ ρ : Type*}

inductive Mark (κ ρ : Type*)
  | call (k : κ)
  /-- the object acts for call `k`, which gets `r` -/
  | point (k : κ) (r : ρ)
  | ret (k : κ)

/-- What the object does for one caller after the other. -/
structure Object (σ κ ρ : Type*) where
  next : σ → κ → σ
  out : σ → κ → ρ

namespace Object

variable (O : Object σ κ ρ)

/-- The state after the calls of `S`. -/
def run (s : σ) (S : List (κ × ρ)) : σ := S.foldl (fun s x => O.next s x.1) s

/-- One after the other, the calls get what `S` says. -/
def Legal (s : σ) : List (κ × ρ) → Prop
  | [] => True
  | x :: S => x.2 = O.out s x.1 ∧ Legal (O.next s x.1) S

variable {O} {s : σ} {S S' : List (κ × ρ)}

theorem run_append : O.run s (S ++ S') = O.run (O.run s S) S' := by
  simp [run]

theorem legal_append : O.Legal s (S ++ S') ↔ O.Legal s S ∧ O.Legal (O.run s S) S' := by
  induction S generalizing s with
  | nil => simp [Legal, run]
  | cons x S ih => simp [Legal, ih, run, and_assoc]

/-- A call that changes nothing can be left out. -/
theorem Legal.without (h : O.Legal s S) (p : κ × ρ → Bool)
    (hp : ∀ x ∈ S, p x = false → ∀ s, O.next s x.1 = s) :
    O.Legal s (S.filter p) ∧ O.run s (S.filter p) = O.run s S := by
  induction S generalizing s with
  | nil => exact ⟨h, rfl⟩
  | cons x S ih =>
    obtain ⟨hl, hr⟩ := ih h.2 fun y hy => hp y (List.mem_cons_of_mem _ hy)
    cases hx : p x with
    | true =>
      rw [List.filter_cons_of_pos hx]
      exact ⟨⟨h.1, hl⟩, hr⟩
    | false =>
      have hs := hp x List.mem_cons_self hx s
      rw [List.filter_cons_of_neg (by simp [hx])]
      rw [hs] at hl hr
      refine ⟨hl, hr.trans ?_⟩
      simp [run, hs]

end Object

/-! ## Histories -/

def Mark.point? : Mark κ ρ → Option (κ × ρ)
  | .point k r => some (k, r)
  | _ => none

def points (H : List (Mark κ ρ)) : List (κ × ρ) := H.filterMap Mark.point?

/-- What call `k` has got last. -/
def Got (P : List (κ × ρ)) (k : κ) (r : ρ) : Prop :=
  ∃ pre post, P = pre ++ (k, r) :: post ∧ ∀ x ∈ post, x.1 ≠ k

/-- `S` is a linearization of the history. -/
structure Linearizes (O : Object σ κ ρ) (s : σ) (H : List (Mark κ ρ)) (S : List (κ × ρ)) : Prop where
  nodup : (S.map Prod.fst).Nodup
  legal : O.Legal s S
  called : ∀ x ∈ S, .call x.1 ∈ H
  returned : ∀ pre k post, H = pre ++ .ret k :: post → ∃ r, (k, r) ∈ S ∧ Got (points pre) k r
  order : ∀ pre k post, H = pre ++ .ret k :: post → ∀ x ∈ S, .call x.1 ∈ post →
    ∃ S₁ S₂, S = S₁ ++ S₂ ∧ k ∈ S₁.map Prod.fst ∧ x ∈ S₂

/-- The histories of an object that acts for each call at one moment between its call and its return,
and does so again only where that changes nothing. -/
inductive Atomic (O : Object σ κ ρ) (s : σ) : List (Mark κ ρ) → Prop
  | start : Atomic O s []
  | call {H : List (Mark κ ρ)} {k : κ} (h : Atomic O s H) (hk : .call k ∉ H) :
    Atomic O s (H ++ [.call k])
  | point {H : List (Mark κ ρ)} {k : κ} {r : ρ} (h : Atomic O s H) (hc : .call k ∈ H)
      (hr : .ret k ∉ H) (hagain : (∃ r, (k, r) ∈ points H) → ∀ s, O.next s k = s)
      (hout : r = O.out (O.run s (points H)) k) : Atomic O s (H ++ [.point k r])
  | ret {H : List (Mark κ ρ)} {k : κ} (h : Atomic O s H) (hp : ∃ r, (k, r) ∈ points H) :
    Atomic O s (H ++ [.ret k])

variable {O : Object σ κ ρ} {s : σ} {H : List (Mark κ ρ)} {P S : List (κ × ρ)} {k k' : κ} {r r' : ρ}

theorem points_append (H H' : List (Mark κ ρ)) : points (H ++ H') = points H ++ points H' :=
  List.filterMap_append

theorem Got.of_ne (h : Got P k r) (hk : k' ≠ k) : Got (P ++ [(k', r')]) k r := by
  obtain ⟨pre, post, rfl, hpost⟩ := h
  refine ⟨pre, post ++ [(k', r')], by simp, fun x hx => ?_⟩
  rcases List.mem_append.mp hx with hx | hx
  · exact hpost x hx
  · rw [List.mem_singleton.mp hx]
    exact hk

theorem Got.last : Got (P ++ [(k, r)]) k r := ⟨P, [], rfl, by simp⟩

/-- A history that ends with `m`, cut at one of its marks. -/
theorem append_singleton_cases {m x : Mark κ ρ} {pre post : List (Mark κ ρ)}
    (h : H ++ [m] = pre ++ x :: post) :
    (pre = H ∧ x = m ∧ post = []) ∨ ∃ rest, post = rest ++ [m] ∧ H = pre ++ x :: rest := by
  induction post using List.reverseRecOn with
  | nil =>
    obtain ⟨h₁, h₂⟩ := List.append_inj' h rfl
    exact .inl ⟨h₁.symm, (List.singleton_inj.mp h₂).symm, rfl⟩
  | append_singleton rest y _ =>
    rw [← List.cons_append, ← List.append_assoc] at h
    obtain ⟨h₁, h₂⟩ := List.append_inj' h rfl
    exact .inr ⟨rest, by rw [List.singleton_inj.mp h₂], h₁⟩

/-- A linearization, with what the proof keeps of the points. -/
structure Keeps (O : Object σ κ ρ) (s : σ) (H : List (Mark κ ρ)) (S : List (κ × ρ)) : Prop
    extends Linearizes O s H S where
  run : O.run s S = O.run s (points H)
  got : ∀ x ∈ S, Got (points H) x.1 x.2
  keys : ∀ x ∈ points H, x.1 ∈ S.map Prod.fst

theorem Keeps.call (h : Keeps O s H S) (hk : .call k ∉ H) : Keeps O s (H ++ [.call k]) S := by
  have hpoints : points (H ++ [.call k]) = points H := by simp [points, Mark.point?]
  refine ⟨⟨h.nodup, h.legal, fun x hx => List.mem_append_left _ (h.called x hx), ?_, ?_⟩,
    by rw [hpoints, h.run], by rw [hpoints]; exact h.got, by rw [hpoints]; exact h.keys⟩
  · intro pre k' post hcut
    obtain ⟨-, heq, -⟩ | ⟨rest, -, heq⟩ := append_singleton_cases hcut
    · cases heq
    · exact h.returned pre k' rest heq
  · intro pre k' post hcut x hx hcall
    obtain ⟨-, heq, -⟩ | ⟨rest, rfl, heq⟩ := append_singleton_cases hcut
    · cases heq
    · rcases List.mem_append.mp hcall with hcall | hcall
      · exact h.order pre k' rest heq x hx hcall
      · obtain rfl : x.1 = k := by simpa using hcall
        exact absurd (h.called x hx) hk

theorem Keeps.ret (h : Keeps O s H S) (hp : ∃ r, (k, r) ∈ points H) :
    Keeps O s (H ++ [.ret k]) S := by
  have hpoints : points (H ++ [.ret k]) = points H := by simp [points, Mark.point?]
  refine ⟨⟨h.nodup, h.legal, fun x hx => List.mem_append_left _ (h.called x hx), ?_, ?_⟩,
    by rw [hpoints, h.run], by rw [hpoints]; exact h.got, by rw [hpoints]; exact h.keys⟩
  · intro pre k' post hcut
    obtain ⟨rfl, heq, -⟩ | ⟨rest, -, heq⟩ := append_singleton_cases hcut
    · obtain rfl : k' = k := by simpa using heq
      obtain ⟨r, hr⟩ := hp
      obtain ⟨x, hx, rfl⟩ := List.mem_map.mp (h.keys _ hr)
      exact ⟨x.2, hx, h.got x hx⟩
    · exact h.returned pre k' rest heq
  · intro pre k' post hcut x hx hcall
    obtain ⟨-, -, rfl⟩ | ⟨rest, rfl, heq⟩ := append_singleton_cases hcut
    · cases hcall
    · rcases List.mem_append.mp hcall with hcall | hcall
      · exact h.order pre k' rest heq x hx hcall
      · simp at hcall

/-- Where the object acts, the call moves to the end. -/
theorem Keeps.point (h : Keeps O s H S) (hc : .call k ∈ H) (hr : .ret k ∉ H)
    (hagain : (∃ r, (k, r) ∈ points H) → ∀ s, O.next s k = s)
    (hout : r = O.out (O.run s (points H)) k) :
    ∃ S', Keeps O s (H ++ [.point k r]) S' := by
  classical
  have hpoints : points (H ++ [.point k r]) = points H ++ [(k, r)] := by simp [points, Mark.point?]
  obtain ⟨hlegal, hrun⟩ := h.legal.without (fun x => decide (x.1 ≠ k)) (by
    intro x hx hk
    obtain rfl : x.1 = k := by simpa using hk
    obtain ⟨pre, post, heq, -⟩ := h.got x hx
    exact hagain ⟨x.2, by simp [heq]⟩)
  have hsub : ∀ x ∈ S.filter (fun x => decide (x.1 ≠ k)), x ∈ S ∧ x.1 ≠ k := by
    intro x hx
    simpa using hx
  have hkeep {k' : κ} {post : List (Mark κ ρ)} {pre : List (Mark κ ρ)}
      (heq : H = pre ++ .ret k' :: post) : k' ≠ k := by
    rintro rfl
    exact hr (by simp [heq])
  refine ⟨S.filter (fun x => decide (x.1 ≠ k)) ++ [(k, r)], ⟨?_, ?_, ?_, ?_, ?_⟩, ?_, ?_, ?_⟩
  · rw [List.map_append, List.nodup_append]
    refine ⟨h.nodup.sublist (List.filter_sublist.map _), by simp, fun a ha b hb => ?_⟩
    obtain ⟨x, hx, rfl⟩ := List.mem_map.mp ha
    obtain rfl : b = k := by simpa using hb
    exact (hsub x hx).2
  · rw [Object.legal_append, hrun, h.run]
    exact ⟨hlegal, hout, trivial⟩
  · intro x hx
    rcases List.mem_append.mp hx with hx | hx
    · exact List.mem_append_left _ (h.called x (hsub x hx).1)
    · rw [List.mem_singleton.mp hx]
      exact List.mem_append_left _ hc
  · intro pre k' post hcut
    obtain ⟨-, heq, -⟩ | ⟨rest, -, heq⟩ := append_singleton_cases hcut
    · cases heq
    · obtain ⟨r', hmem, hgot⟩ := h.returned pre k' rest heq
      exact ⟨r', List.mem_append_left _ (by simp [hmem, hkeep heq]), hgot⟩
  · intro pre k' post hcut x hx hcall
    obtain ⟨-, heq, -⟩ | ⟨rest, rfl, heq⟩ := append_singleton_cases hcut
    · cases heq
    · have hcall : .call x.1 ∈ rest := by simpa using hcall
      rcases List.mem_append.mp hx with hx | hx
      · obtain ⟨S₁, S₂, rfl, hk', hx₂⟩ := h.order pre k' rest heq x (hsub x hx).1 hcall
        refine ⟨S₁.filter (fun x => decide (x.1 ≠ k)),
          S₂.filter (fun x => decide (x.1 ≠ k)) ++ [(k, r)], by simp, ?_, ?_⟩
        · obtain ⟨y, hy, rfl⟩ := List.mem_map.mp hk'
          exact List.mem_map.mpr ⟨y, by simp [hy, hkeep heq], rfl⟩
        · exact List.mem_append_left _ (by simp [hx₂, (hsub x hx).2])
      · obtain ⟨r', hmem, -⟩ := h.returned pre k' rest heq
        exact ⟨_, _, rfl, List.mem_map.mpr ⟨(k', r'), by simp [hmem, hkeep heq], rfl⟩, hx⟩
  · rw [hpoints, Object.run_append, Object.run_append, hrun, h.run]
  · intro x hx
    rw [hpoints]
    rcases List.mem_append.mp hx with hx | hx
    · exact (h.got x (hsub x hx).1).of_ne (hsub x hx).2.symm
    · rw [List.mem_singleton.mp hx]
      exact Got.last
  · intro x hx
    rw [hpoints] at hx
    by_cases hk : x.1 = k
    · simp [hk]
    · rcases List.mem_append.mp hx with hx | hx
      · obtain ⟨y, hy, heq⟩ := List.mem_map.mp (h.keys x hx)
        exact List.mem_map.mpr ⟨y, List.mem_append_left _ (by simp [hy, heq, hk]), heq⟩
      · rw [List.mem_singleton.mp hx] at hk
        exact absurd rfl hk

/-- An object that acts at one moment for each call has linearizable histories. -/
theorem Atomic.linearizable (h : Atomic O s H) : ∃ S, Linearizes O s H S := by
  suffices hf : ∃ S, Keeps O s H S by
    obtain ⟨S, hS⟩ := hf
    exact ⟨S, hS.toLinearizes⟩
  induction h with
  | start => exact ⟨[], ⟨by simp, trivial, by simp, by simp, by simp⟩, rfl, by simp, by simp [points]⟩
  | call _ hk ih =>
    obtain ⟨S, hS⟩ := ih
    exact ⟨S, hS.call hk⟩
  | point _ hc hr hagain hout ih =>
    obtain ⟨S, hS⟩ := ih
    exact hS.point hc hr hagain hout
  | ret _ hp ih =>
    obtain ⟨S, hS⟩ := ih
    exact ⟨S, hS.ret hp⟩

theorem Atomic.rets (h : Atomic O s H) {T : List (Mark κ ρ)}
    (ht : ∀ m ∈ T, ∃ k, m = .ret k ∧ ∃ r, (k, r) ∈ points H) : Atomic O s (H ++ T) := by
  induction T generalizing H with
  | nil => simpa using h
  | cons m T ih =>
    obtain ⟨k, rfl, hp⟩ := ht m List.mem_cons_self
    rw [List.append_cons]
    refine ih (h.ret hp) fun m hm => ?_
    obtain ⟨k', rfl, r, hr⟩ := ht m (List.mem_cons_of_mem _ hm)
    exact ⟨k', rfl, r, by rw [points_append]; exact List.mem_append_left _ hr⟩

end HwGam.Lib
