import HwGam.Coherence.Protocol
import HwGam.Coherence.System

/-!
# The blocks of a run

A step of the whole memory is a step of at most one block, so every block of a reachable state is a
reachable block, and the protocol invariant holds for it.
-/

namespace HwGam.Coherence

open Lib

variable {V : Type*}

namespace Layout

variable [DecidableEq V] {l : Layout V} {s s' : Sys V} {a : SysAct V} {f : Slack} {mem : Nat → Data}

@[simp] theorem blk_settle (l : Layout V) (v : V) (i : Nat) (s : Sys V) :
    (l.settle v i s).blk = s.blk := by
  unfold settle
  split <;> rfl

/-- A handler of block `i` has run. -/
structure Ran (l : Layout V) (a : SysAct V) (s : Sys V) (i : Nat) (x : Act V) (b : Block V)
    (s' : Sys V) : Prop where
  target : l.target a s = some (i, x)
  step : Coherence.step i x (s.blk i) = some b
  eq : s' = { l.settle (l.workerAt i x.place) i
      ⟨s.toControl.records i x.isAccess (newEvents (s.blk i) b), Function.update s.blk i b⟩ with
    toControl := l.inHand a s (l.settle (l.workerAt i x.place) i
      ⟨s.toControl.records i x.isAccess (newEvents (s.blk i) b), Function.update s.blk i b⟩) }

theorem Ran.blk {i : Nat} {x : Act V} {b : Block V} (h : l.Ran a s i x b s') :
    s'.blk = Function.update s.blk i b := by
  rw [h.eq]
  simp

/-- A step of the control alone, or a handler of a block. -/
theorem step_cases (h : l.step a s = some s') :
    (s'.blk = s.blk ∧ l.target a s = none) ∨ ∃ i x b, l.Ran a s i x b s' := by
  have hrun (h : ((l.target a s).bind fun x =>
      (l.act x.1 x.2 s).map fun s' => { s' with toControl := l.inHand a s s' }) = some s') :
      ∃ i x b, l.Ran a s i x b s' := by
    obtain ⟨⟨i, x⟩, ht, h⟩ := Option.bind_eq_some_iff.mp h
    obtain ⟨t, hact, rfl⟩ := Option.map_eq_some_iff.mp h
    obtain ⟨b, hb, rfl⟩ := Option.map_eq_some_iff.mp hact
    exact ⟨i, x, b, ht, hb, rfl⟩
  cases a with
  | issue q =>
    left
    simp only [step, Option.ite_none_right_eq_some, Option.some.injEq] at h
    obtain ⟨-, rfl⟩ := h
    exact ⟨rfl, rfl⟩
  | finish v =>
    left
    simp only [step] at h
    split at h
    · cases h
      exact ⟨rfl, rfl⟩
    · cases h
  | serve | resume | replay | unlock | evict | complete | recvHome | recv | recvPeer =>
    exact .inr (hrun h)

/-- RLOCKs find room in the lock tables: there are at most 254 readers of an address. -/
def Room (l : Layout V) (a : SysAct V) (s : Sys V) : Prop :=
  ∀ x ∈ l.target a s, x.2.Room (s.blk x.1)

/-- The run contains no lapse but those of `f`. -/
def Permits (l : Layout V) (f : Slack) (a : SysAct V) (s : Sys V) : Prop :=
  ∀ x ∈ l.target a s, f.Permits x.2 (s.blk x.1)

instance (a : Act V) (b : Block V) : Decidable (a.Room b) := by
  unfold Act.Room
  split
  · infer_instance
  · unfold Cacher.hasRoom
    infer_instance
  · infer_instance

instance (l : Layout V) (a : SysAct V) (s : Sys V) : Decidable (l.Room a s) :=
  inferInstanceAs (Decidable (∀ x ∈ l.target a s, x.2.Room (s.blk x.1)))

/-- Everything may happen. -/
theorem permits_all (l : Layout V) (a : SysAct V) (s : Sys V) : l.Permits ⟨true, true⟩ a s :=
  fun _ _ _ _ _ => ⟨by rintro ⟨⟩, by rintro ⟨⟩⟩

theorem block_reaches (h : Reaches l.step (fun a s => l.Room a s ∧ l.Permits f a s) (Sys.init mem) s)
    (i : Nat) :
    Reaches (Coherence.step i) (fun x b => x.Room b ∧ f.Permits x b) (Block.init V (mem i))
      (s.blk i) := by
  refine h.project (fun s => s.blk i) fun a t t' hok hs => ?_
  obtain ⟨hblk, -⟩ | ⟨j, x, b, hran⟩ := step_cases hs
  · exact .inl (by rw [hblk])
  · simp only [hran.blk]
    by_cases hj : i = j
    · subst hj
      rw [Function.update_self]
      exact .inr ⟨x, ⟨hok.1 _ hran.target, hok.2 _ hran.target⟩, hran.step⟩
    · exact .inl (Function.update_of_ne hj _ _)

theorem good_blk (h : Reaches l.step (fun a s => l.Room a s ∧ l.Permits f a s) (Sys.init mem) s)
    (i : Nat) : Good f i (mem i) (s.blk i) :=
  good_of_reaches (block_reaches h i)

/-- Try-locks included. -/
theorem good_blk_all (h : Reaches l.step l.Room (Sys.init mem) s) (i : Nat) :
    Good ⟨true, true⟩ i (mem i) (s.blk i) :=
  good_blk (h.mono fun a s hr => ⟨hr, l.permits_all a s⟩) i

end Layout

end HwGam.Coherence
