import HwGam.Fence.Lock
import Mathlib.Data.Fintype.Basic
import Mathlib.Data.Fintype.Sets

/-!
# Fence wake-ups

A set flag or a queued request is drained by a later `Notify`, so one has to come: outside
`ProcessFenced`, `pending_writes` must be positive. It need not be. A drain that meets a fence
reads `pending_writes`, sees a write it started itself, and decides to stop; the notification of
that write decrements the counter to zero, finds `in_process` still set and returns. `WakeupKept`
excludes that check, and then no wake-up is lost.
-/

namespace HwGam.Fence

open Lib

variable {T : Type*} {s s' : State T} {t u : T}

/-- Inside `ProcessFenced`, or between the decrement of `pending_writes` and its first check. -/
def Pc.inProcessFenced : Pc → Bool
  | .enter _ | .acquire | .drained | .flagged | .front | .recheck _ | .serve _ | .serving _
  | .stop _ | .pop _ | .finish _ | .release _ | .unlock => true
  | _ => false

/-- Some future notification will drain what the fence holds back. -/
def WakeupDue (s : State T) : Prop :=
  (∀ t, (s.pc t).inProcessFenced = false) →
    s.mfenced = true ∨ s.sfenced = true ∨ s.pendingWorks ≠ [] → 0 < s.pendingWrites

/-- The drain has read a nonzero `pending_writes` and has not yet cleared `in_process`. -/
def Pc.stopping : Pc → Bool
  | .stop _ | .pop true | .finish true | .release true => true
  | _ => false

def Pc.isEnter : Pc → Bool
  | .enter _ => true
  | _ => false

/-- No thread checks `in_process` while a drain is stopping and no write is pending any more. -/
def WakeupKept (a : Act T) (s : State T) : Prop :=
  match a with
  | .tick t =>
    (s.pc t).isEnter = true → s.pendingWrites = 0 → ∀ u, (s.pc u).stopping = false
  | _ => True

instance [Fintype T] (a : Act T) (s : State T) : Decidable (WakeupKept a s) :=
  match a with
  | .tick t => inferInstanceAs (Decidable
      ((s.pc t).isEnter = true → s.pendingWrites = 0 → ∀ u, (s.pc u).stopping = false))
  | .submit .. | .notify .. | .poke _ => inferInstanceAs (Decidable True)

/-! ## The invariant -/

/-- The thread is on its way to `pending_writes`: it will drain, or find the counter positive. -/
def Pc.rescues : Pc → Bool
  | .enter _ | .acquire | .drained | .flagged | .front | .recheck _ | .serve _ | .serving _
  | .pop false | .finish false => true
  | _ => false

def Pc.isMark : Pc → Bool
  | .mark _ => true
  | _ => false

/-- A flag is set, or a thread has seen pending writes and is about to set one. -/
def Held (s : State T) : Prop := s.isFenced = true ∨ ∃ t, (s.pc t).isMark = true

/-- What is held back has a wake-up to come, or a thread that takes care of it. -/
def Awaited (s : State T) : Prop :=
  Held s → 0 < s.pendingWrites ∨ ∃ t, (s.pc t).rescues = true

theorem WakeupDue.of_awaited (hw : Wf s) (h : Awaited s) : WakeupDue s := by
  intro hq hf
  have hfen : s.isFenced = true := by
    rcases hf with hf | hf | hf
    · simp [State.isFenced, hf]
    · simp [State.isFenced, hf]
    · exact hw.queue hf
  rcases h (.inl hfen) with hpos | ⟨t, ht⟩
  · exact hpos
  · have hn := hq t
    cases hp : s.pc t <;> simp_all [Pc.rescues, Pc.inProcessFenced]

theorem Wf.pendingWrites_pos (h : Wf s) (hne : s.pendingWrites ≠ 0) : 0 < s.pendingWrites := by
  have := h.writes
  omega

/-- A thread at `mark` holds the lock, so a flag about to be set is the holder's. -/
theorem Wf.held_iff (h : Wf s) (ht : (s.pc t).holds = true) :
    Held s ↔ s.isFenced = true ∨ (s.pc t).isMark = true := by
  constructor
  · rintro (hf | ⟨u, hu⟩)
    · exact .inl hf
    · by_cases hut : u = t
      · exact .inr (hut ▸ hu)
      · have hn := h.not_holds ht hut
        cases hp : s.pc u <;> simp_all [Pc.isMark, Pc.holds]
  · rintro (hf | hm)
    · exact .inl hf
    · exact .inr ⟨t, hm⟩

theorem Awaited.init : Awaited (init T) := by
  rintro (hf | ⟨t, ht⟩)
  · simp [Fence.init, State.isFenced] at hf
  · simp [Fence.init, Pc.isMark] at ht

variable [DecidableEq T] {p : Pc}

/-- The thread that moves is on its way to the counter afterwards. -/
theorem Awaited.of_rescues (m : Moves s s' t p) (hp : p.rescues = true) : Awaited s' :=
  fun _ => .inr ⟨t, by rw [m.self, hp]⟩

/-- Help that was there does not go away when a thread that was none moves. -/
theorem Awaited.of_help (hc : 0 < s.pendingWrites ∨ ∃ u, (s.pc u).rescues = true)
    (m : Moves s s' t p) (hw : s.pendingWrites ≤ s'.pendingWrites)
    (hr : (s.pc t).rescues = false) : Awaited s' := by
  intro _
  rcases hc with hpos | ⟨u, hu⟩
  · exact .inl (by omega)
  · have hut : u ≠ t := by
      rintro rfl
      rw [hr] at hu
      cases hu
    exact .inr ⟨u, by rw [m.other hut, hu]⟩

/-- A flag about to be set by another thread was about to be set before. -/
theorem Held.before (m : Moves s s' t p) (hf : s'.isFenced = true → s.isFenced = true)
    (hmark : p.isMark = true → (s.pc t).isMark = true) (h : Held s') : Held s := by
  rcases h with hh | ⟨u, hu⟩
  · exact .inl (hf hh)
  · by_cases hut : u = t
    · rw [hut, m.self] at hu
      exact .inr ⟨t, hmark hu⟩
    · rw [m.other hut] at hu
      exact .inr ⟨u, hu⟩

theorem Awaited.keep (h : Awaited s) (m : Moves s s' t p)
    (hf : s'.isFenced = true → s.isFenced = true)
    (hmark : p.isMark = true → (s.pc t).isMark = true) (hw : s.pendingWrites ≤ s'.pendingWrites)
    (hr : (s.pc t).rescues = false) : Awaited s' :=
  fun hheld => Awaited.of_help (h (hheld.before m hf hmark)) m hw hr hheld

/-- The lock's holder ends its step with no flag set and none to be set. -/
theorem Awaited.of_clear (hw : Wf s') (m : Moves s s' t p) (hp : p.holds = true)
    (hm : p.isMark = false) (hf : s'.isFenced = false) : Awaited s' := by
  intro hheld
  rw [hw.held_iff (t := t) (by rw [m.self, hp]), m.self, hm, hf] at hheld
  simp at hheld

theorem Pc.rescues_of_draining {q : Pc} (hd : q.draining = true) (hs : q.stopping = false) :
    q.rescues = true ∨ q = .release false := by
  cases q with
  | pop fenced | finish fenced | release fenced => cases fenced <;> simp_all [stopping, rescues]
  | _ => simp_all [draining, stopping, rescues]

/-- A thread that finds `in_process` set leaves the work to the drain, unless that one is
stopping. -/
theorem Awaited.enter_none (h : Wf s) (hp : s.pc t = .enter none)
    (hk : s.pendingWrites = 0 → ∀ u, (s.pc u).stopping = false) (hi : s.inProcess = true) :
    Awaited (s.goto t .idle) := by
  by_cases hz : s.pendingWrites = 0
  swap
  · exact fun _ => .inl (h.pendingWrites_pos hz)
  have m : Moves s (s.goto t .idle) t .idle := ⟨rfl⟩
  obtain ⟨d, hd⟩ := h.inProcess.mp hi
  have hdt : d ≠ t := by
    rintro rfl
    rw [hp] at hd
    cases hd
  rcases Pc.rescues_of_draining hd (hk hz d) with hr | hq
  · exact fun _ => .inr ⟨d, by rw [m.other hdt, hr]⟩
  · -- the flags are down already, and the drain's lock keeps the others from raising one
    have hv : View s (.release false) := hq ▸ h.view d
    intro hheld
    have hbefore := hheld.before m id (by rintro ⟨⟩)
    rw [h.held_iff (t := d) (by rw [hq]; rfl), hq, hv.1] at hbefore
    simp [Pc.isMark] at hbefore

theorem Awaited.tick (h : Wf s) (hA : Awaited s) (hk : WakeupKept (.tick t) s)
    (hs : tick t s = some s') : Awaited s' := by
  have hw' := h.tick hs
  cases hp : s.pc t with
  | idle => simp [Fence.tick, hp] at hs
  | arrive r =>
    simp only [Fence.tick, hp, Option.ite_none_right_eq_some, Option.some.injEq] at hs
    obtain ⟨-, rfl⟩ := hs
    exact hA.keep (t := t) ⟨rfl⟩ id (by rintro ⟨⟩) le_rfl (by rw [hp]; rfl)
  | examine r =>
    simp only [Fence.tick, hp, Option.some.injEq] at hs
    subst hs
    unfold examine
    split <;> split
    all_goals exact hA.keep (t := t) ⟨rfl⟩ id (by rintro ⟨⟩) le_rfl (by rw [hp]; rfl)
  | count r =>
    simp only [Fence.tick, hp, Option.some.injEq] at hs
    subst hs
    unfold count
    split
    · rename_i hne
      exact fun _ => .inl (h.pendingWrites_pos hne)
    · split
      all_goals exact hA.keep (t := t) ⟨rfl⟩ id (by rintro ⟨⟩) le_rfl (by rw [hp]; rfl)
  | mark r =>
    simp only [Fence.tick, hp, Option.some.injEq] at hs
    subst hs
    -- the writes this thread saw are still pending, or their notifier is on its way
    have hbefore := hA (.inr ⟨t, by rw [hp]; rfl⟩)
    unfold mark
    split
    all_goals exact .of_help (t := t) hbefore ⟨rfl⟩ le_rfl (by rw [hp]; rfl)
  | park r =>
    simp only [Fence.tick, hp, Option.some.injEq] at hs
    subst hs
    exact hA.keep (t := t) ⟨rfl⟩ id (by rintro ⟨⟩) le_rfl (by rw [hp]; rfl)
  | leave r =>
    cases r
    all_goals
      simp only [Fence.tick, hp, Option.some.injEq] at hs
      subst hs
      exact hA.keep (t := t) ⟨rfl⟩ id (by rintro ⟨⟩) le_rfl (by rw [hp]; rfl)
  | execute r =>
    simp only [Fence.tick, hp, Option.some.injEq] at hs
    subst hs
    exact hA.keep (t := t) (p := .idle) ⟨by simp [State.goto]⟩
      (fun hf => s.begin_isFenced r ▸ hf) (by rintro ⟨⟩) (s.begin_pendingWrites_le r) (by rw [hp]; rfl)
  | enter back =>
    simp only [Fence.tick, hp] at hs
    split at hs <;> cases hs
    · rename_i hi
      cases back with
      | none => exact .enter_none h hp (hk (by rw [hp]; rfl)) hi
      | some r => exact .of_rescues (t := t) ⟨rfl⟩ rfl
    · exact .of_rescues (t := t) ⟨rfl⟩ rfl
  | acquire =>
    simp only [Fence.tick, hp, Option.ite_none_right_eq_some, Option.some.injEq] at hs
    obtain ⟨-, rfl⟩ := hs
    exact .of_rescues (t := t) ⟨rfl⟩ rfl
  | drained =>
    simp only [Fence.tick, hp, Option.some.injEq] at hs
    subst hs
    split
    · exact .of_rescues (t := t) ⟨rfl⟩ rfl
    · rename_i hne
      exact fun _ => .inl (h.pendingWrites_pos hne)
  | flagged =>
    simp only [Fence.tick, hp] at hs
    split at hs <;> cases hs
    · exact .of_rescues (t := t) ⟨rfl⟩ rfl
    · rename_i hf
      exact .of_clear (t := t) hw' ⟨rfl⟩ rfl rfl (Bool.eq_false_iff.mpr hf)
  | front =>
    simp only [Fence.tick, hp, Option.some.injEq] at hs
    subst hs
    unfold front
    split
    · exact .of_rescues (t := t) ⟨rfl⟩ rfl
    · split
      all_goals exact .of_rescues (t := t) ⟨rfl⟩ rfl
  | recheck r =>
    simp only [Fence.tick, hp, Option.some.injEq] at hs
    subst hs
    unfold recheck
    split
    · rename_i hne
      exact fun _ => .inl (h.pendingWrites_pos hne)
    · split
      all_goals exact .of_rescues (t := t) ⟨rfl⟩ rfl
  | serve r =>
    simp only [Fence.tick, hp, Option.some.injEq] at hs
    subst hs
    exact .of_rescues (s := s) (t := t) (p := .serving r) ⟨by simp [State.goto]⟩ rfl
  | serving r =>
    simp only [Fence.tick, hp, Option.some.injEq] at hs
    subst hs
    exact .of_rescues (t := t) ⟨rfl⟩ rfl
  | stop r =>
    simp only [Fence.tick, hp, Option.some.injEq] at hs
    subst hs
    have hv : View s (.stop r) := hp ▸ h.view t
    unfold stop
    split
    all_goals exact hA.keep (t := t) ⟨rfl⟩ (fun _ => hv.1) (by rintro ⟨⟩) le_rfl (by rw [hp]; rfl)
  | pop fenced =>
    simp only [Fence.tick, hp, Option.some.injEq] at hs
    subst hs
    cases fenced
    · exact .of_rescues (t := t) ⟨rfl⟩ rfl
    · exact hA.keep (t := t) ⟨rfl⟩ id (by rintro ⟨⟩) le_rfl (by rw [hp]; rfl)
  | finish fenced =>
    simp only [Fence.tick, hp, Option.some.injEq] at hs
    subst hs
    cases fenced
    · exact .of_clear (t := t) hw' ⟨rfl⟩ rfl rfl rfl
    · exact hA.keep (t := t) ⟨rfl⟩ id (by rintro ⟨⟩) le_rfl (by rw [hp]; rfl)
  | release fenced =>
    simp only [Fence.tick, hp, Option.some.injEq] at hs
    subst hs
    exact hA.keep (t := t) ⟨rfl⟩ id (by rintro ⟨⟩) le_rfl (by rw [hp]; rfl)
  | unlock =>
    simp only [Fence.tick, hp, Option.some.injEq] at hs
    subst hs
    exact hA.keep (t := t) ⟨rfl⟩ id (by rintro ⟨⟩) le_rfl (by rw [hp]; rfl)

theorem Awaited.step {a : Act T} (h : Wf s) (hA : Awaited s) (hk : WakeupKept a s)
    (hs : step a s = some s') : Awaited s' := by
  cases a with
  | submit t op =>
    simp only [Fence.step, Option.ite_none_right_eq_some, Option.some.injEq] at hs
    obtain ⟨hp, rfl⟩ := hs
    exact hA.keep (t := t) ⟨rfl⟩ id (by rintro ⟨⟩) le_rfl (by rw [hp]; rfl)
  | notify t w =>
    simp only [Fence.step, Option.ite_none_right_eq_some, Option.map_eq_some_iff] at hs
    obtain ⟨-, back, -, rfl⟩ := hs
    exact .of_rescues (t := t) ⟨rfl⟩ rfl
  | poke t =>
    simp only [Fence.step, Option.map_eq_some_iff] at hs
    obtain ⟨back, -, rfl⟩ := hs
    exact .of_rescues (t := t) ⟨rfl⟩ rfl
  | tick t => exact hA.tick h hk hs

/-! ## No wake-up is lost, except to a stopping drain -/

/-- In a run without such a check every state has a wake-up to come for what the fence holds
back. -/
theorem wakeupDue_of_reaches (h : Reaches step WakeupKept (init T) s) : WakeupDue s := by
  have hI : Wf s ∧ Awaited s :=
    h.invariant (I := fun s => Wf s ∧ Awaited s) ⟨Wf.init, Awaited.init⟩
      fun _ _ _ hI hk hs => ⟨hI.1.step hs, hI.2.step hI.1 hk hs⟩
  exact .of_awaited hI.1 hI.2

/-- Thread 0 writes and fences; the write stays pending. -/
def fencedRun : List (Act (Fin 3)) :=
  [.submit 0 .write, .tick 0, .tick 0, .tick 0, .tick 0,
   .submit 0 .mfence, .tick 0, .tick 0, .tick 0, .tick 0, .tick 0]

theorem wakeupDue_fencedRun :
    ∃ s, (Reaches step WakeupKept (init (Fin 3)) s ∧ s.mfenced = true) ∧ WakeupDue s := by
  obtain ⟨s, hr, hm⟩ := Reaches.exists_of_runs step WakeupKept fencedRun (init (Fin 3))
    (fun s => s.mfenced = true) (by decide)
  exact ⟨s, ⟨hr, hm⟩, wakeupDue_of_reaches hr⟩

/-- Behind the pending write and the MFENCE of `fencedRun` come a write and an MFENCE. Thread 1
notifies the first write and drains up to the second MFENCE, which sees the write the drain has
started; thread 2 notifies that write and finds `in_process` set. -/
def lostWakeupRun : List (Act (Fin 3)) :=
  fencedRun ++
  [.submit 0 .write, .tick 0, .tick 0, .tick 0, .tick 0,
   .submit 0 .mfence, .tick 0, .tick 0, .tick 0, .tick 0,
   .notify 1 ⟨.write, 0⟩, .tick 1, .tick 1, .tick 1, .tick 1, .tick 1, .tick 1, .tick 1, .tick 1,
   .tick 1, .tick 1,
   .notify 2 ⟨.write, 2⟩, .tick 2,
   .tick 1, .tick 1, .tick 1, .tick 1, .tick 1]

theorem not_wakeupDue : ¬ ∀ s, Reaches step anyStep (init (Fin 3)) s → WakeupDue s := by
  intro h
  obtain ⟨s, hr, hq, hm, hz⟩ := Reaches.exists_of_runs step anyStep lostWakeupRun (init (Fin 3))
    (fun s => (∀ t, (s.pc t).inProcessFenced = false) ∧ s.mfenced = true ∧
      s.pendingWrites = 0) (by decide)
  have hpos := h s hr hq (.inl hm)
  omega

end HwGam.Fence
