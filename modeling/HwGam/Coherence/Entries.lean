import HwGam.Coherence.Handlers
import HwGam.Coherence.Safety

/-!
# The entries of the directory

What a directory entry looks like in each of its states. Most of it is part of the protocol
invariant; that an unshared entry is there for its locks is kept by every operation of the
directory, whatever the others do.
-/

namespace HwGam.Coherence

open Lib

variable {W : Type*}

structure DirEntry.WellFormed (d : DirEntry W) : Prop where
  shared : d.state = .shared → d.shared ≠ [] ∧ d.locks.isBlockWLocked = false
  owned : d.state = .dirty ∨ d.state = .toShared →
    d.shared.length = 1 ∧ d.locks.isBlockLocked = false
  unshared : d.state = .unshared → d.shared = [] ∧ d.locks.isBlockLocked = true
  toDirty : d.state = .toDirty → d.locks.isBlockLocked = false
  toUnShared : d.state = .toUnShared → d.locks.isBlockWLocked = false
  /-- no worker is listed twice -/
  nodup : (d.shared.map Prod.fst).Nodup

/-! ## Unshared entries -/

/-- An unshared entry holds a lock: "actually this state only happens when locked". -/
def Dir.Kept (e : Dir W) : Prop := ∀ d ∈ e, d.state = .unshared → d.locks.isBlockLocked = true

namespace Dir

variable {e e' : Dir W} {s : DirState} {a : W × Ptr} {addr : Nat}

theorem kept_none : Kept (none : Dir W) := by
  rintro d ⟨⟩

theorem kept_some {d : DirEntry W} (h : d.state = .unshared → d.locks.isBlockLocked = true) :
    Kept (some d) := by
  rintro _ ⟨⟩
  exact h

theorem kept_of_state {d : DirEntry W} (h : d.state ≠ .unshared) : Kept (some d) :=
  kept_some fun hs => absurd hs h

theorem kept_setState (e : Dir W) (hs : s ≠ .unshared) : (e.setState s).Kept := by
  cases e with
  | none => exact kept_none
  | some d => exact kept_of_state hs

theorem kept_toShared (e : Dir W) (a : W × Ptr) : (e.toShared a).Kept := by
  unfold Dir.toShared
  split
  · exact kept_of_state (by simp)
  · split <;> exact kept_of_state (by simp)

theorem kept_toSharedNull (e : Dir W) : e.toSharedNull.Kept := e.kept_setState (by decide)

theorem kept_toDirty (e : Dir W) (a : W × Ptr) : (e.toDirty a).Kept := by
  unfold Dir.toDirty
  split <;> exact kept_of_state (by simp)

theorem kept_toUnShared (e : Dir W) : e.toUnShared.Kept := by
  unfold Dir.toUnShared
  split
  · exact kept_none
  · split
    · rename_i hl
      exact kept_some fun _ => hl
    · exact kept_none

theorem isBlockLocked_insert (l : Locks) (addr n : Nat) :
    Locks.isBlockLocked (l.insert addr n) = true := by
  simp [Locks.isBlockLocked, AList.entries_insert]

theorem isBlockLocked_share (l : Locks) (addr : Nat) : (l.share addr).isBlockLocked = true := by
  unfold Locks.share
  split <;> exact isBlockLocked_insert ..

theorem kept_rLock (h : e.rLock addr = some e') : e'.Kept := by
  simp only [Dir.rLock, Option.ite_none_left_eq_some] at h
  obtain ⟨-, h⟩ := h
  split at h <;> cases h <;> exact kept_some fun _ => isBlockLocked_share ..

theorem kept_wLock (h : e.wLock addr = some e') : e'.Kept := by
  simp only [Dir.wLock, Option.ite_none_left_eq_some] at h
  obtain ⟨-, h⟩ := h
  split at h <;> cases h <;> exact kept_some fun _ => isBlockLocked_insert ..

/-- An unshared entry is erased with its last lock. -/
theorem kept_ite (d : DirEntry W) (locks : Locks) :
    Kept (if d.state = .unshared && !locks.isBlockLocked then none
      else some { d with locks := locks }) := by
  split
  · exact kept_none
  · rename_i hn
    refine kept_some fun hs => ?_
    have hs : d.state = .unshared := hs
    simpa [hs] using hn

theorem kept_unLock (e : Dir W) (addr : Nat) : (e.unLock addr).Kept := by
  unfold Dir.unLock
  split
  · exact kept_none
  · exact kept_ite _ _

theorem Kept.remove [DecidableEq W] (h : e.Kept) (w : W) : (e.remove w).Kept := by
  cases e with
  | none => exact kept_none
  | some d =>
    unfold Dir.remove
    simp only
    split
    · exact kept_none
    · exact kept_some fun hs => h d rfl hs

/-- The entry is erased with its last sharer, unless it is locked. -/
theorem Kept.reshare {d : DirEntry W} (h : Kept (some d)) (shared : List (W × Ptr)) :
    Kept (if shared.isEmpty then
        if d.locks.isBlockLocked then some { d with state := .unshared, shared := [] } else none
      else some { d with shared := shared }) := by
  split
  · split
    · rename_i hl
      exact kept_some fun _ => hl
    · exact kept_none
  · exact kept_some fun hs => h d rfl hs

theorem Kept.clear [DecidableEq W] (h : e.Kept) (a : W × Ptr) : (e.clear a).Kept := by
  cases e with
  | none => exact kept_none
  | some d => exact h.reshare _

end Dir

namespace Home

variable {i : Nat} {h : Home W} {q : Request}

theorem kept_invalidateAll (h : Home W) (q : Request) : (h.invalidateAll q).st.entry.Kept := by
  unfold invalidateAll
  split <;> exact h.entry.kept_setState (by decide)

theorem kept_lockOrLater (hk : h.entry.Kept) {e : Option (Dir W)} (he : ∀ d ∈ e, Dir.Kept d) :
    (h.lockOrLater q e).st.entry.Kept := by
  unfold lockOrLater
  split
  · exact he _ rfl
  · split <;> exact hk

theorem kept_access (hk : h.entry.Kept) (i : Nat) (q : Request) :
    (h.access i q).st.entry.Kept := by
  unfold access
  split
  · exact hk
  · split
    · split
      · exact h.entry.kept_setState (by decide)
      · exact hk
    · split
      · exact hk
      · exact h.kept_invalidateAll q
    · split
      · exact h.entry.kept_setState (by decide)
      · exact kept_lockOrLater hk fun _ he => Dir.kept_rLock he
    · split
      · exact kept_lockOrLater hk fun _ he => Dir.kept_wLock he
      · exact h.kept_invalidateAll q

theorem kept_finishWrite (h : Home W) (i : Nat) (q : Request) :
    (h.finishWrite i q).st.entry.Kept := by
  unfold finishWrite
  simp only
  split
  · split
    · rename_i e he
      exact Dir.kept_wLock he
    · exact h.entry.kept_toUnShared
  · exact h.entry.kept_toUnShared

theorem kept_processPendingRead (h : Home W) (q : Request) :
    (h.processPendingRead q).st.entry.Kept := by
  unfold processPendingRead
  simp only
  split
  · cases he : h.entry.toSharedNull.rLock q.addr with
    | none => exact h.entry.kept_toSharedNull
    | some e => exact Dir.kept_rLock he
  · exact h.entry.kept_toSharedNull

theorem kept_processRemoteRead (hk : h.entry.Kept) (w : W) (ptr : Ptr) (t : Bool) :
    (h.processRemoteRead w ptr t).st.entry.Kept := by
  unfold processRemoteRead
  split
  · exact hk
  · split
    · exact h.entry.kept_setState (by decide)
    · split
      · split <;> exact hk
      · exact h.entry.kept_toShared _

theorem kept_processRemoteReadReply (hk : h.entry.Kept) :
    h.processRemoteReadReply.st.entry.Kept := by
  unfold processRemoteReadReply
  split
  · exact h.entry.kept_setState (by decide)
  · exact h.entry.kept_setState (by decide)
  · exact hk

theorem kept_processRemoteWriteReply (hk : h.entry.Kept) (st : Status) :
    (h.processRemoteWriteReply st).st.entry.Kept := by
  unfold processRemoteWriteReply
  split
  · split
    · exact h.entry.kept_setState (by decide)
    · exact hk
  · split
    · exact h.entry.kept_setState (by decide)
    · exact hk
  · exact h.entry.kept_setState (by decide)
  · split
    · exact h.entry.kept_setState (by decide)
    · exact hk
  · exact hk

theorem entry_land (h : Home W) (d : Option Data) : (h.land d).entry = h.entry := by
  cases d <;> rfl

variable [DecidableEq W]

theorem kept_processRemoteWrite (hk : h.entry.Kept) (w : W) (op : Fetch) (ptr : Ptr) (t : Bool) :
    (h.processRemoteWrite w op ptr t).st.entry.Kept := by
  unfold processRemoteWrite
  split
  · exact hk
  · split
    · exact h.entry.kept_setState (by decide)
    · split
      · split <;> exact hk
      · split
        · simp only
          split
          · exact h.entry.kept_toDirty _
          · exact h.entry.kept_setState (by decide)
        · exact h.entry.kept_toDirty _

theorem kept_processOwn (hk : h.entry.Kept) (w : W) (o : Own) :
    (h.processOwn w o).st.entry.Kept := by
  cases o with
  | read ptr t => exact kept_processRemoteRead hk w ptr t
  | write ptr t => exact kept_processRemoteWrite hk w .write ptr t
  | writePermissionOnly ptr t => exact kept_processRemoteWrite hk w .writePermissionOnly ptr t
  | activeInvalidate ptr =>
    unfold processOwn processRemoteEvictShared
    simp only
    split
    · exact hk
    · exact hk.clear _
  | writeBack ptr =>
    unfold processOwn processRemoteEvictDirty
    simp only
    split
    · exact hk
    · exact hk.clear _

theorem kept_processPendingWrite (hk : h.entry.Kept) (i : Nat) (w : W) (dirty : Bool)
    (counter : Int) (status : Option Status) (q : Request) :
    (h.processPendingWrite i w dirty counter status q).st.entry.Kept := by
  unfold processPendingWrite
  simp only
  split
  · split
    · cases dirty <;> exact Dir.kept_setState _ (by decide)
    · exact kept_finishWrite _ i q
  · exact hk.remove w

theorem kept_processPendingInvalidateForward (hk : h.entry.Kept) (w r : W) (ptr : Ptr) (op : Fetch)
    (counter : Int) (status : Option Status) :
    (h.processPendingInvalidateForward w r ptr op counter status).st.entry.Kept := by
  unfold processPendingInvalidateForward
  simp only
  split
  · split
    · exact Dir.kept_setState _ (by decide)
    · exact Dir.kept_toDirty _ _
  · exact hk.remove w

theorem kept_processImm (hk : h.entry.Kept) (i : Nat) (w : W) (d : Option Data) :
    (h.processImm i w d).st.entry.Kept := by
  rw [← h.entry_land d] at hk
  unfold processImm
  simp only
  split
  · exact kept_processPendingRead _ _
  · exact Dir.kept_toShared _ _
  · apply kept_processPendingWrite hk
  · apply kept_processPendingWrite hk
  · exact Dir.kept_toDirty _ _
  · apply kept_processPendingInvalidateForward hk
  · exact hk

theorem kept_recv (hk : h.entry.Kept) (i : Nat) (w : W) (m : ToHome) :
    (h.recv i w m).st.entry.Kept := by
  unfold recv
  split
  · exact kept_processOwn hk w _
  · exact kept_processImm hk i w _
  · exact kept_processRemoteReadReply hk
  · exact kept_processRemoteWriteReply hk _
  · exact hk

end Home

section
variable [DecidableEq W] {i : Nat} {b b' : Block W} {a : Act W}

/-- Every step keeps unshared entries for their locks only. -/
theorem kept_step (hk : b.home.entry.Kept) (hs : step i a b = some b') : b'.home.entry.Kept := by
  obtain ⟨o, hh, hran⟩ | ⟨w, o, -, hran⟩ := step_inv hs
  · rw [hran.home]
    cases hh with
    | access q ptr => exact Home.kept_access hk i q
    | unlock thread addr => exact b.home.entry.kept_unLock addr
    | recv w m ms hc => exact Home.kept_recv hk i w m
    | remote w o rest ha =>
      exact Home.kept_processOwn (h := { b.home with agenda := rest }) hk w o
    | load rest ha => exact hk
    | drop q rest ha => exact hk
  · rw [hran.home]
    exact hk

end

/-! ## Every run -/

theorem Locks.not_isBlockWLocked {l : Locks} (h : l.isBlockLocked = false) :
    l.isBlockWLocked = false :=
  (Locks.Below.of_not_isBlockLocked h).not_isBlockWLocked

/-- Each phase of the protocol, on the entry. -/
theorem Phase.wellFormed {cur : Data} {h : Home W} {role : W → Role} {tok : W → Tok W}
    {d : DirEntry W} (hp : Phase cur h role tok) (hk : h.entry.Kept) (he : h.entry = some d) :
    d.WellFormed := by
  cases hp with
  | unshared _ hs hl _ _ _ =>
    rw [he] at hs hl hk
    have hs : d.state = .unshared := hs
    have hl : d.shared = [] := hl
    exact ⟨by simp [hs], by simp [hs], fun hu => ⟨hl, hk d rfl hu⟩, by simp [hs], by simp [hs],
      by simp [hl]⟩
  | shared d' he' _ hs hl hn hlk _ _ =>
    obtain rfl := Option.some.inj (he.symm.trans he')
    exact ⟨fun _ => ⟨hl, hlk.not_isBlockWLocked⟩, by simp [hs], by simp [hs], by simp [hs],
      by simp [hs], hn⟩
  | dirty d' o p he' _ hs hl hlk _ _ =>
    obtain rfl := Option.some.inj (he.symm.trans he')
    exact ⟨by simp [hs], fun _ => ⟨by simp [hl], hlk⟩, by simp [hs], by simp [hs], by simp [hs],
      by simp [hl]⟩
  | toShared d' o p x q he' _ hs hl hlk _ _ _ =>
    obtain rfl := Option.some.inj (he.symm.trans he')
    exact ⟨by simp [hs], fun _ => ⟨by simp [hl], hlk⟩, by simp [hs], by simp [hs], by simp [hs],
      by simp [hl]⟩
  | take d' o p x q he' _ hs hl hlk _ _ _ =>
    obtain rfl := Option.some.inj (he.symm.trans he')
    have hn : (d.shared.map Prod.fst).Nodup := by simp [hl]
    cases x with
    | none =>
      have hs : d.state = .toUnShared := hs
      exact ⟨by simp [hs], by simp [hs], by simp [hs], by simp [hs],
        fun _ => Locks.not_isBlockWLocked hlk, hn⟩
    | some y =>
      have hs : d.state = .toDirty := hs
      exact ⟨by simp [hs], by simp [hs], by simp [hs], fun _ => hlk, by simp [hs], hn⟩
  | invalidate d' x q n st t _ he' _ hs hlk hlkx _ _ hc =>
    obtain rfl := Option.some.inj (he.symm.trans he')
    cases x with
    | none =>
      have hs : d.state = .toUnShared := hs
      exact ⟨by simp [hs], by simp [hs], by simp [hs], by simp [hs],
        fun _ => hlk.not_isBlockWLocked, hc.nodup⟩
    | some y =>
      have hs : d.state = .toDirty := hs
      exact ⟨by simp [hs], by simp [hs], by simp [hs], fun _ => hlkx rfl, by simp [hs], hc.nodup⟩

section
variable [DecidableEq W] {l : Layout W} {mem : Nat → Data} {s : Sys W} {i : Nat} {d : DirEntry W}

theorem Layout.kept_blk (h : Reaches l.step l.Room (Sys.init mem) s) (i : Nat) :
    (s.blk i).home.entry.Kept := by
  have hb := l.block_reaches (h.mono fun a s hr => ⟨hr, l.permits_all a s⟩) i
  exact hb.invariant (I := fun b => b.home.entry.Kept) Dir.kept_none
    fun _ _ _ hk _ hs => kept_step hk hs

end

/-- The home locks a block for reading, then the other worker reads it. -/
def readLocked : List (SysAct Bool) :=
  [.issue { id := 0, thread := 0, op := .rlock false, addr := 8, size := 1 }, .serve false 0,
    .finish false, .issue { id := 1, thread := 1, op := .read, addr := 0, size := 1 },
    .serve true 64, .finish true, .recvHome true 0]

end HwGam.Coherence
