import HwGam.Coherence.Effects

/-!
# The locks of an address exclude each other

A lock lives in the table of whoever serves the thread: the home's directory entry, or a line of the
thread's worker. The tables agree with the threads that hold locks, and the protocol lets a table
have an exclusive lock only while those of all other workers are empty.
-/

namespace HwGam.Coherence

open Lib

variable {V : Type*}

/-! ## Holders -/

/-- The holders of the lock of `addr` at place `n` after an event: threads, and whether they write. -/
def Ev.hold [DecidableEq V] (n : Place V) (addr : Nat) (hs : List (Nat × Bool)) :
    Ev V → List (Nat × Bool)
  | .lock m q => if m = n ∧ q.addr = addr then (q.thread, q.op.writes) :: hs else hs
  | .unlock m thread a => if m = n ∧ a = addr then hs.eraseP (·.1 == thread) else hs
  | _ => hs

def Block.holders [DecidableEq V] (b : Block V) (n : Place V) (addr : Nat) : List (Nat × Bool) :=
  b.log.foldl (Ev.hold n addr) []

/-- The count in a lock table is that of a writer, or of readers. -/
inductive Held : List (Nat × Bool) → Nat → Prop
  | writer (thread : Nat) : Held [(thread, true)] exclusive
  | readers {hs : List (Nat × Bool)} (hr : ∀ x ∈ hs, x.2 = false) (hn : hs.length < exclusive) :
    Held hs hs.length

theorem Held.nil : Held [] 0 := .readers (by simp) (by decide)

theorem Held.nil_of_zero {hs : List (Nat × Bool)} (h : Held hs 0) : hs = [] := by
  generalize hn : 0 = n at h
  cases h with
  | writer => simp [exclusive] at hn
  | readers => exact List.length_eq_zero_iff.mp hn.symm

theorem Held.of_writer {hs : List (Nat × Bool)} {n thread : Nat} (h : Held hs n)
    (hm : (thread, true) ∈ hs) : hs = [(thread, true)] ∧ n = exclusive := by
  cases h with
  | writer t =>
    obtain rfl : thread = t := by simpa using hm
    exact ⟨rfl, rfl⟩
  | readers hr hn => simpa using hr _ hm

theorem Held.rLock {hs : List (Nat × Bool)} {n : Nat} (h : Held hs n) (hx : n ≠ exclusive)
    (hr : n ≠ exclusive - 1) (thread : Nat) : Held ((thread, false) :: hs) (n + 1) := by
  cases h with
  | writer => exact absurd rfl hx
  | readers hread hn =>
    refine .readers (by simpa using hread) ?_
    simp only [List.length_cons]
    omega

theorem Held.unLock {hs : List (Nat × Bool)} {n thread : Nat} (h : Held hs n)
    (hm : thread ∈ hs.map Prod.fst) : Held (hs.eraseP (·.1 == thread)) (unLocked n) := by
  cases h with
  | writer t =>
    obtain rfl : thread = t := by simpa using hm
    simpa [unLocked] using Held.nil
  | readers hr hn =>
    obtain ⟨x, hx, rfl⟩ := List.mem_map.mp hm
    have hlen := List.length_eraseP_of_mem (p := (·.1 == x.1)) hx (by simp)
    rw [unLocked, if_neg hn.ne, ← hlen]
    exact .readers (fun y hy => hr y (List.mem_of_mem_eraseP hy)) (by omega)

/-- The thread and the address of an unlock. -/
def SysAct.unlocked? : SysAct V → Option (Nat × Nat)
  | .unlock thread addr => some (thread, addr)
  | _ => none

/-- One turn: what waits at the desk is of its kind, an RLOCK finds room, and an unlock is by a
thread that holds the lock. -/
theorem Desk.Work.held [DecidableEq V] {n : Place V} {cur : Data} {fresh lands : Prop} {d d' : Desk}
    {x : Act V} {es : List (Ev V)} (hw : Desk.Work n cur fresh lands d x es d')
    {hold : Nat → List (Nat × Bool)} (hkind : d.Kind)
    (hroom : ∀ q ptr, x = .access n q ptr → q.op.isRLock = true → d.locks q.addr ≠ exclusive - 1)
    (hown : ∀ t addr, x = .unlock n t addr → t ∈ (hold addr).map Prod.fst)
    (hd : ∀ addr, Held (hold addr) (d.locks addr)) (addr : Nat) :
    Held (es.foldl (Ev.hold n addr) (hold addr)) (d'.locks addr) := by
  cases hw with
  | hit | effect | fail | park | pend | drop | again | quiet =>
    simpa [Ev.hold, Desk.serve] using hd addr
  | rlock q ptr hq hn =>
    by_cases ha : addr = q.addr
    · subst ha
      have hop : q.op.writes = false := by
        cases hop : q.op <;> simp_all [Op.isRLock, Op.writes]
      simpa [Ev.hold, hop] using (hd q.addr).rLock hn (hroom q ptr rfl hq) q.thread
    · simpa [Ev.hold, Ne.symm ha, ha] using hd addr
  | wlock q ptr hq hn =>
    by_cases ha : addr = q.addr
    · subst ha
      have hnil := (hn ▸ hd q.addr).nil_of_zero
      simpa [Ev.hold, hnil, hq.2] using Held.writer q.thread
    · simpa [Ev.hold, Ne.symm ha, ha] using hd addr
  | unlock t a =>
    by_cases ha : addr = a
    · subst ha
      simpa [Ev.hold, Desk.serve] using (hd addr).unLock (hown t addr rfl)
    · simpa [Ev.hold, Ne.symm ha, ha, Desk.serve] using hd addr
  | ends a es locks ha hl he =>
    cases he with
    | forwarded | failed | read | write => simpa [Ev.hold, Desk.serve] using hd addr
    | lock k q hp hq hn =>
      by_cases ha : addr = q.addr
      · subst ha
        have hnil := (hn ▸ hd q.addr).nil_of_zero
        obtain rfl : k = q.op.writes := hkind _ hp
        cases hop : q.op.writes with
        | false => simpa [Ev.hold, Desk.serve, hnil, hop] using
            Held.nil.rLock (by decide) (by decide) q.thread
        | true => simpa [Ev.hold, Desk.serve, hnil, hop] using Held.writer q.thread
      · simpa [Ev.hold, Desk.serve, Ne.symm ha, ha] using hd addr

/-- The locks of other places stay with their holders. -/
theorem Desk.Work.hold_of_ne [DecidableEq V] {n m : Place V} {cur : Data} {fresh lands : Prop}
    {d d' : Desk} {x : Act V} {es : List (Ev V)} (hw : Desk.Work n cur fresh lands d x es d')
    (hne : m ≠ n) (addr : Nat) (hs : List (Nat × Bool)) : es.foldl (Ev.hold m addr) hs = hs := by
  have hnm : ¬ n = m := Ne.symm hne
  cases hw with
  | ends a es locks ha hl he => cases he <;> simp [Ev.hold, hnm]
  | _ => simp [Ev.hold, hnm]

/-! ## Tables -/

section
variable {i : Nat} {cur : Data} {role : V → Role} {tok : V → Tok V}
  {w : V} {addr : Nat}

/-- Without a lapse, a worker that the home has granted nothing holds no lock. -/
theorem Cfg.unlocked {r : Role} {v : View V} (h : Cfg ⟨false, false⟩ i cur r v)
    (hb : r.blind = true) {ln : Line} (hl : v.line = some ln) : ln.locks.isBlockLocked = false := by
  have hof {ln' : Line} (hl' : v.line = some ln') (h : ln'.locks.isBlockLocked = false) :
      ln.locks.isBlockLocked = false := by
    obtain rfl : ln = ln' := Option.some.inj (hl.symm.trans hl')
    exact h
  have hwrite {op : Fetch} {ln' : Line} (hl' : v.line = some ln') (hs : WriteLine ln' op)
      (h : op = .writePermissionOnly → ln'.locks.isBlockLocked = false) :
      ln.locks.isBlockLocked = false := by
    refine hof hl' ?_
    cases op with
    | read => exact absurd rfl hs.notRead
    | write => exact hs.unlocked rfl
    | writePermissionOnly => exact h rfl
  have hlapsed {op : Fetch} {ln' : Line} {q : Request} (hq : Lapsed ⟨false, false⟩ op ln' q)
      (hop : op = .writePermissionOnly) : ln'.locks.isBlockLocked = false := by
    by_contra hlock
    have := hq.case3 hop (by simpa using hlock)
    simp at this
  cases r with
  | idle =>
    cases h with
    | absent e hl' => simp [hl] at hl'
    | read e ln' q hl' hs => exact hof hl' hs.locks
    | readFailed ln' q st ht hl' hs => exact hof hl' hs.locks
    | write e ln' q hl' hs => exact hof hl' (hs.unlocked rfl)
    | upgrade ln' q hl' hs hq => exact hof hl' (hlapsed hq rfl)
    | writeFailed op n st ln' q ht hl' hs hq => exact hwrite hl' hs fun hop => by simpa using hq hop
    | writeBack ln' p hl' hs => exact hof hl' hs.locks
    | invalidate ln' hl' hs => exact hof hl' hs.locks
    | stale ln' hst => cases hst
  | readWait p t =>
    obtain ⟨ln', q, hl', hs⟩ := h
    exact hof hl' hs.locks
  | writeWait p t =>
    obtain ⟨op, ln', q, hl', hs, -, hq⟩ := h
    exact hwrite hl' hs (hlapsed hq)
  | failWait p =>
    obtain ⟨op, n, st, ln', q, hl', hs, -, -, hq⟩ := h
    exact hwrite hl' hs fun hop => by simpa using hq hop
  | _ => cases hb

/-- An exclusive lock stands in the line of an owner only. -/
theorem Cfg.owner_of_exclusive {f : Slack} {r : Role} {v : View V} (h : Cfg f i cur r v) {ln : Line}
    (hl : v.line = some ln) (hx : ln.locks.lookup addr = some exclusive) : r.isOwner = true := by
  have hof {ln' : Line} (hl' : v.line = some ln') (h : ln'.locks.Below exclusive) : False := by
    obtain rfl : ln = ln' := Option.some.inj (hl.symm.trans hl')
    exact absurd (h addr exclusive hx) (lt_irrefl _)
  cases r with
  | owner => rfl
  | idle =>
    refine (?_ : False).elim
    cases h with
    | absent e hl' => simp [hl] at hl'
    | read e ln' q hl' hs => exact hof hl' (.of_not_isBlockLocked hs.locks)
    | readFailed ln' q st ht hl' hs => exact hof hl' (.of_not_isBlockLocked hs.locks)
    | write e ln' q hl' hs => exact hof hl' hs.locks
    | upgrade ln' q hl' hs => exact hof hl' hs.locks
    | writeFailed op n st ln' q ht hl' hs => exact hof hl' hs.locks
    | writeBack ln' p hl' hs => exact hof hl' (.of_not_isBlockLocked hs.locks)
    | invalidate ln' hl' hs => exact hof hl' (.of_not_isBlockLocked hs.locks)
    | stale ln' hst hl' hs hw => exact hof hl' hw
  | sharer p =>
    refine (?_ : False).elim
    cases h with
    | shared ln' hl' hs hptr hd hw => exact hof hl' hw
    | evicted hl' => simp [hl] at hl'
    | arriving ln' q hl' hs => exact hof hl' (.of_not_isBlockLocked hs.locks)
    | reread ln' q hl' hs => exact hof hl' (.of_not_isBlockLocked hs.locks)
    | rewrite ln' q hl' hs => exact hof hl' hs.locks
    | upgrade ln' q hl' hs => exact hof hl' hs.locks
    | writeBack ln' hl' hs => exact hof hl' (.of_not_isBlockLocked hs.locks)
  | readWait p t =>
    obtain ⟨ln', q, hl', hs⟩ := h
    exact (hof hl' (.of_not_isBlockLocked hs.locks)).elim
  | writeWait p t =>
    obtain ⟨op, ln', q, hl', hs⟩ := h
    exact (hof hl' hs.locks).elim
  | grantWait p =>
    obtain ⟨op, n, ln', q, hl', hs⟩ := h
    exact (hof hl' hs.locks).elim
  | failWait p =>
    obtain ⟨op, n, st, ln', q, hl', hs⟩ := h
    exact (hof hl' hs.locks).elim
  | invWait p listed t =>
    obtain ⟨op, ln', q, hl', hs⟩ := h
    exact (hof hl' hs.locks).elim

/-- The home locks nothing while a worker owns the block. -/
theorem Phase.unlocked_of_owner {h : Home V} (hph : Phase cur h role tok)
    (ho : (role w).isOwner = true) : h.entry.count addr = 0 := by
  have hof {d : DirEntry V} (he : h.entry = some d) (hk : d.locks.isBlockLocked = false) :
      h.entry.count addr = 0 := by
    rw [he]
    exact Locks.count_of_not_isBlockLocked hk
  cases hph with
  | unshared hp hs hl hk hm hw => simp [(hw w).1, Role.isOwner] at ho
  | shared d he hp hs hl hn hk hm hw =>
    obtain ⟨p, -, hr⟩ | ⟨-, hr⟩ := (hw w).1 <;> simp [hr, Role.isOwner] at ho
  | dirty d o p he hp hs hl hk => exact hof he hk
  | toShared d o p x q he hp hs hl hk => exact hof he hk
  | take d o p x q he hp hs hl hk => exact hof he hk
  | invalidate d x q n st t hq he hp hs hk hkx hm hpos hc =>
    obtain ⟨y, hy, rfl⟩ | ⟨p, -, hs'⟩ | ⟨-, hu⟩ := hc.copies w
    · obtain ⟨listed, hr, -⟩ := (hc.waits y hy).listed
      simp [hr, Role.isOwner] at ho
    · generalize role w = r, tok w = t' at hs' ho
      cases hs' <;> simp [Role.isOwner] at ho
    · simp [hu.1, Role.isOwner] at ho

theorem Phase.unused_of_unshared {h : Home V} (hph : Phase cur h role tok)
    (hs : h.entry.getState = .unshared) (w : V) : Unused role tok w := by
  have hof {d : DirEntry V} (he : h.entry = some d) (hd : d.state ≠ .unshared) : False := by
    rw [he] at hs
    exact hd hs
  cases hph with
  | unshared _ _ _ _ _ hw => exact hw w
  | shared d he _ hs' => exact (hof he (by simp [hs'])).elim
  | dirty d o p he _ hs' => exact (hof he (by simp [hs'])).elim
  | toShared d o p x q he _ hs' => exact (hof he (by simp [hs'])).elim
  | take d o p x q he _ hs' =>
    refine (hof he ?_).elim
    rw [hs']
    split <;> simp
  | invalidate d x q n st t _ he _ hs' =>
    refine (hof he ?_).elim
    rw [hs']
    split <;> simp

/-- Where one table of a block has an exclusive lock, the others are empty. -/
theorem Good.exclusive [DecidableEq V] {mem₀ : Data} {b : Block V}
    (hg : Good ⟨false, false⟩ i mem₀ b) {n m : Place V}
    (hx : (b.desk n).locks addr = exclusive) (hne : m ≠ n) : (b.desk m).locks addr = 0 := by
  obtain ⟨role, tok, hi⟩ := hg
  have hempty (u : V) (hu : (role u).blind = true) : (b.desk (some u)).locks addr = 0 := by
    change ((b.cacher u).line.map fun l => l.locks.count addr).getD 0 = 0
    cases hl : (b.cacher u).line with
    | none => rfl
    | some ln => exact Locks.count_of_not_isBlockLocked ((hi.worker u).cfg.unlocked hu hl)
  cases n with
  | none =>
    have hlook : b.home.entry.locks.lookup addr = some Coherence.exclusive :=
      Locks.lookup_of_count hx (by decide)
    have hun := hi.phase.unused_of_unshared (hi.phase.unshared_of_exclusive hlook)
    cases m with
    | none => exact absurd rfl hne
    | some u => exact hempty u (hun u).blind.1
  | some w =>
    change ((b.cacher w).line.map fun l => l.locks.count addr).getD 0 = Coherence.exclusive at hx
    cases hl : (b.cacher w).line with
    | none => simp [hl, Coherence.exclusive] at hx
    | some ln =>
      have hlook : ln.locks.lookup addr = some Coherence.exclusive :=
        Locks.lookup_of_count (by simpa [hl] using hx) (by decide)
      have howner : (role w).isOwner = true := (hi.worker w).cfg.owner_of_exclusive hl hlook
      cases m with
      | none => exact hi.phase.unlocked_of_owner howner
      | some u =>
        refine hempty u ((hi.phase.owner howner).2 u ?_).1
        rintro rfl
        exact hne rfl

end

/-! ## Runs -/

/-- An RLOCK that finds room is not counted as a writer. -/
theorem Act.Room.count_ne {b : Block V} {n : Place V} {q : Request} {ptr : Ptr}
    (h : (Act.access n q ptr).Room b) (hq : q.op.isRLock = true) :
    (b.desk n).locks q.addr ≠ exclusive - 1 := by
  intro hx
  cases n with
  | none => exact h hq (Locks.lookup_of_count hx (by decide))
  | some w =>
    change ((b.cacher w).line.map fun l => l.locks.count q.addr).getD 0 = exclusive - 1 at hx
    cases hl : (b.cacher w).line with
    | none => simp [hl, exclusive] at hx
    | some ln => exact h hq ln hl (Locks.lookup_of_count (by simpa [hl] using hx) (by decide))

/-- The tables of the block count the threads that hold its locks. -/
def Block.Kept [DecidableEq V] (b : Block V) : Prop :=
  ∀ n addr, Held (b.holders n addr) ((b.desk n).locks addr)

namespace Layout

variable [DecidableEq V] {l : Layout V} {f : Slack} {mem : Nat → Data} {s s' : Sys V} {a : SysAct V}
  {i addr : Nat}

/-- No blocking request gives up the copy of a locked line ("deadlock case 3"). -/
def NotCase3 (l : Layout V) (a : SysAct V) (s : Sys V) : Prop :=
  ∀ x ∈ l.target a s, ∀ y ∈ x.2.asked (s.blk x.1),
    ((s.blk x.1).cacher y.1).gaveUpLocked y.2 = false

/-- The thread that unlocks holds the lock. -/
def Unlocks (l : Layout V) (a : SysAct V) (s : Sys V) : Prop :=
  ∀ x ∈ a.unlocked?, x.1 ∈ ((s.blk (toBlock x.2)).holders
    (l.place (l.worker x.1) (toBlock x.2)) x.2).map Prod.fst

/-- Locks as an application uses them: no try-locks, room for every RLOCK, and unlocks by holders. -/
def Orderly (l : Layout V) (a : SysAct V) (s : Sys V) : Prop :=
  l.Blocking a s ∧ l.NotCase3 a s ∧ l.Unlocks a s

instance (l : Layout V) (a : SysAct V) (s : Sys V) : Decidable (l.Orderly a s) :=
  inferInstanceAs (Decidable (l.Blocking a s ∧ (∀ x ∈ l.target a s, ∀ y ∈ x.2.asked (s.blk x.1), _) ∧
    ∀ x ∈ a.unlocked?, _))

theorem good_of_orderly (h : Reaches l.step l.Orderly (Sys.init mem) s) (i : Nat) :
    Good ⟨false, false⟩ i (mem i) (s.blk i) := by
  have hknown : ∀ t, Reaches l.step l.Orderly (Sys.init mem) t →
      t.Known (fun _ q _ => q.op.isTry = false) (fun _ _ q => q.op.isTry = false) :=
    fun t ht => known_of_reaches (fun _ _ h => h.1.1) (fun q _ h => h.1.2) ht
  refine good_blk ((h.and_along hknown).mono ?_) i
  rintro a t ⟨⟨⟨hroom, -⟩, hcase3, -⟩, hk⟩
  refine ⟨hroom, fun x hx w q hq => ⟨?_, fun _ => hcase3 x hx (w, q) hq⟩⟩
  exact (Slack.allows_of_plain (hk.desk x.1 (some w))).stale

theorem Turn.kept {u : V} {x : Act V} {es : List (Ev V)} (ht : l.Turn f mem s s' u i x es)
    (hl : s.Logged) (hroom : x.Room (s.blk i))
    (hown : ∀ t addr, x = .unlock (l.place u i) t addr →
      t ∈ ((s.blk i).holders (l.place u i) addr).map Prod.fst)
    (h : ∀ j, (s.blk j).Kept) (j : Nat) : (s'.blk j).Kept := by
  by_cases hj : j = i
  · subst hj
    intro n addr
    rw [Block.holders, ht.log, List.foldl_append]
    by_cases hn : n = l.place u j
    · subst hn
      refine ht.work.held (hl.desk j _) (fun q ptr hx hq => ?_) hown (h j _) addr
      exact Act.Room.count_ne (hx ▸ hroom) hq
    · rw [ht.work.hold_of_ne hn, ht.frame n hn]
      exact h j n addr
  · rw [ht.others j hj]
    exact h j

theorem kept_of_reaches (h : Reaches l.step l.Orderly (Sys.init mem) s) (i : Nat) :
    (s.blk i).Kept := by
  revert i
  refine Reaches.invariant_along (I := fun t => ∀ i, (t.blk i).Kept) ?_ ?_ h
  · intro i n addr
    have hzero : ((Block.init V (mem i)).desk n).locks addr = 0 := by
      cases n <;> rfl
    exact hzero ▸ Held.nil
  · intro a t t' hr hk ha hs
    have hlog := logged_of_reaches (fun _ _ h => h.1.1) hr
    have hm := step_moved (good_of_orderly hr) hs
    cases hm with
    | issue | finish => exact hk
    | serve v ptr q i is es s' hh ht hc =>
      refine ht.kept hlog (ha.1.1 (i, _) ?_) (by rintro r addr ⟨⟩) hk
      simp only [target, hh, Option.mem_def]
    | resume v i q s' hh hq ht hc => exact ht.kept hlog trivial (by rintro r addr ⟨⟩) hk
    | unlock thread addr es s' hidle ht hc =>
      refine ht.kept hlog trivial ?_ hk
      rintro r addr' hx
      obtain ⟨rfl, rfl⟩ : thread = r ∧ addr = addr' := by simpa using hx
      exact ha.2.2 (thread, addr) rfl
    | handler a u i x es s' ha' hx hu ht hc =>
      refine ht.kept hlog ?_ ?_ hk
      · cases x <;> trivial
      · rintro r addr rfl
        cases hx

/-- A thread that holds the lock of an address exclusively is the only one on all workers that holds
it, and holds it once. -/
theorem exclusive_of_reaches (h : Reaches l.step l.Orderly (Sys.init mem) s) {n m : Place V}
    {t t' : Nat} {k : Bool} (ht : (t, true) ∈ (s.blk i).holders n addr)
    (ht' : (t', k) ∈ (s.blk i).holders m addr) :
    m = n ∧ t' = t ∧ k = true ∧ (s.blk i).holders n addr = [(t, true)] := by
  obtain ⟨hone, hx⟩ := (kept_of_reaches h i n addr).of_writer ht
  have hm : m = n := by
    by_contra hne
    have hheld := kept_of_reaches h i m addr
    rw [(good_of_orderly h i).exclusive hx hne] at hheld
    simp [hheld.nil_of_zero] at ht'
  subst hm
  rw [hone] at ht'
  obtain ⟨rfl, rfl⟩ : t' = t ∧ k = true := by simpa using ht'
  exact ⟨rfl, rfl, rfl, hone⟩

/-- The lock goes from the other worker to the home, which asks for it before it is released. -/
def handover : List (SysAct Bool) :=
  [.issue { id := 0, thread := 1, op := .wlock false, addr := 0, size := 1 }, .serve true 0,
    .finish true, .recvHome true 0, .recv true 0, .recv true 0, .replay true,
    .issue { id := 1, thread := 0, op := .wlock false, addr := 0, size := 1 }, .serve false 0,
    .finish false, .recv true 0, .unlock 1 0, .replay true, .replay true, .recvHome true 0,
    .replay false]

theorem exclusive_handover : ∃ s,
    Reaches twoWorkers.step twoWorkers.Orderly (Sys.init fun _ _ => 0) s ∧
    (0, true) ∈ (s.blk 0).holders none 0 ∧
    ∀ m t k, (t, k) ∈ (s.blk 0).holders m 0 → m = none ∧ t = 0 ∧ k = true := by
  obtain ⟨s, hr, hw⟩ := Reaches.exists_of_runs twoWorkers.step twoWorkers.Orderly handover
    (Sys.init fun _ _ => 0) (fun s => (0, true) ∈ (s.blk 0).holders none 0) (by decide)
  refine ⟨s, hr, hw, fun m t k ht => ?_⟩
  obtain ⟨hm, htt, hk, -⟩ := exclusive_of_reaches hr hw ht
  exact ⟨hm, htt, hk⟩

end Layout

end HwGam.Coherence
