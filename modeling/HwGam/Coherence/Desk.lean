import HwGam.Coherence.Handlers
import HwGam.Coherence.Outcomes
import HwGam.Coherence.System

/-!
# The desk of a worker at a block

What a worker has of the requests of its threads at one block: the one it waits for an answer to,
those it has parked, those it is about to replay, and the locks it has given out. `Desk.Work` says
all that a step can do to a desk, and which events it adds to the log.
-/

namespace HwGam.Coherence

variable {W : Type*}

structure Desk where
  /-- the request whose pending request is out, and whether that takes the only copy -/
  pend : Option (Bool × Request)
  locals : List Request
  agenda : List Request
  locks : Nat → Nat

@[simp] def Item.local? {R : Type*} : Item R → Option Request
  | .local q => some q
  | .remote _ | .load => none

def Home.desk (h : Home W) : Desk where
  pend := h.parent
  locals := h.locals
  agenda := h.agenda.filterMap Item.local?
  locks := h.entry.count

def Cacher.desk (c : Cacher W) : Desk where
  pend := c.pending.bind Pending.parent
  locals := c.locals
  agenda := c.agenda.filterMap Item.local?
  locks := fun a => (c.line.map fun l => l.locks.count a).getD 0

def Block.desk (b : Block W) : Place W → Desk
  | none => b.home.desk
  | some w => (b.cacher w).desk

/-- `ProcessToServeRequest` -/
def Desk.serve (d : Desk) : Desk := { d with locals := [], agenda := d.locals ++ d.agenda }

/-- Neither a request of an application thread, nor an unlock, nor a request taken off a replay. -/
def Act.isHandler : Act W → Bool
  | .access .. | .unlock .. | .drop _ => false
  | _ => true

/-- A READ is served from a line on its way out, or on its way to CACHE_DIRTY. -/
def Act.transientHit (a : Act W) (b : Block W) : Prop :=
  match a with
  | .access (some w) q _ => q.op = .read ∧ ∃ l ∈ (b.cacher w).line, l.state.inTransition = true
  | _ => False

/-- The data of a one-sided write land, whatever else the worker is doing. -/
def Act.lands (a : Act W) (b : Block W) : Prop :=
  match a with
  | .recvHome w => ∃ m ∈ (b.cacher w).toHome.head?, m.isRdma = true
  | .recv w => ∃ m ∈ (b.cacher w).fromHome.head?, m.isRdma = true
  | _ => False

/-- All that a step at place `n` can do; `cur` is the block's value, which a READ gets if `fresh`.
Where the data of a one-sided write land, nothing ends. -/
inductive Desk.Work (n : Place W) (cur : Data) (fresh lands : Prop) (d : Desk) :
    Act W → List (Ev W) → Desk → Prop
  | hit (q : Request) (ptr : Ptr) (data : Data) (hq : q.op = .read) (hd : fresh → data = cur) :
    Work n cur fresh lands d (.access n q ptr) [.copyOut q data] d
  | effect (q : Request) (ptr : Ptr) (hq : q.op = .write) :
    Work n cur fresh lands d (.access n q ptr) [.effect q] d
  | rlock (q : Request) (ptr : Ptr) (hq : q.op.isRLock = true) (hn : d.locks q.addr ≠ exclusive) :
    Work n cur fresh lands d (.access n q ptr) [.lock n q]
      { d with locks := Function.update d.locks q.addr (d.locks q.addr + 1) }
  | wlock (q : Request) (ptr : Ptr) (hq : q.op.isLock = true ∧ q.op.writes = true)
      (hn : d.locks q.addr = 0) :
    Work n cur fresh lands d (.access n q ptr) [.lock n q]
      { d with locks := Function.update d.locks q.addr exclusive }
  | fail (q : Request) (ptr : Ptr) (hq : q.op.isTry = true) :
    Work n cur fresh lands d (.access n q ptr) [.fail q] d
  | park (q : Request) (ptr : Ptr) :
    Work n cur fresh lands d (.access n q ptr) [.park q] { d with locals := d.locals ++ [q] }
  | pend (q : Request) (ptr : Ptr) (hp : d.pend = none) :
    Work n cur fresh lands d (.access n q ptr) [.pend q] { d with pend := some (q.op.writes, q) }
  | unlock (thread addr : Nat) :
    Work n cur fresh lands d (.unlock n thread addr) [.unlock n thread addr]
      { d with locks := Function.update d.locks addr (unLocked (d.locks addr)) }.serve
  | drop (q : Request) (rest : List Request) (ha : d.agenda = q :: rest) :
    Work n cur fresh lands d (.drop n) [] { d with agenda := rest }
  | ends (a : Act W) (es : List (Ev W)) (locks : Nat → Nat) (ha : a.isHandler = true)
      (hl : ¬ lands) (he : Ends n cur d.pend d.locks es locks) :
    Work n cur fresh lands d a es { d with pend := none, locks := locks }.serve
  | again (a : Act W) (q : Request) (ha : a.isHandler = true) (hl : ¬ lands)
      (hp : d.pend = some (true, q)) (hq : q.op.isLock = true) :
    Work n cur fresh lands d a [.park q] { d with pend := none, locals := d.locals ++ [q] }.serve
  | quiet (a : Act W) (ha : a.isHandler = true) : Work n cur fresh lands d a [] d

/-! ## At the home -/

section
variable {f : Slack} {i : Nat} {cur mem₀ : Data} {b b' : Block W} {role : W → Role} {tok : W → Tok W}
  {a : Act W} {h : Home W} {c : Cacher W} {w : W} {fresh lands : Prop}

theorem Item.filterMap_local_serve {R : Type*} (ls : List Request) (rest : List (Item R)) :
    (ls.map Item.local ++ Item.load :: rest).filterMap Item.local? =
      ls ++ rest.filterMap Item.local? := by
  simp [List.filterMap_append, List.filterMap_map, Function.comp_def, List.filterMap_cons]

theorem Home.desk_processToServe (h : Home W) : h.processToServe.desk = h.desk.serve := by
  unfold desk processToServe Desk.serve
  rw [Item.filterMap_local_serve]
  rfl

theorem Home.desk_done (h : Home W) : h.done.desk = { h.desk with pend := none }.serve :=
  Home.desk_processToServe { h with pending := none }

theorem Locks.lookup_of_count {l : Locks} {addr n : Nat} (h : l.count addr = n) (hn : n ≠ 0) :
    l.lookup addr = some n := by
  unfold count at h
  cases hl : l.lookup addr with
  | none => exact absurd (by simpa [hl] using h.symm) hn
  | some k => simpa [hl] using h

/-- The exclusive tag stands in an entry in DIR_UNSHARED only. -/
theorem Phase.unshared_of_exclusive (hph : Phase cur h role tok) {addr : Nat}
    (hx : h.entry.locks.lookup addr = some exclusive) : h.entry.getState = .unshared := by
  have hbelow {d : DirEntry W} (he : h.entry = some d) (hk : d.locks.Below exclusive) : False := by
    rw [he] at hx
    exact absurd (hk addr exclusive hx) (lt_irrefl _)
  cases hph with
  | unshared hp hs => exact hs
  | shared d he hp hs hl hn hk => exact (hbelow he hk).elim
  | dirty d o p he hp hs hl hk => exact (hbelow he (.of_not_isBlockLocked hk)).elim
  | toShared d o p x q he hp hs hl hk => exact (hbelow he (.of_not_isBlockLocked hk)).elim
  | take d o p x q he hp hs hl hk => exact (hbelow he (.of_not_isBlockLocked hk)).elim
  | invalidate d x q n st t hq he hp hs hk => exact (hbelow he hk).elim

theorem Phase.count_unLock (hph : Phase cur h role tok) (addr : Nat) :
    (h.entry.unLock addr).count =
      Function.update h.entry.count addr (unLocked (h.entry.count addr)) := by
  have hx : h.entry.locks.lookup addr = some exclusive → h.entry.getState = .unshared :=
    hph.unshared_of_exclusive
  generalize h.entry = e at hx ⊢
  cases e with
  | none =>
    symm
    exact Function.update_eq_self_iff.mpr rfl
  | some d =>
    have hn : (if Dir.isWLocked (some d) addr then 0 else (d.locks.lookup addr).getD 0 - 1) =
        unLocked (Dir.count (some d) addr) := by
      change _ = unLocked ((d.locks.lookup addr).getD 0)
      cases hl : d.locks.lookup addr with
      | none => simp [unLocked, Dir.isWLocked, Dir.locks, hl]
      | some k =>
        by_cases hk : k = exclusive
        · subst hk
          have hs := hx hl
          simp [unLocked, Dir.isWLocked, Dir.locks, hl, hs]
        · simp [unLocked, Dir.isWLocked, Dir.locks, hl, hk]
    simp only [Dir.unLock, hn]
    generalize hl : (if unLocked (Dir.count (some d) addr) = 0 then d.locks.erase addr
      else d.locks.insert addr (unLocked (Dir.count (some d) addr))) = locks
    have hc : Locks.count locks = Function.update (Dir.count (some d)) addr
        (unLocked (Dir.count (some d) addr)) := by
      rw [← hl]
      split
      · rename_i h0
        rw [h0]
        exact Locks.count_erase
      · exact Locks.count_insert _
    split
    · rename_i hfree
      rw [← hc]
      exact Dir.count_erased (d := { d with locks := locks }) (by simpa using (Bool.and_eq_true_iff.mp hfree).2)
    · exact hc

theorem Phase.parent_eq_none (hph : Phase cur h role tok) (ht : h.entry.inTransition = false) :
    h.parent = none := by
  have hp := hph.inTransition
  rw [ht] at hp
  rw [Home.parent, Option.isNone_iff_eq_none.mp (Option.isSome_eq_false_iff.mp hp.symm)]
  rfl

/-- Outside of a transition, the memory of the home has the block's value unless somebody owns it. -/
theorem Phase.mem_eq (hph : Phase cur h role tok) (ht : h.entry.inTransition = false)
    (hd : h.entry.getState ≠ .dirty) : h.mem = cur := by
  have hnot {d : DirEntry W} {s : DirState} (he : h.entry = some d) (hs : d.state = s)
      (hi : s.inTransition = true) : False := by
    simp [he, Dir.inTransition, Dir.getState, hs, hi] at ht
  cases hph with
  | unshared hp hs hl hk hm => exact hm
  | shared d he hp hs hl hn hk hm => exact hm
  | dirty d o p he hp hs => exact absurd (by rw [he]; exact hs) hd
  | toShared d o p x q he hp hs => exact (hnot he hs rfl).elim
  | take d o p x q he hp hs => exact (hnot he hs (by split <;> rfl)).elim
  | invalidate d x q n st t hq he hp hs hk hkx hm => exact hm

theorem HomeServed.work {q : Request} {o : Home.Result W} {ptr : Ptr} (hs : HomeServed i h q o)
    (hph : Phase cur h role tok) :
    Desk.Work none cur fresh lands h.desk (.access none q ptr) o.evs o.st.desk := by
  cases hs with
  | park => exact .park q ptr
  | fail ht => exact .fail q ptr ht
  | read hq ht hd => exact .hit q ptr h.mem hq fun _ => hph.mem_eq ht hd
  | effect hq ht => exact .effect q ptr hq
  | lock hq ht e he =>
    obtain ⟨hr, he⟩ | ⟨hr, hs, he⟩ := he
    · have hd : Home.desk { h with entry := e } = { h.desk with
          locks := Function.update h.entry.count q.addr (h.entry.count q.addr + 1) } := by
        rw [← Dir.count_rLock he]
        rfl
      rw [hd]
      refine .rlock q ptr hr fun hx => ?_
      have hl := Locks.lookup_of_count hx (by decide)
      have hw := (Dir.rLock_eq he).1
      simp [Dir.isWLocked, hph.unshared_of_exclusive hl, hl] at hw
    · obtain ⟨h0, hc⟩ := Dir.count_wLock hs he
      have hd : Home.desk { h with entry := e } = { h.desk with
          locks := Function.update h.entry.count q.addr exclusive } := by
        rw [← hc]
        rfl
      rw [hd]
      refine .wlock q ptr ⟨hq, ?_⟩ h0
      cases hop : q.op <;> simp_all [Op.isRLock, Op.isLock, Op.writes]
  | fetchAndShared ht hq =>
    have hd : (h.fetchAndShared q).st.desk = { h.desk with pend := some (q.op.writes, q) } := by
      simp only [Home.desk, Home.fetchAndShared, Dir.count_setState, hq]
      rfl
    rw [hd]
    exact .pend q ptr (hph.parent_eq_none ht)
  | invalidateAll ht hq =>
    have hd : (h.invalidateAll q).evs = [.pend q] ∧
        (h.invalidateAll q).st.desk = { h.desk with pend := some (q.op.writes, q) } := by
      unfold Home.invalidateAll
      dsimp only
      split
      · simp only [Home.desk, Dir.count_setState, hq]
        exact ⟨trivial, rfl⟩
      · simp only [Home.desk, Dir.count_setState, hq]
        exact ⟨trivial, rfl⟩
    rw [hd.1, hd.2]
    exact .pend q ptr (hph.parent_eq_none ht)

variable [DecidableEq W]

theorem Phase.work_processOwn (hph : Phase cur h role tok) (ha : a.isHandler = true) (w : W)
    (o : Own) : Desk.Work none cur fresh lands h.desk a (h.processOwn w o).evs (h.processOwn w o).st.desk := by
  obtain ⟨⟨hl, hag, hk⟩, hp⟩ := processOwn_frame h w o
  have hpar : (h.processOwn w o).st.parent = h.parent := by
    obtain hp | ⟨ht, p, hp, hn⟩ := hp
    · rw [Home.parent, hp]
      rfl
    · rw [hph.parent_eq_none ht, Home.parent, hp]
      exact hn
  have hd : (h.processOwn w o).st.desk = h.desk := by
    unfold Home.desk
    rw [hl, hag, hk, hpar]
  rw [processOwn_evs, hd]
  exact .quiet a ha

omit [DecidableEq W] in
theorem Heard.work {o : Home.Result W} (ho : Heard cur h o) (ha : a.isHandler = true)
    (hlands : ¬ lands) :
    Desk.Work none cur fresh lands h.desk a o.evs o.st.desk := by
  cases ho with
  | wait h' hp hpar hk hl hag =>
    have hd : h'.desk = h.desk := by
      unfold Home.desk
      rw [hpar, hk, hl, hag]
    rw [hd]
    exact .quiet a ha
  | ended h' sent evs he hl hag =>
    have hd : h'.done.desk = { h.desk with pend := none, locks := h'.entry.count }.serve := by
      rw [Home.desk_done]
      unfold Home.desk
      rw [hl, hag]
    rw [hd]
    exact .ends a evs _ ha hlands he
  | park h' q hp hq hk hl hag =>
    have hd : (h'.park q).done.desk =
        { h.desk with pend := none, locals := h.desk.locals ++ [q] }.serve := by
      rw [Home.desk_done]
      unfold Home.desk Home.park
      rw [hl, hag, hk]
    rw [hd]
    exact .again a q ha hlands hp hq

theorem Inv.work_home (hi : Inv f i cur b role tok) {o : Home.Result W} (hlands : lands → a.lands b)
    (ho : HomeHandler i b a o) :
    Desk.Work none cur fresh lands b.home.desk a o.evs o.st.desk := by
  cases ho with
  | access q ptr => exact (homeServed_access i b.home q).work hi.phase
  | unlock thread addr =>
    have hd : (b.home.unLock thread addr).st.desk = { b.home.desk with
        locks := Function.update b.home.entry.count addr (unLocked (b.home.entry.count addr)) }.serve := by
      rw [← hi.phase.count_unLock]
      exact Home.desk_processToServe { b.home with entry := b.home.entry.unLock addr }
    rw [hd]
    exact .unlock thread addr
  | recv w m ms hc =>
    cases m with
    | own o => exact hi.phase.work_processOwn rfl w o
    | ack r =>
      refine (hi.recv_ack hc).heard.work rfl fun hl => ?_
      simpa [Act.lands, hc, ToHome.isRdma] using hlands hl
    | rdmaWrite d => exact .quiet _ rfl
  | remote w o rest hag =>
    have hd : b.home.desk = Home.desk { b.home with agenda := rest } := by
      unfold Home.desk
      rw [hag]
      rfl
    rw [hd]
    have hph : Phase cur { b.home with agenda := rest } role tok :=
      hi.phase.frame rfl rfl (.inl rfl)
    exact hph.work_processOwn (a := .replay none) rfl w o
  | load rest hag =>
    have hd : Home.desk { b.home with
        serve := [], agenda := b.home.serve.map .remote ++ rest } = b.home.desk := by
      unfold Home.desk
      simp [hag, List.filterMap_append, List.filterMap_map, Function.comp_def, List.filterMap_cons,
        Home.parent]
    rw [hd]
    exact .quiet _ rfl
  | drop q rest hag =>
    refine .drop q (rest.filterMap Item.local?) ?_
    simp [Home.desk, hag]

/-! ## At a caching worker -/

omit [DecidableEq W] in
theorem Cacher.desk_processToServe (c : Cacher W) : c.processToServe.desk = c.desk.serve := by
  unfold desk processToServe Desk.serve
  rw [Item.filterMap_local_serve]

omit [DecidableEq W] in
theorem Cacher.desk_done (c : Cacher W) : c.done.desk = { c.desk with pend := none }.serve :=
  Cacher.desk_processToServe { c with pending := none }

omit [DecidableEq W] in
/-- A line in place of another, with the same locks. -/
theorem Cacher.desk_line {l l' : Line} (hl : c.line = some l) (hk : l'.locks = l.locks) :
    Cacher.desk { c with line := some l' } = c.desk := by
  unfold desk
  simp [hl, hk]

omit [DecidableEq W] in
theorem Cacher.locks_eq {l : Line} (hl : c.line = some l) : c.desk.locks = l.locks.count := by
  unfold desk
  rw [hl]
  rfl

omit [DecidableEq W] in
theorem Served.work {parked : List Own} {r : Role} {q : Request} {ptr : Ptr} {o : Cacher.Result W}
    (hs : Served i c w q ptr o) (hcfg : Cfg f i cur r (c.view parked))
    (hfresh : fresh → f.stale = false ∧
      ¬ (q.op = .read ∧ ∃ l ∈ c.line, l.state.inTransition = true)) :
    Desk.Work (some w) cur fresh lands c.desk (.access (some w) q ptr) o.evs o.st.desk := by
  cases hs with
  | hit l hl hs hq =>
    refine .hit q ptr l.data hq fun hf => ?_
    obtain ⟨hst, hnot⟩ := hfresh hf
    have ht : l.state.inTransition ≠ true := fun ht => hnot ⟨hq, l, hl, ht⟩
    obtain hs | hs | hs | ⟨hs, -⟩ := hs
    · obtain ⟨-, ⟨-, hst'⟩ | ⟨-, hd⟩⟩ := hcfg.line_shared hl hs
      · simp [hst] at hst'
      · exact hd
    · exact (hcfg.line_dirty hl hs).2.2.2
    · simp [hs, CacheState.inTransition] at ht
    · simp [hs, CacheState.inTransition] at ht
  | park => exact .park q ptr
  | fail hq => exact .fail q ptr hq
  | miss hl =>
    have hp : c.desk.pend = none := by
      simp [Cacher.desk, show c.pending = none from (hcfg.line_none hl).1.1]
    have hd : (c.miss q ptr).evs = [.pend q] ∧
        (c.miss q ptr).st.desk = { c.desk with pend := some (q.op.writes, q) } := by
      unfold Cacher.miss Cacher.desk
      rw [hl]
      cases hq : q.op <;> exact ⟨rfl, rfl⟩
    rw [hd.1, hd.2]
    exact .pend q ptr hp
  | upgrade l hl hs hq =>
    have hp : c.desk.pend = none := by
      simp [Cacher.desk, show c.pending = none from (hcfg.line_shared hl hs).1.1.pending]
    have hw : q.op.writes = true := by
      obtain hq | ⟨t, hq⟩ := hq <;> rw [hq] <;> rfl
    have hd : (c.upgrade i l q).st.desk = { c.desk with pend := some (q.op.writes, q) } := by
      unfold Cacher.upgrade Cacher.desk
      rw [hl, hw]
      rfl
    rw [hd]
    exact .pend q ptr hp
  | effect l hl hs hq =>
    have hd : Cacher.desk { c with line := some { l with data := q.apply i l.data } } = c.desk :=
      Cacher.desk_line hl rfl
    rw [hd]
    exact .effect q ptr hq
  | rlock l hl hs hq hn =>
    have hd : Cacher.desk { c with line := some { l with locks := l.locks.share q.addr } } =
        { c.desk with
          locks := Function.update c.desk.locks q.addr (c.desk.locks q.addr + 1) } := by
      rw [Cacher.locks_eq hl, ← Locks.count_share]
      rfl
    rw [hd]
    refine .rlock q ptr ?_ fun hx => ?_
    · obtain ⟨t, hq⟩ := hq
      rw [hq]
      rfl
    · rw [Cacher.locks_eq hl] at hx
      exact hn (Locks.lookup_of_count hx (by decide))
  | wlock l hl hs hq hn =>
    have hd : Cacher.desk
        { c with line := some { l with locks := l.locks.insert q.addr exclusive } } =
        { c.desk with locks := Function.update c.desk.locks q.addr exclusive } := by
      rw [Cacher.locks_eq hl, ← Locks.count_insert]
      rfl
    rw [hd]
    refine .wlock q ptr ?_ ?_
    · obtain ⟨t, hq⟩ := hq
      rw [hq]
      exact ⟨rfl, rfl⟩
    · rw [Cacher.locks_eq hl]
      simp [Locks.count, hn]

omit [DecidableEq W] in
/-- A line without locks may go. -/
theorem Cacher.desk_no_line {l : Line} (hl : c.line = some l) (hk : l.locks.isBlockLocked = false) :
    Cacher.desk { c with line := none } = c.desk := by
  have hc : l.locks.count = fun _ => 0 := funext fun a => Locks.count_of_not_isBlockLocked hk
  unfold desk
  simp [hl, hc]

omit [DecidableEq W] in
theorem Cacher.surrender_queues (c : Cacher W) (x : Ask W) (l : Line) (deadlock : Bool) :
    (c.surrender x l deadlock).st.locals = c.locals ∧
      (c.surrender x l deadlock).st.agenda = c.agenda := by
  cases x <;> cases deadlock <;> exact ⟨rfl, rfl⟩

omit [DecidableEq W] in
theorem Cacher.processAsk_queues (c : Cacher W) (x : Ask W) :
    (c.processAsk x).st.locals = c.locals ∧ (c.processAsk x).st.agenda = c.agenda := by
  have hread (r : Option W) : (c.processRemoteReadCache x r).st.locals = c.locals ∧
      (c.processRemoteReadCache x r).st.agenda = c.agenda := by
    unfold processRemoteReadCache
    dsimp only
    split
    · exact ⟨rfl, rfl⟩
    split
    · exact ⟨rfl, rfl⟩
    split
    · split
      · exact ⟨rfl, rfl⟩
      · exact ⟨rfl, rfl⟩
    · exact ⟨rfl, rfl⟩
  have hwrite : (c.processRemoteWriteCache x).st.locals = c.locals ∧
      (c.processRemoteWriteCache x).st.agenda = c.agenda := by
    unfold processRemoteWriteCache
    dsimp only
    split
    · split
      · exact ⟨rfl, rfl⟩
      · exact ⟨rfl, rfl⟩
    split
    · exact ⟨rfl, rfl⟩
    split
    · split
      · exact ⟨rfl, rfl⟩
      split
      · exact surrender_queues _ _ _ _
      · exact ⟨rfl, rfl⟩
    · exact surrender_queues _ _ _ _
  cases x <;> first | exact hread _ | exact hwrite

omit [DecidableEq W] in
/-- A stable line without a pending request: it stays, with its locks, or goes if it has none. -/
theorem Cacher.processAsk_stable {l : Line} (hl : c.line = some l)
    (ht : l.state.inTransition = false) (x : Ask W) :
    ((c.processAsk x).st.pending = c.pending ∨ (c.processAsk x).st.pending = some .pendingInvalidate) ∧
    ((∃ l', (c.processAsk x).st.line = some l' ∧ l'.locks = l.locks) ∨
      ((c.processAsk x).st.line = none ∧ l.locks.isBlockLocked = false)) := by
  have hread (r : Option W) : (c.processRemoteReadCache x r).st.pending = c.pending ∧
      ∃ l', (c.processRemoteReadCache x r).st.line = some l' ∧ l'.locks = l.locks := by
    simp only [processRemoteReadCache, hl, ht, Bool.false_eq_true, if_false]
    split
    · exact ⟨rfl, l, hl, rfl⟩
    split
    · split
      · exact ⟨rfl, l, hl, rfl⟩
      · exact ⟨rfl, l, hl, rfl⟩
    · exact ⟨rfl, _, rfl, rfl⟩
  have hdead : ((Ask.isInvalidate x && decide (l.state = .toDirty)) || decide (l.state = .toInvalid)) =
      false := by
    cases hs : l.state <;> simp [hs, CacheState.inTransition] at ht ⊢
  have hwrite : ((c.processRemoteWriteCache x).st.pending = c.pending ∨
        (c.processRemoteWriteCache x).st.pending = some .pendingInvalidate) ∧
      ((∃ l', (c.processRemoteWriteCache x).st.line = some l' ∧ l'.locks = l.locks) ∨
        ((c.processRemoteWriteCache x).st.line = none ∧ l.locks.isBlockLocked = false)) := by
    simp only [processRemoteWriteCache, hl, ht, hdead, Bool.false_and, Bool.false_eq_true, if_false]
    split
    · split
      · exact ⟨.inl rfl, .inl ⟨l, hl, rfl⟩⟩
      · exact ⟨.inl rfl, .inl ⟨l, hl, rfl⟩⟩
    · rename_i hk
      have hk : l.locks.isBlockLocked = false := by simpa using hk
      cases x with
      | fetchAndInvalidate | writeForward => exact ⟨.inr rfl, .inl ⟨_, rfl, rfl⟩⟩
      | _ => exact ⟨.inl rfl, .inr ⟨rfl, hk⟩⟩
  cases x with
  | fetchAndShared t => exact ⟨.inl (hread _).1, .inl (hread _).2⟩
  | readForward r t => exact ⟨.inl (hread _).1, .inl (hread _).2⟩
  | _ => exact hwrite

omit [DecidableEq W] in
/-- Nothing on the desk changes when the home asks. -/
theorem Cfg.desk_processAsk {parked : List Own} {r : Role} (hcfg : Cfg f i cur r (c.view parked))
    (x : Ask W) : (c.processAsk x).st.desk = c.desk := by
  obtain ⟨hloc, hag⟩ := c.processAsk_queues x
  have hdesk (hp : (c.processAsk x).st.pending.bind Pending.parent = c.pending.bind Pending.parent)
      (hk : (c.processAsk x).st.desk.locks = c.desk.locks) : (c.processAsk x).st.desk = c.desk := by
    rw [Desk.mk.injEq]
    exact ⟨hp, hloc, congrArg (List.filterMap Item.local?) hag, hk⟩
  cases hl : c.line with
  | none =>
    cases x <;> {
      simp only [Cacher.processAsk, Cacher.processRemoteReadCache, Cacher.processRemoteWriteCache, hl]
      rfl }
  | some l =>
    cases ht : l.state.inTransition with
    | true =>
      obtain ⟨hl', hp'⟩ := Cacher.processAsk_inTransition hl ht x
      refine hdesk (by rw [hp']) ?_
      unfold Cacher.desk
      rw [hl']
    | false =>
      have hp : c.pending = none := by
        cases hs : l.state with
        | shared => exact (hcfg.line_shared hl hs).1.1.pending
        | dirty => exact (hcfg.line_dirty hl hs).1.pending
        | _ => simp [hs, CacheState.inTransition] at ht
      obtain ⟨hp', hl'⟩ := Cacher.processAsk_stable hl ht x
      refine hdesk ?_ ?_
      · rw [hp] at hp' ⊢
        obtain hp' | hp' := hp'
        · rw [hp']
        · rw [hp']
          rfl
      · rw [Cacher.locks_eq hl]
        obtain ⟨l', hl', hk⟩ | ⟨hl', hk⟩ := hl'
        · rw [Cacher.locks_eq hl', hk]
        · funext a
          rw [Locks.count_of_not_isBlockLocked hk]
          simp [Cacher.desk, hl']

omit [DecidableEq W] in
theorem Cfg.work_processAsk {parked : List Own} {r : Role} (hcfg : Cfg f i cur r (c.view parked))
    (x : Ask W) (ha : a.isHandler = true) :
    Desk.Work (some w) cur fresh lands c.desk a (c.processAsk x).evs (c.processAsk x).st.desk := by
  rw [processAsk_evs, hcfg.desk_processAsk]
  exact .quiet a ha

omit [DecidableEq W] in
theorem Cacher.desk_mapLine (g : Line → Line) (hg : ∀ l, (g l).locks = l.locks) :
    (c.mapLine g).desk = c.desk := by
  unfold mapLine desk
  cases c.line with
  | none => rfl
  | some l => simp [hg]

omit [DecidableEq W] in
theorem Cacher.desk_setState (s : CacheState) : (c.setState s).desk = c.desk :=
  desk_mapLine _ fun _ => rfl

omit [DecidableEq W] in
theorem Cacher.desk_mapLine_locks {l : Line} (hl : c.line = some l) (g : Line → Line) :
    (c.mapLine g).desk = { c.desk with locks := (g l).locks.count } := by
  unfold mapLine desk
  simp [hl]

omit [DecidableEq W] in
theorem Cacher.desk_land (d : Option Data) : (c.land d).desk = c.desk := by
  cases d with
  | none => rfl
  | some d => exact desk_mapLine _ fun _ => rfl

omit [DecidableEq W] in
/-- The READ or RLOCK that waited gets its data, or the first lock of the line. -/
theorem work_processPendingRead {l : Line} {n : Int} {st : Option Status} {q : Request}
    (hp : c.pending = some (.fetch .read n st q)) (hl : c.line = some l) (hs : ReadLine l)
    (hd : l.data = cur) (ha : a.isHandler = true) (hlands : ¬ lands) :
    Desk.Work (some w) cur fresh lands c.desk a (c.processPendingRead w q).evs
      (c.processPendingRead w q).st.desk := by
  have hpar : c.desk.pend = some (false, q) := by
    simp [Cacher.desk, hp, Pending.parent]
  have hline : (c.setState .shared).line = some { l with state := .shared } := by
    simp [Cacher.setState, Cacher.mapLine, hl]
  unfold Cacher.processPendingRead
  dsimp only
  split
  · rename_i hq
    have h0 : l.locks.count q.addr = 0 := Locks.count_of_not_isBlockLocked hs.locks
    have hx : l.locks.lookup q.addr ≠ some exclusive := by
      simp [Locks.lookup_of_not_isBlockLocked hs.locks]
    have hk : Locks.count (if l.locks.lookup q.addr = some exclusive then { l with state := .shared }
        else { l with state := .shared, locks := l.locks.share q.addr } : Line).locks =
        Function.update c.desk.locks q.addr 1 := by
      rw [if_neg hx, Cacher.locks_eq hl]
      exact Locks.count_share.trans (by rw [h0])
    rw [Cacher.desk_done, Cacher.desk_mapLine_locks hline, Cacher.desk_setState]
    exact hk ▸ .ends a _ _ ha hlands (.lock false q hpar hq (by rw [Cacher.locks_eq hl, h0]))
  · rename_i hq
    have hev : ((c.setState .shared).line.map fun l => (.copyOut q l.data : Ev W)).toList ++ [.reply q] =
        [.copyOut q cur, .reply q] := by
      simp [hline, hd]
    rw [hev, Cacher.desk_done, Cacher.desk_setState]
    exact .ends a _ c.desk.locks ha hlands (.read q hpar (by simpa using hq))

omit [DecidableEq W] in
/-- The WRITE or WLOCK that waited has the only copy. -/
theorem work_finishWrite {l : Line} {op : Fetch} {n : Int} {st : Option Status} {q : Request}
    (hp : c.pending = some (.fetch op n st q)) (hl : c.line = some l) (hop : op ≠ .read)
    (ha : a.isHandler = true) (hlands : ¬ lands) :
    Desk.Work (some w) cur fresh lands c.desk a (c.finishWrite i w q).evs
      (c.finishWrite i w q).st.desk := by
  have hpar : c.desk.pend = some (true, q) := by
    simp [Cacher.desk, hp, Pending.parent, hop]
  have hline : (c.mapLine fun l => { l with state := .dirty, data := q.apply i l.data }).line =
      some { l with state := .dirty, data := q.apply i l.data } := by
    simp [Cacher.mapLine, hl]
  have hdesk : (c.mapLine fun l => { l with state := .dirty, data := q.apply i l.data }).desk = c.desk :=
    Cacher.desk_mapLine _ fun _ => rfl
  unfold Cacher.finishWrite
  dsimp only
  split
  · rename_i hq
    rw [hline]
    dsimp only [Option.bind_some]
    split
    · have hd : ((c.mapLine fun l => { l with state := .dirty, data := q.apply i l.data }).park
          q).done.desk = { c.desk with pend := none, locals := c.desk.locals ++ [q] }.serve := by
        rw [Cacher.desk_done, ← hdesk]
        rfl
      rw [hd]
      exact .again a q ha hlands hpar hq
    · rename_i hn
      have hn : l.locks.lookup q.addr = none := by simpa using hn
      have hk : Locks.count (AList.insert q.addr exclusive l.locks) =
          Function.update c.desk.locks q.addr exclusive := by
        rw [Cacher.locks_eq hl]
        exact Locks.count_insert _
      rw [Cacher.desk_done, Cacher.desk_mapLine_locks hline, hdesk]
      refine hk ▸ .ends a _ _ ha hlands (.lock true q hpar hq ?_)
      rw [Cacher.locks_eq hl]
      simp [Locks.count, hn]
  · rename_i hq
    rw [Cacher.desk_done, hdesk]
    exact .ends a _ c.desk.locks ha hlands (.write q hpar (by simpa using hq))

omit [DecidableEq W] in
theorem Replied.work {o : Cacher.Result W} (ho : Replied i cur c w o) (ha : a.isHandler = true)
    (hlands : ¬ lands) :
    Desk.Work (some w) cur fresh lands c.desk a o.evs o.st.desk := by
  cases ho with
  | wait d op n n' st st' q hp =>
    have hd : Cacher.desk { c.land d with pending := some (.fetch op n' st' q) } = c.desk := by
      rw [← c.desk_land d]
      unfold Cacher.desk
      rw [pending_land, hp]
      rfl
    rw [hd]
    exact .quiet a ha
  | read d l n st q hp hl hs hd =>
    rw [← c.desk_land d]
    exact work_processPendingRead ((pending_land d).trans hp) hl hs hd ha hlands
  | write d l op n st q hp hl hs =>
    rw [← c.desk_land d]
    exact work_finishWrite ((pending_land d).trans hp) hl hs.notRead ha hlands
  | failed l op n st q hp hl hs ht =>
    have hd : (c.processFailed op q).st.desk = { c.desk with pend := none }.serve := by
      unfold Cacher.processFailed
      dsimp only
      rw [Cacher.desk_done]
      split
      · rw [Cacher.desk_setState]
      · rename_i hop
        rw [Cacher.desk_no_line hl (hs hop)]
    rw [hd]
    refine .ends a _ c.desk.locks ha hlands (.failed (decide (op ≠ .read)) q ?_ ht)
    simp [Cacher.desk, hp, Pending.parent]
  | evicted l hp hl hs =>
    have hd : c.processPendingEvictDirty.st.desk = { c.desk with pend := none }.serve := by
      unfold Cacher.processPendingEvictDirty
      rw [Cacher.desk_done, Cacher.desk_no_line hl hs.locks]
    rw [hd]
    refine .ends a _ c.desk.locks ha hlands (.forwarded ?_)
    simp [Cacher.desk, hp, Pending.parent]

omit [DecidableEq W] in
theorem Cfg.leavingLine {r : Role} {v : View W} (h : Cfg f i cur r v)
    (hp : v.pending = some .pendingInvalidate) : ∃ l, v.line = some l ∧ LeavingLine l := by
  cases r <;> cases h <;> grind

theorem Inv.work_cacher (hi : Inv f i cur b role tok) {o : Cacher.Result W}
    (hfresh : fresh → f.stale = false ∧ ¬ a.transientHit b) (hlands : lands → a.lands b)
    (ho : CacherHandler i w (b.cacher w) a o) :
    Desk.Work (some w) cur fresh lands (b.cacher w).desk a o.evs o.st.desk := by
  have hat := hi.worker w
  cases ho with
  | access q ptr => exact served_access.work hat.cfg hfresh
  | unlock thread addr =>
    have hd : ((b.cacher w).mapLine fun l => { l with locks := l.locks.unLock addr }).desk =
        { (b.cacher w).desk with
          locks := Function.update (b.cacher w).desk.locks addr
            (unLocked ((b.cacher w).desk.locks addr)) } := by
      cases hl : (b.cacher w).line with
      | none =>
        have h0 : (b.cacher w).desk.locks = fun _ => 0 := by
          simp [Cacher.desk, hl]
        rw [h0, show unLocked 0 = 0 from rfl, Function.update_eq_self_iff.mpr rfl, ← h0]
        unfold Cacher.mapLine Cacher.desk
        simp [hl]
      | some l =>
        rw [Cacher.desk_mapLine_locks hl, Cacher.locks_eq hl, Locks.count_unLock]
    unfold Cacher.unLock
    rw [Cacher.desk_processToServe, hd]
    exact .unlock thread addr
  | evict c' he =>
    have hd : c'.desk = (b.cacher w).desk := by
      unfold Cacher.evict at he
      split at he
      · cases he
      · rename_i l hl
        split at he
        · cases he
        · rename_i hk
          split at he
          · cases he
            exact Cacher.desk_no_line hl (by simpa using hk)
          · rename_i hs
            cases he
            have hp : (b.cacher w).pending = none := (hat.cfg.line_dirty hl hs).1.pending
            unfold Cacher.desk
            simp [Cacher.send, hl, hp, Pending.parent]
          · cases he
    rw [hd]
    exact .quiet _ rfl
  | complete o ho =>
    unfold Cacher.complete at ho
    split at ho
    · rename_i hp
      cases ho
      have hd : (b.cacher w).processPendingEvictDirty.st.desk =
          { (b.cacher w).desk with pend := none }.serve := by
        obtain ⟨l, hl, hs⟩ := hat.cfg.leavingLine hp
        unfold Cacher.processPendingEvictDirty
        rw [Cacher.desk_done, Cacher.desk_no_line hl hs.locks]
      rw [hd]
      refine .ends _ _ _ rfl hlands (.forwarded ?_)
      simp [Cacher.desk, hp, Pending.parent]
    · cases ho
  | recv m ms hc =>
    cases m with
    | ask x =>
      obtain ⟨-, hat'⟩ := hat.take_fromHome hc
      exact hat'.cfg.work_processAsk x rfl
    | reply r =>
      by_cases hr : (FromHome.reply r : FromHome W).isRdma = true
      · cases r with
        | rdmaWrite d =>
          have hd : Cacher.desk (Cacher.land { b.cacher w with fromHome := ms } (some d)) =
              (b.cacher w).desk := Cacher.desk_land (c := { b.cacher w with fromHome := ms }) (some d)
          exact hd ▸ .quiet _ rfl
        | _ => cases hr
      · refine (hat.recvReply hc).2.2.work rfl fun hl => ?_
        obtain ⟨m, hm, hrdma⟩ := hlands hl
        rw [hc, List.head?_cons, Option.mem_some_iff] at hm
        exact hr (hm ▸ hrdma)
  | recvPeer v m ms hc => exact (hat.recvPeer hc).2.2.work rfl hlands
  | remote x rest hag =>
    obtain ⟨-, hat'⟩ := hat.take_agenda hag
    have hd : (b.cacher w).desk = Cacher.desk { b.cacher w with agenda := rest } := by
      unfold Cacher.desk
      rw [hag]
      rfl
    rw [hd]
    exact hat'.cfg.work_processAsk x rfl
  | load rest hag =>
    have hd : Cacher.desk { b.cacher w with
        serve := [], agenda := (b.cacher w).serve.map .remote ++ rest } = (b.cacher w).desk := by
      unfold Cacher.desk
      simp [hag, List.filterMap_append, List.filterMap_map, Function.comp_def, List.filterMap_cons]
    rw [hd]
    exact .quiet _ rfl
  | drop q rest hag =>
    refine .drop q (rest.filterMap Item.local?) ?_
    simp [Cacher.desk, hag]

/-! ## Every step -/

omit [DecidableEq W] in
theorem Cacher.Same.desk {c' : Cacher W} (h : c.Same c') : c'.desk = c.desk := by
  unfold Cacher.desk
  rw [h.line, h.pending, h.locals, h.agenda]

/-- A step does the work of its place; the other desks stay as they are. -/
theorem Good.work (hg : Good f i mem₀ b) (hs : Coherence.step i a b = some b') :
    ∃ es, b'.log = b.log ++ es ∧
      Desk.Work a.place (Block.value i mem₀ b.log) (f.stale = false ∧ ¬ a.transientHit b)
        (a.lands b) (b.desk a.place) a es (b'.desk a.place) ∧
      ∀ n, n ≠ a.place → b'.desk n = b.desk n := by
  obtain ⟨role, tok, hi⟩ := hg
  obtain ⟨o, ho, hran⟩ | ⟨w, o, ho, hran⟩ := step_inv hs
  · have hplace : a.place = none := by
      cases ho <;> rfl
    refine ⟨o.evs, hran.log, ?_, fun n hn => ?_⟩
    · rw [hplace]
      simp only [Block.desk, hran.home]
      exact hi.work_home (fun h => h) ho
    · rw [hplace] at hn
      obtain ⟨u, rfl⟩ := Option.ne_none_iff_exists'.mp hn
      exact (hran.cacher u).desk
  · have hplace : a.place = some w := by
      cases ho <;> rfl
    refine ⟨o.evs, hran.log, ?_, fun n hn => ?_⟩
    · rw [hplace]
      simp only [Block.desk, hran.self.desk]
      exact hi.work_cacher (fun h => h) (fun h => h) ho
    · rw [hplace] at hn
      cases n with
      | none =>
        simp only [Block.desk, hran.home]
      | some u => exact (hran.cacher u fun h => hn (by rw [h])).desk

end

end HwGam.Coherence
