import HwGam.Coherence.Step

/-!
# What a step of a block can do

A step runs one handler, at the home or at a caching worker. The other parties keep their state, up
to the messages that are on their way to them.
-/

namespace HwGam.Coherence

variable {W : Type*}

/-- Everything but the queues of messages. -/
structure Cacher.Same (c c' : Cacher W) : Prop where
  line : c'.line = c.line
  pending : c'.pending = c.pending
  serve : c'.serve = c.serve
  locals : c'.locals = c.locals
  agenda : c'.agenda = c.agenda

theorem Cacher.Same.refl (c : Cacher W) : c.Same c := ⟨rfl, rfl, rfl, rfl, rfl⟩

section
variable [DecidableEq W] (i : Nat)

/-- The handlers of the home, with their results. -/
inductive HomeHandler (b : Block W) : Act W → Home.Result W → Prop
  | access (q : Request) (ptr : Ptr) : HomeHandler b (.access none q ptr) (b.home.access i q)
  | unlock (thread addr : Nat) :
    HomeHandler b (.unlock none thread addr) (b.home.unLock thread addr)
  | recv (w : W) (m : ToHome) (ms : List ToHome) (hc : (b.cacher w).toHome = m :: ms) :
    HomeHandler b (.recvHome w) (b.home.recv i w m)
  | remote (w : W) (o : Own) (rest : List (Item (W × Own)))
      (ha : b.home.agenda = .remote (w, o) :: rest) :
    HomeHandler b (.replay none) ({ b.home with agenda := rest }.processOwn w o)
  | load (rest : List (Item (W × Own))) (ha : b.home.agenda = .load :: rest) :
    HomeHandler b (.replay none)
      { st := { b.home with serve := [], agenda := b.home.serve.map .remote ++ rest } }
  | drop (q : Request) (rest : List (Item (W × Own))) (ha : b.home.agenda = .local q :: rest) :
    HomeHandler b (.drop none) { st := { b.home with agenda := rest } }

/-- The handlers of the caching worker `w`, with their results. -/
inductive CacherHandler (w : W) (c : Cacher W) : Act W → Cacher.Result W → Prop
  | access (q : Request) (ptr : Ptr) :
    CacherHandler w c (.access (some w) q ptr) (c.access i w q ptr)
  | unlock (thread addr : Nat) :
    CacherHandler w c (.unlock (some w) thread addr) (c.unLock w thread addr)
  | evict (c' : Cacher W) (he : c.evict = some c') : CacherHandler w c (.evict w) { st := c' }
  | complete (o : Cacher.Result W) (ho : c.complete = some o) : CacherHandler w c (.complete w) o
  | recv (m : FromHome W) (ms : List (FromHome W)) (hc : c.fromHome = m :: ms) :
    CacherHandler w c (.recv w) ({ c with fromHome := ms }.recvHome i w m)
  | recvPeer (o : W) (m : PeerMsg) (ms : List (W × PeerMsg))
      (hc : takeFrom o c.fromPeers = some (m, ms)) :
    CacherHandler w c (.recvPeer o w) ({ c with fromPeers := ms }.recvPeer i w m)
  | remote (a : Ask W) (rest : List (Item (Ask W))) (ha : c.agenda = .remote a :: rest) :
    CacherHandler w c (.replay (some w)) ({ c with agenda := rest }.processAsk a)
  | load (rest : List (Item (Ask W))) (ha : c.agenda = .load :: rest) :
    CacherHandler w c (.replay (some w))
      { st := { c with serve := [], agenda := c.serve.map .remote ++ rest } }
  | drop (q : Request) (rest : List (Item (Ask W))) (ha : c.agenda = .local q :: rest) :
    CacherHandler w c (.drop (some w)) { st := { c with agenda := rest } }

/-- A handler of the home has run. -/
structure HomeRan (b : Block W) (o : Home.Result W) (b' : Block W) : Prop where
  home : b'.home = o.st
  log : b'.log = b.log ++ o.evs
  cacher : ∀ u, (b.cacher u).Same (b'.cacher u)
  sent : ∀ u, (b'.cacher u).fromHome = (b.cacher u).fromHome ++ sentTo u o.sent

/-- A handler of `w` has run. -/
structure CacherRan (b : Block W) (w : W) (o : Cacher.Result W) (b' : Block W) : Prop where
  home : b'.home = b.home
  log : b'.log = b.log ++ o.evs
  self : o.st.Same (b'.cacher w)
  cacher : ∀ u, u ≠ w → (b.cacher u).Same (b'.cacher u)

variable {i} {b b' : Block W} {a : Act W} {w : W}

theorem homeRan_homeStep (o : Home.Result W) : HomeRan b o (b.homeStep o) :=
  ⟨rfl, rfl, fun _ => ⟨rfl, rfl, rfl, rfl, rfl⟩, fun _ => rfl⟩

theorem homeRan_quiet (h : Home W) : HomeRan b { st := h } { b with home := h } :=
  ⟨rfl, by simp, fun _ => .refl _, fun u => by simp [sentTo]⟩

theorem homeRan_recv (ms : List ToHome) (o : Home.Result W) :
    HomeRan b o ((b.setCacher w { b.cacher w with toHome := ms }).homeStep o) := by
  have hself : (b.setCacher w { b.cacher w with toHome := ms }).cacher w =
      { b.cacher w with toHome := ms } := by
    simp [Block.setCacher]
  have hother {u : W} (hu : u ≠ w) :
      (b.setCacher w { b.cacher w with toHome := ms }).cacher u = b.cacher u := by
    simp [Block.setCacher, hu]
  refine ⟨rfl, rfl, fun u => ?_, fun u => ?_⟩
  · by_cases hu : u = w
    · subst hu
      simp only [Block.homeStep, Block.deliver, Block.emit, hself]
      exact ⟨rfl, rfl, rfl, rfl, rfl⟩
    · simp only [Block.homeStep, Block.deliver, Block.emit, hother hu]
      exact ⟨rfl, rfl, rfl, rfl, rfl⟩
  · by_cases hu : u = w
    · subst hu
      simp only [Block.homeStep, Block.deliver, Block.emit, hself]
    · simp only [Block.homeStep, Block.deliver, Block.emit, hother hu]

theorem cacherRan_cacherStep (w : W) (o : Cacher.Result W) :
    CacherRan b w o (b.cacherStep w o) := by
  refine ⟨rfl, rfl, ?_, fun u hu => ?_⟩
  · simp only [Block.cacherStep, Block.deliverPeers, Block.setCacher, Block.emit,
      Function.update_self]
    exact ⟨rfl, rfl, rfl, rfl, rfl⟩
  · simp only [Block.cacherStep, Block.deliverPeers, Block.setCacher, Block.emit,
      Function.update_of_ne hu]
    exact ⟨rfl, rfl, rfl, rfl, rfl⟩

theorem cacherRan_setCacher (w : W) (c : Cacher W) :
    CacherRan b w { st := c } (b.setCacher w c) := by
  refine ⟨rfl, by simp [Block.setCacher], ?_, fun u hu => ?_⟩
  · simp only [Block.setCacher, Function.update_self]
    exact .refl _
  · simp only [Block.setCacher, Function.update_of_ne hu]
    exact .refl _

/-- Every step is one of the handlers. -/
theorem step_inv (hs : step i a b = some b') :
    (∃ o, HomeHandler i b a o ∧ HomeRan b o b') ∨
      ∃ w o, CacherHandler i w (b.cacher w) a o ∧ CacherRan b w o b' := by
  cases a with
  | access n q ptr =>
    cases n with
    | none =>
      cases hs
      exact .inl ⟨_, .access q ptr, homeRan_homeStep _⟩
    | some w =>
      cases hs
      exact .inr ⟨w, _, .access q ptr, cacherRan_cacherStep w _⟩
  | unlock n thread addr =>
    cases n with
    | none =>
      cases hs
      exact .inl ⟨_, .unlock thread addr, homeRan_homeStep _⟩
    | some w =>
      cases hs
      exact .inr ⟨w, _, .unlock thread addr, cacherRan_cacherStep w _⟩
  | evict w =>
    obtain ⟨c, hc, rfl⟩ := Option.map_eq_some_iff.mp hs
    exact .inr ⟨w, _, .evict c hc, cacherRan_setCacher w c⟩
  | complete w =>
    simp only [step, Option.ite_none_right_eq_some, Option.map_eq_some_iff] at hs
    obtain ⟨-, o, hc, rfl⟩ := hs
    exact .inr ⟨w, o, .complete o hc, cacherRan_cacherStep w o⟩
  | recvHome w =>
    simp only [step, recvHome] at hs
    split at hs
    · cases hs
    · rename_i m ms hc
      simp only [Option.ite_none_right_eq_some, Option.some.injEq] at hs
      obtain ⟨-, rfl⟩ := hs
      exact .inl ⟨_, .recv w m ms hc, homeRan_recv ms _⟩
  | recv w =>
    simp only [step, recv] at hs
    split at hs
    · cases hs
    · rename_i m ms hc
      simp only [Option.ite_none_right_eq_some, Option.some.injEq] at hs
      obtain ⟨-, rfl⟩ := hs
      exact .inr ⟨w, _, .recv m ms hc, cacherRan_cacherStep w _⟩
  | recvPeer o w =>
    simp only [step, recvPeer, Option.ite_none_right_eq_some, Option.map_eq_some_iff] at hs
    obtain ⟨-, y, hc, rfl⟩ := hs
    exact .inr ⟨w, _, .recvPeer o y.1 y.2 hc, cacherRan_cacherStep w _⟩
  | replay n =>
    cases n with
    | none =>
      simp only [step, replay] at hs
      split at hs
      · rename_i w o rest ha
        cases hs
        exact .inl ⟨_, .remote w o rest ha, homeRan_homeStep _⟩
      · rename_i rest ha
        cases hs
        exact .inl ⟨_, .load rest ha, homeRan_quiet _⟩
      · cases hs
    | some w =>
      simp only [step, replay] at hs
      split at hs
      · rename_i q rest ha
        cases hs
        exact .inr ⟨w, _, .remote q rest ha, cacherRan_cacherStep w _⟩
      · rename_i rest ha
        cases hs
        exact .inr ⟨w, _, .load rest ha, cacherRan_setCacher w _⟩
      · cases hs
  | drop n =>
    cases n with
    | none =>
      simp only [step, drop] at hs
      split at hs
      · rename_i q rest ha
        cases hs
        exact .inl ⟨_, .drop q rest ha, homeRan_quiet _⟩
      · cases hs
    | some w =>
      simp only [step, drop] at hs
      split at hs
      · rename_i q rest ha
        cases hs
        exact .inr ⟨w, _, .drop q rest ha, cacherRan_setCacher w _⟩
      · cases hs

end

end HwGam.Coherence
