import HwGam.Coherence.WorkerSteps

/-!
# Frames for the steps of the home

What a worker notices of a step of the home: its requests may move between the home's queues, and
messages of the home go to the end of its queue. Then how the directory's operations act on an entry
whose state is known.
-/

namespace HwGam.Coherence

variable {W : Type*} {f : Slack} {i : Nat} {cur mem mem' : Data} {parked : List Own} {r : Role}
  {t : Tok W} {c : Cacher W}

/-! ## Messages of the home -/

def Cacher.withHome (c : Cacher W) (ms : List (FromHome W)) : Cacher W :=
  { c with fromHome := c.fromHome ++ ms }

@[simp] theorem withHome_nil : c.withHome [] = c := by
  simp [Cacher.withHome]

theorem Landing.of_mem (h : Landing cur mem r t c) (hm : mem' = mem ∨ mem' = cur) :
    Landing cur mem' r t c := by
  cases h with
  | none hn hr =>
    refine .none hn fun ho hp => ?_
    obtain rfl | rfl := hm
    · exact hr ho hp
    · rfl
  | before p post hq hp hr => exact .before p post hq hp hr
  | after p a hq hp hr => exact .after p a hq hp hr

theorem At.of_mem (h : At f i cur mem parked r t c) (hm : mem' = mem ∨ mem' = cur) :
    At f i cur mem' parked r t c :=
  ⟨h.cfg, h.tok, h.ord, h.landing.of_mem hm⟩

/-- The home asks. -/
theorem At.ask (h : At f i cur mem parked r .none c) (a : Ask W) :
    At f i cur mem parked r (.ask a) (c.withHome [.ask a]) := by
  obtain ⟨hasks, hacks⟩ := h.tok
  simp only [Cacher.asks, List.append_eq_nil_iff] at hasks
  refine ⟨?_, ⟨?_, hacks⟩, ?_, (h.landing.of_isAck (by rintro ⟨⟩)).same rfl rfl⟩
  · have hv : (c.withHome [.ask a]).view parked = c.view parked := by
      simp [Cacher.view, Cacher.withHome, Cacher.replies, Cacher.inFlight, List.filterMap_cons]
    rw [hv]
    exact h.cfg
  · simp [Cacher.asks, Cacher.withHome, hasks]
  · exact List.pairwise_append.mpr ⟨h.ord, List.pairwise_singleton .., by simp⟩

/-- The home replies; it has not asked the worker anything. -/
theorem At.reply (htok : TokOk .none c) (hord : Ordered c) (rs : List Reply)
    (hcfg : Cfg f i cur r { c.view parked with rep := c.replies ++ rs })
    (hl : Landing cur mem r .none c) :
    At f i cur mem parked r .none (c.withHome (rs.map .reply)) := by
  obtain ⟨hasks, hacks⟩ := htok
  have hnone : (rs.map (FromHome.reply (W := W))).filterMap FromHome.ask? = [] := by
    simp [List.filterMap_map, Function.comp_def]
  have hrs : (rs.map (FromHome.reply (W := W))).filterMap FromHome.reply? = rs := by
    simp [List.filterMap_map, Function.comp_def]
  refine ⟨?_, ⟨?_, hacks⟩, ?_, hl.same rfl rfl⟩
  · have hv : (c.withHome (rs.map .reply)).view parked =
        { c.view parked with rep := c.replies ++ rs } := by
      simp [Cacher.view, Cacher.withHome, Cacher.replies, Cacher.inFlight, hrs]
    rw [hv]
    exact hcfg
  · simp only [Cacher.asks, List.append_eq_nil_iff] at hasks
    simp [Cacher.asks, Cacher.withHome, hasks, hnone]
  · refine List.pairwise_append.mpr ⟨hord, ?_, ?_⟩
    · exact List.pairwise_map.mpr (List.pairwise_of_forall fun _ _ => by simp)
    · intro x hx y hy
      simp only [Cacher.asks, List.append_eq_nil_iff] at hasks
      have : x.ask? = none := List.filterMap_eq_nil_iff.mp hasks.2 x hx
      cases x <;> simp_all

/-! ## The home's queues -/

section
variable [DecidableEq W] {h : Home W} {w u : W} {o : Own}

@[simp] theorem parked_processToServe : h.processToServe.parked u = h.parked u := by
  have hl : (h.locals.map (Item.local (R := W × Own))).filterMap Item.remote? = [] := by
    simp [List.filterMap_map, Function.comp_def]
  simp [Home.parked, Home.processToServe, hl, List.filterMap_cons]

@[simp] theorem parked_done : h.done.parked u = h.parked u :=
  parked_processToServe (h := { h with pending := none })

@[simp] theorem parked_park (q : Request) : (h.park q).parked u = h.parked u := rfl

theorem sentTo_append {M : Type*} (xs ys : List (W × M)) :
    sentTo u (xs ++ ys) = sentTo u xs ++ sentTo u ys := by
  simp [sentTo]

theorem sentTo_cons {M : Type*} (x : W × M) (xs : List (W × M)) :
    sentTo u (x :: xs) = (if x.1 = u then [x.2] else []) ++ sentTo u xs := by
  by_cases hx : x.1 = u <;> simp [sentTo, hx]

@[simp] theorem sentTo_singleton_self {M : Type*} (m : M) : sentTo w [(w, m)] = [m] := by
  simp [sentTo]

theorem sentTo_singleton_of_ne {M : Type*} (hu : u ≠ w) (m : M) : sentTo u [(w, m)] = [] := by
  simp [sentTo, hu.symm]

theorem mem_of_sentTo {M : Type*} {m : M} {xs : List (W × M)} (hm : m ∈ sentTo u xs) :
    (u, m) ∈ xs := by
  obtain ⟨⟨v, m'⟩, hx, he⟩ := List.mem_filterMap.mp hm
  simp only [Option.ite_none_right_eq_some, Option.some.injEq] at he
  obtain ⟨rfl, rfl⟩ := he
  exact hx

end

theorem loadNext_processToServe {h : Home W} : loadNext h.processToServe.agenda = true := by
  unfold Home.processToServe
  induction h.locals with
  | nil => rfl
  | cons q qs ih => exact ih

theorem Home.EvictsWait.done {h : Home W} : h.done.EvictsWait := fun _ _ _ =>
  .inr (loadNext_processToServe (h := { h with pending := none }))

/-! ## Phases -/

section
variable {h h' : Home W} {role : W → Role} {tok : W → Tok W}

/-- The home's queues do not matter. -/
theorem Phase.frame (hph : Phase cur h role tok) (he' : h'.entry = h.entry)
    (hp' : h'.pending = h.pending) (hm' : h'.mem = h.mem ∨ h'.mem = cur) :
    Phase cur h' role tok := by
  have hmem (hm : h.mem = cur) : h'.mem = cur := hm'.elim (·.trans hm) id
  cases hph with
  | unshared hp hs hl hk hm hw =>
    exact .unshared (hp' ▸ hp) (he' ▸ hs) (he' ▸ hl) (he' ▸ hk) (hmem hm) hw
  | shared d he hp hs hl hn hk hm hw =>
    exact .shared d (he' ▸ he) (hp' ▸ hp) hs hl hn hk (hmem hm) hw
  | dirty d o p he hp hs hl hk ho hw => exact .dirty d o p (he' ▸ he) (hp' ▸ hp) hs hl hk ho hw
  | toShared d o p x q he hp hs hl hk hstage hx hw =>
    exact .toShared d o p x q (he' ▸ he) (hp' ▸ hp) hs hl hk hstage hx hw
  | take d o p x q he hp hs hl hk hstage hx hw =>
    exact .take d o p x q (he' ▸ he) (hp' ▸ hp) hs hl hk hstage hx hw
  | invalidate d x q n st t hq he hp hs hk hkx hm hpos hc =>
    exact .invalidate d x q n st t hq (he' ▸ he) (hp' ▸ hp) hs hk hkx (hmem hm) hpos hc

/-- What an unlock leaves of a lock table. -/
structure Unlocked (l l' : Locks) : Prop where
  below : ∀ n, l.Below n → l'.Below n
  free : l.isBlockLocked = false → l'.isBlockLocked = false

theorem Unlocked.erase {l : Locks} {addr : Nat} : Unlocked l (AList.erase addr l) where
  below _ h := h.erase
  free h := Locks.not_isBlockLocked_of_lookup fun a => by
    by_cases ha : a = addr
    · rw [ha, AList.lookup_erase]
    · rw [AList.lookup_erase_ne ha, Locks.lookup_of_not_isBlockLocked h]

theorem Dir.unLock_some (d : DirEntry W) (addr : Nat) :
    ∃ l', Unlocked d.locks l' ∧ (Dir.unLock (some d) addr = some { d with locks := l' } ∨
      (d.state = .unshared ∧ Dir.unLock (some d) addr = none)) := by
  simp only [Dir.unLock]
  generalize hn : (if Dir.isWLocked (some d) addr = true then 0
    else (d.locks.lookup addr).getD 0 - 1) = n
  have hu : Unlocked d.locks (if n = 0 then d.locks.erase addr else d.locks.insert addr n) := by
    split
    · exact .erase
    · rename_i hn0
      cases hk : d.locks.lookup addr with
      | none => simp [hk] at hn; omega
      | some k =>
        have hnk : n ≤ k := by
          rw [← hn, hk]
          split <;> simp
        refine ⟨fun m hm => hm.insert (Nat.lt_of_le_of_lt hnk (hm _ _ hk)), fun hf => ?_⟩
        simp [Locks.lookup_of_not_isBlockLocked hf] at hk
  generalize (if n = 0 then d.locks.erase addr else d.locks.insert addr n) = l' at hu ⊢
  refine ⟨l', hu, ?_⟩
  split
  · rename_i hfree
    simp only [Bool.and_eq_true, decide_eq_true_eq] at hfree
    exact .inr ⟨hfree.1, rfl⟩
  · exact .inl rfl

theorem Phase.unLock (hph : Phase cur h role tok) (addr : Nat) :
    Phase cur { h with entry := h.entry.unLock addr } role tok := by
  -- past DIR_UNSHARED the entry stays, with a smaller lock table
  have hsome {d : DirEntry W} (he : h.entry = some d) (hs : d.state ≠ .unshared) :
      ∃ l', Unlocked d.locks l' ∧ h.entry.unLock addr = some { d with locks := l' } := by
    obtain ⟨l', hu, h' | ⟨hs', -⟩⟩ := Dir.unLock_some d addr
    · exact ⟨l', hu, he ▸ h'⟩
    · exact absurd hs' hs
  cases hph with
  | unshared hp hs hl hk hm hw =>
    cases he : h.entry with
    | none => exact .unshared hp rfl rfl (.of_not_isBlockLocked rfl) hm hw
    | some d =>
      rw [he] at hs hl hk
      obtain ⟨l', hu, h' | ⟨-, h'⟩⟩ := Dir.unLock_some d addr
      · refine .unshared hp ?_ ?_ ?_ hm hw <;> simp only [h']
        · exact hs
        · exact hl
        · exact hu.below _ hk
      · refine .unshared hp ?_ ?_ ?_ hm hw <;> simp only [h']
        · rfl
        · rfl
        · exact .of_not_isBlockLocked rfl
  | shared d he hp hs hl hn hk hm hw =>
    obtain ⟨l', hu, h'⟩ := hsome he (by rw [hs]; simp)
    exact .shared { d with locks := l' } h' hp hs hl hn (hu.below _ hk) hm hw
  | dirty d o p he hp hs hl hk ho hw =>
    obtain ⟨l', hu, h'⟩ := hsome he (by rw [hs]; simp)
    exact .dirty { d with locks := l' } o p h' hp hs hl (hu.free hk) ho hw
  | toShared d o p x q he hp hs hl hk hstage hx hw =>
    obtain ⟨l', hu, h'⟩ := hsome he (by rw [hs]; simp)
    exact .toShared { d with locks := l' } o p x q h' hp hs hl (hu.free hk) hstage hx hw
  | take d o p x q he hp hs hl hk hstage hx hw =>
    obtain ⟨l', hu, h'⟩ := hsome he (by rw [hs]; split <;> simp)
    exact .take { d with locks := l' } o p x q h' hp hs hl (hu.free hk) hstage hx hw
  | invalidate d x q n st t hq he hp hs hk hkx hm hpos hc =>
    obtain ⟨l', hu, h'⟩ := hsome he (by rw [hs]; split <;> simp)
    exact .invalidate { d with locks := l' } x q n st t hq h' hp hs (hu.below _ hk)
      (fun hxs => hu.free (hkx hxs)) hm hpos hc

end

end HwGam.Coherence
