import HwGam.Coherence.HomeAcks

/-!
# Answers to invalidations keep the invariant

A copy that is gone leaves the home's list, one that refused stays. With the last answer the home's
request ends: nobody else has a copy any more, or the copies that refused share the block.
-/

namespace HwGam.Coherence

variable {W : Type*} [DecidableEq W] {f : Slack} {i : Nat} {cur : Data} {role : W → Role}
  {tok : W → Tok W} {h : Home W} {cs : W → Cacher W} {w : W} {a : Ack} {d : DirEntry W} {p : Ptr}
  {q : Request} {list : List (W × Ptr)} {x : Option (W × Ptr × Fetch)} {n : Int}
  {st : Option Status} {t : Bool}

/-! ## The list and the count -/

/-- The list without `w`: `Directory::Remove`. -/
def without (list : List (W × Ptr)) (w : W) : List (W × Ptr) := list.eraseP fun a => a.1 = w

theorem without_eq_filter (hn : (list.map Prod.fst).Nodup) :
    without list w = list.filter fun a => a.1 ≠ w := by
  induction list with
  | nil => rfl
  | cons z l ih =>
    rw [List.map_cons, List.nodup_cons] at hn
    by_cases hz : z.1 = w
    · subst hz
      have hl : l.filter (fun a => a.1 ≠ z.1) = l := List.filter_eq_self.mpr fun a ha => by
        have : a.1 ≠ z.1 := fun h => hn.1 (h ▸ List.mem_map_of_mem ha)
        simpa using this
      rw [List.filter_cons_of_neg (by simp), hl]
      simp [without]
    · have ih := ih hn.2
      rw [List.filter_cons_of_pos (by simpa using hz), ← ih]
      simp [without, hz]

theorem mem_without (hn : (list.map Prod.fst).Nodup) {z : W × Ptr} :
    z ∈ without list w ↔ z ∈ list ∧ z.1 ≠ w := by
  rw [without_eq_filter hn, List.mem_filter]
  simp

theorem countP_kept (tok : W → Tok W) (hn : (list.map Prod.fst).Nodup) (hm : (w, p) ∈ list)
    (hb : (tok w).busy = true) :
    list.countP (fun a => (tok a.1).busy) =
      list.countP (fun a => (Function.update tok w .none a.1).busy) + 1 := by
  induction list with
  | nil => cases hm
  | cons z l ih =>
    rw [List.map_cons, List.nodup_cons] at hn
    by_cases hz : z.1 = w
    · have hl : l.countP (fun a => (tok a.1).busy) =
          l.countP fun a => (Function.update tok w .none a.1).busy :=
        List.countP_congr fun a ha => by
          have haw : a.1 ≠ w := fun h => hn.1 (by rw [hz, ← h]; exact List.mem_map_of_mem ha)
          rw [Function.update_of_ne haw]
      rw [List.countP_cons_of_pos (by rw [hz, hb]), List.countP_cons_of_neg (by simp [hz, Tok.busy]),
        hl]
    · have ih := ih hn.2 ((List.mem_cons.mp hm).resolve_left fun h => hz (by rw [← h]))
      rw [List.countP_cons, List.countP_cons, ih, Function.update_of_ne hz]
      omega

theorem countP_without (tok : W → Tok W) (hn : (list.map Prod.fst).Nodup) (hm : (w, p) ∈ list)
    (hb : (tok w).busy = true) :
    list.countP (fun a => (tok a.1).busy) =
      (without list w).countP (fun a => (Function.update tok w .none a.1).busy) + 1 := by
  rw [countP_kept tok hn hm hb, without_eq_filter hn, List.countP_filter]
  congr 1
  refine List.countP_congr fun a _ => ?_
  by_cases ha : a.1 = w
  · simp [ha, Tok.busy]
  · simp [ha]

omit [DecidableEq W] in
theorem InvStage.status {r : Role} {tk : Tok W} (s : Status) (h : InvStage t st p r tk) :
    InvStage t (some s) p r tk := by
  cases h with
  | asked a ha ht => exact .asked a ha ht
  | answered => exact .answered
  | refused s' ht => exact .refused s' ht
  | kept => exact .kept rfl

/-- A copy is gone. -/
theorem Invalidating.gone (hc : Invalidating list x n st t role tok) (hm : (w, p) ∈ list)
    (hx : ∀ y ∈ x, w ≠ y.1) (ht : tok w = .ack (.imm none)) (hr : role w = .idle) :
    Invalidating (without list w) x (n - 1) st t role (Function.update tok w .none) where
  nodup := hc.nodup.sublist (List.eraseP_sublist.map _)
  count := by
    have := countP_without tok hc.nodup hm (by rw [ht]; rfl)
    rw [hc.count, this]
    push_cast
    omega
  tryLock := hc.tryLock
  kept hst := by
    obtain ⟨u, p', hu, hux, hut⟩ := hc.kept hst
    have huw : u ≠ w := by
      rintro rfl
      simp [ht] at hut
    exact ⟨u, p', (mem_without hc.nodup).mpr ⟨hu, huw⟩, hux, by rwa [Function.update_of_ne huw]⟩
  waits y hy := by
    obtain ⟨⟨listed, hr, hin, hout⟩, htok⟩ := hc.waits y hy
    have hyw : y.1 ≠ w := (hx y hy).symm
    refine ⟨⟨listed, hr, fun hl => ?_, fun hl p' hp' => ?_⟩, by rwa [Function.update_of_ne hyw]⟩
    · exact (mem_without hc.nodup).mpr ⟨hin hl, hyw⟩
    · exact hout hl p' ((mem_without hc.nodup).mp hp').1
  copies u := by
    by_cases huw : u = w
    · subst huw
      exact .inr (.inr ⟨fun p' hp' => ((mem_without hc.nodup).mp hp').2 rfl, hr, by simp⟩)
    · unfold Unused
      rw [Function.update_of_ne huw]
      obtain hu | ⟨p', hp', hs⟩ | ⟨hu, hs⟩ := hc.copies u
      · exact .inl hu
      · exact .inr (.inl ⟨p', (mem_without hc.nodup).mpr ⟨hp', huw⟩, hs⟩)
      · exact .inr (.inr ⟨fun p' hp' => hu p' ((mem_without hc.nodup).mp hp').1, hs⟩)

/-- A copy refused to go. -/
theorem Invalidating.refused (hc : Invalidating list x n st t role tok) (hm : (w, p) ∈ list)
    (hx : ∀ y ∈ x, w ≠ y.1) {s : Status} (ht : tok w = .ack (.writeReply s)) (htry : t = true)
    (hr : role w = .sharer p) :
    Invalidating list x (n - 1) (some s) t role (Function.update tok w .none) where
  nodup := hc.nodup
  count := by
    have := countP_kept tok hc.nodup hm (by rw [ht]; rfl)
    rw [hc.count, this]
    push_cast
    omega
  tryLock _ := htry
  kept _ := ⟨w, p, hm, hx, by simp⟩
  waits y hy := by
    obtain ⟨hl, htok⟩ := hc.waits y hy
    exact ⟨hl, by rwa [Function.update_of_ne (hx y hy).symm]⟩
  copies u := by
    by_cases huw : u = w
    · subst huw
      refine .inr (.inl ⟨p, hm, ?_⟩)
      rw [hr, Function.update_self]
      exact .kept rfl
    · unfold Unused
      rw [Function.update_of_ne huw]
      refine (hc.copies u).imp_right (.imp_left ?_)
      rintro ⟨p', hp', hs⟩
      exact ⟨p', hp', hs.status s⟩

/-! ## The last answer -/

omit [DecidableEq W] in
/-- With no answer outstanding nobody but the copies that refused, and `x`, is in the list. -/
theorem Invalidating.over (hc : Invalidating list x 0 st t role tok) (u : W) :
    (∃ y ∈ x, u = y.1) ∨
    (st.isSome = true ∧ (∃ p, (u, p) ∈ list ∧ role u = .sharer p) ∧ tok u = .none) ∨
    ((∀ p, (u, p) ∉ list) ∧ Unused role tok u) := by
  refine (hc.copies u).imp_right (.imp_left ?_)
  rintro ⟨p, hp, hs⟩
  have hb : (tok u).busy = false := by
    have hcount : list.countP (fun a => (tok a.1).busy) = 0 := by
      have := hc.count
      omega
    simpa using List.countP_eq_zero.mp hcount (u, p) hp
  generalize hr : role u = r, htk : tok u = tk at hs hb
  cases hs with
  | kept hs => exact ⟨hs, ⟨p, hp, rfl⟩, rfl⟩
  | _ => cases hb

/-- More answers are outstanding. -/
theorem Acked.more (ha : Acked f i cur role tok h cs w a) (hm : h.mem = cur)
    (hc : Invalidating list x n st t role (Function.update tok w .none)) (hpos : 0 < n)
    (hq : x = none → q.op.isTry = t) (hs : d.state = if x.isSome then .toDirty else .toUnShared)
    (hk : d.locks.Below exclusive) (hkx : x.isSome = true → d.locks.isBlockLocked = false) :
    Next f i cur cs { st := { h with
      entry := some { d with shared := list }
      pending := some (invPending x n st q) } } := by
  refine ha.settle (.invalidate { d with shared := list } x q n st t hq rfl rfl hs hk hkx hm hpos hc)
    rfl (fun u => rfl) (.inl rfl) fun _ _ _ => .inl ?_
  show d.state.inTransition = true
  rw [hs]
  split <;> rfl

/-- Some copies refused the home: they share the block. -/
theorem Acked.undo (ha : Acked f i cur role tok h cs w a) (hm : h.mem = cur)
    (hc : Invalidating list none 0 st t role (Function.update tok w .none))
    (hsome : st.isSome = true) (hk : d.locks.Below exclusive) (evs : List (Ev W)) :
    Next f i cur cs
      { st := { h with entry := some { d with state := .shared, shared := list } }.done
        evs := evs } := by
  obtain ⟨u, p', hu, -⟩ := hc.kept hsome
  refine ha.settle (.shared { d with state := .shared, shared := list } rfl rfl rfl
    (List.ne_nil_of_mem hu) hc.nodup hk hm fun u => ?_) rfl (fun u => parked_done) (.inl rfl) .done
  obtain ⟨y, hy, -⟩ | ⟨-, hu, ht⟩ | ⟨hu, hr, ht⟩ := hc.over u
  · cases hy
  · exact ⟨.inl hu, ht⟩
  · exact ⟨.inr ⟨hu, hr⟩, ht⟩

/-- Some copies refused `y`: they share the block, and so does `y` if its own copy still counts. -/
theorem Acked.undoForward (ha : Acked f i cur role tok h cs w a) (hm : h.mem = cur)
    {y : W × Ptr × Fetch}
    (hc : Invalidating list (some y) 0 st t role (Function.update tok w .none))
    (hsome : st.isSome = true) (hk : d.locks.Below exclusive) (s : Status) :
    Next f i cur cs
      { st := { h with entry := some { d with state := .shared, shared := list } }.done
        sent := [(y.1, .reply (.writeReply (some s)))] } := by
  obtain rfl := hc.tryLock hsome
  obtain ⟨⟨listed, hr, hin, hout⟩, htok⟩ := hc.waits y rfl
  obtain ⟨u, p', hu, -⟩ := hc.kept hsome
  refine ha.tell y.1 (if listed then .sharer y.2.1 else .idle)
    [.writeReply (some s)] (.shared { d with state := .shared, shared := list } rfl rfl rfl
    (List.ne_nil_of_mem hu) hc.nodup hk hm fun u => ?_) rfl (fun u => parked_done) rfl ?_ .done
  · by_cases huy : u = y.1
    · subst huy
      rw [Function.update_self]
      refine ⟨?_, htok⟩
      cases listed with
      | true => exact .inl ⟨_, hin rfl, rfl⟩
      | false => exact .inr ⟨hout rfl, rfl⟩
    · rw [Function.update_of_ne huy]
      obtain ⟨z, hz, rfl⟩ | ⟨-, hu, ht⟩ | ⟨hu, hr, ht⟩ := hc.over u
      · cases hz
        exact absurd rfl huy
      · exact ⟨.inl hu, ht⟩
      · exact ⟨.inr ⟨hu, hr⟩, ht⟩
  · have hat := ha.worker y.1
    rw [htok, hr] at hat
    rw [htok]
    exact hat.hear_invalidateFailed s

/-- All the other copies are gone, and `y` gets the block. -/
theorem Acked.grantForward (ha : Acked f i cur role tok h cs w a) (hm : h.mem = cur)
    {y : W × Ptr × Fetch} {e : Dir W}
    (hc : Invalidating list (some y) 0 none t role (Function.update tok w .none))
    (hk : e.isBlockLocked = false) (withData : Bool) (hdata : withData = false → list ≠ []) :
    Next f i cur cs
      { st := { h with entry := e.toDirty (y.1, y.2.1) }.done
        sent := (if withData then [(y.1, .reply (.rdmaWrite h.mem))] else []) ++
          [(y.1, .reply (.writeReply none))] } := by
  obtain ⟨⟨listed, hr, hin, hout⟩, htok⟩ := hc.waits y rfl
  refine ha.tell y.1 (.owner y.2.1)
    (if withData then [.rdmaWrite cur, .writeReply none] else [.writeReply none])
    (.dirty _ y.1 y.2.1 (Dir.toDirty_eq _ _) rfl rfl rfl hk ⟨by simp, htok⟩ fun u => ?_) ?_
    (fun u => parked_done) rfl ?_ .done
  · by_cases huy : u = y.1
    · exact .inl huy
    · refine .inr ?_
      unfold Unused
      rw [Function.update_of_ne huy]
      obtain ⟨z, hz, rfl⟩ | ⟨h', -⟩ | ⟨-, hu⟩ := hc.over u
      · cases hz
        exact absurd rfl huy
      · cases h'
      · exact hu
  · cases withData <;> simp [hm]
  · have hat := ha.worker y.1
    rw [htok, hr] at hat
    rw [htok]
    refine hat.hear_invalidated withData fun hwd => ?_
    obtain ⟨⟨u, p'⟩, hu⟩ := List.exists_mem_of_ne_nil _ (hdata hwd)
    cases listed with
    | true => rfl
    | false =>
      obtain ⟨z, hz, rfl⟩ | ⟨h', -⟩ | ⟨hnot, -⟩ := hc.over u
      · cases hz
        exact absurd hu (hout rfl p')
      · cases h'
      · exact absurd hu (hnot p')

/-! ## Every answer -/

theorem remove_some (d : DirEntry W) (w : W) :
    Dir.remove (some d) w = if (without d.shared w).isEmpty && !d.locks.isBlockLocked then none
      else some { d with shared := without d.shared w } := rfl

theorem remove_of_ne_nil (hne : without d.shared w ≠ []) :
    Dir.remove (some d) w = some { d with shared := without d.shared w } := by
  rw [remove_some, if_neg]
  simp [hne]

omit [DecidableEq W] in
theorem Invalidating.ne_nil (hc : Invalidating list x n st t role tok) (hpos : 0 < n) :
    list ≠ [] := by
  rintro rfl
  have := hc.count
  simp at this
  omega

theorem Acked.gone (ha : Acked f i cur role tok h cs w (.imm none)) (he : h.entry = some d)
    (hp : h.pending = some (invPending x n st q)) (hq : x = none → q.op.isTry = t)
    (hs : d.state = if x.isSome then .toDirty else .toUnShared) (hk : d.locks.Below exclusive)
    (hkx : x.isSome = true → d.locks.isBlockLocked = false) (hm : h.mem = cur) (hpos : 0 < n)
    (hc : Invalidating d.shared x n st t role tok) (hmem : (w, p) ∈ d.shared)
    (hx : ∀ y ∈ x, w ≠ y.1) (hr : role w = .idle) :
    Next f i (Block.value i cur (h.recv i w (.ack (.imm none))).evs) cs
      (h.recv i w (.ack (.imm none))) := by
  have hc' := hc.gone hmem hx ha.ack hr
  cases x with
  | none =>
    have e : h.recv i w (.ack (.imm none)) = h.processPendingWrite i w false n st q := by
      simp [Home.recv, Home.processImm, Home.land, hp, invPending]
    rw [e]
    unfold Home.processPendingWrite
    dsimp only
    split
    · rename_i hn
      rw [hn] at hc'
      split
      · rename_i hsome
        obtain ⟨u, p', hu, -⟩ := hc'.kept hsome
        rw [he, remove_of_ne_nil (List.ne_nil_of_mem hu)]
        exact ha.undo hm hc' hsome hk _
      · rename_i hnone
        refine ha.finishWrite hm (fun _ => rfl) ?_ fun u => ?_
        · show Locks.Below (exclusive + 1) (h.entry.remove w).locks
          rw [he, remove_some]
          split
          · exact .of_not_isBlockLocked rfl
          · exact hk.mono (Nat.le_succ _)
        · obtain ⟨y, hy, -⟩ | ⟨hsome, -⟩ | ⟨-, hu⟩ := hc'.over u
          · cases hy
          · exact absurd hsome hnone
          · exact hu
    · rename_i hn
      have hpos' : 0 < n - 1 := by omega
      rw [he, remove_of_ne_nil (hc'.ne_nil hpos')]
      exact ha.more (x := none) hm hc' hpos' hq hs hk hkx
  | some y =>
    have e : h.recv i w (.ack (.imm none)) =
        h.processPendingInvalidateForward w y.1 y.2.1 y.2.2 n st := by
      simp [Home.recv, Home.processImm, Home.land, hp, invPending]
    rw [e]
    unfold Home.processPendingInvalidateForward
    dsimp only
    split
    · rename_i hn
      rw [hn] at hc'
      split
      · rename_i s
        obtain ⟨u, p', hu, -⟩ := hc'.kept rfl
        rw [he, remove_of_ne_nil (List.ne_nil_of_mem hu)]
        exact ha.undoForward hm hc' rfl hk s
      · have hfree : d.locks.isBlockLocked = false := hkx rfl
        refine ha.grantForward hm hc' ?_ _ fun hdata hnil => ?_
        · rw [he, remove_some]
          split
          · rfl
          · exact hfree
        · rw [he, remove_some, hnil, hfree] at hdata
          simp [Dir.getState] at hdata
    · rename_i hn
      have hpos' : 0 < n - 1 := by omega
      rw [he, remove_of_ne_nil (hc'.ne_nil hpos')]
      exact ha.more (x := some y) (q := q) hm hc' hpos' (by rintro ⟨⟩) hs hk hkx

theorem Acked.refused {s : Status} (ha : Acked f i cur role tok h cs w (.writeReply s))
    (he : h.entry = some d) (hp : h.pending = some (invPending x n st q))
    (hq : x = none → q.op.isTry = t) (hs : d.state = if x.isSome then .toDirty else .toUnShared) (hk : d.locks.Below exclusive)
    (hkx : x.isSome = true → d.locks.isBlockLocked = false) (hm : h.mem = cur) (hpos : 0 < n)
    (hc : Invalidating d.shared x n st t role tok) (hmem : (w, p) ∈ d.shared)
    (hx : ∀ y ∈ x, w ≠ y.1) (htry : t = true) (hr : role w = .sharer p) :
    Next f i cur cs (h.recv i w (.ack (.writeReply s))) ∧
      Block.value i cur (h.recv i w (.ack (.writeReply s))).evs = cur := by
  have hc' := hc.refused hmem hx ha.ack htry hr
  have hset : h.entry.setState .shared = some { d with state := .shared } := by
    simp [Dir.setState, he]
  cases x with
  | none =>
    have e : h.recv i w (.ack (.writeReply s)) =
        if n - 1 = 0 then h.undo .shared q
        else { st := { h with pending := some (.invalidate (n - 1) (some s) q) } } := by
      simp [Home.recv, Home.processRemoteWriteReply, hp, invPending]
    rw [e]
    split
    · rename_i hn
      rw [hn] at hc'
      unfold Home.undo
      rw [hset]
      exact ⟨ha.undo hm hc' rfl hk _, rfl⟩
    · have hmore := ha.more (d := d) (x := none) (q := q) hm hc' (by omega) hq hs hk hkx
      rw [← he] at hmore
      exact ⟨hmore, rfl⟩
  | some y =>
    have e : h.recv i w (.ack (.writeReply s)) =
        if n - 1 = 0 then h.undoForward y.1 s
        else { st := { h with pending := some (.invalidateForward y.1 y.2.1 y.2.2 (n - 1) (some s)) } } := by
      simp [Home.recv, Home.processRemoteWriteReply, hp, invPending]
    rw [e]
    split
    · rename_i hn
      rw [hn] at hc'
      unfold Home.undoForward
      rw [hset]
      exact ⟨ha.undoForward hm hc' rfl hk s, rfl⟩
    · have hmore := ha.more (d := d) (x := some y) (q := q) hm hc' (by omega) (by rintro ⟨⟩) hs hk hkx
      rw [← he] at hmore
      exact ⟨hmore, rfl⟩

omit [DecidableEq W] in
/-- Only the owner has an answer on its way. -/
theorem eq_owner {o : W} {x : Option (W × Ptr)} (ht : tok w = .ack a)
    (hx : ∀ y ∈ x, y.1 ≠ o ∧ tok y.1 = .none)
    (hw : ∀ u, u = o ∨ (∃ y ∈ x, u = y.1) ∨ Unused role tok u) : w = o := by
  obtain rfl | ⟨y, hy, rfl⟩ | hu := hw w
  · rfl
  · simp [(hx y hy).2] at ht
  · simp [hu.2] at ht

/-- The home handles an answer. -/
theorem Acked.recv (ha : Acked f i cur role tok h cs w a) :
    Next f i (Block.value i cur (h.recv i w (.ack a)).evs) cs (h.recv i w (.ack a)) := by
  have hcur {a : Ack} (hn : Next f i cur cs (h.recv i w (.ack a)) ∧
      Block.value i cur (h.recv i w (.ack a)).evs = cur) :
      Next f i (Block.value i cur (h.recv i w (.ack a)).evs) cs (h.recv i w (.ack a)) := by
    rw [hn.2]
    exact hn.1
  have ht := ha.ack
  cases ha.phase with
  | unshared hp hs hl hk hm hw => simp [(hw w).2] at ht
  | shared d he hp hs hl hn hk hm hw => simp [(hw w).2] at ht
  | dirty d o p he hp hs hl hk ho hw => simp [dirty_tok ho hw w] at ht
  | toShared d o p x q he hp hs hl hk hstage hx hw =>
    obtain rfl := eq_owner ht hx hw
    cases hstage with
    | asked t hq ht' => simp [ht'] at ht
    | answered ht' ho hx' =>
      obtain rfl := Tok.ack.inj (ht.symm.trans ht')
      cases x with
      | none =>
        exact hcur (ha.fetchAndShared he hp hl hk ho fun u =>
          (hw u).imp_right fun h => h.resolve_left (by simp))
      | some y =>
        exact hcur (ha.readForward he hp hl hk ho (hx' y rfl) (hx y rfl) (by simpa using hw))
    | refused st hq ht' ho hx' =>
      obtain rfl := Tok.ack.inj (ht.symm.trans ht')
      exact hcur (ha.read_refused he hp hl hk ho hx' hx hw)
  | take d o p x q he hp hs hl hk hstage hx hw =>
    obtain rfl := eq_owner ht hx hw
    cases hstage with
    | asked t hq ht' => simp [ht'] at ht
    | answered ht' ho hx' =>
      obtain rfl := Tok.ack.inj (ht.symm.trans ht')
      cases x with
      | none =>
        exact ha.fetchAndInvalidate he hp hl hk ho fun u =>
          (hw u).imp_right fun h => h.resolve_left (by simp)
      | some y => exact hcur (ha.writeForward he hp hk ho (hx' y rfl) (hx y rfl) (by simpa using hw))
    | refused st hq ht' ho hx' =>
      obtain rfl := Tok.ack.inj (ht.symm.trans ht')
      exact hcur (ha.write_refused he hp hl hk ho hx' hx hw)
  | invalidate d x q n st t hq he hp hs hk hkx hm hpos hc =>
    have hx (y) (hy : y ∈ x) : w ≠ y.1 := by
      rintro rfl
      simp [(hc.waits y hy).tok] at ht
    obtain ⟨y, hy, he⟩ | ⟨p, hmem, hstage⟩ | ⟨-, hu⟩ := hc.copies w
    · exact absurd he (hx y hy)
    · rw [ht] at hstage
      generalize hr : role w = r at hstage
      cases hstage with
      | answered => exact ha.gone he hp hq hs hk hkx hm hpos hc hmem hx hr
      | refused s htry => exact hcur (ha.refused he hp hq hs hk hkx hm hpos hc hmem hx htry hr)
    · simp [hu.2] at ht

end HwGam.Coherence
