import HwGam.Coherence.AskSteps

/-!
# Answers to a caching worker's requests

A reply of the home or of the owner it forwarded to keeps the role of the worker; a WRITE that has
got its last reply takes effect, on the owner's copy.
-/

namespace HwGam.Coherence

variable {W : Type*} {f : Slack} {i : Nat} {cur mem : Data} {role : Role} {t : Tok W} {c : Cacher W}
  {w : W} {q : Request} {op : Fetch} {parked : List Own} {p : Ptr} {l : Line} {n : Int}

/-! ## Frames -/

/-- Only the line, the pending request and the parked local requests change. -/
structure Inner (c c' : Cacher W) : Prop extends SameQueues c c' where
  toHome : c'.toHome = c.toHome
  fromPeers : c'.fromPeers = c.fromPeers
  pending : c'.pending = some .writeBack → c.pending = some .writeBack

namespace Inner

theorem trans {c c' c'' : Cacher W} (h : Inner c c') (h' : Inner c' c'') : Inner c c'' where
  asks := h'.asks.trans h.asks
  acks := h'.acks.trans h.acks
  fromHome := h'.fromHome.trans h.fromHome
  toHome := h'.toHome.trans h.toHome
  fromPeers := h'.fromPeers.trans h.fromPeers
  pending := h.pending ∘ h'.pending

theorem of_line (x : Option Line) : Inner c { c with line := x } := ⟨⟨rfl, rfl, rfl⟩, rfl, rfl, id⟩

theorem park : Inner c (c.park q) := ⟨⟨rfl, rfl, rfl⟩, rfl, rfl, id⟩

theorem done : Inner c c.done := ⟨.done, rfl, rfl, (by rintro ⟨⟩)⟩

theorem land (d : Option Data) : Inner c (c.land d) := by
  cases d with
  | none => exact ⟨⟨rfl, rfl, rfl⟩, rfl, rfl, id⟩
  | some d => exact of_line _

theorem fetch (st : Option Status) : Inner c { c with pending := some (.fetch op n st q) } :=
  ⟨⟨rfl, rfl, rfl⟩, rfl, rfl, (by rintro ⟨⟩)⟩

theorem processPendingRead : Inner c (c.processPendingRead w q).st := by
  unfold Cacher.processPendingRead
  dsimp only
  split
  · exact (of_line _).trans done
  · exact (of_line _).trans done

theorem processFailed : Inner c (c.processFailed op q).st := by
  unfold Cacher.processFailed
  dsimp only
  split
  · exact (of_line _).trans done
  · exact (of_line _).trans done

theorem finishWrite : Inner c (c.finishWrite i w q).st := by
  unfold Cacher.finishWrite
  dsimp only
  split
  · split
    · exact ((of_line _).trans park).trans done
    · exact (of_line _).trans done
  · exact (of_line _).trans done

theorem processPendingWrite (st : Option Status) (b : Bool) :
    Inner c (c.processPendingWrite i w op n st q b).st := by
  unfold Cacher.processPendingWrite
  dsimp only
  generalize (if b = true then n + 1 else n - 1) = m
  split
  · split
    · exact processFailed
    · exact finishWrite
  · exact fetch _

theorem processRemoteWriteReply (st s : Option Status) (b : Bool) :
    Inner c (c.processRemoteWriteReply i w op n st q b s).st := by
  unfold Cacher.processRemoteWriteReply
  dsimp only
  split
  · split
    · split
      · exact processFailed
      · exact finishWrite
    · exact of_line _
  · generalize (if b = true then 0 else n - 1) = m
    split
    · exact processFailed
    · exact fetch _

theorem processImm (b : Bool) (d : Option Data) : Inner c (c.processImm i w b d).st := by
  refine (land d).trans ?_
  unfold Cacher.processImm
  dsimp only
  split
  · exact processPendingRead
  · exact processPendingWrite _ _
  · exact (of_line _).trans done
  · exact of_line _

theorem processReadReply : Inner c c.processReadReply.st := by
  unfold Cacher.processReadReply
  split
  · exact processFailed
  · exact of_line _

theorem processWriteReply (b : Bool) (s : Option Status) :
    Inner c (c.processWriteReply i w b s).st := by
  unfold Cacher.processWriteReply
  split
  · exact of_line _
  · exact processRemoteWriteReply _ _ _
  · exact of_line _

theorem recvHome (r : Reply) : Inner c (c.recvHome i w (.reply r)).st := by
  cases r with
  | rdmaWrite d => exact land (some d)
  | imm d => exact processImm _ _
  | readReply => exact processReadReply
  | writeReply => exact processWriteReply _ _

theorem recvPeer (m : PeerMsg) : Inner c (c.recvPeer i w m).st := by
  cases m with
  | imm d => exact processImm _ _
  | readReply => exact processReadReply
  | writeReply => exact processWriteReply _ _

end Inner

theorem processImm_sent (b : Bool) (d : Option Data) : (c.processImm i w b d).sent = [] := by
  unfold Cacher.processImm Cacher.processPendingRead Cacher.processPendingWrite
    Cacher.processFailed Cacher.finishWrite Cacher.processPendingEvictDirty
  grind

theorem processReadReply_sent : c.processReadReply.sent = [] := by
  unfold Cacher.processReadReply Cacher.processFailed
  grind

theorem processWriteReply_sent (b : Bool) (s : Option Status) :
    (c.processWriteReply i w b s).sent = [] := by
  unfold Cacher.processWriteReply Cacher.processRemoteWriteReply Cacher.processFailed
    Cacher.finishWrite
  grind

/-- A reply is not answered. -/
theorem recvReply_sent (c : Cacher W) (r : Reply) : (c.recvHome i w (.reply r)).sent = [] := by
  cases r with
  | rdmaWrite d => rfl
  | imm d => exact processImm_sent _ _
  | readReply => exact processReadReply_sent
  | writeReply => exact processWriteReply_sent _ _

theorem recvPeer_sent (c : Cacher W) (m : PeerMsg) : (c.recvPeer i w m).sent = [] := by
  cases m with
  | imm d => exact processImm_sent _ _
  | readReply => exact processReadReply_sent
  | writeReply => exact processWriteReply_sent _ _

/-! ## Dispatch -/

section
variable {st : Option Status} (b : Bool)

theorem pending_land (d : Option Data) : (c.land d).pending = c.pending := by
  cases d <;> rfl

theorem processImm_read (hp : c.pending = some (.fetch .read n st q)) (d : Option Data) :
    c.processImm i w b d = (c.land d).processPendingRead w q := by
  simp only [Cacher.processImm, pending_land, hp]

theorem processImm_write (hp : c.pending = some (.fetch op n st q)) (hop : op ≠ .read)
    (d : Option Data) :
    c.processImm i w b d = (c.land d).processPendingWrite i w op n st q b := by
  simp only [Cacher.processImm, pending_land, hp]

theorem processWriteReply_write (hp : c.pending = some (.fetch op n st q)) (hop : op ≠ .read)
    (s : Option Status) :
    c.processWriteReply i w b s = c.processRemoteWriteReply i w op n st q b s := by
  simp only [Cacher.processWriteReply, hp]

end

/-! ## How a pending request ends -/

/-- Nothing more is on its way to or from the worker. -/
structure Settled (parked : List Own) (c : Cacher W) : Prop where
  out : (c.view parked).out = []
  rep : (c.view parked).rep = []
  fwd : (c.view parked).fwd = []

/-- The last reply to a WRITE: it takes effect on data that are the block's, but for the bytes it
writes itself. -/
theorem Settled.finishWrite (h : Settled parked c) (hl : c.line = some l) (hs : WriteLine l op)
    (hd : q.apply i l.data = q.apply i cur) :
    Cfg f i (Block.value i cur (c.finishWrite i w q).evs) (.owner l.ptr)
      ((c.finishWrite i w q).st.view parked) := by
  have hw : l.locks.Below (exclusive + 1) := hs.locks.mono (Nat.le_succ _)
  unfold Cacher.finishWrite
  simp only [Cacher.mapLine, hl, Option.map_some, Option.bind_some]
  split
  · rename_i hlock
    rw [Request.apply_of_isLock hlock i cur] at hd
    split
    · exact Owner.dirty { l with state := .dirty, data := q.apply i l.data } rfl rfl rfl hd hw rfl
        h.out h.rep h.fwd
    · exact Owner.dirty { l with state := .dirty, data := q.apply i l.data, locks := _ } rfl rfl rfl
        hd (hw.insert (Nat.lt_succ_self _)) rfl h.out h.rep h.fwd
  · exact Owner.dirty { l with state := .dirty, data := q.apply i l.data } rfl rfl rfl hd hw rfl
      h.out h.rep h.fwd

theorem Settled.processFailed_drop (h : Settled parked c) (hop : op ≠ .writePermissionOnly) :
    Idle f ((c.processFailed op q).st.view parked) := by
  unfold Cacher.processFailed
  rw [if_neg hop]
  exact .absent none rfl rfl h.out h.rep h.fwd

/-- A failed upgrade goes back to shared, with rights or without. -/
theorem Settled.processFailed_idle (h : Settled parked c) (hl : c.line = some l)
    (hs : WriteLine l op) (hq : op = .writePermissionOnly → f.stale = true) :
    Idle f ((c.processFailed op q).st.view parked) := by
  by_cases hop : op = .writePermissionOnly
  · unfold Cacher.processFailed
    rw [if_pos hop]
    simp only [Cacher.setState, Cacher.mapLine, hl]
    exact .stale { l with state := .shared } (hq hop) rfl rfl hs.locks rfl h.out h.rep h.fwd
  · exact h.processFailed_drop hop

theorem Settled.processFailed_sharer (h : Settled parked c) (hl : c.line = some l)
    (hs : WriteLine l .writePermissionOnly) (hd : l.data = cur) :
    Sharer i cur l.ptr ((c.processFailed .writePermissionOnly q).st.view parked) := by
  unfold Cacher.processFailed
  simp only [if_true, Cacher.setState, Cacher.mapLine, hl]
  exact .shared { l with state := .shared } rfl rfl rfl hd hs.locks rfl h.out h.rep h.fwd

theorem Settled.processPendingRead (h : Settled parked c) (hl : c.line = some l) (hs : ReadLine l)
    (hd : l.data = cur) :
    Sharer i cur l.ptr ((c.processPendingRead w q).st.view parked) ∧
      Block.value i cur (c.processPendingRead w q).evs = cur := by
  have hnone := Locks.lookup_of_not_isBlockLocked hs.locks q.addr
  unfold Cacher.processPendingRead
  simp only [Cacher.setState, Cacher.mapLine, hl, Option.map_some, hnone]
  split
  · have hw : (l.locks.share q.addr).Below exclusive :=
      (Locks.Below.of_not_isBlockLocked hs.locks).share le_rfl (by simp [hnone])
        (by simp [Locks.hasRoom, hnone]) (Nat.le_succ _)
    exact ⟨.shared { l with state := .shared, locks := l.locks.share q.addr } rfl rfl rfl hd hw rfl
      h.out h.rep h.fwd, rfl⟩
  · exact ⟨.shared { l with state := .shared } rfl rfl rfl hd (.of_not_isBlockLocked hs.locks) rfl
      h.out h.rep h.fwd, rfl⟩

/-! ## A reply of the home -/

/-- How a reply is handled: the data `d` land, and the pending request waits for more or ends. Only
a try-lock fails. -/
inductive Replied (i : Nat) (cur : Data) (c : Cacher W) (w : W) : Cacher.Result W → Prop
  | wait (d : Option Data) (op : Fetch) (n n' : Int) (st st' : Option Status) (q : Request)
      (hp : c.pending = some (.fetch op n st q)) :
    Replied i cur c w { st := { c.land d with pending := some (.fetch op n' st' q) } }
  | read (d : Option Data) (l : Line) (n : Int) (st : Option Status) (q : Request)
      (hp : c.pending = some (.fetch .read n st q)) (hl : (c.land d).line = some l)
      (hs : ReadLine l) (hd : l.data = cur) :
    Replied i cur c w ((c.land d).processPendingRead w q)
  | write (d : Option Data) (l : Line) (op : Fetch) (n : Int) (st : Option Status) (q : Request)
      (hp : c.pending = some (.fetch op n st q)) (hl : (c.land d).line = some l)
      (hs : WriteLine l op) : Replied i cur c w ((c.land d).finishWrite i w q)
  | failed (l : Line) (op : Fetch) (n : Int) (st : Option Status) (q : Request)
      (hp : c.pending = some (.fetch op n st q)) (hl : c.line = some l)
      (hs : op ≠ .writePermissionOnly → l.locks.isBlockLocked = false) (ht : q.op.isTry = true) :
    Replied i cur c w (c.processFailed op q)
  | evicted (l : Line) (hp : c.pending = some .writeBack) (hl : c.line = some l)
      (hs : LeavingLine l) : Replied i cur c w c.processPendingEvictDirty

theorem WriteLine.free (hs : WriteLine l op) (hop : op ≠ .writePermissionOnly) :
    l.locks.isBlockLocked = false := by
  cases op with
  | read => exact absurd rfl hs.notRead
  | write => exact hs.unlocked rfl
  | writePermissionOnly => exact absurd rfl hop

/-- The role is kept, and the value changes at the owner only. -/
structure Kept (f : Slack) (i : Nat) (cur : Data) (parked : List Own) (role : Role) (c : Cacher W)
    (w : W) (o : Cacher.Result W) : Prop where
  cfg : Cfg f i (Block.value i cur o.evs) role (o.st.view parked)
  value : role.isOwner = true ∨ Block.value i cur o.evs = cur
  replied : Replied i cur c w o

theorem Kept.idle {o : Cacher.Result W} (h : Idle f (o.st.view parked))
    (hv : Block.value i cur o.evs = cur) (hr : Replied i cur c w o) :
    Kept f i cur parked .idle c w o :=
  ⟨h, .inr hv, hr⟩

theorem Idle.recvReply {r : Reply} (h : Idle f { c.view parked with rep := r :: c.replies }) :
    Kept f i cur parked .idle c w (c.recvHome i w (.reply r)) := by
  cases h with
  | readFailed l q st ht hl hs hp ho hrf =>
    obtain ⟨hr, hf⟩ | ⟨hr, -⟩ := hrf
    · obtain ⟨rfl, hr'⟩ := List.cons.inj hr
      have e : c.recvHome i w (.reply (.readReply st)) = c.processFailed .read q := by
        simp [Cacher.recvHome, Cacher.processReadReply, show c.pending = _ from hp]
      rw [e]
      exact .idle (Settled.processFailed_drop ⟨ho, hr', hf⟩ (by rintro ⟨⟩)) rfl
        (.failed l .read 0 none q hp hl (fun _ => hs.locks) ht)
    · cases hr
  | writeFailed op n st l q ht hl hs hq hp ho hrf =>
    have hrf : Refused (r :: c.replies) c.fromPeers n st := hrf
    generalize hrep : r :: c.replies = rep, hfwd : c.fromPeers = fwd at hrf
    cases hrf with
    | home st =>
      obtain ⟨rfl, hr⟩ := List.cons.inj hrep
      have e : c.recvHome i w (.reply (.writeReply (some st))) = c.processFailed op q :=
        processWriteReply_write true hp hs.notRead _
      rw [e]
      exact .idle (Settled.processFailed_idle ⟨ho, hr, hfwd⟩ hl hs hq) rfl
        (.failed l op _ _ q hp hl hs.free ht)
    | both o st =>
      obtain ⟨rfl, hr⟩ := List.cons.inj hrep
      have e : c.recvHome i w (.reply (.imm none)) =
          { st := { c with pending := some (.fetch op 1 none q) } } :=
        processImm_write true hp hs.notRead _
      rw [e]
      refine .idle (.writeFailed op 1 none l q ht hl hs hq rfl ho ?_) rfl
        (.wait none op _ _ _ _ q hp)
      show Refused c.replies c.fromPeers 1 none
      rw [hr, hfwd]
      exact .peer o st
    | last st =>
      obtain ⟨rfl, hr⟩ := List.cons.inj hrep
      have e : c.recvHome i w (.reply (.imm none)) = c.processFailed op q :=
        processImm_write true hp hs.notRead _
      rw [e]
      exact .idle (Settled.processFailed_idle ⟨ho, hr, hfwd⟩ hl hs hq) rfl
        (.failed l op _ _ q hp hl hs.free ht)
    | peer => cases hrep
  | writeBack l p hl hs hp hor hf =>
    obtain ⟨-, hr⟩ | ⟨ho, hr⟩ := hor
    · cases hr
    · obtain ⟨rfl, hr'⟩ := List.cons.inj hr
      have e : c.recvHome i w (.reply (.imm none)) = c.processPendingEvictDirty := by
        simp [Cacher.recvHome, Cacher.processImm, Cacher.land, show c.pending = _ from hp]
      rw [e]
      exact .idle (.absent none rfl rfl ho hr' hf) rfl (.evicted l hp hl hs)
  | _ => simp_all

/-- The data of the READ land in the line, and it is shared. -/
theorem Sharer.arrive (hl : c.line = some l) (hs : ReadLine l)
    (hp : c.pending = some (.fetch .read 0 none q)) (ho : (c.view parked).out = [])
    (hr : (c.view parked).rep = []) (hf : (c.view parked).fwd = []) (b : Bool) :
    Kept f i cur parked (.sharer l.ptr) c w (c.processImm i w b (some cur)) := by
  have hl' : (c.land (some cur)).line = some { l with data := cur } := by
    simp [Cacher.land, Cacher.mapLine, hl]
  have hs' : ReadLine { l with data := cur } := ⟨hs.state, hs.locks⟩
  have hset : Settled parked (c.land (some cur)) := ⟨ho, hr, hf⟩
  obtain ⟨hcfg, hv⟩ := hset.processPendingRead (i := i) (w := w) (q := q) hl' hs' rfl
  rw [processImm_read b hp]
  exact ⟨by rw [hv]; exact hcfg, .inr hv, .read (some cur) _ 0 none q hp hl' hs' rfl⟩

theorem Sharer.recvReply {r : Reply}
    (h : Sharer i cur p { c.view parked with rep := r :: c.replies }) :
    Kept f i cur parked (.sharer p) c w (c.recvHome i w (.reply r)) := by
  cases h with
  | arriving l q hl hs hptr hp ho hrf =>
    obtain ⟨hr, hf⟩ | ⟨hr, -⟩ := hrf
    · obtain ⟨rfl, hr'⟩ := List.cons.inj hr
      subst hptr
      exact Sharer.arrive hl hs hp ho hr' hf true
    · cases hr
  | upgrade l q hl hs hptr hd hp hor hf =>
    obtain ⟨-, hr⟩ | ⟨ho, htry, st, hr⟩ := hor
    · cases hr
    · obtain ⟨rfl, hr'⟩ := List.cons.inj hr
      have hlock : q.op.isLock = true := by
        cases hq : q.op <;> simp_all [Op.isTry, Op.isLock]
      have e : c.recvHome i w (.reply (.writeReply (some st))) =
          c.processFailed .writePermissionOnly q :=
        processWriteReply_write true hp (by rintro ⟨⟩) _
      rw [Request.early_of_isLock hlock] at hd
      subst hptr
      rw [e]
      exact ⟨Settled.processFailed_sharer ⟨ho, hr', hf⟩ hl hs hd, .inr rfl,
        .failed l _ _ _ q hp hl hs.free htry⟩
  | _ => simp_all

theorem Owner.recvReply {r : Reply}
    (h : Owner i cur p { c.view parked with rep := r :: c.replies }) :
    Kept f i cur parked (.owner p) c w (c.recvHome i w (.reply r)) := by
  cases h with
  | granted op n l q hl hs hptr hp ho hrf =>
    have hrf : Granted i cur q l.data (r :: c.replies) c.fromPeers n := hrf
    generalize hrep : r :: c.replies = rep, hfwd : c.fromPeers = fwd at hrf
    subst hptr
    cases hrf with
    | data =>
      obtain ⟨rfl, hr⟩ := List.cons.inj hrep
      have hl' : (c.land (some cur)).line = some { l with data := cur } := by
        simp [Cacher.land, Cacher.mapLine, show c.line = _ from hl]
      have hs' : WriteLine { l with data := cur } op := ⟨hs.state, hs.notRead, hs.locks, hs.unlocked⟩
      have e : c.recvHome i w (.reply (.rdmaWrite cur)) =
          { st := { c.land (some cur) with pending := some (.fetch op 0 none q) } } := by
        rw [← show c.pending = _ from hp]
        rfl
      rw [e]
      refine ⟨Owner.granted op 0 { l with data := cur } q hl' hs' rfl rfl ho ?_, .inl rfl,
        .wait (some cur) op _ _ _ _ q hp⟩
      show Granted i cur q cur c.replies c.fromPeers 0
      rw [hr, hfwd]
      exact .ready (.inl rfl)
    | ready hd =>
      obtain ⟨rfl, hr⟩ := List.cons.inj hrep
      have e : c.recvHome i w (.reply (.writeReply none)) = c.finishWrite i w q :=
        processWriteReply_write true hp hs.notRead _
      have hd : q.apply i l.data = q.apply i cur := by
        obtain hd | hd := hd
        · rw [hd]
        · rw [hd, Request.apply_early]
      rw [e]
      exact ⟨Settled.finishWrite ⟨ho, hr, hfwd⟩ hl hs hd, .inl rfl, .write none l op _ _ q hp hl hs⟩
    | both o =>
      obtain ⟨rfl, hr⟩ := List.cons.inj hrep
      have e : c.recvHome i w (.reply (.imm none)) =
          { st := { c with pending := some (.fetch op 1 none q) } } :=
        processImm_write true hp hs.notRead _
      rw [e]
      refine ⟨Owner.granted op 1 l q hl hs rfl rfl ho ?_, .inl rfl, .wait none op _ _ _ _ q hp⟩
      show Granted i cur q l.data c.replies c.fromPeers 1
      rw [hr, hfwd]
      exact .peer o
    | peer => cases hrep
    | last hd =>
      obtain ⟨rfl, hr⟩ := List.cons.inj hrep
      have e : c.recvHome i w (.reply (.imm none)) = c.finishWrite i w q :=
        processImm_write true hp hs.notRead _
      rw [e]
      exact ⟨Settled.finishWrite ⟨ho, hr, hfwd⟩ hl hs (by rw [hd]), .inl rfl,
        .write none l op _ _ q hp hl hs⟩
  | _ => simp_all

theorem Cfg.recvReply {r : Reply} (h : Cfg f i cur role { c.view parked with rep := r :: c.replies }) :
    Kept f i cur parked role c w (c.recvHome i w (.reply r)) := by
  cases role with
  | idle => exact Idle.recvReply h
  | sharer p => exact Sharer.recvReply h
  | owner p => exact Owner.recvReply h
  | _ =>
    cases h
    simp_all

/-! ## A message of the owner the home forwarded to -/

theorem Idle.recvPeer {o : W} {m : PeerMsg} (h : Idle f { c.view parked with fwd := [(o, m)] })
    (hfwd : c.fromPeers = []) : Kept f i cur parked .idle c w (c.recvPeer i w m) := by
  cases h with
  | readFailed l q st ht hl hs hp ho hrf =>
    obtain ⟨-, hf⟩ | ⟨hr, o', hf⟩ := hrf
    · cases hf
    · cases hf
      have e : c.recvPeer i w (.readReply st) = c.processFailed .read q := by
        simp [Cacher.recvPeer, Cacher.processReadReply, show c.pending = _ from hp]
      rw [e]
      exact .idle (Settled.processFailed_drop ⟨ho, hr, hfwd⟩ (by rintro ⟨⟩)) rfl
        (.failed l .read 0 none q hp hl (fun _ => hs.locks) ht)
  | writeFailed op n st l q ht hl hs hq hp ho hrf =>
    have hrf : Refused c.replies [(o, m)] n st := hrf
    generalize hrep : c.replies = rep at hrf
    cases hrf with
    | both _ st =>
      have e : c.recvPeer i w (.writeReply st) =
          { st := { c with pending := some (.fetch op (-1) (some st) q) } } :=
        processWriteReply_write false hp hs.notRead _
      rw [e]
      refine .idle (.writeFailed op (-1) (some st) l q ht hl hs hq rfl ho ?_) rfl
        (.wait none op _ _ _ _ q hp)
      show Refused c.replies c.fromPeers (-1) (some st)
      rw [hrep, hfwd]
      exact .last st
    | peer _ st =>
      have e : c.recvPeer i w (.writeReply st) = c.processFailed op q :=
        processWriteReply_write false hp hs.notRead _
      rw [e]
      exact .idle (Settled.processFailed_idle ⟨ho, hrep, hfwd⟩ hl hs hq) rfl
        (.failed l op _ _ q hp hl hs.free ht)
  | _ => simp_all

theorem Sharer.recvPeer {o : W} {m : PeerMsg}
    (h : Sharer i cur p { c.view parked with fwd := [(o, m)] }) (hfwd : c.fromPeers = []) :
    Kept f i cur parked (.sharer p) c w (c.recvPeer i w m) := by
  cases h with
  | arriving l q hl hs hptr hp ho hrf =>
    obtain ⟨-, hf⟩ | ⟨hr, o', hf⟩ := hrf
    · cases hf
    · cases hf
      subst hptr
      exact Sharer.arrive hl hs hp ho hr hfwd false
  | _ => simp_all

theorem Owner.recvPeer {o : W} {m : PeerMsg}
    (h : Owner i cur p { c.view parked with fwd := [(o, m)] }) (hfwd : c.fromPeers = []) :
    Kept f i cur parked (.owner p) c w (c.recvPeer i w m) := by
  cases h with
  | granted op n l q hl hs hptr hp ho hrf =>
    have hrf : Granted i cur q l.data c.replies [(o, m)] n := hrf
    have hl' : (c.land (some cur)).line = some { l with data := cur } := by
      simp [Cacher.land, Cacher.mapLine, show c.line = _ from hl]
    have hs' : WriteLine { l with data := cur } op := ⟨hs.state, hs.notRead, hs.locks, hs.unlocked⟩
    generalize hrep : c.replies = rep at hrf
    subst hptr
    cases hrf with
    | both =>
      have e : c.recvPeer i w (.imm cur) =
          { st := { c.land (some cur) with pending := some (.fetch op (-1) none q) } } :=
        processImm_write false hp hs.notRead _
      rw [e]
      refine ⟨Owner.granted op (-1) { l with data := cur } q hl' hs' rfl rfl ho ?_, .inl rfl,
        .wait (some cur) op _ _ _ _ q hp⟩
      show Granted i cur q cur c.replies c.fromPeers (-1)
      rw [hrep, hfwd]
      exact .last rfl
    | peer =>
      have e : c.recvPeer i w (.imm cur) = (c.land (some cur)).finishWrite i w q :=
        processImm_write false hp hs.notRead _
      have hset : Settled parked (c.land (some cur)) := ⟨ho, hrep, hfwd⟩
      rw [e]
      exact ⟨hset.finishWrite (l := { l with data := cur }) hl' hs' rfl, .inl rfl,
        .write (some cur) _ op _ _ q hp hl' hs'⟩
  | _ => simp_all

theorem GrantWait.recvPeer {o : W} {m : PeerMsg}
    (h : GrantWait cur p { c.view parked with fwd := [(o, m)] }) (hfwd : c.fromPeers = []) :
    Kept f i cur parked (.grantWait p) c w (c.recvPeer i w m) := by
  cases h with
  | mk op n l q hl hs hptr hp ho hr hf =>
    obtain ⟨rfl, o', hf⟩ | ⟨-, hf, -⟩ := hf
    · cases hf
      have hl' : (c.land (some cur)).line = some { l with data := cur } := by
        simp [Cacher.land, Cacher.mapLine, show c.line = _ from hl]
      have e : c.recvPeer i w (.imm cur) =
          { st := { c.land (some cur) with pending := some (.fetch op (-1) none q) } } :=
        processImm_write false hp hs.notRead _
      rw [e]
      exact ⟨.mk op (-1) { l with data := cur } q hl' ⟨hs.state, hs.notRead, hs.locks, hs.unlocked⟩
        hptr rfl ho hr (.inr ⟨rfl, hfwd, rfl⟩), .inr rfl, .wait (some cur) op _ _ _ _ q hp⟩
    · cases hf

theorem FailWait.recvPeer {o : W} {m : PeerMsg}
    (h : FailWait f p { c.view parked with fwd := [(o, m)] }) (hfwd : c.fromPeers = []) :
    Kept f i cur parked (.failWait p) c w (c.recvPeer i w m) := by
  cases h with
  | mk op n s l q hl hs hptr ht hq hp ho hr hf =>
    obtain ⟨rfl, rfl, o', st, hf⟩ | ⟨-, -, hf⟩ := hf
    · cases hf
      have e : c.recvPeer i w (.writeReply st) =
          { st := { c with pending := some (.fetch op (-1) (some st) q) } } :=
        processWriteReply_write false hp hs.notRead _
      rw [e]
      exact ⟨.mk op (-1) (some st) l q hl hs hptr ht hq rfl ho hr (.inr ⟨rfl, rfl, hfwd⟩), .inr rfl,
        .wait none op _ _ _ _ q hp⟩
    · cases hf

theorem Cfg.recvPeer {o : W} {m : PeerMsg}
    (h : Cfg f i cur role { c.view parked with fwd := [(o, m)] }) (hfwd : c.fromPeers = []) :
    Kept f i cur parked role c w (c.recvPeer i w m) := by
  cases role with
  | idle => exact Idle.recvPeer h hfwd
  | sharer p => exact Sharer.recvPeer h hfwd
  | owner p => exact Owner.recvPeer h hfwd
  | grantWait p => exact GrantWait.recvPeer h hfwd
  | failWait p => exact FailWait.recvPeer h hfwd
  | _ =>
    cases h
    simp_all

/-! ## The worker after a reply -/

/-- The only reply to an eviction is the home's. -/
theorem Cfg.writeBack_rep {v : View W} (h : Cfg f i cur role v) (hp : v.pending = some .writeBack)
    (hr : v.rep ≠ [] ∨ v.fwd ≠ []) : v.out = [] ∧ v.rep = [.imm none] ∧ v.fwd = [] := by
  cases role with
  | _ => cases h <;> simp_all

/-- A worker with a reply on its way to it has no one-sided write on its way. -/
theorem At.noRdma_of_rep (h : At f i cur mem parked role t c)
    (hr : (c.view parked).rep ≠ [] ∨ (c.view parked).fwd ≠ []) :
    ∀ m ∈ c.toHome, m.isRdma = false := by
  by_cases hp : c.pending = some .writeBack
  · have hin : c.inFlight = [] := (List.append_eq_nil_iff.mp (h.cfg.writeBack_rep hp hr).1).2
    cases h.landing with
    | none hn => exact hn
    | before p post hq => simp [Cacher.inFlight, hq] at hin
    | after p a hq => simp [Cacher.inFlight, hq] at hin
  · exact h.landing.noRdma hp

theorem At.recvReply (h : At f i cur mem parked role t c) {r : Reply} {ms : List (FromHome W)}
    (hc : c.fromHome = .reply r :: ms) :
    At f i (Block.value i cur (Cacher.recvHome i { c with fromHome := ms } w (.reply r)).evs) mem
      parked role t (Cacher.recvHome i { c with fromHome := ms } w (.reply r)).st ∧
    (role.isOwner = true ∨
      Block.value i cur (Cacher.recvHome i { c with fromHome := ms } w (.reply r)).evs = cur) ∧
    Replied i cur { c with fromHome := ms } w
      (Cacher.recvHome i { c with fromHome := ms } w (.reply r)) := by
  set c₁ : Cacher W := { c with fromHome := ms }
  have hrep : c.replies = r :: c₁.replies := by
    simp [Cacher.replies, hc, c₁]
  have hv : c.view parked = { c₁.view parked with rep := r :: c₁.replies } := by
    simp only [Cacher.view, hrep]
    rfl
  have hasks : c₁.asks = c.asks := by
    simp [Cacher.asks, hc, c₁, List.filterMap_cons]
  have hne : (c.view parked).rep ≠ [] ∨ (c.view parked).fwd ≠ [] := .inl (by simp [hv])
  have hin : Inner c₁ (c₁.recvHome i w (.reply r)).st := .recvHome r
  obtain ⟨hcfg, hval, hrep'⟩ : Kept f i cur parked role c₁ w (c₁.recvHome i w (.reply r)) :=
    Cfg.recvReply (hv ▸ h.cfg)
  have htok : TokOk t c₁ := by
    have ht := h.tok
    unfold TokOk at ht ⊢
    rwa [hasks]
  have hord : Ordered c₁ := by
    have ho := h.ord
    rw [Ordered, hc] at ho
    exact (List.pairwise_cons.mp ho).2
  refine ⟨⟨hcfg, hin.tok htok, hin.ord hord, .of_noRdma ?_ ?_⟩, hval, hrep'⟩
  · rw [hin.toHome]
    exact h.noRdma_of_rep hne
  · intro hp'
    have hp : c.pending = some .writeBack := hin.pending hp'
    have hr := (h.cfg.writeBack_rep hp hne).2.1
    obtain ⟨rfl, -⟩ := List.cons.inj (hrep.symm.trans hr)
    simp [Cacher.recvHome, Cacher.processImm, Cacher.land, show c₁.pending = _ from hp,
      Cacher.processPendingEvictDirty, Cacher.done, Cacher.processToServe] at hp'

theorem Cfg.fwd_eq {v : View W} (h : Cfg f i cur role v) : v.fwd = [] ∨ ∃ x, v.fwd = [x] := by
  cases role with
  | idle => cases h with
    | writeFailed op n st l q ht hl hs hq hp ho hrf =>
      generalize v.rep = rep, v.fwd = fwd at hrf
      cases hrf <;> simp
    | readFailed l q st ht hl hs hp ho hrf => grind
    | _ => simp_all
  | owner p => cases h with
    | granted op n l q hl hs hptr hp ho hrf =>
      generalize v.rep = rep, v.fwd = fwd at hrf
      cases hrf <;> simp
    | _ => simp_all
  | _ => cases h <;> grind

variable [DecidableEq W]

theorem At.recvPeer (h : At f i cur mem parked role t c) {o : W} {m : PeerMsg}
    {ms : List (W × PeerMsg)} (hc : takeFrom o c.fromPeers = some (m, ms)) :
    At f i (Block.value i cur (Cacher.recvPeer i { c with fromPeers := ms } w m).evs) mem
      parked role t (Cacher.recvPeer i { c with fromPeers := ms } w m).st ∧
    (role.isOwner = true ∨
      Block.value i cur (Cacher.recvPeer i { c with fromPeers := ms } w m).evs = cur) ∧
    Replied i cur { c with fromPeers := ms } w (Cacher.recvPeer i { c with fromPeers := ms } w m) := by
  obtain ⟨hfwd, rfl⟩ : c.fromPeers = [(o, m)] ∧ ms = [] := by
    obtain hf | ⟨x, hf⟩ := h.cfg.fwd_eq
    · have hf : c.fromPeers = [] := hf
      rw [hf] at hc
      cases hc
    · have hf : c.fromPeers = [x] := hf
      rw [hf] at hc ⊢
      simp only [takeFrom, Option.map_none, Option.ite_none_right_eq_some, Option.some.injEq,
        Prod.mk.injEq] at hc
      obtain ⟨rfl, rfl, rfl⟩ := hc
      exact ⟨rfl, rfl⟩
  set c₁ : Cacher W := { c with fromPeers := [] }
  have hv : c.view parked = { c₁.view parked with fwd := [(o, m)] } := by
    simp only [Cacher.view, hfwd]
    rfl
  have hne : (c.view parked).rep ≠ [] ∨ (c.view parked).fwd ≠ [] := .inr (by simp [hv])
  have hin : Inner c₁ (c₁.recvPeer i w m).st := .recvPeer m
  obtain ⟨hcfg, hval, hrep'⟩ : Kept f i cur parked role c₁ w (c₁.recvPeer i w m) :=
    Cfg.recvPeer (hv ▸ h.cfg) rfl
  refine ⟨⟨hcfg, hin.tok h.tok, hin.ord h.ord, .of_noRdma ?_ fun hp' => ?_⟩, hval, hrep'⟩
  · rw [hin.toHome]
    exact h.noRdma_of_rep hne
  · have hf := (h.cfg.writeBack_rep (hin.pending hp') hne).2.2
    simp [hv] at hf

end HwGam.Coherence
