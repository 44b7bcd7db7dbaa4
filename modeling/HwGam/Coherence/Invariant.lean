import HwGam.Coherence.ReplySteps

/-!
# The protocol invariant

`Phase` ties the home's directory entry and pending request to the roles and tokens of the workers;
`Inv` adds that every worker fits its role (`At`). The block's value `cur` is what the writes of the
history make of the initial memory; the home's memory has it unless some worker owns the block.
-/

namespace HwGam.Coherence

variable {W : Type*}

/-! ## Phases of the home -/

/-- A worker is a sharer with the line the list has for it, or idle. -/
def Holds (list : List (W × Ptr)) (w : W) (r : Role) : Prop :=
  (∃ p, (w, p) ∈ list ∧ r = .sharer p) ∨ ((∀ p, (w, p) ∉ list) ∧ r = .idle)

/-- The home has granted the worker nothing and asked it nothing. -/
def Unused (role : W → Role) (tok : W → Tok W) (w : W) : Prop := role w = .idle ∧ tok w = .none

/-! The home's question to the owner and its pending request, for itself or for the worker `x`. -/

def readAsk (x : Option (W × Ptr)) (t : Bool) : Ask W :=
  match x with
  | none => .fetchAndShared t
  | some y => .readForward y.1 t

def writeAsk (x : Option (W × Ptr)) (t : Bool) : Ask W :=
  match x with
  | none => .fetchAndInvalidate t
  | some y => .writeForward y.1 t

def writeData (cur : Data) (x : Option (W × Ptr)) : Option Data :=
  match x with
  | none => some cur
  | some _ => none

def readPending (x : Option (W × Ptr)) (q : Request) : HomePending W :=
  match x with
  | none => .fetchAndShared q
  | some y => .readForward y.1 y.2

def writePending (x : Option (W × Ptr)) (q : Request) : HomePending W :=
  match x with
  | none => .fetchAndInvalidate 1 none q
  | some y => .writeForward y.1 y.2

def invPending (x : Option (W × Ptr × Fetch)) (n : Int) (st : Option Status) (q : Request) :
    HomePending W :=
  match x with
  | none => .invalidate n st q
  | some y => .invalidateForward y.1 y.2.1 y.2.2 n st

section
variable (cur : Data) (role : W → Role) (tok : W → Tok W) (q : Request)

/-- The owner `o` is asked to share its copy, for the home's request `q` or for the worker `x`. -/
inductive ReadStage (o : W) (p : Ptr) (x : Option (W × Ptr)) : Prop
  | asked (t : Bool) (hq : x = none → q.op.isTry = t) (ht : tok o = .ask (readAsk x t))
      (ho : role o = .owner p) (hx : ∀ y ∈ x, role y.1 = .readWait y.2 t)
  | answered (ht : tok o = .ack (.imm (some cur))) (ho : role o = .sharer p)
      (hx : ∀ y ∈ x, role y.1 = .sharer y.2)
  | refused (st : Status) (hq : x = none → q.op.isTry = true)
      (ht : tok o = .ack (.readReply st)) (ho : role o = .owner p)
      (hx : ∀ y ∈ x, role y.1 = .idle)

/-- The owner `o` is asked to give up its copy, for the home's request `q` or for the worker `x`. -/
inductive WriteStage (o : W) (p : Ptr) (x : Option (W × Ptr)) : Prop
  | asked (t : Bool) (hq : x = none → q.op.isTry = t) (ht : tok o = .ask (writeAsk x t))
      (ho : role o = .owner p) (hx : ∀ y ∈ x, role y.1 = .writeWait y.2 t)
  | answered (ht : tok o = .ack (.imm (writeData cur x))) (ho : role o = .idle)
      (hx : ∀ y ∈ x, role y.1 = .grantWait y.2)
  | refused (st : Status) (hq : x = none → q.op.isTry = true)
      (ht : tok o = .ack (.writeReply st)) (ho : role o = .owner p)
      (hx : ∀ y ∈ x, role y.1 = .failWait y.2)

end

/-- A copy at line `p` is asked to go; `t`: for a try-lock, `st`: some copy has refused. -/
inductive InvStage (t : Bool) (st : Option Status) (p : Ptr) : Role → Tok W → Prop
  | asked (a : Ask W) (ha : Cacher.Ask.isInvalidate a = true) (ht : a.tryLock = t) :
    InvStage t st p (.sharer p) (.ask a)
  | answered : InvStage t st p .idle (.ack (.imm none))
  | refused (s : Status) (ht : t = true) : InvStage t st p (.sharer p) (.ack (.writeReply s))
  | kept (hs : st.isSome = true) : InvStage t st p (.sharer p) .none

def Tok.busy : Tok W → Bool
  | .none => false
  | _ => true

/-- The worker that waits for the other copies to go; `listed` as long as it has a copy itself. -/
structure Waits (list : List (W × Ptr)) (t : Bool) (role : W → Role) (tok : W → Tok W)
    (r : W) (p : Ptr) : Prop where
  listed : ∃ listed, role r = .invWait p listed t ∧ (listed = true → (r, p) ∈ list) ∧
    (listed = false → ∀ p', (r, p') ∉ list)
  tok : tok r = .none

/-- The copies of a list are asked to go, for the home or for the worker `x`; `n` have not been heard
of yet. -/
structure Invalidating (list : List (W × Ptr)) (x : Option (W × Ptr × Fetch)) (n : Int)
    (st : Option Status) (t : Bool) (role : W → Role) (tok : W → Tok W) : Prop where
  nodup : (list.map Prod.fst).Nodup
  count : n = list.countP fun a => (tok a.1).busy
  tryLock : st.isSome = true → t = true
  kept : st.isSome = true → ∃ w p, (w, p) ∈ list ∧ (∀ y ∈ x, w ≠ y.1) ∧ tok w = .none
  waits : ∀ y ∈ x, Waits list t role tok y.1 y.2.1
  copies : ∀ w, (∃ y ∈ x, w = y.1) ∨ (∃ p, (w, p) ∈ list ∧ InvStage t st p (role w) (tok w)) ∨
    ((∀ p, (w, p) ∉ list) ∧ Unused role tok w)

section
variable (cur : Data) (h : Home W) (role : W → Role) (tok : W → Tok W)

/-- `x` is the worker a pending request is forwarded for. -/
inductive Phase : Prop
  | unshared (hp : h.pending = none) (hs : h.entry.getState = .unshared)
      (hl : h.entry.getSList = []) (hk : h.entry.locks.Below (exclusive + 1)) (hm : h.mem = cur)
      (hw : ∀ w, Unused role tok w)
  | shared (d : DirEntry W) (he : h.entry = some d) (hp : h.pending = none)
      (hs : d.state = .shared) (hl : d.shared ≠ []) (hn : (d.shared.map Prod.fst).Nodup)
      (hk : d.locks.Below exclusive) (hm : h.mem = cur)
      (hw : ∀ w, Holds d.shared w (role w) ∧ tok w = .none)
  | dirty (d : DirEntry W) (o : W) (p : Ptr) (he : h.entry = some d) (hp : h.pending = none)
      (hs : d.state = .dirty) (hl : d.shared = [(o, p)]) (hk : d.locks.isBlockLocked = false)
      (ho : role o = .owner p ∧ tok o = .none) (hw : ∀ w, w = o ∨ Unused role tok w)
  | toShared (d : DirEntry W) (o : W) (p : Ptr) (x : Option (W × Ptr)) (q : Request)
      (he : h.entry = some d) (hp : h.pending = some (readPending x q))
      (hs : d.state = .toShared) (hl : d.shared = [(o, p)]) (hk : d.locks.isBlockLocked = false)
      (hstage : ReadStage cur role tok q o p x) (hx : ∀ y ∈ x, y.1 ≠ o ∧ tok y.1 = .none)
      (hw : ∀ w, w = o ∨ (∃ y ∈ x, w = y.1) ∨ Unused role tok w)
  | take (d : DirEntry W) (o : W) (p : Ptr) (x : Option (W × Ptr)) (q : Request)
      (he : h.entry = some d) (hp : h.pending = some (writePending x q))
      (hs : d.state = if x.isSome then .toDirty else .toUnShared) (hl : d.shared = [(o, p)])
      (hk : d.locks.isBlockLocked = false)
      (hstage : WriteStage cur role tok q o p x) (hx : ∀ y ∈ x, y.1 ≠ o ∧ tok y.1 = .none)
      (hw : ∀ w, w = o ∨ (∃ y ∈ x, w = y.1) ∨ Unused role tok w)
  | invalidate (d : DirEntry W) (x : Option (W × Ptr × Fetch)) (q : Request) (n : Int)
      (st : Option Status) (t : Bool) (hq : x = none → q.op.isTry = t) (he : h.entry = some d)
      (hp : h.pending = some (invPending x n st q))
      (hs : d.state = if x.isSome then .toDirty else .toUnShared)
      (hk : d.locks.Below exclusive) (hkx : x.isSome = true → d.locks.isBlockLocked = false)
      (hm : h.mem = cur) (hpos : 0 < n) (hc : Invalidating d.shared x n st t role tok)

end

/-! ## The invariant -/

/-- AI and WRITE_BACK. -/
def Own.isEvict : Own → Bool
  | .activeInvalidate _ | .writeBack _ => true
  | _ => false

/-- The next part of a replay, after the local requests, starts with the parked requests. -/
def loadNext {R : Type*} : List (Item R) → Bool
  | .load :: _ => true
  | .local _ :: rest => loadNext rest
  | _ => false

/-- An eviction message is parked only in a transition, or as long as it is about to be replayed. -/
def Home.EvictsWait (h : Home W) : Prop :=
  ∀ x ∈ h.serve, x.2.isEvict = true → h.entry.inTransition = true ∨ loadNext h.agenda = true

structure Inv [DecidableEq W] (f : Slack) (i : Nat) (cur : Data) (b : Block W) (role : W → Role)
    (tok : W → Tok W) : Prop where
  phase : Phase cur b.home role tok
  worker : ∀ w, At f i cur b.home.mem (b.home.parked w) (role w) (tok w) (b.cacher w)
  evicts : b.home.EvictsWait

/-- The workers fit some assignment of roles; `mem₀` is the block's initial value. -/
def Good [DecidableEq W] (f : Slack) (i : Nat) (mem₀ : Data) (b : Block W) : Prop :=
  ∃ role tok, Inv f i (Block.value i mem₀ b.log) b role tok

/-! ## What the steps of a run must meet -/

/-- An RLOCK finds room for one more reader in the lock table it goes to. -/
def Act.Room (a : Act W) (b : Block W) : Prop :=
  match a with
  | .access none q _ => q.op.isRLock = true → b.home.entry.locks.hasRoom q.addr
  | .access (some w) q _ => (b.cacher w).hasRoom q
  | _ => True

/-- The question of the home the action handles. -/
def Act.asked (a : Act W) (b : Block W) : Option (W × Ask W) :=
  match a with
  | .recv w => match (b.cacher w).fromHome with
    | .ask q :: _ => some (w, q)
    | _ => none
  | .replay (some w) => match (b.cacher w).agenda with
    | .remote q :: _ => some (w, q)
    | _ => none
  | _ => none

/-- The run contains no lapse but those of `f`. -/
def Slack.Permits (f : Slack) (a : Act W) (b : Block W) : Prop :=
  ∀ w q, a.asked b = some (w, q) → f.Allows (b.cacher w) q

end HwGam.Coherence
