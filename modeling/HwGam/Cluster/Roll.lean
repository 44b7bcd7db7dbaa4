import HwGam.Cluster.Join

/-!
# The ids and the list

What the master has told the workers: their ids, and who joined before. The steps between two
workers leave it as it is.
-/

namespace HwGam.Cluster

open HwGam.Lib

/-- The phases as far as the master sees them. -/
inductive Kind
  | start
  | knocked (msg : List Byte)
  | greeted (stream : List Byte)
  /-- the worker has read the list -/
  | past
  | gone

def Phase.kind : Phase → Kind
  | .start => .start
  | .knocked msg => .knocked msg
  | .greeted stream => .greeted stream
  | .dialing _ | .waiting .. | .answered .. | .ready => .past
  | .gone => .gone

variable {V : Type*}

def Sys.kind (s : Sys V) (v : V) : Kind := (s.worker v).phase.kind

/-- The ids that were given, and what the master keeps of the workers that have one. -/
structure Ids (l : Net V) (s : Sys V) : Prop where
  room : s.master.counter ≤ maxNumWorker
  given_le : ∀ v, s.given v ≤ s.master.counter
  inj : ∀ u v, s.given u = s.given v → s.given u ≠ 0 → u = v
  entry : ∀ v, s.given v ≠ 0 → s.master.widCliMap (s.given v) =
    some ⟨s.given v, l.params none (s.given v) true, l.params (some v) 0 true⟩

/-- The list as text. While a worker is waited for, the text ends where its address goes. -/
structure Text (l : Net V) (s : Sys V) : Prop where
  list : fields comma s.master.workerIps = s.joined.map fun v => (l.addr v).ipPort
  shape : s.master.accepting ≠ none →
    s.master.workerIps = [] ∨ ∃ ips, s.master.workerIps = ips ++ [comma]
  length : s.master.workerIps.length + (s.master.accepting.elim 0 fun _ => 21) ≤
    22 * s.master.counter
  count : s.joined.length + (s.master.accepting.elim 0 fun _ => 1) ≤ s.master.counter
  nodup : s.joined.Nodup

/-- How far the workers are, as the master sees it. -/
structure Told (l : Net V) (s : Sys V) : Prop where
  knocked : ∀ v msg, s.kind v = .knocked msg → msg = getConnString 0 (l.params (some v) 0 true)
  greeted : ∀ v stream, s.kind v = .greeted stream →
    s.master.accepting = some v ∧ s.master.inbox = none ∧ s.given v ≠ 0 ∧ ∃ inmsg,
      stream = getConnString (s.given v) (l.params none (s.given v) true) ++ inmsg ∧
      inmsg.length ≤ maxWorkersStrlen ∧
      workersOf inmsg = some (s.joined.map fun v => (l.addr v).dest)
  past : ∀ v, s.kind v = .past → s.given v ≠ 0 ∧ (s.worker v).wid = s.given v ∧
    (v ∈ s.joined ∨ s.master.accepting = some v)
  joined : ∀ v ∈ s.joined, s.kind v = .past
  accepting : ∀ v, s.master.accepting = some v → v ∉ s.joined ∧
    ((∃ stream, s.kind v = .greeted stream) ∨
      s.kind v = .past ∧ s.master.inbox = some (l.addr v).ipPort ∧ s.seen v = s.joined)
  free : s.master.accepting = none → s.master.inbox = none
  before : ∀ pre v post, s.joined = pre ++ v :: post → s.seen v = pre
  seen_sub : ∀ v, ∀ u ∈ s.seen v, u ∈ s.joined

structure Roll (l : Net V) (s : Sys V) : Prop where
  ids : Ids l s
  text : Text l s
  told : Told l s

namespace Roll

variable {l : Net V} {s s' : Sys V} {u v : V}

theorem start : Roll l ({} : Sys V) where
  ids := ⟨Nat.zero_le _, fun _ => Nat.zero_le _, fun _ _ _ h => absurd rfl h,
    fun _ h => absurd rfl h⟩
  text := ⟨rfl, fun h => absurd rfl h, Nat.zero_le _, Nat.zero_le _, List.nodup_nil⟩
  told := by
    constructor
    case free => exact fun _ => rfl
    case before => exact fun _ _ _ h => by simp at h
    all_goals simp [Sys.kind, Phase.kind]

/-- Nothing here depends on what the workers do among themselves. -/
theorem congr (h : Roll l s) (hm : s'.master = s.master) (hj : s'.joined = s.joined)
    (hg : s'.given = s.given) (hs : s'.seen = s.seen) (hk : ∀ v, s'.kind v = s.kind v)
    (hw : ∀ v, (s'.worker v).wid = (s.worker v).wid) : Roll l s' where
  ids := by
    obtain ⟨hroom, hle, hinj, hentry⟩ := h.ids
    exact ⟨hm ▸ hroom, hm ▸ hg ▸ hle, hg ▸ hinj, hm ▸ hg ▸ hentry⟩
  text := by
    obtain ⟨hlist, hshape, hlen, hcount, hnodup⟩ := h.text
    exact ⟨hm ▸ hj ▸ hlist, hm ▸ hshape, hm ▸ hlen, hm ▸ hj ▸ hcount, hj ▸ hnodup⟩
  told := by
    obtain ⟨hknocked, hgreeted, hpast, hjoined, haccepting, hfree, hbefore, hsub⟩ := h.told
    constructor <;> simp only [hm, hj, hg, hs, hk, hw] <;> assumption

variable [DecidableEq V]

theorem kind_self {w : Worker} :
    (Function.update s.worker v w v).phase.kind = w.phase.kind := by
  rw [Function.update_self]

theorem connect (h : Roll l s) (hs : l.step (.connect v) s = some s') : Roll l s' := by
  obtain ⟨hv, rfl⟩ := Net.of_connect hs
  have hkind : s.kind v = .start := by rw [Sys.kind, hv, Phase.kind]
  refine ⟨⟨h.ids.room, h.ids.given_le, h.ids.inj, h.ids.entry⟩,
    ⟨h.text.list, h.text.shape, h.text.length, h.text.count, h.text.nodup⟩, ?_⟩
  obtain ⟨hknocked, hgreeted, hpast, hjoined, haccepting, hfree, hbefore, hsub⟩ := h.told
  refine ⟨fun x msg hx => ?_, fun x stream hx => ?_, fun x hx => ?_, fun x hx => ?_,
    fun x hx => ?_, hfree, hbefore, hsub⟩
  · by_cases hxv : x = v
    · subst hxv
      simp only [Sys.kind, Function.update_self, Phase.kind, Kind.knocked.injEq] at hx
      exact hx.symm
    · simp only [Sys.kind, Function.update_of_ne hxv] at hx
      exact hknocked x msg hx
  · by_cases hxv : x = v
    · subst hxv
      simp [Sys.kind, Phase.kind] at hx
    · simp only [Sys.kind, Function.update_of_ne hxv] at hx
      exact hgreeted x stream hx
  · by_cases hxv : x = v
    · subst hxv
      simp [Sys.kind, Phase.kind] at hx
    · simp only [Sys.kind, Function.update_of_ne hxv] at hx ⊢
      exact hpast x hx
  · have hxv : x ≠ v := by
      rintro rfl
      simp [hjoined x hx] at hkind
    simp only [Sys.kind, Function.update_of_ne hxv]
    exact hjoined x hx
  · have hacc := haccepting x hx
    have hxv : x ≠ v := by
      rintro rfl
      obtain ⟨-, ⟨_, hk⟩ | ⟨hk, -⟩⟩ := hacc <;> simp [hk] at hkind
    simp only [Sys.kind, Function.update_of_ne hxv]
    exact hacc

end Roll

end HwGam.Cluster
