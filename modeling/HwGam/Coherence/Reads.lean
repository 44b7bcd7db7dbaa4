import HwGam.Coherence.Effects

/-!
# What READs return

A READ gets its bytes from the memory of the home, from a line of its worker, or with an answer of
the home or of the owner of the block. Unless it is served from a line in transition, they are the
bytes of the last WRITEs that took effect, whichever way they come.
-/

namespace HwGam.Coherence

open Lib

variable {V : Type*}

/-! ## Bytes -/

/-- The request covers byte `k` of block `i`. -/
def Request.Covers (q : Request) (i k : Nat) : Prop :=
  q.gs i - blockAddr i ≤ k ∧ k < q.gs i - blockAddr i + q.len i

instance (q : Request) (i k : Nat) : Decidable (q.Covers i k) :=
  inferInstanceAs (Decidable (_ ∧ _))

/-- The byte of the user's buffer for byte `k` of block `i`. -/
def Request.byteAt (q : Request) (i k : Nat) : UInt8 :=
  q.ptr (q.gs i - q.addr + (k - (q.gs i - blockAddr i)))

theorem Request.copyIn_eq (q : Request) (i k : Nat) (d : Data) :
    q.copyIn i d k = if q.Covers i k then q.byteAt i k else d k := rfl

/-- A plain WRITE changes the bytes it covers. -/
theorem Request.apply_eq {q : Request} (hop : q.op = .write) (hg : q.gfunc = none) (i k : Nat)
    (d : Data) : q.apply i d k = if q.Covers i k then q.byteAt i k else d k := by
  simp only [Request.apply, hop, hg]
  exact q.copyIn_eq i k d

/-- Where plain WRITEs cover a byte, it has the value of the last one. -/
theorem Block.exists_last {i k : Nat} {mem : Data} {log : List (Ev V)}
    (hplain : ∀ q, .effect q ∈ log → q.op = .write ∧ q.gfunc = none) {r : Request}
    (hr : .effect r ∈ log) (hk : r.Covers i k) : ∃ w pre post, log = pre ++ .effect w :: post ∧
      .effect r ∈ pre ++ [.effect w] ∧ (∀ x, .effect x ∈ post → ¬ x.Covers i k) ∧
      Block.value i mem log k = w.byteAt i k := by
  induction log using List.reverseRecOn with
  | nil => simp at hr
  | append_singleton log e ih =>
    have hplain' : ∀ q, .effect q ∈ log → q.op = .write ∧ q.gfunc = none :=
      fun q hq => hplain q (List.mem_append_left _ hq)
    rw [Block.value_append]
    by_cases he : ∃ q, e = .effect q ∧ q.Covers i k
    · obtain ⟨q, rfl, hq⟩ := he
      obtain ⟨hop, hg⟩ := hplain q (by simp)
      refine ⟨q, log, [], rfl, hr, by simp, ?_⟩
      change q.apply i (Block.value i mem log) k = _
      rw [Request.apply_eq hop hg, if_pos hq]
    · have hr' : .effect r ∈ log := by
        rcases List.mem_append.mp hr with hr | hr
        · exact hr
        · exact absurd ⟨r, (List.mem_singleton.mp hr).symm, hk⟩ he
      obtain ⟨w, pre, post, hlog, hmem, hpost, hval⟩ := ih hplain' hr'
      refine ⟨w, pre, post ++ [e], by simp [hlog], hmem, fun x hx => ?_, ?_⟩
      · rcases List.mem_append.mp hx with hx | hx
        · exact hpost x hx
        · exact fun hc => he ⟨x, (List.mem_singleton.mp hx).symm, hc⟩
      · cases e with
        | effect q =>
          obtain ⟨hop, hg⟩ := hplain q (by simp)
          have hq : ¬ q.Covers i k := fun hc => he ⟨q, rfl, hc⟩
          change q.apply i (Block.value i mem log) k = _
          rw [Request.apply_eq hop hg, if_neg hq, hval]
        | _ => exact hval

def Ev.copied? : Ev V → Option Data
  | .copyOut _ d => some d
  | _ => none

theorem Ev.exists_copyOut {e : Ev V} (h : e.copied?.isSome = true) : ∃ q d, e = .copyOut q d := by
  cases e with
  | copyOut q d => exact ⟨q, d, rfl⟩
  | _ => cases h

/-! ## Runs -/

namespace Layout

variable [DecidableEq V] {l : Layout V} {f : Slack} {mem : Nat → Data} {s s' : Sys V} {a : SysAct V}
  {q : Request} {i : Nat} {d : Data}

/-- A READ is served from a line on its way out, or on its way to CACHE_DIRTY. -/
def TransientHit (l : Layout V) (a : SysAct V) (s : Sys V) : Prop :=
  ∃ x ∈ l.target a s, x.2.transientHit (s.blk x.1)

/-- What a turn copies out is the value of the block. -/
theorem Turn.copyOut_eq {u : V} {x : Act V} {es : List (Ev V)} (ht : l.Turn f mem s s' u i x es)
    (hf : f.stale = false) (hx : ¬ x.transientHit (s.blk i)) (he : .copyOut q d ∈ es) :
    d = Block.value i (mem i) (s.blk i).log := by
  have hw := ht.work
  generalize (s'.blk i).desk (l.place u i) = d' at hw
  generalize (s.blk i).desk (l.place u i) = d₀ at hw
  cases hw with
  | hit r ptr data hq hd =>
    obtain ⟨-, rfl⟩ : q = r ∧ d = data := by simpa using he
    exact hd ⟨hf, hx⟩
  | ends a es locks ha hl hends =>
    cases hends with
    | read r hp hq =>
      obtain ⟨-, rfl⟩ : q = r ∧ d = _ := by simpa using he
      rfl
    | _ => simp at he
  | _ => simp at he

theorem copyOut_eq_value (h : Reaches l.step l.Blocking (Sys.init mem) s)
    (hs : l.step a s = some s') (hnot : ¬ l.TransientHit a s)
    (he : .copyOut q d ∈ newEvents (s.blk i) (s'.blk i)) :
    d = Block.value i (mem i) (s.blk i).log := by
  have hm := step_moved (good_of_blocking h) hs
  obtain hblk | ⟨u, j, x, es, ht, hx⟩ := hm.turn
  · simp [newEvents, hblk] at he
  · by_cases hj : i = j
    · subst hj
      rw [newEvents_of_log ht.log] at he
      refine ht.copyOut_eq rfl (fun hhit => hnot ?_) he
      cases x with
      | access n r ptr =>
        obtain rfl : n = l.place u i := ht.place
        exact ⟨_, (hx r ptr rfl).2, hhit⟩
      | _ => exact hhit.elim
    · simp [newEvents, ht.others i hj] at he

/-- RLOCKs find room, and neither a try-lock nor a GFUNC is issued. -/
def Plain (l : Layout V) (a : SysAct V) (s : Sys V) : Prop :=
  l.Blocking a s ∧ ∀ q ∈ a.issued?, q.gfunc.isNone = true

instance (l : Layout V) (a : SysAct V) (s : Sys V) : Decidable (l.Plain a s) :=
  inferInstanceAs (Decidable (_ ∧ ∀ q ∈ a.issued?, _))

theorem plain_of_reaches (h : Reaches l.step l.Plain (Sys.init mem) s) :
    ∀ q ∈ s.issued, q.gfunc = none := by
  refine Reaches.invariant_along (I := fun t => ∀ q ∈ t.issued, q.gfunc = none)
    (by simp [Sys.init, Control.issued]) ?_ h
  intro a t t' hr hp ha hs q hq
  obtain ⟨-, hfile⟩ | ⟨r, rfl, -, hfile⟩ :=
    (step_moved (l.good_blk_all (hr.mono fun _ _ h => h.1.1)) hs).file
  · have hiss : t'.issued = t.issued := congrArg Prod.snd hfile
    exact hp q (hiss ▸ hq)
  · have hiss : t'.issued = t.issued ++ [r] := congrArg Prod.snd hfile
    rw [hiss] at hq
    rcases List.mem_append.mp hq with hq | hq
    · exact hp q hq
    · obtain rfl := List.mem_singleton.mp hq
      exact Option.isNone_iff_eq_none.mp (ha.2 q rfl)

theorem last_of_copyOut (h : Reaches l.step l.Plain (Sys.init mem) s)
    (hs : l.step a s = some s') (hnot : ¬ l.TransientHit a s)
    (he : .copyOut q d ∈ newEvents (s.blk i) (s'.blk i)) {r : Request} (hr : r ∈ s.issued)
    (hop : r.op = .write) (hdone : s.hist.countP (Happened.tells r.id) ≠ 0) (hi : i ∈ r.span)
    {k : Nat} (hk : r.Covers i k) :
    ∃ w pre post, (s.blk i).log = pre ++ .effect w :: post ∧ .effect r ∈ pre ++ [.effect w] ∧
      (∀ x, .effect x ∈ post → ¬ x.Covers i k) ∧ d k = w.byteAt i k := by
  have hroom : ∀ a t, l.Plain a t → l.Room a t := fun _ _ h => h.1.1
  have hb := booked_of_reaches hroom h
  have hl := logged_of_reaches hroom h
  have hplain : ∀ x, .effect x ∈ (s.blk i).log → x.op = .write ∧ x.gfunc = none := fun x hx =>
    ⟨hl.kind i _ hx, plain_of_reaches h x (hl.issued i _ hx x rfl).1⟩
  rw [copyOut_eq_value (h.mono fun _ _ h => h.1) hs hnot he]
  exact Block.exists_last hplain (hb.effect_mem hl hr hop hi hdone) hk

/-- A remote WRITE of 7 gets the block; the home's READ asks for it and is about to hear the answer. -/
def readBack : List (SysAct Bool) :=
  [.issue { id := 0, thread := 1, op := .write, addr := 0, size := 1, ptr := fun _ => 7 },
    .serve true 0, .finish true, .recvHome true 0, .recv true 0, .recv true 0, .replay true,
    .issue { id := 1, thread := 0, op := .read, addr := 0, size := 1 }, .serve false 0, .finish false,
    .recv true 0]

end Layout

end HwGam.Coherence
