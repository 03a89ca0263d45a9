import Mathlib.Logic.Relation
import Funduq.Broker.Ending
import Funduq.Broker.Life

/-!
# The broker refines the life of every run

Every step of the broker keeps the invariant of `Roll.lean`, and is for each run
a short course of its life (`Lane.Course`): the message about the run that was
taken, if one was, and at most one step of its own.  So whatever holds of a
run's life along every sequence of its steps holds of the run under every
interleaving of the broker: `Reachable.lane_invariant`, and
`ReachableBy.lane_invariant` where only some steps are taken.
-/

namespace Funduq.Broker

open Funduq.Lib

/-- The lane of a run makes one step of its own, or none. -/
abbrev Lane.Path (cfg : Config) (r : RunId) : Lane → Lane → Prop :=
  Relation.ReflGen (Lane.Step cfg r none)

/-- What one step of the broker is to a run, by the message about it that was
taken, if one was. -/
def Lane.Course (cfg : Config) (r : RunId) (a : Option Message) (l l' : Lane) : Prop :=
  match a with
  | none => Lane.Path cfg r l l'
  | some m => ∃ l₁, Lane.Step cfg r (some m) l l₁ ∧ Lane.Path cfg r l₁ l' ∧
      (m.arrival? = none → l' = l₁)

namespace State

variable {cfg : Config} {s s' : State} {h : HandlerId} {r x : RunId}

/-- The message action `a` takes off an inbox. -/
def takes? (s : State) : Action → Option Message
  | .take h => (s.inbox h).head?
  | _ => none

/-- The message about run `r` that action `a` takes off an inbox. -/
def takes (s : State) (a : Action) (r : RunId) : Option Message :=
  (s.takes? a).filter fun m => m.runId? = some r

/-- The message about a run that a step takes was on the inbox of the run's
handler. -/
theorem takes_home {a : Action} {m : Message} (hs : Roll s) (ht : s.takes a r = some m) :
    ∃ h, a = .take h ∧ (s.inbox h).head? = some m ∧ m.runId? = some r ∧ s.home r = some h := by
  unfold takes at ht
  obtain ⟨ht, hm⟩ := Option.filter_eq_some_iff.1 ht
  have hm : m.runId? = some r := of_decide_eq_true hm
  cases a with
  | take h =>
      exact ⟨h, rfl, ht, hm, hs.posted_home h m r (hs.unread h m (List.mem_of_mem_head? ht)) hm⟩
  | _ => cases ht

/-- The invariant is kept, and the runs have gone on with their lives. -/
structure Refines (cfg : Config) (a : Action) (s s' : State) : Prop where
  inv : Inv s'
  lane : ∀ r, Lane.Course cfg r (s.takes a r) (s.lane r) (s'.lane r)

/-- The invariant is kept, and the runs have gone on with their lives, though no
message was taken. -/
structure Proceeds (cfg : Config) (s s' : State) : Prop where
  inv : Inv s'
  lane : ∀ r, Lane.Path cfg r (s.lane r) (s'.lane r)

theorem Proceeds.refines {a : Action} (hp : Proceeds cfg s s') (ha : s.takes? a = none) :
    Refines cfg a s s' where
  inv := hp.inv
  lane r := by
    rw [takes, ha]
    exact hp.lane r

theorem Path.of_eq {l l' : Lane} (h : l' = l) : Lane.Path cfg r l l' := h ▸ .refl

theorem Proceeds.quiet (hs : Inv s) (hq : s.Quiet s') : Proceeds cfg s s' where
  inv := hs.quiet hq
  lane r := by
    obtain ⟨o, rfl, -⟩ := hq
    exact .refl

theorem Proceeds.still (hs : Inv s) (hq : s.Still s') : Proceeds cfg s s' :=
  .quiet hs hq.quiet

/-! ## The handlers -/

theorem Moved.lane_of_ne {R : Lane → Lane → Prop} {w : Sheet} (hm : s.Moved R h r w s')
    (hx : x ≠ r) : s'.lane x = s.lane x :=
  hm.did.lane_of_ne hx (hm.hands x hx)

theorem Moves.path (hm : s.Moves (Goes cfg) h s') (x : RunId) :
    Lane.Path cfg x (s.lane x) (s'.lane x) := by
  obtain ⟨r, w, hm⟩ := hm
  by_cases hx : x = r
  · subst hx
    rcases hm.lane with hl | hl
    · exact Path.of_eq hl
    · exact .single hl
  · exact Path.of_eq (hm.lane_of_ne hx)

theorem Moves.inv {R : RunId → Lane → Lane → Prop} (hm : s.Moves R h s') (hs : InvBut h s)
    (hf : s.task h ≠ .finished) : Inv s' := by
  obtain ⟨r, w, hm⟩ := hm
  exact hm.inv hs hf

theorem takes_of_head {rest : List Message} {m : Message} (hin : s.inbox h = m :: rest)
    (x : RunId) : s.takes (.take h) x = if m.runId? = some x then some m else none := by
  simp [takes, takes?, hin, Option.filter]

theorem refines_take (hs : Inv s) (hl : ∀ r, (s.lane r).Sound)
    (hstep : s.take cfg h = some s') : Refines cfg (.take h) s s' := by
  have hhand : ∀ x, s.task h = .idle → s.home x = some h → (s.lane x).hand = none := by
    intro x hi hx
    rw [lane_hand hx, hi]
    rfl
  obtain ⟨m, rest, hi, hin, hm⟩ := take_cases hs (fun r hr hi ho =>
    ((hl r).offering_of_open ((lane_live (hs.roll.home_of_live hr)).2 hr)
      (hhand r hi (hs.roll.home_of_live hr)) ho).2.2.1) hstep
  have hf : s.task h ≠ .finished := by rw [hi]; exact nofun
  rcases hm with ⟨hnone, hm⟩ | ⟨r, rfl, hm⟩
  · refine ⟨hm.inv ((inv_heard hs hin hnone).but h) (by rw [heard_eq]; exact hf), fun x => ?_⟩
    obtain ⟨r, w, hm⟩ := hm
    have hlane := lane_heard hs.roll hin x
    rw [takes_of_head hin]
    by_cases hx : x = r
    · subst hx
      rcases hm.lane with ⟨hmr, ht⟩ | ⟨hmr, ht⟩
      · rw [if_pos hmr] at hlane ⊢
        rw [hlane] at ht
        have hhome := hs.roll.posted_home h m x (hs.roll.unread h m (by rw [hin]; simp)) hmr
        exact ⟨_, .took hmr (hhand x hi hhome) ht, .refl, fun _ => rfl⟩
      · have hne : ¬ m.runId? = some x := by rw [hmr]; exact nofun
        rw [if_neg hne] at hlane ⊢
        exact Path.of_eq (ht.trans hlane)
    · have hne : ¬ m.runId? = some x := by
        intro hmx
        rcases hm.lane with ⟨hmr, -⟩ | ⟨hmr, -⟩
        · exact hx (Option.some.inj (hmx.symm.trans hmr))
        · exact absurd (hmx.symm.trans hmr) nofun
      rw [if_neg hne] at hlane ⊢
      exact Path.of_eq ((hm.lane_of_ne hx).trans hlane)
  · have hin' := invBut_arrived hs hin
    refine ⟨hm.inv hin' (by rw [arrived_eq]; exact hf), fun x => ?_⟩
    have hpath := hm.path x
    rw [lane_arrived hs hin] at hpath
    rw [takes_of_head hin]
    by_cases hx : x = r
    · subst hx
      rw [if_pos rfl] at hpath
      rw [if_pos (show (Message.queued x).runId? = some x from rfl)]
      obtain ⟨hnl, hhome, hheld⟩ := not_live_of_queued hs hin
      refine ⟨_, .took rfl (hhand x hi hhome) (.arrived ?_ ?_), hpath, nofun⟩
      · exact Bool.eq_false_iff.2 fun hc => hnl ((lane_live hhome).1 hc)
      · exact decide_eq_true hheld
    · have hne : ¬ (Message.queued r).runId? = some x := fun hc => hx (Option.some.inj hc).symm
      rw [if_neg hne]
      rwa [if_neg hx] at hpath

theorem proceeds_resume (hs : Inv s) (hstep : s.resume cfg h = some s') : Proceeds cfg s s' := by
  rcases moves_resume hs hstep with hm | hm | hm
  · refine ⟨hm.inv (hs.but h) ?_, hm.path⟩
    intro hf
    simp [resume, hf] at hstep
  · obtain ⟨r, ret, k, o, ht, hret, rfl, hg, hk⟩ := settles_eq hs hm
    refine ⟨inv_settled hs ht hg hk, fun x => ?_⟩
    rw [lane_settled hs ht]
    by_cases hx : x = r
    · subst hx
      rw [if_pos rfl]
      have hhome := hs.roll.home_of_live (live_of_recording hs ht)
      have hhand : (s.lane x).hand = some (.returned, ret) := by
        rw [lane_hand hhome, ht]
        exact if_pos rfl
      exact .single (.settled hhand hret)
    · rw [if_neg hx]
  · exact ⟨inv_leave hs hm, fun x => Path.of_eq (lane_leave hm x)⟩

theorem proceeds_transact {succeeds : Bool} (hs : Inv s)
    (hstep : s.transact h succeeds = some s') : Proceeds cfg s s' := by
  have hm : s.Moves (Goes cfg) h s' := moves_transact hs hstep
  refine ⟨hm.inv (hs.but h) ?_, hm.path⟩
  intro hf
  simp [transact, hf] at hstep

/-! ## The doors, the roster, the clocks -/

theorem proceeds_postTo (hs : Inv s) {m : Message} (ha : m.arrival? = none)
    (hf : ∀ x c, m = .trusted x c → ∃ code message, c = .fail code message)
    (hr : ∀ x, m.runId? = some x → x = r) (hc : ∀ x, m ≠ .cancelAsked x) :
    Proceeds cfg s (s.postTo r m).1 :=
  .still hs (still_postTo hs.roll.atHome fun _ hh =>
    ⟨ha, hf, fun x hx => (hr x hx) ▸ hh, fun x hx => absurd hx (hc x)⟩)

/-- The cancellation of `r` has been noted, and not yet posted. -/
def cancelNoted (s : State) (r : RunId) : State :=
  { s.setRun r (s.run r).askCancel with
    cancelCalled := Function.update s.cancelCalled r true }

theorem still_requestCancel (hs : s.AtHome) (hheld : r ∈ s.runs) :
    (s.cancelNoted r).Still (s.requestCancel r).1 := by
  unfold requestCancel
  rw [if_pos hheld]
  refine still_postTo (s := s.cancelNoted r) hs fun _ hh => ⟨rfl, nofun, ?_, ?_⟩
  · rintro x ⟨⟩
    exact hh
  · rintro x ⟨⟩
    exact Function.update_self ..

theorem proceeds_requestCancel (hs : Inv s) (r : RunId) :
    Proceeds cfg s (s.requestCancel r).1 := by
  by_cases hheld : r ∈ s.runs
  · obtain ⟨h, hthread⟩ := (hs.roll.held_iff r).1 hheld
    have hhome := hs.roll.atHome r h hthread
    have hsame : (s.run r).SameDesk (s.run r).askCancel := ⟨rfl, rfl, rfl, rfl⟩
    have hd : s.Did h r { s.sheet h r with run := (s.run r).askCancel }
        (s.setRun r (s.run r).askCancel) := (Did.refl s h r).setRun rfl
    have hinv := (hs.but h).did hd ⟨rfl, rfl, rfl⟩ (.inr ⟨hsame, rfl⟩) .rfl
      ((hs.desk h).update hsame)
    have hasked : ∀ h' x, .cancelAsked x ∈ s.inbox h' →
        Function.update s.cancelCalled r true x = true := by
      intro h' x hx
      by_cases he : x = r
      · rw [he]
        exact Function.update_self ..
      · exact (Function.update_of_ne he ..).trans (hs.roll.asked h' x hx)
    have hnoted : Inv (s.cancelNoted r) :=
      ⟨{ hinv.roll with asked := hasked }, hinv.desk, hinv.counted⟩
    obtain ⟨o, ho, hrest⟩ := still_requestCancel hs.roll.atHome hheld
    refine ⟨hnoted.quiet (Still.quiet ⟨o, ho, hrest⟩), fun x => ?_⟩
    rw [ho]
    change Lane.Path cfg x (s.lane x) ((s.cancelNoted r).lane x)
    by_cases hx : x = r
    · subst hx
      have he : (s.cancelNoted x).lane x = { s.lane x with
          run := (s.run x).askCancel
          cancelCalled := true } := by
        simp [cancelNoted, lane]
      rw [he]
      exact .single (.cancelCalled (decide_eq_true hheld))
    · exact Path.of_eq (by simp [cancelNoted, lane, hx])
  · unfold requestCancel
    rw [if_neg hheld]
    exact .still hs (.refl s)

theorem still_clockRunsOut {clock : OfferClock} (hs : Inv s)
    (hstep : s.clockRunsOut clock = some s') : s.Still s' := by
  unfold clockRunsOut at hstep
  split at hstep
  · rename_i hc
    cases hstep
    have hq : s.Still { s with clocks := s.clocks.erase clock } := by
      refine ⟨{ s.outside with clocks := s.clocks.erase clock }, rfl,
        ⟨s.grows_outside.inbox, fun c hc => .inl (List.mem_of_mem_erase hc),
          s.grows_outside.handovers⟩, fun _ => shifts_of_same rfl rfl rfl rfl rfl⟩
    refine hq.trans (still_post ⟨rfl, nofun, ?_, nofun⟩)
    rintro x ⟨⟩
    exact hs.roll.clocks clock hc
  · cases hstep

theorem still_endHandover (s : State) (task : Handover) :
    s.Still { s with handovers := s.handovers.erase task } := by
  refine ⟨{ s.outside with handovers := s.handovers.erase task }, rfl,
    ⟨s.grows_outside.inbox, s.grows_outside.clocks,
      fun t ht => .inl ⟨t, List.mem_of_mem_erase ht, rfl⟩⟩,
    fun _ => shifts_of_same rfl rfl rfl rfl rfl⟩

theorem still_handOverEnds {task : Handover} {fails : Bool} (hs : Inv s)
    (hstep : s.handOverEnds task fails = some s') : s.Still s' := by
  unfold handOverEnds at hstep
  split at hstep
  · rename_i hg
    have hq := still_endHandover s task
    cases fails with
    | false =>
        cases hstep
        exact hq
    | true =>
        cases hstep
        refine hq.trans (still_post ⟨rfl, nofun, ?_, nofun⟩)
        rintro x ⟨⟩
        exact hs.roll.handovers task hg.1
  · cases hstep

theorem proceeds_deliver {task : Handover} (hs : Inv s)
    (hstep : s.deliver task = some s') : Proceeds cfg s s' := by
  unfold deliver at hstep
  split at hstep
  · rename_i hg
    cases hstep
    obtain ⟨r, hr⟩ : ∃ r, r = task.clock.runId := ⟨_, rfl⟩
    obtain ⟨h, hh⟩ : ∃ h, h = task.clock.handler := ⟨_, rfl⟩
    have hhome : s.home r = some h := by
      rw [hr, hh]
      exact hs.roll.handovers task hg.1
    have hd := (Did.refl s h r).setTrail (x := { s.trail r with
      delivered := (s.trail r).delivered ++ [task.connection] })
    have hinv := (hs.but h).did hd ⟨rfl, rfl, rfl⟩ (.inr ⟨.refl _, rfl⟩) .rfl
      ((hs.desk h).update (.refl _))
    -- The task is started, under the same name.
    set t := s.setTrail r { s.trail r with
      delivered := (s.trail r).delivered ++ [task.connection] } with ht
    have hq : t.Still { t with
        handovers := t.handovers.erase task ++ [{ task with started := true }] } := by
      refine ⟨{ t.outside with
        handovers := t.handovers.erase task ++ [{ task with started := true }] }, rfl,
        ⟨t.grows_outside.inbox, t.grows_outside.clocks, fun u hu => ?_⟩,
        fun _ => shifts_of_same rfl rfl rfl rfl rfl⟩
      rcases List.mem_append.1 hu with hu | hu
      · exact .inl ⟨u, List.mem_of_mem_erase hu, rfl⟩
      · rw [List.mem_singleton.1 hu]
        exact .inl ⟨task, hg.1, rfl⟩
    rw [← hr, ← ht]
    have hlast : Proceeds cfg t _ := .still hinv hq
    refine ⟨hlast.inv, fun x => ?_⟩
    change Lane.Path cfg x (s.lane x) (t.lane x)
    by_cases hx : x = r
    · subst hx
      rw [hd.lane hhome]
      have hhand : (s.sheet h x).task.hand x = (s.lane x).hand := (lane_hand hhome).symm
      change Lane.Path cfg x _ { s.lane x with
        run := s.run x
        trail := _
        row := s.rows x
        hand := (s.sheet h x).task.hand x }
      rw [hhand]
      exact .single (.delivered task.connection)
    · exact Path.of_eq (hd.lane_of_ne hx rfl)
  · cases hstep

/-- A handler has nothing in hand for a run that is not live on it. -/
theorem hand_of_not_live (hs : Inv s) (hr : r ∉ s.live h) : (s.task h).hand r = none := by
  cases ht : s.task h with
  | recording r' ph ret k =>
      refine if_neg ?_
      rintro rfl
      exact hr (live_of_recording hs ht)
  | _ => rfl

/-- The run is taken in by handler `h`, in a state whose lanes are those of
`s`. -/
private theorem proceeds_takeIn {e : Enqueue} {t : State} (hhome : s.home e.runId = none)
    {row : Row} (hrow : s.rows e.runId = some row) (hq : row.status = .queued)
    (hseq : ∀ ev ∈ row.events, ev.1 ≤ e.seq) (ht : Inv t) (hlanes : ∀ x, t.lane x = s.lane x)
    (hb : h < t.nextHandler) (hf : t.task h ≠ .finished) (hthread : t.threadOf h = e.threadId) :
    Proceeds cfg s
      (t.takeIn h e.runId (s.newRun e) ((s.rows e.runId).elim [] Row.events)) := by
  have hfresh : (s.newRun e).Fresh := rfl
  have hhome' : t.home e.runId = none := (congrArg Lane.home (hlanes e.runId)).trans hhome
  have hnl : e.runId ∉ t.live h := fun hl =>
    (unborn_facts ht hhome').2.2 h (List.mem_append_left _ hl)
  refine ⟨inv_takeIn ht hhome' hb hf hthread hfresh, fun x => ?_⟩
  rw [lane_takeIn ht hhome' (hand_of_not_live ht hnl)]
  by_cases hx : x = e.runId
  · subst hx
    rw [if_pos rfl, hrow, hlanes,
      show t.trail e.runId = (s.lane e.runId).trail from congrArg Lane.trail (hlanes _)]
    exact .single (.enqueued hhome hfresh hrow hq hseq)
  · rw [if_neg hx]
    exact Path.of_eq (hlanes x)

theorem proceeds_enqueueRun {e : Enqueue} (hs : Inv s) (hmay : s.mayEnqueue e = true) :
    Proceeds cfg s (s.enqueueRun e) := by
  simp only [mayEnqueue, Bool.and_eq_true, Option.isNone_iff_eq_none, Option.any_eq_true,
    decide_eq_true_eq, List.all_eq_true] at hmay
  obtain ⟨⟨-, hhome⟩, row, hrow, hq, hseq⟩ := hmay
  rw [enqueueRun_eq hs.roll]
  cases ht : s.threads.get? e.threadId with
  | some h =>
      obtain ⟨hb, hthread, hf⟩ := hs.roll.desk_of e.threadId h ht
      exact proceeds_takeIn hhome hrow hq hseq hs (fun _ => rfl) hb hf hthread
  | none =>
      refine proceeds_takeIn hhome hrow hq hseq (inv_newHandler hs ht)
        (fun x => lane_newHandler hs.roll x) (Nat.lt_succ_self _) ?_ ?_
      · change Function.update s.task s.nextHandler .idle s.nextHandler ≠ _
        rw [Function.update_self]
        exact nofun
      · exact Function.update_self ..

/-! ## Every step -/

private theorem proceeds_step {a : Action} (hs : Inv s) (ha : ∀ h, a ≠ .take h)
    (hstep : s.step cfg a = some s') : Proceeds cfg s s' := by
  cases a with
  | start =>
      simp only [step] at hstep
      split at hstep
      · cases hstep
        exact ⟨⟨{ hs.roll with }, hs.desk, hs.counted⟩, fun _ => .refl⟩
      · cases hstep
        exact .still hs (.refl s)
  | stop =>
      cases hstep
      exact ⟨⟨{ hs.roll with }, hs.desk, hs.counted⟩, fun _ => .refl⟩
  | tick elapsed =>
      cases hstep
      exact ⟨⟨{ hs.roll with }, hs.desk, hs.counted⟩, fun _ => .refl⟩
  | openRow r =>
      simp only [step] at hstep
      split at hstep
      · rename_i hr
        cases hstep
        refine ⟨⟨{ hs.roll with }, hs.desk, hs.counted⟩, fun x => ?_⟩
        by_cases hx : x = r
        · subst hx
          have hstep : Lane.Step cfg x none (s.lane x) _ :=
            .opened (Option.isNone_iff_eq_none.1 hr)
          simpa [lane] using Relation.ReflGen.single hstep
        · exact Path.of_eq (by simp [lane, hx])
      · cases hstep
  | enqueueRun e =>
      simp only [step] at hstep
      split at hstep
      · rename_i hmay
        cases hstep
        exact proceeds_enqueueRun hs hmay
      · cases hstep
  | answerOffer r answer key =>
      cases hstep
      exact proceeds_postTo hs rfl (by simp) (by rintro x ⟨⟩; rfl) (by simp)
  | reportEvent r event origin =>
      cases hstep
      exact proceeds_postTo hs rfl (by simp) (by rintro x ⟨⟩; rfl) (by simp)
  | finishStream r origin =>
      cases hstep
      exact proceeds_postTo hs rfl (by simp) (by rintro x ⟨⟩; rfl) (by simp)
  | pushFail r code message =>
      cases hstep
      exact proceeds_postTo hs rfl (by rintro x c ⟨⟩; exact ⟨code, message, rfl⟩)
        (by rintro x ⟨⟩; rfl) (by simp)
  | noteUndelivered r =>
      cases hstep
      exact proceeds_postTo hs rfl (by simp) (by rintro x ⟨⟩; rfl) (by simp)
  | requestCancel r =>
      cases hstep
      exact proceeds_requestCancel hs r
  | registerProvider mapping =>
      cases hstep
      exact .quiet hs (quiet_registerProvider s mapping)
  | unregisterProvider agents =>
      cases hstep
      exact .still hs (still_unregisterProvider hs.roll.atHome agents)
  | sweep =>
      simp only [step] at hstep
      split at hstep
      · cases hstep
        have hinv : Inv { s with loopTask := some .waiting, workToDo := false } :=
          ⟨{ hs.roll with }, hs.desk, hs.counted⟩
        have hsweep : Proceeds cfg _ (s.sweep cfg) :=
          .still hinv (still_sweep hs.roll.atHome cfg)
        exact ⟨hsweep.inv, hsweep.lane⟩
      · cases hstep
  | clockRunsOut clock => exact .still hs (still_clockRunsOut hs hstep)
  | deliver task => exact proceeds_deliver hs hstep
  | handOverEnds task fails => exact .still hs (still_handOverEnds hs hstep)
  | take h => exact absurd rfl (ha h)
  | transact h succeeds => exact proceeds_transact hs hstep
  | resume h => exact proceeds_resume hs hstep

/-- **Refinement.**  A step of the broker from a state in order leads to one in
order, and is a course of every run's life. -/
theorem refines_step {a : Action} (hs : Inv s) (hl : ∀ r, (s.lane r).Sound)
    (hstep : s.step cfg a = some s') : Refines cfg a s s' := by
  by_cases ha : ∃ h, a = .take h
  · obtain ⟨h, rfl⟩ := ha
    exact refines_take hs hl hstep
  · refine (proceeds_step hs (fun h he => ha ⟨h, he⟩) hstep).refines ?_
    cases a with
    | take h => exact absurd ⟨h, rfl⟩ ha
    | _ => rfl

end State

/-! ## Reachable states -/

section Reachable

variable {cfg : Config} {db : RunId → Option Row} {s : State}

theorem inv_init (db : RunId → Option Row) : Inv (State.init db) := by
  refine ⟨?_, fun h => ?_, fun k => rfl⟩
  · constructor <;> simp [State.init, State.AtHome, State.arriving, State.about]
  · constructor <;> simp [State.init, TaskOk]

theorem sound_init (db : RunId → Option Row) (r : RunId) : ((State.init db).lane r).Sound :=
  ⟨⟨.fresh, rfl, rfl, rfl, rfl⟩, nofun, nofun, fun _ => rfl⟩

/-- A course keeps what every step of a run's life keeps, where the message
taken, if one was, is one that may be taken. -/
theorem Lane.Course.keeps {r : RunId} {a : Option Message} {l l' : Lane}
    {A : Message → Lane → Prop} {P : Lane → Prop} (hc : Lane.Course cfg r a l l')
    (hA : ∀ m, a = some m → A m l)
    (hstep : ∀ a l l', l.Sound → (∀ m, a = some m → A m l) → P l →
      Lane.Step cfg r a l l' → P l')
    (hs : l.Sound) (hp : P l) : l'.Sound ∧ P l' := by
  have hpath : ∀ l l', l.Sound → P l → Lane.Path cfg r l l' → l'.Sound ∧ P l' := by
    intro l l' hs hp hpath
    cases hpath with
    | refl => exact ⟨hs, hp⟩
    | single h => exact ⟨hs.step h, hstep none _ _ hs nofun hp h⟩
  cases a with
  | none => exact hpath l l' hs hp hc
  | some m =>
      obtain ⟨l₁, h, hrest, -⟩ := hc
      exact hpath l₁ l' (hs.step h) (hstep _ _ _ hs hA hp h) hrest

/-- In every reachable state the invariant holds and every run is where its
record says it is. -/
theorem reachable_sound (hs : Reachable cfg db s) : Inv s ∧ ∀ r, (s.lane r).Sound := by
  refine System.Reachable.invariant (P := fun s => Inv s ∧ ∀ r, (s.lane r).Sound) ?_ ?_ hs
  · rintro s rfl
    exact ⟨inv_init db, sound_init db⟩
  · rintro s a s' - ⟨hinv, hl⟩ hstep
    have href := State.refines_step hinv hl hstep
    refine ⟨href.inv, fun r => ?_⟩
    exact ((href.lane r).keeps (A := fun _ _ => True) (P := fun _ => True)
      (fun _ _ => trivial) (fun _ _ _ _ _ _ _ => trivial) (hl r) trivial).1

theorem reachable_inv (hs : Reachable cfg db s) : Inv s := (reachable_sound hs).1

theorem Reachable.refines_step {a : Action} {s' : State} (hs : Reachable cfg db s)
    (hstep : s.step cfg a = some s') : State.Refines cfg a s s' :=
  State.refines_step (reachable_inv hs) (reachable_sound hs).2 hstep

theorem Lane.Step.home {r : RunId} {a : Option Message} {l l' : Lane} {h : HandlerId}
    (ht : Lane.Step cfg r a l l') (hh : l.home = some h) : l'.home = some h := by
  cases ht with
  | enqueued hn _ _ _ _ => exact absurd (hh.symm.trans hn) nofun
  | took _ _ ht => cases ht <;> exact hh
  | _ => exact hh

/-- A run stays on the handler it was enqueued on. -/
theorem Reachable.home_kept {a : Action} {s' : State} {r : RunId} {h : HandlerId}
    (hs : Reachable cfg db s) (hh : s.home r = some h) (hstep : s.step cfg a = some s') :
    s'.home r = some h :=
  (((hs.refines_step hstep).lane r).keeps (A := fun _ _ => True) (P := fun l => l.home = some h)
    (fun _ _ => trivial) (fun _ _ _ _ _ hp ht => ht.home hp) ((reachable_sound hs).2 r) hh).2

/-- **Life invariants.**  What holds of a lane before the run exists, and is kept
by every step of its life that takes no message but the allowed ones, holds of
the run in every state reached by taking no others. -/
theorem ReachableBy.lane_invariant {C : State → Action → Prop} {A : Message → Lane → Prop}
    {P : Lane → Prop} (r : RunId)
    (hC : ∀ s a m, C s a → s.takes a r = some m → A m (s.lane r))
    (hinit : P ((State.init db).lane r))
    (hstep : ∀ a l l', l.Sound → (∀ m, a = some m → A m l) → P l →
      Lane.Step cfg r a l l' → P l')
    (hs : ReachableBy cfg db C s) : P (s.lane r) := by
  refine System.ReachableBy.invariant (P := fun s => P (s.lane r)) ?_ ?_ hs
  · rintro s rfl
    exact hinit
  · intro s a s' hreach hp hc ha
    have hreach' : Reachable cfg db s := hreach.reachable
    exact (((hreach'.refines_step ha).lane r).keeps (fun m hm => hC s a m hc hm) hstep
      ((reachable_sound hreach').2 r) hp).2

/-- **Life invariants**, over every interleaving. -/
theorem Reachable.lane_invariant {P : Lane → Prop} (r : RunId)
    (hinit : P ((State.init db).lane r))
    (hstep : ∀ a l l', l.Sound → P l → Lane.Step cfg r a l l' → P l')
    (hs : Reachable cfg db s) : P (s.lane r) :=
  ReachableBy.lane_invariant (C := fun _ _ => True) (A := fun _ _ => True) r
    (fun _ _ _ _ _ => trivial) hinit (fun a l l' h _ => hstep a l l' h) hs.by_any

/-- **Life invariants along a run**: what holds of a lane and is kept by every step
of its life holds wherever the broker goes from there. -/
theorem Reachable.lane_along {P : Lane → Prop} {r : RunId} {as : List Action} {t : State}
    (hstep : ∀ a l l', l.Sound → P l → Lane.Step cfg r a l l' → P l')
    (hs : Reachable cfg db s) (hp : P (s.lane r)) (hexec : (system cfg db).exec s as = some t) :
    P (t.lane r) := by
  refine System.Reachable.exec_invariant (P := fun t => P (t.lane r)) ?_ hs hp hexec
  intro t a t' ht hp hta
  have ht' : Reachable cfg db t := ht
  exact (((ht'.refines_step hta).lane r).keeps (A := fun _ _ => True) (fun _ _ => trivial)
    (fun a l l' h _ => hstep a l l' h) ((reachable_sound ht').2 r) hp).2

end Reachable

end Funduq.Broker
