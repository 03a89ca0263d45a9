import Funduq.Broker.CancelOnce
import Funduq.Broker.LateCancel

/-!
# What stays as it is of a run

A run is its agent's from the moment it is enqueued; once the broker has forgotten it, it
does not come back; and only `request_cancel` has it stop.  Whoever looks at a run twice
relies on that.
-/

namespace Funduq.Broker

open Funduq.Lib

namespace Lane

variable {cfg : Config} {r : RunId} {a : Option Message} {l l' : Lane}

theorem agent_record {x : Run} {command : Command} {ret : Ret} :
    ({ l with run := x }.record cfg command ret).run.agent = x.agent := by
  obtain ⟨_, _, _, _, h⟩ := handle_run cfg command x
  show (handle cfg command x).1.agent = x.agent
  rw [h]

theorem Takes.agent {m : Message} (ht : Takes cfg r m l l') : l'.run.agent = l.run.agent := by
  cases ht with
  | ignored _ => rfl
  | arrived _ _ => rfl
  | cancelPending _ _ _ => rfl
  | undelivered _ => rfl
  | said _ _ => exact agent_record (x := l.run)
  | _ => exact agent_record

/-- A run that is enqueued is its agent's. -/
theorem Step.agent (hh : l.home.isSome = true) (ht : Step cfg r a l l') :
    l'.run.agent = l.run.agent := by
  cases ht with
  | enqueued hn _ _ _ _ =>
      rw [hn] at hh
      cases hh
  | @took _ _ m _ _ ht => exact Takes.agent (l := l.hear m) ht
  | offered _ _ _ _ => exact agent_record (l := { l with trail := _ })
  | invalid _ _ _ => exact agent_record (x := l.run)
  | cancelChecked _ _ _ _ => exact agent_record (x := l.run)
  | poisoned _ _ => exact agent_record (x := l.run)
  | settled _ _ =>
      obtain ⟨_, hrun⟩ := l.run.settle_run
      show l.run.settle.agent = l.run.agent
      rw [hrun]
  | _ => rfl

/-- A run that was forgotten does not come back. -/
theorem Step.forgotten (hh : l.home.isSome = true) (hf : l.held = false)
    (ht : Step cfg r a l l') : l'.held = false := by
  cases ht with
  | enqueued hn _ _ _ _ =>
      rw [hn] at hh
      cases hh
  | took _ _ ht => cases ht <;> exact hf
  | settled _ _ => rfl
  | _ => exact hf

theorem Step.home_isSome (hh : l.home.isSome = true) (ht : Step cfg r a l l') :
    l'.home.isSome = true := by
  obtain ⟨h, hh⟩ := Option.isSome_iff_exists.1 hh
  rw [ht.home hh]
  rfl

/-- A run that was asked to stop says so. -/
def Flagged (l : Lane) : Prop :=
  l.cancelCalled = true → l.home.isSome = true ∧ l.run.cancelRequested = true

theorem Flagged.step (hs : l.Sound) (hp : l.Flagged) (ht : Step cfg r a l l') : l'.Flagged := by
  have hkept : l.cancelCalled = true → l'.home.isSome = true ∧ l'.run.cancelRequested = true := by
    intro hc
    obtain ⟨hhome, hflag⟩ := hp hc
    exact ⟨ht.home_isSome hhome, ht.cancelRequested hhome hflag⟩
  intro hc
  cases ht with
  | cancelCalled hheld => exact ⟨(hs.home hheld), rfl⟩
  | took _ _ htakes => cases htakes <;> exact hkept hc
  | _ => exact hkept hc

end Lane

section Reachable

variable {cfg : Config} {db : RunId → Option Row} {s s' : State} {r : RunId} {a : Action}

theorem reachable_flagged (hs : Reachable cfg db s) (r : RunId) : (s.lane r).Flagged :=
  hs.lane_invariant r nofun fun _ _ _ hl hp ht => hp.step hl ht

/-- What is kept by every step of a run's life is kept by the broker's. -/
theorem Reachable.lane_step {P : Lane → Prop}
    (hstep : ∀ a l l', l.Sound → P l → Lane.Step cfg r a l l' → P l') (hs : Reachable cfg db s)
    (hp : P (s.lane r)) (ha : s.step cfg a = some s') : P (s'.lane r) :=
  (((hs.refines_step ha).lane r).keeps (A := fun _ _ => True) (fun _ _ => trivial)
    (fun a l l' h _ => hstep a l l' h) ((reachable_sound hs).2 r) hp).2

/-- Who holds a run and is asked to cancel it has been called. -/
theorem Reachable.cancelCalled_requestCancel (hs : Reachable cfg db s) (hheld : r ∈ s.runs) :
    (s.requestCancel r).1.cancelCalled r = true := by
  obtain ⟨o, ho, -⟩ := State.still_requestCancel (reachable_inv hs).roll.atHome hheld
  rw [ho]
  exact Function.update_self ..

/-- Nobody but `request_cancel` calls for the run to stop. -/
theorem Reachable.cancelCalled_step (hs : Reachable cfg db s) (ha : a ≠ .requestCancel r)
    (hstep : s.step cfg a = some s') : s'.cancelCalled r = s.cancelCalled r := by
  obtain ⟨hinv, hl⟩ := reachable_sound hs
  have hpost : ∀ x m, (s.postTo x m).1.cancelCalled r = s.cancelCalled r := by
    intro x m
    unfold State.postTo
    split <;> rfl
  cases hh : a.handler? with
  | some h =>
      rcases State.handler_cases hinv hl hh hstep with ⟨t, R, x, w, hread, hm⟩ | hm | hm
      · obtain ⟨_, _, _, rfl, -⟩ := hread.eq
        obtain ⟨o, rfl, -⟩ := hm.did
        rfl
      · obtain ⟨x, ret, k, o, -, -, rfl, -⟩ := State.settles_eq hinv hm
        rfl
      · obtain ⟨-, -, -, rfl⟩ := hm
        unfold State.leave
        dsimp only
        split <;> rfl
  | none =>
      cases a with
      | start =>
          simp only [State.step] at hstep
          split at hstep <;> cases hstep <;> rfl
      | openRow x =>
          simp only [State.step] at hstep
          split at hstep <;> cases hstep
          rfl
      | enqueueRun e =>
          simp only [State.step] at hstep
          split at hstep <;> cases hstep
          rw [State.enqueueRun_eq hinv.roll]
          split <;> rfl
      | answerOffer x answer key =>
          cases hstep
          exact hpost ..
      | reportEvent x event origin =>
          cases hstep
          exact hpost ..
      | finishStream x origin =>
          cases hstep
          exact hpost ..
      | pushFail x code message =>
          cases hstep
          exact hpost ..
      | noteUndelivered x =>
          cases hstep
          exact hpost ..
      | requestCancel x =>
          cases hstep
          have hne : r ≠ x := fun he => ha (he ▸ rfl)
          by_cases hheld : x ∈ s.runs
          · obtain ⟨o, ho, -⟩ := State.still_requestCancel hinv.roll.atHome hheld
            rw [ho]
            exact Function.update_of_ne hne ..
          · unfold State.requestCancel
            rw [if_neg hheld]
      | registerProvider mapping =>
          cases hstep
          obtain ⟨o, ho, -⟩ := State.quiet_registerProvider s mapping
          rw [ho]
          rfl
      | unregisterProvider agents =>
          cases hstep
          obtain ⟨o, ho, -⟩ := State.still_unregisterProvider hinv.roll.atHome agents
          rw [ho]
          rfl
      | sweep =>
          simp only [State.step] at hstep
          split at hstep <;> cases hstep
          obtain ⟨o, ho, -⟩ := State.still_sweep hinv.roll.atHome cfg
          rw [ho]
          rfl
      | clockRunsOut clock =>
          obtain ⟨o, ho, -⟩ := State.still_clockRunsOut hinv hstep
          rw [ho]
          rfl
      | deliver task =>
          simp only [State.step, State.deliver] at hstep
          split at hstep <;> cases hstep
          rfl
      | handOverEnds task fails =>
          obtain ⟨o, ho, -⟩ := State.still_handOverEnds hinv hstep
          rw [ho]
          rfl
      | take h => cases hh
      | transact h succeeds => cases hh
      | resume h => cases hh
      | _ =>
          cases hstep
          rfl

end Reachable

end Funduq.Broker
