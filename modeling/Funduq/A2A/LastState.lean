import Funduq.A2A.Rebuilding

/-!
# The state a stream ends in

The updates of a stream are made of one event each, `get_task` reads the status, all the
events of the last run and whether a cancel was asked for.  So a run that completed with
a tool call nobody answered ends in `completed` for whoever watched it, and waits for
input for whoever asks; so does a run that finished on an interrupt, the other way
round, where the interrupt asks for nothing.  And a stream with nothing to drain ends in
the bare status.

`Agrees` says when the last state told is that of the task.
-/

namespace Funduq.A2A

open Funduq.Lib Funduq.Doors
open Funduq.Broker (Status Row RunId hasType runFinished)

variable {cfg : Broker.Config} {db : RunId → Option Row} {x : TaskRef} {s : State}

/-- The run's asks are open. -/
def Asking (events : List Json) : Prop := openAsks events ≠ []

/-- The last state told is that of the run: the row has this status and these events, and
`cancelRequested` says whether a cancel was asked for. -/
structure Agrees (x : TaskRef) (s : State) (row : Row) (snap : Snapshot) : Prop where
  /-- The stream was drained and its run completed: the last event it told as a status
  finished the run, on an interrupt exactly where asks are open, and nobody has closed
  them; where it told none, the task was shown as it still is. -/
  drained : s.behind.isSome = true → row.status = .completed →
    match lastTold s.got with
    | some e => hasType runFinished e = true ∧
        ((interruptOutcomeOf e).isSome = true ↔ Asking (s.events x)) ∧
        (Asking (s.events x) → s.cancelRequested = false)
    | none => snap.status = .completed ∧
        (Asking (s.events x) → snap.cancelRequested = s.cancelRequested)
  /-- There was nothing to drain: the run has no open asks, and its status says the same
  as the one that was read. -/
  bare : s.behind = none → ∀ st, s.told = some st →
    ¬ (row.status = .completed ∧ Asking (s.events x)) ∧
      stateForRunStatus st = stateForRunStatus row.status

/-! ## One state and the other -/

theorem taskStateOf_completed (events : List Json) (cancelRequested : Bool) :
    taskStateOf .completed events cancelRequested =
      if openAsks events ≠ [] then
        if cancelRequested then .canceled else .inputRequired
      else .completed := by
  unfold taskStateOf
  simp only [true_and]
  rfl

theorem taskStateOf_of_ne {st : Status} (h : st ≠ .completed) (events : List Json)
    (cancelRequested : Bool) : taskStateOf st events cancelRequested = stateForRunStatus st := by
  unfold taskStateOf
  exact if_neg fun hc => h hc.1

/-- What a run that completed is to a caller. -/
theorem completed_cases (events : List Json) (cancelRequested : Bool) :
    taskStateOf .completed events cancelRequested = .completed ∨
      taskStateOf .completed events cancelRequested = .inputRequired ∨
      taskStateOf .completed events cancelRequested = .canceled := by
  rw [taskStateOf_completed]
  by_cases hasks : openAsks events = []
  · exact .inl (if_neg (not_not_intro hasks))
  · rw [if_pos hasks]
    cases cancelRequested with
    | false => exact .inr (.inl rfl)
    | true => exact .inr (.inr rfl)

/-- An event that finishes no run tells of a run at work, or of one that failed. -/
theorem state_of_unfinished {e : Json} (h : hasType runFinished e = false)
    (taskId contextId : String) : (statusUpdateOf e taskId contextId).state = .working ∨
      (statusUpdateOf e taskId contextId).state = .failed := by
  rw [statusUpdateOf_state, h]
  split
  · exact .inl rfl
  · rw [if_neg nofun]
    split
    · exact .inr rfl
    · exact .inl rfl

/-- An event that finishes a run is told as such. -/
theorem state_of_finished {e : Json} (h : hasType runFinished e = true)
    (taskId contextId : String) : (statusUpdateOf e taskId contextId).state =
      if (interruptOutcomeOf e).isSome then .inputRequired else .completed := by
  have hstarted : hasType runStarted e = false := by
    rw [hasType, decide_eq_true_eq] at h
    rw [hasType, h]
    rfl
  rw [statusUpdateOf_state, hstarted, h]
  rfl

/-- An event tells the state of a completed run. -/
theorem told_iff (e : Json) (taskId contextId : String) (events : List Json)
    (cancelRequested : Bool) :
    (statusUpdateOf e taskId contextId).state = taskStateOf .completed events cancelRequested ↔
      hasType runFinished e = true ∧
        ((interruptOutcomeOf e).isSome = true ↔ Asking events) ∧
        (Asking events → cancelRequested = false) := by
  cases hfin : hasType runFinished e with
  | false =>
      simp only [Bool.false_eq_true, false_and, iff_false]
      intro h
      rcases state_of_unfinished hfin taskId contextId with ht | ht <;> rw [ht] at h <;>
        rcases completed_cases events cancelRequested with hc | hc | hc <;>
          exact absurd (h.trans hc) nofun
  | true =>
      rw [state_of_finished hfin, taskStateOf_completed]
      unfold Asking
      by_cases hasks : openAsks events = []
      · cases interruptOutcomeOf e <;> simp [hasks]
      · cases cancelRequested <;> cases interruptOutcomeOf e <;> simp [hasks]

/-- The state of a run that has not ended is none of one that completed. -/
theorem stateForRunStatus_ne {st : Status} (hst : st.terminal = false) (events : List Json)
    (cancelRequested : Bool) :
    stateForRunStatus st ≠ taskStateOf .completed events cancelRequested := by
  intro h
  have hopen : stateForRunStatus st = .submitted ∨ stateForRunStatus st = .working := by
    cases st with
    | queued => exact .inl rfl
    | offering => exact .inl rfl
    | running => exact .inr rfl
    | cancelling => exact .inr rfl
    | completed => cases hst
    | failed => cases hst
    | cancelled => cases hst
  rcases hopen with ho | ho <;> rw [ho] at h <;>
    rcases completed_cases events cancelRequested with hc | hc | hc <;>
      exact absurd (h.trans hc) nofun

/-- A task that was shown is as the run left it. -/
theorem shown_iff {snap : Snapshot} {row : Row} (hrow : s.row? x = some row)
    (hseen : Seen x s snap) (hcompleted : row.status = .completed) :
    taskStateOf snap.status snap.events snap.cancelRequested =
        taskStateOf .completed (s.events x) s.cancelRequested ↔
      snap.status = .completed ∧
        (Asking (s.events x) → snap.cancelRequested = s.cancelRequested) := by
  obtain ⟨row', hrow', hsince⟩ := hseen.status
  cases hrow.symm.trans hrow'
  by_cases hst : snap.status = .completed
  · rw [hst, hseen.completed hst, taskStateOf_completed, taskStateOf_completed]
    unfold Asking
    by_cases hasks : openAsks (s.events x) = []
    · simp [hasks]
    · cases snap.cancelRequested <;> cases s.cancelRequested <;> simp [hasks]
  · simp only [hst, false_and, iff_false]
    rw [taskStateOf_of_ne hst]
    -- A run that has another outcome does not complete.
    have hopen : snap.status.terminal = false := by
      cases hend : snap.status.terminal with
      | false => rfl
      | true => exact absurd ((hsince hend).symm.trans hcompleted) hst
    exact stateForRunStatus_ne hopen _ _

/-- A status that was read says what the row does. -/
theorem bare_iff {st : Status} {row : Row} (hsince : st.terminal = true → row.status = st)
    (events : List Json) (cancelRequested : Bool) :
    stateForRunStatus st = taskStateOf row.status events cancelRequested ↔
      ¬ (row.status = .completed ∧ Asking events) ∧
        stateForRunStatus st = stateForRunStatus row.status := by
  by_cases hasks : row.status = .completed ∧ Asking events
  · simp only [hasks, not_true_eq_false, and_true, false_and, iff_false]
    intro h
    cases hend : st.terminal with
    | false => exact stateForRunStatus_ne hend _ _ h
    | true =>
        have hst : st = .completed := (hsince hend).symm.trans hasks.1
        have hne : openAsks events ≠ [] := hasks.2
        rw [hst, taskStateOf_completed, if_pos hne] at h
        split at h <;> cases h
  · have hsame : taskStateOf row.status events cancelRequested = stateForRunStatus row.status :=
      if_neg hasks
    rw [hsame]
    exact ⟨fun h => ⟨hasks, h⟩, fun h => h.2⟩

/-! ## The stream -/

/-- What a stream that is over has told. -/
theorem Over.agrees_iff {snap : Snapshot} {last : Option Status} {row : Row}
    (h : Over x s snap last) (hrow : s.row? x = some row) :
    lastState s.items = some (taskStateOf row.status (s.events x) s.cancelRequested) ↔
      Agrees x s row snap := by
  rw [h.state, Option.some.injEq]
  cases h.rest with
  | drained hbehind hdrained hrow' hlast =>
      cases hrow.symm.trans hrow'
      have hagrees : Agrees x s row snap ↔ (row.status = .completed →
          match lastTold s.got with
          | some e => hasType runFinished e = true ∧
              ((interruptOutcomeOf e).isSome = true ↔ Asking (s.events x)) ∧
              (Asking (s.events x) → s.cancelRequested = false)
          | none => snap.status = .completed ∧
              (Asking (s.events x) → snap.cancelRequested = s.cancelRequested)) := by
        constructor
        · intro ha
          exact ha.drained (by rw [hbehind]; rfl)
        · intro ha
          refine ⟨fun _ => ha, fun hnone => ?_⟩
          rw [hbehind] at hnone
          cases hnone
      rw [hagrees, hlast]
      by_cases hcompleted : row.status = .completed
      · have hnone : (some row.status).filter (fun status => status ≠ .completed) = none := by
          simp [hcompleted]
        rw [hnone, hcompleted]
        simp only [Option.elim_none, true_implies]
        unfold stateTold
        cases lastTold s.got with
        | some e => exact told_iff e _ _ _ _
        | none => exact shown_iff hrow h.seen hcompleted
      · have hsome : (some row.status).filter (fun status => status ≠ .completed) =
            some row.status := by
          simp [hcompleted]
        rw [hsome, taskStateOf_of_ne hcompleted]
        exact ⟨fun _ hc => absurd hc hcompleted, fun _ => rfl⟩
  | @bare st hbehind hgot htold hsince hlast =>
      obtain ⟨row', hrow', hst⟩ := hsince
      cases hrow.symm.trans hrow'
      rw [hlast]
      show stateForRunStatus st = _ ↔ _
      rw [bare_iff hst]
      constructor
      · intro hb
        refine ⟨fun hsome => ?_, fun _ st' hst' => ?_⟩
        · rw [hbehind] at hsome
          cases hsome
        · cases htold.symm.trans hst'
          exact hb
      · intro ha
        exact ha.bare hbehind st htold

/-- **Main result.**  Once a stream has ended, under every interleaving, the state its
last status-bearing item carries is the one `get_task` gives, exactly when the two
agree. -/
theorem stream_ends_in_task_state (hs : (system cfg db x).Reachable s) (hend : s.stage = .ended)
    (messages : List Json) (historyLength : Option Int) :
    (∃ t, s.getTask x messages historyLength = some t ∧ lastState s.items = some t.state) ↔
      ∃ row snap, s.row? x = some row ∧ s.snapshot = some snap ∧ Agrees x s row snap := by
  have hstage := (reachable_kept hs).stage
  simp only [AtStage, hend] at hstage
  obtain ⟨snap, last, hover⟩ := hstage
  obtain ⟨row, hrow, -⟩ := hover.seen.status
  have hget : s.getTask x messages historyLength =
      some (s.task x row.status s.cancelRequested messages historyLength) := by
    unfold State.getTask
    rw [hrow]
    rfl
  have hstate : (s.task x row.status s.cancelRequested messages historyLength).state =
      taskStateOf row.status (s.events x) s.cancelRequested := rfl
  rw [hget]
  constructor
  · rintro ⟨t, ht, hlast⟩
    cases ht
    rw [hstate] at hlast
    exact ⟨row, snap, hrow, hover.snapshot, (hover.agrees_iff hrow).1 hlast⟩
  · rintro ⟨row', snap', hrow', hsnap', hagrees⟩
    cases hrow.symm.trans hrow'
    cases hover.snapshot.symm.trans hsnap'
    refine ⟨_, rfl, ?_⟩
    rw [hstate]
    exact (hover.agrees_iff hrow).2 hagrees

/-! ## A stream that agrees, and one that does not -/

namespace Demo

def calls : Json :=
  .obj [("type", .str "TOOL_CALL_START"), ("toolCallId", .str "c"), ("toolCallName", .str "look")]

/-- The run calls a tool that nobody answers, and finishes. -/
def left : State :=
  follow (brokers (Broker.Demo.claimed.take 4) ++ [.send true] ++ goesOn 3 ++
    brokers (Broker.Demo.claimed.drop 4 ++ saying calls ++ saying finish ++ leaves) ++ goesOn 5)

end Demo

theorem stream_ends_in_task_state_watched :
    ∃ t, Demo.watched.getTask Demo.task [] none = some t ∧
      lastState Demo.watched.items = some t.state ∧ t.state = .completed := by
  have hend : Demo.watched.stage = .ended := Demo.ended_of (by decide +kernel)
  have hcompleted : (Demo.watched.getTask Demo.task [] none).map Task.state = some .completed := by
    decide +kernel
  have hagrees : ∃ row snap, Demo.watched.row? Demo.task = some row ∧
      Demo.watched.snapshot = some snap ∧ Agrees Demo.task Demo.watched row snap := by
    have hrow : (Demo.watched.row? Demo.task).isSome = true := by decide +kernel
    have hsnap : Demo.watched.snapshot.isSome = true := by decide +kernel
    obtain ⟨row, hrow⟩ := Option.isSome_iff_exists.1 hrow
    obtain ⟨snap, hsnap⟩ := Option.isSome_iff_exists.1 hsnap
    refine ⟨row, snap, hrow, hsnap, fun _ _ => ?_, fun hnone => ?_⟩
    · have htold : (lastTold Demo.watched.got).any (fun e => hasType runFinished e &&
          (interruptOutcomeOf e).isNone) = true := by
        decide +kernel
      obtain ⟨e, he, htag⟩ := (Option.any_eq_true _ _).1 htold
      have hasks : openAsks (Demo.watched.events Demo.task) = [] := by decide +kernel
      simp only [Bool.and_eq_true, Option.isNone_iff_eq_none] at htag
      rw [he]
      refine ⟨htag.1, ?_, fun h => absurd hasks h⟩
      rw [htag.2]
      exact ⟨nofun, fun h => absurd hasks h⟩
    · exact absurd hnone (by decide +kernel)
  obtain ⟨t, ht, hlast⟩ :=
    (stream_ends_in_task_state (s := Demo.watched) (Demo.follow_reachable _) hend [] none).2 hagrees
  rw [ht] at hcompleted
  exact ⟨t, ht, hlast, Option.some.inj hcompleted⟩

/-- Whoever watched the run saw it completed; whoever asks is told that it waits for
input. -/
theorem stream_ends_elsewhere :
    (system Broker.Demo.config (fun _ => none) Demo.task).Reachable Demo.left ∧
      Demo.left.stage = .ended ∧ lastState Demo.left.items = some .completed ∧
      (Demo.left.getTask Demo.task [] none).map Task.state = some .inputRequired ∧
      ¬ ∃ t, Demo.left.getTask Demo.task [] none = some t ∧
        lastState Demo.left.items = some t.state := by
  have hlast : lastState Demo.left.items = some .completed := by decide +kernel
  have hstate : (Demo.left.getTask Demo.task [] none).map Task.state = some .inputRequired := by
    decide +kernel
  refine ⟨Demo.follow_reachable _, Demo.ended_of (by decide +kernel), hlast, hstate, ?_⟩
  rintro ⟨t, ht, hsame⟩
  rw [ht] at hstate
  have hstate' : t.state = .inputRequired := Option.some.inj hstate
  rw [hlast, hstate'] at hsame
  cases hsame

end Funduq.A2A
