import Funduq.A2A.Following

/-!
# What a receiver makes of the texts

A receiver starts with the artifacts of the opening task and follows the updates.  The
opening task has the events of the last run that were recorded when it was built; the
updates are the events that were still on the queue when the stream was taken.  The
queue has been filling since the run was enqueued, whoever was there to drain it, so the
two need not meet: an event in both is told twice, an event in neither is not told.

What the receiver ends up with is the task exactly when these events show nothing.
-/

namespace Funduq.A2A

open Funduq.Lib Funduq.Doors
open Funduq.Broker (Status Row RunId)

variable {cfg : Broker.Config} {db : RunId → Option Row} {x : TaskRef} {s : State}

namespace State

variable (x : TaskRef) (s : State)

/-- How many events of the last run the opening task was built from. -/
def seen : Nat := (s.snapshot.elim [] Snapshot.events).length

/-- How many events of the last run come before the first that was still on the queue
when the stream was taken: all of them where there was none to take. -/
def skipped : Nat := s.behind.getD (s.events x).length

/-- The events of the task the stream is made of. -/
def shown : List Json :=
  x.earlier ++ (s.events x).take s.seen ++ (s.events x).drop (s.skipped x)

/-- The events of the last run between the snapshot's end and the stream's beginning: in
both, where the snapshot came later, and in neither, where it came first. -/
def between : List Json :=
  ((s.events x).take (max s.seen (s.skipped x))).drop (min s.seen (s.skipped x))

/-- What is told twice or not at all is no text, or an empty piece of one that the stream
shows. -/
def Seamless : Prop :=
  ∀ p ∈ deltas (s.between x), p.2 = "" ∧ ∃ q ∈ deltas (s.shown x), q.1 = p.1

end State

/-- The events between the two are missing, or told again. -/
theorem between_cases (events : List Json) (n m : Nat) :
    n ≤ m ∧ events = events.take n ++ (events.take (max n m)).drop (min n m) ++ events.drop m ∨
    m ≤ n ∧ events.drop m = (events.take (max n m)).drop (min n m) ++ events.drop n := by
  rcases Nat.le_total n m with h | h
  · refine .inl ⟨h, ?_⟩
    have htake : events.take m = events.take n ++ (events.take m).drop n := by
      conv => lhs; rw [← List.take_append_drop n (events.take m), List.take_take, min_eq_left h]
    rw [max_eq_right h, min_eq_left h, ← htake, List.take_append_drop]
  · refine .inr ⟨h, ?_⟩
    rw [max_eq_left h, min_eq_right h]
    by_cases hlen : m ≤ (events.take n).length
    · conv => lhs; rw [← List.take_append_drop n events, List.drop_append_of_le_length hlen]
    · rw [List.length_take] at hlen
      rw [List.drop_eq_nil_of_le (by omega), List.drop_eq_nil_of_le (by rw [List.length_take]; omega),
        List.drop_eq_nil_of_le (by omega)]
      rfl

/-- The texts of what is shown are those of the record exactly where the seam does not
show. -/
theorem said_iff_seamless : (∀ id, Texts.said id (deltas (s.shown x)) =
    Texts.said id (deltas (x.earlier ++ s.events x))) ↔ s.Seamless x := by
  have hcases := between_cases (s.events x) s.seen (s.skipped x)
  unfold State.Seamless
  change _ ∨ s.skipped x ≤ s.seen ∧ _ = s.between x ++ _ at hcases
  rcases hcases with ⟨-, hrecord⟩ | ⟨hle, hstream⟩
  · -- Events are missing.
    have hevents : deltas (x.earlier ++ s.events x) =
        deltas (x.earlier ++ (s.events x).take s.seen) ++ deltas (s.between x) ++
          deltas ((s.events x).drop (s.skipped x)) := by
      conv => lhs; rw [hrecord]
      simp only [deltas_append, List.append_assoc]
      rfl
    have hshown : deltas (s.shown x) = deltas (x.earlier ++ (s.events x).take s.seen) ++
        deltas ((s.events x).drop (s.skipped x)) := deltas_append ..
    rw [hevents, hshown]
    refine Iff.trans ?_ Texts.said_insert_iff
    exact ⟨fun h id => (h id).symm, fun h id => (h id).symm⟩
  · -- Events are told again, behind those of the snapshot.
    have hevents : deltas (x.earlier ++ s.events x) =
        deltas (x.earlier ++ (s.events x).take s.seen) ++ deltas ((s.events x).drop s.seen) := by
      rw [← deltas_append, List.append_assoc, List.take_append_drop]
    have hshown : deltas (s.shown x) = deltas (x.earlier ++ (s.events x).take s.seen) ++
        deltas (s.between x) ++ deltas ((s.events x).drop s.seen) := by
      rw [List.append_assoc, ← deltas_append (s.between x), ← hstream]
      exact deltas_append ..
    rw [hevents, hshown, Texts.said_insert_iff]
    refine forall₂_congr fun p hp => and_congr_right fun _ => ?_
    have hmem : p ∈ deltas ((s.events x).take s.seen) := by
      have hsub : s.between x ⊆ (s.events x).take s.seen := by
        unfold State.between
        rw [max_eq_left hle]
        exact List.drop_subset _ _
      obtain ⟨e, he, hpe⟩ := List.mem_filterMap.1 hp
      exact List.mem_filterMap.2 ⟨e, hsub he, hpe⟩
    have hmem' : p ∈ deltas (x.earlier ++ (s.events x).take s.seen) := by
      rw [deltas_append]
      exact List.mem_append_right _ hmem
    exact ⟨fun _ => ⟨p, List.mem_append_left _ (List.mem_append_left _ hmem'), rfl⟩,
      fun _ => ⟨p, List.mem_append_left _ hmem', rfl⟩⟩

/-- A stream that is over was made of what is shown. -/
theorem Over.rebuilt {snap : Snapshot} {last : Option Status} (h : Over x s snap last)
    (id : String) : (rebuilt s.items).get? id = Texts.said id (deltas (s.shown x)) := by
  rw [h.texts]
  have hseen : s.seen = snap.events.length := by
    unfold State.seen
    rw [h.snapshot]
    rfl
  have hsnap : (s.events x).take s.seen = snap.events := by
    rw [hseen]
    exact (List.prefix_iff_eq_take.1 h.seen.events).symm
  have hgot : (s.events x).drop (s.skipped x) = s.got := by
    unfold State.skipped
    cases h.rest with
    | drained hbehind hdrained _ _ =>
        rw [hbehind, hdrained.got]
        rfl
    | bare hbehind hgot _ _ _ =>
        rw [hbehind, hgot]
        exact List.drop_length
  unfold State.shown
  rw [hsnap, hgot]

/-- **Main result.**  Once a stream has ended, under every interleaving, what a receiver
has rebuilt from it are the artifacts `get_task` gives, exactly when the events between
the snapshot and the stream show nothing. -/
theorem stream_rebuilds_task (hs : (system cfg db x).Reachable s) (hend : s.stage = .ended)
    (messages : List Json) (historyLength : Option Int) :
    (∃ t, s.getTask x messages historyLength = some t ∧
      ∀ id, (rebuilt s.items).get? id = t.artifacts.get? id) ↔ s.Seamless x := by
  have hstage := (reachable_kept hs).stage
  simp only [AtStage, hend] at hstage
  obtain ⟨snap, last, hover⟩ := hstage
  obtain ⟨row, hrow, -⟩ := hover.seen.status
  have hget : s.getTask x messages historyLength =
      some (s.task x row.status s.cancelRequested messages historyLength) := by
    unfold State.getTask
    rw [hrow]
    rfl
  have htask : ∀ id, (s.task x row.status s.cancelRequested messages historyLength).artifacts.get? id =
      Texts.said id (deltas (x.earlier ++ s.events x)) := fun id => Texts.get?_merged
  rw [hget, ← said_iff_seamless]
  constructor
  · rintro ⟨t, ht, hsame⟩ id
    cases ht
    rw [← hover.rebuilt, hsame, htask]
  · intro h
    exact ⟨_, rfl, fun id => by rw [hover.rebuilt, h, htask]⟩

/-! ## A stream that shows everything, and one that stammers -/

namespace Demo

open Funduq.Broker (Reported)

/-- The task of the run `r`. -/
def task : TaskRef where
  taskId := "r"
  agent := Broker.Demo.agent
  contextId := "t"
  tail := "r"
  earlier := []

def follow (moves : List Move) : State :=
  (system Broker.Demo.config (fun _ => none) task).runFrom
    { broker := .init fun _ => none } moves

theorem follow_reachable (moves : List Move) :
    (system Broker.Demo.config (fun _ => none) task).Reachable (follow moves) :=
  System.Reachable.runFrom (.init rfl) moves

def brokers (as : List Broker.Action) : List Move := as.map .broker

def goesOn (n : Nat) : List Move := List.replicate n (.next [])

/-- The provider says something. -/
def saying (event : Json) : List Broker.Action :=
  [.reportEvent "r" (.json event) "pk"] ++ Broker.Demo.record 0 4

def ha : Json :=
  .obj [("type", .str "TEXT_MESSAGE_CONTENT"), ("messageId", .str "m"), ("delta", .str "ha")]

def finish : Json := .obj [("type", .str Broker.runFinished)]

def leaves : List Broker.Action := [.finishStream "r" "pk"] ++ Broker.Demo.record 0 4

def isEnded (s : State) : Bool :=
  match s.stage with
  | .ended => true
  | _ => false

theorem ended_of {s : State} (h : isEnded s = true) : s.stage = .ended := by
  unfold isEnded at h
  split at h
  · assumption
  · cases h

/-- The task is shown before the run is offered, and drained when it is over. -/
def watched : State :=
  follow (brokers (Broker.Demo.claimed.take 4) ++ [.send true] ++ goesOn 3 ++
    brokers (Broker.Demo.claimed.drop 4 ++ saying ha ++ saying finish ++ leaves) ++ goesOn 5)

/-- The run has said something when somebody comes to watch, whom nobody was before. -/
def rejoined : State :=
  follow (brokers (Broker.Demo.claimed ++ saying ha) ++ [.resubscribe] ++ goesOn 4 ++
    brokers (saying finish ++ leaves) ++ goesOn 5)

end Demo

theorem stream_rebuilds_task_watched :
    Demo.watched.Seamless Demo.task ∧ (rebuilt Demo.watched.items).get? "m" = some "ha" ∧
      ∃ t, Demo.watched.getTask Demo.task [] none = some t ∧
        ∀ id, (rebuilt Demo.watched.items).get? id = t.artifacts.get? id := by
  have hend : Demo.watched.stage = .ended := Demo.ended_of (by decide +kernel)
  have hseamless : Demo.watched.Seamless Demo.task := by
    unfold State.Seamless
    decide +kernel
  exact ⟨hseamless, by decide +kernel,
    (stream_rebuilds_task (Demo.follow_reachable _) hend [] none).2 hseamless⟩

/-- The snapshot has what the run had said, and the queue still has it. -/
theorem stream_stammers :
    (system Broker.Demo.config (fun _ => none) Demo.task).Reachable Demo.rejoined ∧
      Demo.rejoined.stage = .ended ∧ (rebuilt Demo.rejoined.items).get? "m" = some "haha" ∧
      (Demo.rejoined.getTask Demo.task [] none).map (fun t => t.artifacts.get? "m") =
        some (some "ha") ∧
      ¬ ∃ t, Demo.rejoined.getTask Demo.task [] none = some t ∧
        ∀ id, (rebuilt Demo.rejoined.items).get? id = t.artifacts.get? id := by
  have htwice : (rebuilt Demo.rejoined.items).get? "m" = some "haha" := by decide +kernel
  have honce : (Demo.rejoined.getTask Demo.task [] none).map (fun t => t.artifacts.get? "m") =
      some (some "ha") := by decide +kernel
  refine ⟨Demo.follow_reachable _, Demo.ended_of (by decide +kernel), htwice, honce, ?_⟩
  rintro ⟨t, ht, hsame⟩
  rw [ht] at honce
  have ht' : t.artifacts.get? "m" = some "ha" := Option.some.inj honce
  have hm := hsame "m"
  rw [htwice, ht'] at hm
  exact absurd hm (by decide)

end Funduq.A2A
