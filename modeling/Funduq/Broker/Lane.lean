import Funduq.Broker.Sheet

/-!
# The life of one run

What the broker does looks, to one run, like a small machine of its own: the
run, its trail and its row, whether the broker holds it, whether its handler has
it live, and what its handler has in hand for it.  That view is the run's
`Lane`.  `Lane.Step` is the machine: every way a run's lane can change,
whichever thread, clock, provider or caller is the cause, and nothing about the
other runs, the queues or the roster.

This is the abstract level of the development.  That the broker refines it, so
that every step of the broker is a step of the machine or no step at all for a
given run, is shown in `Refinement.lean`; what the machine never does, no
interleaving of the broker does.
-/

namespace Funduq.Broker

open Funduq.Lib

/-- The broker as one run sees it. -/
structure Lane where
  run : Run
  trail : Trail
  row : Option Row
  /-- The handler the run was enqueued on. -/
  home : Option HandlerId
  /-- `request_cancel` was called for it. -/
  cancelCalled : Bool
  /-- The run is in `_runs`. -/
  held : Bool
  /-- The run is in its handler's `live`. -/
  live : Bool
  /-- How far the record handler working on the run has come, and what its
  caller does next. -/
  hand : Option (RecordPhase × Ret)

/-- What a task has in hand for run `r`. -/
def Task.hand (r : RunId) : Task → Option (RecordPhase × Ret)
  | .recording r' ph ret _ => if r' = r then some (ph, ret) else none
  | _ => none

@[simp] theorem Task.hand_at (r : RunId) (k : Cont) : (Task.at k).hand r = none := rfl

theorem Task.recording_of_hand {t : Task} {r : RunId} {ph : RecordPhase} {ret : Ret}
    (h : t.hand r = some (ph, ret)) : ∃ k, t = .recording r ph ret k := by
  cases t with
  | recording r' ph' ret' k =>
      simp only [Task.hand, Option.ite_none_right_eq_some, Option.some.injEq,
        Prod.mk.injEq] at h
      obtain ⟨rfl, rfl, rfl⟩ := h
      exact ⟨k, rfl⟩
  | _ => cases h

/-- The lane of run `r`. -/
def State.lane (s : State) (r : RunId) : Lane where
  run := s.run r
  trail := s.trail r
  row := s.rows r
  home := s.home r
  cancelCalled := s.cancelCalled r
  held := r ∈ s.runs
  live := (s.home r).any fun h => r ∈ s.live h
  hand := (s.home r).bind fun h => (s.task h).hand r

/-- A run as `enqueue_run` builds it. -/
def Run.Fresh (run : Run) : Prop :=
  run = {
    agent := run.agent
    threadId := run.threadId
    inputJson := run.inputJson
    queuedAt := run.queuedAt
    seq := run.seq
    addressedRunId := run.addressedRunId }

/-- What is true whenever a run is offered: the provider has room, and an
interjection joins the very turn it is addressed to, which somebody holds. -/
structure OfferNote.Proper (note : OfferNote) (run : Run) (connection : Connection)
    (interjection : Bool) : Prop where
  key : note.key = connection.publicKey
  kind : note.interjection = interjection
  room : ∀ n, note.declared = some n → note.inFlight < n
  joins : interjection = true → note.headClaimed = true ∧ note.head.isSome = true ∧
    note.head = run.addressedRunId

theorem Run.Fresh.unoffered {run : Run} (h : run.Fresh) : run.unoffered = true := by
  rw [h]
  rfl

theorem Run.Fresh.poison {run : Run} (h : run.Fresh) : run.poison = none := by
  rw [h]

theorem Run.Fresh.isInterjection {run : Run} (h : run.Fresh) : run.isInterjection = false := by
  rw [h]

theorem Run.Fresh.offeredTo {run : Run} (h : run.Fresh) : run.offeredTo = none := by
  rw [h]

theorem Run.Fresh.settled {run : Run} (h : run.Fresh) : run.settled = false := by
  rw [h]

namespace Lane

/-- The key the run's offer is open to. -/
def openTo (l : Lane) : Option Key :=
  if l.live = true ∧ l.run.verdictOpen = true then l.run.offeredTo else none

/-- The lane once message `m` has been taken off the inbox. -/
def hear (l : Lane) (m : Message) : Lane :=
  { l with trail := { l.trail with heard := l.trail.heard ++ [⟨m, l.openTo⟩] } }

/-- The lane once `command` is being recorded. -/
def record (cfg : Config) (l : Lane) (command : Command) (ret : Ret) : Lane :=
  { l with
    run := (handle cfg command l.run).1
    trail := { l.trail with recorded := l.trail.recorded ++ [command] }
    hand := some (startPhase (handle cfg command l.run).2, ret) }

/-- The messages a handler lets pass: a verdict on no open offer of its key, a
report by nobody who holds the run, anything about a run that is not live. -/
def Ignores (l : Lane) : Message → Prop
  | .queued _ => False
  | .answered _ key _ =>
      ¬ (l.live = true ∧ l.run.verdictOpen = true ∧ l.run.offeredTo = some key)
  | .said _ origin _ => ¬ (l.live = true ∧ l.run.claimedBy = some origin)
  | .trusted _ _ => l.live = false
  | .cancelAsked _ => l.live = false
  | .offerLapsed _ offerId =>
      ¬ (l.live = true ∧ l.run.verdictOpen = true ∧ l.run.offerId = offerId)
  | .undelivered _ => l.live = false
  | .poke => True

/-- What a message that has been taken does to the lane of the run it is
about. -/
inductive Takes (cfg : Config) (r : RunId) : Message → Lane → Lane → Prop where
  | ignored {l : Lane} {m : Message} (h : l.Ignores m) : Takes cfg r m l l
  | arrived {l : Lane} (hl : l.live = false) (hh : l.held = true) :
      Takes cfg r (.queued r) l { l with live := true }
  | accepted {l : Lane} {key : Key} (hl : l.live = true) (ho : l.run.verdictOpen = true)
      (hk : l.run.offeredTo = some key) :
      Takes cfg r (.answered r key .accepted) l
        ({ l with run := l.run.accept key }.record cfg .claim .claimed)
  | refused {l : Lane} {key : Key} {reason : String} (hl : l.live = true)
      (ho : l.run.verdictOpen = true) (hk : l.run.offeredTo = some key) :
      Takes cfg r (.answered r key (.refusal reason)) l
        ({ l with run := l.run.turnDown }.record cfg
          (.fail "provider_refused" (some reason)) .settle)
  | declined {l : Lane} {key : Key} (hl : l.live = true) (ho : l.run.verdictOpen = true)
      (hk : l.run.offeredTo = some key) :
      Takes cfg r (.answered r key .declined) l
        ({ l with run := l.run.turnDown }.record cfg
          (l.run.dropped "provider_declined") .settle)
  | lapsed {l : Lane} {offerId : Nat} (hl : l.live = true) (ho : l.run.verdictOpen = true)
      (hn : l.run.offerId = offerId) :
      Takes cfg r (.offerLapsed r offerId) l
        ({ l with run := l.run.lapse }.record cfg
          (l.run.dropped "provider_did_not_answer") .settle)
  | said {l : Lane} {origin : Key} {report : Report} (hl : l.live = true)
      (hk : l.run.claimedBy = some origin) :
      Takes cfg r (.said r origin report) l
        (l.record cfg report.command (.maybeSettle report.command))
  | cancelPending {l : Lane} (hl : l.live = true) (ha : l.cancelCalled = true)
      (ho : l.run.verdictOpen = true) :
      Takes cfg r (.cancelAsked r) l { l with run := l.run.askCancel }
  | cancelled {l : Lane} (hl : l.live = true) (ha : l.cancelCalled = true)
      (ho : l.run.verdictOpen = false) :
      Takes cfg r (.cancelAsked r) l
        ({ l with run := l.run.askCancel }.record cfg .requestCancel
          (if l.run.claimedBy.isSome then .nothing else .settle))
  | failed {l : Lane} {code : String} {message : Option String} (hl : l.live = true) :
      Takes cfg r (.trusted r (.fail code message)) l
        ({ l with run := l.run.noteAbnormal }.record cfg (.fail code message) .settle)
  | undelivered {l : Lane} (hl : l.live = true) :
      Takes cfg r (.undelivered r) l { l with run := l.run.noteAbnormal }

/-- Everything that can happen to the lane of run `r`, with the message about the
run that is taken, if it is that. -/
inductive Step (cfg : Config) (r : RunId) : Option Message → Lane → Lane → Prop where
  /-- A door commits the run's row. -/
  | opened {l : Lane} (hr : l.row = none) :
      Step cfg r none l { l with row := some ⟨.queued, []⟩ }
  | enqueued {l : Lane} {run : Run} {row : Row} {h : HandlerId} (hh : l.home = none)
      (hf : run.Fresh) (hr : l.row = some row) (hq : row.status = .queued)
      (hs : ∀ e ∈ row.events, e.1 ≤ run.seq) :
      Step cfg r none l { l with
        run := run
        trail := { l.trail with before := row.events }
        home := some h
        held := true }
  | cancelCalled {l : Lane} (hh : l.held = true) :
      Step cfg r none l { l with
        run := l.run.askCancel
        cancelCalled := true }
  | delivered {l : Lane} (c : Connection) :
      Step cfg r none l { l with
        trail := { l.trail with delivered := l.trail.delivered ++ [c] } }
  /-- The handler takes a message about the run. -/
  | took {l l' : Lane} {m : Message} (hm : m.runId? = some r) (hh : l.hand = none)
      (ht : Takes cfg r m (l.hear m) l') : Step cfg r (some m) l l'
  | offered {l : Lane} {c : Connection} {interjection : Bool} {note : OfferNote}
      (hl : l.live = true) (hh : l.hand = none) (hu : l.run.unoffered = true)
      (hn : note.Proper l.run c interjection) :
      Step cfg r none l ({ l with
        run := l.run.offerTo c interjection
        trail := { l.trail with offers := l.trail.offers ++ [note] } }.record cfg .offer
          (.handOver c (l.run.offerId + 1)))
  | invalid {l : Lane} {message : String} (hl : l.live = true) (hh : l.hand = none)
      (hu : l.run.unoffered = true) :
      Step cfg r none l (l.record cfg (.fail "input_does_not_validate" (some message)) .settle)
  /-- A cancel that came in while the verdict was open. -/
  | cancelChecked {l : Lane} (hl : l.live = true) (hh : l.hand = none)
      (hc : l.run.claimedBy.isSome = true) (hr : l.run.cancelRequested = true) :
      Step cfg r none l (l.record cfg .requestCancel .nothing)
  | committed {l : Lane} {w : Write} {ret : Ret} {row : Row}
      (hh : l.hand = some (.writing w, ret)) (hr : l.row = some row) :
      Step cfg r none l { l with row := some (w.commit row), hand := some (.written w, ret) }
  | rolledBack {l : Lane} {w : Write} {ret : Ret} (hh : l.hand = some (.writing w, ret)) :
      Step cfg r none l { l with
        trail := { l.trail with failedWrites := l.trail.failedWrites + 1 }
        hand := some (.returned, ret) }
  | streamed {l : Lane} {w : Write} {ret : Ret} (hh : l.hand = some (.written w, ret)) :
      Step cfg r none l { l with
        run := l.run.stream w
        trail := { l.trail with asked := l.trail.asked ++ (l.run.stops w).toList }
        hand := some (if (l.run.stops w).isSome then .notifying else .returned, ret) }
  | notified {l : Lane} {ret : Ret} (hh : l.hand = some (.notifying, ret)) :
      Step cfg r none l { l with hand := some (.returned, ret) }
  | handedOver {l : Lane} {c : Connection} {n : Nat}
      (hh : l.hand = some (.returned, .handOver c n)) :
      Step cfg r none l { l with run := l.run.handOver n, hand := none }
  /-- The call was the last thing to do for the run. -/
  | returned {l : Lane} {ret : Ret} (hh : l.hand = some (.returned, ret))
      (hr : ret = .claimed ∨ ret = .nothing ∨
        ∃ command, ret = .maybeSettle command ∧ command ≠ .finishStream ∧
          l.run.poison = none) :
      Step cfg r none l { l with hand := none }
  | poisoned {l : Lane} {command : Command} {text : String}
      (hh : l.hand = some (.returned, .maybeSettle command))
      (hp : l.run.poison = some text) :
      Step cfg r none l (l.record cfg (.fail "provider_sent_malformed_event" (some text)) .settle)
  | settled {l : Lane} {ret : Ret} (hh : l.hand = some (.returned, ret))
      (hr : ret = .settle ∨ ret = .maybeSettle .finishStream ∧ l.run.poison = none) :
      Step cfg r none l { l with run := l.run.settle, held := false, live := false, hand := none }

end Lane

end Funduq.Broker
