import Funduq.Broker.Vocabulary

/-!
# The record handlers

`handlers.py` gives one handler to each command.  Each does its reading and its
changes to the run first, in one breath with the call, then makes one database
transaction, and only when that has committed puts the event on the run's
stream or asks the provider to stop.  So a handler is a function from the run
to the changed run and the write it then waits for, `none` when it returns
without one.
-/

namespace Funduq.Broker

open Funduq.Lib

/-- What the broker is configured with, and what it takes from packages outside
the repository: AG-UI's event types, whether AG-UI accepts an event, and why
AG-UI refuses an input (`none` when it validates). -/
structure Config where
  qualityTolerance : Option Int
  unservedTimeout : Time
  knownEventTypes : List String
  validEvent : Reported → Bool
  inputError : Json → Option String

/-- One handler's transaction, and whether the provider is asked to stop once
it has committed. -/
structure Write where
  event : Option (Nat × Json) := none
  status : Option Status := none
  asksToStop : Bool := false

/-! ## Statuses -/

/-- `LEGAL_STATUS_TRANSITIONS`: the statuses each write may legally come
from.  `queued` is never written. -/
def legalFrom : Status → List Status
  | .queued => []
  | .offering => [.queued]
  | .running => [.offering]
  | .cancelling => [.running]
  | .completed => [.running, .cancelling]
  | .cancelled => [.queued, .offering, .running, .cancelling]
  | .failed => [.queued, .offering, .running, .cancelling]

/-- `mark_run_status` on a row: an illegal move is refused and the recorded
status stands. -/
def markRunStatus (row : Row) (status : Status) : Row :=
  if row.status ∈ legalFrom status then { row with status := status } else row

/-- `completed`, `cancelled` and `failed`: nothing may be written over them. -/
def Status.terminal : Status → Bool
  | .completed | .cancelled | .failed => true
  | _ => false

/-- The transaction, once it commits: the event is appended and the status
moved together. -/
def Write.commit (w : Write) (row : Row) : Row :=
  let row := { row with events := row.events ++ w.event.toList }
  match w.status with
  | none => row
  | some status => markRunStatus row status

/-! ## The handlers -/

def handleOffer (run : Run) : Run × Option Write :=
  (run, some { status := some .offering })

def handleClaim (run : Run) : Run × Option Write :=
  (run, some { status := some .running })

/-- The event is one AG-UI knows, or one whose type cannot be told, and AG-UI
refuses it. -/
def malformed (cfg : Config) (event : Reported) : Bool :=
  (match event.typeTag with
    | some tag => cfg.knownEventTypes.contains tag
    | none => true) && !cfg.validEvent event

def handleRelay (cfg : Config) (run : Run) (event : Reported) : Run × Option Write :=
  if malformed cfg event then
    ({ run with poison := some "provider sent a malformed AG-UI event" }, none)
  else
    match event.dict? with
    -- `event.get` raises on anything that is not a dict; `_record` swallows it.
    | none => (run, none)
    | some e =>
        let run :=
          if hasType runFinished e then { run with sawRunFinished := true }
          else if hasType runErrorTag e then { run with sawRunError := true }
          else run
        let run := { run with seq := run.seq + 1 }
        (run, some { event := some (run.seq, e) })

/-- The status a run's end of stream settles on. -/
def finishStatus (run : Run) : Status :=
  if run.sawRunFinished then .completed
  else if run.cancelRequested then .cancelled
  else .failed

def handleFinish (run : Run) : Run × Option Write :=
  let status := finishStatus run
  if status = .failed ∧ run.sawRunError = false then
    let run := { run with seq := run.seq + 1 }
    let event := runError "the agent's stream ended without finishing"
      "provider_stream_ended_without_finishing"
    (run, some { event := some (run.seq, event), status := some status })
  else
    (run, some { status := some status })

def handleCancel (run : Run) : Run × Option Write :=
  if run.claimedBy.isNone then (run, some { status := some .cancelled })
  else (run, some { status := some .cancelling, asksToStop := true })

/-- `cmd.message or cmd.code`. -/
def failText (code : String) (message : Option String) : String :=
  match message with
  | none => code
  | some text => if text = "" then code else text

def handleFail (run : Run) (code : String) (message : Option String) :
    Run × Option Write :=
  let run := { run with seq := run.seq + 1 }
  (run, some
    { event := some (run.seq, runError (failText code message) code)
      status := some .failed })

/-- `make_handlers`: every command has its handler. -/
def handle (cfg : Config) : Command → Run → Run × Option Write
  | .offer, run => handleOffer run
  | .claim, run => handleClaim run
  | .relayEvent event, run => handleRelay cfg run event
  | .finishStream, run => handleFinish run
  | .requestCancel, run => handleCancel run
  | .fail code message, run => handleFail run code message

/-- A handler changes a run's sequence number, what it has seen of the stream,
and whether it is poisoned; nothing else of it. -/
theorem handle_run (cfg : Config) (command : Command) (run : Run) :
    ∃ seq poison finished error, (handle cfg command run).1 =
      { run with
        seq := seq
        poison := poison
        sawRunFinished := finished
        sawRunError := error } := by
  cases command with
  | offer => exact ⟨_, _, _, _, rfl⟩
  | claim => exact ⟨_, _, _, _, rfl⟩
  | relayEvent event =>
      simp only [handle, handleRelay]
      split
      · exact ⟨_, _, _, _, rfl⟩
      · split
        · exact ⟨_, _, _, _, rfl⟩
        · split
          · exact ⟨_, _, _, _, rfl⟩
          · split <;> exact ⟨_, _, _, _, rfl⟩
  | finishStream =>
      simp only [handle, handleFinish]
      split <;> exact ⟨_, _, _, _, rfl⟩
  | requestCancel =>
      simp only [handle, handleCancel]
      split <;> exact ⟨_, _, _, _, rfl⟩
  | fail code message => exact ⟨_, _, _, _, rfl⟩

@[simp] theorem handle_threadId (cfg : Config) (command : Command) (run : Run) :
    (handle cfg command run).1.threadId = run.threadId := by
  obtain ⟨_, _, _, _, h⟩ := handle_run cfg command run
  rw [h]

@[simp] theorem handle_addressedRunId (cfg : Config) (command : Command) (run : Run) :
    (handle cfg command run).1.addressedRunId = run.addressedRunId := by
  obtain ⟨_, _, _, _, h⟩ := handle_run cfg command run
  rw [h]

@[simp] theorem handle_offeredTo (cfg : Config) (command : Command) (run : Run) :
    (handle cfg command run).1.offeredTo = run.offeredTo := by
  obtain ⟨_, _, _, _, h⟩ := handle_run cfg command run
  rw [h]

@[simp] theorem handle_offeredConn (cfg : Config) (command : Command) (run : Run) :
    (handle cfg command run).1.offeredConn = run.offeredConn := by
  obtain ⟨_, _, _, _, h⟩ := handle_run cfg command run
  rw [h]

@[simp] theorem handle_verdictOpen (cfg : Config) (command : Command) (run : Run) :
    (handle cfg command run).1.verdictOpen = run.verdictOpen := by
  obtain ⟨_, _, _, _, h⟩ := handle_run cfg command run
  rw [h]

@[simp] theorem handle_isInterjection (cfg : Config) (command : Command) (run : Run) :
    (handle cfg command run).1.isInterjection = run.isInterjection := by
  obtain ⟨_, _, _, _, h⟩ := handle_run cfg command run
  rw [h]

@[simp] theorem handle_claimedBy (cfg : Config) (command : Command) (run : Run) :
    (handle cfg command run).1.claimedBy = run.claimedBy := by
  obtain ⟨_, _, _, _, h⟩ := handle_run cfg command run
  rw [h]

@[simp] theorem handle_cancelNotify (cfg : Config) (command : Command) (run : Run) :
    (handle cfg command run).1.cancelNotify = run.cancelNotify := by
  obtain ⟨_, _, _, _, h⟩ := handle_run cfg command run
  rw [h]

@[simp] theorem handle_notedAbnormal (cfg : Config) (command : Command) (run : Run) :
    (handle cfg command run).1.notedAbnormal = run.notedAbnormal := by
  obtain ⟨_, _, _, _, h⟩ := handle_run cfg command run
  rw [h]

@[simp] theorem handle_cancelRequested (cfg : Config) (command : Command) (run : Run) :
    (handle cfg command run).1.cancelRequested = run.cancelRequested := by
  obtain ⟨_, _, _, _, h⟩ := handle_run cfg command run
  rw [h]

@[simp] theorem handle_settled (cfg : Config) (command : Command) (run : Run) :
    (handle cfg command run).1.settled = run.settled := by
  obtain ⟨_, _, _, _, h⟩ := handle_run cfg command run
  rw [h]

@[simp] theorem handle_outQueue (cfg : Config) (command : Command) (run : Run) :
    (handle cfg command run).1.outQueue = run.outQueue := by
  obtain ⟨_, _, _, _, h⟩ := handle_run cfg command run
  rw [h]

/-- Only a malformed event poisons a run, and then nothing is written. -/
theorem handle_poison (cfg : Config) (command : Command) (run : Run) :
    (handle cfg command run).1.poison = run.poison ∨
      (∃ e, command = .relayEvent e ∧ malformed cfg e = true) ∧
        (handle cfg command run).2 = none := by
  cases command with
  | relayEvent event =>
      simp only [handle, handleRelay]
      split
      · rename_i hm
        exact .inr ⟨⟨event, rfl, hm⟩, rfl⟩
      · left
        split
        · rfl
        · split
          · rfl
          · split <;> rfl
  | finishStream =>
      left
      simp only [handle, handleFinish]
      split <;> rfl
  | requestCancel =>
      left
      simp only [handle, handleCancel]
      split <;> rfl
  | _ => exact .inl rfl

end Funduq.Broker
