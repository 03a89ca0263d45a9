import Funduq.A2A.Translate
import Funduq.Broker.Rows

/-!
# The streams of the A2A door

`send_task_streaming` and `resubscribe_task` give their caller the task as it stands,
and then what its last run still has to tell.  The task is read from the database, the
rest comes off the run's queue, and neither waits for the other: between any two awaits
of the door's coroutine the broker takes any number of steps.

The model is of one task and one stream of it.  Its last run is the one that is at work;
the earlier runs of the lineage have ended, and their events are as they were.  What
`task_messages` answers goes into the history only, and is whatever the move says.

## Who else there is

A run's stream is one, and somebody else may have it open, may have taken items off the
queue, and may have closed it again.  A cancel may be asked for at any time.  A run whose
agent nobody serves is failed by the door that opened it, which says so in the row and
then in the record, and is never handed to the broker.

## What is only observed

`snapshot`, `behind`, `got` and `told` are written and never read: what the opening task
was built from, how many events of the last run were not on the queue any more when the
stream was taken, the events got off it, and the status that was read last.
-/

namespace Funduq.A2A

open Funduq.Lib Funduq.Doors
open Funduq.Broker (AgentRef Status Row RunId runError)

/-- A task: the root of its lineage, its agent, its thread, its last run, and what the
runs before that have recorded. -/
structure TaskRef where
  taskId : String
  agent : AgentRef
  contextId : String
  tail : RunId
  earlier : List Json

/-- How far a door has come that hands the run over and finds nobody serving its agent. -/
inductive Refusal where
  | no
  | failed
  | explained (event : Nat × Json)

/-- The row as such a door leaves it. -/
def Refusal.on : Refusal → Row → Row
  | .no, row => row
  | .failed, row => { row with status := .failed }
  | .explained event, row => { status := .failed, events := row.events ++ [event] }

/-- Who has the run's stream open. -/
inductive Holder where
  | nobody
  | other
  | ours
  deriving DecidableEq

/-- What was called; `live` says whether `send_task_streaming` has a stream to drain. -/
inductive Caller where
  | send (live : Bool)
  | resubscribe

/-- Why the caller gets no stream. -/
inductive StreamError where
  | taskNotFound (message : String)
  | unsupportedOperation (message : String)
  | streamTaken (message : String)

/-- Where the coroutine is. -/
inductive Stage where
  | idle
  /-- `_start_run` has returned. -/
  | sent (isLive : Bool)
  /-- `_task`, about to read the lineage. -/
  | looking (caller : Caller)
  /-- `_task`, about to read the events, with what it has read of the last run. -/
  | reading (caller : Caller) (status : Status) (cancelRequested : Bool)
  /-- `resubscribe_task`, about to read the lineage again. -/
  | opened (opening : Task)
  /-- `resubscribe_task`, about to take the stream. -/
  | taking (opening : Task) (tailStatus : Status)
  /-- Awaiting the next item, with the artifacts that are open. -/
  | draining (opened : List String)
  /-- About to read the run's row; `live` after the stream has ended. -/
  | asking (live : Bool)
  /-- About to yield this last status, if there is one, and to return. -/
  | telling (last : Option Status)
  | ended
  | refused (error : StreamError)

/-- What the opening task was built from. -/
structure Snapshot where
  status : Status
  cancelRequested : Bool
  events : List Json

structure State where
  broker : Broker.State
  door : Refusal := .no
  /-- `cancel_requested` of the run's row. -/
  cancelRequested : Bool := false
  holder : Holder := .nobody
  /-- The items taken off the run's queue. -/
  taken : Nat := 0
  stage : Stage := .idle
  items : List Item := []
  snapshot : Option Snapshot := none
  behind : Option Nat := none
  got : List Json := []
  told : Option Status := none

inductive Move where
  | broker (a : Broker.Action)
  /-- `dispatch` fails the run. -/
  | refuse
  /-- `close_with_terminal_event`, after that. -/
  | explain (seq : Nat) (message : String)
  | cancel
  | otherOpens
  | otherTakes
  | otherCloses
  | send (isLive : Bool)
  | resubscribe
  /-- The coroutine goes on to its next await. -/
  | next (messages : List Json)

namespace State

variable (x : TaskRef)

/-- The row of the task's last run, as the database has it. -/
def row? (s : State) : Option Row := (s.broker.rows x.tail).map s.door.on

/-- The events of the last run on record. -/
def events (s : State) : List Json := ((s.row? x).elim [] Row.events).map Prod.snd

def queue (s : State) : List Broker.OutItem := (s.broker.run x.tail).outQueue

/-- `_task`, once the last run's row has been read. -/
def task (s : State) (status : Status) (cancelRequested : Bool) (messages : List Json)
    (historyLength : Option Int) : Task :=
  buildTask x.taskId x.contextId status (x.earlier ++ s.events x) messages historyLength
    cancelRequested (s.events x)

/-- `get_task`. -/
def getTask (s : State) (messages : List Json) (historyLength : Option Int) : Option Task :=
  (s.row? x).map fun row => s.task x row.status s.cancelRequested messages historyLength

/-- `subscribe`. -/
def subscribe (s : State) : Except String State :=
  (s.broker.subscribe x.tail (s.holder ≠ .nobody)).map fun _ =>
    { s with
      holder := .ours
      behind := some ((s.broker.trail x.tail).before.length + s.taken) }

/-- A stream over which the opening task is sent, and then what comes off the queue. -/
def drain (s : State) (opening : Task) : State :=
  { s with
    items := s.items ++ [Item.task opening]
    stage := .draining (opening.artifacts.map Prod.fst) }

/-- The stream that has nothing to drain but this status. -/
def tell (s : State) (last : Option Status) (read : Option Status) : State :=
  { s with stage := .telling last, told := read }

/-- One stretch of the coroutine. -/
def next (messages : List Json) (s : State) : Option State :=
  match s.stage with
  | .sent isLive =>
      if isLive = true ∧ x.tail ∈ s.broker.runs then
        match s.subscribe x with
        | .error e => some { s with stage := .refused (.streamTaken e) }
        | .ok s => some { s with stage := .looking (.send true) }
      else some { s with stage := .looking (.send false) }
  | .looking caller =>
      match s.row? x, caller with
      | some row, _ => some { s with stage := .reading caller row.status s.cancelRequested }
      | none, .resubscribe =>
          let name := shown x.agent
          some { s with
            stage := .refused (.taskNotFound s!"no task '{x.taskId}' for agent '{name}'") }
      -- The run that was sent has its row.
      | none, .send _ => none
  | .reading caller status cancelRequested =>
      let opening := s.task x status cancelRequested messages none
      let s := { s with snapshot := some ⟨status, cancelRequested, s.events x⟩ }
      match caller with
      | .send true => some (s.drain opening)
      | .send false => some { s with items := s.items ++ [.task opening], stage := .asking false }
      | .resubscribe =>
          if opening.state.terminal then
            some { s with
              stage := .refused (.unsupportedOperation
                s!"task {x.taskId} has ended; there is nothing to subscribe to") }
          else some { s with stage := .opened opening }
  | .opened opening => (s.row? x).map fun row => { s with stage := .taking opening row.status }
  | .taking opening tailStatus =>
      if x.tail ∈ s.broker.runs then
        match s.subscribe x with
        | .error e => some { s with stage := .refused (.unsupportedOperation e) }
        | .ok s => some (s.drain opening)
      else
        some ({ s with items := s.items ++ [Item.task opening] }.tell (some tailStatus)
          (some tailStatus))
  | .draining opened =>
      match (s.queue x)[s.taken]? with
      | none => none
      | some .endOfStream =>
          some { s with taken := s.taken + 1, holder := .nobody, stage := .asking true }
      | some (.event e) =>
          let (update, opened) := aguiEventToA2aUpdate e x.taskId x.contextId opened
          some { s with
            taken := s.taken + 1
            items := s.items ++ [.update update]
            got := s.got ++ [e]
            stage := .draining opened }
  | .asking live =>
      let stored := (s.row? x).map Row.status
      if live then some (s.tell (stored.filter fun status => status ≠ .completed) stored)
      else some (s.tell (some (stored.getD .completed)) stored)
  | .telling last =>
      some { s with
        items := s.items ++ last.toList.map fun status =>
          .update (.status (statusUpdateForRunStatus x.taskId x.contextId status))
        stage := .ended }
  | .idle => none
  | .ended => none
  | .refused _ => none

/-- Somebody else takes the next item, and has the stream closed behind the last one. -/
def otherTakes (s : State) : Option State :=
  if s.holder = .other then
    match (s.queue x)[s.taken]? with
    | none => none
    | some .endOfStream => some { s with taken := s.taken + 1, holder := .nobody }
    | some (.event _) => some { s with taken := s.taken + 1 }
  else none

/-- A run that a door has refused is not handed over. -/
def admits (s : State) : Broker.Action → Bool
  | .enqueueRun e => e.runId ≠ x.tail || (match s.door with | .no => true | _ => false)
  | _ => true

def step (cfg : Broker.Config) (s : State) : Move → Option State
  | .broker a =>
      if s.admits x a then (s.broker.step cfg a).map fun broker => { s with broker := broker }
      else none
  | .refuse =>
      match s.door, s.broker.home x.tail, s.row? x with
      | .no, none, some row =>
          if row.status = .queued then some { s with door := .failed } else none
      | _, _, _ => none
  | .explain seq message =>
      match s.door with
      | .failed => some { s with door := .explained (seq, runError message "agent_offline") }
      | _ => none
  | .cancel => some { s with cancelRequested := true }
  | .otherOpens =>
      if s.holder = .nobody ∧ x.tail ∈ s.broker.runs then some { s with holder := .other } else none
  | .otherTakes => s.otherTakes x
  | .otherCloses => if s.holder = .other then some { s with holder := .nobody } else none
  | .send isLive =>
      match s.stage, s.door, isLive with
      | .idle, .no, true =>
          if (s.broker.home x.tail).isSome then some { s with stage := .sent true } else none
      | .idle, .explained _, false => some { s with stage := .sent false }
      | _, _, _ => none
  | .resubscribe =>
      match s.stage with
      | .idle => some { s with stage := .looking .resubscribe }
      | _ => none
  | .next messages => s.next x messages

end State

/-- A task and one stream of it, over a database that holds `db` when the process starts. -/
def system (cfg : Broker.Config) (db : RunId → Option Row) (x : TaskRef) : System State Move where
  init s := s = { broker := .init db }
  step := State.step x cfg

end Funduq.A2A
