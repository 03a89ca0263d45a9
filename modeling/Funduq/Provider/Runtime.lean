import Funduq.Broker.Vocabulary
import Funduq.Doors.Input
import Funduq.Lib.Transition

/-!
# The provider's runtime

What a provider does with the runs it is handed.  `deliver` decides at once
whether to take one, and what it takes waits on the lane of its thread until its
turn comes and there is a slot; a run addressed to the one its lane is executing
goes to the agent's interjection hook instead, beside the lane.  A run that is
executing is a task of the event loop: it puts what the agent says on the
output, which the reporting loop empties into the link.

`deliver`, `cancel` and a task's completion callback never wait, so each is one
function here, and one step of the system.  A task is seen at its first step, at
each event of its stream, and at its end.  It is told from others by its name,
`run:<run id>`: the broker offers a run once, so a run is accepted at most once.

An event is whatever the agent yields, a type `E`.
-/

namespace Funduq.Provider

open Funduq.Lib
open Funduq.Broker (Verdict)
open Funduq.Doors (FunduqProps)

/-! ## What is handed over -/

/-- One run as it is handed to a provider. -/
structure DeliveredRun where
  runId : String
  agentName : String
  runInput : Json
  threadId : Option String := none

namespace DeliveredRun

/-- `_addressed_run_id`: the run this one declared it wants to join. -/
def addressedRunId (run : DeliveredRun) : Option String :=
  (FunduqProps.of ((run.runInput.get? "forwardedProps").getD .null)).addressedRunId

/-- `run.thread_id or run.run_id`. -/
def key (run : DeliveredRun) : String :=
  match run.threadId with
  | none => run.runId
  | some thread => if thread = "" then run.runId else thread

end DeliveredRun

/-- What comes of asking the provider for an agent's interjection hook, and of
calling it. -/
inductive Hook where
  | absent
  /-- Looking it up raises. -/
  | unreadable
  /-- Calling it raises. -/
  | raising
  /-- Calling it returns a stream. -/
  | streaming
  deriving DecidableEq, Repr

/-! ## The state -/

/-- What is put on the output about a run. -/
inductive Item (E : Type) where
  | event (e : E)
  /-- `_END`. -/
  | endMarker
  deriving DecidableEq, Repr

/-- `_Lane`: one thread's queue of accepted runs and the one active now. -/
structure Lane where
  queue : List DeliveredRun := []
  activeRunId : Option String := none
  parked : Bool := false

inductive Phase where
  /-- Created, and not stepped yet. -/
  | created
  /-- Iterating its stream. -/
  | streaming
  /-- Its coroutine has ended; its completion callback has not run. -/
  | ended
  /-- Its completion callback has run. -/
  | settled
  deriving DecidableEq, Repr

/-- The task executing a run. -/
structure Task where
  run : DeliveredRun
  /-- The stream is the interjection hook's, not `run_stream`'s. -/
  hooked : Bool
  laneKey : Option String
  /-- `task.cancel()` was called while it could still be. -/
  cancelled : Bool := false
  phase : Phase := .created

namespace Task

def runId (t : Task) : String := t.run.runId

/-- Its coroutine has ended. -/
def done (t : Task) : Bool := t.phase = .ended ∨ t.phase = .settled

/-- `task.cancel()`: nothing, once the task is done. -/
def cancel (t : Task) : Task := if t.done then t else { t with cancelled := true }

end Task

/-- `put`, `accepted` and `tasks` only observe: what was ever put on the output, the
runs accepted, each with the lane it queued on, and the tasks spawned for them, oldest
first.  Of a dictionary whose values are only asked for `None`, and of a set, the keys
are kept. -/
structure Runtime (E : Type) where
  maxQueuedRuns : Int
  maxConcurrentRuns : Option Int
  /-- `runtime.link` is set. -/
  link : Bool := true
  running : Bool := false
  output : List (String × Item E) := []
  lanes : Dict String Lane := []
  inFlight : List String := []
  queued : List String := []
  parked : List String := []
  dropped : List String := []
  tasks : List Task := []
  accepted : List (Option String × DeliveredRun) := []
  put : List (String × Item E) := []
  /-- What the link was told. -/
  reported : List (String × Item E) := []

namespace Runtime

variable {E : Type}

/-- `_output.put_nowait`. -/
def emit (s : Runtime E) (runId : String) (item : Item E) : Runtime E :=
  { s with
    output := s.output ++ [(runId, item)]
    put := s.put ++ [(runId, item)] }

/-- The tasks, with `f` done to the one named after `runId`. -/
def atTask (s : Runtime E) (runId : String) (f : Task → Task) : Runtime E :=
  { s with tasks := s.tasks.map fun t => if t.runId = runId then f t else t }

def setLane (s : Runtime E) (key : String) (lane : Lane) : Runtime E :=
  { s with lanes := s.lanes.set key lane }

def start (s : Runtime E) : Runtime E := { s with running := true }

/-! ## Slots and lanes -/

def slotFree (s : Runtime E) : Bool :=
  match s.maxConcurrentRuns with
  | none => true
  | some limit => (s.inFlight.length : Int) < limit

def hasRoom (s : Runtime E) : Bool :=
  match s.maxConcurrentRuns with
  | none => true
  | some limit =>
      if (s.inFlight.length : Int) < limit then true
      else (s.queued.length : Int) < s.maxQueuedRuns

/-- `_start_run`. -/
def startRun (s : Runtime E) (run : DeliveredRun) (hooked : Bool) (laneKey : Option String) :
    Runtime E :=
  { s with
    tasks := s.tasks ++ [{ run, hooked, laneKey }]
    inFlight := s.inFlight.insert run.runId }

/-- The head of a lane's queue was dropped while it waited. -/
def skipHead (s : Runtime E) (key : String) (lane : Lane) (run : DeliveredRun)
    (rest : List DeliveredRun) : Runtime E :=
  { s.setLane key { lane with queue := rest } with
    queued := s.queued.erase run.runId
    dropped := s.dropped.erase run.runId }

/-- There is no slot for the head of a lane's queue. -/
def park (s : Runtime E) (key : String) (lane : Lane) : Runtime E :=
  if lane.parked then s
  else { s.setLane key { lane with parked := true } with parked := s.parked ++ [key] }

/-- The head of a lane's queue has its turn. -/
def startHead (s : Runtime E) (key : String) (lane : Lane) (run : DeliveredRun)
    (rest : List DeliveredRun) : Runtime E :=
  let s := { s with queued := s.queued.erase run.runId }
  let lane := { lane with
    queue := rest
    activeRunId := some run.runId }
  (s.setLane key lane).startRun run false (some key)

/-- The loop of `_lane_next`, on a lane whose queue is the list. -/
def laneLoop (s : Runtime E) (key : String) (lane : Lane) : List DeliveredRun → Runtime E
  | [] => { s with lanes := s.lanes.pop key }
  | run :: rest =>
      if run.runId ∈ s.dropped then
        (s.skipHead key lane run rest).laneLoop key { lane with queue := rest } rest
      else if s.slotFree then s.startHead key lane run rest
      else s.park key lane

/-- `_lane_next`: starts the lane's next run when there is a slot, parks the lane when
there is none, or retires it when nothing waits. -/
def laneNext (s : Runtime E) (key : String) : Runtime E :=
  match s.lanes.get? key with
  | none => s
  | some lane => s.laneLoop key lane lane.queue

/-- The loop of `_kick_parked`, at most so many times round. -/
def kickLoop (s : Runtime E) : Nat → Runtime E
  | 0 => s
  | turns + 1 =>
      match s.parked with
      | [] => s
      | key :: parked =>
          if s.slotFree then
            let s := { s with parked := parked }
            match s.lanes.get? key with
            | none => s.kickLoop turns
            | some lane =>
                ((s.setLane key { lane with parked := false }).laneNext key).kickLoop turns
          else s

/-- `_kick_parked`.  A lane is parked again only for want of a slot, so the loop ends
within as many turns as lanes are parked when it begins. -/
def kickParked (s : Runtime E) : Runtime E := s.kickLoop s.parked.length

/-! ## Intake -/

/-- The run is addressed to the one its lane is executing. -/
def joins (s : Runtime E) (run : DeliveredRun) : Bool :=
  run.addressedRunId.any fun addressed =>
    (s.lanes.get? run.key).any fun lane => lane.activeRunId = some addressed

def accept (s : Runtime E) (laneKey : Option String) (run : DeliveredRun) : Runtime E :=
  { s with accepted := s.accepted ++ [(laneKey, run)] }

/-- The run joins the queue of a lane. -/
def enqueue (s : Runtime E) (key : String) (lane : Lane) (run : DeliveredRun) : Runtime E :=
  { s.setLane key { lane with queue := lane.queue ++ [run] } with
    queued := s.queued.insert run.runId }

def noInterjections (agentName : String) : String :=
  "agent '" ++ agentName ++ "' takes no interjections"

/-- `deliver` of a run that joins the one its lane is executing. -/
def interject (s : Runtime E) (run : DeliveredRun) (hook : Hook) :
    Option Verdict × Runtime E :=
  match hook with
  | .unreadable => (none, s)
  | .absent => (some (.refusal (noInterjections run.agentName)), s)
  | .raising => if s.hasRoom then (none, s) else (some .declined, s)
  | .streaming =>
      if s.hasRoom then (some .accepted, (s.accept none run).startRun run true none)
      else (some .declined, s)

/-- `deliver`: the verdict, `none` when it raises. -/
def deliver (s : Runtime E) (run : DeliveredRun) (hook : Hook) : Option Verdict × Runtime E :=
  if s.running then
    if s.joins run then s.interject run hook
    else if s.hasRoom then
      let key := run.key
      let s := s.accept (some key) run
      match s.lanes.get? key with
      | none => (some .accepted, (s.enqueue key {} run).laneNext key)
      | some lane => (some .accepted, s.enqueue key lane run)
    else (some .declined, s)
  else (some .declined, s)

/-- `cancel`: a run that is executing is asked to stop, one that waits is dropped and
finished at once. -/
def cancel (s : Runtime E) (runId : String) : Runtime E :=
  if runId ∈ s.inFlight then s.atTask runId Task.cancel
  else if runId ∈ s.queued then
    { s with
      queued := s.queued.erase runId
      dropped := s.dropped.insert runId }.emit runId .endMarker
  else s

/-! ## Tasks -/

/-- The task of `runId` is in phase `phase`. -/
def isAt (s : Runtime E) (runId : String) (phase : Phase) : Bool :=
  s.tasks.any fun t => t.runId = runId ∧ t.phase = phase

def setPhase (s : Runtime E) (runId : String) (phase : Phase) : Runtime E :=
  s.atTask runId fun t => { t with phase }

/-- A task's first step.  One that has been cancelled by then is thrown its
`CancelledError` before the first line of its coroutine; otherwise the coroutine asks
`run_stream` for the stream, unless the hook has given it, and `opens` says that a stream
is what it gets. -/
def begin (s : Runtime E) (runId : String) (opens : Bool) : Option (Runtime E) :=
  (s.tasks.find? fun t => t.runId = runId ∧ t.phase = .created).map fun t =>
    if t.cancelled then s.setPhase runId .ended
    else if t.hooked || opens then s.setPhase runId .streaming
    else s.setPhase runId .ended

/-- The stream yields an event. -/
def yields (s : Runtime E) (runId : String) (e : E) : Option (Runtime E) :=
  if s.isAt runId .streaming then some (s.emit runId (.event e)) else none

/-- The stream ends: it is exhausted, it raises, or the task is cancelled in it.  The
`finally` of `_execute` runs. -/
def stops (s : Runtime E) (runId : String) : Option (Runtime E) :=
  if s.isAt runId .streaming then some ((s.emit runId .endMarker).setPhase runId .ended)
  else none

/-- `_done` up to `_kick_parked`: the lane the run was active on goes on. -/
def freeLane (s : Runtime E) (runId : String) : Option String → Runtime E
  | none => s
  | some key =>
      match s.lanes.get? key with
      | none => s
      | some lane =>
          if lane.activeRunId = some runId then
            (s.setLane key { lane with activeRunId := none }).laneNext key
          else s

/-- The task's callback has begun: `_in_flight` forgets it. -/
def settle (s : Runtime E) (runId : String) : Runtime E :=
  { s.setPhase runId .settled with inFlight := s.inFlight.erase runId }

/-- A task's completion callback, `_done`. -/
def complete (s : Runtime E) (runId : String) : Option (Runtime E) :=
  (s.tasks.find? fun t => t.runId = runId ∧ t.phase = .ended).map fun t =>
    ((s.settle runId).freeLane runId t.laneKey).kickParked

/-- One turn of the loop in `_report_output`. -/
def reportOutput (s : Runtime E) : Option (Runtime E) :=
  match s.output with
  | [] => none
  | item :: output =>
      let s := { s with output := output }
      some (if s.link then { s with reported := s.reported ++ [item] } else s)

end Runtime

/-! ## The system -/

/-- One thing that can happen to a runtime. -/
inductive Move (E : Type) where
  | deliver (run : DeliveredRun) (hook : Hook)
  | cancel (runId : String)
  | begin (runId : String) (opens : Bool)
  | yields (runId : String) (e : E)
  | stops (runId : String)
  | complete (runId : String)
  | reportOutput

namespace Runtime

variable {E : Type}

/-- The broker offers no run a second time that was accepted. -/
def isNew (s : Runtime E) (runId : String) : Bool :=
  runId ∉ s.accepted.map fun e => e.2.runId

def step (s : Runtime E) : Move E → Option (Runtime E)
  | .deliver run hook => if s.isNew run.runId then some (s.deliver run hook).2 else none
  | .cancel runId => some (s.cancel runId)
  | .begin runId opens => s.begin runId opens
  | .yields runId e => s.yields runId e
  | .stops runId => s.stops runId
  | .complete runId => s.complete runId
  | .reportOutput => s.reportOutput

end Runtime

/-- A started runtime, and everything that can happen to it. -/
def system (E : Type) (maxQueuedRuns : Int) (maxConcurrentRuns : Option Int) :
    System (Runtime E) (Move E) where
  init s := s = Runtime.start { maxQueuedRuns, maxConcurrentRuns }
  step := Runtime.step

end Funduq.Provider
