import Funduq.Broker.Thread
import Funduq.Lib.Transition

/-!
# The broker as a transition system

An action is one thing that can happen next: somebody calls a method of the
broker, a clock runs out, a hand-over fails, the sweep wakes up, or some thread
handler's coroutine goes on to its next stopping point.  Any of them may happen
whenever it is enabled, so a run of the system is an arbitrary interleaving of
callers, clocks, threads and the database.

What the callers promise is in the guards.  A run is enqueued with an id that
was minted for it, so at most once, and with a sequence number no smaller than
that of any event its row already holds (`doors.open_run`,
`Funduq._recover_queued`); its row was written `queued` before.  The only
command funduq's own code pushes is `Fail`.
-/

namespace Funduq.Broker

open Funduq.Lib

/-- What `enqueue_run` is called with. -/
structure Enqueue where
  runId : RunId
  agent : AgentRef
  threadId : ThreadId
  inputJson : Json
  seq : Nat := 0
  addressedRunId : Option RunId := none

/-- One thing that can happen. -/
inductive Action where
  | start
  | stop
  | tick (elapsed : Nat)
  /-- A door's commit of a new run's row. -/
  | openRow (r : RunId)
  | enqueueRun (e : Enqueue)
  | answerOffer (r : RunId) (answer : Verdict) (providerKey : Key)
  | reportEvent (r : RunId) (event : Reported) (origin : Key)
  | finishStream (r : RunId) (origin : Key)
  | pushFail (r : RunId) (code : String) (message : Option String)
  | noteUndelivered (r : RunId)
  | requestCancel (r : RunId)
  | registerProvider (mapping : List (AgentRef × Connection))
  | unregisterProvider (agents : List AgentRef)
  | sweep
  | clockRunsOut (clock : OfferClock)
  | deliver (task : Handover)
  | handOverEnds (task : Handover) (fails : Bool)
  | take (h : HandlerId)
  | transact (h : HandlerId) (succeeds : Bool)
  | resume (h : HandlerId)

namespace State

/-! ## Intake -/

/-- `_thread_handler`: the thread's handler if its task is still running, else
a new one. -/
def threadHandler (s : State) (t : ThreadId) (agent : AgentRef) : State × HandlerId :=
  let running := (s.threads.get? t).filter fun h =>
    match s.task h with
    | .finished => false
    | _ => true
  match running with
  | some h => (s, h)
  | none =>
      let h := s.nextHandler
      ({ s with
          nextHandler := h + 1
          threadOf := Function.update s.threadOf h t
          agentOf := Function.update s.agentOf h agent
          agentThreads := Function.update s.agentThreads agent
            (s.agentThreads agent ++ [h])
          threads := s.threads.set t h
          task := Function.update s.task h .idle }, h)

/-- The `Run` object `enqueue_run` builds. -/
def newRun (s : State) (e : Enqueue) : Run :=
  { agent := e.agent
    threadId := e.threadId
    inputJson := e.inputJson
    queuedAt := s.now
    seq := e.seq
    addressedRunId := e.addressedRunId }

/-- `enqueue_run`, on a broker that is running. -/
def enqueueRun (s : State) (e : Enqueue) : State :=
  let run := s.newRun e
  let events := (s.rows e.runId).elim [] Row.events
  let (s, h) := s.threadHandler e.threadId e.agent
  let s := { s with
    runs := s.runs ++ [e.runId]
    runThreads := Function.update s.runThreads e.runId (some h)
    handlers := Function.update s.handlers e.runId true
    home := Function.update s.home e.runId (some h) }
  let s := s.setRun e.runId run
  let s := s.setTrail e.runId { s.trail e.runId with before := events }
  s.post h (.queued e.runId)

/-- What the callers of `enqueue_run` promise. -/
def mayEnqueue (s : State) (e : Enqueue) : Bool :=
  s.loopTask.isSome && (s.home e.runId).isNone &&
    (s.rows e.runId).any fun row =>
      row.status = .queued && row.events.all fun ev => ev.1 ≤ e.seq

/-! ## The clock -/

/-- A run `expire_queued` gives up on. -/
def expired (s : State) (timeout : Time) (r : RunId) : Bool :=
  let run := s.run r
  run.claimedBy.isNone && run.offeredTo.isNone && (s.servingOf run.agent).isNone &&
    (match s.unservedSince run.agent with
      | none => run.queuedAt
      | some since => max run.queuedAt since) ≤ s.now - timeout

def expireQueued (s : State) (timeout : Time) : State × List RunId :=
  let gone := s.runs.filter fun r => s.expired timeout r
  (gone.foldl (fun s r => (s.push r (.fail "no_provider_took_it" none)).1) s, gone)

/-- One turn of the loop in `run_forever`, up to its wait. -/
def sweep (cfg : Config) (s : State) : State :=
  let s := (s.expireQueued cfg.unservedTimeout).1
  let s := pokeThreads { s with workToDo := false }
  { s with loopTask := some .waiting }

/-! ## The hand-over -/

/-- `_hand_over` starts, and calls the connection's `deliver`. -/
def deliver (s : State) (task : Handover) : Option State :=
  if task ∈ s.handovers ∧ task.started = false then
    let r := task.clock.runId
    let s := s.setTrail r
      { s.trail r with delivered := (s.trail r).delivered ++ [task.connection] }
    some { s with handovers := s.handovers.erase task ++ [{ task with started := true }] }
  else none

/-- `deliver` returns, or raises and the offer lapses. -/
def handOverEnds (s : State) (task : Handover) (fails : Bool) : Option State :=
  if task ∈ s.handovers ∧ task.started = true then
    let s := { s with handovers := s.handovers.erase task }
    if fails then
      some (s.post task.clock.handler (.offerLapsed task.clock.runId task.clock.offerId))
    else some s
  else none

def clockRunsOut (s : State) (clock : OfferClock) : Option State :=
  if clock ∈ s.clocks then
    let s := { s with clocks := s.clocks.erase clock }
    some (s.post clock.handler (.offerLapsed clock.runId clock.offerId))
  else none

/-! ## The step -/

def step (cfg : Config) (s : State) : Action → Option State
  | .start =>
      if s.loopTask.isNone then some { s with workToDo := false, loopTask := some .spawned }
      else some s
  | .stop => some { s with loopTask := none }
  | .tick elapsed => some { s with now := s.now + elapsed }
  | .openRow r =>
      if (s.rows r).isNone then
        some { s with rows := Function.update s.rows r (some ⟨.queued, []⟩) }
      else none
  | .enqueueRun e => if s.mayEnqueue e then some (s.enqueueRun e) else none
  | .answerOffer r answer key => some (s.answerOffer r answer key).1
  | .reportEvent r event origin => some (s.reportEvent r event origin).1
  | .finishStream r origin => some (s.finishStream r origin).1
  | .pushFail r code message => some (s.push r (.fail code message)).1
  | .noteUndelivered r => some (s.noteUndelivered r).1
  | .requestCancel r => some (s.requestCancel r).1
  | .registerProvider mapping => some (s.registerProvider mapping)
  | .unregisterProvider agents => some (s.unregisterProvider agents)
  | .sweep => if s.loopTask.isSome then some (s.sweep cfg) else none
  | .clockRunsOut clock => s.clockRunsOut clock
  | .deliver task => s.deliver task
  | .handOverEnds task fails => s.handOverEnds task fails
  | .take h => s.take cfg h
  | .transact h succeeds => s.transact h succeeds
  | .resume h => s.resume cfg h

end State

/-- The broker over a database that holds `db` when it is built. -/
def system (cfg : Config) (db : RunId → Option Row) : System State Action where
  init s := s = State.init db
  step := State.step cfg

/-- A state the broker can get into, over any database. -/
def Reachable (cfg : Config) (db : RunId → Option Row) (s : State) : Prop :=
  (system cfg db).Reachable s

/-- A state the broker can get into by taking an action only where `C` allows
it. -/
def ReachableBy (cfg : Config) (db : RunId → Option Row) (C : State → Action → Prop)
    (s : State) : Prop :=
  (system cfg db).ReachableBy C s

/-! ## A broker at work -/

/-- The state a list of actions leads a broker with an empty database to. -/
def State.after (cfg : Config) (as : List Action) : State :=
  (system cfg fun _ => none).runFrom (State.init fun _ => none) as

theorem reachable_after (cfg : Config) (as : List Action) :
    Reachable cfg (fun _ => none) (State.after cfg as) :=
  System.Reachable.runFrom (.init rfl) as

namespace Demo

/-- A broker that withdraws a provider at its third offence and takes every
event but a `null` for valid. -/
def config : Config where
  qualityTolerance := some 3
  unservedTimeout := 45
  knownEventTypes := [runFinished, runErrorTag]
  validEvent
    | .json .null => false
    | _ => true
  inputError := fun _ => none

def agent : AgentRef := ⟨"pk", "translator"⟩

def link : Connection := ⟨0, "pk", some 1⟩

def enqueue (r : RunId) (t : ThreadId) : List Action :=
  [.openRow r, .enqueueRun { runId := r, agent := agent, threadId := t, inputJson := .null }]

/-- The handler takes a message that makes one record, and advances. -/
def record (h : HandlerId) (resumes : Nat) : List Action :=
  [.take h, .transact h true] ++ List.replicate resumes (.resume h)

/-- One run, `r`, is served by one provider and offered to it. -/
def offered : List Action :=
  [.start, .registerProvider [(agent, link)]] ++ enqueue "r" "t" ++
    [.take 0, .resume 0, .transact 0 true, .resume 0, .resume 0, .resume 0]

/-- The provider takes it. -/
def claimed : List Action :=
  offered ++ [.answerOffer "r" .accepted "pk"] ++ record 0 6

def finishedEvent : Reported := .json (.obj [("type", .str runFinished)])

/-- The provider reports that the run has finished. -/
def reported : List Action :=
  claimed ++ [.reportEvent "r" finishedEvent "pk"] ++ record 0 4

/-- The provider ends its stream. -/
def completed : List Action :=
  reported ++ [.finishStream "r" "pk"] ++ record 0 4

/-- The handler takes a message that makes no record, and waits again. -/
def look (h : HandlerId) : List Action := [.take h, .resume h, .resume h]

/-- A second run waits on a thread of its own, with no place left for it, and
nothing is left to do. -/
def waiting : List Action :=
  claimed ++ enqueue "q" "u" ++ [.sweep] ++ look 0 ++ look 1 ++ look 1

/-- The provider declares a second place, and is offered a run that is addressed
to the one it holds. -/
def joined : List Action :=
  let e : Enqueue :=
    { runId := "i"
      agent := agent
      threadId := "t"
      inputJson := .null
      addressedRunId := some "r" }
  claimed ++ [.registerProvider [(agent, { link with maxConcurrentRuns := some 2 })],
    .openRow "i", .enqueueRun e] ++ look 0 ++ [.take 0]

/-- The provider reports something AG-UI refuses. -/
def poisoned : List Action :=
  claimed ++ [.reportEvent "r" (.json .null) "pk", .take 0, .resume 0, .transact 0 true] ++
    List.replicate 4 (.resume 0)

/-- The provider leaves between its report and the end of its stream. -/
def overruled : List Action :=
  reported ++ [.unregisterProvider [agent]] ++ record 0 4

end Demo

end Funduq.Broker
