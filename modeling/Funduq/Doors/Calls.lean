import Funduq.Doors.Entry
import Funduq.Lib.Server

/-!
# The doors

What a caller can ask of funduq about a run: the facade's `start_run`,
`resume_run` and `cancel_run`, the AG-UI door and the A2A door.  Each is a program
over the tables, and a request is one of them with its arguments.

A door that looks whether a run is waiting for its answer begins a section named
after that run, just before it looks.  Nothing in the source marks the place; it
is there to speak about it.
-/

namespace Funduq.Doors

open Funduq.Lib Funduq.Store Funduq.Contract
open Funduq.Broker (AgentRef Status)
open Prog hiding ofExcept

variable {PrivateKey PublicKey : Type} (cfg : Config PrivateKey PublicKey)

/-- What a door answers. -/
inductive Reply where
  | entered (run : Entered)
  /-- A run in the task `taskId`. -/
  | task (run : Entered) (taskId : String)
  /-- The thread, and the run in flight on it. -/
  | snapshot (threadId : String) (activeRun : Option (String × Status))
  /-- Whether the cancel was asked for. -/
  | asked (asked : Bool)
  | noTask

/-! ## The facade -/

/-- A value of the caller's input, `None` where it is missing. -/
def member (runInput : Dict String Json) (key : String) : Json := (runInput.get? key).getD .null

/-- `_inbound`. -/
def inboundOf (agent : AgentRef) (runInput : Dict String Json) (caller : Caller) : InboundRun where
  agent := agent
  messages := (runInput.get? "messages").getD (.arr [])
  headKey := caller.headKey
  actorChain := caller.actorChain
  kyok := caller.kyok
  state := member runInput "state"
  tools := member runInput "tools"
  context := member runInput "context"
  resume := member runInput "resume"
  parentRunId := member runInput "parentRunId"
  forwardedProps := caller.forwardedProps

/-- `start_run`. -/
def startRun (questions : Nat) (agent : AgentRef) (runInput : Dict String Json)
    (threadId presenterKey : Option String) : Door Reply := do
  let caller ← readCaller cfg (member runInput "forwardedProps") presenterKey
  let threadId ← ensureThread agent threadId none caller.props true caller.headKey
  let run ← enter cfg questions (inboundOf agent runInput caller) threadId none
  return .entered run

/-- The run `runId` names, while it waits for an answer. -/
def waitingRun (questions : Nat) (runId : String) : Door RunRecord := do
  match ← select fun w => w.getRun runId with
  | none => raise (.lookupError s!"no such run: {runId}")
  | some stored =>
      entering stored.runId
      match ← waitingOn questions stored with
      | none => raise (.noPendingAsk s!"run '{runId}' is not waiting for a result")
      | some _ => return stored

/-- `resume_run`. -/
def resumeRun (questions : Nat) (runId : String) (runInput : Dict String Json)
    (presenterKey : Option String) : Door Reply := do
  let stored ← waitingRun questions runId
  let caller ← readCaller cfg (member runInput "forwardedProps") presenterKey
  let run ← enter cfg questions (inboundOf stored.agent runInput caller) stored.threadId
    (some stored)
  return .entered run

/-- `cancel_run`. -/
def cancelRun (questions : Nat) (runId : String) (metadata : Dict String Json) : Door Bool := do
  match ← select fun w => w.getRun runId with
  | none => return false
  | some stored =>
      let now ← select fun w => w.now
      let note ← Prog.ofExcept (authorizeCancel cfg now stored metadata)
      if stored.status = .failed ∨ stored.status = .cancelled then return false
      else if stored.status = .completed then do
        match ← waitingOn questions stored with
        | none => return false
        | some _ =>
            put (.recordCancelRequest note)
            commits
            return true
      else
        put (.recordCancelRequest note)
        commits
        -- `broker.request_cancel`.
        select fun w => (w.live.get? runId).isSome

/-! ## The AG-UI door -/

/-- `get_agent`, or nothing is to be had here. -/
def registered (agent : AgentRef) : Door Unit := do
  let known ← select fun w => w.agents.contains agent
  if known then return ()
  else
    let name := shown agent
    raise (.agentNotFound s!"agent '{name}' is not registered")

/-- An input that carries results looks at the thread's latest run, and at its
events if it is waiting for an answer. -/
def latestWaiting (questions : Nat) (threadId : String) :
    Bool → Door (Option RunRecord × List Json)
  | false => return (none, [])
  | true => do
      match ← select fun w => w.latestRunForThread threadId with
      | none => return (none, [])
      | some latest =>
          entering latest.runId
          let events ← waitingOn questions latest
          return (some latest, events.getD [])

/-- `completes_the_ask`. -/
def completesTheAsk (messages : List Json) (resume : Option (List Json)) (events : List Json) :
    Bool :=
  !(openAsks events).isEmpty &&
    (openAsks events).all fun ask => ask ∈ answeredAsks messages resume events

/-- The `resume` of an AG-UI body, `None` when it is empty. -/
def resumeOf (body : RunAgentInput) : Option (List Json) := body.resume.filter fun r => !r.isEmpty

def aguiInbound (agent : AgentRef) (body : RunAgentInput) (caller : Caller) : InboundRun where
  agent := agent
  messages := .arr body.messages
  headKey := caller.headKey
  actorChain := caller.actorChain
  kyok := caller.kyok
  state := body.state
  tools := .arr body.tools
  context := .arr body.context
  resume := resumeJson (resumeOf body)
  parentRunId := body.parentRunId.elim .null .str
  forwardedProps := caller.forwardedProps

/-- `get_thread_snapshot`. -/
def threadSnapshot (threadId : String) : Door Reply := do
  let active ← select fun w => w.getActiveRunForThread threadId
  return .snapshot threadId (active.map fun run => (run.runId, run.status))

/-- `AGUIAdapter.run`. -/
def aguiRun (questions : Nat) (agent : AgentRef) (body : RunAgentInput)
    (presenterKey : Option String) : Door Reply := do
  registered agent
  let caller ← readCaller cfg body.forwardedProps presenterKey
  let threadId ← ensureThread agent (some body.threadId) none caller.props true caller.headKey
  let answering := (resumeOf body).isSome ||
    body.messages.any fun m => m.getStr? "role" = some "tool"
  let (latest, events) ← latestWaiting questions threadId answering
  let completes := completesTheAsk body.messages (resumeOf body) events
  -- A result with no ask to land on.
  if (resumeOf body).isSome && !completes then threadSnapshot threadId
  else
    let run ← enter cfg questions (aguiInbound agent body caller) threadId
      (if completes then latest else none)
    return .entered run

/-! ## The A2A door -/

/-- `ADDRESSED_RUN_METADATA_KEY`. -/
def addressedRunMetadataKey : String :=
  "https://github.com/hukaichun/funduq/ext/interjection/v1/addressedRunId"

/-- An id a message carries; what is no string the database refuses. -/
def idOf (message : Dict String Json) (key : String) : Except DoorError (Option String) :=
  match message.get? key with
  | none => .ok none
  | some value =>
      if !value.truthy then .ok none
      else
        match value with
        | .str id => .ok (some id)
        | _ => .error (.typeError "not an id")

/-- `_lineage_parent`: the thread of the first task the message refers to. -/
def lineageParent (message : Dict String Json) : Door (Option String) :=
  match message.get? "referenceTaskIds" with
  | some (.arr (.str taskId :: _)) => do
      let referenced ← select fun w => w.getRun taskId
      return referenced.map RunRecord.threadId
  | some (.arr []) => return none
  | some value =>
      if value.truthy then raise (.typeError "not a list of task ids") else return none
  | none => return none

/-- The task a message names, and the run of it that waits for the answer. -/
def waitingTask (questions : Nat) (agent : AgentRef) (taskId contextId : Option String) :
    Door (Option (RunRecord × RunRecord)) :=
  match taskId with
  | none => return none
  | some taskId => do
      match ← select fun w => w.getRun taskId with
      | none => raise (.taskNotFound s!"no task '{taskId}'")
      | some root =>
          if root.agent ≠ agent then raise (.taskNotFound s!"no task '{taskId}'")
          else if contextId.any fun c => c ≠ root.threadId then
            let named := contextId.getD ""
            raise (.invalidParams
              s!"contextId '{named}' is not the context of task '{taskId}'")
          else do
            match ← lineageTail questions taskId with
            | none => raise (.typeError "'NoneType' object has no attribute 'status'")
            | some tail =>
                entering tail.runId
                match ← waitingOn questions tail with
                | none => raise (.unsupportedOperation (s!"task '{taskId}' is not waiting for "
                    ++ "input; a message naming a task is its answer"))
                | some _ => return some (root, tail)

/-- The messages of a list that were not seen before, and what is seen after it. -/
def unseen : List (Option String) → List Json → List Json × List (Option String)
  | seen, [] => ([], seen)
  | seen, message :: rest =>
      if message.getStr? "id" ∈ seen then unseen seen rest
      else
        let (messages, seen) := unseen (message.getStr? "id" :: seen) rest
        (message :: messages, seen)

/-- What a run carried in, and what a run that completed replied with. -/
def saidIn (run : RunRecord) : Door (List Json) := do
  let said ← select fun w => w.messagesOfRun run.runId
  if run.status = .completed then do
    let events ← select fun w => w.getRunEvents run.runId
    return said ++ cfg.reduceEventsToMessages events
  else return said

/-- `conversation_of`: each message once, under the first run it appears in. -/
def conversationOf (seen : List (Option String)) : List RunRecord → Door (List (String × Json))
  | [] => return []
  | run :: runs => do
      let said ← saidIn cfg run
      let (messages, seen) := unseen seen said
      let rest ← conversationOf seen runs
      return messages.map (fun m => (run.runId, m)) ++ rest

/-- The bag of an A2A request: a chain handed in by name lands in it. -/
def a2aBag (actorChain : Option (List String)) (metadata : Dict String Json) : Dict String Json :=
  match actorChain with
  | some (token :: tokens) => metadata.set "actorChain" (.arr ((token :: tokens).map .str))
  | _ => metadata

def a2aInbound (agent : AgentRef) (messages : List Json) (caller : Caller) : InboundRun where
  agent := agent
  messages := .arr messages
  headKey := caller.headKey
  actorChain := caller.actorChain
  kyok := caller.kyok
  addressedRunId := (caller.props.get? addressedRunMetadataKey).getD .null
  forwardedProps := caller.forwardedProps

/-- The second half of `_start_run`, once it is known what the message answers: the
agent is handed the conversation, as an AG-UI caller would send it. -/
def a2aEnter (questions : Nat) (agent : AgentRef) (message : Dict String Json) (caller : Caller)
    (parentThreadId contextId : Option String) (task : Option (RunRecord × RunRecord)) :
    Door Reply := do
  let threadId ← ensureThread agent (contextId.or (task.map fun t => t.1.threadId)) parentThreadId
    caller.props false caller.headKey
  let runs ← select fun w => w.runsInThread threadId
  let said ← conversationOf cfg [] (runs.filter fun run => run.status = .completed)
  let new ← Prog.ofExcept (cfg.a2aMessageToAguiMessages (.obj message))
  let run ← enter cfg questions (a2aInbound agent (said.map Prod.snd ++ new) caller) threadId
    (task.map Prod.snd)
  return .task run (task.elim run.runId fun t => t.1.runId)

/-- `A2AAdapter._start_run`. -/
def a2aStartRun (questions : Nat) (agent : AgentRef) (message : Dict String Json)
    (actorChain : Option (List String)) (metadata : Dict String Json)
    (presenterKey : Option String) : Door Reply := do
  registered agent
  let caller ← readCaller cfg (.obj (a2aBag actorChain metadata)) presenterKey
  let parentThreadId ← lineageParent message
  let taskId ← Prog.ofExcept (idOf message "taskId")
  let contextId ← Prog.ofExcept (idOf message "contextId")
  let task ← waitingTask questions agent taskId contextId
  a2aEnter cfg questions agent message caller parentThreadId contextId task

/-- The states of an A2A task. -/
inductive TaskState where
  | submitted
  | working
  | inputRequired
  | completed
  | failed
  | canceled
  deriving DecidableEq, Repr

/-- `RUN_STATUS_TO_A2A_STATE`. -/
def stateForRunStatus : Status → TaskState
  | .queued | .offering => .submitted
  | .running | .cancelling => .working
  | .completed => .completed
  | .failed => .failed
  | .cancelled => .canceled

/-- `task_state_of`. -/
def taskStateOf (status : Status) (events : List Json) (cancelRequested : Bool) : TaskState :=
  if status = .completed ∧ openAsks events ≠ [] then
    if cancelRequested then .canceled else .inputRequired
  else stateForRunStatus status

/-- `TERMINAL_STATES`. -/
def TaskState.terminal : TaskState → Bool
  | .completed | .failed | .canceled => true
  | _ => false

/-- `A2AAdapter.cancel_task`, but for the task it shows. -/
def cancelTask (questions : Nat) (agent : AgentRef) (taskId : String)
    (metadata : Dict String Json) : Door Reply := do
  match ← select fun w => if taskId = "" then none else w.getRun taskId with
  | none => return .noTask
  | some run =>
      if run.agent ≠ agent then return .noTask
      else do
        let now ← select fun w => w.now
        let _ ← Prog.ofExcept (authorizeCancel cfg now run metadata)
        match ← lineageTail questions taskId with
        | none => raise (.typeError "list index out of range")
        | some tail =>
            let events ← select fun w => w.getRunEvents tail.runId
            if (taskStateOf tail.status events tail.cancelRequested).terminal then
              raise (.taskNotCancelable
                s!"task {taskId} has already ended and cannot be cancelled")
            else do
              let asked ← cancelRun cfg questions tail.runId metadata
              return .asked asked

/-! ## Requests -/

/-- A call and its arguments. -/
inductive Call where
  | startRun (agent : AgentRef) (runInput : Dict String Json) (threadId presenterKey : Option String)
  | resumeRun (runId : String) (runInput : Dict String Json) (presenterKey : Option String)
  | aguiRun (agent : AgentRef) (body : RunAgentInput) (presenterKey : Option String)
  | a2aSend (agent : AgentRef) (message : Dict String Json) (actorChain : Option (List String))
      (metadata : Dict String Json) (presenterKey : Option String)
  | cancelRun (runId : String) (metadata : Dict String Json)
  | cancelTask (agent : AgentRef) (taskId : String) (metadata : Dict String Json)

/-- A call, and how many questions it may ask about one lineage. -/
structure Request where
  call : Call
  questions : Nat

/-- The code of a request. -/
def program (r : Request) : Door Reply :=
  match r.call with
  | .startRun agent runInput threadId presenterKey =>
      startRun cfg r.questions agent runInput threadId presenterKey
  | .resumeRun runId runInput presenterKey =>
      resumeRun cfg r.questions runId runInput presenterKey
  | .aguiRun agent body presenterKey => aguiRun cfg r.questions agent body presenterKey
  | .a2aSend agent message actorChain metadata presenterKey =>
      a2aStartRun cfg r.questions agent message actorChain metadata presenterKey
  | .cancelRun runId metadata => do
      let asked ← cancelRun cfg r.questions runId metadata
      return .asked asked
  | .cancelTask agent taskId metadata => cancelTask cfg r.questions agent taskId metadata

/-- A funduq process at work: requests, and what happens without them. -/
abbrev Process := Server World Write DoorError Reply Request

/-- The process, from a store that satisfies `init` on. -/
def system (init : World → Prop) : System Process (Move Request Outside) :=
  Server.system db (program cfg) outside init

end Funduq.Doors
