import Funduq.Doors.Caller

/-!
# The way in

`doors.enter` and what it is made of, statement by statement: the thread is
resolved (`ensure_thread`), the run is opened on it (`open_run`) and handed to the
broker (`dispatch`).

The loops of `repo.py` that follow a lineage ask the database once for each link,
and how many links there are nobody knows beforehand.  They take the number of
questions they may ask; a loop that runs out of it has not come to an end.
-/

namespace Funduq.Doors

open Funduq.Lib Funduq.Store Funduq.Contract
open Funduq.Broker (AgentRef Status Time hasType runError runErrorTag)
open Prog hiding ofExcept

/-- Code that runs against the tables. -/
abbrev Door := Prog World Write DoorError

variable {PrivateKey PublicKey : Type} (cfg : Config PrivateKey PublicKey)

/-! ## Lineages -/

/-- The loop of `lineage_tail`. -/
def followLineage : Nat → RunRecord → Door RunRecord
  | 0, _ => raise .stillLooping
  | n + 1, current => do
      match ← select fun w => w.childOf current.runId with
      | none => return current
      | some child => followLineage n child

/-- `lineage_tail`: the last run of the lineage from `runId` on. -/
def lineageTail (questions : Nat) (runId : String) : Door (Option RunRecord) := do
  match ← select fun w => w.getRun runId with
  | none => return none
  | some run =>
      let tail ← followLineage questions run
      return some tail

/-- The loop of `lineage`. -/
def collectLineage : Nat → RunRecord → Door (List RunRecord)
  | 0, _ => raise .stillLooping
  | n + 1, current => do
      match ← select fun w => w.childOf current.runId with
      | none => return [current]
      | some child =>
          let rest ← collectLineage n child
          return current :: rest

/-- `lineage`: every run of the lineage from `runId` on. -/
def lineage (questions : Nat) (runId : String) : Door (List RunRecord) := do
  match ← select fun w => w.getRun runId with
  | none => return []
  | some run => collectLineage questions run

/-- `root_of`: the id of the run that started a run's lineage. -/
def rootOf : Nat → RunRecord → Door String
  | 0, _ => raise .stillLooping
  | n + 1, current =>
      match current.parentRunId with
      | none => return current.runId
      | some parentId => do
          match ← select fun w => w.getRun parentId with
          | none => return current.runId
          | some parent => rootOf n parent

/-- `waiting_on`: the run's events if it is waiting for an answer. -/
def waitingOn (questions : Nat) (run : RunRecord) : Door (Option (List Json)) :=
  if run.status ≠ .completed ∨ run.cancelRequested = true then return none
  else do
    match ← lineageTail questions run.runId with
    | none => raise (.typeError "'NoneType' object has no attribute 'run_id'")
    | some tail =>
        if tail.runId ≠ run.runId then return none
        else do
          let events ← select fun w => w.getRunEvents run.runId
          return if openAsks events = [] then none else some events

/-! ## Reading the caller -/

/-- Who is at the door and what it declared. -/
structure Caller where
  props : Dict String Json
  headKey : Option String
  actorChain : Option Json
  kyok : Option KyokOptIn
  forwardedProps : Json

/-- The members of a bag that is an object. -/
def bagOf : Json → Dict String Json
  | .obj members => members
  | _ => []

/-- `resolve_kyok`: the opt-in names an LLM provider that is known. -/
def resolveKyok (props : Dict String Json) : Door (Option KyokOptIn) :=
  let optIn := parseKyokOptIn props
  match optIn.bind KyokOptIn.llmProvider with
  | none => return optIn
  | some ref => do
      let known ← select fun w => w.llmProviders.contains ref
      if known then return optIn
      else
        let shown := short ref.providerKey ++ "…/" ++ ref.name
        raise (.llmProviderNotFound s!"unknown KYOK LLM provider '{shown}'")

/-- What is forwarded of a bag: what is left of it, or the value it is. -/
def forwarded (bag : Json) (props : Dict String Json) : Json :=
  match bag with
  | .obj _ => .obj props
  | other => other

/-- `read_caller`. -/
def readCaller (bag : Json) (presenterKey : Option String) : Door Caller := do
  let verified ← Prog.ofExcept (verifyCaller cfg (bagOf bag) presenterKey)
  let kyok ← resolveKyok verified.props
  return {
    props := verified.props
    headKey := verified.headKey
    actorChain := verified.actorChain
    kyok := kyok
    forwardedProps := forwarded bag verified.props }

/-! ## The thread -/

/-- An agent as it is shown. -/
def shown (agent : AgentRef) : String := short agent.providerKey ++ "…/" ++ agent.name

/-- `create_thread`. -/
def createThread (agent : AgentRef) (parentThreadId : Option String)
    (metadata : Dict String Json) (headKey : Option String) : Door String := do
  let threadId ← newId
  let known ← select fun w => w.agents.contains agent
  if known then
    put (.newThread { threadId, agent, parentThreadId, headKey, metadata })
    return threadId
  -- `fk_threads_agent`.
  else raise .integrityError

/-- What `ensure_thread` asks of a thread that is there. -/
def admits (thread : ThreadRow) (agent : AgentRef) (headKey : Option String) :
    Except DoorError Unit :=
  if thread.agent ≠ agent then
    let id := thread.threadId
    let owner := shown thread.agent
    let asked := shown agent
    .error (.threadOwnershipMismatch s!"thread '{id}' belongs to agent '{owner}', not '{asked}'")
  else if thread.headKey.isSome ∧ headKey ≠ thread.headKey ∧
      headKey ≠ some agent.providerKey then
    let id := thread.threadId
    .error (.threadMembershipRequired (s!"thread '{id}' is bound to a responsibility segment; "
      ++ "only its head or its serving provider may write to it"))
  else .ok ()

/-- `ensure_thread`: the thread `threadId` names, or a new one. -/
def ensureThread (agent : AgentRef) (threadId parentThreadId : Option String)
    (metadata : Dict String Json) (createIfMissing : Bool) (headKey : Option String) :
    Door String :=
  match threadId with
  | none => createThread agent parentThreadId metadata headKey
  | some threadId => do
      match ← select fun w => w.getThread threadId with
      | none =>
          if createIfMissing then createThread agent parentThreadId metadata headKey
          else raise (.threadNotFound threadId)
      | some existing =>
          Prog.ofExcept (admits existing agent headKey)
          put (.touchThread threadId)
          return threadId

/-! ## Opening the run -/

/-- One run as a door has translated it; the chain is the caller's. -/
structure InboundRun where
  agent : AgentRef
  messages : Json
  headKey : Option String := none
  actorChain : Option Json := none
  kyok : Option KyokOptIn := none
  addressedRunId : Json := .null
  state : Json := .null
  tools : Json := .null
  context : Json := .null
  resume : Json := .null
  parentRunId : Json := .null
  forwardedProps : Json := .null

/-- `kyok_ref`. -/
def InboundRun.kyokRef (inbound : InboundRun) : Option LlmRef :=
  inbound.kyok.bind KyokOptIn.llmProvider

/-- An interjection names a live run of its thread. -/
def checkAddressed (addressed : Json) (threadId : String) : Door (Option String) :=
  match addressed with
  | .null => return none
  | .str target => do
      let thread ← select fun w => w.live.get? target
      if thread = some threadId then return some target
      else raise (.invalidRunInput
        (s!"interjection names '{target}', which is not a " ++ "live run on this thread"))
  | _ => raise (.invalidRunInput "interjection names what is not a live run on this thread")

/-- An answer to a run with a chain carries a resolution over its asks. -/
def checkResolution (questions : Nat) (inbound : InboundRun) (answers : RunRecord) :
    Door (Option Resolution) := do
  match ← Prog.ofExcept (headKeyOf cfg answers) with
  | none => return none
  | some head =>
      let root ← rootOf questions answers
      let events ← select fun w => w.getRunEvents answers.runId
      let resolution ← Prog.ofExcept (verifyResolution cfg
        ((((bagOf inbound.forwardedProps).get? "resolution").getD .null).orElse (.obj []))
        root (openAsks events) [head, inbound.agent.providerKey])
      return some resolution

/-- `ensure_queue_room`. -/
def ensureQueueRoom (threadId : String) (limit : Option Int) : Door Unit :=
  match limit with
  | none => return ()
  | some limit => do
      let depth ← select fun w => w.countQueuedRunsForThread threadId
      if limit ≤ depth then
        raise (.threadQueueFull (s!"thread '{threadId}' already has {depth} pending run(s), at "
          ++ s!"its limit of {limit} — the message was not accepted; wait for the thread to "
          ++ "drain or answer its paused question"))
      else return ()

/-- The list `inbound.messages` is. -/
def messagesOf : Json → Except DoorError (List Json)
  | .arr items =>
      if items.all fun i => i.members?.isSome then .ok items
      else .error (.typeError "object has no attribute 'get'")
  | _ => .error (.typeError "not a list of messages")

/-- What the input says before it is the row: what funduq adds, and the row
`create_run` writes of it. -/
def funduqProps (inbound : InboundRun) (relayed : Option (List String)) (runId : String)
    (addressed : Option String) (now : Time) : FunduqProps where
  kyok := inbound.kyokRef.map fun _ => cfg.issueKyokToken runId inbound.agent now
  addressedRunId := addressed
  actorChain := relayed.filter fun chain => !chain.isEmpty

/-- `create_run`'s row: one column per field of the input. -/
def rowOf (agent : AgentRef) (input : RunAgentInput) (actorChain : Option (List String))
    (now : Time) : RunRecord where
  runId := input.runId
  threadId := input.threadId
  agent := agent
  status := .queued
  actorChain := actorChain
  createdAt := now
  parentRunId := input.parentRunId
  state := input.state
  tools := input.tools
  context := input.context
  forwardedProps := input.forwardedProps
  resume := input.resume

/-- One row of `append_thread_messages`. -/
def messageRow (threadId runId : String) (message : Json) : MessageRow where
  threadId := threadId
  runId := runId
  messageId := (message.getStr? "id").getD ""
  message := message

/-- `append_thread_messages`. -/
def appendThreadMessages (threadId runId : String) : List Json → Door Unit
  | [] => return ()
  | message :: rest => do
      put (.newMessage (messageRow threadId runId message))
      appendThreadMessages threadId runId rest

/-- The input `open_run` assembles. -/
def assemble (inbound : InboundRun) (relayed : Option (List String)) (threadId runId : String)
    (answers : Option RunRecord) (addressed : Option String) (messages : List Json)
    (now : Time) : Except DoorError RunAgentInput :=
  if (messages.map fun m => m.getStr? "id").Nodup then
    (buildRunAgentInput cfg.model threadId runId messages inbound.state inbound.tools
      inbound.context
      (buildForwardedProps (funduqProps cfg inbound relayed runId addressed now)
        inbound.forwardedProps)
      inbound.resume (answers.elim inbound.parentRunId fun run => .str run.runId)).mapError
        .invalidRunInput
  else .error (.invalidRunInput "two messages in one input carry the same id")

/-- What `open_run` asks before it writes: of an answer, that it is one; of
anything else, that there is room for it. -/
def checkRoom (questions : Nat) (inbound : InboundRun) (threadId : String) :
    Option RunRecord → Door (Option Resolution)
  | some answers => checkResolution cfg questions inbound answers
  | none => do
      -- An answer is how a waiting thread drains.
      ensureQueueRoom threadId cfg.threadQueueLimit
      return none

/-- The binding `dispatch` makes. -/
def bindingOf (inbound : InboundRun) (relayed : Option (List String)) : Option KyokBinding :=
  inbound.kyok.bind fun optIn => optIn.llmProvider.map fun ref =>
    { llmProvider := ref, context := optIn.context, actorChain := relayed }

/-- What `dispatch` hands to the broker. -/
def dispatchedOf (inbound : InboundRun) (relayed : Option (List String)) (input : RunAgentInput)
    (addressed : Option String) : Dispatched where
  runId := input.runId
  agent := inbound.agent
  threadId := input.threadId
  inputJson := input
  seq := 0
  addressedRunId := addressed
  binding := bindingOf inbound relayed

/-- `open_run`: the run's row and its messages, in one commit. -/
def openRun (questions : Nat) (inbound : InboundRun) (relayed : Option (List String))
    (threadId : String) (answers : Option RunRecord) : Door (RunAgentInput × Option String) := do
  let addressed ← checkAddressed inbound.addressedRunId threadId
  let resolution ← checkRoom cfg questions inbound threadId answers
  let runId ← newId
  let now ← select fun w => w.now
  let messages ← Prog.ofExcept (messagesOf inbound.messages)
  let input ← Prog.ofExcept (assemble cfg inbound relayed threadId runId answers addressed messages now)
  put (.newRun (rowOf inbound.agent input relayed now)
    { handed := dispatchedOf inbound relayed input addressed
      callerHead := inbound.headKey
      answers := answers.map RunRecord.runId
      resolution })
  appendThreadMessages threadId runId messages
  commits
  return (input, addressed)

/-! ## Handing it over -/

/-- `close_with_terminal_event`. -/
def closeWithTerminalEvent (runId code : String) : Door Unit := do
  let live ← select fun w => (w.live.get? runId).isSome
  if live then return ()
  else
    let events ← select fun w => w.getRunEvents runId
    if events.any (hasType runErrorTag) then return ()
    else
      let last ← select fun w => w.getLastEventSeq runId
      put (.appendRunEvent ⟨runId, last + 1, runError code code⟩)
      commits

/-- `dispatch`: to the broker, or failed where nobody serves the agent. -/
def dispatch (inbound : InboundRun) (relayed : Option (List String)) (input : RunAgentInput)
    (addressed : Option String) : Door Bool := do
  let served ← select fun w => w.served.contains inbound.agent
  if served then
    put (.enqueueRun (dispatchedOf inbound relayed input addressed))
    commits
    return true
  else
    put (.markRunStatus input.runId .failed)
    commits
    closeWithTerminalEvent input.runId "agent_offline"
    return false

/-- A run a door opened, and whether anyone serves its agent. -/
structure Entered where
  runId : String
  threadId : String
  live : Bool

/-- `enter`: the caller's chain gains funduq's hop, and the run is opened and
handed over. -/
def enter (questions : Nat) (inbound : InboundRun) (threadId : String)
    (answers : Option RunRecord) : Door Entered := do
  let relayed ← Prog.ofExcept (relayedChain cfg inbound.actorChain inbound.agent)
  let (input, addressed) ← openRun cfg questions inbound relayed threadId answers
  let live ← dispatch inbound relayed input addressed
  return { runId := input.runId, threadId, live }

end Funduq.Doors
