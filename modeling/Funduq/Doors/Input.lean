import Mathlib.Data.List.Dedup
import Funduq.Store.Tables

/-!
# What a run is given, and what it asks

`build_run_agent_input` assembles the `RunAgentInput` of a run, and
`build_forwarded_props` the one key of it that is funduq's own.  `open_asks`
reads off a run's events what it finished waiting for.

AG-UI's models validate and dump each field of a `RunAgentInput` on its own; what
they make of a field is a parameter, `RunInputModel`.
-/

namespace Funduq.Doors

open Funduq.Lib Funduq.Store
open Funduq.Broker (AgentRef hasType runFinished)

/-! ## Asks -/

/-- The interrupts of a `RUN_FINISHED` with an interrupt outcome. -/
def interruptOutcomeOf (event : Json) : Option (List Json) :=
  if hasType runFinished event then
    match event.get? "outcome" with
    | some outcome =>
        if outcome.getStr? "type" = some "interrupt" then
          match outcome.get? "interrupts" with
          | some (.arr interrupts) => some interrupts
          | _ => some []
        else none
    | none => none
  else none

/-- The tool calls announced that never got a result, in the order they were
announced.  A recorded event of these types is valid AG-UI, so it has its id. -/
def unansweredToolCalls (events : List Json) : List String :=
  let announced := (events.filter (hasType "TOOL_CALL_START")).filterMap (·.getStr? "toolCallId")
  let answered := (events.filter (hasType "TOOL_CALL_RESULT")).filterMap (·.getStr? "toolCallId")
  announced.filter fun id => id ∉ answered

/-- The interrupts the run finished on. -/
def interruptsOf (events : List Json) : List Json :=
  ((events.reverse.find? (hasType runFinished)).bind interruptOutcomeOf).getD []

def finished (events : List Json) : Bool := events.any (hasType runFinished)

/-- `interrupt.get("toolCallId") or interrupt.get("id")`, when it is a string. -/
def askOf (interrupt : Json) : Option String :=
  match interrupt.getStr? "toolCallId" with
  | some id => if id ≠ "" then some id else interrupt.getStr? "id"
  | none => interrupt.getStr? "id"

/-- Everything a finished run left waiting on, as a set of ids. -/
def openAsks (events : List Json) : List String :=
  if finished events then
    ((unansweredToolCalls events ++ (interruptsOf events).filterMap askOf).filter
      fun ask => ask ≠ "").dedup
  else []

/-- The asks an inbound request answers, in the ids of `openAsks`. -/
def answeredAsks (messages : List Json) (resume : Option (List Json)) (events : List Json) :
    List String :=
  let toolCallOf : Dict String String := (interruptsOf events).foldl
    (fun d i =>
      match i.getStr? "id", askOf i with
      | some id, some ask => if id ≠ "" then d.set id ask else d
      | _, _ => d) []
  let byMessage := (messages.filter fun m => m.getStr? "role" = some "tool").filterMap
    fun m => (m.getStr? "toolCallId").filter fun id => id ≠ "" && id ∉ toolCallOf.values
  let byResume := (resume.getD []).filterMap fun entry =>
    (entry.getStr? "interruptId").bind toolCallOf.get?
  byMessage ++ byResume

/-! ## What funduq adds -/

/-- `OBSERVED_METADATA_KEY`. -/
def observedMetadataKey : String := "funduq"

/-- What funduq writes under its own key of a run's `forwardedProps`. -/
structure FunduqProps where
  kyok : Option String := none
  addressedRunId : Option String := none
  actorChain : Option (List String) := none

namespace FunduqProps

/-- `model_dump(by_alias=True, exclude_none=True)`. -/
def dump (p : FunduqProps) : List (String × Json) :=
  (p.kyok.elim [] fun token => [("kyok", .obj [("token", .str token)])]) ++
    (p.addressedRunId.elim [] fun r => [("addressedRunId", .str r)]) ++
      p.actorChain.elim [] fun chain => [("actorChain", .arr (chain.map .str))]

/-- An optional string, `none` when the value is neither. -/
def readStr : Option Json → Option (Option String)
  | none => some none
  | some .null => some none
  | some (.str s) => some (some s)
  | some _ => none

/-- The grant under `kyok`: an object with a token and nothing else. -/
def readKyok : Option Json → Option (Option String)
  | none => some none
  | some .null => some none
  | some (.obj members) =>
      if members.all fun m => m.1 = "token" then
        ((Json.obj members).getStr? "token").map some
      else none
  | some _ => none

def readChain : Option Json → Option (Option (List String))
  | none => some none
  | some .null => some none
  | some (.arr items) =>
      if items.all fun i => i.str?.isSome then some (some (items.filterMap Json.str?)) else none
  | some _ => none

/-- A field under its alias, or under its own name. -/
def field (ours : Json) (byAlias byName : String) : Option Json :=
  (ours.get? byAlias).or (ours.get? byName)

/-- `model_validate`: unknown keys are refused. -/
def parse (members : List (String × Json)) : Option FunduqProps := do
  let known := ["kyok", "addressedRunId", "addressed_run_id", "actorChain", "actor_chain"]
  guard (members.all fun m => m.1 ∈ known)
  let ours := Json.obj members
  let kyok ← readKyok (ours.get? "kyok")
  let addressedRunId ← readStr (field ours "addressedRunId" "addressed_run_id")
  let actorChain ← readChain (field ours "actorChain" "actor_chain")
  return { kyok, addressedRunId, actorChain }

/-- `FunduqProps.of`: what funduq wrote under a bag, empty when it wrote nothing
readable. -/
def of (forwardedProps : Json) : FunduqProps :=
  match forwardedProps.get? observedMetadataKey with
  | some (.obj members) => (parse members).getD {}
  | _ => {}

end FunduqProps

/-- `build_forwarded_props`: the caller's bag, and what funduq adds under its own
key. -/
def buildForwardedProps (ours : FunduqProps) (callerForwardedProps : Json) : Json :=
  match callerForwardedProps with
  | .obj members =>
      let theirs := members.filter fun m => m.1 ≠ observedMetadataKey
      if ours.dump.isEmpty then .obj theirs
      else .obj (theirs ++ [(observedMetadataKey, .obj ours.dump)])
  | other => if ours.dump.isEmpty then other else .obj [(observedMetadataKey, .obj ours.dump)]

/-! ## The input -/

/-- What AG-UI's models make of each field of a `RunAgentInput`: its dump, or why
it is refused. -/
structure RunInputModel where
  state : Json → Except String Json
  messages : List Json → Except String (List Json)
  tools : Json → Except String (List Json)
  context : Json → Except String (List Json)
  forwardedProps : Json → Except String Json
  resume : Json → Except String (Option (List Json))

/-- A list that may be missing, as JSON. -/
def resumeJson (resume : Option (List Json)) : Json := resume.elim .null .arr

/-- Validating what was dumped gives it back. -/
structure RunInputModel.Idempotent (M : RunInputModel) : Prop where
  state : ∀ {x y}, M.state x = .ok y → M.state y = .ok y
  messages : ∀ {x y}, M.messages x = .ok y → M.messages y = .ok y
  tools : ∀ {x y}, M.tools x = .ok y → M.tools (.arr y) = .ok y
  context : ∀ {x y}, M.context x = .ok y → M.context (.arr y) = .ok y
  forwardedProps : ∀ {x y}, M.forwardedProps x = .ok y → M.forwardedProps y = .ok y
  resume : ∀ {x y}, M.resume x = .ok y → M.resume (resumeJson y) = .ok y

/-- `parentRunId: str | None`. -/
def readParent : Json → Except String (Option String)
  | .null => .ok none
  | .str s => .ok (some s)
  | _ => .error "Input should be a valid string"

def buildRunAgentInput (M : RunInputModel) (threadId runId : String) (messages : List Json)
    (state tools context forwardedProps resume parentRunId : Json) :
    Except String RunAgentInput :=
  Except.mapError (fun e => s!"invalid AG-UI run input: {e}") do
    let state ← M.state state
    let messages ← M.messages messages
    let tools ← M.tools (tools.orElse (.arr []))
    let context ← M.context (context.orElse (.arr []))
    let forwardedProps ← M.forwardedProps forwardedProps
    let resume ← M.resume resume
    let parentRunId ← readParent parentRunId
    return { threadId, runId, state, messages, tools, context, forwardedProps, resume, parentRunId }

/-- `run_input_of`: the `RunAgentInput` a row is. -/
def runInputOf (M : RunInputModel) (w : World) (run : RunRecord) : Except String RunAgentInput :=
  buildRunAgentInput M run.threadId run.runId (w.messagesOfRun run.runId) run.state
    (.arr run.tools) (.arr run.context) run.forwardedProps (resumeJson run.resume)
    (run.parentRunId.elim .null .str)

end Funduq.Doors
