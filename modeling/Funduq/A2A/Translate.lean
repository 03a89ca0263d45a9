import Funduq.Doors.Calls
import Funduq.Lib.Texts

/-!
# What a task looks like to an A2A caller

A run's events and its status, in A2A's words: a `Task` is built from all a task has
recorded, and an event at a time becomes an update of the stream.

What funduq writes under its own key of an item's `metadata` is the list of the members
found there.  The texts of an AG-UI event are strings, as its models have them.
-/

namespace Funduq.A2A

open Funduq.Lib Funduq.Doors
open Funduq.Broker (Status hasType runFinished runErrorTag)

/-! ## Events -/

def runStarted : String := "RUN_STARTED"

/-- A string an event holds under `key`, but for the empty one. -/
def textUnder (event : Json) (key : String) : Option String :=
  (event.getStr? key).filter fun s => s ≠ ""

/-- `TEXT_EVENT_TYPES`. -/
def isText (event : Json) : Bool :=
  hasType "TEXT_MESSAGE_CONTENT" event || hasType "TEXT_MESSAGE_CHUNK" event

/-- `text_delta_of`. -/
def textDeltaOf (event : Json) : Option (String × String) :=
  if isText event then
    some ((textUnder event "messageId").getD "text",
      ((textUnder event "delta").or (textUnder event "content")).getD "")
  else none

/-- The pieces of text in a list of events. -/
def deltas (events : List Json) : List (String × String) := events.filterMap textDeltaOf

/-- `is_mapped`. -/
def isMapped (event : Json) : Bool :=
  hasType runStarted event || hasType runFinished event || hasType runErrorTag event ||
    isText event

/-! ## Updates -/

/-- The message of a failed status. -/
structure ErrorMessage where
  messageId : String
  text : String
  deriving DecidableEq

/-- A `TaskStatusUpdateEvent`. -/
structure StatusUpdate where
  taskId : String
  contextId : String
  state : TaskState
  message : Option ErrorMessage := none
  metadata : List (String × Json) := []

/-- A `TaskArtifactUpdateEvent`, with the one part of its artifact. -/
structure ArtifactUpdate where
  taskId : String
  contextId : String
  artifactId : String
  text : String
  append : Bool

inductive Update where
  | status (u : StatusUpdate)
  | artifact (u : ArtifactUpdate)

/-- `_cancel_metadata`. -/
def cancelMetadata (runStatus : Status) (cancelRequested : Bool) : List (String × Json) :=
  if runStatus = .cancelling ∨ cancelRequested = true then [("cancelRequested", .bool true)]
  else []

/-- `status_update_for_run_status`. -/
def statusUpdateForRunStatus (taskId contextId : String) (runStatus : Status) : StatusUpdate where
  taskId := taskId
  contextId := contextId
  state := stateForRunStatus runStatus
  metadata := cancelMetadata runStatus false

/-- The status an event that carries no text is told as. -/
def statusUpdateOf (event : Json) (taskId contextId : String) : StatusUpdate :=
  if hasType runStarted event then
    { taskId, contextId, state := .working }
  else if hasType runFinished event then
    match interruptOutcomeOf event with
    -- A run that finished on an interrupt is asking, not done.
    | some interrupts =>
        { taskId, contextId, state := .inputRequired, metadata := [("interrupts", .arr interrupts)] }
    | none => { taskId, contextId, state := .completed }
  else if hasType runErrorTag event then
    { taskId, contextId, state := .failed
      message := (event.getStr? "message").map fun text => ⟨taskId ++ "-error", text⟩ }
  else
    { taskId, contextId, state := .working, metadata := [("agui_event", event)] }

/-- `agui_event_to_a2a_update`, and the artifacts that are open after it. -/
def aguiEventToA2aUpdate (event : Json) (taskId contextId : String) (opened : List String) :
    Update × List String :=
  match textDeltaOf event with
  | some (artifactId, text) =>
      (.artifact { taskId, contextId, artifactId, text, append := artifactId ∈ opened },
        if artifactId ∈ opened then opened else opened ++ [artifactId])
  | none => (.status (statusUpdateOf event taskId contextId), opened)

/-! ## The task -/

/-- A message of a task's history: who wrote it, the agent or the user, and its text. -/
structure HistoryMessage where
  messageId : String
  contextId : String
  fromAgent : Bool
  text : Json

structure Task where
  id : String
  contextId : String
  state : TaskState
  history : List HistoryMessage
  artifacts : Dict String String
  metadata : List (String × Json)

/-- The last `limit` of a list; `none` keeps all. -/
def keepLast {α : Type} (limit : Option Int) (items : List α) : List α :=
  match limit with
  | none => items
  | some n =>
      if n = 0 then []
      else if 0 < n then items.drop (items.length - n.toNat)
      else items.drop (-n).toNat

/-- `history_of`. -/
def historyOf (threadMessages : List Json) (contextId : String) (limit : Option Int) :
    List HistoryMessage :=
  keepLast limit <| threadMessages.filterMap fun message =>
    let role := message.getStr? "role"
    let content := (message.get? "content").getD .null
    if (role = some "user" ∨ role = some "assistant") ∧ content.truthy = true then
      some
        { messageId := (message.getStr? "id").getD ""
          contextId := contextId
          fromAgent := role = some "assistant"
          text := content }
    else none

/-- `build_task`. -/
def buildTask (taskId contextId : String) (runStatus : Status) (runEvents : List Json)
    (threadMessages : List Json) (historyLength : Option Int) (cancelRequested : Bool)
    (tailEvents : List Json) : Task :=
  let overflow := runEvents.filter fun event => (textDeltaOf event).isNone && !isMapped event
  { id := taskId
    contextId := contextId
    state := taskStateOf runStatus tailEvents cancelRequested
    history := historyOf threadMessages contextId historyLength
    artifacts := Texts.merged (deltas runEvents)
    metadata := (if overflow.isEmpty then [] else [("agui_events", .arr overflow)]) ++
      cancelMetadata runStatus cancelRequested }

/-! ## A stream and who receives it -/

/-- What a stream yields. -/
inductive Item where
  | task (t : Task)
  | update (u : Update)

/-- The state an item carries, where it carries one. -/
def Item.state? : Item → Option TaskState
  | .task t => some t.state
  | .update (.status u) => some u.state
  | .update (.artifact _) => none

/-- The state of the last item that carries one. -/
def lastState (items : List Item) : Option TaskState := (items.filterMap Item.state?).getLast?

/-- What a receiver of the stream holds of the task's artifacts. -/
def receive (artifacts : Dict String String) : Item → Dict String String
  | .task t => t.artifacts
  | .update (.status _) => artifacts
  | .update (.artifact u) =>
      if u.append then Texts.extend artifacts (u.artifactId, u.text)
      else artifacts.set u.artifactId u.text

/-- The artifacts a stream rebuilds. -/
def rebuilt (items : List Item) : Dict String String := items.foldl receive []

/-! ## Lemmas -/

variable {items : List Item} {item : Item} {event : Json} {taskId contextId : String}
  {opened : List String}

theorem lastState_concat : lastState (items ++ [item]) = item.state?.or (lastState items) := by
  unfold lastState
  rw [List.filterMap_append]
  cases h : item.state? with
  | none => simp [h]
  | some state => simp [h]

theorem rebuilt_concat : rebuilt (items ++ [item]) = receive (rebuilt items) item := by
  unfold rebuilt
  rw [List.foldl_append]
  rfl

theorem deltas_append (xs ys : List Json) : deltas (xs ++ ys) = deltas xs ++ deltas ys :=
  List.filterMap_append ..

@[simp] theorem buildTask_state (runStatus : Status) (runEvents threadMessages : List Json)
    (historyLength : Option Int) (cancelRequested : Bool) (tailEvents : List Json) :
    (buildTask taskId contextId runStatus runEvents threadMessages historyLength cancelRequested
      tailEvents).state = taskStateOf runStatus tailEvents cancelRequested := rfl

@[simp] theorem buildTask_artifacts (runStatus : Status) (runEvents threadMessages : List Json)
    (historyLength : Option Int) (cancelRequested : Bool) (tailEvents : List Json) :
    (buildTask taskId contextId runStatus runEvents threadMessages historyLength cancelRequested
      tailEvents).artifacts = Texts.merged (deltas runEvents) := rfl

/-- An event is told as text or as a status, never both. -/
theorem aguiEventToA2aUpdate_state? :
    (Item.update (aguiEventToA2aUpdate event taskId contextId opened).1).state? =
      if (textDeltaOf event).isNone then some (statusUpdateOf event taskId contextId).state
      else none := by
  unfold aguiEventToA2aUpdate
  cases textDeltaOf event <;> rfl

/-- The state of a status update does not depend on the task. -/
theorem statusUpdateOf_state (event : Json) (taskId contextId : String) :
    (statusUpdateOf event taskId contextId).state =
      if hasType runStarted event then .working
      else if hasType runFinished event then
        if (interruptOutcomeOf event).isSome then .inputRequired else .completed
      else if hasType runErrorTag event then .failed
      else .working := by
  unfold statusUpdateOf
  split
  · rfl
  · split
    · cases interruptOutcomeOf event <;> rfl
    · split <;> rfl

variable (event taskId contextId) in
/-- A receiver who holds exactly the artifacts that are open keeps what was said, and
holds exactly those that are open afterwards. -/
theorem receive_update {d : Dict String String} {ps : List (String × String)}
    (hd : ∀ id, d.get? id = Texts.said id ps)
    (hopened : ∀ id, id ∈ opened ↔ (d.get? id).isSome = true) :
    let after := receive d (.update (aguiEventToA2aUpdate event taskId contextId opened).1)
    (∀ id, after.get? id = Texts.said id (ps ++ deltas [event])) ∧
      ∀ id, id ∈ (aguiEventToA2aUpdate event taskId contextId opened).2 ↔
        (after.get? id).isSome = true := by
  unfold aguiEventToA2aUpdate
  cases hdelta : textDeltaOf event with
  | none =>
      have hnone : deltas [event] = [] := by simp [deltas, hdelta]
      rw [hnone, List.append_nil]
      exact ⟨hd, hopened⟩
  | some delta =>
      obtain ⟨artifactId, text⟩ := delta
      have hone : deltas [event] = [(artifactId, text)] := by simp [deltas, hdelta]
      -- An artifact that is not open is not there yet, so replacing it extends it.
      have hsame : ∀ id, (receive d (.update (.artifact
          { taskId, contextId, artifactId, text, append := artifactId ∈ opened }))).get? id =
            (Texts.extend d (artifactId, text)).get? id := by
        intro id
        by_cases hopen : artifactId ∈ opened
        · simp [receive, hopen]
        · have hnone : d.get? artifactId = none := by
            rw [← Option.not_isSome_iff_eq_none, ← hopened]
            exact hopen
          simp [receive, hopen, Texts.extend, hnone]
      rw [hone]
      refine ⟨fun id => (hsame id).trans (Texts.get?_extend hd _), fun id => ?_⟩
      dsimp only
      rw [hsame, Texts.extend, Dict.get?_set]
      by_cases hid : artifactId = id
      · subst hid
        by_cases hopen : artifactId ∈ opened <;> simp [hopen]
      · rw [if_neg hid, ← hopened]
        by_cases hopen : artifactId ∈ opened
        · rw [if_pos hopen]
        · rw [if_neg hopen, List.mem_append, List.mem_singleton, or_iff_left (Ne.symm hid)]

end Funduq.A2A
