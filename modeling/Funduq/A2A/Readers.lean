import Funduq.A2A.Translate
import Funduq.Doors.Reading

/-!
# The readers of a record

What the thread asks for, what a request answers of it, and the task an A2A caller is
shown are all read off the stored events, and a reader raises on an event it did not
expect: a key that is not there, a text that is no string.  Where they return they give
what the total readers give (`readOpenAsks_eq`, `readBuildTask_eq`).

protobuf's `Struct` takes the events a task carries as they are; which of them it has
room for is a parameter, `holds`.
-/

namespace Funduq.A2A

open Funduq.Lib Funduq.Doors
open Funduq.Broker (Status hasType runFinished)

/-! ## The readers -/

/-- `value.get(key)` taken as an id, `none` where there is none. -/
def readId (value : Json) (key : String) : Except ReadError (Option String) :=
  match (value.get? key).filter Json.truthy with
  | none => .ok none
  | some (.str s) => .ok (some s)
  | some _ => .error (.typeError key)

/-- `interrupts_of`, and that there is something to go over. -/
def readInterrupts (events : List Json) : Except ReadError (List Json) :=
  match (events.reverse.find? (hasType runFinished)).bind (·.get? "outcome") with
  | none => .ok []
  | some outcome =>
      if outcome.getStr? "type" = some "interrupt" then
        match outcome.get? "interrupts" with
        | none => .ok []
        | some (.arr interrupts) =>
            if interrupts.all fun i => i.members?.isSome then .ok interrupts
            else .error (.typeError "interrupts")
        | some value => if value.truthy then .error (.typeError "interrupts") else .ok []
      else .ok []

/-- The tool calls announced, and those with a result. -/
def readCalls : List Json → Except ReadError (List String × List String)
  | [] => .ok ([], [])
  | event :: events =>
      if hasType "TOOL_CALL_START" event then do
        let id ← required event "toolCallId"
        let (announced, answered) ← readCalls events
        return (id :: announced, answered)
      else if hasType "TOOL_CALL_RESULT" event then do
        let id ← required event "toolCallId"
        let (announced, answered) ← readCalls events
        return (announced, id :: answered)
      else readCalls events

/-- `interrupt.get("toolCallId") or interrupt.get("id")`. -/
def readAsk (interrupt : Json) : Except ReadError (Option String) := do
  match ← readId interrupt "toolCallId" with
  | some id => return some id
  | none => readId interrupt "id"

/-- `open_asks`. -/
def readOpenAsks (events : List Json) : Except ReadError (List String) :=
  if finished events then do
    let (announced, answered) ← readCalls events
    let interrupts ← readInterrupts events
    let asks ← interrupts.mapM readAsk
    return ((announced.filter (· ∉ answered) ++ asks.filterMap id).filter (· ≠ "")).dedup
  else .ok []

/-- The ask each interrupt stands for, under the interrupt's id. -/
def readToolCallOf : Dict String String → List Json → Except ReadError (Dict String String)
  | d, [] => .ok d
  | d, interrupt :: interrupts => do
      match ← readId interrupt "id" with
      | none => readToolCallOf d interrupts
      | some id => do
          let call ← readId interrupt "toolCallId"
          readToolCallOf (d.set id (call.getD id)) interrupts

/-- `answered_asks`. -/
def readAnsweredAsks (messages : List Json) (resume : Option (List Json)) (events : List Json) :
    Except ReadError (List String) := do
  let interrupts ← readInterrupts events
  let toolCallOf ← readToolCallOf [] interrupts
  let replies ← (messages.filter fun m => m.getStr? "role" = some "tool").mapM fun m =>
    readId m "toolCallId"
  let entries ← (resume.getD []).mapM fun entry => readId entry "interruptId"
  return (replies.filterMap id).filter (· ∉ toolCallOf.values) ++
    entries.filterMap fun entry => entry.bind toolCallOf.get?

/-- The text of a piece: its `delta`, or else its `content`, or nothing. -/
def readPiece (event : Json) : Except ReadError String := do
  match ← readId event "delta" with
  | some text => return text
  | none => do
      let content ← readId event "content"
      return content.getD ""

/-- The pieces of text in the events, that can be joined. -/
def readDeltas (events : List Json) : Except ReadError (List (String × String)) :=
  (events.filter isText).mapM fun event => do
    let artifactId ← readId event "messageId"
    let text ← readPiece event
    return (artifactId.getD "text", text)

/-- `task_state_of`. -/
def readTaskState (status : Status) (events : List Json) (cancelRequested : Bool) :
    Except ReadError TaskState :=
  if status = .completed then do
    let asks ← readOpenAsks events
    return if asks ≠ [] then if cancelRequested then .canceled else .inputRequired
      else stateForRunStatus status
  else .ok (stateForRunStatus status)

/-- `build_task`. -/
def readBuildTask (holds : Json → Bool) (taskId contextId : String) (runStatus : Status)
    (runEvents : List Json) (threadMessages : List Json) (historyLength : Option Int)
    (cancelRequested : Bool) (tailEvents : List Json) : Except ReadError Task := do
  let state ← readTaskState runStatus tailEvents cancelRequested
  let pieces ← readDeltas runEvents
  let overflow := runEvents.filter fun event => (textDeltaOf event).isNone && !isMapped event
  if overflow.all holds then
    return {
      id := taskId
      contextId := contextId
      state := state
      history := historyOf threadMessages contextId historyLength
      artifacts := Texts.merged pieces
      metadata := (if overflow.isEmpty then [] else [("agui_events", .arr overflow)]) ++
        cancelMetadata runStatus cancelRequested }
  else throw (.typeError "metadata")

/-! ## Where they return -/

/-- What is under this key, if anything is, is null or a string. -/
def Textual (value : Json) (key : String) : Prop :=
  ∀ v, value.get? key = some v → v = .null ∨ ∃ s, v = .str s

variable {value event : Json} {key : String} {events : List Json}

/-- A value that counts as nothing is the empty text if it is one. -/
theorem filter_str?_of_not_truthy {v : Json} (h : v.truthy = false) :
    v.str?.filter (fun s => s ≠ "") = none := by
  cases v with
  | str s => simpa [Json.truthy, Json.str?, Option.filter] using h
  | _ => rfl

theorem readId_isOk (h : Textual value key) : ∃ id, readId value key = .ok id := by
  unfold readId
  cases hget : value.get? key with
  | none => exact ⟨none, rfl⟩
  | some v =>
      cases htruthy : v.truthy with
      | false => exact ⟨none, by simp [Option.filter, htruthy]⟩
      | true =>
          rcases h v hget with rfl | ⟨s, rfl⟩
          · cases htruthy
          · exact ⟨some s, by simp [Option.filter, htruthy]⟩

theorem readId_eq {id : Option String} (h : readId value key = .ok id) :
    id = (value.getStr? key).filter fun s => s ≠ "" := by
  unfold readId at h
  unfold Json.getStr?
  cases hget : value.get? key with
  | none =>
      rw [hget] at h
      exact (Except.ok.inj h).symm
  | some v =>
      rw [hget, Option.filter_some] at h
      show id = v.str?.filter _
      cases htruthy : v.truthy with
      | false =>
          rw [htruthy] at h
          rw [filter_str?_of_not_truthy htruthy]
          exact (Except.ok.inj h).symm
      | true =>
          rw [htruthy, if_pos rfl] at h
          cases v with
          | str s =>
              have hs : s ≠ "" := by simpa [Json.truthy] using htruthy
              rw [← Except.ok.inj h]
              simp [Json.str?, Option.filter, hs]
          | _ => cases h

/-- The interrupts an event finishes on, if it finishes on any, are objects, and their
ids texts. -/
def Outcome (event : Json) : Prop :=
  ∀ outcome, event.get? "outcome" = some outcome → outcome.getStr? "type" = some "interrupt" →
    ∀ v, outcome.get? "interrupts" = some v → ∃ interrupts, v = .arr interrupts ∧
      ∀ i ∈ interrupts, i.members?.isSome = true ∧ Textual i "toolCallId" ∧ Textual i "id"

theorem readInterrupts_isOk (h : ∀ e ∈ events, hasType runFinished e = true → Outcome e) :
    ∃ interrupts, readInterrupts events = .ok interrupts ∧
      ∀ i ∈ interrupts, Textual i "toolCallId" ∧ Textual i "id" := by
  have hnone : ∃ interrupts : List Json, Except.ok (ε := ReadError) [] = .ok interrupts ∧
      ∀ i ∈ interrupts, Textual i "toolCallId" ∧ Textual i "id" := ⟨[], rfl, nofun⟩
  unfold readInterrupts
  cases hfind : events.reverse.find? (hasType runFinished) with
  | none => exact hnone
  | some e =>
      have he : Outcome e :=
        h e (List.mem_reverse.1 (List.mem_of_find?_eq_some hfind)) (List.find?_some hfind)
      rw [Option.bind_some]
      cases hout : e.get? "outcome" with
      | none => exact hnone
      | some outcome =>
          dsimp only
          by_cases htype : outcome.getStr? "type" = some "interrupt"
          · rw [if_pos htype]
            cases hint : outcome.get? "interrupts" with
            | none => exact hnone
            | some v =>
                obtain ⟨interrupts, rfl, hall⟩ := he outcome hout htype v hint
                refine ⟨interrupts, ?_, fun i hi => (hall i hi).2⟩
                exact if_pos (List.all_eq_true.2 fun i hi => (hall i hi).1)
          · rw [if_neg htype]
            exact hnone

theorem readInterrupts_eq {interrupts : List Json} (h : readInterrupts events = .ok interrupts) :
    interrupts = interruptsOf events := by
  unfold readInterrupts at h
  unfold interruptsOf
  cases hfind : events.reverse.find? (hasType runFinished) with
  | none =>
      rw [hfind] at h
      exact (Except.ok.inj h).symm
  | some e =>
      rw [hfind, Option.bind_some] at h
      rw [Option.bind_some]
      unfold interruptOutcomeOf
      rw [if_pos (List.find?_some hfind)]
      cases hout : e.get? "outcome" with
      | none =>
          rw [hout] at h
          exact (Except.ok.inj h).symm
      | some outcome =>
          rw [hout] at h
          dsimp only at h ⊢
          by_cases htype : outcome.getStr? "type" = some "interrupt"
          · rw [if_pos htype] at h ⊢
            cases hint : outcome.get? "interrupts" with
            | none =>
                rw [hint] at h
                exact (Except.ok.inj h).symm
            | some v =>
                rw [hint] at h
                cases v with
                | arr is =>
                    obtain ⟨-, h⟩ | ⟨-, h⟩ := ite_eq_ok.1 h
                    · exact (Except.ok.inj h).symm
                    · cases h
                | _ =>
                    obtain ⟨-, h⟩ | ⟨-, h⟩ := ite_eq_ok.1 h
                    · cases h
                    · exact (Except.ok.inj h).symm
          · rw [if_neg htype] at h ⊢
            exact (Except.ok.inj h).symm

/-- The two types of event `readCalls` asks for a tool call's id. -/
def namesCall (event : Json) : Bool :=
  hasType "TOOL_CALL_START" event || hasType "TOOL_CALL_RESULT" event

theorem readCalls_isOk : (∃ calls, readCalls events = .ok calls) ↔
    ∀ e ∈ events, namesCall e = true → ∃ id, required e "toolCallId" = .ok id := by
  induction events with
  | nil => simp [readCalls]
  | cons e es ih =>
      rw [List.forall_mem_cons, ← ih, readCalls, namesCall]
      by_cases hs : hasType "TOOL_CALL_START" e = true
      · rw [if_pos hs, hs]
        cases required e "toolCallId" <;> cases readCalls es <;> simp [bind, Except.bind]
      · by_cases hr : hasType "TOOL_CALL_RESULT" e = true
        · rw [if_neg hs, if_pos hr, hr]
          cases required e "toolCallId" <;> cases readCalls es <;> simp [bind, Except.bind]
        · simp [hs, hr]

/-- The ids the events of a type name. -/
def idsOf (tag : String) (events : List Json) : List String :=
  (events.filter (hasType tag)).filterMap (·.getStr? "toolCallId")

theorem idsOf_cons {tag : String} {e : Json} : idsOf tag (e :: events) =
    if hasType tag e then (e.getStr? "toolCallId").toList ++ idsOf tag events
    else idsOf tag events := by
  unfold idsOf
  by_cases h : hasType tag e = true
  · rw [if_pos h, List.filter_cons_of_pos h, List.filterMap_cons]
    cases e.getStr? "toolCallId" <;> rfl
  · rw [if_neg h, List.filter_cons_of_neg h]

theorem readCalls_eq {calls : List String × List String} (h : readCalls events = .ok calls) :
    calls = (idsOf "TOOL_CALL_START" events, idsOf "TOOL_CALL_RESULT" events) := by
  induction events generalizing calls with
  | nil => exact (Except.ok.inj h).symm
  | cons e es ih =>
      rw [readCalls] at h
      rw [idsOf_cons, idsOf_cons]
      by_cases hs : hasType "TOOL_CALL_START" e = true
      · have hr : hasType "TOOL_CALL_RESULT" e = false := by
          rw [Reduction.hasType_eq hs]
          rfl
        rw [if_pos hs] at h
        obtain ⟨id, hid, h⟩ := bind_eq_ok.1 h
        obtain ⟨rest, hrest, h⟩ := bind_eq_ok.1 h
        cases ih hrest
        rw [if_pos hs, hr, required_eq_ok.1 hid]
        exact (pure_eq_ok.1 h).symm
      · rw [if_neg hs] at h ⊢
        by_cases hr : hasType "TOOL_CALL_RESULT" e = true
        · rw [if_pos hr] at h ⊢
          obtain ⟨id, hid, h⟩ := bind_eq_ok.1 h
          obtain ⟨rest, hrest, h⟩ := bind_eq_ok.1 h
          cases ih hrest
          rw [required_eq_ok.1 hid]
          exact (pure_eq_ok.1 h).symm
        · rw [if_neg hr] at h ⊢
          exact ih h

theorem readAsk_isOk {i : Json} (hcall : Textual i "toolCallId") (hid : Textual i "id") :
    ∃ ask, readAsk i = .ok ask := by
  obtain ⟨call, hcall⟩ := readId_isOk hcall
  obtain ⟨id, hid⟩ := readId_isOk hid
  unfold readAsk
  rw [hcall]
  cases call with
  | some call => exact ⟨some call, rfl⟩
  | none => exact ⟨id, hid⟩

theorem readAsk_eq {i : Json} {ask : Option String} (h : readAsk i = .ok ask) :
    ask = (askOf i).filter fun s => s ≠ "" := by
  obtain ⟨call, hcall, h⟩ := bind_eq_ok.1 h
  have hcall := readId_eq hcall
  unfold askOf
  cases hget : i.getStr? "toolCallId" with
  | none =>
      rw [hget] at hcall
      subst hcall
      exact readId_eq h
  | some s =>
      rw [hget] at hcall
      by_cases hs : s = ""
      · subst hs hcall
        exact readId_eq h
      · have hcall : call = some s := by simpa [Option.filter, hs] using hcall
        subst hcall
        have hask := pure_eq_ok.1 h
        simp [← hask, Option.filter, hs]

/-- Where `open_asks` returns it gives what the run left open. -/
theorem readOpenAsks_eq {asks : List String} (h : readOpenAsks events = .ok asks) :
    asks = openAsks events := by
  unfold readOpenAsks at h
  unfold openAsks
  by_cases hfin : finished events = true
  · rw [if_pos hfin] at h ⊢
    obtain ⟨calls, hcalls, h⟩ := bind_eq_ok.1 h
    obtain ⟨interrupts, hint, h⟩ := bind_eq_ok.1 h
    obtain ⟨found, hfound, h⟩ := bind_eq_ok.1 h
    cases readCalls_eq hcalls
    rw [readInterrupts_eq hint] at hfound
    rw [mapM_eq_ok (fun _ _ => readAsk_eq) hfound] at h
    rw [← pure_eq_ok.1 h]
    congr 1
    rw [List.filter_append, List.filter_append]
    congr 1
    rw [List.filterMap_map, List.filter_filterMap, List.filter_filterMap]
    congr 1
    funext i
    cases hask : askOf i with
    | none => simp [hask]
    | some s => by_cases hs : s = "" <;> simp [hask, hs, Option.filter]
  · rw [if_neg hfin] at h ⊢
    exact (Except.ok.inj h).symm

theorem readOpenAsks_isOk (hcalls : ∃ calls, readCalls events = .ok calls)
    (h : ∀ e ∈ events, hasType runFinished e = true → Outcome e) :
    ∃ asks, readOpenAsks events = .ok asks := by
  obtain ⟨calls, hcalls⟩ := hcalls
  obtain ⟨interrupts, hint, htext⟩ := readInterrupts_isOk h
  obtain ⟨found, hfound⟩ := mapM_isOk.2 fun i hi => readAsk_isOk (htext i hi).1 (htext i hi).2
  unfold readOpenAsks
  split
  · rw [hcalls, hint]
    simp only [bind, Except.bind, hfound]
    exact ⟨_, rfl⟩
  · exact ⟨[], rfl⟩

theorem readToolCallOf_isOk {d : Dict String String} {interrupts : List Json}
    (h : ∀ i ∈ interrupts, Textual i "toolCallId" ∧ Textual i "id") :
    ∃ d', readToolCallOf d interrupts = .ok d' := by
  induction interrupts generalizing d with
  | nil => exact ⟨d, rfl⟩
  | cons i is ih =>
      obtain ⟨id, hid⟩ := readId_isOk (h i List.mem_cons_self).2
      obtain ⟨call, hcall⟩ := readId_isOk (h i List.mem_cons_self).1
      have hrest := fun j hj => h j (List.mem_cons_of_mem i hj)
      unfold readToolCallOf
      rw [hid]
      cases id with
      | none => exact ih hrest
      | some id =>
          show ∃ d', (readId i "toolCallId").bind _ = .ok d'
          rw [hcall]
          exact ih hrest

/-- What AG-UI makes sure of in a request's messages and in its `resume`. -/
structure Accepted (messages : List Json) (resume : Option (List Json)) : Prop where
  replies : ∀ m ∈ messages, m.getStr? "role" = some "tool" → Textual m "toolCallId"
  entries : ∀ entry ∈ resume.getD [], Textual entry "interruptId"

theorem readAnsweredAsks_isOk {messages : List Json} {resume : Option (List Json)}
    (hreq : Accepted messages resume)
    (h : ∀ e ∈ events, hasType runFinished e = true → Outcome e) :
    ∃ answered, readAnsweredAsks messages resume events = .ok answered := by
  obtain ⟨interrupts, hint, htext⟩ := readInterrupts_isOk h
  obtain ⟨toolCallOf, hd⟩ := readToolCallOf_isOk (d := []) htext
  have hreplies : ∃ replies, (messages.filter fun m => m.getStr? "role" = some "tool").mapM
      (fun m => readId m "toolCallId") = .ok replies := by
    refine mapM_isOk.2 fun m hm => readId_isOk ?_
    obtain ⟨hmem, hrole⟩ := List.mem_filter.1 hm
    exact hreq.replies m hmem (of_decide_eq_true hrole)
  have hentries : ∃ entries, (resume.getD []).mapM (fun entry => readId entry "interruptId") =
      .ok entries := mapM_isOk.2 fun entry he => readId_isOk (hreq.entries entry he)
  obtain ⟨replies, hreplies⟩ := hreplies
  obtain ⟨entries, hentries⟩ := hentries
  unfold readAnsweredAsks
  rw [hint]
  simp only [bind, Except.bind, hd, hreplies, hentries]
  exact ⟨_, rfl⟩

/-! ## The task -/

/-- The texts of an event that carries text. -/
structure Piece (event : Json) : Prop where
  messageId : Textual event "messageId"
  delta : Textual event "delta"

/-- The text of an event can be joined: what stands in for an empty `delta` is a text. -/
def TextReadable (event : Json) : Prop :=
  textUnder event "delta" = none →
    ((event.get? "content").filter Json.truthy).all fun v => v.str?.isSome

instance (event : Json) : Decidable (TextReadable event) := by
  unfold TextReadable
  infer_instance

theorem readId_isOk_iff : (∃ id, readId value key = .ok id) ↔
    (((value.get? key).filter Json.truthy).all fun v => v.str?.isSome) = true := by
  unfold readId
  cases (value.get? key).filter Json.truthy with
  | none => simp
  | some v => cases v <;> simp [Json.str?]

theorem readPiece_isOk (h : Textual event "delta") :
    (∃ text, readPiece event = .ok text) ↔ TextReadable event := by
  obtain ⟨delta, hdelta⟩ := readId_isOk h
  unfold TextReadable textUnder readPiece
  rw [← readId_eq hdelta, ← readId_isOk_iff, hdelta]
  cases delta with
  | none => cases readId event "content" <;> simp [bind, Except.bind]
  | some s => simp [bind, Except.bind]

theorem readPiece_eq {text : String} (h : readPiece event = .ok text) :
    text = ((textUnder event "delta").or (textUnder event "content")).getD "" := by
  obtain ⟨delta, hdelta, h⟩ := bind_eq_ok.1 h
  unfold textUnder
  rw [← readId_eq hdelta]
  cases delta with
  | some s => exact (pure_eq_ok.1 h).symm
  | none =>
      obtain ⟨content, hcontent, h⟩ := bind_eq_ok.1 h
      rw [← readId_eq hcontent]
      exact (pure_eq_ok.1 h).symm

theorem readDeltas_isOk (h : ∀ e ∈ events, isText e = true → Piece e) :
    (∃ pieces, readDeltas events = .ok pieces) ↔
      ∀ e ∈ events, isText e = true → TextReadable e := by
  unfold readDeltas
  rw [mapM_isOk]
  simp only [List.mem_filter, and_imp]
  refine forall_congr' fun e => forall_congr' fun he => forall_congr' fun htext => ?_
  obtain ⟨artifactId, hid⟩ := readId_isOk (h e he htext).messageId
  rw [← readPiece_isOk (h e he htext).delta, hid]
  cases readPiece e <;> simp [bind, Except.bind]

theorem readDeltas_eq {pieces : List (String × String)} (h : readDeltas events = .ok pieces) :
    pieces = deltas events := by
  have hone : ∀ e (piece : String × String), (do
      let artifactId ← readId e "messageId"
      let text ← readPiece e
      return (artifactId.getD "text", text)) = Except.ok piece →
      piece = ((textUnder e "messageId").getD "text",
        ((textUnder e "delta").or (textUnder e "content")).getD "") := by
    intro e piece h
    obtain ⟨artifactId, hid, h⟩ := bind_eq_ok.1 h
    obtain ⟨text, htext, h⟩ := bind_eq_ok.1 h
    rw [← pure_eq_ok.1 h, readPiece_eq htext, readId_eq hid]
    rfl
  rw [mapM_eq_ok hone h, ← List.filterMap_eq_map, List.filterMap_filter]
  rfl

theorem readTaskState_eq {status : Status} {cancelRequested : Bool} {state : TaskState}
    (h : readTaskState status events cancelRequested = .ok state) :
    state = taskStateOf status events cancelRequested := by
  unfold readTaskState at h
  unfold taskStateOf
  by_cases hstatus : status = .completed
  · rw [if_pos hstatus] at h
    obtain ⟨asks, hasks, h⟩ := bind_eq_ok.1 h
    rw [readOpenAsks_eq hasks] at h
    rw [← pure_eq_ok.1 h]
    simp only [hstatus, true_and]
  · rw [if_neg hstatus] at h
    rw [if_neg (fun hboth => hstatus hboth.1)]
    exact (Except.ok.inj h).symm

/-- Where `build_task` returns it gives the task of these events. -/
theorem readBuildTask_eq {holds : Json → Bool} {taskId contextId : String} {runStatus : Status}
    {threadMessages tailEvents : List Json} {historyLength : Option Int} {cancelRequested : Bool}
    {task : Task} (h : readBuildTask holds taskId contextId runStatus events threadMessages
      historyLength cancelRequested tailEvents = .ok task) :
    task = buildTask taskId contextId runStatus events threadMessages historyLength
      cancelRequested tailEvents := by
  obtain ⟨state, hstate, h⟩ := bind_eq_ok.1 h
  obtain ⟨pieces, hpieces, h⟩ := bind_eq_ok.1 h
  obtain ⟨-, h⟩ | ⟨-, h⟩ := ite_eq_ok.1 h
  · rw [← pure_eq_ok.1 h, readTaskState_eq hstate, readDeltas_eq hpieces]
    rfl
  · cases h

/-- What a task shows in its `metadata` is every event that is not mapped. -/
theorem overflow_all {holds : Json → Bool} : ((events.filter fun e => (textDeltaOf e).isNone && !isMapped e).all holds) =
    true ↔ ∀ e ∈ events, isMapped e = false → holds e = true := by
  have hnone : ∀ e, isMapped e = false → (textDeltaOf e).isNone = true := by
    intro e he
    unfold textDeltaOf
    rw [if_neg]
    · rfl
    · intro htext
      simp [isMapped, htext] at he
  simp only [List.all_eq_true, List.mem_filter, Bool.and_eq_true, Bool.not_eq_true']
  constructor
  · intro h e he hmapped
    exact h e ⟨he, hnone e hmapped, hmapped⟩
  · rintro h e ⟨he, -, hmapped⟩
    exact h e he hmapped

/-- What `build_task` needs: the state, the pieces, and room in `metadata`. -/
theorem readBuildTask_isOk {holds : Json → Bool} {taskId contextId : String} {runStatus : Status}
    {threadMessages tailEvents : List Json} {historyLength : Option Int} {cancelRequested : Bool} :
    (∃ task, readBuildTask holds taskId contextId runStatus events threadMessages historyLength
      cancelRequested tailEvents = .ok task) ↔
    (∃ state, readTaskState runStatus tailEvents cancelRequested = .ok state) ∧
      (∃ pieces, readDeltas events = .ok pieces) ∧
        ∀ e ∈ events, isMapped e = false → holds e = true := by
  rw [← overflow_all]
  constructor
  · rintro ⟨task, h⟩
    obtain ⟨state, hstate, h⟩ := bind_eq_ok.1 h
    obtain ⟨pieces, hpieces, h⟩ := bind_eq_ok.1 h
    obtain ⟨hholds, -⟩ | ⟨-, h⟩ := ite_eq_ok.1 h
    · exact ⟨⟨state, hstate⟩, ⟨pieces, hpieces⟩, hholds⟩
    · cases h
  · rintro ⟨⟨state, hstate⟩, ⟨pieces, hpieces⟩, hholds⟩
    unfold readBuildTask
    rw [hstate]
    show ∃ task, (readDeltas events).bind _ = .ok task
    rw [hpieces]
    simp only [Except.bind, hholds, if_true]
    exact ⟨_, rfl⟩

theorem readTaskState_isOk {status : Status} {cancelRequested : Bool}
    (h : ∃ asks, readOpenAsks events = .ok asks) :
    ∃ state, readTaskState status events cancelRequested = .ok state := by
  obtain ⟨asks, hasks⟩ := h
  unfold readTaskState
  split
  · rw [hasks]
    exact ⟨_, rfl⟩
  · exact ⟨_, rfl⟩

end Funduq.A2A
