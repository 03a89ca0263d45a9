import Funduq.A2A.Readers

/-!
# What the record accepts and what its readers can read

`_handle_relay` has AG-UI's models validate an event and stores it as it came.  The
models take a field by its alias or by its Python name, the readers know the alias only:
an event under Python names is recorded, and from then on no reader of the thread
returns (`readers_return_iff`, `recorded_but_unread`).
-/

namespace Funduq.A2A

open Funduq.Lib Funduq.Doors
open Funduq.Broker (Status Reported Run Write hasType runFinished handleRelay malformed)

/-- The event was relayed by a run, and written down. -/
def Recorded (cfg : Broker.Config) (event : Json) : Prop :=
  ∃ (run : Run) (write : Write) (seq : Nat), (handleRelay cfg run (.json event)).2 = some write ∧
    write.event = some (seq, event)

/-- The types of event the readers look at. -/
def readTypes : List String :=
  textFields.map Prod.fst ++ ["TEXT_MESSAGE_CHUNK", runFinished]

/-- What AG-UI's models make sure of: they know the types the readers look at, and in an
event they accept what is found under a field's alias is what the field takes. -/
structure Validates (cfg : Broker.Config) : Prop where
  known : ∀ tag ∈ readTypes, tag ∈ cfg.knownEventTypes
  typed : ∀ event, cfg.validEvent (.json event) = true → Typed event
  piece : ∀ event, cfg.validEvent (.json event) = true → isText event = true → Piece event
  outcome : ∀ event, cfg.validEvent (.json event) = true → hasType runFinished event = true →
    Outcome event

variable {cfg : Broker.Config} {event : Json} {events : List Json} {holds : Json → Bool}

/-- What is recorded is an object that was not refused. -/
theorem Recorded.accepted (h : Recorded cfg event) :
    (Reported.json event).dict? = some event ∧ malformed cfg (.json event) = false := by
  obtain ⟨run, write, seq, hwrite, hevent⟩ := h
  unfold handleRelay at hwrite
  cases hm : malformed cfg (.json event) with
  | true =>
      rw [hm] at hwrite
      cases hwrite
  | false =>
      rw [hm] at hwrite
      cases hd : (Reported.json event).dict? with
      | none =>
          rw [hd] at hwrite
          cases hwrite
      | some e =>
          rw [hd] at hwrite
          cases hwrite
          cases hevent
          exact ⟨rfl, rfl⟩

/-- An event of a type AG-UI knows is recorded only if AG-UI accepts it. -/
theorem Recorded.valid (hv : Validates cfg) (h : Recorded cfg event) {tag : String}
    (hmem : tag ∈ readTypes) (htype : hasType tag event = true) :
    cfg.validEvent (.json event) = true := by
  obtain ⟨hdict, hm⟩ := h.accepted
  have htag : (Reported.json event).typeTag = some tag := by
    unfold Reported.typeTag
    rw [hdict]
    exact of_decide_eq_true htype
  unfold malformed at hm
  rw [htag] at hm
  simpa [hv.known tag hmem] using hm

theorem Recorded.typed (hv : Validates cfg) (h : Recorded cfg event) : Typed event := by
  intro f hf htype
  refine hv.typed event (h.valid hv ?_ htype) f hf htype
  exact List.mem_append_left _ (List.mem_map_of_mem hf)

theorem Recorded.piece (hv : Validates cfg) (h : Recorded cfg event) (htext : isText event = true) :
    Piece event := by
  refine hv.piece event ?_ htext
  rcases Bool.or_eq_true _ _ ▸ htext with hc | hc
  · exact h.valid hv (by decide) hc
  · exact h.valid hv (by decide) hc

theorem Recorded.outcome (hv : Validates cfg) (h : Recorded cfg event)
    (htype : hasType runFinished event = true) : Outcome event :=
  hv.outcome event (h.valid hv (by decide) htype) htype

/-- Every reader returns, whatever it is asked: the two readers of asks, the reducer, and
the task, which a lineage's last events give its state. -/
structure AllRead (holds : Json → Bool) (events : List Json) : Prop where
  openAsks : ∃ asks, readOpenAsks events = .ok asks
  answeredAsks : ∀ messages resume, Accepted messages resume →
    ∃ answered, readAnsweredAsks messages resume events = .ok answered
  history : ∃ history, reduceEventsToMessages events = .ok history
  task : ∀ taskId contextId runStatus threadMessages historyLength cancelRequested tailEvents,
    tailEvents <:+ events → ∃ task, readBuildTask holds taskId contextId runStatus events
      threadMessages historyLength cancelRequested tailEvents = .ok task

/-- Where the reducer returns, every tool call has its id. -/
theorem call_of_readable (hty : ∀ e ∈ events, Typed e) (h : Readable events) {e : Json}
    (he : e ∈ events) (hcall : namesCall e = true) : ∃ id, required e "toolCallId" = .ok id := by
  obtain ⟨before, after, rfl⟩ := List.append_of_mem he
  have hkeys := h before e after rfl
  have hasId : (e.get? "toolCallId").isSome = true := by
    refine hkeys "toolCallId" ?_
    rcases Bool.or_eq_true _ _ ▸ hcall with hs | hr
    · simp [keysRead, Reduction.hasType_eq hs]
    · simp [keysRead, Reduction.hasType_eq hr]
  refine (required_isOk ?_).2 hasId
  rcases Bool.or_eq_true _ _ ▸ hcall with hs | hr
  · exact (hty e he).field hs "toolCallId" (by decide)
  · exact (hty e he).field hr "toolCallId" (by decide)

theorem asks_of_readable (hty : ∀ e ∈ events, Typed e)
    (hout : ∀ e ∈ events, hasType runFinished e = true → Outcome e) (h : Readable events)
    {tail : List Json} (htail : tail <:+ events) : ∃ asks, readOpenAsks tail = .ok asks := by
  have hmem : ∀ e ∈ tail, e ∈ events := fun e => htail.mem
  refine readOpenAsks_isOk (readCalls_isOk.2 fun e he => ?_) fun e he => hout e (hmem e he)
  exact call_of_readable hty h (hmem e he)

/-- Every reader of a record returns exactly where each event has the keys the reducer
asks it for, each text that stands in for an empty `delta` is a text, and `metadata` has
room for what a task shows there. -/
theorem readers_return_iff (hv : Validates cfg) (hrec : ∀ e ∈ events, Recorded cfg e) :
    AllRead holds events ↔ Readable events ∧
      (∀ e ∈ events, isText e = true → TextReadable e) ∧
      ∀ e ∈ events, isMapped e = false → holds e = true := by
  have hty : ∀ e ∈ events, Typed e := fun e he => (hrec e he).typed hv
  have hpiece : ∀ e ∈ events, isText e = true → Piece e := fun e he => (hrec e he).piece hv
  have hout : ∀ e ∈ events, hasType runFinished e = true → Outcome e :=
    fun e he => (hrec e he).outcome hv
  rw [← readDeltas_isOk hpiece, ← reduces_iff hty]
  constructor
  · intro h
    have htask := h.task "" "" .queued [] none false events (List.suffix_refl events)
    exact ⟨h.history, (readBuildTask_isOk.1 htask).2⟩
  · rintro ⟨hhistory, hpieces, hholds⟩
    have hasks : ∀ tail, tail <:+ events → ∃ asks, readOpenAsks tail = .ok asks := by
      intro tail htail
      exact asks_of_readable hty hout ((reduces_iff hty).1 hhistory) htail
    refine ⟨hasks events (List.suffix_refl events), fun messages resume hreq => ?_, hhistory, ?_⟩
    · exact readAnsweredAsks_isOk hreq hout
    · intro taskId contextId runStatus threadMessages historyLength cancelRequested tail htail
      exact readBuildTask_isOk.2 ⟨readTaskState_isOk (hasks tail htail), hpieces, hholds⟩

/-! ## An event under Python names -/

namespace Demo

/-- The name of a field in Python, where it is not its alias. -/
def pythonName : String → String
  | "messageId" => "message_id"
  | "toolCallId" => "tool_call_id"
  | "toolCallName" => "tool_call_name"
  | "entityId" => "entity_id"
  | "encryptedValue" => "encrypted_value"
  | key => key

/-- A text, under its alias or else under its Python name. -/
def text (event : Json) (key : String) : Bool :=
  match event.get? key with
  | some value => value.str?.isSome
  | none => (event.getStr? (pythonName key)).isSome

/-- A text that may be missing. -/
def maybeText (event : Json) (key : String) : Bool :=
  match event.get? key with
  | some .null => true
  | some value => value.str?.isSome
  | none => true

/-- The fields of each event are what they are to be.  No event here finishes on an
outcome. -/
def accepts (event : Json) : Bool :=
  (textFields.all fun f => !hasType f.1 event || f.2.all (text event)) &&
    (!isText event || maybeText event "messageId" && maybeText event "delta") &&
      (!hasType runFinished event || (event.get? "outcome").isNone)

def models : Broker.Config where
  qualityTolerance := none
  unservedTimeout := 30
  knownEventTypes := readTypes
  validEvent
    | .json event => accepts event
    | .eventObject _ => false
  inputError := fun _ => none

theorem textual_of_maybeText {key : String} (h : maybeText event key = true) :
    Textual event key := by
  intro v hv
  unfold maybeText at h
  rw [hv] at h
  cases v with
  | null => exact .inl rfl
  | str s => exact .inr ⟨s, rfl⟩
  | _ => cases h

theorem accepts_iff : models.validEvent (.json event) = true ↔
    ((textFields.all fun f => !hasType f.1 event || f.2.all (text event)) = true ∧
      (!isText event || maybeText event "messageId" && maybeText event "delta") = true) ∧
        (!hasType runFinished event || (event.get? "outcome").isNone) = true := by
  show accepts event = true ↔ _
  unfold accepts
  rw [Bool.and_eq_true, Bool.and_eq_true]

theorem models_validate : Validates models where
  known := fun tag hmem => hmem
  typed := by
    intro event h f hf htype key hkey v hv
    obtain ⟨⟨h, -⟩, -⟩ := accepts_iff.1 h
    have hall := List.all_eq_true.1 h f hf
    rw [htype] at hall
    have htext : text event key = true := List.all_eq_true.1 hall key hkey
    unfold text at htext
    rw [hv] at htext
    cases v with
    | str s => exact ⟨s, rfl⟩
    | _ => cases htext
  piece := by
    intro event h htext
    obtain ⟨⟨-, h⟩, -⟩ := accepts_iff.1 h
    rw [htext] at h
    obtain ⟨hid, hdelta⟩ := Bool.and_eq_true _ _ ▸ h
    exact ⟨textual_of_maybeText hid, textual_of_maybeText hdelta⟩
  outcome := by
    intro event h htype outcome hget
    obtain ⟨-, h⟩ := accepts_iff.1 h
    rw [htype, hget] at h
    cases h

/-- A text, a tool call and its result. -/
def talk : List Json :=
  [.obj [("type", .str "TEXT_MESSAGE_CONTENT"), ("messageId", .str "m"), ("delta", .str "hi")],
    .obj [("type", .str "TOOL_CALL_START"), ("toolCallId", .str "c"), ("toolCallName", .str "f")],
    .obj [("type", .str "TOOL_CALL_RESULT"), ("messageId", .str "r"), ("content", .str "1"),
      ("toolCallId", .str "c")],
    .obj [("type", .str runFinished)]]

/-- A tool call as Python spells it. -/
def pythonCall : List Json :=
  [.obj [("type", .str "TOOL_CALL_START"), ("tool_call_id", .str "c"),
      ("tool_call_name", .str "f")],
    .obj [("type", .str runFinished)]]

/-- What a fresh run is told of is recorded if it is not refused. -/
theorem recorded_of {members : List (String × Json)}
    (h : malformed models (.json (.obj members)) = false) : Recorded models (.obj members) := by
  let run : Run := { agent := ⟨"", ""⟩, threadId := "t", inputJson := .null, queuedAt := 0 }
  have hwrites : ∃ seq, (handleRelay models run (.json (.obj members))).2 =
      some { event := some (seq, .obj members) } := by
    unfold handleRelay
    rw [h]
    exact ⟨_, rfl⟩
  obtain ⟨seq, hseq⟩ := hwrites
  exact ⟨run, _, seq, hseq, rfl⟩

end Demo

theorem readers_return_iff_talk : AllRead (fun _ => true) Demo.talk := by
  have hrec : ∀ e ∈ Demo.talk, Recorded Demo.models e := by
    intro e he
    simp only [Demo.talk, List.mem_cons, List.not_mem_nil, or_false] at he
    rcases he with rfl | rfl | rfl | rfl <;> exact Demo.recorded_of (by decide)
  refine (readers_return_iff Demo.models_validate hrec).2 ⟨?_, by decide, fun _ _ _ => rfl⟩
  exact (reduces_iff fun e he => (hrec e he).typed Demo.models_validate).1 ⟨_, rfl⟩

/-- A tool call under Python names is recorded.  No reader but the one that looks at
interrupts alone returns from then on. -/
theorem recorded_but_unread :
    Validates Demo.models ∧ (∀ e ∈ Demo.pythonCall, Recorded Demo.models e) ∧
      readOpenAsks Demo.pythonCall = .error (.keyError "toolCallId") ∧
      reduceEventsToMessages Demo.pythonCall = .error (.keyError "toolCallId") ∧
      readBuildTask (fun _ => true) "t" "t" .completed Demo.pythonCall [] none false
        Demo.pythonCall = .error (.keyError "toolCallId") ∧
      ¬ AllRead (fun _ => true) Demo.pythonCall := by
  refine ⟨Demo.models_validate, ?_, rfl, rfl, rfl, fun h => ?_⟩
  · intro e he
    simp only [Demo.pythonCall, List.mem_cons, List.not_mem_nil, or_false] at he
    rcases he with rfl | rfl <;> exact Demo.recorded_of (by decide)
  · obtain ⟨history, hhistory⟩ := h.history
    cases hhistory

end Funduq.A2A
