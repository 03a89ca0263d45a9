import Funduq.Broker.Handlers
import Funduq.Doors.Input
import Funduq.Doors.Reduce

/-!
# When the reducer returns

Which keys the reducer asks an event for depends on what came before in one place only:
an encrypted value is looked at if the message or the tool call it belongs to is there.
Both are read off the events (`speaksOf`, `standsUnder`), and the reducer's tables agree
with them (`Matches`).  So it returns exactly when each event has the keys it is asked
for (`reduces_iff`).
-/

namespace Funduq.Doors

open Funduq.Lib
open Funduq.Broker (hasType)

/-! ## What the events say -/

/-- The message a tool call is announced under. -/
def parentId (event : Json) : String :=
  ((event.getStr? "parentMessageId").filter (· ≠ "")).getD
    ((event.getStr? "toolCallId").getD "")

/-- The types of event that bring in the message they name. -/
def messageTypes : List String :=
  ["TEXT_MESSAGE_START", "TEXT_MESSAGE_CONTENT", "REASONING_MESSAGE_START",
    "REASONING_MESSAGE_CONTENT", "TOOL_CALL_RESULT"]

/-- The message an event is about. -/
def messageOf (event : Json) : Option String :=
  if hasType "TOOL_CALL_START" event then some (parentId event)
  else if messageTypes.any fun tag => hasType tag event then event.getStr? "messageId"
  else none

/-- The text an event adds to the message it is about. -/
def addedBy (event : Json) : String :=
  if hasType "TEXT_MESSAGE_CONTENT" event || hasType "REASONING_MESSAGE_CONTENT" event then
    (event.getStr? "delta").getD ""
  else ""

/-- The text of a message after one more event: a tool result takes its place. -/
def contentAfter (id : String) (text : Option String) (event : Json) : Option String :=
  if messageOf event = some id then
    some (if hasType "TOOL_CALL_RESULT" event then (event.getStr? "content").getD ""
      else text.getD "" ++ addedBy event)
  else text

/-- A message of this id has been spoken of. -/
def speaksOf (events : List Json) (id : String) : Prop := ∃ e ∈ events, messageOf e = some id

instance (events : List Json) (id : String) : Decidable (speaksOf events id) := by
  unfold speaksOf
  infer_instance

/-- Where a tool call stands after one more event: under the message it was announced
under last, until a tool result takes that message's place. -/
def standsAfter (call : String) (parent : Option String) (event : Json) : Option String :=
  if hasType "TOOL_CALL_START" event then
    if event.getStr? "toolCallId" = some call then some (parentId event) else parent
  else if hasType "TOOL_CALL_RESULT" event then
    parent.filter fun p => event.getStr? "messageId" ≠ some p
  else parent

def standsUnder (call : String) (events : List Json) : Option String :=
  events.foldl (standsAfter call) none

/-- The entity of an encrypted value is there. -/
def Holds (events : List Json) (event : Json) : Prop :=
  if event.getStr? "subtype" = some "message" then
    speaksOf events ((event.getStr? "entityId").getD "")
  else (standsUnder ((event.getStr? "entityId").getD "") events).isSome = true

instance (events : List Json) (event : Json) : Decidable (Holds events event) := by
  unfold Holds
  infer_instance

/-- The keys the reducer asks an event for, after these events. -/
def keysRead (events : List Json) (event : Json) : List String :=
  if hasType "TEXT_MESSAGE_START" event then ["messageId"]
  else if hasType "TEXT_MESSAGE_CONTENT" event then ["messageId"]
  else if hasType "REASONING_MESSAGE_START" event then ["messageId"]
  else if hasType "REASONING_MESSAGE_CONTENT" event then ["messageId"]
  else if hasType "REASONING_ENCRYPTED_VALUE" event then
    ["entityId", "subtype"] ++ if Holds events event then ["encryptedValue"] else []
  else if hasType "TOOL_CALL_START" event then ["toolCallId", "toolCallName"]
  else if hasType "TOOL_CALL_ARGS" event then ["toolCallId"]
  else if hasType "TOOL_CALL_RESULT" event then ["messageId", "toolCallId"]
  else []

/-- An event has the keys it is asked for. -/
def HasKeys (events : List Json) (event : Json) : Prop :=
  ∀ key ∈ keysRead events event, (event.get? key).isSome = true

instance (events : List Json) (event : Json) : Decidable (HasKeys events event) := by
  unfold HasKeys
  infer_instance

/-- Every event of a list has the keys it is asked for where it stands. -/
def Readable (events : List Json) : Prop :=
  ∀ before event after, events = before ++ event :: after → HasKeys before event

/-! ## The fields of a valid event -/

/-- The text fields of AG-UI's events the reducer reads, under the keys it reads them. -/
def textFields : List (String × List String) :=
  [("TEXT_MESSAGE_START", ["messageId"]),
    ("TEXT_MESSAGE_CONTENT", ["messageId", "delta"]),
    ("REASONING_MESSAGE_START", ["messageId"]),
    ("REASONING_MESSAGE_CONTENT", ["messageId", "delta"]),
    ("REASONING_ENCRYPTED_VALUE", ["entityId", "subtype", "encryptedValue"]),
    ("TOOL_CALL_START", ["toolCallId", "toolCallName"]),
    ("TOOL_CALL_ARGS", ["toolCallId", "delta"]),
    ("TOOL_CALL_RESULT", ["messageId", "content", "toolCallId"])]

/-- Each text field of an event that is there under its key is a string. -/
def Typed (event : Json) : Prop :=
  ∀ f ∈ textFields, hasType f.1 event = true → ∀ key ∈ f.2, ∀ value,
    event.get? key = some value → ∃ s, value = .str s

variable {event : Json} {key : String}

theorem required_eq_ok {s : String} : required event key = .ok s ↔ event.getStr? key = some s := by
  unfold required Json.getStr?
  cases event.get? key with
  | none => simp
  | some value => cases value <;> simp [Json.str?]

/-- A field that is a string if it is there is read if it is there. -/
theorem required_isOk (h : ∀ value, event.get? key = some value → ∃ s, value = .str s) :
    (∃ s, required event key = .ok s) ↔ (event.get? key).isSome = true := by
  unfold required
  cases hget : event.get? key with
  | none => simp
  | some value =>
      obtain ⟨s, rfl⟩ := h value hget
      simp

theorem textOrEmpty_isOk (h : ∀ value, event.get? key = some value → ∃ s, value = .str s) :
    ∃ s, textOrEmpty event key = .ok s := by
  unfold textOrEmpty
  cases hget : event.get? key with
  | none => exact ⟨"", rfl⟩
  | some value =>
      obtain ⟨s, rfl⟩ := h value hget
      exact ⟨s, rfl⟩

theorem textOrEmpty_eq {text : String} (h : textOrEmpty event key = .ok text) :
    text = (event.getStr? key).getD "" := by
  unfold textOrEmpty at h
  unfold Json.getStr?
  cases hget : event.get? key with
  | none =>
      rw [hget] at h
      exact (Except.ok.inj h).symm
  | some value =>
      rw [hget] at h
      cases value with
      | str s => exact (Except.ok.inj h).symm
      | _ => cases h

/-- What is known of a text field of this type of event. -/
theorem Typed.field {tag : String} (hty : Typed event) (h : hasType tag event = true)
    (key : String) (hkey : ∃ f ∈ textFields, f.1 = tag ∧ key ∈ f.2) :
    ∀ value, event.get? key = some value → ∃ s, value = .str s := by
  obtain ⟨f, hf, rfl, hmem⟩ := hkey
  exact hty f hf h key hmem

namespace Reduction

variable {r : Reduction} {id call role : String}

/-! ## The tables follow the events -/

/-- The tables after these events. -/
structure Matches (events : List Json) (r : Reduction) : Prop where
  messages : ∀ id, r.has id ↔ speaksOf events id
  calls : ∀ call, r.parentOf call = standsUnder call events

theorem Matches.nil : Matches [] {} := by
  refine ⟨fun id => ⟨nofun, fun ⟨_, h, _⟩ => nomatch h⟩, fun call => rfl⟩

/-- What one event does to the tables. -/
structure Does (event : Json) (r r' : Reduction) : Prop where
  messages : ∀ id, r'.has id ↔ messageOf event = some id ∨ r.has id
  calls : ∀ call, r'.parentOf call = standsAfter call (r.parentOf call) event
  contents : ∀ id, r'.contentOf id = contentAfter id (r.contentOf id) event

theorem Matches.step {events : List Json} {r' : Reduction} (h : Matches events r)
    (hd : Does event r r') : Matches (events ++ [event]) r' := by
  refine ⟨fun id => ?_, fun call => ?_⟩
  · rw [hd.messages, h.messages]
    unfold speaksOf
    simp only [List.mem_append, List.mem_singleton, or_and_right, exists_or, exists_eq_left]
    exact or_comm
  · rw [hd.calls, h.calls]
    unfold standsUnder
    rw [List.foldl_append]
    rfl

theorem hasType_eq {tag : String} (h : hasType tag event = true) (other : String) :
    hasType other event = decide (tag = other) := by
  unfold hasType at h ⊢
  rw [of_decide_eq_true h]
  simp

/-- An event of a type that brings in the message it names. -/
theorem messageOf_named {tag : String} (h : hasType tag event = true)
    (hmem : tag ∈ messageTypes) : messageOf event = event.getStr? "messageId" := by
  have hno : hasType "TOOL_CALL_START" event = false := by
    rw [hasType_eq h]
    apply decide_eq_false
    rintro rfl
    exact absurd hmem (by decide)
  unfold messageOf
  rw [hno, if_neg nofun, if_pos (List.any_eq_true.2 ⟨tag, hmem, h⟩)]

/-- An event that is about no message and no tool call. -/
theorem Does.of_nothing (hstart : hasType "TOOL_CALL_START" event = false)
    (hmessage : ∀ tag ∈ messageTypes, hasType tag event = false) {r' : Reduction}
    (hhas : ∀ id, r'.has id ↔ r.has id) (hparent : ∀ call, r'.parentOf call = r.parentOf call)
    (hcontent : ∀ id, r'.contentOf id = r.contentOf id) : Does event r r' := by
  have hnone : messageOf event = none := by
    unfold messageOf
    rw [hstart, if_neg nofun, if_neg]
    rw [List.any_eq_true]
    rintro ⟨tag, hmem, htag⟩
    rw [hmessage tag hmem] at htag
    cases htag
  refine ⟨fun id => ?_, fun call => ?_, fun id => ?_⟩
  · rw [hhas, hnone]
    simp
  · unfold standsAfter
    rw [hparent, hstart, hmessage "TOOL_CALL_RESULT" (by decide)]
    rfl
  · rw [hcontent, contentAfter, hnone]
    rfl

/-- An event that names a message, and is no tool result. -/
theorem Does.of_message {tag id : String} (h : hasType tag event = true)
    (hmem : tag ∈ messageTypes) (hresult : tag ≠ "TOOL_CALL_RESULT")
    (hid : event.getStr? "messageId" = some id) {r' : Reduction}
    (hhas : ∀ id', r'.has id' ↔ id = id' ∨ r.has id')
    (hparent : ∀ call, r'.parentOf call = r.parentOf call)
    (hcontent : ∀ id', r'.contentOf id' =
      if id = id' then some ((r.contentOf id').getD "" ++ addedBy event) else r.contentOf id') :
    Does event r r' := by
  have hstart : hasType "TOOL_CALL_START" event = false := by
    rw [hasType_eq h]
    apply decide_eq_false
    rintro rfl
    exact absurd hmem (by decide)
  refine ⟨fun id' => ?_, fun call => ?_, fun id' => ?_⟩
  · rw [hhas, messageOf_named h hmem, hid, Option.some.injEq]
  · unfold standsAfter
    rw [hparent, hstart, hasType_eq h, decide_eq_false hresult]
    rfl
  · have hother : hasType "TOOL_CALL_RESULT" event = false := by
      rw [hasType_eq h, decide_eq_false hresult]
    rw [hcontent, contentAfter, messageOf_named h hmem, hid, hother]
    simp only [Option.some.injEq, Bool.false_eq_true, if_false]

section Step

variable {events : List Json} {tag : String}

/-- The reducer takes this event in, and does to its tables what the event says, exactly
where the event has the keys it is asked for. -/
structure Steps (events : List Json) (event : Json) (r : Reduction) : Prop where
  returns : (∃ r', r.step event = .ok r') ↔ HasKeys events event
  does : ∀ r', r.step event = .ok r' → Does event r r'

/-- An event that brings in the message it names, and nothing else that is asked for. -/
theorem steps_start (role : String) (h : hasType tag event = true) (hmem : tag ∈ messageTypes)
    (hresult : tag ≠ "TOOL_CALL_RESULT") (hcontent : tag ≠ "TEXT_MESSAGE_CONTENT")
    (hreasoning : tag ≠ "REASONING_MESSAGE_CONTENT")
    (hstr : ∀ value, event.get? "messageId" = some value → ∃ s, value = .str s)
    (hkeys : keysRead events event = ["messageId"])
    (hstep : r.step event = (required event "messageId").map fun id => r.assistantMessage id role) :
    Steps events event r := by
  refine ⟨?_, fun r' hr' => ?_⟩
  · unfold HasKeys
    rw [hkeys, hstep]
    simpa using required_isOk hstr
  · rw [hstep, map_eq_ok] at hr'
    obtain ⟨id, hget, rfl⟩ := hr'
    have hadded : addedBy event = "" := by
      unfold addedBy
      rw [hasType_eq h, hasType_eq h, decide_eq_false hcontent, decide_eq_false hreasoning]
      rfl
    refine .of_message h hmem hresult (required_eq_ok.1 hget) (fun _ => has_assistantMessage)
      (fun _ => parentOf_assistantMessage) fun id' => ?_
    rw [contentOf_assistantMessage, hadded, String.append_empty]

/-- An event that adds to the message it names. -/
theorem steps_content (role : String) (h : hasType tag event = true) (hmem : tag ∈ messageTypes)
    (hresult : tag ≠ "TOOL_CALL_RESULT")
    (hcontent : tag = "TEXT_MESSAGE_CONTENT" ∨ tag = "REASONING_MESSAGE_CONTENT")
    (hstr : ∀ value, event.get? "messageId" = some value → ∃ s, value = .str s)
    (hdelta : ∀ value, event.get? "delta" = some value → ∃ s, value = .str s)
    (hkeys : keysRead events event = ["messageId"])
    (hstep : r.step event = do
      let id ← required event "messageId"
      let delta ← textOrEmpty event "delta"
      return r.add id role delta) : Steps events event r := by
  obtain ⟨delta, hdelta⟩ := textOrEmpty_isOk hdelta
  have hadded : addedBy event = delta := by
    have hone : (hasType "TEXT_MESSAGE_CONTENT" event ||
        hasType "REASONING_MESSAGE_CONTENT" event) = true := by
      rcases hcontent with rfl | rfl
      · rw [h, Bool.true_or]
      · rw [h, Bool.or_true]
    unfold addedBy
    rw [if_pos hone, textOrEmpty_eq hdelta]
  have hstep' : r.step event = (required event "messageId").map fun id => r.add id role delta := by
    rw [hstep, hdelta]
    cases required event "messageId" <;> rfl
  refine ⟨?_, fun r' hr' => ?_⟩
  · unfold HasKeys
    rw [hkeys, hstep']
    simpa using required_isOk hstr
  · rw [hstep', map_eq_ok] at hr'
    obtain ⟨id, hget, rfl⟩ := hr'
    refine .of_message h hmem hresult (required_eq_ok.1 hget) (fun _ => has_add)
      (fun _ => parentOf_add) fun id' => ?_
    rw [contentOf_add, hadded]

theorem steps_announce (h : hasType "TOOL_CALL_START" event = true) (hty : Typed event) :
    Steps events event r := by
  have hcall := hty.field h "toolCallId" (by decide)
  have hname := hty.field h "toolCallName" (by decide)
  have hkeys : keysRead events event = ["toolCallId", "toolCallName"] := by
    simp [keysRead, hasType_eq h]
  have hstep : r.step event = (required event "toolCallId").bind fun call =>
      (required event "toolCallName").map fun name => r.announce call
        (((event.getStr? "parentMessageId").filter (· ≠ "")).getD call) name := by
    simp only [step, hasType_eq h]
    rfl
  refine ⟨?_, fun r' hr' => ?_⟩
  · unfold HasKeys
    rw [hkeys, hstep]
    simp only [List.mem_cons, List.not_mem_nil, or_false, forall_eq_or_imp, forall_eq,
      ← required_isOk hcall, ← required_isOk hname]
    constructor
    · rintro ⟨r', hr'⟩
      obtain ⟨call, hc, hr'⟩ := bind_eq_ok.1 hr'
      obtain ⟨name, hn, -⟩ := map_eq_ok.1 hr'
      exact ⟨⟨call, hc⟩, name, hn⟩
    · rintro ⟨⟨call, hc⟩, name, hn⟩
      rw [hc, hn]
      exact ⟨_, rfl⟩
  · rw [hstep] at hr'
    obtain ⟨call, hc, hr'⟩ := bind_eq_ok.1 hr'
    obtain ⟨name, hn, rfl⟩ := map_eq_ok.1 hr'
    have hcall' := required_eq_ok.1 hc
    have hparent : parentId event =
        ((event.getStr? "parentMessageId").filter (· ≠ "")).getD call := by
      unfold parentId
      rw [hcall']
      rfl
    have hmessage : messageOf event = some (parentId event) := if_pos h
    have hadded : addedBy event = "" := by
      unfold addedBy
      rw [hasType_eq h, hasType_eq h]
      rfl
    have hother : hasType "TOOL_CALL_RESULT" event = false := by
      rw [hasType_eq h]
      rfl
    refine ⟨fun id => ?_, fun call' => ?_, fun id => ?_⟩
    · rw [has_announce, hmessage, Option.some.injEq, hparent]
    · simp only [parentOf_announce, standsAfter, if_pos h, hcall', Option.some.injEq, hparent]
    · rw [contentOf_announce, contentAfter, hmessage, hother, hadded, String.append_empty, hparent]
      simp only [Option.some.injEq, Bool.false_eq_true, if_false]

theorem steps_answer (h : hasType "TOOL_CALL_RESULT" event = true) (hty : Typed event) :
    Steps events event r := by
  have hid := hty.field h "messageId" (by decide)
  have hcall := hty.field h "toolCallId" (by decide)
  obtain ⟨content, hcontent⟩ :=
    textOrEmpty_isOk (hty.field h "content" (by decide))
  have hkeys : keysRead events event = ["messageId", "toolCallId"] := by
    simp [keysRead, hasType_eq h]
  have hstep : r.step event = (required event "messageId").bind fun id =>
      (required event "toolCallId").map fun call => r.answer id content call := by
    simp only [step, hasType_eq h, hcontent]
    rfl
  refine ⟨?_, fun r' hr' => ?_⟩
  · unfold HasKeys
    rw [hkeys, hstep]
    simp only [List.mem_cons, List.not_mem_nil, or_false, forall_eq_or_imp, forall_eq,
      ← required_isOk hid, ← required_isOk hcall]
    constructor
    · rintro ⟨r', hr'⟩
      obtain ⟨id, hi, hr'⟩ := bind_eq_ok.1 hr'
      obtain ⟨call, hc, -⟩ := map_eq_ok.1 hr'
      exact ⟨⟨id, hi⟩, call, hc⟩
    · rintro ⟨⟨id, hi⟩, call, hc⟩
      rw [hi, hc]
      exact ⟨_, rfl⟩
  · rw [hstep] at hr'
    obtain ⟨id, hi, hr'⟩ := bind_eq_ok.1 hr'
    obtain ⟨call, hc, rfl⟩ := map_eq_ok.1 hr'
    have hid' := required_eq_ok.1 hi
    have hstart : hasType "TOOL_CALL_START" event = false := by
      rw [hasType_eq h]
      rfl
    refine ⟨fun id' => ?_, fun call' => ?_, fun id' => ?_⟩
    · rw [has_answer, messageOf_named h (by decide), hid', Option.some.injEq]
    · rw [parentOf_answer, standsAfter, hstart, if_neg (by simp), if_pos h, hid']
      congr 1
      funext p
      simp [eq_comm]
    · rw [contentOf_answer, contentAfter, messageOf_named h (by decide), hid', textOrEmpty_eq hcontent]
      simp only [Option.some.injEq, h, if_true]

theorem steps_args (h : hasType "TOOL_CALL_ARGS" event = true) (hty : Typed event) :
    Steps events event r := by
  have hcall := hty.field h "toolCallId" (by decide)
  obtain ⟨delta, hdelta⟩ := textOrEmpty_isOk (hty.field h "delta" (by decide))
  have hkeys : keysRead events event = ["toolCallId"] := by simp [keysRead, hasType_eq h]
  have hstep : r.step event = (required event "toolCallId").map fun call =>
      (r.parentOf call).elim r fun parent => r.change parent fun m => { m with
        toolCalls := changeCall (fun c => { c with arguments := c.arguments ++ delta }) call
          m.toolCalls } := by
    simp only [step, hasType_eq h, hdelta]
    cases required event "toolCallId" with
    | error e => rfl
    | ok call =>
        show _ = Except.ok ((r.parentOf call).elim _ _)
        simp only [bind, Except.bind, pure, Except.pure, decide_eq_true_eq]
        cases r.parentOf call <;> rfl
  refine ⟨?_, fun r' hr' => ?_⟩
  · unfold HasKeys
    rw [hkeys, hstep]
    simpa using required_isOk hcall
  · rw [hstep] at hr'
    obtain ⟨call, -, rfl⟩ := map_eq_ok.1 hr'
    have hmessage : ∀ tag ∈ messageTypes, hasType tag event = false := by
      intro tag hmem
      rw [hasType_eq h]
      apply decide_eq_false
      rintro rfl
      exact absurd hmem (by decide)
    refine .of_nothing (by rw [hasType_eq h]; rfl) hmessage (fun id => ?_) (fun call' => ?_)
      fun id => ?_
    · cases r.parentOf call with
      | none => rfl
      | some parent => exact has_change
    · cases r.parentOf call with
      | none => rfl
      | some parent => exact parentOf_change fun m => any_changeCall _ (by intro; rfl) _ _ _
    · cases r.parentOf call with
      | none => rfl
      | some parent => exact contentOf_keep (by intro; rfl)

/-- What the reducer makes of an encrypted value whose entity and kind it has read. -/
def encrypted (event : Json) (r : Reduction) (entity subtype : String) :
    Except ReadError Reduction :=
  if subtype = "message" then
    if (r.messages.get? entity).isSome then
      (required event "encryptedValue").map fun value =>
        r.change entity fun m => { m with encryptedValue := some value }
    else .ok r
  else
    match r.parentOf entity with
    | none => .ok r
    | some parent => (required event "encryptedValue").map fun value =>
        r.change parent fun m => { m with
          toolCalls := changeCall (fun c => { c with encryptedValue := some value }) entity
            m.toolCalls }

/-- It asks for the value where the entity is there, and moves nothing. -/
theorem encrypted_of {entity subtype : String} (hm : Matches events r)
    (hentity : event.getStr? "entityId" = some entity)
    (hsubtype : event.getStr? "subtype" = some subtype) :
    ∃ f : String → Reduction,
      (∀ value, (∀ id, (f value).has id ↔ r.has id) ∧
        (∀ call, (f value).parentOf call = r.parentOf call) ∧
          ∀ id, (f value).contentOf id = r.contentOf id) ∧
      encrypted event r entity subtype =
        if Holds events event then (required event "encryptedValue").map f else .ok r := by
  have hholds : Holds events event ↔
      if subtype = "message" then r.has entity else (r.parentOf entity).isSome = true := by
    rw [hm.messages, hm.calls, Holds, hentity, hsubtype]
    simp only [Option.some.injEq, Option.getD_some]
  unfold encrypted
  by_cases hmessage : subtype = "message"
  · refine ⟨fun value => r.change entity fun m => { m with encryptedValue := some value },
      fun value => ⟨fun id => has_change, fun call => parentOf_change (by intro; rfl),
        fun id => contentOf_keep (by intro; rfl)⟩, ?_⟩
    rw [if_pos hmessage] at hholds ⊢
    exact if_congr hholds.symm rfl rfl
  · rw [if_neg hmessage] at hholds ⊢
    cases hparent : r.parentOf entity with
    | none =>
        rw [hparent] at hholds
        refine ⟨fun _ => r, fun _ => ⟨fun _ => Iff.rfl, fun _ => rfl, fun _ => rfl⟩, ?_⟩
        rw [if_neg (by rw [hholds]; nofun)]
    | some parent =>
        rw [hparent] at hholds
        refine ⟨fun value => r.change parent fun m => { m with
          toolCalls := changeCall (fun c => { c with encryptedValue := some value }) entity
            m.toolCalls },
          fun value => ⟨fun id => has_change, fun call => ?_, fun id => ?_⟩, ?_⟩
        · exact parentOf_change fun m => any_changeCall _ (by intro; rfl) _ _ _
        · exact contentOf_keep (by intro; rfl)
        · rw [if_pos (hholds.2 rfl)]

/-- An encrypted value is about no message that is not there, and moves nothing. -/
theorem steps_encrypted (h : hasType "REASONING_ENCRYPTED_VALUE" event = true)
    (hty : Typed event) (hm : Matches events r) : Steps events event r := by
  have hentity := hty.field h "entityId" (by decide)
  have hsubtype := hty.field h "subtype" (by decide)
  have hvalue := hty.field h "encryptedValue" (by decide)
  have hkeys : keysRead events event =
      ["entityId", "subtype"] ++ if Holds events event then ["encryptedValue"] else [] := by
    simp [keysRead, hasType_eq h]
  have hstep : r.step event = (required event "entityId").bind fun entity =>
      (required event "subtype").bind fun subtype => encrypted event r entity subtype := by
    simp only [step, hasType_eq h]
    rfl
  have hnothing : ∀ r', (∀ id, r'.has id ↔ r.has id) →
      (∀ call, r'.parentOf call = r.parentOf call) →
        (∀ id, r'.contentOf id = r.contentOf id) → Does event r r' := by
    intro r' hhas hparent hcontent
    refine .of_nothing (by rw [hasType_eq h]; rfl) ?_ hhas hparent hcontent
    intro tag hmem
    rw [hasType_eq h]
    apply decide_eq_false
    rintro rfl
    exact absurd hmem (by decide)
  refine ⟨?_, fun r' hr' => ?_⟩
  · have hasKeys : HasKeys events event ↔ (∃ entity, required event "entityId" = .ok entity) ∧
        (∃ subtype, required event "subtype" = .ok subtype) ∧
          (Holds events event → ∃ value, required event "encryptedValue" = .ok value) := by
      rw [required_isOk hentity, required_isOk hsubtype, required_isOk hvalue]
      unfold HasKeys
      rw [hkeys]
      by_cases hholds : Holds events event <;> simp [hholds]
    rw [hasKeys, hstep]
    constructor
    · rintro ⟨r', hr'⟩
      obtain ⟨entity, he, hr'⟩ := bind_eq_ok.1 hr'
      obtain ⟨subtype, hs, hr'⟩ := bind_eq_ok.1 hr'
      obtain ⟨f, -, hf⟩ := encrypted_of hm (required_eq_ok.1 he) (required_eq_ok.1 hs)
      refine ⟨⟨entity, he⟩, ⟨subtype, hs⟩, fun hholds => ?_⟩
      rw [hf, if_pos hholds] at hr'
      obtain ⟨value, hv, -⟩ := map_eq_ok.1 hr'
      exact ⟨value, hv⟩
    · rintro ⟨⟨entity, he⟩, ⟨subtype, hs⟩, hv⟩
      obtain ⟨f, -, hf⟩ := encrypted_of hm (required_eq_ok.1 he) (required_eq_ok.1 hs)
      rw [he, hs]
      show ∃ r', encrypted event r entity subtype = .ok r'
      rw [hf]
      by_cases hholds : Holds events event
      · obtain ⟨value, hv⟩ := hv hholds
        rw [if_pos hholds, hv]
        exact ⟨f value, rfl⟩
      · rw [if_neg hholds]
        exact ⟨r, rfl⟩
  · rw [hstep] at hr'
    obtain ⟨entity, he, hr'⟩ := bind_eq_ok.1 hr'
    obtain ⟨subtype, hs, hr'⟩ := bind_eq_ok.1 hr'
    obtain ⟨f, hsame, hf⟩ := encrypted_of hm (required_eq_ok.1 he) (required_eq_ok.1 hs)
    rw [hf] at hr'
    split at hr'
    · obtain ⟨value, -, rfl⟩ := map_eq_ok.1 hr'
      obtain ⟨hhas, hparent, hcontent⟩ := hsame value
      exact hnothing _ hhas hparent hcontent
    · cases hr'
      exact hnothing _ (fun _ => Iff.rfl) (fun _ => rfl) fun _ => rfl

/-- An event of a type the reducer does not know. -/
theorem steps_other (h : ∀ f ∈ textFields, hasType f.1 event = false) : Steps events event r := by
  simp only [textFields, List.forall_mem_cons, List.not_mem_nil, false_imp_iff, implies_true,
    and_true] at h
  obtain ⟨hs, hc, hrs, hrc, he, ht, ha, hr⟩ := h
  have hkeys : keysRead events event = [] := by
    simp only [keysRead, hs, hc, hrs, hrc, he, ht, ha, hr, Bool.false_eq_true, if_false]
  have hstep : r.step event = .ok r := by
    simp only [step, hs, hc, hrs, hrc, he, ht, ha, hr, Bool.false_eq_true, if_false]
    rfl
  refine ⟨?_, fun r' hr' => ?_⟩
  · unfold HasKeys
    rw [hkeys, hstep]
    simp
  · rw [hstep] at hr'
    cases hr'
    refine .of_nothing ht ?_ (fun _ => Iff.rfl) (fun _ => rfl) fun _ => rfl
    simp only [messageTypes, List.forall_mem_cons, List.not_mem_nil, false_imp_iff, implies_true,
      and_true]
    exact ⟨hs, hc, hrs, hrc, hr⟩

/-- One event of a run, whatever its type. -/
theorem steps (hty : Typed event) (hm : Matches events r) : Steps events event r := by
  by_cases hs : hasType "TEXT_MESSAGE_START" event = true
  · refine steps_start ((event.getStr? "role").getD "assistant") hs (by decide) (by decide)
      (by decide) (by decide) (hty.field hs "messageId" (by decide)) ?_ ?_
    · simp [keysRead, hasType_eq hs]
    · simp only [step, hasType_eq hs]
      cases required event "messageId" <;> rfl
  by_cases hc : hasType "TEXT_MESSAGE_CONTENT" event = true
  · refine steps_content "assistant" hc (by decide) (by decide) (.inl rfl)
      (hty.field hc "messageId" (by decide))
      (hty.field hc "delta" (by decide)) ?_ ?_
    · simp [keysRead, hasType_eq hc]
    · simp only [step, hasType_eq hc]
      rfl
  by_cases hrs : hasType "REASONING_MESSAGE_START" event = true
  · refine steps_start "reasoning" hrs (by decide) (by decide) (by decide) (by decide)
      (hty.field hrs "messageId" (by decide)) ?_ ?_
    · simp [keysRead, hasType_eq hrs]
    · simp only [step, hasType_eq hrs]
      cases required event "messageId" <;> rfl
  by_cases hrc : hasType "REASONING_MESSAGE_CONTENT" event = true
  · refine steps_content "reasoning" hrc (by decide) (by decide) (.inr rfl)
      (hty.field hrc "messageId" (by decide))
      (hty.field hrc "delta" (by decide)) ?_ ?_
    · simp [keysRead, hasType_eq hrc]
    · simp only [step, hasType_eq hrc]
      rfl
  by_cases he : hasType "REASONING_ENCRYPTED_VALUE" event = true
  · exact steps_encrypted he hty hm
  by_cases ht : hasType "TOOL_CALL_START" event = true
  · exact steps_announce ht hty
  by_cases ha : hasType "TOOL_CALL_ARGS" event = true
  · exact steps_args ha hty
  by_cases hr : hasType "TOOL_CALL_RESULT" event = true
  · exact steps_answer hr hty
  refine steps_other ?_
  simp only [textFields, List.forall_mem_cons, List.not_mem_nil, false_imp_iff, implies_true,
    and_true, ← Bool.not_eq_true]
  exact ⟨hs, hc, hrs, hrc, he, ht, ha, hr⟩

end Step

/-- Going on from tables that follow what came before. -/
theorem run_isOk {r : Reduction} {before : List Json} (hm : Matches before r) (events : List Json)
    (hty : ∀ e ∈ events, Typed e) :
    (∃ r', run r events = .ok r') ↔
      ∀ pre event post, events = pre ++ event :: post → HasKeys (before ++ pre) event := by
  induction events generalizing r before with
  | nil =>
      refine ⟨fun _ pre event post h => ?_, fun _ => ⟨r, rfl⟩⟩
      exact absurd h.symm (List.append_ne_nil_of_right_ne_nil _ (List.cons_ne_nil _ _))
  | cons event events ih =>
      have hs := steps (hty event (by simp)) hm
      have hrest := fun e he => hty e (List.mem_cons_of_mem event he)
      constructor
      · rintro ⟨r', hr'⟩ pre event' post h
        obtain ⟨next, hnext, hr'⟩ := bind_eq_ok.1 hr'
        cases pre with
        | nil =>
            obtain ⟨rfl, rfl⟩ := List.cons.inj h
            rw [List.append_nil]
            exact hs.returns.1 ⟨next, hnext⟩
        | cons first pre =>
            obtain ⟨rfl, rfl⟩ := List.cons.inj h
            have := (ih (hm.step (hs.does next hnext)) hrest).1 ⟨r', hr'⟩ pre event' post rfl
            rwa [List.append_assoc] at this
      · intro h
        have hfirst := h [] event events rfl
        rw [List.append_nil] at hfirst
        obtain ⟨next, hnext⟩ := hs.returns.2 hfirst
        have hgoes : run r (event :: events) = run next events := by
          show (r.step event).bind _ = _
          rw [hnext]
          rfl
        rw [hgoes, ih (hm.step (hs.does next hnext)) hrest]
        intro pre event' post hpre
        have := h (event :: pre) event' post (by rw [hpre]; rfl)
        rwa [List.append_assoc]

/-- The text of a message after a run. -/
theorem contentOf_run {r r' : Reduction} {before events : List Json} (hm : Matches before r)
    (hty : ∀ e ∈ events, Typed e) (hrun : run r events = .ok r') (id : String) :
    r'.contentOf id = events.foldl (contentAfter id) (r.contentOf id) := by
  induction events generalizing r before with
  | nil =>
      cases hrun
      rfl
  | cons event events ih =>
      obtain ⟨next, hnext, hrun⟩ := bind_eq_ok.1 hrun
      have hdoes := (steps (hty event (by simp)) hm).does next hnext
      rw [ih (hm.step hdoes) (fun e he => hty e (List.mem_cons_of_mem event he)) hrun,
        List.foldl_cons, hdoes.contents]

end Reduction

/-- The reducer returns exactly when each event has the keys it is asked for. -/
theorem reduces_iff {events : List Json} (hty : ∀ e ∈ events, Typed e) :
    (∃ history, reduceEventsToMessages events = .ok history) ↔ Readable events := by
  have hrun := Reduction.run_isOk .nil events hty
  simp only [List.nil_append] at hrun
  unfold Readable
  rw [← hrun]
  constructor
  · rintro ⟨history, h⟩
    obtain ⟨r, hr, -⟩ := map_eq_ok.1 h
    exact ⟨r, hr⟩
  · rintro ⟨r, hr⟩
    exact ⟨r.history, map_eq_ok.2 ⟨r, hr, rfl⟩⟩

end Funduq.Doors
