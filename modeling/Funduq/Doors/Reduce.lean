import Funduq.Broker.Vocabulary
import Funduq.Lib.Dict
import Funduq.Lib.Except

/-!
# The messages a run's events amount to

`reduce_events_to_messages` goes over a run's events once, and keeps the messages under
their ids, the order they first appeared in, and under which message each tool call was
announced.  A tool result takes the place of whatever had its id, and is put at the end
once more.

The reducer indexes the events as they were stored.  A key that is not there makes it
raise, and so, here, does a value that is no string: of an event AG-UI has validated
every field read here is one.
-/

namespace Funduq.Doors

open Funduq.Lib
open Funduq.Broker (hasType)

/-- What reading an event raises. -/
inductive ReadError where
  | keyError (key : String)
  | typeError (key : String)
  deriving DecidableEq, Repr

/-- `event[key]`. -/
def required (event : Json) (key : String) : Except ReadError String :=
  match event.get? key with
  | none => .error (.keyError key)
  | some (.str s) => .ok s
  | some _ => .error (.typeError key)

/-- `event.get(key, "")`, added to a text. -/
def textOrEmpty (event : Json) (key : String) : Except ReadError String :=
  match event.get? key with
  | none => .ok ""
  | some (.str s) => .ok s
  | some _ => .error (.typeError key)

structure ToolCall where
  id : String
  name : String
  arguments : String
  encryptedValue : Option String := none
  deriving DecidableEq

/-- A message of the thread's history. -/
structure HistoryEntry where
  id : String
  role : String
  content : String
  toolCalls : List ToolCall := []
  encryptedValue : Option String := none
  toolCallId : Option String := none
  deriving DecidableEq

/-- What the reducer keeps. -/
structure Reduction where
  messages : Dict String HistoryEntry := []
  order : List String := []
  toolCallParent : Dict String String := []

namespace Reduction

/-- `assistant_message`: the message of this id, a new one where there is none. -/
def assistantMessage (r : Reduction) (id role : String) : Reduction :=
  match r.messages.get? id with
  | some _ => r
  | none =>
      { r with
        messages := r.messages.set id { id, role, content := "" }
        order := r.order ++ [id] }

/-- The message of this id is changed in place. -/
def change (r : Reduction) (id : String) (f : HistoryEntry → HistoryEntry) : Reduction :=
  match r.messages.get? id with
  | some message => { r with messages := r.messages.set id (f message) }
  | none => r

/-- The first tool call of this id is changed in place. -/
def changeCall (f : ToolCall → ToolCall) (id : String) : List ToolCall → List ToolCall
  | [] => []
  | call :: calls => if call.id = id then f call :: calls else call :: changeCall f id calls

/-- Text is added to the message of this id, which is new if there is none. -/
def add (r : Reduction) (id role text : String) : Reduction :=
  (r.assistantMessage id role).change id fun m => { m with content := m.content ++ text }

/-- The message a tool call stands under, if the call stands there. -/
def parentOf (r : Reduction) (call : String) : Option String :=
  (r.toolCallParent.get? call).filter fun parent =>
    (r.messages.get? parent).any fun m => m.toolCalls.any fun c => c.id = call

/-- `TOOL_CALL_START`. -/
def announce (r : Reduction) (call parent name : String) : Reduction :=
  let r := { r with toolCallParent := r.toolCallParent.set call parent }
  (r.assistantMessage parent "assistant").change parent fun m =>
    { m with toolCalls := m.toolCalls ++ [{ id := call, name, arguments := "" }] }

/-- `TOOL_CALL_RESULT`. -/
def answer (r : Reduction) (id content call : String) : Reduction :=
  { r with
    messages := r.messages.set id { id, role := "tool", content, toolCallId := some call }
    order := r.order ++ [id] }

/-- One event. -/
def step (r : Reduction) (event : Json) : Except ReadError Reduction :=
  if hasType "TEXT_MESSAGE_START" event then do
    let id ← required event "messageId"
    return r.assistantMessage id ((event.getStr? "role").getD "assistant")
  else if hasType "TEXT_MESSAGE_CONTENT" event then do
    let id ← required event "messageId"
    let delta ← textOrEmpty event "delta"
    return r.add id "assistant" delta
  else if hasType "REASONING_MESSAGE_START" event then do
    let id ← required event "messageId"
    return r.assistantMessage id "reasoning"
  else if hasType "REASONING_MESSAGE_CONTENT" event then do
    let id ← required event "messageId"
    let delta ← textOrEmpty event "delta"
    return r.add id "reasoning" delta
  else if hasType "REASONING_ENCRYPTED_VALUE" event then do
    let entity ← required event "entityId"
    let subtype ← required event "subtype"
    if subtype = "message" then
      if (r.messages.get? entity).isSome then do
        let value ← required event "encryptedValue"
        return r.change entity fun m => { m with encryptedValue := some value }
      else return r
    else
      match r.parentOf entity with
      | none => return r
      | some parent => do
          let value ← required event "encryptedValue"
          return r.change parent fun m => { m with
            toolCalls := changeCall (fun c => { c with encryptedValue := some value }) entity
              m.toolCalls }
  else if hasType "TOOL_CALL_START" event then do
    let call ← required event "toolCallId"
    let name ← required event "toolCallName"
    return r.announce call (((event.getStr? "parentMessageId").filter (· ≠ "")).getD call) name
  else if hasType "TOOL_CALL_ARGS" event then do
    let call ← required event "toolCallId"
    match r.parentOf call with
    | none => return r
    | some parent => do
        let delta ← textOrEmpty event "delta"
        return r.change parent fun m => { m with
          toolCalls := changeCall (fun c => { c with arguments := c.arguments ++ delta }) call
            m.toolCalls }
  else if hasType "TOOL_CALL_RESULT" event then do
    let id ← required event "messageId"
    let content ← textOrEmpty event "content"
    let call ← required event "toolCallId"
    return r.answer id content call
  else return r

/-- The events, one after the other. -/
def run : Reduction → List Json → Except ReadError Reduction
  | r, [] => .ok r
  | r, event :: events => do
      let r ← r.step event
      run r events

/-- The messages, in the order they were put. -/
def history (r : Reduction) : List HistoryEntry := r.order.filterMap r.messages.get?

end Reduction

/-- `reduce_events_to_messages`. -/
def reduceEventsToMessages (events : List Json) : Except ReadError (List HistoryEntry) :=
  (Reduction.run {} events).map Reduction.history

/-! ## The tables -/

namespace Reduction

variable {r : Reduction} {id call role : String}

/-- There is a message of this id. -/
def has (r : Reduction) (id : String) : Prop := (r.messages.get? id).isSome = true

theorem has_assistantMessage {id' : String} :
    (r.assistantMessage id role).has id' ↔ id = id' ∨ r.has id' := by
  unfold assistantMessage has
  cases hget : r.messages.get? id with
  | some m =>
      constructor
      · exact .inr
      · rintro (rfl | h)
        · rw [hget]
          rfl
        · exact h
  | none =>
      show (Dict.get? (Dict.set _ _ _) id').isSome = true ↔ _
      rw [Dict.get?_set]
      by_cases h : id = id' <;> simp [h]

theorem has_change {f : HistoryEntry → HistoryEntry} {id' : String} :
    (r.change id f).has id' ↔ r.has id' := by
  unfold change has
  cases hget : r.messages.get? id with
  | none => rfl
  | some m =>
      show (Dict.get? (Dict.set _ _ _) id').isSome = true ↔ _
      rw [Dict.get?_set]
      by_cases h : id = id'
      · subst h
        simp [hget]
      · simp [h]

theorem parentOf_assistantMessage : (r.assistantMessage id role).parentOf call = r.parentOf call := by
  unfold assistantMessage
  cases hget : r.messages.get? id with
  | some m => rfl
  | none =>
      unfold parentOf
      dsimp only
      congr 1
      funext parent
      rw [Dict.get?_set]
      by_cases h : id = parent
      · subst h
        simp [hget]
      · rw [if_neg h]

/-- A change that leaves it alone whether this call stands there. -/
theorem parentOf_change {f : HistoryEntry → HistoryEntry}
    (hf : ∀ m, ((f m).toolCalls.any fun c => c.id = call) = m.toolCalls.any fun c => c.id = call) :
    (r.change id f).parentOf call = r.parentOf call := by
  unfold change
  cases hget : r.messages.get? id with
  | none => rfl
  | some m =>
      unfold parentOf
      dsimp only
      congr 1
      funext parent
      rw [Dict.get?_set]
      by_cases h : id = parent
      · subst h
        rw [if_pos rfl, hget]
        exact hf m
      · rw [if_neg h]

/-- A call that is put under its parent stands there. -/
theorem parentOf_put {parent : String} {f : HistoryEntry → HistoryEntry}
    (hparent : r.toolCallParent.get? call = some parent) (hhas : r.has parent)
    (hf : ∀ m, ((f m).toolCalls.any fun c => c.id = call) = true) :
    (r.change parent f).parentOf call = some parent := by
  obtain ⟨m, hm⟩ := Option.isSome_iff_exists.1 hhas
  have hany := hf m
  unfold change
  rw [hm]
  unfold parentOf
  dsimp only
  rw [hparent]
  simp only [Option.filter, Dict.get?_set, if_true, Option.any_some, hany]

/-- Changing a call in place leaves the ids alone. -/
theorem any_changeCall (f : ToolCall → ToolCall) (hf : ∀ c, (f c).id = c.id) (id call : String)
    (calls : List ToolCall) :
    ((changeCall f id calls).any fun c => c.id = call) = calls.any fun c => c.id = call := by
  induction calls with
  | nil => rfl
  | cons c calls ih =>
      unfold changeCall
      split
      · rw [List.any_cons, List.any_cons, hf]
      · rw [List.any_cons, List.any_cons, ih]

theorem has_announce {parent name id' : String} :
    (r.announce call parent name).has id' ↔ parent = id' ∨ r.has id' := by
  unfold announce
  rw [has_change, has_assistantMessage]
  rfl

theorem parentOf_announce {parent name call' : String} :
    (r.announce call parent name).parentOf call' =
      if call = call' then some parent else r.parentOf call' := by
  unfold announce
  by_cases h : call = call'
  · -- The call has just been put under its parent.
    subst h
    rw [if_pos rfl]
    refine parentOf_put ?_ (has_assistantMessage.2 (.inl rfl)) fun m => by simp
    unfold assistantMessage
    split <;> simp [Dict.get?_set]
  · rw [if_neg h, parentOf_change, parentOf_assistantMessage]
    · unfold parentOf
      simp only [Dict.get?_set, if_neg h]
    · intro m
      simp [h]

theorem has_answer {content id' : String} : (r.answer id content call).has id' ↔ id = id' ∨ r.has id' := by
  unfold answer has
  rw [Dict.get?_set]
  by_cases h : id = id' <;> simp [h]

theorem parentOf_answer {content call' : String} :
    (r.answer id content call).parentOf call' = (r.parentOf call').filter (· ≠ id) := by
  unfold answer parentOf
  rw [Option.filter_filter]
  congr 1
  funext parent
  rw [Dict.get?_set]
  by_cases h : id = parent
  · simp [h]
  · have h' : parent ≠ id := Ne.symm h
    simp [h, h']

theorem has_add {id' text : String} : (r.add id role text).has id' ↔ id = id' ∨ r.has id' := by
  unfold add
  rw [has_change, has_assistantMessage]

theorem parentOf_add {text : String} : (r.add id role text).parentOf call = r.parentOf call := by
  unfold add
  rw [parentOf_change, parentOf_assistantMessage]
  exact fun _ => rfl

/-- The text of a message, `none` where there is no message of this id. -/
def contentOf (r : Reduction) (id : String) : Option String := (r.messages.get? id).map (·.content)

theorem contentOf_assistantMessage {id' : String} : (r.assistantMessage id role).contentOf id' =
    if id = id' then some ((r.contentOf id').getD "") else r.contentOf id' := by
  unfold assistantMessage contentOf
  by_cases h : id = id'
  · subst h
    rw [if_pos rfl]
    cases hget : r.messages.get? id with
    | some m =>
        dsimp only
        rw [hget]
        rfl
    | none =>
        dsimp only
        rw [Dict.get?_set, if_pos rfl]
        rfl
  · rw [if_neg h]
    cases hget : r.messages.get? id with
    | some m => rfl
    | none =>
        dsimp only
        rw [Dict.get?_set, if_neg h]

/-- A message that is changed in place has its text changed as `g` says. -/
theorem contentOf_change {f : HistoryEntry → HistoryEntry} {g : String → String}
    (hf : ∀ m, (f m).content = g m.content) {id' : String} : (r.change id f).contentOf id' =
      if id = id' then (r.contentOf id').map g else r.contentOf id' := by
  unfold change contentOf
  cases hget : r.messages.get? id with
  | none =>
      by_cases h : id = id'
      · subst h
        rw [if_pos rfl, hget]
        rfl
      · rw [if_neg h]
  | some m =>
      dsimp only
      rw [Dict.get?_set]
      by_cases h : id = id'
      · subst h
        rw [if_pos rfl, if_pos rfl, hget]
        exact congrArg some (hf m)
      · rw [if_neg h, if_neg h]

theorem contentOf_keep {f : HistoryEntry → HistoryEntry} (hf : ∀ m, (f m).content = m.content)
    {id' : String} : (r.change id f).contentOf id' = r.contentOf id' := by
  rw [contentOf_change (g := fun text => text) hf, Option.map_id', ite_self]

theorem contentOf_add {text id' : String} : (r.add id role text).contentOf id' =
    if id = id' then some ((r.contentOf id').getD "" ++ text) else r.contentOf id' := by
  unfold add
  rw [contentOf_change (g := (· ++ text)) fun _ => rfl, contentOf_assistantMessage]
  by_cases h : id = id' <;> simp [h]

theorem contentOf_announce {parent name id' : String} :
    (r.announce call parent name).contentOf id' =
      if parent = id' then some ((r.contentOf id').getD "") else r.contentOf id' := by
  unfold announce
  dsimp only
  rw [contentOf_keep (by intro; rfl), contentOf_assistantMessage]
  rfl

theorem contentOf_answer {content id' : String} :
    (r.answer id content call).contentOf id' = if id = id' then some content else r.contentOf id' := by
  unfold answer contentOf
  dsimp only
  rw [Dict.get?_set]
  by_cases h : id = id' <;> simp [h]

/-! ## The history -/

/-- Every message is kept under its own id, and has been put somewhere. -/
structure Ordered (r : Reduction) : Prop where
  ids : ∀ id m, r.messages.get? id = some m → m.id = id
  put : ∀ id, r.has id → id ∈ r.order

theorem Ordered.nil : Ordered {} := ⟨nofun, nofun⟩

theorem Ordered.assistantMessage (h : r.Ordered) : (r.assistantMessage id role).Ordered := by
  refine ⟨fun id' m hm => ?_, fun id' hhas => ?_⟩
  · unfold Reduction.assistantMessage at hm
    split at hm
    · exact h.ids id' m hm
    · rw [Dict.get?_set] at hm
      split at hm
      · rename_i heq
        cases hm
        exact heq
      · exact h.ids id' m hm
  · rcases has_assistantMessage.1 hhas with rfl | hold
    · unfold Reduction.assistantMessage
      split
      · rename_i hget
        refine h.put id ?_
        unfold has
        rw [hget]
        rfl
      · exact List.mem_append_right _ List.mem_cons_self
    · have hmem := h.put id' hold
      unfold Reduction.assistantMessage
      split
      · exact hmem
      · exact List.mem_append_left _ hmem

theorem Ordered.change {f : HistoryEntry → HistoryEntry} (hf : ∀ m, (f m).id = m.id)
    (h : r.Ordered) : (r.change id f).Ordered := by
  refine ⟨fun id' m hm => ?_, fun id' hhas => ?_⟩
  · unfold Reduction.change at hm
    split at hm
    · rename_i message hget
      rw [Dict.get?_set] at hm
      split at hm
      · rename_i heq
        cases hm
        rw [hf, h.ids id message hget, heq]
      · exact h.ids id' m hm
    · exact h.ids id' m hm
  · have hmem := h.put id' (has_change.1 hhas)
    unfold Reduction.change
    split <;> exact hmem

theorem Ordered.answer {content : String} (h : r.Ordered) : (r.answer id content call).Ordered := by
  refine ⟨fun id' m hm => ?_, fun id' hhas => ?_⟩
  · unfold Reduction.answer at hm
    rw [Dict.get?_set] at hm
    split at hm
    · rename_i heq
      cases hm
      exact heq
    · exact h.ids id' m hm
  · show id' ∈ r.order ++ [id]
    rcases has_answer.1 hhas with rfl | hold
    · exact List.mem_append_right _ List.mem_cons_self
    · exact List.mem_append_left _ (h.put id' hold)

theorem Ordered.announce {parent name : String} (h : r.Ordered) :
    (r.announce call parent name).Ordered := by
  have hparents : Ordered { r with toolCallParent := r.toolCallParent.set call parent } :=
    ⟨h.ids, h.put⟩
  exact hparents.assistantMessage.change (by intro; rfl)

theorem Ordered.step {event : Json} {r' : Reduction} (h : r.Ordered) (hs : r.step event = .ok r') :
    r'.Ordered := by
  unfold Reduction.step at hs
  split at hs
  · obtain ⟨id, -, hs⟩ := bind_eq_ok.1 hs
    cases pure_eq_ok.1 hs
    exact h.assistantMessage
  split at hs
  · obtain ⟨id, -, hs⟩ := bind_eq_ok.1 hs
    obtain ⟨delta, -, hs⟩ := bind_eq_ok.1 hs
    cases pure_eq_ok.1 hs
    exact h.assistantMessage.change (by intro; rfl)
  split at hs
  · obtain ⟨id, -, hs⟩ := bind_eq_ok.1 hs
    cases pure_eq_ok.1 hs
    exact h.assistantMessage
  split at hs
  · obtain ⟨id, -, hs⟩ := bind_eq_ok.1 hs
    obtain ⟨delta, -, hs⟩ := bind_eq_ok.1 hs
    cases pure_eq_ok.1 hs
    exact h.assistantMessage.change (by intro; rfl)
  split at hs
  · -- An encrypted value is kept with a message, or with a tool call under one.
    obtain ⟨entity, -, hs⟩ := bind_eq_ok.1 hs
    obtain ⟨subtype, -, hs⟩ := bind_eq_ok.1 hs
    split at hs
    · split at hs
      · obtain ⟨value, -, hs⟩ := bind_eq_ok.1 hs
        cases pure_eq_ok.1 hs
        exact h.change (by intro; rfl)
      · cases pure_eq_ok.1 hs
        exact h
    · split at hs
      · cases pure_eq_ok.1 hs
        exact h
      · obtain ⟨value, -, hs⟩ := bind_eq_ok.1 hs
        cases pure_eq_ok.1 hs
        exact h.change (by intro; rfl)
  split at hs
  · obtain ⟨call, -, hs⟩ := bind_eq_ok.1 hs
    obtain ⟨name, -, hs⟩ := bind_eq_ok.1 hs
    cases pure_eq_ok.1 hs
    exact h.announce
  split at hs
  · obtain ⟨call, -, hs⟩ := bind_eq_ok.1 hs
    split at hs
    · cases pure_eq_ok.1 hs
      exact h
    · obtain ⟨delta, -, hs⟩ := bind_eq_ok.1 hs
      cases pure_eq_ok.1 hs
      exact h.change (by intro; rfl)
  split at hs
  · obtain ⟨id, -, hs⟩ := bind_eq_ok.1 hs
    obtain ⟨content, -, hs⟩ := bind_eq_ok.1 hs
    obtain ⟨call, -, hs⟩ := bind_eq_ok.1 hs
    cases pure_eq_ok.1 hs
    exact h.answer
  · cases pure_eq_ok.1 hs
    exact h

theorem Ordered.run {events : List Json} {r' : Reduction} (h : r.Ordered)
    (hrun : Reduction.run r events = .ok r') : r'.Ordered := by
  induction events generalizing r with
  | nil =>
      cases hrun
      exact h
  | cons event events ih =>
      obtain ⟨next, hnext, hrun⟩ := bind_eq_ok.1 hrun
      exact ih (h.step hnext) hrun

/-- The history tells a text under an id exactly where the message of this id has it. -/
theorem history_tells (h : r.Ordered) {text : String} :
    ((∃ m ∈ r.history, m.id = id) ∧ ∀ m ∈ r.history, m.id = id → m.content = text) ↔
      r.contentOf id = some text := by
  have hmem : ∀ m, m ∈ r.history ∧ m.id = id ↔ r.messages.get? id = some m := by
    intro m
    unfold history
    rw [List.mem_filterMap]
    constructor
    · rintro ⟨⟨id', -, hget⟩, rfl⟩
      rwa [h.ids id' m hget]
    · intro hget
      refine ⟨⟨id, h.put id ?_, hget⟩, h.ids id m hget⟩
      unfold has
      rw [hget]
      rfl
  unfold contentOf
  constructor
  · rintro ⟨⟨m, hm⟩, hall⟩
    rw [(hmem m).1 hm, ← hall m hm.1 hm.2]
    rfl
  · intro hget
    obtain ⟨m, hm, hcontent⟩ := Option.map_eq_some_iff.1 hget
    refine ⟨⟨m, (hmem m).2 hm⟩, fun m' hm' hid => ?_⟩
    have := (hmem m').1 ⟨hm', hid⟩
    rw [hm] at this
    cases this
    exact hcontent

end Reduction

end Funduq.Doors
