import Mathlib.Algebra.GroupWithZero.Nat
import Mathlib.Data.List.Induction
import Funduq.Doors.Reading

/-!
# What the reducer makes of a run

The messages come in the order their ids first appear, each with the deltas told under its
id, and each tool call with the arguments told after its start.  Two things a run may do
part the reducer from this.  A tool result takes the place of whatever had its id and is
put in the order once more; and of two calls of one id under one message only the first is
told arguments, while of two under different messages only the last is.

What one event does to the tables is said once, in `Stepped`.
-/

namespace Funduq.Doors

open Funduq.Lib
open Funduq.Broker (hasType)

/-! ## What the events say -/

/-- The messages the events bring in, in the order they first appear. -/
def appearances (events : List Json) : List String := (events.filterMap messageOf).eraseDups

/-- The event starts this tool call. -/
def startsCall (call : String) (event : Json) : Bool :=
  hasType "TOOL_CALL_START" event && decide (event.getStr? "toolCallId" = some call)

/-- What an event adds to the arguments of a tool call. -/
def argsFor (call : String) (event : Json) : String :=
  if hasType "TOOL_CALL_ARGS" event ∧ event.getStr? "toolCallId" = some call then
    (event.getStr? "delta").getD ""
  else ""

/-- The tool call an event starts under the message of this id. -/
def startedUnder (id : String) (event : Json) : Option String :=
  if hasType "TOOL_CALL_START" event ∧ parentId event = id then event.getStr? "toolCallId" else none

/-- The tool calls started under a message, each with the arguments told after its start. -/
def callsUnder (id : String) : List Json → List (String × String)
  | [] => []
  | event :: events =>
      ((startedUnder id event).map fun call =>
        (call, String.join (events.map (argsFor call)))).toList ++ callsUnder id events

theorem callsUnder_nil (id : String) : callsUnder id [] = [] := rfl

theorem callsUnder_cons (id : String) (event : Json) (events : List Json) :
    callsUnder id (event :: events) =
      ((startedUnder id event).map fun call =>
        (call, String.join (events.map (argsFor call)))).toList ++ callsUnder id events := rfl

/-! ## What the condition speaks of -/

/-- No tool result comes under the id of a message that was there before. -/
def FreshResults (events : List Json) : Prop :=
  ∀ before event after, events = before ++ event :: after →
    hasType "TOOL_CALL_RESULT" event = true →
      ∀ id, messageOf event = some id → ¬ speaksOf before id

/-- No arguments are told of a tool call that was started twice before. -/
def OneStart (events : List Json) : Prop :=
  ∀ before event after, events = before ++ event :: after →
    ∀ call, argsFor call event ≠ "" → before.countP (startsCall call) ≤ 1

namespace Reduction

variable {r r' : Reduction} {event : Json} {events : List Json} {id role call : String}

/-! ## One event -/

/-- What one event does to the tables. -/
inductive Stepped (event : Json) (r : Reduction) : Reduction → Prop where
  | opens {id : String} (role : String) (hid : messageOf event = some id)
      (hresult : hasType "TOOL_CALL_RESULT" event = false)
      (hstart : hasType "TOOL_CALL_START" event = false)
      (hargs : hasType "TOOL_CALL_ARGS" event = false) :
      Stepped event r (r.assistantMessage id role)
  | adds {id : String} (role text : String) (hid : messageOf event = some id)
      (hresult : hasType "TOOL_CALL_RESULT" event = false)
      (hstart : hasType "TOOL_CALL_START" event = false)
      (hargs : hasType "TOOL_CALL_ARGS" event = false) :
      Stepped event r (r.add id role text)
  | announces {call : String} (name : String) (h : hasType "TOOL_CALL_START" event = true)
      (hcall : event.getStr? "toolCallId" = some call) :
      Stepped event r (r.announce call (parentId event) name)
  | tells {call parent : String} (h : hasType "TOOL_CALL_ARGS" event = true)
      (hcall : event.getStr? "toolCallId" = some call) (hparent : r.parentOf call = some parent) :
      Stepped event r (r.change parent fun m => { m with
        toolCalls := changeCall (fun c => { c with
          arguments := c.arguments ++ (event.getStr? "delta").getD "" }) call m.toolCalls })
  | untold {call : String} (h : hasType "TOOL_CALL_ARGS" event = true)
      (hcall : event.getStr? "toolCallId" = some call) (hparent : r.parentOf call = none) :
      Stepped event r r
  | answers {id : String} (content call : String)
      (h : hasType "TOOL_CALL_RESULT" event = true) (hid : messageOf event = some id) :
      Stepped event r (r.answer id content call)
  /-- A value is kept with a message or a tool call, and nothing else of it changes. -/
  | keeps {f : HistoryEntry → HistoryEntry} (id : String) (hid : messageOf event = none)
      (hargs : hasType "TOOL_CALL_ARGS" event = false)
      (hf : ∀ m, (f m).role = m.role ∧ (f m).toolCalls.map (fun c => (c.id, c.arguments)) =
        m.toolCalls.map fun c => (c.id, c.arguments)) : Stepped event r (r.change id f)
  | passes (hid : messageOf event = none) (hargs : hasType "TOOL_CALL_ARGS" event = false) :
      Stepped event r r

/-- A type that brings in no message. -/
theorem messageOf_unnamed {tag : String} (h : hasType tag event = true)
    (hmem : tag ∉ messageTypes) (hstart : tag ≠ "TOOL_CALL_START") : messageOf event = none := by
  have hno : hasType "TOOL_CALL_START" event = false := by
    rw [hasType_eq h, decide_eq_false hstart]
  unfold messageOf
  rw [hno, if_neg nofun, if_neg]
  rw [List.any_eq_true]
  rintro ⟨other, hother, htype⟩
  rw [hasType_eq h] at htype
  exact hmem (of_decide_eq_true htype ▸ hother)

theorem order_change {f : HistoryEntry → HistoryEntry} : (r.change id f).order = r.order := by
  unfold change
  split <;> rfl

theorem order_assistantMessage : (r.assistantMessage id role).order =
    if (r.messages.get? id).isSome then r.order else r.order ++ [id] := by
  unfold assistantMessage
  cases hget : r.messages.get? id with
  | some m => rfl
  | none => rfl

/-- The order grows by the message an event is about, where it was not there or is a tool
result. -/
theorem Stepped.order (h : Stepped event r r') : r'.order = r.order ++
    (messageOf event).toList.filter fun id =>
      hasType "TOOL_CALL_RESULT" event || (r.messages.get? id).isNone := by
  have hnew : ∀ {r : Reduction} {id role : String}, (r.assistantMessage id role).order =
      r.order ++ [id].filter fun id => false || (r.messages.get? id).isNone := by
    intro r id role
    rw [order_assistantMessage]
    cases hget : r.messages.get? id with
    | none => simp [hget]
    | some m => simp [hget]
  cases h with
  | opens role hid hresult _ _ =>
      rw [hid, hresult]
      exact hnew
  | adds role text hid hresult _ _ =>
      rw [hid, hresult, add, order_change]
      exact hnew
  | announces name h hcall =>
      have hresult : hasType "TOOL_CALL_RESULT" event = false := by
        rw [hasType_eq h]
        rfl
      rw [show messageOf event = some (parentId event) from if_pos h, hresult, announce, order_change]
      exact hnew
  | tells h hcall hparent =>
      rw [messageOf_unnamed h (by decide) (by decide), order_change]
      exact (List.append_nil _).symm
  | untold h hcall hparent =>
      rw [messageOf_unnamed h (by decide) (by decide)]
      exact (List.append_nil _).symm
  | answers content call h hid =>
      rw [hid, h]
      rfl
  | keeps id hid _ _ =>
      rw [hid, order_change]
      exact (List.append_nil _).symm
  | passes hid _ =>
      rw [hid]
      exact (List.append_nil _).symm

end Reduction

/-- What holds wherever a list is cut, holds so of a list that ends in one more. -/
theorem forall_cut_concat {α : Type} {P : List α → α → Prop} {xs : List α} {y : α} :
    (∀ before x after, xs ++ [y] = before ++ x :: after → P before x) ↔
      (∀ before x after, xs = before ++ x :: after → P before x) ∧ P xs y := by
  constructor
  · intro h
    refine ⟨fun before x after hxs => h before x (after ++ [y]) ?_, h xs y [] rfl⟩
    rw [hxs, List.append_assoc]
    rfl
  · rintro ⟨hxs, hy⟩ before x after h
    induction after using List.reverseRecOn with
    | nil =>
        obtain ⟨rfl, hx⟩ := List.append_inj' h rfl
        cases hx
        exact hy
    | append_singleton after z _ =>
        have hsplit : xs ++ [y] = (before ++ x :: after) ++ [z] := by
          rw [h, List.append_assoc]
          rfl
        exact hxs before x after (List.append_inj' hsplit rfl).1

section Order

variable {events : List Json} {event : Json}

theorem appearances_concat : appearances (events ++ [event]) = appearances events ++
    (messageOf event).toList.filter fun id => ¬ speaksOf events id := by
  unfold appearances
  rw [List.filterMap_append, List.eraseDups_append]
  congr 1
  cases h : messageOf event with
  | none => simp [h]
  | some id =>
      by_cases hid : speaksOf events id
      · have hspoken : ∃ e, e ∈ events ∧ messageOf e = some id := hid
        simp [h, hid, List.removeAll, hspoken]
      · have hspoken : ¬ ∃ e, e ∈ events ∧ messageOf e = some id := hid
        simp [h, hid, List.removeAll, hspoken, List.eraseDups_cons]

/-- Text is told of the first call of this id. -/
def tellFirst (call delta : String) : List (String × String) → List (String × String)
  | [] => []
  | c :: calls =>
      if c.1 = call then (c.1, c.2 ++ delta) :: calls else c :: tellFirst call delta calls

theorem tellFirst_cons (call delta : String) (c : String × String)
    (calls : List (String × String)) : tellFirst call delta (c :: calls) =
      if c.1 = call then (c.1, c.2 ++ delta) :: calls else c :: tellFirst call delta calls := rfl

/-- Text is told of every call of its id. -/
def tellAll (event : Json) (calls : List (String × String)) : List (String × String) :=
  calls.map fun c => (c.1, c.2 ++ argsFor c.1 event)

/-- How much is told of these calls. -/
def told (calls : List (String × String)) : Nat := (calls.map fun c => c.2.length).sum

theorem callsUnder_concat (id : String) : callsUnder id (events ++ [event]) =
    tellAll event (callsUnder id events) ++
      ((startedUnder id event).map fun call => (call, "")).toList := by
  induction events with
  | nil => simp [callsUnder_cons, callsUnder_nil, tellAll]
  | cons e events ih =>
      rw [List.cons_append, callsUnder_cons, ih, callsUnder_cons]
      cases startedUnder id e with
      | none => rfl
      | some call => simp [tellAll, String.join_append]

theorem callsUnder_ids (id : String) (events : List Json) :
    (callsUnder id events).map Prod.fst = events.filterMap (startedUnder id) := by
  induction events with
  | nil => rfl
  | cons e events ih =>
      rw [callsUnder_cons, List.map_append, ih, List.filterMap_cons]
      cases startedUnder id e <;> rfl

theorem tellFirst_ids (call delta : String) (calls : List (String × String)) :
    (tellFirst call delta calls).map Prod.fst = calls.map Prod.fst := by
  induction calls with
  | nil => rfl
  | cons c calls ih =>
      rw [tellFirst_cons]
      split
      · rfl
      · rw [List.map_cons, List.map_cons, ih]

theorem tellFirst_empty (call : String) (calls : List (String × String)) :
    tellFirst call "" calls = calls := by
  induction calls with
  | nil => rfl
  | cons c calls ih =>
      rw [tellFirst_cons]
      split
      · rw [String.append_empty]
      · rw [ih]

theorem tellFirst_of_not_mem {call delta : String} {calls : List (String × String)}
    (h : call ∉ calls.map Prod.fst) : tellFirst call delta calls = calls := by
  induction calls with
  | nil => rfl
  | cons c calls ih =>
      rw [List.map_cons, List.mem_cons, not_or] at h
      rw [tellFirst_cons, if_neg (Ne.symm h.1), ih h.2]

section Args

variable {call delta : String} {calls : List (String × String)}

/-- What is told of one call, to all the calls of a list. -/
theorem tellAll_args (h : hasType "TOOL_CALL_ARGS" event = true)
    (hcall : event.getStr? "toolCallId" = some call) : tellAll event calls =
      calls.map fun c => (c.1, c.2 ++ if c.1 = call then (event.getStr? "delta").getD "" else "") := by
  unfold tellAll argsFor
  rw [hcall]
  simp only [h, true_and, Option.some.injEq]
  refine List.map_congr_left fun c _ => ?_
  by_cases hc : c.1 = call
  · rw [if_pos hc, if_pos hc.symm]
  · rw [if_neg hc, if_neg (Ne.symm hc)]

theorem tellAll_other (h : hasType "TOOL_CALL_ARGS" event = false) : tellAll event calls = calls := by
  unfold tellAll argsFor
  simp [h]

/-- Of a call that is there once at most, all are told what the first is told. -/
theorem tellFirst_eq_map (h : (calls.map Prod.fst).count call ≤ 1) : tellFirst call delta calls =
    calls.map fun c => (c.1, c.2 ++ if c.1 = call then delta else "") := by
  induction calls with
  | nil => rfl
  | cons c calls ih =>
      rw [List.map_cons, List.count_cons] at h
      rw [tellFirst_cons]
      rw [List.map_cons]
      by_cases hc : c.1 = call
      · have hnone : call ∉ calls.map Prod.fst := by
          rw [← List.count_eq_zero]
          simp only [hc, beq_self_eq_true, if_true] at h
          omega
        rw [if_pos hc, if_pos hc]
        congr 1
        symm
        calc calls.map (fun c => (c.1, c.2 ++ if c.1 = call then delta else ""))
            = calls.map id := List.map_congr_left fun x hx => by
              have hne : x.1 ≠ call := fun he => hnone (he ▸ List.mem_map_of_mem hx)
              rw [if_neg hne, String.append_empty, id]
          _ = calls := List.map_id calls
      · simp only [beq_iff_eq, hc, if_false, Nat.add_zero] at h
        rw [if_neg hc, if_neg hc, String.append_empty, ih h]

theorem told_map : told (calls.map fun c => (c.1, c.2 ++ if c.1 = call then delta else "")) =
    told calls + (calls.map Prod.fst).count call * delta.length := by
  induction calls with
  | nil => simp [told]
  | cons c calls ih =>
      unfold told at ih ⊢
      rw [List.map_cons, List.map_cons, List.sum_cons, ih, List.map_cons, List.sum_cons,
        List.map_cons, List.count_cons]
      by_cases hc : c.1 = call
      · simp only [hc, if_true, String.length_append, beq_self_eq_true, Nat.add_mul, Nat.one_mul]
        omega
      · simp only [hc, if_false, String.append_empty, beq_iff_eq, Nat.add_zero]
        omega

theorem told_tellFirst (h : call ∈ calls.map Prod.fst) :
    told (tellFirst call delta calls) = told calls + delta.length := by
  induction calls with
  | nil => cases h
  | cons c calls ih =>
      rw [tellFirst_cons]
      by_cases hc : c.1 = call
      · rw [if_pos hc]
        unfold told
        simp only [List.map_cons, List.sum_cons, String.length_append]
        omega
      · rw [List.map_cons, List.mem_cons] at h
        have htail := ih (h.resolve_left (Ne.symm hc))
        rw [if_neg hc]
        unfold told at htail ⊢
        simp only [List.map_cons, List.sum_cons]
        omega

end Args

theorem freshResults_concat : FreshResults (events ++ [event]) ↔ FreshResults events ∧
    (hasType "TOOL_CALL_RESULT" event = true →
      ∀ id, messageOf event = some id → ¬ speaksOf events id) :=
  forall_cut_concat

end Order

namespace Reduction

variable {r r' : Reduction} {event : Json} {events : List Json} {id role call : String}

/-- The tool calls of a message with their arguments, none where it is not there. -/
def callsOf (r : Reduction) (id : String) : List (String × String) :=
  ((r.messages.get? id).elim [] HistoryEntry.toolCalls).map fun c => (c.id, c.arguments)

theorem callsOf_eq_nil (h : ¬ r.has id) : r.callsOf id = [] := by
  have hnone : r.messages.get? id = none := by simpa [has] using h
  unfold callsOf
  rw [hnone]
  rfl

theorem callsOf_assistantMessage {id' : String} :
    (r.assistantMessage id role).callsOf id' = r.callsOf id' := by
  unfold assistantMessage
  cases hget : r.messages.get? id with
  | some m => rfl
  | none =>
      unfold callsOf
      rw [Dict.get?_set]
      by_cases h : id = id'
      · subst h
        rw [if_pos rfl, hget]
        rfl
      · rw [if_neg h]

theorem callsOf_change {f : HistoryEntry → HistoryEntry}
    {g : List (String × String) → List (String × String)}
    (hf : ∀ m, (f m).toolCalls.map (fun c => (c.id, c.arguments)) =
      g (m.toolCalls.map fun c => (c.id, c.arguments))) (hhas : r.has id) {id' : String} :
    (r.change id f).callsOf id' = if id = id' then g (r.callsOf id') else r.callsOf id' := by
  obtain ⟨m, hm⟩ := Option.isSome_iff_exists.1 hhas
  unfold change callsOf
  rw [hm]
  dsimp only
  rw [Dict.get?_set]
  by_cases h : id = id'
  · subst h
    rw [if_pos rfl, if_pos rfl, hm]
    exact hf m
  · rw [if_neg h, if_neg h]

theorem callsOf_keep {f : HistoryEntry → HistoryEntry}
    (hf : ∀ m, (f m).toolCalls.map (fun c => (c.id, c.arguments)) =
      m.toolCalls.map fun c => (c.id, c.arguments)) {id' : String} :
    (r.change id f).callsOf id' = r.callsOf id' := by
  by_cases hhas : r.has id
  · rw [callsOf_change (g := fun calls => calls) hf hhas, ite_self]
  · have hnone : r.messages.get? id = none := by simpa [has] using hhas
    unfold change
    rw [hnone]

theorem map_changeCall_told (delta call : String) (calls : List ToolCall) :
    (changeCall (fun c => { c with arguments := c.arguments ++ delta }) call calls).map
        (fun c => (c.id, c.arguments)) =
      tellFirst call delta (calls.map fun c => (c.id, c.arguments)) := by
  induction calls with
  | nil => rfl
  | cons c calls ih =>
      unfold changeCall
      rw [List.map_cons, tellFirst_cons]
      by_cases hc : c.id = call
      · rw [if_pos hc, if_pos hc]
        rfl
      · rw [if_neg hc, if_neg hc, List.map_cons, ih]

/-- A tool call stands where it is listed. -/
theorem listed_of_parentOf {parent : String} (h : r.parentOf call = some parent) :
    r.has parent ∧ call ∈ (r.callsOf parent).map Prod.fst := by
  unfold parentOf at h
  obtain ⟨-, h⟩ := Option.filter_eq_some_iff.1 h
  obtain ⟨m, hm, hany⟩ := (Option.any_eq_true ..).1 h
  obtain ⟨c, hc, hid⟩ := List.any_eq_true.1 hany
  refine ⟨Option.isSome_iff_exists.2 ⟨m, hm⟩, ?_⟩
  unfold callsOf
  rw [hm, List.map_map]
  exact List.mem_map.2 ⟨c, hc, of_decide_eq_true hid⟩

/-- What the event tells the calls that stand under a message. -/
def heardBy (r : Reduction) (event : Json) (id : String) : List (String × String) :=
  if hasType "TOOL_CALL_ARGS" event ∧
      ((event.getStr? "toolCallId").bind r.parentOf) = some id then
    tellFirst ((event.getStr? "toolCallId").getD "") ((event.getStr? "delta").getD "")
      (r.callsOf id)
  else r.callsOf id

theorem heardBy_other (h : hasType "TOOL_CALL_ARGS" event = false) :
    r.heardBy event id = r.callsOf id := by
  unfold heardBy
  rw [if_neg]
  simp [h]

theorem startedUnder_other (h : hasType "TOOL_CALL_START" event = false) :
    startedUnder id event = none := by
  unfold startedUnder
  rw [if_neg]
  simp [h]

/-- **The calls.**  An event starts a call under a message or tells one its arguments, as
long as a tool result takes no message's place. -/
theorem Stepped.calls (h : Stepped event r r')
    (hfresh : hasType "TOOL_CALL_RESULT" event = true → ∀ id, messageOf event = some id → ¬ r.has id)
    (id : String) : r'.callsOf id =
      r.heardBy event id ++ ((startedUnder id event).map fun call => (call, "")).toList := by
  cases h with
  | opens role hid _ hstart hargs =>
      rw [callsOf_assistantMessage, heardBy_other hargs, startedUnder_other hstart]
      exact (List.append_nil _).symm
  | adds role text hid _ hstart hargs =>
      rw [add, callsOf_keep (by intro; rfl), callsOf_assistantMessage, heardBy_other hargs,
        startedUnder_other hstart]
      exact (List.append_nil _).symm
  | @announces call name h hcall =>
      have hargs : hasType "TOOL_CALL_ARGS" event = false := by
        rw [hasType_eq h]
        rfl
      unfold announce
      rw [heardBy_other hargs,
        callsOf_change (g := fun calls => calls ++ [(call, "")]) (by intro m; simp)
          (has_assistantMessage.2 (.inl rfl)), callsOf_assistantMessage]
      unfold startedUnder
      by_cases hid : parentId event = id
      · rw [if_pos hid, if_pos ⟨h, hid⟩, hcall]
        rfl
      · rw [if_neg hid, if_neg fun hc => hid hc.2]
        exact (List.append_nil _).symm
  | @tells call parent h hcall hparent =>
      have hstart : hasType "TOOL_CALL_START" event = false := by
        rw [hasType_eq h]
        rfl
      rw [startedUnder_other hstart, callsOf_change (g := tellFirst call _)
        (fun m => map_changeCall_told _ _ _) (listed_of_parentOf hparent).1, heardBy, hcall]
      simp only [h, Option.bind_some, hparent, Option.some.injEq, true_and, Option.getD_some]
      exact (List.append_nil _).symm
  | untold h hcall hparent =>
      have hstart : hasType "TOOL_CALL_START" event = false := by
        rw [hasType_eq h]
        rfl
      rw [startedUnder_other hstart, heardBy, hcall]
      simp only [Option.bind_some, hparent, reduceCtorEq, and_false, if_false]
      exact (List.append_nil _).symm
  | @answers x content call h hid =>
      have hargs : hasType "TOOL_CALL_ARGS" event = false := by
        rw [hasType_eq h]
        rfl
      have hstart : hasType "TOOL_CALL_START" event = false := by
        rw [hasType_eq h]
        rfl
      rw [heardBy_other hargs, startedUnder_other hstart]
      unfold answer callsOf
      dsimp only
      rw [Dict.get?_set]
      by_cases hx : x = id
      · subst hx
        rw [if_pos rfl]
        exact (callsOf_eq_nil (hfresh h x hid)).symm.trans (List.append_nil _).symm
      · rw [if_neg hx]
        exact (List.append_nil _).symm
  | keeps x hid hargs hf =>
      have hstart : hasType "TOOL_CALL_START" event = false := by
        by_contra hc
        unfold messageOf at hid
        rw [if_pos (by simpa using hc)] at hid
        cases hid
      rw [callsOf_keep fun m => (hf m).2, heardBy_other hargs, startedUnder_other hstart]
      exact (List.append_nil _).symm
  | passes hid hargs =>
      have hstart : hasType "TOOL_CALL_START" event = false := by
        by_contra hc
        unfold messageOf at hid
        rw [if_pos (by simpa using hc)] at hid
        cases hid
      rw [heardBy_other hargs, startedUnder_other hstart]
      exact (List.append_nil _).symm

/-- A tool message stays one. -/
theorem Stepped.tool (h : Stepped event r r')
    (htool : (r.messages.get? id).map HistoryEntry.role = some "tool") :
    (r'.messages.get? id).map HistoryEntry.role = some "tool" := by
  have hopen : ∀ {r : Reduction} {x role : String},
      (r.messages.get? id).map HistoryEntry.role = some "tool" →
      ((r.assistantMessage x role).messages.get? id).map HistoryEntry.role = some "tool" := by
    intro r x role h
    unfold assistantMessage
    cases hget : r.messages.get? x with
    | some m => exact h
    | none =>
        dsimp only
        rw [Dict.get?_set, if_neg]
        · exact h
        · rintro rfl
          rw [hget] at h
          cases h
  have hchange : ∀ {r : Reduction} {x : String} {f : HistoryEntry → HistoryEntry},
      (∀ m, (f m).role = m.role) →
      (r.messages.get? id).map HistoryEntry.role = some "tool" →
      ((r.change x f).messages.get? id).map HistoryEntry.role = some "tool" := by
    intro r x f hf h
    unfold change
    cases hget : r.messages.get? x with
    | none => exact h
    | some m =>
        dsimp only
        rw [Dict.get?_set]
        by_cases hx : x = id
        · subst hx
          rw [hget] at h
          rw [if_pos rfl, Option.map_some, hf]
          exact h
        · rwa [if_neg hx]
  cases h with
  | opens => exact hopen htool
  | adds => exact hchange (by intro; rfl) (hopen htool)
  | announces => exact hchange (by intro; rfl) (hopen htool)
  | tells => exact hchange (by intro; rfl) htool
  | untold => exact htool
  | @answers x =>
      unfold answer
      dsimp only
      rw [Dict.get?_set]
      by_cases hx : x = id
      · rw [if_pos hx]
        rfl
      · rwa [if_neg hx]
  | keeps _ _ _ hf => exact hchange (fun m => (hf m).1) htool
  | passes => exact htool

/-! ## A run -/

/-- The tables follow the events in what comes out of them. -/
structure Books (events : List Json) (r : Reduction) : Prop where
  follows : Matches events r
  mem : ∀ id, id ∈ r.order ↔ speaksOf events id
  fresh : FreshResults events → r.order = appearances events
  nodup : r.order.Nodup → FreshResults events
  results : ∀ e ∈ events, hasType "TOOL_CALL_RESULT" e = true → ∀ id, messageOf e = some id →
    (r.messages.get? id).map HistoryEntry.role = some "tool"

theorem Books.nil : Books [] {} := by
  refine ⟨.nil, fun id => ⟨nofun, fun ⟨_, h, _⟩ => nomatch h⟩, fun _ => rfl, fun _ => ?_, nofun⟩
  intro before event after h
  exact absurd h.symm (List.append_ne_nil_of_right_ne_nil _ (List.cons_ne_nil _ _))

/-- Whether the message an event is about is put in the order. -/
theorem Books.puts (hb : Books events r) (id : String) :
    (hasType "TOOL_CALL_RESULT" event || (r.messages.get? id).isNone) = true ↔
      hasType "TOOL_CALL_RESULT" event = true ∨ ¬ speaksOf events id := by
  rw [Bool.or_eq_true, ← hb.follows.messages, has]
  cases r.messages.get? id <;> simp

theorem Books.step (hb : Books events r) (hd : Does event r r') (hs : Stepped event r r') :
    Books (events ++ [event]) r' := by
  have horder := hs.order
  refine ⟨hb.follows.step hd, fun id => ?_, fun hfresh => ?_, fun hnodup => ?_, ?_⟩
  · have hspeaks : speaksOf (events ++ [event]) id ↔ speaksOf events id ∨ messageOf event = some id := by
      unfold speaksOf
      simp [or_and_right, exists_or]
    rw [horder, List.mem_append, hb.mem, hspeaks, List.mem_filter, Option.mem_toList, hb.puts]
    constructor
    · rintro (h | ⟨h, -⟩)
      · exact .inl h
      · exact .inr h
    · rintro (h | h)
      · exact .inl h
      · by_cases hold : speaksOf events id
        · exact .inl hold
        · exact .inr ⟨h, .inr hold⟩
  · rw [freshResults_concat] at hfresh
    rw [horder, appearances_concat, hb.fresh hfresh.1]
    congr 1
    refine List.filter_congr fun id hid => ?_
    rw [Bool.eq_iff_iff, hb.puts, decide_eq_true_iff]
    constructor
    · rintro (h | h)
      · exact hfresh.2 h id (Option.mem_toList.1 hid)
      · exact h
    · exact .inr
  · rw [horder, List.nodup_append'] at hnodup
    rw [freshResults_concat]
    refine ⟨hb.nodup hnodup.1, fun h id hid hspeaks => ?_⟩
    refine hnodup.2.2 ((hb.mem id).2 hspeaks) (List.mem_filter.2 ⟨Option.mem_toList.2 hid, ?_⟩)
    exact (hb.puts id).2 (.inl h)
  · intro e he hresult id hid
    rcases List.mem_append.1 he with he | he
    · exact hs.tool (hb.results e he hresult id hid)
    · rw [List.mem_singleton] at he
      subst he
      cases hs with
      | opens _ _ h _ _ => exact absurd (hresult.symm.trans h) nofun
      | adds _ _ _ h _ _ => exact absurd (hresult.symm.trans h) nofun
      | announces _ h _ => exact absurd (hasType_eq h "TOOL_CALL_RESULT" ▸ hresult) (by decide)
      | tells h _ _ => exact absurd (hasType_eq h "TOOL_CALL_RESULT" ▸ hresult) (by decide)
      | untold h _ _ => exact absurd (hasType_eq h "TOOL_CALL_RESULT" ▸ hresult) (by decide)
      | answers content call _ hid' =>
          cases hid.symm.trans hid'
          unfold answer
          dsimp only
          rw [Dict.get?_set, if_pos rfl]
          rfl
      | keeps _ h _ _ => exact absurd (hid.symm.trans h) nofun
      | passes h _ => exact absurd (hid.symm.trans h) nofun

/-! ## The arguments of a run -/

theorem told_started {calls : List (String × String)} {started : Option String} :
    told (calls ++ (started.map fun call => (call, "")).toList) = told calls := by
  unfold told
  cases started <;> simp

/-- A call is started under a message no more often than it is started. -/
theorem count_startedUnder_le (call id : String) (events : List Json) :
    (events.filterMap (startedUnder id)).count call ≤ events.countP (startsCall call) := by
  induction events with
  | nil => exact Nat.le_refl 0
  | cons e events ih =>
      have hone : ((startedUnder id e).toList.count call) ≤ if startsCall call e then 1 else 0 := by
        unfold startedUnder startsCall
        by_cases h : hasType "TOOL_CALL_START" e = true ∧ parentId e = id
        · rw [if_pos h]
          cases hc : e.getStr? "toolCallId" with
          | none => exact Nat.zero_le _
          | some c =>
              by_cases hcc : c = call
              · simp [h.1, hcc]
              · simp [hcc]
        · rw [if_neg h]
          exact Nat.zero_le _
      rw [List.filterMap_cons, List.countP_cons]
      cases hs : startedUnder id e with
      | none =>
          dsimp only
          omega
      | some c =>
          rw [hs] at hone
          dsimp only
          rw [List.count_cons]
          simp only [Option.toList_some, List.count_singleton] at hone
          omega

/-- A call that is started is started under some message. -/
theorem startedUnder_parent {call : String} (h : startsCall call event = true) :
    startedUnder (parentId event) event = some call := by
  obtain ⟨hstart, hcall⟩ := Bool.and_eq_true _ _ ▸ h
  unfold startedUnder
  rw [if_pos ⟨hstart, rfl⟩]
  exact of_decide_eq_true hcall

/-- A call that is started twice is started twice under one message, or under two. -/
theorem started_twice (call : String) (h : 2 ≤ events.countP (startsCall call)) :
    (∃ id, 2 ≤ (events.filterMap (startedUnder id)).count call) ∨
      ∃ id id', id ≠ id' ∧ call ∈ events.filterMap (startedUnder id) ∧
        call ∈ events.filterMap (startedUnder id') := by
  induction events with
  | nil => cases h
  | cons e events ih =>
      rw [List.countP_cons] at h
      have hmem : ∀ {id}, call ∈ events.filterMap (startedUnder id) →
          call ∈ (e :: events).filterMap (startedUnder id) := by
        intro id hcall
        rw [List.mem_filterMap] at hcall ⊢
        obtain ⟨x, hx, hxc⟩ := hcall
        exact ⟨x, List.mem_cons_of_mem e hx, hxc⟩
      by_cases hstart : startsCall call e = true
      · rw [if_pos hstart] at h
        have hpos : 0 < events.countP (startsCall call) := by omega
        obtain ⟨x, hx, hxs⟩ := List.countP_pos_iff.1 hpos
        have hfirst := startedUnder_parent hstart
        have hlater : call ∈ events.filterMap (startedUnder (parentId x)) :=
          List.mem_filterMap.2 ⟨x, hx, startedUnder_parent hxs⟩
        by_cases hp : parentId e = parentId x
        · left
          refine ⟨parentId e, ?_⟩
          rw [List.filterMap_cons, hfirst]
          dsimp only
          rw [List.count_cons_self]
          have := List.count_pos_iff.2 (hp ▸ hlater)
          omega
        · right
          refine ⟨parentId e, parentId x, hp, ?_, hmem hlater⟩
          exact List.mem_filterMap.2 ⟨e, List.mem_cons_self, hfirst⟩
      · rw [if_neg hstart, Nat.add_zero] at h
        rcases ih h with ⟨id, hid⟩ | ⟨id, id', hne, hid, hid'⟩
        · left
          refine ⟨id, Nat.le_trans hid ?_⟩
          rw [List.filterMap_cons]
          split
          · exact Nat.le_refl _
          · exact List.count_le_count_cons ..
        · exact .inr ⟨id, id', hne, hmem hid, hmem hid'⟩

theorem oneStart_concat : OneStart (events ++ [event]) ↔ OneStart events ∧
    ∀ call, argsFor call event ≠ "" → events.countP (startsCall call) ≤ 1 :=
  forall_cut_concat

/-- What the calls have been told, beside what is to be told of them. -/
structure Argued (events : List Json) (r : Reduction) : Prop where
  ids : ∀ id, (r.callsOf id).map Prod.fst = events.filterMap (startedUnder id)
  once : ∀ call, events.countP (startsCall call) ≤ 1 → ∀ id,
    call ∈ events.filterMap (startedUnder id) → r.parentOf call = some id
  exact : OneStart events → ∀ id, r.callsOf id = callsUnder id events
  most : ∀ id, told (r.callsOf id) ≤ told (callsUnder id events)
  lags : ¬ OneStart events → ∃ id, told (r.callsOf id) < told (callsUnder id events)

theorem Argued.nil : Argued [] {} := by
  refine ⟨fun _ => rfl, nofun, fun _ _ => rfl, fun _ => Nat.le_refl 0, fun h => absurd ?_ h⟩
  intro before event after hcut
  exact absurd hcut.symm (List.append_ne_nil_of_right_ne_nil _ (List.cons_ne_nil _ _))

/-- An event that tells arguments names the call. -/
theorem Stepped.named (h : Stepped event r r') (hargs : hasType "TOOL_CALL_ARGS" event = true) :
    ∃ call, event.getStr? "toolCallId" = some call := by
  cases h with
  | opens _ _ _ _ h => exact absurd (hargs.symm.trans h) nofun
  | adds _ _ _ _ _ h => exact absurd (hargs.symm.trans h) nofun
  | announces _ h _ => exact absurd (hasType_eq h "TOOL_CALL_ARGS" ▸ hargs) (by decide)
  | tells _ hcall _ => exact ⟨_, hcall⟩
  | untold _ hcall _ => exact ⟨_, hcall⟩
  | answers _ _ h _ => exact absurd (hasType_eq h "TOOL_CALL_ARGS" ▸ hargs) (by decide)
  | keeps _ _ h _ => exact absurd (hargs.symm.trans h) nofun
  | passes _ h => exact absurd (hargs.symm.trans h) nofun

section Args

variable {delta : String}

/-- What is told of a call is told where it stands. -/
theorem heardBy_args (hargs : hasType "TOOL_CALL_ARGS" event = true)
    (hcall : event.getStr? "toolCallId" = some call)
    (hdelta : (event.getStr? "delta").getD "" = delta) (id : String) : r.heardBy event id =
      if r.parentOf call = some id then tellFirst call delta (r.callsOf id) else r.callsOf id := by
  unfold heardBy
  rw [hcall, hdelta]
  simp only [hargs, true_and, Option.bind_some, Option.getD_some]

theorem Argued.heard (ha : Argued events r)
    (hone : ∀ call, argsFor call event ≠ "" → events.countP (startsCall call) ≤ 1)
    (hs : Stepped event r r') (id : String) : r.heardBy event id = tellAll event (r.callsOf id) := by
  cases hargs : hasType "TOOL_CALL_ARGS" event with
  | false => rw [heardBy_other hargs, tellAll_other hargs]
  | true =>
      obtain ⟨call, hcall⟩ := hs.named hargs
      obtain ⟨delta, hdelta⟩ : ∃ delta, (event.getStr? "delta").getD "" = delta := ⟨_, rfl⟩
      rw [heardBy_args hargs hcall hdelta, tellAll_args hargs hcall, hdelta]
      by_cases hempty : delta = ""
      · subst hempty
        rw [tellFirst_empty, ite_self]
        simp
      · have hle : events.countP (startsCall call) ≤ 1 := by
          apply hone
          unfold argsFor
          rw [if_pos ⟨hargs, hcall⟩, hdelta]
          exact hempty
        have hcount : ((r.callsOf id).map Prod.fst).count call ≤ 1 := by
          rw [ha.ids]
          exact Nat.le_trans (count_startedUnder_le call id events) hle
        rw [← tellFirst_eq_map hcount]
        split
        · rfl
        · rename_i hparent
          symm
          apply tellFirst_of_not_mem
          rw [ha.ids]
          exact fun hmem => hparent (ha.once call hle id hmem)

theorem told_heardBy (hargs : hasType "TOOL_CALL_ARGS" event = true)
    (hcall : event.getStr? "toolCallId" = some call)
    (hdelta : (event.getStr? "delta").getD "" = delta) (id : String) : told (r.heardBy event id) =
      told (r.callsOf id) + if r.parentOf call = some id then delta.length else 0 := by
  rw [heardBy_args hargs hcall hdelta]
  split
  · rename_i hparent
    exact told_tellFirst (listed_of_parentOf hparent).2
  · rfl

theorem told_tellAll (hargs : hasType "TOOL_CALL_ARGS" event = true)
    (hcall : event.getStr? "toolCallId" = some call)
    (hdelta : (event.getStr? "delta").getD "" = delta) (id : String) :
    told (tellAll event (callsUnder id events)) = told (callsUnder id events) +
      (events.filterMap (startedUnder id)).count call * delta.length := by
  rw [tellAll_args hargs hcall, hdelta, told_map, callsUnder_ids]

/-- A call that stands under a message is one of those started there. -/
theorem Argued.count_pos (ha : Argued events r) (h : r.parentOf call = some id) :
    0 < (events.filterMap (startedUnder id)).count call := by
  rw [← ha.ids]
  exact List.count_pos_iff.2 (listed_of_parentOf h).2

/-- The calls of a message are told no more than is to be told of them. -/
theorem Argued.told_grows (ha : Argued events r) (hs : Stepped event r r') (id : String) :
    told (r.heardBy event id) + told (callsUnder id events) ≤
      told (r.callsOf id) + told (tellAll event (callsUnder id events)) := by
  cases hargs : hasType "TOOL_CALL_ARGS" event with
  | false =>
      rw [heardBy_other hargs, tellAll_other hargs]
  | true =>
      obtain ⟨call, hcall⟩ := hs.named hargs
      rw [told_heardBy hargs hcall rfl, told_tellAll hargs hcall rfl]
      split
      · rename_i hparent
        have hle := Nat.le_mul_of_pos_left ((event.getStr? "delta").getD "").length
          (ha.count_pos hparent)
        omega
      · omega

/-- Arguments told of a call that was started twice miss one of the two. -/
theorem told_misses (hcalls : argsFor call event ≠ "") (htwice : 2 ≤ events.countP (startsCall call)) :
    ∃ id, told (r.heardBy event id) + told (callsUnder id events) <
      told (r.callsOf id) + told (tellAll event (callsUnder id events)) := by
  unfold argsFor at hcalls
  split at hcalls
  · rename_i h
    obtain ⟨hargs, hcall⟩ := h
    obtain ⟨delta, hdelta⟩ : ∃ delta, (event.getStr? "delta").getD "" = delta := ⟨_, rfl⟩
    rw [hdelta] at hcalls
    have hlength : 0 < delta.length := by
      refine Nat.pos_of_ne_zero fun hzero => hcalls ?_
      exact String.length_eq_zero_iff.1 hzero
    simp only [told_heardBy hargs hcall hdelta, told_tellAll hargs hcall hdelta]
    rcases started_twice call htwice with ⟨id, hid⟩ | ⟨id, id', hne, hid, hid'⟩
    · refine ⟨id, ?_⟩
      have hle := Nat.mul_le_mul_right delta.length hid
      split <;> omega
    · -- The call does not stand under both.
      have hmiss : ∀ x, call ∈ events.filterMap (startedUnder x) → r.parentOf call ≠ some x →
          told (r.callsOf x) + (if r.parentOf call = some x then delta.length else 0) +
              told (callsUnder x events) < told (r.callsOf x) + (told (callsUnder x events) +
            (events.filterMap (startedUnder x)).count call * delta.length) := by
        intro x hx hparent
        have hle := Nat.le_mul_of_pos_left delta.length (List.count_pos_iff.2 hx)
        rw [if_neg hparent]
        omega
      by_cases hparent : r.parentOf call = some id
      · refine ⟨id', hmiss id' hid' ?_⟩
        rw [hparent]
        exact fun h => hne (Option.some.inj h)
      · exact ⟨id, hmiss id hid hparent⟩
  · exact absurd rfl hcalls

end Args

theorem Argued.step (ha : Argued events r) (hb : Books events r) (hs : Stepped event r r')
    (hd : Does event r r') (hfresh : FreshResults (events ++ [event])) :
    Argued (events ++ [event]) r' := by
  rw [freshResults_concat] at hfresh
  have hcalls := hs.calls fun hresult id hid =>
    mt (hb.follows.messages id).1 (hfresh.2 hresult id hid)
  have hadds : ∀ id, told (r'.callsOf id) = told (r.heardBy event id) := by
    intro id
    rw [hcalls, told_started]
  have hunder : ∀ id, told (callsUnder id (events ++ [event])) =
      told (tellAll event (callsUnder id events)) := by
    intro id
    rw [callsUnder_concat, told_started]
  refine ⟨fun id => ?_, fun call hone id hmem => ?_, fun hone id => ?_, fun id => ?_, fun hnot => ?_⟩
  · have hheard : (r.heardBy event id).map Prod.fst = (r.callsOf id).map Prod.fst := by
      unfold heardBy
      split
      · exact tellFirst_ids ..
      · rfl
    rw [hcalls, List.map_append, hheard, ha.ids, List.filterMap_append]
    cases h : startedUnder id event <;> simp [h]
  · rw [List.countP_append] at hone
    rw [List.filterMap_append, List.mem_append] at hmem
    rw [hd.calls]
    rcases hmem with hmem | hmem
    · -- It was started before, so not now.
      have hpos := Nat.lt_of_lt_of_le (List.count_pos_iff.2 hmem)
        (count_startedUnder_le call id events)
      have hzero : [event].countP (startsCall call) = 0 := by omega
      have hnot : startsCall call event = false := by
        cases h : startsCall call event with
        | false => rfl
        | true => simp [h] at hzero
      have hold : r.parentOf call = some id := ha.once call (by omega) id hmem
      unfold standsAfter
      split
      · rename_i hstart
        rw [if_neg, hold]
        intro hcall
        simp [startsCall, hstart, hcall] at hnot
      · split
        · rename_i hresult
          rw [hold, Option.filter_some, if_pos]
          rw [decide_eq_true_iff]
          intro hid
          obtain ⟨e, he, hstarted⟩ := List.mem_filterMap.1 hmem
          refine hfresh.2 hresult id ?_ ⟨e, he, ?_⟩
          · rw [messageOf_named hresult (by decide), hid]
          · unfold startedUnder at hstarted
            split at hstarted
            · rename_i h
              rw [← h.2]
              exact if_pos h.1
            · cases hstarted
        · exact hold
    · rw [List.filterMap_cons] at hmem
      have hstarted : startedUnder id event = some call := by
        cases h : startedUnder id event with
        | none => simp [h] at hmem
        | some c =>
            rw [h] at hmem
            rw [List.mem_singleton.1 hmem]
      unfold startedUnder at hstarted
      split at hstarted
      · rename_i h
        unfold standsAfter
        rw [if_pos h.1, if_pos hstarted, h.2]
      · cases hstarted
  · rw [oneStart_concat] at hone
    rw [hcalls, callsUnder_concat, ha.heard hone.2 hs, ha.exact hone.1]
  · rw [hadds, hunder]
    have hmost := ha.most id
    have hgrows := ha.told_grows hs id
    omega
  · simp only [hadds, hunder]
    by_cases hone : OneStart events
    · have hbad : ¬ ∀ call, argsFor call event ≠ "" → events.countP (startsCall call) ≤ 1 :=
        fun h => hnot (oneStart_concat.2 ⟨hone, h⟩)
      rw [not_forall] at hbad
      obtain ⟨call, hbad⟩ := hbad
      rw [Classical.not_imp] at hbad
      obtain ⟨id, hid⟩ := told_misses (r := r) hbad.1
        (show 2 ≤ events.countP (startsCall call) by omega)
      have hmost := ha.most id
      exact ⟨id, by omega⟩
    · obtain ⟨id, hid⟩ := ha.lags hone
      have hgrows := ha.told_grows hs id
      exact ⟨id, by omega⟩

/-! ## The whole run -/

end Reduction

end Funduq.Doors
