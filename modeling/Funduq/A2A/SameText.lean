import Funduq.A2A.Recorded

/-!
# What a task shows and what the history keeps

The artifacts of a task and the messages of its thread are made of the same events, by
two readers that each know types of event the other does not: a text chunk is text to a
task and nothing to the history, a reasoning text or a tool result the other way round.
They tell the same text under an id where what only one of them reads under it is empty
(`same_text_iff`), and a chunk with a text is enough to part them
(`chunk_only_shown`).
-/

namespace Funduq.A2A

open Funduq.Lib Funduq.Doors
open Funduq.Broker (hasType runFinished)

/-- The artifact a text belongs to. -/
def artifactOf (event : Json) : String := (textUnder event "messageId").getD "text"

/-- The text an event adds to its artifact. -/
def pieceOf (event : Json) : String :=
  ((textUnder event "delta").or (textUnder event "content")).getD ""

/-- A text under this id that the history does not read: a chunk, a text that names its
message no other way than by leaving it out, or one with nothing in its `delta`. -/
def OnlyShown (id : String) (event : Json) : Prop :=
  isText event = true ∧ artifactOf event = id ∧
    ¬ (hasType "TEXT_MESSAGE_CONTENT" event = true ∧ event.getStr? "messageId" = some id ∧
      textUnder event "delta" ≠ none)

instance (id : String) (event : Json) : Decidable (OnlyShown id event) := by
  unfold OnlyShown
  infer_instance

/-- A text under this id that only the history reads. -/
def OnlyKept (id : String) (event : Json) : Prop :=
  hasType "REASONING_MESSAGE_CONTENT" event = true ∧ event.getStr? "messageId" = some id

instance (id : String) (event : Json) : Decidable (OnlyKept id event) := by
  unfold OnlyKept
  infer_instance

/-- No tool result takes the place of the message of this id. -/
def NoResult (id : String) (events : List Json) : Prop :=
  ∀ e ∈ events, hasType "TOOL_CALL_RESULT" e = true → e.getStr? "messageId" ≠ some id

/-- Nothing the history leaves out is said under this id. -/
def NothingShown (id : String) (events : List Json) : Prop :=
  ∀ e ∈ events, OnlyShown id e → pieceOf e = ""

/-- Nothing a task leaves out is said under this id. -/
def NothingKept (id : String) (events : List Json) : Prop :=
  ∀ e ∈ events, OnlyKept id e → addedBy e = ""

/-- What the two readers need to return and to tell the same under an id. -/
structure Even (holds : Json → Bool) (id : String) (events : List Json) : Prop where
  readable : Readable events
  joinable : ∀ e ∈ events, isText e = true → TextReadable e
  room : ∀ e ∈ events, isMapped e = false → holds e = true
  named : id ≠ ""
  spoken : speaksOf events id
  noResult : NoResult id events
  nothingShown : NothingShown id events
  nothingKept : NothingKept id events

/-- Of what only one of the two reads there is no tool result under the id, and text on
one side at most. -/
def OneSided (id : String) (events : List Json) : Prop :=
  NoResult id events ∧ (NothingShown id events ∨ NothingKept id events)

/-- The artifact of this id in the task of a completed run tells what the message of this
id tells. -/
def SameText (holds : Json → Bool) (id : String) (events : List Json) : Prop :=
  ∃ history, reduceEventsToMessages events = .ok history ∧
    ∀ taskId contextId threadMessages historyLength cancelRequested, ∃ task text,
      readBuildTask holds taskId contextId .completed events threadMessages historyLength
        cancelRequested events = .ok task ∧
      task.artifacts.get? id = some text ∧
      (∃ m ∈ history, m.id = id) ∧ ∀ m ∈ history, m.id = id → m.content = text

/-! ## Event by event -/

/-- What an event adds to the artifact of this id. -/
def shownUnder (id : String) (event : Json) : String :=
  if isText event = true ∧ artifactOf event = id then pieceOf event else ""

/-- What an event adds to the message of this id. -/
def keptUnder (id : String) (event : Json) : String :=
  if messageOf event = some id then addedBy event else ""

variable {id : String} {event : Json} {events : List Json} {holds : Json → Bool}

theorem textDeltaOf_eq : textDeltaOf event =
    if isText event then some (artifactOf event, pieceOf event) else none := rfl

/-- A type the history keeps no text of. -/
theorem keptUnder_of_other (hcontent : hasType "TEXT_MESSAGE_CONTENT" event = false)
    (hreasoning : hasType "REASONING_MESSAGE_CONTENT" event = false) : keptUnder id event = "" := by
  unfold keptUnder addedBy
  rw [hcontent, hreasoning]
  exact ite_self ""

theorem keptUnder_of_content (h : hasType "TEXT_MESSAGE_CONTENT" event = true ∨
      hasType "REASONING_MESSAGE_CONTENT" event = true) : keptUnder id event =
    if event.getStr? "messageId" = some id then (event.getStr? "delta").getD "" else "" := by
  have hadded : addedBy event = (event.getStr? "delta").getD "" := by
    unfold addedBy
    rcases h with h | h <;> simp [h]
  unfold keptUnder
  rw [hadded]
  rcases h with h | h
  · rw [Reduction.messageOf_named h (by decide)]
  · rw [Reduction.messageOf_named h (by decide)]

theorem textUnder_eq_none {key : String} (h : textUnder event key = none) :
    (event.getStr? key).getD "" = "" := by
  unfold textUnder at h
  cases hget : event.getStr? key with
  | none => rfl
  | some s =>
      rw [hget] at h
      simpa [Option.filter] using h

theorem textUnder_eq_some {key s : String} (h : textUnder event key = some s) :
    event.getStr? key = some s := by
  unfold textUnder at h
  exact (Option.filter_eq_some_iff.1 h).1

/-- A text only a task reads is not in the history. -/
theorem kept_of_onlyShown (h : OnlyShown id event) :
    shownUnder id event = pieceOf event ∧ keptUnder id event = "" := by
  obtain ⟨htext, hartifact, hnot⟩ := h
  refine ⟨if_pos ⟨htext, hartifact⟩, ?_⟩
  by_cases hc : hasType "TEXT_MESSAGE_CONTENT" event = true
  · rw [keptUnder_of_content (.inl hc)]
    by_cases hm : event.getStr? "messageId" = some id
    · rw [if_pos hm]
      apply textUnder_eq_none
      by_contra hdelta
      exact hnot ⟨hc, hm, hdelta⟩
    · rw [if_neg hm]
  · have hchunk : hasType "TEXT_MESSAGE_CHUNK" event = true := by
      simpa [isText, hc] using htext
    apply keptUnder_of_other
    · simpa using hc
    · rw [Reduction.hasType_eq hchunk]
      rfl

theorem shown_of_onlyKept (h : OnlyKept id event) :
    shownUnder id event = "" ∧ keptUnder id event = addedBy event := by
  obtain ⟨hr, hm⟩ := h
  have htext : isText event = false := by
    unfold isText
    rw [Reduction.hasType_eq hr, Reduction.hasType_eq hr]
    rfl
  constructor
  · unfold shownUnder
    rw [htext]
    simp
  · unfold keptUnder
    rw [Reduction.messageOf_named hr (by decide), if_pos hm]

/-- Both read any other event under the id alike. -/
theorem shown_eq_kept (hid : id ≠ "") (hshown : ¬ OnlyShown id event)
    (hkept : ¬ OnlyKept id event) : shownUnder id event = keptUnder id event := by
  unfold shownUnder
  by_cases h : isText event = true ∧ artifactOf event = id
  · rw [if_pos h]
    have hboth := not_not.1 fun hnot => hshown ⟨h.1, h.2, hnot⟩
    obtain ⟨hc, hm, hdelta⟩ := hboth
    obtain ⟨d, hd⟩ := Option.ne_none_iff_exists'.1 hdelta
    rw [keptUnder_of_content (.inl hc), if_pos hm, textUnder_eq_some hd, pieceOf, hd]
    rfl
  · rw [if_neg h]
    by_cases hc : hasType "TEXT_MESSAGE_CONTENT" event = true
    · rw [keptUnder_of_content (.inl hc), if_neg]
      intro hm
      refine h ⟨by simp [isText, hc], ?_⟩
      unfold artifactOf textUnder
      rw [hm]
      simp [Option.filter, hid]
    · by_cases hr : hasType "REASONING_MESSAGE_CONTENT" event = true
      · rw [keptUnder_of_content (.inr hr), if_neg]
        exact fun hm => hkept ⟨hr, hm⟩
      · rw [keptUnder_of_other (by simpa using hc) (by simpa using hr)]

/-! ## The two texts -/

/-- A text under its own id makes an artifact of the id, with all that is shown there. -/
theorem artifact_text (hid : id ≠ "")
    (hspoken : ∃ e ∈ events, isText e = true ∧ e.getStr? "messageId" = some id) :
    (Texts.merged (deltas events)).get? id =
      some (String.join (events.map (shownUnder id))) := by
  have hunder : Texts.under id (deltas events) ≠ [] := by
    rw [ne_eq, Texts.under_eq_nil_iff]
    intro hall
    obtain ⟨e, he, htext, hm⟩ := hspoken
    refine hall (id, pieceOf e) (List.mem_filterMap.2 ⟨e, he, ?_⟩) rfl
    rw [textDeltaOf_eq, if_pos htext, artifactOf, textUnder, hm]
    simp [Option.filter, hid]
  rw [Texts.get?_merged, Texts.said_of_under hunder]
  congr 1
  apply Texts.join_under
  intro e
  rw [textDeltaOf_eq]
  unfold shownUnder
  by_cases htext : isText e = true
  · simp [htext]
  · simp [htext]

/-- No artifact has the empty id. -/
theorem no_empty_artifact : (Texts.merged (deltas events)).get? "" = none := by
  rw [Texts.get?_merged, Texts.said_eq_none_iff]
  intro p hp
  obtain ⟨e, -, hdelta⟩ := List.mem_filterMap.1 hp
  rw [textDeltaOf_eq] at hdelta
  split at hdelta
  · cases hdelta
    unfold artifactOf
    cases h : textUnder e "messageId" with
    | none => exact (by decide : "text" ≠ "")
    | some s =>
        have := (Option.filter_eq_some_iff.1 h).2
        simpa using this
  · cases hdelta

/-- The message of an id no tool result names has all that is kept under it. -/
theorem message_text (hno : NoResult id events) (text : Option String) :
    events.foldl (contentAfter id) text =
      if text.isSome = true ∨ speaksOf events id then
        some (text.getD "" ++ String.join (events.map (keptUnder id)))
      else none := by
  induction events generalizing text with
  | nil =>
      have hnone : ¬ speaksOf [] id := nofun
      cases text with
      | none => simp [hnone]
      | some s => simp
  | cons e es ih =>
      rw [List.foldl_cons, ih fun e' he' => hno e' (List.mem_cons_of_mem e he'), List.map_cons,
        String.join_cons]
      have hspeaks : speaksOf (e :: es) id ↔ messageOf e = some id ∨ speaksOf es id := by
        unfold speaksOf
        simp
      by_cases hm : messageOf e = some id
      · have hresult : hasType "TOOL_CALL_RESULT" e = false := by
          by_contra h
          have h := Bool.eq_true_of_not_eq_false h
          refine hno e List.mem_cons_self h ?_
          rw [← Reduction.messageOf_named h (by decide), hm]
        have hafter : contentAfter id text e = some (text.getD "" ++ addedBy e) := by
          unfold contentAfter
          rw [if_pos hm, hresult]
          rfl
        rw [hafter, if_pos (.inl rfl), if_pos (.inr (hspeaks.2 (.inl hm))), keptUnder, if_pos hm]
        simp [String.append_assoc]
      · have hafter : contentAfter id text e = text := if_neg hm
        have hrest : speaksOf (e :: es) id ↔ speaksOf es id := by
          rw [hspeaks, or_iff_right hm]
        rw [hafter, keptUnder, if_neg hm, String.empty_append]
        simp only [hrest]

/-- What the history tells under an id. -/
theorem history_text (hty : ∀ e ∈ events, Typed e) (hno : NoResult id events)
    {history : List HistoryEntry} (h : reduceEventsToMessages events = .ok history)
    {text : String} :
    ((∃ m ∈ history, m.id = id) ∧ ∀ m ∈ history, m.id = id → m.content = text) ↔
      speaksOf events id ∧ text = String.join (events.map (keptUnder id)) := by
  obtain ⟨r, hrun, rfl⟩ := map_eq_ok.1 h
  rw [Reduction.history_tells (Reduction.Ordered.nil.run hrun),
    Reduction.contentOf_run .nil hty hrun, message_text hno]
  have hnone : ¬ (Option.isSome (Reduction.contentOf {} id) = true) := nofun
  by_cases hspeaks : speaksOf events id
  · rw [if_pos (.inr hspeaks)]
    show some ("" ++ _) = some text ↔ _
    rw [String.empty_append, Option.some.injEq, and_iff_right hspeaks]
    exact eq_comm
  · rw [if_neg (by simp [hnone, hspeaks])]
    simp [hspeaks]

/-- Where one side alone says more than the other, the same text on both means it says
nothing more. -/
theorem nothing_of_join_eq (hid : id ≠ "") (hside : NothingShown id events ∨ NothingKept id events)
    (hjoin : String.join (events.map (shownUnder id)) = String.join (events.map (keptUnder id))) :
    NothingShown id events ∧ NothingKept id events := by
  rcases hside with hnone | hnone
  · have heach := Texts.eq_of_join_eq (f := shownUnder id) (g := keptUnder id) (fun e he => by
      by_cases hshown : OnlyShown id e
      · exact .inr ((kept_of_onlyShown hshown).1.trans (hnone e he hshown))
      · by_cases hkept : OnlyKept id e
        · exact .inr (shown_of_onlyKept hkept).1
        · exact .inl (shown_eq_kept hid hshown hkept)) hjoin
    refine ⟨hnone, fun e he hkept => ?_⟩
    obtain ⟨hs, hk⟩ := shown_of_onlyKept hkept
    rw [← hk, ← heach e he, hs]
  · have heach := Texts.eq_of_join_eq (f := keptUnder id) (g := shownUnder id) (fun e he => by
      by_cases hkept : OnlyKept id e
      · exact .inr ((shown_of_onlyKept hkept).2.trans (hnone e he hkept))
      · by_cases hshown : OnlyShown id e
        · exact .inr (kept_of_onlyShown hshown).2
        · exact .inl (shown_eq_kept hid hshown hkept).symm) hjoin.symm
    refine ⟨fun e he hshown => ?_, hnone⟩
    obtain ⟨hs, hk⟩ := kept_of_onlyShown hshown
    rw [← hs, ← heach e he, hk]

variable {cfg : Broker.Config}

/-- What is recorded of a run tells the same text twice where what only one reader reads
is empty; and where that is on one side only, nowhere else. -/
theorem same_text_iff (hv : Validates cfg) (hrec : ∀ e ∈ events, Recorded cfg e)
    (hspoken : ∃ e ∈ events, isText e = true ∧ e.getStr? "messageId" = some id) :
    (Even holds id events → SameText holds id events) ∧
      (OneSided id events → (SameText holds id events ↔ Even holds id events)) := by
  have hty : ∀ e ∈ events, Typed e := fun e he => (hrec e he).typed hv
  have hpiece : ∀ e ∈ events, isText e = true → Piece e := fun e he => (hrec e he).piece hv
  have hout : ∀ e ∈ events, hasType runFinished e = true → Outcome e :=
    fun e he => (hrec e he).outcome hv
  have hsuff : Even holds id events → SameText holds id events := by
    intro h
    have hsame : events.map (shownUnder id) = events.map (keptUnder id) := by
      refine List.map_congr_left fun e he => ?_
      by_cases hshown : OnlyShown id e
      · obtain ⟨hs, hk⟩ := kept_of_onlyShown hshown
        rw [hs, hk, h.nothingShown e he hshown]
      · by_cases hkept : OnlyKept id e
        · obtain ⟨hs, hk⟩ := shown_of_onlyKept hkept
          rw [hs, hk, h.nothingKept e he hkept]
        · exact shown_eq_kept h.named hshown hkept
    obtain ⟨history, hhistory⟩ := (reduces_iff hty).2 h.readable
    refine ⟨history, hhistory, fun taskId contextId threadMessages historyLength cancelled => ?_⟩
    have hasks := asks_of_readable hty hout h.readable (List.suffix_refl events)
    obtain ⟨task, htask⟩ := readBuildTask_isOk.2
      ⟨readTaskState_isOk hasks, (readDeltas_isOk hpiece).2 h.joinable, h.room⟩
    refine ⟨task, _, htask, ?_, (history_text hty h.noResult hhistory).2 ⟨h.spoken, rfl⟩⟩
    rw [readBuildTask_eq htask, buildTask_artifacts, artifact_text h.named hspoken, hsame]
  refine ⟨hsuff, fun hside => ⟨fun h => ?_, hsuff⟩⟩
  obtain ⟨hno, hside⟩ := hside
  obtain ⟨history, hhistory, htasks⟩ := h
  obtain ⟨task, text, htask, hartifact, htells⟩ := htasks "" "" [] none false
  obtain ⟨-, hpieces, hroom⟩ := readBuildTask_isOk.1 ⟨task, htask⟩
  rw [readBuildTask_eq htask, buildTask_artifacts] at hartifact
  have hid : id ≠ "" := by
    rintro rfl
    rw [no_empty_artifact] at hartifact
    cases hartifact
  obtain ⟨hspeaks, htext⟩ := (history_text hty hno hhistory).1 htells
  rw [artifact_text hid hspoken, Option.some.injEq, htext] at hartifact
  have hboth := nothing_of_join_eq hid hside hartifact
  exact ⟨(reduces_iff hty).1 ⟨history, hhistory⟩, (readDeltas_isOk hpiece).1 hpieces, hroom, hid,
    hspeaks, hno, hboth.1, hboth.2⟩

/-! ## A chunk -/

namespace Demo

/-- A text told in one chunk. -/
def chunk : List Json :=
  [.obj [("type", .str "TEXT_MESSAGE_CHUNK"), ("messageId", .str "m"), ("delta", .str "hi")],
    .obj [("type", .str runFinished)]]

end Demo

theorem same_text_iff_talk : SameText (fun _ => true) "m" Demo.talk := by
  have hrec : ∀ e ∈ Demo.talk, Recorded Demo.models e := by
    intro e he
    simp only [Demo.talk, List.mem_cons, List.not_mem_nil, or_false] at he
    rcases he with rfl | rfl | rfl | rfl <;> exact Demo.recorded_of (by decide)
  refine (same_text_iff Demo.models_validate hrec ⟨_, List.mem_cons_self, by decide, rfl⟩).1 ?_
  refine ⟨?_, by decide, fun _ _ _ => rfl, by decide, by decide, ?_, ?_, ?_⟩
  · exact (reduces_iff fun e he => (hrec e he).typed Demo.models_validate).1 ⟨_, rfl⟩
  · unfold NoResult
    decide
  · unfold NothingShown
    decide
  · unfold NothingKept
    decide

/-- A text told in one chunk is an artifact of the task and no message of the history. -/
theorem chunk_only_shown :
    Validates Demo.models ∧ (∀ e ∈ Demo.chunk, Recorded Demo.models e) ∧
      finished Demo.chunk = true ∧
      (∃ e ∈ Demo.chunk, isText e = true ∧ e.getStr? "messageId" = some "m") ∧
      (∃ task, readBuildTask (fun _ => true) "t" "t" .completed Demo.chunk [] none false
        Demo.chunk = .ok task ∧ task.artifacts = [("m", "hi")]) ∧
      reduceEventsToMessages Demo.chunk = .ok [] ∧
      ¬ SameText (fun _ => true) "m" Demo.chunk := by
  refine ⟨Demo.models_validate, ?_, by decide, ⟨_, List.mem_cons_self, by decide, rfl⟩,
    ⟨_, rfl, by decide⟩, rfl, fun h => ?_⟩
  · intro e he
    simp only [Demo.chunk, List.mem_cons, List.not_mem_nil, or_false] at he
    rcases he with rfl | rfl <;> exact Demo.recorded_of (by decide)
  · obtain ⟨history, hhistory, htasks⟩ := h
    obtain ⟨task, text, -, -, ⟨m, hm, -⟩, -⟩ := htasks "t" "t" [] none false
    cases hhistory
    cases hm

end Funduq.A2A
