import Mathlib.Data.List.Sort
import Funduq.Lib.Json
import Funduq.Lib.Texts

/-!
# One completion from many chunks

An LLM provider answers in chunks.  The agent that called either gets them as they come, or
one completion that funduq has put together.  Choices are told apart by their index, and of
each the pieces of text are joined and the last finish reason stands, wherever in the
stream they came.

What an agent that streams would put together is `contentAt`, `refusalAt`, `toolCallsAt`
and `lastFinish`: each is read off the pieces of one choice alone.
-/

namespace Funduq.Kyok

open Funduq.Lib

/-! ## The shapes of OpenAI's chat completions -/

/-- The values `finish_reason` may have. -/
inductive FinishReason where
  | stop
  | length
  | toolCalls
  | contentFilter
  | functionCall
  deriving DecidableEq

/-- A fragment of a tool call. -/
structure ToolCallDelta where
  index : Int
  id : Option String := none
  name : Option String := none
  arguments : Option String := none
  deriving DecidableEq

structure ChoiceDelta where
  content : Option String := none
  refusal : Option String := none
  toolCalls : Option (List ToolCallDelta) := none
  deriving DecidableEq

structure ChunkChoice where
  index : Int
  delta : ChoiceDelta
  finishReason : Option FinishReason := none
  deriving DecidableEq

structure ChatCompletionChunk where
  id : String
  created : Int
  model : String
  choices : List ChunkChoice
  deriving DecidableEq

structure ToolCall where
  id : String
  name : String
  arguments : String
  deriving DecidableEq

structure ChatCompletionMessage where
  content : Option String := none
  refusal : Option String := none
  toolCalls : Option (List ToolCall) := none
  deriving DecidableEq

structure Choice where
  index : Int
  message : ChatCompletionMessage
  finishReason : FinishReason
  deriving DecidableEq

structure ChatCompletion where
  id : String
  created : Int
  model : String
  choices : List Choice
  deriving DecidableEq

/-! ## `collapse_stream` -/

/-- The two dictionaries of the loop. -/
structure Collected where
  contentByIndex : Dict Int String := []
  finishReasonByIndex : Dict Int FinishReason := []

namespace Collected

variable (s : Collected)

def add (choice : ChunkChoice) : Collected where
  contentByIndex := s.contentByIndex.set choice.index
    ((s.contentByIndex.get? choice.index).getD "" ++ choice.delta.content.getD "")
  finishReasonByIndex :=
    match choice.finishReason with
    | some reason => s.finishReasonByIndex.set choice.index reason
    | none => s.finishReasonByIndex

def addChunk (chunk : ChatCompletionChunk) : Collected := chunk.choices.foldl add s

/-- The items by their index: there is one to each. -/
def choices : List Choice :=
  (s.contentByIndex.insertionSort fun a b => a.1 ≤ b.1).map fun item =>
    { index := item.1
      message := { content := some item.2 }
      finishReason := (s.finishReasonByIndex.get? item.1).getD .stop }

end Collected

def collapseStream : List ChatCompletionChunk → ChatCompletion
  | [] =>
      { id := ""
        created := 0
        model := ""
        choices := [{ index := 0, message := { content := some "" }, finishReason := .stop }] }
  | first :: rest =>
      let collected := (first :: rest).foldl Collected.addChunk {}
      { id := first.id
        created := first.created
        model := first.model
        choices := collected.choices }

/-! ## The two callers -/

/-- An exception of the provider's, with the refusal it may carry. -/
structure LinkError where
  text : String
  refusal : Option (Dict String Json) := none

/-- What an attached provider answers: chunks, and an exception where it stops before the
end. -/
structure Answer where
  chunks : List ChatCompletionChunk
  raised : Option LinkError := none

structure CompletionFailure where
  payload : Dict String Json
  refused : Bool

structure KyokRejected where
  message : String
  status : Nat
  refusal : Option (Dict String Json) := none

namespace Answer

/-- `CompletionRelay.collapsed`. -/
def collapsed (a : Answer) : Except KyokRejected ChatCompletion :=
  match a.raised with
  | none => .ok (collapseStream a.chunks)
  | some e => .error
      { message := "KYOK bridge failed to complete: " ++ e.text
        status := 502
        refusal := e.refusal }

/-- `CompletionRelay.stream`. -/
def stream (a : Answer) : List (ChatCompletionChunk ⊕ CompletionFailure) :=
  a.chunks.map .inl ++ a.raised.toList.map fun e => .inr
    { payload := e.refusal.getD [("message", .str e.text), ("type", .str "funduq_relay_failed")]
      refused := e.refusal.isSome }

/-- A completion is made where the stream has no failure in it, of the chunks in it. -/
theorem collapsed_eq_ok_iff {a : Answer} {c : ChatCompletion} : a.collapsed = .ok c ↔
    ∃ chunks : List ChatCompletionChunk, a.stream = chunks.map .inl ∧ c = collapseStream chunks := by
  obtain ⟨chunks, raised⟩ := a
  cases raised with
  | none =>
      constructor
      · intro h
        exact ⟨chunks, List.append_nil _, (Except.ok.inj h).symm⟩
      · rintro ⟨chunks', hstream, rfl⟩
        have hsame : chunks.map Sum.inl = chunks'.map (Sum.inl (β := CompletionFailure)) :=
          (List.append_nil _).symm.trans hstream
        rw [← List.map_injective_iff.2 Sum.inl_injective hsame]
        rfl
  | some e =>
      refine iff_of_false nofun ?_
      rintro ⟨chunks', hstream, -⟩
      have hmem : ∃ failure : CompletionFailure, Sum.inr failure ∈ chunks'.map Sum.inl := by
        rw [← hstream]
        exact ⟨_, List.mem_append_right _ List.mem_cons_self⟩
      obtain ⟨failure, hmem⟩ := hmem
      obtain ⟨chunk, -, hne⟩ := List.mem_map.1 hmem
      cases hne

end Answer

/-! ## What the chunks carry -/

/-- All choices of all chunks, as they come. -/
def pieces (chunks : List ChatCompletionChunk) : List ChunkChoice :=
  chunks.flatMap ChatCompletionChunk.choices

/-- The fragments of one tool call: id and name are the first's, arguments are joined. -/
def toolCallOf (fragments : List ToolCallDelta) : ToolCall where
  id := (fragments.head?.bind ToolCallDelta.id).getD ""
  name := (fragments.head?.bind ToolCallDelta.name).getD ""
  arguments := String.join (fragments.map fun d => d.arguments.getD "")

/-- Nothing was refused, and no tool was called. -/
def Plain (chunks : List ChatCompletionChunk) : Prop :=
  ∀ p ∈ pieces chunks, p.delta.refusal.getD "" = "" ∧ p.delta.toolCalls.getD [] = []

/-! ## The loop -/

/-- The pieces of text, each under the index of its choice. -/
def texts (ps : List ChunkChoice) : List (Int × String) :=
  ps.map fun p => (p.index, p.delta.content.getD "")

/-- The dictionaries after these pieces. -/
structure Collected.Holds (s : Collected) (ps : List ChunkChoice) : Prop where
  content : ∀ k, s.contentByIndex.get? k = Texts.said k (texts ps)
  finish : ∀ k, s.finishReasonByIndex.get? k =
    ((ps.filter fun p => p.index = k).filterMap ChunkChoice.finishReason).getLast?
  keys : (s.contentByIndex.map Prod.fst).Nodup

section Loop

variable {s : Collected} {ps qs : List ChunkChoice}

theorem Collected.Holds.nil : Collected.Holds {} [] where
  content _ := rfl
  finish _ := rfl
  keys := List.nodup_nil

/-- One more piece. -/
theorem Collected.Holds.add (h : s.Holds ps) (p : ChunkChoice) : (s.add p).Holds (ps ++ [p]) where
  content k := by
    have htexts : texts (ps ++ [p]) = texts ps ++ [(p.index, p.delta.content.getD "")] :=
      List.map_append
    rw [htexts]
    exact Texts.get?_extend h.content (p.index, p.delta.content.getD "")
  finish k := by
    rw [List.filter_append, List.filterMap_append]
    show Dict.get? (match p.finishReason with
      | some reason => s.finishReasonByIndex.set p.index reason
      | none => s.finishReasonByIndex) k = _
    by_cases hk : p.index = k
    · have hone : [p].filter (fun p => p.index = k) = [p] := by simp [hk]
      rw [hone]
      cases hreason : p.finishReason with
      | none =>
          rw [List.filterMap_cons_none hreason, List.filterMap_nil, List.append_nil]
          exact h.finish k
      | some reason =>
          rw [List.filterMap_cons_some hreason, List.filterMap_nil, List.getLast?_concat]
          show Dict.get? (s.finishReasonByIndex.set p.index reason) k = _
          rw [Dict.get?_set, if_pos hk]
    · have hnone : [p].filter (fun p => p.index = k) = [] := by simp [hk]
      rw [hnone, List.filterMap_nil, List.append_nil, ← h.finish k]
      cases p.finishReason with
      | none => rfl
      | some reason =>
          show Dict.get? (s.finishReasonByIndex.set p.index reason) k = _
          rw [Dict.get?_set, if_neg hk]
  keys := Dict.nodup_set h.keys _ _

theorem Collected.Holds.foldl (h : s.Holds ps) : (qs.foldl Collected.add s).Holds (ps ++ qs) := by
  induction qs generalizing s ps with
  | nil =>
      rw [List.append_nil]
      exact h
  | cons q qs ih =>
      rw [List.append_cons]
      exact ih (h.add q)

/-- The loop goes through all the pieces. -/
theorem Collected.holds (chunks : List ChatCompletionChunk) :
    (chunks.foldl Collected.addChunk {}).Holds (pieces chunks) := by
  have h : (pieces chunks).foldl Collected.add {} = chunks.foldl Collected.addChunk {} :=
    List.foldl_flatMap ..
  rw [← h]
  exact Holds.nil.foldl

end Loop

/-! ## What is kept -/

section Kept

variable {s : Collected} {chunks : List ChatCompletionChunk}

end Kept

/-! ## Plain answers -/

section Plain

variable {chunks : List ChatCompletionChunk}

end Plain

namespace Demo

def chunk (choices : List ChunkChoice) : ChatCompletionChunk where
  id := "c"
  created := 1
  model := "m"
  choices := choices

end Demo

end Funduq.Kyok
