import Mathlib.Data.List.Induction
import Funduq.Doors.Calls

/-!
# Which answers complete an ask

Asks have one space of ids.  An interrupt is known by the tool call it is about, where
it names one, and by its own id otherwise; a tool call that was announced and got no
result is known by its own.  A tool message answers a call that no interrupt is known
by, a `resume` entry whatever its interrupt is known by.

So a whole answer is one that has an entry for each interrupt, or for another known by
the same ask, and a tool message for each of the other calls.
-/

namespace Funduq.Doors

open Funduq.Lib
open Funduq.Broker (hasType)

variable {events messages : List Json} {resume : Option (List Json)} {ask id : String}

/-! ## Asks -/

/-- A tool call was announced, and no result of it was ever reported. -/
structure LeftOpen (events : List Json) (id : String) : Prop where
  announced : ∃ e ∈ events, hasType "TOOL_CALL_START" e = true ∧ e.getStr? "toolCallId" = some id
  unanswered : ∀ e ∈ events, hasType "TOOL_CALL_RESULT" e = true → e.getStr? "toolCallId" ≠ some id

theorem mem_unansweredToolCalls : id ∈ unansweredToolCalls events ↔ LeftOpen events id := by
  unfold unansweredToolCalls
  simp only [List.mem_filter, List.mem_filterMap, decide_eq_true_eq]
  constructor
  · rintro ⟨⟨e, ⟨he, htype⟩, hid⟩, hno⟩
    exact ⟨⟨e, he, htype, hid⟩, fun r hr hres hrid => hno ⟨r, ⟨hr, hres⟩, hrid⟩⟩
  · rintro ⟨⟨e, he, htype, hid⟩, hno⟩
    exact ⟨⟨e, ⟨he, htype⟩, hid⟩, fun ⟨r, ⟨hr, hres⟩, hrid⟩ => hno r hr hres hrid⟩

/-- An interrupt the run finished on is known by this ask. -/
def Interrupts (events : List Json) (ask : String) : Prop :=
  ∃ i ∈ interruptsOf events, askOf i = some ask

theorem mem_openAsks (hfin : finished events = true) : ask ∈ openAsks events ↔
    (LeftOpen events ask ∨ Interrupts events ask) ∧ ask ≠ "" := by
  unfold openAsks Interrupts
  rw [if_pos hfin, List.mem_dedup, List.mem_filter, List.mem_append, mem_unansweredToolCalls,
    List.mem_filterMap, decide_eq_true_eq]

/-- An interrupt with an id is known by something. -/
theorem askOf_isSome {i : Json} (hid : i.getStr? "id" = some id) (hne : id ≠ "") :
    ∃ ask, askOf i = some ask ∧ ask ≠ "" := by
  unfold askOf
  split
  · rename_i call _
    by_cases hcall : call = ""
    · exact ⟨id, by rw [if_neg (not_not_intro hcall), hid], hne⟩
    · exact ⟨call, if_pos hcall, hcall⟩
  · exact ⟨id, hid, hne⟩

/-! ## Answers -/

/-- What the interrupts are known by, under their ids. -/
def toolCallOf (interrupts : List Json) : Dict String String :=
  interrupts.foldl
    (fun d i =>
      match i.getStr? "id", askOf i with
      | some id, some ask => if id ≠ "" then d.set id ask else d
      | _, _ => d) []

/-- The interrupts have ids, pairwise distinct and none of them empty. -/
structure Identified (interrupts : List Json) : Prop where
  distinct : (interrupts.map fun i => i.getStr? "id").Nodup
  named : ∀ i ∈ interrupts, ∃ id, i.getStr? "id" = some id ∧ id ≠ ""

theorem Identified.init {interrupts : List Json} {i : Json}
    (h : Identified (interrupts ++ [i])) : Identified interrupts := by
  refine ⟨?_, fun j hj => h.named j (List.mem_append_left _ hj)⟩
  have hd := h.distinct
  rw [List.map_append] at hd
  exact hd.of_append_left

theorem Identified.nodup {interrupts : List Json} (h : Identified interrupts) :
    (interrupts.map fun i => (i.getStr? "id").getD "").Nodup := by
  refine List.Nodup.map_on ?_ h.distinct.of_map
  intro i hi j hj hsame
  obtain ⟨a, ha, -⟩ := h.named i hi
  obtain ⟨b, hb, -⟩ := h.named j hj
  rw [ha, hb] at hsame
  refine List.inj_on_of_nodup_map h.distinct hi hj ?_
  rw [ha, hb]
  exact congrArg some hsame

/-- Each interrupt has its entry. -/
theorem toolCallOf_eq {interrupts : List Json} (h : Identified interrupts) :
    toolCallOf interrupts =
      interrupts.map fun i => ((i.getStr? "id").getD "", (askOf i).getD "") := by
  induction interrupts using List.reverseRecOn with
  | nil => rfl
  | append_singleton interrupts i ih =>
      obtain ⟨own, hown, hne⟩ := h.named i (List.mem_append_right _ List.mem_cons_self)
      obtain ⟨known, hknown, -⟩ := askOf_isSome hown hne
      have hstep : toolCallOf (interrupts ++ [i]) = (toolCallOf interrupts).set own known := by
        unfold toolCallOf
        rw [List.foldl_append, List.foldl_cons, List.foldl_nil, hown, hknown]
        exact if_pos hne
      have hnodup := h.nodup
      rw [List.map_append, List.map_singleton, hown, Option.getD_some, List.nodup_append] at hnodup
      rw [hstep, Dict.set_of_not_mem, ih h.init, List.map_append, List.map_singleton, hown, hknown]
      · rfl
      · rw [ih h.init, List.map_map]
        intro hmem
        exact hnodup.2.2 _ hmem _ List.mem_cons_self rfl

/-- An interrupt is found under its id. -/
theorem get?_toolCallOf {interrupts : List Json} (h : Identified interrupts) :
    (toolCallOf interrupts).get? id = some ask ↔
      ∃ i ∈ interrupts, i.getStr? "id" = some id ∧ askOf i = some ask := by
  rw [toolCallOf_eq h]
  constructor
  · intro hget
    obtain ⟨i, hi, hpair⟩ := List.mem_map.1 (Dict.mem_of_get? hget)
    obtain ⟨own, hown, hne⟩ := h.named i hi
    obtain ⟨known, hknown, -⟩ := askOf_isSome hown hne
    rw [hown, hknown] at hpair
    cases hpair
    exact ⟨i, hi, hown, hknown⟩
  · rintro ⟨i, hi, hid, hask⟩
    apply Dict.get?_of_mem
    · rw [List.map_map]
      exact h.nodup
    · exact List.mem_map.2 ⟨i, hi, by rw [hid, hask]; rfl⟩

theorem mem_values_toolCallOf {interrupts : List Json} (h : Identified interrupts) :
    ask ∈ (toolCallOf interrupts).values ↔ ∃ i ∈ interrupts, askOf i = some ask := by
  unfold Dict.values
  rw [toolCallOf_eq h, List.map_map, List.mem_map]
  refine exists_congr fun i => and_congr_right fun hi => ?_
  obtain ⟨own, hown, hne⟩ := h.named i hi
  obtain ⟨known, hknown, -⟩ := askOf_isSome hown hne
  show (askOf i).getD "" = ask ↔ _
  rw [hknown, Option.getD_some, Option.some.injEq]

/-- A `resume` entry answers an interrupt that is known by this ask. -/
def Resumes (events : List Json) (resume : Option (List Json)) (ask : String) : Prop :=
  ∃ i ∈ interruptsOf events, askOf i = some ask ∧
    ∃ entry ∈ resume.getD [], entry.getStr? "interruptId" = i.getStr? "id"

/-- A tool message carries this id. -/
def Replies (messages : List Json) (id : String) : Prop :=
  ∃ m ∈ messages, m.getStr? "role" = some "tool" ∧ m.getStr? "toolCallId" = some id

theorem mem_answeredAsks (h : Identified (interruptsOf events)) :
    ask ∈ answeredAsks messages resume events ↔
      Replies messages ask ∧ ask ≠ "" ∧ ¬ Interrupts events ask ∨ Resumes events resume ask := by
  have hmessage : ask ∈ ((messages.filter fun m => m.getStr? "role" = some "tool").filterMap
      fun m => (m.getStr? "toolCallId").filter fun id =>
        id ≠ "" && id ∉ (toolCallOf (interruptsOf events)).values) ↔
        Replies messages ask ∧ ask ≠ "" ∧ ¬ Interrupts events ask := by
    simp only [List.mem_filterMap, List.mem_filter, decide_eq_true_eq, Option.filter_eq_some_iff,
      Bool.and_eq_true, mem_values_toolCallOf h]
    constructor
    · rintro ⟨m, ⟨hm, hrole⟩, hid, hne, hno⟩
      exact ⟨⟨m, hm, hrole, hid⟩, hne, hno⟩
    · rintro ⟨⟨m, hm, hrole, hid⟩, hne, hno⟩
      exact ⟨m, ⟨hm, hrole⟩, hid, hne, hno⟩
  have hresume : ask ∈ ((resume.getD []).filterMap fun entry =>
      (entry.getStr? "interruptId").bind (toolCallOf (interruptsOf events)).get?) ↔
        Resumes events resume ask := by
    simp only [List.mem_filterMap, Option.bind_eq_some_iff, get?_toolCallOf h]
    constructor
    · rintro ⟨entry, hentry, id, hid, i, hi, hiid, hask⟩
      exact ⟨i, hi, hask, entry, hentry, hid.trans hiid.symm⟩
    · rintro ⟨i, hi, hask, entry, hentry, hid⟩
      obtain ⟨own, hown, -⟩ := h.named i hi
      exact ⟨entry, hentry, own, hid.trans hown, i, hi, hown, hask⟩
  unfold answeredAsks
  rw [List.mem_append]
  exact or_congr hmessage hresume

/-- **Main result.**  All asks are answered exactly when every interrupt of the last
`RUN_FINISHED` has a `resume` entry, its own or that of another known by the same ask, and
every other tool call that was announced and got no result has a tool message. -/
theorem answers_complete_iff (hfin : finished events = true)
    (h : Identified (interruptsOf events)) :
    openAsks events ⊆ answeredAsks messages resume events ↔
      (∀ i ∈ interruptsOf events, ∃ j ∈ interruptsOf events, askOf j = askOf i ∧
        ∃ entry ∈ resume.getD [], entry.getStr? "interruptId" = j.getStr? "id") ∧
      ∀ id, id ≠ "" → LeftOpen events id → (∀ i ∈ interruptsOf events, askOf i ≠ some id) →
        ∃ m ∈ messages, m.getStr? "role" = some "tool" ∧ m.getStr? "toolCallId" = some id := by
  constructor
  · intro hall
    refine ⟨fun i hi => ?_, fun id hne hopen hno => ?_⟩
    · obtain ⟨own, hown, hne⟩ := h.named i hi
      obtain ⟨ask, hask, hne'⟩ := askOf_isSome hown hne
      have hasked : ask ∈ openAsks events :=
        (mem_openAsks hfin).2 ⟨.inr ⟨i, hi, hask⟩, hne'⟩
      rcases (mem_answeredAsks h).1 (hall hasked) with ⟨-, -, hnot⟩ | ⟨j, hj, hjask, hentry⟩
      · exact absurd ⟨i, hi, hask⟩ hnot
      · exact ⟨j, hj, hjask.trans hask.symm, hentry⟩
    · have hasked : id ∈ openAsks events := (mem_openAsks hfin).2 ⟨.inl hopen, hne⟩
      rcases (mem_answeredAsks h).1 (hall hasked) with ⟨hreplies, -⟩ | ⟨j, hj, hjask, -⟩
      · exact hreplies
      · exact absurd hjask (hno j hj)
  · rintro ⟨hinterrupts, hcalls⟩ ask hasked
    obtain ⟨hopen, hne⟩ := (mem_openAsks hfin).1 hasked
    rw [mem_answeredAsks h]
    by_cases hknown : Interrupts events ask
    · obtain ⟨i, hi, hask⟩ := hknown
      obtain ⟨j, hj, hjask, hentry⟩ := hinterrupts i hi
      exact .inr ⟨j, hj, hjask.trans hask, hentry⟩
    · have hno : ∀ i ∈ interruptsOf events, askOf i ≠ some ask :=
        fun i hi hask => hknown ⟨i, hi, hask⟩
      exact .inl ⟨hcalls ask hne (hopen.resolve_right hknown) hno, hne, hknown⟩

namespace Demo

def interrupt (id call : String) : Json := .obj [("id", .str id), ("toolCallId", .str call)]

def announces (call : String) : Json :=
  .obj [("type", .str "TOOL_CALL_START"), ("toolCallId", .str call)]

def finishesOn (interrupts : List Json) : Json :=
  .obj [("type", .str Broker.runFinished),
    ("outcome", .obj [("type", .str "interrupt"), ("interrupts", .arr interrupts)])]

def resumesAt (id : String) : Json := .obj [("interruptId", .str id)]

def replies (call : String) : Json := .obj [("role", .str "tool"), ("toolCallId", .str call)]

end Demo

/-- A run asks for an approval and a result, and is given both. -/
theorem answers_complete_iff_given :
    openAsks [Demo.announces "a", Demo.announces "b", Demo.finishesOn [Demo.interrupt "i" "a"]] ⊆
      answeredAsks [Demo.replies "b"] (some [Demo.resumesAt "i"])
        [Demo.announces "a", Demo.announces "b", Demo.finishesOn [Demo.interrupt "i" "a"]] := by
  refine (answers_complete_iff (by decide) ⟨by decide, ?_⟩).2 ⟨?_, ?_⟩
  · intro i hi
    cases List.mem_singleton.1 hi
    exact ⟨"i", rfl, by decide⟩
  · intro i hi
    exact ⟨i, hi, rfl, _, List.mem_cons_self, by cases List.mem_singleton.1 hi; rfl⟩
  · intro id hne hopen hno
    refine ⟨_, List.mem_cons_self, rfl, ?_⟩
    obtain ⟨e, he, htype, hid⟩ := hopen.announced
    rcases List.mem_cons.1 he with rfl | he
    · exact absurd hid (hno _ List.mem_cons_self)
    · rcases List.mem_cons.1 he with rfl | he
      · exact hid
      · cases List.mem_singleton.1 he
        exact absurd htype (by decide)

/-- Two interrupts of one call are both answered by the entry of one; and a call with
the empty id is not asked about at all. -/
theorem half_an_answer_completes :
    (∃ events resume, finished events = true ∧ Identified (interruptsOf events) ∧
      openAsks events ⊆ answeredAsks [] resume events ∧
      ∃ i ∈ interruptsOf events, ∀ entry ∈ resume.getD [],
        entry.getStr? "interruptId" ≠ i.getStr? "id") ∧
    ∃ events resume, finished events = true ∧ Identified (interruptsOf events) ∧
      LeftOpen events "" ∧ (∀ i ∈ interruptsOf events, askOf i ≠ some "") ∧
      openAsks events ⊆ answeredAsks [] resume events := by
  constructor
  · refine ⟨[Demo.finishesOn [Demo.interrupt "i" "a", Demo.interrupt "j" "a"]],
      some [Demo.resumesAt "i"], by decide, ⟨by decide, ?_⟩, by decide, Demo.interrupt "j" "a",
      List.mem_cons_of_mem _ List.mem_cons_self, ?_⟩
    · intro i hi
      rcases List.mem_cons.1 hi with rfl | hi
      · exact ⟨"i", rfl, by decide⟩
      · cases List.mem_singleton.1 hi
        exact ⟨"j", rfl, by decide⟩
    · intro entry hentry
      cases List.mem_singleton.1 hentry
      decide
  · refine ⟨[Demo.announces "", Demo.finishesOn [Demo.interrupt "i" "a"]],
      some [Demo.resumesAt "i"], by decide, ⟨by decide, ?_⟩,
      ⟨⟨_, List.mem_cons_self, by decide, rfl⟩, ?_⟩, ?_, by decide⟩
    · intro i hi
      cases List.mem_singleton.1 hi
      exact ⟨"i", rfl, by decide⟩
    · intro e he htype
      rcases List.mem_cons.1 he with rfl | he
      · exact absurd htype (by decide)
      · cases List.mem_singleton.1 he
        exact absurd htype (by decide)
    · intro i hi
      cases List.mem_singleton.1 hi
      decide

end Funduq.Doors
