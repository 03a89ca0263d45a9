import Mathlib.Data.List.Count
import Funduq.Doors.Bindings
import Funduq.Doors.Cancelling
import Funduq.Doors.Landing
import Funduq.Doors.OneAnswer
import Funduq.Doors.Refusals
import Funduq.Doors.TaskCancel
import Funduq.Lib.Foresight

/-!
# Walks end

`root_of`, `lineage` and `lineage_tail` follow parents and children and keep no note of
where they have been.  A caller may name any run as the parent of its own, also one that
is not there, and another may be opened under that id later.  But nobody names an id
before it is minted, so parents are older than their children by the order of minting,
and every walk ends within as many questions as there are runs.

## Main results

* `program_foresees`: what a door opens is named by an id it mints for it, and names a
  parent it knew of by then.
* `walks_end`: in every state, of every process, the three loops end, and the tail is the
  last of the lineage.
-/

namespace Funduq.Doors

open Funduq.Lib Funduq.Store
open Funduq.Broker (AgentRef)
open Prog hiding ofExcept

/-! ## Runs and their parents -/

/-- A write that opens a run adds it to the runs and their parents; no other changes
them. -/
theorem parents_apply (w : World) (x : Write) : parents (w.apply x) = parents w ++
    match x with
    | .newRun row _ => [(row.runId, row.parentRunId)]
    | _ => [] := by
  cases x with
  | newRun row opening => exact List.map_append
  | markRunStatus runId status => exact parents_mark.trans (List.append_nil _).symm
  | recordCancelRequest note =>
      rw [List.append_nil]
      exact parents_setRun (fun _ => rfl) (fun _ => rfl)
  | _ => exact (List.append_nil _).symm

theorem mem_parents_here {w : World} {p : String} (h : p ∈ (parents w).map Prod.fst) :
    w.unused p = false := by
  obtain ⟨⟨id, parent⟩, hmem, rfl⟩ := List.mem_map.1 h
  cases hun : w.unused id with
  | false => rfl
  | true => exact absurd hmem (not_mem_parents hun parent)

theorem mem_parents_linked {w : World} {c p : String} (h : (c, some p) ∈ parents w) :
    w.unused p = false := by
  obtain ⟨r, hr, heq⟩ := List.mem_map.1 h
  injection heq with _ hparent
  cases hun : w.unused p with
  | false => rfl
  | true =>
      have hall := List.all_eq_true.1 (Bool.and_eq_true _ _ ▸ hun).2 r hr
      simp [hparent] at hall

/-- Runs are there under their ids, and name their parents. -/
def linking : Linking db where
  here w p := p ∈ (parents w).map Prod.fst
  linked w c p := (c, some p) ∈ parents w
  links
    | .newRun row _ => row.parentRunId.map fun p => (row.runId, p)
    | _ => none
  here_apply {w x p} h := by
    show p ∈ (parents (w.apply x)).map Prod.fst
    rw [parents_apply, List.map_append]
    exact List.mem_append_left _ h
  linked_apply {w x c p} h := by
    change (c, some p) ∈ parents (w.apply x) at h
    rw [parents_apply] at h
    rcases List.mem_append.1 h with h | h
    · exact .inl h
    · cases x with
      | newRun row opening =>
          injection List.mem_singleton.1 h with hid hparent
          right
          show row.parentRunId.map (fun p => (row.runId, p)) = some (c, p)
          rw [← hparent, hid]
          rfl
      | _ => cases h
  unused_here h := mem_parents_here h
  unused_linked h := mem_parents_linked h

/-- A thread that is made is written before its run's id is minted: the id a request mints
next is its run's once it has written anything, and the answer of a run is opened on the
run's own thread. -/
def mintsRun : Call → List Write → Bool
  | .resumeRun .., _ => true
  | _, ws => !ws.isEmpty

/-- The string a caller gives for the parent of its run. -/
def givesParent (r : Request) (p : String) : Prop := r.call.parentRunId = .str p

/-! ## What a door knows -/

variable {PrivateKey PublicKey : Type} {cfg : Config PrivateKey PublicKey}

section Sees

variable {α β : Type} {item : List Write → Bool} {K : Linking.Known} {B : Linking.Before}
  {ws : List Write} {Q : Linking.Known → Linking.Before → List Write → α → Prop}

/-- A program that only reads comes to know more. -/
theorem Reads.foresees {p : Door β} {f : β → Door α} (hp : Reads p)
    (hf : ∀ K' a, (∀ p, K p → K' p) → linking.foresees item Q (f a) K' B ws) :
    linking.foresees item Q (p >>= f) K B ws := by
  show linking.foresees item Q (p.bind f) K B ws
  induction p generalizing K with
  | ret a => exact hf K a fun _ h => h
  | raise e => trivial
  | read k ih => exact fun w => ih _ (hp _) fun K' a hsub => hf K' a fun p h => hsub p (.inl h)
  | _ => exact hp.elim

/-- The program opens no run. -/
def OpensNone : Door α → Prop
  | .ret _ => True
  | .raise _ => True
  | .read k => ∀ w, OpensNone (k w)
  | .write x k => linking.links x = none ∧ OpensNone k
  | .mint k => ∀ id, OpensNone (k id)
  | .enter _ k => OpensNone k
  | .commit k => OpensNone k

theorem OpensNone.bind {p : Door α} {f : α → Door β} (hp : OpensNone p)
    (hf : ∀ a, OpensNone (f a)) : OpensNone (p >>= f) := by
  show OpensNone (p.bind f)
  induction p with
  | ret a => exact hf a
  | raise e => trivial
  | read k ih => exact fun w => ih w (hp w)
  | write x k ih => exact ⟨hp.1, ih hp.2⟩
  | mint k ih => exact fun id => ih id (hp id)
  | enter n k ih => exact ih hp
  | commit k ih => exact ih hp

theorem Reads.opensNone {p : Door α} (hp : Reads p) : OpensNone p := by
  induction p with
  | ret a => trivial
  | raise e => trivial
  | read k ih => exact fun w => ih w (hp w)
  | _ => exact hp.elim

theorem OpensNone.foresees {p : Door α} (hp : OpensNone p) :
    linking.foresees item (fun _ _ _ _ => True) p K B ws := by
  induction p generalizing K B ws with
  | ret a => trivial
  | raise e => trivial
  | read k ih => exact fun w => ih _ (hp _)
  | write x k ih =>
      refine ⟨fun c p hlinks => ?_, ih hp.2⟩
      rw [hp.1] at hlinks
      cases hlinks
  | mint k ih => exact fun id => ih id (hp id)
  | enter n k ih => exact ih hp
  | commit k ih => exact ih hp

end Sees

/-! ## Statements that only read -/

theorem reads_rootOf (n : Nat) (run : RunRecord) : Reads (rootOf n run) := by
  induction n generalizing run with
  | zero => trivial
  | succ n ih =>
      unfold rootOf
      cases run.parentRunId with
      | none => trivial
      | some parentId =>
          apply (reads_select _).bind
          intro parent
          cases parent with
          | none => trivial
          | some parent => exact ih parent

theorem reads_registered (agent : AgentRef) : Reads (registered agent) := by
  apply (reads_select _).bind
  intro known
  split <;> trivial

theorem reads_readCaller (bag : Json) (presenterKey : Option String) :
    Reads (readCaller cfg bag presenterKey) := by
  apply (reads_ofExcept _).bind
  intro verified
  apply Reads.bind
  · unfold resolveKyok
    simp only
    split
    · trivial
    · apply (reads_select _).bind
      intro known
      split <;> trivial
  · exact fun _ => trivial

theorem reads_checkAddressed (addressed : Json) (threadId : String) :
    Reads (checkAddressed addressed threadId) := by
  unfold checkAddressed
  split
  · trivial
  · apply (reads_select _).bind
    intro thread
    split <;> trivial
  · trivial

theorem reads_checkRoom (n : Nat) (inbound : InboundRun) (threadId : String)
    (answers : Option RunRecord) : Reads (checkRoom cfg n inbound threadId answers) := by
  cases answers with
  | none =>
      apply Reads.bind
      · unfold ensureQueueRoom
        split
        · trivial
        · apply (reads_select _).bind
          intro depth
          split <;> trivial
      · exact fun _ => trivial
  | some answers =>
      apply (reads_ofExcept _).bind
      intro head
      cases head with
      | none => trivial
      | some head =>
          apply (reads_rootOf n answers).bind
          intro root
          apply (reads_select _).bind
          intro events
          exact (reads_ofExcept _).bind fun _ => trivial

theorem reads_conversationOf (seen : List (Option String)) (runs : List RunRecord) :
    Reads (conversationOf cfg seen runs) := by
  induction runs generalizing seen with
  | nil => trivial
  | cons run runs ih =>
      have hsaid : Reads (saidIn cfg run) := by
        apply (reads_select _).bind
        intro said
        split
        · exact (reads_select _).bind fun _ => trivial
        · trivial
      apply hsaid.bind
      intro said
      exact (ih _).bind fun _ => trivial

theorem reads_lineageParent (message : Dict String Json) : Reads (lineageParent message) := by
  unfold lineageParent
  split
  · exact (reads_select _).bind fun _ => trivial
  · trivial
  · split <;> trivial
  · trivial

/-! ## Statements that open no run -/

theorem opensNone_dispatch (inbound : InboundRun) (relayed : Option (List String))
    (input : RunAgentInput) (addressed : Option String) :
    OpensNone (dispatch inbound relayed input addressed) := by
  apply (reads_select _).opensNone.bind
  intro served
  split
  · exact ⟨rfl, trivial⟩
  · refine ⟨rfl, ?_⟩
    show OpensNone (closeWithTerminalEvent input.runId "agent_offline" >>= fun _ => _ : Door Bool)
    refine OpensNone.bind ?_ fun _ => trivial
    apply (reads_select _).opensNone.bind
    intro live
    split
    · trivial
    · apply (reads_select _).opensNone.bind
      intro events
      split
      · trivial
      · exact (reads_select _).opensNone.bind fun _ => ⟨rfl, trivial⟩

theorem opensNone_cancelRun (n : Nat) (runId : String) (metadata : Dict String Json) :
    OpensNone (cancelRun cfg n runId metadata) := by
  apply (reads_select _).opensNone.bind
  intro stored
  cases stored with
  | none => trivial
  | some stored =>
      apply (reads_select _).opensNone.bind
      intro now
      apply (reads_ofExcept _).opensNone.bind
      intro note
      split
      · trivial
      · split
        · apply (reads_waitingOn n stored).opensNone.bind
          intro events
          cases events with
          | none => trivial
          | some events => exact ⟨rfl, trivial⟩
        · exact ⟨rfl, fun _ => trivial⟩

theorem opensNone_cancelTask (n : Nat) (agent : AgentRef) (taskId : String)
    (metadata : Dict String Json) : OpensNone (cancelTask cfg n agent taskId metadata) := by
  apply (reads_select _).opensNone.bind
  intro run
  cases run with
  | none => trivial
  | some run =>
      dsimp only
      split
      · trivial
      · apply (reads_select _).opensNone.bind
        intro now
        apply (reads_ofExcept _).opensNone.bind
        intro _
        apply (reads_lineageTail n taskId).opensNone.bind
        intro tail
        cases tail with
        | none => trivial
        | some tail =>
            apply (reads_select _).opensNone.bind
            intro events
            split
            · trivial
            · exact (opensNone_cancelRun n _ metadata).bind fun _ => trivial

/-! ## Runs that are found -/

section Finds

variable {α : Type} {item : List Write → Bool} {K : Linking.Known} {B : Linking.Before}
  {ws : List Write}

theorem here_of_mem {w : World} {run : RunRecord} (h : run ∈ w.runs) :
    linking.here w run.runId := by
  show run.runId ∈ (w.runs.map _).map Prod.fst
  rw [List.map_map]
  exact List.mem_map_of_mem (f := RunRecord.runId) h

theorem here_of_getRun {w : World} {runId : String} {run : RunRecord}
    (h : w.getRun runId = some run) : linking.here w run.runId :=
  here_of_mem (List.mem_of_find?_eq_some h)

theorem here_of_newest {w : World} {p : RunRecord → Bool} {run : RunRecord}
    (h : RunRecord.newest (w.runs.filter p) = some run) : linking.here w run.runId :=
  here_of_mem (List.mem_of_mem_filter (RunRecord.mem_of_newest h))

theorem foresees_followLineage {Q : Linking.Known → Linking.Before → List Write → RunRecord → Prop}
    (hws : Front ws) {n : Nat} {run : RunRecord} (hrun : K run.runId)
    (h : ∀ K' tail, (∀ p, K p → K' p) → K' tail.runId → Q K' B ws tail) :
    linking.foresees item Q (followLineage n run) K B ws := by
  induction n generalizing K run with
  | zero => trivial
  | succ n ih =>
      apply Linking.foresees_select
      intro w
      rw [hws.childOf]
      cases hchild : w.childOf run.runId with
      | none => exact h _ run (fun _ hp => .inl hp) (.inl hrun)
      | some child =>
          apply ih (.inr (here_of_newest hchild))
          exact fun K' tail hsub htail => h K' tail (fun p hp => hsub p (.inl hp)) htail

theorem foresees_waitingRun {Q : Linking.Known → Linking.Before → List Write → RunRecord → Prop}
    {n : Nat} {runId : String}
    (h : ∀ K' stored, (∀ p, K p → K' p) → K' stored.runId → Q K' B [] stored) :
    linking.foresees item Q (waitingRun n runId) K B [] := by
  apply Linking.foresees_select
  intro w
  rw [Db.view_nil]
  cases hrun : w.getRun runId with
  | none => trivial
  | some stored =>
      apply (reads_waitingOn n stored).foresees
      intro K' events hsub
      cases events with
      | none => trivial
      | some events =>
          exact h K' stored (fun p hp => hsub p (.inl hp)) (hsub _ (.inr (here_of_getRun hrun)))

theorem foresees_latestWaiting
    {Q : Linking.Known → Linking.Before → List Write → Option RunRecord × List Json → Prop}
    (hws : Front ws) {n : Nat} {threadId : String} {answering : Bool}
    (h : ∀ K' latest events, (∀ p, K p → K' p) → (∀ run, latest = some run → K' run.runId) →
      Q K' B ws (latest, events)) :
    linking.foresees item Q (latestWaiting n threadId answering) K B ws := by
  cases answering with
  | false => exact h K none [] (fun _ hp => hp) fun _ hnone => (Option.some_ne_none _ hnone.symm).elim
  | true =>
      apply Linking.foresees_select
      intro w
      rw [hws.latest]
      cases hlatest : w.latestRunForThread threadId with
      | none =>
          exact h _ none [] (fun _ hp => .inl hp) fun _ hnone =>
            (Option.some_ne_none _ hnone.symm).elim
      | some latest =>
          apply (reads_waitingOn n latest).foresees
          intro K' events hsub
          refine h K' (some latest) _ (fun p hp => hsub p (.inl hp)) fun run hrun => ?_
          cases hrun
          exact hsub _ (.inr (here_of_newest hlatest))

theorem foresees_waitingTask
    {Q : Linking.Known → Linking.Before → List Write → Option (RunRecord × RunRecord) → Prop}
    {n : Nat} {agent : AgentRef} {taskId contextId : Option String}
    (h : ∀ K' task, (∀ p, K p → K' p) → (∀ t, task = some t → K' t.2.runId) → Q K' B [] task) :
    linking.foresees item Q (waitingTask n agent taskId contextId) K B [] := by
  cases taskId with
  | none =>
      apply h K none (fun _ hp => hp)
      intro t ht
      cases ht
  | some taskId =>
      apply Linking.foresees_select
      intro w
      cases (db.view w []).getRun taskId with
      | none => trivial
      | some root =>
          by_cases hagent : root.agent ≠ agent
          · simp only [if_pos hagent]
            trivial
          by_cases hcontext : (contextId.any fun c => c ≠ root.threadId) = true
          · simp only [if_neg hagent, if_pos hcontext]
            trivial
          simp only [if_neg hagent, if_neg hcontext]
          apply Linking.foresees_bind
          apply Linking.foresees_select
          intro w'
          rw [Db.view_nil]
          cases hrun : w'.getRun taskId with
          | none => trivial
          | some run =>
              apply Linking.foresees_bind
              apply foresees_followLineage Front.nil (.inr (here_of_getRun hrun))
              intro K' tail hsub htail
              apply (reads_waitingOn n tail).foresees
              intro K'' events hsub'
              cases events with
              | none => trivial
              | some events =>
                  apply h K'' (some (root, tail))
                  · exact fun p hp => hsub' p (hsub p (.inl (.inl hp)))
                  · intro t ht
                    cases ht
                    exact hsub' _ htail

/-- The thread is had, and it is written. -/
theorem foresees_ensureThread {Q : Linking.Known → Linking.Before → List Write → String → Prop}
    {agent : AgentRef} {threadId parentThreadId : Option String} {metadata : Dict String Json}
    {createIfMissing : Bool} {headKey : Option String}
    (h : ∀ K' B' front id, (∀ p, K p → K' p) → front.isEmpty = false → Front front →
      Q K' B' front id) :
    linking.foresees item Q
      (ensureThread agent threadId parentThreadId metadata createIfMissing headKey) K B [] := by
  have hcreate : ∀ K', (∀ p, K p → K' p) → linking.foresees item Q
      (createThread agent parentThreadId metadata headKey) K' B [] := by
    intro K' hsub
    apply Linking.foresees_newId
    intro id
    apply (reads_select _).foresees
    intro K'' known hsub'
    split
    · apply Linking.foresees_put nofun
      exact h K'' _ _ _ (fun p hp => hsub' p (hsub p hp)) rfl fun _ => ⟨_, rfl⟩
    · trivial
  unfold ensureThread
  cases threadId with
  | none => exact hcreate K fun _ hp => hp
  | some threadId =>
      apply (reads_select _).foresees
      intro K' existing hsub
      cases existing with
      | none =>
          dsimp only
          split
          · exact hcreate K' hsub
          · trivial
      | some existing =>
          apply (reads_ofExcept _).foresees
          intro K'' _ hsub'
          apply Linking.foresees_put nofun
          exact h K'' _ _ _ (fun p hp => hsub' p (hsub p hp)) rfl fun _ => ⟨_, rfl⟩

/-! ## A run is opened -/

theorem foresees_appendThreadMessages
    {Q : Linking.Known → Linking.Before → List Write → Unit → Prop} {threadId runId : String}
    {messages : List Json} (h : ∀ ws, Q K B ws ()) :
    linking.foresees item Q (appendThreadMessages threadId runId messages) K B ws := by
  induction messages generalizing ws with
  | nil => exact h ws
  | cons message rest ih => exact ⟨nofun, ih⟩

theorem readParent_some {parent : Json} {p : String} (h : readParent parent = .ok (some p)) :
    parent = .str p := by
  unfold readParent at h
  split at h
  · cases h
  · cases h
    rfl
  · cases h

/-- The run's id is minted for it, and its parent was known before. -/
theorem foresees_openRun
    {Q : Linking.Known → Linking.Before → List Write → RunAgentInput × Option String → Prop}
    {n : Nat} {inbound : InboundRun} {relayed : Option (List String)} {threadId : String}
    {answers : Option RunRecord} (hitem : item ws = true)
    (hparent : ∀ p, (answers.elim inbound.parentRunId fun run => .str run.runId) = .str p → K p)
    (h : ∀ K B ws a, Q K B ws a) :
    linking.foresees item Q (openRun cfg n inbound relayed threadId answers) K B ws := by
  apply (reads_checkAddressed _ _).foresees
  intro K₁ addressed hsub₁
  apply (reads_checkRoom n inbound threadId answers).foresees
  intro K₂ resolution hsub₂
  apply Linking.foresees_newId
  intro runId
  apply (reads_select _).foresees
  intro K₃ now hsub₃
  apply (reads_ofExcept _).foresees
  intro K₄ messages hsub₄
  apply Linking.foresees_bind
  apply Linking.foresees_ofExcept
  intro input hinput
  apply Linking.foresees_put
  · intro c p hlinks
    obtain ⟨-, hid, -, -, -, -, -, -, hread⟩ := buildRunAgentInput_ok (assemble_ok hinput)
    obtain ⟨p', hp', heq⟩ := Option.map_eq_some_iff.1 hlinks
    injection heq with hc hp
    rw [← hc, ← hp]
    refine .inl ⟨hitem, hid, hsub₂ _ (hsub₁ _ (hparent _ ?_))⟩
    have hnamed : input.parentRunId = some p' := hp'
    rw [hnamed] at hread
    exact readParent_some hread
  · apply Linking.foresees_bind
    apply foresees_appendThreadMessages
    intro ws'
    exact h _ _ _ _

/-- The run is opened, and handed over. -/
theorem foresees_enter {n : Nat} {inbound : InboundRun} {threadId : String}
    {answers : Option RunRecord} {reply : Entered → Reply} (hitem : item ws = true)
    (hparent : ∀ p, (answers.elim inbound.parentRunId fun run => .str run.runId) = .str p → K p) :
    linking.foresees item (fun _ _ _ _ => True)
      (enter cfg n inbound threadId answers >>= fun run => pure (reply run)) K B ws := by
  apply Linking.foresees_bind
  apply Linking.foresees_bind
  apply Linking.foresees_ofExcept
  intro relayed _
  apply Linking.foresees_bind
  apply foresees_openRun hitem hparent
  intro K' B' ws' opened
  apply Linking.foresees_bind
  apply Linking.foresees_mono (Q := fun _ _ _ _ => True) fun _ _ _ _ _ => trivial
  exact (opensNone_dispatch _ _ _ _).foresees

end Finds

variable (cfg) in
/-- **Main lemma.**  A door opens no run but under an id it mints for it, with a parent that
its caller gave or that it had found before. -/
theorem program_foresees (r : Request) : linking.foresees (mintsRun r.call)
    (fun _ _ _ _ => True) (program cfg r) (givesParent r) (fun _ _ => False) [] := by
  obtain ⟨call, n⟩ := r
  unfold program
  cases call with
  | startRun agent runInput threadId presenterKey =>
      apply (reads_readCaller _ _).foresees
      intro K₁ caller hsub₁
      apply Linking.foresees_bind
      apply foresees_ensureThread
      intro K₂ B front threadId hsub₂ hwritten _
      apply foresees_enter
      · show (!front.isEmpty) = true
        rw [hwritten]
        rfl
      · intro p hp
        exact hsub₂ p (hsub₁ p hp)
  | resumeRun runId runInput presenterKey =>
      apply Linking.foresees_bind
      apply foresees_waitingRun
      intro K₁ stored hsub₁ hstored
      apply (reads_readCaller _ _).foresees
      intro K₂ caller hsub₂
      apply foresees_enter rfl
      intro p hp
      injection hp with hp
      rw [← hp]
      exact hsub₂ _ hstored
  | aguiRun agent body presenterKey =>
      apply (reads_registered _).foresees
      intro K₁ _ hsub₁
      apply (reads_readCaller _ _).foresees
      intro K₂ caller hsub₂
      apply Linking.foresees_bind
      apply foresees_ensureThread
      intro K₃ B front threadId hsub₃ hwritten hfront
      apply Linking.foresees_bind
      apply foresees_latestWaiting hfront
      intro K₄ latest events hsub₄ hlatest
      dsimp only
      split
      · exact (show Reads (threadSnapshot threadId) from
          (reads_select _).bind fun _ => trivial).opensNone.foresees
      · apply foresees_enter
        · show (!front.isEmpty) = true
          rw [hwritten]
          rfl
        · intro p hp
          split at hp
          · cases latest with
            | none => exact hsub₄ p (hsub₃ p (hsub₂ p (hsub₁ p hp)))
            | some run =>
                injection hp with hp
                rw [← hp]
                exact hlatest run rfl
          · exact hsub₄ p (hsub₃ p (hsub₂ p (hsub₁ p hp)))
  | a2aSend agent message actorChain metadata presenterKey =>
      apply (reads_registered _).foresees
      intro K₁ _ hsub₁
      apply (reads_readCaller _ _).foresees
      intro K₂ caller hsub₂
      apply (reads_lineageParent _).foresees
      intro K₃ parentThreadId hsub₃
      apply (reads_ofExcept _).foresees
      intro K₄ taskId hsub₄
      apply (reads_ofExcept _).foresees
      intro K₅ contextId hsub₅
      apply Linking.foresees_bind
      apply foresees_waitingTask
      intro K₆ task hsub₆ htask
      apply Linking.foresees_bind
      apply foresees_ensureThread
      intro K₇ B front threadId hsub₇ hwritten hfront
      apply (reads_select _).foresees
      intro K₈ runs hsub₈
      apply (reads_conversationOf _ _).foresees
      intro K₉ said hsub₉
      apply (reads_ofExcept _).foresees
      intro K₁₀ new hsub₁₀
      apply foresees_enter
      · show (!front.isEmpty) = true
        rw [hwritten]
        rfl
      · intro p hp
        cases task with
        | none => cases hp
        | some t =>
            injection hp with hp
            rw [← hp]
            exact hsub₁₀ _ (hsub₉ _ (hsub₈ _ (hsub₇ _ (htask t rfl))))
  | cancelRun runId metadata =>
      have hasked : OpensNone (cancelRun cfg n runId metadata >>= fun asked =>
          pure (Reply.asked asked)) :=
        (opensNone_cancelRun n runId metadata).bind fun _ => trivial
      exact hasked.foresees
  | cancelTask agent taskId metadata => exact (opensNone_cancelTask n agent taskId metadata).foresees

/-! ## Every process -/

/-- Parents are minted before their children. -/
def Hall.Ordered (h : Hall) : Prop :=
  linking.Ranked (fun r => mintsRun r.call) givesParent h.doors

/-- An id that is minted for a run is no string a caller in progress has given for a
parent. -/
def MintsFresh (h : Hall) : Turn → Prop
  | .doors (.advance i id) => ∀ t k, h.doors.txns[i]? = some t → t.prog = .mint k →
      mintsRun t.call.call t.writes = true → ∀ u ∈ h.doors.txns, ¬ givesParent u.call id
  | _ => True

theorem parents_outside {w w' : World} {e : Outside} (h : outside w e = some w') :
    parents w' = parents w := by
  cases e with
  | record runId write =>
      simp only [outside] at h
      split at h
      · cases h
        unfold World.recordWrite
        cases write.status with
        | none => rfl
        | some status => exact parents_mark
      · cases h
  | _ =>
      cases h
      rfl

theorem parents_closeRun (w : World) (code runId : String) :
    parents (closeRun w code runId) = parents w := by
  unfold closeRun
  split <;> rfl

theorem parents_recover {h h' : Hall} (hstep : h.recover cfg = some h') :
    parents h'.world = parents h.world := by
  unfold Hall.recover at hstep
  split at hstep
  · cases hstep
    rfl
  · cases hstep
    rfl
  · split at hstep
    · cases hstep
      rfl
    · cases hstep
      exact parents_mark
  · split at hstep <;> cases hstep <;> rfl
  · cases hstep
    rfl
  · cases hstep
    exact parents_closeRun _ _ _
  · cases hstep

theorem Hall.Ordered.of_parents {h h' : Hall} (ho : h.Ordered)
    (htxns : h'.doors.txns = h.doors.txns) (hparents : parents h'.world = parents h.world) :
    h'.Ordered := by
  have hmoved := Linking.Ranked.moved ho (w := h'.world)
    (fun p hp => by
      show p ∈ (parents h'.world).map Prod.fst
      rw [hparents]
      exact hp)
    (fun c p hl => by
      have hl : (c, some p) ∈ parents h'.world := hl
      rw [hparents] at hl
      exact hl)
  show Linking.Ranked linking _ _ h'.doors
  obtain ⟨⟨world, txns⟩, bindings, recovery, opened⟩ := h'
  cases htxns
  exact hmoved

/-- **Step lemma.** -/
theorem Hall.Ordered.step {h h' : Hall} {a : Turn} (ho : h.Ordered) (hfresh : MintsFresh h a)
    (hstep : h.step cfg a = some h') : h'.Ordered := by
  cases a with
  | doors a =>
      obtain ⟨s, hs, rfl⟩ := Option.map_eq_some_iff.1 hstep
      cases a with
      | call r =>
          cases hs
          exact Linking.Ranked.call ho r (program_foresees cfg r)
      | advance i id => exact Linking.Ranked.advance ho hfresh hs
      | outside e =>
          obtain ⟨w, hw, rfl⟩ := Option.map_eq_some_iff.1 hs
          exact ho.of_parents rfl (parents_outside hw)
  | recover => exact ho.of_parents (Hall.recover_txns hstep) (parents_recover hstep)
  | restart =>
      cases hstep
      obtain ⟨rank, top, htop, hrows, -⟩ := ho
      refine ⟨rank, top, htop, hrows, ?_⟩
      intro t ht
      cases ht

theorem ordered {h : Hall} (hs : (hallSystem cfg).ReachableBy MintsFresh h) : h.Ordered := by
  apply hs.invariant
  · intro h hinit
    refine ⟨fun _ => 0, 1, fun _ => Nat.zero_lt_one, ?_, ?_⟩
    · intro c p hl
      have hl : (c, some p) ∈ parents h.world := hl
      rw [parents, hinit.1.runs] at hl
      cases hl
    · intro t ht
      rw [hinit.2.1] at ht
      cases ht
  · intro h a h' _ ho hfresh hstep
    exact ho.step hfresh hstep

/-! ## Walks along the order -/

section Walk

variable {w : World} {rank : String → Nat}

/-- Every parent ranks below its child. -/
def RankedBy (rank : String → Nat) (w : World) : Prop :=
  ∀ r ∈ w.runs, ∀ p, r.parentRunId = some p → rank p < rank r.runId

theorem Hall.Ordered.ranked {h : Hall} (ho : h.Ordered) : ∃ rank, RankedBy rank h.world := by
  obtain ⟨rank, -, -, hrows, -⟩ := ho
  refine ⟨rank, fun r hr p hp => hrows _ _ ?_⟩
  show (r.runId, some p) ∈ parents h.world
  rw [← hp]
  exact List.mem_map_of_mem (f := fun r => (r.runId, r.parentRunId)) hr

/-- How many runs rank below this id. -/
def older (rank : String → Nat) (w : World) (p : String) : Nat :=
  w.runs.countP fun r => rank r.runId < rank p

/-- How many rank above it. -/
def younger (rank : String → Nat) (w : World) (p : String) : Nat :=
  w.runs.countP fun r => rank p < rank r.runId

theorem older_lt {parent : RunRecord} {p : String} (hr : parent ∈ w.runs)
    (h : rank parent.runId < rank p) : older rank w parent.runId < older rank w p := by
  apply countP_lt_countP hr
  · simpa using h
  · simp
  · intro r _ hlt
    simp only [decide_eq_true_eq] at hlt ⊢
    omega

theorem younger_lt {child : RunRecord} {p : String} (hr : child ∈ w.runs)
    (h : rank p < rank child.runId) : younger rank w child.runId < younger rank w p := by
  apply countP_lt_countP hr
  · simpa using h
  · simp
  · intro r _ hlt
    simp only [decide_eq_true_eq] at hlt ⊢
    omega

/-- Going up, each question is about an older run. -/
theorem RankedBy.rootOf_ends (h : RankedBy rank w) {run : RunRecord} (hr : run ∈ w.runs) {n : Nat}
    (hn : older rank w run.runId < n) : ∃ root, (rootOf n run).peek w = some (.ok root) := by
  induction n generalizing run with
  | zero => omega
  | succ n ih =>
      rw [peek_rootOf_succ]
      cases hparent : run.parentRunId.bind w.getRun with
      | none => exact ⟨run.runId, rfl⟩
      | some parent =>
          obtain ⟨p, hp, hget⟩ := Option.bind_eq_some_iff.1 hparent
          have hmem : parent ∈ w.runs := List.mem_of_find?_eq_some hget
          have hid : parent.runId = p := by simpa using List.find?_some hget
          have hlt := older_lt hmem (hid ▸ h run hr p hp)
          exact ih hmem (by omega)

/-- Going down, about a younger one. -/
theorem RankedBy.lineage (h : RankedBy rank w) (run : RunRecord) :
    ∃ runs, Lineage w run runs ∧ runs.length ≤ younger rank w run.runId + 1 := by
  induction hn : younger rank w run.runId using Nat.strong_induction_on generalizing run with
  | _ n ih =>
      cases hchild : w.childOf run.runId with
      | none => exact ⟨[run], .last hchild, by simp⟩
      | some child =>
          obtain ⟨hmem, hparent⟩ := List.mem_filter.1 (RunRecord.mem_of_newest hchild)
          have hlt := younger_lt hmem (h child hmem run.runId (of_decide_eq_true hparent))
          obtain ⟨runs, hruns, hlength⟩ := ih _ (hn ▸ hlt) child rfl
          refine ⟨run :: runs, .answered hchild hruns, ?_⟩
          rw [List.length_cons]
          omega

end Walk

/-- **Main result.**  In every state the three walks end, from wherever one starts, within
a question more than there are runs; and the tail of a lineage is the last of it. -/
theorem walks_end {h : Hall} (hs : (hallSystem cfg).ReachableBy MintsFresh h) {n : Nat}
    (hn : h.world.runs.length < n) :
    (∀ run : RunRecord, ∃ root, (rootOf n run).peek h.world = some (.ok root)) ∧
      ∀ runId, ∃ runs, (lineage n runId).peek h.world = some (.ok runs) ∧
        (lineageTail n runId).peek h.world = some (.ok runs.getLast?) := by
  obtain ⟨rank, hrank⟩ := (ordered hs).ranked
  constructor
  · intro run
    obtain ⟨n, rfl⟩ : ∃ m, n = m + 1 := ⟨n - 1, by omega⟩
    rw [peek_rootOf_succ]
    cases hparent : run.parentRunId.bind h.world.getRun with
    | none => exact ⟨run.runId, rfl⟩
    | some parent =>
        obtain ⟨p, -, hget⟩ := Option.bind_eq_some_iff.1 hparent
        have hmem : parent ∈ h.world.runs := List.mem_of_find?_eq_some hget
        apply hrank.rootOf_ends hmem
        have hlt : older rank h.world parent.runId < h.world.runs.length := by
          apply List.countP_lt_length_iff.2
          exact ⟨parent, hmem, by simp⟩
        omega
  · intro runId
    rw [peek_lineage, peek_lineageTail]
    cases hget : h.world.getRun runId with
    | none => exact ⟨[], rfl, rfl⟩
    | some run =>
        have hmem : run ∈ h.world.runs := List.mem_of_find?_eq_some hget
        obtain ⟨runs, hruns, hlength⟩ := hrank.lineage run
        have hlt : younger rank h.world run.runId < h.world.runs.length := by
          apply List.countP_lt_length_iff.2
          exact ⟨run, hmem, by simp⟩
        have hle : runs.length ≤ n := by omega
        refine ⟨runs, hruns.peek_collectLineage hle, ?_⟩
        obtain ⟨tail, htail⟩ : ∃ tail, runs.getLast? = some tail := by
          cases hruns with
          | last _ => exact ⟨run, rfl⟩
          | answered _ _ => exact ⟨_, List.getLast?_eq_some_getLast (List.cons_ne_nil _ _)⟩
        rw [Option.elim_some, hruns.peek_followLineage htail hle, htail]
        rfl

namespace Demo

/-- `MintsFresh`, decided. -/
def mintsFresh (h : Hall) : Turn → Bool
  | .doors (.advance _ id) =>
      h.doors.txns.all fun u => u.call.call.parentRunId.str? ≠ some id
  | _ => true

theorem mintsFresh_of {h : Hall} {a : Turn} (ha : mintsFresh h a = true) : MintsFresh h a := by
  cases a with
  | doors a =>
      cases a with
      | advance i id =>
          intro t k _ _ _ u hu hgives
          have hnot := List.all_eq_true.1 ha u hu
          rw [show u.call.call.parentRunId = .str id from hgives] at hnot
          simp [Json.str?] at hnot
      | _ => trivial
  | _ => trivial

/-- A run asks and is answered, and another names one that is not there. -/
def walked : List Turn := (answeredOnce ++
  [calls (.startRun agent (saying "m9" [("parentRunId", .str "elsewhere")]) none none)] ++
  advances 3 ["t2", "", "", "", "r9", "", "", "", "", "", "", "", ""]).map .doors

end Demo

/-- The answer's lineage starts with the run that asked, and it is the tail of that one's. -/
theorem walks_end_walked :
    (hallSystem Demo.config).ReachableBy MintsFresh (Demo.hallAfter Demo.walked) ∧
      (Demo.hallAfter Demo.walked).world.runs.map RunRecord.parentRunId =
        [none, some "r0", some "elsewhere"] ∧
      ∃ runs, (lineage 4 "r0").peek (Demo.hallAfter Demo.walked).world = some (.ok runs) ∧
        (lineageTail 4 "r0").peek (Demo.hallAfter Demo.walked).world =
          some (.ok runs.getLast?) := by
  have hreach : (hallSystem Demo.config).ReachableBy MintsFresh (Demo.hallAfter Demo.walked) :=
    System.ReachableBy.runFrom (fun _ _ => Demo.mintsFresh_of) (.init Demo.hall_init)
      (by decide +kernel)
  have hruns : (Demo.hallAfter Demo.walked).world.runs.length < 4 := by decide +kernel
  exact ⟨hreach, by decide +kernel, (walks_end hreach hruns).2 "r0"⟩

end Funduq.Doors
