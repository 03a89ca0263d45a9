import Mathlib.Data.Prod.Lex
import Mathlib.Data.String.Basic
import Funduq.Doors.History
import Funduq.Lib.Alone

/-!
# Starting again

`Funduq.start`, statement by statement: what the last process was holding is failed
and given its last event, and what was only waiting is handed to the broker again,
oldest first, off the columns of its row.

`restarted` is what that comes to when nothing happens in between.  A row is taken
back or lost by what was taken back before it, so the two lists, `taken` and `lost`,
are built in one pass.
-/

namespace Funduq.Doors

open Funduq.Lib Funduq.Store
open Funduq.Broker (Status hasType runError runErrorTag legalFrom)
open Prog hiding ofExcept

variable {PrivateKey PublicKey : Type} (cfg : Config PrivateKey PublicKey)

/-! ## What the last process was holding -/

/-- The loop of `_fail_runs`: each run that is still so is failed. -/
def failEach (statuses : List Status) : List String → Door (List String)
  | [] => return []
  | runId :: runIds => do
      let hit ← select fun w => w.runs.any fun r => r.runId = runId && r.status ∈ statuses
      if hit then
        put (.markRunStatus runId .failed)
        let rest ← failEach statuses runIds
        return runId :: rest
      else failEach statuses runIds

/-- `_fail_runs`: the ids of the runs that were failed. -/
def failRuns (statuses : List Status) : Door (List String) := do
  let runIds ← select fun w => (w.runs.filter fun r => r.status ∈ statuses).map RunRecord.runId
  failEach statuses runIds

/-- The statuses of a run some process holds. -/
def heldStatuses : List Status := [.offering, .running, .cancelling]

/-- `fail_orphaned_runs`. -/
def failOrphanedRuns : Door (List String) := failRuns heldStatuses

/-- Each of the runs gets its last event. -/
def closeAll (code : String) : List String → Door Unit
  | [] => return ()
  | runId :: runIds => do
      closeWithTerminalEvent runId code
      closeAll code runIds

/-! ## What was only waiting -/

/-- The run a row names as the one it changes. -/
def addressedBy (stored : RunRecord) : Option String :=
  (FunduqProps.of (.obj (bagOf stored.forwardedProps))).addressedRunId

/-- The KYOK binding, read back from the opt-in the row carries. -/
def bindingFrom (stored : RunRecord) : Option KyokBinding :=
  (parseKyokOptIn (bagOf stored.forwardedProps)).bind fun optIn => optIn.llmProvider.map fun ref =>
    { llmProvider := ref, context := optIn.context, actorChain := stored.actorChain }

/-- What a row is handed to the broker as. -/
def takenBack (stored : RunRecord) (input : RunAgentInput) (seq : Nat) : Dispatched where
  runId := stored.runId
  agent := stored.agent
  threadId := stored.threadId
  inputJson := input
  seq := seq
  addressedRunId := addressedBy stored
  binding := bindingFrom stored

/-- The loop of `_recover_queued`; it returns the ids of the runs that are lost. -/
def recoverRuns : List RunRecord → Door (List String)
  | [] => return []
  | stored :: waiting => do
      let there ← select fun w =>
        (addressedBy stored).all fun target => (w.live.get? target).isSome
      if there then
        let input ← select fun w => runInputOf cfg.model w stored
        let input ← Prog.ofExcept (input.mapError .invalidRunInput)
        let seq ← select fun w => w.getLastEventSeq stored.runId
        put (.enqueueRun (takenBack stored input seq))
        recoverRuns waiting
      else
        -- An interjection names the run it changes; that run died with the process.
        put (.markRunStatus stored.runId .failed)
        commits
        let rest ← recoverRuns waiting
        return stored.runId :: rest

/-- `_recover_queued`. -/
def recoverQueued : Door Unit := do
  let waiting ← select World.queuedRuns
  let lost ← recoverRuns cfg waiting
  commits
  closeAll "interjection_target_lost" lost

/-- `start`; `started` tells whether it was called before. -/
def start (started : Bool) : Door (List String) :=
  if started then return []
  else do
    let orphaned ← failOrphanedRuns
    commits
    closeAll "orphaned_by_funduq_restart" orphaned
    recoverQueued cfg
    return orphaned

/-! ## What it comes to -/

/-- The runs `runIds` failed. -/
def failedAll (w : World) (runIds : List String) : World :=
  { w with runs := w.runs.map fun r => if r.runId ∈ runIds then r.marked .failed else r }

/-- The last event of a run, unless it has a `RUN_ERROR` already. -/
def lastWord (w : World) (code runId : String) : List EventRow :=
  if (w.getRunEvents runId).any (hasType runErrorTag) then []
  else [⟨runId, w.getLastEventSeq runId + 1, runError code code⟩]

/-- The runs `runIds` closed. -/
def closedAll (w : World) (code : String) (runIds : List String) : World :=
  { w with events := w.events ++ runIds.flatMap (lastWord w code) }

/-- The rows that are taken back where the broker holds `known`. -/
def taken (known : List String) : List RunRecord → List RunRecord
  | [] => []
  | r :: rest =>
      if (addressedBy r).all fun target => target ∈ known then r :: taken (known ++ [r.runId]) rest
      else taken known rest

/-- The rows that are lost where the broker holds `known`. -/
def lost (known : List String) : List RunRecord → List RunRecord
  | [] => []
  | r :: rest =>
      if (addressedBy r).all fun target => target ∈ known then lost (known ++ [r.runId]) rest
      else r :: lost known rest

/-- The rows handed to the broker, each with its input. -/
def handedOver (w : World) (input : RunRecord → RunAgentInput) (rows : List RunRecord) : World :=
  { w with
    dispatched := w.dispatched ++
      rows.map fun r => takenBack r (input r) (w.getLastEventSeq r.runId)
    live := rows.foldl (fun d r => d.set r.runId r.threadId) w.live }

/-- The ids of the runs somebody holds. -/
def heldIds (w : World) : List String :=
  (w.runs.filter fun r => r.status ∈ heldStatuses).map RunRecord.runId

/-- The ids of the runs that are lost. -/
def lostIds (w : World) : List String := (lost [] w.queuedRuns).map RunRecord.runId

/-- The world after `start`. -/
def restarted (w : World) (input : RunRecord → RunAgentInput) : World :=
  let failed := closedAll (failedAll w (heldIds w)) "orphaned_by_funduq_restart" (heldIds w)
  let back := failedAll (handedOver failed input (taken [] w.queuedRuns)) (lostIds w)
  closedAll back "interjection_target_lost" (lostIds w)

/-! ## Statement by statement -/

/-- What the writes of `start` keep. -/
structure Lasting (Inv : World → Prop) : Prop where
  marks : ∀ w runId, Inv w → Inv (w.markRunStatus runId .failed)
  enqueues : ∀ w d, Inv w → Inv (w.apply (.enqueueRun d))
  ends : ∀ w runId seq code, Inv w → (∃ r ∈ w.runs, r.runId = runId ∧ r.status.terminal = true) →
    Inv (w.apply (.appendRunEvent ⟨runId, seq, runError code code⟩))

theorem marked_failed_idem (r : RunRecord) : (r.marked .failed).marked .failed = r.marked .failed := by
  by_cases h : r.status ∈ legalFrom .failed
  · have hfailed : r.marked .failed = { r with status := .failed } := by
      rw [RunRecord.marked, if_pos h]
    rw [hfailed, RunRecord.marked, if_neg (show Status.failed ∉ legalFrom .failed by decide)]
  · have hsame : r.marked .failed = r := by rw [RunRecord.marked, if_neg h]
    rw [hsame, hsame]

theorem marked_runId (r : RunRecord) (status : Status) : (r.marked status).runId = r.runId :=
  (progress_marked r status).runId

theorem failedAll_nil (w : World) : failedAll w [] = w := by
  simp [failedAll]

/-- One run failed, and then the rest. -/
theorem failedAll_cons (w : World) (runId : String) (runIds : List String) :
    failedAll (w.markRunStatus runId .failed) runIds = failedAll w (runId :: runIds) := by
  unfold failedAll World.markRunStatus World.setRun
  congr 1
  rw [List.map_map]
  apply List.map_congr_left
  intro r _
  by_cases hid : r.runId = runId
  · simp only [Function.comp, if_pos hid, marked_runId, marked_failed_idem, ite_self]
    rw [if_pos (List.mem_cons.2 (.inl hid))]
  · simp only [Function.comp, List.mem_cons, hid, false_or, if_false]

/-- A run that was failed has ended. -/
theorem ended_failedAll {w : World} {runIds : List String} {r : RunRecord} (hr : r ∈ w.runs)
    (hid : r.runId ∈ runIds) :
    ∃ r' ∈ (failedAll w runIds).runs, r'.runId = r.runId ∧ r'.status.terminal = true := by
  refine ⟨_, List.mem_map_of_mem hr, ?_, ?_⟩
  · rw [if_pos hid, marked_runId]
  · rw [if_pos hid]
    exact r.marked_failed

/-- A run's last word depends on its events alone. -/
theorem lastWord_congr {w w' : World} {runId : String} (code : String)
    (h : w'.eventsOf runId = w.eventsOf runId) : lastWord w' code runId = lastWord w code runId := by
  unfold lastWord World.getRunEvents World.getLastEventSeq
  rw [h]

/-- The last words of several runs, told apart. -/
theorem filter_lastWords (w : World) (code runId : String) {runIds : List String}
    (hnodup : runIds.Nodup) :
    (runIds.flatMap (lastWord w code)).filter (fun e => e.runId = runId) =
      if runId ∈ runIds then lastWord w code runId else [] := by
  have hown : ∀ id, (lastWord w code id).filter (fun e => e.runId = runId) =
      if id = runId then lastWord w code id else [] := by
    intro id
    unfold lastWord
    split
    · simp
    · by_cases hid : id = runId <;> simp [hid]
  induction runIds with
  | nil => rfl
  | cons id runIds ih =>
      rw [List.nodup_cons] at hnodup
      rw [List.flatMap_cons, List.filter_append, hown, ih hnodup.2]
      by_cases hid : id = runId
      · subst hid
        simp [hnodup.1]
      · simp [hid, Ne.symm hid]

theorem eventsOf_closedAll (w : World) (code runId : String) {runIds : List String}
    (hnodup : runIds.Nodup) : (closedAll w code runIds).eventsOf runId =
      w.eventsOf runId ++ if runId ∈ runIds then lastWord w code runId else [] := by
  rw [← filter_lastWords w code runId hnodup]
  exact List.filter_append ..

/-- One run closed, and then the rest. -/
theorem closedAll_cons (w : World) (code runId : String) {runIds : List String}
    (hnodup : (runId :: runIds).Nodup) :
    closedAll (closedAll w code [runId]) code runIds = closedAll w code (runId :: runIds) := by
  rw [List.nodup_cons] at hnodup
  have hothers : runIds.flatMap (lastWord (closedAll w code [runId]) code) =
      runIds.flatMap (lastWord w code) := by
    apply List.flatMap_congr
    intro id hid
    apply lastWord_congr
    rw [eventsOf_closedAll w code id (List.nodup_singleton _), if_neg, List.append_nil]
    intro h
    exact hnodup.1 (List.mem_singleton.1 h ▸ hid)
  show { w with events := (w.events ++ _) ++ _ } = _
  rw [hothers, List.append_assoc]
  simp [closedAll]

/-- One row handed over, and then the rest. -/
theorem handedOver_cons (w : World) (input : RunRecord → RunAgentInput) (r : RunRecord)
    (rows : List RunRecord) :
    handedOver (w.apply (.enqueueRun (takenBack r (input r) (w.getLastEventSeq r.runId)))) input
      rows = handedOver w input (r :: rows) := by
  unfold handedOver
  rw [List.map_cons, List.append_cons w.dispatched]
  rfl

/-- The broker holds what it held and what it was handed. -/
theorem live_handedOver (w : World) (input : RunRecord → RunAgentInput) (rows : List RunRecord)
    (runId : String) : ((handedOver w input rows).live.get? runId).isSome = true ↔
      (w.live.get? runId).isSome = true ∨ runId ∈ rows.map RunRecord.runId := by
  induction rows generalizing w with
  | nil => simp [handedOver]
  | cons r rows ih =>
      rw [← handedOver_cons, ih, List.map_cons, List.mem_cons]
      show ((w.live.set r.runId r.threadId).get? runId).isSome = true ∨ _ ↔ _
      rw [Dict.get?_set]
      split
      · rename_i hid
        simp [hid]
      · rename_i hid
        simp [Ne.symm hid]

/-! ## Taken back or lost -/

theorem taken_sublist (known : List String) (rows : List RunRecord) :
    (taken known rows).Sublist rows := by
  induction rows generalizing known with
  | nil => exact .slnil
  | cons r rows ih =>
      unfold taken
      split
      · exact (ih _).cons_cons r
      · exact (ih _).cons r

theorem lost_sublist (known : List String) (rows : List RunRecord) :
    (lost known rows).Sublist rows := by
  induction rows generalizing known with
  | nil => exact .slnil
  | cons r rows ih =>
      unfold lost
      split
      · exact (ih _).cons r
      · exact (ih _).cons_cons r

/-- A row is taken back exactly when it is not lost. -/
theorem mem_taken_iff {known : List String} {rows : List RunRecord} (hnodup : rows.Nodup)
    {r : RunRecord} (hr : r ∈ rows) : r ∈ taken known rows ↔ r ∉ lost known rows := by
  induction rows generalizing known with
  | nil => cases hr
  | cons x rows ih =>
      rw [List.nodup_cons] at hnodup
      unfold taken lost
      rcases List.mem_cons.1 hr with rfl | hmem
      · split
        · have hnot : r ∉ lost (known ++ [r.runId]) rows := fun h =>
            hnodup.1 ((lost_sublist _ _).subset h)
          simp [hnot]
        · have hnot : r ∉ taken known rows := fun h => hnodup.1 ((taken_sublist _ _).subset h)
          simp [hnot]
      · have hne : r ≠ x := by
          rintro rfl
          exact hnodup.1 hmem
        split
        · rw [List.mem_cons, or_iff_right hne]
          exact ih hnodup.2 hmem
        · rw [List.mem_cons, or_iff_right hne]
          exact ih hnodup.2 hmem

/-! ## The rows -/

theorem heldIds_nodup {w : World} (hs : Sane w) : (heldIds w).Nodup :=
  (List.filter_sublist.map _).nodup hs.runIds

/-- A run's id tells whether somebody held it. -/
theorem mem_heldIds {w : World} (hs : Sane w) {r : RunRecord} (hr : r ∈ w.runs) :
    r.runId ∈ heldIds w ↔ r.status ∈ heldStatuses := by
  unfold heldIds
  rw [mem_map_key_iff hs.runIds (List.filter_subset_self _) hr]
  simp [hr]

theorem queuedRuns_perm (w : World) :
    w.queuedRuns.Perm (w.runs.filter fun r => r.status = .queued) := List.perm_insertionSort _ _

theorem mem_queuedRuns {w : World} {r : RunRecord} :
    r ∈ w.queuedRuns ↔ r ∈ w.runs ∧ r.status = .queued := by
  rw [(queuedRuns_perm w).mem_iff, List.mem_filter, decide_eq_true_eq]

theorem queuedRuns_nodup {w : World} (hs : Sane w) :
    (w.queuedRuns.map RunRecord.runId).Nodup := by
  rw [((queuedRuns_perm w).map _).nodup_iff]
  exact (List.filter_sublist.map _).nodup hs.runIds

/-- A row's place in the order. -/
def place (r : RunRecord) : Int ×ₗ String := toLex (r.createdAt, r.runId)

/-- Failing the runs somebody held leaves those that wait. -/
theorem queuedRuns_failedAll {w : World} (hs : Sane w) :
    (failedAll w (heldIds w)).queuedRuns = w.queuedRuns := by
  let fail := fun r : RunRecord => if r.runId ∈ heldIds w then r.marked .failed else r
  have hwaits : ∀ r ∈ w.runs, r.status = .queued → fail r = r := by
    intro r hr hst
    apply if_neg
    rw [mem_heldIds hs hr, hst]
    decide
  have hqueued : ∀ r ∈ w.runs, (fail r).status = .queued ↔ r.status = .queued := by
    intro r hr
    constructor
    · intro h
      have hp : Progress r (fail r) := by
        by_cases hid : r.runId ∈ heldIds w
        · rw [show fail r = r.marked .failed from if_pos hid]
          exact progress_marked r .failed
        · rw [show fail r = r from if_neg hid]
          exact .refl r
      exact hp.queued h
    · intro h
      rw [hwaits r hr h]
      exact h
  have hfilter : (w.runs.map fail).filter (fun r => r.status = .queued) =
      w.runs.filter fun r => r.status = .queued := by
    rw [List.filter_map]
    have hsame : w.runs.filter ((fun r => decide (r.status = .queued)) ∘ fail) =
        w.runs.filter fun r => r.status = .queued := by
      apply List.filter_congr
      intro r hr
      exact decide_eq_decide.2 (hqueued r hr)
    rw [hsame]
    conv_rhs => rw [← List.map_id (w.runs.filter fun r => r.status = .queued)]
    apply List.map_congr_left
    intro r hr
    obtain ⟨hr, hst⟩ := List.mem_filter.1 hr
    exact hwaits r hr (of_decide_eq_true hst)
  show ((w.runs.map fail).filter _).insertionSort _ = _
  rw [hfilter]
  rfl

section Does

variable {Inv : World → Prop} (hI : Lasting Inv) {v : World} {d : Bool}
include hI

/-- The runs are failed one by one. -/
theorem failEach_does {statuses : List Status} {runIds : List String} (hv : Inv v)
    (hnodup : runIds.Nodup)
    (hhit : ∀ runId ∈ runIds, ∃ r ∈ v.runs, r.runId = runId ∧ r.status ∈ statuses) :
    ∃ d', db.Does Inv (failEach statuses runIds) v d runIds (failedAll v runIds) d' := by
  induction runIds generalizing v d with
  | nil =>
      rw [failedAll_nil]
      exact ⟨d, .ret _ _ _⟩
  | cons runId runIds ih =>
      rw [List.nodup_cons] at hnodup
      have hany : (v.runs.any fun r => r.runId = runId && r.status ∈ statuses) = true := by
        obtain ⟨r, hr, hid, hst⟩ := hhit runId List.mem_cons_self
        rw [List.any_eq_true]
        exact ⟨r, hr, by simp [hid, hst]⟩
      -- The rows of the other runs are as they were.
      have hrest : ∀ runId' ∈ runIds, ∃ r ∈ (v.markRunStatus runId .failed).runs,
          r.runId = runId' ∧ r.status ∈ statuses := by
        intro runId' hmem
        obtain ⟨r, hr, hid, hst⟩ := hhit runId' (List.mem_cons_of_mem _ hmem)
        refine ⟨r, List.mem_map.2 ⟨r, hr, if_neg ?_⟩, hid, hst⟩
        rintro rfl
        exact hnodup.1 (hid ▸ hmem)
      have hmark := hI.marks v runId hv
      obtain ⟨d', hdoes⟩ := ih (d := true) hmark hnodup.2 hrest
      rw [failedAll_cons] at hdoes
      refine ⟨d', .bind (.select _) ?_⟩
      rw [if_pos hany]
      exact .bind (.put hmark) (.bind hdoes (.ret _ _ _))

/-- A run the broker does not hold is closed. -/
theorem closeWithTerminalEvent_does {runId code : String} (hv : Inv v)
    (hgone : v.live.get? runId = none)
    (hended : ∃ r ∈ v.runs, r.runId = runId ∧ r.status.terminal = true) :
    db.Does Inv (closeWithTerminalEvent runId code) v false () (closedAll v code [runId]) false := by
  unfold closedAll lastWord
  refine .bind (.select _) ?_
  rw [if_neg (by rw [hgone]; exact Bool.false_ne_true)]
  refine .bind (.select _) ?_
  split
  · rename_i herror
    simp only [List.flatMap_singleton, if_pos herror, List.append_nil]
    exact .ret _ _ _
  · rename_i herror
    simp only [List.flatMap_singleton, if_neg herror]
    exact .bind (.select _) (.bind (.put (hI.ends v _ _ _ hv hended)) .commits)

theorem closeAll_does (code : String) {runIds : List String} (hv : Inv v) (hnodup : runIds.Nodup)
    (hgone : ∀ runId ∈ runIds, v.live.get? runId = none)
    (hended : ∀ runId ∈ runIds, ∃ r ∈ v.runs, r.runId = runId ∧ r.status.terminal = true) :
    db.Does Inv (closeAll code runIds) v false () (closedAll v code runIds) false := by
  induction runIds generalizing v with
  | nil =>
      have hnil : closedAll v code [] = v := by simp [closedAll]
      rw [hnil]
      exact .ret _ _ _
  | cons runId runIds ih =>
      have hone := hended runId List.mem_cons_self
      have hv' : Inv (closedAll v code [runId]) := by
        unfold closedAll lastWord
        rw [List.flatMap_singleton]
        split
        · rw [List.append_nil]
          exact hv
        · exact hI.ends v _ _ _ hv hone
      refine .bind (closeWithTerminalEvent_does hI hv (hgone runId List.mem_cons_self) hone) ?_
      rw [← closedAll_cons v code runId hnodup]
      exact ih hv' (List.nodup_cons.1 hnodup).2
        (fun id hid => hgone id (List.mem_cons_of_mem _ hid))
        fun id hid => hended id (List.mem_cons_of_mem _ hid)

/-- The rows are taken back or lost one by one. -/
theorem recoverRuns_does {rows : List RunRecord} {known : List String}
    {input : RunRecord → RunAgentInput} (hv : Inv v)
    (hlive : ∀ runId, (v.live.get? runId).isSome = true ↔ runId ∈ known)
    (hinput : ∀ r ∈ rows, runInputOf cfg.model v r = .ok (input r)) :
    ∃ d', db.Does Inv (recoverRuns cfg rows) v d ((lost known rows).map RunRecord.runId)
      (failedAll (handedOver v input (taken known rows)) ((lost known rows).map RunRecord.runId))
      d' := by
  induction rows generalizing v d known with
  | nil =>
      have hsame : handedOver v input (taken known []) = v := by simp [handedOver, taken]
      rw [hsame]
      show ∃ d', db.Does Inv (recoverRuns cfg []) v d [] (failedAll v []) d'
      rw [failedAll_nil]
      exact ⟨d, .ret _ _ _⟩
  | cons r rows ih =>
      have hthere : ((addressedBy r).all fun target => (v.live.get? target).isSome) =
          (addressedBy r).all fun target => target ∈ known := by
        congr 1
        funext target
        rw [Bool.eq_iff_iff, hlive, decide_eq_true_eq]
      have hrest : ∀ r' ∈ rows, runInputOf cfg.model v r' = .ok (input r') :=
        fun r' hr' => hinput r' (List.mem_cons_of_mem _ hr')
      unfold taken lost recoverRuns
      by_cases hmay : ((addressedBy r).all fun target => target ∈ known) = true
      · -- The broker holds one run more when it comes to the rest.
        let next := takenBack r (input r) (v.getLastEventSeq r.runId)
        have henqueue := hI.enqueues v next hv
        have hlive' : ∀ runId, (((v.apply (.enqueueRun next)).live).get? runId).isSome = true ↔
            runId ∈ known ++ [r.runId] := by
          intro runId
          show ((v.live.set r.runId r.threadId).get? runId).isSome = true ↔ _
          rw [Dict.get?_set, List.mem_append, List.mem_singleton, ← hlive]
          split
          · rename_i hid
            simp [hid]
          · rename_i hid
            simp [Ne.symm hid]
        obtain ⟨d', hdoes⟩ := ih (d := true) henqueue hlive' hrest
        rw [handedOver_cons] at hdoes
        rw [if_pos hmay, if_pos hmay]
        refine ⟨d', .bind (.select _) ?_⟩
        rw [hthere, if_pos hmay]
        refine .bind (.select _) ?_
        rw [hinput r List.mem_cons_self]
        exact .bind (.ret _ _ _) (.bind (.select _) (.bind (.put henqueue) hdoes))
      · have hmark := hI.marks v r.runId hv
        obtain ⟨d', hdoes⟩ := ih (d := false) hmark hlive hrest
        have hover : failedAll (handedOver (v.markRunStatus r.runId .failed) input (taken known rows))
            ((lost known rows).map RunRecord.runId) =
            failedAll (handedOver v input (taken known rows))
              (r.runId :: (lost known rows).map RunRecord.runId) :=
          failedAll_cons (handedOver v input (taken known rows)) r.runId _
        rw [hover] at hdoes
        rw [if_neg hmay, if_neg hmay]
        refine ⟨d', .bind (.select _) ?_⟩
        rw [hthere, if_neg hmay]
        exact .bind (.put hmark) (.bind .commits (.bind hdoes (.ret _ _ _)))

/-- **`start` with nothing in between.** -/
theorem start_does {input : RunRecord → RunAgentInput} (hv : Inv v) (hs : Sane v)
    (hlive : v.live = []) (hinput : ∀ r ∈ v.queuedRuns, runInputOf cfg.model v r = .ok (input r)) :
    db.Does Inv (start cfg false) v false (heldIds v) (restarted v input) false := by
  have hheld := heldIds_nodup hs
  obtain ⟨d₁, hfail⟩ := failEach_does hI (d := false) hv hheld (by
    intro runId hid
    obtain ⟨r, hr, rfl⟩ := List.mem_map.1 hid
    obtain ⟨hr, hst⟩ := List.mem_filter.1 hr
    exact ⟨r, hr, rfl, of_decide_eq_true hst⟩)
  have hclose := closeAll_does hI "orphaned_by_funduq_restart" (hfail.inv hv) hheld
    (fun runId _ => by
      show v.live.get? runId = none
      rw [hlive]
      rfl)
    (fun runId hid => by
      obtain ⟨r, hr, rfl⟩ := List.mem_map.1 hid
      exact ended_failedAll (List.mem_of_mem_filter hr) hid)
  let failed := closedAll (failedAll v (heldIds v)) "orphaned_by_funduq_restart" (heldIds v)
  have hwaiting : failed.queuedRuns = v.queuedRuns := queuedRuns_failedAll hs
  have hinv : Inv failed := hclose.inv (hfail.inv hv)
  obtain ⟨d₂, hrecover⟩ := recoverRuns_does cfg hI (v := failed) (d := false) hinv
    (fun runId => by
      show (v.live.get? runId).isSome = true ↔ runId ∈ []
      rw [hlive]
      simp)
    hinput
  have hlost : (lostIds v).Nodup := ((lost_sublist _ _).map _).nodup (queuedRuns_nodup hs)
  have hend := closeAll_does hI "interjection_target_lost" (hrecover.inv hinv) hlost
    (fun runId hid => by
      -- What is lost was not handed over.
      obtain ⟨r, hr, rfl⟩ := List.mem_map.1 hid
      have hmem := (lost_sublist _ _).subset hr
      have hnot : r ∉ taken [] v.queuedRuns := fun h =>
        (mem_taken_iff (queuedRuns_nodup hs).of_map hmem).1 h hr
      rw [← Option.not_isSome_iff_eq_none]
      intro hsome
      rcases (live_handedOver failed input _ r.runId).1 hsome with h | h
      · change (v.live.get? r.runId).isSome = true at h
        rw [hlive] at h
        cases h
      · rw [mem_map_key_iff (queuedRuns_nodup hs) (taken_sublist _ _).subset hmem] at h
        exact hnot h)
    (fun runId hid => by
      obtain ⟨r, hr, rfl⟩ := List.mem_map.1 hid
      have hmem : r ∈ failed.queuedRuns := hwaiting ▸ (lost_sublist _ _).subset hr
      exact ended_failedAll (w := handedOver failed input (taken [] v.queuedRuns))
        (mem_queuedRuns.1 hmem).1 hid)
  unfold start
  rw [if_neg Bool.false_ne_true]
  have hback : db.Does Inv (recoverQueued cfg) failed false () (restarted v input) false := by
    refine .bind (.select _) ?_
    rw [hwaiting]
    exact .bind hrecover (.bind .commits hend)
  exact .bind (.bind (.select _) hfail) (.bind .commits (.bind hclose (.bind hback (.ret _ _ _))))

end Does

/-! ## What is different after it -/

section Restarted

variable {w : World} (hs : Sane w) (input : RunRecord → RunAgentInput)
include hs

/-- A run's id tells whether it is lost. -/
theorem mem_lostIds {r : RunRecord} (hr : r ∈ w.runs) :
    r.runId ∈ lostIds w ↔ r ∈ lost [] w.queuedRuns := by
  apply mem_map_key_iff hs.runIds _ hr
  intro r' hr'
  exact (mem_queuedRuns.1 ((lost_sublist _ _).subset hr')).1

omit hs in
theorem queued_of_lost {r : RunRecord} (h : r ∈ lost [] w.queuedRuns) : r.status = .queued :=
  (mem_queuedRuns.1 ((lost_sublist _ _).subset h)).2

/-- Nobody holds a run that is lost. -/
theorem not_held_of_lost {r : RunRecord} (hr : r ∈ w.runs) (h : r.runId ∈ lostIds w) :
    r.status ∉ heldStatuses := by
  rw [queued_of_lost ((mem_lostIds hs hr).1 h)]
  decide

/-- What was held and what is lost has failed; nothing else is touched. -/
theorem run_restarted {r : RunRecord} (hr : r ∈ w.runs) :
    (if r.status ∈ heldStatuses ∨ r.runId ∈ lostIds w then { r with status := .failed } else r)
      ∈ (restarted w input).runs := by
  show _ ∈ ((w.runs.map _).map _ : List RunRecord)
  refine List.mem_map.2 ⟨_, List.mem_map_of_mem hr, ?_⟩
  have hmarked : r.status ∈ legalFrom .failed → r.marked .failed = { r with status := .failed } :=
    fun h => if_pos h
  have hheld := mem_heldIds hs hr
  by_cases hst : r.status ∈ heldStatuses
  · have hnot : r.runId ∉ lostIds w := fun h => not_held_of_lost hs hr h hst
    rw [if_pos (hheld.2 hst), if_neg (by rw [marked_runId]; exact hnot), if_pos (.inl hst)]
    apply hmarked
    cases hcase : r.status with
    | offering => decide
    | running => decide
    | cancelling => decide
    | _ =>
        rw [hcase] at hst
        exact absurd hst (by decide)
  · rw [if_neg (fun h => hst (hheld.1 h))]
    by_cases hgone : r.runId ∈ lostIds w
    · rw [if_pos hgone, if_pos (.inr hgone)]
      apply hmarked
      rw [queued_of_lost ((mem_lostIds hs hr).1 hgone)]
      decide
    · rw [if_neg hgone, if_neg (by rintro (h | h); exacts [hst h, hgone h])]

omit hs in
theorem runIds_restarted :
    (restarted w input).runs.map RunRecord.runId = w.runs.map RunRecord.runId := by
  show ((w.runs.map _).map _ : List RunRecord).map _ = _
  rw [List.map_map, List.map_map]
  apply List.map_congr_left
  intro r _
  have hsame : ∀ (r : RunRecord) (ids : List String),
      (if r.runId ∈ ids then r.marked .failed else r).runId = r.runId := by
    intro r ids
    split
    · exact marked_runId r .failed
    · rfl
  exact (hsame _ _).trans (hsame _ _)

/-- The broker is handed the rows that are taken back, in order. -/
theorem dispatched_restarted (hnone : w.dispatched = []) : (restarted w input).dispatched =
    (taken [] w.queuedRuns).map fun r => takenBack r (input r) (w.getLastEventSeq r.runId) := by
  let failed := closedAll (failedAll w (heldIds w)) "orphaned_by_funduq_restart" (heldIds w)
  show w.dispatched ++ (taken [] w.queuedRuns).map
    (fun r => takenBack r (input r) (failed.getLastEventSeq r.runId)) = _
  rw [hnone, List.nil_append]
  apply List.map_congr_left
  intro r hr
  obtain ⟨hr, hst⟩ := mem_queuedRuns.1 ((taken_sublist _ _).subset hr)
  have hsame : failed.eventsOf r.runId = w.eventsOf r.runId := by
    refine (eventsOf_closedAll _ _ _ (heldIds_nodup hs)).trans ?_
    rw [if_neg, List.append_nil]
    · rfl
    · rw [mem_heldIds hs hr, hst]
      decide
  unfold World.getLastEventSeq
  rw [hsame]

end Restarted

end Funduq.Doors
