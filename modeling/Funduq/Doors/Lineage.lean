import Funduq.Doors.History

/-!
# Lineages, read off

What `waiting_on`, `lineage_tail`, `root_of` and the others come to when nothing moves
while they look (`Prog.peek`), and that the root of a lineage stays what it is while
others are at work.

A run keeps its parent, so its root is settled once its parent is there or is never
to be.  The ids funduq mints are nobody's to guess: a run that is opened under an id
that another has already named as its parent would give that one a new root.
-/

namespace Funduq.Doors

open Funduq.Lib Funduq.Store Funduq.Contract
open Funduq.Broker (AgentRef Status)

/-! ## Reading it off -/

/-- What `waiting_on` finds out about a run. -/
def waits (w : World) (run : RunRecord) : Bool :=
  run.status = .completed && !run.cancelRequested && (w.childOf run.runId).isNone &&
    !(openAsks (w.getRunEvents run.runId)).isEmpty

/-- `waiting_on` reports the run waiting. -/
def Waiting (w : World) (runId : String) : Prop :=
  ∃ run questions events, w.getRun runId = some run ∧
    (waitingOn questions run).peek w = some (.ok (some events))

/-- The state of the task that starts with the run: its tail's. -/
def taskState (questions : Nat) (runId : String) : Door (Option TaskState) := do
  let runs ← lineage questions runId
  match runs.getLast? with
  | none => return none
  | some tail =>
      let events ← Prog.select fun w => w.getRunEvents tail.runId
      return some (taskStateOf tail.status events tail.cancelRequested)

theorem childOf_eq_none {w : World} {runId : String} :
    w.childOf runId = none ↔ ∀ r ∈ w.runs, r.parentRunId ≠ some runId := by
  rw [World.childOf, RunRecord.newest_eq_none, List.filter_eq_nil_iff]
  simp

theorem peek_followLineage_succ (w : World) (n : Nat) (run : RunRecord) :
    (followLineage (n + 1) run).peek w =
      match w.childOf run.runId with
      | none => some (.ok run)
      | some child => (followLineage n child).peek w := by
  show (match w.childOf run.runId with
    | none => pure run
    | some child => followLineage n child : Door RunRecord).peek w = _
  cases w.childOf run.runId <;> rfl

/-- A lineage ends with a run that has no child. -/
theorem childOf_tail {w : World} {n : Nat} {run tail : RunRecord}
    (h : (followLineage n run).peek w = some (.ok tail)) : w.childOf tail.runId = none := by
  induction n generalizing run with
  | zero => cases h
  | succ n ih =>
      rw [peek_followLineage_succ] at h
      cases hc : w.childOf run.runId with
      | none =>
          rw [hc] at h
          cases h
          exact hc
      | some child =>
          rw [hc] at h
          exact ih h

theorem peek_lineageTail (w : World) (n : Nat) (runId : String) :
    (lineageTail n runId).peek w =
      (w.getRun runId).elim (some (.ok none)) fun run =>
        Prog.andThen ((followLineage n run).peek w) fun tail => some (.ok (some tail)) := by
  show (match w.getRun runId with
    | none => pure none
    | some run => followLineage n run >>= fun tail => pure (some tail) : Door _).peek w = _
  cases w.getRun runId with
  | none => rfl
  | some run => exact Prog.peek_bind w (followLineage n run) _

/-- What `waiting_on` makes of the lineage's tail. -/
def seeing (w : World) (run : RunRecord) : Option RunRecord → Except DoorError (Option (List Json))
  | none => .error (.typeError "'NoneType' object has no attribute 'run_id'")
  | some tail =>
      if tail.runId ≠ run.runId ∨ openAsks (w.getRunEvents run.runId) = [] then .ok none
      else .ok (some (w.getRunEvents run.runId))

theorem peek_waitingOn (w : World) (n : Nat) (run : RunRecord) :
    (waitingOn n run).peek w =
      if run.status ≠ .completed ∨ run.cancelRequested = true then some (.ok none)
      else Prog.andThen ((lineageTail n run.runId).peek w) fun tail => some (seeing w run tail) := by
  unfold waitingOn
  split
  · rfl
  · rw [Prog.peek_bind]
    congr 1
    funext tail
    cases tail with
    | none => rfl
    | some tail =>
        unfold seeing
        by_cases hid : tail.runId ≠ run.runId
        · simp only [if_pos hid, if_pos (Or.inl hid)]
          rfl
        · simp only [if_neg hid]
          show some (Except.ok (if openAsks (w.getRunEvents run.runId) = [] then none
            else some (w.getRunEvents run.runId))) = _
          by_cases hasks : openAsks (w.getRunEvents run.runId) = []
          · rw [if_pos hasks, if_pos (Or.inr hasks)]
          · rw [if_neg hasks, if_neg (not_or.2 ⟨hid, hasks⟩)]

theorem waits_iff {w : World} {run : RunRecord} :
    waits w run = true ↔ run.status = .completed ∧ run.cancelRequested = false ∧
      w.childOf run.runId = none ∧ openAsks (w.getRunEvents run.runId) ≠ [] := by
  simp [waits, and_assoc]

/-- `waiting_on` reports what is there to see. -/
theorem waiting_iff {w : World} {runId : String} :
    Waiting w runId ↔ ∃ run, w.getRun runId = some run ∧ waits w run = true := by
  constructor
  · rintro ⟨run, n, events, hrun, hpeek⟩
    refine ⟨run, hrun, waits_iff.2 ?_⟩
    rw [peek_waitingOn] at hpeek
    split at hpeek
    · cases hpeek
    · rename_i hno
      rw [not_or, Decidable.not_not, Bool.not_eq_true] at hno
      obtain ⟨tail, htail, hsees⟩ := Prog.andThen_eq_ok.1 hpeek
      cases tail with
      | none => cases hsees
      | some tail =>
          simp only [seeing, Option.some.injEq] at hsees
          split at hsees
          · cases hsees
          · rename_i hseen
            rw [not_or, Decidable.not_not] at hseen
            refine ⟨hno.1, hno.2, ?_, hseen.2⟩
            -- The tail is the run itself, and it has no child.
            rw [peek_lineageTail] at htail
            cases hget : w.getRun run.runId with
            | none =>
                rw [hget] at htail
                cases htail
            | some found =>
                rw [hget] at htail
                obtain ⟨tail', hfollow, hsome⟩ := Prog.andThen_eq_ok.1 htail
                cases hsome
                rw [← hseen.1]
                exact childOf_tail hfollow
  · rintro ⟨run, hrun, hwaits⟩
    obtain ⟨hdone, hopen, hchild, hasks⟩ := waits_iff.1 hwaits
    have hid : run.runId = runId := by simpa using List.find?_some hrun
    refine ⟨run, 1, w.getRunEvents run.runId, hrun, ?_⟩
    have htail : (lineageTail 1 run.runId).peek w = some (.ok (some run)) := by
      rw [peek_lineageTail, hid, hrun, Option.elim_some, peek_followLineage_succ, hchild]
      rfl
    rw [peek_waitingOn, if_neg (by simp [hdone, hopen]), htail]
    simp [Prog.andThen, seeing, hasks]

theorem peek_collectLineage_succ (w : World) (n : Nat) (run : RunRecord) :
    (collectLineage (n + 1) run).peek w =
      match w.childOf run.runId with
      | none => some (.ok [run])
      | some child =>
          Prog.andThen ((collectLineage n child).peek w) fun rest => some (.ok (run :: rest)) := by
  show (match w.childOf run.runId with
    | none => pure [run]
    | some child => collectLineage n child >>= fun rest => pure (run :: rest) :
      Door (List RunRecord)).peek w = _
  cases w.childOf run.runId with
  | none => rfl
  | some child => exact Prog.peek_bind w (collectLineage n child) _

theorem peek_lineage (w : World) (n : Nat) (runId : String) :
    (lineage n runId).peek w =
      (w.getRun runId).elim (some (.ok [])) fun run => (collectLineage n run).peek w := by
  show (match w.getRun runId with
    | none => pure []
    | some run => collectLineage n run : Door (List RunRecord)).peek w = _
  cases w.getRun runId <;> rfl

theorem peek_taskState (w : World) (n : Nat) (runId : String) :
    (taskState n runId).peek w = Prog.andThen ((lineage n runId).peek w) fun runs =>
      some (.ok (runs.getLast?.map fun tail =>
        taskStateOf tail.status (w.getRunEvents tail.runId) tail.cancelRequested)) := by
  unfold taskState
  rw [Prog.peek_bind]
  congr 1
  funext runs
  cases hlast : runs.getLast? with
  | none => rfl
  | some tail => rfl

/-! ## Roots -/

theorem peek_rootOf_succ (w : World) (n : Nat) (run : RunRecord) :
    (rootOf (n + 1) run).peek w =
      (run.parentRunId.bind w.getRun).elim (some (.ok run.runId)) fun parent =>
        (rootOf n parent).peek w := by
  rw [rootOf]
  cases run.parentRunId with
  | none => rfl
  | some parentId =>
      show (match w.getRun parentId with
        | none => pure run.runId
        | some parent => rootOf n parent : Door String).peek w = _
      rw [Option.bind_some]
      cases w.getRun parentId <;> rfl

/-- `root_of` finds the lineage of the run to start with `root`. -/
def IsRoot (w : World) (run : RunRecord) (root : String) : Prop :=
  ∃ questions, (rootOf questions run).peek w = some (.ok root)

/-- A lineage starts where it starts, however often one may ask. -/
theorem IsRoot.unique {w : World} {run : RunRecord} {root root' : String} (h : IsRoot w run root)
    (h' : IsRoot w run root') : root = root' := by
  obtain ⟨n, hn⟩ := h
  obtain ⟨m, hm⟩ := h'
  induction n generalizing run m with
  | zero => cases hn
  | succ n ih =>
      cases m with
      | zero => cases hm
      | succ m =>
          rw [peek_rootOf_succ] at hn hm
          cases hparent : run.parentRunId.bind w.getRun with
          | none =>
              rw [hparent] at hn hm
              cases hn
              cases hm
              rfl
          | some parent =>
              rw [hparent] at hn hm
              exact ih hn m hm

/-- The root depends on what a run keeps. -/
theorem isRoot_progress {w : World} {run run' : RunRecord} {root : String}
    (hp : Progress run run') : IsRoot w run' root ↔ IsRoot w run root := by
  have hpeek : ∀ n, (rootOf n run').peek w = (rootOf n run).peek w := by
    intro n
    cases n with
    | zero => rfl
    | succ n => rw [peek_rootOf_succ, peek_rootOf_succ, hp.runId, hp.parentRunId]
  simp only [IsRoot, hpeek]

/-- What a request relies on: a parent that is not there is not to come. -/
structure Kin (held : List Name) (w w' : World) : Prop where
  undisturbed : Undisturbed held w w'
  orphans : ∀ r ∈ w.runs, ∀ id, r.parentRunId = some id → w.getRun id = none → w'.getRun id = none

theorem kin_steady : Steady Kin where
  refl H w := ⟨undisturbed_steady.refl H w, fun _ _ _ _ h => h⟩
  trans H a b c h h' := by
    refine ⟨undisturbed_steady.trans H a b c h.undisturbed h'.undisturbed, ?_⟩
    intro r hr id hparent hnone
    obtain ⟨r', hr', hp⟩ := h.undisturbed.later.mem hr
    exact h'.orphans r' hr' id (hp.parentRunId.trans hparent) (h.orphans r hr id hparent hnone)
  anti hsub h := ⟨undisturbed_steady.anti hsub h.undisturbed, h.orphans⟩

theorem kin_undisturbed (held : List Name) (w w' : World) (h : Kin held w w') :
    Undisturbed held w w' := h.undisturbed

section Ascends

variable {W : World → Prop} {R : List Name → World → World → Prop}

/-- What was found going up is still the root. -/
theorem Ascends.isRoot (hK : ∀ H a b, R H a b → Kin H a b) {w : World} (hs : Sane w)
    {run : RunRecord} {root : String} (h : Ascends W R w run root) : IsRoot w run root := by
  induction h with
  | start hnone =>
      refine ⟨1, ?_⟩
      rw [peek_rootOf_succ, hnone]
      rfl
  | orphan parentId hsome h =>
      obtain ⟨w₀, ⟨⟨w₁, ⟨-, hmem⟩, hr₁⟩, hnone⟩, hr₀⟩ := h
      obtain ⟨r, hr, hpr⟩ := (hK _ _ _ hr₁).undisturbed.later.mem hmem
      have hnone' := (hK _ _ _ hr₀).orphans r hr parentId (hpr.parentRunId.trans hsome) hnone
      refine ⟨1, ?_⟩
      rw [peek_rootOf_succ, hsome, Option.bind_some, hnone']
      rfl
  | @parent run parent root parentId hsome h _ ih =>
      obtain ⟨w₀, ⟨-, hget⟩, hr₀⟩ := h
      have hid : parent.runId = parentId := by simpa using List.find?_some hget
      obtain ⟨r, hr, hpr⟩ := (hK _ _ _ hr₀).undisturbed.later.mem (List.mem_of_find?_eq_some hget)
      obtain ⟨n, hn⟩ := (isRoot_progress hpr).2 ih
      refine ⟨n + 1, ?_⟩
      rw [peek_rootOf_succ, hsome, Option.bind_some, ← hid, ← hpr.runId, hs.getRun hr]
      exact hn

/-- The root of a run is found going up. -/
theorem IsRoot.ascends (hR : Steady R) {w : World} (hw : W w) {run : RunRecord} {root : String}
    (hrun : run ∈ w.runs) (h : IsRoot w run root) : Ascends W R w run root := by
  obtain ⟨n, hn⟩ := h
  induction n generalizing run with
  | zero => cases hn
  | succ n ih =>
      rw [peek_rootOf_succ] at hn
      cases hparent : run.parentRunId with
      | none =>
          rw [hparent] at hn
          cases hn
          exact .start hparent
      | some parentId =>
          rw [hparent, Option.bind_some] at hn
          cases hget : w.getRun parentId with
          | none =>
              rw [hget] at hn
              cases hn
              exact .orphan parentId hparent (.now hR ⟨.now hR ⟨hw, hrun⟩, hget⟩)
          | some parent =>
              rw [hget] at hn
              exact .parent parentId hparent (.now hR ⟨hw, hget⟩)
                (ih (List.mem_of_find?_eq_some hget) hn)

end Ascends

/-- A run keeps its root. -/
theorem IsRoot.kin {w w' : World} {held : List Name} (h : Kin held w w') (hs' : Sane w')
    {run : RunRecord} {root : String} (hrun : run ∈ w.runs) (hroot : IsRoot w run root) :
    IsRoot w' run root := by
  have hascends : Ascends (fun _ => True) Kin w run root := hroot.ascends kin_steady trivial hrun
  exact (hascends.later kin_steady (kin_steady.anti (List.nil_subset _) h)).isRoot
    (fun _ _ _ hk => hk) hs'

/-- Nobody has named a run that is opened before it was there. -/
def unforeseen (ws : List Write) (w : World) : Bool :=
  ws.all fun
    | .newRun row _ => w.runs.all fun other => other.parentRunId ≠ some row.runId
    | _ => true

section Commit

variable {PrivateKey PublicKey : Type} {cfg : Config PrivateKey PublicKey} {W : World → Prop}
  {R : List Name → World → World → Prop} {call : Call} {held : List Name} {w : World}

theorem Still.getRun {w' : World} (h : Still w w') {id : String} (hnone : w.getRun id = none) :
    w'.getRun id = none := by
  obtain ⟨f, hp, hruns⟩ := h.runs
  unfold World.getRun at hnone ⊢
  rw [List.find?_eq_none] at hnone ⊢
  intro r hr
  rw [hruns] at hr
  obtain ⟨r₀, hr₀, rfl⟩ := List.mem_map.1 hr
  rw [(hp r₀).runId]
  exact hnone r₀ hr₀

theorem Still.kin {w' : World} (h : Still w w') (held : List Name) : Kin held w w' :=
  ⟨⟨h.later, fun _ _ => h.fresh⟩, fun _ _ _ _ hnone => h.getRun hnone⟩

/-- A commit is what the others rely on, as long as they hold none of the ids and
nobody has named its run. -/
theorem Commits.kin {ws : List Write} (h : Commits cfg W R call held ws w)
    (hun : unforeseen ws w = true) {held' : List Name}
    (hsep : ∀ id, .own id ∈ held → .own id ∉ held') : Kin held' w (db.view w ws) := by
  refine ⟨h.undisturbed hsep, ?_⟩
  intro r hr id hparent hnone
  rcases h.cases with ⟨front, o, rfl, hopens⟩ | hstill
  · have hcond := List.all_eq_true.1 hun (.newRun o.row o.opening)
      (List.mem_append_right _ List.mem_cons_self)
    simp only [List.all_eq_true, decide_eq_true_eq] at hcond
    rw [o.view hopens.thread.front]
    unfold World.getRun at hnone ⊢
    rw [List.find?_append, hnone, Option.none_or, List.find?_cons_of_neg, List.find?_nil]
    intro hid
    exact hcond r hr (hparent.trans (by simp only [decide_eq_true_eq] at hid; rw [hid]))
  · exact hstill.getRun hnone

end Commit

end Funduq.Doors
