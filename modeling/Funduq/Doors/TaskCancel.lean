import Funduq.Doors.Authority
import Funduq.Doors.Lineage
import Funduq.Doors.Record
import Funduq.Doors.SingleUse
import Funduq.Lib.Alone

/-!
# Cancelling a task

An A2A caller holds one id for its task however often it answers: the id of the run
the lineage starts with.  The run to be stopped is the one the lineage ends with.
`cancel_task` checks the proof it is given against the id of the first, and then
calls `cancel_run`, which checks the same proof against the id of the last.

A proof over the task id is a proof over both only as long as nobody has answered.
-/

namespace Funduq.Doors

open Funduq.Lib Funduq.Store Funduq.Contract
open Funduq.Broker (AgentRef Status Time)
open Prog hiding ofExcept

/-! ## Tasks -/

/-- The runs of a task, root first: each is the newest child of the one before, and
the last has none. -/
inductive Lineage (w : World) : RunRecord → List RunRecord → Prop where
  | last {run : RunRecord} (hlast : w.childOf run.runId = none) : Lineage w run [run]
  | answered {run child : RunRecord} {rest : List RunRecord}
      (hchild : w.childOf run.runId = some child) (hrest : Lineage w child rest) :
      Lineage w run (run :: rest)

namespace Lineage

variable {w : World} {run tail : RunRecord} {runs : List RunRecord}

/-- One question for each of its runs, and the loop has come to the last. -/
theorem peek_followLineage (h : Lineage w run runs) (htail : runs.getLast? = some tail) {n : Nat}
    (hn : runs.length ≤ n) : (followLineage n run).peek w = some (.ok tail) := by
  induction h generalizing n with
  | last hnone =>
      cases htail
      cases n with
      | zero => exact absurd hn (by simp)
      | succ n =>
          rw [peek_followLineage_succ, hnone]
          rfl
  | answered hchild hrest ih =>
      cases n with
      | zero => exact absurd hn (by simp)
      | succ n =>
          rw [peek_followLineage_succ, hchild]
          apply ih ?_ (Nat.le_of_succ_le_succ hn)
          cases hrest <;> exact htail

theorem unique {runs' : List RunRecord} (h : Lineage w run runs) (h' : Lineage w run runs') :
    runs = runs' := by
  induction h generalizing runs' with
  | last hnone =>
      cases h' with
      | last _ => rfl
      | answered hchild _ => cases hnone.symm.trans hchild
  | answered hchild _ ih =>
      cases h' with
      | last hnone => cases hnone.symm.trans hchild
      | answered hchild' hrest' =>
          cases hchild.symm.trans hchild'
          rw [ih hrest']

/-- And its runs are collected. -/
theorem peek_collectLineage (h : Lineage w run runs) {n : Nat} (hn : runs.length ≤ n) :
    (collectLineage n run).peek w = some (.ok runs) := by
  induction h generalizing n with
  | last hnone =>
      cases n with
      | zero => exact absurd hn (by simp)
      | succ n =>
          rw [peek_collectLineage_succ, hnone]
  | answered hchild hrest ih =>
      cases n with
      | zero => exact absurd hn (by simp)
      | succ n =>
          rw [peek_collectLineage_succ, hchild]
          show Prog.andThen _ _ = _
          rw [ih (Nat.le_of_succ_le_succ hn)]
          rfl

/-- The loop that collects a lineage collects its runs. -/
theorem of_peek {n : Nat} (h : (collectLineage n run).peek w = some (.ok runs)) :
    Lineage w run runs := by
  induction n generalizing run runs with
  | zero => cases h
  | succ n ih =>
      rw [peek_collectLineage_succ] at h
      cases hchild : w.childOf run.runId with
      | none =>
          rw [hchild] at h
          cases h
          exact .last hchild
      | some child =>
          rw [hchild] at h
          obtain ⟨rest, hrest, hruns⟩ := Prog.andThen_eq_ok.1 h
          cases hruns
          exact .answered hchild (ih hrest)

end Lineage

/-- Its state is not terminal. -/
def Ongoing (w : World) (tail : RunRecord) : Prop :=
  (taskStateOf tail.status (w.getRunEvents tail.runId) tail.cancelRequested).terminal = false

/-- Where it has completed, it waits. -/
theorem Ongoing.waits {w : World} {tail : RunRecord} (h : Ongoing w tail)
    (hdone : tail.status = .completed) (hchild : w.childOf tail.runId = none) :
    waits w tail = true := by
  unfold Ongoing taskStateOf at h
  rw [hdone] at h
  by_cases hasks : openAsks (w.getRunEvents tail.runId) = []
  · rw [if_neg (by simp [hasks])] at h
    cases h
  · rw [if_pos ⟨rfl, hasks⟩] at h
    cases hcancel : tail.cancelRequested with
    | true =>
        rw [hcancel] at h
        cases h
    | false => exact waits_iff.2 ⟨hdone, hcancel, hchild, hasks⟩

section Proof

variable {PrivateKey PublicKey : Type} {cfg : Config PrivateKey PublicKey} {now : Time}
  {run : RunRecord} {metadata : Dict String Json} {head signer signature : String}
  {timestamp : Int}

end Proof

/-! ## The cancel -/

section Cancel

variable {PrivateKey PublicKey : Type} {cfg : Config PrivateKey PublicKey} {w : World} {n : Nat}
  {agent : AgentRef} {taskId head signer signature : String} {timestamp : Int}
  {metadata : Dict String Json} {runs : List RunRecord} {tail : RunRecord}

end Cancel

namespace Demo

end Demo

end Funduq.Doors
