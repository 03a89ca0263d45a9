import Funduq.Doors.Waiting
import Funduq.Lib.Unfelt

/-!
# A cancel that is refused

`cancel_run` reads the run's row, and what it read decides: a run that has ended is
not cancelled, one that waits for an answer has its wait closed, and of any other the
request is recorded first and the broker asked afterwards.  In the last case the run
may have left the broker by then.  The caller is told that nothing was asked, and the
request stands in the row; a run that finished asking meanwhile waits no longer.

Where the broker still holds the run when it is asked, a refusal means that nothing
was committed, and a request that commits nothing is not felt.
-/

namespace Funduq.Doors

open Funduq.Lib Funduq.Store Funduq.Contract
open Funduq.Broker (AgentRef Status)
open Prog hiding ofExcept

/-- What is left of `cancel_run` once the request is recorded: the broker is asked. -/
def asksBroker (runId : String) : Door Reply := do
  let asked ← select fun w => (w.live.get? runId).isSome
  return .asked asked

/-- Whenever request `i` is about to ask the broker, the broker holds the run. -/
def HeldWhenAsked (i : Nat) (s : Process) (m : Move Request Outside) : Prop :=
  ∀ id t runId, m = .advance i id → s.txns[i]? = some t → t.prog = asksBroker runId →
    (s.world.live.get? runId).isSome = true

/-- The request is being recorded, or has been. -/
def Recording (runId : String) : List Write → Door Reply → Prop
  | _, .ret a => a ≠ .asked false
  | _, .raise _ => True
  | ws, .read k => ws = [] ∧ .read k = asksBroker runId
  | ws, .write x k => Recording runId (ws ++ [x]) k
  | _, .commit k => Recording runId [] k
  | _, .mint _ => False
  | _, .enter _ _ => False

/-! ## The program -/

section Program

variable {PrivateKey PublicKey : Type} (cfg : Config PrivateKey PublicKey)
  {D : List Write → Door Reply → Prop}

/-- A program that only reads. -/
def Reads {α : Type} : Door α → Prop
  | .ret _ => True
  | .raise _ => True
  | .read k => ∀ w, Reads (k w)
  | _ => False

theorem Reads.silent {α : Type} {p : Door α} {f : α → Door Reply} (hp : Reads p)
    (hf : ∀ a, (f a).SilentUntil D) : (p >>= f).SilentUntil D := by
  show (p.bind f).SilentUntil D
  induction p with
  | ret a => exact hf a
  | raise e => trivial
  | read k ih => exact fun w => ih w (hp w)
  | _ => exact hp.elim

theorem Reads.bind {α β : Type} {p : Door α} {f : α → Door β} (hp : Reads p)
    (hf : ∀ a, Reads (f a)) : Reads (p >>= f) := by
  show Reads (p.bind f)
  induction p with
  | ret a => exact hf a
  | raise e => trivial
  | read k ih => exact fun w => ih w (hp w)
  | _ => exact hp.elim

theorem reads_select {α : Type} (f : World → α) : Reads (select f : Door α) := fun _ => trivial

theorem reads_ofExcept {α : Type} (x : Except DoorError α) : Reads (Prog.ofExcept x : Door α) := by
  cases x <;> trivial

theorem reads_followLineage (n : Nat) (run : RunRecord) : Reads (followLineage n run) := by
  induction n generalizing run with
  | zero => trivial
  | succ n ih =>
      refine (reads_select _).bind ?_
      intro child
      cases child with
      | none => trivial
      | some child => exact ih child

theorem reads_lineageTail (n : Nat) (runId : String) : Reads (lineageTail n runId) := by
  refine (reads_select _).bind ?_
  intro run
  cases run with
  | none => trivial
  | some run => exact (reads_followLineage n run).bind fun _ => trivial

theorem reads_waitingOn (n : Nat) (run : RunRecord) : Reads (waitingOn n run) := by
  unfold waitingOn
  split
  · trivial
  · refine (reads_lineageTail n _).bind ?_
    intro tail
    cases tail with
    | none => trivial
    | some tail =>
        dsimp only
        split
        · trivial
        · exact (reads_select _).bind fun _ => trivial

/-- What follows a recorded request. -/
theorem recording_asksBroker (runId : String) : Recording runId [] (asksBroker runId) := ⟨rfl, rfl⟩

/-- `cancel_run` reads until it records the request. -/
theorem silent_cancelRun (n : Nat) (runId : String) (metadata : Dict String Json) :
    (program cfg ⟨.cancelRun runId metadata, n⟩).SilentUntil (Recording runId) := by
  intro w
  show Prog.SilentUntil _ (Prog.bind (Prog.bind (.ret (w.getRun runId)) _) _)
  cases w.getRun runId with
  | none => trivial
  | some stored =>
      intro w
      show Prog.SilentUntil _ (Prog.bind (Prog.bind (Prog.ofExcept _) _) _)
      cases authorizeCancel cfg w.now stored metadata with
      | error e => trivial
      | ok note =>
          show Prog.SilentUntil _ (Prog.bind (ite _ _ _) _)
          by_cases hended : stored.status = .failed ∨ stored.status = .cancelled
          · rw [if_pos hended]
            trivial
          · rw [if_neg hended]
            by_cases hdone : stored.status = .completed
            · rw [if_pos hdone]
              show Prog.SilentUntil _ (Prog.bind (Prog.bind (waitingOn n stored) _) _)
              rw [Prog.bind_assoc]
              apply (reads_waitingOn n stored).silent
              intro events
              cases events with
              | none => trivial
              | some events => exact nofun
            · rw [if_neg hdone]
              exact recording_asksBroker runId

end Program

/-! ## The request among others -/

section Refused

variable {PrivateKey PublicKey : Type} {cfg : Config PrivateKey PublicKey} {init : World → Prop}
  {i n : Nat} {runId : String} {metadata : Dict String Json} {s s₁ : Process}

/-- Once the request is being recorded, and where the broker holds the run when it is
asked, the answer is no refusal. -/
theorem recording_advance {t : Txn World Write DoorError Reply Request} {id : String}
    (ht : s.txns[i]? = some t) (hrec : Recording runId t.writes t.prog)
    (hheld : HeldWhenAsked i s (.advance i id)) (hadv : s.advance db i id = some s₁) :
    ∃ t₁, s₁.txns[i]? = some t₁ ∧ Recording runId t₁.writes t₁.prog := by
  have hget : ∀ t', (s.setTxn i t').txns[i]? = some t' := by
    intro t'
    show (s.txns.set i t')[i]? = some t'
    rw [List.getElem?_set_self (Server.lt_of_getElem? ht)]
  obtain ⟨call, prog, started, writes, held⟩ := t
  simp only [Server.advance, ht, Option.bind_some] at hadv
  cases prog with
  | ret a =>
      cases hadv
      exact ⟨_, hget _, hrec⟩
  | raise e =>
      cases hadv
      exact ⟨_, hget _, hrec⟩
  | read k =>
      cases hadv
      refine ⟨_, hget _, ?_⟩
      obtain ⟨hwrites, hasks⟩ := hrec
      have hlive := hheld id _ runId rfl ht hasks
      obtain rfl : writes = [] := hwrites
      cases hasks
      show Reply.asked _ ≠ .asked false
      rw [Db.view_nil]
      show Reply.asked (s.world.live.get? runId).isSome ≠ .asked false
      rw [hlive]
      simp
  | write x k =>
      simp only at hadv
      split at hadv
      · cases hadv
        exact ⟨_, hget _, hrec⟩
      · cases hadv
  | mint k => exact hrec.elim
  | enter n k => exact hrec.elim
  | commit k =>
      cases hadv
      exact ⟨_, hget _, hrec⟩

/-- **A refused cancel changes nothing**, where the broker still holds the run when it
is asked: had the request not taken a statement, the store and every other request
would have come to the same. -/
theorem refused_cancel_changes_nothing {ms : List (Move Request Outside)}
    {t : Txn World Write DoorError Reply Request}
    (hheld : (system cfg init).Along (HeldWhenAsked s.txns.length) s
      (.call ⟨.cancelRun runId metadata, n⟩ :: ms))
    (hrun : (system cfg init).exec s (.call ⟨.cancelRun runId metadata, n⟩ :: ms) = some s₁)
    (ht : s₁.txns[s.txns.length]? = some t) (hrefused : t.prog = .ret (.asked false)) :
    ∃ s₂, (system cfg init).exec s (.call ⟨.cancelRun runId metadata, n⟩ ::
        ms.filter fun m => !m.isOf s.txns.length) = some s₂ ∧
      s₂.world = s₁.world ∧ ∀ j, j ≠ s.txns.length → s₂.txns[j]? = s₁.txns[j]? := by
  obtain ⟨s₀, hs₀, hrest⟩ := Option.bind_eq_some_iff.1 hrun
  have halong := hheld.2 s₀ hs₀
  have hcalled := Server.getElem?_of_call hs₀
  have hidle : ∀ t', s₀.txns[s.txns.length]? = some t' → t'.held = [] := by
    intro t' ht'
    cases hcalled.symm.trans ht'
    rfl
  rcases Server.exec_without (fun _ _ _ _ => recording_advance) hcalled rfl
      (silent_cancelRun cfg n runId metadata) (.refl _ hidle) halong hrest with
    ⟨t₁, ht₁, hrec⟩ | ⟨s₂, hs₂, hapart⟩
  · -- A request that is being recorded is not refused.
    cases ht.symm.trans ht₁
    rw [hrefused] at hrec
    exact absurd rfl hrec
  · refine ⟨s₂, ?_, hapart.world, hapart.others⟩
    show ((system cfg init).step s _).bind _ = _
    rw [hs₀]
    exact hs₂

end Refused

namespace Demo

/-- A provider runs `r0`. -/
def working : List (Move Request Outside) :=
  [calls (.startRun agent (saying "m0") none none)] ++
  advances 0 ["t", "", "", "", "r0", "", "", "", "", "", "", "", ""] ++
  [.outside (.record "r0" { status := some .offering }),
    .outside (.record "r0" { status := some .running })]

/-- It finishes, with the event `event`. -/
def finishes (event : Json) : List (Move Request Outside) :=
  [.outside (.record "r0" { event := some (1, event) }),
    .outside (.record "r0" { status := some .completed })]

def cancels : Move Request Outside := calls (.cancelRun "r0" [])

/-- The run finishes asking, and leaves the broker, after the cancel has seen its
row. -/
def leavesMeanwhile : List (Move Request Outside) :=
  cancels :: advances 1 ["", ""] ++ finishes (finishesAsking ["i"]) ++
    [.outside (.forget "r0")] ++ advances 1 ["", "", ""]

/-- The answer to the cancel. -/
def refused (s : Process) : Bool :=
  (s.txns[1]?).any fun t =>
    match t.prog with
    | .ret (.asked asked) => !asked
    | _ => false

/-- Whether the run's row says that a cancel was requested, and whether it waits. -/
def cancelState (w : World) : Option (Bool × Bool) :=
  (w.getRun "r0").map fun r => (r.cancelRequested, waits w r)

/-- The run finishes for good before the cancel sees its row. -/
def finishesBefore : List (Move Request Outside) :=
  cancels :: finishes (.obj [("type", .str "RUN_FINISHED")]) ++ advances 1 ["", "", "", "", ""]

/-- A store where the run waits and has left the broker. -/
def waitingStore : World :=
  { (after (working ++ finishes (finishesAsking ["i"]))).world with live := [] }

/-- Asking the broker comes to a refusal there. -/
def refusedThere (p : Door Reply) : Bool :=
  match p.peek waitingStore with
  | some (.ok (.asked false)) => true
  | _ => false

theorem asksBroker_refusedThere (runId : String) : refusedThere (asksBroker runId) = true := rfl

def notAsking (s : Process) : Move Request Outside → Bool
  | .advance 1 _ => (s.txns[1]?).all fun t => !refusedThere t.prog
  | _ => true

theorem heldWhenAsked_of_notAsking (s : Process) (m : Move Request Outside)
    (h : notAsking s m = true) : HeldWhenAsked 1 s m := by
  rintro id t runId rfl ht hasks
  have hnot : refusedThere t.prog = false := by simpa [notAsking, ht] using h
  rw [hasks, asksBroker_refusedThere] at hnot
  cases hnot

end Demo

/-- The cancel of a run that has ended. -/
theorem refused_cancel_changes_nothing_ended :
    ∃ s₁ t, (system Demo.config Empty).Along (HeldWhenAsked 1) (Demo.after Demo.working)
        Demo.finishesBefore ∧
      (system Demo.config Empty).exec (Demo.after Demo.working) Demo.finishesBefore = some s₁ ∧
      s₁.txns[1]? = some t ∧ t.prog = .ret (.asked false) ∧
      ∃ s₂, (system Demo.config Empty).exec (Demo.after Demo.working)
          (Demo.finishesBefore.filter fun m => !m.isOf 1) = some s₂ ∧
        s₂.world = s₁.world ∧ ∀ j, j ≠ 1 → s₂.txns[j]? = s₁.txns[j]? := by
  have halong : (system Demo.config Empty).Along (HeldWhenAsked 1) (Demo.after Demo.working)
      Demo.finishesBefore :=
    System.along_of_allows Demo.heldWhenAsked_of_notAsking (by decide +kernel)
  have hrefused : ((system Demo.config Empty).exec (Demo.after Demo.working)
      Demo.finishesBefore).any Demo.refused = true := by
    decide +kernel
  obtain ⟨s₁, hs₁, hrefused⟩ := (Option.any_eq_true _ _).1 hrefused
  obtain ⟨t, ht, hprog⟩ := (Option.any_eq_true _ _).1 hrefused
  have hprog : t.prog = .ret (.asked false) := by
    split at hprog
    · rename_i asked hret
      cases asked
      · exact hret
      · cases hprog
    · cases hprog
  exact ⟨s₁, t, halong, hs₁, ht, hprog,
    refused_cancel_changes_nothing (s := Demo.after Demo.working) halong hs₁ ht hprog⟩

/-- The run left meanwhile: the cancel is refused, and the run waits no longer. -/
theorem refused_cancel_ends_wait :
    (system Demo.config Empty).Reachable (Demo.after Demo.working) ∧
      (Demo.after Demo.working).txns.length = 1 ∧
      ((system Demo.config Empty).exec (Demo.after Demo.working) Demo.leavesMeanwhile).map
        (fun s => (Demo.refused s, Demo.cancelState s.world)) = some (true, some (true, false)) ∧
      ((system Demo.config Empty).exec (Demo.after Demo.working)
        (Demo.leavesMeanwhile.filter fun m => !m.isOf 1)).map (fun s => Demo.cancelState s.world) =
          some (some (false, true)) :=
  ⟨Demo.after_reachable _, by decide +kernel⟩

end Funduq.Doors
