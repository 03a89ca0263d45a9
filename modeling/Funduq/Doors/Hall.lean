import Funduq.Doors.Recovery

/-!
# The KYOK relay beside the doors

A funduq process with what its KYOK relay holds: the binding of every run whose caller
opted in.  `dispatch` makes it in one breath with the hand-over, and takes it back in
that breath where nobody serves the agent; `_recover_queued` makes it for a row it takes
back, reads the row's input and only then hands it over; the broker's forgetting a run
discards it.

The process runs its broker from the beginning.  `_recover_queued` may take its steps
whenever it gets to: the doors are open all the while.
-/

namespace Funduq.Doors

open Funduq.Lib Funduq.Store
open Funduq.Broker (Status)

/-! ## Bindings -/

/-- `KyokRelay._bindings`. -/
abbrev Bindings := Dict String KyokBinding

namespace Bindings

variable (bindings : Bindings)

def bindRun (runId : String) (binding : KyokBinding) : Bindings := bindings.set runId binding

def bindingFor (runId : String) : Option KyokBinding := bindings.get? runId

def discard (runId : String) : Bindings := bindings.pop runId

def boundRuns (ref : LlmRef) : Nat := (bindings.filter fun e => e.2.llmProvider = ref).length

/-- A run is bound where its caller opted in. -/
def bindIf (runId : String) : Option KyokBinding → Bindings
  | some binding => bindings.bindRun runId binding
  | none => bindings

/-- What the writes of `dispatch` come with: a run is bound in the breath it is handed
over in, and discarded in the breath nobody was found to serve its agent in. -/
def along : Write → Bindings
  | .enqueueRun d => bindings.bindIf d.runId d.binding
  | .markRunStatus runId .failed => bindings.discard runId
  | _ => bindings

end Bindings

/-! ## The process -/

/-- How far `_recover_queued` has come. -/
inductive Recovery where
  /-- The waiting rows are still to be read. -/
  | pending
  | taking (waiting : List RunRecord) (lost : List String)
  /-- `stored` is bound, and its input is being read. -/
  | bound (stored : RunRecord) (waiting : List RunRecord) (lost : List String)
  | closing (lost : List String)
  | done

/-- The run that is bound and not yet handed over. -/
def Recovery.inHand : Recovery → Option String
  | .bound stored _ _ => some stored.runId
  | _ => none

structure Hall where
  doors : Process
  bindings : Bindings := []
  recovery : Recovery := .pending
  /-- Only observed: the call every run was opened by. -/
  opened : List (String × Call) := []

namespace Hall

def world (h : Hall) : World := h.doors.world

def withWorld (h : Hall) (w : World) : Hall := { h with doors := { h.doors with world := w } }

/-- What a request is about to commit, and its call. -/
def committing (h : Hall) : Move Request Outside → Option (Call × List Write)
  | .advance i _ =>
      match h.doors.txns[i]? with
      | some { call, prog := .commit _, writes, .. } => some (call.call, writes)
      | _ => none
  | _ => none

/-- The runs that are opened with these writes. -/
def openedBy (call : Call) (ws : List Write) : List (String × Call) :=
  ws.filterMap fun
    | .newRun row _ => some (row.runId, call)
    | _ => none

/-- The relay while the doors or the broker make a move. -/
def relayed (h : Hall) (a : Move Request Outside) : Bindings :=
  match a, h.committing a with
  | _, some (_, ws) => ws.foldl Bindings.along h.bindings
  -- `forget` tells its listeners.
  | .outside (.forget runId), none => h.bindings.discard runId
  | _, none => h.bindings

end Hall

/-- `close_with_terminal_event` of a run the broker may hold. -/
def closeRun (w : World) (code runId : String) : World :=
  if (w.live.get? runId).isSome then w
  else { w with events := w.events ++ lastWord w code runId }

inductive Turn where
  | doors (a : Move Request Outside)
  /-- `_recover_queued` goes on. -/
  | recover
  /-- The process is gone, and the next one has started its broker. -/
  | restart

section System

variable {PrivateKey PublicKey : Type} (cfg : Config PrivateKey PublicKey)

namespace Hall

def takeTurn (h : Hall) (a : Move Request Outside) : Option Hall :=
  (Server.step db (program cfg) outside h.doors a).map fun s =>
    { h with
      doors := s
      bindings := h.relayed a
      opened := h.opened ++ (h.committing a).elim [] fun c => openedBy c.1 c.2 }

/-- One step of `_recover_queued`: to where it waits for the database next. -/
def recover (h : Hall) : Option Hall :=
  match h.recovery with
  | .pending => some { h with recovery := .taking h.world.queuedRuns [] }
  | .taking [] lost => some { h with recovery := .closing lost }
  | .taking (stored :: waiting) lost =>
      if (addressedBy stored).all fun target => (h.world.live.get? target).isSome then
        some { h with
          bindings := h.bindings.bindIf stored.runId (bindingFrom stored)
          recovery := .bound stored waiting lost }
      else
        some { h.withWorld (h.world.markRunStatus stored.runId .failed) with
          recovery := .taking waiting (lost ++ [stored.runId]) }
  | .bound stored waiting lost =>
      match runInputOf cfg.model h.world stored with
      -- `start` raises.
      | .error _ => some { h with recovery := .done }
      | .ok input =>
          let seq := h.world.getLastEventSeq stored.runId
          some { h.withWorld (h.world.apply (.enqueueRun (takenBack stored input seq))) with
            recovery := .taking waiting lost }
  | .closing [] => some { h with recovery := .done }
  | .closing (runId :: lost) =>
      some { h.withWorld (closeRun h.world "interjection_target_lost" runId) with
        recovery := .closing lost }
  | .done => none

def restart (h : Hall) : Hall where
  doors := { world := crashed h.world }
  opened := h.opened

def step (h : Hall) : Turn → Option Hall
  | .doors a => h.takeTurn cfg a
  | .recover => h.recover cfg
  | .restart => some h.restart

end Hall

/-- Processes at work, one after the other, the first with nothing on file. -/
def hallSystem : System Hall Turn where
  init h := Empty h.world ∧ h.doors.txns = [] ∧ h.bindings = [] ∧
    h.recovery = .pending ∧ h.opened = []
  step := Hall.step cfg

end System

namespace Demo

theorem hall_init : (hallSystem config).init { doors := start } :=
  ⟨start_init.1, rfl, rfl, rfl, rfl⟩

end Demo

end Funduq.Doors
