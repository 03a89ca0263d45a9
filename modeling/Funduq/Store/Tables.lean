import Mathlib.Data.List.Sort
import Funduq.Broker.Handlers
import Funduq.Lib.Dict
import Funduq.Lib.Prog

/-!
# The tables

The rows of `schema.py` and the queries and writes of `repo.py` over them.  The
columns kept are those a modelled function reads; `last_activity_at` and the
other clocks of a row are not among them, so touching a thread changes nothing.

`World` is the database with what else a door looks at: the clock, the agents
somebody serves and the runs the broker holds.  `openings`, `cancels` and
`dispatched` are only observed: what a door had in hand when it wrote a run's
row or a cancel, and what it handed to the broker.
-/

namespace Funduq.Store

open Funduq.Lib
open Funduq.Broker (AgentRef Status Time legalFrom)

/-! ## Rows -/

structure LlmRef where
  providerKey : String
  name : String
  deriving DecidableEq, Repr

structure ThreadRow where
  threadId : String
  agent : AgentRef
  parentThreadId : Option String
  /-- The head of the chain the thread was opened under; `none` for a thread
  nobody bound. -/
  headKey : Option String
  metadata : Dict String Json

/-- An AG-UI `RunAgentInput`, as `model_dump` writes it. -/
structure RunAgentInput where
  threadId : String
  runId : String
  state : Json
  messages : List Json
  tools : List Json
  context : List Json
  forwardedProps : Json
  resume : Option (List Json)
  parentRunId : Option String

/-- A row of `runs`: a `RunAgentInput` but for its messages, and the state funduq
holds about it. -/
structure RunRecord where
  runId : String
  threadId : String
  agent : AgentRef
  status : Status
  actorChain : Option (List String)
  createdAt : Time
  parentRunId : Option String
  state : Json
  tools : List Json
  context : List Json
  forwardedProps : Json
  resume : Option (List Json)
  cancelRequested : Bool := false
  cancelRequestedBy : Option String := none

structure MessageRow where
  threadId : String
  runId : String
  messageId : String
  message : Json

structure EventRow where
  runId : String
  seq : Nat
  event : Json

structure KyokBinding where
  llmProvider : LlmRef
  context : Json
  actorChain : Option (List String)

/-! ## What is only observed -/

/-- A resolution that was accepted: who signed, and over what. -/
structure Resolution where
  signer : String
  signature : String
  root : String
  asks : List String
  deriving DecidableEq, Repr

/-- What `enqueue_run` was called with, and the binding made for it. -/
structure Dispatched where
  runId : String
  agent : AgentRef
  threadId : String
  inputJson : RunAgentInput
  seq : Nat
  addressedRunId : Option String
  binding : Option KyokBinding

/-- What a door had in hand when it wrote a run's row. -/
structure Opening where
  /-- What is to be handed to the broker. -/
  handed : Dispatched
  /-- The head of the caller's verified chain. -/
  callerHead : Option String
  /-- The run it answers. -/
  answers : Option String
  resolution : Option Resolution

/-- A cancel that was recorded, with the proof it carried. -/
structure CancelNote where
  runId : String
  requestedBy : Option String
  timestamp : Int
  signature : String

/-! ## The world -/

structure World where
  agents : List AgentRef := []
  llmProviders : List LlmRef := []
  threads : List ThreadRow := []
  runs : List RunRecord := []
  events : List EventRow := []
  messages : List MessageRow := []
  now : Time := 0
  /-- The agents somebody serves. -/
  served : List AgentRef := []
  /-- The broker's runs, each with its thread. -/
  live : Dict String String := []
  dispatched : List Dispatched := []
  openings : List Opening := []
  cancels : List CancelNote := []

namespace RunRecord

/-- `ORDER BY created_at, run_id`. -/
def before (a b : RunRecord) : Bool :=
  a.createdAt < b.createdAt || a.createdAt = b.createdAt && a.runId < b.runId

/-- `ORDER BY created_at DESC, run_id DESC LIMIT 1`. -/
def newest : List RunRecord → Option RunRecord
  | [] => none
  | run :: rest =>
      match newest rest with
      | none => some run
      | some best => if run.before best then some best else some run

theorem mem_of_newest {runs : List RunRecord} {run : RunRecord} (h : newest runs = some run) :
    run ∈ runs := by
  induction runs generalizing run with
  | nil => cases h
  | cons r rest ih =>
      rw [newest] at h
      cases hb : newest rest with
      | none =>
          rw [hb] at h
          cases h
          exact List.mem_cons_self
      | some best =>
          rw [hb] at h
          simp only at h
          split at h
          · cases h
            exact List.mem_cons_of_mem _ (ih hb)
          · cases h
            exact List.mem_cons_self

theorem newest_eq_none {runs : List RunRecord} : newest runs = none ↔ runs = [] := by
  cases runs with
  | nil => simp [newest]
  | cons r rest =>
      rw [newest]
      cases newest rest with
      | none => simp
      | some best =>
          simp only [reduceCtorEq, iff_false]
          split <;> simp

end RunRecord

namespace World

variable (w : World)

/-! ## Queries -/

def getThread (threadId : String) : Option ThreadRow :=
  w.threads.find? fun t => t.threadId = threadId

def getRun (runId : String) : Option RunRecord := w.runs.find? fun r => r.runId = runId

/-- The newest run naming `runId` as its parent. -/
def childOf (runId : String) : Option RunRecord :=
  RunRecord.newest (w.runs.filter fun r => r.parentRunId = some runId)

def runsOf (threadId : String) : List RunRecord :=
  w.runs.filter fun r => r.threadId = threadId

def latestRunForThread (threadId : String) : Option RunRecord :=
  RunRecord.newest (w.runsOf threadId)

/-- Every run on `threadId`, oldest first. -/
def runsInThread (threadId : String) : List RunRecord :=
  (w.runsOf threadId).insertionSort fun a b => ¬ b.before a

/-- The runs that start a lineage on `threadId`, newest first. -/
def rootRunsInThread (threadId : String) : List RunRecord :=
  ((w.runsOf threadId).filter fun r => r.parentRunId.isNone).insertionSort fun a b => ¬ a.before b

def getActiveRunForThread (threadId : String) : Option RunRecord :=
  RunRecord.newest ((w.runsOf threadId).filter fun r => !r.status.terminal)

/-- `PENDING_RUN_STATUSES`. -/
def pendingRunStatuses : List Status := [.queued, .offering]

/-- How many of the thread's runs no provider has accepted yet. -/
def countQueuedRunsForThread (threadId : String) : Nat :=
  ((w.runsOf threadId).filter fun r => r.status ∈ pendingRunStatuses).length

/-- Every run still waiting for a provider, oldest first. -/
def queuedRuns : List RunRecord :=
  (w.runs.filter fun r => r.status = .queued).insertionSort fun a b => ¬ b.before a

/-- The messages the run carried in, in order. -/
def messagesOfRun (runId : String) : List Json :=
  (w.messages.filter fun m => m.runId = runId).map MessageRow.message

def eventsOf (runId : String) : List EventRow := w.events.filter fun e => e.runId = runId

def getRunEvents (runId : String) : List Json :=
  ((w.eventsOf runId).insertionSort fun a b => a.seq ≤ b.seq).map EventRow.event

/-- The highest sequence number of the run's events, `0` when it has none. -/
def getLastEventSeq (runId : String) : Nat :=
  ((w.eventsOf runId).map EventRow.seq).foldl max 0

/-! ## Writes -/

end World

/-- The statements a door writes with. -/
inductive Write where
  /-- `UPDATE threads SET last_activity_at`. -/
  | touchThread (threadId : String)
  | newThread (row : ThreadRow)
  | newRun (row : RunRecord) (opening : Opening)
  | newMessage (row : MessageRow)
  | markRunStatus (runId : String) (status : Status)
  | appendRunEvent (row : EventRow)
  | recordCancelRequest (note : CancelNote)
  /-- `broker.enqueue_run`. -/
  | enqueueRun (d : Dispatched)

/-- `mark_run_status` on a row: an illegal move is refused and the recorded status
stands. -/
def RunRecord.marked (r : RunRecord) (status : Status) : RunRecord :=
  if r.status ∈ legalFrom status then { r with status := status } else r

/-- Everything that has not ended may fail. -/
theorem RunRecord.marked_failed (r : RunRecord) : (r.marked .failed).status.terminal = true := by
  unfold marked
  split
  · rfl
  · rename_i h
    cases hs : r.status with
    | completed => rfl
    | cancelled => rfl
    | failed => rfl
    | _ =>
        rw [hs] at h
        exact absurd (by decide) h

namespace World

/-- Change the row of `runId`. -/
def setRun (w : World) (runId : String) (f : RunRecord → RunRecord) : World :=
  { w with runs := w.runs.map fun r => if r.runId = runId then f r else r }

def markRunStatus (w : World) (runId : String) (status : Status) : World :=
  w.setRun runId fun r => r.marked status

def apply (w : World) : Write → World
  | .touchThread _ => w
  | .newThread row => { w with threads := w.threads ++ [row] }
  | .newRun row opening =>
      { w with runs := w.runs ++ [row], openings := w.openings ++ [opening] }
  | .newMessage row => { w with messages := w.messages ++ [row] }
  | .markRunStatus runId status => w.markRunStatus runId status
  | .appendRunEvent row => { w with events := w.events ++ [row] }
  | .recordCancelRequest note =>
      { w.setRun note.runId (fun r =>
          { r with cancelRequested := true, cancelRequestedBy := note.requestedBy }) with
        cancels := w.cancels ++ [note] }
  | .enqueueRun d =>
      { w with
        dispatched := w.dispatched ++ [d]
        live := w.live.set d.runId d.threadId }

/-- Nothing in the world names `id`. -/
def unused (w : World) (id : String) : Bool :=
  w.threads.all (fun t => t.threadId ≠ id) &&
    w.runs.all fun r => r.runId ≠ id && r.parentRunId ≠ some id

end World

/-- The database: a thread's row is the writer's from the write to the end of its
transaction. -/
def db : Db World Write where
  apply := World.apply
  locks
    | .touchThread threadId => [threadId]
    | .newThread row => [row.threadId]
    | _ => []
  unused := World.unused

/-! ## What changes from outside -/

/-- What happens without a door: the clock, the roster, and the broker at work on
its runs. -/
inductive Outside where
  | tick (now : Time)
  | registerAgent (agent : AgentRef)
  | registerLlmProvider (ref : LlmRef)
  | serve (agent : AgentRef)
  | unserve (agent : AgentRef)
  /-- The transaction of a record handler. -/
  | record (runId : String) (write : Broker.Write)
  | forget (runId : String)

namespace World

def recordWrite (w : World) (runId : String) (write : Broker.Write) : World :=
  let w := { w with
    events := w.events ++ write.event.toList.map fun e => ⟨runId, e.1, e.2⟩ }
  match write.status with
  | none => w
  | some status => w.markRunStatus runId status

end World

def outside (w : World) : Outside → Option World
  | .tick now => some { w with now := now }
  | .registerAgent agent => some { w with agents := w.agents ++ [agent] }
  | .registerLlmProvider ref => some { w with llmProviders := w.llmProviders ++ [ref] }
  | .serve agent => some { w with served := w.served ++ [agent] }
  | .unserve agent => some { w with served := w.served.filter fun a => a ≠ agent }
  | .record runId write =>
      -- A handler writes to a run that has not ended; a write that fails is no move.
      if (w.getRun runId).any fun r => !r.status.terminal then
        some (w.recordWrite runId write)
      else none
  | .forget runId => some { w with live := w.live.pop runId }

end Funduq.Store
