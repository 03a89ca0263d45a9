import Funduq.Lib.Json

/-!
# The broker's vocabulary

The values the broker moves about: the commands a run's record is made of, the
messages a thread handler's inbox carries, a provider's connection and the
handler of its key, the run itself, and the row the database keeps of it.

Identities are as in the source: a run, a thread and a provider key are strings,
an agent is a provider key with a name.  A thread handler and a connection are
Python objects told apart by identity (`is`); a number stands for that identity.
-/

namespace Funduq.Broker

open Funduq.Lib

abbrev RunId := String
abbrev ThreadId := String
abbrev Key := String

/-- Identity of one `_ThreadHandler` object. -/
abbrev HandlerId := Nat

/-- A moment of the wall clock, in its smallest unit. -/
abbrev Time := Int

structure AgentRef where
  providerKey : Key
  name : String
  deriving DecidableEq, Repr

/-- One `ConnectedProvider` object.  `ident` is its identity, the only thing
the broker compares it by. -/
structure Connection where
  ident : Nat
  publicKey : Key
  maxConcurrentRuns : Option Nat
  deriving DecidableEq, Repr

/-! ## Events -/

/-- What a connection hands to `report_event`: a JSON value, or an AG-UI event
object, which is not a `dict` and has no `get`. -/
inductive Reported where
  | json (value : Json)
  | eventObject (dump : Json)
  deriving Repr

namespace Reported

/-- The event as a `dict`, `none` when it is not one. -/
def dict? : Reported → Option Json
  | json (.obj members) => some (.obj members)
  | _ => none

/-- `event.get("type") if isinstance(event, dict) else None`, when it is a
string. -/
def typeTag (e : Reported) : Option String :=
  e.dict?.bind fun d => d.getStr? "type"

end Reported

/-- A stored event whose `type` is `tag`. -/
def hasType (tag : String) (event : Json) : Bool :=
  event.getStr? "type" = some tag

def runFinished : String := "RUN_FINISHED"

def runErrorTag : String := "RUN_ERROR"

/-- A `RUN_ERROR` funduq itself authors. -/
def runError (message code : String) : Json :=
  .obj [("type", .str runErrorTag), ("message", .str message), ("code", .str code)]

/-! ## The record vocabulary -/

/-- What a run's history is made of. -/
inductive Command where
  | offer
  | claim
  | relayEvent (event : Reported)
  | finishStream
  | requestCancel
  | fail (code : String) (message : Option String)
  deriving Repr

/-- What a connection may report about a run: `RelayEvent | FinishStream`. -/
inductive Report where
  | relayEvent (event : Reported)
  | finishStream
  deriving Repr

def Report.command : Report → Command
  | relayEvent e => .relayEvent e
  | finishStream => .finishStream

/-! ## Inbox messages -/

/-- A provider's answer to an offer: an object with a `reason` string refuses
for good, any other false value declines, a true one accepts. -/
inductive Verdict where
  | refusal (reason : String)
  | declined
  | accepted
  deriving DecidableEq, Repr

/-- How anything reaches a thread handler. -/
inductive Message where
  | queued (run : RunId)
  | answered (runId : RunId) (providerKey : Key) (answer : Verdict)
  | said (runId : RunId) (origin : Key) (command : Report)
  | trusted (runId : RunId) (command : Command)
  | cancelAsked (runId : RunId)
  | offerLapsed (runId : RunId) (offerId : Nat)
  | undelivered (runId : RunId)
  | poke
  deriving Repr

namespace Message

/-- The run a message is about. -/
def runId? : Message → Option RunId
  | queued r => some r
  | answered r _ _ => some r
  | said r _ _ => some r
  | trusted r _ => some r
  | cancelAsked r => some r
  | offerLapsed r _ => some r
  | undelivered r => some r
  | poke => none

/-- The run a message brings in, for a `_Queued`. -/
def arrival? : Message → Option RunId
  | queued r => some r
  | _ => none

end Message

/-! ## The provider seam -/

/-- The four conduct counters. -/
inductive Counter where
  | misdeclared
  | abandoned
  | undelivered
  | unanswered
  deriving DecidableEq, Repr

/-- One provider key's presence.  A disconnect does not touch it: the key is
the identity. -/
structure ProviderHandler where
  connection : Option Connection := none
  declared : Option Nat := none
  inFlight : Nat := 0
  counters : Counter → Nat := fun _ => 0

/-- `_ProviderHandler.has_room`. -/
def ProviderHandler.hasRoom (p : ProviderHandler) : Bool :=
  match p.declared with
  | none => true
  | some n => p.inFlight < n

/-! ## Runs -/

/-- One item of a run's `out_queue`. -/
inductive OutItem where
  | event (e : Json)
  | endOfStream
  deriving Repr

/-- One run, from queued to forgotten.  `offerTimer` and `handoverTask` name
the offer whose task they are; `outQueue` is every item ever put on the queue,
in order, whatever a consumer has taken since. -/
structure Run where
  agent : AgentRef
  threadId : ThreadId
  inputJson : Json
  queuedAt : Time
  seq : Nat := 0
  addressedRunId : Option RunId := none
  offeredTo : Option Key := none
  offeredConn : Option Connection := none
  offerId : Nat := 0
  verdictOpen : Bool := false
  offerTimer : Option Nat := none
  handoverTask : Option Nat := none
  isInterjection : Bool := false
  claimedBy : Option Key := none
  notedAbnormal : Bool := false
  poison : Option String := none
  cancelNotify : Option Connection := none
  cancelRequested : Bool := false
  sawRunFinished : Bool := false
  sawRunError : Bool := false
  settled : Bool := false
  outQueue : List OutItem := []

/-- No provider has been handed the run: what `_advance` asks of a queue's
head before it offers it. -/
def Run.unoffered (run : Run) : Bool :=
  run.claimedBy.isNone && !run.verdictOpen && run.offeredTo.isNone

/-! ## Rows -/

/-- `runs.status`. -/
inductive Status where
  | queued
  | offering
  | running
  | cancelling
  | completed
  | cancelled
  | failed
  deriving DecidableEq, Repr

/-- The row of `runs` and the run's rows of `run_events`, by sequence number. -/
structure Row where
  status : Status
  events : List (Nat × Json)

end Funduq.Broker
