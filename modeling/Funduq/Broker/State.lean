import Mathlib.Logic.Function.Basic
import Mathlib.Tactic.Simps.Basic
import Funduq.Broker.Handlers
import Funduq.Lib.Dict

/-!
# The broker's state

One value holds everything a `RunBroker` owns, the thread handlers and tasks it
has spawned, and the rows it writes.  A thread handler is an object with an
identity, so each of its fields is a function of that identity: `inbox h` is
the inbox of handler `h`, `task h` what its coroutine is doing.

## Where a coroutine can be interrupted

A thread handler's code runs without interruption between two awaits that
really suspend, and the only ones that do are the database transaction of a
record handler and the provider's `cancel`.  `Task` names the points a handler
can be found at.  It names more of them than the event loop can stop at (the
return of `_record`, the head of `_advance`): every schedule of the event loop
is a schedule here, and what holds for all schedules here holds for all of
the event loop's.

## What is only observed

`trail`, `home`, `cancelCalled`, `posted` and `lowered` are written and never
read by the broker.  They keep what the properties speak about and the program forgets: the
commands a run's record was given, what was true at the moment of an offer, the
order messages were posted in.
-/

namespace Funduq.Broker

open Funduq.Lib

/-! ## What a thread handler's coroutine is doing -/

/-- Where the code goes on once the current call has returned. -/
inductive Cont where
  /-- `_on_message` has returned: the foot of the loop in `_thread_main`. -/
  | loop
  /-- `_on_message` goes on to `_advance`. -/
  | advance
  /-- `_release_interjections` has these runs still to offer. -/
  | joining (head : RunId) (rest : List RunId)
  /-- `_on_answered` looks whether the run it has just claimed is to stop. -/
  | cancelCheck (run : RunId)
  deriving DecidableEq, Repr

/-- What follows `await self._record(run, …)` in the function that made the
call. -/
inductive Ret where
  /-- `await self._settle(handler, run)`. -/
  | settle
  /-- `_offer` spawns the hand-over and its clock. -/
  | handOver (connection : Connection) (offerId : Nat)
  /-- `_on_answered`, after the claim. -/
  | claimed
  /-- `_record_and_maybe_settle`. -/
  | maybeSettle (command : Command)
  /-- Nothing: the call was the last statement. -/
  | nothing
  deriving Repr

/-- How far a record handler has come. -/
inductive RecordPhase where
  | writing (w : Write)
  | written (w : Write)
  | notifying
  | returned

/-- What a handler's task is doing. -/
inductive Task where
  /-- Awaiting `inbox.get()`, between two messages. -/
  | idle
  /-- Inside `_record` for `run`. -/
  | recording (run : RunId) (phase : RecordPhase) (ret : Ret) (k : Cont)
  /-- About to run `k`. -/
  | at (k : Cont)
  /-- The loop has been left. -/
  | finished

/-- `_offer_clock`, sleeping. -/
structure OfferClock where
  handler : HandlerId
  runId : RunId
  offerId : Nat
  deriving DecidableEq, Repr

/-- `_hand_over`: spawned, or awaiting the connection's `deliver`. -/
structure Handover where
  clock : OfferClock
  connection : Connection
  started : Bool
  deriving DecidableEq, Repr

/-- The sweep: spawned and not yet run, or awaiting `_work_to_do`. -/
inductive LoopTask where
  | spawned
  | waiting
  deriving DecidableEq, Repr

/-! ## What is only observed -/

/-- What was true at the moment a run was offered. -/
structure OfferNote where
  key : Key
  interjection : Bool
  inFlight : Nat
  declared : Option Nat
  head : Option RunId
  headClaimed : Bool
  deriving Repr

/-- A message about a run as its handler took it off the inbox, with the key
the run's offer was open to at that moment. -/
structure Heard where
  message : Message
  openTo : Option Key
  deriving Repr

/-- One run's history. -/
structure Trail where
  /-- The commands passed to `_record`. -/
  recorded : List Command := []
  offers : List OfferNote := []
  heard : List Heard := []
  /-- The events its row held when it was enqueued. -/
  before : List (Nat × Json) := []
  /-- The connections whose `deliver` was called with it. -/
  delivered : List Connection := []
  /-- The connections whose `cancel` was called for it. -/
  asked : List Connection := []
  failedWrites : Nat := 0

/-! ## The state -/

structure State where
  /-- The keys of `_runs`, oldest first. -/
  runs : List RunId
  /-- The `Run` objects, whether or not `_runs` still holds them. -/
  run : RunId → Run
  runThreads : RunId → Option HandlerId
  /-- Whether `_handlers` holds the run's handler map. -/
  handlers : RunId → Bool
  threads : Dict ThreadId HandlerId
  serving : Dict AgentRef Key
  providers : Key → Option ProviderHandler
  agentThreads : AgentRef → List HandlerId
  unservedSince : AgentRef → Option Time
  loopTask : Option LoopTask
  workToDo : Bool
  nextHandler : HandlerId
  threadOf : HandlerId → ThreadId
  agentOf : HandlerId → AgentRef
  inbox : HandlerId → List Message
  queue : HandlerId → List RunId
  live : HandlerId → List RunId
  task : HandlerId → Task
  clocks : List OfferClock
  handovers : List Handover
  rows : RunId → Option Row
  now : Time
  trail : RunId → Trail
  /-- The handler a run was enqueued on. -/
  home : RunId → Option HandlerId
  /-- `request_cancel` was called for the run while the broker held it. -/
  cancelCalled : RunId → Bool
  /-- Everything ever put on a handler's inbox. -/
  posted : HandlerId → List Message
  /-- A re-registration has lowered the key's declared limit. -/
  lowered : Key → Bool

/-- The object of a run that was never enqueued. -/
def Run.blank : Run :=
  { agent := ⟨"", ""⟩, threadId := "", inputJson := .null, queuedAt := 0 }

namespace State

/-- A broker just built, over a database holding `db`. -/
def init (db : RunId → Option Row) : State where
  runs := []
  run := fun _ => .blank
  runThreads := fun _ => none
  handlers := fun _ => false
  threads := []
  serving := []
  providers := fun _ => none
  agentThreads := fun _ => []
  unservedSince := fun _ => none
  loopTask := none
  workToDo := false
  nextHandler := 0
  threadOf := fun _ => ""
  agentOf := fun _ => ⟨"", ""⟩
  inbox := fun _ => []
  queue := fun _ => []
  live := fun _ => []
  task := fun _ => .idle
  clocks := []
  handovers := []
  rows := db
  now := 0
  trail := fun _ => {}
  home := fun _ => none
  cancelCalled := fun _ => false
  posted := fun _ => []
  lowered := fun _ => false

@[simps -fullyApplied]
def setRun (s : State) (r : RunId) (run : Run) : State :=
  { s with run := Function.update s.run r run }

@[simp] theorem setRun_self (s : State) (r : RunId) : s.setRun r (s.run r) = s := by
  simp [setRun]

@[simps -fullyApplied]
def setTrail (s : State) (r : RunId) (trail : Trail) : State :=
  { s with trail := Function.update s.trail r trail }

@[simps -fullyApplied]
def setTask (s : State) (h : HandlerId) (task : Task) : State :=
  { s with task := Function.update s.task h task }

@[simps -fullyApplied]
def setQueue (s : State) (h : HandlerId) (queue : List RunId) : State :=
  { s with queue := Function.update s.queue h queue }

@[simps -fullyApplied]
def setLive (s : State) (h : HandlerId) (live : List RunId) : State :=
  { s with live := Function.update s.live h live }

@[simps -fullyApplied]
def setProvider (s : State) (k : Key) (p : ProviderHandler) : State :=
  { s with providers := Function.update s.providers k (some p) }

/-! ## Posting -/

/-- `handler.inbox.put_nowait`. -/
@[simps -fullyApplied]
def post (s : State) (h : HandlerId) (m : Message) : State :=
  { s with
    inbox := Function.update s.inbox h (s.inbox h ++ [m])
    posted := Function.update s.posted h (s.posted h ++ [m]) }

/-- `_post`: to the handler holding the run, `false` when none does. -/
def postTo (s : State) (r : RunId) (m : Message) : State × Bool :=
  match s.runThreads r with
  | none => (s, false)
  | some h => (s.post h m, true)

/-- One poke to each of `hs`. -/
@[simps -fullyApplied]
def pokeAll (s : State) (hs : List HandlerId) : State :=
  { s with
    inbox := fun h => if h ∈ hs then s.inbox h ++ [.poke] else s.inbox h
    posted := fun h => if h ∈ hs then s.posted h ++ [.poke] else s.posted h }

def pokeThreads (s : State) : State := s.pokeAll s.threads.values

def pokeAgent (s : State) (agent : AgentRef) : State :=
  s.pokeAll (s.agentThreads agent)

/-! ## The doors -/

def answerOffer (s : State) (r : RunId) (answer : Verdict) (providerKey : Key) :
    State × Bool :=
  s.postTo r (.answered r providerKey answer)

def reportEvent (s : State) (r : RunId) (event : Reported) (origin : Key) :
    State × Bool :=
  s.postTo r (.said r origin (.relayEvent event))

def finishStream (s : State) (r : RunId) (origin : Key) : State × Bool :=
  s.postTo r (.said r origin .finishStream)

def push (s : State) (r : RunId) (command : Command) : State × Bool :=
  s.postTo r (.trusted r command)

def noteUndelivered (s : State) (r : RunId) : State × Bool :=
  s.postTo r (.undelivered r)

def requestCancel (s : State) (r : RunId) : State × Bool :=
  if r ∈ s.runs then
    let s := s.setRun r { s.run r with cancelRequested := true }
    let s := { s with cancelCalled := Function.update s.cancelCalled r true }
    s.postTo r (.cancelAsked r)
  else (s, false)

/-! ## The provider roster -/

/-- `_provider(key)`: the key's handler, born the first time it is seen. -/
def provider (s : State) (k : Key) : ProviderHandler := (s.providers k).getD {}

/-- The connection serving an agent. -/
def servingOf (s : State) (agent : AgentRef) : Option Connection :=
  (s.serving.get? agent).bind fun key => (s.providers key).bind (·.connection)

def agentsServedBy (s : State) (k : Key) : List AgentRef :=
  (s.serving.filter fun e => e.2 = k).map Prod.fst

/-- The limit `new` is below the limit `old`; no limit is above all others. -/
def lowers (old new : Option Nat) : Bool :=
  match old, new with
  | _, none => false
  | none, some _ => true
  | some m, some n => n < m

/-- One agent of `register_provider`'s mapping. -/
def registerOne (s : State) (ref : AgentRef) (connection : Connection) : State :=
  let key := connection.publicKey
  { s with
    serving := s.serving.set ref key
    providers := Function.update s.providers key
      (some { s.provider key with
        connection := some connection
        declared := connection.maxConcurrentRuns })
    unservedSince := Function.update s.unservedSince ref none
    lowered := Function.update s.lowered key
      (s.lowered key || (s.providers key).any fun p =>
        lowers p.declared connection.maxConcurrentRuns) }

def registerProvider (s : State) (mapping : List (AgentRef × Connection)) : State :=
  let s := mapping.foldl (fun s e => s.registerOne e.1 e.2) s
  let s := { s with workToDo := true }
  mapping.foldl (fun s e => s.pokeAgent e.1) s

/-- One agent taken out of service: every run of it somebody holds is failed. -/
def unregisterOne (s : State) (ref : AgentRef) : State :=
  match s.serving.get? ref with
  | none => s
  | some _ =>
      let s := { s with
        serving := s.serving.pop ref
        unservedSince := Function.update s.unservedSince ref (some s.now) }
      let held := s.runs.filter fun r =>
        (s.run r).agent = ref ∧ (s.run r).claimedBy.isSome
      let s := held.foldl
        (fun s r => (s.push r (.fail "provider_left_holding_it" none)).1) s
      s.pokeAgent ref

def unregisterProvider (s : State) (agents : List AgentRef) : State :=
  agents.foldl unregisterOne s

/-- `_note_abnormal`: one more of `event`, and the key is withdrawn when its
allowance is spent. -/
def noteAbnormal (cfg : Config) (s : State) (k : Key) (event : Counter) : State :=
  let p := s.provider k
  let count := p.counters event + 1
  let s := s.setProvider k
    { p with counters := Function.update p.counters event count }
  match cfg.qualityTolerance with
  | none => s
  | some tolerance =>
      if (count : Int) < tolerance then s
      else s.unregisterProvider (s.agentsServedBy k)

def noteMisdeclared (cfg : Config) (s : State) (k : Key) : State :=
  if (s.provider k).hasRoom then s.noteAbnormal cfg k .misdeclared else s

/-! ## Capacity, endings -/

/-- `_release`: gives back the place an offer took. -/
def release (s : State) (r : RunId) : State :=
  let key := (s.run r).offeredTo
  let s := s.setRun r { s.run r with offeredTo := none, offeredConn := none }
  match key with
  | none => s
  | some k =>
      match s.providers k with
      | none => s
      | some p =>
          if 0 < p.inFlight then s.setProvider k { p with inFlight := p.inFlight - 1 }
          else s

/-- `forget`: drops what is tracked for the run and signals that a place may be
free. -/
def forget (s : State) (r : RunId) : State :=
  let held := r ∈ s.runs
  let s := { s with
    runs := s.runs.erase r
    runThreads := Function.update s.runThreads r none
    handlers := Function.update s.handlers r false }
  if held then
    let s := s.setRun r { s.run r with settled := true }
    let s := if (s.run r).offeredTo.isSome then s.release r else s
    pokeThreads { s with workToDo := true }
  else s

/-- `run.offer_timer.cancel()`, where there is one. -/
def cancelTimer (s : State) (h : HandlerId) (r : RunId) : State :=
  match (s.run r).offerTimer with
  | none => s
  | some offerId =>
      let s := { s with clocks := s.clocks.erase ⟨h, r, offerId⟩ }
      s.setRun r { s.run r with offerTimer := none }

/-- `_settle`: ends the run's stream and drops everything held for it. -/
def settle (s : State) (h : HandlerId) (r : RunId) : State :=
  let s := s.setRun r { s.run r with
    settled := true
    outQueue := (s.run r).outQueue ++ [.endOfStream] }
  let s := s.cancelTimer h r
  let s := s.setLive h ((s.live h).erase r)
  let s := s.setQueue h ((s.queue h).erase r)
  s.forget r

end State

end Funduq.Broker
