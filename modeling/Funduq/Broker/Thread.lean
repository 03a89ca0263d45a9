import Funduq.Broker.State

/-!
# The thread handler

Everything that happens to a run is decided here, by the one handler of its
thread, from the messages in its one inbox.  Each function below is the source's
coroutine up to the point where it waits: a call of `_record` leaves the handler
at `Task.recording`, with what the caller does next in `Ret` and where the
caller itself goes on in `Cont`; `resume` picks the code up again from there.
-/

namespace Funduq.Broker

open Funduq.Lib

namespace State

/-- `_record`: the command is put on the run's record and its handler runs up
to its database transaction.  A run nobody registered handlers for is only
logged about. -/
def record (cfg : Config) (s : State) (h : HandlerId) (r : RunId) (command : Command)
    (ret : Ret) (k : Cont) : State :=
  let s := s.setTrail r
    { s.trail r with recorded := (s.trail r).recorded ++ [command] }
  if s.handlers r then
    let (run, write) := handle cfg command (s.run r)
    let s := s.setRun r run
    match write with
    | none => s.setTask h (.recording r .returned ret k)
    | some w => s.setTask h (.recording r (.writing w) ret k)
  else s.setTask h (.recording r .returned ret k)

/-! ## Offers -/

/-- What is true of the thread and the provider as `r` is offered. -/
def offerNote (s : State) (h : HandlerId) (k : Key) (interjection : Bool) :
    OfferNote :=
  { key := k
    interjection := interjection
    inFlight := (s.provider k).inFlight
    declared := (s.provider k).declared
    head := (s.queue h).head?
    headClaimed := ((s.queue h).head?).any fun q => (s.run q).claimedBy.isSome }

/-- The fields `_offer` writes before it records the offer. -/
def placeOffer (s : State) (h : HandlerId) (r : RunId) (connection : Connection)
    (interjection : Bool) : State :=
  let key := connection.publicKey
  let note := s.offerNote h key interjection
  let s := s.setTrail r { s.trail r with offers := (s.trail r).offers ++ [note] }
  let s := s.setRun r { s.run r with
    offeredTo := some key
    offeredConn := some connection
    isInterjection := interjection
    offerId := (s.run r).offerId + 1
    verdictOpen := true }
  let p := s.provider key
  s.setProvider key { p with inFlight := p.inFlight + 1 }

/-- `_offer` when there is nobody to offer the run to: an interjection goes
back in the queue, behind the turn it meant to join. -/
def noRoom (s : State) (h : HandlerId) (r : RunId) (interjection : Bool) (k : Cont) :
    State :=
  let s := if interjection then
      s.setQueue h ((s.queue h).insertIdx (min 1 (s.queue h).length) r)
    else s
  s.setTask h (.at k)

/-- `_offer`. -/
def offer (cfg : Config) (s : State) (h : HandlerId) (r : RunId)
    (interjection : Bool) (k : Cont) : State :=
  match s.servingOf (s.run r).agent with
  | none => s.noRoom h r interjection k
  | some connection =>
      if (s.provider connection.publicKey).hasRoom then
        match cfg.inputError (s.run r).inputJson with
        | some e =>
            s.record cfg h r
              (.fail "input_does_not_validate"
                (some ("input does not validate as RunAgentInput: " ++ e)))
              .settle k
        | none =>
            let s := s.placeOffer h r connection interjection
            s.record cfg h r .offer (.handOver connection (s.run r).offerId) k
      else s.noRoom h r interjection k

/-- `_advance`: offers the head of the queue if the turn is free. -/
def advance (cfg : Config) (s : State) (h : HandlerId) : State :=
  let s := s.setQueue h ((s.queue h).dropWhile fun r => (s.run r).settled)
  match (s.queue h).head? with
  | none => s.setTask h (.at .loop)
  | some r =>
      if (s.run r).unoffered then s.offer cfg h r false .loop
      else s.setTask h (.at .loop)

/-- The runs `_release_interjections` pulls out of the queue. -/
def joiners (s : State) (h : HandlerId) (head : RunId) : List RunId :=
  (s.queue h).tail.filter fun r =>
    (s.run r).addressedRunId = some head ∧ (s.run r).settled = false

/-! ## The message handlers -/

def onQueued (cfg : Config) (s : State) (h : HandlerId) (r : RunId) : State :=
  let s := if r ∈ s.live h then s else s.setLive h (s.live h ++ [r])
  let joins := ((s.queue h).head?).any fun head =>
    (s.run head).claimedBy.isSome ∧ (s.run r).addressedRunId = some head
  if joins then s.offer cfg h r true .advance
  else (s.setQueue h (s.queue h ++ [r])).setTask h (.at .advance)

/-- The verdict is in, whatever it says: the offer is closed and its clock
stopped. -/
def closeOffer (s : State) (h : HandlerId) (r : RunId) : State :=
  let s := s.setRun r { s.run r with verdictOpen := false }
  s.cancelTimer h r

def onAnswered (cfg : Config) (s : State) (h : HandlerId) (r : RunId) (key : Key)
    (answer : Verdict) : State :=
  if r ∈ s.live h ∧ (s.run r).verdictOpen = true ∧ (s.run r).offeredTo = some key then
    let s := s.closeOffer h r
    match answer with
    | .refusal reason =>
        let s := s.release r
        s.record cfg h r (.fail "provider_refused" (some reason)) .settle .advance
    | .declined =>
        let s := s.release r
        if (s.run r).cancelRequested then
          s.record cfg h r .requestCancel .settle .advance
        else
          let s := s.noteMisdeclared cfg key
          s.record cfg h r (.fail "provider_declined" none) .settle .advance
    | .accepted =>
        let s := s.setRun r { s.run r with
          claimedBy := some key
          cancelNotify := (s.run r).offeredConn }
        s.record cfg h r .claim .claimed .advance
  else s.setTask h (.at .advance)

def recordAndMaybeSettle (cfg : Config) (s : State) (h : HandlerId) (r : RunId)
    (command : Command) : State :=
  s.record cfg h r command (.maybeSettle command) .advance

def onSaid (cfg : Config) (s : State) (h : HandlerId) (r : RunId) (origin : Key)
    (report : Report) : State :=
  if r ∈ s.live h ∧ (s.run r).claimedBy = some origin then
    s.recordAndMaybeSettle cfg h r report.command
  else s.setTask h (.at .advance)

def onCancelAsked (cfg : Config) (s : State) (h : HandlerId) (r : RunId) : State :=
  if r ∈ s.live h then
    let s := s.setRun r { s.run r with cancelRequested := true }
    if (s.run r).verdictOpen then s.setTask h (.at .advance)
    else if (s.run r).claimedBy.isSome then
      s.record cfg h r .requestCancel .nothing .advance
    else s.record cfg h r .requestCancel .settle .advance
  else s.setTask h (.at .advance)

/-- The run is somebody's and funduq ends it: one `abandoned`, once per run. -/
def noteAbandoned (cfg : Config) (s : State) (r : RunId) : State :=
  match (s.run r).claimedBy with
  | none => s
  | some holder =>
      if (s.run r).notedAbnormal then s
      else
        let s := s.setRun r { s.run r with notedAbnormal := true }
        s.noteAbnormal cfg holder .abandoned

def onTrusted (cfg : Config) (s : State) (h : HandlerId) (r : RunId)
    (command : Command) : State :=
  if r ∈ s.live h then
    match command with
    | .requestCancel => s.onCancelAsked cfg h r
    | .fail code message =>
        let s := s.noteAbandoned cfg r
        s.record cfg h r (.fail code message) .settle .advance
    | command => s.recordAndMaybeSettle cfg h r command
  else s.setTask h (.at .advance)

def onUndelivered (cfg : Config) (s : State) (h : HandlerId) (r : RunId) : State :=
  let s := match (s.run r).claimedBy with
    | none => s
    | some holder =>
        if r ∈ s.live h ∧ (s.run r).notedAbnormal = false then
          let s := s.setRun r { s.run r with notedAbnormal := true }
          s.noteAbnormal cfg holder .undelivered
        else s
  s.setTask h (.at .advance)

/-- `run.handover_task.cancel()`, where it is still under way. -/
def cancelHandover (s : State) (h : HandlerId) (r : RunId) : State :=
  let s := match (s.run r).handoverTask with
    | none => s
    | some offerId =>
        let clock : OfferClock := ⟨h, r, offerId⟩
        { s with handovers := s.handovers.filter fun t => t.clock ≠ clock }
  s.setRun r { s.run r with handoverTask := none }

def noteUnanswered (cfg : Config) (s : State) (r : RunId) : State :=
  match (s.run r).offeredTo with
  | none => s
  | some key => s.noteAbnormal cfg key .unanswered

def onOfferLapsed (cfg : Config) (s : State) (h : HandlerId) (r : RunId)
    (offerId : Nat) : State :=
  if r ∈ s.live h ∧ (s.run r).verdictOpen = true ∧ (s.run r).offerId = offerId then
    let s := s.closeOffer h r
    let s := s.cancelHandover h r
    let s := s.noteUnanswered cfg r
    let s := s.release r
    if (s.run r).cancelRequested then
      s.record cfg h r .requestCancel .settle .advance
    else
      s.record cfg h r (.fail "provider_did_not_answer" none) .settle .advance
  else s.setTask h (.at .advance)

def onMessage (cfg : Config) (s : State) (h : HandlerId) : Message → State
  | .queued r => s.onQueued cfg h r
  | .answered r key answer => s.onAnswered cfg h r key answer
  | .said r origin report => s.onSaid cfg h r origin report
  | .trusted r command => s.onTrusted cfg h r command
  | .cancelAsked r => s.onCancelAsked cfg h r
  | .offerLapsed r offerId => s.onOfferLapsed cfg h r offerId
  | .undelivered r => s.onUndelivered cfg h r
  | .poke => s.setTask h (.at .advance)

/-- The key a run's offer is open to, as its handler sees it. -/
def openTo (s : State) (h : HandlerId) (r : RunId) : Option Key :=
  if r ∈ s.live h ∧ (s.run r).verdictOpen = true then (s.run r).offeredTo else none

/-- Note in the run's trail that `m`, which is about it, was taken. -/
def hear (s : State) (h : HandlerId) (m : Message) : State :=
  match m.runId? with
  | none => s
  | some r => s.setTrail r
      { s.trail r with heard := (s.trail r).heard ++ [⟨m, s.openTo h r⟩] }

/-- `_thread_main` takes the next message. -/
def take (cfg : Config) (s : State) (h : HandlerId) : Option State :=
  match s.task h, s.inbox h with
  | .idle, m :: rest =>
      let s := { s with inbox := Function.update s.inbox h rest }
      some ((s.hear h m).onMessage cfg h m)
  | _, _ => none

/-! ## After an await -/

/-- The transaction a handler waits for commits, or fails and persists
nothing; where the run has no row it can only fail. -/
def transact (s : State) (h : HandlerId) (succeeds : Bool) : Option State :=
  match s.task h with
  | .recording r (.writing w) ret k =>
      match s.rows r, succeeds with
      | some row, true =>
          let s := { s with rows := Function.update s.rows r (some (w.commit row)) }
          some (s.setTask h (.recording r (.written w) ret k))
      | _, false =>
          let s := s.setTrail r
            { s.trail r with failedWrites := (s.trail r).failedWrites + 1 }
          some (s.setTask h (.recording r .returned ret k))
      | none, true => none
  | _ => none

/-- What a record handler does once its transaction has committed. -/
def afterWrite (s : State) (h : HandlerId) (r : RunId) (w : Write) (ret : Ret)
    (k : Cont) : State :=
  let s := s.setRun r { s.run r with
    outQueue := (s.run r).outQueue ++ (w.event.toList.map fun e => .event e.2) }
  if w.asksToStop then
    match (s.run r).cancelNotify with
    | none => s.setTask h (.recording r .returned ret k)
    | some connection =>
        let s := s.setTrail r { s.trail r with asked := (s.trail r).asked ++ [connection] }
        s.setTask h (.recording r .notifying ret k)
  else s.setTask h (.recording r .returned ret k)

/-- `_offer`, after the offer is recorded. -/
def handOver (s : State) (h : HandlerId) (r : RunId) (connection : Connection)
    (offerId : Nat) : State :=
  let clock : OfferClock := ⟨h, r, offerId⟩
  let handover : Handover := ⟨clock, connection, false⟩
  let s := { s with
    handovers := s.handovers ++ [handover]
    clocks := s.clocks ++ [clock] }
  s.setRun r { s.run r with handoverTask := some offerId, offerTimer := some offerId }

/-- `_on_answered`, after the claim is recorded. -/
def afterClaim (s : State) (h : HandlerId) (r : RunId) : State :=
  if (s.servingOf (s.run r).agent).map (·.ident) =
      (s.run r).offeredConn.map (·.ident) then
    if (s.run r).isInterjection then s.setTask h (.at (.cancelCheck r))
    else s.setTask h (.at (.joining r (s.joiners h r)))
  else
    let s := (s.push r (.fail "provider_left_holding_it" none)).1
    s.setTask h (.at .advance)

/-- `_record_and_maybe_settle`, after the command is recorded. -/
def maybeSettle (cfg : Config) (s : State) (h : HandlerId) (r : RunId)
    (command : Command) (k : Cont) : State :=
  match (s.run r).poison with
  | some text =>
      s.record cfg h r (.fail "provider_sent_malformed_event" (some text)) .settle k
  | none =>
      match command with
      | .finishStream => (s.settle h r).setTask h (.at k)
      | _ => s.setTask h (.at k)

/-- What the caller of `_record` does when the call has returned. -/
def onReturn (cfg : Config) (s : State) (h : HandlerId) (r : RunId) (k : Cont) :
    Ret → State
  | .settle => (s.settle h r).setTask h (.at k)
  | .handOver connection offerId => (s.handOver h r connection offerId).setTask h (.at k)
  | .claimed => s.afterClaim h r
  | .maybeSettle command => s.maybeSettle cfg h r command k
  | .nothing => s.setTask h (.at k)

/-- The `finally` of `_thread_main`. -/
def leave (s : State) (h : HandlerId) : State :=
  let agent := s.agentOf h
  let s := { s with
    agentThreads := Function.update s.agentThreads agent
      ((s.agentThreads agent).filter fun h' => h' ≠ h) }
  let s := if s.threads.get? (s.threadOf h) = some h then
      { s with threads := s.threads.pop (s.threadOf h) }
    else s
  s.setTask h .finished

/-- Where a handler goes on when it is not waiting for anything. -/
def goOn (cfg : Config) (s : State) (h : HandlerId) : Cont → State
  | .loop =>
      if s.live h = [] ∧ (s.inbox h).isEmpty then s.leave h else s.setTask h .idle
  | .advance => s.advance cfg h
  | .joining head [] => s.setTask h (.at (.cancelCheck head))
  | .joining head (r :: rest) =>
      let s := s.setQueue h ((s.queue h).erase r)
      s.offer cfg h r true (.joining head rest)
  | .cancelCheck r =>
      if (s.run r).cancelRequested then s.record cfg h r .requestCancel .nothing .advance
      else s.setTask h (.at .advance)

/-- The handler's coroutine goes on to its next stopping point. -/
def resume (cfg : Config) (s : State) (h : HandlerId) : Option State :=
  match s.task h with
  | .recording r (.written w) ret k => some (s.afterWrite h r w ret k)
  | .recording r .notifying ret k => some (s.setTask h (.recording r .returned ret k))
  | .recording r .returned ret k => some (s.onReturn cfg h r k ret)
  | .at k => some (s.goOn cfg h k)
  | _ => none

end State

end Funduq.Broker
