import Mathlib.Data.List.Basic
import Funduq.Broker.Outside

/-!
# What a handler writes

While it works on a run a thread handler writes five things: the run, its trail
and its row, and its own queue and task.  Together they are the `Sheet` of that
run on that handler.  `s.Did h r w s'` says that `h` has worked on `r` and left
the sheet `w` behind, that otherwise `s'` only has news (`Grows`), and that the
provider's places moved with the run (`Shifts`).

Each lemma of this file reads one piece of `Thread.lean` off its code once, as
the sheet it leaves; nothing after it unfolds the message handlers again.
-/

namespace Funduq.Broker

open Funduq.Lib

/-! ## What the code does to a run -/

namespace Run

/-- The verdict is in: the offer is closed and its clock stopped. -/
def close (run : Run) : Run := { run with verdictOpen := false, offerTimer := none }

/-- The place is given back. -/
def release (run : Run) : Run := { run with offeredTo := none, offeredConn := none }

/-- The provider takes the run. -/
def accept (run : Run) (key : Key) : Run :=
  { run.close with claimedBy := some key, cancelNotify := run.offeredConn }

/-- The provider does not take it. -/
def turnDown (run : Run) : Run := run.close.release

/-- What is recorded of a run nobody took: its cancellation when one was asked
for, else the failure `code`. -/
def dropped (run : Run) (code : String) : Command :=
  if run.cancelRequested then .requestCancel else .fail code none

/-- Nobody answered in time. -/
def lapse (run : Run) : Run := { run.turnDown with handoverTask := none }

def askCancel (run : Run) : Run := { run with cancelRequested := true }

/-- Its holder is on record as having misbehaved over it, if it has one. -/
def noteAbnormal (run : Run) : Run :=
  { run with notedAbnormal := run.notedAbnormal || run.claimedBy.isSome }

theorem noteAbnormal_eq_self {run : Run}
    (h : (run.notedAbnormal || run.claimedBy.isSome) = run.notedAbnormal) :
    run.noteAbnormal = run := by
  unfold noteAbnormal
  rw [h]

/-- The run is offered over `connection`. -/
def offerTo (run : Run) (connection : Connection) (interjection : Bool) : Run :=
  { run with
    offeredTo := some connection.publicKey
    offeredConn := some connection
    isInterjection := interjection
    offerId := run.offerId + 1
    verdictOpen := true }

/-- Its hand-over and its clock are spawned. -/
def handOver (run : Run) (offerId : Nat) : Run :=
  { run with handoverTask := some offerId, offerTimer := some offerId }

/-- What was written is put on its stream. -/
def stream (run : Run) (w : Write) : Run :=
  { run with outQueue := run.outQueue ++ (w.event.toList.map fun e => .event e.2) }

/-- Whom a committed write asks to stop. -/
def stops (run : Run) (w : Write) : Option Connection :=
  if w.asksToStop then run.cancelNotify else none

/-- The run is over. -/
def settle (run : Run) : Run :=
  let run := { run with
    settled := true
    outQueue := run.outQueue ++ [OutItem.endOfStream]
    offerTimer := none }
  if run.offeredTo.isSome then run.release else run

/-- Settling ends a run's stream and gives back its place, and leaves the rest. -/
theorem settle_run (run : Run) : ∃ connection, run.settle =
    { run with
      settled := true
      outQueue := run.outQueue ++ [.endOfStream]
      offerTimer := none
      offeredTo := none
      offeredConn := connection } := by
  cases h : run.offeredTo with
  | none => exact ⟨run.offeredConn, by simp [settle, h]⟩
  | some k => exact ⟨none, by simp [settle, release, h]⟩

@[simp] theorem settle_offeredTo (run : Run) : run.settle.offeredTo = none := by
  obtain ⟨_, h⟩ := run.settle_run
  rw [h]

@[simp] theorem settle_outQueue (run : Run) :
    run.settle.outQueue = run.outQueue ++ [.endOfStream] := by
  obtain ⟨_, h⟩ := run.settle_run
  rw [h]

end Run

/-! ## Sheets -/

/-- What a handler writes while it works on a run. -/
structure Sheet where
  run : Run
  trail : Trail
  row : Option Row
  queue : List RunId
  task : Task

/-- The phase a record handler is left in by its first stretch of code. -/
def startPhase : Option Write → RecordPhase
  | none => .returned
  | some w => .writing w

/-- The sheet once `command` is being recorded, for a caller that goes on with
`ret` and then `k`. -/
def Sheet.record (cfg : Config) (w : Sheet) (r : RunId) (command : Command) (ret : Ret)
    (k : Cont) : Sheet :=
  { w with
    run := (handle cfg command w.run).1
    trail := { w.trail with recorded := w.trail.recorded ++ [command] }
    task := .recording r (startPhase (handle cfg command w.run).2) ret k }

/-- `w` is of the same thread as `v`, as settled, and has heard the same. -/
structure Sheet.Follows (w v : Sheet) : Prop where
  threadId : w.run.threadId = v.run.threadId
  settled : w.run.settled = v.run.settled
  heard : w.trail.heard = v.trail.heard

theorem Sheet.Follows.record {cfg : Config} {w v : Sheet} {r : RunId} {command : Command}
    {ret : Ret} {k : Cont} (hw : w.Follows v) : (w.record cfg r command ret k).Follows v where
  threadId := (handle_threadId cfg command w.run).trans hw.threadId
  settled := (handle_settled cfg command w.run).trans hw.settled
  heard := hw.heard

namespace State

variable {cfg : Config} {s s' s'' : State} {h : HandlerId} {r : RunId} {w w' : Sheet}

/-- The sheet of run `r` on handler `h`. -/
def sheet (s : State) (h : HandlerId) (r : RunId) : Sheet :=
  ⟨s.run r, s.trail r, s.rows r, s.queue h, s.task h⟩

/-- The state with that sheet replaced. -/
@[simps -fullyApplied]
def put (s : State) (h : HandlerId) (r : RunId) (w : Sheet) : State :=
  { s with
    run := Function.update s.run r w.run
    trail := Function.update s.trail r w.trail
    rows := Function.update s.rows r w.row
    queue := Function.update s.queue h w.queue
    task := Function.update s.task h w.task }

@[simp] theorem put_sheet (s : State) (h : HandlerId) (r : RunId) :
    s.put h r (s.sheet h r) = s := by
  simp [put, sheet]

@[simp] theorem sheet_put (s : State) (h : HandlerId) (r : RunId) (w : Sheet) :
    (s.put h r w).sheet h r = w := by
  simp [sheet]

/-- Handler `h` has worked on run `r` and left `w`; besides, there is news, and
the places with the providers have followed the run. -/
def Did (s : State) (h : HandlerId) (r : RunId) (w : Sheet) (s' : State) : Prop :=
  ∃ o, s' = (s.withOutside o).put h r w ∧ s.Grows o ∧ s.Shifts (s.run r) w.run o

/-- Where `r` has been offered, its place is counted. -/
def Funded (s : State) (r : RunId) : Prop :=
  ∀ k, (s.run r).place k ≤ (s.provider k).inFlight

namespace Did

theorem sheet (hd : s.Did h r w s') : s'.sheet h r = w := by
  obtain ⟨o, rfl, -⟩ := hd
  simp

theorem run (hd : s.Did h r w s') : s'.run r = w.run := congrArg Sheet.run hd.sheet

theorem trail (hd : s.Did h r w s') : s'.trail r = w.trail := congrArg Sheet.trail hd.sheet

theorem queue (hd : s.Did h r w s') : s'.queue h = w.queue := congrArg Sheet.queue hd.sheet

theorem live (hd : s.Did h r w s') : s'.live = s.live := by
  obtain ⟨o, rfl, -⟩ := hd
  rfl

theorem home (hd : s.Did h r w s') : s'.home = s.home := by
  obtain ⟨o, rfl, -⟩ := hd
  rfl

theorem handlers (hd : s.Did h r w s') : s'.handlers = s.handlers := by
  obtain ⟨o, rfl, -⟩ := hd
  rfl

theorem atHome (hd : s.Did h r w s') (hs : s.AtHome) : s'.AtHome := by
  obtain ⟨o, rfl, -⟩ := hd
  exact hs

theorem funded (hd : s.Did h r w s') (hf : s.Funded r) : s'.Funded r := by
  obtain ⟨o, rfl, -, hk⟩ := hd
  intro k
  have h1 := hk.inFlight k
  have h2 := hf k
  change (Function.update s.run r w.run r).place k ≤ ((o.providers k).getD {}).inFlight
  rw [Function.update_self]
  omega

theorem of_still (hq : s.Still s') : s.Did h r (s.sheet h r) s' := by
  obtain ⟨o, rfl, hg, hk⟩ := hq
  exact ⟨o, (put_sheet (s.withOutside o) h r).symm, hg, hk _⟩

theorem refl (s : State) (h : HandlerId) (r : RunId) : s.Did h r (s.sheet h r) s :=
  of_still (.refl s)

theorem trans (h1 : s.Did h r w s') (h2 : s'.Did h r w' s'') : s.Did h r w' s'' := by
  have hrun := h1.run
  obtain ⟨o, rfl, hg, hk⟩ := h1
  obtain ⟨o', rfl, hg', hk'⟩ := h2
  rw [hrun] at hk'
  refine ⟨o', ?_, hg.trans (hg'.congr rfl rfl rfl rfl rfl rfl),
    hk.trans (hk'.congr rfl rfl rfl rfl)⟩
  simp [put, withOutside]

/-! ## The pieces -/

theorem still (hd : s.Did h r w s') (hq : s'.Still s'') : s.Did h r w s'' := by
  have h2 : s'.Did h r (s'.sheet h r) s'' := of_still hq
  rw [hd.sheet] at h2
  exact hd.trans h2

/-- A handler writes on its sheet, and no place moves. -/
private theorem write (hd : s.Did h r w s') (hw : w'.run.offeredTo = w.run.offeredTo) :
    s.Did h r w' (s'.put h r w') := by
  refine hd.trans ⟨s'.outside, rfl, s'.grows_outside, ?_⟩
  rw [hd.run]
  exact shifts_of_same rfl rfl rfl rfl hw

theorem setRun {x : Run} (hd : s.Did h r w s') (hx : x.offeredTo = w.run.offeredTo) :
    s.Did h r { w with run := x } (s'.setRun r x) := by
  have he : s'.put h r { w with run := x } = s'.setRun r x := by
    rw [← hd.sheet]
    simp [put, State.setRun, State.sheet]
  exact he ▸ hd.write hx

theorem setTrail {x : Trail} (hd : s.Did h r w s') :
    s.Did h r { w with trail := x } (s'.setTrail r x) := by
  have he : s'.put h r { w with trail := x } = s'.setTrail r x := by
    rw [← hd.sheet]
    simp [put, State.setTrail, State.sheet]
  exact he ▸ hd.write rfl

theorem setQueue {q : List RunId} (hd : s.Did h r w s') :
    s.Did h r { w with queue := q } (s'.setQueue h q) := by
  have he : s'.put h r { w with queue := q } = s'.setQueue h q := by
    rw [← hd.sheet]
    simp [put, State.setQueue, State.sheet]
  exact he ▸ hd.write rfl

theorem setTask {t : Task} (hd : s.Did h r w s') :
    s.Did h r { w with task := t } (s'.setTask h t) := by
  have he : s'.put h r { w with task := t } = s'.setTask h t := by
    rw [← hd.sheet]
    simp [put, State.setTask, State.sheet]
  exact he ▸ hd.write rfl

theorem setRow {row : Option Row} (hd : s.Did h r w s') :
    s.Did h r { w with row := row } { s' with rows := Function.update s'.rows r row } := by
  have he : s'.put h r { w with row := row } =
      { s' with rows := Function.update s'.rows r row } := by
    rw [← hd.sheet]
    simp [put, State.sheet]
  exact he ▸ hd.write rfl

theorem record {command : Command} {ret : Ret} {k : Cont} (hd : s.Did h r w s')
    (hreg : s.handlers r = true) :
    s.Did h r (w.record cfg r command ret k) (s'.record cfg h r command ret k) := by
  have h1 := (hd.setTrail (x := { w.trail with
    recorded := w.trail.recorded ++ [command] })).setRun (x := (handle cfg command w.run).1)
      (handle_offeredTo cfg command w.run)
  have h2 := h1.setTask (t := .recording r (startPhase (handle cfg command w.run).2) ret k)
  unfold State.record
  have hreg' : s'.handlers r = true := by rw [hd.handlers]; exact hreg
  simp only [setTrail_handlers, hreg', if_true, setTrail_run, hd.run, hd.trail]
  cases hw : (handle cfg command w.run).2 with
  | none => simpa [hw, startPhase, Sheet.record] using h2
  | some v => simpa [hw, startPhase, Sheet.record] using h2

theorem cancelTimer (hd : s.Did h r w s') :
    s.Did h r { w with run := { w.run with offerTimer := none } } (s'.cancelTimer h r) := by
  unfold State.cancelTimer
  split
  · rename_i hn
    rw [hd.run] at hn
    rw [← hn]
    exact hd
  · rename_i n hn
    have hq : s'.Still { s' with clocks := s'.clocks.erase ⟨h, r, n⟩ } := by
      refine ⟨{ s'.outside with clocks := s'.clocks.erase ⟨h, r, n⟩ }, rfl,
        ⟨s'.grows_outside.inbox, fun c hc => .inl (List.mem_of_mem_erase hc),
          s'.grows_outside.handovers⟩, fun _ => shifts_of_same rfl rfl rfl rfl rfl⟩
    have h1 := hd.still hq
    have h2 := h1.setRun (x := { w.run with offerTimer := none }) rfl
    simpa [hd.run] using h2

theorem closeOffer (hd : s.Did h r w s') :
    s.Did h r { w with run := w.run.close } (s'.closeOffer h r) := by
  unfold State.closeOffer
  rw [hd.run]
  exact (hd.setRun (x := { w.run with verdictOpen := false }) rfl).cancelTimer

theorem cancelHandover (hd : s.Did h r w s') :
    s.Did h r { w with run := { w.run with handoverTask := none } }
      (s'.cancelHandover h r) := by
  unfold State.cancelHandover
  dsimp only
  split
  · rw [hd.run]
    exact hd.setRun rfl
  · rename_i n hn
    have hq : s'.Still { s' with
        handovers := s'.handovers.filter fun t => t.clock ≠ (⟨h, r, n⟩ : OfferClock) } := by
      refine ⟨{ s'.outside with
        handovers := s'.handovers.filter fun t => t.clock ≠ (⟨h, r, n⟩ : OfferClock) }, rfl,
        ⟨s'.grows_outside.inbox, s'.grows_outside.clocks,
          fun t ht => .inl ⟨t, (List.mem_filter.1 ht).1, rfl⟩⟩,
        fun _ => shifts_of_same rfl rfl rfl rfl rfl⟩
    have h1 := (hd.still hq).setRun (x := { w.run with handoverTask := none }) rfl
    simpa [hd.run] using h1

theorem noteAbandoned (hd : s.Did h r w s') (hs : s.AtHome) :
    s.Did h r { w with run := w.run.noteAbnormal } (s'.noteAbandoned cfg r) := by
  unfold State.noteAbandoned
  rw [hd.run]
  split
  · rename_i hc
    rw [Run.noteAbnormal_eq_self (by simp [hc])]
    exact hd
  · rename_i holder hc
    split
    · rename_i hn
      rw [Run.noteAbnormal_eq_self (by simp [hn])]
      exact hd
    · have he : w.run.noteAbnormal = { w.run with notedAbnormal := true } := by
        simp [Run.noteAbnormal, hc]
      rw [he]
      have h1 := hd.setRun (x := { w.run with notedAbnormal := true }) rfl
      exact h1.still (still_noteAbnormal (h1.atHome hs) cfg holder .abandoned)

/-- The place the run takes is given back: it was counted, so the count goes
down by one. -/
theorem release (hd : s.Did h r w s') (hf : s.Funded r) :
    s.Did h r { w with run := w.run.release } (s'.release r) := by
  have hf' := hd.funded hf
  have hrun := hd.run
  unfold State.release
  dsimp only
  rw [hrun]
  split
  · rename_i ho
    exact hd.setRun ho.symm
  · rename_i k ho
    have hpos : 0 < (s'.provider k).inFlight := by
      have := hf' k
      rw [hrun, Run.place, if_pos ho] at this
      exact this
    cases hp : s'.providers k with
    | none => simp [provider, hp] at hpos
    | some p =>
        have hp' : s'.provider k = p := by simp [provider, hp]
        rw [hp'] at hpos
        simp only [setRun_providers, hp, hpos, if_true]
        refine hd.trans ⟨{ s'.outside with
          providers := Function.update s'.providers k
            (some { p with inFlight := p.inFlight - 1 }) }, ?_,
          grows_of_same rfl rfl rfl rfl, ?_⟩
        · rw [← hd.sheet]
          simp [put, State.setRun, State.setProvider, withOutside, outside, State.sheet,
            Run.release]
        · have hk : ∀ k', (Function.update s'.providers k
              (some { p with inFlight := p.inFlight - 1 }) k').getD {} =
              if k' = k then { p with inFlight := p.inFlight - 1 } else s'.provider k' := by
            intro k'
            by_cases he : k' = k
            · subst he
              simp
            · simp [he, provider]
          refine ⟨fun _ _ h => h, fun k' => ?_, fun k' => ?_, fun k' => ?_, rfl, rfl⟩
          all_goals
            rw [hk k']
            by_cases he : k' = k
            · subst he
              simp [hp', hrun, Run.place, ho, Run.release]
              try omega
            · have hne : ¬ k = k' := fun h => he h.symm
              simp [he, hrun, Run.place, ho, Run.release, hne]

end Did

/-! ## Verdicts -/

theorem did_accepted {key : Key} (hreg : s.handlers r = true) (hl : r ∈ s.live h)
    (ho : (s.run r).verdictOpen = true) (hk : (s.run r).offeredTo = some key) :
    s.Did h r (({ s.sheet h r with run := (s.run r).accept key }).record cfg r
      .claim .claimed .advance) (s.onAnswered cfg h r key .accepted) := by
  unfold onAnswered
  rw [if_pos ⟨hl, ho, hk⟩]
  have h1 := (Did.refl s h r).closeOffer
  have h2 := h1.setRun (x := (s.run r).accept key) rfl
  dsimp only
  rw [h1.run]
  exact h2.record hreg

theorem did_refused {key : Key} {reason : String} (hreg : s.handlers r = true)
    (hf : s.Funded r) (hl : r ∈ s.live h) (ho : (s.run r).verdictOpen = true)
    (hk : (s.run r).offeredTo = some key) :
    s.Did h r (({ s.sheet h r with run := (s.run r).turnDown }).record cfg r
      (.fail "provider_refused" (some reason)) .settle .advance)
      (s.onAnswered cfg h r key (.refusal reason)) := by
  unfold onAnswered
  rw [if_pos ⟨hl, ho, hk⟩]
  exact ((Did.refl s h r).closeOffer.release hf).record hreg

theorem did_declined {key : Key} (hs : s.AtHome) (hreg : s.handlers r = true)
    (hf : s.Funded r) (hl : r ∈ s.live h) (ho : (s.run r).verdictOpen = true)
    (hk : (s.run r).offeredTo = some key) :
    s.Did h r (({ s.sheet h r with run := (s.run r).turnDown }).record cfg r
      ((s.run r).dropped "provider_declined") .settle .advance)
      (s.onAnswered cfg h r key .declined) := by
  unfold onAnswered
  rw [if_pos ⟨hl, ho, hk⟩]
  have h1 := (Did.refl s h r).closeOffer.release hf
  dsimp only
  rw [h1.run, Run.dropped]
  change Did _ _ _ _ (if (s.run r).cancelRequested then _ else _)
  split
  · exact h1.record hreg
  · exact (h1.still (still_noteMisdeclared (h1.atHome hs) cfg key)).record hreg

theorem did_lapsed {offerId : Nat} (hs : s.AtHome) (hreg : s.handlers r = true)
    (hf : s.Funded r) (hl : r ∈ s.live h) (ho : (s.run r).verdictOpen = true)
    (hn : (s.run r).offerId = offerId) :
    s.Did h r (({ s.sheet h r with run := (s.run r).lapse }).record cfg r
      ((s.run r).dropped "provider_did_not_answer") .settle .advance)
      (s.onOfferLapsed cfg h r offerId) := by
  unfold onOfferLapsed
  rw [if_pos ⟨hl, ho, hn⟩]
  have h1 := (Did.refl s h r).closeOffer.cancelHandover
  have h2 := (h1.still (still_noteUnanswered (h1.atHome hs) cfg r)).release hf
  dsimp only
  rw [h2.run, Run.dropped]
  change Did _ _ _ _ (if (s.run r).cancelRequested then _ else _)
  split
  · exact h2.record hreg
  · exact h2.record hreg

/-! ## Reports, cancels, failures -/

theorem did_said {key : Key} {report : Report} (hreg : s.handlers r = true)
    (hl : r ∈ s.live h) (hk : (s.run r).claimedBy = some key) :
    s.Did h r ((s.sheet h r).record cfg r report.command (.maybeSettle report.command)
      .advance) (s.onSaid cfg h r key report) := by
  unfold onSaid
  rw [if_pos ⟨hl, hk⟩]
  exact (Did.refl s h r).record hreg

private theorem onCancelAsked_live (hl : r ∈ s.live h) :
    s.onCancelAsked cfg h r =
      if (s.run r).verdictOpen then (s.setRun r (s.run r).askCancel).setTask h (.at .advance)
      else (s.setRun r (s.run r).askCancel).record cfg h r .requestCancel
        (if (s.run r).claimedBy.isSome then .nothing else .settle) .advance := by
  unfold onCancelAsked
  rw [if_pos hl]
  dsimp only
  rw [setRun_run, Function.update_self]
  split
  · rfl
  · split <;> rfl

/-- A verdict is pending; its arrival settles what the cancel means. -/
theorem did_cancelPending (hl : r ∈ s.live h) (ho : (s.run r).verdictOpen = true) :
    s.Did h r { s.sheet h r with run := (s.run r).askCancel, task := .at .advance }
      (s.onCancelAsked cfg h r) := by
  rw [onCancelAsked_live hl, if_pos ho]
  exact ((Did.refl s h r).setRun (x := (s.run r).askCancel) rfl).setTask

theorem did_cancelled (hreg : s.handlers r = true) (hl : r ∈ s.live h)
    (ho : (s.run r).verdictOpen = false) :
    s.Did h r (({ s.sheet h r with run := (s.run r).askCancel }).record cfg r .requestCancel
      (if (s.run r).claimedBy.isSome then .nothing else .settle) .advance)
      (s.onCancelAsked cfg h r) := by
  have ho' : ¬ (s.run r).verdictOpen = true := by simp [ho]
  rw [onCancelAsked_live hl, if_neg ho']
  exact ((Did.refl s h r).setRun (x := (s.run r).askCancel) rfl).record hreg

theorem did_failed {code : String} {message : Option String} (hs : s.AtHome)
    (hreg : s.handlers r = true) (hl : r ∈ s.live h) :
    s.Did h r (({ s.sheet h r with run := (s.run r).noteAbnormal }).record cfg r
      (.fail code message) .settle .advance) (s.onTrusted cfg h r (.fail code message)) := by
  unfold onTrusted
  rw [if_pos hl]
  exact ((Did.refl s h r).noteAbandoned hs).record hreg

theorem did_undelivered (hs : s.AtHome) (hl : r ∈ s.live h) :
    s.Did h r { s.sheet h r with run := (s.run r).noteAbnormal, task := .at .advance }
      (s.onUndelivered cfg h r) := by
  unfold onUndelivered
  dsimp only
  split
  · rename_i hc
    rw [Run.noteAbnormal_eq_self (by simp [hc])]
    exact (Did.refl s h r).setTask
  · rename_i holder hc
    split
    · have he : (s.run r).noteAbnormal = { s.run r with notedAbnormal := true } := by
        simp [Run.noteAbnormal, hc]
      rw [he]
      have h1 := (Did.refl s h r).setRun (x := { s.run r with notedAbnormal := true }) rfl
      exact (h1.still (still_noteAbnormal (h1.atHome hs) cfg holder .undelivered)).setTask
    · rename_i hn
      have hn' : (s.run r).notedAbnormal = true := by simpa [hl] using hn
      rw [Run.noteAbnormal_eq_self (by simp [hn'])]
      exact (Did.refl s h r).setTask

/-! ## Offers -/

/-- Somebody serves the agent, and has room. -/
def Servable (s : State) (agent : AgentRef) : Prop :=
  ∃ c, s.servingOf agent = some c ∧ (s.provider c.publicKey).hasRoom = true

/-- The sheet of a run that is placed with `connection`. -/
def placed (s : State) (h : HandlerId) (r : RunId) (connection : Connection)
    (interjection : Bool) : Sheet :=
  { s.sheet h r with
    run := (s.run r).offerTo connection interjection
    trail := { s.trail r with
      offers := (s.trail r).offers ++ [s.offerNote h connection.publicKey interjection] } }

theorem did_placeOffer {c : Connection} {i : Bool} (ho : (s.run r).offeredTo = none) :
    s.Did h r (s.placed h r c i) (s.placeOffer h r c i) := by
  refine ⟨{ s.outside with
    providers := Function.update s.providers c.publicKey
      (some { s.provider c.publicKey with
        inFlight := (s.provider c.publicKey).inFlight + 1 }) }, ?_,
    grows_of_same rfl rfl rfl rfl, ?_⟩
  · simp [placed, placeOffer, put, State.setRun, State.setTrail, setProvider, withOutside,
      outside, State.sheet, Run.offerTo, provider]
  · have hk : ∀ k, (Function.update s.providers c.publicKey (some
        { s.provider c.publicKey with
          inFlight := (s.provider c.publicKey).inFlight + 1 }) k).getD {} =
        if k = c.publicKey then { s.provider c.publicKey with
          inFlight := (s.provider c.publicKey).inFlight + 1 } else s.provider k := by
      intro k
      by_cases he : k = c.publicKey
      · subst he
        simp
      · simp [he, provider]
    refine ⟨fun _ _ h => h, fun k => ?_, fun k => ?_, fun k => ?_, rfl, rfl⟩
    all_goals
      rw [hk k]
      by_cases he : k = c.publicKey
      · subst he
        simp [placed, Run.offerTo, Run.place, ho]
      · have hne : ¬ c.publicKey = k := fun h => he h.symm
        simp [he, placed, Run.offerTo, Run.place, ho, hne]

/-- **The three ways of an offer.**  The run is ended because its input does not
validate, or placed with the connection serving its agent, or left alone
because nobody who serves the agent has room. -/
theorem offer_cases (cfg : Config) (h : HandlerId) (i : Bool) (k : Cont) (hreg : s.handlers r = true)
    (ho : (s.run r).offeredTo = none) :
    (s.Servable (s.run r).agent ∧ ∃ message,
      s.Did h r ((s.sheet h r).record cfg r (.fail "input_does_not_validate" (some message))
        .settle k) (s.offer cfg h r i k)) ∨
    (∃ c, s.servingOf (s.run r).agent = some c ∧
      (s.provider c.publicKey).hasRoom = true ∧
      s.Did h r ((s.placed h r c i).record cfg r .offer
        (.handOver c ((s.run r).offerId + 1)) k) (s.offer cfg h r i k)) ∨
    (¬ s.Servable (s.run r).agent ∧ s.offer cfg h r i k = s.noRoom h r i k) := by
  unfold offer
  split
  · rename_i hn
    refine .inr (.inr ⟨?_, rfl⟩)
    rintro ⟨c, hc, -⟩
    rw [hn] at hc
    cases hc
  · rename_i c hc
    split
    · rename_i hroom
      split
      · exact .inl ⟨⟨c, hc, hroom⟩, _, (Did.refl s h r).record hreg⟩
      · refine .inr (.inl ⟨c, hc, hroom, ?_⟩)
        have h1 : s.Did h r (s.placed h r c i) (s.placeOffer h r c i) := did_placeOffer ho
        dsimp only
        rw [h1.run]
        exact h1.record hreg
    · rename_i hroom
      refine .inr (.inr ⟨?_, rfl⟩)
      rintro ⟨c', hc', hroom'⟩
      rw [hc] at hc'
      cases hc'
      exact hroom hroom'

theorem did_noRoom {i : Bool} {k : Cont} :
    s.Did h r { s.sheet h r with
      queue := if i then (s.queue h).insertIdx (min 1 (s.queue h).length) r else s.queue h
      task := .at k } (s.noRoom h r i k) := by
  unfold noRoom
  cases i with
  | true => exact (Did.refl s h r).setQueue.setTask
  | false => exact (Did.refl s h r).setTask

/-! ## After an await -/

theorem did_handOver {c : Connection} {n : Nat} {k : Cont} (hr : s.home r = some h) :
    s.Did h r { s.sheet h r with run := (s.run r).handOver n, task := .at k }
      ((s.handOver h r c n).setTask h (.at k)) := by
  have hq : s.Still { s with
      handovers := s.handovers ++ [⟨⟨h, r, n⟩, c, false⟩]
      clocks := s.clocks ++ [⟨h, r, n⟩] } := by
    refine ⟨{ s.outside with
      handovers := s.handovers ++ [⟨⟨h, r, n⟩, c, false⟩]
      clocks := s.clocks ++ [⟨h, r, n⟩] }, rfl, ⟨s.grows_outside.inbox, ?_, ?_⟩,
      fun _ => shifts_of_same rfl rfl rfl rfl rfl⟩
    · intro d hd
      rcases List.mem_append.1 hd with hd | hd
      · exact .inl hd
      · rw [List.mem_singleton.1 hd]
        exact .inr hr
    · intro t ht
      rcases List.mem_append.1 ht with ht | ht
      · exact .inl ⟨t, ht, rfl⟩
      · rw [List.mem_singleton.1 ht]
        exact .inr hr
  exact (((Did.refl s h r).still hq).setRun (x := (s.run r).handOver n) rfl).setTask

theorem did_commit {v : Write} {row : Row} {ret : Ret} {k : Cont} :
    s.Did h r { s.sheet h r with
        row := some (v.commit row)
        task := .recording r (.written v) ret k }
      ({ s with rows := Function.update s.rows r (some (v.commit row)) }.setTask h
        (.recording r (.written v) ret k)) :=
  (Did.refl s h r).setRow.setTask

theorem did_rollback {ret : Ret} {k : Cont} :
    s.Did h r { s.sheet h r with
        trail := { s.trail r with failedWrites := (s.trail r).failedWrites + 1 }
        task := .recording r .returned ret k }
      ((s.setTrail r { s.trail r with
        failedWrites := (s.trail r).failedWrites + 1 }).setTask h
          (.recording r .returned ret k)) :=
  (Did.refl s h r).setTrail.setTask

private theorem afterWrite_eq {v : Write} {ret : Ret} {k : Cont} :
    s.afterWrite h r v ret k =
      match (s.run r).stops v with
      | none => (s.setRun r ((s.run r).stream v)).setTask h (.recording r .returned ret k)
      | some c => ((s.setRun r ((s.run r).stream v)).setTrail r
          { s.trail r with asked := (s.trail r).asked ++ [c] }).setTask h
            (.recording r .notifying ret k) := by
  unfold afterWrite
  dsimp only
  cases hw : v.asksToStop with
  | false => simp [Run.stops, hw, Run.stream]
  | true =>
      simp only [Run.stops, hw, if_true]
      split
      · rename_i hc
        rw [setRun_run, Function.update_self] at hc
        split
        · rfl
        · rename_i c hc'
          exact absurd (hc'.symm.trans hc) (by simp)
      · rename_i c hc
        rw [setRun_run, Function.update_self] at hc
        split
        · rename_i hc'
          exact absurd (hc'.symm.trans hc) (by simp)
        · rename_i c' hc'
          rw [Option.some.inj (hc.symm.trans hc')]
          rfl

theorem did_afterWrite {v : Write} {ret : Ret} {k : Cont} :
    s.Did h r { s.sheet h r with
        run := (s.run r).stream v
        trail := { s.trail r with
          asked := (s.trail r).asked ++ ((s.run r).stops v).toList }
        task := .recording r
          (if ((s.run r).stops v).isSome then .notifying else .returned) ret k }
      (s.afterWrite h r v ret k) := by
  have h1 := (Did.refl s h r).setRun (x := (s.run r).stream v) rfl
  rw [afterWrite_eq]
  cases (s.run r).stops v with
  | none =>
      have he : (s.trail r).asked ++ (none : Option Connection).toList = (s.trail r).asked := by
        simp
      rw [he]
      exact h1.setTask
  | some c => exact h1.setTrail.setTask

/-- After the claim: the run's interjections are to be offered beside it, or,
where it is one itself, there is only the cancel to look at, or the connection
that took it has left and the run is to be failed. -/
theorem afterClaim_cases (hs : s.AtHome) :
    ∃ k, s.Did h r { s.sheet h r with task := .at k } (s.afterClaim h r) ∧
      (k = .advance ∨ k = .cancelCheck r ∨
        ((s.run r).isInterjection = false ∧ k = .joining r (s.joiners h r))) := by
  unfold afterClaim
  split
  · split
    · exact ⟨_, (Did.refl s h r).setTask, .inr (.inl rfl)⟩
    · rename_i hi
      exact ⟨_, (Did.refl s h r).setTask, .inr (.inr ⟨by simpa using hi, rfl⟩)⟩
  · exact ⟨.advance, ((Did.refl s h r).still (still_pushFail hs r _ none)).setTask, .inl rfl⟩

/-! ## Settling -/

/-- The broker's dictionaries and the handler's lists without run `r`. -/
@[simps -fullyApplied]
def dropRun (s : State) (h : HandlerId) (r : RunId) : State :=
  { s with
    runs := s.runs.erase r
    runThreads := Function.update s.runThreads r none
    handlers := Function.update s.handlers r false
    live := Function.update s.live h ((s.live h).erase r)
    queue := Function.update s.queue h ((s.queue h).erase r) }

private theorem forget_held {e : State} (hr : r ∈ s.runs)
    (he : e = { s with
      runs := s.runs.erase r
      runThreads := Function.update s.runThreads r none
      handlers := Function.update s.handlers r false }.setRun r
        { s.run r with settled := true }) :
    s.forget r =
      pokeThreads { (if (e.run r).offeredTo.isSome then e.release r else e) with
        workToDo := true } := by
  subst he
  exact if_pos hr

/-- **Settling a run the broker holds.**  Its stream is ended and its place given
back, every trace of it is dropped, and the sweep is woken. -/
theorem settle_eq (hr : r ∈ s.runs) (hf : s.Funded r) :
    ∃ o, s.settle h r =
        ((s.withOutside { o with workToDo := true }).dropRun h r).setRun r (s.run r).settle ∧
      s.Grows o ∧ s.Shifts (s.run r) (s.run r).settle o := by
  obtain ⟨x, hx⟩ : ∃ x : Run, x = { s.run r with
    settled := true
    outQueue := (s.run r).outQueue ++ [OutItem.endOfStream] } := ⟨_, rfl⟩
  have h1 : s.Did h r { s.sheet h r with run := { x with offerTimer := none } }
      ((s.setRun r x).cancelTimer h r) :=
    ((Did.refl s h r).setRun (x := x) (by rw [hx]; rfl)).cancelTimer
  obtain ⟨t, ht⟩ : ∃ t, t = (s.setRun r x).cancelTimer h r := ⟨_, rfl⟩
  rw [← ht] at h1
  have hrun : t.run r = { x with offerTimer := none } := h1.run
  have hmem : r ∈ t.runs := by
    obtain ⟨o, ho, -⟩ := h1
    rw [ho]
    exact hr
  -- What `forget` does after it has dropped the run, up to its pokes.
  obtain ⟨d, hd⟩ : ∃ d, d = t.dropRun h r := ⟨_, rfl⟩
  obtain ⟨u, hu⟩ : ∃ u, u = if (d.run r).offeredTo.isSome then d.release r else d := ⟨_, rfl⟩
  have heq : s.settle h r =
      { u.pokeAll u.threads.values with workToDo := true } := by
    have hset : { t.run r with settled := true } = t.run r := by rw [hrun, hx]
    have he : d = (t.dropRun h r).setRun r { t.run r with settled := true } := by
      rw [hset, hd]
      exact (setRun_self (t.dropRun h r) r).symm
    have hsettle : s.settle h r = ((t.setLive h ((t.live h).erase r)).setQueue h
        ((t.queue h).erase r)).forget r := by
      rw [ht, hx]
      rfl
    rw [hsettle, forget_held (s := (t.setLive h ((t.live h).erase r)).setQueue h
      ((t.queue h).erase r)) hmem he, ← hu]
    rfl
  have h2 : d.Did h r { d.sheet h r with run := (s.run r).settle } u := by
    have hrun' : d.run r = { x with offerTimer := none } := by rw [hd]; exact hrun
    have hfd : d.Funded r := by rw [hd]; exact h1.funded hf
    rw [hu]
    split
    · rename_i ho
      have h3 := (Did.refl d h r).release hfd
      have he : (d.sheet h r).run.release = (s.run r).settle := by
        rw [hrun', hx] at ho
        change (d.run r).release = _
        rw [hrun', hx]
        exact (if_pos ho).symm
      rwa [he] at h3
    · rename_i ho
      have he : (s.run r).settle = d.run r := by
        rw [hrun', hx] at ho ⊢
        exact if_neg ho
      rw [he]
      exact Did.refl d h r
  obtain ⟨o, ho, hg, hk⟩ := h2.still (still_pokeAll u u.threads.values)
  obtain ⟨o', ho', hg', hk'⟩ := h1
  refine ⟨o, ?_, ?_, ?_⟩
  · rw [heq, ho, hd, ho']
    simp [put, withOutside, dropRun, setRun, State.sheet]
  · rw [hd, ho'] at hg
    exact hg'.trans (hg.congr rfl rfl rfl rfl rfl rfl)
  · have hrun' : d.run r = { x with offerTimer := none } := by rw [hd]; exact hrun
    rw [hrun', hd, ho'] at hk
    exact hk'.trans (hk.congr rfl rfl rfl rfl)

end State

end Funduq.Broker
