import Funduq.Broker.Refinement

/-!
# What is written of a run

A record handler decides what to write in one breath with the command it is
given, and the database commits later.  The run's `ledger` is its row with the
write in hand already made.  Seen through it a run's life is simple: a command
enters the record and the ledger together (`Lane.Enters`), everything else
leaves both as they are (`Lane.Keeps`), unless a write is lost.  `Step.writes`
says so of every step; what is proved of statuses and events goes through it.
-/

namespace Funduq.Broker

open Funduq.Lib

/-- A row once a handler's write, if it makes one, has committed. -/
def Row.with (row : Row) (w : Option Write) : Row := w.elim row fun w => w.commit row

theorem Row.with_events (row : Row) (w : Option Write) :
    (row.with w).events = row.events ++ (w.bind Write.event).toList := by
  cases w with
  | none => simp [Row.with]
  | some w =>
      simp only [Row.with, Option.elim, Write.commit, Option.bind_some]
      cases w.status with
      | none => rfl
      | some status =>
          simp only [markRunStatus]
          split <;> rfl

namespace Lane

variable {cfg : Config} {r : RunId} {a : Option Message} {l l' : Lane} {m : Message}
  {command : Command} {x : Run}

/-- The write the run's handler is waiting for. -/
def pending (l : Lane) : Option Write :=
  match l.hand with
  | some (.writing w, _) => some w
  | _ => none

/-- The run's row, with the write in hand made. -/
def ledger (l : Lane) : Option Row := l.row.map fun row => row.with l.pending

/-- Nothing enters the record or the ledger, and nothing of them is lost. -/
structure Keeps (l l' : Lane) : Prop where
  recorded : l'.trail.recorded = l.trail.recorded
  before : l'.trail.before = l.trail.before
  failedWrites : l'.trail.failedWrites = l.trail.failedWrites
  heard : ∀ e ∈ l.trail.heard, e ∈ l'.trail.heard
  ledger : l'.ledger = l.ledger
  home : l'.home = l.home
  claimedBy : l'.run.claimedBy = l.run.claimedBy
  finished : l'.run.sawRunFinished = l.run.sawRunFinished
  error : l'.run.sawRunError = l.run.sawRunError
  asked : l'.run.cancelRequested = true → l.run.cancelRequested = true ∨ l'.cancelCalled = true
  called : l.cancelCalled = true → l'.cancelCalled = true
  left : l'.held = false → l.held = false ∨ stageOf l.trail.recorded = some .ended

/-- `command` enters the record, and what its handler writes the ledger; `x` is
the run its handler is given. -/
structure Enters (cfg : Config) (r : RunId) (command : Command) (x : Run) (l l' : Lane) :
    Prop where
  recorded : l'.trail.recorded = l.trail.recorded ++ [command]
  before : l'.trail.before = l.trail.before
  failedWrites : l'.trail.failedWrites = l.trail.failedWrites
  heard : ∀ e ∈ l.trail.heard, e ∈ l'.trail.heard
  ledger : l'.ledger = l.ledger.map fun row => row.with (handle cfg command x).2
  home : l'.home = l.home
  run : l'.run = (handle cfg command x).1
  claimedBy : command = .claim ∨ x.claimedBy = l.run.claimedBy
  finished : x.sawRunFinished = l.run.sawRunFinished
  error : x.sawRunError = l.run.sawRunError
  asked : x.cancelRequested = true → l.run.cancelRequested = true ∨ l'.cancelCalled = true
  called : l.cancelCalled = true → l'.cancelCalled = true
  held : l'.held = true
  cancels : command = .requestCancel → x.cancelRequested = true
  /-- What a connection reports enters only from the run's holder. -/
  spoken : ∀ report : Report, command = report.command →
    ∃ k, x.claimedBy = some k ∧ .said r k report ∈ l'.trail.heard.map Heard.message

/-- What a step of a run's life is to its record and its ledger. -/
inductive Writes (cfg : Config) (r : RunId) (l l' : Lane) : Prop where
  | opened (hr : l.row = none)
      (he : l' = { l with row := some ⟨.queued, []⟩ })
  | enqueued {run : Run} {row : Row} {h : HandlerId} (hh : l.home = none) (hf : run.Fresh)
      (hr : l.row = some row) (hq : row.status = .queued)
      (he : l' = { l with
        run := run
        trail := { l.trail with before := row.events }
        home := some h
        held := true })
  | kept (hk : l.Keeps l')
  | entered {command : Command} {x : Run} (hc : l.Enters cfg r command x l')
  /-- The write in hand fails. -/
  | lost {w : Write} {ret : Ret} (hh : l.hand = some (.writing w, ret))
      (he : l' = { l with
        trail := { l.trail with failedWrites := l.trail.failedWrites + 1 }
        hand := some (.returned, ret) })

/-- The stages a command leads from and to. -/
theorem Enters.stages (hs : l.Sound) (hs' : l'.Sound) (hc : l.Enters cfg r command x l') :
    ∃ st st', stageOf l.trail.recorded = some st ∧ l.At st ∧
      stageOf l'.trail.recorded = some st' ∧ st.next command = some st' := by
  obtain ⟨st, hst, hat⟩ := hs.stage
  obtain ⟨st', hst', -⟩ := hs'.stage
  refine ⟨st, st', hst, hat, hst', ?_⟩
  rw [hc.recorded, stageOf_append_singleton, hst] at hst'
  exact hst'

theorem ledger_of_idle (hh : l.hand = none) : l.ledger = l.row := by
  unfold ledger pending
  rw [hh]
  cases l.row <;> rfl

/-- Recording, when the handler has no write in hand. -/
theorem enters_record {ret : Ret} (hp : l.pending = none) (hheld : l.held = true)
    (hclaim : command = .claim ∨ x.claimedBy = l.run.claimedBy)
    (hf : x.sawRunFinished = l.run.sawRunFinished)
    (he : x.sawRunError = l.run.sawRunError)
    (ha : x.cancelRequested = true → l.run.cancelRequested = true ∨ l.cancelCalled = true)
    (hcan : command = .requestCancel → x.cancelRequested = true)
    (hsp : ∀ report : Report, command = report.command →
      ∃ k, x.claimedBy = some k ∧ .said r k report ∈ l.trail.heard.map Heard.message) :
    l.Enters cfg r command x ({ l with run := x }.record cfg command ret) where
  recorded := rfl
  before := rfl
  failedWrites := rfl
  heard _ h := h
  ledger := by
    unfold ledger
    rw [hp]
    change l.row.map _ = (l.row.map _).map _
    rw [Option.map_map]
    congr 1
    funext row
    unfold pending record
    cases (handle cfg command x).2 <;> rfl
  home := rfl
  run := rfl
  claimedBy := hclaim
  finished := hf
  error := he
  asked := ha
  called h := h
  held := hheld
  cancels := hcan
  spoken := hsp

/-- Nothing is written where neither the row nor what is in hand changes, and no
command and nothing of the stream comes in. -/
private theorem keeps_of_same (hl : l'.ledger = l.ledger)
    (ha : l'.run.cancelRequested = true →
      l.run.cancelRequested = true ∨ l'.cancelCalled = true)
    (hcalled : l.cancelCalled = true → l'.cancelCalled = true)
    (hheard : l'.trail.heard = l.trail.heard)
    (hsame : (l'.trail.recorded, l'.trail.before, l'.trail.failedWrites, l'.home,
        l'.run.claimedBy, l'.run.sawRunFinished, l'.run.sawRunError, l'.held) =
      (l.trail.recorded, l.trail.before, l.trail.failedWrites, l.home,
        l.run.claimedBy, l.run.sawRunFinished, l.run.sawRunError, l.held)) : l.Keeps l' := by
  simp only [Prod.mk.injEq] at hsame
  obtain ⟨hrec, hb, hw, hhome, hc, hf, he, hheld⟩ := hsame
  exact ⟨hrec, hb, hw, fun _ h => hheard ▸ h, hl, hhome, hc, hf, he, ha, hcalled,
    fun h => .inl (hheld ▸ h)⟩

private theorem pending_of_idle (hh : l.hand = none) : l.pending = none := by
  unfold pending
  rw [hh]

private theorem pending_of_returned {ret : Ret} (hh : l.hand = some (.returned, ret)) :
    l.pending = none := by
  unfold pending
  rw [hh]

/-- A command no connection may report. -/
private theorem not_report (h : ∀ report : Report, command ≠ report.command) :
    ∀ report : Report, command = report.command →
      ∃ k, x.claimedBy = some k ∧ .said r k report ∈ l.trail.heard.map Heard.message :=
  fun report he => absurd he (h report)

private theorem fail_ne_report (code : String) (message : Option String) :
    ∀ report : Report, Command.fail code message ≠ report.command := by
  rintro (_ | _) <;> exact nofun

private theorem requestCancel_ne_report :
    ∀ report : Report, Command.requestCancel ≠ report.command := by
  rintro (_ | _) <;> exact nofun

private theorem dropped_cancel {run : Run} {code : String}
    (h : run.dropped code = .requestCancel) : run.cancelRequested = true := by
  unfold Run.dropped at h
  split at h
  · assumption
  · cases h

private theorem dropped_ne_report (run : Run) (code : String) :
    ∀ report : Report, run.dropped code ≠ report.command := by
  unfold Run.dropped
  split
  · exact requestCancel_ne_report
  · exact fail_ne_report code none

/-- What a message that has been heard does to record and ledger. -/
theorem Takes.writes (hs : l.Sound) (hh : l.hand = none)
    (hm : m ∈ l.trail.heard.map Heard.message) (ht : Takes cfg r m l l') :
    l.Keeps l' ∨ ∃ command x, l.Enters cfg r command x l' := by
  have hp := pending_of_idle hh
  cases ht with
  | ignored _ => exact .inl (keeps_of_same rfl .inl id rfl rfl)
  | arrived _ _ => exact .inl (keeps_of_same rfl .inl id rfl rfl)
  | accepted hl _ _ =>
      refine .inr ⟨_, _, enters_record hp (hs.held hl) (.inl rfl) rfl rfl .inl nofun
        (not_report ?_)⟩
      rintro (_ | _) <;> exact nofun
  | refused hl _ _ =>
      exact .inr ⟨_, _, enters_record hp (hs.held hl) (.inr rfl) rfl rfl .inl nofun
        (not_report (fail_ne_report _ _))⟩
  | declined hl _ _ =>
      exact .inr ⟨_, _, enters_record hp (hs.held hl) (.inr rfl) rfl rfl .inl
        dropped_cancel (not_report (dropped_ne_report _ _))⟩
  | lapsed hl _ _ =>
      exact .inr ⟨_, _, enters_record hp (hs.held hl) (.inr rfl) rfl rfl .inl
        dropped_cancel (not_report (dropped_ne_report _ _))⟩
  | @said _ origin report hl hk =>
      refine .inr ⟨_, _, enters_record hp (hs.held hl) (.inr rfl) rfl rfl .inl
        (by cases report <;> exact nofun) ?_⟩
      intro report' he
      have : report' = report := by
        cases report <;> cases report' <;> cases he <;> rfl
      subst this
      exact ⟨origin, hk, hm⟩
  | cancelPending _ ha _ => exact .inl (keeps_of_same rfl (fun _ => .inr ha) id rfl rfl)
  | cancelled hl ha _ =>
      exact .inr ⟨_, _, enters_record hp (hs.held hl) (.inr rfl) rfl rfl (fun _ => .inr ha)
        (fun _ => rfl) (not_report requestCancel_ne_report)⟩
  | failed hl =>
      exact .inr ⟨_, _, enters_record hp (hs.held hl) (.inr rfl) rfl rfl .inl nofun
        (not_report (fail_ne_report _ _))⟩
  | undelivered _ => exact .inl (keeps_of_same rfl .inl id rfl rfl)

private theorem ledger_of_pending {l l' : Lane} (hrow : l'.row = l.row)
    (hp : l.pending = none) (hp' : l'.pending = none) : l'.ledger = l.ledger := by
  unfold ledger
  rw [hrow, hp, hp']

/-- **What is written.**  A step of a run's life puts a command on its record
and in its ledger, or leaves both, or loses the write in hand. -/
theorem Step.writes (hs : l.Sound) (ht : Step cfg r a l l') : Writes cfg r l l' := by
  cases ht with
  | opened hr => exact .opened hr rfl
  | enqueued hh hf hr hq _ => exact .enqueued hh hf hr hq rfl
  | cancelCalled _ => exact .kept (keeps_of_same rfl (fun _ => .inr rfl) (fun _ => rfl) rfl rfl)
  | delivered c => exact .kept (keeps_of_same rfl .inl id rfl rfl)
  | @took _ _ m hm hh ht =>
      have hheard : ∀ e ∈ l.trail.heard, e ∈ (l.hear m).trail.heard :=
        fun e he => List.mem_append_left _ he
      rcases ht.writes hs.hear hh (by simp [hear]) with hk | ⟨c, x, hc⟩
      · exact .kept { hk with heard := fun e he => hk.heard e (hheard e he) }
      · exact .entered { hc with heard := fun e he => hc.heard e (hheard e he) }
  | @offered _ c i _ hl hh _ _ =>
      have hc : l.Enters cfg r .offer (l.run.offerTo c i)
          ({ l with run := l.run.offerTo c i }.record cfg .offer
            (.handOver c (l.run.offerId + 1))) :=
        enters_record (pending_of_idle hh) (hs.held hl) (.inr rfl) rfl rfl .inl (by simp)
          (not_report (by rintro (_ | _) <;> rintro ⟨⟩))
      exact .entered { hc with }
  | invalid hl hh _ =>
      exact .entered (enters_record (pending_of_idle hh) (hs.held hl) (.inr rfl) rfl rfl .inl (by simp)
        (not_report (fail_ne_report _ _)))
  | cancelChecked hl hh _ hr =>
      exact .entered (enters_record (pending_of_idle hh) (hs.held hl) (.inr rfl) rfl rfl .inl
        (fun _ => hr) (not_report requestCancel_ne_report))
  | @committed _ w ret row hh hr =>
      refine .kept (keeps_of_same ?_ .inl id rfl rfl)
      simp [ledger, pending, hh, hr, Row.with]
  | rolledBack hh => exact .lost hh rfl
  | streamed hh =>
      refine .kept (keeps_of_same (ledger_of_pending rfl ?_ ?_) .inl id rfl rfl)
      · simp [pending, hh]
      · simp only [pending]
        split <;> rename_i heq <;> split at heq <;> simp_all
  | notified hh =>
      exact .kept (keeps_of_same (ledger_of_pending rfl (by simp [pending, hh]) rfl) .inl id rfl rfl)
  | handedOver hh =>
      exact .kept (keeps_of_same (ledger_of_pending rfl (pending_of_returned hh) rfl) .inl id rfl rfl)
  | returned hh _ =>
      exact .kept (keeps_of_same (ledger_of_pending rfl (pending_of_returned hh) rfl) .inl id rfl rfl)
  | poisoned hh _ =>
      exact .entered (enters_record (pending_of_returned hh)
        (hs.held (hs.live_of_hand hh)) (.inr rfl) rfl rfl .inl (by simp)
        (not_report (fail_ne_report _ _)))
  | settled hh hr =>
      obtain ⟨_, hrun⟩ := l.run.settle_run
      have hended : stageOf l.trail.recorded = some .ended := by
        rcases hs.of_hand hh with ⟨_, _, rfl, -⟩ | ⟨hret, -⟩ | ⟨-, -, hst⟩
        · simp at hr
        · rcases hret with rfl | rfl | ⟨e, rfl⟩ <;> simp at hr
        · exact hst
      refine .kept ⟨rfl, rfl, rfl, fun _ h => h,
        ledger_of_pending rfl (pending_of_returned hh) rfl, rfl, ?_, ?_, ?_, ?_, fun h => h,
        fun _ => .inr hended⟩
      · exact (congrArg Run.claimedBy hrun :)
      · exact (congrArg Run.sawRunFinished hrun :)
      · exact (congrArg Run.sawRunError hrun :)
      · exact fun h => .inl ((congrArg Run.cancelRequested hrun).symm.trans h)

/-- What a step does to the row itself. -/
theorem Step.row (ht : Step cfg r a l l') :
    l'.row = l.row ∨ a = none ∧ (l.row = none ∧ l'.row = some ⟨.queued, []⟩ ∨
      ∃ row w, l.row = some row ∧ l.pending = some w ∧ l'.row = some (w.commit row)) := by
  cases ht with
  | opened hr => exact .inr ⟨rfl, .inl ⟨hr, rfl⟩⟩
  | @committed _ w _ row hh hr =>
      exact .inr ⟨rfl, .inr ⟨row, w, hr, by rw [pending, hh], rfl⟩⟩
  | took _ _ ht => cases ht <;> exact .inl rfl
  | _ => exact .inl rfl

theorem Step.failedWrites (ht : Step cfg r a l l') :
    l.trail.failedWrites ≤ l'.trail.failedWrites := by
  cases ht with
  | took _ _ ht => cases ht <;> exact Nat.le_refl _
  | rolledBack _ => exact Nat.le_succ _
  | _ => exact Nat.le_refl _

/-! ## The end -/

/-- The run's record has come to its end. -/
def Ended (l : Lane) : Prop := stageOf l.trail.recorded = some .ended

theorem ended_record {x : Run} {command : Command} {ret : Ret} {st : Stage}
    (hst : stageOf l.trail.recorded = some st) (hn : st.next command = some .ended) :
    ({ l with run := x }.record cfg command ret).Ended := by
  change stageOf (l.trail.recorded ++ [command]) = _
  rw [stageOf_append_singleton, hst]
  exact hn

/-- A record that has come to its end stays there. -/
theorem Step.ended (hs : l.Sound) (hhome : l.home.isSome = true) (he : l.Ended)
    (ht : Step cfg r a l l') : l'.Ended := by
  unfold Ended
  cases ht.writes hs with
  | opened _ hl => rw [hl]; exact he
  | enqueued hh _ _ _ _ =>
      rw [hh] at hhome
      cases hhome
  | kept hk => rw [hk.recorded]; exact he
  | @entered c x hc =>
      obtain ⟨st, st', hst, -, -, hn⟩ := hc.stages hs (hs.step ht)
      cases he.symm.trans hst
      cases c <;> cases hn
  | lost _ hl => rw [hl]; exact he

/-- A course of a run's life keeps its end. -/
theorem Course.ended {m : Option Message} {h : HandlerId} (hc : Course cfg r m l l')
    (hs : l.Sound) (hh : l.home = some h) (he : l.Ended) : l'.Ended :=
  (hc.keeps (A := fun _ _ => True) (P := fun l => l.home = some h ∧ l.Ended)
    (fun _ _ => trivial)
    (fun _ _ _ hs _ hp ht => ⟨ht.home hp.1, ht.ended hs (by rw [hp.1]; rfl) hp.2⟩)
    hs ⟨hh, he⟩).2.2

/-! ## Events -/

/-- The events the broker has written for the run, or is about to. -/
def written (l : Lane) : List (Nat × Json) :=
  (l.ledger.elim [] Row.events).drop l.trail.before.length

/-- An enqueued run has a row, and what stood in it is still there. -/
def Booked (l : Lane) : Prop :=
  l.home.isSome = true → ∃ row, l.row = some row ∧ l.trail.before <+: row.events

theorem Booked.ledger (hb : l.Booked) (hhome : l.home.isSome = true) :
    ∃ row, l.ledger = some row ∧ row.events = l.trail.before ++ l.written := by
  obtain ⟨row, hrow, new, hnew⟩ := hb hhome
  have hl : l.ledger = some (row.with l.pending) := by rw [Lane.ledger, hrow]; rfl
  refine ⟨_, hl, ?_⟩
  rw [written, hl]
  simp [Row.with_events, ← hnew]

theorem Booked.step (hs : l.Sound) (hb : l.Booked) (ht : Step cfg r a l l') : l'.Booked := by
  intro hhome
  -- What stood in the row before the run was enqueued is noted when it is.
  have hsame : l'.trail.before = l.trail.before → l'.home = l.home →
      ∃ row, l'.row = some row ∧ l'.trail.before <+: row.events := by
    intro hbefore hh
    obtain ⟨row, hrow, hpre⟩ := hb (hh ▸ hhome)
    rw [hbefore]
    rcases ht.row with h | ⟨-, ⟨h, -⟩ | ⟨row₀, w, h₀, -, h⟩⟩
    · exact ⟨row, h.trans hrow, hpre⟩
    · exact absurd (hrow.symm.trans h) nofun
    · cases hrow.symm.trans h₀
      refine ⟨_, h, hpre.trans ?_⟩
      rw [show w.commit row = row.with (some w) from rfl, Row.with_events]
      exact List.prefix_append _ _
  cases ht.writes hs with
  | opened _ he => exact hsame (by rw [he]) (by rw [he])
  | enqueued _ _ hr _ he =>
      subst he
      exact ⟨_, hr, List.prefix_rfl⟩
  | kept hk => exact hsame hk.before hk.home
  | entered hc => exact hsame hc.before hc.home
  | lost _ he => exact hsame (by rw [he]) (by rw [he])

theorem Keeps.written (hk : l.Keeps l') : l'.written = l.written := by
  unfold Lane.written
  rw [hk.ledger, hk.before]

theorem Enters.written (hc : l.Enters cfg r command x l') (hb : l.Booked)
    (hhome : l.home.isSome = true) :
    l'.written = l.written ++ ((handle cfg command x).2.bind Write.event).toList := by
  obtain ⟨row, hrow, hev⟩ := hb.ledger hhome
  unfold Lane.written at hev ⊢
  rw [hc.ledger, hc.before, hrow]
  rw [hrow] at hev
  change (row.with _).events.drop _ = row.events.drop _ ++ _
  rw [Row.with_events, hev, List.append_assoc, List.drop_left, List.drop_left]

/-- A run that has just been enqueued has nothing written. -/
theorem written_of_enqueued (hhand : l.hand = none) {row : Row} (hr : l.row = some row)
    (hb : l.trail.before = row.events) : l.written = [] := by
  rw [written, ledger_of_idle hhand, hr, hb]
  exact List.drop_length

/-- What was written before a failed write stays. -/
theorem written_of_lost {w : Write} {ret : Ret} (hb : l.Booked)
    (hhome : l.home.isSome = true) (hh : l.hand = some (.writing w, ret)) (n : Nat) :
    l.written = Lane.written { l with
      trail := { l.trail with failedWrites := n }
      hand := some (.returned, ret) } ++ w.event.toList := by
  obtain ⟨row, hrow, new, hnew⟩ := hb hhome
  have hl : l.ledger = some (row.with (some w)) := by
    rw [ledger, hrow, pending, hh]
    rfl
  unfold written
  rw [hl]
  change (row.with (some w)).events.drop _ = List.drop _ (Option.elim (l.row.map _) [] _) ++ _
  rw [hrow]
  change _ = row.events.drop _ ++ _
  rw [Row.with_events, ← hnew, List.append_assoc, List.drop_left, List.drop_left]
  rfl

end Lane

end Funduq.Broker
