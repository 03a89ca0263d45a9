import Funduq.Broker.Evidence

/-!
# Whose word is last

funduq is never to write an outcome the provider's own output contradicts.  It
does: between a holder's `RUN_FINISHED` and its end of stream a `Fail` may be
handled, pushed because the provider left or provoked by a malformed event, and
`_handle_fail` looks at nothing that was recorded before.  `overruled_run`
shows such a run.

That is the only way.  `Lane.Overruled` says which messages do it, and
`Lane.Last` is the life invariant of the runs that are spared them: once a
`RUN_FINISHED` is written no failure is on the record, the status is neither
failed nor cancelled, and everything written is what the holder reported.
-/

namespace Funduq.Broker

open Funduq.Lib

namespace Lane

variable {cfg : Config} {r : RunId} {a : Option Message} {l l' : Lane}

/-! ## Messages that overrule -/

/-- The events persisted for the run since it was enqueued. -/
def persisted (l : Lane) : List (Nat × Json) :=
  (l.row.elim [] Row.events).drop l.trail.before.length

/-- Message `m` ends, by a `Fail`, a live run whose holder's `RUN_FINISHED` is
persisted: it is that `Fail`, or an event of the holder that AG-UI refuses. -/
def Overruled (cfg : Config) (m : Message) (l : Lane) : Prop :=
  l.live = true ∧ (∃ e ∈ l.persisted, hasType runFinished e.2 = true) ∧
    ((∃ r code message, m = .trusted r (.fail code message)) ∨
      ∃ r k event, m = .said r k (.relayEvent event) ∧ l.run.claimedBy = some k ∧
        malformed cfg event = true)

theorem persisted_of_idle (hh : l.hand = none) : l.persisted = l.written := by
  rw [persisted, written, ledger_of_idle hh]

private theorem recorded_ne {cs : List Command} {c : Command} : cs ≠ cs ++ [c] := by
  simp

private theorem command_of_recorded {cs : List Command} {c d : Command}
    (h : cs ++ [c] = cs ++ [d]) : c = d := by
  simpa using h

/-- Where a failure comes from. -/
theorem Step.fail_cases (hs : l.Sound) (ht : Step cfg r a l l') {code : String}
    {message : Option String}
    (hrec : l'.trail.recorded = l.trail.recorded ++ [.fail code message]) :
    l.run.claimedBy = none ∨ l.run.poison.isSome = true ∨
      l.live = true ∧ l.hand = none ∧ a = some (.trusted r (.fail code message)) := by
  cases ht with
  | took _ hh ht =>
      cases ht with
      | refused hl ho _ => exact .inl (hs.hear.offering_of_open hl hh ho).2.2.1
      | declined hl ho _ => exact .inl (hs.hear.offering_of_open hl hh ho).2.2.1
      | lapsed hl ho _ => exact .inl (hs.hear.offering_of_open hl hh ho).2.2.1
      | failed hl =>
          cases command_of_recorded hrec
          exact .inr (.inr ⟨hl, hh, rfl⟩)
      | @said _ _ report _ _ =>
          cases report <;> exact absurd (command_of_recorded hrec) nofun
      | ignored _ => exact absurd hrec recorded_ne
      | arrived _ _ => exact absurd hrec recorded_ne
      | cancelPending _ _ _ => exact absurd hrec recorded_ne
      | undelivered _ => exact absurd hrec recorded_ne
      | accepted _ _ _ => exact absurd (command_of_recorded hrec) nofun
      | cancelled _ _ _ => exact absurd (command_of_recorded hrec) nofun
  | invalid hl hh hu => exact .inl ((hs.fresh_of_unoffered hl hh hu).2.claimedBy.1 (.inl rfl))
  | poisoned _ hp => exact .inr (.inl (by rw [hp]; rfl))
  | offered _ _ _ _ => exact absurd (command_of_recorded hrec) nofun
  | cancelChecked _ _ _ _ => exact absurd (command_of_recorded hrec) nofun
  | _ => exact absurd hrec recorded_ne

/-- Recording what is no event poisons nothing. -/
private theorem poison_record {x : Run} {c : Command} {ret : Ret} (hx : x.poison = l.run.poison)
    (hc : ∀ event, c ≠ .relayEvent event) :
    ({ l with run := x }.record cfg c ret).run.poison = l.run.poison := by
  rcases handle_poison cfg c x with h | ⟨⟨event, h, -⟩, -⟩
  · exact h.trans hx
  · exact absurd h (hc event)

private theorem dropped_ne_relay (run : Run) (code : String) (event : Reported) :
    run.dropped code ≠ .relayEvent event := by
  unfold Run.dropped
  split <;> exact nofun

/-- Where poison comes from. -/
theorem Step.poison_cases (ht : Step cfg r a l l') :
    l'.run.poison = l.run.poison ∨ l'.run.poison = none ∨
      ∃ k event, a = some (.said r k (.relayEvent event)) ∧ l.live = true ∧ l.hand = none ∧
        l.run.claimedBy = some k ∧ malformed cfg event = true ∧
        l'.trail.recorded = l.trail.recorded ++ [.relayEvent event] := by
  cases ht with
  | enqueued _ hf _ _ _ => exact .inr (.inl hf.poison)
  | @took _ _ m _ hh ht =>
      cases ht with
      | @said _ k report hl hk =>
          cases report with
          | finishStream => exact .inl (poison_record (l := l.hear _) rfl nofun)
          | relayEvent event =>
              rcases handle_poison cfg (.relayEvent event) l.run with h | ⟨⟨_, ⟨⟩, hm⟩, -⟩
              · exact .inl h
              · exact .inr (.inr ⟨k, event, rfl, hl, hh, hk, hm, rfl⟩)
      | accepted _ _ _ => exact .inl (poison_record (l := l.hear _) rfl nofun)
      | refused _ _ _ => exact .inl (poison_record (l := l.hear _) rfl nofun)
      | declined _ _ _ => exact .inl (poison_record (l := l.hear _) rfl (dropped_ne_relay _ _))
      | lapsed _ _ _ => exact .inl (poison_record (l := l.hear _) rfl (dropped_ne_relay _ _))
      | cancelled _ _ _ => exact .inl (poison_record (l := l.hear _) rfl nofun)
      | failed _ => exact .inl (poison_record (l := l.hear _) rfl nofun)
      | _ => exact .inl rfl
  | offered _ _ _ _ => exact .inl (poison_record (l := { l with trail := _ }) rfl nofun)
  | invalid _ _ _ => exact .inl (poison_record rfl nofun)
  | cancelChecked _ _ _ _ => exact .inl (poison_record rfl nofun)
  | poisoned _ _ => exact .inl (poison_record rfl nofun)
  | settled _ _ =>
      obtain ⟨_, h⟩ := l.run.settle_run
      exact .inl (congrArg Run.poison h :)
  | _ => exact .inl rfl

/-- A run is relayed from only while it is not poisoned. -/
theorem Step.relay_cases (hs : l.Sound) (ht : Step cfg r a l l') {event : Reported}
    (hrec : l'.trail.recorded = l.trail.recorded ++ [.relayEvent event]) :
    l.run.poison = none := by
  cases ht with
  | took _ hh ht =>
      cases ht with
      | said hl hk =>
          have hat := (hs.hear.held_of_claimed hl hh (by rw [hk]; rfl)).2
          rcases hat.2.2.2.2 with ⟨h, -⟩ | ⟨_, _, h, -⟩
          · exact h
          · exact absurd (hh.symm.trans h) nofun
      | ignored _ => exact absurd hrec recorded_ne
      | arrived _ _ => exact absurd hrec recorded_ne
      | cancelPending _ _ _ => exact absurd hrec recorded_ne
      | undelivered _ => exact absurd hrec recorded_ne
      | declined _ _ _ => exact absurd (command_of_recorded hrec) (dropped_ne_relay _ _ _)
      | lapsed _ _ _ => exact absurd (command_of_recorded hrec) (dropped_ne_relay _ _ _)
      | _ => exact absurd (command_of_recorded hrec) nofun
  | offered _ _ _ _ => exact absurd (command_of_recorded hrec) nofun
  | invalid _ _ _ => exact absurd (command_of_recorded hrec) nofun
  | cancelChecked _ _ _ _ => exact absurd (command_of_recorded hrec) nofun
  | poisoned _ _ => exact absurd (command_of_recorded hrec) nofun
  | _ => exact absurd hrec recorded_ne

/-! ## Nothing speaks against the holder -/

/-- Neither the status nor the record nor anything written speaks against the
holder of the run. -/
structure Clear (l : Lane) : Prop where
  status : ∀ row, l.ledger = some row → row.status ≠ .failed ∧ row.status ≠ .cancelled
  recorded : ∀ c ∈ l.trail.recorded, c.kind ≠ .fail
  relayed : ∀ e ∈ l.written, ∃ event, .relayEvent event ∈ l.trail.recorded ∧
    event.dict? = some e.2

/-- A status that does not fail or cancel is not over one that does. -/
private theorem with_clear {row : Row} {o : Option Write}
    (hrow : row.status ≠ .failed ∧ row.status ≠ .cancelled)
    (ho : ∀ status, o.bind Write.status = some status →
      status ≠ .failed ∧ status ≠ .cancelled) :
    (row.with o).status ≠ .failed ∧ (row.with o).status ≠ .cancelled := by
  cases o with
  | none => exact hrow
  | some w =>
      change (w.commit row).status ≠ _ ∧ (w.commit row).status ≠ _
      unfold Write.commit
      cases hw : w.status with
      | none => exact hrow
      | some status =>
          simp only [markRunStatus]
          split
          · exact ho status hw
          · exact hrow

/-- The status a handler writes. -/
private theorem handle_status (cfg : Config) (c : Command) (x : Run) {status : Status}
    (h : (handle cfg c x).2.bind Write.status = some status) :
    c.kind = .offer ∧ status = .offering ∨ c.kind = .claim ∧ status = .running ∨
      c.kind = .fail ∨ c = .finishStream ∧ status = finishStatus x ∨
      c = .requestCancel ∧ (x.claimedBy.isSome = true → status = .cancelling) := by
  cases c with
  | offer => exact .inl ⟨rfl, (Option.some.inj h).symm⟩
  | claim => exact .inr (.inl ⟨rfl, (Option.some.inj h).symm⟩)
  | fail code message => exact .inr (.inr (.inl rfl))
  | finishStream =>
      refine .inr (.inr (.inr (.inl ⟨rfl, ?_⟩)))
      simp only [handle, handleFinish] at h
      split at h <;> exact (Option.some.inj h).symm
  | requestCancel =>
      refine .inr (.inr (.inr (.inr ⟨rfl, fun hc => ?_⟩)))
      simp only [handle, handleCancel] at h
      split at h
      · rename_i hn
        cases hk : x.claimedBy <;> simp [hk] at hn hc
      · exact (Option.some.inj h).symm
  | relayEvent event =>
      simp only [handle, handleRelay] at h
      split at h
      · cases h
      · split at h <;> cases h

variable {c : Command} {x : Run}

/-- A command that does not fail the run, nor end it short of completion, leaves
it clear. -/
theorem Clear.enters (hl : l.Clear) (hb : l.Booked) (hhome : l.home.isSome = true)
    (hc : l.Enters cfg r c x l') (hfail : c.kind ≠ .fail)
    (hfin : c = .finishStream → finishStatus x = .completed)
    (hcancel : c = .requestCancel → x.claimedBy.isSome = true) : l'.Clear := by
  obtain ⟨row, hrow, -⟩ := hb.ledger hhome
  refine ⟨fun row' hrow' => ?_, fun d hd => ?_, fun e he => ?_⟩
  · rw [hc.ledger, hrow] at hrow'
    cases hrow'
    refine with_clear (hl.status row hrow) fun status hst => ?_
    rcases handle_status cfg c x hst with ⟨-, h⟩ | ⟨-, h⟩ | h | ⟨hcmd, h⟩ | ⟨hcmd, h⟩
    · rw [h]
      exact ⟨nofun, nofun⟩
    · rw [h]
      exact ⟨nofun, nofun⟩
    · exact absurd h hfail
    · rw [h, hfin hcmd]
      exact ⟨nofun, nofun⟩
    · rw [h (hcancel hcmd)]
      exact ⟨nofun, nofun⟩
  · rw [hc.recorded] at hd
    rcases List.mem_append.1 hd with hd | hd
    · exact hl.recorded d hd
    · rw [List.mem_singleton.1 hd]
      exact hfail
  · rw [hc.written hb hhome] at he
    have hold : e ∈ l.written → ∃ event, .relayEvent event ∈ l'.trail.recorded ∧
        event.dict? = some e.2 := by
      intro he
      obtain ⟨event, hmem, hd⟩ := hl.relayed e he
      refine ⟨event, ?_, hd⟩
      rw [hc.recorded]
      exact List.mem_append_left _ hmem
    cases appends cfg c x with
    | nothing hev _ _ _ _ =>
        rw [hev, Option.toList_none, List.append_nil] at he
        exact hold he
    | @relayed event _ _ hcmd hd hev _ _ =>
        rw [hev] at he
        rcases List.mem_append.1 he with he | he
        · exact hold he
        · rw [List.mem_singleton.1 he, hc.recorded, hcmd]
          exact ⟨event, List.mem_append_right _ (List.mem_singleton.2 rfl), hd⟩
    | authored hcmd _ _ _ =>
        rcases hcmd with ⟨hcmd, h⟩ | h
        · exact absurd (h.symm.trans (hfin hcmd)) nofun
        · exact absurd h hfail

/-- Until it ends, and from its `RUN_FINISHED` on, nothing speaks against the
holder of the run; and its `RUN_FINISHED` is not followed by poison. -/
structure Last (l : Lane) : Prop where
  clear : l.home.isSome = true →
    stageOf l.trail.recorded ≠ some .ended ∨ l.Wrote runFinished → l.Clear
  sober : l.home.isSome = true → l.Wrote runFinished → l.run.poison = none

/-- A run with a `RUN_FINISHED` ends by nothing but the end of its stream. -/
private theorem ending_of_wrote (hs : l.Sound) (hno : l.Noticed) (hl : l.Last)
    (hA : ∀ m, a = some m → ¬ l.Overruled cfg m)
    (ht : Step cfg r a l l') (hc : l.Enters cfg r c x l') (hhome : l.home.isSome = true)
    {st : Stage} (hat : l.At st) (hn : st.next c = some .ended) (hw : l.Wrote runFinished) :
    st = .held ∧ c = .finishStream := by
  have hclaimed := hno.claimed (hno.wrote hhome hw)
  have hunclaimed : l.run.claimedBy ≠ none := by
    intro h
    rw [h] at hclaimed
    cases hclaimed
  cases c with
  | fail code message =>
      rcases ht.fail_cases hs hc.recorded with h | h | ⟨hlive, hhand, ha⟩
      · exact absurd h hunclaimed
      · rw [hl.sober hhome hw] at h
        cases h
      · refine absurd ⟨hlive, ?_, .inl ⟨r, code, message, rfl⟩⟩ (hA _ ha)
        rw [persisted_of_idle hhand]
        exact hw
  | requestCancel =>
      cases st with
      | fresh => exact absurd (hat.claimedBy.1 (.inl rfl)) hunclaimed
      | offering => exact absurd (hat.claimedBy.1 (.inr rfl)) hunclaimed
      | held => cases hn
      | ended => cases hn
  | finishStream => exact ⟨by cases st <;> first | (cases hn; done) | rfl, rfl⟩
  | offer => cases st <;> cases hn
  | claim => cases st <;> cases hn
  | relayEvent event => cases st <;> cases hn

private theorem clear_entered (hs : l.Sound) (hb : l.Booked) (hno : l.Noticed) (hl : l.Last)
    (hA : ∀ m, a = some m → ¬ l.Overruled cfg m)
    (ht : Step cfg r a l l') (hc : l.Enters cfg r c x l') (hhome : l.home.isSome = true)
    (hgoal : stageOf l'.trail.recorded ≠ some .ended ∨ l'.Wrote runFinished) : l'.Clear := by
  obtain ⟨st, st', hst, hat, hst', hn⟩ := hc.stages hs (hs.step ht)
  have hheld : st ≠ .ended := by
    rintro rfl
    cases c <;> cases hn
  have hclear := hl.clear hhome (.inl (by rw [hst]; exact fun h => hheld (Option.some.inj h)))
  by_cases hend : st' = .ended
  · subst hend
    have hw' : l'.Wrote runFinished := by
      rcases hgoal with h | h
      · exact absurd hst' h
      · exact h
    have hw : l.Wrote runFinished := by
      rcases hc.wrote_finished hb hhome hw' with h | ⟨-, event, _, _, rfl, -⟩
      · exact h
      · cases st <;> cases hn
    obtain ⟨rfl, rfl⟩ := ending_of_wrote hs hno hl hA ht hc hhome hat hn hw
    refine hclear.enters hb hhome hc nofun (fun _ => ?_) nofun
    unfold finishStatus
    rw [if_pos (hc.finished.trans (hno.wrote hhome hw))]
  · refine hclear.enters hb hhome hc ?_ ?_ ?_
    · intro h
      cases c <;> cases h
      cases st <;> cases hn <;> exact hend rfl
    · rintro rfl
      cases st <;> cases hn
      exact absurd rfl hend
    · rintro rfl
      have hst : st = .held := by
        cases st <;> cases hn <;> first | exact absurd rfl hend | rfl
      rcases hc.claimedBy with h | h
      · cases h
      · rw [h]
        exact hat.claimedBy.2 hst

private theorem sober_entered (hs : l.Sound) (hb : l.Booked) (hl : l.Last)
    (hA : ∀ m, a = some m → ¬ l.Overruled cfg m)
    (ht : Step cfg r a l l') (hc : l.Enters cfg r c x l') (hhome : l.home.isSome = true)
    (hw : l'.Wrote runFinished) : l'.run.poison = none := by
  rcases hc.wrote_finished hb hhome hw with hold | ⟨-, event, e, n, rfl, hev⟩
  · rcases ht.poison_cases with h | h | ⟨k, event, ha, hlive, hhand, hk, hm, -⟩
    · exact h.trans (hl.sober hhome hold)
    · exact h
    · refine absurd ⟨hlive, ?_, .inr ⟨r, k, event, rfl, hk, hm⟩⟩ (hA _ ha)
      rw [persisted_of_idle hhand]
      exact hold
  · rcases ht.poison_cases with h | h | ⟨k, event', -, -, -, -, hm, hrec⟩
    · exact h.trans (ht.relay_cases hs hc.recorded)
    · exact h
    · -- A malformed event is not written.
      cases command_of_recorded (hc.recorded.symm.trans hrec)
      simp [handle, handleRelay, hm] at hev

theorem Last.step (hs : l.Sound) (hb : l.Booked) (hno : l.Noticed) (hl : l.Last)
    (hA : ∀ m, a = some m → ¬ l.Overruled cfg m) (ht : Step cfg r a l l') : l'.Last := by
  cases ht.writes hs with
  | opened hr he =>
      have hhome : l'.home = l.home := by rw [he]
      have hnone : l.home.isSome = true → False := by
        intro h
        obtain ⟨row, hrow, -⟩ := hb h
        exact absurd (hrow.symm.trans hr) nofun
      exact ⟨fun h => (hnone (hhome ▸ h)).elim, fun h => (hnone (hhome ▸ h)).elim⟩
  | @enqueued run row h hh hf hr hq he =>
      have hhand : l'.hand = none := by
        rw [he]
        exact hs.idle_of_unborn hh
      have hrow : l'.row = some row := by
        rw [he]
        exact hr
      have hnil : l'.written = [] := written_of_enqueued hhand hrow (by rw [he])
      have hrec : l'.trail.recorded = [] := by
        rw [he]
        exact hs.unborn hh
      refine ⟨fun _ _ => ⟨fun row' hrow' => ?_, ?_, ?_⟩, fun _ _ => ?_⟩
      · rw [ledger_of_idle hhand, hrow] at hrow'
        cases hrow'
        rw [hq]
        exact ⟨nofun, nofun⟩
      · rw [hrec]
        exact nofun
      · rw [hnil]
        exact nofun
      · rw [show l'.run = run by rw [he]]
        exact hf.poison
  | kept hk =>
      have hw : l'.Wrote runFinished → l.Wrote runFinished :=
        fun ⟨e, hmem, htype⟩ => ⟨e, hk.written ▸ hmem, htype⟩
      refine ⟨fun hhome h => ?_, fun hhome h => ?_⟩
      · have hclear := hl.clear (hk.home ▸ hhome) (h.imp (by rw [hk.recorded]; exact id) hw)
        exact ⟨by rw [hk.ledger]; exact hclear.status, by rw [hk.recorded]; exact hclear.recorded,
          by rw [hk.written, hk.recorded]; exact hclear.relayed⟩
      · rcases ht.poison_cases with hp | hp | ⟨_, _, -, -, -, -, -, hrec⟩
        · exact hp.trans (hl.sober (hk.home ▸ hhome) (hw h))
        · exact hp
        · exact absurd (hk.recorded.symm.trans hrec) recorded_ne
  | entered hc =>
      exact ⟨fun hhome h => clear_entered hs hb hno hl hA ht hc (hc.home ▸ hhome) h,
        fun hhome h => sober_entered hs hb hl hA ht hc (hc.home ▸ hhome) h⟩
  | @lost w ret hh he =>
      have hhome' : l'.home = l.home := by rw [he]
      have hrec : l'.trail.recorded = l.trail.recorded := by rw [he]
      have hwritten : l'.home.isSome = true → ∀ e ∈ l'.written, e ∈ l.written := by
        intro hhome e hmem
        rw [written_of_lost hb (hhome' ▸ hhome) hh (l.trail.failedWrites + 1), ← he]
        exact List.mem_append_left _ hmem
      have hw : l'.home.isSome = true → l'.Wrote runFinished → l.Wrote runFinished :=
        fun hhome ⟨e, hmem, htype⟩ => ⟨e, hwritten hhome e hmem, htype⟩
      refine ⟨fun hhome h => ?_, fun hhome h => ?_⟩
      · have hclear := hl.clear (hhome' ▸ hhome) (h.imp (by rw [hrec]; exact id) (hw hhome))
        refine ⟨fun row hrow => ?_, by rw [hrec]; exact hclear.recorded, fun e hmem => ?_⟩
        · have hrow₀ : l.row = some row := by
            rw [he] at hrow
            cases hr : l.row with
            | none => simp [ledger, hr] at hrow
            | some row₀ =>
                simp only [ledger, hr, pending, Row.with, Option.map_some, Option.elim_none,
                  Option.some.injEq] at hrow
                rw [hrow]
          have hledger : l.ledger = some (w.commit row) := by
            rw [ledger, hrow₀, pending, hh]
            rfl
          obtain ⟨h1, h2⟩ := hclear.status _ hledger
          refine ⟨fun hf => ?_, fun hf => ?_⟩
          · exact h1 ((commit_of_terminal w (by rw [hf]; rfl)).trans hf)
          · exact h2 ((commit_of_terminal w (by rw [hf]; rfl)).trans hf)
        · rw [hrec]
          exact hclear.relayed e (hwritten hhome e hmem)
      · rw [show l'.run = l.run by rw [he]]
        exact hl.sober (hhome' ▸ hhome) (hw hhome h)

end Lane

/-! ## Runs that are spared -/

section Runs

variable {cfg : Config} {db : RunId → Option Row} {s : State}

/-- Where `RUN_FINISHED` is among the events persisted for a run since it was
enqueued, its row is neither failed nor cancelled, no `Fail` is on its record,
and every later event is one its holder reported. -/
def State.Uncontradicted (s : State) (r : RunId) : Prop :=
  (s.home r).isSome = true → ∀ row pre fin post, s.rows r = some row →
    row.events = (s.trail r).before ++ pre ++ fin :: post → hasType runFinished fin.2 = true →
    row.status ≠ .failed ∧ row.status ≠ .cancelled ∧
      (∀ code message, .fail code message ∉ (s.trail r).recorded) ∧
      ∀ e ∈ post, ∃ event, .relayEvent event ∈ (s.trail r).recorded ∧ event.dict? = some e.2

/-- Action `a` takes a message that overrules the holder of the run it is
about. -/
def State.Overrules (cfg : Config) (s : State) (a : Action) : Prop :=
  ∃ r m, s.takes a r = some m ∧ (s.lane r).Overruled cfg m

/-- The defect: a holder reports `RUN_FINISHED`, which is persisted, and leaves
before it ends its stream.  The run is failed, and a `RUN_ERROR` follows. -/
theorem overruled_run :
    Reachable Demo.config (fun _ => none) (State.after Demo.config Demo.overruled) ∧
      ¬ (State.after Demo.config Demo.overruled).Uncontradicted "r" := by
  refine ⟨reachable_after _ _, fun h => ?_⟩
  exact (h rfl ⟨.failed, [(1, .obj [("type", .str runFinished)]),
      (2, runError "provider_left_holding_it" "provider_left_holding_it")]⟩
    [] _ _ rfl rfl rfl).1 rfl

private theorem reachable_last (hs : ReachableBy cfg db (fun s a => ¬ s.Overrules cfg a) s)
    (r : RunId) : (s.lane r).Booked ∧ (s.lane r).Noticed ∧ (s.lane r).Last := by
  refine hs.lane_invariant (A := fun m l => ¬ l.Overruled cfg m)
    (P := fun l => l.Booked ∧ l.Noticed ∧ l.Last) r ?_ ?_ ?_
  · exact fun s a m hC hm ho => hC ⟨r, m, hm, ho⟩
  · exact ⟨fun h => absurd h nofun, ⟨nofun, nofun⟩, nofun, nofun⟩
  · exact fun a l l' hl hA hp ht =>
      ⟨hp.1.step hl ht, hp.2.1.step hl hp.1 ht, hp.2.2.step hl hp.1 hp.2.1 hA ht⟩

/-- **Main result.**  In every run of the broker that takes no message which
overrules a holder, nothing persisted contradicts a persisted
`RUN_FINISHED`. -/
theorem finished_run_stands (hs : ReachableBy cfg db (fun s a => ¬ s.Overrules cfg a) s)
    (r : RunId) : s.Uncontradicted r := by
  intro hhome row pre fin post hrow hev htype
  obtain ⟨-, -, hlast⟩ := reachable_last hs r
  have hledger : (s.lane r).ledger = some (row.with (s.lane r).pending) := by
    rw [Lane.ledger, show (s.lane r).row = some row from hrow]
    rfl
  have hmem : ∀ e ∈ pre ++ fin :: post, e ∈ (s.lane r).written := by
    intro e he
    rw [Lane.written, hledger]
    change e ∈ (row.with _).events.drop (s.trail r).before.length
    rw [Row.with_events, hev, List.append_assoc, List.append_assoc, List.drop_left,
      ← List.append_assoc]
    exact List.mem_append_left _ he
  have hclear := hlast.clear hhome (.inr ⟨fin, hmem fin (by simp), htype⟩)
  -- A terminal status in the row would be in the ledger too.
  have hstands : row.status.terminal = true →
      (row.with (s.lane r).pending).status = row.status := by
    intro ht
    cases (s.lane r).pending with
    | none => rfl
    | some w => exact commit_of_terminal w ht
  obtain ⟨hfailed, hcancelled⟩ := hclear.status _ hledger
  refine ⟨fun h => ?_, fun h => ?_, fun code message hm => ?_, fun e he => ?_⟩
  · exact hfailed ((hstands (by rw [h]; rfl)).trans h)
  · exact hcancelled ((hstands (by rw [h]; rfl)).trans h)
  · exact hclear.recorded _ hm rfl
  · exact hclear.relayed e (hmem e (List.mem_append_right _ (List.mem_cons_of_mem _ he)))

/-- Action `a` takes no `Fail` and no event AG-UI refuses. -/
private def harmless (cfg : Config) (s : State) (a : Action) : Bool :=
  (s.takes? a).all fun m =>
    match m with
    | .trusted _ _ => false
    | .said _ _ (.relayEvent event) => !malformed cfg event
    | _ => true

private theorem not_overrules_of_harmless (cfg : Config) (s : State) (a : Action)
    (h : harmless cfg s a = true) : ¬ s.Overrules cfg a := by
  rintro ⟨r, m, hm, -, -, hcase⟩
  have hm' : s.takes? a = some m := (Option.filter_eq_some_iff.1 hm).1
  rw [harmless, hm'] at h
  rcases hcase with ⟨_, _, _, rfl⟩ | ⟨_, _, event, rfl, -, hmal⟩
  · cases h
  · change (!malformed cfg event) = true at h
    rw [hmal] at h
    cases h

/-- A run that was reported finished and whose stream was then ended. -/
theorem finished_run_stands_completed :
    ((State.after Demo.config Demo.completed).rows "r").isSome = true ∧
      (State.after Demo.config Demo.completed).Uncontradicted "r" := by
  refine ⟨by decide +kernel, ?_⟩
  refine finished_run_stands (?_ : ReachableBy Demo.config (fun _ => none) _ _) "r"
  exact System.ReachableBy.runFrom (not_overrules_of_harmless Demo.config) (.init rfl)
    (by decide +kernel)

end Runs

end Funduq.Broker
