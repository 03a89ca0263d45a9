import Funduq.Broker.FailedWrites

/-!
# What a transaction finds

A record handler's write is made some time after it was decided on.  It finds a row
whose run has not ended (`Ready`), and the row of an enqueued run is changed by such
writes alone.

A write may fail.  Where no failure costs a run the `RUN_ERROR` its provider reported,
a run that is failed has its reason on record (`Blamed`).
-/

namespace Funduq.Broker

open Funduq.Lib

namespace Lane

variable {cfg : Config} {r : RunId} {a : Option Message} {l l' : Lane} {m : Message}

/-! ## Outcomes -/

/-- A command whose handler writes an outcome, or an event along with a status, is the
last. -/
theorem ends_of_handle {c : Command} {x : Run} {w : Write} {st st' : Stage}
    (hn : st.next c = some st') (hw : (handle cfg c x).2 = some w)
    (hheld : st = .held → c = .requestCancel → x.claimedBy.isSome = true)
    (h : (∃ status, w.status = some status ∧ status.terminal = true) ∨
      w.event ≠ none ∧ w.status ≠ none) : st' = .ended := by
  cases c with
  | offer =>
      cases hw
      rcases h with ⟨_, ⟨⟩, ⟨⟩⟩ | ⟨h, -⟩
      exact absurd rfl h
  | claim =>
      cases hw
      rcases h with ⟨_, ⟨⟩, ⟨⟩⟩ | ⟨h, -⟩
      exact absurd rfl h
  | relayEvent event =>
      have hnone : w.status = none := by
        change (handleRelay cfg x event).2 = some w at hw
        unfold handleRelay at hw
        split at hw
        · cases hw
        · split at hw
          · cases hw
          · cases hw
            rfl
      rw [hnone] at h
      rcases h with ⟨_, ⟨⟩, -⟩ | ⟨-, h⟩
      exact absurd rfl h
  | finishStream =>
      cases st <;> cases hn
      rfl
  | requestCancel =>
      change (handleCancel x).2 = some w at hw
      cases st with
      | held =>
          have hclaimed := hheld rfl rfl
          rw [handleCancel, if_neg (by cases hk : x.claimedBy <;> simp [hk] at hclaimed ⊢)] at hw
          cases hw
          rcases h with ⟨_, ⟨⟩, ⟨⟩⟩ | ⟨h, -⟩
          exact absurd rfl h
      | ended => cases hn
      | _ =>
          cases hn
          rfl
  | fail code message => cases st <;> cases hn <;> rfl

/-- Somebody holds a run that is held when it is asked to stop. -/
theorem At.claimed {c : Command} {x : Run} {st : Stage} (hat : l.At st)
    (hclaim : c = .claim ∨ x.claimedBy = l.run.claimedBy) (hheld : st = .held)
    (hk : c = .requestCancel) : x.claimedBy.isSome = true := by
  rcases hclaim with rfl | hclaim
  · cases hk
  · rw [hclaim]
    exact hat.claimedBy.2 hheld

/-- An outcome is the last thing that is written. -/
def Final (l : Lane) : Prop :=
  l.home.isSome = true → ∀ row, l.ledger = some row → row.status.terminal = true → l.Ended

/-- Nothing follows the end of a record. -/
theorem not_next_of_ended {c : Command} {st st' : Stage}
    (hst : stageOf l.trail.recorded = some st) (hn : st.next c = some st') : ¬ l.Ended := by
  intro he
  cases he.symm.trans hst
  cases c <;> cases hn

theorem Final.step (hs : l.Sound) (hb : l.Booked) (hl : l.Final) (ht : Step cfg r a l l') :
    l'.Final := by
  intro hhome row' hrow' hend
  cases ht.writes hs with
  | opened hr he =>
      subst he
      obtain ⟨row, hrow, -⟩ := hb hhome
      exact absurd (hrow.symm.trans hr) nofun
  | enqueued hh _ hr hq he =>
      subst he
      have hrow : l.row = some row' :=
        (ledger_of_idle (l := { l with run := _ }) (hs.idle_of_unborn hh)).symm.trans hrow'
      cases hrow.symm.trans hr
      rw [hq] at hend
      cases hend
  | kept hk =>
      rw [hk.ledger] at hrow'
      rw [hk.home] at hhome
      unfold Ended
      rw [hk.recorded]
      exact hl hhome row' hrow' hend
  | @entered c x hc =>
      rw [hc.home] at hhome
      rw [hc.ledger] at hrow'
      obtain ⟨row, hrow, rfl⟩ := Option.map_eq_some_iff.1 hrow'
      obtain ⟨st, st', hst, hat, hst', hn⟩ := hc.stages hs (hs.step ht)
      have hopen : row.status.terminal = false := by
        cases h : row.status.terminal with
        | false => rfl
        | true => exact absurd (hl hhome row hrow h) (not_next_of_ended hst hn)
      cases hw : (handle cfg c x).2 with
      | none =>
          rw [hw] at hend
          exact absurd (hend.symm.trans hopen) nofun
      | some w =>
          rw [hw] at hend
          have hstatus : w.status = some (w.commit row).status := by
            rcases w.commit_status_eq row with h | h
            · rw [show (row.with (some w)).status = _ from h] at hend
              exact absurd (hend.symm.trans hopen) nofun
            · exact h
          rw [Ended, hst', ends_of_handle hn hw (hat.claimed hc.claimedBy)
            (.inl ⟨_, hstatus, hend⟩)]
  | @lost w ret hh he =>
      subst he
      have hrow : l.row = some row' := by
        rw [ledger, show pending _ = none from rfl] at hrow'
        obtain ⟨row, hrow, rfl⟩ := Option.map_eq_some_iff.1 hrow'
        exact hrow
      have hledger : l.ledger = some (w.commit row') := by
        rw [ledger, hrow, pending, hh]
        rfl
      exact hl hhome _ hledger (by rw [commit_of_terminal w hend]; exact hend)

/-! ## The write in hand -/

/-- The write in hand is for a run that has not ended, and an event comes with a status
only in the last one. -/
def Ready (l : Lane) : Prop :=
  l.home.isSome = true → ∀ w, l.pending = some w →
    (∀ row, l.row = some row → row.status.terminal = false) ∧
      (l.Ended ∨ w.event = none ∨ w.status = none)

private theorem Ready.record {c : Command} {x : Run} {ret : Ret} (hs : l.Sound) (hcl : l.Final)
    (hp : l.pending = none) (hs' : ({ l with run := x }.record cfg c ret).Sound)
    (hclaim : c = .claim ∨ x.claimedBy = l.run.claimedBy) :
    ({ l with run := x }.record cfg c ret).Ready := by
  intro hhome w hpend
  rw [pending_record] at hpend
  obtain ⟨st, hst, hat⟩ := hs.stage
  obtain ⟨st', hst', -⟩ := hs'.stage
  have hn : st.next c = some st' := by
    change stageOf (l.trail.recorded ++ [c]) = some st' at hst'
    rwa [stageOf_append_singleton, hst] at hst'
  refine ⟨fun row hrow => ?_, ?_⟩
  · cases hend : row.status.terminal with
    | false => rfl
    | true =>
        have hledger : l.ledger = some row := by
          rw [ledger, hp, show l.row = some row from hrow]
          rfl
        exact absurd (hcl hhome row hledger hend) (not_next_of_ended hst hn)
  · by_cases he : w.event = none
    · exact .inr (.inl he)
    · by_cases hw : w.status = none
      · exact .inr (.inr hw)
      · left
        rw [Ended, hst', ends_of_handle hn hpend (hat.claimed hclaim) (.inr ⟨he, hw⟩)]

private theorem Ready.of_same (hl : l.Ready) (hp : l'.pending = l.pending)
    (hhome : l'.home = l.home) (hrow : l'.row = l.row)
    (hrec : l'.trail.recorded = l.trail.recorded) : l'.Ready := by
  intro hhome' w hpend
  obtain ⟨hopen, hplain⟩ := hl (hhome ▸ hhome') w (hp ▸ hpend)
  refine ⟨fun row hr => hopen row (hrow ▸ hr), hplain.imp_left fun he => ?_⟩
  unfold Ended
  rw [hrec]
  exact he

private theorem Ready.of_none (hp : l.pending = none) : l.Ready := by
  intro _ w hpend
  rw [hp] at hpend
  cases hpend

private theorem Ready.takes (hs : l.Sound) (hcl : l.Final) (hl : l.Ready) (hp : l.pending = none)
    (ht : Takes cfg r m l l') (hs' : l'.Sound) : l'.Ready := by
  cases ht with
  | ignored _ => exact hl
  | accepted _ _ _ => exact .record hs hcl hp hs' (.inl rfl)
  | refused _ _ _ => exact .record hs hcl hp hs' (.inr rfl)
  | declined _ _ _ => exact .record hs hcl hp hs' (.inr rfl)
  | lapsed _ _ _ => exact .record hs hcl hp hs' (.inr rfl)
  | said _ _ => exact .record hs hcl hp hs' (.inr rfl)
  | cancelled _ _ _ => exact .record hs hcl hp hs' (.inr rfl)
  | failed _ => exact .record hs hcl hp hs' (.inr rfl)
  | _ => exact hl.of_same rfl rfl rfl rfl

theorem Ready.step (hs : l.Sound) (hb : l.Booked) (hcl : l.Final) (hl : l.Ready)
    (ht : Step cfg r a l l') : l'.Ready := by
  have hs' := hs.step ht
  have hidle : l.hand = none → l.pending = none := by
    intro h
    rw [pending, h]
  have hback : ∀ {ret}, l.hand = some (.returned, ret) → l.pending = none := by
    intro ret h
    rw [pending, h]
  cases ht with
  | opened hr =>
      intro hhome
      obtain ⟨row, hrow, -⟩ := hb hhome
      exact absurd (hrow.symm.trans hr) (by simp)
  | enqueued hh _ _ _ _ => exact .of_none (hidle (hs.idle_of_unborn hh))
  | cancelCalled _ => exact hl.of_same rfl rfl rfl rfl
  | delivered c => exact hl.of_same rfl rfl rfl rfl
  | @took _ _ m _ hh ht =>
      exact Ready.takes (l := l.hear m) hs.hear hcl hl (hidle hh) ht hs'
  | offered _ hh _ _ =>
      exact Ready.record (l := { l with trail := _ }) ⟨hs.stage, hs.held, hs.home, hs.unborn⟩ hcl
        (hidle hh) hs' (.inr rfl)
  | invalid _ hh _ => exact .record hs hcl (hidle hh) hs' (.inr rfl)
  | cancelChecked _ hh _ _ => exact .record hs hcl (hidle hh) hs' (.inr rfl)
  | committed hh _ => exact .of_none rfl
  | rolledBack hh => exact .of_none rfl
  | streamed hh =>
      apply Ready.of_none
      unfold pending
      dsimp only
      split
      · rename_i heq
        split at heq <;> cases heq
      · rfl
  | notified hh => exact .of_none rfl
  | handedOver hh => exact .of_none rfl
  | returned hh _ => exact .of_none rfl
  | poisoned hh _ => exact .record hs hcl (hback hh) hs' (.inr rfl)
  | settled hh _ => exact .of_none rfl

/-! ## The reason of a failure -/

/-- A handler fails a run at the end of its stream, or because it is told to. -/
theorem fails_of_handle {c : Command} {x : Run} {w : Write} (hw : (handle cfg c x).2 = some w)
    (hst : w.status = some .failed) :
    c = .finishStream ∧ finishStatus x = .failed ∨ c.kind = .fail := by
  cases c with
  | offer =>
      cases hw
      cases hst
  | claim =>
      cases hw
      cases hst
  | relayEvent event =>
      change (handleRelay cfg x event).2 = some w at hw
      unfold handleRelay at hw
      split at hw
      · cases hw
      · split at hw
        · cases hw
        · cases hw
          cases hst
  | finishStream =>
      refine .inl ⟨rfl, ?_⟩
      change (handleFinish x).2 = some w at hw
      simp only [handleFinish] at hw
      split at hw <;> cases hw <;> exact Option.some.inj hst
  | requestCancel =>
      change (handleCancel x).2 = some w at hw
      unfold handleCancel at hw
      split at hw <;> cases hw <;> cases hst
  | fail code message => exact .inr rfl

theorem has_with (row : Row) (o : Option Write) (tag : String) :
    (row.with o).has tag =
      (row.has tag || (o.bind Write.event).toList.any fun e => hasType tag e.2) := by
  rw [Row.has, Row.with_events, List.any_append]
  rfl

/-- While a run has not ended, a `RUN_ERROR` it has seen is on record; and a run that
is failed has one. -/
def Blamed (l : Lane) : Prop :=
  l.home.isSome = true → ∃ row, l.ledger = some row ∧
    (¬ l.Ended → l.run.sawRunError = true → row.has runErrorTag = true) ∧
    (row.status = .failed → row.has runErrorTag = true)

/-- The failure of this write costs no `RUN_ERROR` of a run that has no other. -/
def SparesErrors (row : Row) (w : Write) : Prop :=
  w.status = none → w.carries runErrorTag = true → row.has runErrorTag = true

theorem Blamed.step (hs : l.Sound) (hcl : l.Final) (hrd : l.Ready) (hl : l.Blamed)
    (hw : ∀ w ret row, l.hand = some (.writing w, ret) → l'.hand = some (.returned, ret) →
      l.row = some row → SparesErrors row w)
    (ht : Step cfg r a l l') : l'.Blamed := by
  intro hhome
  cases ht.writes hs with
  | opened hr he =>
      subst he
      obtain ⟨row, hrow, -⟩ := hl hhome
      rw [ledger, hr] at hrow
      cases hrow
  | enqueued hh hf hr hq he =>
      subst he
      refine ⟨_, (ledger_of_idle (l := { l with run := _ }) (hs.idle_of_unborn hh)).trans hr,
        fun _ herr => ?_, fun h => absurd (hq.symm.trans h) (by simp)⟩
      rw [hf] at herr
      cases herr
  | kept hk =>
      rw [hk.home] at hhome
      obtain ⟨row, hrow, herr, hfailed⟩ := hl hhome
      refine ⟨row, hk.ledger.trans hrow, ?_, hfailed⟩
      unfold Ended
      rw [hk.recorded, hk.error]
      exact herr
  | @entered c x hc =>
      rw [hc.home] at hhome
      obtain ⟨row, hrow, herr, hfailed⟩ := hl hhome
      obtain ⟨st, st', hst, -, -, hn⟩ := hc.stages hs (hs.step ht)
      have hopen : ¬ l.Ended := not_next_of_ended hst hn
      have herr' : x.sawRunError = true → row.has runErrorTag = true :=
        fun h => herr hopen (hc.error.symm.trans h)
      -- A row that is failed now was failed by this command.
      have hfails : (row.with (handle cfg c x).2).status = .failed →
          c = .finishStream ∧ finishStatus x = .failed ∨ c.kind = .fail := by
        intro h
        have hlive : row.status ≠ .failed := by
          intro hf
          exact hopen (hcl hhome row hrow (by rw [hf]; rfl))
        cases hh : (handle cfg c x).2 with
        | none =>
            rw [hh] at h
            exact absurd h hlive
        | some w =>
            rw [hh] at h
            rcases w.commit_status_eq row with hsame | hst
            · exact absurd (hsame.symm.trans h) hlive
            · exact fails_of_handle hh (hst.trans (congrArg some h))
      refine ⟨_, by rw [hc.ledger, hrow]; rfl, ?_⟩
      rw [has_with, hc.run]
      cases appends cfg c x with
      | nothing he hf hr hq hno =>
          refine ⟨fun _ h => ?_, fun h => ?_⟩
          · rw [herr' (hr.symm.trans h), Bool.true_or]
          · rcases hfails h with ⟨hc, hfin⟩ | hkind
            · rw [herr' (hq hc hfin), Bool.true_or]
            · exact absurd hkind hno
      | @relayed event e n hc hd he hf hr =>
          rw [he]
          refine ⟨fun _ h => ?_, fun h => ?_⟩
          · rcases hr h with h | h
            · rw [herr' h, Bool.true_or]
            · simp [h]
          · subst hc
            rcases hfails h with h | h
            · cases h.1
            · cases h
      | @authored n text code hc he hf hr =>
          have hhas : (row.has runErrorTag || ([(n, runError text code)].any
              fun e => hasType runErrorTag e.2)) = true := by
            simp [runError_is_error]
          rw [he]
          exact ⟨fun _ _ => hhas, fun _ => hhas⟩
  | @lost w ret hh he =>
      subst he
      obtain ⟨row', hrow', herr, hfailed⟩ := hl hhome
      have hpend : l.pending = some w := by rw [pending, hh]
      obtain ⟨hopen, hplain⟩ := hrd hhome w hpend
      cases hrow : l.row with
      | none =>
          rw [ledger, hrow] at hrow'
          cases hrow'
      | some row =>
          rw [ledger, hrow, hpend] at hrow'
          cases hrow'
          refine ⟨row, rfl, fun hnot h => ?_, fun h => ?_⟩
          · have hhas := herr hnot h
            change (w.commit row).has runErrorTag = true at hhas
            rw [Row.has_commit, Bool.or_eq_true] at hhas
            rcases hhas with hhas | hcarries
            · exact hhas
            · rcases hplain with hend | hevent | hstatus
              · exact absurd hend hnot
              · rw [Write.carries, hevent] at hcarries
                cases hcarries
              · exact hw w ret row hh rfl hrow hstatus hcarries
          · have hlive := hopen row hrow
            rw [h] at hlive
            cases hlive

/-! ## The row -/

/-- The row of an enqueued run stays, or the write in hand is made. -/
theorem Step.row_written (hb : l.Booked) (hhome : l.home.isSome = true) (ht : Step cfg r a l l') :
    l'.row = l.row ∨ ∃ w ret, l.hand = some (.writing w, ret) ∧
      l'.hand = some (.written w, ret) := by
  cases ht with
  | opened hr =>
      obtain ⟨row, hrow, -⟩ := hb hhome
      exact absurd (hrow.symm.trans hr) nofun
  | @committed _ w ret row hh hr => exact .inr ⟨w, ret, hh, rfl⟩
  | took _ _ ht => cases ht <;> exact .inl rfl
  | _ => exact .inl rfl

end Lane

/-- The transaction a handler waits for commits, or nothing is written. -/
theorem State.transact_rows {s s' : State} {h : HandlerId} {succeeds : Bool}
    (hstep : s.transact h succeeds = some s') (r : RunId) :
    s'.rows r = s.rows r ∨ ∃ h' w ret k row, Action.transact h succeeds = .transact h' true ∧
      s.task h' = .recording r (.writing w) ret k ∧ s.rows r = some row ∧
      s'.rows r = some (w.commit row) := by
  unfold State.transact at hstep
  split at hstep
  · rename_i r' w ret k ht
    split at hstep
    · rename_i row hrow
      cases hstep
      by_cases hr : r = r'
      · subst hr
        exact .inr ⟨h, w, ret, k, row, rfl, ht, hrow, Function.update_self ..⟩
      · exact .inl (Function.update_of_ne hr _ _)
    · cases hstep
      exact .inl rfl
    · cases hstep
  · cases hstep

section Runs

variable {cfg : Config} {db : RunId → Option Row} {s s' : State} {r : RunId} {a : Action}

theorem reachable_ready (hs : Reachable cfg db s) (r : RunId) : (s.lane r).Ready := by
  have h : (s.lane r).Booked ∧ (s.lane r).Final ∧ (s.lane r).Ready :=
    hs.lane_invariant (P := fun l => l.Booked ∧ l.Final ∧ l.Ready) r ⟨nofun, nofun, nofun⟩
      fun _ _ _ hl hp ht => ⟨hp.1.step hl ht, hp.2.1.step hl hp.1 ht,
        hp.2.2.step hl hp.1 hp.2.1 ht⟩
  exact h.2.2

/-- Action `a` is no failure of a relay's write that carries a `RUN_ERROR` where the
run's row has none. -/
def State.keepsErrors (s : State) : Action → Bool
  | .transact h false =>
      match s.task h with
      | .recording r (.writing w) _ _ =>
          w.status.isSome || !w.carries runErrorTag ||
            (s.rows r).any fun row => row.has runErrorTag
      | _ => true
  | _ => true

/-- Where no write that fails costs a run its `RUN_ERROR`, a failed row has one. -/
theorem failed_has_error (hs : ReachableBy cfg db (fun s a => s.keepsErrors a = true) s)
    (hhome : (s.home r).isSome = true) :
    ∃ row, s.rows r = some row ∧
      (row.status = .failed → ∃ e ∈ row.events, hasType runErrorTag e.2 = true) := by
  have h : (s.lane r).Booked ∧ (s.lane r).Final ∧ (s.lane r).Ready ∧ (s.lane r).Blamed := by
    refine ReachableBy.lane_invariant_of_writes
      (P := fun l => l.Booked ∧ l.Final ∧ l.Ready ∧ l.Blamed)
      (A := fun l w => ∀ row, l.row = some row → Lane.SparesErrors row w) r ?_
      ⟨nofun, nofun, nofun, nofun⟩ ?_ hs
    · intro s h w ret k hc ht row hrow hst hcarries
      change s.rows r = some row at hrow
      simpa [State.keepsErrors, ht, hst, hrow, hcarries] using hc
    · intro a l l' hl hw ⟨hb, hcl, hrd, hbl⟩ ht
      exact ⟨hb.step hl ht, hcl.step hl hb ht, hrd.step hl hb hcl ht,
        hbl.step hl hcl hrd (fun w ret row hh hh' hrow => hw w ret hh hh' row hrow) ht⟩
  obtain ⟨hb, hcl, hrd, hbl⟩ := h
  obtain ⟨row, hrow, -⟩ := hb hhome
  refine ⟨row, hrow, fun hfailed => ?_⟩
  -- Nothing is in hand for a run that has ended.
  have hidle : (s.lane r).pending = none := by
    cases hp : (s.lane r).pending with
    | none => rfl
    | some w =>
        have hlive := (hrd hhome w hp).1 row hrow
        rw [hfailed] at hlive
        cases hlive
  obtain ⟨row', hledger, -, hhas⟩ := hbl hhome
  rw [Lane.ledger, hrow, hidle] at hledger
  cases hledger
  exact Row.has_iff.1 (hhas hfailed)

/-- **Only a transaction changes the row of an enqueued run**, and makes the write its
handler waits for. -/
theorem Reachable.rows_step (hs : Reachable cfg db s) (hstep : s.step cfg a = some s')
    (hhome : (s.home r).isSome = true) :
    s'.rows r = s.rows r ∨ ∃ h w ret k row, a = .transact h true ∧
      s.task h = .recording r (.writing w) ret k ∧ s.rows r = some row ∧
      s'.rows r = some (w.commit row) := by
  by_cases ha : ∃ h succeeds, a = .transact h succeeds
  · obtain ⟨h, succeeds, rfl⟩ := ha
    exact State.transact_rows hstep r
  · refine .inl ?_
    obtain ⟨hinv, hsound⟩ := reachable_sound hs
    have hnot : ∀ w ret, (s.lane r).hand = some (.writing w, ret) →
        (s'.lane r).hand ≠ some (.written w, ret) := by
      intro w ret hw hw'
      obtain ⟨h, hh⟩ := Option.isSome_iff_exists.1 hhome
      rw [State.lane_hand hh] at hw
      rw [State.lane_hand (hs.home_kept hh hstep)] at hw'
      obtain ⟨k, ht⟩ := Task.recording_of_hand hw
      by_cases hown : a.handler? = some h
      · cases a with
        | take h' =>
            cases hown
            simp [State.step, State.take, ht] at hstep
        | resume h' =>
            cases hown
            simp [State.step, State.resume, ht] at hstep
        | transact h' succeeds => exact ha ⟨h', succeeds, rfl⟩
        | _ => cases hown
      · rw [State.task_of_other hinv hsound hown (hinv.roll.born r h hh) hstep, hw] at hw'
        cases hw'
    have hbooked := reachable_booked hs r
    have hcourse := (hs.refines_step hstep).lane r
    show (s'.lane r).row = (s.lane r).row
    cases hm : s.takes a r with
    | none =>
        rw [hm] at hcourse
        have hpath : Lane.Path cfg r (s.lane r) (s'.lane r) := hcourse
        generalize hl' : s'.lane r = l' at hpath hnot
        cases hpath with
        | refl => rfl
        | single ht =>
            rcases ht.row_written hbooked hhome with h | ⟨w, ret, hw, hw'⟩
            · exact h
            · exact absurd hw' (hnot w ret hw)
    | some m =>
        rw [hm] at hcourse
        obtain ⟨l₁, ht, hrest, harr⟩ := hcourse
        cases ht with
        | took hmr hh htakes =>
            have hstep₁ : Lane.Step cfg r (some m) (s.lane r) l₁ := .took hmr hh htakes
            have hrow₁ : l₁.row = (s.lane r).row := by
              cases htakes <;> rfl
            have hhome₁ : l₁.home.isSome = true := by
              obtain ⟨h, hh⟩ := Option.isSome_iff_exists.1 hhome
              rw [hstep₁.home hh]
              rfl
            cases hq : m.arrival? with
            | none =>
                rw [harr hq]
                exact hrow₁
            | some x =>
                -- A run that arrives has nothing in hand when it is offered.
                have hn : l₁.hand = none := by
                  cases htakes with
                  | ignored hg =>
                      cases m with
                      | queued _ => exact hg.elim
                      | _ => cases hq
                  | arrived _ _ => exact hh
                  | _ => cases hq
                generalize s'.lane r = l' at hrest
                cases hrest with
                | refl => exact hrow₁
                | single ht' =>
                    rcases ht'.row_written (hbooked.step (hsound r) hstep₁) hhome₁ with
                      h | ⟨w, ret, hw, -⟩
                    · exact h.trans hrow₁
                    · exact absurd (hn.symm.trans hw) (by simp)

/-- The row of a run that was never enqueued is opened, or stays. -/
theorem Reachable.rows_unborn (hs : Reachable cfg db s) (hstep : s.step cfg a = some s')
    (hhome : s.home r = none) :
    s'.rows r = s.rows r ∨ s.rows r = none ∧ s'.rows r = some ⟨.queued, []⟩ := by
  obtain ⟨hinv, hsound⟩ := reachable_sound hs
  have hcourse := (hs.refines_step hstep).lane r
  have hm : s.takes a r = none := by
    cases hm : s.takes a r with
    | none => rfl
    | some m =>
        obtain ⟨h, -, -, -, hh⟩ := State.takes_home hinv.roll hm
        exact absurd (hhome.symm.trans hh) (by simp)
  rw [hm] at hcourse
  have hpath : Lane.Path cfg r (s.lane r) (s'.lane r) := hcourse
  have hidle : (s.lane r).pending = none := by
    rw [Lane.pending, (hsound r).idle_of_unborn hhome]
  show (s'.lane r).row = (s.lane r).row ∨ (s.lane r).row = none ∧ (s'.lane r).row = _
  rcases (Relation.reflGen_iff _ _ _).1 hpath with hsame | ht
  · exact .inl (congrArg Lane.row hsame)
  · rcases ht.row with h | ⟨-, h | ⟨row, w, -, hw, -⟩⟩
    · exact .inl h
    · exact .inr h
    · exact absurd (hidle.symm.trans hw) (by simp)

end Runs

end Funduq.Broker
