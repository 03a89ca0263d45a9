import Funduq.Broker.Grammar
import Funduq.Broker.Ledger

/-!
# The stored status

`runs.status` is written behind the broker's back, one guarded update at a
time, and a refused update is only logged.  Here it is shown that none is ever
refused that matters: as long as no write of a run has failed, the status in
its ledger is the one its stage shows (`Stage.Shows`), so whenever its handler
is between two messages the row and the broker agree.
-/

namespace Funduq.Broker

open Funduq.Lib

/-! ## Guarded updates -/

theorem markRunStatus_of_legal {row : Row} {status : Status} (h : row.status ∈ legalFrom status) :
    (markRunStatus row status).status = status := by
  rw [markRunStatus, if_pos h]

/-- A guarded update leaves the status or moves it legally. -/
theorem commit_status (w : Write) (row : Row) :
    (w.commit row).status = row.status ∨ row.status ∈ legalFrom (w.commit row).status := by
  unfold Write.commit
  cases w.status with
  | none => exact .inl rfl
  | some status =>
      simp only [markRunStatus]
      split
      · rename_i h
        exact .inr h
      · exact .inl rfl

/-- A status that is not the old one is the one the write carries. -/
theorem Write.commit_status_eq (w : Write) (row : Row) :
    (w.commit row).status = row.status ∨ w.status = some (w.commit row).status := by
  unfold Write.commit
  cases w.status with
  | none => exact .inl rfl
  | some status =>
      simp only [markRunStatus]
      split
      · exact .inr rfl
      · exact .inl rfl

/-- A legal update is made. -/
theorem with_status {o : Option Write} {w : Write} {row : Row} (status : Status)
    (ho : o = some w) (hw : w.status = some status) (h : row.status ∈ legalFrom status) :
    (row.with o).status = status := by
  rw [ho]
  change (w.commit row).status = status
  unfold Write.commit
  rw [hw]
  exact markRunStatus_of_legal h

/-- Nothing may legally be written over a terminal status. -/
theorem not_legal_of_terminal {status : Status} (h : status.terminal = true) (next : Status) :
    status ∉ legalFrom next := by
  cases status <;> cases next <;> first | (cases h; done) | decide

theorem commit_of_terminal (w : Write) {row : Row} (h : row.status.terminal = true) :
    (w.commit row).status = row.status := by
  rcases commit_status w row with hw | hw
  · exact hw
  · exact absurd hw (not_legal_of_terminal h _)

/-! ## What the handlers write -/

/-- Relaying moves no status. -/
theorem relay_status (cfg : Config) (run : Run) (event : Reported) (row : Row) :
    (row.with (handleRelay cfg run event).2).status = row.status := by
  unfold handleRelay
  split
  · rfl
  · split <;> rfl

theorem finish_status (run : Run) {row : Row}
    (h : row.status = .running ∨ row.status = .cancelling) :
    (row.with (handleFinish run).2).status = finishStatus run := by
  have hlegal : row.status ∈ legalFrom (finishStatus run) := by
    unfold finishStatus
    split
    · rcases h with h | h <;> rw [h] <;> decide
    · split <;> rcases h with h | h <;> rw [h] <;> decide
  simp only [handleFinish]
  split
  · exact with_status _ rfl rfl hlegal
  · exact with_status _ rfl rfl hlegal

theorem finishStatus_terminal (run : Run) : (finishStatus run).terminal = true := by
  unfold finishStatus
  split
  · rfl
  · split <;> rfl

theorem fail_status (run : Run) (code : String) (message : Option String) {row : Row}
    (h : row.status.terminal = false) :
    (row.with (handleFail run code message).2).status = .failed := by
  refine with_status .failed rfl rfl ?_
  cases hs : row.status <;> rw [hs] at h <;> first | (cases h; done) | decide

/-- Cancelling a run nobody has claimed. -/
theorem cancel_status_unclaimed {run : Run} {row : Row} (hc : run.claimedBy = none)
    (h : row.status.terminal = false) :
    (row.with (handleCancel run).2).status = .cancelled := by
  unfold handleCancel
  rw [hc]
  refine with_status .cancelled rfl rfl ?_
  cases hs : row.status <;> rw [hs] at h <;> first | (cases h; done) | decide

/-- Asking the holder of a run to stop. -/
theorem cancel_status_claimed {run : Run} {row : Row} (hc : run.claimedBy.isSome = true)
    (h : row.status = .running ∨ row.status = .cancelling) :
    (row.with (handleCancel run).2).status = .cancelling := by
  unfold handleCancel
  rw [if_neg (by cases hk : run.claimedBy <;> simp [hk] at hc ⊢)]
  rcases h with h | h
  · exact with_status .cancelling rfl rfl (by rw [h]; decide)
  · -- The row says so already; the update is refused.
    change (markRunStatus { row with events := _ } .cancelling).status = _
    rw [markRunStatus, if_neg (by rw [h]; decide)]
    exact h

/-! ## Stages and statuses -/

/-- A cancellation is on the record. -/
def cancelRecorded (recorded : List Command) : Bool :=
  .requestCancel ∈ recorded.map Command.kind

/-- The status a stage shows. -/
def Stage.Shows : Stage → List Command → Status → Prop
  | .fresh, _, status => status = .queued
  | .offering, _, status => status = .offering
  | .held, cs, status => status = if cancelRecorded cs then .cancelling else .running
  | .ended, _, status => status.terminal = true

theorem Stage.Shows.running {cs : List Command} {status : Status}
    (h : Stage.held.Shows cs status) : status = .running ∨ status = .cancelling := by
  rw [show status = _ from h]
  split
  · exact .inr rfl
  · exact .inl rfl

/-- The run is claimed exactly while it is held. -/
theorem Lane.At.claimedBy {l : Lane} {st : Stage} (hat : l.At st) :
    (st = .fresh ∨ st = .offering → l.run.claimedBy = none) ∧
      (st = .held → l.run.claimedBy.isSome = true) := by
  cases st with
  | fresh =>
      have hu := hat.1
      refine ⟨fun _ => ?_, (by simp)⟩
      cases hc : l.run.claimedBy with
      | none => rfl
      | some k => simp [Run.unoffered, hc] at hu
  | offering => exact ⟨fun _ => hat.2.1, (by simp)⟩
  | held => exact ⟨(by rintro (h | h) <;> cases h), fun _ => hat.2.2.1⟩
  | ended => exact ⟨(by rintro (h | h) <;> cases h), (by simp)⟩

private theorem cancelRecorded_append (cs : List Command) (c : Command) :
    cancelRecorded (cs ++ [c]) = (cancelRecorded cs || decide (c.kind = .requestCancel)) := by
  simp [cancelRecorded, Bool.decide_or, eq_comm]

/-- The status a run's ending command leaves. -/
theorem ended_status (cfg : Config) {cs : List Command} {c : Command} {x : Run} {row : Row}
    {st : Stage} (hshow : st.Shows cs row.status) (hn : st.next c = some .ended)
    (hfree : st = .fresh ∨ st = .offering → c = .requestCancel → x.claimedBy = none) :
    (∃ code message, c = .fail code message) ∧
        (row.with (handle cfg c x).2).status = .failed ∨
      c = .requestCancel ∧ x.claimedBy = none ∧
        (row.with (handle cfg c x).2).status = .cancelled ∨
      c = .finishStream ∧ (row.with (handle cfg c x).2).status = finishStatus x := by
  have hopen : row.status.terminal = false := by
    cases st with
    | fresh => rw [show row.status = _ from hshow]; rfl
    | offering => rw [show row.status = _ from hshow]; rfl
    | held => rcases hshow.running with h | h <;> rw [h] <;> rfl
    | ended => cases c <;> cases hn
  cases c with
  | fail code message => exact .inl ⟨⟨code, message, rfl⟩, fail_status x code message hopen⟩
  | requestCancel =>
      have hc : x.claimedBy = none := by
        cases st with
        | fresh => exact hfree (.inl rfl) rfl
        | offering => exact hfree (.inr rfl) rfl
        | held => cases hn
        | ended => cases hn
      exact .inr (.inl ⟨rfl, hc, cancel_status_unclaimed hc hopen⟩)
  | finishStream =>
      have hheld : st = .held := by cases st <;> first | (cases hn; done) | rfl
      subst hheld
      exact .inr (.inr ⟨rfl, finish_status x hshow.running⟩)
  | offer => cases st <;> cases hn
  | claim => cases st <;> cases hn
  | relayEvent e => cases st <;> cases hn

/-- **Every write is the one its stage asks for.**  Where the ledger shows the
stage of the record, it shows the next one once a command has entered both. -/
theorem shows_next {cfg : Config} {cs : List Command} {c : Command} {x : Run} {row : Row}
    {st st' : Stage} (hst : stageOf cs = some st) (hshow : st.Shows cs row.status)
    (hn : st.next c = some st')
    (hfree : st = .fresh ∨ st = .offering → c = .requestCancel → x.claimedBy = none)
    (hheld : st = .held → x.claimedBy.isSome = true) :
    st'.Shows (cs ++ [c]) (row.with (handle cfg c x).2).status := by
  by_cases hend : st' = .ended
  · subst hend
    change Status.terminal _ = true
    rcases ended_status cfg hshow hn hfree with ⟨-, h⟩ | ⟨-, -, h⟩ | ⟨-, h⟩
    · rw [h]
      rfl
    · rw [h]
      rfl
    · rw [h]
      exact finishStatus_terminal x
  · cases st with
    | fresh =>
        have hq : row.status = .queued := hshow
        cases c <;> cases hn
        · exact with_status .offering rfl rfl (by rw [hq]; decide)
        · exact absurd rfl hend
        · exact absurd rfl hend
    | offering =>
        have hq : row.status = .offering := hshow
        cases c <;> cases hn
        · have hno : cancelRecorded (cs ++ [Command.claim]) = false := by
            rw [cancelRecorded_append, cancelRecorded, show cs.map _ = _ from word_of_stage hst]
            decide
          change _ = if cancelRecorded (cs ++ [Command.claim]) then Status.cancelling else .running
          rw [hno]
          exact with_status .running rfl rfl (by rw [hq]; decide)
        · exact absurd rfl hend
        · exact absurd rfl hend
    | held =>
        cases c with
        | relayEvent e =>
            cases hn
            change _ = if cancelRecorded (cs ++ [Command.relayEvent e]) then _ else _
            rw [cancelRecorded_append, handle, relay_status]
            simpa [Command.kind, Stage.Shows] using hshow
        | requestCancel =>
            cases hn
            change _ = if cancelRecorded (cs ++ [Command.requestCancel]) then _ else _
            rw [cancelRecorded_append, handle, cancel_status_claimed (hheld rfl) hshow.running]
            simp [Command.kind]
        | finishStream =>
            cases hn
            exact absurd rfl hend
        | fail code message =>
            cases hn
            exact absurd rfl hend
        | offer => cases hn
        | claim => cases hn
    | ended => cases c <;> cases hn

/-! ## The ledger shows the stage -/

namespace Lane

variable {cfg : Config} {r : RunId} {a : Option Message} {l l' : Lane}

/-- A run that is cancelled before somebody holds it is nobody's. -/
theorem Enters.unclaimed {c : Command} {x : Run} {st : Stage} (hc : l.Enters cfg r c x l')
    (hat : l.At st) (hfree : st = .fresh ∨ st = .offering) (hk : c = .requestCancel) :
    x.claimedBy = none := by
  rcases hc.claimedBy with rfl | hcl
  · cases hk
  · exact hcl.trans (hat.claimedBy.1 hfree)

/-- Unless a write has failed, the ledger of an enqueued run shows its stage. -/
def Shown (l : Lane) : Prop :=
  l.trail.failedWrites = 0 → l.home.isSome = true →
    ∃ row st, l.ledger = some row ∧ stageOf l.trail.recorded = some st ∧
      st.Shows l.trail.recorded row.status

theorem Shown.step (hs : l.Sound) (hl : l.Shown) (ht : Step cfg r a l l') : l'.Shown := by
  intro hw hhome
  cases ht.writes hs with
  | opened hr he =>
      subst he
      obtain ⟨row, _, hrow, -⟩ := hl hw hhome
      rw [ledger, hr] at hrow
      cases hrow
  | enqueued hh hf hr hq he =>
      subst he
      refine ⟨_, .fresh, (ledger_of_idle (l := { l with run := _ })
        (hs.idle_of_unborn hh)).trans hr, ?_, hq⟩
      change stageOf l.trail.recorded = _
      rw [hs.unborn hh]
      rfl
  | kept hk =>
      rw [hk.failedWrites] at hw
      rw [hk.home] at hhome
      obtain ⟨row, st, hrow, hst, hshow⟩ := hl hw hhome
      refine ⟨row, st, hk.ledger.trans hrow, ?_, ?_⟩
      · rw [hk.recorded]
        exact hst
      · rw [hk.recorded]
        exact hshow
  | @entered c x hc =>
      rw [hc.failedWrites] at hw
      rw [hc.home] at hhome
      obtain ⟨row, st, hrow, hst, hshow⟩ := hl hw hhome
      obtain ⟨st₀, st', hst₀, hat, hst', hn⟩ := hc.stages hs (hs.step ht)
      cases hst.symm.trans hst₀
      refine ⟨_, st', by rw [hc.ledger, hrow]; rfl, hst', ?_⟩
      rw [hc.recorded]
      refine shows_next hst hshow hn (hc.unclaimed hat) ?_
      intro hheld
      subst hheld
      rcases hc.claimedBy with rfl | hcl
      · cases hn
      · rw [hcl]
        exact hat.claimedBy.2 rfl
  | lost _ he =>
      subst he
      exact absurd hw (Nat.succ_ne_zero _)

/-- A run that has left the broker has ended. -/
def Left (l : Lane) : Prop :=
  l.home.isSome = true → l.held = false → stageOf l.trail.recorded = some .ended

theorem Left.step (hs : l.Sound) (hl : l.Left) (ht : Step cfg r a l l') : l'.Left := by
  intro hhome hheld
  cases ht.writes hs with
  | opened _ he =>
      subst he
      exact hl hhome hheld
  | enqueued _ _ _ _ he =>
      subst he
      cases hheld
  | kept hk =>
      rw [hk.recorded]
      rw [hk.home] at hhome
      rcases hk.left hheld with h | h
      · exact hl hhome h
      · exact h
  | entered hc => exact absurd (hc.held.symm.trans hheld) nofun
  | lost _ he =>
      subst he
      exact hl hhome hheld

/-- One step of the broker leaves a run's status or moves it legally, once. -/
theorem Course.status (hc : Course cfg r a l l') {row : Row} (hr : l.row = some row) :
    ∃ row', l'.row = some row' ∧
      (row'.status = row.status ∨ row.status ∈ legalFrom row'.status) := by
  have hpath : ∀ l l', l.row = some row → Path cfg r l l' → ∃ row', l'.row = some row' ∧
      (row'.status = row.status ∨ row.status ∈ legalFrom row'.status) := by
    intro l l' hr hp
    cases hp with
    | refl => exact ⟨row, hr, .inl rfl⟩
    | single ht =>
        rcases ht.row with h | ⟨-, ⟨h, -⟩ | ⟨row₀, w, h₀, -, h⟩⟩
        · exact ⟨row, h.trans hr, .inl rfl⟩
        · exact absurd (hr.symm.trans h) nofun
        · cases hr.symm.trans h₀
          exact ⟨_, h, commit_status w row⟩
  cases a with
  | none => exact hpath l l' hr hc
  | some m =>
      obtain ⟨l₁, ht, hp, -⟩ := hc
      refine hpath l₁ l' ?_ hp
      rcases ht.row with h | ⟨h, -⟩
      · exact h.trans hr
      · cases h

end Lane

/-! ## Every row -/

section Rows

variable {cfg : Config} {db : RunId → Option Row} {s : State} {r : RunId}

theorem reachable_shown (hs : Reachable cfg db s) (r : RunId) : (s.lane r).Shown :=
  hs.lane_invariant (P := Lane.Shown) r (fun _ h => absurd h nofun)
    fun _ _ _ hl hshown ht => hshown.step hl ht

theorem reachable_left (hs : Reachable cfg db s) (r : RunId) : (s.lane r).Left :=
  hs.lane_invariant (P := Lane.Left) r (fun h => absurd h nofun)
    fun _ _ _ hl hleft ht => hleft.step hl ht

/-- A run whose handler is between two messages shows the status of its stage. -/
private theorem status_between_messages (hs : Reachable cfg db s) {h : HandlerId}
    (hr : s.runThreads r = some h) (hi : s.task h = .idle)
    (hw : (s.trail r).failedWrites = 0) :
    ∃ row, s.rows r = some row ∧
      ((s.run r).unoffered = true → row.status = .queued) ∧
      ((s.run r).verdictOpen = true → row.status = .offering) ∧
      ((s.run r).claimedBy.isSome = true →
        row.status = if cancelRecorded (s.trail r).recorded then .cancelling else .running) ∧
      ((s.run r).unoffered = true ∨ (s.run r).verdictOpen = true ∨
        (s.run r).claimedBy.isSome = true) := by
  have hinv := reachable_inv hs
  have hhome := hinv.roll.atHome r h hr
  have hhand : (s.lane r).hand = none := by
    rw [State.lane_hand hhome, hi]
    rfl
  obtain ⟨row, st, hrow, hst, hshow⟩ := reachable_shown hs r hw
    (show (s.home r).isSome = true by rw [hhome]; rfl)
  obtain ⟨st', hst', hat⟩ := ((reachable_sound hs).2 r).stage
  cases hst.symm.trans hst'
  have hclaimed := hat.claimedBy
  refine ⟨row, (Lane.ledger_of_idle hhand).symm.trans hrow, ?_⟩
  cases st with
  | fresh =>
      have hu : (s.run r).unoffered = true := hat.1
      have ho : (s.run r).verdictOpen = false := by
        cases ho : (s.run r).verdictOpen with
        | false => rfl
        | true => simp [Run.unoffered, ho] at hu
      have hc : (s.run r).claimedBy = none := hclaimed.1 (.inl rfl)
      simp [ho, hc, hu, show row.status = _ from hshow]
  | offering =>
      have ho : (s.run r).verdictOpen = true := hat.2.2.1
      have hc : (s.run r).claimedBy = none := hclaimed.1 (.inr rfl)
      simp [Run.unoffered, ho, hc, show row.status = _ from hshow]
  | held =>
      have ho : (s.run r).verdictOpen = false := hat.2.1
      have hc : (s.run r).claimedBy.isSome = true := hclaimed.2 rfl
      have hn : (s.run r).unoffered = false := by
        cases hk : (s.run r).claimedBy with
        | none => simp [hk] at hc
        | some k => simp [Run.unoffered, hk]
      have hstatus : row.status =
          if cancelRecorded (s.trail r).recorded then .cancelling else .running := hshow
      simp [ho, hc, hn, hstatus]
  | ended =>
      rcases hat with ⟨hheld, -⟩ | ⟨-, ph, hp | ⟨hp, -⟩⟩
      · have hin : (s.lane r).held = true :=
          decide_eq_true ((hinv.roll.held_iff r).2 ⟨h, hr⟩)
        exact absurd (hin.symm.trans hheld) (by simp)
      · exact absurd (hhand.symm.trans hp) (by simp)
      · exact absurd (hhand.symm.trans hp) (by simp)

/-- Nothing is in hand for a run that has left. -/
theorem hand_of_left (hs : Reachable cfg db s) (hr : r ∉ s.runs) :
    (s.lane r).hand = none := by
  have hsound := (reachable_sound hs).2 r
  cases hh : (s.lane r).hand with
  | none => rfl
  | some p =>
      obtain ⟨ph, ret⟩ := p
      have hheld := hsound.held (hsound.live_of_hand hh)
      exact absurd (of_decide_eq_true hheld) hr

theorem reachable_terminal (hs : Reachable cfg db s) (hhome : (s.home r).isSome = true)
    (hr : r ∉ s.runs) (hw : (s.trail r).failedWrites = 0) :
    ∃ row, s.rows r = some row ∧ row.status.terminal = true := by
  obtain ⟨row, st, hrow, hst, hshow⟩ := reachable_shown hs r hw hhome
  cases hst.symm.trans (reachable_left hs r hhome (decide_eq_false hr))
  exact ⟨row, (Lane.ledger_of_idle (hand_of_left hs hr)).symm.trans hrow, hshow⟩

theorem Reachable.status_step {s' : State} {a : Action} (hs : Reachable cfg db s)
    (hstep : s.step cfg a = some s') {row : Row} (hr : s.rows r = some row) :
    ∃ row', s'.rows r = some row' ∧
      (row'.status = row.status ∨ row.status ∈ legalFrom row'.status) :=
  ((hs.refines_step hstep).lane r).status hr

/-- A terminal status stands, whatever happens next. -/
private theorem terminal_stands (hs : Reachable cfg db s) {as : List Action} {s' : State}
    (hexec : (system cfg db).exec s as = some s') {row : Row} (hr : s.rows r = some row)
    (ht : row.status.terminal = true) :
    ∃ row', s'.rows r = some row' ∧ row'.status = row.status := by
  induction as generalizing s row with
  | nil =>
      cases hexec
      exact ⟨row, hr, rfl⟩
  | cons a as ih =>
      obtain ⟨t, hstep, hrest⟩ := Option.bind_eq_some_iff.1 hexec
      obtain ⟨row₁, hr₁, hmove⟩ := hs.status_step hstep hr
      have hsame : row₁.status = row.status := by
        rcases hmove with h | h
        · exact h
        · exact absurd h (not_legal_of_terminal ht _)
      obtain ⟨row', hr', he⟩ := ih (.step a hs hstep) hrest hr₁ (by rw [hsame]; exact ht)
      exact ⟨row', hr', he.trans hsame⟩

/-- **Main result.**  Unless a write of the run has failed: while the broker
holds it and its handler is between two messages its row is `queued` if nobody
has been offered it, `offering` while the verdict is open, `running` or
`cancelling` while somebody holds it; and once it has left its row is terminal.
Always: a status moves only as `legalFrom` allows, and a terminal one stands. -/
theorem row_simulates_run (hs : Reachable cfg db s) :
    (∀ r h, s.runThreads r = some h → s.task h = .idle → (s.trail r).failedWrites = 0 →
      ∃ row, s.rows r = some row ∧
        ((s.run r).unoffered = true → row.status = .queued) ∧
        ((s.run r).verdictOpen = true → row.status = .offering) ∧
        ((s.run r).claimedBy.isSome = true →
          row.status = if cancelRecorded (s.trail r).recorded then .cancelling else .running) ∧
        ((s.run r).unoffered = true ∨ (s.run r).verdictOpen = true ∨
          (s.run r).claimedBy.isSome = true)) ∧
    (∀ r, (s.home r).isSome = true → r ∉ s.runs → (s.trail r).failedWrites = 0 →
      ∃ row, s.rows r = some row ∧ row.status.terminal = true) ∧
    (∀ a s', s.step cfg a = some s' → ∀ r row, s.rows r = some row →
      ∃ row', s'.rows r = some row' ∧
        (row'.status = row.status ∨ row.status ∈ legalFrom row'.status)) ∧
    (∀ as s', (system cfg db).exec s as = some s' → ∀ r row, s.rows r = some row →
      row.status.terminal = true →
      ∃ row', s'.rows r = some row' ∧ row'.status = row.status) :=
  ⟨fun _ _ hr hi hw => status_between_messages hs hr hi hw,
    fun _ hhome hr hw => reachable_terminal hs hhome hr hw,
    fun _ _ hstep _ _ hr => hs.status_step hstep hr,
    fun _ _ hexec _ _ hr ht => terminal_stands hs hexec hr ht⟩

/-- A run that was claimed, and has since left. -/
theorem row_simulates_run_completed :
    (∃ row, (State.after Demo.config Demo.claimed).rows "r" = some row ∧
      row.status = .running) ∧
    ∃ row, (State.after Demo.config Demo.completed).rows "r" = some row ∧
      row.status.terminal = true := by
  refine ⟨?_, (row_simulates_run (reachable_after Demo.config Demo.completed)).2.1 "r"
    (by decide +kernel) (by decide +kernel) (by decide +kernel)⟩
  obtain ⟨row, hrow, -, -, hclaimed, -⟩ :=
    (row_simulates_run (reachable_after Demo.config Demo.claimed)).1 "r" 0
      (by decide +kernel) rfl (by decide +kernel)
  exact ⟨row, hrow, hclaimed (by decide +kernel)⟩

end Rows

end Funduq.Broker
