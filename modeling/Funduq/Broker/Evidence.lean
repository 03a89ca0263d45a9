import Funduq.Broker.Statuses

/-!
# Outcomes and their evidence

How a run ended is decided from flags other messages have set: what was seen of
its stream, whether a cancellation was asked for, who holds it.  `Lane.Evident`
ties each flag to what is written and heard of the run, and each terminal
status to the evidence for it: a completed run has its holder's `RUN_FINISHED`
and its holder's word that the stream is over, a cancelled one was asked to stop
and never finished, a failed one says why.
-/

namespace Funduq.Broker

open Funduq.Lib

/-! ## What a handler appends -/

theorem runError_not_finished (text code : String) :
    hasType runFinished (runError text code) = false := rfl

theorem runError_is_error (text code : String) :
    hasType runErrorTag (runError text code) = true := rfl

/-- What a handler appends to a run's events, and what it notes of the stream:
nothing, an event a connection reported, or a `RUN_ERROR` of funduq's own. -/
inductive Appends (cfg : Config) (c : Command) (x : Run) : Prop where
  | nothing (he : (handle cfg c x).2.bind Write.event = none)
      (hf : (handle cfg c x).1.sawRunFinished = x.sawRunFinished)
      (hr : (handle cfg c x).1.sawRunError = x.sawRunError)
      (hq : c = .finishStream → finishStatus x = .failed → x.sawRunError = true)
      (hno : c.kind ≠ .fail)
  | relayed {event : Reported} {e : Json} {n : Nat} (hc : c = .relayEvent event)
      (hd : event.dict? = some e) (he : (handle cfg c x).2.bind Write.event = some (n, e))
      (hf : (handle cfg c x).1.sawRunFinished = (x.sawRunFinished || hasType runFinished e))
      (hr : (handle cfg c x).1.sawRunError = true →
        x.sawRunError = true ∨ hasType runErrorTag e = true)
  | authored {n : Nat} {text code : String}
      (hc : c = .finishStream ∧ finishStatus x = .failed ∨ c.kind = .fail)
      (he : (handle cfg c x).2.bind Write.event = some (n, runError text code))
      (hf : (handle cfg c x).1.sawRunFinished = x.sawRunFinished)
      (hr : (handle cfg c x).1.sawRunError = x.sawRunError)

theorem appends (cfg : Config) (c : Command) (x : Run) : Appends cfg c x := by
  cases c with
  | offer => exact .nothing rfl rfl rfl (by rintro ⟨⟩) (by rintro ⟨⟩)
  | claim => exact .nothing rfl rfl rfl (by rintro ⟨⟩) (by rintro ⟨⟩)
  | requestCancel =>
      have h : (handleCancel x).1 = x ∧ (handleCancel x).2.bind Write.event = none := by
        unfold handleCancel
        split <;> exact ⟨rfl, rfl⟩
      refine .nothing h.2 ?_ ?_ (by rintro ⟨⟩) (by rintro ⟨⟩)
      · exact congrArg Run.sawRunFinished h.1
      · exact congrArg Run.sawRunError h.1
  | fail code message => exact .authored (.inr rfl) rfl rfl rfl
  | finishStream =>
      by_cases h : finishStatus x = .failed ∧ x.sawRunError = false
      · have he : (handle cfg .finishStream x).2.bind Write.event =
            some (x.seq + 1, runError "the agent's stream ended without finishing"
              "provider_stream_ended_without_finishing") := by
          simp [handle, handleFinish, h]
        refine .authored (.inl ⟨rfl, h.1⟩) he ?_ ?_ <;> simp [handle, handleFinish, h]
      · refine .nothing ?_ ?_ ?_ (fun _ hfail => ?_) (by rintro ⟨⟩)
        · simp [handle, handleFinish, h]
        · simp [handle, handleFinish, h]
        · simp [handle, handleFinish, h]
        · cases he : x.sawRunError with
          | true => rfl
          | false => exact absurd ⟨hfail, he⟩ h
  | relayEvent event =>
      by_cases hm : malformed cfg event = true
      · refine .nothing ?_ ?_ ?_ (by rintro ⟨⟩) (by rintro ⟨⟩) <;> simp [handle, handleRelay, hm]
      · cases hd : event.dict? with
        | none => refine .nothing ?_ ?_ ?_ (by rintro ⟨⟩) (by rintro ⟨⟩) <;> simp [handle, handleRelay, hm, hd]
        | some e =>
            refine .relayed (n := x.seq + 1) rfl hd ?_ ?_ ?_
            · simp only [handle, handleRelay, hm, hd]
              by_cases hfin : hasType runFinished e = true <;>
                by_cases herr : hasType runErrorTag e = true <;> simp [hfin, herr]
            · simp only [handle, handleRelay, hm, hd]
              by_cases hfin : hasType runFinished e = true <;>
                by_cases herr : hasType runErrorTag e = true <;> simp [hfin, herr]
            · simp only [handle, handleRelay, hm, hd]
              by_cases hfin : hasType runFinished e = true <;>
                by_cases herr : hasType runErrorTag e = true <;> simp [hfin, herr]

/-! ## The evidence -/

namespace Lane

variable {cfg : Config} {r : RunId} {a : Option Message} {l l' : Lane}

/-- Something of the type `tag` is written. -/
def Wrote (l : Lane) (tag : String) : Prop := ∃ e ∈ l.written, hasType tag e.2 = true

/-- The holder of the run has said `report`. -/
def Told (r : RunId) (l : Lane) (report : Report) : Prop :=
  ∃ k, l.run.claimedBy = some k ∧ .said r k report ∈ l.trail.heard.map Heard.message

/-- The flags and the status of a run have their evidence. -/
structure Evident (r : RunId) (l : Lane) : Prop where
  holder : l.run.sawRunFinished = true → ∃ event e, Told r l (.relayEvent event) ∧
    event.dict? = some (Prod.snd e) ∧ e ∈ l.written ∧ hasType runFinished e.2 = true
  error : l.run.sawRunError = true → l.Wrote runErrorTag
  asked : l.run.cancelRequested = true → l.cancelCalled = true
  completed : ∀ row, l.ledger = some row → row.status = .completed →
    l.run.sawRunFinished = true ∧ Told r l .finishStream
  cancelled : ∀ row, l.ledger = some row → row.status = .cancelled →
    l.cancelCalled = true ∧ l.run.sawRunFinished = false
  failed : ∀ row, l.ledger = some row → row.status = .failed → l.Wrote runErrorTag

theorem Told.mono {report : Report} (ht : Told r l report)
    (hc : l'.run.claimedBy = l.run.claimedBy)
    (hh : ∀ e ∈ l.trail.heard, e ∈ l'.trail.heard) : Told r l' report := by
  obtain ⟨k, hk, hm⟩ := ht
  obtain ⟨e, he, heq⟩ := List.mem_map.1 hm
  exact ⟨k, hc.trans hk, List.mem_map.2 ⟨e, hh e he, heq⟩⟩

theorem Evident.kept (he : Evident r l) (hk : l.Keeps l') : Evident r l' := by
  have hw : ∀ tag, l'.Wrote tag ↔ l.Wrote tag := by
    intro tag
    unfold Wrote
    rw [hk.written]
  refine ⟨?_, ?_, ?_, ?_, ?_, ?_⟩
  · rw [hk.finished, hk.written]
    intro h
    obtain ⟨event, e, htold, hrest⟩ := he.holder h
    exact ⟨event, e, htold.mono hk.claimedBy hk.heard, hrest⟩
  · rw [hk.error, hw]
    exact he.error
  · intro h
    rcases hk.asked h with h | h
    · exact hk.called (he.asked h)
    · exact h
  · rw [hk.ledger, hk.finished]
    intro row hrow hc
    obtain ⟨h1, h2⟩ := he.completed row hrow hc
    exact ⟨h1, h2.mono hk.claimedBy hk.heard⟩
  · rw [hk.ledger, hk.finished]
    intro row hrow hc
    obtain ⟨h1, h2⟩ := he.cancelled row hrow hc
    exact ⟨hk.called h1, h2⟩
  · rw [hk.ledger, hw]
    exact he.failed

section Entered

variable {c : Command} {x : Run}

theorem Enters.claimedBy_eq (hc : l.Enters cfg r c x l') : l'.run.claimedBy = x.claimedBy := by
  rw [hc.run]
  exact handle_claimedBy cfg c x

/-- Who holds a run holds it on. -/
theorem Enters.holds (hc : l.Enters cfg r c x l') {st st' : Stage} (hat : l.At st)
    (hn : st.next c = some st') {k : Key} (hk : l.run.claimedBy = some k) :
    l'.run.claimedBy = some k := by
  rw [hc.claimedBy_eq]
  rcases hc.claimedBy with rfl | h
  · have hoff : st = .offering := by cases st <;> first | (cases hn; done) | rfl
    have hnone := hat.claimedBy.1 (.inr hoff)
    exact absurd (hk.symm.trans hnone) nofun
  · exact h.trans hk

theorem Enters.wrote (hc : l.Enters cfg r c x l') (hb : l.Booked)
    (hhome : l.home.isSome = true) {tag : String} (hw : l.Wrote tag) : l'.Wrote tag := by
  obtain ⟨e, he, htag⟩ := hw
  refine ⟨e, ?_, htag⟩
  rw [hc.written hb hhome]
  exact List.mem_append_left _ he

theorem Enters.told (hc : l.Enters cfg r c x l') (report : Report)
    (he : c = report.command) : Told r l' report := by
  obtain ⟨k, hk, hm⟩ := hc.spoken report he
  exact ⟨k, hc.claimedBy_eq.trans hk, hm⟩

/-- What the flags say of the stream stays true when a command enters. -/
private theorem flags_entered (he : Evident r l) (hb : l.Booked)
    (hhome : l.home.isSome = true) (hc : l.Enters cfg r c x l') {st st' : Stage}
    (hat : l.At st) (hn : st.next c = some st') :
    (l'.run.sawRunFinished = true → ∃ event e, Told r l' (.relayEvent event) ∧
      event.dict? = some (Prod.snd e) ∧ e ∈ l'.written ∧ hasType runFinished e.2 = true) ∧
    (l'.run.sawRunError = true → l'.Wrote runErrorTag) := by
  have hwritten := hc.written hb hhome
  have holder : l.run.sawRunFinished = true → ∃ event e, Told r l' (.relayEvent event) ∧
      event.dict? = some (Prod.snd e) ∧ e ∈ l'.written ∧ hasType runFinished e.2 = true := by
    intro h
    obtain ⟨event, e, ⟨k, hk, hm⟩, hd, hmem, htype⟩ := he.holder h
    obtain ⟨y, hy, heq⟩ := List.mem_map.1 hm
    refine ⟨event, e, ⟨k, hc.holds hat hn hk, List.mem_map.2 ⟨y, hc.heard y hy, heq⟩⟩, hd, ?_,
      htype⟩
    rw [hwritten]
    exact List.mem_append_left _ hmem
  rw [hc.run]
  cases appends cfg c x with
  | nothing _ hf hr _ _ =>
      rw [hf, hr, hc.finished, hc.error]
      exact ⟨holder, fun h => hc.wrote hb hhome (he.error h)⟩
  | @relayed event e n hcmd hd hev hf hr =>
      rw [hev] at hwritten
      have hmem : (n, e) ∈ l'.written := by
        rw [hwritten]
        exact List.mem_append_right _ (List.mem_singleton.2 rfl)
      rw [hf, hc.finished]
      refine ⟨?_, ?_⟩
      · intro h
        rcases Bool.or_eq_true _ _ ▸ h with h | h
        · exact holder h
        · exact ⟨event, (n, e), hc.told (.relayEvent event) hcmd, hd, hmem, h⟩
      · intro h
        rcases hr h with h | h
        · exact hc.wrote hb hhome (he.error (hc.error ▸ h))
        · exact ⟨(n, e), hmem, h⟩
  | authored _ _ hf hr =>
      rw [hf, hr, hc.finished, hc.error]
      exact ⟨holder, fun h => hc.wrote hb hhome (he.error h)⟩

/-- A status that is not terminal is no outcome. -/
private theorem ended_of_terminal {st : Stage} {cs : List Command} {status : Status}
    (h : st.Shows cs status) (ht : status.terminal = true) : st = .ended := by
  cases st with
  | fresh =>
      rw [show status = _ from h] at ht
      cases ht
  | offering =>
      rw [show status = _ from h] at ht
      cases ht
  | held => rcases h.running with h | h <;> rw [h] at ht <;> cases ht
  | ended => rfl

theorem finishStatus_completed {run : Run} (h : finishStatus run = .completed) :
    run.sawRunFinished = true := by
  unfold finishStatus at h
  split at h
  · assumption
  · split at h <;> cases h

theorem finishStatus_cancelled {run : Run} (h : finishStatus run = .cancelled) :
    run.sawRunFinished = false ∧ run.cancelRequested = true := by
  unfold finishStatus at h
  split at h
  · cases h
  · rename_i hf
    split at h
    · rename_i hc
      exact ⟨Bool.eq_false_iff.2 hf, hc⟩
    · cases h

/-- A command enters, and every outcome it leaves has its evidence. -/
theorem Evident.entered (he : Evident r l) (hb : l.Booked) (hhome : l.home.isSome = true)
    (hc : l.Enters cfg r c x l') {st st' : Stage} {row : Row} (hrow : l.ledger = some row)
    (hat : l.At st) (hn : st.next c = some st')
    (hshow : st.Shows l.trail.recorded row.status)
    (hshow' : st'.Shows l'.trail.recorded (row.with (handle cfg c x).2).status) :
    Evident r l' := by
  obtain ⟨hholder, herror⟩ := flags_entered he hb hhome hc hat hn
  have hledger : l'.ledger = some (row.with (handle cfg c x).2) := by
    rw [hc.ledger, hrow]
    rfl
  have hasked : x.cancelRequested = true → l'.cancelCalled = true := by
    intro h
    rcases hc.asked h with h | h
    · exact hc.called (he.asked h)
    · exact h
  -- An outcome is the doing of the command that ended the run.
  have hend : ∀ row', l'.ledger = some row' → row'.status.terminal = true →
      row' = row.with (handle cfg c x).2 ∧ st.next c = some .ended := by
    intro row' hrow' ht
    cases hledger.symm.trans hrow'
    exact ⟨rfl, ended_of_terminal hshow' ht ▸ hn⟩
  refine ⟨hholder, herror, ?_, ?_, ?_, ?_⟩
  · intro h
    rw [hc.run, handle_cancelRequested] at h
    exact hasked h
  · intro row' hrow' hcompleted
    obtain ⟨rfl, hn'⟩ := hend row' hrow' (by rw [hcompleted]; rfl)
    rcases ended_status cfg hshow hn' (hc.unclaimed hat) with
      ⟨-, h⟩ | ⟨-, -, h⟩ | ⟨hcmd, h⟩
    · exact absurd (hcompleted.symm.trans h) nofun
    · exact absurd (hcompleted.symm.trans h) nofun
    · have hsaw := finishStatus_completed (h.symm.trans hcompleted)
      refine ⟨?_, hc.told _ hcmd⟩
      rw [hc.run]
      cases appends cfg c x with
      | nothing _ hf _ _ _ => exact hf.trans hsaw
      | relayed _ _ _ hf _ => rw [hf, hsaw, Bool.true_or]
      | authored _ _ hf _ => exact hf.trans hsaw
  · intro row' hrow' hcancelled
    obtain ⟨rfl, hn'⟩ := hend row' hrow' (by rw [hcancelled]; rfl)
    rcases ended_status cfg hshow hn' (hc.unclaimed hat) with
      ⟨-, h⟩ | ⟨hcmd, hnone, -⟩ | ⟨hcmd, h⟩
    · exact absurd (hcancelled.symm.trans h) nofun
    · refine ⟨hasked (hc.cancels hcmd), Bool.eq_false_iff.2 fun hsaw => ?_⟩
      obtain ⟨_, _, ⟨k, hk, -⟩, -⟩ := hholder hsaw
      exact absurd (hk.symm.trans (hc.claimedBy_eq.trans hnone)) nofun
    · obtain ⟨hsaw, hreq⟩ := finishStatus_cancelled (h.symm.trans hcancelled)
      refine ⟨hasked hreq, ?_⟩
      rw [hc.run]
      cases appends cfg c x with
      | nothing _ hf _ _ _ => exact hf.trans hsaw
      | relayed hrel _ _ _ _ => exact absurd (hcmd.symm.trans hrel) nofun
      | authored _ _ hf _ => exact hf.trans hsaw
  · intro row' hrow' hfailed
    obtain ⟨rfl, hn'⟩ := hend row' hrow' (by rw [hfailed]; rfl)
    cases appends cfg c x with
    | nothing _ _ _ hq hno =>
        rcases ended_status cfg hshow hn' (hc.unclaimed hat) with
          ⟨⟨code, message, rfl⟩, -⟩ | ⟨-, -, h⟩ | ⟨hcmd, h⟩
        · exact absurd rfl hno
        · exact absurd (hfailed.symm.trans h) nofun
        · have hsaw := hq hcmd (h.symm.trans hfailed)
          exact hc.wrote hb hhome (he.error (hc.error ▸ hsaw))
    | relayed hrel _ _ _ _ =>
        subst hrel
        cases st <;> cases hn'
    | @authored n text code _ hev _ _ =>
        refine ⟨(n, runError text code), ?_, runError_is_error text code⟩
        rw [hc.written hb hhome, hev]
        exact List.mem_append_right _ (List.mem_singleton.2 rfl)

end Entered

/-- A `RUN_FINISHED` the broker has written is one it has seen, and one it has
seen is its holder's. -/
structure Noticed (l : Lane) : Prop where
  wrote : l.home.isSome = true → l.Wrote runFinished → l.run.sawRunFinished = true
  claimed : l.run.sawRunFinished = true → l.run.claimedBy.isSome = true

/-- A `RUN_FINISHED` that is written as a command enters was written before or is
the event the command relays. -/
theorem Enters.wrote_finished {c : Command} {x : Run} (hc : l.Enters cfg r c x l')
    (hb : l.Booked) (hhome : l.home.isSome = true) (hw : l'.Wrote runFinished) :
    l.Wrote runFinished ∨ l'.run.sawRunFinished = true ∧ ∃ event e n, c = .relayEvent event ∧
      (handle cfg c x).2.bind Write.event = some (n, e) := by
  obtain ⟨y, hy, htype⟩ := hw
  rw [hc.written hb hhome] at hy
  cases appends cfg c x with
  | nothing hev _ _ _ _ =>
      rw [hev, Option.toList_none, List.append_nil] at hy
      exact .inl ⟨y, hy, htype⟩
  | relayed hcmd _ hev hf _ =>
      rw [hev] at hy
      rcases List.mem_append.1 hy with hy | hy
      · exact .inl ⟨y, hy, htype⟩
      · rw [List.mem_singleton.1 hy] at htype
        refine .inr ⟨?_, _, _, _, hcmd, hev⟩
        rw [hc.run, hf, htype, Bool.or_true]
  | authored _ hev _ _ =>
      rw [hev] at hy
      rcases List.mem_append.1 hy with hy | hy
      · exact .inl ⟨y, hy, htype⟩
      · rw [List.mem_singleton.1 hy, runError_not_finished] at htype
        cases htype

theorem Noticed.step (hs : l.Sound) (hb : l.Booked) (hl : l.Noticed)
    (ht : Step cfg r a l l') : l'.Noticed := by
  cases ht.writes hs with
  | opened hr he =>
      subst he
      refine ⟨fun hhome _ => ?_, hl.claimed⟩
      obtain ⟨row, hrow, -⟩ := hb hhome
      exact absurd (hrow.symm.trans hr) nofun
  | @enqueued run row h hh hf hr hq he =>
      have hnil : l'.written = [] :=
        written_of_enqueued (by rw [he]; exact hs.idle_of_unborn hh) (by rw [he]; exact hr)
          (by rw [he])
      refine ⟨?_, ?_⟩
      · rintro - ⟨e, hmem, -⟩
        rw [hnil] at hmem
        cases hmem
      · rw [show l'.run = run by rw [he], hf]
        exact nofun
  | kept hk =>
      refine ⟨?_, ?_⟩
      · rw [hk.home, hk.finished]
        rintro hhome ⟨e, hmem, htype⟩
        exact hl.wrote hhome ⟨e, hk.written ▸ hmem, htype⟩
      · rw [hk.finished, hk.claimedBy]
        exact hl.claimed
  | @entered c x hc =>
      obtain ⟨st, st', -, hat, -, hn⟩ := hc.stages hs (hs.step ht)
      have hkeep : l.run.sawRunFinished = true → l'.run.sawRunFinished = true := by
        intro h
        rw [hc.run]
        cases appends cfg c x with
        | nothing _ hf _ _ _ => exact hf.trans (hc.finished.trans h)
        | relayed _ _ _ hf _ => rw [hf, hc.finished, h, Bool.true_or]
        | authored _ _ hf _ => exact hf.trans (hc.finished.trans h)
      have hclaimed : l.run.sawRunFinished = true → l'.run.claimedBy.isSome = true := by
        intro h
        obtain ⟨k, hk⟩ := Option.isSome_iff_exists.1 (hl.claimed h)
        rw [hc.holds hat hn hk]
        rfl
      refine ⟨?_, ?_⟩
      · rw [hc.home]
        intro hhome hw
        rcases hc.wrote_finished hb hhome hw with hw | ⟨hsaw, -⟩
        · exact hkeep (hl.wrote hhome hw)
        · exact hsaw
      · intro h
        rw [hc.run] at h
        cases appends cfg c x with
        | nothing _ hf _ _ _ => exact hclaimed (hc.finished.symm.trans (hf.symm.trans h))
        | @relayed event _ _ hcmd _ _ _ _ =>
            obtain ⟨k, hk, -⟩ := hc.told (.relayEvent event) hcmd
            rw [hk]
            rfl
        | authored _ _ hf _ => exact hclaimed (hc.finished.symm.trans (hf.symm.trans h))
  | lost hh he =>
      have hrun : l'.run = l.run := by rw [he]
      have hhome' : l'.home = l.home := by rw [he]
      refine ⟨?_, ?_⟩
      · rw [hhome', hrun]
        rintro hhome ⟨e, hmem, htype⟩
        refine hl.wrote hhome ⟨e, ?_, htype⟩
        rw [written_of_lost hb hhome hh (l.trail.failedWrites + 1), ← he]
        exact List.mem_append_left _ hmem
      · rw [hrun]
        exact hl.claimed

/-- Unless a write has failed, an enqueued run's flags and status have their
evidence. -/
def Evidence (r : RunId) (l : Lane) : Prop :=
  l.trail.failedWrites = 0 → l.home.isSome = true → Evident r l

theorem Evidence.step (hs : l.Sound) (hb : l.Booked) (hshown : l.Shown) (hl : Evidence r l)
    (ht : Step cfg r a l l') : Evidence r l' := by
  intro hw hhome
  have hshown' := hshown.step hs ht hw hhome
  cases ht.writes hs with
  | opened hr he =>
      subst he
      obtain ⟨row, hrow, -⟩ := hb hhome
      exact absurd (hrow.symm.trans hr) nofun
  | @enqueued run row h hh hf hr hq he =>
      have hhand : l'.hand = none := by
        rw [he]
        exact hs.idle_of_unborn hh
      have hrow : l'.ledger = some row := by
        rw [ledger_of_idle hhand, he]
        exact hr
      have hrun : l'.run = run := by rw [he]
      have hno : ∀ status, row.status = status → status ≠ .queued → False :=
        fun status h hne => hne (h.symm.trans hq)
      constructor
      · rw [hrun, hf]
        exact nofun
      · rw [hrun, hf]
        exact nofun
      · rw [hrun, hf]
        exact nofun
      · intro row' hrow' h
        cases hrow.symm.trans hrow'
        exact (hno _ h nofun).elim
      · intro row' hrow' h
        cases hrow.symm.trans hrow'
        exact (hno _ h nofun).elim
      · intro row' hrow' h
        cases hrow.symm.trans hrow'
        exact (hno _ h nofun).elim
  | kept hk => exact (hl (hk.failedWrites ▸ hw) (hk.home ▸ hhome)).kept hk
  | @entered c x hc =>
      rw [hc.failedWrites] at hw
      rw [hc.home] at hhome
      obtain ⟨row, st, hrow, hst, hshow⟩ := hshown hw hhome
      obtain ⟨row', st', hrow', hst', hshow'⟩ := hshown'
      obtain ⟨st₀, st₁, hst₀, hat, hst₁, hn⟩ := hc.stages hs (hs.step ht)
      cases hst.symm.trans hst₀
      cases hst'.symm.trans hst₁
      have hsame : row' = row.with (handle cfg c x).2 := by
        rw [hc.ledger, hrow] at hrow'
        exact (Option.some.inj hrow').symm
      exact (hl hw hhome).entered hb hhome hc hrow hat hn hshow (hsame ▸ hshow')
  | lost _ he =>
      subst he
      exact absurd hw (Nat.succ_ne_zero _)

/-! ## Where a run starts from -/

/-- A queued row of a run that was not enqueued has no events, and so nothing
stood in the row of one that was. -/
structure Unmarked (l : Lane) : Prop where
  waiting : l.home = none → ∀ row, l.row = some row → row.status = .queued → row.events = []
  before : l.home.isSome = true → l.trail.before = []

theorem Unmarked.step (hs : l.Sound) (hl : l.Unmarked) (ht : Step cfg r a l l') :
    l'.Unmarked := by
  have hsame : l'.home = l.home → l'.trail.before = l.trail.before → l'.Unmarked := by
    intro hh hbefore
    refine ⟨fun hnone row hrow hq => ?_, fun hsome => ?_⟩
    · rw [hh] at hnone
      rcases ht.row with h | ⟨-, ⟨-, h⟩ | ⟨_, w, -, hp, -⟩⟩
      · exact hl.waiting hnone row (h ▸ hrow) hq
      · cases h.symm.trans hrow
        rfl
      · rw [pending, hs.idle_of_unborn hnone] at hp
        cases hp
    · rw [hbefore]
      exact hl.before (hh ▸ hsome)
  cases ht.writes hs with
  | opened _ he => exact hsame (by rw [he]) (by rw [he])
  | enqueued hh _ hr hq he =>
      subst he
      exact ⟨(by simp), fun _ => hl.waiting hh _ hr hq⟩
  | kept hk => exact hsame hk.home hk.before
  | entered hc => exact hsame hc.home hc.before
  | lost _ he => exact hsame (by rw [he]) (by rw [he])

/-- Unless a write has failed, a row that is still queued has only the events it
had when the run was enqueued. -/
def Untouched (l : Lane) : Prop :=
  l.trail.failedWrites = 0 → l.home.isSome = true →
    ∀ row, l.row = some row → row.status = .queued → row.events = l.trail.before

theorem Untouched.step (hs : l.Sound) (hshown : l.Shown) (hl : l.Untouched)
    (ht : Step cfg r a l l') : l'.Untouched := by
  intro hw hhome row hrow hq
  have hsame : l.trail.failedWrites = 0 → l'.home = l.home →
      l'.trail.before = l.trail.before → row.events = l'.trail.before := by
    intro hw hh hbefore
    rw [hh] at hhome
    rw [hbefore]
    rcases ht.row with h | ⟨-, ⟨h, -⟩ | ⟨row₀, w, h₀, hp, h⟩⟩
    · exact hl hw hhome row (h ▸ hrow) hq
    · obtain ⟨_, _, hledger, -⟩ := hshown hw hhome
      rw [ledger, h] at hledger
      cases hledger
    · -- The row is the ledger, which shows a stage past the first.
      cases h.symm.trans hrow
      obtain ⟨row', st, hledger, hst, hshow⟩ := hshown hw hhome
      have he : row' = w.commit row₀ := by
        rw [ledger, h₀, hp] at hledger
        exact (Option.some.inj hledger).symm
      rw [he] at hshow
      obtain ⟨st', hst', hat⟩ := hs.stage
      cases hst.symm.trans hst'
      cases st with
      | fresh =>
          rw [pending, hat.2.2] at hp
          cases hp
      | offering => exact absurd (hq.symm.trans hshow) (by simp)
      | held => rcases hshow.running with h | h <;> exact absurd (hq.symm.trans h) (by simp)
      | ended =>
          rw [show (w.commit row₀).status = _ from hq] at hshow
          cases hshow
  cases ht.writes hs with
  | opened _ he => exact hsame (by rw [he] at hw; exact hw) (by rw [he]) (by rw [he])
  | enqueued hh _ hr _ he =>
      subst he
      cases hr.symm.trans hrow
      rfl
  | kept hk => exact hsame (hk.failedWrites ▸ hw) hk.home hk.before
  | entered hc => exact hsame (hc.failedWrites ▸ hw) hc.home hc.before
  | lost _ he =>
      rw [he] at hw
      exact absurd hw (Nat.succ_ne_zero _)

end Lane

/-! ## Every outcome -/

section Outcomes

variable {cfg : Config} {db : RunId → Option Row} {s : State} {r : RunId}

/-- No row of the database is queued and has events. -/
def CleanDb (db : RunId → Option Row) : Prop :=
  ∀ r row, db r = some row → row.status = .queued → row.events = []

theorem reachable_booked (hs : Reachable cfg db s) (r : RunId) : (s.lane r).Booked :=
  hs.lane_invariant (P := Lane.Booked) r (fun h => absurd h nofun)
    fun _ _ _ hl hb ht => hb.step hl ht

theorem reachable_noticed (hs : Reachable cfg db s) (r : RunId) : (s.lane r).Noticed := by
  have h : (s.lane r).Booked ∧ (s.lane r).Noticed :=
    hs.lane_invariant (P := fun l => l.Booked ∧ l.Noticed) r
      ⟨fun h => absurd h nofun, nofun, nofun⟩
      fun _ _ _ hl hp ht => ⟨hp.1.step hl ht, hp.2.step hl hp.1 ht⟩
  exact h.2

theorem reachable_unmarked (hdb : CleanDb db) (hs : Reachable cfg db s) (r : RunId) :
    (s.lane r).Unmarked :=
  hs.lane_invariant (P := Lane.Unmarked) r ⟨fun _ => hdb r, nofun⟩
    fun _ _ _ hl hu ht => hu.step hl ht

/-- A broker that starts on a clean database, and has no write fail, leaves a
clean one: `CleanDb` is what earlier brokers promise the next. -/
theorem clean_kept (hdb : CleanDb db) (hs : Reachable cfg db s)
    (hw : ∀ r, (s.trail r).failedWrites = 0) : CleanDb s.rows := by
  intro r row hrow hq
  have hu := reachable_unmarked hdb hs r
  have hshown : (s.lane r).Shown ∧ (s.lane r).Untouched :=
    hs.lane_invariant (P := fun l => l.Shown ∧ l.Untouched) r
      ⟨fun _ h => absurd h nofun, fun _ h => absurd h nofun⟩
      fun _ _ _ hl hp ht => ⟨hp.1.step hl ht, hp.2.step hl hp.1 ht⟩
  cases hh : s.home r with
  | none => exact hu.waiting hh row hrow hq
  | some h =>
      have hsome : (s.lane r).home.isSome = true := by
        change (s.home r).isSome = true
        rw [hh]
        rfl
      exact (hshown.2 (hw r) hsome row hrow hq).trans (hu.before hsome)

theorem reachable_evidence (hs : Reachable cfg db s) (r : RunId) :
    Lane.Evidence r (s.lane r) := by
  have h : (s.lane r).Booked ∧ (s.lane r).Shown ∧ Lane.Evidence r (s.lane r) :=
    hs.lane_invariant (P := fun l => l.Booked ∧ l.Shown ∧ Lane.Evidence r l) r
      ⟨fun h => absurd h nofun, fun _ h => absurd h nofun, fun _ h => absurd h nofun⟩
      fun _ _ _ hl hp ht =>
        ⟨hp.1.step hl ht, hp.2.1.step hl ht, hp.2.2.step hl hp.1 hp.2.1 ht⟩
  exact h.2.2

/-- **Main result.**  A run that has left the broker without a failed write is
completed, cancelled or failed, and has the evidence: completed, its holder's
`RUN_FINISHED` and its holder's word that the stream is over; cancelled, a call
of `request_cancel` and no `RUN_FINISHED`; failed, a `RUN_ERROR`.  `events` are
those persisted since the run was enqueued, which are all it has unless a write
of an earlier broker failed (`clean_kept`). -/
theorem outcome_has_evidence (hs : Reachable cfg db s) (hhome : (s.home r).isSome = true)
    (hleft : r ∉ s.runs) (hw : (s.trail r).failedWrites = 0) :
    ∃ row events, s.rows r = some row ∧ row.events = (s.trail r).before ++ events ∧
      (CleanDb db → row.events = events) ∧
      (row.status = .completed ∨ row.status = .cancelled ∨ row.status = .failed) ∧
      (row.status = .completed → ∃ k, (s.run r).claimedBy = some k ∧
        .said r k .finishStream ∈ (s.trail r).heard.map Heard.message ∧
        ∃ event e, .said r k (.relayEvent event) ∈ (s.trail r).heard.map Heard.message ∧
          event.dict? = some (Prod.snd e) ∧ e ∈ events ∧ hasType runFinished e.2 = true) ∧
      (row.status = .cancelled → s.cancelCalled r = true ∧
        ∀ e ∈ events, hasType runFinished e.2 = false) ∧
      (row.status = .failed → ∃ e ∈ events, hasType runErrorTag e.2 = true) := by
  have hev := reachable_evidence hs r hw hhome
  obtain ⟨row, hrow, hterm⟩ := reachable_terminal hs hhome hleft hw
  obtain ⟨row', hledger, hevents⟩ := (reachable_booked hs r).ledger hhome
  have hsame : row' = row := by
    rw [Lane.ledger_of_idle (hand_of_left hs hleft)] at hledger
    exact Option.some.inj (hledger.symm.trans hrow)
  rw [hsame] at hledger hevents
  refine ⟨row, (s.lane r).written, hrow, hevents, ?_, ?_, ?_, ?_, fun h => ?_⟩
  · intro hdb
    rw [hevents, (reachable_unmarked hdb hs r).before hhome, List.nil_append]
  · cases hst : row.status <;> rw [hst] at hterm <;> first | (cases hterm; done) | simp
  · intro h
    obtain ⟨hsaw, k, hk, hfin⟩ := hev.completed row hledger h
    obtain ⟨event, e, ⟨k', hk', hsaid⟩, hrest⟩ := hev.holder hsaw
    cases hk.symm.trans hk'
    exact ⟨k, hk, hfin, event, e, hsaid, hrest⟩
  · intro h
    obtain ⟨hcalled, hsaw⟩ := hev.cancelled row hledger h
    refine ⟨hcalled, fun e he => Bool.eq_false_iff.2 fun htype => ?_⟩
    have := (reachable_noticed hs r).wrote hhome ⟨e, he, htype⟩
    exact absurd (this.symm.trans hsaw) nofun
  · exact hev.failed row hledger h

/-- A run that was reported finished and ended, on a broker that started with no
rows at all. -/
theorem outcome_has_evidence_completed :
    ∃ row, (State.after Demo.config Demo.completed).rows "r" = some row ∧
      (row.status = .completed → ∃ e ∈ row.events, hasType runFinished e.2 = true) := by
  obtain ⟨row, events, hrow, -, hall, -, hcompleted, -⟩ := outcome_has_evidence (r := "r")
    (reachable_after Demo.config Demo.completed) (by decide +kernel) (by decide +kernel)
    (by decide +kernel)
  refine ⟨row, hrow, fun h => ?_⟩
  obtain ⟨_, -, -, _, e, -, -, hmem, htype⟩ := hcompleted h
  rw [hall (by rintro _ _ ⟨⟩)]
  exact ⟨e, hmem, htype⟩

end Outcomes

end Funduq.Broker
