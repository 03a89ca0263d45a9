import Funduq.Broker.Evidence

/-!
# A cancel behind the message that ends a run

A run's outcome is decided when its handler takes the message that ends it: the
end of its stream, a decline, or the lapse of its offer.  What led up to it is
an account of the messages that were taken before (`Account.hear`), whatever
else went on and however the thread was scheduled: who holds the run, what was
seen of its stream, which events are written.

One fact is no part of that account.  `request_cancel` sets the run's flag as it
is called, ahead of every message still in the inbox, and the end of a stream, a
decline and a lapse read it.  So of two executions that hear the same of a run,
one of which has the cancel requested behind the message that ends it, both come
to the same end only where the flag was set already or is not looked at, which
is at the end of a stream whose `RUN_FINISHED` was seen.
-/

namespace Funduq.Broker

open Funduq.Lib

/-! ## The account of a run -/

/-- What the messages taken about a run have made of it. -/
structure Account where
  holder : Option Key
  seq : Nat
  finished : Bool
  error : Bool
  events : List (Nat × Json)

namespace Account

/-- The holder reports an event. -/
def relay (cfg : Config) (a : Account) (event : Reported) : Account :=
  if malformed cfg event then a
  else
    match event.dict? with
    | none => a
    | some e =>
        let a :=
          if hasType runFinished e then { a with finished := true }
          else if hasType runErrorTag e then { a with error := true }
          else a
        { a with seq := a.seq + 1, events := a.events ++ [(a.seq + 1, e)] }

/-- A message is taken that does not end the run. -/
def hear (cfg : Config) (a : Account) (x : Heard) : Account :=
  match x.message with
  | .answered _ key .accepted => if x.openTo = some key then { a with holder := some key } else a
  | .said _ origin (.relayEvent event) => if a.holder = some origin then a.relay cfg event else a
  | _ => a

end Account

namespace Lane

variable {cfg : Config} {r : RunId} {a : Option Message} {l l' : Lane} {m : Message}

/-- The run's account, with the write in hand made. -/
def account (l : Lane) : Account where
  holder := l.run.claimedBy
  seq := l.run.seq
  finished := l.run.sawRunFinished
  error := l.run.sawRunError
  events := l.ledger.elim [] Row.events

/-- The account once `command` is being recorded. -/
theorem account_record {x : Run} {command : Command} {ret : Ret} {row : Row}
    (hp : l.pending = none) (hrow : l.row = some row) :
    ({ l with run := x }.record cfg command ret).account =
      { holder := x.claimedBy
        seq := (handle cfg command x).1.seq
        finished := (handle cfg command x).1.sawRunFinished
        error := (handle cfg command x).1.sawRunError
        events := l.account.events ++ ((handle cfg command x).2.bind Write.event).toList } := by
  have hpend : ({ l with run := x }.record cfg command ret).pending = (handle cfg command x).2 := by
    unfold pending record
    cases (handle cfg command x).2 <;> rfl
  have hledger : ({ l with run := x }.record cfg command ret).ledger =
      some (row.with (handle cfg command x).2) := by
    rw [ledger, hpend]
    change l.row.map _ = _
    rw [hrow]
    rfl
  have hold : l.account.events = row.events := by
    change l.ledger.elim [] Row.events = _
    rw [ledger, hp, hrow]
    rfl
  rw [hold, ← Row.with_events]
  unfold account
  rw [hledger]
  simp [record]

/-- A command that moves nothing but the status changes no account. -/
theorem account_record_quiet {x : Run} {command : Command} {ret : Ret} {row : Row}
    (hp : l.pending = none) (hrow : l.row = some row)
    (hq : (handle cfg command x).1 = x ∧ (handle cfg command x).2.bind Write.event = none)
    (hseq : x.seq = l.run.seq)
    (hfin : x.sawRunFinished = l.run.sawRunFinished)
    (herr : x.sawRunError = l.run.sawRunError) :
    ({ l with run := x }.record cfg command ret).account =
      { l.account with holder := x.claimedBy } := by
  rw [account_record hp hrow, hq.1, hq.2, hseq, hfin, herr]
  simp [account]

/-- A reported event enters the account as it enters the run. -/
theorem account_relay {event : Reported} {ret : Ret} {row : Row} (hp : l.pending = none)
    (hrow : l.row = some row) :
    (l.record cfg (.relayEvent event) ret).account = l.account.relay cfg event := by
  rw [account_record (x := l.run) hp hrow]
  simp only [handle, handleRelay, Account.relay]
  split
  · simp [account]
  · cases event.dict? with
    | none => simp [account]
    | some e =>
        by_cases h1 : hasType runFinished e = true
        · simp [h1, account]
        · by_cases h2 : hasType runErrorTag e = true
          · simp [h1, h2, account]
          · simp [h1, h2, account]

theorem quiet_cancel (cfg : Config) (x : Run) :
    (handle cfg .requestCancel x).1 = x ∧
      (handle cfg .requestCancel x).2.bind Write.event = none := by
  simp only [handle, handleCancel]
  split <;> exact ⟨rfl, rfl⟩

/-- **The step of the account.**  A message ends the run, or is accounted for. -/
theorem Takes.account (hs : l.Sound) (hh : l.hand = none) (hne : ¬ l.Ended) {row : Row}
    (hrow : l.row = some row) (ht : Takes cfg r m l l') :
    l'.Ended ∨ l'.account = l.account.hear cfg ⟨m, l.openTo⟩ := by
  have hp : l.pending = none := by rw [pending, hh]
  cases ht with
  | ignored hg =>
      refine .inr ?_
      cases m with
      | answered r' key answer =>
          cases answer with
          | accepted =>
              have hopen : ¬ l.openTo = some key := by
                intro ho
                unfold openTo at ho
                split at ho
                · rename_i hlv
                  exact hg ⟨hlv.1, hlv.2, ho⟩
                · cases ho
              exact (if_neg hopen).symm
          | _ => rfl
      | said r' origin report =>
          cases report with
          | relayEvent event =>
              have hother : ¬ l.account.holder = some origin := by
                intro hk
                obtain ⟨st, hst, hat⟩ := hs.stage
                have hsome : l.run.claimedBy.isSome = true := by
                  rw [show l.run.claimedBy = some origin from hk]
                  rfl
                cases st with
                | fresh =>
                    rw [hat.claimedBy.1 (.inl rfl)] at hsome
                    cases hsome
                | offering =>
                    rw [hat.claimedBy.1 (.inr rfl)] at hsome
                    cases hsome
                | held => exact hg ⟨hat.1, hk⟩
                | ended => exact hne hst
              exact (if_neg hother).symm
          | finishStream => rfl
      | _ => rfl
  | arrived _ _ => exact .inr rfl
  | @accepted _ key hl ho hk =>
      have hopen : l.openTo = some key := (if_pos ⟨hl, ho⟩).trans hk
      refine .inr ((account_record_quiet (x := l.run.accept key) hp hrow ⟨rfl, rfl⟩
        rfl rfl rfl).trans ?_)
      exact (if_pos hopen).symm
  | refused hl ho _ =>
      exact .inl (ended_record (hs.offering_of_open hl hh ho).1 rfl)
  | declined hl ho _ =>
      exact .inl (ended_record (hs.offering_of_open hl hh ho).1 (Stage.next_dropped _ _))
  | lapsed hl ho _ =>
      exact .inl (ended_record (hs.offering_of_open hl hh ho).1 (Stage.next_dropped _ _))
  | @said _ origin report hl hk =>
      cases report with
      | relayEvent event =>
          refine .inr ((account_relay hp hrow).trans ?_)
          exact (if_pos hk).symm
      | finishStream =>
          have hst := (hs.held_of_claimed hl hh (by rw [hk]; rfl)).1
          exact .inl (ended_record (x := l.run) hst rfl)
  | cancelPending _ _ _ => exact .inr rfl
  | cancelled hl _ ho =>
      cases hc : l.run.claimedBy with
      | none => exact .inl (ended_record (hs.fresh_of_free hl hh ho hc).1 rfl)
      | some k =>
          exact .inr (account_record_quiet hp hrow (quiet_cancel cfg _) rfl rfl rfl)
  | failed hl =>
      obtain ⟨st, hst, -⟩ := hs.stage
      refine .inl (ended_record hst ?_)
      cases st with
      | ended => exact absurd hst hne
      | _ => rfl
  | undelivered _ => exact .inr rfl

/-- The run has ended, or the messages taken since it had `n` behind it and the
account `a₀` account for it. -/
structure Accounted (cfg : Config) (a₀ : Account) (n : Nat) (l : Lane) : Prop where
  home : l.home.isSome = true
  since : n ≤ l.trail.heard.length
  account : l.trail.failedWrites = 0 → l.Ended ∨
    l.account = (l.trail.heard.drop n).foldl (Account.hear cfg) a₀

theorem Step.heard (ht : Step cfg r a l l') :
    l'.trail.heard = l.trail.heard ++ (a.map fun m => (⟨m, l.openTo⟩ : Heard)).toList := by
  cases ht with
  | took _ _ ht => cases ht <;> rfl
  | _ => exact (List.append_nil _).symm

/-- What happens to a run while no message about it is taken ends it, or changes
nothing of its account. -/
theorem Step.account (hs : l.Sound) {row : Row} (hrow : l.row = some row)
    (hhome : l.home.isSome = true) (ht : Step cfg r none l l')
    (hw : l'.trail.failedWrites = l.trail.failedWrites) : l'.Ended ∨ l'.account = l.account := by
  have hidle : l.hand = none → l.pending = none := by
    intro h
    rw [pending, h]
  have hsame : ∀ {ph ret}, l.hand = some (ph, ret) → (∀ w, ph ≠ .writing w) →
      l'.row = l.row → l'.pending = none → l'.ledger = l.ledger := by
    intro ph ret hh hph hr hp'
    have hp : l.pending = none := by
      unfold pending
      rw [hh]
      cases ph <;> first | rfl | exact absurd rfl (hph _)
    rw [ledger, ledger, hr, hp, hp']
  have hkept : l'.ledger = l.ledger → l'.run.claimedBy = l.run.claimedBy →
      l'.run.seq = l.run.seq → l'.run.sawRunFinished = l.run.sawRunFinished →
      l'.run.sawRunError = l.run.sawRunError → l'.account = l.account := by
    intro h1 h2 h3 h4 h5
    unfold Lane.account
    rw [h1, h2, h3, h4, h5]
  cases ht with
  | opened hr => exact absurd (hrow.symm.trans hr) (by simp)
  | enqueued hh _ _ _ _ =>
      rw [hh] at hhome
      cases hhome
  | cancelCalled _ => exact .inr rfl
  | delivered c => exact .inr rfl
  | @offered _ c i note _ hh _ _ =>
      exact .inr (account_record_quiet (l := { l with trail := _ }) (hidle hh) hrow
        ⟨rfl, rfl⟩ rfl rfl rfl)
  | invalid hl hh hu =>
      exact .inl (ended_record (x := l.run) (hs.fresh_of_unoffered hl hh hu).1 rfl)
  | cancelChecked _ hh _ _ =>
      exact .inr (account_record_quiet (x := l.run) (hidle hh) hrow (quiet_cancel cfg _) rfl rfl rfl)
  | @committed _ w ret row' hh hr =>
      refine .inr (hkept ?_ rfl rfl rfl rfl)
      simp [ledger, pending, hh, hr, Row.with]
  | rolledBack _ => exact absurd hw (Nat.succ_ne_self _)
  | streamed hh =>
      refine .inr (hkept (hsame hh (by simp) rfl ?_) rfl rfl rfl rfl)
      unfold pending
      split
      · rename_i heq
        split at heq <;> cases heq
      · rfl
  | notified hh => exact .inr (hkept (hsame hh (by simp) rfl rfl) rfl rfl rfl rfl)
  | handedOver hh => exact .inr (hkept (hsame hh (by simp) rfl rfl) rfl rfl rfl rfl)
  | returned hh _ => exact .inr (hkept (hsame hh (by simp) rfl rfl) rfl rfl rfl rfl)
  | poisoned hh hp =>
      left
      suffices hst : stageOf l.trail.recorded = some .held from
        ended_record (x := l.run) hst rfl
      rcases hs.of_hand hh with ⟨_, _, hret, -⟩ | ⟨-, -, hst, -⟩ | ⟨hret, -⟩
      · cases hret
      · exact hst
      · rcases hret with hret | ⟨-, hnone⟩
        · cases hret
        · exact absurd (hp.symm.trans hnone) (by simp)
  | settled hh hr =>
      refine .inl ?_
      rcases hs.of_hand hh with ⟨_, _, rfl, -⟩ | ⟨hret, -⟩ | ⟨-, -, hst⟩
      · simp at hr
      · rcases hret with rfl | rfl | ⟨e, rfl⟩ <;> simp at hr
      · exact hst

theorem Accounted.step {a₀ : Account} {n : Nat} (hs : l.Sound) (hb : l.Booked)
    (ha : l.Accounted cfg a₀ n) (ht : Step cfg r a l l') : l'.Accounted cfg a₀ n := by
  obtain ⟨h, hh⟩ := Option.isSome_iff_exists.1 ha.home
  obtain ⟨row, hrow, -⟩ := hb ha.home
  have hheard := ht.heard
  refine ⟨by rw [ht.home hh]; rfl, ?_, fun hw => ?_⟩
  · rw [hheard, List.length_append]
    exact Nat.le_trans ha.since (Nat.le_add_right _ _)
  · by_cases hend : l.Ended
    · exact .inl (ht.ended hs ha.home hend)
    · have hsame : l'.trail.failedWrites = l.trail.failedWrites := by
        cases ht.writes hs with
        | opened _ he => rw [he]
        | enqueued _ _ _ _ he => rw [he]
        | kept hk => exact hk.failedWrites
        | entered hc => exact hc.failedWrites
        | lost _ he =>
            rw [he] at hw
            exact absurd hw (Nat.succ_ne_zero _)
      rw [hsame] at hw
      have hold := (ha.account hw).resolve_left hend
      rw [hheard, List.drop_append_of_le_length ha.since, List.foldl_append, ← hold]
      cases a with
      | none => exact ht.account hs hrow ha.home hsame
      | some m =>
          cases ht with
          | took hm hhand htakes =>
              exact Takes.account (l := l.hear m) hs.hear hhand hend hrow htakes

/-- Recording leaves the flag as it is. -/
private theorem cancelRequested_record {x : Run} {command : Command} {ret : Ret}
    (hx : x.cancelRequested = true) :
    ({ l with run := x }.record cfg command ret).run.cancelRequested = true :=
  (handle_cancelRequested cfg command x).trans hx

private theorem Takes.cancelRequested (h : l.run.cancelRequested = true)
    (ht : Takes cfg r m l l') : l'.run.cancelRequested = true := by
  cases ht with
  | accepted _ _ _ => exact cancelRequested_record h
  | refused _ _ _ => exact cancelRequested_record h
  | declined _ _ _ => exact cancelRequested_record h
  | lapsed _ _ _ => exact cancelRequested_record h
  | said _ _ => exact cancelRequested_record h
  | cancelPending _ _ _ => rfl
  | cancelled _ _ _ => exact cancelRequested_record rfl
  | failed _ => exact cancelRequested_record h
  | _ => exact h

/-- A flag that is set stays set. -/
theorem Step.cancelRequested (hhome : l.home.isSome = true) (h : l.run.cancelRequested = true)
    (ht : Step cfg r a l l') : l'.run.cancelRequested = true := by
  cases ht with
  | enqueued hh _ _ _ _ =>
      rw [hh] at hhome
      cases hhome
  | cancelCalled _ => rfl
  | @took _ _ m _ _ ht => exact Takes.cancelRequested (l := l.hear m) h ht
  | offered _ _ _ _ => exact cancelRequested_record (l := { l with trail := _ }) h
  | invalid _ _ _ => exact cancelRequested_record h
  | cancelChecked _ _ _ _ => exact cancelRequested_record h
  | poisoned _ _ => exact cancelRequested_record h
  | settled _ _ =>
      obtain ⟨_, hrun⟩ := l.run.settle_run
      exact (congrArg Run.cancelRequested hrun).trans h
  | _ => exact h

/-- The run has ended, and unless a write has failed its ledger is `row`. -/
structure Closed (row : Row) (l : Lane) : Prop where
  home : l.home.isSome = true
  booked : l.Booked
  ended : l.Ended
  ledger : l.trail.failedWrites = 0 → l.ledger = some row

theorem Closed.step {row : Row} (hs : l.Sound) (hc : l.Closed row) (ht : Step cfg r a l l') :
    l'.Closed row := by
  obtain ⟨h, hh⟩ := Option.isSome_iff_exists.1 hc.home
  refine ⟨by rw [ht.home hh]; rfl, hc.booked.step hs ht, ht.ended hs hc.home hc.ended, ?_⟩
  intro hw
  cases ht.writes hs with
  | opened hr _ =>
      obtain ⟨_, hrow, -⟩ := hc.booked hc.home
      exact absurd (hrow.symm.trans hr) nofun
  | enqueued hn _ _ _ _ => exact absurd (hh.symm.trans hn) nofun
  | kept hk => exact hk.ledger.trans (hc.ledger (hk.failedWrites ▸ hw))
  | @entered c x he =>
      obtain ⟨st, st', hst, -, -, hn⟩ := he.stages hs (hs.step ht)
      cases hc.ended.symm.trans hst
      cases c <;> cases hn
  | lost _ he =>
      rw [he] at hw
      exact absurd hw (Nat.succ_ne_zero _)

end Lane

/-! ## The message that ends a run -/

/-- What ends a run: its holder ends the stream, the provider it is offered to
declines, or the offer lapses. -/
inductive Run.EndedBy (run : Run) (r : RunId) : Message → Prop where
  | finish {k : Key} (hk : run.claimedBy = some k) : EndedBy run r (.said r k .finishStream)
  | decline {k : Key} (ho : run.verdictOpen = true) (hk : run.offeredTo = some k) :
      EndedBy run r (.answered r k .declined)
  | lapse (ho : run.verdictOpen = true) : EndedBy run r (.offerLapsed r run.offerId)

/-- The row a run is left with when message `m` ends it; `asked` is its flag. -/
def Account.outcome (a : Account) (asked : Bool) : Message → Row
  | .said _ _ _ =>
      if a.finished then ⟨.completed, a.events⟩
      else if asked then ⟨.cancelled, a.events⟩
      else if a.error then ⟨.failed, a.events⟩
      else ⟨.failed, a.events ++ [(a.seq + 1,
        runError "the agent's stream ended without finishing"
          "provider_stream_ended_without_finishing")]⟩
  | .offerLapsed _ _ => dropped "provider_did_not_answer"
  | _ => dropped "provider_declined"
where
  dropped (code : String) : Row :=
    if asked then ⟨.cancelled, a.events⟩
    else ⟨.failed, a.events ++ [(a.seq + 1, runError code code)]⟩

theorem Row.eq_mk {row : Row} {status : Status} {events : List (Nat × Json)}
    (hst : row.status = status) (hev : row.events = events) : row = ⟨status, events⟩ := by
  cases row
  cases hst
  cases hev
  rfl

section Outcome

variable {cfg : Config} {r : RunId} {l l' : Lane} {m : Message} {row : Row} {run : Run}

/-- The end of a stream, on the row of a run somebody holds. -/
theorem outcome_finish (hev : l.account.events = row.events)
    (hst : row.status = .running ∨ row.status = .cancelling) (k : Key) :
    row.with (handle cfg .finishStream l.run).2 =
      l.account.outcome l.run.cancelRequested (.said r k .finishStream) := by
  have hstatus := finish_status l.run hst
  have hevents := row.with_events (handleFinish l.run).2
  change row.with (handleFinish l.run).2 = _
  rw [Row.eq_mk hstatus hevents]
  simp only [Account.outcome, hev]
  change _ = if l.run.sawRunFinished = true then _ else _
  by_cases hf : l.run.sawRunFinished = true
  · simp [handleFinish, finishStatus, hf]
  · by_cases hc : l.run.cancelRequested = true
    · simp [handleFinish, finishStatus, hf, hc]
    · by_cases he : l.run.sawRunError = true
      · simp [handleFinish, finishStatus, Lane.account, hf, hc, he]
      · simp [handleFinish, finishStatus, Lane.account, hf, hc, he]

/-- A run nobody took is dropped. -/
theorem outcome_dropped (hev : l.account.events = row.events) (hst : row.status.terminal = false)
    (run : Run) (hfree : run.claimedBy = none) (hseq : run.seq = l.run.seq) (code : String) :
    row.with (handle cfg (l.run.dropped code) run).2 =
      Account.outcome.dropped l.account l.run.cancelRequested code := by
  unfold Run.dropped Account.outcome.dropped
  by_cases hc : l.run.cancelRequested = true
  · rw [if_pos hc, if_pos hc]
    have hevents := row.with_events (handleCancel run).2
    change row.with (handleCancel run).2 = _
    rw [Row.eq_mk (cancel_status_unclaimed hfree hst) hevents, hev]
    simp [handleCancel, hfree]
  · rw [if_neg hc, if_neg hc]
    have hevents := row.with_events (handleFail run code none).2
    change row.with (handleFail run code none).2 = _
    rw [Row.eq_mk (fail_status run code none hst) hevents, hev]
    simp [handleFail, failText, Lane.account, hseq]

/-- Taking the message that ends a run writes its outcome in the ledger. -/
theorem Lane.Takes.outcome (hs : l.Sound) (hh : l.hand = none) (hl : l.live = true)
    (hhome : l.home.isSome = true) (hb : l.Booked) (hshown : l.Shown)
    (hw : l.trail.failedWrites = 0) (hm : l.run.EndedBy r m) (ht : Takes cfg r m (l.hear m) l') :
    l'.Ended ∧ l'.ledger = some (l.account.outcome l.run.cancelRequested m) := by
  obtain ⟨row, hrow, -⟩ := hb hhome
  obtain ⟨row', st, hledger, hst, hshow⟩ := hshown hw hhome
  have hsame : row' = row := by
    rw [ledger_of_idle hh, hrow] at hledger
    exact (Option.some.inj hledger).symm
  subst hsame
  have hev : l.account.events = row'.events := by
    change l.ledger.elim [] Row.events = _
    rw [hledger]
    rfl
  -- What the record handler writes is made of the row as it stands.
  have hwrites : ∀ (x : Run) (c : Command) (ret : Ret),
      (Lane.record cfg { l.hear m with run := x } c ret).ledger =
        some (row'.with (handle cfg c x).2) := by
    intro x c ret
    have hpend : (Lane.record cfg { l.hear m with run := x } c ret).pending =
        (handle cfg c x).2 := by
      unfold pending record
      cases (handle cfg c x).2 <;> rfl
    rw [ledger, hpend]
    change l.row.map _ = _
    rw [hrow]
    rfl
  cases hm with
  | @finish k hk =>
      obtain ⟨hst', -⟩ := hs.held_of_claimed hl hh (by rw [hk]; rfl)
      cases hst.symm.trans hst'
      cases ht with
      | ignored hg => exact absurd ⟨hl, hk⟩ hg
      | said _ _ =>
          refine ⟨ended_record (l := l.hear _) (x := l.run) hst rfl, (hwrites l.run _ _).trans ?_⟩
          exact congrArg some (outcome_finish hev hshow.running k)
  | @decline k ho hk =>
      obtain ⟨hst', hat⟩ := hs.offering_of_open hl hh ho
      cases hst.symm.trans hst'
      have hopen : row'.status.terminal = false := by
        rw [show row'.status = _ from hshow]
        rfl
      cases ht with
      | ignored hg => exact absurd ⟨hl, ho, hk⟩ hg
      | declined _ _ _ =>
          refine ⟨ended_record (l := l.hear _) hst (Stage.next_dropped _ _), ?_⟩
          refine (hwrites _ _ _).trans (congrArg some ?_)
          exact outcome_dropped hev hopen l.run.turnDown hat.2.1 rfl _
  | lapse ho =>
      obtain ⟨hst', hat⟩ := hs.offering_of_open hl hh ho
      cases hst.symm.trans hst'
      have hopen : row'.status.terminal = false := by
        rw [show row'.status = _ from hshow]
        rfl
      cases ht with
      | ignored hg => exact absurd ⟨hl, ho, rfl⟩ hg
      | lapsed _ _ _ =>
          refine ⟨ended_record (l := l.hear _) hst (Stage.next_dropped _ _), ?_⟩
          refine (hwrites _ _ _).trans (congrArg some ?_)
          exact outcome_dropped hev hopen l.run.lapse hat.2.1 rfl _

end Outcome

/-- The flag is looked at, and not set. -/
theorem Account.outcome_eq_iff (a : Account) (asked : Bool) {run : Run} {r : RunId} {m : Message}
    (hm : run.EndedBy r m) : a.outcome asked m = a.outcome true m ↔
      asked = true ∨ (∃ k, m = .said r k .finishStream) ∧ a.finished = true := by
  cases asked with
  | true => simp
  | false =>
      cases hm with
      | finish hk =>
          by_cases hf : a.finished = true
          · simp [Account.outcome, hf]
          · by_cases he : a.error = true
            · simp [Account.outcome, hf, he]
            · simp [Account.outcome, hf, he]
      | decline _ _ => simp [Account.outcome, Account.outcome.dropped]
      | lapse _ => simp [Account.outcome, Account.outcome.dropped]

/-! ## Two executions -/

section Executions

variable {cfg : Config} {db : RunId → Option Row} {s s₀ t e : State} {h : HandlerId} {r : RunId}
  {m : Message}

/-- From `s₀` the broker comes to a state `t` in which handler `h` is about to
take message `m`, which ends run `r`, and from there to a state `e` in which the
run is gone, with no write of the run having failed. -/
structure ComesToEnd (cfg : Config) (db : RunId → Option Row) (s₀ : State) (h : HandlerId)
    (r : RunId) (m : Message) (t e : State) : Prop where
  leads : ∃ as, (system cfg db).exec s₀ as = some t
  next : (t.inbox h).head? = some m
  live : r ∈ t.live h
  ends : (t.run r).EndedBy r m
  takes : ∃ u bs, t.step cfg (.take h) = some u ∧ (system cfg db).exec u bs = some e
  gone : r ∉ e.runs
  written : (e.trail r).failedWrites = 0

theorem Run.EndedBy.runId? {run : Run} (hm : run.EndedBy r m) :
    m.runId? = some r ∧ m.arrival? = none := by
  cases hm <;> exact ⟨rfl, rfl⟩

/-- Between two messages its handler has nothing in hand for the run. -/
theorem ComesToEnd.idle (hs : Reachable cfg db s₀) (hc : ComesToEnd cfg db s₀ h r m t e) :
    t.home r = some h ∧ (t.lane r).live = true ∧ (t.lane r).hand = none := by
  obtain ⟨as, has⟩ := hc.leads
  obtain ⟨u, -, htake, -⟩ := hc.takes
  have hhome := (reachable_inv (hs.exec has)).roll.home_of_live hc.live
  refine ⟨hhome, (State.lane_live hhome).2 hc.live, ?_⟩
  rw [State.lane_hand hhome]
  cases hi : t.task h with
  | idle => rfl
  | _ => simp [State.step, State.take, hi] at htake

/-- The row a run is left with is decided by its account and its flag as the
message that ends it is taken. -/
theorem ComesToEnd.row (hs : Reachable cfg db s₀) (hc : ComesToEnd cfg db s₀ h r m t e) :
    e.rows r = some ((t.lane r).account.outcome (t.run r).cancelRequested m) ∧
      (t.trail r).failedWrites = 0 := by
  obtain ⟨hhome, hlive, hhand⟩ := hc.idle hs
  obtain ⟨as, has⟩ := hc.leads
  obtain ⟨u, bs, htake, hbs⟩ := hc.takes
  have ht : Reachable cfg db t := hs.exec has
  have hu : Reachable cfg db u := .step (.take h) ht htake
  have hsound := (reachable_sound ht).2 r
  obtain ⟨hmr, harr⟩ := hc.ends.runId?
  -- The message is taken, and is all that happens to the run in this step.
  have htaken : t.takes (.take h) r = some m := by
    simp [State.takes, State.takes?, hc.next, hmr]
  have hcourse := (ht.refines_step htake).lane r
  rw [htaken] at hcourse
  obtain ⟨l₁, hstep, -, hlast⟩ := hcourse
  cases hlast harr
  have hwritten : (t.trail r).failedWrites = 0 := by
    have hfirst := hstep.failedWrites
    have hrest : (u.lane r).trail.failedWrites ≤ (e.lane r).trail.failedWrites :=
      hu.lane_along (P := fun l => (u.lane r).trail.failedWrites ≤ l.trail.failedWrites)
        (fun _ _ _ hl hp ht => Nat.le_trans hp ht.failedWrites) (Nat.le_refl _) hbs
    have hend : (e.lane r).trail.failedWrites = 0 := hc.written
    have hstart : (t.lane r).trail.failedWrites = 0 := by omega
    exact hstart
  have hsome : (t.lane r).home.isSome = true := by
    change (t.home r).isSome = true
    rw [hhome]
    rfl
  obtain ⟨hended, hledger⟩ : (u.lane r).Ended ∧ (u.lane r).ledger =
      some ((t.lane r).account.outcome (t.run r).cancelRequested m) := by
    cases hstep with
    | took _ _ htakes =>
        exact htakes.outcome hsound hhand hlive hsome (reachable_booked ht r)
          (reachable_shown ht r) hwritten hc.ends
  -- Nothing more is written of a run that has ended.
  have hclosed : (e.lane r).Closed ((t.lane r).account.outcome (t.run r).cancelRequested m) := by
    refine hu.lane_along (P := Lane.Closed _) (fun _ _ _ hl hp ht => hp.step hl ht) ?_ hbs
    refine ⟨?_, reachable_booked hu r, hended, fun _ => hledger⟩
    rw [hstep.home hhome]
    rfl
  refine ⟨?_, hwritten⟩
  have he : Reachable cfg db e := hu.exec hbs
  exact (Lane.ledger_of_idle (hand_of_left he hc.gone)).symm.trans (hclosed.ledger hc.written)

/-- What is heard of a run from `s₀` on accounts for it, until it ends. -/
theorem ComesToEnd.account (hs : Reachable cfg db s₀) (hhome : (s₀.home r).isSome = true)
    (hc : ComesToEnd cfg db s₀ h r m t e) :
    (t.lane r).account = ((t.trail r).heard.drop (s₀.trail r).heard.length).foldl
      (Account.hear cfg) (s₀.lane r).account := by
  obtain ⟨as, has⟩ := hc.leads
  have hkept : (t.lane r).Booked ∧ (t.lane r).Accounted cfg (s₀.lane r).account
      (s₀.trail r).heard.length := by
    refine hs.lane_along (P := fun l => l.Booked ∧ l.Accounted cfg (s₀.lane r).account
      (s₀.trail r).heard.length) ?_ ⟨reachable_booked hs r, hhome, Nat.le_refl _, fun _ => ?_⟩ has
    · rintro a l l' hl ⟨hb, ha⟩ hstep
      exact ⟨hb.step hl hstep, ha.step hl hb hstep⟩
    · refine .inr ?_
      change _ = ((s₀.trail r).heard.drop _).foldl _ _
      rw [List.drop_length]
      rfl
  rcases hkept.2.account (hc.row hs).2 with hended | hacc
  · -- A run that is live and has nothing in hand has not ended.
    obtain ⟨-, hlive, hhand⟩ := hc.idle hs
    obtain ⟨st, hst, hat⟩ := ((reachable_sound (hs.exec has)).2 r).stage
    cases hended.symm.trans hst
    exact absurd hat (Lane.Sound.not_ended hlive hhand)
  · exact hacc

/-- The cancel is requested: the flag is set at once, and nothing is heard of it
yet. -/
theorem lane_requestCancel (hs : Reachable cfg db s) (hr : r ∈ s.runs) :
    (s.requestCancel r).1.lane r =
      { s.lane r with run := (s.run r).askCancel, cancelCalled := true } := by
  obtain ⟨o, ho, -⟩ := State.still_requestCancel (reachable_inv hs).roll.atHome hr
  rw [ho]
  simp [State.cancelNoted, State.lane]

/-- **Main result.**  Two executions go on from a state in which the broker holds
run `r`, one of them after a cancel of the run has been requested.  If they hear
the same of the run up to the message that ends it, each message with the offer
standing as in the other, and lose none of its writes, then the run ends with the
same status and the same events exactly where the first has a cancel requested
too by the time it takes that message, or the message is the end of a stream
whose `RUN_FINISHED` was seen. -/
theorem late_cancel_iff {t₁ e₁ t₂ e₂ : State} (hs : Reachable cfg db s) (hr : r ∈ s.runs)
    (h₁ : ComesToEnd cfg db s h r m t₁ e₁)
    (h₂ : ComesToEnd cfg db (s.requestCancel r).1 h r m t₂ e₂)
    (hsame : (t₁.trail r).heard = (t₂.trail r).heard) :
    e₁.rows r = e₂.rows r ↔ (t₁.run r).cancelRequested = true ∨
      (∃ k, m = .said r k .finishStream) ∧ (t₁.run r).sawRunFinished = true := by
  have hs₂ : Reachable cfg db (s.requestCancel r).1 := .step (.requestCancel r) hs rfl
  have hlane := lane_requestCancel hs hr
  have hhome : (s.home r).isSome = true :=
    ((reachable_sound hs).2 r).home (decide_eq_true hr)
  have hhome₂ : ((s.requestCancel r).1.home r).isSome = true :=
    (congrArg (fun l : Lane => l.home.isSome) hlane).trans hhome
  -- Both executions start from one account, and add the same to it.
  have hacc : (t₂.lane r).account = (t₁.lane r).account := by
    rw [h₁.account hs hhome, h₂.account hs₂ hhome₂, hsame]
    have htrail : (s.requestCancel r).1.trail r = s.trail r := congrArg Lane.trail hlane
    rw [htrail, hlane]
    rfl
  have hflag : (t₂.run r).cancelRequested = true := by
    obtain ⟨as, has⟩ := h₂.leads
    have hkept : (t₂.lane r).home.isSome = true ∧ (t₂.lane r).run.cancelRequested = true := by
      refine hs₂.lane_along (P := fun l => l.home.isSome = true ∧ l.run.cancelRequested = true)
        ?_ ⟨hhome₂, ?_⟩ has
      · rintro a l l' - ⟨hh, hf⟩ hstep
        obtain ⟨h', hh'⟩ := Option.isSome_iff_exists.1 hh
        exact ⟨by rw [hstep.home hh']; rfl, hstep.cancelRequested hh hf⟩
      · rw [hlane]
        rfl
    exact hkept.2
  rw [(h₁.row hs).1, (h₂.row hs₂).1, hacc, hflag, Option.some.injEq]
  exact (t₁.lane r).account.outcome_eq_iff _ h₁.ends

variable (cfg db) in
/-- The message that ends the run is next. -/
private theorem comesToEnd_now (bs : List Action) (hnext : (t.inbox h).head? = some m)
    (hlive : r ∈ t.live h) (hends : (t.run r).EndedBy r m)
    (hrun : ((system cfg db).exec t (.take h :: bs)).any
      (fun e => decide (r ∉ e.runs) && (e.trail r).failedWrites = 0) = true) :
    ∃ e, (system cfg db).exec t (.take h :: bs) = some e ∧ ComesToEnd cfg db t h r m t e := by
  obtain ⟨e, he, hgone⟩ := (Option.any_eq_true _ _).1 hrun
  simp only [Bool.and_eq_true, decide_eq_true_eq] at hgone
  obtain ⟨u, htake, hbs⟩ := Option.bind_eq_some_iff.1 he
  exact ⟨e, he, ⟨[], rfl⟩, hnext, hlive, hends, ⟨u, bs, htake, hbs⟩, hgone.1, hgone.2⟩

end Executions

/-! ## One run, with and without the cancel -/

namespace Demo

/-- The provider ends its stream, having reported that the run has finished. -/
def spoken : State := State.after config (reported ++ [.finishStream "r" "pk"])

/-- The provider ends its stream, having reported nothing. -/
def broken : State := State.after config (claimed ++ [.finishStream "r" "pk"])

end Demo

/-- A run whose `RUN_FINISHED` was seen ends the same. -/
theorem late_cancel_iff_over :
    ∃ e₁ e₂, (system Demo.config fun _ => none).exec Demo.spoken (Demo.record 0 4) = some e₁ ∧
      (system Demo.config fun _ => none).exec (Demo.spoken.requestCancel "r").1
        (Demo.record 0 4) = some e₂ ∧
      e₁.rows "r" = e₂.rows "r" := by
  have hs : Reachable Demo.config (fun _ => none) Demo.spoken := reachable_after _ _
  have hfin : (Demo.spoken.run "r").sawRunFinished = true := by decide +kernel
  have hclaimed : (Demo.spoken.run "r").claimedBy = some "pk" := by decide +kernel
  have hclaimed₂ : ((Demo.spoken.requestCancel "r").1.run "r").claimedBy = some "pk" := by
    decide +kernel
  obtain ⟨e₁, hrun₁, h₁⟩ := comesToEnd_now (t := Demo.spoken) (h := 0) (r := "r") Demo.config
    (fun _ => none) (Demo.record 0 4).tail rfl (by decide +kernel) (.finish hclaimed)
    (by decide +kernel)
  obtain ⟨e₂, hrun₂, h₂⟩ := comesToEnd_now (t := (Demo.spoken.requestCancel "r").1) (h := 0)
    (r := "r") Demo.config (fun _ => none) (Demo.record 0 4).tail rfl (by decide +kernel)
    (.finish hclaimed₂) (by decide +kernel)
  refine ⟨e₁, e₂, hrun₁, hrun₂, ?_⟩
  exact (late_cancel_iff hs (by decide +kernel) h₁ h₂ rfl).2 (.inr ⟨⟨"pk", rfl⟩, hfin⟩)

/-- A run whose stream breaks off is failed, and cancelled where the cancel is
requested behind the end of the stream. -/
theorem late_cancel_decides :
    Reachable Demo.config (fun _ => none) Demo.broken ∧
      (((system Demo.config fun _ => none).exec Demo.broken (Demo.record 0 4)).bind
        fun e => (e.rows "r").map Row.status) = some .failed ∧
      (((system Demo.config fun _ => none).exec (Demo.broken.requestCancel "r").1
        (Demo.record 0 4)).bind fun e => (e.rows "r").map Row.status) = some .cancelled :=
  ⟨reachable_after _ _, by decide +kernel⟩

end Funduq.Broker
