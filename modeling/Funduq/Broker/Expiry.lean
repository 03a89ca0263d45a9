import Funduq.Broker.Ledger
import Funduq.Broker.Placing

/-!
# Runs nobody took

`expire_queued` gives up on the runs whose agent nobody has served for too long.
It judges in the sweep's own task and only posts its judgement: until the run's
handler has come to the message, the run waits in the queue like any other.  A
provider that registers in between is offered the run if the handler comes to
`_advance` first, and the failure `no_provider_took_it` then ends a run that
somebody was handed.

Where no handler takes on a run whose expiry is still unread
(`State.offersInTime`), a run that failed so was never offered and never
delivered.
-/

namespace Funduq.Broker

open Funduq.Lib

/-- The command is the failure of a run nobody took. -/
def Command.expires : Command → Bool
  | .fail code _ => code = "no_provider_took_it"
  | _ => false

theorem Command.expires_fail {code : String} {message : Option String}
    (h : code ≠ "no_provider_took_it") : (Command.fail code message).expires = false :=
  decide_eq_false h

/-- The message is the expiry of run `r`. -/
def Message.expires (r : RunId) : Message → Bool
  | .trusted x command => x = r && command.expires
  | _ => false

/-- The action pushes an expiry of run `r`, which is the sweep's to do. -/
def Action.pushesExpiry (r : RunId) : Action → Bool
  | .pushFail x code _ => x = r && code = "no_provider_took_it"
  | _ => false

theorem Message.expires_iff {r : RunId} {m : Message} :
    m.expires r = true ↔ ∃ message, m = .trusted r (.fail "no_provider_took_it" message) := by
  cases m with
  | trusted x command =>
      cases command with
      | fail code message =>
          constructor
          · intro h
            simp only [expires, Command.expires, Bool.and_eq_true, decide_eq_true_eq] at h
            obtain ⟨rfl, rfl⟩ := h
            exact ⟨message, rfl⟩
          · rintro ⟨message, ⟨⟩⟩
            simp [expires, Command.expires]
      | _ => simp [expires, Command.expires]
  | _ => simp [expires]

namespace State

variable {cfg : Config} {s s' : State} {h : HandlerId} {r : RunId} {a : Action} {m : Message}

/-- The handler does not take on run `r` while the expiry of the run is on its
inbox, and nobody but the sweep posts one. -/
def offersInTime (r : RunId) (s : State) (a : Action) : Bool :=
  !a.pushesExpiry r && !(s.offers? a = some r && s.hasPlace r &&
    a.handler?.any fun h => (s.inbox h).any (Message.expires r))

/-- An expiry that is on an inbox after a step was there before, or the sweep has
just given up on the run. -/
theorem expiry_step (ha : a.pushesExpiry r = false) (hstep : s.step cfg a = some s')
    (hm : m ∈ s'.inbox h) (he : m.expires r = true) :
    m ∈ s.inbox h ∨ a.handler? = none ∧ r ∈ s.runs ∧
      s.expired cfg.unservedTimeout r = true := by
  obtain ⟨l, hl, -, hposts⟩ := inbox_step hstep h
  rw [hl] at hm
  rcases List.mem_append.1 hm with hold | hnew
  · exact .inl ((s.unread_sublist h a).subset hold)
  have hpost := hposts m hnew
  obtain ⟨message, rfl⟩ := Message.expires_iff.1 he
  cases a with
  | pushFail x code message' =>
      cases hpost
      simp [Action.pushesExpiry] at ha
  | sweep =>
      simp only [step] at hstep
      split at hstep
      · cases hstep
        obtain ⟨l', hl', -, hexp⟩ := (sends_sweep cfg s).inbox h
        have : l' = l := List.append_cancel_left (hl'.symm.trans hl)
        subst this
        rcases hexp _ hnew with hp | ⟨x, hx, hexpired, hp⟩
        · cases hp
        · cases hp
          exact .inr ⟨rfl, hx, hexpired⟩
      · cases hstep
  | enqueueRun => cases hpost
  | answerOffer => cases hpost
  | reportEvent => cases hpost
  | finishStream => cases hpost
  | requestCancel => cases hpost
  | noteUndelivered => cases hpost
  | clockRunsOut => cases hpost
  | handOverEnds => cases hpost
  | _ =>
      rcases hpost with hpost | ⟨x, hpost⟩
      · cases hpost
      · injection hpost with _ hfail
        injection hfail with hcode _
        exact absurd hcode (by decide)

end State

namespace Lane

variable {cfg : Config} {r : RunId} {a : Option Message} {l l' : Lane}

/-- A run that failed because nobody took it was not offered. -/
def Untaken (l : Lane) : Prop :=
  l.trail.recorded.any Command.expires = true → l.trail.offers = []

/-- Whoever expires a run has not seen it offered. -/
def Lapses (r : RunId) (m : Message) (l : Lane) : Prop :=
  m.expires r = true → l.trail.offers = [] ∨ l.Ended

theorem Untaken.record {command : Command} {ret : Ret} (hu : l.Untaken)
    (hc : command.expires = false) (hr : l'.trail.recorded = l.trail.recorded)
    (ho : l'.trail.offers = l.trail.offers) : (l'.record cfg command ret).Untaken := by
  intro hany
  change (l'.trail.recorded ++ [command]).any _ = true at hany
  rw [hr, List.any_append, Bool.or_eq_true] at hany
  refine ho.trans (hu ?_)
  rcases hany with hany | hany
  · exact hany
  · simp [hc] at hany

theorem Untaken.step (hs : l.Sound) (ha : ∀ m, a = some m → Lapses r m l) (hu : l.Untaken)
    (ht : Step cfg r a l l') : l'.Untaken := by
  have hdropped : ∀ code, code ≠ "no_provider_took_it" →
      (l.run.dropped code).expires = false := by
    intro code hcode
    unfold Run.dropped
    split
    · rfl
    · exact Command.expires_fail hcode
  cases ht with
  | took _ hh ht =>
      cases ht with
      | ignored _ => exact hu
      | arrived _ _ => exact hu
      | accepted _ _ _ => exact hu.record rfl rfl rfl
      | refused _ _ _ => exact hu.record (Command.expires_fail (by decide)) rfl rfl
      | declined _ _ _ => exact hu.record (hdropped _ (by decide)) rfl rfl
      | lapsed _ _ _ => exact hu.record (hdropped _ (by decide)) rfl rfl
      | @said _ _ report _ _ => exact hu.record (by cases report <;> rfl) rfl rfl
      | cancelPending _ _ _ => exact hu
      | cancelled _ _ _ => exact hu.record rfl rfl rfl
      | @failed _ code message hl =>
          by_cases hcode : code = "no_provider_took_it"
          · subst hcode
            intro _
            rcases ha _ rfl (Message.expires_iff.2 ⟨message, rfl⟩) with ho | he
            · exact ho
            · obtain ⟨st, hst, hat⟩ := hs.stage
              cases he.symm.trans hst
              exact absurd hat (Sound.not_ended hl hh)
          · exact hu.record (Command.expires_fail hcode) rfl rfl
      | undelivered _ => exact hu
  | offered hl hh hun _ =>
      -- Nothing is on the record yet.
      have hrec : l.trail.recorded = [] :=
        List.map_eq_nil_iff.1 (word_of_stage (hs.fresh_of_unoffered hl hh hun).1)
      intro hany
      change (l.trail.recorded ++ [Command.offer]).any _ = true at hany
      rw [hrec] at hany
      cases hany
  | invalid _ _ _ => exact hu.record (Command.expires_fail (by decide)) rfl rfl
  | cancelChecked _ _ _ _ => exact hu.record rfl rfl rfl
  | poisoned _ _ => exact hu.record (Command.expires_fail (by decide)) rfl rfl
  | _ => exact hu

end Lane

section Reachable

variable {cfg : Config} {db : RunId → Option Row} {s s' : State} {r : RunId} {a : Action}

/-- Where a run's expiry is unread the run has not been offered, or has ended. -/
def State.Expiring (r : RunId) (s : State) : Prop :=
  ∀ h, ∀ m ∈ s.inbox h, m.expires r = true → (s.trail r).offers = [] ∨ (s.lane r).Ended

/-- The sweep gives up on runs nobody was offered. -/
theorem Reachable.unoffered_of_expired (hs : Reachable cfg db s)
    (he : s.expired cfg.unservedTimeout r = true) :
    (s.trail r).offers = [] ∨ (s.lane r).Ended := by
  simp only [State.expired, Bool.and_eq_true, Option.isNone_iff_eq_none] at he
  obtain ⟨⟨⟨hclaimed, hoffered⟩, -⟩, -⟩ := he
  obtain ⟨st, hst, hat⟩ := ((reachable_sound hs).2 r).stage
  cases st with
  | fresh =>
      left
      by_contra hne
      have hmem := (offer_mem_iff hs r).2 hne
      have hw : (s.trail r).recorded.map Command.kind = [] := word_of_stage hst
      rw [hw] at hmem
      cases hmem
  | offering =>
      have hsome : (s.run r).offeredTo.isSome = true := hat.2.2.2.1
      rw [hoffered] at hsome
      cases hsome
  | held =>
      have hsome : (s.run r).claimedBy.isSome = true := hat.2.2.1
      rw [hclaimed] at hsome
      cases hsome
  | ended => exact .inr hst

theorem State.Expiring.step (hs : Reachable cfg db s) (he : s.Expiring r)
    (hC : s.offersInTime r a = true) (hstep : s.step cfg a = some s') : s'.Expiring r := by
  simp only [offersInTime, Bool.and_eq_true, Bool.not_eq_true'] at hC
  obtain ⟨hpush, hread⟩ := hC
  have hinv := reachable_inv hs
  intro h m hm hexp
  have hended : ∀ h, s.home r = some h → (s.lane r).Ended → (s'.lane r).Ended :=
    fun h hh => ((hs.refines_step hstep).lane r).ended ((reachable_sound hs).2 r) hh
  rcases expiry_step hpush hstep hm hexp with hold | ⟨hact, hr, hexpired⟩
  · obtain ⟨message, rfl⟩ := Message.expires_iff.1 hexp
    have hhome := hinv.roll.posted_home h _ r (hinv.roll.unread h _ hold) rfl
    rcases he h _ hold hexp with ho | hend
    · rcases hs.offers_step (r := r) hstep with hsame | ⟨hoffer, hplace, h', hact, hh'⟩
      · exact .inl (hsame.trans ho)
      · -- The handler would take the run on with its expiry unread.
        cases hh'.symm.trans hhome
        have hany : (s.inbox h).any (Message.expires r) = true :=
          List.any_eq_true.2 ⟨_, hold, hexp⟩
        simp [hoffer, hplace, hact, hany] at hread
    · exact .inr (hended h hhome hend)
  · have hhome := ((reachable_sound hs).2 r).home (decide_eq_true hr)
    obtain ⟨h', hh'⟩ := Option.isSome_iff_exists.1 hhome
    rcases hs.unoffered_of_expired hexpired with ho | hend
    · rcases hs.offers_step (r := r) hstep with hsame | ⟨-, -, h'', hact', -⟩
      · exact .inl (hsame.trans ho)
      · exact absurd (hact.symm.trans hact') nofun
    · exact .inr (hended h' hh' hend)

/-- **Nobody took it.**  In every run of the broker in which no handler takes on
run `r` while the run's expiry is unread, and only the sweep expires it, a run
that failed `no_provider_took_it` was never offered and never delivered. -/
theorem expired_run_never_handed
    (hs : ReachableBy cfg db (fun s a => s.offersInTime r a = true) s)
    (hf : (s.trail r).recorded.any Command.expires = true) :
    .offer ∉ (s.trail r).recorded.map Command.kind ∧ (s.trail r).offers = [] ∧
      (s.trail r).delivered = [] := by
  have hreach : Reachable cfg db s := hs.reachable
  have hexp : ∀ s, ReachableBy cfg db (fun s a => s.offersInTime r a = true) s →
      Roll s ∧ s.Expiring r := by
    intro s hs
    refine ⟨(reachable_inv hs.reachable).roll,
      System.ReachableBy.invariant (P := State.Expiring r) ?_ ?_ hs⟩
    · rintro s rfl h m hm
      cases hm
    · intro s a s' hreach he hC hstep
      exact he.step hreach.reachable hC hstep
  have huntaken : (s.lane r).Untaken := by
    refine ReachableBy.lane_invariant (A := Lane.Lapses r) r ?_ nofun
      (fun _ _ _ hl ha hu ht => hu.step hl ha ht) (System.ReachableBy.strengthen hexp hs)
    intro s a m hC hm hme
    obtain ⟨h, rfl, hin, -, -⟩ := State.takes_home hC.2.1 hm
    exact hC.2.2 h m (List.mem_of_mem_head? hin) hme
  have hoffers : (s.trail r).offers = [] := huntaken hf
  refine ⟨fun hmem => (offer_mem_iff hreach r).1 hmem hoffers, hoffers, ?_⟩
  by_contra hd
  exact (reachable_handed hreach).2 r hd hoffers

end Reachable

/-! ## A broker that gives up -/

namespace Demo

/-- A run waits for its agent for as long as the broker waits. -/
def unserved : List Action :=
  [.start] ++ enqueue "r" "t" ++ look 0 ++ [.tick 45]

/-- The sweep gives up on it. -/
def givenUp : List Action := unserved ++ [.sweep] ++ record 0 4

def handover : Handover := ⟨⟨0, "r", 1⟩, link, false⟩

/-- A message is on the handler's inbox when the sweep gives up on the run, and a
provider registers before the handler has come to either. -/
def takenLate : List Action :=
  unserved ++ [.noteUndelivered "r", .sweep, .registerProvider [(agent, link)], .take 0, .resume 0,
    .transact 0 true, .resume 0, .resume 0, .resume 0, .deliver handover] ++ record 0 4

end Demo

/-- A run the sweep gives up on was handed to nobody. -/
theorem expired_run_never_handed_givenUp :
    let s := State.after Demo.config Demo.givenUp
    (s.rows "r").map Row.status = some .failed ∧
      (s.trail "r").recorded.any Command.expires = true ∧
      (.offer ∉ (s.trail "r").recorded.map Command.kind ∧ (s.trail "r").offers = [] ∧
        (s.trail "r").delivered = []) := by
  have hs : ReachableBy Demo.config (fun _ => none)
      (fun s a => s.offersInTime "r" a = true) (State.after Demo.config Demo.givenUp) :=
    System.ReachableBy.runFrom (p := State.offersInTime "r") (fun _ _ h => h) (.init rfl)
      (by decide +kernel)
  have hf : ((State.after Demo.config Demo.givenUp).trail "r").recorded.any Command.expires =
      true := by
    decide +kernel
  exact ⟨by decide +kernel, hf, expired_run_never_handed hs hf⟩

/-- The run fails because nobody took it, and was delivered to a provider. -/
theorem expired_run_handed :
    let s := State.after Demo.config Demo.takenLate
    Reachable Demo.config (fun _ => none) s ∧ "r" ∉ s.runs ∧
      (s.trail "r").recorded.map Command.kind = [.offer, .fail] ∧
      (s.trail "r").recorded.any Command.expires = true ∧
      (s.trail "r").delivered = [Demo.link] := by
  refine ⟨reachable_after _ _, ?_⟩
  decide +kernel

end Funduq.Broker
