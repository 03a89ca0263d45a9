import Funduq.Broker.Arrivals
import Funduq.Broker.Tasks
import Funduq.Broker.Wakeup

/-!
# The runs a link leaves behind

Whoever takes an agent out of service posts a failure to every run of it that somebody
holds, and `_on_answered`, once it has recorded a claim, posts one if the connection the
run was offered over does not serve the agent any more.  A failure that has been posted
to a run somebody holds is recorded when its handler comes to it, unless the run has
ended by then.  `Due` says of a run that one of these is still to come.
-/

namespace Funduq.Broker

open Funduq.Lib

/-! ## The life of a run -/

namespace Lane

variable {cfg : Config} {r : RunId} {a : Option Message} {l l' : Lane}

/-- What a step is to who holds the run and whom its cancellation goes to. -/
inductive Claims (a : Option Message) (l l' : Lane) : Prop where
  | kept (hc : l'.run.claimedBy = l.run.claimedBy)
      (hn : l'.run.cancelNotify = l.run.cancelNotify)
  | enqueued (hh : l.home = none) (hc : l'.run.claimedBy = none)
      (hn : l'.run.cancelNotify = none)
  | accepted {m : Message} {ph : RecordPhase} (ha : a = some m) (hm : m.arrival? = none)
      (hc : l.run.claimedBy = none) (hc' : l'.run.claimedBy.isSome = true)
      (hh : l'.hand = some (ph, .claimed)) (hn : l'.run.cancelNotify = l'.run.offeredConn)

theorem claims_record {command : Command} {ret : Ret} {x : Lane}
    (hc : x.run.claimedBy = l.run.claimedBy) (hn : x.run.cancelNotify = l.run.cancelNotify) :
    Claims a l (x.record cfg command ret) :=
  .kept ((handle_claimedBy cfg command x.run).trans hc)
    ((handle_cancelNotify cfg command x.run).trans hn)

theorem Step.claims (hs : l.Sound) (ht : Step cfg r a l l') : Claims a l l' := by
  cases ht with
  | enqueued hh hf _ _ _ =>
      refine .enqueued hh ?_ ?_
      · rw [hf]
      · rw [hf]
  | took _ hh ht =>
      cases ht with
      | accepted hl ho hk =>
          have hat := (hs.offering_of_open hl hh ho).2
          refine .accepted rfl rfl hat.2.1 ?_ rfl ?_
          · exact congrArg Option.isSome (handle_claimedBy cfg .claim (l.run.accept _))
          · exact (handle_cancelNotify cfg .claim (l.run.accept _)).trans
              (handle_offeredConn cfg .claim (l.run.accept _)).symm
      | refused _ _ _ => exact claims_record rfl rfl
      | declined _ _ _ => exact claims_record rfl rfl
      | lapsed _ _ _ => exact claims_record rfl rfl
      | said _ _ => exact claims_record rfl rfl
      | cancelled _ _ _ => exact claims_record rfl rfl
      | failed _ => exact claims_record rfl rfl
      | _ => exact .kept rfl rfl
  | offered _ _ _ _ => exact claims_record rfl rfl
  | invalid _ _ _ => exact claims_record rfl rfl
  | cancelChecked _ _ _ _ => exact claims_record rfl rfl
  | poisoned _ _ => exact claims_record rfl rfl
  | settled _ _ =>
      obtain ⟨_, h⟩ := l.run.settle_run
      exact .kept (congrArg Run.claimedBy h :) (congrArg Run.cancelNotify h :)
  | _ => exact .kept rfl rfl

/-- A run that was not enqueued is nobody's. -/
theorem Sound.unclaimed_of_unborn (hs : l.Sound) (hh : l.home = none) :
    l.run.claimedBy = none := by
  obtain ⟨st, hst, hat⟩ := hs.stage
  rw [hs.unborn hh] at hst
  cases hst
  cases hc : l.run.claimedBy with
  | none => rfl
  | some k =>
      have hu := hat.1
      simp [Run.unoffered, hc] at hu

/-- A run somebody holds that is not live has ended. -/
theorem Sound.ended_of_claimed (hs : l.Sound) (hc : l.run.claimedBy.isSome = true)
    (hl : l.live = false) : l.Ended := by
  obtain ⟨st, hst, hat⟩ := hs.stage
  cases st with
  | fresh =>
      have hu := hat.1
      cases hcl : l.run.claimedBy <;> simp [Run.unoffered, hcl] at hu hc
  | offering => exact absurd (hl.symm.trans hat.1) (by simp)
  | held => exact absurd (hl.symm.trans hat.1) (by simp)
  | ended => exact hst

/-- A run whose claim is being recorded is somebody's. -/
theorem Sound.claimed_of_checking {ph : RecordPhase} (hs : l.Sound)
    (hh : l.hand = some (ph, .claimed)) : l.run.claimedBy.isSome = true := by
  rcases hs.of_hand hh with ⟨_, _, hret, -⟩ | ⟨-, -, -, hat⟩ | ⟨hret, -⟩
  · cases hret
  · exact hat.2.2.1
  · rcases hret with hret | ⟨hret, -⟩ <;> cases hret

/-- Who holds a run holds it for good. -/
theorem Course.claim_kept (hc : Course cfg r a l l') (hs : l.Sound)
    (hl : l.run.claimedBy.isSome = true) :
    l'.run.claimedBy = l.run.claimedBy ∧ l'.run.cancelNotify = l.run.cancelNotify := by
  refine (hc.keeps (A := fun _ _ => True) (P := fun x => x.run.claimedBy = l.run.claimedBy ∧
    x.run.cancelNotify = l.run.cancelNotify) (fun _ _ => trivial) ?_ hs ⟨rfl, rfl⟩).2
  rintro a x x' hx - ⟨hc, hn⟩ ht
  cases ht.claims hx with
  | kept hc' hn' => exact ⟨hc'.trans hc, hn'.trans hn⟩
  | enqueued hh _ _ =>
      rw [← hc, hx.unclaimed_of_unborn hh] at hl
      cases hl
  | accepted _ _ hc' _ _ _ =>
      rw [← hc, hc'] at hl
      cases hl

/-- A run is nobody's until its claim is being recorded. -/
theorem Course.unclaimed (hc : Course cfg r a l l') (hs : l.Sound)
    (hl : l.run.claimedBy = none) :
    l'.run.claimedBy = none ∨ ∃ ph, l'.hand = some (ph, .claimed) := by
  have hpath : ∀ x : Lane, x.Sound → x.run.claimedBy = none → Path cfg r x l' →
      l'.run.claimedBy = none := by
    intro x hx hn hp
    rcases (Relation.reflGen_iff _ _ _).1 hp with rfl | ht
    · exact hn
    · cases ht.claims hx with
      | kept hc _ => exact hc.trans hn
      | enqueued _ hc _ => exact hc
      | accepted ha _ _ _ _ _ => cases ha
  cases a with
  | none => exact .inl (hpath l hs hl hc)
  | some m =>
      obtain ⟨l₁, ht, hp, hlast⟩ := hc
      cases ht.claims hs with
      | kept hc _ => exact .inl (hpath l₁ (hs.step ht) (hc.trans hl) hp)
      | enqueued _ hc _ => exact .inl (hpath l₁ (hs.step ht) hc hp)
      | accepted ha hm _ _ hh _ =>
          cases ha
          rw [hlast hm]
          exact .inr ⟨_, hh⟩

/-- Whom the run's cancellation goes to is the connection its offer was accepted
over. -/
structure Targeted (l : Lane) : Prop where
  claimed : l.run.cancelNotify.isSome = true → l.run.claimedBy.isSome = true
  checking : ∀ ph, l.hand = some (ph, .claimed) → l.run.cancelNotify = l.run.offeredConn

theorem Targeted.step (hs : l.Sound) (hp : l.Targeted) (ht : Step cfg r a l l') :
    l'.Targeted := by
  refine ⟨fun hn => ?_, fun ph hh => ?_⟩
  · cases ht.claims hs with
    | kept hc hn' =>
        rw [hc]
        exact hp.claimed (hn'.symm ▸ hn)
    | enqueued _ _ hn' =>
        rw [hn'] at hn
        cases hn
    | accepted _ _ _ hc _ _ => exact hc
  · -- Only a claim is recorded with this to come, and nothing else is done meanwhile.
    cases ht with
    | opened _ => exact hp.checking ph hh
    | enqueued hn _ _ _ _ => exact absurd (hh.symm.trans (hs.idle_of_unborn hn)) nofun
    | cancelCalled _ => exact hp.checking ph hh
    | delivered c => exact hp.checking ph hh
    | took _ hnone ht =>
        cases ht with
        | ignored _ => exact absurd (hh.symm.trans hnone) nofun
        | arrived _ _ => exact absurd (hh.symm.trans hnone) nofun
        | accepted _ _ _ =>
            exact (handle_cancelNotify cfg .claim (l.run.accept _)).trans
              (handle_offeredConn cfg .claim (l.run.accept _)).symm
        | cancelPending _ _ _ => exact absurd (hh.symm.trans hnone) nofun
        | cancelled _ _ _ =>
            simp only [record, Option.some.injEq, Prod.mk.injEq] at hh
            have hret := hh.2
            split at hret <;> cases hret
        | undelivered _ => exact absurd (hh.symm.trans hnone) nofun
        | _ => cases hh
    | committed hh' _ =>
        cases hh
        exact hp.checking _ hh'
    | rolledBack hh' =>
        cases hh
        exact hp.checking _ hh'
    | streamed hh' =>
        cases hh
        exact hp.checking _ hh'
    | notified hh' =>
        cases hh
        exact hp.checking _ hh'
    | _ => cases hh

/-- What is on record stays there. -/
theorem Course.recorded_kept {command : Command} (hc : Course cfg r a l l') (hs : l.Sound)
    (hmem : command ∈ l.trail.recorded) : command ∈ l'.trail.recorded := by
  refine (hc.keeps (A := fun _ _ => True) (P := fun l => command ∈ l.trail.recorded)
    (fun _ _ => trivial) ?_ hs hmem).2
  intro a x x' hx _ hmem ht
  cases ht.writes hx with
  | opened _ he =>
      rw [he]
      exact hmem
  | enqueued _ _ _ _ he =>
      rw [he]
      exact hmem
  | kept hk =>
      rw [hk.recorded]
      exact hmem
  | entered he =>
      rw [he.recorded]
      exact List.mem_append_left _ hmem
  | lost _ he =>
      rw [he]
      exact hmem

end Lane

/-! ## A failure on its way -/

namespace State

/-- A failure of the run waits on its handler's inbox. -/
def FailPosted (s : State) (r : RunId) : Prop :=
  ∃ h code message, s.home r = some h ∧ .trusted r (.fail code message) ∈ s.inbox h

/-- A failure is on the run's record. -/
def FailRecorded (s : State) (r : RunId) : Prop :=
  ∃ code message, .fail code message ∈ (s.trail r).recorded

/-- The run was accepted from an offer made over the connection. -/
def AcceptedOver (s : State) (c : Connection) (r : RunId) : Prop :=
  ∃ c', (s.run r).cancelNotify = some c' ∧ c'.ident = c.ident

/-- The run is somebody's, and was accepted from no offer made over the connection. -/
def HeldElsewhere (s : State) (c : Connection) (r : RunId) : Prop :=
  (s.run r).claimedBy.isSome = true ∧ ¬ s.AcceptedOver c r

/-- The connection serves the run's agent as `_on_answered` comes back from recording
the run's claim, and no failure of the run is on its way. -/
def FindsServing (s : State) (c : Connection) (r : RunId) : Action → Prop
  | .resume h => (∃ k, s.task h = .recording r .returned .claimed k) ∧
      (s.servingOf (s.run r).agent).map Connection.ident = some c.ident ∧ ¬ s.FailPosted r
  | _ => False

/-- The run is nobody's yet, or `_on_answered` has still to look who serves its agent,
or its failure has been posted. -/
inductive Due (s : State) (r : RunId) : Prop where
  | unclaimed (hc : (s.run r).claimedBy = none)
  | checking {ph : RecordPhase} (hh : (s.lane r).hand = some (ph, .claimed))
  | posted (hc : (s.run r).claimedBy.isSome = true) (hp : s.FailPosted r)

theorem failPosted_push {h : HandlerId} {r : RunId} {s : State} (hs : s.AtHome)
    (hr : s.runThreads r = some h) (code : String) (message : Option String) :
    (s.push r (.fail code message)).1.FailPosted r := by
  unfold push postTo
  rw [hr]
  refine ⟨h, code, message, hs r h hr, ?_⟩
  change _ ∈ Function.update s.inbox h (s.inbox h ++ [_]) h
  rw [Function.update_self]
  exact List.mem_append_right _ (List.mem_singleton.2 rfl)

end State

section Reachable

variable {cfg : Config} {db : RunId → Option Row} {s s' : State} {h : HandlerId} {r : RunId}
  {a : Action} {c : Connection}

theorem Reachable.claim_kept (hs : Reachable cfg db s) (hc : (s.run r).claimedBy.isSome = true)
    (hstep : s.step cfg a = some s') : (s'.run r).claimedBy = (s.run r).claimedBy ∧
      (s'.run r).cancelNotify = (s.run r).cancelNotify :=
  ((hs.refines_step hstep).lane r).claim_kept ((reachable_sound hs).2 r) hc

theorem reachable_targeted (hs : Reachable cfg db s) (r : RunId) : (s.lane r).Targeted :=
  hs.lane_invariant r ⟨nofun, nofun⟩ fun _ _ _ hl hp ht => hp.step hl ht

/-- The handler takes the failure of a run somebody holds: it records it, or the run has
ended. -/
theorem Reachable.fail_taken {code : String} {message : Option String} (hs : Reachable cfg db s)
    (hc : (s.run r).claimedBy.isSome = true)
    (ht : s.takes a r = some (.trusted r (.fail code message)))
    (hstep : s.step cfg a = some s') : s'.FailRecorded r ∨ (s.lane r).Ended := by
  have hcourse := (hs.refines_step hstep).lane r
  rw [ht] at hcourse
  obtain ⟨l₁, ht, -, hlast⟩ := hcourse
  have hl' : s'.lane r = l₁ := hlast rfl
  cases ht with
  | took _ hh ht =>
      cases ht with
      | ignored hi => exact .inr (((reachable_sound hs).2 r).ended_of_claimed hc hi)
      | failed _ =>
          left
          refine ⟨code, message, ?_⟩
          change _ ∈ (s'.lane r).trail.recorded
          rw [hl']
          exact List.mem_append_right _ (List.mem_singleton.2 rfl)

theorem Reachable.failPosted_step (hs : Reachable cfg db s)
    (hc : (s.run r).claimedBy.isSome = true) (hp : s.FailPosted r)
    (hstep : s.step cfg a = some s') :
    s'.FailPosted r ∨ s'.FailRecorded r ∨ (s.lane r).Ended := by
  obtain ⟨h, code, message, hh, hmem⟩ := hp
  obtain ⟨l, hin, -⟩ := State.inbox_step hstep h
  have hleft : .trusted r (.fail code message) ∈ s.unread h a → s'.FailPosted r := by
    intro hmem
    refine ⟨h, code, message, hs.home_kept hh hstep, ?_⟩
    rw [hin]
    exact List.mem_append_left _ hmem
  by_cases ha : a = .take h
  · subst ha
    cases hbox : s.inbox h with
    | nil =>
        rw [hbox] at hmem
        cases hmem
    | cons m rest =>
        rw [hbox] at hmem
        rcases List.mem_cons.1 hmem with rfl | hmem
        · have htakes : s.takes (.take h) r = some (.trusted r (.fail code message)) := by
            rw [State.takes_of_head hbox]
            exact if_pos rfl
          exact .inr (hs.fail_taken hc htakes hstep)
        · refine .inl (hleft ?_)
          simp only [State.unread, if_true, hbox]
          exact hmem
  · refine .inl (hleft ?_)
    unfold State.unread
    split
    · rename_i h'
      rw [if_neg (fun he => ha (congrArg Action.take he))]
      exact hmem
    · exact hmem

/-! ## The check -/

theorem Reachable.checking_step {ph : RecordPhase} (hs : Reachable cfg db s)
    (hh : (s.lane r).hand = some (ph, .claimed)) (hunposted : ¬ s.FailPosted r)
    (hnot : ¬ s.FindsServing c r a) (hstep : s.step cfg a = some s') :
    s'.Due r ∨ s'.HeldElsewhere c r := by
  obtain ⟨hinv, hl⟩ := reachable_sound hs
  obtain ⟨h, hhome, hhand⟩ := Option.bind_eq_some_iff.1 hh
  obtain ⟨k, htask⟩ := Task.recording_of_hand hhand
  have hclaimed := (hl r).claimed_of_checking hh
  have hkept := hs.claim_kept hclaimed hstep
  -- It is still to come as long as the handler records the claim.
  have hsame : ∀ ph', s'.task h = .recording r ph' .claimed k → s'.Due r := by
    intro ph' ht
    refine State.Due.checking (?_ : _ = some (ph', _))
    rw [State.lane_hand (hs.home_kept hhome hstep), ht]
    exact if_pos rfl
  by_cases ha : a.handler? = some h
  swap
  · refine .inl (hsame ph ?_)
    rw [State.task_of_other hinv hl ha (hinv.roll.born r h hhome) hstep, htask]
  cases a with
  | take h' =>
      cases ha
      cases htask.symm.trans (State.take_task hstep).1
  | transact h' succeeds =>
      cases ha
      have hnext := State.transact_next hstep
      generalize ht : s'.task h = t at hnext
      rw [htask] at hnext
      cases hnext with
      | phase => exact .inl (hsame _ ht)
      | back hne => exact absurd rfl hne
      | claimed _ =>
          change s.transact h succeeds = some s' at hstep
          unfold State.transact at hstep
          rw [htask] at hstep
          cases hstep
  | resume h' =>
      cases ha
      cases ph with
      | returned =>
          have hs' : s.afterClaim h r = s' := by
            change s.resume cfg h = some s' at hstep
            unfold State.resume at hstep
            rw [htask] at hstep
            exact Option.some.inj hstep
          unfold State.afterClaim at hs'
          split at hs'
          · rename_i hserves
            -- The connection the offer went over serves the agent, so it is another one.
            refine .inr ⟨hkept.1 ▸ hclaimed, ?_⟩
            rintro ⟨c', hc', hid⟩
            have hover : (s.run r).offeredConn = some c' :=
              ((reachable_targeted hs r).checking _ hh).symm.trans (hkept.2.symm.trans hc')
            refine hnot ⟨⟨k, htask⟩, hserves.trans ?_, hunposted⟩
            rw [hover, Option.map_some, hid]
          · have hlive := (hl r).live_of_hand hh
            have hthread : s.runThreads r = some h :=
              (hinv.roll.mem_iff h r).1 (List.mem_append_left _ ((State.lane_live hhome).1 hlive))
            have hp := State.failPosted_push hinv.roll.atHome hthread
              "provider_left_holding_it" none
            refine .inl (.posted ?_ ?_)
            · rw [hkept.1]
              exact hclaimed
            · rw [← hs']
              exact hp
      | writing w =>
          change s.resume cfg h = some s' at hstep
          unfold State.resume at hstep
          rw [htask] at hstep
          cases hstep
      | written w =>
          have hnext := State.resume_next hstep
          generalize ht : s'.task h = t at hnext
          rw [htask] at hnext
          cases hnext with
          | phase => exact .inl (hsame _ ht)
      | notifying =>
          have hnext := State.resume_next hstep
          generalize ht : s'.task h = t at hnext
          rw [htask] at hnext
          cases hnext with
          | phase => exact .inl (hsame _ ht)
  | _ => cases ha

theorem Reachable.posted_step (hs : Reachable cfg db s)
    (hc : (s.run r).claimedBy.isSome = true) (hp : s.FailPosted r)
    (hstep : s.step cfg a = some s') :
    s'.Due r ∨ s'.FailRecorded r ∨ s.FailPosted r ∧ (s.lane r).Ended := by
  rcases hs.failPosted_step hc hp hstep with hp' | hrec | hended
  · refine .inl (.posted ?_ hp')
    rw [(hs.claim_kept hc hstep).1]
    exact hc
  · exact .inr (.inl hrec)
  · exact .inr (.inr ⟨hp, hended⟩)

/-- What a run that was due has become. -/
theorem Reachable.due_step (hs : Reachable cfg db s) (hd : s.Due r)
    (hnot : ¬ s.FindsServing c r a) (hstep : s.step cfg a = some s') :
    s'.Due r ∨ s'.HeldElsewhere c r ∨ s'.FailRecorded r ∨
      s.FailPosted r ∧ (s.lane r).Ended := by
  obtain ⟨-, hl⟩ := reachable_sound hs
  cases hd with
  | unclaimed hc =>
      rcases ((hs.refines_step hstep).lane r).unclaimed (hl r) hc with hc | ⟨ph, hh⟩
      · exact .inl (.unclaimed hc)
      · exact .inl (.checking hh)
  | checking hh =>
      by_cases hp : s.FailPosted r
      · exact (hs.posted_step ((hl r).claimed_of_checking hh) hp hstep).imp_right .inr
      · exact (hs.checking_step hh hp hnot hstep).imp_right .inl
  | posted hc hp => exact (hs.posted_step hc hp hstep).imp_right .inr

/-! ## Every run of the broker -/

/-- The run had ended before its failure was taken, somewhere between two states. -/
def EndedFirst (C : State → Action → Prop) (cfg : Config) (db : RunId → Option Row)
    (s t : State) (r : RunId) : Prop :=
  ∃ u, (system cfg db).RunsBy C s u ∧ (system cfg db).RunsBy C u t ∧ u.FailPosted r ∧
    (u.lane r).Ended

theorem Reachable.due_runs {C : State → Action → Prop}
    (hC : ∀ s a, C s a → ¬ s.FindsServing c r a) (hs : Reachable cfg db s) (hd : s.Due r)
    {t : State} (hrun : (system cfg db).RunsBy C s t) :
    t.Due r ∨ t.HeldElsewhere c r ∨ t.FailRecorded r ∨ EndedFirst C cfg db s t r := by
  induction hrun with
  | refl => exact .inl hd
  | @tail u t hrun hlast ih =>
      obtain ⟨a, hc, hstep⟩ := hlast
      have hu : Reachable cfg db u := System.Reachable.runs hs hrun
      rcases ih with hd | ⟨hcl, hother⟩ | ⟨code, message, hrec⟩ | ⟨v, hv, hvu, hp, he⟩
      · rcases hu.due_step hd (hC u a hc) hstep with hd | ho | hr | ⟨hp, he⟩
        · exact .inl hd
        · exact .inr (.inl ho)
        · exact .inr (.inr (.inl hr))
        · exact .inr (.inr (.inr ⟨u, hrun, .single ⟨a, hc, hstep⟩, hp, he⟩))
      · obtain ⟨hcl', hn⟩ := hu.claim_kept hcl hstep
        refine .inr (.inl ⟨hcl'.symm ▸ hcl, ?_⟩)
        rintro ⟨c', hc', hid⟩
        exact hother ⟨c', hn.symm.trans hc', hid⟩
      · refine .inr (.inr (.inl ⟨code, message, ?_⟩))
        exact ((hu.refines_step hstep).lane r).recorded_kept ((reachable_sound hu).2 r) hrec
      · exact .inr (.inr (.inr ⟨v, hv, hvu.tail ⟨a, hc, hstep⟩, hp, he⟩))

/-- Once the inbox of its thread is drained, a run that was due and accepted over the
connection has its failure on record, unless it had ended before. -/
theorem Reachable.due_failed {C : State → Action → Prop}
    (hC : ∀ s a, C s a → ¬ s.FindsServing c r a) (hs : Reachable cfg db s) (hd : s.Due r)
    {t : State} (hrun : (system cfg db).RunsBy C s t) (hacc : t.AcceptedOver c r)
    (hhome : t.home r = some h) (hin : t.inbox h = []) (hw : (t.task h).waits = true) :
    t.FailRecorded r ∨ EndedFirst C cfg db s t r := by
  have ht : Reachable cfg db t := System.Reachable.runs hs hrun
  rcases hs.due_runs hC hd hrun with hdue | ho | hrec | hended
  · cases hdue with
    | unclaimed hc =>
        obtain ⟨c', hc', -⟩ := hacc
        have hcl := (reachable_targeted ht r).claimed (by
          change (t.run r).cancelNotify.isSome = true
          rw [hc']
          rfl)
        change (t.run r).claimedBy.isSome = true at hcl
        rw [hc] at hcl
        cases hcl
    | checking hh =>
        rw [State.lane_hand hhome] at hh
        obtain ⟨k, htask⟩ := Task.recording_of_hand hh
        rw [htask] at hw
        cases hw
    | posted _ hp =>
        obtain ⟨h', code, message, hh', hmem⟩ := hp
        cases hhome.symm.trans hh'
        rw [hin] at hmem
        cases hmem
  · exact absurd hacc ho.2
  · exact .inl hrec
  · exact .inr hended

end Reachable

end Funduq.Broker
