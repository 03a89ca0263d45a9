import Funduq.Broker.Grammar
import Funduq.Broker.Ledger
import Funduq.Broker.Tasks

/-!
# One cancel, one ask

`request_cancel` says the same thing twice: it sets the run's flag, and it posts
a `_CancelAsked`.  Two places read it.  `_on_cancel_asked` records the request
when the message comes up, unless a verdict is pending; `_on_answered` records it
when it has recorded the claim and finds the flag set.  If the message comes up
before the verdict, the first leaves it to the second.  If the verdict was on the
inbox ahead of it, the second does not wait for the first, and the request is
recorded twice and the provider asked twice to stop.

A run is recorded cancelled at most once where `_on_answered` finds the flag set
only when the message has been read (`State.readsFirst`).
-/

namespace Funduq.Broker

open Funduq.Lib

/-- How often the cancellation of the run was recorded. -/
def Trail.cancels (t : Trail) : Nat := (t.recorded.map Command.kind).count .requestCancel

/-! ## The life of a run -/

namespace Lane

variable {cfg : Config} {r : RunId} {a : Option Message} {l l' : Lane} {m : Message}

theorem cancels_record (l : Lane) (command : Command) (ret : Ret) :
    (l.record cfg command ret).trail.cancels =
      l.trail.cancels + if command.kind = .requestCancel then 1 else 0 := by
  simp [record, Trail.cancels, List.count_singleton]

theorem cancels_of_offering (hst : stageOf l.trail.recorded = some .offering) :
    l.trail.cancels = 0 := by
  have hw : l.trail.recorded.map Command.kind = [.offer] := word_of_stage hst
  rw [Trail.cancels, hw]
  rfl

theorem cancels_of_fresh (hst : stageOf l.trail.recorded = some .fresh) :
    l.trail.cancels = 0 := by
  have hw : l.trail.recorded.map Command.kind = [] := word_of_stage hst
  rw [Trail.cancels, hw]
  rfl

/-- What a step of a run's life is to the count of its cancellations: nothing, the
end of a run nobody has claimed, or one more for a run somebody holds. -/
inductive Counts (r : RunId) (a : Option Message) (l l' : Lane) : Prop where
  | same (h : l'.trail.cancels = l.trail.cancels)
  | ends (h : l.trail.cancels = 0) (h' : l'.trail.cancels ≤ 1) (he : l'.Ended)
      (hh : ∃ ph, l'.hand = some (ph, .settle)) (hl : l.live = true)
  | asks (h : l'.trail.cancels = l.trail.cancels + 1) (hc : l.run.claimedBy.isSome = true)
      (hh : ∃ ph, l'.hand = some (ph, .nothing)) (hl : l.live = true) (hn : l.hand = none)
      (ha : a = some (.cancelAsked r) ∨ a = none ∧ l.run.cancelRequested = true)

theorem Counts.of_other {command : Command} {ret : Ret} (hk : command.kind ≠ .requestCancel)
    (ht : l'.trail.recorded = l.trail.recorded) : Counts r a l (l'.record cfg command ret) := by
  refine .same ?_
  rw [cancels_record, if_neg hk, Trail.cancels, ht]
  rfl

theorem Counts.of_dropped {command : Command} (hl : l.live = true)
    (hst : stageOf l.trail.recorded = some .offering)
    (hn : Stage.offering.next command = some .ended)
    (ht : l'.trail.recorded = l.trail.recorded) :
    Counts r a l (l'.record cfg command .settle) := by
  have hst' : stageOf l'.trail.recorded = some .offering := by
    rw [ht]
    exact hst
  refine .ends (cancels_of_offering hst) ?_ (ended_record hst' hn) ⟨_, rfl⟩ hl
  rw [cancels_record, cancels_of_offering hst']
  split <;> omega

theorem Takes.counts (hs : l.Sound) (hh : l.hand = none) (ht : Takes cfg r m (l.hear m) l') :
    Counts r (some m) l l' := by
  cases ht with
  | ignored _ => exact .same rfl
  | arrived _ _ => exact .same rfl
  | accepted _ _ _ => exact .of_other nofun rfl
  | refused _ _ _ => exact .of_other nofun rfl
  | declined hl ho _ =>
      exact .of_dropped hl (hs.offering_of_open hl hh ho).1 (Stage.next_dropped _ _) rfl
  | lapsed hl ho _ =>
      exact .of_dropped hl (hs.offering_of_open hl hh ho).1 (Stage.next_dropped _ _) rfl
  | @said _ origin report hl _ =>
      refine .of_other ?_ rfl
      cases report <;> exact nofun
  | cancelPending _ _ _ => exact .same rfl
  | cancelled hl _ ho =>
      change l.live = true at hl
      cases hc : l.run.claimedBy with
      | none =>
          have hst := (hs.fresh_of_free hl hh ho hc).1
          have hzero := cancels_of_fresh hst
          change Counts r _ l (Lane.record cfg _ _ (if l.run.claimedBy.isSome then _ else _))
          rw [hc]
          refine .ends hzero ?_ (ended_record hst rfl) ⟨_, rfl⟩ hl
          rw [cancels_record]
          change l.trail.cancels + 1 ≤ 1
          rw [hzero]
      | some k =>
          change Counts r _ l (Lane.record cfg _ _ (if l.run.claimedBy.isSome then _ else _))
          rw [hc]
          refine .asks ?_ (by rw [hc]; rfl) ⟨_, rfl⟩ hl hh (.inl rfl)
          rw [cancels_record]
          rfl
  | failed _ => exact .of_other nofun rfl
  | undelivered _ => exact .same rfl

theorem Step.counts (hs : l.Sound) (ht : Step cfg r a l l') : Counts r a l l' := by
  cases ht with
  | took hm hh ht => exact ht.counts hs hh
  | offered _ _ _ _ => exact .of_other nofun rfl
  | invalid _ _ _ => exact .of_other nofun rfl
  | cancelChecked hl hh hc hr =>
      refine .asks ?_ hc ⟨_, rfl⟩ hl hh (.inr ⟨rfl, hr⟩)
      rw [cancels_record]
      rfl
  | poisoned _ _ => exact .of_other nofun rfl
  | _ => exact .same rfl

/-- A run that has just been claimed has not been cancelled. -/
def ClaimedFirst (l : Lane) : Prop :=
  ∀ ph, l.hand = some (ph, .claimed) → l.trail.cancels = 0

theorem ClaimedFirst.step (hs : l.Sound) (hp : l.ClaimedFirst) (ht : Step cfg r a l l') :
    l'.ClaimedFirst := by
  intro ph hph
  cases ht with
  | opened _ => exact hp ph hph
  | enqueued _ _ _ _ _ => exact hp ph hph
  | cancelCalled _ => exact hp ph hph
  | delivered _ => exact hp ph hph
  | took hm hh ht =>
      have hidle : ∀ l₁ : Lane, l₁.hand = l.hand → l₁.hand ≠ some (ph, .claimed) := by
        intro l₁ h₁ hc
        rw [h₁, hh] at hc
        cases hc
      cases ht with
      | ignored _ => exact absurd hph (hidle _ rfl)
      | arrived _ _ => exact absurd hph (hidle _ rfl)
      | accepted hl ho _ =>
          rw [cancels_record]
          exact cancels_of_offering (hs.offering_of_open hl hh ho).1
      | cancelPending _ _ _ => exact absurd hph (hidle _ rfl)
      | undelivered _ => exact absurd hph (hidle _ rfl)
      | cancelled _ _ _ =>
          obtain ⟨-, hret⟩ := Prod.mk.inj (Option.some.inj hph)
          split at hret <;> cases hret
      | _ => cases hph
  | committed hh _ =>
      cases hph
      exact hp _ hh
  | rolledBack hh =>
      cases hph
      exact hp _ hh
  | streamed hh =>
      cases hph
      exact hp _ hh
  | notified hh =>
      cases hph
      exact hp _ hh
  | _ => cases hph

/-- Nothing is recorded cancelled, and the flag is not set, before
`request_cancel` was called. -/
structure Uncalled (l : Lane) : Prop where
  flag : l.run.cancelRequested = true → l.cancelCalled = true
  cancels : 0 < l.trail.cancels → l.cancelCalled = true

theorem Uncalled.step (hs : l.Sound) (hp : l.Uncalled) (ht : Step cfg r a l l') :
    l'.Uncalled := by
  cases ht.writes hs with
  | opened _ he =>
      subst he
      exact ⟨hp.flag, hp.cancels⟩
  | enqueued hh hf _ _ he =>
      subst he
      refine ⟨fun h => ?_, hp.cancels⟩
      change Run.cancelRequested _ = true at h
      rw [hf] at h
      cases h
  | kept hk =>
      refine ⟨fun h => ?_, fun h => ?_⟩
      · rcases hk.asked h with h | h
        · exact hk.called (hp.flag h)
        · exact h
      · rw [Trail.cancels, hk.recorded] at h
        exact hk.called (hp.cancels h)
  | @entered c x hc =>
      have hasked : x.cancelRequested = true → l'.cancelCalled = true := by
        intro h
        rcases hc.asked h with h | h
        · exact hc.called (hp.flag h)
        · exact h
      refine ⟨fun h => hasked ?_, fun h => ?_⟩
      · rw [hc.run, handle_cancelRequested] at h
        exact h
      · by_cases hk : c = .requestCancel
        · exact hasked (hc.cancels hk)
        · refine hc.called (hp.cancels ?_)
          have hkind : c.kind ≠ .requestCancel := by
            intro he
            cases c <;> first | exact hk rfl | cases he
          rw [Trail.cancels, hc.recorded, List.map_append, List.count_append] at h
          simpa [List.count_singleton, hkind, Trail.cancels] using h
  | lost _ he =>
      subst he
      exact ⟨hp.flag, hp.cancels⟩

/-- The provider will be asked to stop once the write in hand is made. -/
def toAsk (l : Lane) : Nat :=
  match l.hand with
  | some (.writing w, _) => if w.asksToStop then 1 else 0
  | some (.written w, _) => if w.asksToStop then 1 else 0
  | _ => 0

/-- A provider is asked to stop once for each cancellation on the record. -/
def AskedFor (l : Lane) : Prop := l.trail.asked.length + l.toAsk ≤ l.trail.cancels

theorem handle_asksToStop (cfg : Config) (command : Command) (run : Run) {w : Write}
    (hw : (handle cfg command run).2 = some w) (ha : w.asksToStop = true) :
    command.kind = .requestCancel := by
  cases command with
  | requestCancel => rfl
  | offer =>
      cases hw
      cases ha
  | claim =>
      cases hw
      cases ha
  | fail code message =>
      cases hw
      cases ha
  | finishStream =>
      simp only [handle, handleFinish] at hw
      split at hw <;> cases hw <;> cases ha
  | relayEvent event =>
      simp only [handle, handleRelay] at hw
      split at hw
      · cases hw
      · split at hw
        · cases hw
        · cases hw
          cases ha

theorem AskedFor.record {command : Command} {ret : Ret}
    (hp : l.trail.asked.length ≤ l.trail.cancels) : (l.record cfg command ret).AskedFor := by
  unfold AskedFor
  rw [cancels_record]
  have hask : (l.record cfg command ret).toAsk ≤
      if command.kind = .requestCancel then 1 else 0 := by
    unfold toAsk Lane.record
    dsimp only
    cases hw : (handle cfg command l.run).2 with
    | none => exact Nat.zero_le _
    | some w =>
        change (if w.asksToStop = true then 1 else 0) ≤ _
        by_cases ha : w.asksToStop = true
        · rw [if_pos ha, if_pos (handle_asksToStop cfg command l.run hw ha)]
        · rw [if_neg ha]
          exact Nat.zero_le _
  exact Nat.add_le_add hp hask

theorem AskedFor.step (hp : l.AskedFor) (ht : Step cfg r a l l') : l'.AskedFor := by
  have hasked : l.trail.asked.length ≤ l.trail.cancels := Nat.le_trans (Nat.le_add_right ..) hp
  cases ht with
  | opened _ => exact hp
  | enqueued _ _ _ _ _ => exact hp
  | cancelCalled _ => exact hp
  | delivered _ => exact hp
  | took hm hh ht =>
      cases ht with
      | ignored _ => exact hp
      | arrived _ _ => exact hp
      | cancelPending _ _ _ => exact hp
      | undelivered _ => exact hp
      | _ => exact .record hasked
  | offered _ _ _ _ => exact .record hasked
  | invalid _ _ _ => exact .record hasked
  | cancelChecked _ _ _ _ => exact .record hasked
  | poisoned _ _ => exact .record hasked
  | committed hh _ =>
      unfold AskedFor toAsk at hp ⊢
      rw [hh] at hp
      exact hp
  | rolledBack hh => exact hasked
  | @streamed _ w ret hh =>
      have hstops : (l.run.stops w).toList.length ≤ if w.asksToStop = true then 1 else 0 := by
        unfold Run.stops
        split
        · cases l.run.cancelNotify <;> simp
        · simp
      have hp' : l.trail.asked.length + (if w.asksToStop = true then 1 else 0) ≤
          l.trail.cancels := by
        unfold AskedFor toAsk at hp
        rw [hh] at hp
        exact hp
      have hlen : (l.trail.asked ++ (l.run.stops w).toList).length ≤ l.trail.cancels := by
        rw [List.length_append]
        omega
      unfold AskedFor toAsk
      dsimp only
      cases (l.run.stops w).isSome <;> exact hlen
  | notified _ => exact hasked
  | handedOver _ => exact hasked
  | returned _ _ => exact hasked
  | settled _ _ => exact hasked

end Lane

/-! ## The coroutine -/

/-- The code goes on to look whether run `r`, just claimed, is to stop. -/
def Cont.Checks (r : RunId) : Cont → Prop
  | .joining head _ => head = r
  | .cancelCheck x => x = r
  | _ => False

/-- The coroutine will look whether run `r` is to stop before it next waits for a
message. -/
def Task.Checks (r : RunId) : Task → Prop
  | .recording x _ ret k => x = r ∧ ret = .claimed ∨ k.Checks r
  | .at k => k.Checks r
  | _ => False

theorem Ret.placing_ne_claimed {ret : Ret} (h : ret.placing = true) : ret ≠ .claimed := by
  rintro rfl
  cases h

/-- Nothing but a claim makes the coroutine look. -/
theorem Task.Next.checks {t t' : Task} {r : RunId} (hn : Task.Next t t') (hc : t'.Checks r) :
    t.Checks r := by
  cases hn with
  | phase => exact hc
  | back _ => exact .inr hc
  | claimed hk =>
      rcases hk with rfl | rfl | ⟨js, rfl⟩
      · cases hc
      · exact .inl ⟨hc, rfl⟩
      · exact .inl ⟨hc, rfl⟩
  | poisoned =>
      rcases hc with ⟨-, hc⟩ | hc
      · cases hc
      · exact .inr hc
  | offers hp =>
      rcases hc with ⟨-, hc⟩ | hc
      · exact absurd hc (Ret.placing_ne_claimed hp)
      · cases hc
  | passes => exact hc
  | joins hp =>
      rcases hc with ⟨-, hc⟩ | hc
      · exact absurd hc (Ret.placing_ne_claimed hp)
      · exact hc
  | joined => exact hc
  | cancels =>
      rcases hc with ⟨-, hc⟩ | hc
      · cases hc
      · cases hc
  | _ => cases hc

/-- A record handler that comes to work on a run with nothing to do afterwards
was called by the check. -/
theorem Task.Next.cancelCheck {t t' : Task} {r : RunId} {ph : RecordPhase}
    (hn : Task.Next t t') (ht : t.hand r = none) (ht' : t'.hand r = some (ph, .nothing)) :
    t = .at (.cancelCheck r) := by
  cases hn with
  | @phase x _ _ _ _ =>
      by_cases hx : x = r
      · simp [hand, hx] at ht
      · simp [hand, hx] at ht'
  | @poisoned x _ _ _ =>
      by_cases hx : x = r
      · simp [hand, hx] at ht
      · simp [hand, hx] at ht'
  | @offers x _ ret hp =>
      simp only [hand, Option.ite_none_right_eq_some, Option.some.injEq, Prod.mk.injEq] at ht'
      obtain ⟨-, -, rfl⟩ := ht'
      cases hp
  | @joins _ x _ _ ret hp =>
      simp only [hand, Option.ite_none_right_eq_some, Option.some.injEq, Prod.mk.injEq] at ht'
      obtain ⟨-, -, rfl⟩ := ht'
      cases hp
  | @cancels x _ =>
      simp only [hand, Option.ite_none_right_eq_some] at ht'
      rw [ht'.1]
  | _ => cases ht'

/-! ## Every run of the broker -/

/-- The message is the request to cancel run `r`. -/
def Message.asksCancel (r : RunId) : Message → Bool
  | .cancelAsked x => x = r
  | _ => false

namespace State

variable {cfg : Config} {db : RunId → Option Row} {s s' : State} {h : HandlerId} {r : RunId}
  {a : Action} {m : Message}

/-- `request_cancel` is not called again for a run the broker holds. -/
def asksOnce (r : RunId) (s : State) : Action → Bool
  | .requestCancel x => !(x = r && s.runs.contains r && s.cancelCalled r)
  | _ => true

/-- `_on_answered` finds the flag of run `r` set only when the message that goes
with it has been read. -/
def readsFirst (r : RunId) (s : State) : Action → Bool
  | .resume h =>
      match s.task h with
      | .at (.cancelCheck x) =>
          !(x = r && (s.run r).cancelRequested && (s.inbox h).any (Message.asksCancel r))
      | _ => true
  | _ => true

/-- A handler that works on a run it has not just claimed will not look again
whether it is to stop. -/
theorem not_checks_of_recording {ph : RecordPhase} {ret : Ret} {k : Cont} (hs : Inv s)
    (ht : s.task h = .recording r ph ret k) (hret : ret ≠ .claimed) : ¬ (s.task h).Checks r := by
  have hbusy := (hs.desk h).busy
  rw [ht] at hbusy ⊢
  obtain ⟨-, -, hk, hcaller⟩ := hbusy
  rintro (⟨-, hc⟩ | hc)
  · exact hret hc
  · cases k with
    | joining head rest =>
        cases hc
        obtain ⟨tl, hq, -⟩ := hk
        refine hcaller ?_
        rw [hq]
        exact List.mem_cons_self
    | cancelCheck x => exact hcaller
    | _ => exact hc

/-- The requests to cancel run `r` on the inbox of handler `h`. -/
def pendingCancels (s : State) (h : HandlerId) (r : RunId) : Nat :=
  (s.inbox h).countP (Message.asksCancel r)

theorem pendingCancels_pos (hc : 0 < s.pendingCancels h r) : .cancelAsked r ∈ s.inbox h := by
  obtain ⟨m, hm, hr⟩ := List.countP_pos_iff.1 hc
  cases m with
  | cancelAsked x =>
      obtain rfl : x = r := of_decide_eq_true hr
      exact hm
  | _ => cases hr

theorem pendingCancels_requestCancel (s : State) (h : HandlerId) (r : RunId) :
    (s.requestCancel r).1.pendingCancels h r ≤ s.pendingCancels h r + 1 := by
  unfold requestCancel
  split
  · unfold postTo
    dsimp only
    split
    · exact Nat.le_succ _
    · rename_i h' _
      unfold pendingCancels
      by_cases he : h = h'
      · subst he
        change (Function.update s.inbox h (s.inbox h ++ [_]) h).countP _ ≤ _
        rw [Function.update_self, List.countP_append]
        exact Nat.add_le_add_left List.countP_le_length _
      · change (Function.update s.inbox h' (s.inbox h' ++ [_]) h).countP _ ≤ _
        rw [Function.update_of_ne he]
        exact Nat.le_succ _
  · exact Nat.le_succ _

theorem requestCancel_trail (s : State) (r : RunId) : (s.requestCancel r).1.trail = s.trail := by
  unfold requestCancel
  split
  · unfold postTo
    dsimp only
    split <;> rfl
  · rfl

/-- Only `request_cancel` asks. -/
theorem pendingCancels_step (ha : a ≠ .requestCancel r) (hstep : s.step cfg a = some s') :
    s'.pendingCancels h r = (s.unread h a).countP (Message.asksCancel r) := by
  obtain ⟨l, hl, -, hposts⟩ := inbox_step hstep h
  have hnone : l.countP (Message.asksCancel r) = 0 := by
    refine List.countP_eq_zero.2 fun m hm hask => ?_
    have hpost := hposts m hm
    cases m with
    | cancelAsked x =>
        obtain rfl : x = r := of_decide_eq_true hask
        cases a with
        | requestCancel y =>
            cases hpost
            exact ha rfl
        | enqueueRun => cases hpost
        | answerOffer => cases hpost
        | reportEvent => cases hpost
        | finishStream => cases hpost
        | pushFail => cases hpost
        | noteUndelivered => cases hpost
        | clockRunsOut => cases hpost
        | handOverEnds => cases hpost
        | _ => rcases hpost with hpost | ⟨y, hpost⟩ <;> cases hpost
    | _ => cases hask
  rw [pendingCancels, hl, List.countP_append, hnone, Nat.add_zero]

end State

section Reachable

variable {cfg : Config} {db : RunId → Option Row} {s s' : State} {h : HandlerId} {r : RunId}
  {a : Action}

theorem reachable_uncalled (hs : Reachable cfg db s) (r : RunId) : (s.lane r).Uncalled :=
  hs.lane_invariant r ⟨nofun, nofun⟩ fun _ _ _ hl hp ht => hp.step hl ht

theorem reachable_claimedFirst (hs : Reachable cfg db s) (r : RunId) : (s.lane r).ClaimedFirst :=
  hs.lane_invariant r nofun fun _ _ _ hl hp ht => hp.step hl ht

theorem reachable_askedFor (hs : Reachable cfg db s) (r : RunId) : (s.lane r).AskedFor :=
  hs.lane_invariant r (Nat.le_refl 0) fun _ _ _ _ hp ht => hp.step ht

/-- A run that is not live when its `_Queued` is taken has not been claimed. -/
theorem Lane.Sound.unclaimed_of_arriving {l l' : Lane} {x : RunId} (hs : l.Sound)
    (ht : Lane.Step cfg r (some (.queued x)) l l') :
    l'.run.claimedBy = none ∧ l'.trail.recorded = l.trail.recorded ∧ l'.hand = none := by
  cases ht with
  | took _ hh ht =>
      cases ht with
      | ignored h => cases h
      | arrived hl hheld =>
          refine ⟨?_, rfl, hh⟩
          obtain ⟨st, -, hat⟩ := hs.stage
          cases st with
          | fresh =>
              have hu := hat.1
              cases hc : l.run.claimedBy with
              | none => exact hc
              | some k => simp [Run.unoffered, hc] at hu
          | offering => exact absurd (hat.1.symm.trans hl) (by simp)
          | held => exact absurd (hat.1.symm.trans hl) (by simp)
          | ended =>
              rcases hat with ⟨hd, -⟩ | ⟨hd, -⟩
              · exact absurd (hd.symm.trans hheld) (by simp)
              · exact absurd (hd.symm.trans hl) (by simp)

/-- A handler comes to record the cancellation of a run it holds, with no message
about the run taken, only where it looks whether the run is to stop. -/
theorem Reachable.resumes_check {ph : RecordPhase} (hs : Reachable cfg db s)
    (hh : s.home r = some h) (hstep : s.step cfg a = some s') (hm : s.takes a r = none)
    (hn : (s.lane r).hand = none) (hph : (s'.lane r).hand = some (ph, .nothing)) :
    a = .resume h ∧ s.task h = .at (.cancelCheck r) := by
  rw [State.lane_hand hh] at hn
  rw [State.lane_hand (hs.home_kept hh hstep)] at hph
  by_cases hact : a.handler? = some h
  · cases a with
    | take h' =>
        cases hact
        obtain ⟨-, m, hin, ht | ⟨x, ph', ret, hx, ht⟩⟩ := State.take_task hstep
        · rw [ht] at hph
          cases hph
        · rw [ht] at hph
          have hxr : x = r := by
            simp only [Task.hand, Option.ite_none_right_eq_some] at hph
            exact hph.1
          subst hxr
          simp [State.takes, State.takes?, hin, hx, Option.filter] at hm
    | transact h' succeeds =>
        cases hact
        have ht := (State.transact_next hstep).cancelCheck hn hph
        simp [State.step, State.transact, ht] at hstep
    | resume h' =>
        cases hact
        exact ⟨rfl, (State.resume_next hstep).cancelCheck hn hph⟩
    | _ => cases hact
  · have hsame := State.task_of_other (reachable_inv hs) (reachable_sound hs).2 hact
      ((reachable_inv hs).roll.born r h hh) hstep
    rw [hsame, hn] at hph
    cases hph

/-- What a step of the broker is to the count of a run's cancellations. -/
inductive State.Counts (r : RunId) (h : HandlerId) (a : Action) (s s' : State) : Prop where
  | same (hc : (s'.trail r).cancels = (s.trail r).cancels)
  | ends (hc : (s.trail r).cancels = 0) (hc' : (s'.trail r).cancels ≤ 1)
      (he : (s'.lane r).Ended) (hn : ¬ (s'.task h).Checks r)
  | asks (hc : (s'.trail r).cancels = (s.trail r).cancels + 1) (he : ¬ (s.lane r).Ended)
      (hn : ¬ (s'.task h).Checks r)
      (ha : a = .take h ∧ (s.inbox h).head? = some (.cancelAsked r) ∨
        a = .resume h ∧ s.task h = .at (.cancelCheck r) ∧ (s.run r).cancelRequested = true)

theorem Reachable.counts_step (hs : Reachable cfg db s) (hh : s.home r = some h)
    (hstep : s.step cfg a = some s') : State.Counts r h a s s' := by
  have hsound := (reachable_sound hs).2 r
  have href := hs.refines_step hstep
  have hh' := hs.home_kept hh hstep
  have hbusy : ∀ ph ret, (s'.lane r).hand = some (ph, ret) → ret ≠ .claimed →
      ¬ (s'.task h).Checks r := by
    intro ph ret hph hret
    rw [State.lane_hand hh'] at hph
    obtain ⟨k, ht⟩ := Task.recording_of_hand hph
    exact State.not_checks_of_recording href.inv ht hret
  -- One step of the run's life that is all of the broker's step.
  have hone : ∀ {m}, s.takes a r = m → Lane.Step cfg r m (s.lane r) (s'.lane r) →
      State.Counts r h a s s' := by
    intro m hm ht
    cases ht.counts hsound with
    | same hc => exact .same hc
    | ends hc hc' he hph _ =>
        obtain ⟨ph, hph⟩ := hph
        exact .ends hc hc' he (hbusy ph _ hph nofun)
    | asks hc hclaimed hph hl hn ha =>
        obtain ⟨ph, hph⟩ := hph
        have hne : ¬ (s.lane r).Ended := by
          have hst := (hsound.held_of_claimed hl hn hclaimed).1
          intro he
          cases he.symm.trans hst
        refine .asks hc hne (hbusy ph _ hph nofun) ?_
        rcases ha with rfl | ⟨rfl, hflag⟩
        · obtain ⟨h', rfl, hin, -, hhome⟩ := State.takes_home (reachable_inv hs).roll hm
          cases hh.symm.trans hhome
          exact .inl ⟨rfl, hin⟩
        · have hat := hs.resumes_check hh hstep hm hn hph
          exact .inr ⟨hat.1, hat.2, hflag⟩
  have hcourse := href.lane r
  cases hm : s.takes a r with
  | none =>
      rw [hm] at hcourse
      rcases (Relation.reflGen_iff _ _ _).1 hcourse with hsame | ht
      · exact .same (congrArg (fun l => l.trail.cancels) hsame)
      · exact hone hm ht
  | some m =>
      rw [hm] at hcourse
      obtain ⟨l₁, ht, hrest, hl₁⟩ := hcourse
      cases hq : m.arrival? with
      | none =>
          rw [← hl₁ hq] at ht
          exact hone hm ht
      | some x =>
          -- The run has arrived, and may have been offered at once.
          obtain rfl : m = .queued x := by
            cases m <;> cases hq
            rfl
          obtain ⟨hfree, hrec, -⟩ := hsound.unclaimed_of_arriving ht
          have hcancels : l₁.trail.cancels = (s.trail r).cancels := by
            rw [Trail.cancels, hrec]
            rfl
          cases hrest with
          | refl => exact .same hcancels
          | single ht₁ =>
              cases ht₁.counts (hsound.step ht) with
              | same hc => exact .same (hc.trans hcancels)
              | ends hc hc' he hph _ =>
                  obtain ⟨ph, hph⟩ := hph
                  exact .ends (hcancels ▸ hc) hc' he (hbusy ph _ hph nofun)
              | asks _ hclaimed _ _ _ _ =>
                  rw [hfree] at hclaimed
                  cases hclaimed

/-- A step that brings a run in records nothing of it. -/
theorem Reachable.recorded_of_unborn (hs : Reachable cfg db s) (hh : s.home r = none)
    (hstep : s.step cfg a = some s') : (s'.trail r).recorded = [] := by
  have hsound := (reachable_sound hs).2 r
  have hcourse := (hs.refines_step hstep).lane r
  have hm : s.takes a r = none := by
    cases hm : s.takes a r with
    | none => rfl
    | some m =>
        obtain ⟨h, -, -, -, hhome⟩ := State.takes_home (reachable_inv hs).roll hm
        exact absurd (hh.symm.trans hhome) nofun
  rw [hm] at hcourse
  have hrec : (s.trail r).recorded = [] := hsound.unborn hh
  rcases (Relation.reflGen_iff _ _ _).1 hcourse with hsame | ht
  · exact (congrArg (fun l => l.trail.recorded) hsame).trans hrec
  · cases ht.writes hsound with
    | opened _ he => exact (congrArg (fun l => l.trail.recorded) he).trans hrec
    | enqueued _ _ _ _ he => exact (congrArg (fun l => l.trail.recorded) he).trans hrec
    | kept hk => exact hk.recorded.trans hrec
    | entered hc =>
        have hhome := (hsound.step ht).home hc.held
        rw [hc.home] at hhome
        change (s.home r).isSome = true at hhome
        rw [hh] at hhome
        cases hhome
    | lost _ he => exact (congrArg (fun l => l.trail.recorded) he).trans hrec

/-- Where the coroutine will look whether a run is to stop, it would have looked
before, or the run has just been claimed. -/
theorem Reachable.checks_step (hs : Reachable cfg db s) (hh : s.home r = some h)
    (hstep : s.step cfg a = some s') (hc : (s'.task h).Checks r) :
    (s.task h).Checks r ∨ ∃ ph, (s'.lane r).hand = some (ph, .claimed) := by
  by_cases hact : a.handler? = some h
  · cases a with
    | take h' =>
        cases hact
        obtain ⟨-, m, -, ht | ⟨x, ph, ret, -, ht⟩⟩ := State.take_task hstep
        · rw [ht] at hc
          cases hc
        · rw [ht] at hc
          rcases hc with ⟨rfl, rfl⟩ | hc
          · refine .inr ⟨ph, ?_⟩
            rw [State.lane_hand (hs.home_kept hh hstep), ht]
            exact if_pos rfl
          · cases hc
    | transact h' succeeds =>
        cases hact
        exact .inl ((State.transact_next hstep).checks hc)
    | resume h' =>
        cases hact
        exact .inl ((State.resume_next hstep).checks hc)
    | _ => cases hact
  · rw [State.task_of_other (reachable_inv hs) (reachable_sound hs).2 hact
      ((reachable_inv hs).roll.born r h hh) hstep] at hc
    exact .inl hc

/-- A run that will be looked at has not been cancelled. -/
theorem reachable_unchecked (hs : Reachable cfg db s) (r : RunId) :
    ∀ h, s.home r = some h → (s.task h).Checks r → (s.trail r).cancels = 0 := by
  refine System.Reachable.invariant (P := fun s => ∀ h, s.home r = some h →
    (s.task h).Checks r → (s.trail r).cancels = 0) ?_ ?_ hs
  · rintro s rfl h hh
    cases hh
  · intro s a s' hreach ih hstep h hh' hc
    have hs : Reachable cfg db s := hreach
    cases hh : s.home r with
    | none =>
        rw [Trail.cancels, hs.recorded_of_unborn hh hstep]
        rfl
    | some h₀ =>
        cases (hs.home_kept hh hstep).symm.trans hh'
        cases hs.counts_step hh hstep with
        | same hsame =>
            rcases hs.checks_step hh hstep hc with hc | ⟨ph, hph⟩
            · exact hsame.trans (ih h hh hc)
            · exact reachable_claimedFirst (System.Reachable.step a hreach hstep) r ph hph
        | ends _ _ _ hn => exact absurd hc hn
        | asks _ _ hn _ => exact absurd hc hn

/-- One cancel is being asked for at most, and on the record at most. -/
structure State.Once (s : State) (r : RunId) (h : HandlerId) : Prop where
  pending : s.pendingCancels h r ≤ 1
  unread : 0 < s.pendingCancels h r → (s.trail r).cancels = 0 ∨ (s.lane r).Ended
  cancels : (s.trail r).cancels ≤ 1

theorem State.Once.step (hs : Reachable cfg db s) (hh : s.home r = some h) (ho : s.Once r h)
    (hask : s.asksOnce r a = true) (hread : s.readsFirst r a = true)
    (hstep : s.step cfg a = some s') : s'.Once r h := by
  by_cases ha : a = .requestCancel r
  · subst ha
    cases hstep
    by_cases hheld : r ∈ s.runs
    · have hcalled : s.cancelCalled r = false := by
        simpa [asksOnce, hheld] using hask
      have hzero : s.pendingCancels h r = 0 := by
        by_contra hne
        have := (reachable_inv hs).roll.asked h r (pendingCancels_pos (Nat.pos_of_ne_zero hne))
        rw [hcalled] at this
        cases this
      have hnone : (s.trail r).cancels = 0 := by
        by_contra hne
        have := (reachable_uncalled hs r).cancels (Nat.pos_of_ne_zero hne)
        exact absurd (hcalled.symm.trans this) nofun
      have htrail := congrFun (s.requestCancel_trail r) r
      refine ⟨?_, fun _ => .inl (by rw [htrail, hnone]), by rw [htrail, hnone]; exact Nat.zero_le 1⟩
      have := s.pendingCancels_requestCancel h r
      omega
    · unfold requestCancel
      rw [if_neg hheld]
      exact ho
  · have hpending := pendingCancels_step (h := h) ha hstep
    have hle : s'.pendingCancels h r ≤ s.pendingCancels h r := by
      rw [hpending]
      exact (s.unread_sublist h a).countP_le
    have hended := fun he => ((hs.refines_step hstep).lane r).ended ((reachable_sound hs).2 r)
      hh he
    cases hs.counts_step hh hstep with
    | same hc =>
        refine ⟨Nat.le_trans hle ho.pending, fun hpos => ?_, hc ▸ ho.cancels⟩
        rw [hc]
        exact (ho.unread (Nat.lt_of_lt_of_le hpos hle)).imp_right hended
    | ends _ hc' he _ => exact ⟨Nat.le_trans hle ho.pending, fun _ => .inr he, hc'⟩
    | asks hc hne _ hby =>
        -- The message is taken, or it was read before: either way none is left.
        have hgone : s'.pendingCancels h r = 0 ∧ (s.trail r).cancels = 0 := by
          rcases hby with ⟨rfl, hin⟩ | ⟨rfl, ht, hflag⟩
          · obtain ⟨rest, hrest⟩ : ∃ rest, s.inbox h = .cancelAsked r :: rest := by
              cases hi : s.inbox h with
              | nil =>
                  rw [hi] at hin
                  cases hin
              | cons m rest =>
                  rw [hi] at hin
                  exact ⟨rest, by rw [Option.some.inj hin]⟩
            have hcount : s.pendingCancels h r = rest.countP (Message.asksCancel r) + 1 := by
              rw [pendingCancels, hrest]
              exact List.countP_cons_of_pos (decide_eq_true rfl)
            have hleft : s'.pendingCancels h r = rest.countP (Message.asksCancel r) := by
              rw [hpending, State.unread, if_pos rfl, hrest]
              rfl
            have := ho.pending
            refine ⟨by omega, ?_⟩
            rcases ho.unread (by omega) with hz | he
            · exact hz
            · exact absurd he hne
          · refine ⟨?_, reachable_unchecked hs r h hh (by rw [ht]; exact rfl)⟩
            have hnone : s.pendingCancels h r = 0 := by
              simp only [readsFirst, ht, hflag, decide_true, Bool.true_and, Bool.not_eq_true',
                List.any_eq_false] at hread
              exact List.countP_eq_zero.2 hread
            exact Nat.le_zero.1 (hnone ▸ hle)
        refine ⟨by omega, fun hpos => absurd hgone.1 (Nat.ne_of_gt hpos), by omega⟩

/-- The condition on the steps of a run of the broker: `request_cancel` is called
once, and its message is read before the flag is looked at. -/
def State.cancelsInOrder (r : RunId) (s : State) (a : Action) : Bool :=
  s.asksOnce r a && s.readsFirst r a

/-- **One cancel, one ask.**  In every run of the broker in which `request_cancel`
is called once while the broker holds run `r`, and in which `_on_answered` finds
the flag set only when the `_CancelAsked` has been read, one cancellation at most
is recorded, and the provider is asked once at most to stop. -/
theorem cancel_recorded_once
    (hs : ReachableBy cfg db (fun s a => State.cancelsInOrder r s a = true) s) :
    (s.trail r).cancels ≤ 1 ∧ (s.trail r).asked.length ≤ 1 := by
  have hone : ∀ h, s.home r = some h → s.Once r h := by
    refine System.ReachableBy.invariant (P := fun s => ∀ h, s.home r = some h → s.Once r h)
      ?_ ?_ hs
    · rintro s rfl h hh
      cases hh
    · intro s a s' hreach ih hC hstep h hh'
      have hs : Reachable cfg db s := hreach.reachable
      obtain ⟨hask, hread⟩ := (Bool.and_eq_true _ _).mp hC
      cases hh : s.home r with
      | some h₀ =>
          cases (hs.home_kept hh hstep).symm.trans hh'
          exact (ih h hh).step hs hh hask hread hstep
      | none =>
          have hinv := reachable_inv hs
          have hzero : (s'.trail r).cancels = 0 := by
            rw [Trail.cancels, hs.recorded_of_unborn hh hstep]
            rfl
          have hnone : s.pendingCancels h r = 0 := by
            by_contra hne
            have hm := State.pendingCancels_pos (Nat.pos_of_ne_zero hne)
            have := hinv.roll.posted_home h _ r (hinv.roll.unread h _ hm) rfl
            exact absurd (hh.symm.trans this) nofun
          have hle : s'.pendingCancels h r ≤ 1 := by
            by_cases ha : a = .requestCancel r
            · subst ha
              cases hstep
              have := s.pendingCancels_requestCancel h r
              omega
            · rw [State.pendingCancels_step ha hstep]
              have := (s.unread_sublist h a).countP_le (p := Message.asksCancel r)
              unfold State.pendingCancels at hnone
              omega
          exact ⟨hle, fun _ => .inl hzero, by omega⟩
  have hreach : Reachable cfg db s := hs.reachable
  have hcancels : (s.trail r).cancels ≤ 1 := by
    cases hh : s.home r with
    | some h => exact (hone h hh).cancels
    | none =>
        have hrec : (s.trail r).recorded = [] := ((reachable_sound hreach).2 r).unborn hh
        rw [Trail.cancels, hrec]
        exact Nat.zero_le 1
  have hasked : (s.trail r).asked.length + _ ≤ (s.trail r).cancels := reachable_askedFor hreach r
  exact ⟨hcancels, by omega⟩

end Reachable

/-! ## A cancel in the offer window -/

namespace Demo

/-- The handler takes the acceptance of the run, records the claim and then the
cancellation. -/
def claimAndStop : List Action :=
  record 0 4 ++ [.transact 0 true] ++ List.replicate 5 (.resume 0)

/-- The caller cancels the run, and the provider takes it. -/
def stopped : List Action :=
  offered ++ [.requestCancel "r"] ++ look 0 ++ [.answerOffer "r" .accepted "pk"] ++ claimAndStop

/-- The provider takes the run, and the caller cancels it before the handler has
come to either. -/
def stoppedTwice : List Action :=
  offered ++ [.answerOffer "r" .accepted "pk", .requestCancel "r"] ++ claimAndStop ++ record 0 5

end Demo

/-- A run is cancelled in its offer window, taken and asked once to stop. -/
theorem cancel_recorded_once_stopped :
    let s := State.after Demo.config Demo.stopped
    (s.trail "r").cancels = 1 ∧ (s.trail "r").asked = [Demo.link] ∧
      ((s.trail "r").cancels ≤ 1 ∧ (s.trail "r").asked.length ≤ 1) := by
  have hs : ReachableBy Demo.config (fun _ => none)
      (fun s a => State.cancelsInOrder "r" s a = true) (State.after Demo.config Demo.stopped) :=
    System.ReachableBy.runFrom (p := State.cancelsInOrder "r") (fun _ _ h => h) (.init rfl)
      (by decide +kernel)
  exact ⟨by decide +kernel, by decide +kernel, cancel_recorded_once hs⟩

/-- `request_cancel` is called once, while the broker holds the run; the request is
on the record twice, and the provider was asked twice to stop. -/
theorem cancel_recorded_twice :
    let s := State.after Demo.config Demo.stoppedTwice
    Reachable Demo.config (fun _ => none) s ∧
      (system Demo.config fun _ => none).allows (State.asksOnce "r")
        (State.init fun _ => none) Demo.stoppedTwice = true ∧
      s.cancelCalled "r" = true ∧ "r" ∈ s.runs ∧ (s.trail "r").cancels = 2 ∧
      (s.trail "r").asked = [Demo.link, Demo.link] := by
  refine ⟨reachable_after _ _, ?_⟩
  decide +kernel

end Funduq.Broker
