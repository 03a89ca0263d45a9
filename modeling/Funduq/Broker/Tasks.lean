import Funduq.Broker.Posts

/-!
# Where a coroutine goes on

The steps of a thread handler's coroutine between two messages, seen only as the
points it can be found at: a record handler goes through its phases and returns,
`_release_interjections` offers one run after another and comes to the check,
`_advance` offers one more and the loop is at its foot.  `Task.Next` is this
flow of control, with what decides a branch left out.
-/

namespace Funduq.Broker

open Funduq.Lib

/-- What `_offer` goes on to once it has recorded something. -/
def Ret.placing : Ret → Bool
  | .settle => true
  | .handOver _ _ => true
  | _ => false

/-- Where the coroutine goes on once what it is at is done. -/
def Task.cont? : Task → Option Cont
  | .recording _ _ _ k => some k
  | .at k => some k
  | _ => none

/-- From one point to the next. -/
inductive Task.Next : Task → Task → Prop where
  /-- A record handler goes on. -/
  | phase {x : RunId} {ph ph' : RecordPhase} {ret : Ret} {k : Cont} :
      Next (.recording x ph ret k) (.recording x ph' ret k)
  /-- The call of `_record` has returned, and was the last thing to do. -/
  | back {x : RunId} {ret : Ret} {k : Cont} (h : ret ≠ .claimed) :
      Next (.recording x .returned ret k) (.at k)
  /-- It has returned to `_on_answered`. -/
  | claimed {x : RunId} {k k' : Cont}
      (h : k' = .advance ∨ k' = .cancelCheck x ∨ ∃ js, k' = .joining x js) :
      Next (.recording x .returned .claimed k) (.at k')
  | poisoned {x : RunId} {command : Command} {ph : RecordPhase} {k : Cont} :
      Next (.recording x .returned (.maybeSettle command) k) (.recording x ph .settle k)
  | rests : Next (.at .loop) .idle
  | leaves : Next (.at .loop) .finished
  | advances : Next (.at .advance) (.at .loop)
  | offers {x : RunId} {ph : RecordPhase} {ret : Ret} (h : ret.placing = true) :
      Next (.at .advance) (.recording x ph ret .loop)
  | passes {head x : RunId} {rest : List RunId} :
      Next (.at (.joining head (x :: rest))) (.at (.joining head rest))
  | joins {head x : RunId} {rest : List RunId} {ph : RecordPhase} {ret : Ret}
      (h : ret.placing = true) :
      Next (.at (.joining head (x :: rest))) (.recording x ph ret (.joining head rest))
  | joined {head : RunId} : Next (.at (.joining head [])) (.at (.cancelCheck head))
  | goesOn {x : RunId} : Next (.at (.cancelCheck x)) (.at .advance)
  | cancels {x : RunId} {ph : RecordPhase} :
      Next (.at (.cancelCheck x)) (.recording x ph .nothing .advance)

namespace State

variable {cfg : Config} {s s' : State} {h : HandlerId} {r : RunId}

theorem record_task (cfg : Config) (s : State) (h : HandlerId) (r : RunId) (command : Command)
    (ret : Ret) (k : Cont) :
    ∃ ph, (s.record cfg h r command ret k).task h = .recording r ph ret k := by
  unfold record
  dsimp only
  split
  · split
    · exact ⟨_, Function.update_self ..⟩
    · exact ⟨_, Function.update_self ..⟩
  · exact ⟨_, Function.update_self ..⟩

theorem offer_task (cfg : Config) (s : State) (h : HandlerId) (r : RunId) (i : Bool) (k : Cont) :
    (s.offer cfg h r i k).task h = .at k ∨ ∃ ph ret, Ret.placing ret = true ∧
      (s.offer cfg h r i k).task h = .recording r ph ret k := by
  have hnone : (s.noRoom h r i k).task h = .at k := Function.update_self ..
  unfold offer
  split
  · exact .inl hnone
  · split
    · split
      · obtain ⟨ph, hph⟩ := record_task cfg s h r (.fail "input_does_not_validate" _) .settle k
        exact .inr ⟨ph, _, rfl, hph⟩
      · obtain ⟨ph, hph⟩ := record_task cfg (s.placeOffer h r _ i) h r .offer _ k
        exact .inr ⟨ph, _, rfl, hph⟩
    · exact .inl hnone

/-- What taking a message leads to. -/
theorem onMessage_task (cfg : Config) (s : State) (h : HandlerId) (m : Message) :
    (s.onMessage cfg h m).task h = .at .advance ∨ ∃ x ph ret, m.runId? = some x ∧
      (s.onMessage cfg h m).task h = .recording x ph ret .advance := by
  have hrecord : ∀ (t : State) (x : RunId) (c : Command) (ret : Ret), m.runId? = some x →
      ∃ x' ph ret', m.runId? = some x' ∧
        (t.record cfg h x c ret .advance).task h = .recording x' ph ret' .advance := by
    intro t x c ret hx
    obtain ⟨ph, hph⟩ := record_task cfg t h x c ret .advance
    exact ⟨x, ph, ret, hx, hph⟩
  have hpass : ∀ t : State, (t.setTask h (.at .advance)).task h = .at .advance :=
    fun t => Function.update_self ..
  have hcancel : ∀ x, m.runId? = some x → (s.onCancelAsked cfg h x).task h = .at .advance ∨
      ∃ x' ph ret, m.runId? = some x' ∧
        (s.onCancelAsked cfg h x).task h = .recording x' ph ret .advance := by
    intro x hx
    unfold onCancelAsked
    split
    · dsimp only
      split
      · exact .inl (hpass _)
      · split
        · exact .inr (hrecord _ x _ _ hx)
        · exact .inr (hrecord _ x _ _ hx)
    · exact .inl (hpass _)
  cases m with
  | queued x =>
      obtain ⟨u, hu⟩ : ∃ u, u = if x ∈ s.live h then s else s.setLive h (s.live h ++ [x]) :=
        ⟨_, rfl⟩
      change (s.onQueued cfg h x).task h = _ ∨ ∃ x' ph ret, Message.runId? (.queued x) = some x' ∧
        (s.onQueued cfg h x).task h = _
      unfold onQueued
      rw [← hu]
      dsimp only
      split
      · rcases offer_task cfg u h x true .advance with ht | ⟨ph, ret, -, ht⟩
        · exact .inl ht
        · exact .inr ⟨x, ph, ret, rfl, ht⟩
      · exact .inl (hpass _)
  | answered x key answer =>
      simp only [onMessage, onAnswered]
      split
      · cases answer with
        | refusal reason => exact .inr (hrecord _ x _ _ rfl)
        | declined =>
            dsimp only
            split
            · exact .inr (hrecord _ x _ _ rfl)
            · exact .inr (hrecord _ x _ _ rfl)
        | accepted => exact .inr (hrecord _ x _ _ rfl)
      · exact .inl (hpass _)
  | said x origin report =>
      simp only [onMessage, onSaid]
      split
      · exact .inr (hrecord _ x _ _ rfl)
      · exact .inl (hpass _)
  | trusted x command =>
      simp only [onMessage, onTrusted]
      split
      · cases command with
        | requestCancel => exact hcancel x rfl
        | _ => exact .inr (hrecord _ x _ _ rfl)
      · exact .inl (hpass _)
  | cancelAsked x => exact hcancel x rfl
  | offerLapsed x offerId =>
      simp only [onMessage, onOfferLapsed]
      split
      · split
        · exact .inr (hrecord _ x _ _ rfl)
        · exact .inr (hrecord _ x _ _ rfl)
      · exact .inl (hpass _)
  | undelivered x => exact .inl (hpass _)
  | poke => exact .inl (hpass _)

theorem take_task (hstep : s.take cfg h = some s') :
    s.task h = .idle ∧ ∃ m, (s.inbox h).head? = some m ∧ (s'.task h = .at .advance ∨
      ∃ x ph ret, m.runId? = some x ∧ s'.task h = .recording x ph ret .advance) := by
  unfold take at hstep
  split at hstep
  · rename_i m rest hi hin
    cases hstep
    exact ⟨hi, m, by rw [hin]; rfl, onMessage_task cfg _ h m⟩
  · cases hstep

theorem transact_next {succeeds : Bool} (hstep : s.transact h succeeds = some s') :
    Task.Next (s.task h) (s'.task h) := by
  unfold transact at hstep
  split at hstep
  · rename_i x w ret k ht
    rw [ht]
    split at hstep
    · cases hstep
      rw [setTask_task, Function.update_self]
      exact .phase
    · cases hstep
      rw [setTask_task, Function.update_self]
      exact .phase
    · cases hstep
  · cases hstep

theorem onReturn_next {ret : Ret} {k : Cont} (s : State) :
    Task.Next (.recording r .returned ret k) ((s.onReturn cfg h r k ret).task h) := by
  have hback : ∀ (t : State) (k' : Cont), (t.setTask h (.at k')).task h = .at k' :=
    fun t k' => Function.update_self ..
  cases ret with
  | settle =>
      simp only [onReturn, hback]
      exact .back (by simp)
  | handOver c n =>
      simp only [onReturn, hback]
      exact .back (by simp)
  | claimed =>
      simp only [onReturn, afterClaim]
      split
      · split
        · rw [hback]
          exact .claimed (.inr (.inl rfl))
        · rw [hback]
          exact .claimed (.inr (.inr ⟨_, rfl⟩))
      · rw [hback]
        exact .claimed (.inl rfl)
  | maybeSettle command =>
      simp only [onReturn, maybeSettle]
      split
      · obtain ⟨ph, hph⟩ := record_task cfg s h r (.fail "provider_sent_malformed_event" _) .settle k
        rw [hph]
        exact .poisoned
      · split
        · rw [hback]
          exact .back (by simp)
        · rw [hback]
          exact .back (by simp)
  | nothing =>
      simp only [onReturn, hback]
      exact .back (by simp)

theorem goOn_next (s : State) (k : Cont) : Task.Next (.at k) ((s.goOn cfg h k).task h) := by
  have hset : ∀ (u : State) (t : Task), (u.setTask h t).task h = t :=
    fun u t => Function.update_self ..
  cases k with
  | loop =>
      simp only [goOn]
      split
      · unfold leave
        rw [hset]
        exact .leaves
      · rw [hset]
        exact .rests
  | advance =>
      simp only [goOn, advance]
      split
      · rw [hset]
        exact .advances
      · rename_i x _
        split
        · rcases offer_task cfg (s.setQueue h _) h x false .loop with ht | ⟨ph, ret, hp, ht⟩
          · rw [ht]
            exact .advances
          · rw [ht]
            exact .offers hp
        · rw [hset]
          exact .advances
  | joining head rest =>
      cases rest with
      | nil =>
          simp only [goOn, hset]
          exact .joined
      | cons x rest =>
          simp only [goOn]
          rcases offer_task cfg (s.setQueue h _) h x true (.joining head rest) with
            ht | ⟨ph, ret, hp, ht⟩
          · rw [ht]
            exact .passes
          · rw [ht]
            exact .joins hp
  | cancelCheck x =>
      simp only [goOn]
      split
      · obtain ⟨ph, hph⟩ := record_task cfg s h x .requestCancel .nothing .advance
        rw [hph]
        exact .cancels
      · rw [hset]
        exact .goesOn

theorem resume_next (hstep : s.resume cfg h = some s') : Task.Next (s.task h) (s'.task h) := by
  unfold resume at hstep
  split at hstep
  · rename_i x w ret k ht
    cases hstep
    rw [ht]
    unfold afterWrite
    dsimp only
    split
    · split
      · rw [setTask_task, Function.update_self]
        exact .phase
      · rw [setTask_task, Function.update_self]
        exact .phase
    · rw [setTask_task, Function.update_self]
      exact .phase
  · rename_i x ret k ht
    cases hstep
    rw [ht, setTask_task, Function.update_self]
    exact .phase
  · rename_i x ret k ht
    cases hstep
    rw [ht]
    exact onReturn_next s
  · rename_i k ht
    cases hstep
    rw [ht]
    exact goOn_next s k
  · cases hstep

end State

end Funduq.Broker
