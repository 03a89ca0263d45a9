import Funduq.Broker.Placing

/-!
# What becomes of a queue

A handler's queue is the handler's alone.  A run comes in at its end, or beside
the turn it joins when `_offer` turns it back; it leaves when it settles, and
when it joins; `_advance` drops what is settled.  Nothing else moves a queue.
-/

namespace Funduq.Broker

open Funduq.Lib

namespace State

variable {cfg : Config} {s s' : State} {h : HandlerId} {r : RunId} {a : Action}

/-! ## What leaves every queue alone -/

theorem foldl_queue {β : Type} {f : State → β → State} (hf : ∀ s b, (f s b).queue = s.queue)
    (l : List β) (s : State) : (l.foldl f s).queue = s.queue := by
  induction l generalizing s with
  | nil => rfl
  | cons b l ih => exact (ih (f s b)).trans (hf s b)

theorem postTo_queue (s : State) (r : RunId) (m : Message) : (s.postTo r m).1.queue = s.queue := by
  unfold postTo
  split <;> rfl

theorem unregisterProvider_queue (s : State) (agents : List AgentRef) :
    (s.unregisterProvider agents).queue = s.queue := by
  refine foldl_queue (fun s ref => ?_) agents s
  unfold unregisterOne
  split
  · rfl
  · exact foldl_queue (fun s r => postTo_queue s r _) _ _

@[simp] theorem noteAbnormal_queue (cfg : Config) (s : State) (k : Key) (event : Counter) :
    (s.noteAbnormal cfg k event).queue = s.queue := by
  unfold noteAbnormal
  dsimp only
  split
  · rfl
  · split
    · rfl
    · exact unregisterProvider_queue _ _

@[simp] theorem release_queue (s : State) (r : RunId) : (s.release r).queue = s.queue := by
  unfold release
  dsimp only
  split
  · rfl
  · split
    · rfl
    · split <;> rfl

@[simp] theorem cancelTimer_queue (s : State) (h : HandlerId) (r : RunId) :
    (s.cancelTimer h r).queue = s.queue := by
  unfold cancelTimer
  split <;> rfl

@[simp] theorem closeOffer_queue (s : State) (h : HandlerId) (r : RunId) :
    (s.closeOffer h r).queue = s.queue :=
  cancelTimer_queue _ h r

@[simp] theorem cancelHandover_queue (s : State) (h : HandlerId) (r : RunId) :
    (s.cancelHandover h r).queue = s.queue := by
  unfold cancelHandover
  dsimp only
  split <;> rfl

@[simp] theorem forget_queue (s : State) (r : RunId) : (s.forget r).queue = s.queue := by
  unfold forget
  dsimp only
  split
  · change State.queue (if _ then _ else _) = _
    split
    · exact release_queue _ r
    · rfl
  · rfl

@[simp] theorem record_queue (cfg : Config) (s : State) (h : HandlerId) (r : RunId)
    (command : Command) (ret : Ret) (k : Cont) :
    (s.record cfg h r command ret k).queue = s.queue := by
  unfold record
  dsimp only
  split
  · split <;> rfl
  · rfl

/-! ## What a handler does to its own -/

theorem settle_queue (s : State) (h : HandlerId) (r : RunId) :
    (s.settle h r).queue h = (s.queue h).erase r := by
  unfold settle
  simp

theorem offer_queue {i : Bool} {k : Cont} :
    (s.offer cfg h r i k).queue h = if s.hasPlace r = true ∨ i = false then s.queue h
      else (s.queue h).insertIdx (min 1 (s.queue h).length) r := by
  cases hp : s.hasPlace r with
  | true =>
      rw [if_pos (.inl rfl)]
      rcases offer_of_place cfg h i k hp with ⟨e, he⟩ | ⟨c, he⟩
      · rw [he, record_queue]
      · rw [he, record_queue]
        rfl
  | false =>
      rw [offer_of_no_place hp, noRoom]
      cases i with
      | true => simp
      | false => simp

theorem onMessage_queue {m : Message} (hm : m.arrival? = none) (s : State) :
    (s.onMessage cfg h m).queue = s.queue := by
  have hcancel : ∀ r, (s.onCancelAsked cfg h r).queue = s.queue := by
    intro r
    unfold onCancelAsked
    split
    · dsimp only
      split
      · rfl
      · split <;> rw [record_queue] <;> rfl
    · rfl
  cases m with
  | queued r => cases hm
  | answered r key answer =>
      simp only [onMessage, onAnswered]
      split
      · have hclosed : ((s.closeOffer h r).release r).queue = s.queue := by
          rw [release_queue, closeOffer_queue]
        cases answer with
        | refusal reason => rw [record_queue, hclosed]
        | declined =>
            dsimp only
            split
            · rw [record_queue, hclosed]
            · rw [record_queue, noteMisdeclared]
              split
              · rw [noteAbnormal_queue, hclosed]
              · exact hclosed
        | accepted =>
            rw [record_queue]
            exact closeOffer_queue s h r
      · rfl
  | said r origin report =>
      simp only [onMessage, onSaid]
      split
      · exact record_queue ..
      · rfl
  | trusted r command =>
      simp only [onMessage, onTrusted]
      split
      · cases command with
        | requestCancel => exact hcancel r
        | fail code message =>
            rw [record_queue, noteAbandoned]
            split
            · rfl
            · split
              · rfl
              · rw [noteAbnormal_queue]
                rfl
        | _ => exact record_queue ..
      · rfl
  | cancelAsked r => exact hcancel r
  | offerLapsed r offerId =>
      simp only [onMessage, onOfferLapsed]
      split
      · have hlapsed : ((((s.closeOffer h r).cancelHandover h r).noteUnanswered cfg r).release
            r).queue = s.queue := by
          rw [release_queue, noteUnanswered]
          split
          · rw [cancelHandover_queue, closeOffer_queue]
          · rw [noteAbnormal_queue, cancelHandover_queue, closeOffer_queue]
        split <;> rw [record_queue, hlapsed]
      · rfl
  | undelivered r =>
      simp only [onMessage, onUndelivered]
      split
      · rfl
      · split
        · rw [setTask_queue, noteAbnormal_queue]
          rfl
        · rfl
  | poke => rfl

/-! ## Every step -/

theorem take_queue {m : Message} {rest : List Message} (hin : s.inbox h = m :: rest)
    (hm : m.arrival? = none) (hstep : s.take cfg h = some s') : s'.queue = s.queue := by
  unfold take at hstep
  rw [hin] at hstep
  split at hstep
  · rename_i hin'
    cases hin'
    cases hstep
    rw [onMessage_queue hm, hear]
    split <;> rfl
  · cases hstep

/-- The queue of a handler that has taken in run `r`. -/
theorem take_queued_queue {rest : List Message} (hin : s.inbox h = .queued r :: rest)
    (hstep : s.take cfg h = some s') :
    s'.queue h = if s.joinsTurn h r = true then
        if s.hasPlace r = true then s.queue h
        else (s.queue h).insertIdx (min 1 (s.queue h).length) r
      else s.queue h ++ [r] := by
  obtain ⟨t, hsame, rfl⟩ := take_queued hin hstep
  cases hj : s.joinsTurn h r with
  | false => exact Function.update_self ..
  | true =>
      rw [if_pos rfl, if_pos rfl, offer_queue, hsame.hasPlace, hsame.queue]
      cases hp : s.hasPlace r with
      | true => rfl
      | false => rfl

theorem transact_queue {succeeds : Bool} (hstep : s.transact h succeeds = some s') :
    s'.queue = s.queue := by
  unfold transact at hstep
  split at hstep
  · split at hstep
    · cases hstep
      rfl
    · cases hstep
      rfl
    · cases hstep
  · cases hstep

/-- The queue of handler `h` once its coroutine has gone on from `t`. -/
inductive Moved.Queue (s : State) (h : HandlerId) : Task → List RunId → Prop where
  | same {t : Task} (ha : t ≠ .at .advance) (hj : ∀ head x rest, t ≠ .at (.joining head (x :: rest))) :
      Moved.Queue s h t (s.queue h)
  | settles {x : RunId} {ret : Ret} {k : Cont} :
      Moved.Queue s h (.recording x .returned ret k) ((s.queue h).erase x)
  | advances : Moved.Queue s h (.at .advance) (s.unsettled h)
  | joins {head x : RunId} {rest : List RunId} (hp : s.hasPlace x = true) :
      Moved.Queue s h (.at (.joining head (x :: rest))) ((s.queue h).erase x)
  | turnsBack {head x : RunId} {rest : List RunId} (hp : s.hasPlace x = false) :
      Moved.Queue s h (.at (.joining head (x :: rest)))
        (((s.queue h).erase x).insertIdx (min 1 ((s.queue h).erase x).length) x)

theorem resume_queue (hstep : s.resume cfg h = some s') :
    Moved.Queue s h (s.task h) (s'.queue h) := by
  unfold resume at hstep
  split at hstep
  · cases hstep
    rename_i x w ret k ht
    rw [ht]
    have hsame : (s.afterWrite h x w ret k).queue = s.queue := by
      unfold afterWrite
      dsimp only
      split
      · split <;> rfl
      · rfl
    rw [hsame]
    exact .same (by simp) (by simp)
  · rename_i ht
    cases hstep
    rw [ht]
    exact .same (by simp) (by simp)
  · rename_i x ret k ht
    cases hstep
    rw [ht]
    cases ret with
    | settle =>
        change Moved.Queue s h _ ((s.settle h x).queue h)
        rw [settle_queue]
        exact .settles
    | handOver c n => exact .same (by simp) (by simp)
    | claimed =>
        simp only [onReturn, afterClaim]
        split
        · split <;> exact .same (by simp) (by simp)
        · rw [setTask_queue, push, postTo_queue]
          exact .same (by simp) (by simp)
    | maybeSettle command =>
        simp only [onReturn, maybeSettle]
        split
        · rw [record_queue]
          exact .same (by simp) (by simp)
        · split
          · rw [setTask_queue, settle_queue]
            exact .settles
          · exact .same (by simp) (by simp)
    | nothing => exact .same (by simp) (by simp)
  · rename_i k ht
    cases hstep
    rw [ht]
    cases k with
    | loop =>
        simp only [goOn]
        split
        · have hsame : (s.leave h).queue = s.queue := by
            unfold leave
            dsimp only
            split <;> rfl
          rw [hsame]
          exact .same (by simp) (by simp)
        · exact .same (by simp) (by simp)
    | advance =>
        have hqueue : (s.advance cfg h).queue h = s.unsettled h := by
          unfold advance
          dsimp only
          split
          · exact Function.update_self ..
          · split
            · rw [offer_queue, if_pos (.inr rfl)]
              exact Function.update_self ..
            · exact Function.update_self ..
        simp only [goOn, hqueue]
        exact .advances
    | joining head rest =>
        cases rest with
        | nil => exact .same (by simp) (by simp)
        | cons x rest =>
            simp only [goOn, offer_queue, setQueue_queue, Function.update_self]
            change Moved.Queue s h _ (if s.hasPlace x = true ∨ true = false then _ else _)
            cases hp : s.hasPlace x with
            | true => exact .joins hp
            | false => exact .turnsBack hp
    | cancelCheck x =>
        simp only [goOn]
        split
        · rw [record_queue]
          exact .same (by simp) (by simp)
        · exact .same (by simp) (by simp)
  · cases hstep

/-- A handler's queue stays as it is while others take their steps. -/
theorem queue_of_other (hs : Inv s) (hl : ∀ r, (s.lane r).Sound) (ha : a.handler? ≠ some h)
    (hstep : s.step cfg a = some s') : s'.queue h = s.queue h := by
  cases hh : a.handler? with
  | none =>
      by_cases hreg : ∃ mapping, a = .registerProvider mapping
      · obtain ⟨mapping, rfl⟩ := hreg
        cases hstep
        obtain ⟨o, ho, -⟩ := quiet_registerProvider s mapping
        rw [ho]
        rfl
      · rw [(outer_step hs hh (fun mapping he => hreg ⟨mapping, he⟩) hstep).queue]
  | some h' =>
      have hne : h ≠ h' := fun he => ha (hh.trans (congrArg some he.symm))
      rcases handler_cases hs hl hh hstep with ⟨t, R, r, w, hread, hm⟩ | hm | hm
      · obtain ⟨_, _, _, rfl, -⟩ := hread.eq
        obtain ⟨o, rfl, -⟩ := hm.did
        exact Function.update_of_ne hne ..
      · obtain ⟨r, ret, k, o, -, -, rfl, -⟩ := settles_eq hs hm
        exact Function.update_of_ne hne ..
      · obtain ⟨-, -, -, rfl⟩ := hm
        unfold leave
        dsimp only
        split <;> rfl

end State

end Funduq.Broker
