import Funduq.Broker.Offers
import Funduq.Broker.Tasks

/-!
# When a run is offered

A handler comes to `_offer` from three places: `_on_queued`, for a run that joins
the turn at the head of the queue; `_release_interjections`, for the next run
that joins the turn just claimed; `_advance`, for the run at the head of the
queue.  `State.offers?` is the run a step comes there with, and `State.hasPlace`
what `_offer` asks before it takes it on.  A run is offered by such a step and by
no other (`Reachable.offers_step`), and it is handed over only when it was
offered (`reachable_handed`).
-/

namespace Funduq.Broker

open Funduq.Lib

namespace State

variable {cfg : Config} {s s' : State} {h : HandlerId} {r x : RunId} {a : Action}

/-- A connection serves the run's agent, and its provider has room. -/
def hasPlace (s : State) (r : RunId) : Bool :=
  (s.servingOf (s.run r).agent).any fun connection =>
    (s.provider connection.publicKey).hasRoom

/-- The run is addressed to the turn at the head of the queue, which somebody
holds. -/
def joinsTurn (s : State) (h : HandlerId) (r : RunId) : Bool :=
  ((s.queue h).head?).any fun head =>
    (s.run head).claimedBy.isSome ∧ (s.run r).addressedRunId = some head

/-- The queue once `_advance` has dropped what is settled. -/
def unsettled (s : State) (h : HandlerId) : List RunId :=
  (s.queue h).dropWhile fun r => (s.run r).settled

/-- The run a step comes to `_offer` with. -/
def offers? (s : State) : Action → Option RunId
  | .take h =>
      match s.inbox h with
      | .queued r :: _ => if s.joinsTurn h r then some r else none
      | _ => none
  | .resume h =>
      match s.task h with
      | .at .advance => (s.unsettled h).head?.filter fun r => (s.run r).unoffered
      | .at (.joining _ (r :: _)) => some r
      | _ => none
  | _ => none

/-- `_offer`, where there is a place. -/
theorem offer_of_place (cfg : Config) (h : HandlerId) (i : Bool) (k : Cont)
    (hp : s.hasPlace r = true) :
    (∃ e, s.offer cfg h r i k = s.record cfg h r
      (.fail "input_does_not_validate"
        (some ("input does not validate as RunAgentInput: " ++ e))) .settle k) ∨
    ∃ c, s.offer cfg h r i k = (s.placeOffer h r c i).record cfg h r .offer
      (.handOver c ((s.placeOffer h r c i).run r).offerId) k := by
  unfold hasPlace at hp
  unfold offer
  cases hc : s.servingOf (s.run r).agent with
  | none =>
      rw [hc] at hp
      cases hp
  | some c =>
      rw [hc] at hp
      dsimp only
      rw [if_pos (show (s.provider c.publicKey).hasRoom = true from hp)]
      cases cfg.inputError (s.run r).inputJson with
      | some e => exact .inl ⟨e, rfl⟩
      | none => exact .inr ⟨c, rfl⟩

/-- `_offer`, where there is none. -/
theorem offer_of_no_place {i : Bool} {k : Cont} (hp : s.hasPlace r = false) :
    s.offer cfg h r i k = s.noRoom h r i k := by
  unfold hasPlace at hp
  unfold offer
  cases hc : s.servingOf (s.run r).agent with
  | none => rfl
  | some c =>
      rw [hc] at hp
      dsimp only
      have hn : ¬ (s.provider c.publicKey).hasRoom = true := by
        rw [show (s.provider c.publicKey).hasRoom = false from hp]
        exact nofun
      rw [if_neg hn]

/-- Where `_offer` leaves the coroutine at work, there was a place. -/
theorem hasPlace_of_offer {i : Bool} {k : Cont} {ph : RecordPhase} {ret : Ret}
    (ht : ((s.offer cfg h r i k).task h).hand x = some (ph, ret)) :
    x = r ∧ s.hasPlace r = true := by
  cases hp : s.hasPlace r with
  | false =>
      rw [offer_of_no_place hp, noRoom, setTask_task, Function.update_self] at ht
      cases ht
  | true =>
      refine ⟨?_, rfl⟩
      have hrec : ∀ (t : State) (c : Command) (ret' : Ret),
          ((t.record cfg h r c ret' k).task h).hand x = some (ph, ret) → x = r := by
        intro t c ret' hh
        obtain ⟨ph', hph⟩ := record_task cfg t h r c ret' k
        rw [hph] at hh
        simp only [Task.hand, Option.ite_none_right_eq_some] at hh
        exact hh.1.symm
      rcases offer_of_place cfg h i k hp with ⟨e, he⟩ | ⟨c, he⟩
      · rw [he] at ht
        exact hrec _ _ _ ht
      · rw [he] at ht
        exact hrec _ _ _ ht

/-- `_advance` takes on the run at the head of the queue or none. -/
theorem offers_of_advance {ph : RecordPhase} {ret : Ret}
    (ht : ((s.advance cfg h).task h).hand r = some (ph, ret)) :
    (s.unsettled h).head?.filter (fun x => (s.run x).unoffered) = some r ∧
      s.hasPlace r = true := by
  unfold advance at ht
  dsimp only at ht
  have hunsettled : (s.queue h).dropWhile (fun r => (s.run r).settled) = s.unsettled h := rfl
  rw [setQueue_queue, Function.update_self, hunsettled] at ht
  cases hq : (s.unsettled h).head? with
  | none =>
      rw [hq] at ht
      dsimp only at ht
      rw [setTask_task, Function.update_self] at ht
      cases ht
  | some x =>
      rw [hq] at ht
      dsimp only at ht
      split at ht
      · rename_i hu
        obtain ⟨rfl, hp⟩ := hasPlace_of_offer ht
        exact ⟨Option.filter_some_pos hu, hp⟩
      · rw [setTask_task, Function.update_self] at ht
        cases ht

end State

/-- A record handler that comes to work on a run's offer was called by `_advance`
or by `_release_interjections`. -/
theorem Task.Next.placing {t t' : Task} {r : RunId} {ph : RecordPhase} {c : Connection} {n : Nat}
    (hn : Task.Next t t') (ht : t.hand r = none) (ht' : t'.hand r = some (ph, .handOver c n)) :
    t = .at .advance ∨ ∃ head rest, t = .at (.joining head (r :: rest)) := by
  cases hn with
  | @phase x _ _ _ _ =>
      by_cases hx : x = r
      · simp [hand, hx] at ht
      · simp [hand, hx] at ht'
  | @poisoned x _ _ _ =>
      by_cases hx : x = r
      · simp [hand, hx] at ht
      · simp [hand, hx] at ht'
  | offers _ => exact .inl rfl
  | @joins head x rest _ _ _ =>
      simp only [hand, Option.ite_none_right_eq_some] at ht'
      rw [ht'.1]
      exact .inr ⟨head, rest, rfl⟩
  | @cancels x _ =>
      simp only [hand, Option.ite_none_right_eq_some, Option.some.injEq, Prod.mk.injEq] at ht'
      cases ht'.2.2
  | _ => cases ht'

namespace State

variable {cfg : Config} {s s' : State} {h : HandlerId} {r : RunId}

/-- A handler that comes to work on a run's offer has come from `_offer`. -/
theorem offers_of_resume {ph : RecordPhase} {c : Connection} {n : Nat}
    (hstep : s.resume cfg h = some s') (hn : (s.task h).hand r = none)
    (ht : (s'.task h).hand r = some (ph, .handOver c n)) :
    s.offers? (.resume h) = some r ∧ s.hasPlace r = true := by
  rcases (resume_next hstep).placing hn ht with htask | ⟨head, rest, htask⟩
  · simp only [resume, htask, goOn, Option.some.injEq] at hstep
    subst hstep
    simp only [offers?, htask]
    exact offers_of_advance ht
  · simp only [resume, htask, goOn, Option.some.injEq] at hstep
    subst hstep
    simp only [offers?, htask, true_and]
    exact (hasPlace_of_offer ht).2

/-- `t` is `s` to whoever looks for a place. -/
structure SameRoom (s t : State) : Prop where
  run : t.run = s.run
  queue : t.queue = s.queue
  serving : t.serving = s.serving
  providers : t.providers = s.providers

theorem SameRoom.hasPlace {t : State} (ht : s.SameRoom t) (r : RunId) :
    t.hasPlace r = s.hasPlace r := by
  unfold State.hasPlace servingOf provider
  rw [ht.run, ht.serving, ht.providers]

theorem SameRoom.joinsTurn {t : State} (ht : s.SameRoom t) (h : HandlerId) (r : RunId) :
    t.joinsTurn h r = s.joinsTurn h r := by
  unfold State.joinsTurn
  rw [ht.run, ht.queue]

/-- Taking the `_Queued` of a run: it joins the turn at the head of the queue, or
goes to its end. -/
theorem take_queued {rest : List Message} (hin : s.inbox h = .queued r :: rest)
    (hstep : s.take cfg h = some s') :
    ∃ t, s.SameRoom t ∧ s' = if s.joinsTurn h r then t.offer cfg h r true .advance
      else (t.setQueue h (s.queue h ++ [r])).setTask h (.at .advance) := by
  unfold take at hstep
  rw [hin] at hstep
  split at hstep
  · rename_i m rest' hi hin'
    cases hin'
    cases hstep
    obtain ⟨v, hv⟩ : ∃ v : State, v =
        State.hear { s with inbox := Function.update s.inbox h rest } h (.queued r) := ⟨_, rfl⟩
    have hsame : s.SameRoom v := by
      rw [hv]
      exact ⟨rfl, rfl, rfl, rfl⟩
    obtain ⟨t, ht⟩ : ∃ t, t = if r ∈ v.live h then v else v.setLive h (v.live h ++ [r]) :=
      ⟨_, rfl⟩
    have hsame' : s.SameRoom t := by
      rw [ht]
      split
      · exact hsame
      · exact ⟨hsame.run, hsame.queue, hsame.serving, hsame.providers⟩
    refine ⟨t, hsame', ?_⟩
    change onQueued cfg _ h r = _
    rw [← hv, onQueued, ← ht, ← hsame'.joinsTurn, ← hsame'.queue]
    rfl
  · cases hstep

/-- The `_Queued` of a run that is offered at once is taken. -/
theorem offers_of_queued {ph : RecordPhase} {ret : Ret} {rest : List Message}
    (hin : s.inbox h = .queued r :: rest) (hstep : s.take cfg h = some s')
    (ht : (s'.task h).hand r = some (ph, ret)) :
    s.offers? (.take h) = some r ∧ s.hasPlace r = true := by
  obtain ⟨t, hsame, rfl⟩ := take_queued hin hstep
  cases hj : s.joinsTurn h r with
  | true =>
      rw [hj, if_pos rfl] at ht
      simp only [offers?, hin, hj, if_true, true_and]
      exact hsame.hasPlace r ▸ (hasPlace_of_offer ht).2
  | false =>
      rw [hj, if_neg nofun, setTask_task, Function.update_self] at ht
      cases ht

end State

namespace Lane

variable {cfg : Config} {r : RunId} {a : Option Message} {l l' : Lane}

theorem Step.offers (ht : Step cfg r a l l') : l'.trail.offers = l.trail.offers ∨
    a = none ∧ l.hand = none ∧ l.live = true ∧ ∃ ph c n, l'.hand = some (ph, .handOver c n) := by
  cases ht with
  | offered hl hh _ _ => exact .inr ⟨rfl, hh, hl, _, _, _, rfl⟩
  | took _ _ ht => cases ht <;> exact .inl rfl
  | _ => exact .inl rfl

theorem Step.offers_kept (ht : Step cfg r a l l') (ho : l.trail.offers ≠ []) :
    l'.trail.offers ≠ [] := by
  cases ht with
  | offered _ _ _ _ => exact List.append_ne_nil_of_left_ne_nil ho _
  | took _ _ ht => cases ht <;> exact ho
  | _ => exact ho

/-- An offer is on the record once for each note of one. -/
def OffersNoted (l : Lane) : Prop :=
  (l.trail.recorded.map Command.kind).count .offer = l.trail.offers.length

theorem OffersNoted.record {command : Command} {ret : Ret} (hn : l.OffersNoted)
    (hk : command.kind ≠ .offer) (hr : l'.trail.recorded = l.trail.recorded)
    (ho : l'.trail.offers = l.trail.offers) : (l'.record cfg command ret).OffersNoted := by
  unfold OffersNoted Lane.record at *
  dsimp only
  rw [hr, ho, List.map_append, List.count_append, hn]
  simp [hk]

theorem OffersNoted.step (hn : l.OffersNoted) (ht : Step cfg r a l l') : l'.OffersNoted := by
  cases ht with
  | took _ _ ht =>
      cases ht with
      | ignored _ => exact hn
      | arrived _ _ => exact hn
      | accepted _ _ _ => exact hn.record nofun rfl rfl
      | refused _ _ _ => exact hn.record nofun rfl rfl
      | declined _ _ _ => exact hn.record (by unfold Run.dropped; split <;> exact nofun) rfl rfl
      | lapsed _ _ _ => exact hn.record (by unfold Run.dropped; split <;> exact nofun) rfl rfl
      | @said _ _ report _ _ => exact hn.record (by cases report <;> exact nofun) rfl rfl
      | cancelPending _ _ _ => exact hn
      | cancelled _ _ _ => exact hn.record nofun rfl rfl
      | failed _ => exact hn.record nofun rfl rfl
      | undelivered _ => exact hn
  | offered _ _ _ _ =>
      unfold OffersNoted Lane.record at *
      dsimp only
      rw [List.map_append, List.count_append, hn, List.length_append]
      rfl
  | invalid _ _ _ => exact hn.record nofun rfl rfl
  | cancelChecked _ _ _ _ => exact hn.record nofun rfl rfl
  | poisoned _ _ => exact hn.record nofun rfl rfl
  | _ => exact hn

end Lane

section Reachable

variable {cfg : Config} {db : RunId → Option Row} {s s' : State} {h : HandlerId} {r : RunId}
  {a : Action}

/-- **Offers.**  A run is offered by a step that comes to `_offer` with it and finds
a place for it. -/
theorem Reachable.offers_step (hs : Reachable cfg db s) (hstep : s.step cfg a = some s') :
    (s'.trail r).offers = (s.trail r).offers ∨
      s.offers? a = some r ∧ s.hasPlace r = true ∧ ∃ h, a.handler? = some h ∧ s.home r = some h := by
  have hinv := reachable_inv hs
  have hsound := (reachable_sound hs).2 r
  have hcourse := (hs.refines_step hstep).lane r
  cases hm : s.takes a r with
  | none =>
      rw [hm] at hcourse
      rcases (Relation.reflGen_iff _ _ _).1 hcourse with hsame | ht
      · exact .inl (congrArg (fun l => l.trail.offers) hsame)
      rcases ht.offers with ho | ⟨-, hn, hl, ph, c, n, hph⟩
      · exact .inl ho
      right
      obtain ⟨h, hh⟩ := Option.isSome_iff_exists.1 (hsound.home (hsound.held hl))
      change s.home r = some h at hh
      rw [State.lane_hand hh] at hn
      rw [State.lane_hand (hs.home_kept hh hstep)] at hph
      by_cases hact : a.handler? = some h
      · cases a with
        | take h' =>
            cases hact
            obtain ⟨-, m, hin, ht | ⟨x, ph', ret, hx, ht⟩⟩ := State.take_task hstep
            · rw [ht] at hph
              cases hph
            · rw [ht] at hph
              have hxr : x = r := by
                simp only [Task.hand, Option.ite_none_right_eq_some] at hph
                exact hph.1
              subst hxr
              simp [State.takes, State.takes?, hin, hx, Option.filter] at hm
        | transact h' succeeds =>
            cases hact
            rcases (State.transact_next hstep).placing hn hph with ht | ⟨_, _, ht⟩
            · simp [State.step, State.transact, ht] at hstep
            · simp [State.step, State.transact, ht] at hstep
        | resume h' =>
            cases hact
            obtain ⟨ho, hp⟩ := State.offers_of_resume hstep hn hph
            exact ⟨ho, hp, h, rfl, hh⟩
        | _ => cases hact
      · rw [State.task_of_other hinv (reachable_sound hs).2 hact (hinv.roll.born r h hh) hstep,
          hn] at hph
        cases hph
  | some m =>
      rw [hm] at hcourse
      obtain ⟨l₁, ht, hrest, hl₁⟩ := hcourse
      have hfirst : l₁.trail.offers = (s.trail r).offers := by
        rcases ht.offers with ho | ⟨ha, -⟩
        · exact ho
        · cases ha
      cases hq : m.arrival? with
      | none => exact .inl ((congrArg (fun l => l.trail.offers) (hl₁ hq)).trans hfirst)
      | some x =>
          obtain rfl : m = .queued x := by
            cases m <;> cases hq
            rfl
          obtain ⟨h, rfl, hin, hx, hh⟩ := State.takes_home hinv.roll hm
          obtain rfl : x = r := Option.some.inj hx
          rcases (Relation.reflGen_iff _ _ _).1 hrest with hsame | ht₁
          · exact .inl ((congrArg (fun l => l.trail.offers) hsame).trans hfirst)
          rcases ht₁.offers with ho | ⟨-, -, -, ph, c, n, hph⟩
          · exact .inl (ho.trans hfirst)
          right
          rw [State.lane_hand (hs.home_kept hh hstep)] at hph
          obtain ⟨rest, hrest⟩ : ∃ rest, s.inbox h = .queued x :: rest := by
            cases hi : s.inbox h with
            | nil =>
                rw [hi] at hin
                cases hin
            | cons m rest =>
                rw [hi] at hin
                exact ⟨rest, by rw [Option.some.inj hin]⟩
          obtain ⟨ho, hp⟩ := State.offers_of_queued hrest hstep hph
          exact ⟨ho, hp, h, rfl, hh⟩

/-- What was offered stays offered. -/
theorem Reachable.offers_kept (hs : Reachable cfg db s) (hstep : s.step cfg a = some s')
    (ho : (s.trail r).offers ≠ []) : (s'.trail r).offers ≠ [] :=
  (((hs.refines_step hstep).lane r).keeps (A := fun _ _ => True)
    (P := fun l => l.trail.offers ≠ []) (fun _ _ => trivial)
    (fun _ _ _ _ _ hp ht => ht.offers_kept hp) ((reachable_sound hs).2 r) ho).2

/-- An offer is on the record of a run exactly when the run was offered. -/
theorem reachable_offersNoted (hs : Reachable cfg db s) (r : RunId) : (s.lane r).OffersNoted :=
  hs.lane_invariant r rfl fun _ _ _ _ hp ht => hp.step ht

theorem offer_mem_iff (hs : Reachable cfg db s) (r : RunId) :
    .offer ∈ (s.trail r).recorded.map Command.kind ↔ (s.trail r).offers ≠ [] := by
  have hcount : ((s.trail r).recorded.map Command.kind).count .offer =
    (s.trail r).offers.length := reachable_offersNoted hs r
  rw [← List.count_pos_iff, hcount, List.length_pos_iff]

/-- **Hand-overs.**  A run that is being handed over, or was, has been offered. -/
theorem reachable_handed (hs : Reachable cfg db s) :
    (∀ t ∈ s.handovers, (s.trail t.clock.runId).offers ≠ []) ∧
      ∀ r, (s.trail r).delivered ≠ [] → (s.trail r).offers ≠ [] := by
  refine System.Reachable.invariant (P := fun s =>
    (∀ t ∈ s.handovers, (s.trail t.clock.runId).offers ≠ []) ∧
      ∀ r, (s.trail r).delivered ≠ [] → (s.trail r).offers ≠ []) ?_ ?_ hs
  · rintro s rfl
    exact ⟨nofun, fun r hd => absurd rfl hd⟩
  · rintro s a s' hreach ⟨hhand, hdel⟩ hstep
    have hs : Reachable cfg db s := hreach
    refine ⟨fun t ht => hs.offers_kept hstep ?_, fun r hd => hs.offers_kept hstep ?_⟩
    · rcases State.handovers_step hstep ht with ⟨u, hu, hc⟩ | ⟨h, c, n, k, htask, -⟩
      · exact hc ▸ hhand u hu
      · -- The offer the handler has recorded.
        have hlive := State.live_of_recording (reachable_inv hs) htask
        have hhome := (reachable_inv hs).roll.home_of_live hlive
        have hph : (s.lane t.clock.runId).hand = some (.returned, .handOver c n) := by
          rw [State.lane_hand hhome, htask]
          exact if_pos rfl
        rcases ((reachable_sound hs).2 _).of_hand hph with ⟨_, _, -, hst, -⟩ | ⟨hret, -⟩ | ⟨hret, -⟩
        · rw [← offer_mem_iff hs]
          have hw : (s.trail t.clock.runId).recorded.map Command.kind = [.offer] :=
            word_of_stage hst
          rw [hw]
          exact List.mem_singleton_self _
        · simp at hret
        · simp at hret
    · rcases State.delivered_step hstep r with he | ⟨t, ht, rfl⟩
      · exact hdel r (he ▸ hd)
      · exact hhand t ht

end Reachable

end Funduq.Broker
