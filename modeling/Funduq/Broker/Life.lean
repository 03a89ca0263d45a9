import Funduq.Broker.Lane

/-!
# The stages of a run's life

A run is fresh, then offered, then held, then ended, and its record says which:
`Stage.next` is the automaton the commands of a record drive, and `stageOf` the
stage a record leads to.  `Lane.Sound` says that a run's record always leads to
a stage and that the run, and whatever its handler has in hand for it, is what
that stage requires (`Lane.At`).  Every step of a run's life keeps it.
-/

namespace Funduq.Broker

open Funduq.Lib

inductive Stage where
  | fresh
  | offering
  | held
  | ended
  deriving DecidableEq, Repr

/-- The stage a command leads to, `none` when it has no place there. -/
def Stage.next : Stage → Command → Option Stage
  | .fresh, .offer => some .offering
  | .fresh, .requestCancel => some .ended
  | .fresh, .fail _ _ => some .ended
  | .offering, .claim => some .held
  | .offering, .requestCancel => some .ended
  | .offering, .fail _ _ => some .ended
  | .held, .relayEvent _ => some .held
  | .held, .requestCancel => some .held
  | .held, .finishStream => some .ended
  | .held, .fail _ _ => some .ended
  | _, _ => none

/-- A run nobody took ends, by its cancellation or by a failure. -/
theorem Stage.next_dropped (run : Run) (code : String) :
    Stage.offering.next (run.dropped code) = some .ended := by
  unfold Run.dropped
  split <;> rfl

/-- The stage a record leads to. -/
def stageOf (recorded : List Command) : Option Stage :=
  recorded.foldlM Stage.next .fresh

theorem stageOf_append_singleton (cs : List Command) (c : Command) :
    stageOf (cs ++ [c]) = (stageOf cs).bind fun st => st.next c := by
  simp [stageOf, List.foldlM_append]

namespace Lane

variable {cfg : Config} {r : RunId} {l l' : Lane} {m : Message} {st : Stage}

/-- What a stage requires of the lane. -/
def At (l : Lane) : Stage → Prop
  | .fresh => l.run.unoffered = true ∧ l.run.poison = none ∧ l.hand = none
  | .offering => l.live = true ∧ l.run.claimedBy = none ∧ l.run.verdictOpen = true ∧
      l.run.offeredTo.isSome = true ∧ l.run.poison = none ∧
      (l.hand = none ∨ ∃ ph c n, l.hand = some (ph, .handOver c n))
  | .held => l.live = true ∧ l.run.verdictOpen = false ∧ l.run.claimedBy.isSome = true ∧
      l.run.offeredTo = l.run.claimedBy ∧
      (l.run.poison = none ∧ (l.hand = none ∨ ∃ ph,
          l.hand = some (ph, .claimed) ∨ l.hand = some (ph, .nothing)) ∨
        ∃ ph e, l.hand = some (ph, .maybeSettle (.relayEvent e)) ∧
          (l.run.poison = none ∨ ph = .returned))
  | .ended => l.held = false ∧ l.live = false ∧ l.hand = none ∨
      l.live = true ∧ ∃ ph, l.hand = some (ph, .settle) ∨
        l.hand = some (ph, .maybeSettle .finishStream) ∧ l.run.poison = none

/-- A held run stays held while its cancellation is recorded. -/
theorem At.recordCancel {x : Run} (hat : l.At .held) (hh : l.hand = none)
    (ho : x.verdictOpen = l.run.verdictOpen)
    (hc : x.claimedBy = l.run.claimedBy)
    (hk : x.offeredTo = l.run.offeredTo)
    (hp : x.poison = l.run.poison) :
    ({ l with run := x }.record cfg .requestCancel .nothing).At .held := by
  obtain ⟨hl, hov, hcl, hoff, hbusy⟩ := hat
  have hpoison : l.run.poison = none := by
    rcases hbusy with hbusy | ⟨ph, e, hbusy, -⟩
    · exact hbusy.1
    · rw [hh] at hbusy
      cases hbusy
  refine ⟨hl, ?_, ?_, ?_, .inl ⟨?_, .inr ⟨_, .inr rfl⟩⟩⟩
  · exact (handle_verdictOpen cfg _ x).trans (ho.trans hov)
  · exact (congrArg Option.isSome (handle_claimedBy cfg _ x)).trans
      ((congrArg Option.isSome hc).trans hcl)
  · exact (handle_offeredTo cfg _ x).trans
      ((hk.trans (hoff.trans hc.symm)).trans (handle_claimedBy cfg _ x).symm)
  · rcases handle_poison cfg .requestCancel x with hp' | ⟨⟨e, he, -⟩, -⟩
    · exact hp'.trans (hp.trans hpoison)
    · cases he

/-- The lane is where its record says it is. -/
structure Sound (l : Lane) : Prop where
  stage : ∃ st, stageOf l.trail.recorded = some st ∧ l.At st
  held : l.live = true → l.held = true
  home : l.held = true → l.home.isSome = true
  unborn : l.home = none → l.trail.recorded = []

namespace Sound

/-- A live run its handler has nothing in hand for has not ended. -/
theorem not_ended (hl : l.live = true) (hh : l.hand = none) : ¬ l.At .ended := by
  rintro (⟨-, hd, -⟩ | ⟨-, ph, hp | ⟨hp, -⟩⟩)
  · rw [hl] at hd
    cases hd
  · rw [hh] at hp
    cases hp
  · rw [hh] at hp
    cases hp

theorem fresh_of_unoffered (hs : l.Sound) (hl : l.live = true) (hh : l.hand = none)
    (hu : l.run.unoffered = true) : stageOf l.trail.recorded = some .fresh ∧ l.At .fresh := by
  obtain ⟨st, hst, hat⟩ := hs.stage
  cases st with
  | fresh => exact ⟨hst, hat⟩
  | offering =>
      obtain ⟨-, -, ho, -⟩ := hat
      simp [Run.unoffered, ho] at hu
  | held =>
      obtain ⟨-, -, hc, -⟩ := hat
      cases hcl : l.run.claimedBy <;> simp [Run.unoffered, hcl] at hu hc
  | ended => exact absurd hat (not_ended hl hh)

theorem offering_of_open (hs : l.Sound) (hl : l.live = true) (hh : l.hand = none)
    (ho : l.run.verdictOpen = true) :
    stageOf l.trail.recorded = some .offering ∧ l.At .offering := by
  obtain ⟨st, hst, hat⟩ := hs.stage
  cases st with
  | fresh =>
      have hu := hat.1
      simp [Run.unoffered, ho] at hu
  | offering => exact ⟨hst, hat⟩
  | held => exact absurd (ho.symm.trans hat.2.1) nofun
  | ended => exact absurd hat (not_ended hl hh)

theorem held_of_claimed (hs : l.Sound) (hl : l.live = true) (hh : l.hand = none)
    (hc : l.run.claimedBy.isSome = true) :
    stageOf l.trail.recorded = some .held ∧ l.At .held := by
  obtain ⟨st, hst, hat⟩ := hs.stage
  cases st with
  | fresh =>
      have hu := hat.1
      cases hcl : l.run.claimedBy <;> simp [Run.unoffered, hcl] at hu hc
  | offering =>
      have hn := hat.2.1
      rw [hn] at hc
      cases hc
  | held => exact ⟨hst, hat⟩
  | ended => exact absurd hat (not_ended hl hh)

/-- A live run nobody has been offered and nobody holds is fresh. -/
theorem fresh_of_free (hs : l.Sound) (hl : l.live = true) (hh : l.hand = none)
    (ho : l.run.verdictOpen = false) (hc : l.run.claimedBy = none) :
    stageOf l.trail.recorded = some .fresh ∧ l.At .fresh := by
  obtain ⟨st, hst, hat⟩ := hs.stage
  cases st with
  | fresh => exact ⟨hst, hat⟩
  | offering => exact absurd (ho.symm.trans hat.2.2.1) nofun
  | held =>
      have hs := hat.2.2.1
      rw [hc] at hs
      cases hs
  | ended => exact absurd hat (not_ended hl hh)

/-- Recording a command that has its place, with the handler and the run where
the new stage requires them. -/
theorem of_record {command : Command} {ret : Ret} {st' : Stage} (hheld : l.held = true)
    (hhome : l.home.isSome = true)
    (hst : stageOf l.trail.recorded = some st) (hn : st.next command = some st')
    (hat : (l.record cfg command ret).At st') : (l.record cfg command ret).Sound where
  stage := by
    refine ⟨st', ?_, hat⟩
    change stageOf (l.trail.recorded ++ [command]) = _
    rw [stageOf_append_singleton, hst]
    exact hn
  held _ := hheld
  home _ := hhome
  unborn hn := by
    change l.home = none at hn
    rw [hn] at hhome
    cases hhome

/-- The run ends by a failure or a cancellation, and is about to be settled. -/
theorem of_ending {command : Command} (hl : l.live = true) (hheld : l.held = true)
    (hhome : l.home.isSome = true) (hst : stageOf l.trail.recorded = some st)
    (hn : st.next command = some .ended) : (l.record cfg command .settle).Sound :=
  of_record hheld hhome hst hn (.inr ⟨hl, _, .inl rfl⟩)

theorem hear (hs : l.Sound) : (l.hear m).Sound where
  stage := by
    obtain ⟨st, hst, hat⟩ := hs.stage
    exact ⟨st, hst, by cases st <;> exact hat⟩
  held := hs.held
  home := hs.home
  unborn := hs.unborn

/-- A change the stages do not see. -/
theorem of_same (hs : l.Sound) (hrec : l'.trail.recorded = l.trail.recorded)
    (hlive : l'.live = l.live) (hheld : l'.held = l.held) (hhome : l'.home = l.home)
    (hat : ∀ st, l.At st → l'.At st) : l'.Sound where
  stage := by
    obtain ⟨st, hst, hst'⟩ := hs.stage
    exact ⟨st, hrec ▸ hst, hat st hst'⟩
  held := by rw [hlive, hheld]; exact hs.held
  home := by rw [hheld, hhome]; exact hs.home
  unborn := by rw [hhome, hrec]; exact hs.unborn

/-- What a message does to a run keeps it sound. -/
theorem takes (hs : l.Sound) (hh : l.hand = none) (ht : Takes cfg r m l l') : l'.Sound := by
  cases ht with
  | ignored _ => exact hs
  | arrived hl hheld =>
      refine ⟨?_, fun _ => hheld, hs.home, hs.unborn⟩
      obtain ⟨st, hst, hat⟩ := hs.stage
      refine ⟨st, hst, ?_⟩
      cases st with
      | fresh => exact hat
      | offering => exact absurd (hl.symm.trans hat.1) nofun
      | held => exact absurd (hl.symm.trans hat.1) nofun
      | ended =>
          obtain ⟨hd, -⟩ | ⟨hd, -⟩ := hat
          · exact absurd (hheld.symm.trans hd) nofun
          · exact absurd (hl.symm.trans hd) nofun
  | accepted hl ho hk =>
      obtain ⟨hst, -, -, -, -, hp, -⟩ := hs.offering_of_open hl hh ho
      have hheld := hs.held hl
      refine of_record hheld (hs.home hheld) hst rfl ?_
      exact ⟨hl, rfl, rfl, hk, .inl ⟨hp, .inr ⟨_, .inl rfl⟩⟩⟩
  | refused hl ho hk =>
      have hst := (hs.offering_of_open hl hh ho).1
      have hheld := hs.held hl
      exact of_ending hl hheld (hs.home hheld) hst rfl
  | declined hl ho hk =>
      have hst := (hs.offering_of_open hl hh ho).1
      have hheld := hs.held hl
      exact of_ending hl hheld (hs.home hheld) hst (Stage.next_dropped _ _)
  | lapsed hl ho hn =>
      have hst := (hs.offering_of_open hl hh ho).1
      have hheld := hs.held hl
      exact of_ending hl hheld (hs.home hheld) hst (Stage.next_dropped _ _)
  | @said _ origin report hl hk =>
      obtain ⟨hst, -, ho, hc, hoff, hbusy⟩ := hs.held_of_claimed hl hh (by rw [hk]; rfl)
      have hheld := hs.held hl
      have hp : l.run.poison = none := by
        rcases hbusy with hbusy | ⟨ph, e, hbusy, -⟩
        · exact hbusy.1
        · rw [hh] at hbusy
          cases hbusy
      cases report with
      | relayEvent e =>
          refine of_record hheld (hs.home hheld) hst rfl ⟨hl, ?_, ?_, ?_, .inr ⟨_, e, rfl, ?_⟩⟩
          · exact (handle_verdictOpen cfg _ l.run).trans ho
          · exact (congrArg Option.isSome (handle_claimedBy cfg _ l.run)).trans hc
          · exact (handle_offeredTo cfg _ l.run).trans
              (hoff.trans (handle_claimedBy cfg _ l.run).symm)
          · rcases handle_poison cfg (.relayEvent e) l.run with hp' | ⟨-, hw⟩
            · exact .inl (hp'.trans hp)
            · exact .inr (by simp [Report.command, hw, startPhase])
      | finishStream =>
          refine of_record hheld (hs.home hheld) hst rfl (.inr ⟨hl, _, .inr ⟨rfl, ?_⟩⟩)
          rcases handle_poison cfg .finishStream l.run with hp' | ⟨⟨e, he, -⟩, -⟩
          · exact hp'.trans hp
          · cases he
  | cancelPending hl _ ho =>
      refine hs.of_same rfl rfl rfl rfl fun st hat => ?_
      cases st <;> exact hat
  | cancelled hl _ ho =>
      have hheld := hs.held hl
      cases hc : l.run.claimedBy with
      | none =>
          have hst := (hs.fresh_of_free hl hh ho hc).1
          exact of_ending hl hheld (hs.home hheld) hst rfl
      | some k =>
          obtain ⟨hst, hat⟩ := hs.held_of_claimed hl hh (by rw [hc]; rfl)
          exact of_record hheld (hs.home hheld) hst rfl (hat.recordCancel hh rfl rfl rfl rfl)
  | failed hl =>
      have hheld := hs.held hl
      obtain ⟨st, hst, hat⟩ := hs.stage
      have hn : ∀ code message, st.next (.fail code message) = some .ended := by
        cases st with
        | ended => exact absurd hat (not_ended hl hh)
        | _ => exact fun _ _ => rfl
      exact of_ending hl hheld (hs.home hheld) hst (hn _ _)
  | undelivered hl =>
      refine hs.of_same rfl rfl rfl rfl fun st hat => ?_
      cases st <;> exact hat

/-- While a record handler is at work the stage is the one its caller belongs
to. -/
theorem of_hand {ph : RecordPhase} {ret : Ret} (hs : l.Sound) (hh : l.hand = some (ph, ret)) :
    (∃ c n, ret = .handOver c n ∧ stageOf l.trail.recorded = some .offering ∧
      l.At .offering) ∨
    ((ret = .claimed ∨ ret = .nothing ∨ ∃ e, ret = .maybeSettle (.relayEvent e)) ∧
      (l.run.poison = none ∨ ph = .returned ∧ ∃ e, ret = .maybeSettle (.relayEvent e)) ∧
      stageOf l.trail.recorded = some .held ∧ l.At .held) ∨
    ((ret = .settle ∨ ret = .maybeSettle .finishStream ∧ l.run.poison = none) ∧
      l.live = true ∧ stageOf l.trail.recorded = some .ended) := by
  obtain ⟨st, hst, hat⟩ := hs.stage
  cases st with
  | fresh => exact absurd (hh.symm.trans hat.2.2) nofun
  | offering =>
      have hat' := hat
      obtain ⟨-, -, -, -, -, hn | ⟨ph', c, n, hn⟩⟩ := hat
      · exact absurd (hh.symm.trans hn) nofun
      · cases hh.symm.trans hn
        exact .inl ⟨c, n, rfl, hst, hat'⟩
  | held =>
      refine .inr (.inl ?_)
      have hat' := hat
      obtain ⟨-, -, -, -, ⟨hp, hn | ⟨ph', hn | hn⟩⟩ | ⟨ph', e, hn, hp⟩⟩ := hat
      · exact absurd (hh.symm.trans hn) nofun
      · cases hh.symm.trans hn
        exact ⟨.inl rfl, .inl hp, hst, hat'⟩
      · cases hh.symm.trans hn
        exact ⟨.inr (.inl rfl), .inl hp, hst, hat'⟩
      · cases hh.symm.trans hn
        exact ⟨.inr (.inr ⟨e, rfl⟩), hp.imp_right fun hp => ⟨hp, e, rfl⟩, hst, hat'⟩
  | ended =>
      refine .inr (.inr ?_)
      obtain ⟨-, -, hn⟩ | ⟨hl, ph', hn | ⟨hn, hp⟩⟩ := hat
      · exact absurd (hh.symm.trans hn) nofun
      · cases hh.symm.trans hn
        exact ⟨.inl rfl, hl, hst⟩
      · cases hh.symm.trans hn
        exact ⟨.inr ⟨rfl, hp⟩, hl, hst⟩

/-- A run its handler has something in hand for is live. -/
theorem live_of_hand (hs : l.Sound) {ph : RecordPhase} {ret : Ret}
    (hh : l.hand = some (ph, ret)) : l.live = true := by
  rcases hs.of_hand hh with ⟨_, _, -, -, hat⟩ | ⟨-, -, -, hat⟩ | ⟨-, hl, -⟩
  · exact hat.1
  · exact hat.1
  · exact hl

/-- Nothing is in hand for a run that was not enqueued. -/
theorem idle_of_unborn (hs : l.Sound) (hh : l.home = none) : l.hand = none := by
  cases hhand : l.hand with
  | none => rfl
  | some p =>
      obtain ⟨ph, ret⟩ := p
      have hhome := hs.home (hs.held (hs.live_of_hand hhand))
      rw [hh] at hhome
      cases hhome

/-- A record handler goes on. -/
theorem rephase {ph ph' : RecordPhase} {ret : Ret} (hs : l.Sound)
    (hh : l.hand = some (ph, ret)) (hph : ph ≠ .returned)
    (hrec : l'.trail.recorded = l.trail.recorded) (hlive : l'.live = l.live)
    (hheld : l'.held = l.held) (hhome : l'.home = l.home)
    (ho : l'.run.verdictOpen = l.run.verdictOpen) (hc : l'.run.claimedBy = l.run.claimedBy)
    (hk : l'.run.offeredTo = l.run.offeredTo) (hp : l'.run.poison = l.run.poison)
    (hh' : l'.hand = some (ph', ret)) : l'.Sound := by
  have hst : stageOf l'.trail.recorded = stageOf l.trail.recorded := by rw [hrec]
  refine ⟨?_, by rw [hlive, hheld]; exact hs.held, by rw [hheld, hhome]; exact hs.home,
    by rw [hhome, hrec]; exact hs.unborn⟩
  rcases hs.of_hand hh with ⟨c, n, rfl, hst', hl, h1, h2, h3, h4, -⟩ |
    ⟨hret, hpoison, hst', hl, h1, h2, h3, -⟩ | ⟨hret, hl, hst'⟩
  · refine ⟨.offering, hst.trans hst', hlive.trans hl, hc.trans h1, ho.trans h2, ?_,
      hp.trans h4, .inr ⟨ph', c, n, hh'⟩⟩
    rw [hk]
    exact h3
  · have hnone : l'.run.poison = none := by
      rcases hpoison with h | h
      · exact hp.trans h
      · exact absurd h.1 hph
    refine ⟨.held, hst.trans hst', hlive.trans hl, ho.trans h1, by rw [hc]; exact h2,
      by rw [hk, hc]; exact h3, ?_⟩
    rcases hret with rfl | rfl | ⟨e, rfl⟩
    · exact .inl ⟨hnone, .inr ⟨ph', .inl hh'⟩⟩
    · exact .inl ⟨hnone, .inr ⟨ph', .inr hh'⟩⟩
    · exact .inr ⟨ph', e, hh', .inl hnone⟩
  · refine ⟨.ended, hst.trans hst', .inr ⟨hlive.trans hl, ph', ?_⟩⟩
    rcases hret with rfl | ⟨rfl, hnone⟩
    · exact .inl hh'
    · exact .inr ⟨hh', hp.trans hnone⟩

/-- **Every step of a run's life keeps it sound.** -/
theorem step {a : Option Message} (hs : l.Sound) (ht : Step cfg r a l l') : l'.Sound := by
  cases ht with
  | opened _ =>
      refine hs.of_same rfl rfl rfl rfl fun st hat => ?_
      cases st <;> exact hat
  | enqueued hhome hf _ _ _ =>
      have hrec := hs.unborn hhome
      obtain ⟨st, hst, hat⟩ := hs.stage
      obtain rfl : st = .fresh := by
        rw [hrec] at hst
        exact (Option.some.inj hst).symm
      exact ⟨⟨.fresh, hst, hf.unoffered, hf.poison, hat.2.2⟩, fun _ => rfl, fun _ => rfl,
        nofun⟩
  | cancelCalled _ =>
      refine hs.of_same rfl rfl rfl rfl fun st hat => ?_
      cases st <;> exact hat
  | delivered c =>
      refine hs.of_same rfl rfl rfl rfl fun st hat => ?_
      cases st <;> exact hat
  | took _ hh ht => exact hs.hear.takes hh ht
  | offered hl hh hu _ =>
      obtain ⟨hst, hat⟩ := hs.fresh_of_unoffered hl hh hu
      have hheld := hs.held hl
      refine of_record hheld (hs.home hheld) hst rfl
        ⟨hl, ?_, rfl, rfl, hat.2.1, .inr ⟨_, _, _, rfl⟩⟩
      cases hc : l.run.claimedBy with
      | none => exact hc
      | some k => simp [Run.unoffered, hc] at hu
  | invalid hl hh hu =>
      have hst := (hs.fresh_of_unoffered hl hh hu).1
      have hheld := hs.held hl
      exact of_ending hl hheld (hs.home hheld) hst rfl
  | cancelChecked hl hh hc _ =>
      obtain ⟨hst, hat⟩ := hs.held_of_claimed hl hh hc
      have hheld := hs.held hl
      exact of_record hheld (hs.home hheld) hst rfl (hat.recordCancel hh rfl rfl rfl rfl)
  | committed hh _ => exact hs.rephase hh nofun rfl rfl rfl rfl rfl rfl rfl rfl rfl
  | rolledBack hh => exact hs.rephase hh nofun rfl rfl rfl rfl rfl rfl rfl rfl rfl
  | streamed hh => exact hs.rephase hh nofun rfl rfl rfl rfl rfl rfl rfl rfl rfl
  | notified hh => exact hs.rephase hh nofun rfl rfl rfl rfl rfl rfl rfl rfl rfl
  | handedOver hh =>
      rcases hs.of_hand hh with ⟨_, _, -, hst, hl, h1, h2, h3, h4, -⟩ | ⟨hret, -⟩ | ⟨hret, -⟩
      · exact ⟨⟨.offering, hst, hl, h1, h2, h3, h4, .inl rfl⟩, hs.held, hs.home, hs.unborn⟩
      · simp at hret
      · simp at hret
  | returned hh hr =>
      rcases hs.of_hand hh with ⟨_, _, rfl, -⟩ | ⟨-, hp, hst, hl, h1, h2, h3, -⟩ | ⟨hret, -⟩
      · simp at hr
      · have hnone : l.run.poison = none := by
          rcases hp with hp | ⟨-, e, rfl⟩
          · exact hp
          · obtain hr | hr | ⟨_, -, -, hp⟩ := hr
            · cases hr
            · cases hr
            · exact hp
        exact ⟨⟨.held, hst, hl, h1, h2, h3, .inl ⟨hnone, .inl rfl⟩⟩, hs.held, hs.home,
          hs.unborn⟩
      · rcases hret with rfl | ⟨rfl, -⟩
        · simp at hr
        · obtain hr | hr | ⟨_, hr, hne, -⟩ := hr
          · cases hr
          · cases hr
          · cases hr
            exact absurd rfl hne
  | poisoned hh hp =>
      rcases hs.of_hand hh with ⟨_, _, hret, -⟩ | ⟨-, -, hst, hl, -⟩ | ⟨hret, -⟩
      · cases hret
      · have hheld := hs.held hl
        exact of_ending hl hheld (hs.home hheld) hst rfl
      · rcases hret with hret | ⟨-, hnone⟩
        · cases hret
        · exact absurd (hp.symm.trans hnone) nofun
  | settled hh hr =>
      rcases hs.of_hand hh with ⟨_, _, rfl, -⟩ | ⟨hret, -⟩ | ⟨-, -, hst⟩
      · simp at hr
      · rcases hret with rfl | rfl | ⟨e, rfl⟩ <;> simp at hr
      · exact ⟨⟨.ended, hst, .inl ⟨rfl, rfl, rfl⟩⟩, nofun, nofun, hs.unborn⟩

end Sound

end Lane

end Funduq.Broker
