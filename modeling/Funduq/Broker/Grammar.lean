import Mathlib.Computability.RegularExpressions
import Funduq.Broker.Refinement

/-!
# The grammar of a run's record

The commands a run's record is given, whatever the interleaving, are the
beginning of a word of

  `Fail | RequestCancel |
   Offer (Fail | RequestCancel | Claim (RelayEvent | RequestCancel)* (FinishStream | Fail))`

and the run's stream is events followed, once the run has left the broker, by
one `END_OF_STREAM`.  The first is read off the stage the record leads to
(`Stage.Word`), the second is a life invariant (`Lane.Streamed`).
-/

namespace Funduq.Broker

open Funduq.Lib

/-! ## Words -/

/-- What a command is, whatever it carries. -/
inductive Kind where
  | offer
  | claim
  | relayEvent
  | finishStream
  | requestCancel
  | fail
  deriving DecidableEq, Repr

def Command.kind : Command → Kind
  | .offer => .offer
  | .claim => .claim
  | .relayEvent _ => .relayEvent
  | .finishStream => .finishStream
  | .requestCancel => .requestCancel
  | .fail _ _ => .fail

/-- A turn somebody takes, from the claim to the end. -/
def turnGrammar : RegularExpression Kind :=
  .char .claim * (.star (.char .relayEvent + .char .requestCancel)) *
    (.char .finishStream + .char .fail)

/-- The words a run's record may become. -/
def recordGrammar : RegularExpression Kind :=
  .char .fail + .char .requestCancel +
    .char .offer * (.char .fail + .char .requestCancel + turnGrammar)

/-- The run's record ends with `c`, coming after `cs`: a failure or the end of
the stream, or a cancellation of a run nobody has claimed. -/
def Command.Ends (cs : List Command) (c : Command) : Prop :=
  c.kind = .fail ∨ c.kind = .finishStream ∨
    c.kind = .requestCancel ∧ .claim ∉ cs.map Command.kind

/-- What may be recorded of a run while somebody holds it. -/
def Kind.Midway (k : Kind) : Prop := k = .relayEvent ∨ k = .requestCancel

/-- The words that lead to a stage. -/
def Stage.Word : Stage → List Kind → Prop
  | .fresh, w => w = []
  | .offering, w => w = [.offer]
  | .held, w => ∃ ks, w = .offer :: .claim :: ks ∧ ∀ k ∈ ks, k.Midway
  | .ended, w =>
      (w = [.fail] ∨ w = [.requestCancel]) ∨
      (w = [.offer, .fail] ∨ w = [.offer, .requestCancel]) ∨
      ∃ ks k, w = .offer :: .claim :: (ks ++ [k]) ∧ (∀ k ∈ ks, k.Midway) ∧
        (k = .finishStream ∨ k = .fail)

/-- The record's word is one that leads to its stage. -/
theorem word_of_stage {cs : List Command} {st : Stage} (h : stageOf cs = some st) :
    st.Word (cs.map Command.kind) := by
  induction cs using List.reverseRecOn generalizing st with
  | nil =>
      cases h
      rfl
  | append_singleton cs c ih =>
      rw [stageOf_append_singleton] at h
      obtain ⟨st₀, hst, hn⟩ := Option.bind_eq_some_iff.1 h
      have hw := ih hst
      rw [List.map_append, List.map_singleton]
      cases st₀ with
      | fresh =>
          rw [show cs.map Command.kind = [] from hw]
          cases c <;> cases hn
          · rfl
          · exact .inl (.inr rfl)
          · exact .inl (.inl rfl)
      | offering =>
          rw [show cs.map Command.kind = [.offer] from hw]
          cases c <;> cases hn
          · exact ⟨[], rfl, nofun⟩
          · exact .inr (.inl (.inr rfl))
          · exact .inr (.inl (.inl rfl))
      | held =>
          obtain ⟨ks, hks, hmid⟩ := hw
          rw [hks]
          have hsnoc : ∀ k, k.Midway → ∀ x ∈ ks ++ [k], x.Midway := by
            intro k hk x hx
            rcases List.mem_append.1 hx with hx | hx
            · exact hmid x hx
            · rw [List.mem_singleton.1 hx]
              exact hk
          cases c <;> cases hn
          · exact ⟨ks ++ [Kind.relayEvent], rfl, hsnoc _ (.inl rfl)⟩
          · exact .inr (.inr ⟨ks, _, rfl, hmid, .inl rfl⟩)
          · exact ⟨ks ++ [Kind.requestCancel], rfl, hsnoc _ (.inr rfl)⟩
          · exact .inr (.inr ⟨ks, _, rfl, hmid, .inr rfl⟩)
      | ended => cases c <;> cases hn

/-! ## The grammar -/

private theorem mem_turnGrammar {ks : List Kind} {k : Kind} (hks : ∀ k ∈ ks, k.Midway)
    (hk : k = .finishStream ∨ k = .fail) : .claim :: (ks ++ [k]) ∈ turnGrammar.matches' := by
  refine Language.mem_mul.2 ⟨.claim :: ks, Language.mem_mul.2 ⟨[.claim], rfl, ks, ?_, rfl⟩,
    [k], ?_, rfl⟩
  · refine Language.mem_kstar.2 ⟨ks.map fun k => [k], ?_, ?_⟩
    · rw [← List.flatMap_def, List.flatMap_singleton']
    intro y hy
    obtain ⟨k, hk, rfl⟩ := List.mem_map.1 hy
    rcases hks k hk with rfl | rfl
    · exact .inl rfl
    · exact .inr rfl
  · rcases hk with rfl | rfl
    · exact .inl rfl
    · exact .inr rfl

private theorem mem_recordGrammar_of_offered {w : List Kind}
    (hw : w = [.fail] ∨ w = [.requestCancel] ∨ w ∈ turnGrammar.matches') :
    .offer :: w ∈ recordGrammar.matches' := by
  refine .inr (Language.mem_mul.2 ⟨[.offer], rfl, w, ?_, rfl⟩)
  rcases hw with rfl | rfl | hw
  · exact .inl (.inl rfl)
  · exact .inl (.inr rfl)
  · exact .inr hw

theorem mem_recordGrammar_of_ended {w : List Kind} (hw : Stage.ended.Word w) :
    w ∈ recordGrammar.matches' := by
  rcases hw with (rfl | rfl) | (rfl | rfl) | ⟨ks, k, rfl, hks, hk⟩
  · exact .inl (.inl rfl)
  · exact .inl (.inr rfl)
  · exact mem_recordGrammar_of_offered (.inl rfl)
  · exact mem_recordGrammar_of_offered (.inr (.inl rfl))
  · exact mem_recordGrammar_of_offered (.inr (.inr (mem_turnGrammar hks hk)))

/-- Whatever stage a word leads to, a failure would end it grammatically. -/
theorem prefix_of_word {st : Stage} {w : List Kind} (hw : st.Word w) :
    ∃ word ∈ recordGrammar.matches', w <+: word := by
  cases st with
  | fresh => exact ⟨[.fail], mem_recordGrammar_of_ended (.inl (.inl rfl)), hw ▸ List.nil_prefix⟩
  | offering =>
      refine ⟨[.offer, .fail], mem_recordGrammar_of_ended (.inr (.inl (.inl rfl))), [.fail], ?_⟩
      rw [show w = [.offer] from hw]
      rfl
  | held =>
      obtain ⟨ks, rfl, hks⟩ := hw
      exact ⟨_, mem_recordGrammar_of_ended (.inr (.inr ⟨ks, .fail, rfl, hks, .inr rfl⟩)),
        [.fail], rfl⟩
  | ended => exact ⟨w, mem_recordGrammar_of_ended hw, List.prefix_rfl⟩

private theorem not_mem_midway {ks : List Kind} {k : Kind} (hks : ∀ k ∈ ks, k.Midway)
    (hk : ¬ k.Midway) : ks.count k = 0 :=
  List.count_eq_zero.2 fun hm => hk (hks k hm)

theorem count_of_word {st : Stage} {w : List Kind} (hw : st.Word w) :
    w.count .offer ≤ 1 ∧ w.count .claim ≤ 1 := by
  have ho : ¬ Kind.offer.Midway := by rintro (h | h) <;> cases h
  have hc : ¬ Kind.claim.Midway := by rintro (h | h) <;> cases h
  cases st with
  | fresh =>
      obtain rfl : w = [] := hw
      decide
  | offering =>
      obtain rfl : w = [.offer] := hw
      decide
  | held =>
      obtain ⟨ks, rfl, hks⟩ := hw
      simp [not_mem_midway hks ho, not_mem_midway hks hc]
  | ended =>
      obtain (rfl | rfl) | (rfl | rfl) | ⟨ks, k, rfl, hks, hk⟩ := hw
      · decide
      · decide
      · decide
      · decide
      · rcases hk with rfl | rfl <;>
          simp [List.count_append, not_mem_midway hks ho, not_mem_midway hks hc]

/-! ## Endings -/

theorem stageOf_append (cs ds : List Command) :
    stageOf (cs ++ ds) = (stageOf cs).bind fun st => ds.foldlM Stage.next st := by
  simp [stageOf, List.foldlM_append]

/-- Nothing has its place after an ended record. -/
theorem foldlM_ended {ds : List Command} (h : (ds.foldlM Stage.next .ended).isSome = true) :
    ds = [] := by
  cases ds with
  | nil => rfl
  | cons d ds => cases d <;> simp [Stage.next] at h

theorem nothing_after_end {cs ds : List Command} {c : Command} {st : Stage}
    (h : stageOf (cs ++ c :: ds) = some st) (hc : c.Ends cs) : ds = [] := by
  rw [stageOf_append] at h
  obtain ⟨st₀, hst, hrest⟩ := Option.bind_eq_some_iff.1 h
  rw [List.foldlM_cons] at hrest
  obtain ⟨st₁, hn, hrest⟩ := Option.bind_eq_some_iff.1 hrest
  have hended : st₁ = .ended := by
    rcases hc with hc | hc | ⟨hc, hno⟩
    · cases c <;> cases hc
      cases st₀ <;> cases hn <;> rfl
    · cases c <;> cases hc
      cases st₀ <;> cases hn
      rfl
    · cases c <;> cases hc
      cases st₀ <;> cases hn
      · rfl
      · rfl
      · obtain ⟨ks, hks, -⟩ := word_of_stage hst
        rw [hks] at hno
        simp at hno
  subst hended
  exact foldlM_ended (by rw [hrest]; rfl)

/-! ## The stream -/

namespace Lane

variable {cfg : Config} {r : RunId} {a : Option Message} {l l' : Lane}

/-- The stream holds events, and one `END_OF_STREAM` behind them once the run
has left the broker. -/
def Streamed (l : Lane) : Prop :=
  ∃ events : List Json, l.run.outQueue = events.map OutItem.event ++
    if l.home.isSome = true ∧ l.held = false then [.endOfStream] else []

/-- The run has been enqueued and has not left. -/
theorem Streamed.of_held (hst : l.Streamed) (hh : l.held = true) :
    ∃ events : List Json, l.run.outQueue = events.map OutItem.event := by
  obtain ⟨events, he⟩ := hst
  refine ⟨events, ?_⟩
  rw [he, if_neg (by rw [hh]; exact nofun), List.append_nil]

private theorem Streamed.of_same (hst : l.Streamed) (ho : l'.run.outQueue = l.run.outQueue)
    (hheld : l'.held = l.held) (hhome : l'.home = l.home) :
    l'.Streamed := by
  obtain ⟨events, he⟩ := hst
  exact ⟨events, by rw [ho, he, hheld, hhome]⟩

private theorem Streamed.takes {m : Message} (hst : l.Streamed) (ht : Takes cfg r m l l') :
    l'.Streamed := by
  cases ht with
  | ignored _ => exact hst
  | declined => exact hst.of_same (handle_outQueue ..) rfl rfl
  | _ => first
      | exact hst.of_same rfl rfl rfl
      | exact hst.of_same (handle_outQueue ..) rfl rfl

theorem Streamed.step (hs : l.Sound) (hst : l.Streamed) (ht : Step cfg r a l l') :
    l'.Streamed := by
  cases ht with
  | enqueued hh hf _ _ _ =>
      refine ⟨[], ?_⟩
      rw [if_neg (by rintro ⟨-, h⟩; cases h)]
      rw [hf]
      rfl
  | took _ _ ht => exact Streamed.takes (l := l.hear _) (hst.of_same rfl rfl rfl) ht
  | @streamed _ w ret hh =>
      have hheld := hs.held (hs.live_of_hand hh)
      obtain ⟨events, he⟩ := hst.of_held hheld
      refine ⟨events ++ w.event.toList.map Prod.snd, ?_⟩
      have hno : ¬ (l.home.isSome = true ∧ l.held = false) := by
        rintro ⟨-, h⟩
        cases hheld.symm.trans h
      change l.run.outQueue ++ _ = _ ++ if l.home.isSome = true ∧ l.held = false then _ else _
      rw [if_neg hno, he]
      simp
  | settled hh _ =>
      have hheld := hs.held (hs.live_of_hand hh)
      obtain ⟨events, he⟩ := hst.of_held hheld
      refine ⟨events, ?_⟩
      rw [if_pos ⟨hs.home hheld, rfl⟩]
      change l.run.settle.outQueue = _
      rw [Run.settle_outQueue, he]
  | _ => first
      | exact hst.of_same rfl rfl rfl
      | exact hst.of_same (handle_outQueue ..) rfl rfl

end Lane

/-! ## Every record -/

section Records

variable {cfg : Config} {db : RunId → Option Row} {s : State}

theorem reachable_streamed (hs : Reachable cfg db s) (r : RunId) : (s.lane r).Streamed :=
  hs.lane_invariant (P := Lane.Streamed) r ⟨[], rfl⟩ fun _ _ _ hl hst ht => hst.step hl ht

/-- **Main result.**  The commands recorded of a run are the beginning of a word
of the grammar.  So it is offered at most once, claimed at most once, and
nothing is recorded after its ending.  Its stream is events, with one
`END_OF_STREAM` behind them exactly when it has been enqueued and the broker
holds it no longer. -/
theorem record_is_grammatical (hs : Reachable cfg db s) (r : RunId) :
    (∃ word ∈ recordGrammar.matches', (s.trail r).recorded.map Command.kind <+: word) ∧
    ((s.trail r).recorded.map Command.kind).count .offer ≤ 1 ∧
    ((s.trail r).recorded.map Command.kind).count .claim ≤ 1 ∧
    (∀ cs c ds, (s.trail r).recorded = cs ++ c :: ds → c.Ends cs → ds = []) ∧
    (∃ events : List Json, (s.run r).outQueue = events.map OutItem.event ++
      if (s.home r).isSome = true ∧ r ∉ s.runs then [.endOfStream] else []) := by
  obtain ⟨st, hst, -⟩ := ((reachable_sound hs).2 r).stage
  have hw := word_of_stage hst
  refine ⟨prefix_of_word hw, (count_of_word hw).1, (count_of_word hw).2, ?_, ?_⟩
  · intro cs c ds he hc
    change stageOf (s.trail r).recorded = some st at hst
    rw [he] at hst
    exact nothing_after_end hst hc
  · simpa [Lane.Streamed, State.lane] using reachable_streamed hs r

/-- A run that was offered, claimed, reported finished and ended. -/
theorem record_is_grammatical_completed :
    ((State.after Demo.config Demo.completed).trail "r").recorded.map Command.kind =
      [.offer, .claim, .relayEvent, .finishStream] ∧
    ∃ events : List Json,
      ((State.after Demo.config Demo.completed).run "r").outQueue =
        events.map OutItem.event ++ [.endOfStream] :=
  ⟨by decide +kernel,
    (record_is_grammatical (reachable_after Demo.config Demo.completed) "r").2.2.2.2⟩

end Records

end Funduq.Broker
