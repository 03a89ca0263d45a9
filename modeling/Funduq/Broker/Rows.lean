import Funduq.Broker.Subscription
import Funduq.Broker.Transactions

/-!
# A run's row and its queue

What a reader finds of a run at any moment, and what it may find later.  The row only
gains events, and is not touched once its status is an outcome.  The queue only grows,
and holds what the row has gained since the run was enqueued.  A run that has left the
broker stays away, and its row is as it will ever be.
-/

namespace Funduq.Broker

open Funduq.Lib

variable {cfg : Config} {db : RunId → Option Row} {s s' : State} {r : RunId} {a : Action}

/-! ## One step -/

/-- A row only gains events, and once it has an outcome nothing changes it. -/
theorem Reachable.row_grows (hs : Reachable cfg db s) (hstep : s.step cfg a = some s')
    {row : Row} (hrow : s.rows r = some row) : ∃ row', s'.rows r = some row' ∧
      row.events <+: row'.events ∧ (row.status.terminal = true → row' = row) := by
  have hsame : s'.rows r = s.rows r → ∃ row', s'.rows r = some row' ∧
      row.events <+: row'.events ∧ (row.status.terminal = true → row' = row) :=
    fun h => ⟨row, h.trans hrow, List.prefix_rfl, fun _ => rfl⟩
  cases hhome : s.home r with
  | none =>
      rcases hs.rows_unborn hstep hhome with h | ⟨h, -⟩
      · exact hsame h
      · exact absurd (hrow.symm.trans h) nofun
  | some home =>
      have hsome : (s.home r).isSome = true := by rw [hhome]; rfl
      rcases hs.rows_step hstep hsome with h | ⟨h, w, ret, k, row₀, -, ht, hrow₀, hrow'⟩
      · exact hsame h
      · cases hrow.symm.trans hrow₀
        refine ⟨w.commit row, hrow', ?_, fun hend => ?_⟩
        · rw [show (w.commit row).events = _ from Row.with_events row (some w)]
          exact List.prefix_append ..
        · -- The write in hand is for a run that has not ended.
          have hpend : (s.lane r).pending = some w := by
            have hinv := reachable_inv hs
            have hh := hinv.roll.home_of_live (State.live_of_recording hinv ht)
            rw [Lane.pending, State.lane_hand hh, ht]
            simp [Task.hand]
          have hlive := (reachable_ready hs r hsome w hpend).1 row hrow
          rw [hend] at hlive
          cases hlive

/-- A run that was enqueued stays so. -/
theorem Reachable.home_isSome (hs : Reachable cfg db s) (hstep : s.step cfg a = some s')
    (hhome : (s.home r).isSome = true) : (s'.home r).isSome = true := by
  obtain ⟨h, hh⟩ := Option.isSome_iff_exists.1 hhome
  rw [hs.home_kept hh hstep]
  rfl

/-- The queue of a run that was enqueued only grows, and what its row held when it was
enqueued is settled. -/
theorem Reachable.queue_step (hs : Reachable cfg db s) (hstep : s.step cfg a = some s')
    (hhome : (s.home r).isSome = true) : (s.run r).outQueue <+: (s'.run r).outQueue ∧
      (s'.trail r).before = (s.trail r).before := by
  have hone : (system cfg db).exec s [a] = some s' := by
    show (s.step cfg a).bind _ = _
    rw [hstep]
    rfl
  refine (hs.lane_along (r := r) (P := fun l => l.home.isSome = true ∧
    (s.run r).outQueue <+: l.run.outQueue ∧ l.trail.before = (s.trail r).before) ?_
    ⟨hhome, List.prefix_rfl, rfl⟩ hone).2
  rintro b l l' hl ⟨hhome, hq, hb⟩ ht
  obtain ⟨h, hh⟩ := Option.isSome_iff_exists.1 hhome
  refine ⟨by rw [ht.home hh]; rfl, hq.trans (ht.outQueue hhome), ?_⟩
  rw [← hb]
  cases ht.writes hl with
  | opened _ he => rw [he]
  | enqueued hn _ _ _ _ => exact absurd (hh.symm.trans hn) nofun
  | kept hk => exact hk.before
  | entered hc => exact hc.before
  | lost _ he => rw [he]

/-! ## At any moment -/

/-- The stream of a run that was enqueued is a copy of its record, from whatever
number on. -/
theorem reachable_copied (hs : Reachable cfg db s) (r : RunId) :
    (s.lane r).home.isSome = true → ∃ n, (s.lane r).Copied n := by
  refine hs.lane_invariant (P := fun l => l.home.isSome = true → ∃ n, l.Copied n) r ?_ ?_
  · intro h
    cases h
  · intro b l l' hl hc ht hhome
    cases hnew : l.home with
    | some h =>
        obtain ⟨n, hn⟩ := hc (by rw [hnew]; rfl)
        exact ⟨n, hn.step ht⟩
    | none =>
        have hidle := hl.idle_of_unborn hnew
        have hnone : ∀ {o : Option HandlerId}, o = l.home → o.isSome ≠ true := by
          rintro o rfl
          rw [hnew]
          nofun
        -- The one step that gives a run a home empties its stream.
        cases ht.writes hl with
        | opened _ he => exact absurd hhome (hnone (by rw [he]))
        | @enqueued run row h hh hf hr hq he =>
            subst he
            refine ⟨run.seq, rfl, ⟨row, [], hr, ?_, ?_, ?_, ?_⟩, le_rfl⟩
            · simp [Lane.unsent, hidle]
            · rw [hf]
              rfl
            · simp [Lane.unsent, Lane.upcoming, Lane.pending, hidle]
            · simp [Lane.unsent, Lane.upcoming, Lane.pending, hidle]
        | kept hk => exact absurd hhome (hnone hk.home)
        | entered hc => exact absurd hhome (hnone hc.home)
        | lost _ he => exact absurd hhome (hnone (by rw [he]))

/-- What is on the queue of a run that was enqueued, and what its row has besides. -/
theorem Reachable.queue_is_record (hs : Reachable cfg db s) (hhome : (s.home r).isSome = true) :
    ∃ row sent unsent, s.rows r = some row ∧
      row.events.map Prod.snd = (s.trail r).before.map Prod.snd ++ (sent ++ unsent) ∧
      (s.run r).outQueue = sent.map .event ++ (if r ∉ s.runs then [.endOfStream] else []) ∧
      (r ∉ s.runs → unsent = []) := by
  obtain ⟨n, hcopied⟩ := reachable_copied hs r hhome
  obtain ⟨row, sent, hrow, hev, hsent, -, -⟩ := hcopied.rows
  obtain ⟨events, hout⟩ := reachable_streamed hs r
  rw [hout, onStream_append] at hsent
  refine ⟨row, sent.map Prod.snd, (s.lane r).unsent.map Prod.snd, hrow, ?_, ?_, ?_⟩
  · rw [hev, List.map_append, List.map_append]
    rfl
  · show (s.lane r).run.outQueue = _
    rw [hout, hsent]
    simp only [show (s.lane r).home.isSome = true from hhome, true_and]
    simp [State.lane]
  · intro hgone
    rw [Lane.unsent_of_left ((reachable_sound hs).2 r) (by simpa [State.lane] using hgone)]
    rfl

/-- A run that has left the broker stays away, and its row is as it will ever be. -/
theorem Reachable.gone_step (hs : Reachable cfg db s) (hstep : s.step cfg a = some s')
    (hhome : (s.home r).isSome = true) (hgone : r ∉ s.runs) :
    r ∉ s'.runs ∧ s'.rows r = s.rows r := by
  constructor
  · -- The end of its queue is the end of what it will ever be.
    have hs' : Reachable cfg db s' := System.Reachable.step a hs hstep
    obtain ⟨-, sent, -, -, -, hq, -⟩ := hs.queue_is_record hhome
    obtain ⟨-, sent', -, -, -, hq', -⟩ := hs'.queue_is_record (hs.home_isSome hstep hhome)
    have hgrows := (hs.queue_step hstep hhome).1
    rw [hq, if_pos hgone, hq'] at hgrows
    exact (last_of_end hgrows).2
  · rcases hs.rows_step hstep hhome with h | ⟨h, w, ret, k, row, -, ht, -, -⟩
    · exact h
    · -- A run that a handler records something of is with the broker.
      have hlive : r ∈ s.live h := State.live_of_recording (reachable_inv hs) ht
      have hh := (reachable_inv hs).roll.home_of_live hlive
      have hheld := ((reachable_sound hs).2 r).held ((State.lane_live hh).2 hlive)
      simp [State.lane, hgone] at hheld

end Funduq.Broker
