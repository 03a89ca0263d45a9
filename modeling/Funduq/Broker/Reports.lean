import Funduq.Broker.Evidence
import Funduq.Broker.Subscription

/-!
# What becomes of the holder's events

An event of the key that holds a run is numbered and written, and put on the stream
once the write has committed; or AG-UI refuses it, and the run ends with
`provider_sent_malformed_event`.  There is a third way.  What AG-UI accepts need not be
a `dict`: an event object passes the check, `event.get` raises on it, and `_record`
swallows that.  Such an event leaves nothing behind but the run going on.

The proof follows one event from the moment it is taken off the inbox: each step of
the run's life either leaves it where it is or brings it one stage further.
-/

namespace Funduq.Broker

open Funduq.Lib

/-- The text of a run that is ended for a malformed event. -/
def malformedText : String := "provider sent a malformed AG-UI event"

/-- How `_record_and_maybe_settle` ends such a run. -/
def malformedEnd : Command := .fail "provider_sent_malformed_event" (some malformedText)

/-- The event `v`, taken in `s`, is the next one on the record and on the stream. -/
def State.Keeps (s s' : State) (r : RunId) (v : Reported) : Prop :=
  ∃ e n row row', v = .json e ∧ s.rows r = some row ∧ s'.rows r = some row' ∧
    row.events ++ [(n, e)] <+: row'.events ∧
    (s.run r).outQueue ++ [.event e] <+: (s'.run r).outQueue

namespace Lane

variable {cfg : Config} {r : RunId} {a : Option Message} {l l' : Lane} {v : Reported}

/-- The row of an enqueued run keeps its events. -/
theorem Step.events (ht : Step cfg r a l l') {row : Row} (hrow : l.row = some row) :
    ∃ row', l'.row = some row' ∧ row.events <+: row'.events := by
  rcases ht.row with h | ⟨-, ⟨h, -⟩ | ⟨row', w, h, -, hw⟩⟩
  · exact ⟨row, h.trans hrow, List.prefix_rfl⟩
  · cases hrow.symm.trans h
  · cases hrow.symm.trans h
    refine ⟨_, hw, ?_⟩
    have hev : (w.commit row).events = row.events ++ ((some w).bind Write.event).toList :=
      Row.with_events row (some w)
    rw [hev]
    exact List.prefix_append ..

/-! ## An event that is written -/

/-- How far the write `w` of event `(n, e)` has come, begun with `row` and `q`. -/
inductive Underway (row : Row) (q : List OutItem) (w : Write) (n : Nat) (e : Json) (l : Lane) :
    Prop where
  | writing {ret : Ret} (hh : l.hand = some (.writing w, ret)) (hr : l.row = some row)
      (hq : l.run.outQueue = q)
  | written {ret : Ret} {row' : Row} (hh : l.hand = some (.written w, ret))
      (hr : l.row = some row') (he : row'.events = row.events ++ [(n, e)])
      (hq : l.run.outQueue = q)
  | kept {row' : Row} (hr : l.row = some row') (he : row.events ++ [(n, e)] <+: row'.events)
      (hq : q ++ [.event e] <+: l.run.outQueue)

theorem Underway.step {row : Row} {q : List OutItem} {w : Write} {n : Nat} {e : Json}
    (hw : w.event = some (n, e)) (hhome : l.home.isSome = true) (hu : Underway row q w n e l)
    (ht : Step cfg r a l l') :
    Underway row q w n e l' ∨ l.trail.failedWrites < l'.trail.failedWrites := by
  have hnone : ∀ {α : Sort _} {x : RecordPhase × Ret}, l.hand = some x → l.hand = none → α := by
    intro α x hx hn
    exact absurd (hx.symm.trans hn) nofun
  cases hu with
  | @writing ret hh hr hq =>
      cases ht with
      | opened hr' => exact absurd (hr.symm.trans hr') nofun
      | enqueued hn _ _ _ _ =>
          rw [hn] at hhome
          cases hhome
      | cancelCalled _ => exact .inl (.writing hh hr hq)
      | delivered _ => exact .inl (.writing hh hr hq)
      | took _ hn _ => exact hnone hh hn
      | offered _ hn _ _ => exact hnone hh hn
      | invalid _ hn _ => exact hnone hh hn
      | cancelChecked _ hn _ _ => exact hnone hh hn
      | committed hh' hr' =>
          cases hh.symm.trans hh'
          cases hr.symm.trans hr'
          refine .inl (.written rfl rfl ?_ hq)
          have hev : (w.commit row).events = row.events ++ ((some w).bind Write.event).toList :=
            Row.with_events row (some w)
          rw [hev]
          simp [hw]
      | rolledBack _ => exact .inr (Nat.lt_succ_self _)
      | streamed hh' => cases hh.symm.trans hh'
      | notified hh' => cases hh.symm.trans hh'
      | handedOver hh' => cases hh.symm.trans hh'
      | returned hh' _ => cases hh.symm.trans hh'
      | poisoned hh' _ => cases hh.symm.trans hh'
      | settled hh' _ => cases hh.symm.trans hh'
  | @written ret row' hh hr he hq =>
      cases ht with
      | opened hr' => exact absurd (hr.symm.trans hr') nofun
      | enqueued hn _ _ _ _ =>
          rw [hn] at hhome
          cases hhome
      | cancelCalled _ => exact .inl (.written hh hr he hq)
      | delivered _ => exact .inl (.written hh hr he hq)
      | took _ hn _ => exact hnone hh hn
      | offered _ hn _ _ => exact hnone hh hn
      | invalid _ hn _ => exact hnone hh hn
      | cancelChecked _ hn _ _ => exact hnone hh hn
      | committed hh' _ => cases hh.symm.trans hh'
      | rolledBack hh' => cases hh.symm.trans hh'
      | streamed hh' =>
          cases hh.symm.trans hh'
          refine .inl (.kept hr (he ▸ List.prefix_rfl) ?_)
          show _ <+: l.run.outQueue ++ _
          rw [hq, hw]
          exact List.prefix_rfl
      | notified hh' => cases hh.symm.trans hh'
      | handedOver hh' => cases hh.symm.trans hh'
      | returned hh' _ => cases hh.symm.trans hh'
      | poisoned hh' _ => cases hh.symm.trans hh'
      | settled hh' _ => cases hh.symm.trans hh'
  | kept hr he hq =>
      obtain ⟨row'', hr', he'⟩ := ht.events hr
      exact .inl (.kept hr' (he.trans he') (hq.trans (ht.outQueue hhome)))

/-! ## An event that is refused -/

/-- The run is about to be ended for a malformed event, or has been. -/
def Doomed (v : Reported) (l : Lane) : Prop :=
  l.hand = some (.returned, .maybeSettle (.relayEvent v)) ∧ l.run.poison = some malformedText ∨
    malformedEnd ∈ l.trail.recorded

theorem Doomed.step (hs : l.Sound) (hhome : l.home.isSome = true) (hd : l.Doomed v)
    (ht : Step cfg r a l l') : l'.Doomed v := by
  rcases hd with ⟨hh, hp⟩ | hrec
  · cases ht with
    | opened _ => exact .inl ⟨hh, hp⟩
    | enqueued hn _ _ _ _ =>
        rw [hn] at hhome
        cases hhome
    | cancelCalled _ => exact .inl ⟨hh, hp⟩
    | delivered _ => exact .inl ⟨hh, hp⟩
    | took _ hn _ => exact absurd (hh.symm.trans hn) nofun
    | offered _ hn _ _ => exact absurd (hh.symm.trans hn) nofun
    | invalid _ hn _ => exact absurd (hh.symm.trans hn) nofun
    | cancelChecked _ hn _ _ => exact absurd (hh.symm.trans hn) nofun
    | committed hh' _ => cases hh.symm.trans hh'
    | rolledBack hh' => cases hh.symm.trans hh'
    | streamed hh' => cases hh.symm.trans hh'
    | notified hh' => cases hh.symm.trans hh'
    | handedOver hh' => cases hh.symm.trans hh'
    | returned hh' hret =>
        cases hh.symm.trans hh'
        rcases hret with hret | hret | ⟨c, -, -, hnone⟩
        · cases hret
        · cases hret
        · exact absurd (hp.symm.trans hnone) nofun
    | poisoned hh' hp' =>
        cases hp.symm.trans hp'
        exact .inr (List.mem_append_right _ (List.mem_singleton_self _))
    | settled hh' hret =>
        cases hh.symm.trans hh'
        rcases hret with hret | ⟨hret, -⟩
        · cases hret
        · cases hret
  · right
    cases ht.writes hs with
    | opened _ he => rw [he]; exact hrec
    | enqueued hn _ _ _ _ =>
        rw [hn] at hhome
        cases hhome
    | kept hk => rw [hk.recorded]; exact hrec
    | entered hc => rw [hc.recorded]; exact List.mem_append_left _ hrec
    | lost _ he => rw [he]; exact hrec

/-- A run whose record has the end, and that its handler is done with, has left. -/
theorem Doomed.left (hs : l.Sound) (hd : l.Doomed v) (hh : l.hand = none) :
    malformedEnd ∈ l.trail.recorded ∧ l.held = false := by
  rcases hd with ⟨hh', -⟩ | hrec
  · exact absurd (hh'.symm.trans hh) nofun
  · refine ⟨hrec, ?_⟩
    obtain ⟨st, hst, hat⟩ := hs.stage
    obtain ⟨cs, ds, hsplit⟩ := List.append_of_mem hrec
    rw [hsplit] at hst
    have hds := nothing_after_end hst (.inl rfl)
    rw [hds, stageOf_append_singleton] at hst
    obtain ⟨st₀, -, hn⟩ := Option.bind_eq_some_iff.1 hst
    have hended : st = .ended := by
      cases st₀ <;> cases hn <;> rfl
    rw [hended] at hat
    rcases hat with ⟨hheld, -, -⟩ | ⟨-, ph, hbusy | ⟨hbusy, -⟩⟩
    · exact hheld
    · exact absurd (hbusy.symm.trans hh) nofun
    · exact absurd (hbusy.symm.trans hh) nofun

end Lane

/-! ## Every report -/

section Reports

variable {cfg : Config} {db : RunId → Option Row} {s s₁ s₂ : State} {h : HandlerId} {r : RunId}
  {k : Key} {v : Reported} {rest : List Message} {as : List Action}

end Reports

namespace Demo

/-- The holder of `r` has reported `v`. -/
def saying (v : Reported) : State := State.after config (claimed ++ [.reportEvent "r" v "pk"])

end Demo

end Funduq.Broker
