import Funduq.Broker.Actors
import Funduq.Broker.Evidence

/-!
# Failed writes

A record handler changes the run first and writes afterwards, and `_record`
swallows the failure of the write.  So what a run remembers of its stream may
have no event behind it: a `RUN_FINISHED` whose write failed has been seen all
the same, and the end of the stream then completes a run whose record does not
say that it finished.

`Lane.Backed` is what is left of the agreement between a run and its record
when any write may fail: what the run remembers is in its row, or in a relay's
write that is still in hand.  The failure of such a write is the only step that
breaks it (`State.keepsFacts` says of an action that it is no such step), and
where no step does, every outcome has its event.
-/

namespace Funduq.Broker

open Funduq.Lib

/-- An event of the type `tag` is among the persisted ones. -/
def Row.has (row : Row) (tag : String) : Bool := row.events.any fun e => hasType tag e.2

/-- The write appends an event of the type `tag`. -/
def Write.carries (w : Write) (tag : String) : Bool := w.event.any fun e => hasType tag e.2

theorem Row.has_iff {row : Row} {tag : String} :
    row.has tag = true ↔ ∃ e ∈ row.events, hasType tag e.2 = true :=
  List.any_eq_true

theorem Write.commit_events (w : Write) (row : Row) :
    (w.commit row).events = row.events ++ w.event.toList :=
  Row.with_events row (some w)

theorem Row.has_commit (row : Row) (w : Write) (tag : String) :
    (w.commit row).has tag = (row.has tag || w.carries tag) := by
  rw [Row.has, w.commit_events, List.any_append]
  cases h : w.event <;> simp [Row.has, Write.carries, h]

private theorem carries_runError (n : Nat) (text code : String) (status : Option Status) :
    Write.carries { event := some (n, runError text code), status := status } runErrorTag = true :=
  runError_is_error text code

/-! ## What a run remembers, and what is written of it -/

namespace Lane

variable {cfg : Config} {r : RunId} {a : Option Message} {l l' : Lane} {m : Message}

/-- An event of the type `tag` is in the row, or in the write of a relay. -/
def Holds (row : Row) (pending : Option Write) (tag : String) : Prop :=
  row.has tag = true ∨ ∃ w, pending = some w ∧ w.status = none ∧ w.carries tag = true

/-- What the run remembers of its stream has an event behind it, and so has every
outcome that is written or about to be. -/
structure Founded (row : Row) (run : Run) (pending : Option Write) : Prop where
  finished : run.sawRunFinished = true → Holds row pending runFinished
  error : run.sawRunError = true → Holds row pending runErrorTag
  completing : ∀ w, pending = some w → w.status = some .completed → run.sawRunFinished = true
  failing : ∀ w, pending = some w → w.status = some .failed →
    run.sawRunError = true ∨ w.carries runErrorTag = true
  completed : row.status = .completed → row.has runFinished = true
  failed : row.status = .failed → row.has runErrorTag = true

/-- An enqueued run has a row, and its memory and its outcome are founded. -/
def Backed (l : Lane) : Prop :=
  l.home.isSome = true → ∃ row, l.row = some row ∧ Founded row l.run l.pending

theorem Holds.of_none {row : Row} {tag : String} {pending : Option Write}
    (h : Holds row none tag) : Holds row pending tag := by
  rcases h with h | ⟨w, hw, -⟩
  · exact .inl h
  · cases hw

section Founded

variable {row : Row} {run x : Run} {o : Option Write}

/-- Nothing new is remembered, and what is about to be written has its reasons. -/
private theorem Founded.unseen (hf : Founded row run none)
    (hfin : x.sawRunFinished = run.sawRunFinished) (herr : x.sawRunError = run.sawRunError)
    (hc : ∀ w, o = some w → w.status = some .completed → x.sawRunFinished = true)
    (hfail : ∀ w, o = some w → w.status = some .failed →
      x.sawRunError = true ∨ w.carries runErrorTag = true) : Founded row x o where
  finished h := (hf.finished (hfin ▸ h)).of_none
  error h := (hf.error (herr ▸ h)).of_none
  completing := hc
  failing := hfail
  completed := hf.completed
  failed := hf.failed

/-- The run relays `e`, and remembers it if it says how the stream ended. -/
private theorem Founded.relayed {n : Nat} {e : Json} (hf : Founded row run none)
    (hfin : x.sawRunFinished = true → run.sawRunFinished = true ∨ hasType runFinished e = true)
    (herr : x.sawRunError = true → run.sawRunError = true ∨ hasType runErrorTag e = true) :
    Founded row x (some { event := some (n, e) }) where
  finished h := by
    rcases hfin h with h | h
    · exact (hf.finished h).of_none
    · exact .inr ⟨_, rfl, rfl, h⟩
  error h := by
    rcases herr h with h | h
    · exact (hf.error h).of_none
    · exact .inr ⟨_, rfl, rfl, h⟩
  completing := by rintro w ⟨⟩ ⟨⟩
  failing := by rintro w ⟨⟩ ⟨⟩
  completed := hf.completed
  failed := hf.failed

/-- What a handler remembers and writes is founded where nothing is in hand. -/
theorem Founded.handle (c : Command) (hf : Founded row run none)
    (hfin : x.sawRunFinished = run.sawRunFinished) (herr : x.sawRunError = run.sawRunError) :
    Founded row (handle cfg c x).1 (handle cfg c x).2 := by
  cases c with
  | offer => exact hf.unseen hfin herr (by rintro w ⟨⟩ ⟨⟩) (by rintro w ⟨⟩ ⟨⟩)
  | claim => exact hf.unseen hfin herr (by rintro w ⟨⟩ ⟨⟩) (by rintro w ⟨⟩ ⟨⟩)
  | fail code message =>
      refine hf.unseen hfin herr (by rintro w ⟨⟩ ⟨⟩) ?_
      rintro w ⟨⟩ -
      exact .inr (carries_runError ..)
  | requestCancel =>
      simp only [Broker.handle, handleCancel]
      split <;> exact hf.unseen hfin herr (by rintro w ⟨⟩ ⟨⟩) (by rintro w ⟨⟩ ⟨⟩)
  | finishStream =>
      simp only [Broker.handle, handleFinish]
      split
      · rename_i h
        refine hf.unseen hfin herr ?_ ?_
        · rintro w ⟨⟩ hst
          exact absurd (h.1.symm.trans (Option.some.inj hst)) (by simp)
        · rintro w ⟨⟩ -
          exact .inr (carries_runError ..)
      · rename_i h
        refine hf.unseen hfin herr ?_ ?_
        · rintro w ⟨⟩ hst
          exact finishStatus_completed (Option.some.inj hst)
        · rintro w ⟨⟩ hst
          refine .inl ?_
          cases hs : x.sawRunError with
          | true => rfl
          | false => exact absurd ⟨Option.some.inj hst, hs⟩ h
  | relayEvent event =>
      simp only [Broker.handle, handleRelay]
      split
      · exact hf.unseen hfin herr (by rintro w ⟨⟩) (by rintro w ⟨⟩)
      · split
        · exact hf.unseen hfin herr (by rintro w ⟨⟩) (by rintro w ⟨⟩)
        · rename_i e _
          by_cases h1 : hasType runFinished e = true
          · simp only [h1, if_true]
            exact hf.relayed (fun _ => .inr h1) (fun h => .inl (herr ▸ h))
          · by_cases h2 : hasType runErrorTag e = true
            · simp only [h1, h2, if_true]
              exact hf.relayed (fun h => .inl (hfin ▸ h)) (fun _ => .inr h2)
            · simp only [h1, h2]
              exact hf.relayed (fun h => .inl (hfin ▸ h)) (fun h => .inl (herr ▸ h))

/-- The write in hand commits. -/
theorem Founded.commit {w : Write} (hf : Founded row run (some w)) :
    Founded (w.commit row) run none := by
  have hkept : ∀ tag, Holds row (some w) tag → (w.commit row).has tag = true := by
    intro tag h
    rw [Row.has_commit]
    rcases h with h | ⟨w', hw', -, h⟩
    · rw [h, Bool.true_or]
    · cases hw'
      rw [h, Bool.or_true]
  refine ⟨fun h => .inl (hkept _ (hf.finished h)), fun h => .inl (hkept _ (hf.error h)), nofun,
    nofun, fun h => ?_, fun h => ?_⟩
  · rcases w.commit_status_eq row with hst | hst
    · exact hkept _ (.inl (hf.completed (hst.symm.trans h)))
    · exact hkept _ (hf.finished (hf.completing w rfl (hst.trans (congrArg some h))))
  · rcases w.commit_status_eq row with hst | hst
    · exact hkept _ (.inl (hf.failed (hst.symm.trans h)))
    · rcases hf.failing w rfl (hst.trans (congrArg some h)) with h | h
      · exact hkept _ (hf.error h)
      · rw [Row.has_commit, h, Bool.or_true]

/-- The failure of this write costs no event whose type the row does not have. -/
def Spares (row : Row) (w : Write) : Prop :=
  w.status = none → ∀ tag ∈ [runFinished, runErrorTag], w.carries tag = true →
    row.has tag = true

/-- The write in hand fails, and costs nothing the run remembers. -/
theorem Founded.rollback {w : Write} (hf : Founded row run (some w)) (hw : Spares row w) :
    Founded row run none := by
  have hkept : ∀ tag ∈ [runFinished, runErrorTag], Holds row (some w) tag →
      Holds row none tag := by
    rintro tag htag (h | ⟨w', hw', hst, h⟩)
    · exact .inl h
    · cases hw'
      exact .inl (hw hst tag htag h)
  exact ⟨fun h => hkept _ (by simp) (hf.finished h), fun h => hkept _ (by simp) (hf.error h),
    nofun, nofun, hf.completed, hf.failed⟩

end Founded

/-! ## The life of a run -/

theorem pending_record (c : Command) (x : Run) (ret : Ret) :
    ({ l with run := x }.record cfg c ret).pending = (handle cfg c x).2 := by
  unfold pending record
  cases (handle cfg c x).2 <;> rfl

private theorem Backed.record {c : Command} {x : Run} {ret : Ret} (hb : l.Backed)
    (hp : l.pending = none) (hfin : x.sawRunFinished = l.run.sawRunFinished)
    (herr : x.sawRunError = l.run.sawRunError) :
    ({ l with run := x }.record cfg c ret).Backed := by
  intro hhome
  obtain ⟨row, hrow, hf⟩ := hb hhome
  rw [hp] at hf
  refine ⟨row, hrow, ?_⟩
  rw [pending_record]
  exact hf.handle c hfin herr

/-- A change that concerns neither the row nor what is remembered or in hand. -/
private theorem Backed.of_same (hb : l.Backed) (hp : l'.pending = l.pending)
    (hhome : l'.home = l.home) (hrow : l'.row = l.row)
    (hfin : l'.run.sawRunFinished = l.run.sawRunFinished)
    (herr : l'.run.sawRunError = l.run.sawRunError) : l'.Backed := by
  intro hh
  rw [hhome] at hh
  obtain ⟨row, hr, hf⟩ := hb hh
  refine ⟨row, hrow.trans hr, ?_⟩
  rw [hp]
  refine ⟨?_, ?_, ?_, ?_, hf.completed, hf.failed⟩
  · rw [hfin]
    exact hf.finished
  · rw [herr]
    exact hf.error
  · rw [hfin]
    exact hf.completing
  · rw [herr]
    exact hf.failing

private theorem Backed.takes (hb : l.Backed) (hp : l.pending = none)
    (ht : Takes cfg r m l l') : l'.Backed := by
  cases ht with
  | ignored _ => exact hb
  | accepted _ _ _ => exact hb.record hp rfl rfl
  | refused _ _ _ => exact hb.record hp rfl rfl
  | declined _ _ _ => exact hb.record hp rfl rfl
  | lapsed _ _ _ => exact hb.record hp rfl rfl
  | said _ _ => exact hb.record hp rfl rfl
  | cancelled _ _ _ => exact hb.record hp rfl rfl
  | failed _ => exact hb.record hp rfl rfl
  | _ => exact hb.of_same rfl rfl rfl rfl rfl

/-- **The step.**  Nothing that happens to a run takes the ground from under it,
unless it is the failure of a write that costs what the run remembers. -/
theorem Backed.step (hs : l.Sound) (hb : l.Backed)
    (hw : ∀ w ret row, l.hand = some (.writing w, ret) → l'.hand = some (.returned, ret) →
      l.row = some row → Spares row w)
    (ht : Step cfg r a l l') : l'.Backed := by
  have hidle : l.hand = none → l.pending = none := by
    intro h
    rw [pending, h]
  have hback : ∀ {ret}, l.hand = some (.returned, ret) → l.pending = none := by
    intro ret h
    rw [pending, h]
  cases ht with
  | opened hr =>
      intro hhome
      obtain ⟨row, hrow, -⟩ := hb hhome
      exact absurd (hrow.symm.trans hr) (by simp)
  | @enqueued _ run row h hh hf hr hq _ =>
      intro _
      refine ⟨row, hr, ?_⟩
      have hnone : pending { l with
          run := run
          trail := { l.trail with before := row.events }
          home := some h
          held := true } = none := hidle (hs.idle_of_unborn hh)
      rw [hnone, hf]
      exact ⟨(by simp), (by simp), (by simp), (by simp), fun h => absurd (hq.symm.trans h) (by simp),
        fun h => absurd (hq.symm.trans h) (by simp)⟩
  | cancelCalled _ => exact hb.of_same rfl rfl rfl rfl rfl
  | delivered c => exact hb.of_same rfl rfl rfl rfl rfl
  | @took _ _ m _ hh ht => exact Backed.takes (l := l.hear m) hb (hidle hh) ht
  | offered _ hh _ _ =>
      exact Backed.record (l := { l with trail := _ }) (hb.of_same rfl rfl rfl rfl rfl)
        (hidle hh) rfl rfl
  | invalid _ hh _ => exact hb.record (hidle hh) rfl rfl
  | cancelChecked _ hh _ _ => exact hb.record (hidle hh) rfl rfl
  | @committed _ w ret row hh hr =>
      intro hhome
      obtain ⟨row', hrow, hf⟩ := hb hhome
      cases hrow.symm.trans hr
      have hp : l.pending = some w := by rw [pending, hh]
      rw [hp] at hf
      exact ⟨_, rfl, hf.commit⟩
  | @rolledBack _ w ret hh =>
      intro hhome
      obtain ⟨row, hrow, hf⟩ := hb hhome
      have hp : l.pending = some w := by rw [pending, hh]
      rw [hp] at hf
      exact ⟨row, hrow, hf.rollback (hw w ret row hh rfl hrow)⟩
  | streamed hh =>
      refine hb.of_same ?_ rfl rfl rfl rfl
      have hp : l.pending = none := by rw [pending, hh]
      rw [hp]
      unfold pending
      split
      · rename_i heq
        split at heq <;> cases heq
      · rfl
  | notified hh => exact hb.of_same (by simp [pending, hh]) rfl rfl rfl rfl
  | handedOver hh => exact hb.of_same (hback hh).symm rfl rfl rfl rfl
  | returned hh _ => exact hb.of_same (hback hh).symm rfl rfl rfl rfl
  | poisoned hh _ => exact hb.record (hback hh) rfl rfl
  | settled hh _ =>
      obtain ⟨_, hrun⟩ := l.run.settle_run
      exact hb.of_same (hback hh).symm rfl rfl (congrArg Run.sawRunFinished hrun :)
        (congrArg Run.sawRunError hrun :)

end Lane

/-! ## Every run of the broker -/

section Runs

variable {cfg : Config} {db : RunId → Option Row} {s s' : State} {h : HandlerId} {r : RunId}

/-- A write that was in hand and is not, without having been made, failed in
this very step. -/
theorem transact_of_lost {a : Action} {w : Write} {ret : Ret} (hs : Reachable cfg db s)
    (hstep : s.step cfg a = some s') (hw : (s.lane r).hand = some (.writing w, ret))
    (hret : (s'.lane r).hand = some (.returned, ret)) :
    ∃ h k, a = .transact h false ∧ s.task h = .recording r (.writing w) ret k := by
  obtain ⟨hinv, hsound⟩ := reachable_sound hs
  cases hhome : s.home r with
  | none => exact absurd (hw.symm.trans ((hsound r).idle_of_unborn hhome)) nofun
  | some h =>
      rw [State.lane_hand hhome] at hw
      rw [State.lane_hand (hs.home_kept hhome hstep)] at hret
      obtain ⟨k, ht⟩ := Task.recording_of_hand hw
      by_cases ha : a.handler? = some h
      · refine ⟨h, k, ?_, ht⟩
        cases a with
        | take h' =>
            cases ha
            simp [State.step, State.take, ht] at hstep
        | resume h' =>
            cases ha
            simp [State.step, State.resume, ht] at hstep
        | transact h' succeeds =>
            cases ha
            cases succeeds with
            | false => rfl
            | true =>
                cases hrow : s.rows r with
                | none => simp [State.step, State.transact, ht, hrow] at hstep
                | some row =>
                    simp only [State.step, State.transact, ht, hrow, Option.some.injEq] at hstep
                    subst hstep
                    simp [Task.hand] at hret
        | _ => cases ha
      · have hsame := State.task_of_other hinv hsound ha (hinv.roll.born r h hhome) hstep
        rw [hsame, hw] at hret
        cases hret

/-- **Life invariants**, where only some writes may fail: what every step of a
run's life keeps, unless it is the failure of a write not allowed to fail, holds
of the run in every state reached by taking no others. -/
theorem ReachableBy.lane_invariant_of_writes {C : State → Action → Prop}
    {A : Lane → Write → Prop} {P : Lane → Prop} (r : RunId)
    (hC : ∀ s h w ret k, C s (.transact h false) → s.task h = .recording r (.writing w) ret k →
      A (s.lane r) w)
    (hinit : P ((State.init db).lane r))
    (hstep : ∀ a l l', l.Sound →
      (∀ w ret, l.hand = some (.writing w, ret) → l'.hand = some (.returned, ret) → A l w) →
      P l → Lane.Step cfg r a l l' → P l')
    (hs : ReachableBy cfg db C s) : P (s.lane r) := by
  refine System.ReachableBy.invariant (P := fun s => P (s.lane r)) ?_ ?_ hs
  · rintro s rfl
    exact hinit
  · intro s a s' hreach hp hc ha
    have hreach' : Reachable cfg db s := hreach.reachable
    have hsound := (reachable_sound hreach').2 r
    have hcourse := (hreach'.refines_step ha).lane r
    have hidle : ∀ {l l' : Lane}, l.hand = none → ∀ w ret,
        l.hand = some (.writing w, ret) → l'.hand = some (.returned, ret) → A l w := by
      intro l l' hn w ret hw
      exact absurd (hw.symm.trans hn) nofun
    cases hm : s.takes a r with
    | none =>
        rw [hm] at hcourse
        have hpath : Lane.Path cfg r (s.lane r) (s'.lane r) := hcourse
        generalize hl' : s'.lane r = l' at hpath
        cases hpath with
        | refl => exact hp
        | single ht =>
            refine hstep none _ _ hsound (fun w ret hw hret => ?_) hp ht
            obtain ⟨h, k, rfl, htask⟩ := transact_of_lost hreach' ha hw (hl' ▸ hret)
            exact hC s h w ret k hc htask
    | some m =>
        rw [hm] at hcourse
        obtain ⟨l₁, ht, hrest, harr⟩ := hcourse
        cases ht with
        | took hmr hh htakes =>
            have h₁ : P l₁ := hstep _ _ _ hsound (hidle hh) hp (.took hmr hh htakes)
            cases hq : m.arrival? with
            | none =>
                rw [harr hq]
                exact h₁
            | some x =>
                -- A run that arrives has nothing in hand when it is offered.
                have hn : l₁.hand = none := by
                  cases htakes with
                  | ignored hg =>
                      cases m with
                      | queued _ => exact hg.elim
                      | _ => cases hq
                  | arrived _ _ => exact hh
                  | _ => cases hq
                generalize hl' : s'.lane r = l' at hrest
                cases hrest with
                | refl => exact h₁
                | single ht' =>
                    exact hstep none _ _ (hsound.step (.took hmr hh htakes)) (hidle hn) h₁ ht'

/-- Action `a` is no failure of a relay's write that carries a `RUN_FINISHED` or
a `RUN_ERROR` where the run's row has none. -/
def State.keepsFacts (s : State) : Action → Bool
  | .transact h false =>
      match s.task h with
      | .recording r (.writing w) _ _ =>
          w.status.isSome || [runFinished, runErrorTag].all fun tag =>
            !w.carries tag || (s.rows r).any fun row => row.has tag
      | _ => true
  | _ => true

theorem reachable_backed (hs : ReachableBy cfg db (fun s a => s.keepsFacts a = true) s)
    (r : RunId) : (s.lane r).Backed := by
  refine ReachableBy.lane_invariant_of_writes (P := Lane.Backed)
    (A := fun l w => ∀ row, l.row = some row → Lane.Spares row w) r ?_ nofun ?_ hs
  · intro s h w ret k hc ht row hrow hst tag htag hcarries
    change s.rows r = some row at hrow
    simp only [State.keepsFacts, ht, hst, Option.isSome_none, Bool.false_or, List.all_eq_true,
      hrow, Option.any_some] at hc
    have := hc tag htag
    rwa [hcarries, Bool.not_true, Bool.false_or] at this
  · intro a l l' hl hw hb ht
    exact hb.step hl (fun w ret row hh hh' hrow => hw w ret hh hh' row hrow) ht

/-- **Main result.**  Where every write that fails keeps the facts, a row that is
completed has a `RUN_FINISHED`, a row that is failed a `RUN_ERROR`, and what a
run remembers of its stream is in its row whenever no write of it is in hand. -/
theorem outcome_is_on_record (hs : ReachableBy cfg db (fun s a => s.keepsFacts a = true) s)
    (hhome : (s.home r).isSome = true) :
    ∃ row, s.rows r = some row ∧
      (row.status = .completed → ∃ e ∈ row.events, hasType runFinished e.2 = true) ∧
      (row.status = .failed → ∃ e ∈ row.events, hasType runErrorTag e.2 = true) ∧
      ((∀ h w ret k, s.task h ≠ .recording r (.writing w) ret k) →
        ((s.run r).sawRunFinished = true → ∃ e ∈ row.events, hasType runFinished e.2 = true) ∧
        ((s.run r).sawRunError = true → ∃ e ∈ row.events, hasType runErrorTag e.2 = true)) := by
  obtain ⟨row, hrow, hf⟩ := reachable_backed hs r hhome
  refine ⟨row, hrow, fun h => Row.has_iff.1 (hf.completed h),
    fun h => Row.has_iff.1 (hf.failed h), fun hidle => ?_⟩
  obtain ⟨h, hh⟩ := Option.isSome_iff_exists.1 hhome
  have hp : (s.lane r).pending = none := by
    unfold Lane.pending
    split
    · rename_i w ret hw
      rw [State.lane_hand hh] at hw
      obtain ⟨k, ht⟩ := Task.recording_of_hand hw
      exact absurd ht (hidle h w ret k)
    · rfl
  rw [hp] at hf
  refine ⟨fun h => ?_, fun h => ?_⟩
  · rcases hf.finished h with h | ⟨w, hw, -⟩
    · exact Row.has_iff.1 h
    · cases hw
  · rcases hf.error h with h | ⟨w, hw, -⟩
    · exact Row.has_iff.1 h
    · cases hw

end Runs

/-! ## A broker whose database fails -/

namespace Demo

/-- The handler takes a message whose write fails, and advances. -/
def lose (h : HandlerId) (resumes : Nat) : List Action :=
  [.take h, .transact h false] ++ List.replicate resumes (.resume h)

/-- The provider says something, which is not written, and the run is completed. -/
def gap : List Action :=
  claimed ++ [.reportEvent "r" (.json (.obj [("type", .str "CUSTOM")])) "pk"] ++ lose 0 3 ++
    [.reportEvent "r" finishedEvent "pk"] ++ record 0 4 ++ [.finishStream "r" "pk"] ++ record 0 4

/-- The provider reports that the run has finished, which is not written, and
ends its stream. -/
def unwritten : List Action :=
  claimed ++ [.reportEvent "r" finishedEvent "pk"] ++ lose 0 3 ++ [.finishStream "r" "pk"] ++
    record 0 4

end Demo

/-- A run is completed, one of whose writes failed. -/
theorem outcome_is_on_record_gap :
    ((State.after Demo.config Demo.gap).trail "r").failedWrites = 1 ∧
      ((State.after Demo.config Demo.gap).rows "r").map Row.status = some .completed ∧
      ∃ row, (State.after Demo.config Demo.gap).rows "r" = some row ∧
        (row.status = .completed → ∃ e ∈ row.events, hasType runFinished e.2 = true) := by
  refine ⟨by decide +kernel, by decide +kernel, ?_⟩
  have hs : ReachableBy Demo.config (fun _ => none) (fun s a => s.keepsFacts a = true)
      (State.after Demo.config Demo.gap) :=
    System.ReachableBy.runFrom (p := State.keepsFacts) (fun _ _ h => h) (.init rfl)
      (by decide +kernel)
  obtain ⟨row, hrow, hc, -⟩ := outcome_is_on_record (r := "r") hs (by decide +kernel)
  exact ⟨row, hrow, hc⟩

/-- The write of one relay fails, the run is completed and its record is empty. -/
theorem completed_without_event :
    Reachable Demo.config (fun _ => none) (State.after Demo.config Demo.unwritten) ∧
      "r" ∉ (State.after Demo.config Demo.unwritten).runs ∧
      ((State.after Demo.config Demo.unwritten).trail "r").failedWrites = 1 ∧
      ∃ row, (State.after Demo.config Demo.unwritten).rows "r" = some row ∧
        row.status = .completed ∧ row.events = [] := by
  have h : "r" ∉ (State.after Demo.config Demo.unwritten).runs ∧
      ((State.after Demo.config Demo.unwritten).trail "r").failedWrites = 1 ∧
      ((State.after Demo.config Demo.unwritten).rows "r").any
        (fun row => row.status = .completed && row.events.isEmpty) = true := by
    decide +kernel
  obtain ⟨hleft, hlost, hrow⟩ := h
  obtain ⟨row, hrow, hend⟩ := (Option.any_eq_true _ _).1 hrow
  simp only [Bool.and_eq_true, decide_eq_true_eq, List.isEmpty_iff] at hend
  exact ⟨reachable_after _ _, hleft, hlost, row, hrow, hend⟩

end Funduq.Broker
