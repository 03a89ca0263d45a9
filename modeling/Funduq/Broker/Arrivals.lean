import Funduq.Broker.Ledger
import Funduq.Broker.Queues

/-!
# The runs that came in

A run comes in once, by `enqueue_run`, on the handler of its thread, and stays with
that handler, on its thread and addressed to whom it was.  `State.arrivals` is the
record of it: the runs enqueued on a handler are the ones at home there, each once
and in the order they were enqueued.
-/

namespace Funduq.Broker

open Funduq.Lib

/-! ## The life of a run -/

namespace Lane

variable {cfg : Config} {r : RunId} {a : Option Message} {l l' : Lane}

/-- A run stays on its thread and addressed to whom it was. -/
theorem Step.bound (hh : l.home.isSome = true) (ht : Step cfg r a l l') :
    l'.run.addressedRunId = l.run.addressedRunId ∧ l'.run.threadId = l.run.threadId := by
  cases ht with
  | enqueued hn _ _ _ _ =>
      rw [hn] at hh
      cases hh
  | took _ _ ht =>
      cases ht with
      | accepted _ _ _ =>
          exact ⟨handle_addressedRunId cfg .claim (l.run.accept _),
            handle_threadId cfg .claim (l.run.accept _)⟩
      | refused _ _ _ => exact ⟨handle_addressedRunId .., handle_threadId ..⟩
      | declined _ _ _ => exact ⟨handle_addressedRunId .., handle_threadId ..⟩
      | lapsed _ _ _ => exact ⟨handle_addressedRunId .., handle_threadId ..⟩
      | said _ _ => exact ⟨handle_addressedRunId .., handle_threadId ..⟩
      | cancelled _ _ _ => exact ⟨handle_addressedRunId .., handle_threadId ..⟩
      | failed _ => exact ⟨handle_addressedRunId .., handle_threadId ..⟩
      | _ => exact ⟨rfl, rfl⟩
  | offered _ _ _ _ => exact ⟨handle_addressedRunId .., handle_threadId ..⟩
  | invalid _ _ _ => exact ⟨handle_addressedRunId .., handle_threadId ..⟩
  | cancelChecked _ _ _ _ => exact ⟨handle_addressedRunId .., handle_threadId ..⟩
  | poisoned _ _ => exact ⟨handle_addressedRunId .., handle_threadId ..⟩
  | settled _ _ =>
      obtain ⟨_, h⟩ := l.run.settle_run
      exact ⟨(congrArg Run.addressedRunId h :), (congrArg Run.threadId h :)⟩
  | _ => exact ⟨rfl, rfl⟩

/-- A run comes home held, and not yet live. -/
theorem Step.home_new {h : HandlerId} (ht : Step cfg r a l l') (hn : l.home = none)
    (hh : l'.home = some h) : l'.held = true ∧ l'.live = l.live := by
  cases ht with
  | enqueued _ _ _ _ _ => exact ⟨rfl, rfl⟩
  | took _ _ ht => cases ht <;> exact absurd (hh.symm.trans hn) nofun
  | _ => exact absurd (hh.symm.trans hn) nofun

/-- A run the broker has let go of has ended. -/
def LeftEnded (l : Lane) : Prop := l.home.isSome = true → l.held = false → l.Ended

theorem LeftEnded.step (hs : l.Sound) (hp : l.LeftEnded) (ht : Step cfg r a l l') :
    l'.LeftEnded := by
  intro hhome hheld
  cases ht.writes hs with
  | opened _ he =>
      subst he
      exact hp hhome hheld
  | enqueued _ _ _ _ he =>
      subst he
      cases hheld
  | kept hk =>
      have hended : l.Ended := by
        rcases hk.left hheld with hl | hl
        · exact hp (hk.home ▸ hhome) hl
        · exact hl
      unfold Ended
      rw [hk.recorded]
      exact hended
  | entered hc => exact absurd (hc.held.symm.trans hheld) nofun
  | lost _ he =>
      subst he
      exact hp hhome hheld

end Lane

namespace State

variable {cfg : Config} {s s' : State} {h : HandlerId} {r x : RunId} {a : Action}

/-! ## Arrivals -/

/-- The runs enqueued on handler `h`, in order. -/
def arrivals (s : State) (h : HandlerId) : List RunId := (s.posted h).filterMap Message.arrival?

theorem arrival_of_posts {m : Message} (ha : ∀ e, a ≠ .enqueueRun e) (hp : a.Posts m) :
    m.arrival? = none := by
  cases a with
  | enqueueRun e => exact absurd rfl (ha e)
  | answerOffer => rw [show m = _ from hp]; rfl
  | reportEvent => rw [show m = _ from hp]; rfl
  | finishStream => rw [show m = _ from hp]; rfl
  | pushFail => rw [show m = _ from hp]; rfl
  | noteUndelivered => rw [show m = _ from hp]; rfl
  | requestCancel => rw [show m = _ from hp]; rfl
  | clockRunsOut => rw [show m = _ from hp]; rfl
  | handOverEnds => rw [show m = _ from hp]; rfl
  | _ => rcases hp with rfl | ⟨x, rfl⟩ <;> rfl

/-- Nothing arrives but by `enqueue_run`. -/
theorem arrivals_step (ha : ∀ e, a ≠ .enqueueRun e) (hstep : s.step cfg a = some s')
    (h : HandlerId) : s'.arrivals h = s.arrivals h ∧
      s'.arriving h = (s.unread h a).filterMap Message.arrival? := by
  obtain ⟨l, hi, hp, hl⟩ := inbox_step hstep h
  have hnone : l.filterMap Message.arrival? = [] :=
    List.filterMap_eq_nil_iff.2 fun m hm => arrival_of_posts ha (hl m hm)
  refine ⟨?_, ?_⟩
  · rw [arrivals, hp, List.filterMap_append, hnone, List.append_nil]
    rfl
  · rw [arriving, hi, List.filterMap_append, hnone, List.append_nil]

/-- What `enqueue_run` brings in, and where. -/
structure TakesIn (s : State) (e : Enqueue) (h : HandlerId) (s' : State) : Prop where
  fresh : s.home e.runId = none
  home : s'.home e.runId = some h
  run : s'.run e.runId = s.newRun e
  thread : s.threads.get? e.threadId = some h ∨
    s.threads.get? e.threadId = none ∧ h = s.nextHandler
  arrivals : s'.arrivals = Function.update s.arrivals h (s.arrivals h ++ [e.runId])
  arriving : s'.arriving = Function.update s.arriving h (s.arriving h ++ [e.runId])
  home_of_ne : ∀ r, r ≠ e.runId → s'.home r = s.home r
  trail : ∀ r, (s'.trail r).offers = (s.trail r).offers
  queue : s'.queue = s.queue

theorem takesIn_takeIn {e : Enqueue} {t : State} (hfresh : s.home e.runId = none)
    (hthread : s.threads.get? e.threadId = some h ∨
      s.threads.get? e.threadId = none ∧ h = s.nextHandler)
    (hi : t.inbox = s.inbox) (hp : t.posted = s.posted) (ht : t.trail = s.trail)
    (hq : t.queue = s.queue) (hh : t.home = s.home) (events : List (Nat × Json)) :
    s.TakesIn e h (t.takeIn h e.runId (s.newRun e) events) where
  fresh := hfresh
  home := Function.update_self ..
  run := Function.update_self ..
  thread := hthread
  arrivals := by
    funext h'
    unfold State.arrivals takeIn
    by_cases hh : h' = h
    · subst hh
      simp [hp, Message.arrival?]
    · simp [hp, hh]
  arriving := by
    funext h'
    rw [arriving_takeIn]
    unfold State.arriving
    rw [hi]
    by_cases hh : h' = h
    · subst hh
      simp
    · simp [hh]
  home_of_ne r hr := by
    change Function.update t.home e.runId _ r = _
    rw [Function.update_of_ne hr, hh]
  trail r := by
    change (Function.update t.trail e.runId _ r).offers = _
    rw [ht]
    by_cases hr : r = e.runId
    · subst hr
      rw [Function.update_self]
    · rw [Function.update_of_ne hr]
  queue := hq

theorem takesIn_step {e : Enqueue} (hs : Inv s) (hstep : s.step cfg (.enqueueRun e) = some s') :
    ∃ h, s.TakesIn e h s' := by
  simp only [step] at hstep
  split at hstep
  · rename_i hmay
    cases hstep
    simp only [mayEnqueue, Bool.and_eq_true, Option.isNone_iff_eq_none] at hmay
    rw [enqueueRun_eq hs.roll]
    cases ht : s.threads.get? e.threadId with
    | some h => exact ⟨h, takesIn_takeIn hmay.1.2 (.inl ht) rfl rfl rfl rfl rfl _⟩
    | none =>
        exact ⟨s.nextHandler, takesIn_takeIn (t := s.newHandler e.threadId e.agent) hmay.1.2
          (.inr ⟨ht, rfl⟩) rfl rfl rfl rfl rfl _⟩
  · cases hstep

end State

section Reachable

variable {cfg : Config} {db : RunId → Option Row} {s s' : State} {h : HandlerId} {r : RunId}
  {a : Action}

theorem reachable_leftEnded (hs : Reachable cfg db s) (r : RunId) : (s.lane r).LeftEnded :=
  hs.lane_invariant r nofun fun _ _ _ hl hp ht => hp.step hl ht

theorem Reachable.bound_kept (hs : Reachable cfg db s) (hh : s.home r = some h)
    (hstep : s.step cfg a = some s') :
    (s'.run r).addressedRunId = (s.run r).addressedRunId ∧
      (s'.run r).threadId = (s.run r).threadId := by
  have hkept := (((hs.refines_step hstep).lane r).keeps (A := fun _ _ => True)
    (P := fun l => l.home = some h ∧ l.run.addressedRunId = (s.run r).addressedRunId ∧
      l.run.threadId = (s.run r).threadId) (fun _ _ => trivial) ?_
    ((reachable_sound hs).2 r) ⟨hh, rfl, rfl⟩).2
  · exact hkept.2
  · rintro _ l l' - - ⟨hh, ha, ht⟩ hl
    have hb := hl.bound (by rw [hh]; rfl)
    exact ⟨hl.home hh, hb.1.trans ha, hb.2.trans ht⟩

theorem Reachable.takesIn_step {e : Enqueue} (hs : Reachable cfg db s)
    (hstep : s.step cfg (.enqueueRun e) = some s') : ∃ h, s.TakesIn e h s' :=
  State.takesIn_step (reachable_inv hs) hstep

/-- Only `enqueue_run` gives a run its home. -/
theorem Reachable.home_step (hs : Reachable cfg db s) (ha : ∀ e, a ≠ .enqueueRun e)
    (hstep : s.step cfg a = some s') (r : RunId) : s'.home r = s.home r := by
  cases hh : s.home r with
  | some h => exact hs.home_kept hh hstep
  | none =>
      cases hh' : s'.home r with
      | none => rfl
      | some h =>
          have hinv := reachable_inv hs
          have href := hs.refines_step hstep
          have hcourse := href.lane r
          have hm : s.takes a r = none := by
            cases hm : s.takes a r with
            | none => rfl
            | some m =>
                obtain ⟨h', -, -, -, hhome⟩ := State.takes_home hinv.roll hm
                exact absurd (hh.symm.trans hhome) nofun
          rw [hm] at hcourse
          rcases (Relation.reflGen_iff _ _ _).1 hcourse with hsame | ht
          · have hnone : (s'.lane r).home = none := (congrArg Lane.home hsame).trans hh
            exact absurd (hh'.symm.trans hnone) nofun
          obtain ⟨hheld, hlive⟩ := ht.home_new hh hh'
          have hnl : r ∉ s'.live h := by
            intro hmem
            have := (State.lane_live hh').2 hmem
            rw [hlive] at this
            simp [State.lane, hh] at this
          obtain ⟨h', hthread⟩ := (href.inv.roll.held_iff r).1 (of_decide_eq_true hheld)
          cases (href.inv.roll.atHome r h' hthread).symm.trans hh'
          have hmem := (href.inv.roll.mem_iff h r).2 hthread
          rcases List.mem_append.1 hmem with hmem | hmem
          · exact absurd hmem hnl
          · rw [(State.arrivals_step ha hstep h).2] at hmem
            have hold : r ∈ s.arriving h :=
              ((s.unread_sublist h a).filterMap Message.arrival?).subset hmem
            have hthread' := (hinv.roll.mem_iff h r).1 (List.mem_append_right _ hold)
            exact absurd (hh.symm.trans (hinv.roll.atHome r h hthread')) nofun

/-- The runs enqueued on a handler are the ones at home there, each once. -/
theorem reachable_arrivals (hs : Reachable cfg db s) :
    ∀ h, (s.arrivals h).Nodup ∧ ∀ r, r ∈ s.arrivals h ↔ s.home r = some h := by
  refine System.Reachable.invariant (P := fun s => ∀ h, (s.arrivals h).Nodup ∧
    ∀ r, r ∈ s.arrivals h ↔ s.home r = some h) ?_ ?_ hs
  · rintro s rfl h
    exact ⟨List.nodup_nil, fun r => ⟨nofun, nofun⟩⟩
  · intro s a s' hreach ih hstep h
    have hs : Reachable cfg db s := hreach
    by_cases ha : ∃ e, a = .enqueueRun e
    · obtain ⟨e, rfl⟩ := ha
      obtain ⟨h₀, htake⟩ := hs.takesIn_step hstep
      have hother : ∀ r, r ≠ e.runId → s'.home r = s.home r := htake.home_of_ne
      rw [htake.arrivals]
      by_cases hh : h = h₀
      · subst hh
        rw [Function.update_self]
        have hnew : e.runId ∉ s.arrivals h := by
          rw [(ih h).2, htake.fresh]
          exact nofun
        refine ⟨List.nodup_append.2 ⟨(ih h).1, List.nodup_singleton _, ?_⟩, fun r => ?_⟩
        · rintro x hx y hy rfl
          exact hnew (List.mem_singleton.1 hy ▸ hx)
        · by_cases hr : r = e.runId
          · subst hr
            simp [htake.home]
          · simp [hr, (ih h).2 r, hother r hr]
      · rw [Function.update_of_ne hh]
        refine ⟨(ih h).1, fun r => ?_⟩
        by_cases hr : r = e.runId
        · subst hr
          rw [(ih h).2, htake.fresh, htake.home]
          exact ⟨nofun, fun he => absurd (Option.some.inj he).symm hh⟩
        · rw [(ih h).2, hother r hr]
    · have ha' : ∀ e, a ≠ .enqueueRun e := fun e he => ha ⟨e, he⟩
      rw [(State.arrivals_step ha' hstep h).1]
      refine ⟨(ih h).1, fun r => ?_⟩
      rw [(ih h).2, hs.home_step ha' hstep]

/-- A run that never came in was never offered. -/
theorem Reachable.offers_of_unborn (hs : Reachable cfg db s) (hh : s.home r = none) :
    (s.trail r).offers = [] := by
  by_contra hne
  have hmem := (offer_mem_iff hs r).2 hne
  have hrec : (s.trail r).recorded = [] := ((reachable_sound hs).2 r).unborn hh
  rw [hrec] at hmem
  cases hmem

end Reachable

end Funduq.Broker
