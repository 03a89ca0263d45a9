import Funduq.Broker.Refinement

/-!
# Who takes a step

The refinement of `Refinement.lean` says what a step is to one run.  What a step
is to the broker as a whole (the roster of providers, the other threads, the
sweep) depends on who takes it.  A handler takes a message and moves, settles a
run, or leaves its loop (`handler_cases`).  Everybody else posts messages, takes
providers out of service or enqueues a run, none of which moves a queue or
changes what any provider may still take on (`outer_step`).  A registration is
the one step that gives somebody more to serve, and it is neither.
-/

namespace Funduq.Broker

open Funduq.Lib

/-- The thread handler whose coroutine an action resumes. -/
def Action.handler? : Action → Option HandlerId
  | .take h => some h
  | .transact h _ => some h
  | .resume h => some h
  | _ => none

namespace State

variable {cfg : Config} {s s' t : State} {h : HandlerId} {a : Action}

/-! ## Handlers -/

/-- The state a handler's move starts from: the state as it is, or with a message
off the handler's inbox, and the run it brings in. -/
inductive Reads (s : State) (h : HandlerId) : State → Prop where
  | nothing : Reads s h s
  | heard {m : Message} {rest : List Message} (hi : s.task h = .idle)
      (hin : s.inbox h = m :: rest) (hm : m.arrival? = none) : Reads s h (s.heard h m rest)
  | arrived {r : RunId} {rest : List Message} (hi : s.task h = .idle)
      (hin : s.inbox h = .queued r :: rest) : Reads s h (s.arrived h r rest)

/-- A handler makes one move. -/
def Turns (s : State) (h : HandlerId) (s' : State) : Prop :=
  ∃ t R r w, s.Reads h t ∧ t.Moved R h r w s'

/-- **A handler's step.**  It is one move, settles a run or leaves the loop. -/
theorem handler_cases (hs : Inv s) (hl : ∀ r, (s.lane r).Sound) (ha : a.handler? = some h)
    (hstep : s.step cfg a = some s') : s.Turns h s' ∨ s.Settles h s' ∨ s.Leaves h s' := by
  cases a with
  | take h' =>
      cases ha
      have hclaim : ∀ r ∈ s.live h, s.task h = .idle → (s.run r).verdictOpen = true →
          (s.run r).claimedBy = none := by
        intro r hr hi ho
        have hhome := hs.roll.home_of_live hr
        have hhand : (s.lane r).hand = none := by
          rw [lane_hand hhome, hi]
          rfl
        exact ((hl r).offering_of_open ((lane_live hhome).2 hr) hhand ho).2.2.1
      obtain ⟨m, rest, hi, hin, hm⟩ := take_cases hs hclaim hstep
      rcases hm with ⟨hnone, r, w, hm⟩ | ⟨x, rfl, r, w, hm⟩
      · exact .inl ⟨_, _, r, w, .heard hi hin hnone, hm⟩
      · exact .inl ⟨_, _, r, w, .arrived hi hin, hm⟩
  | transact h' succeeds =>
      cases ha
      have hm : s.Moves (Goes cfg) h s' := moves_transact hs hstep
      obtain ⟨r, w, hm⟩ := hm
      exact .inl ⟨s, _, r, w, .nothing, hm⟩
  | resume h' =>
      cases ha
      rcases moves_resume hs hstep with ⟨r, w, hm⟩ | hm | hm
      · exact .inl ⟨s, _, r, w, .nothing, hm⟩
      · exact .inr (.inl hm)
      · exact .inr (.inr hm)
  | _ => cases ha

/-- Reading a message touches nothing but the handler's inbox, the trails and the
handler's list of live runs. -/
theorem Reads.eq (hr : s.Reads h t) : ∃ inbox trail live,
    t = { s with inbox := inbox, trail := trail, live := live } ∧
      ∀ h', h' ≠ h → inbox h' = s.inbox h' ∧ live h' = s.live h' := by
  cases hr with
  | nothing => exact ⟨s.inbox, s.trail, s.live, rfl, fun _ _ => ⟨rfl, rfl⟩⟩
  | heard _ _ _ =>
      refine ⟨_, _, s.live, heard_eq .., fun h' hne => ⟨?_, rfl⟩⟩
      exact Function.update_of_ne hne ..
  | arrived _ _ =>
      refine ⟨_, _, _, arrived_eq .., fun h' hne => ⟨?_, ?_⟩⟩
      · exact Function.update_of_ne hne ..
      · exact Function.update_of_ne hne ..

theorem Reads.roll (hr : s.Reads h t) (hs : Inv s) : Roll t := by
  cases hr with
  | nothing => exact hs.roll
  | heard _ hin hm => exact (inv_heard hs hin hm).roll
  | arrived _ hin => exact (invBut_arrived hs hin).roll

/-! ## Everybody else -/

/-- What a step that no handler takes may do, registrations apart.  The sweep is
no exception to the last clause: it pokes every thread. -/
structure Outer (s s' : State) : Prop where
  serving : ∀ agent k, s'.serving.get? agent = some k → s.serving.get? agent = some k
  inFlight : ∀ k, (s'.provider k).inFlight = (s.provider k).inFlight
  declared : ∀ k, (s'.provider k).declared = (s.provider k).declared
  connection : ∀ k, (s'.provider k).connection = (s.provider k).connection
  lowered : s'.lowered = s.lowered
  run : ∀ r, s'.run r = s.run r ∨ s'.run r = (s.run r).askCancel ∨
    s.home r = none ∧ (s'.run r).Fresh
  queue : s'.queue = s.queue
  task : ∀ h, h < s.nextHandler → s'.task h = s.task h
  inbox : ∀ h, s.inbox h <+: s'.inbox h
  looked : s'.loopTask = some .waiting → s'.workToDo = false →
    s.loopTask = some .waiting ∧ s.workToDo = false ∨
      ∀ h ∈ s.threads.values, s'.inbox h ≠ []

theorem Grows.prefix {o : Outside} (hg : s.Grows o) (h : HandlerId) :
    s.inbox h <+: o.inbox h := by
  obtain ⟨l, hi, -⟩ := hg.inbox h
  exact ⟨l, hi.symm⟩

theorem outer_of_still (hq : s.Still s') : Outer s s' := by
  obtain ⟨o, rfl, hg, hk⟩ := hq
  have hk := hk Run.blank
  exact
    { serving := hk.serving
      inFlight := fun k => Nat.add_right_cancel (hk.inFlight k)
      declared := hk.declared
      connection := hk.connection
      lowered := hk.lowered
      run := fun _ => .inl rfl
      queue := rfl
      task := fun _ _ => rfl
      inbox := hg.prefix
      looked := fun hw hn => .inl ⟨hw, hk.workToDo.symm.trans hn⟩ }

/-- Nothing has changed that anybody looks at but the sweep. -/
theorem outer_of_same {loopTask : Option LoopTask} {workToDo : Bool} {now : Time}
    {rows : RunId → Option Row} {trail : RunId → Trail} {handovers : List Handover}
    (hlooked : loopTask = some .waiting → workToDo = false →
      s.loopTask = some .waiting ∧ s.workToDo = false) :
    Outer s { s with
      loopTask := loopTask
      workToDo := workToDo
      now := now
      rows := rows
      trail := trail
      handovers := handovers } where
  serving _ _ h := h
  inFlight _ := rfl
  declared _ := rfl
  connection _ := rfl
  lowered := rfl
  run _ := .inl rfl
  queue := rfl
  task _ _ := rfl
  inbox _ := List.prefix_rfl
  looked hw hn := .inl (hlooked hw hn)

theorem outer_sweep (hs : s.AtHome) (cfg : Config) : Outer s (s.sweep cfg) := by
  have hq := outer_of_still (still_sweep hs cfg)
  refine { hq with looked := fun _ _ => .inr fun h hh => ?_ }
  have hpoked : (s.sweep cfg).inbox h =
      ((s.expireQueued cfg.unservedTimeout).1).inbox h ++ [Message.poke] := by
    have hthreads : (s.expireQueued cfg.unservedTimeout).1.threads = s.threads := by
      obtain ⟨o, ho, -⟩ := still_pushFails hs "no_provider_took_it"
        (s.runs.filter fun r => s.expired cfg.unservedTimeout r)
      change (List.foldl _ s _).threads = _
      rw [ho]
      rfl
    exact if_pos (hthreads ▸ hh)
  rw [hpoked]
  exact List.append_ne_nil_of_right_ne_nil _ (List.cons_ne_nil _ _)

theorem outer_requestCancel (hs : s.AtHome) (r : RunId) : Outer s (s.requestCancel r).1 := by
  by_cases hheld : r ∈ s.runs
  · obtain ⟨o, ho, hrest⟩ := still_requestCancel hs hheld
    have hq : Outer (s.cancelNoted r) (s.requestCancel r).1 := outer_of_still ⟨o, ho, hrest⟩
    refine { hq with run := fun x => ?_ }
    rw [ho]
    by_cases hx : x = r
    · subst hx
      exact .inr (.inl (Function.update_self ..))
    · exact .inl (Function.update_of_ne hx ..)
  · unfold requestCancel
    rw [if_neg hheld]
    exact outer_of_still (.refl s)

private theorem outer_takeIn {e : Enqueue} (hs : s.home e.runId = none)
    (hrun : t.run = s.run) (hq : t.queue = s.queue) (hi : t.inbox = s.inbox)
    (htask : ∀ h, h < s.nextHandler → t.task h = s.task h)
    (hserving : t.serving = s.serving) (hp : t.providers = s.providers)
    (hl : t.lowered = s.lowered) (hloop : t.loopTask = s.loopTask)
    (hw : t.workToDo = s.workToDo) (events : List (Nat × Json)) :
    Outer s (t.takeIn h e.runId (s.newRun e) events) where
  serving agent k hk := by
    change t.serving.get? agent = some k at hk
    rwa [hserving] at hk
  inFlight k := by
    change ((t.providers k).getD {}).inFlight = _
    rw [hp]
    rfl
  declared k := by
    change ((t.providers k).getD {}).declared = _
    rw [hp]
    rfl
  connection k := by
    change ((t.providers k).getD {}).connection = _
    rw [hp]
    rfl
  lowered := hl
  run x := by
    by_cases hx : x = e.runId
    · subst hx
      refine .inr (.inr ⟨hs, ?_⟩)
      change (Function.update t.run e.runId (s.newRun e) e.runId).Fresh
      rw [Function.update_self]
      exact rfl
    · refine .inl ((Function.update_of_ne hx ..).trans ?_)
      rw [hrun]
  queue := hq
  task := htask
  inbox h' := by
    change s.inbox h' <+: Function.update t.inbox h (t.inbox h ++ [Message.queued e.runId]) h'
    by_cases hh : h' = h
    · subst hh
      rw [Function.update_self, hi]
      exact List.prefix_append ..
    · have he : Function.update t.inbox h (t.inbox h ++ [Message.queued e.runId]) h' = s.inbox h' :=
        (Function.update_of_ne hh ..).trans (congrFun hi h')
      exact he ▸ List.prefix_rfl
  looked hlp hwk := .inl ⟨hloop.symm.trans hlp, hw.symm.trans hwk⟩

theorem outer_enqueueRun {e : Enqueue} (hs : Inv s) (hmay : s.mayEnqueue e = true) :
    Outer s (s.enqueueRun e) := by
  have hhome : s.home e.runId = none := by
    simp only [mayEnqueue, Bool.and_eq_true, Option.isNone_iff_eq_none] at hmay
    exact hmay.1.2
  rw [enqueueRun_eq hs.roll]
  cases ht : s.threads.get? e.threadId with
  | some h => exact outer_takeIn hhome rfl rfl rfl (fun _ _ => rfl) rfl rfl rfl rfl rfl _
  | none =>
      refine outer_takeIn (t := s.newHandler e.threadId e.agent) hhome rfl rfl rfl ?_ rfl rfl rfl
        rfl rfl _
      intro h hlt
      exact Function.update_of_ne (Nat.ne_of_lt hlt) ..

/-- **Everybody else's step.** -/
theorem outer_step (hs : Inv s) (ha : a.handler? = none)
    (hr : ∀ mapping, a ≠ .registerProvider mapping) (hstep : s.step cfg a = some s') :
    Outer s s' := by
  have hpost : ∀ r m, (∀ h, s.home r = some h → s.News h m) → Outer s (s.postTo r m).1 :=
    fun r m hn => outer_of_still (still_postTo hs.roll.atHome hn)
  cases a with
  | start =>
      simp only [step] at hstep
      split at hstep
      · cases hstep
        exact outer_of_same (by simp)
      · cases hstep
        exact outer_of_still (.refl s)
  | stop =>
      cases hstep
      exact outer_of_same (by simp)
  | tick elapsed =>
      cases hstep
      exact outer_of_same And.intro
  | openRow r =>
      simp only [step] at hstep
      split at hstep
      · cases hstep
        exact outer_of_same And.intro
      · cases hstep
  | enqueueRun e =>
      simp only [step] at hstep
      split at hstep
      · rename_i hmay
        cases hstep
        exact outer_enqueueRun hs hmay
      · cases hstep
  | answerOffer r answer key =>
      cases hstep
      exact hpost _ _ fun _ hh => ⟨rfl, (by simp), by rintro x ⟨⟩; exact hh, (by simp)⟩
  | reportEvent r event origin =>
      cases hstep
      exact hpost _ _ fun _ hh => ⟨rfl, (by simp), by rintro x ⟨⟩; exact hh, (by simp)⟩
  | finishStream r origin =>
      cases hstep
      exact hpost _ _ fun _ hh => ⟨rfl, (by simp), by rintro x ⟨⟩; exact hh, (by simp)⟩
  | pushFail r code message =>
      cases hstep
      exact hpost _ _ fun _ hh => news_fail hh code message
  | noteUndelivered r =>
      cases hstep
      exact hpost _ _ fun _ hh => ⟨rfl, (by simp), by rintro x ⟨⟩; exact hh, (by simp)⟩
  | requestCancel r =>
      cases hstep
      exact outer_requestCancel hs.roll.atHome r
  | registerProvider mapping => exact absurd rfl (hr mapping)
  | unregisterProvider agents =>
      cases hstep
      exact outer_of_still (still_unregisterProvider hs.roll.atHome agents)
  | sweep =>
      simp only [step] at hstep
      split at hstep
      · cases hstep
        exact outer_sweep hs.roll.atHome cfg
      · cases hstep
  | clockRunsOut clock => exact outer_of_still (still_clockRunsOut hs hstep)
  | deliver task =>
      simp only [step, State.deliver] at hstep
      split at hstep
      · cases hstep
        exact outer_of_same And.intro
      · cases hstep
  | handOverEnds task fails => exact outer_of_still (still_handOverEnds hs hstep)
  | take h => cases ha
  | transact h succeeds => cases ha
  | resume h => cases ha

/-- A handler's coroutine stays where it is while others take their steps. -/
theorem task_of_other (hs : Inv s) (hl : ∀ r, (s.lane r).Sound) (ha : a.handler? ≠ some h)
    (hlt : h < s.nextHandler) (hstep : s.step cfg a = some s') : s'.task h = s.task h := by
  cases hh : a.handler? with
  | none =>
      by_cases hreg : ∃ mapping, a = .registerProvider mapping
      · obtain ⟨mapping, rfl⟩ := hreg
        cases hstep
        obtain ⟨o, ho, -⟩ := quiet_registerProvider s mapping
        rw [ho]
        rfl
      · exact (outer_step hs hh (fun mapping he => hreg ⟨mapping, he⟩) hstep).task h hlt
  | some h' =>
      have hne : h ≠ h' := fun he => ha (hh.trans (congrArg some he.symm))
      rcases handler_cases hs hl hh hstep with ⟨t, R, r, w, hread, hm⟩ | hm | hm
      · obtain ⟨_, _, _, rfl, -⟩ := hread.eq
        obtain ⟨o, rfl, -⟩ := hm.did
        exact Function.update_of_ne hne ..
      · obtain ⟨r, ret, k, o, -, -, rfl, -⟩ := settles_eq hs hm
        exact Function.update_of_ne hne ..
      · obtain ⟨-, -, -, rfl⟩ := hm
        unfold leave
        dsimp only
        split <;> exact Function.update_of_ne hne ..

end State

end Funduq.Broker
