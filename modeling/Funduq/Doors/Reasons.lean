import Funduq.Doors.Together

/-!
# Why a run failed

A run is failed at five places.  The broker's two handlers commit the status and the
`RUN_ERROR` together.  `dispatch`, where nobody serves the run's agent, and `start`, of
what the last process held and of what changes a run that is lost, commit the status
first, and append the event in a transaction of its own.  A process that is gone in
between leaves a run that has failed and does not say why, and the next one looks only
at runs that have not ended.

Where neither place fails a run that has no `RUN_ERROR` yet, every failed run has one,
in every state of the tables.
-/

namespace Funduq.Doors

open Funduq.Lib Funduq.Store Funduq.Contract
open Funduq.Broker (Status hasType runErrorTag legalFrom)

variable {PrivateKey PublicKey : Type} {cfg : Config PrivateKey PublicKey} {bcfg : Broker.Config}

/-- The run has a `RUN_ERROR` among its committed events. -/
def Says (w : World) (runId : String) : Prop :=
  ∃ e ∈ w.eventsOf runId, hasType runErrorTag e.event = true

theorem Says.mono {w w' : World} {runId : String} (h : Says w runId)
    (hsub : w.events ⊆ w'.events) : Says w' runId := by
  obtain ⟨e, he, htag⟩ := h
  obtain ⟨hmem, hid⟩ := List.mem_filter.1 he
  exact ⟨e, List.mem_filter.2 ⟨hsub hmem, hid⟩, htag⟩

def Explained (w : World) : Prop := ∀ r ∈ w.runs, r.status = .failed → Says w r.runId

/-! ## While a process is at work -/

/-- What was taken in is failed by the broker, which says why; what was not is as it was. -/
theorem Joined.explained (hV : cfg.model.Verbatim) {w₀ : World} {s : Whole}
    (hgood : Good cfg true w₀) (hw₀ : Explained w₀) (hs : Joined cfg bcfg w₀ s) :
    Explained s.doors.world := by
  have hsane := (onwards_of_reachable hV hgood hs.process).inv.good.stored.filed.sane
  intro r hr hfailed
  cases hhome : s.broker.home r.runId with
  | none =>
      rcases hs.waiting r hr hhome with hq | ⟨r₀, hr₀, hid, hst⟩
      · exact absurd (hq.symm.trans hfailed) nofun
      · have hwhy := hw₀ r₀ hr₀ (hst.trans hfailed)
        rw [hid] at hwhy
        exact hwhy.mono hs.before
  | some h =>
      have hsome : (s.broker.home r.runId).isSome = true := by rw [hhome]; rfl
      obtain ⟨r', hr', row, hid, hrow, hst⟩ := hs.taken r.runId hsome
      cases List.inj_on_of_nodup_map hsane.runIds hr' hr hid
      obtain ⟨row', hrow', herror⟩ := Broker.failed_has_error hs.broker hsome
      cases hrow.symm.trans hrow'
      obtain ⟨e, he, htag⟩ := herror (hst.symm.trans hfailed)
      exact ⟨_, List.mem_filter.2 ⟨hs.events _ row hrow e he, by simp⟩, htag⟩

/-! ## While a process starts -/

/-- No event is taken back, and no failure. -/
structure Grows (w w' : World) : Prop where
  events : w.events ⊆ w'.events
  failed : ∀ r ∈ w.runs, r.status = .failed → ∃ r' ∈ w'.runs, r'.runId = r.runId ∧
    r'.status = .failed

theorem Grows.refl (w : World) : Grows w w :=
  ⟨List.Subset.refl _, fun r hr hst => ⟨r, hr, rfl, hst⟩⟩

theorem Grows.trans (a b c : World) (h : Grows a b) (h' : Grows b c) : Grows a c := by
  refine ⟨List.Subset.trans h.events h'.events, fun r hr hst => ?_⟩
  obtain ⟨r', hr', hid, hst'⟩ := h.failed r hr hst
  obtain ⟨r'', hr'', hid', hst''⟩ := h'.failed r' hr' hst'
  exact ⟨r'', hr'', hid'.trans hid, hst''⟩

/-- The rows are only moved on. -/
theorem grows_of_map {w w' : World} {f : RunRecord → RunRecord} (hf : ∀ r, Progress r (f r))
    (hruns : w'.runs = w.runs.map f) (hevents : w.events ⊆ w'.events) : Grows w w' := by
  refine ⟨hevents, fun r hr hst => ⟨f r, ?_, (hf r).runId, ?_⟩⟩
  · rw [hruns]
    exact List.mem_map_of_mem hr
  · exact ((hf r).outcome (by rw [hst]; rfl)).trans hst

theorem grows_apply (w : World) (x : Write) : Grows w (w.apply x) := by
  cases x with
  | touchThread threadId => exact .refl w
  | newThread row => exact ⟨List.Subset.refl _, fun r hr hst => ⟨r, hr, rfl, hst⟩⟩
  | newRun row opening =>
      exact ⟨List.Subset.refl _, fun r hr hst => ⟨r, List.mem_append_left _ hr, rfl, hst⟩⟩
  | newMessage row => exact ⟨List.Subset.refl _, fun r hr hst => ⟨r, hr, rfl, hst⟩⟩
  | markRunStatus runId status =>
      obtain ⟨f, hf, hruns⟩ := (still_markRunStatus w runId status).runs
      exact grows_of_map hf hruns (List.Subset.refl _)
  | appendRunEvent row =>
      exact ⟨List.subset_append_left _ _, fun r hr hst => ⟨r, hr, rfl, hst⟩⟩
  | recordCancelRequest note =>
      obtain ⟨f, hf, hruns⟩ := (still_cancel w note).runs
      exact grows_of_map hf hruns (List.Subset.refl _)
  | enqueueRun d => exact ⟨List.Subset.refl _, fun r hr hst => ⟨r, hr, rfl, hst⟩⟩

/-- What `start` would fail has its reason already. -/
def Settled (w : World) : Prop :=
  ∀ r ∈ w.runs, r.status ∈ heldStatuses ∨ r.runId ∈ lostIds w → Says w r.runId

/-- What a restart leaves failed had failed, or was settled. -/
theorem failed_restarted {w : World} (hs : Sane w) (input : RunRecord → RunAgentInput)
    {r' : RunRecord} (hr' : r' ∈ (restarted w input).runs) (hfailed : r'.status = .failed) :
    ∃ r ∈ w.runs, r.runId = r'.runId ∧
      (r.status = .failed ∨ r.status ∈ heldStatuses ∨ r.runId ∈ lostIds w) := by
  have hids := runIds_restarted (w := w) input
  have hmem : r'.runId ∈ w.runs.map RunRecord.runId := by
    rw [← hids]
    exact List.mem_map_of_mem hr'
  obtain ⟨r, hr, hid⟩ := List.mem_map.1 hmem
  refine ⟨r, hr, hid, ?_⟩
  have hrun := run_restarted hs input hr
  have hnodup : ((restarted w input).runs.map RunRecord.runId).Nodup := by
    rw [hids]
    exact hs.runIds
  by_cases hgone : r.status ∈ heldStatuses ∨ r.runId ∈ lostIds w
  · exact .inr hgone
  · rw [if_neg hgone] at hrun
    cases List.inj_on_of_nodup_map hnodup hrun hr' hid
    exact .inl hfailed

/-- A row that is handed over again is one that waits. -/
theorem handedIn_restarted {w : World} (hs : Sane w) (hnone : w.dispatched = [])
    (input : RunRecord → RunAgentInput) :
    HandedIn (restarted w input) (restarted w input) := by
  intro d hd
  rw [dispatched_restarted hs input hnone] at hd
  obtain ⟨r, hr, rfl⟩ := List.mem_map.1 hd
  have hqueued := (taken_sublist _ _).subset hr
  obtain ⟨hmem, hst⟩ := mem_queuedRuns.1 hqueued
  have hkept : ¬ (r.status ∈ heldStatuses ∨ r.runId ∈ lostIds w) := by
    rintro (h | h)
    · rw [hst] at h
      exact absurd h (by decide)
    · exact (mem_taken_iff (queuedRuns_nodup hs).of_map hqueued).1 hr ((mem_lostIds hs hmem).1 h)
  have hrun := run_restarted hs input hmem
  rw [if_neg hkept] at hrun
  refine ⟨⟨r, hrun, rfl⟩, fun r₀ hr₀ hid => ?_⟩
  have hnodup : ((restarted w input).runs.map RunRecord.runId).Nodup := by
    rw [runIds_restarted]
    exact hs.runIds
  cases List.inj_on_of_nodup_map hnodup hr₀ hrun hid
  exact hst

/-- **A restart**, and wherever it is stopped. -/
theorem start_explained (hM : cfg.model.Idempotent) {w : World} (hgood : Good cfg true w)
    (hlive : w.live = []) (hnone : w.dispatched = []) (hw : Explained w) (hsettled : Settled w) :
    (∀ runIds w', db.alone (start cfg false) [] w = some (.ok runIds, [], w') →
      Good cfg true w' ∧ Explained w' ∧ HandedIn w' w') ∧
    ∀ n, Good cfg true (db.stopped n (start cfg false) [] w) ∧
      Explained (db.stopped n (start cfg false) [] w) := by
  have hs := hgood.stored.filed.sane
  obtain ⟨input, -, hdoes⟩ := hgood.start hM hlive
  obtain ⟨ws, w₁, halone, hview, hws⟩ := hdoes.alone (Db.view_nil db w) fun _ => rfl
  rw [hws rfl] at halone hview
  have hw₁ : w₁ = restarted w input := hview
  subst hw₁
  have hwhy : ∀ r ∈ (restarted w input).runs, r.status = .failed → Says w r.runId := by
    intro r' hr' hfailed
    obtain ⟨r, hr, hid, hcause⟩ := failed_restarted hs input hr' hfailed
    rw [← hid]
    rcases hcause with h | h
    · exact hw r hr h
    · exact hsettled r hr h
  have hgrows := Db.alone_grows db Grows.refl Grows.trans grows_apply halone
  refine ⟨fun runIds w' hstart => ?_, fun n => ⟨?_, fun r hr hfailed => ?_⟩⟩
  · rw [hstart] at halone
    cases halone
    exact ⟨hdoes.inv hgood, fun r hr hfailed => (hwhy r hr hfailed).mono hgrows.events,
      handedIn_restarted hs hnone input⟩
  · exact hdoes.stopped (Db.view_nil db w) hgood hgood n
  · -- What has failed by then has failed at the end.
    have hrest := Db.stopped_alone db Grows.refl Grows.trans grows_apply halone n
    have hfirst := Db.stopped_grows db Grows.refl Grows.trans grows_apply
      (start cfg false) [] w n
    obtain ⟨r', hr', hid, hst⟩ := hrest.failed r hr hfailed
    rw [← hid]
    exact (hwhy r' hr' hst).mono hfirst.events

/-! ## Over all processes -/

/-- The committed states of the tables: while a process is at work, doors and broker
alike, and wherever a restart on what one has left is stopped.  `C` says of the moves
and `S` of the restarts which there may be. -/
inductive OnDisk (cfg : Config PrivateKey PublicKey) (bcfg : Broker.Config)
    (C : Whole → Whole.Action → Prop) (S : World → Prop) : World → Prop where
  | first {w₀ : World} {s : Whole} (h : Empty w₀)
      (hs : (Whole.system cfg bcfg w₀).ReachableBy C s) : OnDisk cfg bcfg C S s.doors.world
  | again {w w' : World} {runIds : List String} {s : Whole} (h : OnDisk cfg bcfg C S w) (hS : S w)
      (hstart : db.alone (start cfg false) [] (crashed w) = some (.ok runIds, [], w'))
      (hs : (Whole.system cfg bcfg w').ReachableBy C s) : OnDisk cfg bcfg C S s.doors.world
  | midway {w : World} (h : OnDisk cfg bcfg C S w) (hS : S w) (n : Nat) :
      OnDisk cfg bcfg C S (db.stopped n (start cfg false) [] (crashed w))

theorem OnDisk.good (hM : cfg.model.Idempotent) (hV : cfg.model.Verbatim) {w : World}
    (h : OnDisk cfg bcfg (fun s a => s.served a = true) Settled w) :
    Good cfg true w ∧ Explained w := by
  have hjoined : ∀ {w₀ : World} {s : Whole}, Good cfg true w₀ → Explained w₀ →
      HandedIn w₀ w₀ →
      (Whole.system cfg bcfg w₀).ReachableBy (fun s a => s.served a = true) s →
      Good cfg true s.doors.world ∧ Explained s.doors.world := by
    intro w₀ s hgood hw₀ hhanded hs
    have hj := joined_of_reachable hV hgood hhanded hs
    exact ⟨(onwards_of_reachable hV hgood hj.process).inv.good, hj.explained hV hgood hw₀⟩
  induction h with
  | first h hs =>
      refine hjoined h.good (fun r hr => ?_) (fun d hd => ?_) hs
      · rw [h.runs] at hr
        cases hr
      · rw [h.dispatched] at hd
        cases hd
  | again _ hS hstart hs ih =>
      obtain ⟨hgood, hw, hhanded⟩ := (start_explained hM ih.1.crashed rfl rfl ih.2 hS).1 _ _ hstart
      exact hjoined hgood hw hhanded hs
  | midway _ hS n ih => exact (start_explained hM ih.1.crashed rfl rfl ih.2 hS).2 n

/-- **Main result.**  Where no door fails a run, no restart fails one that has no
`RUN_ERROR`, and no write that fails costs one its `RUN_ERROR`, every failed run has
one in every committed state. -/
theorem failed_run_says_why (hM : cfg.model.Idempotent) (hV : cfg.model.Verbatim) {w : World}
    (h : OnDisk cfg bcfg (fun s a => s.served a = true) Settled w) :
    ∀ r ∈ w.runs, r.status = .failed → ∃ e ∈ w.eventsOf r.runId,
      hasType runErrorTag e.event = true :=
  (h.good hM hV).2

/-! ## A reason on record, and one that is not -/

namespace Demo

/-- A process that begins with `w`. -/
def fresh (w : World) : Whole where
  doors := { world := w }
  broker := .init (rowOn w)

/-- The broker takes the run in, and gives up on it. -/
def expired : List Broker.Action :=
  [.start, .openRow "r0",
    .enqueueRun { runId := "r0", agent := agent, threadId := "t", inputJson := .null }] ++
  Broker.Demo.look 0 ++ [.pushFail "r0" "no_provider_took_it" none] ++ Broker.Demo.record 0 4

/-- A run is opened and handed over. -/
def givenUp : List Whole.Action :=
  ([calls (.startRun agent (saying "m0") none none)] ++
    advances 0 ["t", "", "", "", "r0", "", "", "", "", "", "", "", ""]).map .door ++
  expired.map .broker

def noted : Whole :=
  (Whole.system config Broker.Demo.config start.world).runFrom (fresh start.world) givenUp

theorem noted_onDisk : OnDisk config Broker.Demo.config (fun s a => s.served a = true) Settled
    noted.doors.world ∧ Settled noted.doors.world := by
  have hrun : (Whole.system config Broker.Demo.config start.world).allows Whole.served
      (fresh start.world) givenUp = true ∧ Settled noted.doors.world := by
    unfold Settled Says
    decide +kernel
  exact ⟨.first ⟨rfl, rfl, rfl, rfl, rfl, rfl, rfl, rfl⟩
    (System.ReachableBy.runFrom (fun _ _ h => h) (.init ⟨rfl, rfl, rfl⟩) hrun.1), hrun.2⟩

/-- One agent, registered and served by nobody. -/
def unserved : World := { agents := [agent] }

/-- A run is opened and failed; then the process is gone. -/
def offline : List Whole.Action :=
  ([calls (.startRun agent (saying "m0") none none)] ++
    advances 0 ["t", "", "", "", "r0", "", "", "", "", "", "", ""]).map .door

def unexplained : Whole :=
  (Whole.system config Broker.Demo.config unserved).runFrom (fresh unserved) offline

end Demo

theorem failed_run_says_why_noted : ∃ w,
    OnDisk Demo.config Broker.Demo.config (fun s a => s.served a = true) Settled w ∧
      w.runs.map (fun r => (r.runId, r.status)) = [("r0", .failed)] ∧
      ∀ r ∈ w.runs, r.status = .failed → ∃ e ∈ w.eventsOf r.runId,
        hasType runErrorTag e.event = true := by
  have hdisk : OnDisk Demo.config Broker.Demo.config (fun s a => s.served a = true) Settled
      (db.stopped 40 (start Demo.config false) [] (crashed Demo.noted.doors.world)) :=
    .midway Demo.noted_onDisk.1 Demo.noted_onDisk.2 40
  exact ⟨_, hdisk, by decide +kernel,
    failed_run_says_why Demo.model_idempotent Demo.model_verbatim hdisk⟩

/-- The run is failed and the process gone before the event is appended; the next
process starts, and the run has failed and does not say why. -/
theorem failed_run_without_reason : ∃ w runIds w',
    OnDisk Demo.config Broker.Demo.config (fun _ _ => True) (fun _ => True) w ∧
      db.alone (start Demo.config false) [] (crashed w) = some (.ok runIds, [], w') ∧
      OnDisk Demo.config Broker.Demo.config (fun _ _ => True) (fun _ => True) w' ∧
      ∃ r ∈ w'.runs, r.status = .failed ∧ w'.eventsOf r.runId = [] := by
  have hdisk : OnDisk Demo.config Broker.Demo.config (fun _ _ => True) (fun _ => True)
      Demo.unexplained.doors.world :=
    .first ⟨rfl, rfl, rfl, rfl, rfl, rfl, rfl, rfl⟩
      (System.ReachableBy.runFrom (p := fun _ _ => true) (fun _ _ _ => trivial)
        (.init ⟨rfl, rfl, rfl⟩) (by decide +kernel))
  have hend : (db.alone (start Demo.config false) [] (crashed Demo.unexplained.doors.world)).any
      (fun x => x.2.1.isEmpty && (match x.1 with | .ok _ => true | .error _ => false) &&
        x.2.2.runs.any fun r => decide (r.status = .failed) && (x.2.2.eventsOf r.runId).isEmpty) =
      true := by
    decide +kernel
  obtain ⟨⟨result, ws, w'⟩, hstart, h⟩ := (Option.any_eq_true _ _).1 hend
  simp only [Bool.and_eq_true, List.isEmpty_iff, List.any_eq_true, decide_eq_true_eq] at h
  obtain ⟨⟨rfl, hok⟩, hrun⟩ := h
  cases result with
  | error e => cases hok
  | ok runIds =>
      exact ⟨_, runIds, w', hdisk, hstart,
        .again (s := Demo.fresh w') hdisk trivial hstart (.init ⟨rfl, rfl, rfl⟩), hrun⟩

end Funduq.Doors
