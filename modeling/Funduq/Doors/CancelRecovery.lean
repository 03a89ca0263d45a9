import Funduq.Broker.Arrivals
import Funduq.Doors.Recovery

/-!
# A cancel and a restart

A cancel is asked for in two places: in the run's row, and then of the broker.  A
process that is gone in between leaves a run that waits with `cancel_requested` in its
row, and the next process takes it back off its row like any other: what is handed to
the broker has no place for the request, and the broker offers the run.

Such a run is offered to nobody where it is not taken back at all: where it is
addressed to a run that was not taken back before it (`lostIds`).
-/

namespace Funduq.Doors

open Funduq.Lib Funduq.Store
open Funduq.Broker (Status Command)

variable {PrivateKey PublicKey : Type} {cfg : Config PrivateKey PublicKey}

/-! ## Whom a process hands over -/

/-- The run is on file, and was not handed to the broker. -/
structure Unhanded (id : String) (w : World) : Prop where
  filed : ∃ r ∈ w.runs, r.runId = id
  kept : ∀ d ∈ w.dispatched, d.runId ≠ id

theorem Unhanded.later {id : String} {w w' : World} (h : Unhanded id w) (hlater : Later w w')
    (hsame : w'.dispatched = w.dispatched) : Unhanded id w' := by
  obtain ⟨r, hr, hid⟩ := h.filed
  obtain ⟨r', hr', hp⟩ := hlater.mem hr
  exact ⟨⟨r', hr', hp.runId.trans hid⟩, hsame ▸ h.kept⟩

/-- A request hands over nothing but the run it has opened itself, and that was not on
file before. -/
theorem Unhanded.commit {W : World → Prop} {R : List Name → World → World → Prop} {call : Call}
    {held : List Name} {w : World} {ws : List Write} {id : String}
    (hU : ∀ H a b, R H a b → Undisturbed H a b) (hW : ∀ w, W w → ∃ r ∈ w.runs, r.runId = id)
    (hw : Unhanded id w) (h : Commits cfg W R call held ws w) : Unhanded id (db.view w ws) := by
  have hsame : ∀ {w' : World}, Still w w' → w'.dispatched = w.dispatched → Unhanded id w' :=
    fun hstill hd => hw.later hstill.later hd
  cases h with
  | opens front o h =>
      rw [o.view h.thread.front]
      obtain ⟨r, hr, hid⟩ := hw.filed
      exact ⟨⟨r, List.mem_append_left _ hr, hid⟩, hw.kept⟩
  | enqueues o h =>
      refine ⟨hw.filed, fun d hd => ?_⟩
      rcases List.mem_append.1 hd with hd | hd
      · exact hw.kept d hd
      · obtain ⟨w₁, ⟨held, front, w₀, hw₀, hopens, -⟩, -⟩ := h
        obtain ⟨r, hr, hid⟩ := hW w₀ hw₀
        have hfresh := (hopens.fresh_runId hU).2 r hr
        rw [List.mem_singleton.1 hd]
        intro hsame
        exact hfresh (hid.trans (hsame.symm.trans hopens.runId_eq))
  | fails runId => exact hsame (still_markRunStatus w runId .failed) rfl
  | ends o code seq h => exact hsame (still_runError w o.handed.runId code seq) rfl
  | cancels stored metadata now note known authorized => exact hsame (still_cancel w note) rfl

/-- The store is good, and the run was not handed over. -/
def Aside (cfg : Config PrivateKey PublicKey) (faults : Bool) (id : String) (w : World) : Prop :=
  Good cfg faults w ∧ Unhanded id w

theorem aside_promises {faults : Bool} {id : String} : Server.Promises db (program cfg)
    (outsideWith faults) (Aside cfg faults id) Undisturbed
    (fun r => Commits cfg (Aside cfg faults id) Undisturbed r.call) where
  refl := undisturbed_steady.refl
  trans := undisturbed_steady.trans
  outside w e w' hw h := by
    obtain ⟨hgood, hundisturbed⟩ := good_promises.outside w e w' hw.1 h
    have hout := (outsideWith_outside h).1
    exact ⟨⟨hgood, hw.2.later (hundisturbed []).later (dispatched_outside hout)⟩, hundisturbed⟩
  program r w := wp_program undisturbed_steady r w

/-- A process that starts without having handed the run over never does. -/
theorem unhanded_of_reachable (hV : cfg.model.Verbatim) {faults : Bool} {id : String}
    {init : World → Prop} (hinit : ∀ w, init w → Aside cfg faults id w) {s : Process}
    (hs : (process cfg faults init).Reachable s) : Unhanded id s.world := by
  have hsane : ∀ w, Aside cfg faults id w → Sane w := fun _ h => h.1.stored.filed.sane
  have hinv := Server.invariant_of_concurrent aside_promises
    (fun c held ws w hw _ hg =>
      ⟨⟨⟨hw.1.stored.commit hV (fun _ _ _ h => h) hsane hg,
          fun hf => (hw.1.silent hf).commit (fun _ _ _ h => h) hsane hg⟩,
        hw.2.commit (fun _ _ _ h => h) (fun _ h => h.2.filed) hg⟩,
        fun held' hsep => hg.undisturbed fun id => hsep _ ⟨id, rfl⟩⟩)
    Server.allowed_any hinit hs.by_any
  exact hinv.inv.2

/-! ## The broker of a process -/

/-- The broker is handed no run but those in `ds`, and each as it was dispatched. -/
def fedBy (ds : List Dispatched) : Broker.Action → Bool
  | .enqueueRun e => ds.any fun d => d.runId = e.runId && d.agent = e.agent &&
      d.threadId = e.threadId && d.seq = e.seq && d.addressedRunId = e.addressedRunId
  | _ => true

section Fed

variable {bcfg : Broker.Config} {rows : String → Option Broker.Row} {b : Broker.State}
  {ds : List Dispatched} {id : String}

/-- A run that was not dispatched does not come in. -/
theorem home_of_undispatched (hds : ∀ d ∈ ds, d.runId ≠ id)
    (hb : Broker.ReachableBy bcfg rows (fun _ a => fedBy ds a = true) b) : b.home id = none := by
  refine System.ReachableBy.invariant (P := fun b => b.home id = none) ?_ ?_ hb
  · rintro b rfl
    rfl
  · intro b a b' hreach hnone hfed hstep
    have hb : Broker.Reachable bcfg rows b := System.ReachableBy.reachable hreach
    by_cases ha : ∃ e, a = .enqueueRun e
    · obtain ⟨e, rfl⟩ := ha
      obtain ⟨h, htake⟩ := hb.takesIn_step hstep
      rw [htake.home_of_ne id, hnone]
      rintro rfl
      obtain ⟨d, hd, hsame⟩ := List.any_eq_true.1 hfed
      simp only [Bool.and_eq_true, decide_eq_true_eq] at hsame
      exact hds d hd hsame.1.1.1.1
    · rw [hb.home_step (fun e he => ha ⟨e, he⟩) hstep, hnone]

/-- And is offered to nobody. -/
theorem never_offered (hds : ∀ d ∈ ds, d.runId ≠ id)
    (hb : Broker.ReachableBy bcfg rows (fun _ a => fedBy ds a = true) b) :
    (b.trail id).offers = [] ∧ .offer ∉ (b.trail id).recorded.map Command.kind ∧
      (b.trail id).delivered = [] := by
  have hreach : Broker.Reachable bcfg rows b := System.ReachableBy.reachable hb
  have hoffers := hreach.offers_of_unborn (home_of_undispatched hds hb)
  refine ⟨hoffers, fun h => (Broker.offer_mem_iff hreach id).1 h hoffers, ?_⟩
  by_contra hdel
  exact (Broker.reachable_handed hreach).2 id hdel hoffers

end Fed

/-! ## After a restart -/

/-- **A recorded cancel and a restart.**  A run waits with a cancel in its row when the
process is gone, and it is addressed to a run that is not taken back before it: then
whatever the next process does after `start`, and whatever its broker, the run is
offered to nobody. -/
theorem cancelled_run_never_offered (hM : cfg.model.Idempotent) (hV : cfg.model.Verbatim)
    {faults : Bool} {w : World} (hw : Left cfg faults w) {r : RunRecord} (hr : r ∈ w.runs)
    (hst : r.status = .queued) (_hcancel : r.cancelRequested = true) (hlost : r.runId ∈ lostIds w)
    {runIds : List String} {w' : World}
    (hstart : db.alone (start cfg false) [] w = some (.ok runIds, [], w')) {s : Process}
    (hs : (process cfg faults fun w₀ => w₀ = w').Reachable s) {bcfg : Broker.Config}
    {rows : String → Option Broker.Row} {b : Broker.State}
    (hb : Broker.ReachableBy bcfg rows (fun _ a => fedBy s.world.dispatched a = true) b) :
    (b.trail r.runId).offers = [] ∧ .offer ∉ (b.trail r.runId).recorded.map Command.kind ∧
      (b.trail r.runId).delivered = [] := by
  obtain ⟨hgood, hlive, hnone⟩ := hw.good hM hV
  obtain ⟨input, -, hdoes⟩ := hgood.start hM hlive
  obtain ⟨ws, w'', halone, hview, -⟩ := hdoes.alone (Db.view_nil db w) fun _ => rfl
  rw [hstart] at halone
  cases halone
  have hw' : w' = restarted w input := hview
  have hsane := hgood.stored.filed.sane
  have haside : Aside cfg faults r.runId w' := by
    rw [hw']
    refine ⟨hdoes.inv hgood, ?_, dispatched_never hsane hnone hr hst hlost⟩
    have hmem : r.runId ∈ (restarted w input).runs.map RunRecord.runId := by
      rw [runIds_restarted]
      exact List.mem_map_of_mem hr
    obtain ⟨r', hr', hid⟩ := List.mem_map.1 hmem
    exact ⟨r', hr', hid⟩
  have hun := unhanded_of_reachable hV (fun w₀ hw₀ => hw₀ ▸ haside) hs
  exact never_offered hun.kept hb

namespace Demo

/-- A cancel is recorded for the run that waits and for the one that wants to change
the run that is taken; then the process is gone. -/
def asked : List (Move Request Outside) :=
  interrupted ++ [calls (.cancelRun "r1" [])] ++ advances 3 ["", "", "", ""] ++
    [calls (.cancelRun "r2" [])] ++ advances 4 ["", "", "", ""]

def askedLeft : World := crashed ((process config false Empty).runFrom start asked).world

/-- The next process has started. -/
def again : World :=
  (db.alone (Doors.start config false) [] askedLeft).elim askedLeft fun x => x.2.2

/-- The rows as the broker finds them. -/
def rowsOf (w : World) (id : String) : Option Broker.Row :=
  (w.getRun id).map fun r => ⟨r.status, (w.eventsOf id).map fun e => (e.seq, e.event)⟩

def link : Broker.Connection := ⟨0, agent.providerKey, some 1⟩

/-- The run is taken back, and a provider comes. -/
def takenUp : List Broker.Action :=
  [.start, .enqueueRun { runId := "r1", agent := agent, threadId := "t", inputJson := .null },
    .take 0, .resume 0, .resume 0, .registerProvider [(agent, link)], .take 0, .resume 0,
    .transact 0 true, .resume 0, .resume 0, .deliver ⟨⟨0, "r1", 1⟩, link, false⟩]

/-- The broker of the next process. -/
def broker : Broker.State :=
  (Broker.system Broker.Demo.config (rowsOf again)).runFrom (Broker.State.init (rowsOf again))
    takenUp

theorem broker_reachable : Broker.ReachableBy Broker.Demo.config (rowsOf again)
    (fun _ a => fedBy again.dispatched a = true) broker :=
  System.ReachableBy.runFrom (p := fun _ a => fedBy again.dispatched a) (fun _ _ h => h)
    (.init rfl) (by decide +kernel)

end Demo

end Funduq.Doors
