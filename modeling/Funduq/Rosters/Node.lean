import Funduq.Rosters.Tables

/-!
# The node

`Funduq` keeps one roster for its agents and one for its LLM offerings, and the table of
the first is the broker's.  The broker goes on with its own affairs between two steps of
the rosters; it takes agents out of service when a key's allowance is spent and puts
none into it, so what is served after a step of its own was served before, by the same
connection (`Fewer`).
-/

namespace Funduq.Rosters

open Funduq.Lib
open Funduq.Broker (Key Connection AgentRef RunId)
open Funduq.Store (LlmRef)

structure Node where
  agents : Roster Broker.State
  llms : Roster (LiveRoster LlmRef)

inductive Move where
  | agents (op : Op)
  | llms (op : Op)
  | broker (a : Broker.Action)

/-- Only the roster puts agents into service and, but for the broker itself, takes them
out of it. -/
def ofRoster : Broker.Action → Bool
  | .registerProvider _ => true
  | .unregisterProvider _ => true
  | _ => false

def Node.step (cfg : Broker.Config) (n : Node) : Move → Option Node
  | .agents op => (n.agents.step agentRoster op).map fun agents => { n with agents := agents }
  | .llms op => (n.llms.step llmRoster op).map fun llms => { n with llms := llms }
  | .broker a =>
      if ofRoster a then none
      else (n.agents.table.step cfg a).map fun t => { n with agents := { n.agents with table := t } }

/-- The node over a database that holds `db` when it is built. -/
def node (cfg : Broker.Config) (db : RunId → Option Broker.Row) : System Node Move where
  init n := n = ⟨.empty (Broker.State.init db), .empty []⟩
  step := Node.step cfg

/-! ## The broker's own steps -/

/-- Nobody is put into service. -/
structure Fewer (t t' : Broker.State) : Prop where
  serving : ∀ agent k, t'.serving.get? agent = some k → t.serving.get? agent = some k
  connection : ∀ k, (t'.provider k).connection = (t.provider k).connection

namespace Fewer

variable {t t' : Broker.State}

theorem ok (h : Fewer t t') (ht : RosterOk t) : RosterOk t' where
  key ref k hk := by
    rw [h.connection]
    exact ht.key ref k (h.serving ref k hk)
  own k c hc := ht.own k c ((h.connection k).symm.trans hc)

theorem live (h : Fewer t t') {ref : AgentRef} {c : Connection}
    (hl : t'.servingOf ref = some c) : t.servingOf ref = some c := by
  rw [Broker.State.servingOf_eq] at hl ⊢
  obtain ⟨k, hk, hc⟩ := Option.bind_eq_some_iff.1 hl
  rw [h.serving ref k hk]
  exact (h.connection k).symm.trans hc

end Fewer

section Broker

variable {cfg : Broker.Config} {t t' : Broker.State} {a : Broker.Action}

open Broker.State

theorem fewer_step (hinv : Broker.Inv t) (hl : ∀ r, (t.lane r).Sound)
    (ha : ofRoster a = false) (hstep : t.step cfg a = some t') : Fewer t t' := by
  cases hh : a.handler? with
  | none =>
      have hne : ∀ mapping, a ≠ .registerProvider mapping := by
        rintro mapping rfl
        cases ha
      have houter := outer_step hinv hh hne hstep
      exact ⟨houter.serving, houter.connection⟩
  | some h =>
      rcases handler_cases hinv hl hh hstep with ⟨u, R, r, w, hread, hm⟩ | hm | hm
      · obtain ⟨_, _, _, rfl, -⟩ := hread.eq
        obtain ⟨o, rfl, -, hk⟩ := hm.did
        exact ⟨hk.serving, hk.connection⟩
      · obtain ⟨r, ret, c, o, -, -, rfl, -, hk⟩ := settles_eq hinv hm
        exact ⟨hk.serving, hk.connection⟩
      · obtain ⟨-, -, -, rfl⟩ := hm
        unfold leave
        dsimp only
        split <;> exact ⟨fun _ _ h => h, fun _ => rfl⟩

end Broker

/-! ## What a roster does to its broker -/

section Runs

variable {cfg : Broker.Config} {db : RunId → Option Broker.Row}
  {C : Broker.State → Broker.Action → Prop}

/-- What is asked of the broker's own steps, asked of the node's. -/
def ofBroker (C : Broker.State → Broker.Action → Prop) (n : Node) : Move → Prop
  | .broker a => C n.agents.table a
  | _ => True

theorem runs_withdrawAll (hC : ∀ t a, ofRoster a = true → C t a) (t : Broker.State)
    (refs : List AgentRef) :
    (Broker.system cfg db).RunsBy C t (Roster.withdrawAll agentRoster t refs) := by
  unfold Roster.withdrawAll
  split
  · exact .refl
  · exact .single ⟨.unregisterProvider refs, hC _ _ rfl, rfl⟩

theorem runs_proceed (hC : ∀ t a, ofRoster a = true → C t a) (t : Broker.State) (call : Call) :
    (Broker.system cfg db).RunsBy C t (Roster.proceed agentRoster t call) := by
  cases call with
  | registering c names =>
      refine .tail (runs_withdrawAll hC t _) ⟨.registerProvider _, hC _ _ rfl, rfl⟩
  | deleting c name =>
      unfold Roster.proceed Roster.takeOffline
      dsimp only
      split
      · exact .single ⟨.unregisterProvider _, hC _ _ rfl, rfl⟩
      · exact .refl

theorem runs_op (hC : ∀ t a, ofRoster a = true → C t a) {s s' : Roster Broker.State} {op : Op}
    (h : s.step agentRoster op = some s') :
    (Broker.system cfg db).RunsBy C s.table s'.table := by
  cases op with
  | opens c proved =>
      simp only [Roster.step] at h
      split at h <;> cases h <;> exact .refl
  | register c names =>
      simp only [Roster.step] at h
      split at h <;> cases h <;> exact .refl
  | delete c name =>
      simp only [Roster.step] at h
      split at h <;> cases h <;> exact .refl
  | goesOn i =>
      obtain ⟨call, -, rfl⟩ := Option.map_eq_some_iff.1 h
      exact runs_proceed hC s.table call
  | fails i =>
      obtain ⟨call, -, rfl⟩ := Option.map_eq_some_iff.1 h
      exact .refl
  | detach k c =>
      cases h
      exact runs_withdrawAll hC s.table _
  | detachAll k =>
      cases h
      exact runs_withdrawAll hC s.table _

theorem runs_move (hC : ∀ t a, ofRoster a = true → C t a) {n n' : Node} {m : Move}
    (hm : ofBroker C n m) (h : (node cfg db).step n m = some n') :
    (Broker.system cfg db).RunsBy C n.agents.table n'.agents.table := by
  cases m with
  | agents op =>
      obtain ⟨s, hs, rfl⟩ := Option.map_eq_some_iff.1 h
      exact runs_op hC hs
  | llms op =>
      obtain ⟨s, hs, rfl⟩ := Option.map_eq_some_iff.1 h
      exact .refl
  | broker a =>
      change (if ofRoster a then none else _) = some n' at h
      split at h
      · cases h
      · obtain ⟨t, ht, rfl⟩ := Option.map_eq_some_iff.1 h
        exact .single ⟨a, hm, ht⟩

/-- A run of the node is a run of its broker. -/
theorem broker_runs (hC : ∀ t a, ofRoster a = true → C t a) {n n' : Node}
    (h : (node cfg db).RunsBy (ofBroker C) n n') :
    (Broker.system cfg db).RunsBy C n.agents.table n'.agents.table := by
  induction h with
  | refl => exact .refl
  | tail _ hlast ih =>
      obtain ⟨m, hm, hstep⟩ := hlast
      exact ih.trans (runs_move hC hm hstep)

/-- The broker of a node is a broker like any other. -/
theorem broker_reachable {n : Node} (hn : (node cfg db).Reachable n) :
    Broker.Reachable cfg db n.agents.table := by
  induction hn with
  | init h =>
      cases h
      exact .init rfl
  | step m _ h ih =>
      have hany : ∀ (t : Broker.State) (a : Broker.Action), ofRoster a = true → True :=
        fun _ _ _ => trivial
      exact System.Reachable.runs ih (runs_move hany (by cases m <;> trivial) h)

end Runs

namespace Demo

/-- Another link of the key of `Broker.Demo.link`. -/
def second : Connection := { Broker.Demo.link with ident := 1 }

/-- The state a list of moves leads a node with an empty database to. -/
def after (ms : List Move) : Node :=
  (node Broker.Demo.config fun _ => none).runFrom
    ⟨.empty (Broker.State.init fun _ => none), .empty []⟩ ms

end Demo

end Funduq.Rosters
