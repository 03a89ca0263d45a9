import Funduq.Broker.LeftBehind
import Funduq.Rosters.Node

/-!
# A link that goes takes its runs with it

`detach` takes offline the agents its connection serves at that moment, and
`unregister_provider` fails the runs of those agents that somebody holds.  Which
connection a run was accepted over is not asked.  So when another link of the key has
registered an agent since, the runs of it that the first connection holds are not failed
when the first connection is detached: nobody will end them, and nobody is told.

A run accepted over the connection is failed if, at the detach, the connection still
serves its agent, its failure is already on its way, or `_on_answered` has still to look.
-/

namespace Funduq.Broker.State

open Funduq.Lib

variable {s s' : State} {r : RunId} {h : HandlerId}

theorem Still.inbox (hq : s.Still s') (h : HandlerId) : s.inbox h <+: s'.inbox h :=
  (outer_of_still hq).inbox h

theorem FailPosted.still (hp : s.FailPosted r) (hq : s.Still s') : s'.FailPosted r := by
  obtain ⟨h, code, message, hh, hmem⟩ := hp
  refine ⟨h, code, message, ?_, (hq.inbox h).subset hmem⟩
  obtain ⟨o, rfl, -⟩ := hq
  exact hh

theorem Due.still (hd : s.Due r) (hq : s.Still s') : s'.Due r := by
  cases hd with
  | unclaimed hc =>
      obtain ⟨o, rfl, -⟩ := hq
      exact .unclaimed hc
  | checking hh =>
      obtain ⟨o, rfl, -⟩ := hq
      exact .checking hh
  | posted hc hp =>
      have hp' := hp.still hq
      obtain ⟨o, rfl, -⟩ := hq
      exact .posted hc hp'

/-- Every run of the list that is held has its failure posted. -/
theorem failPosted_pushes (code : String) {rs : List RunId} (hs : s.AtHome) (hmem : r ∈ rs)
    (hr : s.runThreads r = some h) :
    (rs.foldl (fun s r => (s.push r (.fail code none)).1) s).FailPosted r := by
  induction rs generalizing s with
  | nil => cases hmem
  | cons x rs ih =>
      rw [List.foldl_cons]
      have hq := still_pushFail hs x code none
      by_cases hx : x = r
      · subst hx
        exact (failPosted_push hs hr code none).still (still_pushFails (hq.atHome hs) code rs)
      · refine ih (hq.atHome hs) ((List.mem_cons.1 hmem).resolve_left (Ne.symm hx)) ?_
        obtain ⟨o, ho, -⟩ := hq
        rw [ho]
        exact hr

/-- What somebody holds is failed when its agent is taken out of service. -/
theorem failPosted_unregisterOne (hs : s.AtHome) (hheld : r ∈ s.runs)
    (hr : s.runThreads r = some h) (hc : (s.run r).claimedBy.isSome = true)
    (hserved : (s.serving.get? (s.run r).agent).isSome = true) :
    (s.unregisterOne (s.run r).agent).FailPosted r := by
  unfold unregisterOne
  split
  · rename_i hnone
    rw [hnone] at hserved
    cases hserved
  · refine FailPosted.still ?_ (still_pokeAll _ _)
    refine failPosted_pushes _ (h := h) ?_ ?_ ?_
    · exact hs
    · exact List.mem_filter.2 ⟨hheld, decide_eq_true ⟨rfl, hc⟩⟩
    · exact hr

theorem failPosted_unregister {refs : List AgentRef} (hs : s.AtHome) (hheld : r ∈ s.runs)
    (hr : s.runThreads r = some h) (hc : (s.run r).claimedBy.isSome = true)
    (hserved : (s.serving.get? (s.run r).agent).isSome = true)
    (hmem : (s.run r).agent ∈ refs) : (s.unregisterProvider refs).FailPosted r := by
  unfold unregisterProvider
  induction refs generalizing s with
  | nil => cases hmem
  | cons x refs ih =>
      rw [List.foldl_cons]
      have hq := still_unregisterOne hs x
      by_cases hx : x = (s.run r).agent
      · subst hx
        exact (failPosted_unregisterOne hs hheld hr hc hserved).still
          (still_unregisterProvider (hq.atHome hs) refs)
      · have hkept := (Rosters.roster_unregisterOne s x).1 (s.run r).agent
        rw [if_neg hx] at hkept
        have hmem' := (List.mem_cons.1 hmem).resolve_left (Ne.symm hx)
        have hathome := hq.atHome hs
        obtain ⟨o, ho, -⟩ := hq
        rw [ho] at hkept hathome ⊢
        exact ih hathome hheld hr hc (hkept.symm ▸ hserved) hmem'

end Funduq.Broker.State

namespace Funduq.Rosters

open Funduq.Lib
open Funduq.Broker (Key Connection AgentRef RunId HandlerId)

/-- At the detach of the connection, its run is failed or will be: the connection serves
its agent, or it is due. -/
def Attends (t : Broker.State) (k : Key) (c : Connection) (r : RunId) : Prop :=
  (t.run r).agent ∈ Roster.attached agentRoster t k c ∨ t.Due r

section Reachable

variable {cfg : Broker.Config} {db : RunId → Option Broker.Row} {k : Key} {c : Connection}
  {r : RunId}

/-- Detaching the connection leaves a run it attends due. -/
theorem due_detach {t : Broker.State} (ht : Broker.Reachable cfg db t)
    (hlives : ¬ (t.lane r).Ended) (hatt : Attends t k c r) :
    (Roster.withdrawAll agentRoster t (Roster.attached agentRoster t k c)).Due r := by
  obtain ⟨hinv, hl⟩ := Broker.reachable_sound ht
  have hq := Broker.State.still_unregisterProvider hinv.roll.atHome
    (Roster.attached agentRoster t k c)
  have hstays : t.Due r →
      (Roster.withdrawAll agentRoster t (Roster.attached agentRoster t k c)).Due r := by
    intro hdue
    unfold Roster.withdrawAll
    split
    · exact hdue
    · exact hdue.still hq
  rcases hatt with hmem | hdue
  swap
  · exact hstays hdue
  by_cases hc : (t.run r).claimedBy = none
  · exact hstays (.unclaimed hc)
  have hclaimed : (t.run r).claimedBy.isSome = true := Option.isSome_iff_ne_none.2 hc
  have hlive : (t.lane r).live = true := by
    by_contra hnot
    exact hlives ((hl r).ended_of_claimed hclaimed (Bool.eq_false_iff.2 hnot))
  obtain ⟨h, hhome⟩ := Option.isSome_iff_exists.1 ((hl r).home ((hl r).held hlive))
  have hthread : t.runThreads r = some h := (hinv.roll.mem_iff h r).1
    (List.mem_append_left _ ((Broker.State.lane_live hhome).1 hlive))
  have hserved : (t.serving.get? (t.run r).agent).isSome = true := by
    obtain ⟨c', hc', -⟩ := (Option.any_eq_true _ _).1 (List.mem_filter.1 hmem).2
    have hc' : t.servingOf (t.run r).agent = some c' := hc'
    rw [Broker.State.servingOf_eq] at hc'
    obtain ⟨k', hk', -⟩ := Option.bind_eq_some_iff.1 hc'
    rw [hk']
    rfl
  unfold Roster.withdrawAll
  rw [List.isEmpty_eq_false_iff.2 (List.ne_nil_of_mem hmem)]
  refine .posted ?_ ?_
  · change ((t.unregisterProvider _).run r).claimedBy.isSome = true
    obtain ⟨o, ho, -⟩ := hq
    rw [ho]
    exact hclaimed
  · exact Broker.State.failPosted_unregister hinv.roll.atHome
      ((hinv.roll.held_iff r).2 ⟨h, hthread⟩) hthread hclaimed hserved hmem

/-- **A link that goes takes its runs with it**, those that are attended to when it is
detached: once the inbox of its thread is drained, a run accepted over the link has its
failure on record, unless it had ended before the failure was taken. -/
theorem gone_link_fails_its_runs {n n' n'' : Node} {h : HandlerId}
    (hn : (node cfg db).Reachable n)
    (hgone : (node cfg db).step n (.agents (.detach k c)) = some n')
    (hlives : ¬ (n.agents.table.lane r).Ended) (hatt : Attends n.agents.table k c r)
    (hrun : (node cfg db).RunsBy (ofBroker fun t a => ¬ t.FindsServing c r a) n' n'')
    (hacc : n''.agents.table.AcceptedOver c r) (hhome : n''.agents.table.home r = some h)
    (hread : n''.agents.table.inbox h = []) (hwaits : (n''.agents.table.task h).waits = true) :
    n''.agents.table.FailRecorded r ∨
      Broker.EndedFirst (fun t a => ¬ t.FindsServing c r a) cfg db n'.agents.table
        n''.agents.table r := by
  have hreach := broker_reachable hn
  have hreach' := broker_reachable (.step _ hn hgone)
  have hroster : ∀ (t : Broker.State) (a : Broker.Action), ofRoster a = true →
      ¬ t.FindsServing c r a := by
    intro t a ha
    cases a with
    | resume h => cases ha
    | _ => exact fun hf => hf
  have hdue : n'.agents.table.Due r := by
    cases hgone
    exact due_detach hreach hlives hatt
  exact Broker.Reachable.due_failed (fun _ _ hc => hc) hreach' hdue (broker_runs hroster hrun)
    hacc hhome hread hwaits

end Reachable

namespace Demo

open Broker.Demo (link enqueue record look)

/-- A link publishes an agent, is offered a run of it and takes it. -/
def claimed : List Move :=
  [.agents (.opens link true), .agents (.register link ["translator"]), .agents (.goesOn 0)] ++
    List.map .broker ([.start] ++ enqueue "r" "t" ++
      [.take 0, .resume 0, .transact 0 true, .resume 0, .resume 0, .resume 0] ++
      [.answerOffer "r" .accepted "pk"] ++ record 0 6)

/-- The handler reads what the detach has posted. -/
def drained : List Move := List.map .broker (record 0 4 ++ look 0 ++ look 0)

/-- Another link of the key publishes the agent. -/
def replaced : List Move :=
  claimed ++ [.agents (.opens second true), .agents (.register second ["translator"]),
    .agents (.goesOn 0)] ++ List.map .broker (look 0)

/-- No claim has just been recorded. -/
def checksNothing (n : Node) : Move → Bool
  | .broker (.resume h) =>
      match n.agents.table.task h with
      | .recording _ .returned .claimed _ => false
      | _ => true
  | _ => true

theorem checksNothing_sound {c : Connection} {r : RunId} (n : Node) (m : Move)
    (h : checksNothing n m = true) : ofBroker (fun t a => ¬ t.FindsServing c r a) n m := by
  cases m with
  | agents op => trivial
  | llms op => trivial
  | broker a =>
      cases a with
      | resume h' =>
          rintro ⟨⟨k, htask⟩, -⟩
          simp only [checksNothing, htask] at h
          cases h
      | _ => exact fun hf => hf

/-- The node once the link is detached. -/
def detached (n : Node) : Node := { n with agents := n.agents.detach agentRoster "pk" link }

/-- The state of the broker once the handler has read what the detach has posted. -/
def readOut : Node :=
  (node Broker.Demo.config fun _ => none).runFrom (detached (after claimed)) drained

end Demo

theorem gone_link_fails_its_runs_detached :
    Attends (Demo.after Demo.claimed).agents.table "pk" Broker.Demo.link "r" ∧
      Demo.readOut.agents.table.AcceptedOver Broker.Demo.link "r" ∧
      (Demo.readOut.agents.table.FailRecorded "r" ∨
        Broker.EndedFirst (fun t a => ¬ t.FindsServing Broker.Demo.link "r" a)
          Broker.Demo.config (fun _ => none)
          (Demo.detached (Demo.after Demo.claimed)).agents.table Demo.readOut.agents.table "r") := by
  have hatt : Attends (Demo.after Demo.claimed).agents.table "pk" Broker.Demo.link "r" :=
    .inl (by decide +kernel)
  have hacc : Demo.readOut.agents.table.AcceptedOver Broker.Demo.link "r" :=
    ⟨Broker.Demo.link, by decide +kernel, rfl⟩
  have hallows : (node Broker.Demo.config fun _ => none).allows Demo.checksNothing
      (Demo.detached (Demo.after Demo.claimed)) Demo.drained = true := by
    decide +kernel
  have hlives : ¬ ((Demo.after Demo.claimed).agents.table.lane "r").Ended := by
    unfold Broker.Lane.Ended
    decide +kernel
  have hread : (Demo.readOut.agents.table.inbox 0).isEmpty = true := by decide +kernel
  refine ⟨hatt, hacc, gone_link_fails_its_runs (h := 0) (.runFrom (.init rfl) _) rfl hlives hatt
    (System.runsBy_runFrom Demo.checksNothing_sound hallows) hacc ?_ ?_ ?_⟩
  · decide +kernel
  · exact List.isEmpty_iff.1 hread
  · decide +kernel

/-- Another link of the key has published the agent by the time the first is detached:
the run it holds is left where it is, with nothing more to read about it. -/
theorem replaced_link_leaves_run :
    ¬ ∀ (n n' n'' : Node) (k : Key) (c : Connection) (r : RunId) (h : HandlerId),
      (node Broker.Demo.config fun _ => none).Reachable n →
      (node Broker.Demo.config fun _ => none).step n (.agents (.detach k c)) = some n' →
      ¬ (n.agents.table.lane r).Ended →
      (node Broker.Demo.config fun _ => none).RunsBy (fun _ _ => True) n' n'' →
      n''.agents.table.AcceptedOver c r → n''.agents.table.home r = some h →
      n''.agents.table.inbox h = [] → (n''.agents.table.task h).waits = true →
      n''.agents.table.FailRecorded r ∨ (n''.agents.table.lane r).Ended := by
  intro hclaim
  have hread : ((Demo.detached (Demo.after Demo.replaced)).agents.table.inbox 0).isEmpty = true := by
    decide +kernel
  have hlives : ¬ ((Demo.after Demo.replaced).agents.table.lane "r").Ended := by
    unfold Broker.Lane.Ended
    decide +kernel
  have hkinds : ((Demo.detached (Demo.after Demo.replaced)).agents.table.trail "r").recorded.map
      Broker.Command.kind = [.offer, .claim] := by
    decide +kernel
  rcases hclaim (Demo.after Demo.replaced) _ _ "pk" Broker.Demo.link "r" 0
    (.runFrom (.init rfl) _) rfl hlives .refl ⟨Broker.Demo.link, by decide +kernel, rfl⟩
    (by decide +kernel) (List.isEmpty_iff.1 hread) (by decide +kernel) with
    ⟨code, message, hmem⟩ | hended
  · have hkind := List.mem_map_of_mem (f := Broker.Command.kind) hmem
    have hkind : Broker.Kind.fail ∈ [Broker.Kind.offer, Broker.Kind.claim] := hkinds ▸ hkind
    exact absurd hkind (by decide)
  · have hnot : ¬ ((Demo.detached (Demo.after Demo.replaced)).agents.table.lane "r").Ended := by
      unfold Broker.Lane.Ended
      decide +kernel
    exact hnot hended

end Funduq.Rosters
