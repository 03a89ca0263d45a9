import Mathlib.Data.List.Induction
import Funduq.Rosters.Node

/-!
# Agents served as from a plain map

`LiveRoster` maps each ref to the connection that serves it.  The broker maps each agent
to a key and each key to one connection, so a registration moves every agent of the key
over to the connection that registers, those another link of the key has published and
this one has not among them.  As long as no registration leaves such an agent out, the
broker's tables are the plain map fed the same calls.

To compare the two, the calls the broker is given are kept beside it (`Fed`).
-/

namespace Funduq.Rosters

open Funduq.Lib
open Funduq.Broker (Key Connection AgentRef RunId)

/-! ## The calls -/

/-- A call that changes a table. -/
inductive TableCall where
  | attach (mapping : List (AgentRef × Connection))
  | withdraw (refs : List AgentRef)

/-- The call says who serves the agent from now on, if anybody. -/
def TableCall.about (ref : AgentRef) : TableCall → Bool
  | .attach mapping => ref ∈ mapping.map Prod.fst
  | .withdraw refs => ref ∈ refs

/-- What a call does to the plain map. -/
def LiveRoster.given (links : LiveRoster AgentRef) : TableCall → LiveRoster AgentRef
  | .attach mapping => links.attach mapping
  | .withdraw refs => links.withdraw refs

/-- A `LiveRoster` fed the calls. -/
def liveRoster (calls : List TableCall) : LiveRoster AgentRef :=
  calls.foldl LiveRoster.given []

/-- The connection is the last to publish the agent, and the agent has not been
withdrawn since. -/
def LastPublished (calls : List TableCall) (ref : AgentRef) (c : Connection) : Prop :=
  ∃ before mapping after, calls = before ++ .attach mapping :: after ∧ (ref, c) ∈ mapping ∧
    ∀ call ∈ after, call.about ref = false

theorem liveRoster_append (calls : List TableCall) (call : TableCall) :
    liveRoster (calls ++ [call]) = (liveRoster calls).given call := by
  unfold liveRoster
  rw [List.foldl_append]
  rfl

theorem get?_attach_mapping (links : LiveRoster AgentRef)
    (mapping : List (AgentRef × Connection)) {ref : AgentRef} {c : Connection}
    (h : (links.attach mapping).get? ref = some c) :
    (ref, c) ∈ mapping ∨ ref ∉ mapping.map Prod.fst ∧ links.get? ref = some c := by
  unfold LiveRoster.attach at h
  induction mapping generalizing links with
  | nil => exact .inr ⟨List.not_mem_nil, h⟩
  | cons e mapping ih =>
      rw [List.foldl_cons] at h
      rcases ih _ h with hmem | ⟨hnot, hl⟩
      · exact .inl (List.mem_cons_of_mem _ hmem)
      · rw [Dict.get?_set] at hl
        split at hl
        · rename_i he
          cases hl
          exact .inl (he ▸ List.mem_cons_self)
        · rename_i he
          refine .inr ⟨?_, hl⟩
          rw [List.map_cons, List.mem_cons, not_or]
          exact ⟨Ne.symm he, hnot⟩

theorem LastPublished.append {calls : List TableCall} {ref : AgentRef} {c : Connection}
    (h : LastPublished calls ref c) {call : TableCall} (hcall : call.about ref = false) :
    LastPublished (calls ++ [call]) ref c := by
  obtain ⟨before, mapping, after, rfl, hmem, hafter⟩ := h
  refine ⟨before, mapping, after ++ [call], by simp, hmem, ?_⟩
  intro call' hcall'
  rcases List.mem_append.1 hcall' with h | h
  · exact hafter call' h
  · rw [List.mem_singleton.1 h]
    exact hcall

/-- The plain map gives the connection that last published the agent. -/
theorem lastPublished_of_serving {calls : List TableCall} {ref : AgentRef} {c : Connection}
    (h : (liveRoster calls).serving ref = some c) : LastPublished calls ref c := by
  induction calls using List.reverseRecOn with
  | nil => cases h
  | append_singleton calls call ih =>
      unfold LiveRoster.serving at h ih
      rw [liveRoster_append] at h
      cases call with
      | attach mapping =>
          rcases get?_attach_mapping _ mapping h with hmem | ⟨hnot, hl⟩
          · exact ⟨calls, mapping, [], rfl, hmem, nofun⟩
          · exact (ih hl).append (decide_eq_false hnot)
      | withdraw refs =>
          change (LiveRoster.withdraw _ refs).get? ref = some c at h
          rw [get?_withdraw] at h
          split at h
          · cases h
          · rename_i hnot
            exact (ih h).append (decide_eq_false hnot)

/-! ## The two side by side -/

/-- The broker, and the calls it has been given. -/
structure Fed where
  broker : Broker.State
  calls : List TableCall

/-- `_AgentRoster`, the calls kept. -/
def fedRoster : Kind Fed AgentRef where
  ref := agentRoster.ref
  servedBy t := agentRoster.servedBy t.broker
  live t := agentRoster.live t.broker
  writeLive t mapping := ⟨agentRoster.writeLive t.broker mapping, t.calls ++ [.attach mapping]⟩
  withdraw t refs := ⟨agentRoster.withdraw t.broker refs, t.calls ++ [.withdraw refs]⟩

inductive Turn where
  | roster (op : Op)
  | broker (a : Broker.Action)

/-- The agents the broker has taken out of service itself. -/
def withdrawnBy (t t' : Broker.State) : List AgentRef :=
  (t.serving.map Prod.fst).filter fun ref => (t'.serving.get? ref).isNone

def fedStep (cfg : Broker.Config) (s : Roster Fed) : Turn → Option (Roster Fed)
  | .roster op => s.step fedRoster op
  | .broker a =>
      if ofRoster a then none
      else (s.table.broker.step cfg a).map fun t =>
        { s with table := ⟨t, s.table.calls ++ [.withdraw (withdrawnBy s.table.broker t)]⟩ }

/-- The agents' roster, the calls kept. -/
def fedSystem (cfg : Broker.Config) (db : RunId → Option Broker.Row) : System (Roster Fed) Turn where
  init s := s = .empty ⟨Broker.State.init db, []⟩
  step := fedStep cfg

/-- The broker and the plain map name the same connection for every agent. -/
def Fed.Agrees (t : Fed) : Prop :=
  ∀ ref, t.broker.servingOf ref = (liveRoster t.calls).serving ref

/-- The connection leaves out no agent that another link of its key serves. -/
def LeavesNoneOut (t : Broker.State) (c : Connection) (names : List String) : Prop :=
  ∀ ref c', t.servingOf ref = some c' → c'.publicKey = c.publicKey →
    same c' c = true ∨ ref ∈ Roster.keep agentRoster c names

/-- Whoever a turn puts into service leaves none out. -/
def KeepsOthers (s : Roster Fed) : Turn → Prop
  | .roster (.goesOn i) => ∀ c names, s.calls[i]? = some (.registering c names) →
      LeavesNoneOut s.table.broker c names
  | _ => True

namespace Fed

variable {t : Fed}

theorem Agrees.withdraw (h : t.Agrees) (refs : List AgentRef) :
    (fedRoster.withdraw t refs).Agrees := by
  intro ref
  change (t.broker.unregisterProvider refs).servingOf ref =
    (liveRoster (t.calls ++ [TableCall.withdraw refs])).get? ref
  rw [liveRoster_append, live_unregister]
  change _ = (LiveRoster.withdraw _ refs).get? ref
  rw [get?_withdraw, h ref]
  rfl

theorem Agrees.withdrawAll (h : t.Agrees) (refs : List AgentRef) :
    (Roster.withdrawAll fedRoster t refs).Agrees := by
  unfold Roster.withdrawAll
  split
  · exact h
  · exact h.withdraw refs

theorem withdrawAll_broker (t : Fed) (refs : List AgentRef) :
    (Roster.withdrawAll fedRoster t refs).broker =
      Roster.withdrawAll agentRoster t.broker refs := by
  unfold Roster.withdrawAll
  split <;> rfl

theorem keep_ne_nil {c : Connection} {names : List String} (hne : names ≠ []) :
    Roster.keep agentRoster c names ≠ [] := by
  obtain ⟨name, hname⟩ := List.exists_mem_of_ne_nil names hne
  exact List.ne_nil_of_mem (List.mem_dedup.2 (List.mem_map_of_mem hname))

/-- **A registration.**  The broker names whom the plain map names for every agent
afterwards exactly when the registration leaves none out. -/
theorem Agrees.publish (h : t.Agrees) (hok : RosterOk t.broker) {c : Connection}
    {names : List String} (hne : names ≠ []) :
    (Roster.publish fedRoster t c names).Agrees ↔ LeavesNoneOut t.broker c names := by
  let keep := Roster.keep agentRoster c names
  let withdrawn := (Roster.attached agentRoster t.broker c.publicKey c).filter fun ref => ref ∉ keep
  let u := Roster.withdrawAll fedRoster t withdrawn
  have hu : u.Agrees := h.withdrawAll withdrawn
  have hbroker : u.broker = Roster.withdrawAll agentRoster t.broker withdrawn :=
    withdrawAll_broker t withdrawn
  have huok : RosterOk u.broker := hbroker ▸ Roster.ok_withdrawAll lawful_agent hok withdrawn
  have hlive : ∀ ref, u.broker.servingOf ref =
      if ref ∈ withdrawn then none else t.broker.servingOf ref := by
    intro ref
    rw [hbroker]
    exact Roster.live_withdrawAll lawful_agent t.broker withdrawn ref
  have hserved : ∀ ref, (Roster.publish fedRoster t c names).broker.servingOf ref =
      if ref ∈ keep ∨ u.broker.serving.get? ref = some c.publicKey then some c
      else u.broker.servingOf ref := live_register u.broker (keep_ne_nil hne)
  have hmap : ∀ ref, (liveRoster (Roster.publish fedRoster t c names).calls).serving ref =
      if ref ∈ keep then some c else u.broker.servingOf ref := by
    intro ref
    change (liveRoster (u.calls ++ [TableCall.attach (keep.map fun ref => (ref, c))])).get? ref = _
    rw [liveRoster_append, hu ref]
    exact get?_attach (liveRoster u.calls) c keep ref
  constructor
  · intro hagree ref c' hc' hkey
    by_cases hmem : ref ∈ keep
    · exact .inr hmem
    left
    by_contra hsame
    have hnot : ref ∉ withdrawn := by
      intro hw
      have hserves := (List.mem_filter.1 (List.mem_filter.1 hw).1).2
      unfold Roster.serves at hserves
      rw [show agentRoster.live t.broker ref = some c' from hc'] at hserves
      exact hsame hserves
    have hu' : u.broker.servingOf ref = some c' := by rw [hlive, if_neg hnot, hc']
    have hunder : u.broker.serving.get? ref = some c.publicKey := by
      rw [Broker.State.servingOf_eq] at hu'
      obtain ⟨k, hk, hconn⟩ := Option.bind_eq_some_iff.1 hu'
      rw [hk, ← huok.own k c' hconn, hkey]
    have heq := hagree ref
    rw [hserved, hmap, if_pos (.inr hunder), if_neg hmem, hu'] at heq
    cases heq
    exact hsame (decide_eq_true rfl)
  · intro hnone ref
    rw [hserved, hmap]
    by_cases hmem : ref ∈ keep
    · rw [if_pos (.inl hmem), if_pos hmem]
    · have hunder : u.broker.serving.get? ref ≠ some c.publicKey := by
        intro hk
        obtain ⟨hkey, hsome⟩ := huok.key ref _ hk
        obtain ⟨c', hconn⟩ := Option.isSome_iff_exists.1 hsome
        have hu' : u.broker.servingOf ref = some c' := by
          rw [Broker.State.servingOf_eq, hk]
          exact hconn
        rw [hlive] at hu'
        split at hu'
        · cases hu'
        · rename_i hnot
          -- The connection serves it, so it was withdrawn.
          rcases hnone ref c' hu' (huok.own _ c' hconn) with hsame | hkeep
          · refine hnot (List.mem_filter.2 ⟨List.mem_filter.2 ⟨?_, ?_⟩, decide_eq_true hmem⟩)
            · rw [hkey]
              exact (lawful_agent.served hok hu').2
            · unfold Roster.serves
              rw [show agentRoster.live t.broker ref = some c' from hu']
              exact hsame
          · exact hmem hkeep
      rw [if_neg (not_or.2 ⟨hmem, hunder⟩), if_neg hmem]

theorem Agrees.takeOffline (h : t.Agrees) (c : Connection) (name : String) :
    (Roster.takeOffline fedRoster t c name).Agrees := by
  unfold Roster.takeOffline
  dsimp only
  split
  · exact h.withdraw _
  · exact h

/-- The broker takes agents out of service itself. -/
theorem Agrees.fewer (h : t.Agrees) {t' : Broker.State} (hfewer : Fewer t.broker t') :
    Agrees ⟨t', t.calls ++ [.withdraw (withdrawnBy t.broker t')]⟩ := by
  intro ref
  change t'.servingOf ref = (liveRoster (t.calls ++ [TableCall.withdraw _])).get? ref
  rw [liveRoster_append]
  change _ = (LiveRoster.withdraw _ (withdrawnBy t.broker t')).get? ref
  rw [get?_withdraw, show (liveRoster t.calls).get? ref = _ from (h ref).symm]
  rw [Broker.State.servingOf_eq, Broker.State.servingOf_eq]
  cases hk' : t'.serving.get? ref with
  | some k =>
      have hnot : ref ∉ withdrawnBy t.broker t' := by
        intro hmem
        have hnone := (List.mem_filter.1 hmem).2
        rw [hk'] at hnone
        cases hnone
      rw [if_neg hnot, hfewer.serving ref k hk', Option.bind_some, Option.bind_some,
        hfewer.connection]
  | none =>
      cases hk : t.broker.serving.get? ref with
      | none => split <;> rfl
      | some k =>
          rw [if_pos]
          · rfl
          · refine List.mem_filter.2 ⟨List.mem_map_of_mem (Dict.mem_of_get? hk), ?_⟩
            rw [hk']
            rfl

theorem proceed_broker (t : Fed) (call : Call) :
    (Roster.proceed fedRoster t call).broker = Roster.proceed agentRoster t.broker call := by
  cases call with
  | registering c names =>
      unfold Roster.proceed Roster.publish
      dsimp only
      exact congrArg (fun b => agentRoster.writeLive b _) (withdrawAll_broker t _)
  | deleting c name =>
      exact apply_ite Fed.broker _ _ _

end Fed

/-! ## The roster without the calls -/

section Unfed

variable {cfg : Broker.Config} {db : RunId → Option Broker.Row} {s s' : Roster Fed}

def Roster.unfed (s : Roster Fed) : Roster Broker.State where
  links := s.links
  calls := s.calls
  table := s.table.broker

theorem unfed_step (s : Roster Fed) (op : Op) :
    s.unfed.step agentRoster op = (s.step fedRoster op).map Roster.unfed := by
  cases op with
  | opens c proved => cases proved <;> rfl
  | register c names =>
      rw [Roster.step, Roster.step, show s.unfed.requireOpen c = s.requireOpen c from rfl]
      split <;> rfl
  | delete c name =>
      rw [Roster.step, Roster.step, show s.unfed.requireOpen c = s.requireOpen c from rfl]
      split <;> rfl
  | goesOn i =>
      simp only [Roster.step, Option.map_map]
      change Option.map _ s.calls[i]? = _
      congr 1
      funext call
      simp only [Function.comp_apply, Roster.unfed, Fed.proceed_broker]
  | fails i =>
      simp only [Roster.step, Option.map_map]
      rfl
  | detach k c =>
      refine congrArg some ?_
      unfold Roster.unfed Roster.detach
      rw [Fed.withdrawAll_broker]
      rfl
  | detachAll k =>
      refine congrArg some ?_
      unfold Roster.unfed Roster.detachAll
      rw [Fed.withdrawAll_broker]
      rfl

/-- Keeping the calls changes nothing for the node. -/
theorem unfed_reachable (hs : (fedSystem cfg db).Reachable s) :
    (node cfg db).Reachable ⟨s.unfed, .empty []⟩ := by
  induction hs with
  | init h =>
      cases h
      exact .init rfl
  | step a _ h ih =>
      cases a with
      | roster op =>
          refine .step (.agents op) ih (Option.map_eq_some_iff.2 ⟨_, ?_, rfl⟩)
          rw [unfed_step, show Roster.step fedRoster _ op = some _ from h]
          rfl
      | broker a =>
          refine .step (.broker a) ih ?_
          change (if ofRoster a then none else _) = some _ at h
          change (if ofRoster a then none else _) = some _
          split at h
          · cases h
          · rename_i ha
            obtain ⟨t, ht, rfl⟩ := Option.map_eq_some_iff.1 h
            rw [if_neg ha]
            exact Option.map_eq_some_iff.2 ⟨t, ht, rfl⟩

end Unfed

/-! ## Every sequence -/

/-- The broker and the plain map agree, and every call that waits publishes something. -/
structure Mirrored (s : Roster Fed) : Prop where
  ok : RosterOk s.table.broker
  agrees : s.table.Agrees
  named : ∀ c names, .registering c names ∈ s.calls → names ≠ []

section Reachable

variable {cfg : Broker.Config} {db : RunId → Option Broker.Row} {s s' : Roster Fed}

theorem Mirrored.named_op (h : Mirrored s) {op : Op} (hstep : s.step fedRoster op = some s') :
    ∀ c names, .registering c names ∈ s'.calls → names ≠ [] := by
  have herase : ∀ i c names, .registering c names ∈ s.calls.eraseIdx i → names ≠ [] :=
    fun i c names hmem => h.named c names (List.mem_of_mem_eraseIdx hmem)
  cases op with
  | opens c proved =>
      simp only [Roster.step] at hstep
      split at hstep <;> cases hstep <;> exact h.named
  | register c names =>
      simp only [Roster.step] at hstep
      split at hstep <;> cases hstep
      · rename_i hc
        intro c' names' hmem
        rcases List.mem_append.1 hmem with hmem | hmem
        · exact h.named c' names' hmem
        · cases List.mem_singleton.1 hmem
          exact hc.2
      · exact h.named
  | delete c name =>
      simp only [Roster.step] at hstep
      split at hstep <;> cases hstep
      · intro c' names' hmem
        rcases List.mem_append.1 hmem with hmem | hmem
        · exact h.named c' names' hmem
        · cases List.mem_singleton.1 hmem
      · exact h.named
  | goesOn i =>
      obtain ⟨call, hcall, rfl⟩ := Option.map_eq_some_iff.1 hstep
      exact herase i
  | fails i =>
      obtain ⟨call, hcall, rfl⟩ := Option.map_eq_some_iff.1 hstep
      exact herase i
  | detach k c =>
      cases hstep
      exact h.named
  | detachAll k =>
      cases hstep
      exact h.named

/-- The two agree after a step of the roster exactly when whoever it puts into service
leaves none out. -/
theorem Mirrored.agrees_op (h : Mirrored s) {op : Op} (hstep : s.step fedRoster op = some s') :
    s'.table.Agrees ↔ KeepsOthers s (.roster op) := by
  cases op with
  | opens c proved =>
      simp only [Roster.step] at hstep
      split at hstep <;> cases hstep <;> exact iff_of_true h.agrees trivial
  | register c names =>
      simp only [Roster.step] at hstep
      split at hstep <;> cases hstep <;> exact iff_of_true h.agrees trivial
  | delete c name =>
      simp only [Roster.step] at hstep
      split at hstep <;> cases hstep <;> exact iff_of_true h.agrees trivial
  | goesOn i =>
      obtain ⟨call, hcall, rfl⟩ := Option.map_eq_some_iff.1 hstep
      cases call with
      | registering c names =>
          have hne := h.named c names (List.mem_of_getElem? hcall)
          refine (h.agrees.publish h.ok hne).trans ⟨fun hnone c' names' hcall' => ?_,
            fun hkeeps => hkeeps c names hcall⟩
          cases hcall.symm.trans hcall'
          exact hnone
      | deleting c name =>
          refine iff_of_true (h.agrees.takeOffline c name) fun c' names' hcall' => ?_
          cases hcall.symm.trans hcall'
  | fails i =>
      obtain ⟨call, hcall, rfl⟩ := Option.map_eq_some_iff.1 hstep
      exact iff_of_true h.agrees trivial
  | detach k c =>
      cases hstep
      exact iff_of_true (h.agrees.withdrawAll _) trivial
  | detachAll k =>
      cases hstep
      exact iff_of_true (h.agrees.withdrawAll _) trivial

/-- What the broker does itself is to take agents out of service. -/
theorem fewer_turn (hs : (fedSystem cfg db).Reachable s) {a : Broker.Action}
    (hstep : fedStep cfg s (.broker a) = some s') :
    ∃ t, Fewer s.table.broker t ∧ s' = { s with
      table := ⟨t, s.table.calls ++ [.withdraw (withdrawnBy s.table.broker t)]⟩ } := by
  change (if ofRoster a then none else _) = some s' at hstep
  split at hstep
  · cases hstep
  · rename_i ha
    obtain ⟨t, ht, rfl⟩ := Option.map_eq_some_iff.1 hstep
    obtain ⟨hinv, hl⟩ := Broker.reachable_sound (broker_reachable (unfed_reachable hs))
    exact ⟨t, fewer_step hinv hl (Bool.eq_false_iff.2 ha) ht, rfl⟩

theorem Mirrored.agrees_turn (h : Mirrored s) (hs : (fedSystem cfg db).Reachable s) {a : Turn}
    (hstep : fedStep cfg s a = some s') : s'.table.Agrees ↔ KeepsOthers s a := by
  cases a with
  | roster op => exact h.agrees_op hstep
  | broker a =>
      obtain ⟨t, hfewer, rfl⟩ := fewer_turn hs hstep
      exact iff_of_true (h.agrees.fewer hfewer) trivial

theorem Mirrored.turn (h : Mirrored s) (hs : (fedSystem cfg db).Reachable s) {a : Turn}
    (hkeeps : KeepsOthers s a) (hstep : fedStep cfg s a = some s') : Mirrored s' := by
  have hagrees := (h.agrees_turn hs hstep).2 hkeeps
  cases a with
  | roster op =>
      have hplain : s.unfed.step agentRoster op = some s'.unfed := by
        rw [unfed_step, show s.step fedRoster op = some s' from hstep]
        rfl
      exact ⟨Roster.ok_step lawful_agent (s := s.unfed) h.ok hplain, hagrees, h.named_op hstep⟩
  | broker a =>
      obtain ⟨t, hfewer, rfl⟩ := fewer_turn hs hstep
      exact ⟨hfewer.ok h.ok, hagrees, h.named⟩

theorem reachable_mirrored (hs : (fedSystem cfg db).ReachableBy KeepsOthers s) : Mirrored s := by
  refine System.ReachableBy.invariant (P := Mirrored) ?_ ?_ hs
  · rintro s rfl
    refine ⟨rosterOk_init, fun ref => rfl, nofun⟩
  · intro s a s' hreach hm hkeeps hstep
    exact hm.turn hreach.reachable hkeeps hstep

/-- **The agents are served as from a plain map** fed the same calls, if no registration
leaves out an agent another link of its key serves: by the connection that last
published them, which no other link takes offline by leaving.  The first registration
that does leave one out is where the two part. -/
theorem agents_served_as_from_plain_map (hs : (fedSystem cfg db).ReachableBy KeepsOthers s) :
    (∀ ref, s.table.broker.servingOf ref = (liveRoster s.table.calls).serving ref) ∧
      (∀ ref c, s.table.broker.servingOf ref = some c → LastPublished s.table.calls ref c) ∧
      (∀ k c ref c', (liveRoster s.table.calls).serving ref = some c' → same c' c = false →
        (s.detach fedRoster k c).table.broker.servingOf ref = some c') ∧
      ∀ a s', (fedSystem cfg db).step s a = some s' →
        (s'.table.Agrees ↔ KeepsOthers s a) := by
  have hm := reachable_mirrored hs
  refine ⟨hm.agrees, ?_, ?_, fun a s' hstep => hm.agrees_turn hs.reachable hstep⟩
  · intro ref c hc
    rw [hm.agrees ref] at hc
    exact lastPublished_of_serving hc
  · intro k c ref c' hc' hne
    rw [← hm.agrees ref] at hc'
    change (Roster.withdrawAll fedRoster s.table _).broker.servingOf ref = _
    rw [Fed.withdrawAll_broker]
    refine (Roster.live_withdrawAll lawful_agent s.table.broker _ ref).trans ?_
    rw [if_neg]
    · exact hc'
    · intro hmem
      have hserves := (List.mem_filter.1 hmem).2
      change (s.table.broker.servingOf ref).any _ = true at hserves
      rw [hc', Option.any_some, hne] at hserves
      cases hserves

end Reachable

/-- `LeavesNoneOut`, looked up in the broker's tables. -/
def leavesNoneOut (t : Broker.State) (c : Connection) (names : List String) : Bool :=
  t.serving.all fun e => (t.servingOf e.1).all fun c' =>
    c'.publicKey ≠ c.publicKey || same c' c || e.1 ∈ Roster.keep agentRoster c names

def keepsOthers (s : Roster Fed) : Turn → Bool
  | .roster (.goesOn i) => s.calls[i]?.all fun
      | .registering c names => leavesNoneOut s.table.broker c names
      | .deleting _ _ => true
  | _ => true

theorem keepsOthers_sound (s : Roster Fed) (a : Turn) (h : keepsOthers s a = true) :
    KeepsOthers s a := by
  cases a with
  | broker a => trivial
  | roster op =>
      cases op with
      | goesOn i =>
          intro c names hcall ref c' hc' hkey
          simp only [keepsOthers, hcall, Option.all_some] at h
          have hl := hc'
          rw [Broker.State.servingOf_eq] at hl
          obtain ⟨k, hk, -⟩ := Option.bind_eq_some_iff.1 hl
          have hall := List.all_eq_true.1 h (ref, k) (Dict.mem_of_get? hk)
          rw [hc'] at hall
          simpa [hkey] using hall
      | _ => trivial

namespace Demo

open Broker.Demo (config link)

/-- The state a list of turns leads a roster with an empty database to. -/
def fedAfter (as : List Turn) : Roster Fed :=
  (fedSystem config fun _ => none).runFrom (.empty ⟨Broker.State.init fun _ => none, []⟩) as

/-- Two links of a key publish, one after the other. -/
def published (names names' : List String) : List Turn :=
  [.roster (.opens link true), .roster (.opens second true), .roster (.register link names),
    .roster (.goesOn 0), .roster (.register second names'), .roster (.goesOn 0)]

end Demo

open Broker.Demo (config agent link) in
theorem agents_served_as_from_plain_map_replaced :
    let s := Demo.fedAfter (Demo.published ["translator"] ["translator", "poet"])
    (liveRoster s.table.calls).serving agent = some Demo.second ∧
      s.table.broker.servingOf agent = some Demo.second ∧
      LastPublished s.table.calls agent Demo.second ∧
      (s.detach fedRoster "pk" link).table.broker.servingOf agent = some Demo.second := by
  intro s
  have hallows : (fedSystem config fun _ => none).allows keepsOthers
      (.empty ⟨Broker.State.init fun _ => none, []⟩)
      (Demo.published ["translator"] ["translator", "poet"]) = true := by
    decide +kernel
  have hreach : (fedSystem config fun _ => none).ReachableBy KeepsOthers s :=
    System.ReachableBy.runFrom keepsOthers_sound (.init rfl) hallows
  have hmap : (liveRoster s.table.calls).serving agent = some Demo.second := by
    decide +kernel
  obtain ⟨hagrees, hlast, hdetach, -⟩ := agents_served_as_from_plain_map hreach
  have hserves : s.table.broker.servingOf agent = some Demo.second := (hagrees agent).trans hmap
  exact ⟨hmap, hserves, hlast agent _ hserves, hdetach "pk" link agent _ hmap (by decide)⟩

/-- An agent goes over to a link that has not published it, and offline with it. -/
theorem agent_moves_to_other_link :
    (¬ ∀ s, (fedSystem Broker.Demo.config fun _ => none).Reachable s → s.table.Agrees) ∧
      let s := Demo.fedAfter (Demo.published ["translator"] ["poet"])
      s.table.broker.servingOf Broker.Demo.agent = some Demo.second ∧
        s.requireOpen Broker.Demo.link = true ∧
        (s.detach fedRoster "pk" Demo.second).table.broker.servingOf Broker.Demo.agent = none := by
  refine ⟨fun h => ?_, by decide +kernel, by decide +kernel, by decide +kernel⟩
  have hagrees := h (Demo.fedAfter (Demo.published ["translator"] ["poet"]))
    (.runFrom (.init rfl) _) Broker.Demo.agent
  exact absurd hagrees (by decide +kernel)

end Funduq.Rosters
