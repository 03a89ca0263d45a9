import Funduq.Rosters.Node

/-!
# Only open links serve

`register` looks whether the connection is on an open link, waits until its names are
stored, and puts the connection into service without looking again.  A link that is
detached while its call waits serves from then on, and nothing takes it out of service:
its own detach has been.  With the link still open when the call goes on, whoever serves
is on an open link, whatever else happens in between.
-/

namespace Funduq.Rosters

open Funduq.Lib
open Funduq.Broker (Key Connection AgentRef RunId)
open Funduq.Store (LlmRef)

/-- Whoever call `i` puts into service is still on an open link. -/
def Roster.stillOpen {T : Type} (s : Roster T) : Op → Bool
  | .goesOn i => s.calls[i]?.all fun
      | .registering c _ => s.requireOpen c
      | .deleting _ _ => true
  | _ => true

def Node.stillOpen (n : Node) : Move → Bool
  | .agents op => n.agents.stillOpen op
  | .llms op => n.llms.stillOpen op
  | .broker _ => true

namespace Roster

variable {T Ref : Type} {K : Kind T Ref} {key : Ref → Key} {Ok : T → Prop} {s s' : Roster T}
  {t : T}

/-- The table is in order, and whoever serves is on an open link. -/
structure Manned (K : Kind T Ref) (Ok : T → Prop) (s : Roster T) : Prop where
  ok : Ok s.table
  onOpen : ∀ ref c, K.live s.table ref = some c → s.requireOpen c = true

/-! ## What stays open -/

theorem requireOpen_detach {c c' : Connection} {k : Key} (ho : s.requireOpen c' = true)
    (hne : c'.publicKey = k → same c' c = false) : (s.detach K k c).requireOpen c' = true := by
  unfold requireOpen detach at *
  dsimp only
  by_cases hk : c'.publicKey = k
  · subst hk
    obtain ⟨link, hmem, hlink⟩ := List.any_eq_true.1 ho
    rw [Function.update_self]
    refine List.any_eq_true.2 ⟨link, ?_, hlink⟩
    have hdiff := hne rfl
    unfold same at hdiff hlink
    refine (List.mem_eraseP_of_neg ?_).2 hmem
    unfold same
    rw [of_decide_eq_true hlink]
    simpa using hdiff
  · rwa [Function.update_of_ne hk]

theorem Manned.opens (h : Manned K Ok s) (c : Connection) :
    Manned K Ok { s with
      links := Function.update s.links c.publicKey (s.links c.publicKey ++ [c]) } := by
  refine ⟨h.ok, fun ref c' hl => ?_⟩
  have ho := h.onOpen ref c' hl
  unfold requireOpen at *
  dsimp only
  by_cases hk : c'.publicKey = c.publicKey
  · rw [hk] at ho ⊢
    rw [Function.update_self, List.any_append, ho]
    rfl
  · rwa [Function.update_of_ne hk]

/-! ## What is served afterwards -/

variable [DecidableEq Ref]

theorem Manned.detach (hK : Lawful K key Ok) (h : Manned K Ok s) (k : Key) (c : Connection) :
    Manned K Ok (s.detach K k c) := by
  refine ⟨ok_withdrawAll hK h.ok _, fun ref c' hl => ?_⟩
  change K.live (withdrawAll K s.table (attached K s.table k c)) ref = some c' at hl
  rw [live_withdrawAll hK] at hl
  split at hl
  · cases hl
  · rename_i hmem
    obtain ⟨hkey, hserved⟩ := hK.served h.ok hl
    refine requireOpen_detach (h.onOpen ref c' hl) fun hk => ?_
    -- The ref is among those of the key, so it is the connection that differs.
    refine Bool.eq_false_iff.2 fun hsame => hmem (List.mem_filter.2 ⟨?_, ?_⟩)
    · rwa [← hk, hkey]
    · unfold serves
      rw [hl]
      exact hsame

theorem Manned.detachAll (hK : Lawful K key Ok) (h : Manned K Ok s) (k : Key) :
    Manned K Ok (s.detachAll K k) := by
  refine ⟨ok_withdrawAll hK h.ok _, fun ref c hl => ?_⟩
  change K.live (withdrawAll K s.table (K.servedBy s.table k)) ref = some c at hl
  rw [live_withdrawAll hK] at hl
  split at hl
  · cases hl
  · rename_i hmem
    obtain ⟨hkey, hserved⟩ := hK.served h.ok hl
    have hk : c.publicKey ≠ k := by
      intro hk
      apply hmem
      rwa [← hk, hkey]
    have ho := h.onOpen ref c hl
    unfold requireOpen Roster.detachAll at *
    dsimp only
    rwa [Function.update_of_ne hk]

/-- **A step of a roster.** -/
theorem Manned.step (hK : Lawful K key Ok) (h : Manned K Ok s) {op : Op}
    (hopen : s.stillOpen op = true) (hstep : s.step K op = some s') : Manned K Ok s' := by
  cases op with
  | opens c proved =>
      simp only [Roster.step] at hstep
      split at hstep <;> cases hstep
      · exact h.opens c
      · exact h
  | register c names =>
      simp only [Roster.step] at hstep
      split at hstep <;> cases hstep <;> exact ⟨h.ok, h.onOpen⟩
  | delete c name =>
      simp only [Roster.step] at hstep
      split at hstep <;> cases hstep <;> exact ⟨h.ok, h.onOpen⟩
  | goesOn i =>
      obtain ⟨call, hcall, rfl⟩ := Option.map_eq_some_iff.1 hstep
      refine ⟨ok_proceed hK h.ok call, fun ref c hl => ?_⟩
      rcases live_proceed hK h.ok hl with ⟨names, rfl⟩ | hl
      · change s.requireOpen c = true
        simp only [stillOpen, hcall, Option.all_some] at hopen
        exact hopen
      · exact h.onOpen ref c hl
  | fails i =>
      obtain ⟨call, hcall, rfl⟩ := Option.map_eq_some_iff.1 hstep
      exact ⟨h.ok, h.onOpen⟩
  | detach k c =>
      cases hstep
      exact h.detach hK k c
  | detachAll k =>
      cases hstep
      exact h.detachAll hK k

end Roster

/-! ## Every node -/

theorem lawful_llm : Lawful llmRoster LlmRef.providerKey (Owned LlmRef.providerKey) :=
  lawful_plain fun _ _ => rfl

section Reachable

variable {cfg : Broker.Config} {db : RunId → Option Broker.Row}

/-- **Whoever serves is on an open link**, if nobody is put into service whose link has
been detached meanwhile. -/
theorem only_open_links_serve {n : Node}
    (hn : (node cfg db).ReachableBy (fun n m => n.stillOpen m = true) n) :
    (∀ ref c, n.agents.table.servingOf ref = some c → n.agents.requireOpen c = true) ∧
      ∀ ref c, LiveRoster.serving n.llms.table ref = some c → n.llms.requireOpen c = true := by
  suffices h : n.agents.Manned agentRoster RosterOk ∧
      n.llms.Manned llmRoster (Owned LlmRef.providerKey) from ⟨h.1.onOpen, h.2.onOpen⟩
  refine System.ReachableBy.invariant (P := fun n : Node => n.agents.Manned agentRoster RosterOk ∧
    n.llms.Manned llmRoster (Owned LlmRef.providerKey)) ?_ ?_ hn
  · rintro n rfl
    refine ⟨⟨rosterOk_init, ?_⟩, ⟨?_, ?_⟩⟩
    · intro ref c hl
      cases hl
    · intro ref c hl
      cases hl
    · intro ref c hl
      cases hl
  · intro n m n' hreach hman hopen hstep
    cases m with
    | agents op =>
        obtain ⟨s, hs, rfl⟩ := Option.map_eq_some_iff.1 hstep
        exact ⟨hman.1.step lawful_agent hopen hs, hman.2⟩
    | llms op =>
        obtain ⟨s, hs, rfl⟩ := Option.map_eq_some_iff.1 hstep
        exact ⟨hman.1, hman.2.step lawful_llm hopen hs⟩
    | broker a =>
        change (if ofRoster a then none else _) = some n' at hstep
        split at hstep
        · cases hstep
        · rename_i ha
          obtain ⟨t, ht, rfl⟩ := Option.map_eq_some_iff.1 hstep
          obtain ⟨hinv, hl⟩ := Broker.reachable_sound (broker_reachable hreach.reachable)
          have hfewer := fewer_step hinv hl (Bool.eq_false_iff.2 ha) ht
          exact ⟨⟨hfewer.ok hman.1.ok, fun ref c hc => hman.1.onOpen ref c (hfewer.live hc)⟩,
            hman.2⟩

end Reachable

namespace Demo

open Broker.Demo (link)

/-- A link comes, publishes a name and goes, while another of its key publishes the
same name and stays. -/
def relieved : List Move :=
  [.agents (.opens link true), .agents (.opens second true),
    .agents (.register link ["translator"]), .agents (.register second ["translator"]),
    .agents (.goesOn 0), .agents (.detach "pk" link), .agents (.goesOn 0),
    .llms (.opens link true), .llms (.register link ["model"]), .llms (.goesOn 0)]

/-- A link goes before its names are stored. -/
def overtaken : List Op :=
  [.opens link true, .register link ["translator"], .detach "pk" link, .goesOn 0]

end Demo

open Broker.Demo (config agent link) in
theorem only_open_links_serve_relieved :
    (Demo.after Demo.relieved).agents.table.servingOf agent = some Demo.second ∧
      (Demo.after Demo.relieved).agents.requireOpen Demo.second = true ∧
      LiveRoster.serving (Demo.after Demo.relieved).llms.table ⟨"pk", "model"⟩ = some link ∧
      (Demo.after Demo.relieved).llms.requireOpen link = true := by
  have hallows : (node config fun _ => none).allows Node.stillOpen
      ⟨.empty (Broker.State.init fun _ => none), .empty []⟩ Demo.relieved = true := by
    decide +kernel
  have hreach : (node config fun _ => none).ReachableBy (fun n m => n.stillOpen m = true)
      (Demo.after Demo.relieved) :=
    System.ReachableBy.runFrom (fun _ _ h => h) (.init rfl) hallows
  have hserves : (Demo.after Demo.relieved).agents.table.servingOf agent = some Demo.second := by
    decide +kernel
  have hllm : LiveRoster.serving (Demo.after Demo.relieved).llms.table ⟨"pk", "model"⟩ =
      some link := by
    decide +kernel
  obtain ⟨hagents, hllms⟩ := only_open_links_serve hreach
  exact ⟨hserves, hagents _ _ hserves, hllm, hllms _ _ hllm⟩

/-- A link that has gone serves an agent, and one that has gone serves an LLM offering. -/
theorem detached_link_serves :
    (¬ ∀ n, (node Broker.Demo.config fun _ => none).Reachable n →
      ∀ ref c, n.agents.table.servingOf ref = some c → n.agents.requireOpen c = true) ∧
    ¬ ∀ n, (node Broker.Demo.config fun _ => none).Reachable n →
      ∀ ref c, LiveRoster.serving n.llms.table ref = some c → n.llms.requireOpen c = true := by
  constructor
  · intro h
    have hopen := h (Demo.after (Demo.overtaken.map .agents)) (.runFrom (.init rfl) _)
      Broker.Demo.agent Broker.Demo.link (by decide +kernel)
    exact absurd hopen (by decide +kernel)
  · intro h
    have hopen := h (Demo.after (Demo.overtaken.map .llms)) (.runFrom (.init rfl) _)
      ⟨"pk", "translator"⟩ Broker.Demo.link (by decide +kernel)
    exact absurd hopen (by decide +kernel)

end Funduq.Rosters
