import Funduq.Doors.Hall
import Funduq.Lib.Refusal

/-!
# A refused call leaves no trace

Every door writes the thread before most of its checks: it creates it, or touches it.
What makes a refusal harmless is that the run, its thread and its messages are in one
commit, and that nothing is refused after it.
-/

namespace Funduq.Doors

open Funduq.Lib Funduq.Store Funduq.Contract
open Funduq.Broker (AgentRef Status)
open Prog hiding ofExcept

/-- The call was not refused: AG-UI's snapshot of the thread is a refusal. -/
def Reply.Accepted : Reply → Prop
  | .snapshot _ _ => False
  | _ => True

/-- The call opens a run. -/
def Call.opens : Call → Bool
  | .startRun .. | .resumeRun .. | .aguiRun .. | .a2aSend .. => true
  | _ => false

/-! ## What is done before the commit -/

variable {PrivateKey PublicKey : Type} (cfg : Config PrivateKey PublicKey)

theorem tentative_followLineage (n : Nat) (run : RunRecord) : (followLineage n run).Tentative := by
  induction n generalizing run with
  | zero => trivial
  | succ n ih =>
      apply Tentative.select
      intro found
      cases found with
      | none => trivial
      | some child => exact ih child

theorem tentative_lineageTail (n : Nat) (runId : String) : (lineageTail n runId).Tentative := by
  apply Tentative.select
  intro found
  cases found with
  | none => trivial
  | some run => exact (tentative_followLineage n run).bind fun _ => trivial

theorem tentative_waitingOn (n : Nat) (run : RunRecord) : (waitingOn n run).Tentative := by
  unfold waitingOn
  split
  · trivial
  · apply (tentative_lineageTail n run.runId).bind
    intro tail
    cases tail with
    | none => trivial
    | some tail =>
        show Prog.Tentative (if tail.runId ≠ run.runId then _ else _ : Door _)
        split
        · trivial
        · exact fun _ => trivial

theorem tentative_rootOf (n : Nat) (run : RunRecord) : (rootOf n run).Tentative := by
  induction n generalizing run with
  | zero => trivial
  | succ n ih =>
      unfold rootOf
      cases run.parentRunId with
      | none => trivial
      | some parentId =>
          apply Tentative.select
          intro found
          cases found with
          | none => trivial
          | some parent => exact ih parent

theorem tentative_registered (agent : AgentRef) : (registered agent).Tentative := by
  intro w
  show Prog.Tentative (if w.agents.contains agent then _ else _ : Door Unit)
  split <;> trivial

theorem tentative_readCaller (bag : Json) (presenterKey : Option String) :
    (readCaller cfg bag presenterKey).Tentative := by
  apply (tentative_ofExcept _).bind
  intro verified
  apply Tentative.bind
  · unfold resolveKyok
    simp only
    split
    · trivial
    · rename_i ref _
      intro w
      show Prog.Tentative (if w.llmProviders.contains ref then _ else _ : Door _)
      split <;> trivial
  · exact fun _ => trivial

theorem tentative_createThread (agent : AgentRef) (parentThreadId : Option String)
    (metadata : Dict String Json) (headKey : Option String) :
    (createThread agent parentThreadId metadata headKey).Tentative := by
  intro id w
  show Prog.Tentative (if w.agents.contains agent then _ else _ : Door String)
  split <;> trivial

theorem tentative_ensureThread (agent : AgentRef) (threadId parentThreadId : Option String)
    (metadata : Dict String Json) (createIfMissing : Bool) (headKey : Option String) :
    (ensureThread agent threadId parentThreadId metadata createIfMissing headKey).Tentative := by
  cases threadId with
  | none => exact tentative_createThread _ _ _ _
  | some threadId =>
      apply Tentative.select
      intro found
      cases found with
      | none =>
          show Prog.Tentative (if createIfMissing = true then _ else _ : Door String)
          split
          · exact tentative_createThread _ _ _ _
          · trivial
      | some existing => exact (tentative_ofExcept _).bind fun _ => trivial

theorem tentative_checkRoom (n : Nat) (inbound : InboundRun) (threadId : String)
    (answers : Option RunRecord) : (checkRoom cfg n inbound threadId answers).Tentative := by
  cases answers with
  | none =>
      apply Tentative.bind
      · unfold ensureQueueRoom
        split
        · trivial
        · rename_i limit _
          intro w
          show Prog.Tentative (if limit ≤ (w.countQueuedRunsForThread threadId : Int) then _ else _ :
            Door Unit)
          split <;> trivial
      · exact fun _ => trivial
  | some answers =>
      apply (tentative_ofExcept _).bind
      intro head
      cases head with
      | none => trivial
      | some head =>
          apply (tentative_rootOf n answers).bind
          intro root w
          exact (tentative_ofExcept _).bind fun _ => trivial

theorem tentative_saidIn (run : RunRecord) : (saidIn cfg run).Tentative := by
  intro w
  show Prog.Tentative (if run.status = .completed then _ else _ : Door _)
  split
  · exact fun _ => trivial
  · trivial

theorem tentative_conversationOf (seen : List (Option String)) (runs : List RunRecord) :
    (conversationOf cfg seen runs).Tentative := by
  induction runs generalizing seen with
  | nil => trivial
  | cons run runs ih =>
      apply (tentative_saidIn cfg run).bind
      intro said
      exact (ih _).bind fun _ => trivial

theorem tentative_waitingRun (n : Nat) (runId : String) : (waitingRun n runId).Tentative := by
  apply Tentative.select
  intro found
  cases found with
  | none => trivial
  | some stored =>
      show Prog.Tentative (waitingOn n stored >>= _ : Door RunRecord)
      apply (tentative_waitingOn n stored).bind
      intro events
      cases events <;> trivial

theorem tentative_latestWaiting (n : Nat) (threadId : String) (answering : Bool) :
    (latestWaiting n threadId answering).Tentative := by
  cases answering with
  | false => trivial
  | true =>
      apply Tentative.select
      intro found
      cases found with
      | none => trivial
      | some latest => exact (tentative_waitingOn n latest).bind fun _ => trivial

theorem tentative_lineageParent (message : Dict String Json) :
    (lineageParent message).Tentative := by
  unfold lineageParent
  split
  · exact fun _ => trivial
  · trivial
  · split <;> trivial
  · trivial

theorem tentative_waitingTask (n : Nat) (agent : AgentRef) (taskId contextId : Option String) :
    (waitingTask n agent taskId contextId).Tentative := by
  cases taskId with
  | none => trivial
  | some taskId =>
      apply Tentative.select
      intro found
      cases found with
      | none => trivial
      | some root =>
          show Prog.Tentative (if root.agent ≠ agent then _ else _ : Door _)
          split
          · trivial
          · split
            · trivial
            · apply (tentative_lineageTail n taskId).bind
              intro tail
              cases tail with
              | none => trivial
              | some tail =>
                  show Prog.Tentative (waitingOn n tail >>= _ : Door _)
                  apply (tentative_waitingOn n tail).bind
                  intro events
                  cases events <;> trivial

/-! ## The commit, and what comes after it -/

theorem atomic_appendThreadMessages (threadId runId : String) (messages : List Json) {β : Type}
    {ok : β → Prop} {p : Door β} (hp : p.Atomic ok) :
    (appendThreadMessages threadId runId messages >>= fun _ => p).Atomic ok := by
  induction messages with
  | nil => exact hp
  | cons message rest ih => exact ih

theorem atomic_openRun (n : Nat) (inbound : InboundRun) (relayed : Option (List String))
    (threadId : String) (answers : Option RunRecord) :
    (openRun cfg n inbound relayed threadId answers).Atomic fun _ => True := by
  apply Tentative.bind
  · unfold checkAddressed
    split
    · trivial
    · rename_i target _
      intro w
      show Prog.Tentative (if w.live.get? target = some threadId then _ else _ : Door _)
      split <;> trivial
    · trivial
  intro addressed
  apply (tentative_checkRoom cfg n inbound threadId answers).bind
  intro resolution runId now
  apply (tentative_ofExcept _).bind
  intro messages
  apply (tentative_ofExcept _).bind
  intro input
  apply atomic_appendThreadMessages threadId runId messages
  trivial

/-- Once the run is in, `dispatch` goes through, whoever serves its agent. -/
theorem succeeds_dispatch (inbound : InboundRun) (relayed : Option (List String))
    (input : RunAgentInput) (addressed : Option String) :
    (dispatch inbound relayed input addressed).Succeeds fun _ => True := by
  intro w
  show Prog.Succeeds _ (if w.served.contains inbound.agent then _ else _ : Door Bool)
  split
  · trivial
  · show Prog.Succeeds _ (closeWithTerminalEvent input.runId "agent_offline" >>= _ : Door Bool)
    apply Succeeds.bind fun _ => True
    · intro w'
      show Prog.Succeeds _ (if (w'.live.get? input.runId).isSome then _ else _ : Door Unit)
      split
      · trivial
      · intro w''
        show Prog.Succeeds _ (if (w''.getRunEvents input.runId).any _ then _ else _ : Door Unit)
        split
        · trivial
        · exact fun _ => trivial
    · exact fun _ _ => trivial

theorem atomic_enter (n : Nat) (inbound : InboundRun) (threadId : String)
    (answers : Option RunRecord) : (enter cfg n inbound threadId answers).Atomic fun _ => True := by
  apply (tentative_ofExcept _).bind
  intro relayed
  apply (atomic_openRun cfg n inbound relayed threadId answers).then
  intro opened
  exact (succeeds_dispatch _ _ _ _).bind _ fun _ _ => trivial

/-- What a door answers of a run that is in is no refusal. -/
theorem atomic_enter_then (n : Nat) (inbound : InboundRun) (threadId : String)
    (answers : Option RunRecord) {reply : Entered → Reply} (hreply : ∀ run, (reply run).Accepted) :
    (enter cfg n inbound threadId answers >>= fun run => pure (reply run)).Atomic
      Reply.Accepted :=
  (atomic_enter cfg n inbound threadId answers).then hreply

/-- Every door that opens a run refuses before it commits. -/
theorem atomic_program {r : Request} (hopens : r.call.opens = true) :
    (program cfg r).Atomic Reply.Accepted := by
  unfold program
  split
  · apply (tentative_readCaller cfg _ _).bind
    intro caller
    apply (tentative_ensureThread _ _ _ _ _ _).bind
    intro threadId
    exact atomic_enter_then cfg _ _ _ _ fun _ => trivial
  · apply (tentative_waitingRun _ _).bind
    intro stored
    apply (tentative_readCaller cfg _ _).bind
    intro caller
    exact atomic_enter_then cfg _ _ _ _ fun _ => trivial
  · rename_i agent body presenterKey _
    apply (tentative_registered _).bind
    intro _
    apply (tentative_readCaller cfg _ _).bind
    intro caller
    apply (tentative_ensureThread _ _ _ _ _ _).bind
    intro threadId
    apply (tentative_latestWaiting _ _ _).bind
    rintro ⟨latest, events⟩
    dsimp only
    split
    · exact fun _ => trivial
    · exact atomic_enter_then cfg _ _ _ _ fun _ => trivial
  · apply (tentative_registered _).bind
    intro _
    apply (tentative_readCaller cfg _ _).bind
    intro caller
    apply (tentative_lineageParent _).bind
    intro parentThreadId
    apply (tentative_ofExcept _).bind
    intro taskId
    apply (tentative_ofExcept _).bind
    intro contextId
    apply (tentative_waitingTask _ _ _ _).bind
    intro task
    apply (tentative_ensureThread _ _ _ _ _ _).bind
    intro threadId w
    apply (tentative_conversationOf cfg _ _).bind
    intro said
    apply (tentative_ofExcept _).bind
    intro new
    exact atomic_enter_then cfg _ _ _ _ fun _ => trivial
  · rename_i hcall
    rw [hcall] at hopens
    cases hopens
  · rename_i hcall
    rw [hcall] at hopens
    cases hopens

/-! ## Among others -/

/-- The process goes on. -/
def Hall.Next (h h' : Hall) : Prop :=
  (∃ a, h.takeTurn cfg a = some h') ∨ h.recover cfg = some h'

/-- Request `i` takes its next statement. -/
def Hall.Advances (i : Nat) (h h' : Hall) : Prop :=
  ∃ id, h.takeTurn cfg (.advance i id) = some h'

/-- Nobody can tell the halls apart: the tables, what the broker holds and was handed,
and the bindings are the same. -/
def Hall.Same (h h' : Hall) : Prop := h'.world = h.world ∧ h'.bindings = h.bindings

variable {cfg}

theorem Hall.recover_txns {h h' : Hall} (hstep : h.recover cfg = some h') :
    h'.doors.txns = h.doors.txns := by
  unfold Hall.recover at hstep
  split at hstep
  · cases hstep
    rfl
  · cases hstep
    rfl
  · split at hstep <;> cases hstep <;> rfl
  · split at hstep <;> cases hstep <;> rfl
  · cases hstep
    rfl
  · cases hstep
    rfl
  · cases hstep

/-- What the moves of the doors make of their requests. -/
theorem Hall.takeTurn_txns {h h' : Hall} {a : Move Request Outside}
    (hstep : h.takeTurn cfg a = some h') :
    (∃ r, h'.doors.txns = h.doors.txns ++ [{ call := r, prog := program cfg r }]) ∨
      (∃ i t t', h.doors.txns[i]? = some t ∧
        Server.Goes db Reply.Accepted h.doors h'.doors i t t') ∨
      h'.doors.txns = h.doors.txns := by
  obtain ⟨s, hs, rfl⟩ := Option.map_eq_some_iff.1 hstep
  cases a with
  | call r =>
      cases hs
      exact .inl ⟨r, rfl⟩
  | advance i id =>
      obtain ⟨t, ht⟩ := Server.getElem?_of_advance hs
      obtain ⟨t', hgoes⟩ := Server.advance_goes Reply.Accepted ht hs
      exact .inr (.inl ⟨i, t, t', ht, hgoes⟩)
  | outside e =>
      obtain ⟨w, -, rfl⟩ := Option.map_eq_some_iff.1 hs
      exact .inr (.inr rfl)

/-- In every process, what a door has still to do it will refuse before it commits, or
not at all. -/
theorem atomic_requests {h : Hall} (hs : (hallSystem cfg).Reachable h) :
    ∀ t ∈ h.doors.txns, t.call.call.opens = true → t.prog.Atomic Reply.Accepted := by
  apply hs.invariant
  · intro h hinit t ht
    rw [hinit.2.1] at ht
    cases ht
  · intro h a h' _ ih hstep
    cases a with
    | doors a =>
        rcases Hall.takeTurn_txns hstep with ⟨r, htxns⟩ | ⟨i, t, t', ht, hgoes⟩ | htxns
        · rw [htxns]
          intro t ht hopens
          rcases List.mem_append.1 ht with ht | ht
          · exact ih t ht hopens
          · cases List.mem_singleton.1 ht
            exact atomic_program cfg hopens
        · rw [hgoes.txns]
          intro u hu hopens
          rcases List.mem_or_eq_of_mem_set hu with hu | rfl
          · exact ih u hu hopens
          · rw [hgoes.call] at hopens
            exact hgoes.atomic (ih t (List.mem_of_getElem? ht) hopens)
        · rw [htxns]
          exact ih
    | recover =>
        rw [Hall.recover_txns hstep]
        exact ih
    | restart =>
        cases hstep
        exact fun _ ht => nomatch ht

/-- A request that goes through goes through whatever comes in between. -/
theorem Hall.Next.succeeds {h h' : Hall} {i : Nat}
    (hs : ∃ t, h.doors.txns[i]? = some t ∧ t.prog.Succeeds Reply.Accepted)
    (hnext : h.Next cfg h') :
    ∃ t, h'.doors.txns[i]? = some t ∧ t.prog.Succeeds Reply.Accepted := by
  obtain ⟨t, ht, hsucceeds⟩ := hs
  rcases hnext with ⟨a, hstep⟩ | hstep
  · rcases Hall.takeTurn_txns hstep with ⟨r, htxns⟩ | ⟨j, u, u', hu, hgoes⟩ | htxns
    · refine ⟨t, ?_, hsucceeds⟩
      rw [htxns, List.getElem?_append_left (Server.lt_of_getElem? ht)]
      exact ht
    · rw [hgoes.txns, List.getElem?_set]
      by_cases hij : j = i
      · subst hij
        cases ht.symm.trans hu
        rw [if_pos rfl, if_pos (Server.lt_of_getElem? hu)]
        exact ⟨u', rfl, hgoes.succeeds hsucceeds⟩
      · rw [if_neg hij]
        exact ⟨t, ht, hsucceeds⟩
    · rw [htxns]
      exact ⟨t, ht, hsucceeds⟩
  · rw [Hall.recover_txns hstep]
    exact ⟨t, ht, hsucceeds⟩

/-- A statement that changes anything is a commit, and after it nothing is refused. -/
theorem Hall.Advances.same {h h' : Hall} {i : Nat} {t : Txn World Write DoorError Reply Request}
    (ht : h.doors.txns[i]? = some t) (hatomic : t.prog.Atomic Reply.Accepted)
    (hstep : h.Advances cfg i h') :
    h.Same h' ∨ ∃ t', h'.doors.txns[i]? = some t' ∧ t'.prog.Succeeds Reply.Accepted := by
  obtain ⟨id, hstep⟩ := hstep
  obtain ⟨s, hs, rfl⟩ := Option.map_eq_some_iff.1 hstep
  obtain ⟨t', hgoes⟩ := Server.advance_goes Reply.Accepted ht hs
  by_cases hcommits : t.commits
  · refine .inr ⟨t', ?_, hgoes.commits hcommits hatomic⟩
    show s.txns[i]? = some t'
    rw [hgoes.txns, List.getElem?_set, if_pos rfl, if_pos (Server.lt_of_getElem? ht)]
  · refine .inl ⟨hgoes.world.resolve_right hcommits, ?_⟩
    have hnone : h.committing (.advance i id) = none := by
      unfold Hall.committing
      simp only [ht]
      split
      · rename_i k writes _ _ heq
        cases heq
        exact absurd ⟨_, rfl⟩ hcommits
      · rfl
    show h.relayed (.advance i id) = h.bindings
    unfold Hall.relayed
    rw [hnone]

theorem Hall.Next.succeeds_later {h last : Hall} {i : Nat}
    (hrun : Relation.ReflTransGen (Hall.Next cfg) h last)
    (hs : ∃ t, h.doors.txns[i]? = some t ∧ t.prog.Succeeds Reply.Accepted) :
    ∃ t, last.doors.txns[i]? = some t ∧ t.prog.Succeeds Reply.Accepted := by
  induction hrun with
  | refl => exact hs
  | tail _ hnext ih => exact hnext.succeeds ih

theorem Hall.Advances.next {h h' : Hall} {i : Nat} (hstep : h.Advances cfg i h') :
    h.Next cfg h' := by
  obtain ⟨id, hstep⟩ := hstep
  exact .inl ⟨_, hstep⟩

/-- A request is the same call all along. -/
theorem Hall.Advances.call {h h' : Hall} {i : Nat} {t : Txn World Write DoorError Reply Request}
    (ht : h.doors.txns[i]? = some t) (hstep : h.Advances cfg i h') :
    ∃ t', h'.doors.txns[i]? = some t' ∧ t'.call = t.call := by
  obtain ⟨id, hstep⟩ := hstep
  obtain ⟨s, hs, rfl⟩ := Option.map_eq_some_iff.1 hstep
  obtain ⟨t', hgoes⟩ := Server.advance_goes Reply.Accepted ht hs
  refine ⟨t', ?_, hgoes.call⟩
  show s.txns[i]? = some t'
  rw [hgoes.txns, List.getElem?_set, if_pos rfl, if_pos (Server.lt_of_getElem? ht)]

section Refused

variable {last : Hall} {i : Nat} {t' : Txn World Write DoorError Reply Request}
  (ht' : last.doors.txns[i]? = some t') (hrefused : t'.Refused Reply.Accepted)
include ht' hrefused

/-- A statement after which the call is refused changes nothing. -/
theorem Hall.Advances.same_of_refused {h next : Hall} (hs : (hallSystem cfg).Reachable h)
    {t : Txn World Write DoorError Reply Request} (ht : h.doors.txns[i]? = some t)
    (hopens : t.call.call.opens = true) (hstep : h.Advances cfg i next)
    (hrest : Relation.ReflTransGen (Hall.Next cfg) next last) : h.Same next := by
  have hatomic := atomic_requests hs t (List.mem_of_getElem? ht) hopens
  refine (hstep.same ht hatomic).resolve_right fun hsucceeds => ?_
  obtain ⟨u, hu, hsucceeds⟩ := Hall.Next.succeeds_later hrest hsucceeds
  cases ht'.symm.trans hu
  exact Txn.not_refused hsucceeds hrefused

/-- **Main result.**  No statement of a call that ends up refused changes anything,
whoever else is at work; where nobody is, all is as it was before the call. -/
theorem refused_leaves_no_trace {h : Hall} (hs : (hallSystem cfg).Reachable h)
    {t : Txn World Write DoorError Reply Request} (ht : h.doors.txns[i]? = some t)
    (hopens : t.call.call.opens = true) :
    (∀ next, h.Advances cfg i next → Relation.ReflTransGen (Hall.Next cfg) next last →
        h.Same next) ∧
      (Relation.ReflTransGen (Hall.Advances cfg i) h last → h.Same last) := by
  refine ⟨fun next hstep hrest =>
    hstep.same_of_refused ht' hrefused hs ht hopens hrest, fun hrun => ?_⟩
  induction hrun using Relation.ReflTransGen.head_induction_on generalizing t with
  | refl => exact ⟨rfl, rfl⟩
  | @head h next hstep hrest ih =>
      have hlater : Relation.ReflTransGen (Hall.Next cfg) next last :=
        hrest.lift id fun _ _ => Hall.Advances.next
      have hsame := hstep.same_of_refused ht' hrefused hs ht hopens hlater
      obtain ⟨u, hu, hcall⟩ := hstep.call ht
      obtain ⟨id, hturn⟩ := id hstep
      have hreach : (hallSystem cfg).Reachable next := .step (.doors (.advance i id)) hs hturn
      have hrest' := ih hreach hu (by rw [hcall]; exact hopens)
      exact ⟨hrest'.1.trans hsame.1, hrest'.2.trans hsame.2⟩

end Refused

/-- A request that takes its statements one after the other. -/
theorem Hall.Advances.of_exec {h last : Hall} {i : Nat} {ids : List String}
    (hexec : (hallSystem cfg).exec h (ids.map fun id => .doors (.advance i id)) = some last) :
    Relation.ReflTransGen (Hall.Advances cfg i) h last := by
  induction ids generalizing h with
  | nil =>
      cases hexec
      exact .refl
  | cons id ids ih =>
      obtain ⟨next, hnext, hrest⟩ := Option.bind_eq_some_iff.1 hexec
      exact .head ⟨id, hnext⟩ (ih hrest)

namespace Demo

/-- A process that has started, and a call for a new thread with two messages of one id. -/
def called : Hall := (hallSystem config).runFrom { doors := start } [.doors (calls (.startRun agent
  [("messages", .arr [.obj [("id", .str "m")], .obj [("id", .str "m")]])] none none))]

/-- The call creates the thread, and is refused. -/
def turnedAway : Hall := (hallSystem config).runFrom called
  (["t", "", "", "", "r0", ""].map fun id => .doors (.advance 0 id))

theorem called_reachable : (hallSystem config).Reachable called :=
  System.Reachable.runFrom (.init hall_init) _

/-- The request has failed. -/
def hasFailed : Prog World Write DoorError Reply → Bool
  | .raise _ => true
  | _ => false

theorem exists_of_hasFailed {p : Prog World Write DoorError Reply} (h : hasFailed p = true) :
    ∃ e, p = .raise e := by
  cases p <;> first | exact ⟨_, rfl⟩ | cases h

end Demo

/-- The thread was written, and is not there. -/
theorem refused_leaves_no_trace_doubled :
    (hallSystem Demo.config).Reachable Demo.called ∧
      (∃ t, Demo.turnedAway.doors.txns[0]? = some t ∧ t.writes.length = 1 ∧
        t.Refused Reply.Accepted) ∧
      Demo.turnedAway.world.threads.length = 0 ∧ Demo.called.Same Demo.turnedAway := by
  have hcalled : (Demo.called.doors.txns[0]?.any fun t => t.call.call.opens) = true := by
    decide +kernel
  have hrefused : (Demo.turnedAway.doors.txns[0]?.any fun t =>
      Demo.hasFailed t.prog && t.writes.length == 1) = true := by
    decide +kernel
  have hexec : ((hallSystem Demo.config).exec Demo.called (["t", "", "", "", "r0", ""].map
      fun id => .doors (.advance 0 id))).isSome = true := by
    decide +kernel
  obtain ⟨t, ht, hopens⟩ := (Option.any_eq_true _ _).1 hcalled
  obtain ⟨t', ht', hfailed⟩ := (Option.any_eq_true _ _).1 hrefused
  rw [Bool.and_eq_true] at hfailed
  have hends : t'.Refused Reply.Accepted := .inl (Demo.exists_of_hasFailed hfailed.1)
  obtain ⟨last, hlast⟩ := Option.isSome_iff_exists.1 hexec
  have hrun : Relation.ReflTransGen (Hall.Advances Demo.config 0) Demo.called Demo.turnedAway := by
    have hsame : Demo.turnedAway = last := by
      unfold Demo.turnedAway System.runFrom
      rw [hlast]
      rfl
    rw [hsame]
    exact Hall.Advances.of_exec hlast
  refine ⟨Demo.called_reachable, ⟨t', ht', by simpa using hfailed.2, hends⟩, by decide +kernel, ?_⟩
  exact (refused_leaves_no_trace ht' hends Demo.called_reachable ht hopens).2 hrun

end Funduq.Doors
