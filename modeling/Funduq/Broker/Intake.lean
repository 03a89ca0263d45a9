import Funduq.Broker.Moves

/-!
# Taking a message, and taking a run in

A handler takes the first message off its inbox.  What it then does is a move
(`Moves.lean`) from the state in which the message is already off the inbox and
noted in the trail of its run; where the message is a `_Queued`, the run is live
there too.  This file shows that those in-between states are as the moves need
them, and that `enqueue_run` keeps the invariant.
-/

namespace Funduq.Broker

open Funduq.Lib

namespace State

variable {cfg : Config} {s s' : State} {h : HandlerId} {r x : RunId} {m : Message}
  {rest : List Message}

/-- The message at the head of the inbox has been taken off and noted. -/
def heard (s : State) (h : HandlerId) (m : Message) (rest : List Message) : State :=
  { s with inbox := Function.update s.inbox h rest }.hear h m

/-- Besides, the run it brings is live. -/
def arrived (s : State) (h : HandlerId) (r : RunId) (rest : List Message) : State :=
  (s.heard h (.queued r) rest).setLive h (s.live h ++ [r])

/-- The trails once `m` has been noted. -/
def heardTrail (s : State) (h : HandlerId) (m : Message) (x : RunId) : Trail :=
  if m.runId? = some x then
    { s.trail x with heard := (s.trail x).heard ++ [⟨m, s.openTo h x⟩] }
  else s.trail x

theorem heard_eq (s : State) (h : HandlerId) (m : Message) (rest : List Message) :
    s.heard h m rest = { s with
      inbox := Function.update s.inbox h rest
      trail := s.heardTrail h m } := by
  unfold heard hear
  cases hm : m.runId? with
  | none =>
      have : s.heardTrail h m = s.trail := by
        funext x
        simp [heardTrail, hm]
      rw [this]
  | some r =>
      have : s.heardTrail h m = Function.update s.trail r
          { s.trail r with heard := (s.trail r).heard ++ [⟨m, s.openTo h r⟩] } := by
        funext x
        by_cases hx : x = r
        · subst hx
          simp [heardTrail, hm]
        · have hx' : ¬ r = x := fun e => hx e.symm
          simp [heardTrail, hm, hx, hx']
      rw [this]
      rfl

/-- The order of messages about a run survives the taking of one. -/
theorem fifo_heard (hs : Roll s) (hin : s.inbox h = m :: rest) (h' : HandlerId)
    (hx : s.home x = some h') :
    about x (s.posted h') = (s.heardTrail h m x).heard.map Heard.message ++
      about x (Function.update s.inbox h rest h') := by
  have hf := hs.fifo x h' hx
  have hhome : m.runId? = some x → h' = h := by
    intro hm
    have := hs.posted_home h m x (hs.unread h m (by rw [hin]; simp)) hm
    exact Option.some.inj (hx.symm.trans this)
  by_cases hh : h' = h
  · subst hh
    rw [Function.update_self]
    rw [hin] at hf
    by_cases hm : m.runId? = some x
    · simpa [heardTrail, hm, about] using hf
    · simpa [heardTrail, hm, about] using hf
  · have hm : ¬ m.runId? = some x := fun hm => hh (hhome hm)
    rw [Function.update_of_ne hh]
    simpa [heardTrail, hm] using hf

/-- What the taken message may be, for the handler that took it. -/
theorem news_heard (hs : Roll s) (hin : s.inbox h = m :: rest) (hm : m.arrival? = none) :
    (s.heard h m rest).News h m := by
  rw [heard_eq]
  have hmem : m ∈ s.inbox h := by rw [hin]; simp
  refine ⟨hm, fun r c hc => ?_, fun r hr => hs.posted_home h m r (hs.unread h m hmem) hr,
    fun r hr => ?_⟩
  · subst hc
    exact hs.only_fail h r c hmem
  · subst hr
    exact hs.asked h r hmem

private theorem unheard_heard (hs : Roll s) (hin : s.inbox h = m :: rest)
    (hx : s.home x = none) : (s.heardTrail h m x).heard = [] := by
  have hm : ¬ m.runId? = some x := by
    intro hm
    have := hs.posted_home h m x (hs.unread h m (by rw [hin]; simp)) hm
    rw [hx] at this
    cases this
  rw [heardTrail, if_neg hm]
  exact hs.unheard x hx

private theorem mem_update_inbox (hin : s.inbox h = m :: rest) {h' : HandlerId} {m' : Message}
    (hm : m' ∈ Function.update s.inbox h rest h') : m' ∈ s.inbox h' := by
  by_cases hh : h' = h
  · subst hh
    rw [Function.update_self] at hm
    rw [hin]
    exact List.mem_cons_of_mem _ hm
  · rwa [Function.update_of_ne hh] at hm

/-- Taking a message that brings no run keeps the invariant. -/
theorem inv_heard (hs : Inv s) (hin : s.inbox h = m :: rest) (hm : m.arrival? = none) :
    Inv (s.heard h m rest) := by
  rw [heard_eq]
  have harr : ∀ h', (Function.update s.inbox h rest h').filterMap Message.arrival? =
      s.arriving h' := by
    intro h'
    by_cases hh : h' = h
    · subst hh
      rw [Function.update_self, arriving, hin, List.filterMap_cons_none hm]
    · rw [Function.update_of_ne hh]
      rfl
  refine ⟨{ hs.roll with
    nodup := fun h' => ?_
    mem_iff := fun h' x => ?_
    arriving := fun h' x hx => ?_
    gone := fun h' hg => ?_
    only_fail := fun h' x c hc => ?_
    asked := fun h' x hx => ?_
    unread := fun h' m' hm' => ?_
    fifo := fun x h' hx => fifo_heard hs.roll hin h' hx
    unheard := fun x hx => unheard_heard hs.roll hin hx }, hs.desk, hs.counted⟩
  · exact (congrArg (fun l => (s.live h' ++ l).Nodup) (harr h')).mpr (hs.roll.nodup h')
  · exact (congrArg (fun l => x ∈ s.live h' ++ l ↔ _) (harr h')).mpr (hs.roll.mem_iff h' x)
  · exact hs.roll.arriving h' x ((congrArg (fun l => x ∈ l) (harr h')).mp hx)
  · exact (congrArg (fun l => s.live h' = [] ∧ l = []) (harr h')).mpr (hs.roll.gone h' hg)
  · exact hs.roll.only_fail h' x c (mem_update_inbox hin hc)
  · exact hs.roll.asked h' x (mem_update_inbox hin hx)
  · exact hs.roll.unread h' m' (mem_update_inbox hin hm')

/-! ## A run arrives -/

theorem arrived_eq (s : State) (h : HandlerId) (r : RunId) (rest : List Message) :
    s.arrived h r rest = { s with
      inbox := Function.update s.inbox h rest
      trail := s.heardTrail h (.queued r)
      live := Function.update s.live h (s.live h ++ [r]) } := by
  rw [arrived, heard_eq]
  rfl

theorem arriving_of_queued (hin : s.inbox h = .queued r :: rest) :
    s.arriving h = r :: rest.filterMap Message.arrival? := by
  rw [arriving, hin]
  rfl

/-- A run that has just come in stands on its handler's roll, though not on its
desk yet. -/
theorem invBut_arrived (hs : Inv s) (hin : s.inbox h = .queued r :: rest) :
    InvBut h (s.arrived h r rest) := by
  have harr := arriving_of_queued hin
  rw [arrived_eq]
  -- At `h` the run goes over from the inbox to `live`, elsewhere nothing changes.
  have hsame : ∀ h', Function.update s.live h (s.live h ++ [r]) h' ++
      (Function.update s.inbox h rest h').filterMap Message.arrival? =
        s.live h' ++ s.arriving h' := by
    intro h'
    by_cases hh : h' = h
    · subst hh
      rw [Function.update_self, Function.update_self, harr, List.append_assoc]
      rfl
    · rw [Function.update_of_ne hh, Function.update_of_ne hh]
      rfl
  refine ⟨{ hs.roll with
    nodup := fun h' => ?_
    mem_iff := fun h' x => ?_
    arriving := fun h' x hx => ?_
    gone := fun h' hg => ?_
    only_fail := fun h' x c hc => ?_
    asked := fun h' x hx => ?_
    unread := fun h' m' hm' => ?_
    fifo := fun x h' hx => fifo_heard hs.roll hin h' hx
    unheard := fun x hx => unheard_heard hs.roll hin hx }, fun h' hh => ?_, hs.counted⟩
  · exact (congrArg List.Nodup (hsame h')).mpr (hs.roll.nodup h')
  · exact (congrArg (fun l => x ∈ l ↔ _) (hsame h')).mpr (hs.roll.mem_iff h' x)
  · refine hs.roll.arriving h' x ?_
    obtain ⟨m', hm', hx'⟩ := List.mem_filterMap.1 hx
    exact List.mem_filterMap.2 ⟨m', mem_update_inbox hin hm', hx'⟩
  · have hne : h' ≠ h := by
      rintro rfl
      have := (hs.roll.gone h' hg).2
      rw [harr] at this
      cases this
    change Function.update s.live h _ h' = [] ∧
      (Function.update s.inbox h rest h').filterMap Message.arrival? = []
    rw [Function.update_of_ne hne, Function.update_of_ne hne]
    exact hs.roll.gone h' hg
  · exact hs.roll.only_fail h' x c (mem_update_inbox hin hc)
  · exact hs.roll.asked h' x (mem_update_inbox hin hx)
  · exact hs.roll.unread h' m' (mem_update_inbox hin hm')
  · change DeskOk s.run (s.queue h') (Function.update s.live h _ h') (s.task h')
    rw [Function.update_of_ne hh]
    exact hs.desk h'

/-- The run a `_Queued` brings is not live yet, and nobody has been offered
it. -/
theorem not_live_of_queued (hs : Inv s) (hin : s.inbox h = .queued r :: rest) :
    r ∉ s.live h ∧ s.home r = some h ∧ r ∈ s.runs := by
  have ha : r ∈ s.arriving h := by rw [arriving_of_queued hin]; simp
  have ht := (hs.roll.mem_iff h r).1 (List.mem_append_right _ ha)
  exact ⟨fun hl => hs.roll.not_arriving_of_live hl ha, hs.roll.atHome r h ht,
    (hs.roll.held_iff r).2 ⟨h, ht⟩⟩

/-- **A run is taken in.**  It joins the queue, or, when it is addressed to the
turn under way, is offered beside it. -/
theorem moves_onQueued (hs : Inv s) (hi : s.task h = .idle)
    (hin : s.inbox h = .queued r :: rest) :
    (s.arrived h r rest).Moves (Goes cfg) h ((s.heard h (.queued r) rest).onQueued cfg h r) := by
  have ha : r ∈ s.arriving h := by rw [arriving_of_queued hin]; simp
  obtain ⟨hu, hint⟩ := hs.roll.arriving h r ha
  have hnl := (not_live_of_queued hs hin).1
  have hroll := (invBut_arrived hs hin).roll
  have hdesk := hi ▸ hs.desk h
  have htask : (s.arrived h r rest).task h = .idle := by rw [arrived_eq]; exact hi
  have he : ∀ x, ¬ ((s.arrived h r rest).task h).ending x := by simp [htask, Task.ending]
  have hh : ∀ x, ((s.arrived h r rest).task h).hand x = none := by simp [htask, Task.hand]
  have hlive : (s.arrived h r rest).live h = s.live h ++ [r] := by
    rw [arrived_eq]
    exact Function.update_self ..
  have hqueue : (s.arrived h r rest).queue h = s.queue h := by rw [arrived_eq]
  have hrun : (s.arrived h r rest).run = s.run := by rw [arrived_eq]
  have hon : (s.heard h (.queued r) rest).onQueued cfg h r =
      (let t := s.arrived h r rest
      if ((t.queue h).head?).any (fun head =>
          (t.run head).claimedBy.isSome ∧ (t.run r).addressedRunId = some head) then
        t.offer cfg h r true .advance
      else (t.setQueue h (t.queue h ++ [r])).setTask h (.at .advance)) := by
    have hnl' : r ∉ (s.heard h (.queued r) rest).live h := by rw [heard_eq]; exact hnl
    have hset : (s.heard h (.queued r) rest).setLive h
        ((s.heard h (.queued r) rest).live h ++ [r]) = s.arrived h r rest := by
      rw [arrived, heard_eq]
    unfold onQueued
    rw [if_neg hnl', hset]
  rw [hon]
  generalize s.arrived h r rest = t at *
  dsimp only
  split
  · rename_i hj
    have hq : t.queue h ≠ [] := by
      intro hq
      rw [hq] at hj
      cases hj
    have hready : DeskOk.Ready t.run (t.queue h) (t.live h) r true .advance := by
      rw [hrun, hlive, hqueue]
      exact hdesk.arrive_ready hnl hu hint (hqueue ▸ hq)
    have hjoin : ∃ head, (t.queue h).head? = some head ∧
        (t.run head).claimedBy.isSome = true ∧ (t.run r).addressedRunId = some head := by
      simpa [Option.any_eq_true] using hj
    have hm : t.Moves (Goes cfg) h ((t.setQueue h (t.queue h)).offer cfg h r true .advance) :=
      moves_offer hroll he hh hready (by simp) fun _ => hjoin
    have hself : t.setQueue h (t.queue h) = t := by simp [setQueue]
    rwa [hself] at hm
  · have hd : t.Did h r { t.sheet h r with queue := t.queue h ++ [r], task := .at .advance }
        ((t.setQueue h (t.queue h ++ [r])).setTask h (.at .advance)) :=
      (Did.refl t h r).setQueue.setTask
    have hmem : r ∈ t.live h := by rw [hlive]; simp
    refine ⟨r, _, hd, ⟨rfl, rfl, rfl⟩, .inr rfl, (by simp), ?_, fun x _ => (hh x).symm,
      fun _ => .inl (Nat.le_refl _), ⟨fun x hx => absurd hx (he x), .inl fun _ => Nat.le_refl _, .inl rfl⟩, .inl ?_⟩
    · change DeskOk (Function.update t.run r (t.run r)) (t.queue h ++ [r]) (t.live h) _
      rw [Function.update_eq_self, hrun, hlive, hqueue]
      exact hdesk.arrive hnl hu hint
    · rw [hd.lane (hroll.home_of_live hmem)]
      simp [lane, sheet, hroll.home_of_live hmem, hh]

/-- **A handler takes a message.** -/
theorem take_cases (hs : Inv s)
    (hv : ∀ r ∈ s.live h, s.task h = .idle → (s.run r).verdictOpen = true →
      (s.run r).claimedBy = none)
    (hstep : s.take cfg h = some s') :
    ∃ m rest, s.task h = .idle ∧ s.inbox h = m :: rest ∧
      (m.arrival? = none ∧ (s.heard h m rest).Moves (Hears cfg m) h s' ∨
        ∃ r, m = .queued r ∧ (s.arrived h r rest).Moves (Goes cfg) h s') := by
  unfold take at hstep
  split at hstep
  · rename_i m rest hi hin
    cases hstep
    refine ⟨m, rest, hi, hin, ?_⟩
    cases hm : m.arrival? with
    | none =>
        refine .inl ⟨rfl, moves_onMessage (inv_heard hs hin hm) ?_ ?_ (news_heard hs.roll hin hm)⟩
        · rw [heard_eq]
          exact hi
        · rw [heard_eq]
          exact fun r hl ho => hv r hl hi ho
    | some r =>
        obtain rfl : m = .queued r := by
          cases m <;> simp_all [Message.arrival?]
        exact .inr ⟨r, rfl, moves_onQueued hs hi hin⟩
  · cases hstep

/-- The lanes once a message has been taken. -/
theorem lane_heard (hs : Roll s) (hin : s.inbox h = m :: rest) (x : RunId) :
    (s.heard h m rest).lane x =
      if m.runId? = some x then (s.lane x).hear m else s.lane x := by
  rw [heard_eq]
  split
  · rename_i hm
    have hx := hs.posted_home h m x (hs.unread h m (by rw [hin]; simp)) hm
    simp [lane, hx, heardTrail, hm, Lane.hear, Lane.openTo, openTo]
  · rename_i hm
    simp [lane, heardTrail, hm]

private theorem lane_setLive (hr : s.home r = some h) (x : RunId) :
    (s.setLive h (s.live h ++ [r])).lane x =
      if x = r then { s.lane x with live := true } else s.lane x := by
  by_cases hx : x = r
  · subst hx
    simp [lane, hr]
  · cases hhome : s.home x with
    | none => simp [lane, hhome, hx]
    | some h' =>
        by_cases hh : h' = h
        · subst hh
          simp [lane, hhome, hx]
        · simp [lane, hhome, hh, hx]

theorem lane_arrived (hs : Inv s) (hin : s.inbox h = .queued r :: rest) (x : RunId) :
    (s.arrived h r rest).lane x =
      if x = r then { (s.lane x).hear (.queued r) with live := true } else s.lane x := by
  have hset : s.arrived h r rest = (s.heard h (.queued r) rest).setLive h
      ((s.heard h (.queued r) rest).live h ++ [r]) := by
    rw [arrived, heard_eq]
  have hhome : (s.heard h (.queued r) rest).home r = some h := by
    rw [heard_eq]
    exact (not_live_of_queued hs hin).2.1
  rw [hset, lane_setLive hhome, lane_heard hs.roll hin]
  by_cases hx : x = r
  · subst hx
    have hm : (Message.queued x).runId? = some x := rfl
    rw [if_pos rfl, if_pos rfl, if_pos hm]
  · rw [if_neg hx, if_neg hx, if_neg]
    intro hm
    exact hx (Option.some.inj hm).symm

/-! ## A run is enqueued -/

section Enqueue

variable {t : ThreadId} {agent : AgentRef}

/-- A new handler for a thread that has none. -/
def newHandler (s : State) (t : ThreadId) (agent : AgentRef) : State :=
  { s with
    nextHandler := s.nextHandler + 1
    threadOf := Function.update s.threadOf s.nextHandler t
    agentOf := Function.update s.agentOf s.nextHandler agent
    agentThreads := Function.update s.agentThreads agent
      (s.agentThreads agent ++ [s.nextHandler])
    threads := s.threads.set t s.nextHandler
    task := Function.update s.task s.nextHandler .idle }

/-- A handler in `_threads` is running, so it is the one that is used. -/
theorem threadHandler_eq (hs : Roll s) (t : ThreadId) (agent : AgentRef) :
    s.threadHandler t agent =
      match s.threads.get? t with
      | some h => (s, h)
      | none => (s.newHandler t agent, s.nextHandler) := by
  unfold threadHandler
  cases ht : s.threads.get? t with
  | none => rfl
  | some h =>
      have hrun := (hs.desk_of t h ht).2.2
      cases htask : s.task h with
      | finished => exact absurd htask hrun
      | _ => simp [Option.filter, htask]

/-- Nothing stands on the desk of a handler that was never made. -/
theorem empty_of_unborn (hs : Inv s) (hh : s.nextHandler ≤ h) :
    s.live h = [] ∧ s.queue h = [] ∧ s.arriving h = [] := by
  have hnone : ∀ x, x ∉ s.live h ++ s.arriving h := by
    intro x hx
    have hlt := hs.roll.born x h (hs.roll.atHome x h ((hs.roll.mem_iff h x).1 hx))
    exact Nat.not_lt.2 hh hlt
  have happ : s.live h ++ s.arriving h = [] := List.eq_nil_iff_forall_not_mem.2 hnone
  have hlive : s.live h = [] := (List.append_eq_nil_iff.1 happ).1
  refine ⟨hlive, List.eq_nil_iff_forall_not_mem.2 fun x hx => ?_,
    (List.append_eq_nil_iff.1 happ).2⟩
  have := (hs.desk h).sub x hx
  rw [hlive] at this
  cases this

theorem inv_newHandler (hs : Inv s) (ht : s.threads.get? t = none) :
    Inv (s.newHandler t agent) := by
  have hne : ∀ h', h' < s.nextHandler → h' ≠ s.nextHandler := fun h' h => Nat.ne_of_lt h
  refine ⟨{ hs.roll with
    thread := fun x h' hx => ?_
    born := fun x h' hx => ?_
    at_desk := fun h' hlt hf => ?_
    desk_of := fun t' h' hg => ?_
    gone := fun h' hg => ?_ }, fun h' => ?_, hs.counted⟩
  · have hb := hne h' (hs.roll.born x h' (hs.roll.atHome x h' hx))
    change Function.update s.threadOf s.nextHandler t h' = _
    rw [Function.update_of_ne hb]
    exact hs.roll.thread x h' hx
  · exact Nat.lt_succ_of_lt (hs.roll.born x h' hx)
  · change (s.threads.set t s.nextHandler).get?
      (Function.update s.threadOf s.nextHandler t h') = some h'
    by_cases hh : h' = s.nextHandler
    · subst hh
      rw [Function.update_self, Dict.get?_set, if_pos rfl]
    · have hlt' : h' < s.nextHandler := Nat.lt_of_le_of_ne (Nat.lt_succ_iff.1 hlt) hh
      have hold := hs.roll.at_desk h' hlt' (by
        change Function.update s.task s.nextHandler .idle h' ≠ .finished at hf
        rwa [Function.update_of_ne hh] at hf)
      rw [Function.update_of_ne hh, Dict.get?_set, if_neg, hold]
      rintro rfl
      rw [ht] at hold
      cases hold
  · change (s.threads.set t s.nextHandler).get? t' = some h' at hg
    rw [Dict.get?_set] at hg
    split at hg
    · rename_i htt
      cases hg
      refine ⟨Nat.lt_succ_self _, ?_, ?_⟩
      · exact (Function.update_self ..).trans htt
      · change Function.update s.task s.nextHandler .idle s.nextHandler ≠ _
        rw [Function.update_self]
        simp
    · obtain ⟨h1, h2, h3⟩ := hs.roll.desk_of t' h' hg
      refine ⟨Nat.lt_succ_of_lt h1, ?_, ?_⟩
      · exact (Function.update_of_ne (hne h' h1) ..).trans h2
      · change Function.update s.task s.nextHandler .idle h' ≠ _
        rw [Function.update_of_ne (hne h' h1)]
        exact h3
  · by_cases hh : h' = s.nextHandler
    · subst hh
      obtain ⟨h1, -, h3⟩ := empty_of_unborn hs (Nat.le_refl _)
      exact ⟨h1, h3⟩
    · refine hs.roll.gone h' ?_
      change Function.update s.task s.nextHandler .idle h' = _ at hg
      rwa [Function.update_of_ne hh] at hg
  · change DeskOk s.run (s.queue h') (s.live h') (Function.update s.task s.nextHandler .idle h')
    by_cases hh : h' = s.nextHandler
    · subst hh
      obtain ⟨h1, h2, -⟩ := empty_of_unborn hs (Nat.le_refl s.nextHandler)
      rw [h1, h2]
      exact ⟨List.nodup_nil, by simp, by simp, by simp, by simp, by simp [TaskOk]⟩
    · rw [Function.update_of_ne hh]
      exact hs.desk h'

/-- The run is entered in the broker's dictionaries and posted to its handler. -/
def takeIn (s : State) (h : HandlerId) (r : RunId) (run : Run) (events : List (Nat × Json)) :
    State :=
  { s with
    runs := s.runs ++ [r]
    runThreads := Function.update s.runThreads r (some h)
    handlers := Function.update s.handlers r true
    home := Function.update s.home r (some h)
    run := Function.update s.run r run
    trail := Function.update s.trail r { s.trail r with before := events }
    inbox := Function.update s.inbox h (s.inbox h ++ [.queued r])
    posted := Function.update s.posted h (s.posted h ++ [.queued r]) }

theorem enqueueRun_eq (hs : Roll s) (e : Enqueue) :
    s.enqueueRun e =
      match s.threads.get? e.threadId with
      | some h => s.takeIn h e.runId (s.newRun e) ((s.rows e.runId).elim [] Row.events)
      | none => (s.newHandler e.threadId e.agent).takeIn s.nextHandler e.runId (s.newRun e)
          ((s.rows e.runId).elim [] Row.events) := by
  unfold enqueueRun
  rw [threadHandler_eq hs]
  cases s.threads.get? e.threadId <;> rfl

variable {run : Run} {events : List (Nat × Json)}

/-- A run that was never enqueued is nowhere. -/
theorem unborn_facts (hs : Inv s) (hr : s.home r = none) :
    r ∉ s.runs ∧ s.runThreads r = none ∧ ∀ h, r ∉ s.live h ++ s.arriving h := by
  have hnone : s.runThreads r = none := by
    cases ht : s.runThreads r with
    | none => rfl
    | some h => exact absurd (hs.roll.atHome r h ht) (by rw [hr]; exact nofun)
  refine ⟨fun hm => ?_, hnone, fun h hm => ?_⟩
  · obtain ⟨h, ht⟩ := (hs.roll.held_iff r).1 hm
    exact absurd (hnone.symm.trans ht) nofun
  · exact absurd (hnone.symm.trans ((hs.roll.mem_iff h r).1 hm)) nofun

/-- Nothing was ever posted about a run that was never enqueued. -/
theorem about_unborn (hs : Roll s) (hr : s.home r = none) (h : HandlerId) :
    about r (s.posted h) = [] ∧ about r (s.inbox h) = [] := by
  have hp : ∀ m ∈ s.posted h, ¬ m.runId? = some r := by
    intro m hm hmr
    have := hs.posted_home h m r hm hmr
    rw [hr] at this
    cases this
  refine ⟨List.filter_eq_nil_iff.2 fun m hm => ?_, List.filter_eq_nil_iff.2 fun m hm => ?_⟩
  · simpa using hp m hm
  · simpa using hp m (hs.unread h m hm)

theorem arriving_takeIn (s : State) (h : HandlerId) (r : RunId) (run : Run)
    (events : List (Nat × Json)) (h' : HandlerId) :
    (s.takeIn h r run events).arriving h' =
      s.arriving h' ++ if h' = h then [r] else [] := by
  by_cases hh : h' = h
  · subst hh
    simp [arriving, takeIn, Message.arrival?]
  · simp [arriving, takeIn, hh]

private theorem mem_takeIn_inbox {f : HandlerId → List Message} {h' : HandlerId} {m : Message}
    (hm : m ∈ Function.update f h (f h ++ [.queued r]) h') :
    m ∈ f h' ∨ m = .queued r ∧ h' = h := by
  by_cases hh : h' = h
  · subst hh
    rw [Function.update_self] at hm
    rcases List.mem_append.1 hm with hm | hm
    · exact .inl hm
    · exact .inr ⟨List.mem_singleton.1 hm, rfl⟩
  · rw [Function.update_of_ne hh] at hm
    exact .inl hm

private theorem roll_takeIn (hs : Inv s) (hr : s.home r = none) (hb : h < s.nextHandler)
    (hf : s.task h ≠ .finished) (ht : s.threadOf h = run.threadId) (hrun : run.Fresh) :
    Roll (s.takeIn h r run events) := by
  obtain ⟨hnr, hnt, hnl⟩ := unborn_facts hs hr
  have hroll := hs.roll
  have harr := arriving_takeIn s h r run events
  have hhome : ∀ x h', s.home x = some h' → x ≠ r := by
    rintro x h' hx rfl
    rw [hr] at hx
    cases hx
  refine
    { runs_nodup := ?_, held_iff := ?_, registered := ?_, atHome := ?_, nodup := ?_,
      mem_iff := ?_, arriving := ?_, unsettled := ?_, thread := ?_, born := ?_,
      at_desk := hroll.at_desk, desk_of := hroll.desk_of, gone := ?_, only_fail := ?_,
      asked := ?_, unread := ?_, posted_home := ?_, fifo := ?_, unheard := ?_, clocks := ?_,
      handovers := ?_ }
  · exact List.Nodup.append hroll.runs_nodup (List.nodup_singleton r) (by simpa using hnr)
  · intro x
    change x ∈ s.runs ++ [r] ↔ ∃ h', Function.update s.runThreads r (some h) x = some h'
    by_cases hx : x = r
    · subst hx
      simp
    · rw [Function.update_of_ne hx, ← hroll.held_iff x]
      simp [hx]
  · intro x
    change Function.update s.handlers r true x = true ↔ x ∈ s.runs ++ [r]
    by_cases hx : x = r
    · subst hx
      simp
    · rw [Function.update_of_ne hx, hroll.registered x]
      simp [hx]
  · intro x h' hx
    change Function.update s.runThreads r (some h) x = some h' at hx
    change Function.update s.home r (some h) x = some h'
    by_cases he : x = r
    · subst he
      rwa [Function.update_self] at hx ⊢
    · rw [Function.update_of_ne he] at hx ⊢
      exact hroll.atHome x h' hx
  · intro h'
    rw [harr, ← List.append_assoc]
    change (s.live h' ++ s.arriving h' ++ _).Nodup
    split
    · exact List.Nodup.append (hroll.nodup h') (List.nodup_singleton r)
        (by simpa using hnl h')
    · simpa using hroll.nodup h'
  · intro h' x
    rw [harr, ← List.append_assoc]
    change x ∈ s.live h' ++ s.arriving h' ++ _ ↔
      Function.update s.runThreads r (some h) x = some h'
    rw [List.mem_append]
    by_cases hx : x = r
    · subst hx
      rw [Function.update_self, Option.some.injEq]
      by_cases hh : h' = h
      · simp [hh]
      · have hh' : ¬ h = h' := fun e => hh e.symm
        simp [hh, hh', hnl h']
    · rw [Function.update_of_ne hx, ← hroll.mem_iff h' x]
      by_cases hh : h' = h
      · simp [hh, hx]
      · simp [hh]
  · intro h' x hx
    rw [harr] at hx
    change (Function.update s.run r run x).unoffered = true ∧
      (Function.update s.run r run x).isInterjection = false
    rcases List.mem_append.1 hx with hx' | hx'
    · have hne : x ≠ r := by
        rintro rfl
        exact hnl h' (List.mem_append_right _ hx')
      rw [Function.update_of_ne hne]
      exact hroll.arriving h' x hx'
    · have hxr : x = r := by
        split at hx'
        · exact List.mem_singleton.1 hx'
        · cases hx'
      subst hxr
      rw [Function.update_self]
      exact ⟨hrun.unoffered, hrun.isInterjection⟩
  · intro x hx
    change (Function.update s.run r run x).settled = false
    rcases List.mem_append.1 hx with hx' | hx'
    · have hne : x ≠ r := by
        rintro rfl
        exact hnr hx'
      rw [Function.update_of_ne hne]
      exact hroll.unsettled x hx'
    · rw [List.mem_singleton.1 hx', Function.update_self]
      exact hrun.settled
  · intro x h' hx
    change Function.update s.runThreads r (some h) x = some h' at hx
    change s.threadOf h' = (Function.update s.run r run x).threadId
    by_cases he : x = r
    · subst he
      rw [Function.update_self] at hx ⊢
      cases hx
      exact ht
    · rw [Function.update_of_ne he] at hx ⊢
      exact hroll.thread x h' hx
  · intro x h' hx
    change Function.update s.home r (some h) x = some h' at hx
    by_cases he : x = r
    · subst he
      rw [Function.update_self] at hx
      cases hx
      exact hb
    · rw [Function.update_of_ne he] at hx
      exact hroll.born x h' hx
  · intro h' hg
    have hne : h' ≠ h := by
      rintro rfl
      exact hf hg
    rw [harr, if_neg hne, List.append_nil]
    exact hroll.gone h' hg
  · intro h' x c hc
    rcases mem_takeIn_inbox hc with hc | ⟨hc, -⟩
    · exact hroll.only_fail h' x c hc
    · cases hc
  · intro h' x hx
    rcases mem_takeIn_inbox hx with hx | ⟨hx, -⟩
    · exact hroll.asked h' x hx
    · cases hx
  · intro h' m hm
    change m ∈ Function.update s.posted h (s.posted h ++ [Message.queued r]) h'
    rcases mem_takeIn_inbox hm with hm' | ⟨rfl, rfl⟩
    · by_cases hh : h' = h
      · subst hh
        rw [Function.update_self]
        exact List.mem_append_left _ (hroll.unread h' m hm')
      · rw [Function.update_of_ne hh]
        exact hroll.unread h' m hm'
    · rw [Function.update_self]
      simp
  · intro h' m x hm hx
    change Function.update s.home r (some h) x = some h'
    rcases mem_takeIn_inbox hm with hm | ⟨rfl, rfl⟩
    · have hh := hroll.posted_home h' m x hm hx
      rw [Function.update_of_ne (hhome x h' hh)]
      exact hh
    · cases hx
      rw [Function.update_self]
  · intro x h' hx
    change Function.update s.home r (some h) x = some h' at hx
    change about x (Function.update s.posted h (s.posted h ++ [Message.queued r]) h') =
      (Function.update s.trail r { s.trail r with before := events } x).heard.map
        Heard.message ++ about x (Function.update s.inbox h (s.inbox h ++ [Message.queued r]) h')
    by_cases he : x = r
    · subst he
      rw [Function.update_self] at hx
      cases hx
      obtain ⟨h1, h2⟩ := about_unborn hroll hr h
      have h3 := hroll.unheard x hr
      simp only [Function.update_self, about, List.filter_append] at h1 h2 ⊢
      rw [h1, h2, h3]
      rfl
    · rw [Function.update_of_ne he] at hx
      have hf' := hroll.fifo x h' hx
      have hq : ¬ r = x := fun e => he e.symm
      rw [Function.update_of_ne he]
      by_cases hh : h' = h
      · subst hh
        simpa [about, Message.runId?, hq] using hf'
      · rw [Function.update_of_ne hh, Function.update_of_ne hh]
        exact hf'
  · intro x hx
    change Function.update s.home r (some h) x = none at hx
    by_cases he : x = r
    · subst he
      rw [Function.update_self] at hx
      cases hx
    · rw [Function.update_of_ne he] at hx
      change (Function.update s.trail r _ x).heard = []
      rw [Function.update_of_ne he]
      exact hroll.unheard x hx
  · intro c hc
    change Function.update s.home r (some h) c.runId = _
    have hh := hroll.clocks c hc
    rw [Function.update_of_ne (hhome _ _ hh)]
    exact hh
  · intro d hd
    change Function.update s.home r (some h) d.clock.runId = _
    have hh := hroll.handovers d hd
    rw [Function.update_of_ne (hhome _ _ hh)]
    exact hh

/-- A run taken in by a running handler of its thread keeps the invariant. -/
theorem inv_takeIn (hs : Inv s) (hr : s.home r = none) (hb : h < s.nextHandler)
    (hf : s.task h ≠ .finished) (ht : s.threadOf h = run.threadId) (hrun : run.Fresh) :
    Inv (s.takeIn h r run events) := by
  obtain ⟨hnr, -, hnl⟩ := unborn_facts hs hr
  refine ⟨roll_takeIn hs hr hb hf ht hrun, fun h' => ?_, fun k => ?_⟩
  · exact (hs.desk h').update_other fun hl => hnl h' (List.mem_append_left _ hl)
  · have hold := hs.counted k
    change (s.provider k).inFlight =
      (s.runs ++ [r]).countP fun x => (Function.update s.run r run x).offeredTo = some k
    have hsame : (s.runs.countP fun x => (Function.update s.run r run x).offeredTo = some k) =
        s.places k := by
      refine List.countP_congr fun x hx => ?_
      have hne : x ≠ r := by
        rintro rfl
        exact hnr hx
      rw [Function.update_of_ne hne]
    rw [List.countP_append, hsame, hold]
    simp [hrun.offeredTo]

end Enqueue

end State

end Funduq.Broker
