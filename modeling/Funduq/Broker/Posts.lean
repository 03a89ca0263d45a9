import Funduq.Broker.Actors

/-!
# Who posts what

`Outside.lean` says of everything that is put on an inbox that it is news.  Here
it is said who puts it there: each door its own message, the clocks a lapse, the
sweep a failure of the runs nobody took, and whoever takes a provider out of
service a failure of the runs it leaves behind.  A thread handler, at any step,
posts nothing but that last failure and pokes, and it spawns a hand-over only
where `_offer` has recorded an offer.
-/

namespace Funduq.Broker

open Funduq.Lib

namespace State

variable {cfg : Config} {s s' s'' : State} {h : HandlerId} {r : RunId} {P Q : Message → Prop}

/-- What is put on the inboxes on the way from `s` to `s'` satisfies `P`, no
hand-over is spawned, and nothing is delivered. -/
structure Sends (P : Message → Prop) (s s' : State) : Prop where
  inbox : ∀ h, ∃ l, s'.inbox h = s.inbox h ++ l ∧ s'.posted h = s.posted h ++ l ∧ ∀ m ∈ l, P m
  handovers : ∀ t ∈ s'.handovers, ∃ u ∈ s.handovers, u.clock = t.clock
  delivered : ∀ r, (s'.trail r).delivered = (s.trail r).delivered

namespace Sends

theorem of_inbox (hi : ∀ h, ∃ l, s'.inbox h = s.inbox h ++ l ∧ s'.posted h = s.posted h ++ l ∧
    ∀ m ∈ l, P m) (ho : s'.handovers = s.handovers) (ht : s'.trail = s.trail) : Sends P s s' :=
  ⟨hi, fun t ht => ⟨t, ho ▸ ht, rfl⟩, fun r => by rw [ht]⟩

theorem of_handovers (hi : s'.inbox = s.inbox) (hp : s'.posted = s.posted)
    (ho : ∀ t ∈ s'.handovers, ∃ u ∈ s.handovers, u.clock = t.clock) (ht : s'.trail = s.trail) :
    Sends P s s' :=
  ⟨fun h => ⟨[], by rw [hi, List.append_nil], by rw [hp, List.append_nil],
    List.forall_mem_nil _⟩, ho, fun r => by rw [ht]⟩

theorem of_same (hi : s'.inbox = s.inbox) (hp : s'.posted = s.posted)
    (ho : s'.handovers = s.handovers) (ht : s'.trail = s.trail) : Sends P s s' :=
  .of_handovers hi hp (fun t ht => ⟨t, ho ▸ ht, rfl⟩) ht

theorem refl (s : State) : Sends P s s := .of_same rfl rfl rfl rfl

theorem trans (h1 : Sends P s s') (h2 : Sends P s' s'') : Sends P s s'' := by
  refine ⟨fun h => ?_, fun t ht => ?_, fun r => (h2.delivered r).trans (h1.delivered r)⟩
  · obtain ⟨l, hi, hp, hl⟩ := h1.inbox h
    obtain ⟨l', hi', hp', hl'⟩ := h2.inbox h
    refine ⟨l ++ l', by rw [hi', hi, List.append_assoc], by rw [hp', hp, List.append_assoc], ?_⟩
    intro m hm
    rcases List.mem_append.1 hm with hm | hm
    · exact hl m hm
    · exact hl' m hm
  · obtain ⟨u, hu, hc⟩ := h2.handovers t ht
    obtain ⟨v, hv, hc'⟩ := h1.handovers u hu
    exact ⟨v, hv, hc'.trans hc⟩

/-- Nothing of the inboxes changes after what was sent. -/
theorem then_same (hs : Sends P s s') (hi : s''.inbox = s'.inbox)
    (hp : s''.posted = s'.posted) (ho : s''.handovers = s'.handovers)
    (ht : s''.trail = s'.trail) : Sends P s s'' :=
  hs.trans (.of_same hi hp ho ht)

theorem foldl_mem {β : Type} {f : State → β → State} {l : List β}
    (hf : ∀ s, ∀ b ∈ l, Sends P s (f s b)) (s : State) : Sends P s (l.foldl f s) := by
  induction l generalizing s with
  | nil => exact .refl s
  | cons b l ih =>
      exact (hf s b List.mem_cons_self).trans
        (ih (fun s c hc => hf s c (List.mem_cons_of_mem _ hc)) (f s b))

theorem foldl {β : Type} {f : State → β → State} (hf : ∀ s b, Sends P s (f s b)) (l : List β)
    (s : State) : Sends P s (l.foldl f s) :=
  .foldl_mem (fun s b _ => hf s b) s

theorem mono (hs : Sends P s s') (hPQ : ∀ m, P m → Q m) : Sends Q s s' where
  inbox h := by
    obtain ⟨l, hi, hp, hl⟩ := hs.inbox h
    exact ⟨l, hi, hp, fun m hm => hPQ m (hl m hm)⟩
  handovers := hs.handovers
  delivered := hs.delivered

theorem post {m : Message} (hm : P m) (s : State) (h : HandlerId) : Sends P s (s.post h m) := by
  refine .of_inbox (fun h' => ?_) rfl rfl
  by_cases he : h' = h
  · subst he
    exact ⟨[m], Function.update_self .., Function.update_self .., by simpa using hm⟩
  · refine ⟨[], ?_, ?_, List.forall_mem_nil _⟩
    · rw [List.append_nil]
      exact Function.update_of_ne he ..
    · rw [List.append_nil]
      exact Function.update_of_ne he ..

theorem postTo {m : Message} (hm : P m) (s : State) (r : RunId) :
    Sends P s (s.postTo r m).1 := by
  unfold State.postTo
  split
  · exact .refl s
  · exact .post hm s _

theorem pokeAll (hm : P .poke) (s : State) (hs : List HandlerId) : Sends P s (s.pokeAll hs) := by
  refine .of_inbox (fun h => ?_) rfl rfl
  by_cases hh : h ∈ hs
  · exact ⟨[.poke], by simp [hh], by simp [hh], by simpa using hm⟩
  · exact ⟨[], by simp [hh], by simp [hh], List.forall_mem_nil _⟩

theorem setTask (hs : Sends P s s') (t : Task) : Sends P s (s'.setTask h t) :=
  hs.then_same rfl rfl rfl rfl

theorem setQueue (hs : Sends P s s') (q : List RunId) : Sends P s (s'.setQueue h q) :=
  hs.then_same rfl rfl rfl rfl

theorem setRun (hs : Sends P s s') (run : Run) : Sends P s (s'.setRun r run) :=
  hs.then_same rfl rfl rfl rfl

theorem setTrail (hs : Sends P s s') {trail : Trail}
    (ht : trail.delivered = (s'.trail r).delivered) : Sends P s (s'.setTrail r trail) := by
  refine ⟨hs.inbox, hs.handovers, fun x => ?_⟩
  by_cases hx : x = r
  · subst hx
    exact (congrArg Trail.delivered (Function.update_self ..)).trans (ht.trans (hs.delivered x))
  · exact (congrArg Trail.delivered (Function.update_of_ne hx ..)).trans (hs.delivered x)

end Sends

/-- What a handler may post: a poke, or the failure of a run its provider left
behind. -/
def Aftermath (m : Message) : Prop :=
  m = .poke ∨ ∃ r, m = .trusted r (.fail "provider_left_holding_it" none)

theorem sends_unregisterOne (s : State) (ref : AgentRef) :
    Sends Aftermath s (s.unregisterOne ref) := by
  unfold unregisterOne
  split
  · exact .refl s
  · refine Sends.trans (Sends.trans ?_ (.foldl (fun s r => .postTo (.inr ⟨r, rfl⟩) s r) _ _))
      (.pokeAll (.inl rfl) _ _)
    exact .of_same rfl rfl rfl rfl

theorem sends_unregisterProvider (s : State) (agents : List AgentRef) :
    Sends Aftermath s (s.unregisterProvider agents) :=
  .foldl sends_unregisterOne agents s

theorem sends_registerProvider (s : State) (mapping : List (AgentRef × Connection)) :
    Sends Aftermath s (s.registerProvider mapping) := by
  have hone : ∀ (s : State) (e : AgentRef × Connection),
      Sends Aftermath s (s.registerOne e.1 e.2) :=
    fun s e => .of_same rfl rfl rfl rfl
  have hreg : Sends Aftermath s (mapping.foldl (fun s e => s.registerOne e.1 e.2) s) :=
    .foldl hone mapping s
  refine Sends.trans ?_ (.foldl (fun s e => .pokeAll (.inl rfl) s _) mapping _)
  exact hreg.then_same rfl rfl rfl rfl

theorem sends_noteAbnormal (cfg : Config) (s : State) (k : Key) (event : Counter) :
    Sends Aftermath s (s.noteAbnormal cfg k event) := by
  unfold noteAbnormal
  dsimp only
  split
  · exact .of_same rfl rfl rfl rfl
  · split
    · exact .of_same rfl rfl rfl rfl
    · refine Sends.trans ?_ (sends_unregisterProvider _ _)
      exact .of_same rfl rfl rfl rfl

theorem sends_release (s : State) (r : RunId) : Sends P s (s.release r) := by
  unfold release
  dsimp only
  split
  · exact .of_same rfl rfl rfl rfl
  · split
    · exact .of_same rfl rfl rfl rfl
    · split <;> exact .of_same rfl rfl rfl rfl

theorem sends_cancelTimer (s : State) (h : HandlerId) (r : RunId) :
    Sends P s (s.cancelTimer h r) := by
  unfold cancelTimer
  split <;> exact .of_same rfl rfl rfl rfl

theorem sends_forget (s : State) (r : RunId) : Sends Aftermath s (s.forget r) := by
  have hreleased : ∀ t : State, Sends Aftermath t
      { (if (t.run r).offeredTo.isSome = true then t.release r else t) with workToDo := true } := by
    intro t
    split
    · exact (sends_release t r).then_same rfl rfl rfl rfl
    · exact .of_same rfl rfl rfl rfl
  unfold forget
  dsimp only
  split
  · refine Sends.trans (Sends.trans ?_ (hreleased _)) (.pokeAll (.inl rfl) _ _)
    exact .of_same rfl rfl rfl rfl
  · exact .of_same rfl rfl rfl rfl

theorem sends_settle (s : State) (h : HandlerId) (r : RunId) :
    Sends Aftermath s (s.settle h r) := by
  have htimed : ∀ t : State, Sends Aftermath t
      (((t.cancelTimer h r).setLive h (((t.cancelTimer h r).live h).erase r)).setQueue h
        (((t.cancelTimer h r).queue h).erase r)) :=
    fun t => (sends_cancelTimer t h r).then_same rfl rfl rfl rfl
  unfold settle
  dsimp only
  refine Sends.trans (Sends.trans ?_ (htimed _)) (sends_forget _ r)
  exact .of_same rfl rfl rfl rfl

theorem sends_record {command : Command} {ret : Ret} {k : Cont} (s : State) :
    Sends P s (s.record cfg h r command ret k) := by
  have hrecorded : Sends P s (s.setTrail r
      { s.trail r with recorded := (s.trail r).recorded ++ [command] }) :=
    (Sends.refl s).setTrail rfl
  unfold record
  dsimp only
  split
  · split <;> exact (hrecorded.setRun _).setTask _
  · exact hrecorded.setTask _

theorem sends_placeOffer {c : Connection} {interjection : Bool} (s : State) :
    Sends P s (s.placeOffer h r c interjection) := by
  refine ⟨fun h => ⟨[], (List.append_nil _).symm, (List.append_nil _).symm,
    List.forall_mem_nil _⟩, fun t ht => ⟨t, ht, rfl⟩, fun x => ?_⟩
  change (Function.update s.trail r _ x).delivered = _
  by_cases hx : x = r
  · subst hx
    rw [Function.update_self]
  · rw [Function.update_of_ne hx]

theorem sends_offer {interjection : Bool} {k : Cont} (s : State) :
    Sends P s (s.offer cfg h r interjection k) := by
  have hnone : Sends P s (s.noRoom h r interjection k) := by
    unfold noRoom
    dsimp only
    split <;> exact .of_same rfl rfl rfl rfl
  unfold offer
  split
  · exact hnone
  · split
    · split
      · exact sends_record s
      · exact (sends_placeOffer s).trans (sends_record _)
    · exact hnone

/-! ## The message handlers -/

theorem sends_closeOffer (s : State) (h : HandlerId) (r : RunId) :
    Sends P s (s.closeOffer h r) := by
  refine Sends.trans ?_ (sends_cancelTimer _ h r)
  exact .of_same rfl rfl rfl rfl

theorem sends_onQueued (s : State) : Sends P s (s.onQueued cfg h r) := by
  obtain ⟨t, ht⟩ : ∃ t, t = if r ∈ s.live h then s else s.setLive h (s.live h ++ [r]) :=
    ⟨_, rfl⟩
  have hlive : Sends P s t := by
    rw [ht]
    split <;> exact .of_same rfl rfl rfl rfl
  unfold onQueued
  rw [← ht]
  dsimp only
  split
  · exact hlive.trans (sends_offer t)
  · exact (hlive.setQueue _).setTask _

theorem sends_onAnswered {key : Key} {answer : Verdict} (s : State) :
    Sends Aftermath s (s.onAnswered cfg h r key answer) := by
  unfold onAnswered
  split
  · have hclosed : Sends Aftermath s ((s.closeOffer h r).release r) :=
      (sends_closeOffer s h r).trans (sends_release _ r)
    cases answer with
    | refusal reason => exact hclosed.trans (sends_record _)
    | declined =>
        dsimp only
        split
        · exact hclosed.trans (sends_record _)
        · refine (hclosed.trans ?_).trans (sends_record _)
          unfold noteMisdeclared
          split
          · exact sends_noteAbnormal cfg _ key _
          · exact .refl _
    | accepted => exact ((sends_closeOffer s h r).setRun _).trans (sends_record _)
  · exact (Sends.refl s).setTask _

theorem sends_onCancelAsked (s : State) : Sends P s (s.onCancelAsked cfg h r) := by
  unfold onCancelAsked
  split
  · dsimp only
    split
    · exact ((Sends.refl s).setRun _).setTask _
    · split <;> exact ((Sends.refl s).setRun _).trans (sends_record _)
  · exact (Sends.refl s).setTask _

theorem sends_onTrusted {command : Command} (s : State) :
    Sends Aftermath s (s.onTrusted cfg h r command) := by
  unfold onTrusted
  split
  · cases command with
    | requestCancel => exact sends_onCancelAsked s
    | fail code message =>
        refine Sends.trans ?_ (sends_record _)
        unfold noteAbandoned
        split
        · exact .refl s
        · split
          · exact .refl s
          · exact ((Sends.refl s).setRun _).trans (sends_noteAbnormal cfg _ _ _)
    | _ => exact sends_record s
  · exact .of_same rfl rfl rfl rfl

theorem sends_onUndelivered (s : State) : Sends Aftermath s (s.onUndelivered cfg h r) := by
  unfold onUndelivered
  dsimp only
  split
  · exact (Sends.refl s).setTask _
  · split
    · exact (((Sends.refl s).setRun _).trans (sends_noteAbnormal cfg _ _ _)).setTask _
    · exact (Sends.refl s).setTask _

theorem sends_onOfferLapsed {offerId : Nat} (s : State) :
    Sends Aftermath s (s.onOfferLapsed cfg h r offerId) := by
  unfold onOfferLapsed
  split
  · have hcancel : ∀ s : State, Sends Aftermath s (s.cancelHandover h r) := by
      intro s
      unfold cancelHandover
      dsimp only
      split
      · exact .of_same rfl rfl rfl rfl
      · exact .of_handovers rfl rfl (fun t ht => ⟨t, (List.mem_filter.1 ht).1, rfl⟩) rfl
    have hnote : ∀ s : State, Sends Aftermath s (s.noteUnanswered cfg r) := by
      intro s
      unfold noteUnanswered
      split
      · exact .refl s
      · exact sends_noteAbnormal cfg s _ _
    have hdone := (((sends_closeOffer s h r).trans (hcancel _)).trans (hnote _)).trans
      (sends_release _ r)
    dsimp only
    split <;> exact hdone.trans (sends_record _)
  · exact .of_same rfl rfl rfl rfl

theorem sends_onMessage (s : State) (m : Message) :
    Sends Aftermath s (s.onMessage cfg h m) := by
  cases m with
  | queued r => exact sends_onQueued s
  | answered r key answer => exact sends_onAnswered s
  | said r origin report =>
      simp only [onMessage, onSaid]
      split
      · exact sends_record s
      · exact .of_same rfl rfl rfl rfl
  | trusted r command => exact sends_onTrusted s
  | cancelAsked r => exact sends_onCancelAsked s
  | offerLapsed r offerId => exact sends_onOfferLapsed s
  | undelivered r => exact sends_onUndelivered s
  | poke => exact .of_same rfl rfl rfl rfl

/-! ## After an await -/

theorem sends_onReturn {ret : Ret} {k : Cont} (hret : ∀ c n, ret ≠ .handOver c n) (s : State) :
    Sends Aftermath s (s.onReturn cfg h r k ret) := by
  cases ret with
  | settle => exact (sends_settle s h r).setTask _
  | handOver c n => exact absurd rfl (hret c n)
  | claimed =>
      simp only [onReturn, afterClaim]
      split
      · split <;> exact (Sends.refl s).setTask _
      · exact (Sends.postTo (.inr ⟨r, rfl⟩) s r).setTask _
  | maybeSettle command =>
      simp only [onReturn, maybeSettle]
      split
      · exact sends_record s
      · split
        · exact (sends_settle s h r).setTask _
        · exact (Sends.refl s).setTask _
  | nothing => exact (Sends.refl s).setTask _

theorem sends_leave (s : State) : Sends P s (s.leave h) := by
  unfold leave
  dsimp only
  split <;> exact .of_same rfl rfl rfl rfl

theorem sends_goOn (s : State) (k : Cont) : Sends Aftermath s (s.goOn cfg h k) := by
  have hsame : ∀ t : Task, Sends Aftermath s (s.setTask h t) := (Sends.refl s).setTask
  cases k with
  | loop =>
      simp only [goOn]
      split
      · exact sends_leave s
      · exact hsame _
  | advance =>
      simp only [goOn, advance]
      split
      · exact ((Sends.refl s).setQueue _).setTask _
      · split
        · exact ((Sends.refl s).setQueue _).trans (sends_offer _)
        · exact ((Sends.refl s).setQueue _).setTask _
  | joining head rest =>
      cases rest with
      | nil => exact hsame _
      | cons x rest => exact ((Sends.refl s).setQueue _).trans (sends_offer _)
  | cancelCheck r =>
      simp only [goOn]
      split
      · exact sends_record s
      · exact hsame _

theorem sends_afterWrite {w : Write} {ret : Ret} {k : Cont} (s : State) :
    Sends P s (s.afterWrite h r w ret k) := by
  unfold afterWrite
  dsimp only
  split
  · split
    · exact ((Sends.refl s).setRun _).setTask _
    · refine Sends.setTask (Sends.setTrail ((Sends.refl s).setRun _) ?_) _
      rfl
  · exact ((Sends.refl s).setRun _).setTask _

/-- The handler comes back to `_offer`, which spawns the hand-over of run `r`. -/
def HandsOver (s : State) (h : HandlerId) (r : RunId) (s' : State) : Prop :=
  ∃ c n k, s.task h = .recording r .returned (.handOver c n) k ∧
    s' = (s.handOver h r c n).setTask h (.at k)

theorem sends_resume (hstep : s.resume cfg h = some s') :
    Sends Aftermath s s' ∨ ∃ r, s.HandsOver h r s' := by
  unfold resume at hstep
  split at hstep
  · cases hstep
    exact .inl (sends_afterWrite s)
  · cases hstep
    exact .inl ((Sends.refl s).setTask _)
  · rename_i x ret k ht
    cases hstep
    cases ret with
    | handOver c n => exact .inr ⟨x, c, n, k, ht, rfl⟩
    | _ => exact .inl (sends_onReturn (by intro c n he; cases he) s)
  · cases hstep
    exact .inl (sends_goOn s _)
  · cases hstep

theorem sends_transact {succeeds : Bool} (hstep : s.transact h succeeds = some s') :
    Sends P s s' := by
  unfold transact at hstep
  split at hstep
  · split at hstep
    · cases hstep
      exact .of_same rfl rfl rfl rfl
    · cases hstep
      refine Sends.setTask (Sends.setTrail (Sends.refl s) ?_) _
      rfl
    · cases hstep
  · cases hstep

end State

/-! ## Every step -/

/-- What action `a` may put on an inbox. -/
def Action.Posts : Action → Message → Prop
  | .enqueueRun e, m => m = .queued e.runId
  | .answerOffer r answer key, m => m = .answered r key answer
  | .reportEvent r event origin, m => m = .said r origin (.relayEvent event)
  | .finishStream r origin, m => m = .said r origin .finishStream
  | .pushFail r code message, m => m = .trusted r (.fail code message)
  | .noteUndelivered r, m => m = .undelivered r
  | .requestCancel r, m => m = .cancelAsked r
  | .sweep, m => m = .poke ∨ ∃ r, m = .trusted r (.fail "no_provider_took_it" none)
  | .clockRunsOut clock, m => m = .offerLapsed clock.runId clock.offerId
  | .handOverEnds task _, m => m = .offerLapsed task.clock.runId task.clock.offerId
  | _, m => State.Aftermath m

namespace State

variable {cfg : Config} {s s' : State} {a : Action} {h : HandlerId}

/-- What is left on handler `h`'s inbox of what is there, once action `a` has
taken what it takes. -/
def unread (s : State) (h : HandlerId) (a : Action) : List Message :=
  match a with
  | .take h' => if h' = h then (s.inbox h).tail else s.inbox h
  | _ => s.inbox h

theorem unread_sublist (s : State) (h : HandlerId) (a : Action) :
    (s.unread h a).Sublist (s.inbox h) := by
  unfold unread
  split
  · split
    · exact List.tail_sublist _
    · exact .refl _
  · exact .refl _

theorem sends_hear (s : State) (h : HandlerId) (m : Message) {P : Message → Prop} :
    Sends P s (s.hear h m) := by
  unfold hear
  split
  · exact .refl s
  · refine Sends.setTrail (Sends.refl s) ?_
    rfl

theorem sends_enqueueRun {P : Message → Prop} (s : State) (e : Enqueue) (hm : P (.queued e.runId)) :
    Sends P s (s.enqueueRun e) := by
  have hthread : Sends P s (s.threadHandler e.threadId e.agent).1 := by
    unfold threadHandler
    dsimp only
    split <;> exact .of_same rfl rfl rfl rfl
  unfold enqueueRun
  dsimp only
  refine Sends.trans (Sends.setTrail (Sends.setRun ?_ _) ?_) (.post hm _ _)
  · exact hthread.then_same rfl rfl rfl rfl
  · rfl

/-- What the sweep posts: the failure of a run nobody took, and pokes. -/
def Expiry (cfg : Config) (s : State) (m : Message) : Prop :=
  m = .poke ∨ ∃ r ∈ s.runs, s.expired cfg.unservedTimeout r = true ∧
    m = .trusted r (.fail "no_provider_took_it" none)

theorem sends_sweep (cfg : Config) (s : State) : Sends (s.Expiry cfg) s (s.sweep cfg) := by
  have hexpire : Sends (s.Expiry cfg) s (s.expireQueued cfg.unservedTimeout).1 := by
    refine .foldl_mem (fun t r hr => .postTo (.inr ⟨r, ?_, ?_, rfl⟩) t r) s
    · exact (List.mem_filter.1 hr).1
    · exact (List.mem_filter.1 hr).2
  refine Sends.then_same (Sends.trans (Sends.then_same hexpire rfl rfl rfl rfl)
    (.pokeAll (.inl rfl) _ _)) rfl rfl rfl rfl

/-- What a step sends: a message is taken and answered, `_offer` spawns a
hand-over, a hand-over delivers its run, or the action posts what it posts. -/
inductive Posting (s : State) : Action → State → Prop where
  | takes {h : HandlerId} {m : Message} {rest : List Message} {s' : State}
      (hi : s.task h = .idle) (hin : s.inbox h = m :: rest)
      (hs : Sends Aftermath { s with inbox := Function.update s.inbox h rest } s') :
      Posting s (.take h) s'
  | handsOver {h : HandlerId} {r : RunId} {s' : State} (hh : s.HandsOver h r s') :
      Posting s (.resume h) s'
  | delivers {task : Handover} {s' : State} (ht : task ∈ s.handovers)
      (hd : s.deliver task = some s') : Posting s (.deliver task) s'
  | sends {a : Action} {s' : State} (ha : ∀ h, a ≠ .take h) (hs : Sends a.Posts s s') :
      Posting s a s'

/-- The steps of everybody but the handlers. -/
private theorem sends_outer (ha : a.handler? = none) (hn : ∀ task, a ≠ .deliver task)
    (hstep : s.step cfg a = some s') : Sends a.Posts s s' := by
  cases a with
  | start =>
      simp only [step] at hstep
      split at hstep
      · cases hstep
        exact .of_same rfl rfl rfl rfl
      · cases hstep
        exact .refl s
  | stop =>
      cases hstep
      exact .of_same rfl rfl rfl rfl
  | tick elapsed =>
      cases hstep
      exact .of_same rfl rfl rfl rfl
  | openRow r =>
      simp only [step] at hstep
      split at hstep
      · cases hstep
        exact .of_same rfl rfl rfl rfl
      · cases hstep
  | enqueueRun e =>
      simp only [step] at hstep
      split at hstep
      · cases hstep
        exact sends_enqueueRun s e rfl
      · cases hstep
  | answerOffer r answer key =>
      cases hstep
      refine .postTo ?_ s r
      rfl
  | reportEvent r event origin =>
      cases hstep
      refine .postTo ?_ s r
      rfl
  | finishStream r origin =>
      cases hstep
      refine .postTo ?_ s r
      rfl
  | pushFail r code message =>
      cases hstep
      refine .postTo ?_ s r
      rfl
  | noteUndelivered r =>
      cases hstep
      refine .postTo ?_ s r
      rfl
  | requestCancel r =>
      cases hstep
      unfold requestCancel
      dsimp only
      split
      · refine Sends.trans ?_ (.postTo ?_ _ r)
        · exact .of_same rfl rfl rfl rfl
        · rfl
      · exact .refl s
  | registerProvider mapping =>
      cases hstep
      exact sends_registerProvider s mapping
  | unregisterProvider agents =>
      cases hstep
      exact sends_unregisterProvider s agents
  | sweep =>
      simp only [step] at hstep
      split at hstep
      · cases hstep
        refine (sends_sweep cfg s).mono fun m hm => ?_
        rcases hm with hm | ⟨r, -, -, hm⟩
        · exact .inl hm
        · exact .inr ⟨r, hm⟩
      · cases hstep
  | clockRunsOut clock =>
      simp only [step, State.clockRunsOut] at hstep
      split at hstep
      · cases hstep
        refine Sends.trans ?_ (.post ?_ _ _)
        · exact .of_same rfl rfl rfl rfl
        · rfl
      · cases hstep
  | deliver task => exact absurd rfl (hn task)
  | handOverEnds task fails =>
      have hfewer : Sends (Action.Posts (.handOverEnds task fails)) s
          { s with handovers := s.handovers.erase task } :=
        .of_handovers rfl rfl (fun t ht => ⟨t, List.mem_of_mem_erase ht, rfl⟩) rfl
      simp only [step, State.handOverEnds] at hstep
      split at hstep
      · split at hstep
        · cases hstep
          refine hfewer.trans (.post ?_ _ _)
          rfl
        · cases hstep
          exact hfewer
      · cases hstep
  | take h => cases ha
  | transact h succeeds => cases ha
  | resume h => cases ha

/-- **What a step sends.** -/
theorem posting_step (hstep : s.step cfg a = some s') : s.Posting a s' := by
  cases a with
  | take h =>
      simp only [step, take] at hstep
      split at hstep
      · rename_i m rest hi hin
        cases hstep
        exact .takes hi hin ((sends_hear _ h m).trans (sends_onMessage _ m))
      · cases hstep
  | transact h succeeds => exact .sends (by simp) (sends_transact hstep)
  | resume h =>
      rcases sends_resume hstep with hs | ⟨r, hh⟩
      · exact .sends (by simp) hs
      · exact .handsOver hh
  | deliver task =>
      have hmem : task ∈ s.handovers := by
        simp only [step, State.deliver] at hstep
        split at hstep
        · rename_i hg
          exact hg.1
        · cases hstep
      exact .delivers hmem hstep
  | _ => exact .sends (by simp) (sends_outer rfl (by simp) hstep)

/-- A run is delivered: its trail says so, and its hand-over has started. -/
theorem deliver_eq {task : Handover} (hstep : s.deliver task = some s') :
    task ∈ s.handovers ∧ s'.inbox = s.inbox ∧ s'.posted = s.posted ∧
      s'.handovers = s.handovers.erase task ++ [{ task with started := true }] ∧
      ∀ r, r ≠ task.clock.runId → s'.trail r = s.trail r := by
  unfold deliver at hstep
  split at hstep
  · rename_i hg
    cases hstep
    exact ⟨hg.1, rfl, rfl, rfl, fun r hr => Function.update_of_ne hr ..⟩
  · cases hstep

/-- **Inboxes.**  A step takes at most one message off an inbox, its first, and
adds at the end of the inboxes what its action posts. -/
theorem inbox_step (hstep : s.step cfg a = some s') (h : HandlerId) :
    ∃ l, s'.inbox h = s.unread h a ++ l ∧ s'.posted h = s.posted h ++ l ∧ ∀ m ∈ l, a.Posts m := by
  cases posting_step hstep with
  | @takes h' m rest _ _ hin hs =>
      obtain ⟨l, hl, hp, hm⟩ := hs.inbox h
      refine ⟨l, hl.trans ?_, hp, hm⟩
      unfold unread
      dsimp only
      split
      · rename_i he
        subst he
        rw [Function.update_self, hin]
        rfl
      · rename_i he
        rw [Function.update_of_ne (Ne.symm he)]
  | handsOver hh =>
      obtain ⟨c, n, k, -, rfl⟩ := hh
      exact ⟨[], (List.append_nil _).symm, (List.append_nil _).symm, List.forall_mem_nil _⟩
  | delivers _ hd =>
      obtain ⟨-, hi, hp, -⟩ := deliver_eq hd
      refine ⟨[], ?_, ?_, List.forall_mem_nil _⟩
      · rw [hi, List.append_nil]
        rfl
      · rw [hp, List.append_nil]
  | sends ha hs =>
      have hsame : s.unread h a = s.inbox h := by
        cases a with
        | take h' => exact absurd rfl (ha h')
        | _ => rfl
      rw [hsame]
      exact hs.inbox h

/-- **Hand-overs.**  A hand-over that is there after a step was there before, or
is the one `_offer` spawns once the offer is recorded. -/
theorem handovers_step (hstep : s.step cfg a = some s') {t : Handover} (ht : t ∈ s'.handovers) :
    (∃ u ∈ s.handovers, u.clock = t.clock) ∨ ∃ h, s.HandsOver h t.clock.runId s' := by
  cases posting_step hstep with
  | takes _ _ hs => exact .inl (hs.handovers t ht)
  | @handsOver h r _ hh =>
      have hh' := hh
      obtain ⟨c, n, k, htask, rfl⟩ := hh
      rcases List.mem_append.1 ht with ht | ht
      · exact .inl ⟨t, ht, rfl⟩
      · rw [List.mem_singleton.1 ht]
        exact .inr ⟨h, hh'⟩
  | @delivers task _ hmem hd =>
      obtain ⟨-, -, -, hhand, -⟩ := deliver_eq hd
      rw [hhand] at ht
      rcases List.mem_append.1 ht with ht | ht
      · exact .inl ⟨t, List.mem_of_mem_erase ht, rfl⟩
      · rw [List.mem_singleton.1 ht]
        exact .inl ⟨task, hmem, rfl⟩
  | sends _ hs => exact .inl (hs.handovers t ht)

/-- **Deliveries.**  What is delivered is what a hand-over has in hand. -/
theorem delivered_step (hstep : s.step cfg a = some s') (r : RunId) :
    (s'.trail r).delivered = (s.trail r).delivered ∨ ∃ t ∈ s.handovers, t.clock.runId = r := by
  cases posting_step hstep with
  | takes _ _ hs => exact .inl (hs.delivered r)
  | handsOver hh =>
      obtain ⟨c, n, k, -, rfl⟩ := hh
      exact .inl rfl
  | @delivers task _ hmem hd =>
      by_cases hr : task.clock.runId = r
      · exact .inr ⟨task, hmem, hr⟩
      · obtain ⟨-, -, -, -, htrail⟩ := deliver_eq hd
        exact .inl (congrArg Trail.delivered (htrail r (Ne.symm hr)))
  | sends _ hs => exact .inl (hs.delivered r)

end State

end Funduq.Broker
