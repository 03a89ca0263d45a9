import Funduq.Doors.Lineage
import Funduq.Doors.Record
import Funduq.Lib.Alone

/-!
# An answer over AG-UI

An AG-UI caller names no run: it names a thread, and hands in results.  The door takes
them to be for the thread's newest run, and asks `waiting_on` about that one.  The run
that waits is often another: a message sent while the question is open is a run of its
own, and a newer one.

So an answer lands on the run that asked where that is the newest run of its thread, or
where the caller has named it itself and its results are taken for an utterance
(`agui_lands_iff`).
-/

namespace Funduq.Doors

open Funduq.Lib Funduq.Store Funduq.Contract
open Funduq.Broker (AgentRef Status Time)
open Prog hiding ofExcept

variable {PrivateKey PublicKey : Type} (cfg : Config PrivateKey PublicKey)

/-! ## Parents -/

/-- The runs and their parents. -/
def parents (w : World) : List (String × Option String) :=
  w.runs.map fun r => (r.runId, r.parentRunId)

theorem parents_setRun {w : World} {runId : String} {f : RunRecord → RunRecord}
    (hid : ∀ r, (f r).runId = r.runId) (hparent : ∀ r, (f r).parentRunId = r.parentRunId) :
    parents (w.setRun runId f) = parents w := by
  unfold parents World.setRun
  rw [List.map_map]
  apply List.map_congr_left
  intro r _
  show ((if r.runId = runId then f r else r).runId, (if r.runId = runId then f r else r).parentRunId)
    = _
  split
  · rw [hid, hparent]
  · rfl

theorem parents_mark {w : World} {runId : String} {status : Status} :
    parents (w.apply (.markRunStatus runId status)) = parents w := by
  apply parents_setRun
  · intro r
    unfold RunRecord.marked
    split <;> rfl
  · intro r
    unfold RunRecord.marked
    split <;> rfl

/-- Nobody goes by an id that is not in use. -/
theorem not_mem_parents {w : World} {runId : String} (h : w.unused runId = true)
    (parent : Option String) : (runId, parent) ∉ parents w := by
  intro hmem
  obtain ⟨r, hr, heq⟩ := List.mem_map.1 hmem
  have hall := (Bool.and_eq_true _ _ ▸ h).2
  have hid := List.all_eq_true.1 hall r hr
  cases heq
  simp at hid

/-! ## The way in, with nobody else about -/

section Alone

variable {cfg} {ids : List String} {w : World} {inbound : InboundRun}
  {relayed : Option (List String)} {threadId runId : String} {answers : Option RunRecord}
  {messages : List Json} {input : RunAgentInput} {addressed : Option String} {ws : List Write}

theorem given_appendThreadMessages :
    db.given ids (appendThreadMessages threadId runId messages) ws w =
      some (.ok (), ids, ws ++ messages.map fun m => .newMessage (messageRow threadId runId m), w) := by
  induction messages generalizing ws with
  | nil =>
      rw [List.map_nil, List.append_nil]
      rfl
  | cons message rest ih =>
      have hput : db.given ids (put (.newMessage (messageRow threadId runId message)) : Door Unit)
          ws w = some (.ok (), ids, ws ++ [Write.newMessage (messageRow threadId runId message)], w) := rfl
      show db.given ids (put _ >>= fun _ => appendThreadMessages threadId runId rest) ws w = _
      rw [Db.given_bind hput, ih, List.append_assoc]
      rfl

/-- Messages do not change who is whose child. -/
theorem parents_messages {rows : List MessageRow} :
    parents (db.view w (rows.map .newMessage)) = parents w := by
  induction rows generalizing w with
  | nil => rfl
  | cons row rows ih =>
      show parents (db.view (w.apply (.newMessage row)) (rows.map .newMessage)) = _
      rw [ih]
      rfl

variable (ids w) in
/-- A run whose agent nobody serves ends with an event of its own. -/
theorem given_closeWithTerminalEvent (runId code : String) :
    ∃ w', db.given ids (closeWithTerminalEvent runId code) [] w = some (.ok (), ids, [], w') ∧
      parents w' = parents w := by
  unfold closeWithTerminalEvent
  rw [Db.given_bind (Db.given_select _)]
  split
  · exact ⟨w, rfl, rfl⟩
  · rw [Db.given_bind (Db.given_select _)]
    split
    · exact ⟨w, rfl, rfl⟩
    · rw [Db.given_bind (Db.given_select _)]
      exact ⟨_, rfl, rfl⟩

variable (ids w inbound relayed input addressed) in
theorem given_dispatch :
    ∃ live w', db.given ids (dispatch inbound relayed input addressed) [] w =
      some (.ok live, ids, [], w') ∧ parents w' = parents w := by
  unfold dispatch
  rw [Db.given_bind (Db.given_select _)]
  split
  · exact ⟨true, _, rfl, rfl⟩
  · rw [Db.given_bind (Db.given_put _), Db.given_bind Db.given_commits]
    obtain ⟨w', hclose, hw'⟩ := given_closeWithTerminalEvent ids
      (db.view w [.markRunStatus input.runId .failed]) input.runId "agent_offline"
    rw [List.nil_append, Db.given_bind hclose]
    exact ⟨false, w', rfl, hw'.trans parents_mark⟩

variable (ids) in
theorem given_openRun {questions : Nat} {resolution : Option Resolution} {front : List Write}
    (hfront : ∀ v, db.view v front = v) (haddressed : inbound.addressedRunId = .null)
    (hroom : (checkRoom cfg questions inbound threadId answers).peek w = some (.ok resolution))
    (hmessages : messagesOf inbound.messages = .ok messages)
    (hinput : assemble cfg inbound relayed threadId runId answers none messages w.now = .ok input) :
    ∃ w', db.given (runId :: ids) (openRun cfg questions inbound relayed threadId answers) front w =
      some (.ok (input, none), ids, [], w') ∧
        parents w' = parents w ++ [(runId, input.parentRunId)] := by
  have hrunId : input.runId = runId := (buildRunAgentInput_ok (assemble_ok hinput)).2.1
  have hroom : (checkRoom cfg questions inbound threadId answers).peek (db.view w front) =
      some (.ok resolution) := by rw [hfront, hroom]
  have hinput : assemble cfg inbound relayed threadId runId answers none messages
      (db.view w front).now = .ok input := by rw [hfront, hinput]
  have hchecked : db.given (runId :: ids) (checkAddressed inbound.addressedRunId threadId) front w =
      some (.ok none, runId :: ids, front, w) := by
    rw [haddressed]
    rfl
  let opening : Opening :=
    { handed := dispatchedOf inbound relayed input none
      callerHead := inbound.headKey
      answers := answers.map RunRecord.runId
      resolution }
  let row := rowOf inbound.agent input relayed (db.view w front).now
  let rows := messages.map fun m => messageRow threadId runId m
  refine ⟨db.view w (front ++ [Write.newRun row opening] ++ rows.map Write.newMessage), ?_, ?_⟩
  · unfold openRun
    rw [Db.given_bind hchecked, Db.given_bind (Db.given_peek hroom),
      Db.given_bind (Db.given_newId runId), Db.given_bind (Db.given_select _),
      Db.given_bind (Db.given_ofExcept hmessages), Db.given_bind (Db.given_ofExcept hinput),
      Db.given_bind (Db.given_put _), Db.given_bind given_appendThreadMessages,
      Db.given_bind Db.given_commits, List.map_map]
    rfl
  · rw [db.view_append, db.view_append, hfront, parents_messages]
    show List.map _ (w.runs ++ [row]) = _
    rw [List.map_append, ← hrunId]
    rfl

/-- A run that is let in is there, under its parent. -/
theorem given_enter {questions : Nat} {resolution : Option Resolution} {front : List Write}
    (hfront : ∀ v, db.view v front = v) (haddressed : inbound.addressedRunId = .null)
    (hrelayed : relayedChain cfg inbound.actorChain inbound.agent = .ok relayed)
    (hroom : (checkRoom cfg questions inbound threadId answers).peek w = some (.ok resolution))
    (hmessages : messagesOf inbound.messages = .ok messages)
    (hinput : assemble cfg inbound relayed threadId runId answers none messages w.now = .ok input) :
    ∃ live w', db.given (runId :: ids) (enter cfg questions inbound threadId answers) front w =
      some (.ok ⟨runId, threadId, live⟩, ids, [], w') ∧
        parents w' = parents w ++ [(runId, input.parentRunId)] := by
  have hrunId : input.runId = runId := (buildRunAgentInput_ok (assemble_ok hinput)).2.1
  obtain ⟨w₁, hopen, hparents⟩ :=
    given_openRun ids hfront haddressed hroom hmessages hinput
  obtain ⟨live, w', hdispatch, hsame⟩ := given_dispatch ids w₁ inbound relayed input none
  refine ⟨live, w', ?_, hsame.trans hparents⟩
  unfold enter
  rw [Db.given_bind (Db.given_ofExcept hrelayed), Db.given_bind hopen]
  show db.given ids (dispatch inbound relayed input none >>= _) [] w₁ = _
  rw [Db.given_bind hdispatch, hrunId]
  rfl

end Alone

/-! ## The AG-UI door -/

/-- Of the runs of its thread this one waits, and no other. -/
structure WaitsAlone (w : World) (asked : RunRecord) : Prop where
  run : asked ∈ w.runs
  waits : waits w asked = true
  alone : ∀ r ∈ w.runs, r.threadId = asked.threadId → Doors.waits w r = true → r = asked

/-- The caller may write to the thread, and its input is one AG-UI takes: every check the
door makes of them passes, the resolution of the asks included.  The loops that follow
lineages come to an end. -/
structure Welcome (w : World) (questions : Nat) (agent : AgentRef) (body : RunAgentInput)
    (presenterKey : Option String) (asked : RunRecord) : Prop where
  registered : w.agents.contains agent = true
  accepted : ∃ caller relayed thread messages,
    (readCaller cfg body.forwardedProps presenterKey).peek w = some (.ok caller) ∧
    w.getThread body.threadId = some thread ∧ admits thread agent caller.headKey = .ok () ∧
    relayedChain cfg caller.actorChain agent = .ok relayed ∧
    (∃ resolution, (checkResolution cfg questions (aguiInbound agent body caller) asked).peek w =
      some (.ok resolution)) ∧
    messagesOf (.arr body.messages) = .ok messages ∧
    ∀ runId answers, ∃ input, assemble cfg (aguiInbound agent body caller) relayed body.threadId
      runId answers none messages w.now = .ok input
  ends : ∀ latest, w.latestRunForThread body.threadId = some latest →
    ∃ seen, (waitingOn questions latest).peek w = some (.ok seen)

/-- The thread has room for another utterance. -/
def RoomOn (w : World) (threadId : String) : Prop :=
  ∀ limit, cfg.threadQueueLimit = some limit → w.countQueuedRunsForThread threadId < limit

/-- The call opens the run `runId`, whose parent is the run that asked. -/
def Lands (w : World) (questions : Nat) (agent : AgentRef) (body : RunAgentInput)
    (presenterKey : Option String) (runId : String) (asked : RunRecord) : Prop :=
  ∃ live w', db.given [runId] (aguiRun cfg questions agent body presenterKey) [] w =
    some (.ok (.entered ⟨runId, body.threadId, live⟩), [], [], w') ∧
      (runId, some asked.runId) ∈ parents w'

section Agui

variable {cfg} {w : World} {questions : Nat} {agent : AgentRef} {body : RunAgentInput}
  {presenterKey : Option String} {asked latest : RunRecord} {runId : String}

/-- What answers an ask is a result. -/
theorem answering_of_completes {messages : List Json} {resume : Option (List Json)}
    {events : List Json} (h : completesTheAsk messages resume events = true) :
    (resume.isSome || messages.any fun m => m.getStr? "role" = some "tool") = true := by
  by_contra hno
  rw [Bool.or_eq_true, not_or] at hno
  have hresume : resume = none := by simpa using hno.1
  have hmessages : (messages.filter fun m => m.getStr? "role" = some "tool") = [] := by
    rw [List.filter_eq_nil_iff]
    intro m hm htool
    exact hno.2 (List.any_eq_true.2 ⟨m, hm, htool⟩)
  unfold completesTheAsk answeredAsks at h
  rw [hmessages, hresume] at h
  cases hasks : openAsks events with
  | nil =>
      rw [hasks] at h
      cases h
  | cons ask asks =>
      rw [hasks] at h
      simp at h

/-- What the door does once it has found the thread's newest run. -/
theorem given_aguiRun (ids : List String) {caller : Caller} {thread : ThreadRow}
    {seen : Option (List Json)} (hregistered : w.agents.contains agent = true)
    (hcaller : (readCaller cfg body.forwardedProps presenterKey).peek w = some (.ok caller))
    (hthread : w.getThread body.threadId = some thread)
    (hadmits : admits thread agent caller.headKey = .ok ())
    (hanswering : ((resumeOf body).isSome ||
      body.messages.any fun m => m.getStr? "role" = some "tool") = true)
    (hlatest : w.latestRunForThread body.threadId = some latest)
    (hseen : (waitingOn questions latest).peek w = some (.ok seen)) :
    db.given ids (aguiRun cfg questions agent body presenterKey) [] w =
      let completes := completesTheAsk body.messages (resumeOf body) (seen.getD [])
      db.given ids (if (resumeOf body).isSome && !completes then threadSnapshot body.threadId
        else enter cfg questions (aguiInbound agent body caller) body.threadId
          (if completes then some latest else none) >>= fun run => pure (.entered run))
        [.touchThread body.threadId] w := by
  have hknown : db.given ids (Doors.registered agent) [] w = some (.ok (), ids, [], w) := by
    show db.given ids (if w.agents.contains agent then _ else _) [] w = _
    rw [hregistered]
    rfl
  have htaken : db.given ids (ensureThread agent (some body.threadId) none caller.props true
      caller.headKey) [] w =
      some (.ok body.threadId, ids, [.touchThread body.threadId], w) := by
    have hselected : db.given ids (Prog.select fun w => w.getThread body.threadId : Door _) [] w =
        some (.ok (some thread), ids, [], w) := by
      rw [← hthread]
      rfl
    refine (Db.given_bind hselected).trans ?_
    show db.given ids (Prog.ofExcept (admits thread agent caller.headKey) >>= _) [] w = _
    rw [hadmits]
    rfl
  have hfound : db.given ids (latestWaiting questions body.threadId true)
      [.touchThread body.threadId] w =
      some (.ok (some latest, seen.getD []), ids, [.touchThread body.threadId], w) := by
    have hselected : db.given ids
        (Prog.select fun w => w.latestRunForThread body.threadId : Door _)
        [.touchThread body.threadId] w =
        some (.ok (some latest), ids, [.touchThread body.threadId], w) := by
      rw [← hlatest]
      rfl
    refine (Db.given_bind hselected).trans ?_
    show db.given ids (waitingOn questions latest >>= fun events =>
      pure (some latest, events.getD [])) [.touchThread body.threadId] w = _
    have hlooked : db.given ids (waitingOn questions latest) [.touchThread body.threadId] w =
        some (.ok seen, ids, [.touchThread body.threadId], w) := Db.given_peek hseen
    rw [Db.given_bind hlooked]
    rfl
  have hread : db.given ids (readCaller cfg body.forwardedProps presenterKey) [] w =
      some (.ok caller, ids, [], w) := Db.given_peek hcaller
  unfold aguiRun
  rw [Db.given_bind hknown, Db.given_bind hread, Db.given_bind htaken]
  simp only [hanswering]
  rw [Db.given_bind hfound]

/-- The door opens what it takes for an utterance, or for an answer, where there is room. -/
theorem lands_of_enter {caller : Caller} {relayed : Option (List String)} {messages : List Json}
    {answers : Option RunRecord} {resolution : Option Resolution} {input : RunAgentInput}
    (hrelayed : relayedChain cfg caller.actorChain agent = .ok relayed)
    (hmessages : messagesOf (.arr body.messages) = .ok messages)
    (hroom : (checkRoom cfg questions (aguiInbound agent body caller) body.threadId answers).peek w
      = some (.ok resolution))
    (hinput : assemble cfg (aguiInbound agent body caller) relayed body.threadId runId answers none
      messages w.now = .ok input) :
    ∃ live w', db.given [runId] (enter cfg questions (aguiInbound agent body caller) body.threadId
        answers >>= fun run => pure (Reply.entered run)) [.touchThread body.threadId] w =
      some (.ok (.entered ⟨runId, body.threadId, live⟩), [], [], w') ∧
        parents w' = parents w ++ [(runId, input.parentRunId)] := by
  have hfront : ∀ v : World, db.view v [.touchThread body.threadId] = v := fun _ => rfl
  obtain ⟨live, w', henter, hparents⟩ := given_enter hfront rfl hrelayed hroom hmessages hinput
  refine ⟨live, w', ?_, hparents⟩
  rw [Db.given_bind henter]
  rfl

/-- Where there is no room the utterance is refused. -/
theorem given_enter_refused {caller : Caller} {relayed : Option (List String)} {e : DoorError}
    {ids : List String} (hrelayed : relayedChain cfg caller.actorChain agent = .ok relayed)
    (hroom : (checkRoom cfg questions (aguiInbound agent body caller) body.threadId none).peek w =
      some (.error e)) :
    db.given ids (enter cfg questions (aguiInbound agent body caller) body.threadId none >>=
        fun run => pure (Reply.entered run)) [.touchThread body.threadId] w =
      some (.error e, ids, [.touchThread body.threadId], w) := by
  have hrefused : db.given ids (checkRoom cfg questions (aguiInbound agent body caller)
      body.threadId none) [.touchThread body.threadId] w =
      some (.error e, ids, [.touchThread body.threadId], w) := Db.given_peek hroom
  have hopen : db.given ids (openRun cfg questions (aguiInbound agent body caller) relayed
      body.threadId none) [.touchThread body.threadId] w =
      some (.error e, ids, [.touchThread body.threadId], w) := by
    show db.given ids (checkRoom cfg questions (aguiInbound agent body caller) body.threadId none
      >>= _) [.touchThread body.threadId] w = _
    exact Db.given_bind_error hrefused
  apply Db.given_bind_error
  have hrelayed' : relayedChain cfg (aguiInbound agent body caller).actorChain
      (aguiInbound agent body caller).agent = .ok relayed := hrelayed
  unfold enter
  rw [Db.given_bind (Db.given_ofExcept hrelayed')]
  exact Db.given_bind_error hopen

theorem peek_checkRoom_none {inbound : InboundRun} {threadId : String} :
    (checkRoom cfg questions inbound threadId none).peek w = some (.ok none) ↔
      RoomOn cfg w threadId := by
  show (ensureQueueRoom threadId cfg.threadQueueLimit >>= fun _ => pure none).peek w = _ ↔ _
  rw [Prog.peek_bind]
  unfold RoomOn
  cases hlimit : cfg.threadQueueLimit with
  | none => exact iff_of_true rfl nofun
  | some limit =>
      have hpeek : (ensureQueueRoom threadId (some limit)).peek w =
          (if limit ≤ w.countQueuedRunsForThread threadId then
            raise (.threadQueueFull _)
          else pure () : Door Unit).peek w := rfl
      rw [hpeek]
      by_cases hfull : limit ≤ w.countQueuedRunsForThread threadId
      · rw [if_pos hfull]
        refine iff_of_false nofun fun h => ?_
        exact absurd (h limit rfl) (by omega)
      · rw [if_neg hfull]
        refine iff_of_true rfl fun limit' h => ?_
        cases h
        omega

variable (questions) in
theorem peek_checkRoom_full (inbound : InboundRun) {threadId : String} (h : ¬ RoomOn cfg w threadId) :
    ∃ e, (checkRoom cfg questions inbound threadId none).peek w = some (.error e) := by
  unfold RoomOn at h
  simp only [not_forall, Int.not_lt] at h
  obtain ⟨limit, hlimit, hfull⟩ := h
  show ∃ e, (ensureQueueRoom threadId cfg.threadQueueLimit >>= fun _ => pure none).peek w = _
  rw [Prog.peek_bind, hlimit]
  show ∃ e, Prog.andThen ((if limit ≤ w.countQueuedRunsForThread threadId then
    raise (.threadQueueFull _) else pure () : Door Unit).peek w) _ = _
  rw [if_pos hfull]
  exact ⟨_, rfl⟩

/-- What `waiting_on` makes of a run, where it comes to an end. -/
theorem seen_eq {run : RunRecord} {seen : Option (List Json)} (hrun : w.getRun run.runId = some run)
    (hseen : (waitingOn questions run).peek w = some (.ok seen)) :
    seen = if waits w run then some (w.getRunEvents run.runId) else none := by
  by_cases hwaits : waits w run = true
  · rw [if_pos hwaits]
    obtain ⟨hdone, hopen, hchild, hasks⟩ := waits_iff.1 hwaits
    rw [peek_waitingOn, if_neg (by simp [hdone, hopen]), peek_lineageTail, hrun,
      Option.elim_some] at hseen
    cases questions with
    | zero => cases hseen
    | succ n =>
        rw [peek_followLineage_succ, hchild] at hseen
        simpa [Prog.andThen, seeing, hasks] using hseen.symm
  · rw [if_neg hwaits]
    cases seen with
    | none => rfl
    | some events =>
        obtain ⟨found, hfound, hwaits'⟩ := waiting_iff.1 ⟨run, questions, events, hrun, hseen⟩
        cases hrun.symm.trans hfound
        exact absurd hwaits' hwaits

/-- Results for a newest run that does not wait are answered with the thread as it is. -/
theorem given_aguiRun_snapshot (hs : Sane w)
    (hwelcome : Welcome cfg w questions agent body presenterKey asked)
    (hresume : (resumeOf body).isSome = true)
    (hlatest : w.latestRunForThread body.threadId = some latest) (hnot : waits w latest = false)
    (ids : List String) :
    ∃ active ws, db.given ids (aguiRun cfg questions agent body presenterKey) [] w =
      some (.ok (.snapshot body.threadId active), ids, ws, w) := by
  obtain ⟨caller, relayed, thread, messages, hcaller, hget, hadmits, -⟩ := hwelcome.accepted
  obtain ⟨seen, hseen⟩ := hwelcome.ends latest hlatest
  have hmem := (List.mem_filter.1 (RunRecord.mem_of_newest hlatest)).1
  have hnone := seen_eq (hs.getRun hmem) hseen
  rw [hnot, if_neg nofun] at hnone
  have hnothing : completesTheAsk body.messages (resumeOf body) (seen.getD []) = false := by
    rw [hnone]
    rfl
  rw [given_aguiRun _ hwelcome.registered hcaller hget hadmits (by rw [hresume, Bool.true_or]) hlatest
    hseen]
  simp only [hnothing, hresume, Bool.not_false, Bool.and_true, if_true]
  exact ⟨_, _, rfl⟩

/-- **Main result.**  A call that answers all that is asked opens the answer exactly where
the run that asked is its thread's newest, or where the caller's utterance names it as
its parent. -/
theorem agui_lands_iff (hs : Sane w) (hasked : WaitsAlone w asked)
    (hthread : asked.threadId = body.threadId)
    (hwelcome : Welcome cfg w questions agent body presenterKey asked)
    (hanswers : completesTheAsk body.messages (resumeOf body)
      (w.getRunEvents asked.runId) = true)
    (hunused : w.unused runId = true) :
    Lands cfg w questions agent body presenterKey runId asked ↔
      w.latestRunForThread body.threadId = some asked ∨
        resumeOf body = none ∧ body.parentRunId = some asked.runId ∧
          RoomOn cfg w body.threadId := by
  obtain ⟨caller, relayed, thread, messages, hcaller, hget, hadmits, hrelayed, ⟨resolution, hres⟩,
    hmessages, hinput⟩ := hwelcome.accepted
  have hanswering := answering_of_completes hanswers
  -- There is a newest run: the run that asked is one of the thread's.
  obtain ⟨latest, hlatest⟩ : ∃ latest, w.latestRunForThread body.threadId = some latest := by
    rw [← Option.ne_none_iff_exists']
    intro hnone
    have hmem : asked ∈ w.runsOf body.threadId :=
      List.mem_filter.2 ⟨hasked.run, decide_eq_true hthread⟩
    rw [RunRecord.newest_eq_none.1 hnone] at hmem
    cases hmem
  obtain ⟨hmem, hthread'⟩ := List.mem_filter.1 (RunRecord.mem_of_newest hlatest)
  have hthread' : latest.threadId = body.threadId := of_decide_eq_true hthread'
  obtain ⟨seen, hseen⟩ := hwelcome.ends latest hlatest
  have hgiven := fun ids => given_aguiRun ids hwelcome.registered hcaller hget hadmits
    hanswering hlatest hseen
  by_cases hsame : latest = asked
  · subst hsame
    refine iff_of_true ?_ (.inl hlatest)
    have hevents := seen_eq (hs.getRun hmem) hseen
    rw [if_pos hasked.waits] at hevents
    obtain ⟨input, hinput⟩ := hinput runId (some latest)
    obtain ⟨live, w', hdone, hparents⟩ := lands_of_enter hrelayed hmessages hres hinput
    refine ⟨live, w', ?_, ?_⟩
    · rw [hgiven, hevents, Option.getD_some]
      simp only [hanswers, Bool.not_true, Bool.and_false, Bool.false_eq_true, if_false, if_true]
      exact hdone
    · rw [hparents]
      have hparent := (buildRunAgentInput_ok (assemble_ok hinput)).2.2.2.2.2.2.2.2
      rw [← Except.ok.inj hparent]
      exact List.mem_append_right _ List.mem_cons_self
  · -- The newest run does not wait, and nothing lands on it.
    have hnot : waits w latest = false := by
      by_contra hwaits
      exact hsame (hasked.alone latest hmem (hthread'.trans hthread.symm)
        (Bool.eq_true_of_not_eq_false hwaits))
    have hnone := seen_eq (hs.getRun hmem) hseen
    rw [hnot, if_neg nofun] at hnone
    have hnothing : completesTheAsk body.messages (resumeOf body) (seen.getD []) = false := by
      rw [hnone]
      rfl
    rw [or_iff_right (fun h => hsame (Option.some.inj (hlatest.symm.trans h)))]
    cases hresume : resumeOf body with
    | some entries =>
        refine iff_of_false ?_ nofun
        rintro ⟨live, w', hdone, -⟩
        obtain ⟨active, ws, hsnapshot⟩ := given_aguiRun_snapshot hs hwelcome (by rw [hresume]; rfl)
          hlatest hnot [runId]
        cases hsnapshot.symm.trans hdone
    | none =>
        unfold Lands
        rw [hgiven, and_iff_right rfl]
        simp only [hnothing]
        simp only [hresume, Option.isSome_none, Bool.false_and, Bool.false_eq_true, if_false]
        by_cases hroom : RoomOn cfg w body.threadId
        · rw [and_iff_left hroom]
          obtain ⟨input, hinput⟩ := hinput runId none
          obtain ⟨live, w', hdone, hparents⟩ :=
            lands_of_enter hrelayed hmessages (peek_checkRoom_none.2 hroom) hinput
          have hparent : body.parentRunId = input.parentRunId := by
            have hread := (buildRunAgentInput_ok (assemble_ok hinput)).2.2.2.2.2.2.2.2
            cases hbody : body.parentRunId <;>
              simpa [aguiInbound, hbody, readParent] using hread
          rw [hdone, hparent]
          constructor
          · rintro ⟨live', w'', heq, hin⟩
            cases heq
            rw [hparents] at hin
            rcases List.mem_append.1 hin with hin | hin
            · exact absurd hin (not_mem_parents hunused _)
            · exact (Prod.mk.inj (List.mem_singleton.1 hin)).2.symm
          · intro heq
            refine ⟨live, w', rfl, ?_⟩
            rw [hparents, heq]
            exact List.mem_append_right _ List.mem_cons_self
        · refine iff_of_false ?_ fun h => hroom h.2
          obtain ⟨e, hfull⟩ := peek_checkRoom_full questions
            (aguiInbound agent body caller) hroom
          rw [given_enter_refused hrelayed hfull]
          rintro ⟨live, w', hdone, -⟩
          cases hdone

end Agui

/-! ## A message while the question is open -/

namespace Demo

/-- The answer to the interrupt `i` over AG-UI. -/
def results : RunAgentInput where
  threadId := "t"
  runId := "mine"
  state := .null
  messages := [.obj [("id", .str "m2"), ("role", .str "user")]]
  tools := []
  context := []
  forwardedProps := .obj []
  resume := some [.obj [("interruptId", .str "i"), ("status", .str "resolved")]]
  parentRunId := none

/-- A run asks. -/
def questioned : Process := after (paused)

/-- And somebody says something else on its thread. -/
def overtaken : Process := after (paused ++ [.outside (.tick 1),
  calls (.startRun agent (saying "m1") (some "t") none)] ++
  advances 1 ["", "", "", "r1", "", "", "", "", "", "", ""])

/-- What is to be seen of the run `r0` in a store: it waits, and no other run does. -/
def asksAlone (w : World) : Bool :=
  (w.getRun "r0").any (fun r => waits w r && r.actorChain.isNone && r.threadId = "t") &&
    w.runs.all fun r => !waits w r || r.runId = "r0"

/-- What is to be seen of the thread: it is the agent's, nobody has bound it, and the
lineage of its newest run has an end. -/
def openThread (w : World) : Bool :=
  w.agents.contains agent &&
    (w.getThread "t").any (fun t => t.agent = agent && t.headKey.isNone) &&
      (w.latestRunForThread "t").all fun latest =>
        match (waitingOn 3 latest).peek w with
        | some (.ok _) => true
        | _ => false

theorem waitsAlone_of {w : World} (hs : Sane w) (h : asksAlone w = true) :
    ∃ asked, w.getRun "r0" = some asked ∧ asked.actorChain = none ∧ asked.threadId = "t" ∧
      WaitsAlone w asked := by
  obtain ⟨hany, hall⟩ := Bool.and_eq_true _ _ ▸ h
  obtain ⟨asked, hget, hasked⟩ := (Option.any_eq_true _ _).1 hany
  simp only [Bool.and_eq_true, decide_eq_true_eq, Option.isNone_iff_eq_none] at hasked
  obtain ⟨⟨hwaits, hchain⟩, hthread⟩ := hasked
  refine ⟨asked, hget, hchain, hthread, List.mem_of_find?_eq_some hget, hwaits, ?_⟩
  intro r hr _ hr'
  have hid : r.runId = "r0" := by simpa [hr'] using List.all_eq_true.1 hall r hr
  have hfound := hs.getRun hr
  rw [hid, hget] at hfound
  exact (Option.some.inj hfound).symm

theorem welcome_of {w : World} {asked : RunRecord} (hchain : asked.actorChain = none)
    (h : openThread w = true) : Welcome config w 3 agent results none asked := by
  obtain ⟨hboth, hends⟩ := Bool.and_eq_true _ _ ▸ h
  obtain ⟨hknown, hany⟩ := Bool.and_eq_true _ _ ▸ hboth
  obtain ⟨thread, hget, hthread⟩ := (Option.any_eq_true _ _).1 hany
  simp only [Bool.and_eq_true, decide_eq_true_eq, Option.isNone_iff_eq_none] at hthread
  refine ⟨hknown, ⟨_, none, thread, _, rfl, hget, ?_, rfl, ⟨none, ?_⟩, rfl, ?_⟩, ?_⟩
  · unfold admits
    rw [if_neg (by simp [hthread.1]), if_neg (by simp [hthread.2])]
  · unfold checkResolution headKeyOf chainOf
    rw [hchain]
    rfl
  · intro runId answers
    cases answers <;> exact ⟨_, rfl⟩
  · intro latest hlatest
    have hlatest : w.latestRunForThread "t" = some latest := hlatest
    rw [hlatest, Option.all_some] at hends
    cases hpeek : (waitingOn 3 latest).peek w with
    | none =>
        rw [hpeek] at hends
        cases hends
    | some result =>
        cases result with
        | error e =>
            rw [hpeek] at hends
            cases hends
        | ok seen => exact ⟨seen, rfl⟩

end Demo

/-- The answer lands while nothing newer stands on the thread. -/
theorem agui_lands_iff_questioned :
    (system Demo.config Empty).Reachable Demo.questioned ∧
      ∃ asked, Demo.questioned.world.getRun "r0" = some asked ∧
        Lands Demo.config Demo.questioned.world 3 Demo.agent Demo.results none "r1" asked := by
  have hreach := Demo.after_reachable Demo.paused
  have hs := (reachable_onFile hreach).1.sane
  obtain ⟨asked, hget, hchain, hthread, hasked⟩ := Demo.waitsAlone_of hs (by decide +kernel)
  have hid : asked.runId = "r0" := by simpa using List.find?_some hget
  have hnewest : (Demo.questioned.world.latestRunForThread "t").any (fun r => r.runId = "r0") =
      true := by decide +kernel
  obtain ⟨latest, hlatest, hlatestId⟩ := (Option.any_eq_true _ _).1 hnewest
  refine ⟨hreach, asked, hget, ?_⟩
  refine (agui_lands_iff hs hasked hthread (Demo.welcome_of hchain (by decide +kernel)) ?_ ?_).2
    (.inl ?_)
  · rw [hid]
    decide +kernel
  · decide +kernel
  · have hmem := (List.mem_filter.1 (RunRecord.mem_of_newest hlatest)).1
    have hfound := hs.getRun hmem
    rw [of_decide_eq_true hlatestId] at hfound
    exact hlatest.trans (hfound.symm.trans hget)

/-- A message sent while the question is open leaves its answer without a place to land:
the caller is told that nothing is asked. -/
theorem overtaken_answer_lost :
    (system Demo.config Empty).Reachable Demo.overtaken ∧
      ∃ asked, Demo.overtaken.world.getRun "r0" = some asked ∧
        WaitsAlone Demo.overtaken.world asked ∧
        Welcome Demo.config Demo.overtaken.world 3 Demo.agent Demo.results none asked ∧
        completesTheAsk Demo.results.messages (resumeOf Demo.results)
          (Demo.overtaken.world.getRunEvents asked.runId) = true ∧
        (∃ active ws, db.given ["r2"] (aguiRun Demo.config 3 Demo.agent Demo.results none) []
          Demo.overtaken.world = some (.ok (.snapshot "t" active), ["r2"], ws,
            Demo.overtaken.world)) ∧
        ¬ Lands Demo.config Demo.overtaken.world 3 Demo.agent Demo.results none "r2" asked := by
  have hreach : (system Demo.config Empty).Reachable Demo.overtaken := Demo.after_reachable _
  have hs := (reachable_onFile hreach).1.sane
  obtain ⟨asked, hget, hchain, hthread, hasked⟩ := Demo.waitsAlone_of hs (by decide +kernel)
  have hid : asked.runId = "r0" := by simpa using List.find?_some hget
  have hwelcome : Welcome Demo.config Demo.overtaken.world 3 Demo.agent Demo.results none asked :=
    Demo.welcome_of hchain (by decide +kernel)
  have hnewest : (Demo.overtaken.world.latestRunForThread "t").any
      (fun r => waits Demo.overtaken.world r = false) = true := by decide +kernel
  obtain ⟨latest, hlatest, hnot⟩ := (Option.any_eq_true _ _).1 hnewest
  have hsnapshot := given_aguiRun_snapshot hs hwelcome rfl hlatest (of_decide_eq_true hnot) ["r2"]
  refine ⟨hreach, asked, hget, hasked, hwelcome, ?_, hsnapshot, ?_⟩
  · rw [hid]
    decide +kernel
  · obtain ⟨active, ws, hgiven⟩ := hsnapshot
    rintro ⟨live, w', hentered, -⟩
    cases hgiven.symm.trans hentered

end Funduq.Doors
