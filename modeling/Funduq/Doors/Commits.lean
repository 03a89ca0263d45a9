import Funduq.Doors.Calls

/-!
# What the doors commit

Every transaction a request commits, with everything the request had made sure of
by then.  A door makes its checks one statement after another while others are at
work, so what it knows at its commit is what it saw then: a fact of an earlier
world, and what it has held since.

There are five kinds of commit.  A run is opened, with the thread it is opened on,
the run it answers and the proof it carries; a run nobody serves is failed, and
given its last event; a run is handed to the broker; a cancel is recorded.
-/

namespace Funduq.Doors

open Funduq.Lib Funduq.Store Funduq.Contract
open Funduq.Broker (AgentRef Status Time hasType runError runErrorTag)

variable {PrivateKey PublicKey : Type} (cfg : Config PrivateKey PublicKey)
  (W : World → Prop) (R : List Name → World → World → Prop)

/-! ## What a request has seen -/

/-- A run that is found going down a lineage from the run `start`, one link at a
time, while others are at work. -/
inductive Descends (start : String) : World → RunRecord → Prop where
  | start {w : World} {run : RunRecord} (hw : W w) (h : w.getRun start = some run) :
      Descends start w run
  | later {w w' : World} {run : RunRecord} (h : Descends start w run) (hr : R [] w w') :
      Descends start w' run
  | child {w : World} {run child : RunRecord} (h : Descends start w run) (hw : W w)
      (hc : w.childOf run.runId = some child) : Descends start w child

/-- Such a run was seen. -/
theorem Descends.known {W : World → Prop} {R : List Name → World → World → Prop}
    {start : String} {w w' : World} {run : RunRecord} {held : List Name} (hR : Steady R)
    (h : Descends W R start w run) (hr : R held w w') :
    Since R [] (fun w₀ => W w₀ ∧ run ∈ w₀.runs) w' := by
  have hseen : Since R [] (fun w₀ => W w₀ ∧ run ∈ w₀.runs) w := by
    clear hr
    induction h with
    | start hw h => exact .now hR ⟨hw, List.mem_of_find?_eq_some h⟩
    | later h hr' ih => exact ih.later hR hr'
    | child h hw hc _ =>
        exact .now hR ⟨hw, List.mem_of_mem_filter (RunRecord.mem_of_newest hc)⟩
  exact hseen.later hR (hR.anti (List.nil_subset _) hr)

/-- The id that is found going up the lineage of a run that was seen, one link at a
time, while others are at work. -/
inductive Ascends (w : World) : RunRecord → String → Prop where
  | start {run : RunRecord} (hnone : run.parentRunId = none) : Ascends w run run.runId
  | orphan {run : RunRecord} (parentId : String) (hsome : run.parentRunId = some parentId)
      (h : Since R [] (fun w₀ => Since R [] (fun w₁ => W w₁ ∧ run ∈ w₁.runs) w₀ ∧
        w₀.getRun parentId = none) w) : Ascends w run run.runId
  | parent {run parent : RunRecord} {root : String} (parentId : String)
      (hsome : run.parentRunId = some parentId)
      (h : Since R [] (fun w₀ => W w₀ ∧ w₀.getRun parentId = some parent) w)
      (hroot : Ascends w parent root) : Ascends w run root

theorem Ascends.later {W : World → Prop} {R : List Name → World → World → Prop} (hR : Steady R)
    {w w' : World} {run : RunRecord} {root : String} (h : Ascends W R w run root)
    (hr : R [] w w') : Ascends W R w' run root := by
  induction h with
  | start hnone => exact .start hnone
  | orphan parentId hsome h => exact .orphan parentId hsome (h.later hR hr)
  | parent parentId hsome h _ ih => exact .parent parentId hsome (h.later hR hr) ih

/-- The run was found waiting for an answer from inside its section. -/
structure Awaits (held : List Name) (w : World) (run : RunRecord) : Prop where
  known : Since R [] (fun w₀ => W w₀ ∧ run ∈ w₀.runs) w
  completed : run.status = .completed
  uncancelled : run.cancelRequested = false
  inside : .inside run.runId ∈ held
  unanswered : Since R [.inside run.runId] (fun w₀ => W w₀ ∧ w₀.childOf run.runId = none) w

/-- The thread a run is opened on, with what was written to have it. -/
inductive OnThread (held : List Name) (w : World) (agent : AgentRef) (headKey : Option String)
    (answers : Option RunRecord) (front : List Write) (threadId : String) : Prop where
  /-- One that is there and admits the caller; its row is taken. -/
  | existing (thread : ThreadRow) (front_eq : front = [.touchThread threadId])
      (id_eq : thread.threadId = threadId)
      (known : Since R [] (fun w₀ => W w₀ ∧ thread ∈ w₀.threads) w)
      (admitted : admits thread agent headKey = .ok ()) (own : .own threadId ∈ held)
  /-- A new one, bound to the caller's head. -/
  | created (thread : ThreadRow) (front_eq : front = [.newThread thread])
      (id_eq : thread.threadId = threadId) (agent_eq : thread.agent = agent)
      (headKey_eq : thread.headKey = headKey)
      (minted : Since R [.own threadId] (fun w₀ => w₀.unused threadId = true) w)
      (own : .own threadId ∈ held)
  /-- `resume_run` opens the answer on the thread of the run it answers. -/
  | resumed (run : RunRecord) (front_eq : front = []) (id_eq : run.threadId = threadId)
      (answers_eq : answers = some run) (agent_eq : agent = run.agent)

/-- What a door makes of its caller. -/
structure CallerOf (bag : Json) (caller : Caller) : Prop where
  verified : ∃ presenterKey, verifyCaller cfg (bagOf bag) presenterKey =
    .ok ⟨caller.props, caller.headKey, caller.actorChain⟩
  kyok : caller.kyok = parseKyokOptIn caller.props
  forwardedProps : caller.forwardedProps = forwarded bag caller.props

/-- The `parentRunId` of a call's input. -/
def Call.parentRunId : Call → Json
  | .startRun _ runInput _ _ => member runInput "parentRunId"
  | .resumeRun _ runInput _ => member runInput "parentRunId"
  | .aguiRun _ body _ => body.parentRunId.elim .null .str
  | _ => .null

/-- The bag a call's caller hands in. -/
def Call.bag : Call → Json
  | .startRun _ runInput _ _ => member runInput "forwardedProps"
  | .resumeRun _ runInput _ => member runInput "forwardedProps"
  | .aguiRun _ body _ => body.forwardedProps
  | .a2aSend _ _ actorChain metadata _ => .obj (a2aBag actorChain metadata)
  | _ => .null

/-- The run as its door translated it. -/
structure InboundOf (call : Call) (inbound : InboundRun) : Prop where
  caller : ∃ caller, CallerOf cfg call.bag caller ∧ inbound.headKey = caller.headKey ∧
    inbound.actorChain = caller.actorChain ∧ inbound.kyok = caller.kyok ∧
    inbound.forwardedProps = caller.forwardedProps
  parent : inbound.parentRunId = call.parentRunId

/-- What `open_run` asks of an answer: a run with a chain is answered with a
resolution over its lineage's root and its asks, by an authority. -/
def Resolved (inbound : InboundRun) (answers : RunRecord) (w : World) :
    Option Resolution → Prop
  | none => headKeyOf cfg answers = .ok none
  | some resolution => ∃ head proof, headKeyOf cfg answers = .ok (some head) ∧
      Since R [] (fun w₀ => Since R [] (fun w₁ => W w₁ ∧ answers ∈ w₁.runs) w₀ ∧
        openAsks (w₀.getRunEvents answers.runId) = resolution.asks) w ∧
      Ascends W R w answers resolution.root ∧
      verifyResolution cfg proof resolution.root resolution.asks
        [head, inbound.agent.providerKey] = .ok resolution

/-- What `open_run` asks of a run that answers nothing: room for it. -/
def HasRoom (threadId : String) (w : World) : Prop :=
  ∀ limit, cfg.threadQueueLimit = some limit →
    Since R [.own threadId] (fun w₀ => (w₀.countQueuedRunsForThread threadId : Int) < limit) w

/-- A run as it is opened. -/
structure Opened where
  inbound : InboundRun
  relayed : Option (List String)
  threadId : String
  answers : Option RunRecord
  addressed : Option String
  resolution : Option Resolution
  messages : List Json
  now : Time
  runId : String
  input : RunAgentInput

namespace Opened

variable (o : Opened)

/-- What is to be handed to the broker. -/
def handed : Dispatched := dispatchedOf o.inbound o.relayed o.input o.addressed

def row : RunRecord := rowOf o.inbound.agent o.input o.relayed o.now

def opening : Opening where
  handed := o.handed
  callerHead := o.inbound.headKey
  answers := o.answers.map RunRecord.runId
  resolution := o.resolution

/-- The run's row and its messages. -/
def writes : List Write :=
  .newRun o.row o.opening :: o.messages.map fun m => .newMessage (messageRow o.threadId o.runId m)

end Opened

/-- A run is opened. -/
structure Opens (call : Call) (held : List Name) (w : World) (front : List Write) (o : Opened) :
    Prop where
  inbound : InboundOf cfg call o.inbound
  relayed : relayedChain cfg o.inbound.actorChain o.inbound.agent = .ok o.relayed
  thread : OnThread W R held w o.inbound.agent o.inbound.headKey o.answers front o.threadId
  addressed : o.inbound.addressedRunId = o.addressed.elim .null .str
  answers : ∀ run, o.answers = some run →
    Awaits W R held w run ∧ Resolved cfg W R o.inbound run w o.resolution
  room : o.answers = none → o.resolution = none ∧ HasRoom cfg R o.threadId w
  -- The answer stays on the thread of the run, or of the task the run was found in.
  lineage : ∀ run, o.answers = some run → o.threadId = run.threadId ∨
    ∃ root, Descends W R root.runId w run ∧ Since R [] (fun w₀ => W w₀ ∧ root ∈ w₀.runs) w ∧
      root.agent = o.inbound.agent ∧ o.threadId = root.threadId
  minted : Since R [.own o.runId] (fun w₀ => w₀.unused o.runId = true) w
  own : .own o.runId ∈ held
  assembled : assemble cfg o.inbound o.relayed o.threadId o.runId o.answers o.addressed o.messages
    o.now = .ok o.input

/-- A run has just been opened. -/
def JustOpened (call : Call) (o : Opened) (w : World) : Prop :=
  ∃ held front w₀, W w₀ ∧ Opens cfg W R call held w₀ front o ∧ w = db.view w₀ (front ++ o.writes)

/-- A run that was opened has just been failed. -/
def Failed (o : Opened) (w : World) : Prop :=
  ∃ w₀, W w₀ ∧ Since R [] (fun w₁ => o.opening ∈ w₁.openings) w₀ ∧
    w = w₀.markRunStatus o.handed.runId .failed

/-- Everything a request can commit. -/
inductive Commits (call : Call) : List Name → List Write → World → Prop where
  | opens {held : List Name} {w : World} (front : List Write) (o : Opened)
      (h : Opens cfg W R call held w front o) : Commits call held (front ++ o.writes) w
  /-- A run that was opened is handed to the broker. -/
  | enqueues {held : List Name} {w : World} (o : Opened)
      (h : Since R [] (JustOpened cfg W R call o) w) :
      Commits call held [.enqueueRun o.handed] w
  /-- A run nobody serves is failed. -/
  | fails {held : List Name} {w : World} (runId : String) :
      Commits call held [.markRunStatus runId .failed] w
  /-- A run that was failed gets its last event. -/
  | ends {held : List Name} {w : World} (o : Opened) (code : String) (seq : Nat)
      (h : Since R [] (Failed W R o) w) :
      Commits call held [.appendRunEvent ⟨o.handed.runId, seq, runError code code⟩] w
  | cancels {held : List Name} {w : World} (stored : RunRecord) (metadata : Dict String Json)
      (now : Time) (note : CancelNote)
      (known : Since R [] (fun w₀ => W w₀ ∧ stored ∈ w₀.runs) w)
      (authorized : authorizeCancel cfg now stored metadata = .ok note) :
      Commits call held [.recordCancelRequest note] w

/-! ## As time goes by -/

section

variable {cfg W R} (hR : Steady R) {held held' : List Name} {w w' : World}
include hR

theorem Awaits.later {run : RunRecord} (h : Awaits W R held w run) (hr : R held w w')
    (hsub : held ⊆ held') : Awaits W R held' w' run where
  known := h.known.later hR (hR.anti (List.nil_subset _) hr)
  completed := h.completed
  uncancelled := h.uncancelled
  inside := hsub h.inside
  unanswered := h.unanswered.later hR (hR.anti (List.cons_subset.2 ⟨h.inside, List.nil_subset _⟩) hr)

theorem OnThread.later {agent : AgentRef} {headKey : Option String} {answers : Option RunRecord}
    {front : List Write} {threadId : String}
    (h : OnThread W R held w agent headKey answers front threadId) (hr : R held w w')
    (hsub : held ⊆ held') : OnThread W R held' w' agent headKey answers front threadId := by
  cases h with
  | existing thread front_eq id_eq known admitted own =>
      exact .existing thread front_eq id_eq (known.later hR (hR.anti (List.nil_subset _) hr))
        admitted (hsub own)
  | created thread front_eq id_eq agent_eq headKey_eq minted own =>
      have hown : [Name.own threadId] ⊆ held := List.cons_subset.2 ⟨own, List.nil_subset _⟩
      exact .created thread front_eq id_eq agent_eq headKey_eq
        (minted.later hR (hR.anti hown hr)) (hsub own)
  | resumed run front_eq id_eq answers_eq agent_eq =>
      exact .resumed run front_eq id_eq answers_eq agent_eq

theorem Resolved.later {inbound : InboundRun} {answers : RunRecord} {resolution : Option Resolution}
    (h : Resolved cfg W R inbound answers w resolution) (hr : R held w w') :
    Resolved cfg W R inbound answers w' resolution := by
  cases resolution with
  | none => exact h
  | some resolution =>
      obtain ⟨head, proof, hhead, hasks, hroot, hver⟩ := h
      have hr' := hR.anti (List.nil_subset _) hr
      exact ⟨head, proof, hhead, hasks.later hR hr', hroot.later hR hr', hver⟩

theorem HasRoom.later {threadId : String} (h : HasRoom cfg R threadId w)
    (hown : .own threadId ∈ held) (hr : R held w w') : HasRoom cfg R threadId w' := by
  intro limit hlimit
  exact (h limit hlimit).later hR (hR.anti (List.cons_subset.2 ⟨hown, List.nil_subset _⟩) hr)

end

/-- A run that answers nothing is opened on a thread whose row is taken. -/
theorem OnThread.own {W : World → Prop} {R : List Name → World → World → Prop} {held : List Name}
    {w : World} {agent : AgentRef} {headKey : Option String} {front : List Write}
    {threadId : String} (h : OnThread W R held w agent headKey none front threadId) :
    .own threadId ∈ held := by
  cases h with
  | existing _ _ _ _ _ own => exact own
  | created _ _ _ _ _ _ own => exact own
  | resumed _ _ _ answers_eq _ => cases answers_eq

/-- The writes are about threads only. -/
def Front (ws : List Write) : Prop :=
  ∀ w : World, ∃ threads, db.view w ws = { w with threads := threads }

theorem Front.nil : Front [] := fun _ => ⟨_, rfl⟩

/-- The writes before a run's row are about its thread. -/
theorem OnThread.front {W : World → Prop} {R : List Name → World → World → Prop} {held : List Name}
    {w : World} {agent : AgentRef} {headKey : Option String} {answers : Option RunRecord}
    {front : List Write} {threadId : String}
    (h : OnThread W R held w agent headKey answers front threadId) : Front front := by
  cases h with
  | existing _ front_eq => exact fun _ => ⟨_, by rw [front_eq]; rfl⟩
  | created _ front_eq => exact fun _ => ⟨_, by rw [front_eq]; rfl⟩
  | resumed _ front_eq => exact fun _ => ⟨_, by rw [front_eq]; rfl⟩

/-- The messages of a run are appended in order. -/
theorem view_newMessages (w : World) (rows : List MessageRow) :
    db.view w (rows.map .newMessage) = { w with messages := w.messages ++ rows } := by
  induction rows generalizing w with
  | nil => simp
  | cons row rows ih =>
      show db.view (w.apply (.newMessage row)) (rows.map .newMessage) = _
      rw [ih]
      simp [World.apply]

/-- The world with a run opened. -/
theorem Opened.view (o : Opened) {front : List Write} (hfront : Front front) (w : World) :
    db.view w (front ++ o.writes) =
      { w with
        threads := (db.view w front).threads
        runs := w.runs ++ [o.row]
        openings := w.openings ++ [o.opening]
        messages := w.messages ++ o.messages.map (messageRow o.threadId o.runId) } := by
  obtain ⟨threads, h⟩ := hfront w
  rw [Db.view_append, h]
  show db.view (World.apply _ (.newRun o.row o.opening)) (o.messages.map fun m => _) = _
  rw [show (o.messages.map fun m => Write.newMessage (messageRow o.threadId o.runId m)) =
    (o.messages.map (messageRow o.threadId o.runId)).map .newMessage by rw [List.map_map]; rfl]
  rw [view_newMessages]
  rfl

/-- A run that has just been opened is on file. -/
theorem JustOpened.opening {cfg : Config PrivateKey PublicKey} {W : World → Prop}
    {R : List Name → World → World → Prop} {call : Call} {o : Opened} {w : World}
    (h : JustOpened cfg W R call o w) : o.opening ∈ w.openings := by
  obtain ⟨held, front, w₀, -, hopens, rfl⟩ := h
  rw [o.view hopens.thread.front]
  exact List.mem_append_right _ List.mem_cons_self

end Funduq.Doors
