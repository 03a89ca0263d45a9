import Funduq.Broker.Running
import Funduq.Doors.Hall
import Funduq.Doors.Payloads
import Funduq.Kyok.Token
import Funduq.Rosters.Roster

/-!
# Completions

`KyokAdapter.complete` looks whether the run a token names is running, waits for the
database to say whether the agent is registered, and hands the completion to whoever
serves the offering the run is bound to.  What it has seen of the run it does not look at
again.

The run may have ended by then: `forget` has discarded its binding, and the completion is
refused.  It may also have been asked to stop: a cancel leaves the run where it is and its
binding with it, until its provider has done with it, and the completion is handed over
(`hand_over_rightful_iff`).
-/

namespace Funduq.Kyok

open Funduq.Lib Python Funduq.Store Funduq.Rosters
open Funduq.Broker (AgentRef RunId Connection)
open Funduq.Doors (Bindings shown short kyokCallPayload)

/-! ## `complete` -/

structure CompletionRequest where
  bearer : Str
  body : List UInt8
  timestamp : String
  signature : String

/-- What `complete` computes with what it is handed: the functions of libraries, and the
secret funduq signs tokens with. -/
structure Checks where
  digest : List UInt8 → List UInt8 → List UInt8
  floatLt : Str → ℚ → Bool
  floatTruthy : Str → Bool
  tokenSigningSecret : String
  /-- `int` of a text, `none` where it raises `ValueError`. -/
  intOf : String → Option Int
  sha256Hexdigest : List UInt8 → String
  verifySignature : String → String → String → Bool
  /-- What pydantic has to say of a body that is no chat-completion request. -/
  validationError : JsonText.Value → Option String

inductive CompletionError where
  | kyokRejected (message : String) (status : Nat)
  | python (e : PyError)
  | unicodeDecodeError
  /-- Whatever the lookup raises. -/
  | database

structure DeliveredCompletion where
  runId : String
  providerKey : String
  agentName : String
  body : JsonText.Value
  llmName : String
  context : Json
  actorChain : Option (List String)

/-- A `CompletionRelay`, with the link whose `complete` was called and the key its chunks
are counted for. -/
structure CompletionRelay where
  streamRequested : Bool
  publicKey : String
  link : Connection
  delivered : DeliveredCompletion

/-- `SIGNATURE_FRESHNESS_WINDOW_SECONDS`. -/
def signatureFreshnessWindowSeconds : ℚ := 60

def isTimestampFresh (now : ℚ) (timestamp : Int) : Bool :=
  |now - timestamp| ≤ signatureFreshnessWindowSeconds

/-- `bool(value)`. -/
def truthy (K : Checks) : JsonText.Value → Bool
  | .null => false
  | .bool b => b
  | .int n => n ≠ 0
  | .float text => K.floatTruthy text
  | .str s => !s.isEmpty
  | .list items => !items.isEmpty
  | .dict members => !members.isEmpty

/-- `bool(payload.get(key))`. -/
def truthyAt (K : Checks) (key : String) : JsonText.Value → Bool
  | .dict members => (Dict.get? members (.ofString key)).any (truthy K)
  | _ => false

/-- What a call knows that waits for the database. -/
structure Admitted where
  token : KyokToken
  runId : RunId
  timestamp : Int

section Complete

variable (K : Checks)

/-- The broker holds the run, nobody has asked to cancel it, and it is the agent's. -/
def isActive (b : Broker.State) (agent : AgentRef) (runId : RunId) : Bool :=
  b.runs.contains runId && !(b.run runId).cancelRequested && (b.run runId).agent = agent

/-- `complete`, to where `_verify_caller` waits for the agent's record. -/
def startCompletion (b : Broker.State) (request : CompletionRequest) (now : ℚ) :
    Except CompletionError Admitted :=
  match verifyKyokToken K.digest K.floatLt request.bearer K.tokenSigningSecret now with
  | .error e => .error (.python e)
  | .ok none => .error (.kyokRejected "invalid or expired KYOK token" 401)
  | .ok (some token) =>
      match token.runId.text?.filter (isActive b token.agent) with
      | none => .error (.kyokRejected "run is not currently active for this token" 403)
      | some runId =>
          if request.timestamp = "" ∨ request.signature = "" then
            .error (.kyokRejected "missing KYOK call-time signature" 401)
          else
            match K.intOf request.timestamp with
            | none => .error (.kyokRejected "malformed KYOK signature timestamp" 401)
            | some timestamp =>
                if isTimestampFresh now timestamp then .ok ⟨token, runId, timestamp⟩
                else .error (.kyokRejected "KYOK signature timestamp is stale" 401)

/-- The rest of `_verify_caller`. -/
def verifyCaller (request : CompletionRequest) (a : Admitted) (registered : Bool) :
    Except CompletionError Unit :=
  if registered then
    match request.bearer.text? with
    | none => .error (.python .unicodeEncodeError)
    | some bearer =>
        if K.verifySignature a.token.agent.providerKey request.signature
            (kyokCallPayload bearer a.timestamp (K.sha256Hexdigest request.body)) then .ok ()
        else .error (.kyokRejected "KYOK call-time signature verification failed" 401)
  else
    let shown := shown a.token.agent
    .error (.kyokRejected s!"agent '{shown}' is not registered" 403)

/-- `json.loads(body)`. -/
def readBody (body : List UInt8) : Except CompletionError JsonText.Value :=
  match decodeJson body, JsonText.loads body with
  | none, _ => .error .unicodeDecodeError
  | some _, none => .error (.kyokRejected "KYOK completion body is not valid JSON" 400)
  | some _, some payload => .ok payload

/-- `complete`, from what `_verify_caller` was told to its end. -/
def handOver (bindings : Bindings) (offerings : LiveRoster LlmRef) (request : CompletionRequest)
    (a : Admitted) (registered : Bool) : Except CompletionError CompletionRelay := do
  verifyCaller K request a registered
  let payload ← readBody request.body
  match bindings.bindingFor a.runId with
  | none => .error (.kyokRejected "run has no KYOK binding any more" 503)
  | some binding =>
      match offerings.serving binding.llmProvider with
      | none =>
          let shown := short binding.llmProvider.providerKey ++ "…/" ++ binding.llmProvider.name
          .error (.kyokRejected s!"LLM provider '{shown}' is not attached" 503)
      | some link =>
          match K.validationError payload with
          | some e =>
              .error (.kyokRejected s!"KYOK completion body is not a chat-completion request: {e}"
                400)
          | none => .ok {
              streamRequested := truthyAt K "stream" payload
              publicKey := binding.llmProvider.providerKey
              link := link
              delivered := {
                runId := a.runId
                providerKey := a.token.agent.providerKey
                agentName := a.token.agent.name
                body := payload
                llmName := binding.llmProvider.name
                context := binding.context
                actorChain := binding.actorChain } }

end Complete

/-! ## The exchange -/

/-- How far a call of `complete` has come. -/
inductive Progress where
  | lookingUp (a : Admitted)
  | lookedUp (a : Admitted) (registered : Bool)
  | relayed (relay : CompletionRelay)
  | rejected (e : CompletionError)

structure Completing where
  request : CompletionRequest
  progress : Progress

/-- The broker, the agents on file, the relay, and the calls of `complete`. -/
structure Exchange where
  broker : Broker.State
  agents : List AgentRef
  bindings : Bindings := []
  offerings : LiveRoster LlmRef := []
  calls : List Completing := []

inductive Turn where
  | call (request : CompletionRequest) (now : ℚ)
  /-- The database has looked the agent up for call `i`. -/
  | looksUp (i : Nat)
  /-- The lookup of call `i` raises. -/
  | fails (i : Nat)
  | goesOn (i : Nat)
  | bindRun (runId : RunId) (binding : KyokBinding)
  | discard (runId : RunId)
  | attach (mapping : List (LlmRef × Connection))
  | withdraw (refs : List LlmRef)
  | registerAgent (agent : AgentRef)
  | deleteAgent (agent : AgentRef)
  | broker (a : Broker.Action)

namespace Exchange

def setCall (x : Exchange) (i : Nat) (c : Completing) : Exchange :=
  { x with calls := x.calls.set i c }

/-- The broker has come to `t`; what it has forgotten is discarded. -/
def withBroker (x : Exchange) (t : Broker.State) : Exchange :=
  { x with
    broker := t
    bindings := (x.broker.runs.filter fun r => r ∉ t.runs).foldl Bindings.discard x.bindings }

def comesIn (K : Checks) (x : Exchange) (request : CompletionRequest) (now : ℚ) : Completing where
  request := request
  progress :=
    match startCompletion K x.broker request now with
    | .ok a => .lookingUp a
    | .error e => .rejected e

def goesOn (K : Checks) (x : Exchange) (c : Completing) (a : Admitted) (registered : Bool) :
    Completing where
  request := c.request
  progress :=
    match handOver K x.bindings x.offerings c.request a registered with
    | .ok relay => .relayed relay
    | .error e => .rejected e

def step (cfg : Broker.Config) (K : Checks) (x : Exchange) : Turn → Option Exchange
  | .call request now => some { x with calls := x.calls ++ [x.comesIn K request now] }
  | .looksUp i => do
      let c ← x.calls[i]?
      match c.progress with
      | .lookingUp a =>
          let found := x.agents.contains a.token.agent
          some (x.setCall i { c with progress := .lookedUp a found })
      | _ => none
  | .fails i => do
      let c ← x.calls[i]?
      match c.progress with
      | .lookingUp _ => some (x.setCall i { c with progress := .rejected .database })
      | _ => none
  | .goesOn i => do
      let c ← x.calls[i]?
      match c.progress with
      | .lookedUp a registered => some (x.setCall i (x.goesOn K c a registered))
      | _ => none
  | .bindRun runId binding => some { x with bindings := x.bindings.bindRun runId binding }
  | .discard runId => some { x with bindings := x.bindings.discard runId }
  | .attach mapping => some { x with offerings := x.offerings.attach mapping }
  | .withdraw refs => some { x with offerings := x.offerings.withdraw refs }
  | .registerAgent agent => some { x with agents := x.agents ++ [agent] }
  | .deleteAgent agent => some { x with agents := x.agents.filter fun a => a ≠ agent }
  | .broker a => (x.broker.step cfg a).map x.withBroker

end Exchange

/-- An exchange over a database that holds the runs `db`. -/
def exchange (cfg : Broker.Config) (db : RunId → Option Broker.Row) (K : Checks) :
    System Exchange Turn where
  init x := ∃ agents, x = { broker := Broker.State.init db, agents := agents }
  step := Exchange.step cfg K

/-! ## What is checked, and when -/

section Checked

variable {K : Checks} {b : Broker.State} {request : CompletionRequest} {now : ℚ} {a : Admitted}

/-- Who is admitted has a token, and its run was active at that moment. -/
theorem startCompletion_ok (h : startCompletion K b request now = .ok a) :
    verifyKyokToken K.digest K.floatLt request.bearer K.tokenSigningSecret now =
        .ok (some a.token) ∧
      a.token.runId.text? = some a.runId ∧ isActive b a.token.agent a.runId = true := by
  unfold startCompletion at h
  split at h
  · cases h
  · cases h
  · rename_i token hverify
    split at h
    · cases h
    · rename_i runId hrun
      obtain ⟨htext, hactive⟩ := Option.filter_eq_some_iff.1 hrun
      split at h
      · cases h
      · split at h
        · cases h
        · split at h
          · cases h
            exact ⟨hverify, htext, hactive⟩
          · cases h

/-- A completion that is handed over is bound to the offering whose link is used. -/
theorem handOver_ok {bindings : Bindings} {offerings : LiveRoster LlmRef} {registered : Bool}
    {relay : CompletionRelay} (h : handOver K bindings offerings request a registered = .ok relay) :
    relay.delivered.runId = a.runId ∧ ∃ binding, bindings.bindingFor a.runId = some binding ∧
      offerings.serving binding.llmProvider = some relay.link ∧
      relay.delivered.llmName = binding.llmProvider.name ∧
      relay.publicKey = binding.llmProvider.providerKey := by
  unfold handOver at h
  cases hcaller : verifyCaller K request a registered with
  | error e =>
      rw [hcaller] at h
      cases h
  | ok u =>
      cases hbody : readBody request.body with
      | error e =>
          rw [hcaller, hbody] at h
          cases h
      | ok payload =>
          simp only [hcaller, hbody, bind, Except.bind] at h
          split at h
          · cases h
          · rename_i binding hbinding
            split at h
            · cases h
            · rename_i link hlink
              split at h
              · cases h
              · cases h
                exact ⟨rfl, binding, hbinding, hlink, rfl, rfl⟩

end Checked

/-! ## What becomes of a run while a call waits -/

section Runs

variable {cfg : Broker.Config} {db : RunId → Option Broker.Row} {K : Checks} {x x' : Exchange}
  {turn : Turn} {turns : List Turn} {runId : RunId} {agent : AgentRef}

/-- A step is the broker's, or leaves it alone. -/
theorem step_broker (h : x.step cfg K turn = some x') :
    (∃ a t, turn = .broker a ∧ x.broker.step cfg a = some t ∧ x' = x.withBroker t) ∨
      x'.broker = x.broker := by
  cases turn with
  | broker a =>
      obtain ⟨t, ht, rfl⟩ := Option.map_eq_some_iff.1 h
      exact .inl ⟨a, t, rfl, ht, rfl⟩
  | looksUp i | fails i | goesOn i =>
      obtain ⟨c, -, h⟩ := Option.bind_eq_some_iff.1 h
      split at h <;> cases h
      exact .inr rfl
  | _ =>
      cases h
      exact .inr rfl

theorem broker_step (hx : Broker.Reachable cfg db x.broker) (h : x.step cfg K turn = some x') :
    Broker.Reachable cfg db x'.broker := by
  rcases step_broker h with ⟨a, t, -, ht, rfl⟩ | he
  · exact .step a hx ht
  · rw [he]
    exact hx

theorem broker_reachable (hx : (exchange cfg db K).Reachable x) :
    Broker.Reachable cfg db x.broker := by
  induction hx with
  | init h =>
      obtain ⟨agents, rfl⟩ := h
      exact .init rfl
  | step turn _ h ih => exact broker_step ih h

/-- What the broker's steps keep of a run, the exchange's keep. -/
theorem lane_step {P : Broker.Lane → Prop}
    (hP : ∀ m l l', l.Sound → P l → Broker.Lane.Step cfg runId m l l' → P l')
    (hx : Broker.Reachable cfg db x.broker) (hp : P (x.broker.lane runId))
    (h : x.step cfg K turn = some x') : P (x'.broker.lane runId) := by
  rcases step_broker h with ⟨a, t, -, ht, rfl⟩ | he
  · exact Broker.Reachable.lane_step hP hx hp ht
  · rw [he]
    exact hp

/-- The run has been enqueued, for this agent. -/
def Standing (agent : AgentRef) (l : Broker.Lane) : Prop :=
  l.home.isSome = true ∧ l.run.agent = agent

theorem Standing.step {m : Option Broker.Message} {l l' : Broker.Lane} (h : Standing agent l)
    (ht : Broker.Lane.Step cfg runId m l l') : Standing agent l' :=
  ⟨ht.home_isSome h.1, (ht.agent h.1).trans h.2⟩

/-- If the broker holds the run, it is to stop. -/
def Spoilt (l : Broker.Lane) : Prop :=
  l.home.isSome = true ∧ (l.held = true → l.run.cancelRequested = true)

theorem Spoilt.step {m : Option Broker.Message} {l l' : Broker.Lane} (h : Spoilt l)
    (ht : Broker.Lane.Step cfg runId m l l') : Spoilt l' := by
  refine ⟨ht.home_isSome h.1, fun hheld => ?_⟩
  cases hold : l.held with
  | true => exact ht.cancelRequested h.1 (h.2 hold)
  | false =>
      rw [ht.forgotten h.1 hold] at hheld
      cases hheld

/-- The broker has forgotten the run. -/
def Gone (l : Broker.Lane) : Prop := l.home.isSome = true ∧ l.held = false

theorem Gone.step {m : Option Broker.Message} {l l' : Broker.Lane} (h : Gone l)
    (ht : Broker.Lane.Step cfg runId m l l') : Gone l' :=
  ⟨ht.home_isSome h.1, ht.forgotten h.1 h.2⟩

/-- Nobody asks for the run to stop while the broker holds it, and once it has ended it is
not bound again. -/
def Untouched (runId : RunId) (x : Exchange) : Turn → Prop
  | .broker (.requestCancel r) => r = runId → r ∉ x.broker.runs
  | .bindRun r _ => r = runId → r ∈ x.broker.runs
  | _ => True

/-- The run is running, or has ended and is bound to nothing. -/
def Current (runId : RunId) (x : Exchange) : Prop :=
  runId ∈ x.broker.runs ∧ x.broker.cancelCalled runId = false ∨
    runId ∉ x.broker.runs ∧ x.bindings.bindingFor runId = none

theorem bindingFor_discards (bindings : Bindings) (rs : List RunId) (runId : RunId) :
    (rs.foldl Bindings.discard bindings).bindingFor runId =
      if runId ∈ rs then none else bindings.bindingFor runId := by
  induction rs generalizing bindings with
  | nil => simp
  | cons r rs ih =>
      rw [List.foldl_cons, ih]
      have hpop : (bindings.discard r).bindingFor runId =
          if r = runId then none else bindings.bindingFor runId := Dict.get?_pop ..
      by_cases hmem : runId ∈ rs
      · simp [hmem]
      · rw [if_neg hmem, hpop]
        by_cases hr : r = runId
        · simp [hr]
        · simp [hr, hmem, Ne.symm hr]

/-- The broker forgets a run and its binding in one breath. -/
theorem Current.broker {a : Broker.Action} {t : Broker.State}
    (hx : Broker.Reachable cfg db x.broker) (hhome : (x.broker.lane runId).home.isSome = true)
    (hc : Untouched runId x (.broker a)) (h : Current runId x) (ht : x.broker.step cfg a = some t) :
    Current runId (x.withBroker t) := by
  have hbound : (x.withBroker t).bindings.bindingFor runId =
      if runId ∈ x.broker.runs.filter fun r => r ∉ t.runs then none
      else x.bindings.bindingFor runId := bindingFor_discards ..
  rcases h with ⟨hheld, hcalled⟩ | ⟨hnot, hnone⟩
  · have hne : a ≠ .requestCancel runId := by
      rintro rfl
      exact hc rfl hheld
    by_cases hheld' : runId ∈ t.runs
    · exact .inl ⟨hheld', (hx.cancelCalled_step hne ht).trans hcalled⟩
    · refine .inr ⟨hheld', ?_⟩
      rw [hbound, if_pos (List.mem_filter.2 ⟨hheld, decide_eq_true hheld'⟩)]
  · have hgone : Gone (x.broker.lane runId) := ⟨hhome, decide_eq_false hnot⟩
    have hgone' : Gone (t.lane runId) :=
      hx.lane_step (fun _ _ _ _ hp hs => hp.step hs) hgone ht
    refine .inr ⟨of_decide_eq_false hgone'.2, ?_⟩
    rw [hbound, hnone]
    split <;> rfl

/-- **Step lemma.**  A run nobody touches stays as it was seen, or takes its binding along
when it ends. -/
theorem Current.step (hx : Broker.Reachable cfg db x.broker)
    (hhome : (x.broker.lane runId).home.isSome = true) (hc : Untouched runId x turn)
    (h : Current runId x) (hstep : x.step cfg K turn = some x') : Current runId x' := by
  cases turn with
  | broker a =>
      obtain ⟨t, ht, rfl⟩ := Option.map_eq_some_iff.1 hstep
      exact h.broker hx hhome hc ht
  | bindRun r binding =>
      cases hstep
      have hset : (x.bindings.bindRun r binding).bindingFor runId =
          if r = runId then some binding else x.bindings.bindingFor runId := Dict.get?_set ..
      rcases h with hheld | ⟨hnot, hnone⟩
      · exact .inl hheld
      · refine .inr ⟨hnot, ?_⟩
        have hne : r ≠ runId := by
          rintro rfl
          exact hnot (hc rfl)
        rw [hset, if_neg hne]
        exact hnone
  | discard r =>
      cases hstep
      have hpop : (x.bindings.discard r).bindingFor runId =
          if r = runId then none else x.bindings.bindingFor runId := Dict.get?_pop ..
      refine h.imp_right fun hgone => ⟨hgone.1, ?_⟩
      rw [hpop, hgone.2]
      split <;> rfl
  | looksUp i | fails i | goesOn i =>
      obtain ⟨c, -, hstep⟩ := Option.bind_eq_some_iff.1 hstep
      split at hstep <;> cases hstep
      exact h
  | _ =>
      cases hstep
      exact h

/-- A run that is touched is to stop, or is forgotten. -/
theorem spoilt_of_touched (hx : Broker.Reachable cfg db x.broker)
    (hhome : (x.broker.lane runId).home.isSome = true) (hc : ¬ Untouched runId x turn)
    (hstep : x.step cfg K turn = some x') : Spoilt (x'.broker.lane runId) := by
  cases turn with
  | bindRun r binding =>
      cases hstep
      obtain ⟨rfl, hnot⟩ := Classical.not_imp.1 hc
      exact ⟨hhome, fun hheld => absurd (of_decide_eq_true hheld) hnot⟩
  | broker a =>
      obtain ⟨t, ht, rfl⟩ := Option.map_eq_some_iff.1 hstep
      cases a with
      | requestCancel r =>
          obtain ⟨rfl, hheld⟩ := Classical.not_imp.1 hc
          have hcalled : t.cancelCalled r = true := by
            cases ht
            exact hx.cancelCalled_requestCancel (not_not.1 hheld)
          have ht' : Broker.Reachable cfg db t :=
            .step (.requestCancel r) hx ht
          obtain ⟨hhome', hflag⟩ := Broker.reachable_flagged ht' r hcalled
          exact ⟨hhome', fun _ => hflag⟩
      | _ => exact absurd trivial hc
  | _ => exact absurd trivial hc

/-! ## What becomes of a call -/

/-- What a call was admitted with, while it is not over. -/
def Progress.admitted? : Progress → Option Admitted
  | .lookingUp a => some a
  | .lookedUp a _ => some a
  | _ => none

/-- Call `i` is of this request, and what it was admitted with was `a`. -/
def Tracks (i : Nat) (request : CompletionRequest) (a : Option Admitted) (x : Exchange) : Prop :=
  ∃ c, x.calls[i]? = some c ∧ c.request = request ∧
    ∀ b, c.progress.admitted? = some b → a = some b

theorem Tracks.set {i j : Nat} {request : CompletionRequest} {a : Option Admitted}
    {c c' : Completing} (h : Tracks i request a x) (hj : x.calls[j]? = some c)
    (hrequest : c'.request = c.request)
    (hp : ∀ b, c'.progress.admitted? = some b → c.progress.admitted? = some b) :
    Tracks i request a (x.setCall j c') := by
  obtain ⟨d, hd, hreq, had⟩ := h
  have hget : (x.setCall j c').calls[i]? = if j = i then some c' else x.calls[i]? := by
    show (x.calls.set j c')[i]? = _
    rw [List.getElem?_set]
    split
    · rename_i hji
      rw [if_pos (List.getElem?_eq_some_iff.1 hj).1]
    · rfl
  by_cases hji : j = i
  · subst hji
    cases hd.symm.trans hj
    exact ⟨c', by rw [hget, if_pos rfl], hrequest.trans hreq, fun b hb => had b (hp b hb)⟩
  · exact ⟨d, by rw [hget, if_neg hji, hd], hreq, had⟩

theorem Tracks.step {i : Nat} {request : CompletionRequest} {a : Option Admitted}
    (h : Tracks i request a x) (hstep : x.step cfg K turn = some x') : Tracks i request a x' := by
  cases turn with
  | call request' now =>
      cases hstep
      obtain ⟨c, hc, hrest⟩ := h
      exact ⟨c, by rw [List.getElem?_append_left (List.getElem?_eq_some_iff.1 hc).1, hc], hrest⟩
  | looksUp j =>
      obtain ⟨c, hc, hstep⟩ := Option.bind_eq_some_iff.1 hstep
      split at hstep <;> cases hstep
      rename_i b hb
      exact h.set hc rfl fun _ he => by rw [hb]; exact he
  | fails j =>
      obtain ⟨c, hc, hstep⟩ := Option.bind_eq_some_iff.1 hstep
      split at hstep <;> cases hstep
      exact h.set hc rfl nofun
  | goesOn j =>
      obtain ⟨c, hc, hstep⟩ := Option.bind_eq_some_iff.1 hstep
      split at hstep <;> cases hstep
      refine h.set hc rfl fun b hb => ?_
      unfold Exchange.goesOn at hb
      dsimp only at hb
      split at hb <;> cases hb
  | broker b =>
      obtain ⟨t, -, rfl⟩ := Option.map_eq_some_iff.1 hstep
      exact h
  | _ =>
      cases hstep
      exact h

theorem Tracks.exec {i : Nat} {request : CompletionRequest} {a : Option Admitted}
    (h : Tracks i request a x) (hexec : (exchange cfg db K).exec x turns = some x') :
    Tracks i request a x' := by
  induction turns generalizing x with
  | nil =>
      cases hexec
      exact h
  | cons turn turns ih =>
      obtain ⟨x₁, hstep, hrest⟩ := Option.bind_eq_some_iff.1 hexec
      exact ih (h.step hstep) hrest

/-- **Run lemma.**  A run keeps its agent; untouched it stays as it was seen, and touched
it is spoilt. -/
theorem kept_exec (hx : Broker.Reachable cfg db x.broker)
    (hstanding : Standing agent (x.broker.lane runId))
    (h : (exchange cfg db K).exec x turns = some x') :
    Broker.Reachable cfg db x'.broker ∧ Standing agent (x'.broker.lane runId) ∧
      ((exchange cfg db K).Along (Untouched runId) x turns → Current runId x →
        Current runId x') ∧
      (¬ (exchange cfg db K).Along (Untouched runId) x turns ∨ Spoilt (x.broker.lane runId) →
        Spoilt (x'.broker.lane runId)) := by
  induction turns generalizing x with
  | nil =>
      cases h
      exact ⟨hx, hstanding, fun _ hc => hc, fun hs => hs.resolve_left (not_not.2 trivial)⟩
  | cons turn turns ih =>
      obtain ⟨x₁, hstep, hrest⟩ := Option.bind_eq_some_iff.1 h
      have hx₁ := broker_step hx hstep
      have hstanding₁ : Standing agent (x₁.broker.lane runId) :=
        lane_step (P := Standing agent) (fun _ _ _ _ hp ht => hp.step ht) hx hstanding hstep
      obtain ⟨hx', hstanding', hcurrent, hspoilt⟩ := ih hx₁ hstanding₁ hrest
      refine ⟨hx', hstanding', fun halong hc => ?_, fun hs => hspoilt ?_⟩
      · obtain ⟨huntouched, halong⟩ := (System.along_cons hstep).1 halong
        exact hcurrent halong (hc.step hx hstanding.1 huntouched hstep)
      · by_cases huntouched : Untouched runId x turn
        · rcases hs with hn | hs
          · exact .inl fun halong => hn ((System.along_cons hstep).2 ⟨huntouched, halong⟩)
          · exact .inr (lane_step (P := Spoilt) (fun _ _ _ _ hp ht => hp.step ht) hx hs hstep)
        · exact .inr (spoilt_of_touched hx hstanding.1 huntouched hstep)

/-! ## At the hand-over -/

/-- What should be so when a completion is handed over: the run the token names is held by
the broker, nobody has asked to cancel it, it is the token's agent's, and it is bound to
the offering whose link is used. -/
structure Rightful (x : Exchange) (token : KyokToken) (relay : CompletionRelay) : Prop where
  named : token.runId.text? = some relay.delivered.runId
  held : relay.delivered.runId ∈ x.broker.runs
  running : (x.broker.run relay.delivered.runId).cancelRequested = false
  agent : (x.broker.run relay.delivered.runId).agent = token.agent
  bound : ∃ binding, x.bindings.bindingFor relay.delivered.runId = some binding ∧
    x.offerings.serving binding.llmProvider = some relay.link ∧
    relay.delivered.llmName = binding.llmProvider.name ∧
    relay.publicKey = binding.llmProvider.providerKey

/-- A call that goes on to hand its completion over has done so with what it was admitted
with, and has changed nothing else. -/
theorem goesOn_relayed {i : Nat} {request : CompletionRequest} {a : Option Admitted}
    {relay : CompletionRelay} {c : Completing} (htracks : Tracks i request a x)
    (hstep : x.step cfg K (.goesOn i) = some x') (hc : x'.calls[i]? = some c)
    (hrelayed : c.progress = .relayed relay) :
    ∃ b registered, a = some b ∧
      handOver K x.bindings x.offerings request b registered = .ok relay ∧
      x'.broker = x.broker ∧ x'.bindings = x.bindings ∧ x'.offerings = x.offerings := by
  obtain ⟨d, hd, hrequest, hadmitted⟩ := htracks
  obtain ⟨d', hd', hstep⟩ := Option.bind_eq_some_iff.1 hstep
  cases hd.symm.trans hd'
  split at hstep <;> cases hstep
  rename_i b registered hprogress
  have hb : a = some b := hadmitted b (by rw [hprogress]; rfl)
  refine ⟨b, registered, hb, ?_, rfl, rfl, rfl⟩
  have hget : (x.setCall i (x.goesOn K d b registered)).calls[i]? =
      some (x.goesOn K d b registered) :=
    List.getElem?_set_self (List.getElem?_eq_some_iff.1 hd).1
  cases hget.symm.trans hc
  unfold Exchange.goesOn at hrelayed
  dsimp only at hrelayed
  rw [hrequest] at hrelayed
  split at hrelayed <;> cases hrelayed
  assumption

/-- A call that comes in knows no more than what it is admitted with. -/
theorem tracks_comesIn (x : Exchange) (request : CompletionRequest) (now : ℚ) :
    Tracks x.calls.length request (startCompletion K x.broker request now).toOption
      { x with calls := x.calls ++ [x.comesIn K request now] } := by
  refine ⟨x.comesIn K request now, List.getElem?_concat_length .., rfl, fun b hb => ?_⟩
  unfold Exchange.comesIn at hb
  dsimp only at hb
  split at hb
  · rename_i a hstarted
    rw [hstarted]
    exact hb
  · cases hb

/-- A run that is active is enqueued for its agent, and nobody has called for it to stop. -/
theorem active_current (hx : Broker.Reachable cfg db x.broker)
    (h : isActive x.broker agent runId = true) :
    Standing agent (x.broker.lane runId) ∧ runId ∈ x.broker.runs ∧
      x.broker.cancelCalled runId = false := by
  simp only [isActive, Bool.and_eq_true, List.contains_eq_mem, decide_eq_true_eq,
    Bool.not_eq_true'] at h
  obtain ⟨⟨hheld, hflag⟩, hagent⟩ := h
  have hhome : (x.broker.lane runId).home.isSome = true :=
    ((Broker.reachable_sound hx).2 runId).home (decide_eq_true hheld)
  refine ⟨⟨hhome, hagent⟩, hheld, ?_⟩
  by_contra hcalled
  have hasked := (Broker.reachable_flagged hx runId (Bool.eq_true_of_not_eq_false hcalled)).2
  cases hflag.symm.trans hasked

/-- **A stopped run spends no more of the caller's key** if and only if nobody touches the
run between the look at it and the hand-over. -/
theorem hand_over_rightful_iff {x₀ x₁ x₂ x₃ : Exchange} {request : CompletionRequest} {now : ℚ}
    {relay : CompletionRelay} {c : Completing} (hx₀ : (exchange cfg db K).Reachable x₀)
    (hcall : x₀.step cfg K (.call request now) = some x₁)
    (hexec : (exchange cfg db K).exec x₁ turns = some x₂)
    (hgoes : x₂.step cfg K (.goesOn x₀.calls.length) = some x₃)
    (hc : x₃.calls[x₀.calls.length]? = some c) (hrelayed : c.progress = .relayed relay) :
    ∃ token, verifyKyokToken K.digest K.floatLt request.bearer K.tokenSigningSecret now =
        .ok (some token) ∧
      (Rightful x₃ token relay ↔
        (exchange cfg db K).Along (Untouched relay.delivered.runId) x₁ turns) := by
  have hb₀ := broker_reachable hx₀
  cases hcall
  have htracks := (tracks_comesIn (K := K) x₀ request now).exec hexec
  obtain ⟨a, registered, hstarted, hover, hbroker, hbindings, hofferings⟩ :=
    goesOn_relayed htracks hgoes hc hrelayed
  have hok : startCompletion K x₀.broker request now = .ok a := by
    cases hres : startCompletion K x₀.broker request now with
    | error e =>
        rw [hres] at hstarted
        cases hstarted
    | ok a' =>
        rw [hres] at hstarted
        cases hstarted
        rfl
  obtain ⟨hverify, hnamed, hactive⟩ := startCompletion_ok hok
  obtain ⟨hrun, binding, hbinding, hrest⟩ := handOver_ok hover
  obtain ⟨hstanding, hseen⟩ := active_current hb₀ hactive
  obtain ⟨hb₂, hstanding₂, hcurrent, hspoilt⟩ := kept_exec
    (x := { x₀ with calls := x₀.calls ++ [x₀.comesIn K request now] }) hb₀ hstanding hexec
  refine ⟨a.token, hverify, ?_⟩
  rw [hrun]
  constructor
  · intro hrightful
    by_contra hnot
    have hheld := hrightful.held
    have hrunning := hrightful.running
    rw [hrun, hbroker] at hheld hrunning
    have hstop := (hspoilt (.inl hnot)).2 (decide_eq_true hheld)
    cases hrunning.symm.trans hstop
  · intro halong
    rcases hcurrent halong (.inl hseen) with ⟨hheld, hcalled⟩ | ⟨-, hnone⟩
    · refine ⟨hrun ▸ hnamed, ?_, ?_, ?_, binding, ?_⟩
      · rw [hrun, hbroker]
        exact hheld
      · rw [hrun, hbroker]
        by_contra hflag
        have hasked := (Broker.reachable_uncalled hb₂ a.runId).flag
          (Bool.eq_true_of_not_eq_false hflag)
        cases hcalled.symm.trans hasked
      · rw [hrun, hbroker]
        exact hstanding₂.2
      · rw [hrun, hbindings, hofferings]
        exact ⟨hbinding, hrest⟩
    · cases hnone.symm.trans hbinding

end Runs

namespace Demo

open Broker.Demo (config agent claimed)

/-- An offering, and the link that serves it. -/
def offering : LlmRef := ⟨"llm", "model"⟩

def llmLink : Connection := ⟨7, "llm", none⟩

def checks : Checks where
  digest := digest
  floatLt := floatLt
  floatTruthy := fun _ => false
  tokenSigningSecret := "secret"
  intOf := fun text => if text = "0" then some 0 else none
  sha256Hexdigest := fun _ => ""
  verifySignature := fun _ _ _ => true
  validationError := fun _ => none

/-- A completion the agent asks for in the run `r`; its body is an empty object. -/
def request : CompletionRequest where
  bearer := issueKyokToken digest "r" agent "secret" 0
  body := [0x7b, 0x7d]
  timestamp := "0"
  signature := "signed"

/-- A run is bound to the offering, offered, and taken. -/
def bound : List Turn :=
  [.attach [(offering, llmLink)], .bindRun "r" ⟨offering, .null, none⟩] ++ claimed.map .broker

def exchangeAfter (turns : List Turn) : Exchange :=
  (exchange config (fun _ => none) checks).runFrom
    { broker := Broker.State.init fun _ => none, agents := [agent] } turns

theorem exchangeAfter_reachable (turns : List Turn) :
    (exchange config (fun _ => none) checks).Reachable (exchangeAfter turns) := by
  have hstart : (exchange config (fun _ => none) checks).init
      { broker := Broker.State.init fun _ => none, agents := [agent] } := ⟨[agent], rfl⟩
  exact System.Reachable.runFrom (.init hstart) turns

/-- The completion is asked for. -/
def asked : Exchange :=
  let x := exchangeAfter bound
  { x with calls := x.calls ++ [x.comesIn checks request 0] }

/-- The exchange once the call has waited through `turns`, and once it has gone on. -/
def waited (turns : List Turn) : Exchange :=
  (exchange config (fun _ => none) checks).runFrom asked turns

def handedOver (turns : List Turn) : Exchange :=
  (exchange config (fun _ => none) checks).runFrom (waited turns) [.goesOn 0]

/-- Nothing happens but the lookup, or a cancel comes in while it is under way. -/
def undisturbed : List Turn := [.looksUp 0]

def stopped : List Turn := [.looksUp 0, .broker (.requestCancel "r")]

/-- What was handed over for call `i`. -/
def relayedBy (x : Exchange) (i : Nat) : Option CompletionRelay :=
  (x.calls[i]?).bind fun c =>
    match c.progress with
    | .relayed relay => some relay
    | _ => none

/-- The run `r` and its completion, handed over. -/
def handsOver (turns : List Turn) : Bool :=
  ((exchange config (fun _ => none) checks).exec asked turns).isSome &&
    ((exchange config (fun _ => none) checks).exec (waited turns) [.goesOn 0]).isSome &&
    (relayedBy (handedOver turns) 0).any fun relay => relay.delivered.runId = "r"

/-- The states on the way to the hand-over. -/
theorem hand_over_of_handsOver {turns : List Turn} (h : handsOver turns = true) :
    ∃ relay c, relay.delivered.runId = "r" ∧
      (exchange config (fun _ => none) checks).exec asked turns = some (waited turns) ∧
      (waited turns).step config checks (.goesOn (exchangeAfter bound).calls.length) =
        some (handedOver turns) ∧
      (handedOver turns).calls[(exchangeAfter bound).calls.length]? = some c ∧
      c.progress = .relayed relay := by
  simp only [handsOver, Bool.and_eq_true, Option.any_eq_true, decide_eq_true_eq] at h
  obtain ⟨⟨hexec, hgoes⟩, relay, hrelay, hrun⟩ := h
  have hlength : (exchangeAfter bound).calls.length = 0 := by decide +kernel
  rw [hlength]
  obtain ⟨c, hc, hprogress⟩ := Option.bind_eq_some_iff.1 hrelay
  split at hprogress <;> cases hprogress
  refine ⟨relay, c, hrun, System.exec_runFrom hexec, ?_, hc, by assumption⟩
  obtain ⟨x, hx, hnil⟩ := Option.bind_eq_some_iff.1 (System.exec_runFrom hgoes)
  cases hnil
  exact hx

end Demo

/-- Nobody touches the run, and its completion is handed over as it should be. -/
theorem hand_over_rightful_iff_undisturbed :
    ∃ relay token, relay.delivered.runId = "r" ∧
      verifyKyokToken Demo.digest Demo.floatLt Demo.request.bearer "secret" 0 = .ok (some token) ∧
      Rightful (Demo.handedOver Demo.undisturbed) token relay := by
  have hhands : Demo.handsOver Demo.undisturbed = true := by decide +kernel
  obtain ⟨relay, c, hrun, hexec, hgoes, hc, hrelayed⟩ := Demo.hand_over_of_handsOver hhands
  obtain ⟨token, hverify, hiff⟩ := hand_over_rightful_iff
    (Demo.exchangeAfter_reachable Demo.bound) rfl hexec hgoes hc hrelayed
  exact ⟨relay, token, hrun, hverify, hiff.2 ⟨trivial, fun _ _ => trivial⟩⟩

/-- The run is asked to stop while the agent is looked up: its completion is handed over,
the flag set. -/
theorem stopped_run_spends :
    (exchange Broker.Demo.config (fun _ => none) Demo.checks).Reachable
        (Demo.handedOver Demo.stopped) ∧
      (∃ relay c, relay.delivered.runId = "r" ∧
        (Demo.handedOver Demo.stopped).calls[0]? = some c ∧ c.progress = .relayed relay) ∧
      "r" ∈ (Demo.waited Demo.stopped).broker.runs ∧
      ((Demo.waited Demo.stopped).broker.run "r").cancelRequested = true ∧
      ∀ token relay, relay.delivered.runId = "r" →
        ¬ Rightful (Demo.handedOver Demo.stopped) token relay := by
  have hhands : Demo.handsOver Demo.stopped = true := by decide +kernel
  have hflag : ((Demo.handedOver Demo.stopped).broker.run "r").cancelRequested = true := by
    decide +kernel
  have hlength : (Demo.exchangeAfter Demo.bound).calls.length = 0 := by decide +kernel
  obtain ⟨relay, c, hrun, -, -, hc, hrelayed⟩ := Demo.hand_over_of_handsOver hhands
  rw [hlength] at hc
  have hasked : (exchange Broker.Demo.config (fun _ => none) Demo.checks).Reachable Demo.asked :=
    .step (.call Demo.request 0) (Demo.exchangeAfter_reachable Demo.bound) rfl
  refine ⟨(hasked.runFrom _).runFrom _, ⟨relay, c, hrun, hc, hrelayed⟩, by decide +kernel,
    by decide +kernel, fun token relay hrun hrightful => ?_⟩
  have hrunning := hrightful.running
  rw [hrun] at hrunning
  cases hrunning.symm.trans hflag

end Funduq.Kyok
