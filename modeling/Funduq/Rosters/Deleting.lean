import Funduq.Doors.Entry
import Funduq.Rosters.Node

/-!
# Deleting an agent while the doors are open

`delete_agent` asks the database three questions, takes the agent out of service and
deletes its record, and waits for the database between any two of these.  A question is
answered at one moment and the call goes on with the answer at another; the doors stay
open in between and may commit the agent's first thread, and its first run.

What `take_offline` has done is not undone when the database then refuses the deletion.
So a delete that fails is without effect as long as it fails by what it was told
(`failed_delete_left_alone_iff`), and takes the agent out of service, and fails the runs
of it somebody holds, when it is refused after that.
-/

namespace Funduq.Rosters

open Funduq.Lib
open Funduq.Broker (Key Connection AgentRef RunId ThreadId HandlerId)
open Funduq.Doors (shown)

/-! ## The records -/

/-- What the tables say of agents. -/
structure Records where
  agents : List AgentRef
  threads : List (ThreadId × AgentRef)
  runs : List (RunId × AgentRef)

namespace Records

variable (d : Records) (agent : AgentRef)

/-- `count_threads_for_agent`. -/
def countThreads : Nat := d.threads.countP fun e => e.2 = agent

/-- `count_runs_for_agent`. -/
def countRuns : Nat := d.runs.countP fun e => e.2 = agent

/-- A foreign key refers to the agent's record. -/
def referenced : Bool := d.countThreads agent ≠ 0 || d.countRuns agent ≠ 0

/-- `repo.delete_agent`. -/
def deleteAgent : Records := { d with agents := d.agents.filter fun a => a ≠ agent }

end Records

/-! ## The call -/

inductive DeleteError where
  | invalidRegistration (message : String)
  | agentNotFound (message : String)
  | agentInUse (message : String) (reason : String)
  /-- Whatever a statement raises. -/
  | database

/-- How far a call of `delete_agent` has come. -/
inductive Progress where
  | called
  | reading
  | read (found : Bool)
  | countingThreads
  | threadsCounted (count : Nat)
  | countingRuns
  | runsCounted (count : Nat)
  | deleting
  | committing
  | returned
  | raised (e : DeleteError)

namespace Progress

/-- The call waits for the database. -/
def waits : Progress → Bool
  | reading | countingThreads | countingRuns | deleting | committing => true
  | _ => false

/-- The call is past what it was told, and has not failed. -/
def decided : Progress → Bool
  | deleting | committing | returned => true
  | _ => false

def hasRaised : Progress → Bool
  | raised _ => true
  | _ => false

/-- There is nothing left of the call. -/
def isDone : Progress → Bool
  | returned | raised _ => true
  | _ => false

end Progress

/-- A call of `delete_agent`. -/
structure Deletion where
  connection : Connection
  name : String
  progress : Progress := .called
  /-- Only observed: the connection served the agent when the call took it offline. -/
  wasServing : Bool := false

/-- The agent the call is to delete. -/
def Deletion.agent (c : Deletion) : AgentRef := ⟨c.connection.publicKey, c.name⟩

/-! ## The office -/

/-- The agents' roster, their records, and a deletion. -/
structure Office where
  agents : Roster Broker.State
  records : Records
  call : Deletion

inductive Act where
  /-- The call goes on, to where it waits for the database next. -/
  | goesOn
  /-- The database has done what the call waits for. -/
  | answers
  /-- What the call waits for raises. -/
  | refuses
  /-- A door commits a thread. -/
  | commitThread (threadId : ThreadId) (agent : AgentRef)
  /-- A door commits a run. -/
  | commitRun (runId : RunId) (threadId : ThreadId) (agent : AgentRef)
  /-- The broker's own affairs, and what the doors ask of it. -/
  | broker (a : Broker.Action)

namespace Office

def serving (o : Office) (agent : AgentRef) : Option Connection := o.agents.table.servingOf agent

def withTable (o : Office) (t : Broker.State) : Office :=
  { o with agents := { o.agents with table := t } }

def comesTo (o : Office) (p : Progress) : Office :=
  { o with call := { o.call with progress := p } }

/-- The row of the agent is deleted and not yet committed: who refers to it waits. -/
def locked (o : Office) (agent : AgentRef) : Bool :=
  match o.call.progress with
  | .committing => o.call.agent = agent
  | _ => false

/-- A row may refer to the agent. -/
def admits (o : Office) (agent : AgentRef) : Bool :=
  o.records.agents.contains agent && !o.locked agent

/-- `take_offline`, and on to the deletion. -/
def takesOffline (o : Office) : Office where
  agents := { o.agents with
    table := Roster.takeOffline agentRoster o.agents.table o.call.connection o.call.name }
  records := o.records
  call := { o.call with
    progress := .deleting
    wasServing := Roster.serves agentRoster o.agents.table o.call.connection o.call.agent }

/-- `delete_agent`, from where it was to where it waits for the database next. -/
def goOn (o : Office) : Option Office :=
  let shown := shown o.call.agent
  match o.call.progress with
  | .called =>
      if o.agents.requireOpen o.call.connection then some (o.comesTo .reading)
      else
        let key := o.call.connection.publicKey
        some (o.comesTo (.raised (.invalidRegistration (s!"provider '{key}' is not on an open link — "
          ++ "open one with a ticket first; registering and deleting happen on it"))))
  | .read found =>
      if found then some (o.comesTo .countingThreads)
      else some (o.comesTo (.raised (.agentNotFound s!"agent '{shown}' is not registered")))
  | .threadsCounted count =>
      if count = 0 then some (o.comesTo .countingRuns) else some (o.comesTo (.raised (inUse shown)))
  | .runsCounted count =>
      if count = 0 then some o.takesOffline
      else some (o.comesTo (.raised (inUse shown)))
  | _ => none
where
  inUse (shown : String) : DeleteError :=
    .agentInUse (s!"agent '{shown}' has a conversation behind it and cannot be removed — "
      ++ "stop offering it instead, and it goes offline and off the roster with "
      ++ "its record intact") "has_history"

/-- The statement the call waits for, done.  A deletion is not done while a foreign key
refers to the row. -/
def answer (o : Office) : Option Office :=
  let agent := o.call.agent
  match o.call.progress with
  | .reading => some (o.comesTo (.read (o.records.agents.contains agent)))
  | .countingThreads => some (o.comesTo (.threadsCounted (o.records.countThreads agent)))
  | .countingRuns => some (o.comesTo (.runsCounted (o.records.countRuns agent)))
  | .deleting => if o.records.referenced agent then none else some (o.comesTo .committing)
  | .committing => some { o.comesTo .returned with records := o.records.deleteAgent agent }
  | _ => none

/-- The broker takes no run the database does not hold, and leaves its roster and the
opening of rows to others. -/
def lets (o : Office) : Broker.Action → Bool
  | .openRow _ => false
  | .enqueueRun e => o.records.runs.contains (e.runId, e.agent)
  | a => !ofRoster a

def step (cfg : Broker.Config) (o : Office) : Act → Option Office
  | .goesOn => o.goOn
  | .answers => o.answer
  | .refuses => if o.call.progress.waits then some (o.comesTo (.raised .database)) else none
  | .commitThread threadId agent =>
      if o.admits agent && (o.records.threads.map Prod.fst).all (· ≠ threadId) then
        some { o with
          records := { o.records with threads := o.records.threads ++ [(threadId, agent)] } }
      else none
  | .commitRun runId threadId agent =>
      if o.admits agent && o.records.threads.contains (threadId, agent) then
        (o.agents.table.step cfg (.openRow runId)).map fun t =>
          { o.withTable t with
            records := { o.records with runs := o.records.runs ++ [(runId, agent)] } }
      else none
  | .broker a =>
      if o.lets a then (o.agents.table.step cfg a).map o.withTable else none

end Office

/-- A deletion that is called on a node at work, whatever the tables hold. -/
def office (cfg : Broker.Config) (db : RunId → Option Broker.Row) : System Office Act where
  init o := o.call.progress = .called ∧ o.call.wasServing = false ∧
    ∃ n, (node cfg db).Reachable n ∧ o.agents = n.agents
  step := Office.step cfg

/-! ## What a step does -/

/-- A step of the call's own. -/
def Act.own : Act → Bool
  | .goesOn | .answers | .refuses => true
  | _ => false

namespace Office

variable {cfg : Broker.Config} {db : RunId → Option Broker.Row} {o o' : Office} {e : Act}

/-- What a step makes of an office. -/
inductive Stepped (cfg : Broker.Config) (o : Office) : Act → Office → Prop where
  /-- The call goes on, or raises. -/
  | moved {e : Act} {p : Progress} (hown : e.own = true) (hover : o.call.progress.isDone = false)
      (hp : o.call.progress.decided = true →
        p.decided = true ∨ e = .refuses ∧ p.hasRaised = true) :
      Stepped cfg o e (o.comesTo p)
  | withdrew (hat : o.call.progress = .runsCounted 0) : Stepped cfg o .goesOn o.takesOffline
  | deleted (hat : o.call.progress = .committing) :
      Stepped cfg o .answers
        { o.comesTo .returned with records := o.records.deleteAgent o.call.agent }
  | beside {e : Act} {t : Broker.State} {d : Records} (hown : e.own = false)
      (hd : d.agents = o.records.agents)
      (ht : t = o.agents.table ∨ ∃ a, ofRoster a = false ∧ o.agents.table.step cfg a = some t) :
      Stepped cfg o e { o.withTable t with records := d }

theorem goOn_stepped (h : o.goOn = some o') : Stepped cfg o .goesOn o' := by
  unfold goOn at h
  cases hat : o.call.progress with
  | called =>
      simp only [hat] at h
      split at h <;> cases h <;> exact .moved rfl (by rw [hat]; rfl) (by rw [hat]; nofun)
  | read found =>
      simp only [hat] at h
      split at h <;> cases h <;> exact .moved rfl (by rw [hat]; rfl) (by rw [hat]; nofun)
  | threadsCounted count =>
      simp only [hat] at h
      split at h <;> cases h <;> exact .moved rfl (by rw [hat]; rfl) (by rw [hat]; nofun)
  | runsCounted count =>
      simp only [hat] at h
      split at h
      · rename_i hzero
        cases h
        exact .withdrew (hzero ▸ hat)
      · cases h
        exact .moved rfl (by rw [hat]; rfl) (by rw [hat]; nofun)
  | _ =>
      simp only [hat] at h
      cases h

theorem answer_stepped (h : o.answer = some o') : Stepped cfg o .answers o' := by
  unfold answer at h
  cases hat : o.call.progress with
  | deleting =>
      simp only [hat] at h
      split at h
      · cases h
      · cases h
        exact .moved rfl (by rw [hat]; rfl) fun _ => .inl rfl
  | committing =>
      simp only [hat] at h
      cases h
      exact .deleted hat
  | reading | countingThreads | countingRuns =>
      simp only [hat] at h
      cases h
      exact .moved rfl (by rw [hat]; rfl) (by rw [hat]; nofun)
  | _ =>
      simp only [hat] at h
      cases h

theorem step_stepped (h : o.step cfg e = some o') : Stepped cfg o e o' := by
  cases e with
  | goesOn => exact goOn_stepped h
  | answers => exact answer_stepped h
  | refuses =>
      simp only [step] at h
      split at h
      · rename_i hwaits
        cases h
        refine .moved rfl ?_ fun _ => .inr ⟨rfl, rfl⟩
        cases hat : o.call.progress <;> simp_all [Progress.waits, Progress.isDone]
      · cases h
  | commitThread threadId agent =>
      simp only [step] at h
      split at h
      · cases h
        exact .beside rfl rfl (.inl rfl)
      · cases h
  | commitRun runId threadId agent =>
      simp only [step] at h
      split at h
      · obtain ⟨t, ht, rfl⟩ := Option.map_eq_some_iff.1 h
        exact .beside rfl rfl (.inr ⟨_, rfl, ht⟩)
      · cases h
  | broker a =>
      simp only [step] at h
      split at h
      · rename_i hlets
        obtain ⟨t, ht, rfl⟩ := Option.map_eq_some_iff.1 h
        have ha : ofRoster a = false := by
          cases a <;> simp_all [lets, ofRoster]
        exact .beside rfl rfl (.inr ⟨a, ha, ht⟩)
      · cases h

/-- The broker of the office is a broker like any other. -/
theorem broker_stepped (ht : Broker.Reachable cfg db o.agents.table) (h : Stepped cfg o e o') :
    Broker.Reachable cfg db o'.agents.table := by
  cases h with
  | moved _ _ _ => exact ht
  | deleted _ => exact ht
  | withdrew _ =>
      have hany : ∀ (t : Broker.State) (a : Broker.Action), ofRoster a = true → True :=
        fun _ _ _ => trivial
      exact System.Reachable.runs ht
        (runs_proceed hany o.agents.table (.deleting o.call.connection o.call.name))
  | beside _ _ hb =>
      rcases hb with rfl | ⟨a, -, ha⟩
      · exact ht
      · exact .step a ht ha

/-- The calls remain what they are of. -/
theorem agent_stepped (h : Stepped cfg o e o') : o'.call.agent = o.call.agent := by
  cases h <;> rfl

/-! ## What the call has done -/

/-- What has taken the agent offline is past what it was told. -/
def Settled (o : Office) : Prop :=
  o.call.wasServing = true →
    o.call.progress.decided = true ∨ o.call.progress.hasRaised = true

theorem settled_stepped (ho : o.Settled) (h : Stepped cfg o e o') : o'.Settled := by
  intro hw
  cases h with
  | moved _ hover hp =>
      rcases ho hw with hd | hr
      · exact (hp hd).imp_right And.right
      · revert hover hr
        cases o.call.progress <;> simp [Progress.isDone, Progress.hasRaised]
  | withdrew _ => exact .inl rfl
  | deleted _ => exact .inl rfl
  | beside _ _ _ => exact ho hw

/-- What was taken offline stays on record. -/
theorem wasServing_stepped (ho : o.Settled) (h : Stepped cfg o e o')
    (hw : o.call.wasServing = true) : o'.call.wasServing = true := by
  cases h with
  | withdrew hat =>
      have hnot := ho hw
      rw [hat] at hnot
      simp [Progress.decided, Progress.hasRaised] at hnot
  | _ => exact hw

/-- A call that has returned has returned. -/
theorem returned_stepped (h : Stepped cfg o e o') (hat : o.call.progress = .returned) :
    o'.call.progress = .returned := by
  cases h with
  | moved _ hover _ =>
      rw [hat] at hover
      cases hover
  | withdrew hat' => cases hat.symm.trans hat'
  | deleted hat' => cases hat.symm.trans hat'
  | beside _ _ _ => exact hat

/-- A step of the call leaves the broker alone but to take the agent offline. -/
theorem table_stepped (h : Stepped cfg o e o') (hown : e.own = true)
    (hw : o'.call.wasServing = false) : o'.agents.table = o.agents.table := by
  cases h with
  | moved _ _ _ => rfl
  | deleted _ => rfl
  | withdrew _ =>
      have hw : Roster.serves agentRoster o.agents.table o.call.connection o.call.agent = false :=
        hw
      show Roster.takeOffline agentRoster o.agents.table o.call.connection o.call.name = _
      exact if_neg (Bool.eq_false_iff.1 hw)
  | beside hnot _ _ =>
      rw [hnot] at hown
      cases hown

/-- Only a call that returns removes a record. -/
theorem agents_stepped (h : Stepped cfg o e o') :
    o'.records.agents = o.records.agents ∨ o'.call.progress = .returned := by
  cases h with
  | deleted _ => exact .inr rfl
  | beside _ hd _ => exact .inl hd
  | _ => exact .inl rfl

/-- Nobody is put into service. -/
theorem serving_stepped (ht : Broker.Reachable cfg db o.agents.table) (h : Stepped cfg o e o')
    {agent : AgentRef} {c : Connection} (hc : o'.serving agent = some c) :
    o.serving agent = some c := by
  cases h with
  | moved _ _ _ => exact hc
  | deleted _ => exact hc
  | withdrew _ =>
      have hc : (Roster.takeOffline agentRoster o.agents.table o.call.connection
          o.call.name).servingOf agent = some c := hc
      unfold Roster.takeOffline at hc
      dsimp only at hc
      split at hc
      · have hc : (o.agents.table.unregisterProvider [o.call.agent]).servingOf agent = some c := hc
        rw [live_unregister] at hc
        split at hc
        · cases hc
        · exact hc
      · exact hc
  | beside _ _ hb =>
      rcases hb with rfl | ⟨a, ha, hstep⟩
      · exact hc
      · obtain ⟨hinv, hl⟩ := Broker.reachable_sound ht
        exact (fewer_step hinv hl ha hstep).live hc

/-- What is taken offline was served and is no more. -/
theorem serving_takesOffline (hw : o.takesOffline.call.wasServing = true) :
    (∃ c, o.serving o.call.agent = some c) ∧ o.takesOffline.serving o.call.agent = none := by
  have hw : Roster.serves agentRoster o.agents.table o.call.connection o.call.agent = true := hw
  obtain ⟨c, hc, -⟩ := (Option.any_eq_true _ _).1 hw
  refine ⟨⟨c, hc⟩, ?_⟩
  show (Roster.takeOffline agentRoster o.agents.table o.call.connection o.call.name).servingOf _ = _
  have htake : Roster.takeOffline agentRoster o.agents.table o.call.connection o.call.name =
      o.agents.table.unregisterProvider [o.call.agent] := if_pos hw
  rw [htake, live_unregister, if_pos (List.mem_singleton_self _)]

end Office

/-! ## Runs -/

/-- The failures put on a handler's inbox. -/
def failures (t : Broker.State) (h : HandlerId) : List Broker.Message :=
  (t.posted h).filter fun
    | .trusted _ (.fail _ _) => true
    | _ => false

section Runs

variable (cfg : Broker.Config) (db : RunId → Option Broker.Row)

/-- If the step is the call's own, it fails no run. -/
def FailsNone (o : Office) (e : Act) : Prop :=
  e.own = true → ∀ o', o.step cfg e = some o' →
    ∀ h, failures o'.agents.table h = failures o.agents.table h

/-- If the step is not the call's own, the agent is served by whom it was. -/
def LeavesServing (agent : AgentRef) (o : Office) (e : Act) : Prop :=
  e.own = false → ∀ o', o.step cfg e = some o' → o'.serving agent = o.serving agent

/-- What a call that has raised should have left alone: the agent is registered as it
was; unless the broker itself took it out of service, it is served by whom it was; and no
run was failed. -/
structure LeftAlone (o : Office) (es : List Act) (o' : Office) : Prop where
  registered : o.call.agent ∈ o.records.agents → o.call.agent ∈ o'.records.agents
  serving : (office cfg db).Along (LeavesServing cfg o.call.agent) o es →
    o'.serving o.call.agent = o.serving o.call.agent
  runs : (office cfg db).Along (FailsNone cfg) o es

/-- The step is no refusal of what the call waits for, once it has taken the agent out
of its connection's service. -/
def InTime (o : Office) : Act → Prop
  | .refuses => o.call.wasServing = false
  | _ => True

end Runs

section Deletions

variable {cfg : Broker.Config} {db : RunId → Option Broker.Row} {o o' : Office} {es : List Act}

open Office

/-- **Run lemma.**  What a run of steps keeps. -/
theorem settled_exec (ho : o.Settled) (h : (office cfg db).exec o es = some o') :
    o'.Settled ∧ (o.call.wasServing = true → o'.call.wasServing = true) ∧
      (o.call.progress = .returned → o'.call.progress = .returned) := by
  induction es generalizing o with
  | nil =>
      cases h
      exact ⟨ho, id, id⟩
  | cons e es ih =>
      obtain ⟨o₁, hstep, hrest⟩ := Option.bind_eq_some_iff.1 h
      have hs := step_stepped hstep
      obtain ⟨hset, hw, hr⟩ := ih (settled_stepped ho hs) hrest
      exact ⟨hset, fun hw₀ => hw (wasServing_stepped ho hs hw₀),
        fun hr₀ => hr (returned_stepped hs hr₀)⟩

/-- Nothing is refused late: a call that has raised took nothing offline. -/
theorem unserving_of_inTime (ho : o.call.wasServing = true → o.call.progress.decided = true)
    (h : (office cfg db).exec o es = some o') (hc : (office cfg db).Along InTime o es) :
    o'.call.wasServing = true → o'.call.progress.decided = true := by
  induction es generalizing o with
  | nil =>
      cases h
      exact ho
  | cons e es ih =>
      obtain ⟨o₁, hstep, hrest⟩ := Option.bind_eq_some_iff.1 h
      obtain ⟨hin, hc⟩ := (System.along_cons hstep).1 hc
      refine ih ?_ hrest hc
      have hs := step_stepped hstep
      intro hw
      cases hs with
      | moved _ _ hp =>
          rcases hp (ho hw) with hd | ⟨rfl, -⟩
          · exact hd
          · have hin : o.call.wasServing = false := hin
            exact absurd hw (by rw [comesTo, hin]; decide)
      | withdrew _ => rfl
      | deleted _ => rfl
      | beside _ _ _ => exact ho hw

/-- Something is refused late: the call had taken the agent offline. -/
theorem inTime_of_unserving (ho : o.Settled) (h : (office cfg db).exec o es = some o')
    (hw : o'.call.wasServing = false) : (office cfg db).Along InTime o es := by
  induction es generalizing o with
  | nil => trivial
  | cons e es ih =>
      obtain ⟨o₁, hstep, hrest⟩ := Option.bind_eq_some_iff.1 h
      have hs := step_stepped hstep
      refine (System.along_cons hstep).2 ⟨?_, ih (settled_stepped ho hs) hrest⟩
      have hmono := (settled_exec ho h).2.1
      cases e with
      | refuses =>
          show o.call.wasServing = false
          by_contra hnot
          rw [hmono (Bool.eq_true_of_not_eq_false hnot)] at hw
          cases hw
      | _ => trivial

/-- Once nobody serves an agent, nobody does as long as it is not registered again. -/
theorem unserved_exec (ht : Broker.Reachable cfg db o.agents.table)
    (h : (office cfg db).exec o es = some o') {agent : AgentRef} (hn : o.serving agent = none) :
    o'.serving agent = none ∧ (office cfg db).Along (LeavesServing cfg agent) o es := by
  induction es generalizing o with
  | nil =>
      cases h
      exact ⟨hn, trivial⟩
  | cons e es ih =>
      obtain ⟨o₁, hstep, hrest⟩ := Option.bind_eq_some_iff.1 h
      have hs := step_stepped hstep
      have hn₁ : o₁.serving agent = none := by
        cases hc : o₁.serving agent with
        | none => rfl
        | some c => rw [serving_stepped ht hs hc] at hn; cases hn
      obtain ⟨hn', halong⟩ := ih (broker_stepped ht hs) hrest hn₁
      refine ⟨hn', (System.along_cons hstep).2 ⟨fun _ o₂ h₂ => ?_, halong⟩⟩
      cases hstep.symm.trans h₂
      rw [hn₁, hn]

/-- A call that has taken the agent offline has taken it from whom it was served by, and
nobody serves it since. -/
theorem offline_exec (ht : Broker.Reachable cfg db o.agents.table)
    (hw : o.call.wasServing = false) (h : (office cfg db).exec o es = some o')
    (hw' : o'.call.wasServing = true) :
    (∃ c, o.serving o.call.agent = some c) ∧ o'.serving o.call.agent = none ∧
      (office cfg db).Along (LeavesServing cfg o.call.agent) o es := by
  induction es generalizing o with
  | nil =>
      cases h
      rw [hw] at hw'
      cases hw'
  | cons e es ih =>
      obtain ⟨o₁, hstep, hrest⟩ := Option.bind_eq_some_iff.1 h
      have hs := step_stepped hstep
      have ht₁ := broker_stepped ht hs
      have hagent := agent_stepped hs
      cases hw₁ : o₁.call.wasServing with
      | false =>
          obtain ⟨⟨c, hc⟩, hn, halong⟩ := ih ht₁ hw₁ hrest
          rw [hagent] at hc hn halong
          have hc₀ := serving_stepped ht hs hc
          refine ⟨⟨c, hc₀⟩, hn, (System.along_cons hstep).2 ⟨fun _ o₂ h₂ => ?_, halong⟩⟩
          cases hstep.symm.trans h₂
          rw [hc, hc₀]
      | true =>
          cases hs with
          | withdrew hat =>
              obtain ⟨hc, hn₁⟩ := serving_takesOffline hw₁
              obtain ⟨hn, halong⟩ := unserved_exec ht₁ hrest hn₁
              exact ⟨hc, hn, (System.along_cons hstep).2 ⟨nofun, halong⟩⟩
          | _ => cases hw.symm.trans hw₁

/-- A call that has raised and took nothing offline leaves everything alone. -/
theorem leftAlone_of_unserving (ho : o.Settled) (h : (office cfg db).exec o es = some o')
    (hw : o'.call.wasServing = false) (hraised : o'.call.progress.hasRaised = true) :
    LeftAlone cfg db o es o' := by
  induction es generalizing o with
  | nil =>
      cases h
      exact ⟨id, fun _ => rfl, trivial⟩
  | cons e es ih =>
      obtain ⟨o₁, hstep, hrest⟩ := Option.bind_eq_some_iff.1 h
      have hs := step_stepped hstep
      have ho₁ := settled_stepped ho hs
      obtain ⟨-, hmono, hreturned⟩ := settled_exec ho₁ hrest
      have hw₁ : o₁.call.wasServing = false := by
        by_contra hnot
        rw [hmono (Bool.eq_true_of_not_eq_false hnot)] at hw
        cases hw
      have hagents : o₁.records.agents = o.records.agents := by
        refine (agents_stepped hs).resolve_right fun hat => ?_
        rw [hreturned hat] at hraised
        cases hraised
      obtain ⟨hreg, hserv, hruns⟩ := ih ho₁ hrest
      rw [agent_stepped hs, hagents] at hreg
      rw [agent_stepped hs] at hserv
      refine ⟨hreg, fun halong => ?_, (System.along_cons hstep).2 ⟨fun hown o₂ h₂ k => ?_, hruns⟩⟩
      · obtain ⟨hleaves, halong⟩ := (System.along_cons hstep).1 halong
        rw [hserv halong]
        cases hown : e.own with
        | false => exact hleaves hown o₁ hstep
        | true =>
            show o₁.agents.table.servingOf o.call.agent = o.agents.table.servingOf o.call.agent
            rw [table_stepped hs hown hw₁]
      · cases hstep.symm.trans h₂
        rw [table_stepped hs hown hw₁]

/-- **A delete that has failed leaves the agent in service** if and only if the database
refuses nothing once the call has taken the agent out of its connection's service. -/
theorem failed_delete_left_alone_iff (ho : (office cfg db).init o)
    (h : (office cfg db).exec o es = some o') (hraised : o'.call.progress.hasRaised = true) :
    LeftAlone cfg db o es o' ↔ (office cfg db).Along InTime o es := by
  obtain ⟨-, hw₀, n, hn, hagents⟩ := ho
  have ht : Broker.Reachable cfg db o.agents.table := hagents ▸ broker_reachable hn
  have hset : o.Settled := fun hw => by cases hw₀.symm.trans hw
  constructor
  · intro hleft
    refine inTime_of_unserving hset h ?_
    by_contra hnot
    obtain ⟨⟨c, hc⟩, hnone, halong⟩ :=
      offline_exec ht hw₀ h (Bool.eq_true_of_not_eq_false hnot)
    rw [hleft.serving halong, hc] at hnone
    cases hnone
  · intro hin
    refine leftAlone_of_unserving hset h ?_ hraised
    by_contra hnot
    have hdecided := unserving_of_inTime (fun hw => by cases hw₀.symm.trans hw) h hin
      (Bool.eq_true_of_not_eq_false hnot)
    revert hdecided hraised
    cases o'.call.progress <;> simp [Progress.decided, Progress.hasRaised]

/-! ## What stands in the way of a deletion -/

/-- The call has counted, and the row is still there. -/
def Progress.counting : Progress → Bool
  | threadsCounted _ | countingRuns | runsCounted _ | deleting => true
  | _ => false

/-- No door commits a thread or a run of the agent between the counts and the deletion. -/
def Undisturbed (o : Office) : Act → Prop
  | .commitThread _ agent => agent = o.call.agent → o.call.progress.counting = false
  | .commitRun _ _ agent => agent = o.call.agent → o.call.progress.counting = false
  | _ => True

/-- What a call that has come so far was told of the agent. -/
def Told (agent : AgentRef) (d : Records) : Progress → Prop
  | .threadsCounted count => d.countThreads agent = count
  | .countingRuns => d.countThreads agent = 0
  | .runsCounted count => d.countThreads agent = 0 ∧ d.countRuns agent = count
  | .deleting => d.countThreads agent = 0 ∧ d.countRuns agent = 0
  | _ => True

end Deletions

namespace Demo

open Broker.Demo (link agent record)

/-- A link has published an agent, and the broker runs. -/
def offering : List Move :=
  [.agents (.opens link true), .agents (.register link ["translator"]), .agents (.goesOn 0),
    .broker .start]

/-- The link asks to delete it; nobody has talked to it. -/
def unused : Office where
  agents := (after offering).agents
  records := { agents := [agent], threads := [], runs := [] }
  call := { connection := link, name := "translator" }

theorem unused_init : (office Broker.Demo.config fun _ => none).init unused :=
  ⟨rfl, rfl, after offering, .runFrom (.init rfl) _, rfl⟩

def officeAfter (es : List Act) : Office :=
  (office Broker.Demo.config fun _ => none).runFrom unused es

/-- A door opens the agent's first thread, and a run on it. -/
def firstRun : List Act := [.commitThread "t" agent, .commitRun "r" "t" agent]

/-- The run is handed to the broker, offered and taken. -/
def taken : List Act :=
  List.map .broker ([.enqueueRun
      { runId := "r"
        agent := agent
        threadId := "t"
        inputJson := .null }] ++
    [.take 0, .resume 0, .transact 0 true, .resume 0, .resume 0, .resume 0] ++
    [.answerOffer "r" .accepted "pk"] ++ record 0 6)

/-- The call asks a question, and is told. -/
def asked : List Act := [.goesOn, .answers]

/-- The first run is there by the time the threads are counted. -/
def inUse : List Act := asked ++ firstRun ++ asked ++ [.goesOn]

/-- The first run comes when everything has been counted. -/
def outrun : List Act :=
  asked ++ asked ++ asked ++ firstRun ++ taken ++ [.goesOn, .refuses]

/-- Everything has been counted, and nobody came in between. -/
def counted : List Act := asked ++ asked ++ asked ++ [.goesOn]

/-- The call goes on, or is told. -/
def undisturbed (_ : Office) : Act → Bool
  | .goesOn => true
  | .answers => true
  | _ => false

def inTime (o : Office) : Act → Bool
  | .refuses => !o.call.wasServing
  | _ => true

theorem inTime_sound (o : Office) (e : Act) (h : inTime o e = true) : InTime o e := by
  cases e with
  | refuses =>
      show o.call.wasServing = false
      simpa [inTime] using h
  | _ => trivial

end Demo

/-- The agent is found to be in use, and left alone. -/
theorem failed_delete_left_alone_iff_in_use :
    (Demo.officeAfter Demo.inUse).call.progress.hasRaised = true ∧
      LeftAlone Broker.Demo.config (fun _ => none) Demo.unused Demo.inUse
        (Demo.officeAfter Demo.inUse) := by
  have hraised : (Demo.officeAfter Demo.inUse).call.progress.hasRaised = true := by
    decide +kernel
  refine ⟨hraised, (failed_delete_left_alone_iff Demo.unused_init rfl hraised).2 ?_⟩
  exact System.along_of_allows Demo.inTime_sound (by decide +kernel)

/-- The database refuses the deletion, since a thread refers to the agent by then: the
call raises, the agent is registered and out of service, and its run is failed. -/
theorem outrun_delete_withdraws :
    (Demo.officeAfter Demo.outrun).call.progress.hasRaised = true ∧
      Broker.Demo.agent ∈ (Demo.officeAfter Demo.outrun).records.agents ∧
      Demo.unused.serving Broker.Demo.agent = some Broker.Demo.link ∧
      (Demo.officeAfter Demo.outrun).serving Broker.Demo.agent = none ∧
      (failures (Demo.officeAfter Demo.outrun).agents.table 0).length = 1 ∧
      ¬ LeftAlone Broker.Demo.config (fun _ => none) Demo.unused Demo.outrun
        (Demo.officeAfter Demo.outrun) := by
  have hserved : Demo.unused.serving Broker.Demo.agent = some Broker.Demo.link := by
    decide +kernel
  have hgone : (Demo.officeAfter Demo.outrun).serving Broker.Demo.agent = none := by
    decide +kernel
  have hw : (Demo.officeAfter Demo.outrun).call.wasServing = true := by
    decide +kernel
  refine ⟨by decide +kernel, by decide +kernel, hserved, hgone, by decide +kernel, fun hleft => ?_⟩
  have ht : Broker.Reachable Broker.Demo.config (fun _ => none) Demo.unused.agents.table :=
    broker_reachable (.runFrom (.init rfl) Demo.offering)
  have hrun : (office Broker.Demo.config fun _ => none).exec Demo.unused Demo.outrun =
      some (Demo.officeAfter Demo.outrun) := rfl
  obtain ⟨-, -, halong⟩ := offline_exec ht rfl hrun hw
  have hsame := hleft.serving halong
  rw [show Demo.unused.call.agent = Broker.Demo.agent from rfl, hserved, hgone] at hsame
  cases hsame

end Funduq.Rosters
