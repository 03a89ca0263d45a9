import Funduq.Broker.Transactions
import Funduq.Doors.CancelRecovery

/-!
# Doors and broker over one database

The doors and the broker each have their own account of the database.  A `Whole` is a
process with both: what the doors hand over the broker may take in, and what a record
handler commits the doors find.

The two accounts agree (`Joined`): a run the broker has taken in has in the tables the
status it has in the broker's rows, and every event of a row is in the tables.  To the
doors, the broker's transactions are what happens outside, so all that is known of a
process is known of a `Whole`.
-/

namespace Funduq.Doors

open Funduq.Lib Funduq.Store Funduq.Contract
open Funduq.Broker (Status hasType runErrorTag legalFrom markRunStatus)

variable {PrivateKey PublicKey : Type}

/-- The row the broker finds of a run. -/
def rowOn (w : World) (runId : String) : Option Broker.Row :=
  (w.getRun runId).map fun r => ⟨r.status, (w.eventsOf runId).map fun e => (e.seq, e.event)⟩

structure Whole where
  doors : Process
  broker : Broker.State

namespace Whole

/-- Either side makes a move. -/
inductive Action where
  | door (m : Move Request Outside)
  | broker (a : Broker.Action)

/-- A move of the doors is none of the broker's. -/
def ownMove (b : Broker.State) : Move Request Outside → Bool
  | .outside (.record _ _) => false
  | .outside (.forget runId) => runId ∉ b.runs
  | _ => true

/-- The broker sees a row once it is there, and takes in what was handed over. -/
def mayHappen (w : World) : Broker.Action → Bool
  | .openRow r => (w.getRun r).isSome
  | a => fedBy w.dispatched a

/-- What a move of the broker writes. -/
def written (b : Broker.State) (w : World) : Broker.Action → World
  | .transact h true =>
      match b.task h with
      | .recording r (.writing write) _ _ => w.recordWrite r write
      | _ => w
  | _ => w

def step (cfg : Config PrivateKey PublicKey) (bcfg : Broker.Config) (s : Whole) :
    Action → Option Whole
  | .door m =>
      if ownMove s.broker m then
        (Server.step db (program cfg) outside s.doors m).map fun p => { s with doors := p }
      else none
  | .broker a =>
      if mayHappen s.doors.world a then
        (s.broker.step bcfg a).map fun b =>
          { doors := { s.doors with world := written s.broker s.doors.world a }
            broker := b }
      else none

/-- A process and a new broker, on what the tables hold. -/
def system (cfg : Config PrivateKey PublicKey) (bcfg : Broker.Config) (w₀ : World) :
    System Whole Action where
  init s := s.doors.world = w₀ ∧ s.doors.txns = [] ∧ s.broker = Broker.State.init (rowOn w₀)
  step := step cfg bcfg

/-! ## What is outcome and what is not -/

/-- No run is failed. -/
def failsNone (ws : List Write) : Bool :=
  ws.all fun x => match x with
    | .markRunStatus _ .failed => false
    | _ => true

/-- No door fails a run, and no write of the broker that fails costs a run its
`RUN_ERROR`. -/
def served (s : Whole) : Action → Bool
  | .door m => s.doors.commitsAs (fun _ ws _ => failsNone ws) m
  | .broker a => s.broker.keepsErrors a

end Whole

/-! ## The doors fail nothing -/

/-- What happens at the doors leaves every run its status, and new runs wait. -/
structure Unfailed (w w' : World) : Prop where
  kept : ∀ r ∈ w.runs, ∃ r' ∈ w'.runs, r'.runId = r.runId ∧ r'.status = r.status
  runs : ∀ r' ∈ w'.runs, (∃ r ∈ w.runs, r.runId = r'.runId ∧ r.status = r'.status) ∨
    r'.status = .queued ∧ ∀ r ∈ w.runs, r.runId ≠ r'.runId
  events : w.events ⊆ w'.events

theorem Unfailed.of_same {w w' : World} (hruns : w'.runs = w.runs)
    (hevents : w.events ⊆ w'.events) : Unfailed w w' := by
  refine ⟨fun r hr => ⟨r, ?_, rfl, rfl⟩, fun r' hr' => .inl ⟨r', ?_, rfl, rfl⟩, hevents⟩
  · rw [hruns]
    exact hr
  · rw [← hruns]
    exact hr'

section Doors

variable {cfg : Config PrivateKey PublicKey} {w₀ : World}

/-- A good store, of a process that began with `w₀`. -/
structure Onwards (cfg : Config PrivateKey PublicKey) (w₀ w : World) : Prop where
  good : Good cfg true w
  later : Later w₀ w

theorem outsideWith_true : outsideWith true = outside := by
  funext w e
  exact if_pos rfl

theorem onwards_promises : Server.Promises db (program cfg) (outsideWith true) (Onwards cfg w₀)
    Undisturbed (fun r => Commits cfg (Onwards cfg w₀) Undisturbed r.call) where
  refl := undisturbed_steady.refl
  trans := undisturbed_steady.trans
  outside w e w' hw h := by
    obtain ⟨hgood, hR⟩ := good_promises.outside w e w' hw.good h
    exact ⟨⟨hgood, hw.later.trans (hR []).later⟩, hR⟩
  program r w := wp_program undisturbed_steady r w

variable (hV : cfg.model.Verbatim)
include hV

theorem onwards_commit (c : Request) (held : List Name) (ws : List Write) (w : World)
    (hw : Onwards cfg w₀ w) (hg : Commits cfg (Onwards cfg w₀) Undisturbed c.call held ws w) :
    Onwards cfg w₀ (db.view w ws) ∧
      ∀ held', (∀ n, n.Owned → n ∈ held → n ∉ held') → Undisturbed held' w (db.view w ws) := by
  have hU : ∀ H a b, Undisturbed H a b → Undisturbed H a b := fun _ _ _ h => h
  have hsane : ∀ w, Onwards cfg w₀ w → Sane w := fun _ h => h.good.stored.filed.sane
  have hafter : ∀ held', (∀ n, n.Owned → n ∈ held → n ∉ held') →
      Undisturbed held' w (db.view w ws) :=
    fun held' hsep => hg.undisturbed fun id => hsep _ ⟨id, rfl⟩
  refine ⟨⟨⟨hw.good.stored.commit hV hU hsane hg, nofun⟩, ?_⟩, hafter⟩
  exact hw.later.trans (hafter [] fun _ _ _ => List.not_mem_nil).later

theorem onwards_of_reachable {s : Process} (hgood : Good cfg true w₀)
    (hs : (process cfg true fun w => w = w₀).Reachable s) :
    Server.Concurrent db (Onwards cfg w₀) Undisturbed
      (fun r => Commits cfg (Onwards cfg w₀) Undisturbed r.call) Name.Owned s := by
  refine Server.invariant_of_concurrent onwards_promises
    (fun c held ws w hw _ hg => onwards_commit hV c held ws w hw hg) Server.allowed_any ?_ hs.by_any
  rintro w rfl
  exact ⟨hgood, .refl w⟩

omit hV

/-- A commit that fails no run fails none. -/
theorem unfailed_commit {call : Call} {held : List Name} {ws : List Write} {w : World}
    (hfails : Whole.failsNone ws = true)
    (hg : Commits cfg (Onwards cfg w₀) Undisturbed call held ws w) : Unfailed w (db.view w ws) := by
  cases hg with
  | opens front o h =>
      have hfresh := (h.fresh_runId fun _ _ _ h => h).2
      rw [o.view h.thread.front]
      refine ⟨fun r hr => ⟨r, List.mem_append_left _ hr, rfl, rfl⟩, fun r' hr' => ?_,
        List.Subset.refl _⟩
      rcases List.mem_append.1 hr' with hr' | hr'
      · exact .inl ⟨r', hr', rfl, rfl⟩
      · rw [List.mem_singleton.1 hr']
        refine .inr ⟨rfl, fun r hr => ?_⟩
        rw [show o.row.runId = o.runId from h.runId_eq]
        exact hfresh r hr
  | enqueues o h => exact .of_same rfl (List.Subset.refl _)
  | fails runId => cases hfails
  | ends o code seq h => exact .of_same rfl (List.subset_append_left _ _)
  | cancels stored metadata now note known authorized =>
      have hsame : ∀ r : RunRecord,
          (if r.runId = note.runId then
            { r with cancelRequested := true, cancelRequestedBy := note.requestedBy }
          else r).runId = r.runId ∧
          (if r.runId = note.runId then
            { r with cancelRequested := true, cancelRequestedBy := note.requestedBy }
          else r).status = r.status := by
        intro r
        split <;> exact ⟨rfl, rfl⟩
      refine ⟨fun r hr => ⟨_, List.mem_map_of_mem hr, hsame r⟩, fun r' hr' => ?_,
        List.Subset.refl _⟩
      obtain ⟨r, hr, rfl⟩ := List.mem_map.1 hr'
      exact .inl ⟨r, hr, (hsame r).1.symm, (hsame r).2.symm⟩

/-- What is handed over: a run that is there, and that waited if it was there before. -/
def HandedIn (w₀ w : World) : Prop :=
  ∀ d ∈ w.dispatched, (∃ r ∈ w.runs, r.runId = d.runId) ∧
    ∀ r₀ ∈ w₀.runs, r₀.runId = d.runId → r₀.status = .queued

theorem HandedIn.later {w w' : World} (h : HandedIn w₀ w) (hlater : Later w w')
    (hsame : w'.dispatched = w.dispatched) : HandedIn w₀ w' := by
  intro d hd
  rw [hsame] at hd
  obtain ⟨⟨r, hr, hid⟩, hwaits⟩ := h d hd
  obtain ⟨r', hr', hp⟩ := hlater.mem hr
  exact ⟨⟨r', hr', hp.runId.trans hid⟩, hwaits⟩

theorem handedIn_commit {call : Call} {held : List Name} {ws : List Write} {w : World}
    (hw : HandedIn w₀ w) (hlater : Later w (db.view w ws))
    (hg : Commits cfg (Onwards cfg w₀) Undisturbed call held ws w) :
    HandedIn w₀ (db.view w ws) := by
  cases hg with
  | opens front o h =>
      refine hw.later hlater ?_
      rw [o.view h.thread.front]
  | enqueues o h =>
      obtain ⟨w₁, ⟨held₁, front, w₂, hw₂, hopens, rfl⟩, hr⟩ := h
      intro d hd
      rcases List.mem_append.1 hd with hd | hd
      · exact hw d hd
      · rw [List.mem_singleton.1 hd]
        have hid : o.handed.runId = o.runId := hopens.runId_eq
        -- A run that was opened since was not there before.
        have hfresh := (hopens.fresh_runId fun _ _ _ h => h).2
        refine ⟨?_, fun r₀ hr₀ hid₀ => ?_⟩
        · have hrow : o.row ∈ (db.view w₂ (front ++ o.writes)).runs := by
            rw [o.view hopens.thread.front]
            exact List.mem_append_right _ List.mem_cons_self
          obtain ⟨r, hr, hp⟩ := hr.later.mem hrow
          exact ⟨r, hr, hp.runId⟩
        · obtain ⟨r, hr, hp⟩ := hw₂.later.mem hr₀
          exact absurd (hp.runId.trans (hid₀.trans hid)) (hfresh r hr)
  | fails runId => exact hw.later hlater rfl
  | ends o code seq h => exact hw.later hlater rfl
  | cancels stored metadata now note known authorized => exact hw.later hlater rfl

/-- What a move of the doors makes of the tables. -/
structure DoorMove (w₀ w w' : World) : Prop where
  unfailed : Unfailed w w'
  handed : HandedIn w₀ w → HandedIn w₀ w'

theorem DoorMove.of_same {w w' : World} (hruns : w'.runs = w.runs) (hevents : w'.events = w.events)
    (hdispatched : w'.dispatched = w.dispatched) : DoorMove w₀ w w' := by
  refine ⟨.of_same hruns (by rw [hevents]; exact List.Subset.refl _), fun h d hd => ?_⟩
  rw [hdispatched] at hd
  rw [hruns]
  exact h d hd

/-- **A move of the doors** that fails no run. -/
theorem doorMove (hV : cfg.model.Verbatim) {b : Broker.State} {p p' : Process}
    {m : Move Request Outside}
    (hp : Server.Concurrent db (Onwards cfg w₀) Undisturbed
      (fun r => Commits cfg (Onwards cfg w₀) Undisturbed r.call) Name.Owned p)
    (hown : Whole.ownMove b m = true)
    (hserved : p.commitsAs (fun _ ws _ => Whole.failsNone ws) m = true)
    (hstep : Server.step db (program cfg) outside p m = some p') :
    DoorMove w₀ p.world p'.world := by
  cases m with
  | call c =>
      cases hstep
      exact .of_same rfl rfl rfl
  | outside e =>
      obtain ⟨w, hw, rfl⟩ := Option.map_eq_some_iff.1 hstep
      cases e with
      | record runId write => cases hown
      | _ =>
          cases hw
          exact .of_same rfl rfl rfl
  | advance i id =>
      have hadvance : p.advance db i id = some p' := hstep
      obtain ⟨t, ht⟩ := Server.getElem?_of_advance hadvance
      obtain ⟨w₁, hr, hk⟩ := hp.keeps i t ht
      obtain ⟨t', htook⟩ := Server.advance_took ht hk hr hp.inv hadvance
      rcases htook.world with hw | ⟨hcommits, hg, hw⟩
      · rw [hw]
        exact .of_same rfl rfl rfl
      · have hnone := Server.commitsAs_commit hserved ht hcommits
        have hlater := (onwards_commit hV t.call t.held t.writes p.world hp.inv hg).2 []
          fun _ _ _ => List.not_mem_nil
        rw [hw]
        exact ⟨unfailed_commit hnone hg, fun h => handedIn_commit h hlater.later hg⟩

end Doors

/-! ## The broker writes -/

theorem recordWrite_runs (w : World) (runId : String) (write : Broker.Write) :
    (w.recordWrite runId write).runs =
      w.runs.map fun r => if r.runId = runId then write.status.elim r r.marked else r := by
  unfold World.recordWrite
  cases write.status with
  | none =>
      refine ((List.map_id _).symm.trans (List.map_congr_left fun r _ => ?_) :)
      exact (ite_self r).symm
  | some status => rfl

theorem recordWrite_events (w : World) (runId : String) (write : Broker.Write) :
    (w.recordWrite runId write).events =
      w.events ++ write.event.toList.map fun e => ⟨runId, e.1, e.2⟩ := by
  unfold World.recordWrite
  cases write.status <;> rfl

theorem recordWrite_dispatched (w : World) (runId : String) (write : Broker.Write) :
    (w.recordWrite runId write).dispatched = w.dispatched := by
  unfold World.recordWrite
  cases write.status <;> rfl

theorem elim_runId (r : RunRecord) (status : Option Status) :
    (status.elim r r.marked).runId = r.runId := by
  cases status with
  | none => rfl
  | some status => exact marked_runId r status

/-- The tables and the broker's rows are moved on alike. -/
theorem status_commit {r : RunRecord} {row : Broker.Row} (write : Broker.Write)
    (h : r.status = row.status) :
    (write.status.elim r r.marked).status = (write.commit row).status := by
  unfold Broker.Write.commit
  cases write.status with
  | none => exact h
  | some status =>
      simp only [Option.elim_some, RunRecord.marked, markRunStatus, h]
      split
      · rfl
      · exact h


/-- The transaction a move of the broker commits. -/
def Commit (b : Broker.State) (a : Broker.Action) (r : String) (write : Broker.Write) : Prop :=
  ∃ h ret k, a = .transact h true ∧ b.task h = .recording r (.writing write) ret k

theorem written_cases (b : Broker.State) (w : World) (a : Broker.Action) :
    (∃ r write, Commit b a r write ∧ Whole.written b w a = w.recordWrite r write) ∨
      (∀ r write, ¬ Commit b a r write) ∧ Whole.written b w a = w := by
  by_cases hc : ∃ r write, Commit b a r write
  · obtain ⟨r, write, h, ret, k, rfl, ht⟩ := hc
    refine .inl ⟨r, write, ⟨h, ret, k, rfl, ht⟩, ?_⟩
    simp only [Whole.written, ht]
  · refine .inr ⟨fun r write h => hc ⟨r, write, h⟩, ?_⟩
    unfold Whole.written
    split
    · split
      · rename_i r write ret k ht
        exact absurd ⟨r, write, _, ret, k, rfl, ht⟩ hc
      · rfl
    · rfl

/-- What the committed row is. -/
theorem Commit.rows {b b' : Broker.State} {a : Broker.Action} {r : String} {write : Broker.Write}
    {bcfg : Broker.Config} (hc : Commit b a r write) (hstep : b.step bcfg a = some b') :
    ∃ row, b.rows r = some row ∧
      b'.rows = Function.update b.rows r (some (write.commit row)) := by
  obtain ⟨h, ret, k, rfl, ht⟩ := hc
  cases hrow : b.rows r with
  | none => simp [Broker.State.step, Broker.State.transact, ht, hrow] at hstep
  | some row =>
      simp only [Broker.State.step, Broker.State.transact, ht, hrow, Option.some.injEq] at hstep
      subst hstep
      exact ⟨row, rfl, rfl⟩

/-- The run of a commit was taken in, and its row is of a run that has not ended. -/
theorem Commit.open {b : Broker.State} {a : Broker.Action} {r : String} {write : Broker.Write}
    {bcfg : Broker.Config} {rows : String → Option Broker.Row}
    (hb : Broker.Reachable bcfg rows b) (hc : Commit b a r write) :
    (b.home r).isSome = true ∧ ∀ row, b.rows r = some row → row.status.terminal = false := by
  obtain ⟨h, ret, k, rfl, ht⟩ := hc
  have hinv := Broker.reachable_inv hb
  have hhome := hinv.roll.home_of_live (Broker.State.live_of_recording hinv ht)
  have hsome : (b.home r).isSome = true := by rw [hhome]; rfl
  have hpend : (b.lane r).pending = some write := by
    rw [Broker.Lane.pending, Broker.State.lane_hand hhome, ht]
    simp [Broker.Task.hand]
  exact ⟨hsome, (Broker.reachable_ready hb r hsome write hpend).1⟩

/-! ## The two accounts agree -/

section Joined

variable {cfg : Config PrivateKey PublicKey} {bcfg : Broker.Config} {w₀ : World} {s s' : Whole}

/-- The doors and the broker of a process that began with `w₀`. -/
structure Joined (cfg : Config PrivateKey PublicKey) (bcfg : Broker.Config) (w₀ : World)
    (s : Whole) : Prop where
  process : (process cfg true fun w => w = w₀).Reachable s.doors
  broker : Broker.ReachableBy bcfg (rowOn w₀) (fun b a => b.keepsErrors a = true) s.broker
  /-- A run that was taken in has the status the broker's row has. -/
  taken : ∀ id, (s.broker.home id).isSome = true → ∃ r ∈ s.doors.world.runs, ∃ row,
    r.runId = id ∧ s.broker.rows id = some row ∧ r.status = row.status
  events : ∀ id row, s.broker.rows id = some row → ∀ e ∈ row.events,
    ⟨id, e.1, e.2⟩ ∈ s.doors.world.events
  /-- A run that was not waits, or is as it was. -/
  waiting : ∀ r ∈ s.doors.world.runs, s.broker.home r.runId = none → r.status = .queued ∨
    ∃ r₀ ∈ w₀.runs, r₀.runId = r.runId ∧ r₀.status = r.status
  handed : HandedIn w₀ s.doors.world
  before : w₀.events ⊆ s.doors.world.events

theorem joined_init (hhanded : HandedIn w₀ w₀) (h : (Whole.system cfg bcfg w₀).init s) :
    Joined cfg bcfg w₀ s := by
  obtain ⟨hw, ht, hb⟩ := h
  obtain ⟨p, b⟩ := s
  obtain ⟨w, txns⟩ := p
  dsimp only at hw ht hb
  subst hw hb
  refine ⟨.init ⟨rfl, ht⟩, .init rfl, nofun, ?_, fun r hr _ => .inr ⟨r, hr, rfl, rfl⟩, hhanded,
    List.Subset.refl _⟩
  intro id row hrow e he
  obtain ⟨r, -, rfl⟩ := Option.map_eq_some_iff.1 (show rowOn w id = some row from hrow)
  obtain ⟨x, hx, rfl⟩ := List.mem_map.1 he
  obtain ⟨hx', hid⟩ := List.mem_filter.1 hx
  cases of_decide_eq_true hid
  exact hx'

/-- A move of the doors. -/
theorem Joined.door (hV : cfg.model.Verbatim) (hgood : Good cfg true w₀)
    (hs : Joined cfg bcfg w₀ s) {m : Move Request Outside} {p : Process}
    (hown : Whole.ownMove s.broker m = true) (hserved : s.served (.door m) = true)
    (hstep : Server.step db (program cfg) outside s.doors m = some p) :
    Joined cfg bcfg w₀ { s with doors := p } := by
  have hmove := doorMove hV (onwards_of_reachable hV hgood hs.process) hown hserved hstep
  refine ⟨hs.process.step m ?_, hs.broker, fun id hhome => ?_, fun id row hrow e he => ?_,
    fun r hr hhome => ?_, hmove.handed hs.handed, List.Subset.trans hs.before hmove.unfailed.events⟩
  · show Server.step db (program cfg) (outsideWith true) s.doors m = some p
    rw [outsideWith_true]
    exact hstep
  · obtain ⟨r, hr, row, hid, hrow, hst⟩ := hs.taken id hhome
    obtain ⟨r', hr', hid', hst'⟩ := hmove.unfailed.kept r hr
    exact ⟨r', hr', row, hid'.trans hid, hrow, hst'.trans hst⟩
  · exact hmove.unfailed.events (hs.events id row hrow e he)
  · rcases hmove.unfailed.runs r hr with ⟨r', hr', hid, hst⟩ | ⟨hq, -⟩
    · have hhome' : s.broker.home r'.runId = none := by
        rw [hid]
        exact hhome
      rw [← hst, ← hid]
      exact hs.waiting r' hr' hhome'
    · exact .inl hq

/-- The broker commits a write. -/
theorem Joined.commit (hV : cfg.model.Verbatim) (hgood : Good cfg true w₀)
    (hs : Joined cfg bcfg w₀ s) {a : Broker.Action} {b : Broker.State} {r : String}
    {write : Broker.Write} (hserved : s.broker.keepsErrors a = true)
    (hstep : s.broker.step bcfg a = some b) (hc : Commit s.broker a r write) :
    Joined cfg bcfg w₀ ⟨{ s.doors with world := s.doors.world.recordWrite r write }, b⟩ := by
  have hbroker : Broker.Reachable bcfg (rowOn w₀) s.broker := hs.broker.reachable
  obtain ⟨hhome, hopen⟩ := hc.open hbroker
  obtain ⟨run, hrun, row, hid, hrow, hst⟩ := hs.taken r hhome
  have hsane := (onwards_of_reachable hV hgood hs.process).inv.good.stored.filed.sane
  have hsame : ∀ id, b.home id = s.broker.home id := by
    obtain ⟨h, ret, k, rfl, -⟩ := hc
    exact Broker.Reachable.home_step hbroker (fun _ h => by cases h) hstep
  obtain ⟨row', hrow', hrows⟩ := hc.rows hstep
  cases hrow.symm.trans hrow'
  refine ⟨hs.process.step (.outside (.record r write)) ?_, .step a hs.broker hserved hstep,
    fun id hhome' => ?_, fun id row' hrow'' e he => ?_, fun r' hr' hhome' => ?_, ?_, ?_⟩
  · have hget : s.doors.world.getRun r = some run := by
      rw [← hid]
      exact hsane.getRun hrun
    have hlive : run.status.terminal = false := by
      rw [hst]
      exact hopen row hrow
    show (outsideWith true s.doors.world (.record r write)).map _ = _
    rw [outsideWith_true]
    simp [outside, hget, hlive]
  · rw [hsame] at hhome'
    obtain ⟨r', hr', row', hid', hrow'', hst'⟩ := hs.taken id hhome'
    rw [recordWrite_runs, hrows]
    refine ⟨_, List.mem_map_of_mem hr', ?_⟩
    by_cases hid'' : r'.runId = r
    · cases hid'.symm.trans hid''
      cases hrow''.symm.trans hrow
      rw [if_pos hid', Function.update_self]
      exact ⟨_, (elim_runId r' write.status).trans hid', rfl, status_commit write hst'⟩
    · rw [if_neg hid'', Function.update_of_ne (hid' ▸ hid'')]
      exact ⟨row', hid', hrow'', hst'⟩
  · rw [recordWrite_events]
    rw [hrows] at hrow''
    by_cases hr : id = r
    · subst hr
      rw [Function.update_self] at hrow''
      cases hrow''
      rw [write.commit_events] at he
      rcases List.mem_append.1 he with he | he
      · exact List.mem_append_left _ (hs.events id row hrow e he)
      · exact List.mem_append_right _ (List.mem_map.2 ⟨e, he, rfl⟩)
    · rw [Function.update_of_ne hr] at hrow''
      exact List.mem_append_left _ (hs.events id row' hrow'' e he)
  · rw [recordWrite_runs] at hr'
    obtain ⟨r₁, hr₁, rfl⟩ := List.mem_map.1 hr'
    by_cases hid' : r₁.runId = r
    · -- The run of the write was taken in.
      have hrunId : (if r₁.runId = r then write.status.elim r₁ r₁.marked else r₁).runId = r := by
        rw [if_pos hid']
        exact (elim_runId r₁ write.status).trans hid'
      rw [hrunId, hsame] at hhome'
      rw [hhome'] at hhome
      cases hhome
    · rw [if_neg hid'] at hhome' ⊢
      rw [hsame] at hhome'
      exact hs.waiting r₁ hr₁ hhome'
  · intro d hd
    rw [recordWrite_dispatched] at hd
    obtain ⟨⟨r₁, hr₁, hid₁⟩, hwaits⟩ := hs.handed d hd
    rw [recordWrite_runs]
    refine ⟨⟨_, List.mem_map_of_mem hr₁, ?_⟩, hwaits⟩
    split
    · exact (elim_runId r₁ write.status).trans hid₁
    · exact hid₁
  · rw [recordWrite_events]
    exact List.Subset.trans hs.before (List.subset_append_left _ _)

/-- The broker makes a move that writes nothing. -/
theorem Joined.quiet (hs : Joined cfg bcfg w₀ s) {a : Broker.Action} {b : Broker.State}
    (hmay : Whole.mayHappen s.doors.world a = true) (hserved : s.broker.keepsErrors a = true)
    (hstep : s.broker.step bcfg a = some b) (hc : ∀ r write, ¬ Commit s.broker a r write) :
    Joined cfg bcfg w₀ ⟨s.doors, b⟩ := by
  have hbroker : Broker.Reachable bcfg (rowOn w₀) s.broker := hs.broker.reachable
  have hkept : ∀ id, (s.broker.home id).isSome = true → b.home id = s.broker.home id := by
    intro id hhome
    obtain ⟨h, hh⟩ := Option.isSome_iff_exists.1 hhome
    rw [hh]
    exact Broker.Reachable.home_kept hbroker hh hstep
  have hrows : ∀ id, (s.broker.home id).isSome = true → b.rows id = s.broker.rows id := by
    intro id hhome
    rcases Broker.Reachable.rows_step hbroker hstep hhome with h | ⟨h, w, ret, k, -, rfl, ht, -⟩
    · exact h
    · exact absurd ⟨h, ret, k, rfl, ht⟩ (hc id w)
  refine ⟨hs.process, .step a hs.broker hserved hstep, fun id hhome => ?_,
    fun id row hrow e he => ?_, fun r hr hhome => ?_, hs.handed, hs.before⟩
  · by_cases hold : (s.broker.home id).isSome = true
    · obtain ⟨r, hr, row, hid, hrow, hst⟩ := hs.taken id hold
      exact ⟨r, hr, row, hid, (hrows id hold).trans hrow, hst⟩
    · -- The run is taken in now.
      have hnone : s.broker.home id = none := by simpa using hold
      have hnew : ∃ e, a = .enqueueRun e := by
        by_contra hno
        have hsame := Broker.Reachable.home_step hbroker (fun e he => hno ⟨e, he⟩) hstep id
        rw [hsame] at hhome
        exact hold hhome
      obtain ⟨e, rfl⟩ := hnew
      obtain ⟨h, htake⟩ := Broker.Reachable.takesIn_step hbroker hstep
      have hid : id = e.runId := by
        by_contra hne
        rw [htake.home_of_ne id hne] at hhome
        exact hold hhome
      subst hid
      obtain ⟨d, hd, hmatch⟩ := List.any_eq_true.1 hmay
      simp only [Bool.and_eq_true, decide_eq_true_eq] at hmatch
      obtain ⟨⟨r, hr, hrid⟩, hwaits⟩ := hs.handed d hd
      have hre : r.runId = e.runId := hrid.trans hmatch.1.1.1.1
      have hqueued : r.status = .queued := by
        rcases hs.waiting r hr (by rw [hre]; exact hnone) with h | ⟨r₀, hr₀, hid₀, hst₀⟩
        · exact h
        · exact hst₀.symm.trans (hwaits r₀ hr₀ (hid₀.trans hrid))
      have hmay' : s.broker.mayEnqueue e = true := by
        by_contra hno
        simp [Broker.State.step, hno] at hstep
      simp only [Broker.State.mayEnqueue, Bool.and_eq_true] at hmay'
      obtain ⟨row, hrow, hq⟩ := (Option.any_eq_true _ _).1 hmay'.2
      simp only [Bool.and_eq_true, decide_eq_true_eq] at hq
      refine ⟨r, hr, row, hre, ?_, hqueued.trans hq.1.symm⟩
      rcases Broker.Reachable.rows_unborn hbroker hstep hnone with h | ⟨h, -⟩
      · exact h.trans hrow
      · exact absurd (h.symm.trans hrow) (by simp)
  · cases hhome : s.broker.home id with
    | some h =>
        rw [hrows id (by rw [hhome]; rfl)] at hrow
        exact hs.events id row hrow e he
    | none =>
        rcases Broker.Reachable.rows_unborn hbroker hstep hhome with h | ⟨-, h⟩
        · rw [h] at hrow
          exact hs.events id row hrow e he
        · cases h.symm.trans hrow
          cases he
  · refine hs.waiting r hr ?_
    cases hold : s.broker.home r.runId with
    | none => rfl
    | some h =>
        rw [hkept r.runId (by rw [hold]; rfl)] at hhome
        exact hold.symm.trans hhome

/-- **The step.** -/
theorem Joined.step (hV : cfg.model.Verbatim) (hgood : Good cfg true w₀)
    (hs : Joined cfg bcfg w₀ s) {a : Whole.Action} (hserved : s.served a = true)
    (hstep : s.step cfg bcfg a = some s') : Joined cfg bcfg w₀ s' := by
  cases a with
  | door m =>
      simp only [Whole.step] at hstep
      split at hstep
      · rename_i hown
        obtain ⟨p, hp, rfl⟩ := Option.map_eq_some_iff.1 hstep
        exact hs.door hV hgood hown hserved hp
      · cases hstep
  | broker a =>
      simp only [Whole.step] at hstep
      split at hstep
      · rename_i hmay
        obtain ⟨b, hb, rfl⟩ := Option.map_eq_some_iff.1 hstep
        rcases written_cases s.broker s.doors.world a with ⟨r, write, hc, hw⟩ | ⟨hc, hw⟩
        · rw [hw]
          exact hs.commit hV hgood hserved hb hc
        · rw [hw]
          exact hs.quiet hmay hserved hb hc
      · cases hstep

/-- **The run.**  Doors and broker agree in every state. -/
theorem joined_of_reachable (hV : cfg.model.Verbatim) (hgood : Good cfg true w₀)
    (hhanded : HandedIn w₀ w₀)
    (hs : (Whole.system cfg bcfg w₀).ReachableBy (fun s a => s.served a = true) s) :
    Joined cfg bcfg w₀ s :=
  System.ReachableBy.invariant (fun _ h => joined_init hhanded h)
    (fun _ _ _ _ hj hserved hstep => hj.step hV hgood hserved hstep) hs

end Joined

end Funduq.Doors
