import Funduq.Doors.Programs
import Funduq.Doors.Relay

/-!
# What was written stays

Nothing a request commits, and nothing the broker writes, takes anything back:
threads and runs stay, a run keeps what it was opened with, an outcome stands, and
a run that finished asking goes on asking the same (`Later`).  The rows and the
record of how they came about stay in step (`Sane`).

Both hold however the requests interleave.  What one request relies on in that is
`Undisturbed`: history goes on, and an id it has minted is nobody else's.
-/

namespace Funduq.Doors

open Funduq.Lib Funduq.Store Funduq.Contract
open Funduq.Broker (AgentRef Status Time hasType runError runErrorTag runFinished legalFrom)

/-! ## Asks stand -/

/-- The events `open_asks` looks at. -/
def asking (e : Json) : Bool :=
  hasType runFinished e || hasType "TOOL_CALL_START" e || hasType "TOOL_CALL_RESULT" e

theorem filter_asking (tag : String) (htag : ∀ e, hasType tag e = true → asking e = true)
    (events : List Json) : (events.filter asking).filter (hasType tag) =
      events.filter (hasType tag) := by
  rw [List.filter_filter]
  apply List.filter_congr
  intro e _
  cases h : hasType tag e with
  | false => rfl
  | true => rw [htag e h]; rfl

/-- What was asked is read off the events that ask. -/
theorem openAsks_filter (events : List Json) : openAsks (events.filter asking) = openAsks events := by
  have hstart := filter_asking "TOOL_CALL_START" (fun e h => by simp [asking, h]) events
  have hresult := filter_asking "TOOL_CALL_RESULT" (fun e h => by simp [asking, h]) events
  have hfinished : ∀ e, hasType runFinished e = true → asking e = true :=
    fun e h => by simp [asking, h]
  have hcalls : unansweredToolCalls (events.filter asking) = unansweredToolCalls events := by
    simp only [unansweredToolCalls, hstart, hresult]
  have hlast : interruptsOf (events.filter asking) = interruptsOf events := by
    unfold interruptsOf
    rw [← List.filter_reverse, List.find?_filter]
    congr 3
    funext e
    cases h : hasType runFinished e with
    | false => simp
    | true => simp [hfinished e h]
  have hdone : finished (events.filter asking) = finished events := by
    unfold finished
    rw [List.any_filter]
    congr 1
    funext e
    cases h : hasType runFinished e with
    | false => simp
    | true => simp [hfinished e h]
  unfold openAsks
  rw [hdone, hcalls, hlast]

/-- Sorting rows and leaving some out can be done in either order. -/
theorem filter_orderedInsert (p : EventRow → Bool) (e : EventRow) {l : List EventRow}
    (hl : l.Pairwise fun a b => a.seq ≤ b.seq) :
    (l.orderedInsert (fun a b => a.seq ≤ b.seq) e).filter p =
      if p e then (l.filter p).orderedInsert (fun a b => a.seq ≤ b.seq) e else l.filter p := by
  induction l with
  | nil => cases hp : p e <;> simp [hp]
  | cons b l ih =>
      rw [List.pairwise_cons] at hl
      rw [List.orderedInsert_cons]
      by_cases hle : e.seq ≤ b.seq
      · rw [if_pos hle, List.filter_cons]
        split
        · -- The row stays in front of whatever is left of the rest.
          have hfront : ∀ c ∈ (b :: l).filter p, e.seq ≤ c.seq := by
            intro c hc
            rcases List.mem_cons.1 (List.mem_of_mem_filter hc) with rfl | hc
            · exact hle
            · exact Nat.le_trans hle (hl.1 c hc)
          cases hf : (b :: l).filter p with
          | nil => rfl
          | cons c rest =>
              rw [List.orderedInsert_cons, if_pos (hfront c (hf ▸ List.mem_cons_self))]
        · rfl
      · rw [if_neg hle, List.filter_cons, ih hl.2, List.filter_cons]
        cases hp : p e <;> cases hb : p b <;> simp [hle]

theorem filter_insertionSort (p : EventRow → Bool) (l : List EventRow) :
    (l.insertionSort fun a b => a.seq ≤ b.seq).filter p =
      (l.filter p).insertionSort fun a b => a.seq ≤ b.seq := by
  induction l with
  | nil => rfl
  | cons e l ih =>
      have hsorted : (l.insertionSort fun a b => a.seq ≤ b.seq).Pairwise
          fun a b => a.seq ≤ b.seq := by
        have : IsTrans EventRow fun a b => a.seq ≤ b.seq := ⟨fun _ _ _ => Nat.le_trans⟩
        have : Std.Total fun a b : EventRow => a.seq ≤ b.seq := ⟨fun a b => Nat.le_total a.seq b.seq⟩
        exact List.pairwise_insertionSort _ _
      rw [List.insertionSort_cons, filter_orderedInsert p e hsorted, ih, List.filter_cons]
      split <;> simp

/-- A run's asks depend on its asking rows alone. -/
theorem openAsks_getRunEvents (w : World) (runId : String) :
    openAsks (w.getRunEvents runId) =
      openAsks ((((w.eventsOf runId).filter fun e => asking e.event).insertionSort
        fun a b => a.seq ≤ b.seq).map EventRow.event) := by
  rw [← openAsks_filter, World.getRunEvents, List.filter_map, ← filter_insertionSort]
  rfl

/-- An event of another run, or one that asks nothing, changes no asks. -/
theorem openAsks_append {w w' : World} {rows : List EventRow} {runId : String}
    (h : w'.events = w.events ++ rows)
    (hrows : ∀ e ∈ rows, e.runId = runId → asking e.event = false) :
    openAsks (w'.getRunEvents runId) = openAsks (w.getRunEvents runId) := by
  rw [openAsks_getRunEvents, openAsks_getRunEvents]
  have hnone : (rows.filter fun e => e.runId = runId).filter (fun e => asking e.event) = [] := by
    rw [List.filter_eq_nil_iff]
    intro e he
    obtain ⟨he, hid⟩ := List.mem_filter.1 he
    simp [hrows e he (by simpa using hid)]
  unfold World.eventsOf
  rw [h, List.filter_append, List.filter_append, hnone, List.append_nil]

/-! ## Runs go on -/

/-- What a run's row was opened with. -/
def fixed (r : RunRecord) : RunRecord :=
  { r with
    status := .queued
    cancelRequested := false
    cancelRequestedBy := none }

/-- The row is the same run's, later. -/
structure Progress (r r' : RunRecord) : Prop where
  fixed : fixed r' = fixed r
  outcome : r.status.terminal = true → r'.status = r.status
  pending : r'.status ∈ World.pendingRunStatuses → r.status ∈ World.pendingRunStatuses
  queued : r'.status = .queued → r.status = .queued
  cancelled : r.cancelRequested = true → r'.cancelRequested = true

namespace Progress

variable {r r' r'' : RunRecord}

theorem refl (r : RunRecord) : Progress r r := ⟨rfl, fun _ => rfl, id, id, id⟩

theorem trans (h : Progress r r') (h' : Progress r' r'') : Progress r r'' where
  fixed := h'.fixed.trans h.fixed
  outcome hr := (h'.outcome (by rw [h.outcome hr]; exact hr)).trans (h.outcome hr)
  pending hr := h.pending (h'.pending hr)
  queued hr := h.queued (h'.queued hr)
  cancelled hr := h'.cancelled (h.cancelled hr)

theorem runId (h : Progress r r') : r'.runId = r.runId := by
  show (Doors.fixed r').runId = _
  rw [h.fixed]
  rfl

theorem threadId (h : Progress r r') : r'.threadId = r.threadId := by
  show (Doors.fixed r').threadId = _
  rw [h.fixed]
  rfl

theorem createdAt (h : Progress r r') : r'.createdAt = r.createdAt := by
  show (Doors.fixed r').createdAt = _
  rw [h.fixed]
  rfl

theorem agent (h : Progress r r') : r'.agent = r.agent := by
  show (Doors.fixed r').agent = _
  rw [h.fixed]
  rfl

theorem actorChain (h : Progress r r') : r'.actorChain = r.actorChain := by
  show (Doors.fixed r').actorChain = _
  rw [h.fixed]
  rfl

theorem parentRunId (h : Progress r r') : r'.parentRunId = r.parentRunId := by
  show (Doors.fixed r').parentRunId = _
  rw [h.fixed]
  rfl

theorem chainOf (h : Progress r r') : chainOf r' = chainOf r := by
  unfold Doors.chainOf
  rw [h.actorChain]

theorem headKeyOf {PrivateKey PublicKey : Type} {cfg : Config PrivateKey PublicKey}
    (h : Progress r r') : headKeyOf cfg r' = headKeyOf cfg r := by
  unfold Doors.headKeyOf
  rw [h.chainOf]

/-- An outcome stands. -/
theorem completed (h : Progress r r') (hdone : r.status = .completed) :
    r'.status = .completed := by
  rw [h.outcome (by rw [hdone]; rfl), hdone]

end Progress

/-- A run nobody has accepted was so before. -/
theorem pending_of_legal {status next : Status} (hlegal : status ∈ legalFrom next)
    (hpending : next ∈ World.pendingRunStatuses) : status ∈ World.pendingRunStatuses := by
  cases next with
  | offering =>
      rw [List.mem_singleton.1 hlegal]
      decide
  | queued => cases hlegal
  | _ => exact absurd hpending (by decide)

theorem progress_marked (r : RunRecord) (status : Status) : Progress r (r.marked status) := by
  unfold RunRecord.marked
  split
  · rename_i hlegal
    refine ⟨rfl, fun hterminal => absurd hlegal ?_, pending_of_legal hlegal, ?_, id⟩
    · cases hs : r.status with
      | completed => cases status <;> decide
      | cancelled => cases status <;> decide
      | failed => cases status <;> decide
      | _ =>
          rw [hs] at hterminal
          cases hterminal
    · rintro rfl
      cases hlegal
  · exact .refl r

/-- The world goes on. -/
structure Later (w w' : World) : Prop where
  threads : w.threads <+: w'.threads
  openings : w.openings <+: w'.openings
  cancels : w.cancels <+: w'.cancels
  runs : ∀ (i : Nat) (r : RunRecord), w.runs[i]? = some r →
    ∃ r', w'.runs[i]? = some r' ∧ Progress r r'
  asks : ∀ r ∈ w.runs, r.status = .completed →
    openAsks (w'.getRunEvents r.runId) = openAsks (w.getRunEvents r.runId)

namespace Later

variable {w w' w'' : World}

theorem refl (w : World) : Later w w where
  threads := List.prefix_rfl
  openings := List.prefix_rfl
  cancels := List.prefix_rfl
  runs _ r hr := ⟨r, hr, .refl r⟩
  asks _ _ _ := rfl

/-- A run that is there stays. -/
theorem mem (h : Later w w') {r : RunRecord} (hr : r ∈ w.runs) : ∃ r' ∈ w'.runs, Progress r r' := by
  obtain ⟨i, hi⟩ := List.mem_iff_getElem?.1 hr
  obtain ⟨r', hr', hp⟩ := h.runs i r hi
  exact ⟨r', List.mem_of_getElem? hr', hp⟩

theorem trans (h : Later w w') (h' : Later w' w'') : Later w w'' where
  threads := h.threads.trans h'.threads
  openings := h.openings.trans h'.openings
  cancels := h.cancels.trans h'.cancels
  runs i r hr := by
    obtain ⟨r', hr', hp⟩ := h.runs i r hr
    obtain ⟨r'', hr'', hp'⟩ := h'.runs i r' hr'
    exact ⟨r'', hr'', hp.trans hp'⟩
  asks r hr hdone := by
    obtain ⟨r', hr', hp⟩ := h.mem hr
    rw [← h.asks r hr hdone, ← hp.runId]
    exact h'.asks r' hr' (hp.completed hdone)

end Later

/-- Rows that are only changed, each into a later one. -/
theorem runs_map {runs : List RunRecord} {f : RunRecord → RunRecord} (hf : ∀ r, Progress r (f r))
    (i : Nat) (r : RunRecord) (hr : runs[i]? = some r) :
    ∃ r', (runs.map f)[i]? = some r' ∧ Progress r r' :=
  ⟨f r, by rw [List.getElem?_map, hr]; rfl, hf r⟩

/-- Changing a run's row. -/
theorem later_setRun (w : World) (runId : String) {f : RunRecord → RunRecord}
    (hf : ∀ r, Progress r (f r)) : Later w (w.setRun runId f) where
  threads := List.prefix_rfl
  openings := List.prefix_rfl
  cancels := List.prefix_rfl
  runs := runs_map fun r => by
    split
    · exact hf r
    · exact .refl r
  asks _ _ _ := rfl

theorem later_markRunStatus (w : World) (runId : String) (status : Status) :
    Later w (w.markRunStatus runId status) :=
  later_setRun w runId fun r => progress_marked r status

/-- Events that ask nothing of a run that has completed. -/
theorem later_events {w : World} {rows : List EventRow}
    (h : ∀ e ∈ rows, ∀ r ∈ w.runs, r.runId = e.runId → r.status = .completed →
      asking e.event = false) : Later w { w with events := w.events ++ rows } where
  threads := List.prefix_rfl
  openings := List.prefix_rfl
  cancels := List.prefix_rfl
  runs _ r hr := ⟨r, hr, .refl r⟩
  asks r hr hdone := openAsks_append rfl fun e he hid => h e he r hr hid.symm hdone

/-! ## Rows and records -/

/-- The row a run was opened with. -/
structure Belongs (r : RunRecord) (o : Opening) : Prop where
  row : fixed r = rowOf o.handed.agent o.handed.inputJson r.actorChain r.createdAt
  runId : o.handed.runId = r.runId
  threadId : o.handed.threadId = r.threadId
  answers : ∀ asked, o.answers = some asked → r.parentRunId = some asked

theorem Belongs.progress {r r' : RunRecord} {o : Opening} (h : Belongs r o) (hp : Progress r r') :
    Belongs r' o where
  row := by rw [hp.fixed, h.row, hp.actorChain, hp.createdAt]
  runId := h.runId.trans hp.runId.symm
  threadId := h.threadId.trans hp.threadId.symm
  answers asked ha := hp.parentRunId.trans (h.answers asked ha)

/-- Every run has one row, one record and a home. -/
structure Sane (w : World) : Prop where
  runIds : (w.runs.map RunRecord.runId).Nodup
  threadIds : (w.threads.map ThreadRow.threadId).Nodup
  belongs : List.Forall₂ Belongs w.runs w.openings
  homes : ∀ r ∈ w.runs, ∃ t ∈ w.threads, t.threadId = r.threadId ∧ t.agent = r.agent

theorem Sane.opening_of_run {w : World} (hs : Sane w) {r : RunRecord} (hr : r ∈ w.runs) :
    ∃ o ∈ w.openings, Belongs r o := forall₂_right hs.belongs.flip hr

theorem Sane.run_of_opening {w : World} (hs : Sane w) {o : Opening} (ho : o ∈ w.openings) :
    ∃ r ∈ w.runs, Belongs r o := forall₂_right hs.belongs ho

/-- Nothing goes by that id. -/
def fresh (w : World) (id : String) : Prop :=
  (∀ t ∈ w.threads, t.threadId ≠ id) ∧ ∀ r ∈ w.runs, r.runId ≠ id

theorem fresh_of_unused {w : World} {id : String} (h : w.unused id = true) : fresh w id := by
  simp only [World.unused, Bool.and_eq_true, List.all_eq_true, decide_eq_true_eq] at h
  exact ⟨h.1, fun r hr => (h.2 r hr).1⟩

/-- What a request relies on: history goes on, and what it minted is its own. -/
structure Undisturbed (held : List Name) (w w' : World) : Prop where
  later : Later w w'
  fresh : ∀ id, .own id ∈ held → fresh w id → fresh w' id

theorem undisturbed_steady : Steady Undisturbed where
  refl _ w := ⟨.refl w, fun _ _ h => h⟩
  trans _ _ _ _ h h' := ⟨h.later.trans h'.later, fun id hid hf => h'.fresh id hid (h.fresh id hid hf)⟩
  anti hsub h := ⟨h.later, fun id hid => h.fresh id (hsub hid)⟩

/-- A move that opens nothing. -/
structure Still (w w' : World) : Prop where
  later : Later w w'
  threads : w'.threads = w.threads
  openings : w'.openings = w.openings
  messages : w'.messages = w.messages
  runs : ∃ f : RunRecord → RunRecord, (∀ r, Progress r (f r)) ∧ w'.runs = w.runs.map f

theorem Still.fresh {w w' : World} (h : Still w w') {id : String} (hf : fresh w id) :
    fresh w' id := by
  obtain ⟨f, hprogress, hruns⟩ := h.runs
  refine ⟨by rw [h.threads]; exact hf.1, fun r hr => ?_⟩
  rw [hruns] at hr
  obtain ⟨r₀, hr₀, rfl⟩ := List.mem_map.1 hr
  rw [(hprogress r₀).runId]
  exact hf.2 r₀ hr₀

theorem Still.sane {w w' : World} (h : Still w w') (hs : Sane w) : Sane w' := by
  obtain ⟨f, hprogress, hruns⟩ := h.runs
  refine ⟨?_, by rw [h.threads]; exact hs.threadIds, ?_, ?_⟩
  · rw [hruns, List.map_map, show RunRecord.runId ∘ f = RunRecord.runId from
      funext fun r => (hprogress r).runId]
    exact hs.runIds
  · rw [hruns, h.openings, List.forall₂_map_left_iff]
    exact hs.belongs.imp fun r o hb => hb.progress (hprogress r)
  · intro r hr
    rw [hruns] at hr
    obtain ⟨r₀, hr₀, rfl⟩ := List.mem_map.1 hr
    rw [h.threads, (hprogress r₀).threadId, (hprogress r₀).agent]
    exact hs.homes r₀ hr₀

/-! ## What comes from outside -/

theorem Still.refl (w : World) : Still w w :=
  ⟨.refl w, rfl, rfl, rfl, id, fun r => .refl r, (List.map_id _).symm⟩

theorem Still.trans {w w' w'' : World} (h : Still w w') (h' : Still w' w'') : Still w w'' := by
  obtain ⟨f, hf, hruns⟩ := h.runs
  obtain ⟨g, hg, hruns'⟩ := h'.runs
  refine ⟨h.later.trans h'.later, h'.threads.trans h.threads, h'.openings.trans h.openings,
    h'.messages.trans h.messages, g ∘ f, fun r => (hf r).trans (hg (f r)), ?_⟩
  rw [hruns', hruns, List.map_map]

theorem still_markRunStatus (w : World) (runId : String) (status : Status) :
    Still w (w.markRunStatus runId status) := by
  refine ⟨later_markRunStatus w runId status, rfl, rfl, rfl, _, fun r => ?_, rfl⟩
  split
  · exact progress_marked r status
  · exact .refl r

theorem still_events {w : World} {rows : List EventRow}
    (h : ∀ e ∈ rows, ∀ r ∈ w.runs, r.runId = e.runId → r.status = .completed →
      asking e.event = false) : Still w { w with events := w.events ++ rows } :=
  ⟨later_events h, rfl, rfl, rfl, id, fun r => .refl r, (List.map_id _).symm⟩

/-- There is one row to a run. -/
theorem Sane.getRun {w : World} (hs : Sane w) {r : RunRecord} (hr : r ∈ w.runs) :
    w.getRun r.runId = some r := find?_key hs.runIds hr

theorem Sane.getThread {w : World} (hs : Sane w) {t : ThreadRow} (ht : t ∈ w.threads) :
    w.getThread t.threadId = some t := find?_key hs.threadIds ht

/-- Runs of one thread are one agent's. -/
theorem Sane.agent {w : World} (hs : Sane w) {r r' : RunRecord} (hr : r ∈ w.runs)
    (hr' : r' ∈ w.runs) (h : r.threadId = r'.threadId) : r.agent = r'.agent := by
  obtain ⟨t, ht, hid, hagent⟩ := hs.homes r hr
  obtain ⟨t', ht', hid', hagent'⟩ := hs.homes r' hr'
  cases List.inj_on_of_nodup_map hs.threadIds ht ht' (hid.trans (h.trans hid'.symm))
  exact hagent.symm.trans hagent'

/-- What is not about runs or threads. -/
theorem still_of_same {w w' : World} (hthreads : w'.threads = w.threads)
    (hopenings : w'.openings = w.openings) (hcancels : w'.cancels = w.cancels)
    (hruns : w'.runs = w.runs) (hevents : w'.events = w.events)
    (hmessages : w'.messages = w.messages) : Still w w' where
  later := {
    threads := hthreads ▸ List.prefix_rfl
    openings := hopenings ▸ List.prefix_rfl
    cancels := hcancels ▸ List.prefix_rfl
    runs := fun i r hr => ⟨r, by rw [hruns]; exact hr, .refl r⟩
    asks := fun r _ _ => openAsks_append (hevents.trans (List.append_nil _).symm)
      (List.forall_mem_nil _) }
  threads := hthreads
  openings := hopenings
  messages := hmessages
  runs := ⟨id, fun r => .refl r, by rw [hruns, List.map_id]⟩

theorem asking_runError (text code : String) : asking (runError text code) = false := by
  simp [asking, hasType, runError, runErrorTag, runFinished, Json.getStr?, Json.get?,
    Json.members?, Json.str?]

/-- Nothing from outside opens a run, and nothing it does touches a run that has
ended. -/
theorem still_outside {w w' : World} {e : Outside} (hs : Sane w) (h : outside w e = some w') :
    Still w w' := by
  cases e with
  | record runId write =>
      simp only [outside] at h
      split at h
      · rename_i hmay
        cases h
        rw [Option.any_eq_true] at hmay
        obtain ⟨r, hr, hmay⟩ := hmay
        -- The run has not ended, so it is none that completed.
        have hlive : ∀ r' ∈ w.runs, r'.runId = runId → r'.status ≠ .completed := by
          rintro r' hr' rfl hdone
          cases (hs.getRun hr').symm.trans hr
          simp [hdone, Status.terminal] at hmay
        have hevents : Still w { w with
            events := w.events ++ write.event.toList.map fun e => ⟨runId, e.1, e.2⟩ } := by
          apply still_events
          intro e he r' hr' hid hdone
          obtain ⟨x, -, rfl⟩ := List.mem_map.1 he
          exact absurd hdone (hlive r' hr' hid)
        unfold World.recordWrite
        cases write.status with
        | none => exact hevents
        | some status => exact hevents.trans (still_markRunStatus _ _ _)
      · cases h
  | _ =>
      cases h
      exact still_of_same rfl rfl rfl rfl rfl rfl

/-- funduq's own last event asks nothing. -/
theorem still_runError (w : World) (runId code : String) (seq : Nat) :
    Still w (w.apply (.appendRunEvent ⟨runId, seq, runError code code⟩)) := by
  apply still_events
  intro e he r _ _ _
  rw [List.mem_singleton.1 he]
  exact asking_runError _ _

theorem still_cancel (w : World) (note : CancelNote) :
    Still w (w.apply (.recordCancelRequest note)) := by
  have hprogress : ∀ r : RunRecord, Progress r (if r.runId = note.runId then
      { r with cancelRequested := true, cancelRequestedBy := note.requestedBy } else r) := by
    intro r
    split
    · exact ⟨rfl, fun _ => rfl, id, id, fun _ => rfl⟩
    · exact .refl r
  exact {
    later := {
      threads := List.prefix_rfl
      openings := List.prefix_rfl
      cancels := List.prefix_append _ _
      runs := runs_map hprogress
      asks := fun _ _ _ => rfl }
    threads := rfl
    openings := rfl
    messages := rfl
    runs := ⟨_, hprogress, rfl⟩ }

/-- A move that opens nothing and cancels nothing. -/
structure Quiet (w w' : World) : Prop where
  still : Still w w'
  cancels : w'.cancels = w.cancels
  flags : w'.runs.map RunRecord.cancelRequested = w.runs.map RunRecord.cancelRequested

theorem marked_cancelRequested (r : RunRecord) (status : Status) :
    (r.marked status).cancelRequested = r.cancelRequested := by
  unfold RunRecord.marked
  split <;> rfl

theorem quiet_markRunStatus (w : World) (runId : String) (status : Status) :
    Quiet w (w.markRunStatus runId status) := by
  refine ⟨still_markRunStatus w runId status, rfl, ?_⟩
  show (w.runs.map _).map _ = _
  rw [List.map_map]
  apply List.map_congr_left
  intro r _
  show (if r.runId = runId then r.marked status else r).cancelRequested = _
  split
  · exact marked_cancelRequested r status
  · rfl

theorem quiet_outside {w w' : World} {e : Outside} (hs : Sane w) (h : outside w e = some w') :
    Quiet w w' := by
  have hstill := still_outside hs h
  cases e with
  | record runId write =>
      simp only [outside] at h
      split at h
      · cases h
        unfold World.recordWrite at hstill ⊢
        cases hst : write.status with
        | none =>
            rw [hst] at hstill
            exact ⟨hstill, rfl, rfl⟩
        | some status =>
            rw [hst] at hstill
            exact ⟨hstill, rfl, (quiet_markRunStatus _ runId status).flags⟩
      · cases h
  | _ =>
      cases h
      exact ⟨hstill, rfl, rfl⟩

/-! ## What a request commits -/

section Commit

variable {PrivateKey PublicKey : Type} {cfg : Config PrivateKey PublicKey}
  {W : World → Prop} {R : List Name → World → World → Prop} {call : Call} {held : List Name}
  {w : World} {front : List Write} {o : Opened}

/-- What the input was assembled from. -/
theorem assemble_ok {inbound : InboundRun} {relayed : Option (List String)}
    {threadId runId : String} {answers : Option RunRecord} {addressed : Option String}
    {messages : List Json} {now : Time} {input : RunAgentInput}
    (h : assemble cfg inbound relayed threadId runId answers addressed messages now = .ok input) :
    buildRunAgentInput cfg.model threadId runId messages inbound.state inbound.tools
      inbound.context (buildForwardedProps (funduqProps cfg inbound relayed runId addressed now)
        inbound.forwardedProps) inbound.resume
      (answers.elim inbound.parentRunId fun run => .str run.runId) = .ok input := by
  unfold assemble at h
  rw [ite_eq_ok] at h
  rcases h with ⟨-, h⟩ | ⟨-, h⟩
  · exact mapError_eq_ok.1 h
  · cases h

/-- What a run's input is made of, field by field. -/
theorem buildRunAgentInput_ok {M : RunInputModel} {threadId runId : String}
    {messages : List Json} {state tools context forwardedProps resume parentRunId : Json}
    {input : RunAgentInput}
    (h : buildRunAgentInput M threadId runId messages state tools context forwardedProps resume
      parentRunId = .ok input) :
    input.threadId = threadId ∧ input.runId = runId ∧ M.state state = .ok input.state ∧
      M.messages messages = .ok input.messages ∧
      M.tools (tools.orElse (.arr [])) = .ok input.tools ∧
      M.context (context.orElse (.arr [])) = .ok input.context ∧
      M.forwardedProps forwardedProps = .ok input.forwardedProps ∧
      M.resume resume = .ok input.resume ∧ readParent parentRunId = .ok input.parentRunId := by
  simp only [buildRunAgentInput, mapError_eq_ok, bind_eq_ok, pure_eq_ok] at h
  obtain ⟨_, h₁, _, h₂, _, h₃, _, h₄, _, h₅, _, h₆, _, h₇, rfl⟩ := h
  exact ⟨rfl, rfl, h₁, h₂, h₃, h₄, h₅, h₆, h₇⟩

namespace Opens

variable (h : Opens cfg W R call held w front o)
include h

theorem runId_eq : o.input.runId = o.runId :=
  (buildRunAgentInput_ok (assemble_ok h.assembled)).2.1

theorem threadId_eq : o.input.threadId = o.threadId :=
  (buildRunAgentInput_ok (assemble_ok h.assembled)).1

/-- An answer names the run it answers. -/
theorem parent_eq {run : RunRecord} (ha : o.answers = some run) :
    o.input.parentRunId = some run.runId := by
  have hparent := (buildRunAgentInput_ok (assemble_ok h.assembled)).2.2.2.2.2.2.2.2
  rw [ha] at hparent
  exact (Except.ok.inj hparent).symm

/-- What answers nothing has the parent its caller gave it. -/
theorem parent_given (ha : o.answers = none) :
    readParent call.parentRunId = .ok o.input.parentRunId := by
  have hparent := (buildRunAgentInput_ok (assemble_ok h.assembled)).2.2.2.2.2.2.2.2
  rw [ha, Option.elim_none, h.inbound.parent] at hparent
  exact hparent

variable (hU : ∀ H a b, R H a b → Undisturbed H a b)
include hU

theorem fresh_runId : fresh w o.runId := by
  obtain ⟨w₀, hunused, hr⟩ := h.minted
  exact (hU _ _ _ hr).fresh _ List.mem_cons_self (fresh_of_unused hunused)

omit hU in
/-- Threads are added, none is taken away. -/
theorem threads_prefix : w.threads <+: (db.view w front).threads := by
  cases h.thread with
  | existing _ front_eq =>
      rw [front_eq]
      exact List.prefix_rfl
  | created _ front_eq =>
      rw [front_eq]
      exact List.prefix_append _ _
  | resumed _ front_eq =>
      rw [front_eq]
      exact List.prefix_rfl

theorem threadIds (hs : Sane w) : ((db.view w front).threads.map ThreadRow.threadId).Nodup := by
  cases h.thread with
  | existing _ front_eq =>
      rw [front_eq]
      exact hs.threadIds
  | created thread front_eq id_eq _ _ minted _ =>
      obtain ⟨w₀, hunused, hr⟩ := minted
      have hnew := (hU _ _ _ hr).fresh _ List.mem_cons_self (fresh_of_unused hunused)
      rw [front_eq]
      show ((w.threads ++ [thread]).map ThreadRow.threadId).Nodup
      rw [List.map_append, List.nodup_append']
      refine ⟨hs.threadIds, List.nodup_singleton _, ?_⟩
      intro id hid hin
      obtain ⟨t, ht, rfl⟩ := List.mem_map.1 hid
      exact hnew.1 t ht ((List.mem_singleton.1 hin).trans id_eq)
  | resumed _ front_eq =>
      rw [front_eq]
      exact hs.threadIds

/-- The run's thread is there, and is its agent's. -/
theorem home (hs : ∀ w, W w → Sane w) : ∃ t ∈ (db.view w front).threads,
    t.threadId = o.threadId ∧ t.agent = o.inbound.agent := by
  cases h.thread with
  | existing thread front_eq id_eq known admitted _ =>
      obtain ⟨w₀, ⟨-, hmem⟩, hr⟩ := known
      refine ⟨thread, h.threads_prefix.subset ((hU _ _ _ hr).later.threads.subset hmem), id_eq, ?_⟩
      unfold admits at admitted
      split at admitted
      · cases admitted
      · rename_i hagent
        exact Decidable.not_not.1 hagent
  | created thread front_eq id_eq agent_eq _ _ _ =>
      refine ⟨thread, ?_, id_eq, agent_eq⟩
      rw [front_eq]
      exact List.mem_append_right _ List.mem_cons_self
  | resumed run front_eq id_eq answers_eq agent_eq =>
      obtain ⟨w₀, ⟨hw₀, hmem⟩, hr⟩ := (h.answers run answers_eq).1.known
      obtain ⟨t, ht, hid, hagent⟩ := (hs w₀ hw₀).homes run hmem
      have ht' := (hU _ _ _ hr).later.threads.subset ht
      exact ⟨t, h.threads_prefix.subset ht', hid.trans id_eq, hagent.trans agent_eq.symm⟩

omit hU in
/-- The run's row belongs to its record. -/
theorem belongs : Belongs o.row o.opening where
  row := rfl
  runId := rfl
  threadId := rfl
  answers asked ha := by
    obtain ⟨run, hrun, rfl⟩ := Option.map_eq_some_iff.1 ha
    exact h.parent_eq hrun

omit hU in
theorem later : Later w (db.view w (front ++ o.writes)) := by
  rw [o.view h.thread.front]
  exact {
    threads := h.threads_prefix
    openings := List.prefix_append _ _
    cancels := List.prefix_rfl
    runs := fun i r hr => ⟨r, by
      rw [List.getElem?_append_left (List.getElem?_eq_some_iff.1 hr).1]
      exact hr, .refl r⟩
    asks := fun _ _ _ => rfl }

theorem sane (hW : ∀ w, W w → Sane w) (hs : Sane w) : Sane (db.view w (front ++ o.writes)) := by
  have hfresh := h.fresh_runId hU
  rw [o.view h.thread.front]
  refine ⟨?_, h.threadIds hU hs, ?_, ?_⟩
  · show ((w.runs ++ [o.row]).map RunRecord.runId).Nodup
    rw [List.map_append, List.nodup_append']
    refine ⟨hs.runIds, List.nodup_singleton _, ?_⟩
    intro id hid hin
    obtain ⟨r, hr, rfl⟩ := List.mem_map.1 hid
    exact hfresh.2 r hr ((List.mem_singleton.1 hin).trans h.runId_eq)
  · exact List.rel_append hs.belongs (.cons h.belongs .nil)
  · intro r hr
    rcases List.mem_append.1 hr with hr | hr
    · obtain ⟨t, ht, hid⟩ := hs.homes r hr
      exact ⟨t, h.threads_prefix.subset ht, hid⟩
    · rw [List.mem_singleton] at hr
      subst hr
      obtain ⟨t, ht, hid, hagent⟩ := h.home hU hW
      exact ⟨t, ht, hid.trans h.threadId_eq.symm, hagent⟩

omit hU in
/-- Only what the request has minted itself is used. -/
theorem fresh_others {id : String} (hid : .own id ∉ held) (hf : fresh w id) :
    fresh (db.view w (front ++ o.writes)) id := by
  rw [o.view h.thread.front]
  constructor
  · show ∀ t ∈ (db.view w front).threads, t.threadId ≠ id
    cases h.thread with
    | existing _ front_eq =>
        rw [front_eq]
        exact hf.1
    | created thread front_eq id_eq _ _ _ own =>
        rw [front_eq]
        intro t ht
        rcases List.mem_append.1 ht with ht | ht
        · exact hf.1 t ht
        · rintro rfl
          rw [List.mem_singleton.1 ht, id_eq] at hid
          exact hid own
    | resumed _ front_eq =>
        rw [front_eq]
        exact hf.1
  · intro r hr
    rcases List.mem_append.1 hr with hr | hr
    · exact hf.2 r hr
    · rintro rfl
      rw [List.mem_singleton.1 hr, show o.row.runId = o.runId from h.runId_eq] at hid
      exact hid h.own

end Opens

/-- A run that finished asking asks the same ever after. -/
theorem Resolved.asks (hU : ∀ H a b, R H a b → Undisturbed H a b) {inbound : InboundRun}
    {asked : RunRecord} {resolution : Resolution}
    (h : Resolved cfg W R inbound asked w (some resolution)) (hdone : asked.status = .completed) :
    openAsks (w.getRunEvents asked.runId) = resolution.asks := by
  obtain ⟨-, -, -, ⟨w₀, ⟨⟨w₁, ⟨-, hmem⟩, hr₁⟩, hasks⟩, hr₀⟩, -, -⟩ := h
  obtain ⟨asked', hmem', hp⟩ := (hU _ _ _ hr₁).later.mem hmem
  rw [← hasks, ← hp.runId]
  exact (hU _ _ _ hr₀).later.asks asked' hmem' (hp.completed hdone)

/-- A request opens a run, records a cancel, or neither. -/
theorem Commits.kinds {ws : List Write} (h : Commits cfg W R call held ws w) :
    (∃ front o, ws = front ++ o.writes ∧ Opens cfg W R call held w front o) ∨
      (∃ stored metadata now note, ws = [.recordCancelRequest note] ∧
        Since R [] (fun w₀ => W w₀ ∧ stored ∈ w₀.runs) w ∧
        authorizeCancel cfg now stored metadata = .ok note) ∨
      Quiet w (db.view w ws) := by
  cases h with
  | opens front o h => exact .inl ⟨front, o, rfl, h⟩
  | cancels stored metadata now note known authorized =>
      exact .inr (.inl ⟨stored, metadata, now, note, rfl, known, authorized⟩)
  | enqueues o h => exact .inr (.inr ⟨still_of_same rfl rfl rfl rfl rfl rfl, rfl, rfl⟩)
  | fails runId => exact .inr (.inr (quiet_markRunStatus w runId .failed))
  | ends o code seq h => exact .inr (.inr ⟨still_runError w o.handed.runId code seq, rfl, rfl⟩)

/-- A request opens a run, or nothing. -/
theorem Commits.cases {ws : List Write} (h : Commits cfg W R call held ws w) :
    (∃ front o, ws = front ++ o.writes ∧ Opens cfg W R call held w front o) ∨
      Still w (db.view w ws) := by
  rcases h.kinds with hopens | ⟨-, -, -, note, rfl, -, -⟩ | hquiet
  · exact .inl hopens
  · exact .inr (still_cancel w note)
  · exact .inr hquiet.still

variable (hU : ∀ H a b, R H a b → Undisturbed H a b) (hW : ∀ w, W w → Sane w)
include hU hW

/-- What every commit keeps. -/
theorem Commits.sane (hs : Sane w) {ws : List Write} (h : Commits cfg W R call held ws w) :
    Sane (db.view w ws) := by
  rcases h.cases with ⟨front, o, rfl, hopens⟩ | hstill
  · exact hopens.sane hU hW hs
  · exact hstill.sane hs

omit hU hW in
/-- A commit is what the others rely on, as long as they hold none of the ids. -/
theorem Commits.undisturbed {ws : List Write} (h : Commits cfg W R call held ws w)
    {held' : List Name} (hsep : ∀ id, .own id ∈ held → .own id ∉ held') :
    Undisturbed held' w (db.view w ws) := by
  have hnot : ∀ id, .own id ∈ held' → .own id ∉ held := fun id hid' hid => hsep id hid hid'
  rcases h.cases with ⟨front, o, rfl, hopens⟩ | hstill
  · exact ⟨hopens.later, fun id hid hf => hopens.fresh_others (hnot id hid) hf⟩
  · exact ⟨hstill.later, fun id _ hf => hstill.fresh hf⟩

end Commit

/-- Nothing has been opened yet. -/
structure Empty (w : World) : Prop where
  threads : w.threads = []
  runs : w.runs = []
  events : w.events = []
  messages : w.messages = []
  live : w.live = []
  dispatched : w.dispatched = []
  openings : w.openings = []
  cancels : w.cancels = []

theorem Empty.sane {w : World} (h : Empty w) : Sane w where
  runIds := by rw [h.runs]; exact List.nodup_nil
  threadIds := by rw [h.threads]; exact List.nodup_nil
  belongs := by rw [h.runs, h.openings]; exact .nil
  homes := by rw [h.runs]; exact List.forall_mem_nil _

/-! ## A concrete funduq at work -/

namespace Demo

/-- One agent, registered and served. -/
def start : Process := { world := { agents := [agent], served := [agent] } }

theorem start_init : (system config Empty).init start :=
  ⟨⟨rfl, rfl, rfl, rfl, rfl, rfl, rfl, rfl⟩, rfl⟩

/-- What `moves` lead to from there. -/
def after (moves : List (Move Request Outside)) : Process :=
  (system config Empty).runFrom start moves

theorem after_reachable (moves : List (Move Request Outside)) :
    (system config Empty).Reachable (after moves) :=
  System.Reachable.runFrom (.init start_init) moves

/-- A call comes in. -/
def calls (call : Call) : Move Request Outside := .call ⟨call, 3⟩

/-- The request takes one statement after another; the ids are what it mints. -/
def advances (i : Nat) (ids : List String) : List (Move Request Outside) :=
  ids.map fun id => .advance i id

/-- An input with one message, and what else it carries. -/
def saying (id : String) (more : Dict String Json := []) : Dict String Json :=
  ("messages", .arr [.obj [("id", .str id), ("role", .str "user")]]) :: more

/-- The event of a run that finishes asking. -/
def finishesAsking (interrupts : List String) : Json :=
  .obj [("type", .str "RUN_FINISHED"), ("outcome", .obj [("type", .str "interrupt"),
    ("interrupts", .arr (interrupts.map fun id => .obj [("id", .str id)]))])]

/-- A provider takes the run and finishes it asking. -/
def asks (runId : String) (interrupts : List String) : List (Move Request Outside) :=
  [.outside (.record runId { status := some .offering }),
    .outside (.record runId { status := some .running }),
    .outside (.record runId { event := some (1, finishesAsking interrupts) }),
    .outside (.record runId { status := some .completed })]

/-- A run opens the thread `t` and finishes asking. -/
def paused (more : Dict String Json := []) (presenterKey : Option String := none) :
    List (Move Request Outside) :=
  [calls (.startRun agent (saying "m0" more) none presenterKey)] ++
  advances 0 ["t", "", "", "", "r0", "", "", "", "", "", "", "", ""] ++ asks "r0" ["i"]

/-- The bag of a caller with a chain of its own. -/
def chained (key : String) : Dict String Json := [("forwardedProps", .obj (bag (oneHop key)))]

/-- A resolution by `key` over what is asked in the lineage of `r0`. -/
def resolution (key : String) (asks : List String) : Dict String Json :=
  [("resolution", .obj [("publicKey", .str key),
    ("signature", .str (sign key (resolvePayload Plain.primitives "r0" asks)))])]

end Demo

end Funduq.Doors
