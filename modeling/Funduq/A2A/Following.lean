import Funduq.A2A.Streams
import Funduq.Broker.Arrivals

/-!
# What a stream knows while it lasts

The coroutine of a stream stands still while others act (`Meanwhile`): the row it read
goes on, the queue it drains grows, what it has yielded stays.  `AtStage` says stage by
stage what it has told and where it stands in the queue, and is kept by what others do
(`AtStage.meanwhile`) and by the coroutine's own stretches (`AtStage.next`).
-/

namespace Funduq.A2A

open Funduq.Lib Funduq.Doors
open Funduq.Broker (Status Row RunId OutItem)

/-- The last of the events that are told as a status. -/
def lastTold (events : List Json) : Option Json :=
  (events.filter fun e => (textDeltaOf e).isNone).getLast?

variable {cfg : Broker.Config} {db : RunId → Option Row} {x : TaskRef} {s s' : State}
  {snap : Snapshot} {m : Nat} {st : Status} {row row' : Row}

theorem lastTold_concat (events : List Json) (e : Json) :
    lastTold (events ++ [e]) = if (textDeltaOf e).isNone then some e else lastTold events := by
  unfold lastTold
  rw [List.filter_append]
  cases h : textDeltaOf e <;> simp [h]

/-! ## What others do -/

/-- A row that is read again: it has gained events, an outcome stays, and a run that
completed is as it was. -/
structure Later (row row' : Row) : Prop where
  events : row.events <+: row'.events
  outcome : row.status.terminal = true → row'.status = row.status
  completed : row.status = .completed → row' = row

theorem Later.refl (row : Row) : Later row row := ⟨List.prefix_rfl, fun _ => rfl, fun _ => rfl⟩

/-- The run goes on, and nothing is told. -/
structure Meanwhile (x : TaskRef) (s s' : State) : Prop where
  items : s'.items = s.items
  snapshot : s'.snapshot = s.snapshot
  behind : s'.behind = s.behind
  got : s'.got = s.got
  row : ∀ row, s.row? x = some row → ∃ row', s'.row? x = some row' ∧ Later row row'
  holder : s.holder = .ours → s'.holder = .ours ∧ s'.taken = s.taken
  home : (s.broker.home x.tail).isSome = true → (s'.broker.home x.tail).isSome = true ∧
    s.queue x <+: s'.queue x ∧
    (s'.broker.trail x.tail).before = (s.broker.trail x.tail).before
  gone : (s.broker.home x.tail).isSome = true → x.tail ∉ s.broker.runs →
    x.tail ∉ s'.broker.runs ∧ s'.row? x = s.row? x

/-- What holds of the broker and of the door that may refuse the run. -/
structure Sane (cfg : Broker.Config) (db : RunId → Option Row) (x : TaskRef) (s : State) :
    Prop where
  broker : Broker.Reachable cfg db s.broker
  refused : s.door = .no ∨ s.broker.home x.tail = none

/-- A run that was not handed over stays out, where nothing hands it over. -/
theorem home_of_admits {a : Broker.Action} {b : Broker.State} (hs : Sane cfg db x s)
    (hrefused : s.door ≠ .no) (hhome : s.broker.home x.tail = none)
    (hadmits : s.admits x a = true) (hstep : s.broker.step cfg a = some b) :
    b.home x.tail = none := by
  by_cases ha : ∃ e, a = .enqueueRun e
  · obtain ⟨e, rfl⟩ := ha
    have hother : e.runId ≠ x.tail := by
      intro htail
      unfold State.admits at hadmits
      cases hdoor : s.door with
      | no => exact absurd hdoor hrefused
      | _ => simp [hdoor, htail] at hadmits
    simp only [Broker.State.step] at hstep
    split at hstep
    · cases hstep
      have hthread : (s.broker.threadHandler e.threadId e.agent).1.home = s.broker.home := by
        unfold Broker.State.threadHandler
        dsimp only
        split <;> rfl
      show Function.update (s.broker.threadHandler e.threadId e.agent).1.home e.runId _ x.tail = none
      rw [Function.update_of_ne (Ne.symm hother), hthread, hhome]
    · cases hstep
  · rw [hs.broker.home_step (fun e he => ha ⟨e, he⟩) hstep, hhome]

/-- A row that no door has refused is the broker's. -/
theorem row?_of_home (hs : Sane cfg db x s) (hhome : (s.broker.home x.tail).isSome = true) :
    s.row? x = s.broker.rows x.tail := by
  rcases hs.refused with h | h
  · unfold State.row?
    rw [h]
    exact Option.map_id' ..
  · rw [h] at hhome
    cases hhome

/-- **The broker takes a step.** -/
theorem Sane.broker_step {a : Broker.Action} {b : Broker.State} (hs : Sane cfg db x s)
    (hadmits : s.admits x a = true) (hstep : s.broker.step cfg a = some b) :
    Sane cfg db x { s with broker := b } ∧ Meanwhile x s { s with broker := b } := by
  have hsane : Sane cfg db x { s with broker := b } := by
    refine ⟨System.Reachable.step a hs.broker hstep, ?_⟩
    by_cases hdoor : s.door = .no
    · exact .inl hdoor
    · exact .inr (home_of_admits hs hdoor (hs.refused.resolve_left hdoor) hadmits hstep)
  refine ⟨hsane, rfl, rfl, rfl, rfl, fun row hrow => ?_, fun h => ⟨h, rfl⟩, fun hhome => ?_,
    fun hhome hgone => ?_⟩
  · obtain ⟨row₀, hrow₀, rfl⟩ := Option.map_eq_some_iff.1 hrow
    obtain ⟨row₁, hrow₁, hev, hend⟩ := hs.broker.row_grows hstep hrow₀
    refine ⟨s.door.on row₁, congrArg (Option.map _) hrow₁, ?_⟩
    by_cases hdoor : s.door = .no
    · rw [hdoor]
      exact ⟨hev, fun h => congrArg Row.status (hend h),
        fun h => hend (by rw [show row₀.status = .completed from h]; rfl)⟩
    · -- The row of a run that was refused is out of the broker's hands.
      have hhome := hs.refused.resolve_left hdoor
      have hsame : row₁ = row₀ := by
        rcases hs.broker.rows_unborn hstep hhome with h | ⟨h, -⟩
        · exact Option.some.inj (hrow₁.symm.trans (h.trans hrow₀))
        · exact absurd (hrow₀.symm.trans h) nofun
      rw [hsame]
      exact .refl _
  · exact ⟨hs.broker.home_isSome hstep hhome, hs.broker.queue_step hstep hhome⟩
  · obtain ⟨hgone', hrows⟩ := hs.broker.gone_step hstep hhome hgone
    exact ⟨hgone', congrArg (Option.map _) hrows⟩

/-- Neither the run nor what was told of it changes. -/
theorem Meanwhile.of_same (hbroker : s'.broker = s.broker)
    (hdoor : s'.door = s.door) (hitems : s'.items = s.items)
    (hsnapshot : s'.snapshot = s.snapshot) (hbehind : s'.behind = s.behind)
    (hgot : s'.got = s.got)
    (hholder : s.holder = .ours → s'.holder = .ours ∧ s'.taken = s.taken) :
    Meanwhile x s s' := by
  have hrow : s'.row? x = s.row? x := by
    unfold State.row?
    rw [hbroker, hdoor]
  have hqueue : s'.queue x = s.queue x := by
    unfold State.queue
    rw [hbroker]
  refine ⟨hitems, hsnapshot, hbehind, hgot, fun row h => ⟨row, hrow.trans h, .refl row⟩, hholder,
    fun h => ?_, fun _ hgone => ?_⟩
  · rw [hbroker, hqueue]
    exact ⟨h, List.prefix_rfl, rfl⟩
  · rw [hbroker]
    exact ⟨hgone, hrow⟩

/-- The door that refuses the run has not handed it over. -/
theorem Meanwhile.of_refused {door : Refusal} (hhome : s.broker.home x.tail = none)
    (hrow : ∀ row, s.broker.rows x.tail = some row → Later (s.door.on row) (door.on row)) :
    Meanwhile x s { s with door := door } := by
  refine ⟨rfl, rfl, rfl, rfl, fun row h => ?_, fun h => ⟨h, rfl⟩, fun h => ?_, fun h _ => ?_⟩
  · obtain ⟨row₀, hrow₀, rfl⟩ := Option.map_eq_some_iff.1 h
    exact ⟨door.on row₀, congrArg (Option.map _) hrow₀, hrow row₀ hrow₀⟩
  · rw [hhome] at h
    cases h
  · rw [hhome] at h
    cases h

/-! ## What the stream knows -/

/-- `st` was read as the run's status. -/
def Since (x : TaskRef) (s : State) (st : Status) : Prop :=
  ∃ row, s.row? x = some row ∧ (st.terminal = true → row.status = st)

/-- The snapshot is of an earlier moment of the run. -/
structure Seen (x : TaskRef) (s : State) (snap : Snapshot) : Prop where
  status : Since x s snap.status
  events : snap.events <+: s.events x
  completed : snap.status = .completed → snap.events = s.events x

/-- The stream is open, and what was got off the queue are the items from where it was
taken on. -/
structure Drains (x : TaskRef) (s : State) (m : Nat) : Prop where
  home : (s.broker.home x.tail).isSome = true
  holder : s.holder = .ours
  got : ∃ k, m = (s.broker.trail x.tail).before.length + k ∧ s.taken = k + s.got.length ∧
    s.got.map .event <+: (s.queue x).drop k

/-- The stream has ended, and what was got are the events from where it was taken on. -/
structure Drained (x : TaskRef) (s : State) (m : Nat) : Prop where
  home : (s.broker.home x.tail).isSome = true
  gone : x.tail ∉ s.broker.runs
  got : s.got = (s.events x).drop m

/-- Where the rest of the stream comes from, before the coroutine drains it. -/
def Source (x : TaskRef) (s : State) : Caller → Prop
  | .send true => ∃ m, s.behind = some m ∧ Drains x s m
  | _ => s.behind = none

/-- A task as it was built from the snapshot. -/
structure Opening (x : TaskRef) (snap : Snapshot) (t : Task) : Prop where
  state : t.state = taskStateOf snap.status snap.events snap.cancelRequested
  artifacts : t.artifacts = Texts.merged (deltas (x.earlier ++ snap.events))

/-- The opening task of a stream that was not started. -/
def Opened (x : TaskRef) (s : State) (t : Task) : Prop :=
  ∃ snap, s.snapshot = some snap ∧ Seen x s snap ∧ Opening x snap t

/-- The texts told so far: the snapshot's, and then those of the events got. -/
def Texted (x : TaskRef) (s : State) (snap : Snapshot) : Prop :=
  ∀ id, (rebuilt s.items).get? id = Texts.said id (deltas (x.earlier ++ snap.events ++ s.got))

/-- The state a caller was told last, by the snapshot and the events got. -/
def stateTold (x : TaskRef) (snap : Snapshot) (got : List Json) : TaskState :=
  match lastTold got with
  | some e => (statusUpdateOf e x.taskId x.contextId).state
  | none => taskStateOf snap.status snap.events snap.cancelRequested

/-- What an open stream has told. -/
structure Telling (x : TaskRef) (s : State) (snap : Snapshot) : Prop where
  snapshot : s.snapshot = some snap
  seen : Seen x s snap
  texts : Texted x s snap
  state : lastState s.items = some (stateTold x snap s.got)

/-- What is left to tell after the queue. -/
inductive Rest (x : TaskRef) (s : State) (last : Option Status) : Prop where
  /-- Of a run that was drained, its status, unless it completed. -/
  | drained {m : Nat} {row : Row} (hbehind : s.behind = some m) (hdrained : Drained x s m)
      (hrow : s.row? x = some row)
      (hlast : last = (some row.status).filter fun status => status ≠ .completed)
  /-- Of a run that was not, the status that was read. -/
  | bare {st : Status} (hbehind : s.behind = none) (hgot : s.got = []) (htold : s.told = some st)
      (hsince : Since x s st) (hlast : last = some st)

/-- The stream is over. -/
structure Over (x : TaskRef) (s : State) (snap : Snapshot) (last : Option Status) : Prop where
  snapshot : s.snapshot = some snap
  seen : Seen x s snap
  texts : Texted x s snap
  rest : Rest x s last
  state : lastState s.items = some (last.elim (stateTold x snap s.got) stateForRunStatus)

/-- What the coroutine knows where it stands. -/
def AtStage (x : TaskRef) (s : State) : Prop :=
  match s.stage with
  | .idle => s.got = [] ∧ s.behind = none
  | .sent _ => s.got = [] ∧ s.behind = none
  | .looking caller => s.got = [] ∧ Source x s caller
  | .reading caller status _ => s.got = [] ∧ Source x s caller ∧ Since x s status
  | .opened opening => s.got = [] ∧ s.behind = none ∧ Opened x s opening
  | .taking opening tailStatus =>
      s.got = [] ∧ s.behind = none ∧ Opened x s opening ∧ Since x s tailStatus
  | .draining opened => ∃ snap m, Telling x s snap ∧ s.behind = some m ∧ Drains x s m ∧
      ∀ id, id ∈ opened ↔ ((rebuilt s.items).get? id).isSome = true
  | .asking true => ∃ snap m, Telling x s snap ∧ s.behind = some m ∧ Drained x s m
  | .asking false => ∃ snap, Telling x s snap ∧ s.behind = none ∧ s.got = []
  | .telling last => ∃ snap, Telling x s snap ∧ Rest x s last
  | .ended => ∃ snap last, Over x s snap last
  | .refused _ => True

/-! ## Others act -/

section Meanwhile

variable (hw : Meanwhile x s s')
include hw

theorem Meanwhile.since (h : Since x s st) : Since x s' st := by
  obtain ⟨row, hrow, hst⟩ := h
  obtain ⟨row', hrow', hlater⟩ := hw.row row hrow
  refine ⟨row', hrow', fun hend => ?_⟩
  rw [← hst hend]
  exact hlater.outcome (by rw [hst hend]; exact hend)

theorem Meanwhile.seen (h : Seen x s snap) : Seen x s' snap := by
  obtain ⟨row, hrow, hst⟩ := h.status
  obtain ⟨row', hrow', hlater⟩ := hw.row row hrow
  have hevents : s.events x = row.events.map Prod.snd := by
    unfold State.events
    rw [hrow]
    rfl
  have hevents' : s'.events x = row'.events.map Prod.snd := by
    unfold State.events
    rw [hrow']
    rfl
  refine ⟨hw.since h.status, h.events.trans ?_, fun hc => (h.completed hc).trans ?_⟩
  · rw [hevents, hevents']
    exact hlater.events.map Prod.snd
  · have hcompleted : row.status = .completed := (hst (by rw [hc]; rfl)).trans hc
    rw [hevents, hevents', hlater.completed hcompleted]

theorem Meanwhile.drains (h : Drains x s m) : Drains x s' m := by
  obtain ⟨hhome, hqueue, hbefore⟩ := hw.home h.home
  obtain ⟨hholder, htaken⟩ := hw.holder h.holder
  obtain ⟨k, hm, hk, hgot⟩ := h.got
  refine ⟨hhome, hholder, k, ?_, ?_, ?_⟩
  · rw [hbefore]
    exact hm
  · rw [htaken, hw.got]
    exact hk
  · rw [hw.got]
    exact hgot.trans (hqueue.drop k)

theorem Meanwhile.drained (h : Drained x s m) : Drained x s' m := by
  obtain ⟨hgone, hrow⟩ := hw.gone h.home h.gone
  refine ⟨(hw.home h.home).1, hgone, ?_⟩
  unfold State.events
  rw [hw.got, hrow]
  exact h.got

theorem Meanwhile.source {caller : Caller} (h : Source x s caller) : Source x s' caller := by
  match caller, h with
  | .send true, ⟨m, hm, hd⟩ => exact ⟨m, hw.behind.trans hm, hw.drains hd⟩
  | .send false, h => exact hw.behind.trans h
  | .resubscribe, h => exact hw.behind.trans h

theorem Meanwhile.opened {t : Task} (h : Opened x s t) : Opened x s' t := by
  obtain ⟨snap, hsnap, hseen, ht⟩ := h
  exact ⟨snap, hw.snapshot.trans hsnap, hw.seen hseen, ht⟩

theorem Meanwhile.texted (h : Texted x s snap) : Texted x s' snap := by
  unfold Texted
  rw [hw.items, hw.got]
  exact h

theorem Meanwhile.telling (h : Telling x s snap) : Telling x s' snap := by
  refine ⟨hw.snapshot.trans h.snapshot, hw.seen h.seen, hw.texted h.texts, ?_⟩
  rw [hw.items, hw.got]
  exact h.state

theorem Meanwhile.rest {last : Option Status} (htold : s'.told = s.told) (h : Rest x s last) :
    Rest x s' last := by
  cases h with
  | drained hbehind hdrained hrow hlast =>
      exact .drained (hw.behind.trans hbehind) (hw.drained hdrained)
        ((hw.gone hdrained.home hdrained.gone).2.trans hrow) hlast
  | bare hbehind hgot hread hsince hlast =>
      exact .bare (hw.behind.trans hbehind) (hw.got.trans hgot) (htold.trans hread)
        (hw.since hsince) hlast

/-- **Others act**: the coroutine knows what it knew. -/
theorem AtStage.meanwhile (hsame : s'.stage = s.stage) (htold : s'.told = s.told)
    (h : AtStage x s) : AtStage x s' := by
  unfold AtStage at h ⊢
  rw [hsame]
  split <;> rename_i hstage <;> simp only [hstage] at h
  · exact ⟨hw.got.trans h.1, hw.behind.trans h.2⟩
  · exact ⟨hw.got.trans h.1, hw.behind.trans h.2⟩
  · exact ⟨hw.got.trans h.1, hw.source h.2⟩
  · exact ⟨hw.got.trans h.1, hw.source h.2.1, hw.since h.2.2⟩
  · exact ⟨hw.got.trans h.1, hw.behind.trans h.2.1, hw.opened h.2.2⟩
  · exact ⟨hw.got.trans h.1, hw.behind.trans h.2.1, hw.opened h.2.2.1, hw.since h.2.2.2⟩
  · obtain ⟨snap, m, htelling, hbehind, hdrains, hopened⟩ := h
    rw [hw.items]
    exact ⟨snap, m, hw.telling htelling, hw.behind.trans hbehind, hw.drains hdrains, hopened⟩
  · obtain ⟨snap, m, htelling, hbehind, hdrained⟩ := h
    exact ⟨snap, m, hw.telling htelling, hw.behind.trans hbehind, hw.drained hdrained⟩
  · obtain ⟨snap, htelling, hbehind, hgot⟩ := h
    exact ⟨snap, hw.telling htelling, hw.behind.trans hbehind, hw.got.trans hgot⟩
  · obtain ⟨snap, htelling, hrest⟩ := h
    exact ⟨snap, hw.telling htelling, hw.rest htold hrest⟩
  · obtain ⟨snap, last, hover⟩ := h
    refine ⟨snap, last, hw.snapshot.trans hover.snapshot, hw.seen hover.seen,
      hw.texted hover.texts, hw.rest htold hover.rest, ?_⟩
    rw [hw.items, hw.got]
    exact hover.state
  · trivial

end Meanwhile

/-! ## The coroutine goes on -/

theorem Seen.of_row (h : Seen x s snap) (hrow : s'.row? x = s.row? x) :
    Seen x s' snap := by
  have hevents : s'.events x = s.events x := by
    unfold State.events
    rw [hrow]
  obtain ⟨⟨row, hr, hst⟩, hev, hc⟩ := h
  rw [← hevents] at hev hc
  exact ⟨⟨row, hrow.trans hr, hst⟩, hev, hc⟩

theorem Drains.of_same (h : Drains x s m) (hbroker : s'.broker = s.broker)
    (hholder : s'.holder = s.holder) (htaken : s'.taken = s.taken)
    (hgot : s'.got = s.got) : Drains x s' m := by
  have hqueue : s'.queue x = s.queue x := by
    unfold State.queue
    rw [hbroker]
  refine ⟨?_, hholder.trans h.holder, ?_⟩
  · rw [hbroker]
    exact h.home
  · rw [hbroker, htaken, hgot, hqueue]
    exact h.got

theorem Telling.of_same (h : Telling x s snap) (hrow : s'.row? x = s.row? x)
    (hitems : s'.items = s.items) (hgot : s'.got = s.got)
    (hsnapshot : s'.snapshot = s.snapshot) : Telling x s' snap := by
  refine ⟨hsnapshot.trans h.snapshot, h.seen.of_row hrow, ?_, ?_⟩
  · unfold Texted
    rw [hitems, hgot]
    exact h.texts
  · rw [hitems, hgot]
    exact h.state

/-- A run the broker holds was enqueued. -/
theorem Sane.home_of_held (hs : Sane cfg db x s) (hheld : x.tail ∈ s.broker.runs) :
    (s.broker.home x.tail).isSome = true :=
  ((Broker.reachable_sound hs.broker).2 x.tail).home (by simpa [Broker.State.lane] using hheld)

/-- The stream is taken. -/
theorem Drains.of_subscribe (hs : Sane cfg db x s) (hheld : x.tail ∈ s.broker.runs)
    (hgot : s.got = []) (hsub : s.subscribe x = .ok s') :
    ∃ m, s' = { s with holder := .ours, behind := some m } ∧ Drains x s' m := by
  obtain ⟨events, -, rfl⟩ := map_eq_ok.1 hsub
  refine ⟨_, rfl, hs.home_of_held hheld, rfl, s.taken, rfl, ?_, ?_⟩
  · show s.taken = s.taken + s.got.length
    rw [hgot]
    rfl
  · show s.got.map OutItem.event <+: _
    rw [hgot]
    exact List.nil_prefix

/-- The next item of the queue stands right behind what was got. -/
theorem Drains.next_item (h : Drains x s m) {item : OutItem}
    (hat : (s.queue x)[s.taken]? = some item) :
    ∃ k, m = (s.broker.trail x.tail).before.length + k ∧ s.taken = k + s.got.length ∧
      s.got.map .event ++ [item] <+: (s.queue x).drop k := by
  obtain ⟨k, hm, hk, hgot⟩ := h.got
  refine ⟨k, hm, hk, ?_⟩
  have hlen : (s.got.map OutItem.event).length = s.got.length := List.length_map ..
  have hat' : ((s.queue x).drop k)[s.got.length]? = some item := by
    rw [List.getElem?_drop, ← hk]
    exact hat
  obtain ⟨hlt, hitem⟩ := List.getElem?_eq_some_iff.1 hat'
  have := List.concat_get_prefix hgot (by rw [hlen]; exact hlt)
  simpa only [hlen, List.get_eq_getElem, hitem] using this

/-- The end of the queue: all there was from where it was taken on has been got. -/
theorem Drains.end (hs : Sane cfg db x s) (h : Drains x s m)
    (hat : (s.queue x)[s.taken]? = some .endOfStream) : Drained x s m := by
  obtain ⟨k, hm, hk, hprefix⟩ := h.next_item hat
  obtain ⟨row, sent, unsent, hrow, hev, hq, hun⟩ := hs.broker.queue_is_record h.home
  change s.queue x = _ at hq
  rw [hq] at hprefix
  have hle : k ≤ sent.length := by
    have hlen := hprefix.length_le
    rw [List.length_drop] at hlen
    simp only [List.length_append, List.length_map, List.length_singleton] at hlen
    split at hlen <;> simp at hlen <;> omega
  rw [List.drop_append_of_le_length (by rw [List.length_map]; exact hle), ← List.map_drop]
    at hprefix
  obtain ⟨hgot, hgone⟩ := Broker.last_of_end hprefix
  refine ⟨h.home, hgone, ?_⟩
  have hevents : s.events x = row.events.map Prod.snd := by
    unfold State.events
    rw [row?_of_home hs h.home, hrow]
    rfl
  have hbefore : ((s.broker.trail x.tail).before.map Prod.snd).length =
      (s.broker.trail x.tail).before.length := List.length_map ..
  rw [hevents, hev, hun hgone, List.append_nil, hm, ← hbefore, List.drop_length_add_append, hgot]

/-- The opening task is told. -/
theorem Telling.start {t : Task} (hgot₀ : s.got = []) (hseen : Seen x s snap)
    (ht : Opening x snap t) (hsnap : s'.snapshot = some snap)
    (hitems : s'.items = s.items ++ [.task t]) (hgot : s'.got = s.got)
    (hrow : s'.row? x = s.row? x) : Telling x s' snap := by
  refine ⟨hsnap, hseen.of_row hrow, fun id => ?_, ?_⟩
  · rw [hitems, rebuilt_concat, hgot, hgot₀, List.append_nil]
    show t.artifacts.get? id = _
    rw [ht.artifacts, Texts.get?_merged]
  · rw [hitems, lastState_concat, hgot, hgot₀]
    exact congrArg some ht.state

/-- The artifacts of the opening task are those that are open. -/
theorem opened_of_opening {t : Task} (hitems : s'.items = s.items ++ [.task t]) (id : String) : id ∈ t.artifacts.map Prod.fst ↔ ((rebuilt s'.items).get? id).isSome = true := by
  rw [hitems, rebuilt_concat]
  exact Dict.mem_keys_iff

variable (s') in
/-- An event is told. -/
theorem Telling.event (h : Telling x s snap) {e : Json} {opened : List String}
    (hopened : ∀ id, id ∈ opened ↔ ((rebuilt s.items).get? id).isSome = true)
    (hitems : s'.items =
      s.items ++ [.update (aguiEventToA2aUpdate e x.taskId x.contextId opened).1])
    (hgot : s'.got = s.got ++ [e]) (hsnapshot : s'.snapshot = s.snapshot)
    (hrow : s'.row? x = s.row? x) :
    Telling x s' snap ∧
      ∀ id, id ∈ (aguiEventToA2aUpdate e x.taskId x.contextId opened).2 ↔
        ((rebuilt s'.items).get? id).isSome = true := by
  obtain ⟨htexts, hopen⟩ := receive_update e x.taskId x.contextId h.texts hopened
  refine ⟨⟨hsnapshot.trans h.snapshot, h.seen.of_row hrow, fun id => ?_, ?_⟩, ?_⟩
  · rw [hitems, rebuilt_concat, htexts, hgot, ← deltas_append,
      ← List.append_assoc (x.earlier ++ snap.events)]
  · rw [hitems, lastState_concat, aguiEventToA2aUpdate_state?, h.state, hgot]
    unfold stateTold
    rw [lastTold_concat]
    split <;> rfl
  · rw [hitems, rebuilt_concat]
    exact hopen

/-! ## Stretch by stretch -/

section Next

variable {messages : List Json}

theorem next_sent {isLive : Bool} (hs : Sane cfg db x s) (hstage : s.stage = .sent isLive)
    (h : AtStage x s) (hnext : s.next x messages = some s') : AtStage x s' := by
  simp only [AtStage, hstage] at h
  obtain ⟨hgot, hbehind⟩ := h
  simp only [State.next, hstage] at hnext
  split at hnext
  · rename_i hheld
    split at hnext
    · cases hnext
      trivial
    · rename_i t hsub
      cases hnext
      obtain ⟨m, rfl, hdrains⟩ := Drains.of_subscribe hs hheld.2 hgot hsub
      exact ⟨hgot, m, rfl, hdrains.of_same rfl rfl rfl rfl⟩
  · cases hnext
    exact ⟨hgot, hbehind⟩

theorem next_looking {caller : Caller} (hstage : s.stage = .looking caller)
    (h : AtStage x s) (hnext : s.next x messages = some s') : AtStage x s' := by
  simp only [AtStage, hstage] at h
  simp only [State.next, hstage] at hnext
  split at hnext
  · rename_i row hrow
    cases hnext
    have hsource : ∀ t, Meanwhile x s { s with stage := t } := fun t =>
      .of_same rfl rfl rfl rfl rfl rfl fun hours => ⟨hours, rfl⟩
    exact ⟨h.1, (hsource _).source h.2, row, hrow, fun _ => rfl⟩
  · cases hnext
    trivial
  · cases hnext

theorem next_reading {caller : Caller} {cancelRequested : Bool}
    (hstage : s.stage = .reading caller st cancelRequested) (h : AtStage x s)
    (hnext : s.next x messages = some s') : AtStage x s' := by
  simp only [AtStage, hstage] at h
  obtain ⟨hgot, hsource, hsince⟩ := h
  -- The snapshot is of this moment, but for the status.
  have hseen : Seen x s ⟨st, cancelRequested, s.events x⟩ := ⟨hsince, List.prefix_rfl, fun _ => rfl⟩
  have hopening : Opening x ⟨st, cancelRequested, s.events x⟩
      (s.task x st cancelRequested messages none) := ⟨rfl, rfl⟩
  simp only [State.next, hstage] at hnext
  split at hnext
  · cases hnext
    obtain ⟨m, hm, hdrains⟩ := hsource
    exact ⟨_, m, .start hgot hseen hopening rfl rfl rfl rfl, hm, hdrains.of_same rfl rfl rfl rfl,
      opened_of_opening rfl⟩
  · cases hnext
    exact ⟨_, .start hgot hseen hopening rfl rfl rfl rfl, hsource, hgot⟩
  · split at hnext
    · cases hnext
      trivial
    · cases hnext
      exact ⟨hgot, hsource, _, rfl, hseen.of_row rfl, hopening⟩

theorem next_opened {opening : Task} (hstage : s.stage = .opened opening) (h : AtStage x s)
    (hnext : s.next x messages = some s') : AtStage x s' := by
  simp only [AtStage, hstage] at h
  simp only [State.next, hstage] at hnext
  obtain ⟨row, hrow, rfl⟩ := Option.map_eq_some_iff.1 hnext
  have hw : Meanwhile x s { s with stage := .taking opening row.status } :=
    .of_same rfl rfl rfl rfl rfl rfl fun hours => ⟨hours, rfl⟩
  exact ⟨hw.got.trans h.1, h.2.1, hw.opened h.2.2, row, hrow, fun _ => rfl⟩

theorem next_taking {opening : Task} (hs : Sane cfg db x s) (hstage : s.stage = .taking opening st)
    (h : AtStage x s) (hnext : s.next x messages = some s') : AtStage x s' := by
  simp only [AtStage, hstage] at h
  obtain ⟨hgot, hbehind, ⟨snap, hsnap, hseen, hopening⟩, hsince⟩ := h
  simp only [State.next, hstage] at hnext
  split at hnext
  · rename_i hheld
    split at hnext
    · cases hnext
      trivial
    · rename_i t hsub
      cases hnext
      obtain ⟨m, rfl, hdrains⟩ := Drains.of_subscribe hs hheld hgot hsub
      exact ⟨snap, m, .start hgot hseen hopening hsnap rfl rfl rfl, rfl,
        hdrains.of_same rfl rfl rfl rfl, opened_of_opening rfl⟩
  · cases hnext
    exact ⟨snap, .start hgot hseen hopening hsnap rfl rfl rfl,
      .bare hbehind hgot rfl hsince rfl⟩

theorem next_draining {opened : List String} (hs : Sane cfg db x s)
    (hstage : s.stage = .draining opened) (h : AtStage x s)
    (hnext : s.next x messages = some s') : AtStage x s' := by
  simp only [AtStage, hstage] at h
  obtain ⟨snap, m, htelling, hbehind, hdrains, hopened⟩ := h
  simp only [State.next, hstage] at hnext
  split at hnext
  · cases hnext
  · rename_i hat
    cases hnext
    have hend := hdrains.end hs hat
    exact ⟨snap, m, htelling.of_same rfl rfl rfl rfl, hbehind, hend.home, hend.gone, hend.got⟩
  · rename_i e hat
    cases hnext
    obtain ⟨k, hm, hk, hgot⟩ := hdrains.next_item hat
    obtain ⟨htells, hopen⟩ := htelling.event { s with
      taken := s.taken + 1
      items := s.items ++ [.update (aguiEventToA2aUpdate e x.taskId x.contextId opened).1]
      got := s.got ++ [e] } hopened rfl rfl rfl rfl
    refine ⟨snap, m, htells.of_same rfl rfl rfl rfl, hbehind,
      ⟨hdrains.home, hdrains.holder, k, hm, ?_, ?_⟩, hopen⟩
    · show s.taken + 1 = k + (s.got ++ [e]).length
      rw [List.length_append, List.length_singleton, hk, Nat.add_assoc]
    · show (s.got ++ [e]).map OutItem.event <+: _
      rw [List.map_append]
      exact hgot

theorem next_asking {live : Bool} (hstage : s.stage = .asking live) (h : AtStage x s)
    (hnext : s.next x messages = some s') : AtStage x s' := by
  simp only [State.next, hstage] at hnext
  cases live with
  | true =>
      simp only [AtStage, hstage] at h
      obtain ⟨snap, m, htelling, hbehind, hdrained⟩ := h
      obtain ⟨row, hrow, -⟩ := htelling.seen.status
      rw [if_pos rfl, hrow] at hnext
      cases hnext
      exact ⟨snap, htelling.of_same rfl rfl rfl rfl,
        .drained hbehind ⟨hdrained.home, hdrained.gone, hdrained.got⟩ hrow rfl⟩
  | false =>
      simp only [AtStage, hstage] at h
      obtain ⟨snap, htelling, hbehind, hgot⟩ := h
      obtain ⟨row, hrow, -⟩ := htelling.seen.status
      rw [if_neg nofun, hrow] at hnext
      cases hnext
      exact ⟨snap, htelling.of_same rfl rfl rfl rfl, .bare hbehind hgot rfl ⟨row, hrow, fun _ => rfl⟩ rfl⟩

theorem next_telling {last : Option Status} (hstage : s.stage = .telling last) (h : AtStage x s)
    (hnext : s.next x messages = some s') : AtStage x s' := by
  simp only [AtStage, hstage] at h
  obtain ⟨snap, htelling, hrest⟩ := h
  simp only [State.next, hstage] at hnext
  cases hnext
  have hrest' : ∀ items, Rest x { s with items := items, stage := .ended } last := by
    intro items
    cases hrest with
    | drained hbehind hdrained hrow hlast =>
        exact .drained hbehind ⟨hdrained.home, hdrained.gone, hdrained.got⟩ hrow hlast
    | bare hbehind hgot htold hsince hlast => exact .bare hbehind hgot htold hsince hlast
  refine ⟨snap, last, htelling.snapshot, htelling.seen.of_row rfl, ?_, hrest' _, ?_⟩
  · -- A status leaves the texts alone.
    intro id
    show (rebuilt (s.items ++ _)).get? id = _
    cases last with
    | none =>
        show (rebuilt (s.items ++ [])).get? id = _
        rw [List.append_nil]
        exact htelling.texts id
    | some status =>
        show (rebuilt (s.items ++ [_])).get? id = _
        rw [rebuilt_concat]
        exact htelling.texts id
  · cases last with
    | none =>
        show lastState (s.items ++ []) = _
        rw [List.append_nil]
        exact htelling.state
    | some status =>
        show lastState (s.items ++ [_]) = _
        rw [lastState_concat]
        rfl

theorem AtStage.next (hs : Sane cfg db x s) (h : AtStage x s)
    (hnext : s.next x messages = some s') : AtStage x s' := by
  cases hstage : s.stage with
  | idle => simp [State.next, hstage] at hnext
  | sent isLive => exact next_sent hs hstage h hnext
  | looking caller => exact next_looking hstage h hnext
  | reading caller status cancelRequested => exact next_reading hstage h hnext
  | opened opening => exact next_opened hstage h hnext
  | taking opening tailStatus => exact next_taking hs hstage h hnext
  | draining opened => exact next_draining hs hstage h hnext
  | asking live => exact next_asking hstage h hnext
  | telling last => exact next_telling hstage h hnext
  | ended => simp [State.next, hstage] at hnext
  | refused error => simp [State.next, hstage] at hnext

/-- The coroutine has no say in what the broker does. -/
theorem next_broker (hnext : s.next x messages = some s') :
    s'.broker = s.broker ∧ s'.door = s.door := by
  have hsub : ∀ {t : State}, s.subscribe x = .ok t → t.broker = s.broker ∧ t.door = s.door := by
    intro t ht
    obtain ⟨events, -, rfl⟩ := map_eq_ok.1 ht
    exact ⟨rfl, rfl⟩
  cases hstage : s.stage with
  | sent isLive =>
      simp only [State.next, hstage] at hnext
      split at hnext
      · cases hsubs : s.subscribe x with
        | error e =>
            rw [hsubs] at hnext
            cases hnext
            exact ⟨rfl, rfl⟩
        | ok t =>
            rw [hsubs] at hnext
            cases hnext
            exact hsub (t := t) hsubs
      · cases hnext
        exact ⟨rfl, rfl⟩
  | looking caller =>
      simp only [State.next, hstage] at hnext
      split at hnext <;> cases hnext <;> exact ⟨rfl, rfl⟩
  | reading caller status cancelRequested =>
      simp only [State.next, hstage] at hnext
      split at hnext
      · cases hnext
        exact ⟨rfl, rfl⟩
      · cases hnext
        exact ⟨rfl, rfl⟩
      · split at hnext <;> cases hnext <;> exact ⟨rfl, rfl⟩
  | opened opening =>
      simp only [State.next, hstage] at hnext
      obtain ⟨row, -, rfl⟩ := Option.map_eq_some_iff.1 hnext
      exact ⟨rfl, rfl⟩
  | taking opening tailStatus =>
      simp only [State.next, hstage] at hnext
      split at hnext
      · cases hsubs : s.subscribe x with
        | error e =>
            rw [hsubs] at hnext
            cases hnext
            exact ⟨rfl, rfl⟩
        | ok t =>
            rw [hsubs] at hnext
            cases hnext
            exact hsub (t := t) hsubs
      · cases hnext
        exact ⟨rfl, rfl⟩
  | draining opened =>
      simp only [State.next, hstage] at hnext
      split at hnext <;> cases hnext <;> exact ⟨rfl, rfl⟩
  | asking live =>
      simp only [State.next, hstage] at hnext
      split at hnext <;> cases hnext <;> exact ⟨rfl, rfl⟩
  | telling last =>
      simp only [State.next, hstage] at hnext
      cases hnext
      exact ⟨rfl, rfl⟩
  | idle => simp [State.next, hstage] at hnext
  | ended => simp [State.next, hstage] at hnext
  | refused error => simp [State.next, hstage] at hnext

end Next

/-! ## Every state -/

/-- What holds of a stream in every state. -/
structure Kept (cfg : Broker.Config) (db : RunId → Option Row) (x : TaskRef) (s : State) :
    Prop where
  sane : Sane cfg db x s
  stage : AtStage x s

theorem Kept.of_meanwhile (h : Kept cfg db x s) (hs : Sane cfg db x s') (hw : Meanwhile x s s')
    (hstage : s'.stage = s.stage) (htold : s'.told = s.told) :
    Kept cfg db x s' :=
  ⟨hs, h.stage.meanwhile hw hstage htold⟩

/-- **The step.** -/
theorem Kept.step {move : Move} (h : Kept cfg db x s) (hstep : s.step x cfg move = some s') :
    Kept cfg db x s' := by
  have hsame : ∀ {t : State}, t.broker = s.broker → t.door = s.door → Sane cfg db x t := by
    intro t hbroker hdoor
    exact ⟨hbroker ▸ h.sane.broker, by rw [hbroker, hdoor]; exact h.sane.refused⟩
  cases move with
  | broker a =>
      simp only [State.step] at hstep
      split at hstep
      · rename_i hadmits
        obtain ⟨b, hb, rfl⟩ := Option.map_eq_some_iff.1 hstep
        obtain ⟨hs, hw⟩ := h.sane.broker_step hadmits hb
        exact h.of_meanwhile hs hw rfl rfl
      · cases hstep
  | refuse =>
      simp only [State.step] at hstep
      split at hstep
      · rename_i row hdoor hhome hrow
        split at hstep
        · rename_i hqueued
          cases hstep
          refine h.of_meanwhile ⟨h.sane.broker, .inr hhome⟩ (.of_refused hhome fun row₀ hrow₀ => ?_)
            rfl rfl
          have hsame : row₀ = row := by
            unfold State.row? at hrow
            rw [hrow₀, hdoor] at hrow
            exact Option.some.inj hrow
          rw [hdoor, hsame]
          refine ⟨List.prefix_rfl, fun hend => ?_, fun hcompleted => ?_⟩
          · change row.status.terminal = true at hend
            rw [hqueued] at hend
            cases hend
          · exact absurd (hqueued.symm.trans hcompleted) nofun
        · cases hstep
      · cases hstep
  | explain seq message =>
      simp only [State.step] at hstep
      split at hstep
      · rename_i hdoor
        cases hstep
        have hhome : s.broker.home x.tail = none :=
          h.sane.refused.resolve_left (by rw [hdoor]; nofun)
        refine h.of_meanwhile ⟨h.sane.broker, .inr hhome⟩ (.of_refused hhome fun row₀ _ => ?_)
          rfl rfl
        rw [hdoor]
        exact ⟨List.prefix_append .., fun _ => rfl, nofun⟩
      · cases hstep
  | cancel =>
      cases hstep
      exact h.of_meanwhile (hsame rfl rfl)
        (.of_same rfl rfl rfl rfl rfl rfl fun hours => ⟨hours, rfl⟩) rfl rfl
  | otherOpens =>
      simp only [State.step] at hstep
      split at hstep
      · rename_i hfree
        cases hstep
        refine h.of_meanwhile (hsame rfl rfl) (.of_same rfl rfl rfl rfl rfl rfl fun hours => ?_)
          rfl rfl
        exact absurd (hfree.1.symm.trans hours) nofun
      · cases hstep
  | otherTakes =>
      simp only [State.step, State.otherTakes] at hstep
      split at hstep
      · rename_i hother
        have hnot : s.holder ≠ .ours := by
          rw [hother]
          nofun
        split at hstep
        · cases hstep
        · cases hstep
          exact h.of_meanwhile (hsame rfl rfl) (.of_same rfl rfl rfl rfl rfl rfl (absurd · hnot))
            rfl rfl
        · cases hstep
          exact h.of_meanwhile (hsame rfl rfl) (.of_same rfl rfl rfl rfl rfl rfl (absurd · hnot))
            rfl rfl
      · cases hstep
  | otherCloses =>
      simp only [State.step] at hstep
      split at hstep
      · rename_i hother
        cases hstep
        refine h.of_meanwhile (hsame rfl rfl) (.of_same rfl rfl rfl rfl rfl rfl fun hours => ?_)
          rfl rfl
        exact absurd (hother.symm.trans hours) nofun
      · cases hstep
  | send isLive =>
      simp only [State.step] at hstep
      split at hstep
      · rename_i hstage hdoor
        split at hstep
        · cases hstep
          have hat := h.stage
          simp only [AtStage, hstage] at hat
          exact ⟨hsame rfl rfl, hat⟩
        · cases hstep
      · rename_i hstage hdoor
        cases hstep
        have hat := h.stage
        simp only [AtStage, hstage] at hat
        exact ⟨hsame rfl rfl, hat⟩
      · cases hstep
  | resubscribe =>
      simp only [State.step] at hstep
      split at hstep
      · rename_i hstage
        cases hstep
        have hat := h.stage
        simp only [AtStage, hstage] at hat
        exact ⟨hsame rfl rfl, hat⟩
      · cases hstep
  | next messages =>
      obtain ⟨hbroker, hdoor⟩ := next_broker hstep
      exact ⟨hsame hbroker hdoor, h.stage.next h.sane hstep⟩

/-- **Every state of a stream.** -/
theorem reachable_kept (hs : (system cfg db x).Reachable s) : Kept cfg db x s := by
  refine System.Reachable.invariant (P := Kept cfg db x) ?_ (fun s move s' _ h => h.step) hs
  rintro s rfl
  exact ⟨⟨.init rfl, .inl rfl⟩, rfl, rfl⟩

end Funduq.A2A
