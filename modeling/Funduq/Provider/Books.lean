import Mathlib.Data.List.Nodup
import Funduq.Provider.Runtime

/-!
# The runtime's books

Where an accepted run is: a task was spawned for it, or it waits in the queue of its
lane, or an end marker was put for it while it waited.  The queue of a lane follows the
tasks spawned from it, and the two together are in the order the runs were accepted in
(`Books.order`): a run leaves the queue at its head, into a task, or as one that was
dropped.

None of it looks at whose turn it is.  A lane counts only by its queue here, so
every operation is one of four edits of the books: a run joins a queue, the head of a
queue is skipped, the head of a queue is started, a run beside the lanes is started.
-/

namespace Funduq.Provider.Runtime

open Funduq.Lib

variable {E : Type} {s s' : Runtime E}

/-! ## Reading the state -/

/-- The runs of a lane that have started, in that order; those that started beside the
lanes, for no lane. -/
def startedOn (s : Runtime E) (k : Option String) : List DeliveredRun :=
  (s.tasks.filter fun t => t.laneKey = k).map Task.run

/-- The queue of a lane; nothing waits beside the lanes. -/
def queueOf (s : Runtime E) (k : Option String) : List DeliveredRun :=
  k.elim [] fun key => ((s.lanes.get? key).map Lane.queue).getD []

/-- The runs accepted onto a lane, in that order. -/
def acceptedOn (s : Runtime E) (k : Option String) : List DeliveredRun :=
  (s.accepted.filter fun e => e.1 = k).map Prod.snd

/-- The run waits in some queue. -/
def Queued (s : Runtime E) (runId : String) : Prop :=
  ∃ k, ∃ r ∈ s.queueOf k, r.runId = runId

theorem mem_startedOn {k : Option String} {r : DeliveredRun} :
    r ∈ s.startedOn k ↔ ∃ t ∈ s.tasks, t.laneKey = k ∧ t.run = r := by
  simp only [startedOn, List.mem_map, List.mem_filter, decide_eq_true_eq, and_assoc]

theorem mem_acceptedOn {k : Option String} {r : DeliveredRun} :
    r ∈ s.acceptedOn k ↔ (k, r) ∈ s.accepted := by
  simp only [acceptedOn, List.mem_map, List.mem_filter, decide_eq_true_eq]
  constructor
  · rintro ⟨e, ⟨he, rfl⟩, rfl⟩
    exact he
  · intro h
    exact ⟨(k, r), ⟨h, rfl⟩, rfl⟩

theorem queueOf_setLane (s : Runtime E) (key : String) (lane : Lane) :
    (s.setLane key lane).queueOf = Function.update s.queueOf (some key) lane.queue := by
  funext k
  cases k with
  | none =>
      rw [Function.update_of_ne (Option.some_ne_none key).symm]
      rfl
  | some k =>
      show ((Option.map _ ((s.lanes.set key lane).get? k)).getD []) = _
      rw [Dict.get?_set]
      by_cases h : key = k
      · subst h
        rw [if_pos rfl, Function.update_self]
        rfl
      · rw [if_neg h, Function.update_of_ne fun he => h (Option.some.inj he).symm]
        rfl

theorem queueOf_of_get? {key : String} {lane : Lane} (h : s.lanes.get? key = some lane) :
    s.queueOf (some key) = lane.queue := by
  show ((Option.map _ (s.lanes.get? key)).getD []) = _
  rw [h]
  rfl

/-- A lane's own queue, written back. -/
theorem queueOf_setLane_same {key : String} {lane lane' : Lane}
    (h : s.lanes.get? key = some lane) (hq : lane'.queue = lane.queue) :
    (s.setLane key lane').queueOf = s.queueOf := by
  rw [queueOf_setLane, hq, ← queueOf_of_get? h, Function.update_eq_self]

theorem queueOf_pop {key : String} {lane : Lane} (h : s.lanes.get? key = some lane)
    (hq : lane.queue = []) :
    { s with lanes := s.lanes.pop key }.queueOf = s.queueOf := by
  funext k
  cases k with
  | none => rfl
  | some k =>
      show ((Option.map _ ((s.lanes.pop key).get? k)).getD []) = _
      rw [Dict.get?_pop]
      by_cases hk : key = k
      · subst hk
        rw [if_pos rfl, queueOf_of_get? h, hq]
        rfl
      · rw [if_neg hk]
        rfl

theorem startedOn_spawn {k : Option String} {t : Task} (h : s'.tasks = s.tasks ++ [t]) :
    s'.startedOn k = s.startedOn k ++ if t.laneKey = k then [t.run] else [] := by
  unfold startedOn
  rw [h, List.filter_append, List.map_append]
  by_cases ht : t.laneKey = k <;> simp [ht]

theorem acceptedOn_accept {k k' : Option String} {run : DeliveredRun}
    (h : s'.accepted = s.accepted ++ [(k', run)]) :
    s'.acceptedOn k = s.acceptedOn k ++ if k' = k then [run] else [] := by
  unfold acceptedOn
  rw [h, List.filter_append, List.map_append]
  by_cases hk : k' = k <;> simp [hk]

/-! ## The books -/

/-- The books are in order. -/
structure Books (s : Runtime E) : Prop where
  once : (s.accepted.map fun e => e.2.runId).Nodup
  home : ∀ key r, (some key, r) ∈ s.accepted → key = r.key
  single : (s.tasks.map Task.runId).Nodup
  order : ∀ k, (s.startedOn k ++ s.queueOf k).Sublist (s.acceptedOn k)
  whole : ∀ k r, (k, r) ∈ s.accepted →
    r ∈ s.startedOn k ∨ r ∈ s.queueOf k ∨ (r.runId, Item.endMarker) ∈ s.put
  queuedOnce : s.queued.Nodup
  droppedOnce : s.dropped.Nodup
  queued : ∀ id, id ∈ s.queued ↔ id ∉ s.dropped ∧ s.Queued id
  dropped : ∀ id ∈ s.dropped, (id, Item.endMarker) ∈ s.put ∧ s.Queued id

/-- What the books are read off. -/
theorem Books.congr (h : Books s) (hlanes : s'.queueOf = s.queueOf)
    (htasks : ∀ k, s'.startedOn k = s.startedOn k)
    (hsingle : s'.tasks.map Task.runId = s.tasks.map Task.runId)
    (hput : s.put ⊆ s'.put) (haccepted : s'.accepted = s.accepted)
    (hqueued : s'.queued = s.queued)
    (hdropped : s'.dropped = s.dropped) : Books s' where
  once := by rw [haccepted]; exact h.once
  home := by rw [haccepted]; exact h.home
  single := by rw [hsingle]; exact h.single
  order k := by
    unfold acceptedOn
    rw [htasks, hlanes, haccepted]
    exact h.order k
  whole k r hr := by
    rw [htasks, hlanes]
    exact (h.whole k r (haccepted ▸ hr)).imp_right (.imp_right (hput ·))
  queuedOnce := by rw [hqueued]; exact h.queuedOnce
  droppedOnce := by rw [hdropped]; exact h.droppedOnce
  queued id := by
    unfold Queued
    rw [hqueued, hdropped, hlanes]
    exact h.queued id
  dropped id hid := by
    unfold Queued
    rw [hlanes]
    exact (h.dropped id (hdropped ▸ hid)).imp_left (hput ·)

namespace Books

variable (h : Books s)

include h

theorem accepted_of_started {k : Option String} {r : DeliveredRun} (hr : r ∈ s.startedOn k) :
    (k, r) ∈ s.accepted :=
  mem_acceptedOn.1 ((h.order k).subset (List.mem_append_left _ hr))

theorem accepted_of_task {t : Task} (ht : t ∈ s.tasks) : (t.laneKey, t.run) ∈ s.accepted :=
  h.accepted_of_started (mem_startedOn.2 ⟨t, ht, rfl, rfl⟩)

theorem accepted_of_queue {k : Option String} {r : DeliveredRun} (hr : r ∈ s.queueOf k) :
    (k, r) ∈ s.accepted :=
  mem_acceptedOn.1 ((h.order k).subset (List.mem_append_right _ hr))

/-- An accepted run is known by its id. -/
theorem accepted_unique {e e' : Option String × DeliveredRun} (he : e ∈ s.accepted)
    (he' : e' ∈ s.accepted) (hid : e.2.runId = e'.2.runId) : e = e' :=
  List.inj_on_of_nodup_map h.once he he' hid

theorem task_unique {t t' : Task} (ht : t ∈ s.tasks) (ht' : t' ∈ s.tasks)
    (hid : t.runId = t'.runId) : t = t' :=
  List.inj_on_of_nodup_map h.single ht ht' hid

theorem acceptedOn_nodup (k : Option String) : ((s.acceptedOn k).map DeliveredRun.runId).Nodup := by
  unfold acceptedOn
  rw [List.map_map]
  exact h.once.sublist (List.filter_sublist.map _)

theorem lane_nodup (k : Option String) :
    ((s.startedOn k ++ s.queueOf k).map DeliveredRun.runId).Nodup :=
  (h.acceptedOn_nodup k).sublist ((h.order k).map _)

/-- What waits has not started. -/
theorem ne_of_queue_of_started {k k' : Option String} {r r' : DeliveredRun}
    (hr : r ∈ s.queueOf k) (hr' : r' ∈ s.startedOn k') : r'.runId ≠ r.runId := by
  intro hid
  have heq := h.accepted_unique (h.accepted_of_queue hr) (h.accepted_of_started hr') hid.symm
  obtain ⟨rfl, rfl⟩ := Prod.mk.inj heq
  have hnodup := h.lane_nodup k
  rw [List.map_append] at hnodup
  exact (List.nodup_append'.1 hnodup).2.2 (List.mem_map_of_mem hr') (List.mem_map_of_mem hr)

theorem queue_unique {k k' : Option String} {r r' : DeliveredRun} (hr : r ∈ s.queueOf k)
    (hr' : r' ∈ s.queueOf k') (hid : r.runId = r'.runId) : k = k' ∧ r = r' :=
  Prod.mk.inj (h.accepted_unique (h.accepted_of_queue hr) (h.accepted_of_queue hr') hid)

/-- The rest of a queue does not hold its head a second time. -/
theorem ne_of_mem_rest {k : Option String} {run r : DeliveredRun} {rest : List DeliveredRun}
    (hq : s.queueOf k = run :: rest) (hr : r ∈ rest) : r.runId ≠ run.runId := by
  have hnodup := h.lane_nodup k
  rw [List.map_append, hq, List.map_cons] at hnodup
  have hrest := (List.nodup_cons.1 (List.nodup_append'.1 hnodup).2.1).1
  intro hid
  exact hrest (hid ▸ List.mem_map_of_mem hr)

/-- With its head gone, a queue holds what it held otherwise. -/
theorem queued_rest_iff {k : Option String} {run : DeliveredRun} {rest : List DeliveredRun}
    (hq : s.queueOf k = run :: rest) (hq' : s'.queueOf = Function.update s.queueOf k rest)
    (id : String) : s'.Queued id ↔ s.Queued id ∧ id ≠ run.runId := by
  have hhead : run ∈ s.queueOf k := by
    rw [hq]
    exact List.mem_cons_self
  constructor
  · rintro ⟨k', r, hr, rfl⟩
    rw [hq'] at hr
    by_cases hk : k' = k
    · subst hk
      rw [Function.update_self] at hr
      refine ⟨⟨k', r, ?_, rfl⟩, h.ne_of_mem_rest hq hr⟩
      rw [hq]
      exact List.mem_cons_of_mem _ hr
    · rw [Function.update_of_ne hk] at hr
      exact ⟨⟨k', r, hr, rfl⟩, fun hid => hk (h.queue_unique hr hhead hid).1⟩
  · rintro ⟨⟨k', r, hr, rfl⟩, hne⟩
    refine ⟨k', r, ?_, rfl⟩
    rw [hq']
    by_cases hk : k' = k
    · subst hk
      rw [Function.update_self]
      rw [hq] at hr
      rcases List.mem_cons.1 hr with rfl | hr
      · exact absurd rfl hne
      · exact hr
    · rwa [Function.update_of_ne hk]

/-! ## The edits -/

/-- The head of a queue is skipped: it was dropped. -/
theorem skipHead {key : String} {lane : Lane} {run : DeliveredRun} {rest : List DeliveredRun}
    (hlane : s.lanes.get? key = some lane) (hqueue : lane.queue = run :: rest)
    (hd : run.runId ∈ s.dropped) : Books (s.skipHead key lane run rest) := by
  have hq : s.queueOf (some key) = run :: rest := (queueOf_of_get? hlane).trans hqueue
  have hq' : (s.skipHead key lane run rest).queueOf = Function.update s.queueOf (some key) rest :=
    s.queueOf_setLane key _
  have hwaits := h.queued_rest_iff hq hq'
  refine ⟨h.once, h.home, h.single, fun k => ?_, fun k r hr => ?_, h.queuedOnce.erase _,
    h.droppedOnce.erase _, fun id => ?_, fun id hid => ?_⟩
  · rw [hq']
    by_cases hk : k = some key
    · subst hk
      rw [Function.update_self]
      have horder := h.order (some key)
      rw [hq] at horder
      exact ((List.sublist_cons_self run rest).append_left _).trans horder
    · rw [Function.update_of_ne hk]
      exact h.order k
  · rw [hq']
    rcases h.whole k r hr with hstarted | hqueued | hput
    · exact .inl hstarted
    · by_cases hk : k = some key
      · subst hk
        rw [hq] at hqueued
        rcases List.mem_cons.1 hqueued with rfl | hqueued
        · exact .inr (.inr (h.dropped _ hd).1)
        · rw [Function.update_self]
          exact .inr (.inl hqueued)
      · rw [Function.update_of_ne hk]
        exact .inr (.inl hqueued)
    · exact .inr (.inr hput)
  · show id ∈ s.queued.erase run.runId ↔ id ∉ s.dropped.erase run.runId ∧ _
    rw [hwaits, h.queuedOnce.mem_erase_iff, h.droppedOnce.mem_erase_iff, h.queued]
    tauto
  · obtain ⟨hne, hid⟩ := h.droppedOnce.mem_erase_iff.1 hid
    exact ⟨(h.dropped id hid).1, (hwaits id).2 ⟨(h.dropped id hid).2, hne⟩⟩

/-- The head of a queue is started: it was not dropped. -/
theorem startHead {key : String} {lane : Lane} {run : DeliveredRun} {rest : List DeliveredRun}
    (hlane : s.lanes.get? key = some lane) (hqueue : lane.queue = run :: rest)
    (hd : run.runId ∉ s.dropped) : Books (s.startHead key lane run rest) := by
  have hq : s.queueOf (some key) = run :: rest := (queueOf_of_get? hlane).trans hqueue
  have hhead : run ∈ s.queueOf (some key) := by
    rw [hq]
    exact List.mem_cons_self
  have hq' : (s.startHead key lane run rest).queueOf =
      Function.update s.queueOf (some key) rest :=
    ({ s with queued := s.queued.erase run.runId } : Runtime E).queueOf_setLane key _
  have hwaits := h.queued_rest_iff hq hq'
  have hstarted (k : Option String) : (s.startHead key lane run rest).startedOn k =
      s.startedOn k ++ if some key = k then [run] else [] :=
    startedOn_spawn (t := { run, hooked := false, laneKey := some key }) rfl
  refine ⟨h.once, h.home, ?_, fun k => ?_, fun k r hr => ?_, h.queuedOnce.erase _,
    h.droppedOnce, fun id => ?_, fun id hid => ?_⟩
  · show ((s.tasks ++ [_]).map Task.runId).Nodup
    rw [List.map_append]
    refine List.nodup_append'.2 ⟨h.single, List.nodup_singleton _, ?_⟩
    rintro id hid hnew
    obtain ⟨t, ht, rfl⟩ := List.mem_map.1 hid
    exact h.ne_of_queue_of_started hhead (mem_startedOn.2 ⟨t, ht, rfl, rfl⟩)
      (List.mem_singleton.1 hnew)
  · rw [hstarted, hq']
    by_cases hk : k = some key
    · subst hk
      rw [Function.update_self, if_pos rfl, List.append_assoc, List.singleton_append, ← hq]
      exact h.order (some key)
    · rw [Function.update_of_ne hk, if_neg (Ne.symm hk), List.append_nil]
      exact h.order k
  · rw [hstarted, hq']
    rcases h.whole k r hr with hbefore | hqueued | hput
    · exact .inl (List.mem_append_left _ hbefore)
    · by_cases hk : k = some key
      · subst hk
        rw [hq] at hqueued
        rw [if_pos rfl, Function.update_self]
        rcases List.mem_cons.1 hqueued with rfl | hqueued
        · exact .inl (List.mem_append_right _ (List.mem_singleton_self _))
        · exact .inr (.inl hqueued)
      · rw [Function.update_of_ne hk]
        exact .inr (.inl hqueued)
    · exact .inr (.inr hput)
  · show id ∈ s.queued.erase run.runId ↔ id ∉ s.dropped ∧ _
    rw [hwaits, h.queuedOnce.mem_erase_iff, h.queued]
    tauto
  · refine ⟨(h.dropped id hid).1, (hwaits id).2 ⟨(h.dropped id hid).2, ?_⟩⟩
    rintro rfl
    exact hd hid

/-- A run starts beside the lanes. -/
theorem interject {run : DeliveredRun} (hnew : s.isNew run.runId = true) :
    Books ((s.accept none run).startRun run true none) := by
  have hfresh : run.runId ∉ s.accepted.map fun e => e.2.runId := of_decide_eq_true hnew
  have hstarted (k : Option String) : ((s.accept none run).startRun run true none).startedOn k =
      s.startedOn k ++ if none = k then [run] else [] :=
    startedOn_spawn (t := { run, hooked := true, laneKey := none }) rfl
  refine ⟨?_, fun key r hr => ?_, ?_, fun k => ?_, fun k r hr => ?_, h.queuedOnce, h.droppedOnce,
    h.queued, h.dropped⟩
  · show ((s.accepted ++ [_]).map _).Nodup
    rw [List.map_append]
    exact List.nodup_append'.2 ⟨h.once, List.nodup_singleton _, by simpa using hfresh⟩
  · rcases List.mem_append.1 hr with hr | hr
    · exact h.home key r hr
    · simp at hr
  · show ((s.tasks ++ [_]).map Task.runId).Nodup
    rw [List.map_append]
    refine List.nodup_append'.2 ⟨h.single, List.nodup_singleton _, ?_⟩
    rintro id hid hnew
    obtain ⟨t, ht, rfl⟩ := List.mem_map.1 hid
    have hid : t.runId = run.runId := List.mem_singleton.1 hnew
    exact hfresh (hid ▸ List.mem_map.2 ⟨_, h.accepted_of_task ht, rfl⟩)
  · rw [hstarted, acceptedOn_accept rfl]
    show (_ ++ s.queueOf k).Sublist _
    cases k with
    | none =>
        rw [if_pos rfl]
        show ((s.startedOn none ++ [run]) ++ []).Sublist _
        rw [List.append_nil]
        exact ((List.sublist_append_left _ _).trans (h.order none)).append (.refl _)
    | some key =>
        rw [if_neg nofun, List.append_nil, List.append_nil]
        exact h.order (some key)
  · rw [hstarted]
    rcases List.mem_append.1 hr with hr | hr
    · exact (h.whole k r hr).imp_left (List.mem_append_left _)
    · obtain ⟨rfl, rfl⟩ := Prod.mk.inj (List.mem_singleton.1 hr)
      exact .inl (List.mem_append_right _ (List.mem_singleton_self _))

/-- A run joins the queue of its lane. -/
theorem enqueue {run : DeliveredRun} {lane : Lane} (hnew : s.isNew run.runId = true)
    (hlane : s.queueOf (some run.key) = lane.queue) :
    Books ((s.accept (some run.key) run).enqueue run.key lane run) := by
  have hfresh : run.runId ∉ s.accepted.map fun e => e.2.runId := of_decide_eq_true hnew
  have hq' : ((s.accept (some run.key) run).enqueue run.key lane run).queueOf =
      Function.update s.queueOf (some run.key) (s.queueOf (some run.key) ++ [run]) := by
    rw [hlane]
    exact (s.accept (some run.key) run).queueOf_setLane run.key _
  have hwaits (id : String) :
      ((s.accept (some run.key) run).enqueue run.key lane run).Queued id ↔
        s.Queued id ∨ id = run.runId := by
    unfold Queued
    rw [hq']
    constructor
    · rintro ⟨k, r, hr, rfl⟩
      by_cases hk : k = some run.key
      · subst hk
        rw [Function.update_self] at hr
        rcases List.mem_append.1 hr with hr | hr
        · exact .inl ⟨_, r, hr, rfl⟩
        · exact .inr (congrArg DeliveredRun.runId (List.mem_singleton.1 hr))
      · rw [Function.update_of_ne hk] at hr
        exact .inl ⟨k, r, hr, rfl⟩
    · rintro (⟨k, r, hr, rfl⟩ | rfl)
      · refine ⟨k, r, ?_, rfl⟩
        by_cases hk : k = some run.key
        · subst hk
          rw [Function.update_self]
          exact List.mem_append_left _ hr
        · rwa [Function.update_of_ne hk]
      · refine ⟨some run.key, run, ?_, rfl⟩
        rw [Function.update_self]
        exact List.mem_append_right _ (List.mem_singleton_self _)
  have hnot : ¬ s.Queued run.runId := by
    rintro ⟨k, r, hr, hid⟩
    exact hfresh (hid ▸ List.mem_map.2 ⟨_, h.accepted_of_queue hr, rfl⟩)
  refine ⟨?_, fun key r hr => ?_, h.single, fun k => ?_, fun k r hr => ?_, ?_, h.droppedOnce,
    fun id => ?_, fun id hid => ?_⟩
  · show ((s.accepted ++ [_]).map _).Nodup
    rw [List.map_append]
    exact List.nodup_append'.2 ⟨h.once, List.nodup_singleton _, by simpa using hfresh⟩
  · rcases List.mem_append.1 hr with hr | hr
    · exact h.home key r hr
    · obtain ⟨hkey, rfl⟩ := Prod.mk.inj (List.mem_singleton.1 hr)
      exact Option.some.inj hkey
  · rw [hq', acceptedOn_accept rfl]
    show (s.startedOn k ++ _).Sublist _
    by_cases hk : k = some run.key
    · subst hk
      rw [Function.update_self, if_pos rfl, ← List.append_assoc]
      exact (h.order _).append (.refl _)
    · rw [Function.update_of_ne hk, if_neg (Ne.symm hk), List.append_nil]
      exact h.order k
  · rw [hq']
    rcases List.mem_append.1 hr with hr | hr
    · rcases h.whole k r hr with hstarted | hqueued | hput
      · exact .inl hstarted
      · refine .inr (.inl ?_)
        by_cases hk : k = some run.key
        · subst hk
          rw [Function.update_self]
          exact List.mem_append_left _ hqueued
        · rwa [Function.update_of_ne hk]
      · exact .inr (.inr hput)
    · obtain ⟨rfl, rfl⟩ := Prod.mk.inj (List.mem_singleton.1 hr)
      rw [Function.update_self]
      exact .inr (.inl (List.mem_append_right _ (List.mem_singleton_self _)))
  · exact h.queuedOnce.insert
  · show id ∈ s.queued.insert run.runId ↔ id ∉ s.dropped ∧ _
    rw [hwaits, List.mem_insert_iff, h.queued]
    constructor
    · rintro (rfl | ⟨hnd, hq⟩)
      · exact ⟨fun hd => hnot (h.dropped _ hd).2, .inr rfl⟩
      · exact ⟨hnd, .inl hq⟩
    · rintro ⟨hnd, hq | rfl⟩
      · exact .inr ⟨hnd, hq⟩
      · exact .inl rfl
  · exact ⟨(h.dropped id hid).1, (hwaits id).2 (.inl (h.dropped id hid).2)⟩

/-- A run that waits is dropped. -/
theorem drop {id : String} (hid : id ∈ s.queued) :
    Books ({ s with
      queued := s.queued.erase id
      dropped := s.dropped.insert id }.emit id Item.endMarker) := by
  refine ⟨h.once, h.home, h.single, h.order, fun k r hr => ?_, h.queuedOnce.erase _,
    h.droppedOnce.insert, fun x => ?_, fun x hx => ?_⟩
  · exact (h.whole k r hr).imp_right (.imp_right (List.mem_append_left _))
  · show x ∈ s.queued.erase id ↔ x ∉ s.dropped.insert id ∧ s.Queued x
    rw [h.queuedOnce.mem_erase_iff, List.mem_insert_iff, h.queued]
    tauto
  · rcases List.mem_insert_iff.1 hx with rfl | hx
    · exact ⟨List.mem_append_right _ (List.mem_singleton_self _), ((h.queued x).1 hid).2⟩
    · exact (h.dropped x hx).imp_left (List.mem_append_left _)

end Books

end Funduq.Provider.Runtime
