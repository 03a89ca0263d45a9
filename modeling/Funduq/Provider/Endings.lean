import Funduq.Provider.NoneLost

/-!
# The end of every run

`_execute` puts the end marker in a `finally`, and `cancel` puts it for a run that it
drops.  So what is put about a run is events, and then at most one end marker, after
which nothing more is said (`Told`).  But a coroutine that has not begun has no `finally`
yet: a task that is cancelled before its first step ends without a marker, and so does
one whose `run_stream` raises when it is called, which is before the `try`.  Where
neither happens every task that has ended has put its marker (`Heeded`).
-/

namespace Funduq.Provider.Runtime

open Funduq.Lib

variable {E : Type} {s s' : Runtime E}

/-! ## What the lanes do to everything else -/

/-- A property that the transitions of the lanes keep: they rewrite lanes and the list of
the parked, take runs off `_queued` and `_dropped`, and start runs that are queued where
there is a slot. -/
structure LaneRule (P : Runtime E → Prop) : Prop where
  lanes : ∀ s lanes parked, P s → P { s with
    lanes := lanes
    parked := parked }
  skip : ∀ s id, P s → P { s with
    queued := s.queued.erase id
    dropped := s.dropped.erase id }
  start : ∀ (s : Runtime E) (run : DeliveredRun) (key : String), P s → Kept (some key) s → run.runId ∈ s.queued → s.slotFree = true →
    P ({ s with queued := s.queued.erase run.runId }.startRun run false (some key))

namespace LaneRule

variable {P : Runtime E → Prop} {key : String} {lane : Lane}

theorem laneLoop (hP : LaneRule P) (h : Kept (some key) s) (hs : P s)
    (hlane : s.lanes.get? key = some lane) : P (s.laneLoop key lane lane.queue) := by
  refine laneLoop_rule (P := fun t => Kept (some key) t ∧ P t) (Q := P) ?_ ?_ ?_ ?_ ⟨h, hs⟩
    hlane rfl
  · rintro t lane run rest ⟨ht, hPt⟩ hlane hqueue hd
    refine ⟨⟨ht.books.skipHead hlane hqueue hd, ht.turns.skipHead hlane⟩, ?_⟩
    exact hP.skip _ run.runId (hP.lanes t (t.lanes.set key { lane with queue := rest }) t.parked hPt)
  · rintro t lane run rest ⟨ht, hPt⟩ hlane hqueue hd hfree
    have hmem : run.runId ∈ t.queued := by
      refine (ht.books.queued _).2 ⟨hd, some key, run, ?_, rfl⟩
      rw [queueOf_of_get? hlane, hqueue]
      exact List.mem_cons_self
    let lane' := { lane with
      queue := rest
      activeRunId := some run.runId }
    exact hP.lanes _ (t.lanes.set key lane') t.parked (hP.start t run key hPt ht hmem hfree)
  · rintro t lane ⟨ht, hPt⟩ hlane -
    unfold park
    split
    · exact hPt
    · exact hP.lanes t (t.lanes.set key { lane with parked := true }) (t.parked ++ [key]) hPt
  · rintro t lane ⟨ht, hPt⟩ hlane -
    exact hP.lanes t (t.lanes.pop key) t.parked hPt

theorem kickParked (hP : LaneRule P) (h : Kept none s) (hs : P s) : P s.kickParked := by
  have hturn : ∀ (_ : Nat) t key parked lane, Kept none t ∧ P t → t.parked = key :: parked →
      t.slotFree = true → t.lanes.get? key = some lane →
        let t' := ({ t with parked := parked }.setLane key
          { lane with parked := false }).laneLoop key { lane with parked := false } lane.queue
        Kept none t' ∧ P t' := by
    rintro - t key parked lane ⟨ht, hPt⟩ hparked hfree hlane
    refine ⟨(ht.kick hparked hfree hlane).1, ?_⟩
    apply hP.laneLoop (ht.unpark hparked hlane) ?_ (get?_setLane _ key _)
    exact hP.lanes t (t.lanes.set key { lane with parked := false }) parked hPt
  have hgone : ∀ (_ : Nat) t key parked, Kept none t ∧ P t → t.parked = key :: parked →
      t.lanes.get? key = none → Kept none { t with parked := parked } ∧
        P { t with parked := parked } := by
    rintro - t key parked ⟨ht, -⟩ hparked hnone
    exact absurd hnone (ht.turns.parked_head hparked)
  obtain ⟨-, ⟨-, hend⟩, -⟩ := kickLoop_rule (P := fun _ t => Kept none t ∧ P t) hturn hgone
    s.parked.length ⟨h, hs⟩
  exact hend

/-- A completion callback, once its run has left `_in_flight`. -/
theorem callback (hP : LaneRule P) (h : Kept none s) {t : Task} (ht : t ∈ s.tasks)
    (hphase : t.phase ≠ .settled) (hs : P (s.settle t.runId)) :
    P ((s.settle t.runId).freeLane t.runId t.laneKey).kickParked := by
  refine hP.kickParked (h.freeLane ht hphase) ?_
  cases hk : t.laneKey with
  | none => exact hs
  | some key =>
      obtain ⟨lane, hlane, hactive, hkept⟩ := h.settle_lane ht hphase hk
      have hloose := (s.settle t.runId).get?_setLane key { lane with activeRunId := none }
      have hnext := hP.laneLoop hkept
        (hP.lanes _ (s.lanes.set key { lane with activeRunId := none }) s.parked hs) hloose
      have hget : (s.settle t.runId).lanes.get? key = some lane := hlane
      unfold Runtime.freeLane
      dsimp only
      rw [hget]
      dsimp only
      rw [if_pos hactive]
      unfold laneNext
      rw [hloose]
      exact hnext

/-- `deliver` of a run whose lane is not there yet. -/
theorem opens (hP : LaneRule P) (h : Kept none s) {run : DeliveredRun}
    (hnew : s.isNew run.runId = true) (hlane : s.lanes.get? run.key = none)
    (hs : P ((s.accept (some run.key) run).enqueue run.key {} run)) :
    P (((s.accept (some run.key) run).enqueue run.key {} run).laneNext run.key) := by
  unfold laneNext
  rw [get?_opened]
  exact hP.laneLoop (h.enqueue hnew hlane) hs (get?_opened run)

end LaneRule

/-! ## What is put about a run -/

/-- What a log holds about a run. -/
def saidIn (log : List (String × Item E)) (runId : String) : List (Item E) :=
  (log.filter fun p => p.1 = runId).map Prod.snd

/-- Events only. -/
def Talks (items : List (Item E)) : Prop := ∃ events : List E, items = events.map .event

/-- Events, and then the end marker. -/
def Closes (items : List (Item E)) : Prop :=
  ∃ events : List E, items = events.map .event ++ [.endMarker]

theorem saidIn_concat (log : List (String × Item E)) (id x : String) (item : Item E) :
    saidIn (log ++ [(id, item)]) x = saidIn log x ++ if id = x then [item] else [] := by
  unfold saidIn
  rw [List.filter_append, List.map_append]
  by_cases h : id = x <;> simp [h]

theorem mem_saidIn {log : List (String × Item E)} {id : String} {item : Item E} :
    item ∈ saidIn log id ↔ (id, item) ∈ log := by
  simp only [saidIn, List.mem_map, List.mem_filter, decide_eq_true_eq]
  constructor
  · rintro ⟨e, ⟨he, rfl⟩, rfl⟩
    exact he
  · intro h
    exact ⟨(id, item), ⟨h, rfl⟩, rfl⟩

theorem Talks.no_end {items : List (Item E)} (h : Talks items) : Item.endMarker ∉ items := by
  obtain ⟨events, rfl⟩ := h
  simp

theorem Closes.has_end {items : List (Item E)} (h : Closes items) : Item.endMarker ∈ items := by
  obtain ⟨events, rfl⟩ := h
  exact List.mem_append_right _ (List.mem_singleton_self _)

theorem Talks.event {items : List (Item E)} (h : Talks items) (e : E) :
    Talks (items ++ [.event e]) := by
  obtain ⟨events, rfl⟩ := h
  exact ⟨events ++ [e], by simp⟩

theorem Talks.close {items : List (Item E)} (h : Talks items) : Closes (items ++ [.endMarker]) := by
  obtain ⟨events, rfl⟩ := h
  exact ⟨events, rfl⟩

/-- What was put about a run is events and at most one end marker, the last; none was
put for a run that executes or waits. -/
structure Told (s : Runtime E) : Prop where
  link : s.link = true
  log : s.put = s.reported ++ s.output
  shape : ∀ id, Talks (saidIn s.put id) ∨ Closes (saidIn s.put id)
  going : ∀ t ∈ s.tasks, t.done = false → (t.runId, Item.endMarker) ∉ s.put
  waiting : ∀ id ∈ s.queued, (id, Item.endMarker) ∉ s.put
  known : ∀ id, (id, Item.endMarker) ∈ s.put → id ∈ s.accepted.map fun e => e.2.runId

namespace Told

theorem talks (h : Told s) {id : String} (hno : (id, Item.endMarker) ∉ s.put) :
    Talks (saidIn s.put id) :=
  (h.shape id).resolve_right fun hclosed => hno (mem_saidIn.1 hclosed.has_end)

theorem closes (h : Told s) {id : String} (hend : (id, Item.endMarker) ∈ s.put) :
    Closes (saidIn s.put id) :=
  (h.shape id).resolve_left fun htalks => htalks.no_end (mem_saidIn.2 hend)

/-- Nothing is put. -/
theorem keep (h : Told s) (hgoing : ∀ t ∈ s'.tasks, t.done = false →
      (t.runId, Item.endMarker) ∉ s.put)
    (hwaiting : ∀ id ∈ s'.queued, (id, Item.endMarker) ∉ s.put)
    (haccepted : s.accepted ⊆ s'.accepted) (hput : s'.put = s.put)
    (hlink : s'.link = s.link)
    (hlog : s'.reported ++ s'.output = s.reported ++ s.output) : Told s' where
  link := hlink.trans h.link
  log := by rw [hput, hlog]; exact h.log
  shape := by rw [hput]; exact h.shape
  going := by rw [hput]; exact hgoing
  waiting := by rw [hput]; exact hwaiting
  known id hid := List.map_subset _ haccepted (h.known id (hput ▸ hid))

/-- A run that goes on says something. -/
theorem event (h : Told s) {id : String} (hno : (id, Item.endMarker) ∉ s.put) (e : E) :
    Told (s.emit id (.event e)) := by
  have hsame (x : String) : (x, Item.endMarker) ∈ (s.emit id (.event e)).put ↔
      (x, Item.endMarker) ∈ s.put := by
    show _ ∈ s.put ++ [(id, Item.event e)] ↔ _
    simp
  refine ⟨h.link, ?_, fun x => ?_, fun t ht hgoing hx => h.going t ht hgoing ((hsame _).1 hx),
    fun x hx hend => h.waiting x hx ((hsame x).1 hend), fun x hx => h.known x ((hsame x).1 hx)⟩
  · show s.put ++ _ = s.reported ++ (s.output ++ _)
    rw [h.log, List.append_assoc]
  · show Talks (saidIn (s.put ++ _) x) ∨ Closes (saidIn (s.put ++ _) x)
    rw [saidIn_concat]
    by_cases hx : id = x
    · subst hx
      rw [if_pos rfl]
      exact .inl ((h.talks hno).event e)
    · rw [if_neg hx, List.append_nil]
      exact h.shape x

/-- A run is finished. -/
theorem close (h : Told s) {id : String} (hno : (id, Item.endMarker) ∉ s.put)
    (hknown : id ∈ s.accepted.map fun e => e.2.runId)
    (hgoing : ∀ t ∈ s'.tasks, t.done = false → t.runId ≠ id ∧ (t.runId, Item.endMarker) ∉ s.put)
    (hwaiting : ∀ x ∈ s'.queued, x ≠ id ∧ x ∈ s.queued) (haccepted : s'.accepted = s.accepted)
    (hput : s'.put = s.put ++ [(id, .endMarker)]) (hlink : s'.link = s.link)
    (hreported : s'.reported = s.reported)
    (houtput : s'.output = s.output ++ [(id, .endMarker)]) : Told s' := by
  have hmem (x : String) : (x, Item.endMarker) ∈ s'.put ↔
      (x, Item.endMarker) ∈ s.put ∨ x = id := by
    rw [hput]
    simp
  refine ⟨hlink.trans h.link, ?_, fun x => ?_, fun t ht hdone hend => ?_, fun x hx hend => ?_,
    fun x hx => ?_⟩
  · rw [hput, hreported, houtput, h.log, List.append_assoc]
  · rw [hput, saidIn_concat]
    by_cases hx : id = x
    · subst hx
      rw [if_pos rfl]
      exact .inr (h.talks hno).close
    · rw [if_neg hx, List.append_nil]
      exact h.shape x
  · obtain ⟨hne, hbefore⟩ := hgoing t ht hdone
    rcases (hmem _).1 hend with hend | heq
    · exact hbefore hend
    · exact hne heq
  · obtain ⟨hne, hbefore⟩ := hwaiting x hx
    rcases (hmem x).1 hend with hend | heq
    · exact h.waiting x hbefore hend
    · exact hne heq
  · rw [haccepted]
    rcases (hmem x).1 hx with hend | rfl
    · exact h.known x hend
    · exact hknown

/-- A run that is new has had nothing put. -/
theorem of_new (h : Told s) {id : String} (hnew : s.isNew id = true) :
    (id, Item.endMarker) ∉ s.put := fun hend => of_decide_eq_true hnew (h.known id hend)

theorem laneRule : LaneRule (Told (E := E)) where
  lanes _ _ _ h := h.keep h.going h.waiting (List.Subset.refl _) rfl rfl rfl
  skip _ _ h := h.keep h.going (fun _ hx => h.waiting _ (List.mem_of_mem_erase hx))
    (List.Subset.refl _) rfl rfl rfl
  start s run key h _ hqueued _ := by
    refine h.keep (fun t ht hdone => ?_) (fun _ hx => h.waiting _ (List.mem_of_mem_erase hx))
      (List.Subset.refl _) rfl rfl rfl
    rcases List.mem_append.1 ht with ht | ht
    · exact h.going t ht hdone
    · rw [List.mem_singleton.1 ht]
      exact h.waiting _ hqueued

/-- A task goes on, or ends, without a word. -/
theorem atTask (h : Told s) {id : String} {f : Task → Task}
    (hf : ∀ t, (f t).run = t.run)
    (hdone : ∀ t ∈ s.tasks, t.runId = id → (f t).done = false → t.done = false) :
    Told (s.atTask id f) := by
  refine h.keep (fun t ht hgoing => ?_) h.waiting (List.Subset.refl _) rfl rfl rfl
  obtain ⟨x, hx, rfl⟩ := List.mem_map.1 ht
  by_cases hid : x.runId = id
  · rw [if_pos hid] at hgoing ⊢
    have hrun : (f x).runId = x.runId := congrArg DeliveredRun.runId (hf x)
    rw [hrun]
    exact h.going x hx (hdone x hx hid hgoing)
  · rw [if_neg hid] at hgoing ⊢
    exact h.going x hx hgoing

theorem deliver (h : Told s) (hs : Sound s) {run : DeliveredRun}
    (hnew : s.isNew run.runId = true) (hook : Hook) : Told (s.deliver run hook).2 := by
  have hqueued {lane : Lane} :
      Told ((s.accept (some run.key) run).enqueue run.key lane run) := by
    refine h.keep h.going (fun x hx => ?_) (List.subset_append_left _ _) rfl rfl rfl
    rcases List.mem_insert_iff.1 hx with rfl | hx
    · exact h.of_new hnew
    · exact h.waiting x hx
  unfold Runtime.deliver
  split
  · split
    · unfold Runtime.interject
      cases hook with
      | unreadable => exact h
      | absent => exact h
      | raising =>
          dsimp only
          split <;> exact h
      | streaming =>
          dsimp only
          split
          · refine h.keep (fun t ht hdone => ?_) h.waiting (List.subset_append_left _ _)
              rfl rfl rfl
            rcases List.mem_append.1 ht with ht | ht
            · exact h.going t ht hdone
            · rw [List.mem_singleton.1 ht]
              exact h.of_new hnew
          · exact h
    · split
      · cases hlane : s.lanes.get? run.key with
        | none =>
            have hget : (s.accept (some run.key) run).lanes.get? run.key = none := hlane
            dsimp only
            rw [hget]
            exact laneRule.opens hs.kept hnew hlane hqueued
        | some lane =>
            have hget : (s.accept (some run.key) run).lanes.get? run.key = some lane := hlane
            dsimp only
            rw [hget]
            exact hqueued
      · exact h
  · exact h

theorem cancel (h : Told s) (hs : Sound s) (id : String) : Told (s.cancel id) := by
  unfold Runtime.cancel
  split
  · refine h.atTask (fun t => ?_) fun t _ _ => ?_
    · unfold Task.cancel
      split <;> rfl
    · unfold Task.cancel
      split <;> exact fun h => h
  · split
    · rename_i hqueued
      have hwaits := ((hs.kept.books.queued id).1 hqueued).2
      obtain ⟨k, r, hr, rfl⟩ := hwaits
      refine h.close (h.waiting _ hqueued)
        (List.mem_map.2 ⟨_, hs.kept.books.accepted_of_queue hr, rfl⟩) (fun t ht hdone => ?_)
        (fun x hx => (hs.kept.books.queuedOnce.mem_erase_iff.1 hx)) rfl rfl rfl rfl rfl
      exact ⟨hs.kept.books.ne_of_queue_of_started hr (mem_startedOn.2 ⟨t, ht, rfl, rfl⟩),
        h.going t ht hdone⟩
    · exact h

theorem begin (h : Told s) (hs : Sound s) {id : String} {opens : Bool}
    (hstep : s.begin id opens = some s') : Told s' := by
  obtain ⟨t, hfind, rfl⟩ := Option.map_eq_some_iff.1 hstep
  obtain ⟨ht, rfl, hphase⟩ := task_of_find? hfind
  have hset (phase : Phase) : Told (s.setPhase t.runId phase) := by
    refine h.atTask (fun _ => rfl) fun x hx hid _ => ?_
    rw [hs.kept.books.task_unique hx ht hid]
    unfold Task.done
    rw [hphase]
    rfl
  split
  · exact hset _
  · split <;> exact hset _

theorem stops (h : Told s) (hs : Sound s) {id : String} (hstep : s.stops id = some s') :
    Told s' := by
  unfold Runtime.stops at hstep
  split at hstep
  · rename_i hat
    cases hstep
    obtain ⟨t, ht, rfl, hphase⟩ := task_of_isAt hat
    have hgoing : t.done = false := by
      unfold Task.done
      rw [hphase]
      rfl
    refine h.close (h.going t ht hgoing)
      (List.mem_map.2 ⟨_, hs.kept.books.accepted_of_task ht, rfl⟩) (fun x hx hdone => ?_)
      (fun x hx => ⟨?_, hx⟩) rfl rfl rfl rfl rfl
    · obtain ⟨y, hy, rfl⟩ := List.mem_map.1 hx
      by_cases hid : y.runId = t.runId
      · rw [if_pos hid] at hdone
        cases hdone
      · rw [if_neg hid] at hdone ⊢
        exact ⟨hid, h.going y hy hdone⟩
    · rintro rfl
      obtain ⟨-, k, r, hr, hid⟩ := (hs.kept.books.queued _).1 hx
      exact hs.kept.books.ne_of_queue_of_started hr (mem_startedOn.2 ⟨t, ht, rfl, rfl⟩) hid.symm
  · cases hstep

theorem complete (h : Told s) (hs : Sound s) {id : String} (hstep : s.complete id = some s') :
    Told s' := by
  obtain ⟨t, hfind, rfl⟩ := Option.map_eq_some_iff.1 hstep
  obtain ⟨ht, rfl, hphase⟩ := task_of_find? hfind
  refine laneRule.callback hs.kept ht (hphase ▸ nofun) ?_
  refine h.keep (fun x hx hdone => ?_) h.waiting (List.Subset.refl _) rfl rfl rfl
  obtain ⟨y, hy, rfl⟩ := List.mem_map.1 hx
  by_cases hid : y.runId = t.runId
  · rw [if_pos hid] at hdone
    cases hdone
  · rw [if_neg hid] at hdone ⊢
    exact h.going y hy hdone

theorem step (h : Told s) (hs : Sound s) {m : Move E} (hstep : s.step m = some s') : Told s' := by
  cases m with
  | deliver run hook =>
      simp only [Runtime.step, Option.ite_none_right_eq_some, Option.some.injEq] at hstep
      obtain ⟨hnew, rfl⟩ := hstep
      exact h.deliver hs hnew hook
  | cancel id =>
      cases hstep
      exact h.cancel hs id
  | begin id opens => exact h.begin hs hstep
  | yields id e =>
      simp only [Runtime.step, Runtime.yields, Option.ite_none_right_eq_some,
        Option.some.injEq] at hstep
      obtain ⟨hat, rfl⟩ := hstep
      obtain ⟨t, ht, rfl, hphase⟩ := task_of_isAt hat
      refine h.event (h.going t ht ?_) e
      unfold Task.done
      rw [hphase]
      rfl
  | stops id => exact h.stops hs hstep
  | complete id => exact h.complete hs hstep
  | reportOutput =>
      simp only [Runtime.step, Runtime.reportOutput] at hstep
      split at hstep
      · cases hstep
      · rename_i item output houtput
        rw [if_pos h.link] at hstep
        cases hstep
        refine h.keep h.going h.waiting (fun _ h => h) rfl rfl ?_
        show (s.reported ++ [item]) ++ output = _
        rw [houtput, List.append_assoc]
        rfl

end Told

/-! ## Where no coroutine is lost -/

/-- The run is not cancelled between its task and the task's first step, and calling
`run_stream` for it returns. -/
def prompt (s : Runtime E) : Move E → Bool
  | .cancel runId => !s.isAt runId .created
  | .begin runId opens => opens || s.tasks.any fun t => t.runId = runId ∧ t.hooked = true
  | _ => true

/-- Every task that has ended has put its end marker. -/
structure Heeded (s : Runtime E) : Prop where
  ended : ∀ t ∈ s.tasks, t.done = true → (t.runId, Item.endMarker) ∈ s.put
  unasked : ∀ t ∈ s.tasks, t.phase = .created → t.cancelled = false

namespace Heeded

theorem of_put (h : Heeded s) (htasks : s'.tasks = s.tasks) (hput : s.put ⊆ s'.put) :
    Heeded s' where
  ended := by
    rw [htasks]
    exact fun t ht hdone => hput (h.ended t ht hdone)
  unasked := by
    rw [htasks]
    exact h.unasked

/-- A run is started. -/
theorem spawn (h : Heeded s) {t : Task} (hdone : t.done = false) (hcancelled : t.cancelled = false)
    (htasks : s'.tasks = s.tasks ++ [t]) (hput : s'.put = s.put) : Heeded s' where
  ended x hx hend := by
    rw [hput]
    rw [htasks] at hx
    rcases List.mem_append.1 hx with hx | hx
    · exact h.ended x hx hend
    · rw [List.mem_singleton.1 hx, hdone] at hend
      cases hend
  unasked x hx hphase := by
    rw [htasks] at hx
    rcases List.mem_append.1 hx with hx | hx
    · exact h.unasked x hx hphase
    · rw [List.mem_singleton.1 hx]
      exact hcancelled

theorem laneRule : LaneRule (Heeded (E := E)) where
  lanes _ _ _ h := h.of_put rfl fun _ h => h
  skip _ _ h := h.of_put rfl fun _ h => h
  start _ _ _ h _ _ _ := h.spawn rfl rfl rfl rfl

/-- Something is done to one task. -/
theorem atTask (h : Heeded s) {id : String} {f : Task → Task}
    (hf : ∀ t, (f t).run = t.run)
    (hdone : ∀ t ∈ s.tasks, t.runId = id → (f t).done = true → (id, Item.endMarker) ∈ s.put)
    (hunasked : ∀ t ∈ s.tasks, t.runId = id → (f t).phase = .created → (f t).cancelled = false) :
    Heeded (s.atTask id f) where
  ended t ht hend := by
    obtain ⟨x, hx, rfl⟩ := List.mem_map.1 ht
    by_cases hid : x.runId = id
    · rw [if_pos hid] at hend ⊢
      have hrun : (f x).runId = x.runId := congrArg DeliveredRun.runId (hf x)
      rw [hrun, hid]
      exact hdone x hx hid hend
    · rw [if_neg hid] at hend ⊢
      exact h.ended x hx hend
  unasked t ht hphase := by
    obtain ⟨x, hx, rfl⟩ := List.mem_map.1 ht
    by_cases hid : x.runId = id
    · rw [if_pos hid] at hphase ⊢
      exact hunasked x hx hid hphase
    · rw [if_neg hid] at hphase ⊢
      exact h.unasked x hx hphase

theorem deliver (h : Heeded s) (hs : Sound s) {run : DeliveredRun}
    (hnew : s.isNew run.runId = true) (hook : Hook) : Heeded (s.deliver run hook).2 := by
  unfold Runtime.deliver
  split
  · split
    · unfold Runtime.interject
      cases hook with
      | unreadable => exact h
      | absent => exact h
      | raising =>
          dsimp only
          split <;> exact h
      | streaming =>
          dsimp only
          split
          · exact h.spawn rfl rfl rfl rfl
          · exact h
    · split
      · cases hlane : s.lanes.get? run.key with
        | none =>
            have hget : (s.accept (some run.key) run).lanes.get? run.key = none := hlane
            dsimp only
            rw [hget]
            exact laneRule.opens hs.kept hnew hlane (h.of_put rfl fun _ h => h)
        | some lane =>
            have hget : (s.accept (some run.key) run).lanes.get? run.key = some lane := hlane
            dsimp only
            rw [hget]
            exact h.of_put rfl fun _ h => h
      · exact h
  · exact h

theorem cancel (h : Heeded s) {id : String} (hprompt : s.isAt id .created = false) :
    Heeded (s.cancel id) := by
  unfold Runtime.cancel
  split
  · refine h.atTask (fun t => ?_) (fun t ht hid hdone => ?_) fun t ht hid hphase => ?_
    · unfold Task.cancel
      split <;> rfl
    · refine hid ▸ h.ended t ht ?_
      unfold Task.cancel at hdone
      split at hdone <;> exact hdone
    · have hcreated : t.phase = .created := by
        unfold Task.cancel at hphase
        split at hphase <;> exact hphase
      have hat : s.isAt id .created = true := by
        unfold isAt
        exact List.any_eq_true.2 ⟨t, ht, decide_eq_true ⟨hid, hcreated⟩⟩
      rw [hprompt] at hat
      cases hat
  · split
    · exact h.of_put rfl fun _ h => List.mem_append_left _ h
    · exact h

/-- A task that was not cancelled, and is given a stream, begins it. -/
theorem begin (h : Heeded s) (hs : Sound s) {id : String} {opens : Bool}
    (hprompt : s.prompt (.begin id opens) = true) (hstep : s.begin id opens = some s') :
    Heeded s' := by
  obtain ⟨t, hfind, rfl⟩ := Option.map_eq_some_iff.1 hstep
  obtain ⟨ht, rfl, hphase⟩ := task_of_find? hfind
  have hopens : (t.hooked || opens) = true := by
    rcases Bool.or_eq_true _ _ ▸ hprompt with hopens | hhooked
    · rw [hopens, Bool.or_true]
    · obtain ⟨x, hx, hx'⟩ := List.any_eq_true.1 hhooked
      obtain ⟨hid, hhooked⟩ := of_decide_eq_true hx'
      rw [← hs.kept.books.task_unique hx ht hid, hhooked, Bool.true_or]
  rw [if_neg (by rw [h.unasked t ht hphase]; exact nofun), if_pos hopens]
  exact h.atTask (fun _ => rfl) (fun _ _ _ hdone => nomatch hdone) fun _ _ _ hphase =>
    nomatch hphase

theorem stops (h : Heeded s) {id : String} (hstep : s.stops id = some s') : Heeded s' := by
  unfold Runtime.stops at hstep
  split at hstep
  · cases hstep
    have hput : Heeded (s.emit id .endMarker) := h.of_put rfl fun _ h => List.mem_append_left _ h
    exact hput.atTask (fun _ => rfl)
      (fun _ _ _ _ => List.mem_append_right _ (List.mem_singleton_self _)) fun _ _ _ hphase =>
        nomatch hphase
  · cases hstep

theorem complete (h : Heeded s) (hs : Sound s) {id : String} (hstep : s.complete id = some s') :
    Heeded s' := by
  obtain ⟨t, hfind, rfl⟩ := Option.map_eq_some_iff.1 hstep
  obtain ⟨ht, rfl, hphase⟩ := task_of_find? hfind
  refine laneRule.callback hs.kept ht (hphase ▸ nofun) ?_
  have hend : (t.runId, Item.endMarker) ∈ s.put := by
    refine h.ended t ht ?_
    unfold Task.done
    rw [hphase]
    rfl
  have hset : Heeded (s.setPhase t.runId .settled) :=
    h.atTask (fun _ => rfl) (fun _ _ _ _ => hend) fun _ _ _ hphase => nomatch hphase
  exact hset.of_put rfl fun _ h => h

theorem step (h : Heeded s) (hs : Sound s) {m : Move E} (hprompt : s.prompt m = true)
    (hstep : s.step m = some s') : Heeded s' := by
  cases m with
  | deliver run hook =>
      simp only [Runtime.step, Option.ite_none_right_eq_some, Option.some.injEq] at hstep
      obtain ⟨hnew, rfl⟩ := hstep
      exact h.deliver hs hnew hook
  | cancel id =>
      cases hstep
      exact h.cancel (by simpa [prompt] using hprompt)
  | begin id opens => exact h.begin hs hprompt hstep
  | yields id e =>
      simp only [Runtime.step, Runtime.yields, Option.ite_none_right_eq_some,
        Option.some.injEq] at hstep
      obtain ⟨-, rfl⟩ := hstep
      exact h.of_put rfl fun _ h => List.mem_append_left _ h
  | stops id => exact h.stops hstep
  | complete id => exact h.complete hs hstep
  | reportOutput =>
      simp only [Runtime.step, Runtime.reportOutput] at hstep
      split at hstep
      · cases hstep
      · cases hstep
        split
        · exact h.of_put rfl fun _ h => h
        · exact h.of_put rfl fun _ h => h

end Heeded

/-! ## Every run of the system -/

section Reachable

variable {maxQueuedRuns : Int} {maxConcurrentRuns : Option Int}

theorem reachable_told (hs : (system E maxQueuedRuns maxConcurrentRuns).Reachable s) : Told s := by
  refine System.Reachable.invariant (P := Told) ?_ ?_ hs
  · rintro s rfl
    exact ⟨rfl, rfl, fun _ => .inl ⟨[], rfl⟩, nofun, nofun, nofun⟩
  · rintro s m s' hreach h hstep
    exact h.step (reachable_kept hreach) hstep

theorem reachable_heeded
    (hs : (system E maxQueuedRuns maxConcurrentRuns).ReachableBy (fun s m => s.prompt m = true) s) :
    Heeded s := by
  refine System.ReachableBy.invariant (P := Heeded) ?_ ?_ hs
  · rintro s rfl
    exact ⟨nofun, nofun⟩
  · rintro s m s' hreach h hprompt hstep
    exact h.step (reachable_kept hreach.reachable) hprompt hstep

/-- The run's task has ended, or it was dropped from its queue: it is not in `_queued`
and no task was spawned for it. -/
def Over (s : Runtime E) (runId : String) : Prop :=
  (∃ t ∈ s.tasks, t.runId = runId ∧ t.done = true) ∨
    (∀ t ∈ s.tasks, t.runId ≠ runId) ∧ runId ∉ s.queued

/-- A run that is over has its end marker. -/
theorem Heeded.over (h : Heeded s) (hs : Sound s) {k : Option String}
    {run : DeliveredRun} (hrun : (k, run) ∈ s.accepted) (hover : s.Over run.runId) :
    (run.runId, Item.endMarker) ∈ s.put := by
  rcases hover with ⟨t, ht, hid, hdone⟩ | ⟨hnone, hout⟩
  · exact hid ▸ h.ended t ht hdone
  · rcases hs.kept.books.whole k run hrun with hstarted | hqueued | hput
    · obtain ⟨t, ht, -, rfl⟩ := mem_startedOn.1 hstarted
      exact absurd rfl (hnone t ht)
    · by_cases hd : run.runId ∈ s.dropped
      · exact (hs.kept.books.dropped _ hd).1
      · exact absurd ((hs.kept.books.queued _).2 ⟨hd, k, run, hqueued, rfl⟩) hout
    · exact hput

/-- **Main result.**  Where no run is cancelled between its task and the task's first
step, and no call of `run_stream` raises: once an accepted run's task has ended, or it was
dropped from its queue, what was put on the output for it, reported or still waiting there,
is its events and then exactly one end marker; with the output drained, that is what the
link was told. -/
theorem finished_once
    (hs : (system E maxQueuedRuns maxConcurrentRuns).ReachableBy (fun s m => s.prompt m = true) s)
    {k : Option String} {run : DeliveredRun} (hrun : (k, run) ∈ s.accepted)
    (hover : s.Over run.runId) :
    Closes (saidIn (s.reported ++ s.output) run.runId) ∧
      (s.output = [] → Closes (saidIn s.reported run.runId)) := by
  have htold := reachable_told hs.reachable
  have hend := (reachable_heeded hs).over (reachable_kept hs.reachable) hrun hover
  have hclosed := htold.closes hend
  rw [htold.log] at hclosed
  refine ⟨hclosed, fun hdrained => ?_⟩
  rwa [hdrained, List.append_nil] at hclosed

end Reachable

instance (s : Runtime E) (runId : String) : Decidable (s.Over runId) :=
  inferInstanceAs (Decidable (_ ∨ _))

namespace Demo

/-- A run says one thing and ends. -/
def finished : List (Move Nat) :=
  [.deliver (run "r" "t") .absent, .begin "r" true, .yields "r" 7, .stops "r", .complete "r",
    .reportOutput, .reportOutput]

/-- A run is cancelled before its task has taken a step. -/
def cancelledEarly : List (Move Nat) :=
  [.deliver (run "r" "t") .absent, .cancel "r", .begin "r" true, .complete "r"]

/-- `run_stream` raises when it is called. -/
def unopened : List (Move Nat) :=
  [.deliver (run "r" "t") .absent, .begin "r" false, .complete "r"]

end Demo

/-- The link is told the event, and that the run is finished. -/
theorem finished_once_finished :
    (Demo.after Demo.finished).output = [] ∧
    saidIn (Demo.after Demo.finished).reported "r" = [.event 7, .endMarker] ∧
    Closes (saidIn (Demo.after Demo.finished).reported "r") := by
  have hs : (system Nat 2 (some 1)).ReachableBy (fun s m => s.prompt m = true)
      (Demo.after Demo.finished) :=
    System.ReachableBy.runFrom (p := Runtime.prompt) (fun _ _ h => h) (.init rfl)
      (by decide +kernel)
  have hdrained : (Demo.after Demo.finished).output = [] := by decide +kernel
  have hmem : "r" ∈ (Demo.after Demo.finished).accepted.map fun e => e.2.runId := by
    decide +kernel
  obtain ⟨e, he, hid⟩ := List.mem_map.1 hmem
  refine ⟨hdrained, by decide +kernel, ?_⟩
  obtain ⟨k, run⟩ := e
  have h := finished_once hs he (hid ▸ by decide +kernel)
  exact hid ▸ h.2 hdrained

/-- **The end is lost.**  Of a run whose task was cancelled before its first step, and of one
whose `run_stream` raised when it was called, nothing is ever put: the task is over, its
callback has run, and the link is not told that the run is finished. -/
theorem end_marker_lost :
    ((system Nat 2 (some 1)).Reachable (Demo.after Demo.cancelledEarly) ∧
      (Demo.after Demo.cancelledEarly).accepted.map (fun e => e.2.runId) = ["r"] ∧
      (Demo.after Demo.cancelledEarly).Over "r" ∧
      (Demo.after Demo.cancelledEarly).output = [] ∧
      saidIn (Demo.after Demo.cancelledEarly).reported "r" = []) ∧
    ((system Nat 2 (some 1)).Reachable (Demo.after Demo.unopened) ∧
      (Demo.after Demo.unopened).accepted.map (fun e => e.2.runId) = ["r"] ∧
      (Demo.after Demo.unopened).Over "r" ∧
      (Demo.after Demo.unopened).output = [] ∧
      saidIn (Demo.after Demo.unopened).reported "r" = []) := by
  refine ⟨⟨Demo.reachable_after _, ?_⟩, Demo.reachable_after _, ?_⟩
  · decide +kernel
  · decide +kernel

end Funduq.Provider.Runtime
