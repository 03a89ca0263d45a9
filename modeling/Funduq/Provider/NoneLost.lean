import Funduq.Provider.Lanes

/-!
# No run is stuck or lost

The three entry points and the completion callback keep the books and the turns, and
leave no lane parked with a slot free.  A run that was accepted and has not ended is
therefore in a task or in the queue of its lane, and the lane it waits on has somebody
to wake it: its active run, or whoever holds the slot it is parked for.
-/

namespace Funduq.Provider.Runtime

open Funduq.Lib

variable {E : Type} {s s' : Runtime E}

/-! ## A callback -/

section Settle

variable {t : Task} {key : String}

/-- No task but its own goes with the run. -/
theorem busy_iff_of_task (hb : Books s) (ht : t ∈ s.tasks) (hphase : t.phase ≠ .settled)
    (k : Option String) : s.Busy k t.runId ↔ t.laneKey = k := by
  constructor
  · rintro ⟨x, hx, hk, hid, -⟩
    rw [hb.task_unique ht hx hid.symm]
    exact hk
  · rintro rfl
    exact ⟨t, ht, rfl, rfl, hphase⟩

theorem mem_inFlight_settle (h : Kept none s) (id i : String) :
    i ∈ (s.settle id).inFlight ↔ ∃ k, (s.settle id).Busy k i := by
  show i ∈ s.inFlight.erase id ↔ ∃ k, (s.setPhase id .settled).Busy k i
  rw [h.turns.flyingOnce.mem_erase_iff, h.turns.flying]
  constructor
  · rintro ⟨hne, k, hk⟩
    exact ⟨k, (busy_settle k i).2 ⟨hk, hne⟩⟩
  · rintro ⟨k, hk⟩
    obtain ⟨hk, hne⟩ := (busy_settle k i).1 hk
    exact ⟨hne, k, hk⟩

/-- A run beside the lanes has ended: no lane is concerned. -/
theorem Kept.settle_beside (h : Kept none s) (ht : t ∈ s.tasks) (hphase : t.phase ≠ .settled)
    (hk : t.laneKey = none) : Kept none (s.settle t.runId) := by
  have hbusy (k i : String) : (s.settle t.runId).Busy (some k) i ↔ s.Busy (some k) i := by
    refine (busy_settle (some k) i).trans (and_iff_left_of_imp ?_)
    rintro hi rfl
    have hlane := (busy_iff_of_task h.books ht hphase _).1 hi
    rw [hk] at hlane
    cases hlane
  refine ⟨h.books.congr rfl (startedOn_atTask fun _ => ⟨rfl, rfl⟩) (ids_atTask fun _ => rfl)
    (List.Subset.refl _) rfl rfl rfl, h.turns.flyingOnce.erase _, mem_inFlight_settle h _, fun k a p hface i => ?_,
    fun k i hi => h.turns.lanes k i ((hbusy k i).1 hi), h.turns.turn, h.turns.parkedOnce,
    h.turns.parked⟩
  rw [hbusy]
  exact h.turns.active k a p hface i

/-- The active run of a lane has ended: the lane is loose. -/
theorem Kept.settle_lane (h : Kept none s) (ht : t ∈ s.tasks) (hphase : t.phase ≠ .settled)
    (hk : t.laneKey = some key) : ∃ lane, s.lanes.get? key = some lane ∧
      lane.activeRunId = some t.runId ∧
      Kept (some key) ((s.settle t.runId).setLane key { lane with activeRunId := none }) := by
  have hmine : s.Busy (some key) t.runId := (busy_iff_of_task h.books ht hphase _).2 hk
  obtain ⟨⟨a, p⟩, hface⟩ := Option.isSome_iff_exists.1 (h.turns.lanes key _ hmine)
  have ha : a = some t.runId := (h.turns.active key a p hface _).2 hmine
  have hp : p = false := by simpa [ha] using h.turns.turn key a p hface
  obtain ⟨lane, hlane, hactive, hparked⟩ := get?_of_face hface
  refine ⟨lane, hlane, hactive.trans ha, ?_⟩
  subst hactive hparked
  have hbusy (k i : String) (hne : k ≠ key) :
      (s.settle t.runId).Busy (some k) i ↔ s.Busy (some k) i := by
    refine (busy_settle (some k) i).trans (and_iff_left_of_imp ?_)
    rintro hi rfl
    have hlane := (busy_iff_of_task h.books ht hphase _).1 hi
    rw [hk] at hlane
    exact hne (Option.some.inj hlane).symm
  have hidle (i : String) : ¬ (s.settle t.runId).Busy (some key) i := by
    intro hi
    obtain ⟨hi, hne⟩ := (busy_settle (some key) i).1 hi
    have hsame := (h.turns.active key _ _ hface i).2 hi
    rw [ha] at hsame
    exact hne (Option.some.inj hsame).symm
  have hface' : ((s.settle t.runId).setLane key { lane with activeRunId := none }).face =
      Function.update s.face key (some (none, false)) :=
    (face_setLane _ key _).trans
      (congrArg (fun p => Function.update s.face key (some (none, p))) hp)
  refine ⟨h.books.congr (queueOf_setLane_same hlane rfl)
    (startedOn_atTask fun _ => ⟨rfl, rfl⟩) (ids_atTask fun _ => rfl) (List.Subset.refl _)
    rfl rfl rfl, h.turns.flyingOnce.erase _, mem_inFlight_settle h _, fun k a p hk' i => ?_,
    fun k i hi => ?_, fun k a p hk' => ?_, h.turns.parkedOnce, fun k => ?_⟩
  · rw [hface'] at hk'
    by_cases hkey : k = key
    · subst hkey
      rw [Function.update_self] at hk'
      obtain ⟨rfl, rfl⟩ := Prod.mk.inj (Option.some.inj hk')
      exact iff_of_false nofun (hidle i)
    · rw [Function.update_of_ne hkey] at hk'
      exact (h.turns.active k a p hk' i).trans (hbusy k i hkey).symm
  · rw [hface']
    by_cases hkey : k = key
    · subst hkey
      rw [Function.update_self]
      rfl
    · rw [Function.update_of_ne hkey]
      exact h.turns.lanes k i ((hbusy k i hkey).1 hi)
  · rw [hface'] at hk'
    by_cases hkey : k = key
    · subst hkey
      rw [Function.update_self] at hk'
      obtain ⟨rfl, rfl⟩ := Prod.mk.inj (Option.some.inj hk')
      rw [if_pos rfl]
      exact ⟨rfl, rfl⟩
    · rw [Function.update_of_ne hkey] at hk'
      rw [if_neg fun he => hkey (Option.some.inj he).symm]
      exact h.turns.turn k a p hk'
  · show k ∈ s.parked ↔ _
    rw [hface']
    by_cases hkey : k = key
    · subst hkey
      rw [Function.update_self, h.turns.parked, hface, hp]
      refine iff_of_false ?_ ?_
      · rintro ⟨a, ha⟩
        cases ha
      · rintro ⟨a, ha⟩
        cases ha
    · rw [Function.update_of_ne hkey, h.turns.parked]

theorem Kept.freeLane (h : Kept none s) (ht : t ∈ s.tasks) (hphase : t.phase ≠ .settled) :
    Kept none ((s.settle t.runId).freeLane t.runId t.laneKey) := by
  cases hk : t.laneKey with
  | none => exact h.settle_beside ht hphase hk
  | some key =>
      obtain ⟨lane, hlane, hactive, hkept⟩ := h.settle_lane ht hphase hk
      have hget : (s.settle t.runId).lanes.get? key = some lane := hlane
      unfold Runtime.freeLane
      dsimp only
      rw [hget]
      dsimp only
      rw [if_pos hactive]
      have hloose := (s.settle t.runId).get?_setLane key { lane with activeRunId := none }
      unfold laneNext
      rw [hloose]
      exact (hkept.laneLoop hloose).1

end Settle

/-! ## One step -/

/-- Nothing is stuck and nothing is lost. -/
structure Sound (s : Runtime E) : Prop where
  kept : Kept none s
  full : s.parked ≠ [] → s.slotFree = false

theorem sound_start (maxQueuedRuns : Int) (maxConcurrentRuns : Option Int) :
    Sound (Runtime.start { maxQueuedRuns, maxConcurrentRuns } : Runtime E) where
  kept := {
    books := {
      once := List.nodup_nil
      home := nofun
      single := List.nodup_nil
      order k := by cases k <;> exact List.nil_sublist _
      whole := nofun
      queuedOnce := List.nodup_nil
      droppedOnce := List.nodup_nil
      queued id := by
        refine iff_of_false nofun ?_
        rintro ⟨-, k, r, hr, -⟩
        cases k <;> cases hr
      dropped := nofun }
    turns := {
      flyingOnce := List.nodup_nil
      flying id := by
        refine iff_of_false nofun ?_
        rintro ⟨k, t, ht, -⟩
        cases ht
      active := nofun
      lanes := by
        rintro key id ⟨t, ht, -⟩
        cases ht
      turn := nofun
      parkedOnce := List.nodup_nil
      parked key := by
        refine iff_of_false nofun ?_
        rintro ⟨a, ha⟩
        cases ha } }
  full h := absurd rfl h

theorem slotFree_of_insert {id : String}
    (h : { s with inFlight := s.inFlight.insert id }.slotFree = true) : s.slotFree = true := by
  unfold slotFree at *
  split at h
  · rename_i hlimit
    rw [show s.maxConcurrentRuns = none from hlimit]
  · rename_i limit hlimit
    rw [show s.maxConcurrentRuns = some limit from hlimit]
    have hgrows : s.inFlight.length ≤ (s.inFlight.insert id).length := List.length_le_length_insert
    have hbelow : ((s.inFlight.insert id).length : Int) < limit := by simpa using h
    simp only [decide_eq_true_eq]
    omega

/-- What a task does to itself leaves the lanes as they are. -/
theorem Sound.atTask (h : Sound s) {id : String} {f : Task → Task}
    (hf : ∀ t, (f t).run = t.run ∧ (f t).laneKey = t.laneKey)
    (hphase : ∀ t ∈ s.tasks, t.runId = id → ((f t).phase = .settled ↔ t.phase = .settled)) :
    Sound (s.atTask id f) where
  kept := ⟨h.kept.books.atTask hf, h.kept.turns.congr rfl (busy_atTask hf hphase) rfl rfl⟩
  full := h.full

theorem Sound.setPhase (h : Sound s) {t : Task} (ht : t ∈ s.tasks) (hfrom : t.phase ≠ .settled)
    {phase : Phase} (hto : phase ≠ .settled) : Sound (s.setPhase t.runId phase) := by
  refine h.atTask (fun _ => ⟨rfl, rfl⟩) fun x hx hid => ?_
  rw [h.kept.books.task_unique hx ht hid]
  exact iff_of_false hto hfrom

theorem Sound.emit (h : Sound s) (id : String) (item : Item E) : Sound (s.emit id item) where
  kept := ⟨h.kept.books.congr rfl (fun _ => rfl) rfl (List.subset_append_left _ _) rfl rfl rfl,
    h.kept.turns.congr rfl rfl rfl rfl⟩
  full := h.full

/-- The task a move is about. -/
theorem task_of_find? {id : String} {phase : Phase} {t : Task}
    (h : s.tasks.find? (fun t => t.runId = id ∧ t.phase = phase) = some t) :
    t ∈ s.tasks ∧ t.runId = id ∧ t.phase = phase :=
  ⟨List.mem_of_find?_eq_some h, by simpa using List.find?_some h⟩

theorem task_of_isAt {id : String} {phase : Phase} (h : s.isAt id phase = true) :
    ∃ t ∈ s.tasks, t.runId = id ∧ t.phase = phase := by
  simpa [isAt] using h

theorem Sound.begin (h : Sound s) {id : String} {opens : Bool}
    (hstep : s.begin id opens = some s') : Sound s' := by
  obtain ⟨t, hfind, rfl⟩ := Option.map_eq_some_iff.1 hstep
  obtain ⟨ht, rfl, hphase⟩ := task_of_find? hfind
  have hset {phase : Phase} (hto : phase ≠ .settled) : Sound (s.setPhase t.runId phase) :=
    h.setPhase ht (hphase ▸ nofun) hto
  split
  · exact hset nofun
  · split
    · exact hset nofun
    · exact hset nofun

theorem Sound.stops (h : Sound s) {id : String} (hstep : s.stops id = some s') : Sound s' := by
  unfold Runtime.stops at hstep
  split at hstep
  · rename_i hat
    cases hstep
    obtain ⟨t, ht, rfl, hphase⟩ := task_of_isAt hat
    have hemit := h.emit t.runId (Item.endMarker (E := E))
    exact hemit.setPhase ht (hphase ▸ nofun) nofun
  · cases hstep

theorem Sound.complete (h : Sound s) {id : String} (hstep : s.complete id = some s') :
    Sound s' := by
  obtain ⟨t, hfind, rfl⟩ := Option.map_eq_some_iff.1 hstep
  obtain ⟨ht, rfl, hphase⟩ := task_of_find? hfind
  obtain ⟨hkept, hfull⟩ := (h.kept.freeLane ht (hphase ▸ nofun)).kickParked
  exact ⟨hkept, hfull⟩

theorem Sound.cancel (h : Sound s) (id : String) : Sound (s.cancel id) := by
  unfold Runtime.cancel
  split
  · refine h.atTask (fun t => ?_) fun t _ _ => ?_
    · unfold Task.cancel
      split <;> exact ⟨rfl, rfl⟩
    · unfold Task.cancel
      split <;> exact Iff.rfl
  · split
    · rename_i hqueued
      exact ⟨⟨h.kept.books.drop hqueued, h.kept.turns.congr rfl rfl rfl rfl⟩, h.full⟩
    · exact h

theorem Turns.interject (h : Turns none s) (run : DeliveredRun) :
    Turns none ((s.accept none run).startRun run true none) := by
  have hbusy (k : Option String) (id : String) :
      ((s.accept none run).startRun run true none).Busy k id ↔
        s.Busy k id ∨ none = k ∧ run.runId = id :=
    busy_spawn (t := { run, hooked := true, laneKey := none }) rfl nofun k id
  have hlane (key id : String) :
      ((s.accept none run).startRun run true none).Busy (some key) id ↔ s.Busy (some key) id := by
    rw [hbusy]
    exact or_iff_left nofun
  refine ⟨h.flyingOnce.insert, fun id => ?_, fun key a p hk id => ?_, fun key id hk => ?_, h.turn,
    h.parkedOnce, h.parked⟩
  · show id ∈ s.inFlight.insert run.runId ↔ _
    rw [List.mem_insert_iff, h.flying]
    constructor
    · rintro (rfl | ⟨k, hk⟩)
      · exact ⟨none, (hbusy _ _).2 (.inr ⟨rfl, rfl⟩)⟩
      · exact ⟨k, (hbusy _ _).2 (.inl hk)⟩
    · rintro ⟨k, hk⟩
      rcases (hbusy _ _).1 hk with hk | ⟨-, rfl⟩
      · exact .inr ⟨k, hk⟩
      · exact .inl rfl
  · rw [hlane]
    exact h.active key a p hk id
  · exact h.lanes key id ((hlane key id).1 hk)

/-- A run opens a lane of its own, loose until it is advanced. -/
theorem Turns.opens (h : Turns none s) {key : String} (hkey : s.face key = none)
    (hface : s'.face = Function.update s.face key (some (none, false)))
    (hbusy : s'.Busy = s.Busy) (hflying : s'.inFlight = s.inFlight)
    (hparked : s'.parked = s.parked) : Turns (some key) s' := by
  have hidle (id : String) : ¬ s.Busy (some key) id := by
    intro hid
    have hlane := h.lanes key id hid
    rw [hkey] at hlane
    cases hlane
  refine ⟨by rw [hflying]; exact h.flyingOnce, by rw [hflying, hbusy]; exact h.flying,
    fun k a p hk id => ?_, fun k id hk => ?_, fun k a p hk => ?_,
    by rw [hparked]; exact h.parkedOnce, fun k => ?_⟩
  · rw [hbusy]
    rw [hface] at hk
    by_cases hne : k = key
    · subst hne
      rw [Function.update_self] at hk
      obtain ⟨rfl, rfl⟩ := Prod.mk.inj (Option.some.inj hk)
      exact iff_of_false nofun (hidle id)
    · rw [Function.update_of_ne hne] at hk
      exact h.active k a p hk id
  · rw [hbusy] at hk
    rw [hface, Function.update_of_ne]
    · exact h.lanes k id hk
    · rintro rfl
      exact hidle id hk
  · rw [hface] at hk
    by_cases hne : k = key
    · subst hne
      rw [Function.update_self] at hk
      obtain ⟨rfl, rfl⟩ := Prod.mk.inj (Option.some.inj hk)
      rw [if_pos rfl]
      exact ⟨rfl, rfl⟩
    · rw [Function.update_of_ne hne] at hk
      rw [if_neg fun he => hne (Option.some.inj he).symm]
      exact h.turn k a p hk
  · rw [hparked, hface, h.parked]
    by_cases hne : k = key
    · subst hne
      rw [Function.update_self, hkey]
      refine iff_of_false ?_ ?_
      · rintro ⟨a, ha⟩
        cases ha
      · rintro ⟨a, ha⟩
        cases ha
    · rw [Function.update_of_ne hne]

theorem Sound.interject (h : Sound s) {run : DeliveredRun} (hnew : s.isNew run.runId = true)
    (hook : Hook) : Sound (s.interject run hook).2 := by
  unfold Runtime.interject
  cases hook with
  | unreadable => exact h
  | absent => exact h
  | raising =>
      dsimp only
      split <;> exact h
  | streaming =>
      dsimp only
      split
      · refine ⟨⟨h.kept.books.interject hnew, h.kept.turns.interject run⟩, fun hparked => ?_⟩
        have hfull := h.full hparked
        cases hfree : ((s.accept none run).startRun run true none).slotFree with
        | false => rfl
        | true => exact (slotFree_of_insert hfree).symm.trans hfull
      · exact h

/-- A run that is new to its lane's queue. -/
theorem Sound.enqueue (h : Sound s) {run : DeliveredRun} (hnew : s.isNew run.runId = true)
    {lane : Lane} (hlane : s.lanes.get? run.key = some lane) :
    Sound ((s.accept (some run.key) run).enqueue run.key lane run) where
  kept := by
    refine ⟨h.kept.books.enqueue hnew (queueOf_of_get? hlane), h.kept.turns.congr ?_ rfl rfl rfl⟩
    have hface : ((s.accept (some run.key) run).enqueue run.key lane run).face =
        Function.update s.face run.key (some (lane.activeRunId, lane.parked)) :=
      face_setLane _ run.key _
    rw [hface, ← face_of_get? hlane, Function.update_eq_self]
  full := h.full

/-- A run whose lane is not there yet opens it. -/
theorem Kept.enqueue (h : Kept none s) {run : DeliveredRun} (hnew : s.isNew run.runId = true)
    (hlane : s.lanes.get? run.key = none) :
    Kept (some run.key) ((s.accept (some run.key) run).enqueue run.key {} run) := by
  have hkey : s.face run.key = none := by
    unfold face
    rw [hlane]
    rfl
  have hempty : s.queueOf (some run.key) = [] := by
    show ((Option.map _ (s.lanes.get? run.key)).getD []) = []
    rw [hlane]
    rfl
  exact ⟨h.books.enqueue hnew hempty,
    h.turns.opens hkey (face_setLane (s.accept (some run.key) run) run.key _) rfl
      rfl rfl⟩

theorem get?_opened (run : DeliveredRun) :
    ((s.accept (some run.key) run).enqueue run.key {} run).lanes.get? run.key =
      some { queue := [run] } := (s.accept (some run.key) run).get?_setLane run.key _

theorem Sound.open (h : Sound s) {run : DeliveredRun} (hnew : s.isNew run.runId = true)
    (hlane : s.lanes.get? run.key = none) :
    Sound (((s.accept (some run.key) run).enqueue run.key {} run).laneNext run.key) := by
  obtain ⟨hnext, hadv⟩ := (h.kept.enqueue hnew hlane).laneLoop (get?_opened run)
  unfold laneNext
  rw [get?_opened]
  refine ⟨hnext, fun hparked => ?_⟩
  cases hfree : s.slotFree with
  | false => exact hadv.full hfree
  | true =>
      rw [hadv.parked hfree] at hparked
      have hfull := h.full hparked
      rw [hfree] at hfull
      cases hfull

theorem Sound.deliver (h : Sound s) {run : DeliveredRun} (hnew : s.isNew run.runId = true)
    (hook : Hook) : Sound (s.deliver run hook).2 := by
  unfold Runtime.deliver
  split
  · split
    · exact h.interject hnew hook
    · split
      · cases hlane : s.lanes.get? run.key with
        | none =>
            have hget : (s.accept (some run.key) run).lanes.get? run.key = none := hlane
            dsimp only
            rw [hget]
            exact h.open hnew hlane
        | some lane =>
            have hget : (s.accept (some run.key) run).lanes.get? run.key = some lane := hlane
            dsimp only
            rw [hget]
            exact h.enqueue hnew hlane
      · exact h
  · exact h

theorem Sound.step (h : Sound s) {m : Move E} (hstep : s.step m = some s') : Sound s' := by
  cases m with
  | deliver run hook =>
      simp only [Runtime.step, Option.ite_none_right_eq_some, Option.some.injEq] at hstep
      obtain ⟨hnew, rfl⟩ := hstep
      exact h.deliver hnew hook
  | cancel id =>
      cases hstep
      exact h.cancel id
  | begin id opens => exact h.begin hstep
  | yields id e =>
      simp only [Runtime.step, Runtime.yields, Option.ite_none_right_eq_some,
        Option.some.injEq] at hstep
      obtain ⟨-, rfl⟩ := hstep
      exact h.emit id _
  | stops id => exact h.stops hstep
  | complete id => exact h.complete hstep
  | reportOutput =>
      simp only [Runtime.step, Runtime.reportOutput] at hstep
      split at hstep
      · cases hstep
      · cases hstep
        split
        · exact ⟨⟨h.kept.books.congr rfl (fun _ => rfl) rfl (List.Subset.refl _) rfl rfl rfl,
            h.kept.turns.congr rfl rfl rfl rfl⟩, h.full⟩
        · exact ⟨⟨h.kept.books.congr rfl (fun _ => rfl) rfl (List.Subset.refl _) rfl rfl rfl,
            h.kept.turns.congr rfl rfl rfl rfl⟩, h.full⟩

/-! ## What holds of every run -/

/-- The run's task has ended, or an end marker was put for it. -/
def Ended (s : Runtime E) (runId : String) : Prop :=
  (∃ t ∈ s.tasks, t.runId = runId ∧ t.done = true) ∨ (runId, Item.endMarker) ∈ s.put

/-- The run is once in the queue of its lane, in no other queue, and not marked
dropped. -/
structure WaitsOnce (s : Runtime E) (run : DeliveredRun) : Prop where
  kept : run.runId ∉ s.dropped
  once : (s.queueOf (some run.key)).filter (fun r => r.runId = run.runId) = [run]
  nowhere : ∀ k, k ≠ some run.key → ∀ r ∈ s.queueOf k, r.runId ≠ run.runId

/-- What waits is not executing. -/
theorem Kept.not_queued (h : Kept none s) {id : String} (hid : id ∈ s.inFlight) :
    ¬ s.Queued id := by
  rintro ⟨k, r, hr, rfl⟩
  obtain ⟨k', t, ht, hk', hrun, -⟩ := (h.turns.flying _).1 hid
  exact h.books.ne_of_queue_of_started hr (mem_startedOn.2 ⟨t, ht, hk', rfl⟩) hrun

theorem Books.waitsOnce (h : Books s) {k : Option String} {run : DeliveredRun}
    (hrun : run ∈ s.queueOf k) (hput : (run.runId, Item.endMarker) ∉ s.put) :
    s.WaitsOnce run := by
  have hk : k = some run.key := by
    cases k with
    | none => cases hrun
    | some key => rw [h.home key run (h.accepted_of_queue hrun)]
  subst hk
  refine ⟨fun hd => hput (h.dropped _ hd).1, ?_, fun k hk r hr hid => ?_⟩
  · have hnodup := h.lane_nodup (some run.key)
    rw [List.map_append] at hnodup
    exact filter_key (List.nodup_append'.1 hnodup).2.1 hrun
  · exact hk (h.queue_unique hr hrun hid).1

/-- A run that has not ended is executing or waits. -/
theorem Kept.held (h : Kept none s) {k : Option String} {run : DeliveredRun}
    (hrun : (k, run) ∈ s.accepted) (hend : ¬ s.Ended run.runId) :
    run.runId ∈ s.inFlight ∧ ¬ s.Queued run.runId ∨
      run.runId ∉ s.inFlight ∧ s.WaitsOnce run := by
  rcases h.books.whole k run hrun with hstarted | hqueued | hput
  · obtain ⟨t, ht, hk, rfl⟩ := mem_startedOn.1 hstarted
    have hflying : t.runId ∈ s.inFlight := by
      rw [h.turns.flying]
      refine ⟨k, t, ht, hk, rfl, fun hphase => hend (.inl ⟨t, ht, rfl, ?_⟩)⟩
      simp [Task.done, hphase]
    exact .inl ⟨hflying, h.not_queued hflying⟩
  · refine .inr ⟨fun hflying => ?_, h.books.waitsOnce hqueued fun hput => hend (.inr hput)⟩
    exact h.not_queued hflying ⟨k, run, hqueued, rfl⟩
  · exact absurd (.inr hput) hend

theorem Kept.one_a_lane (h : Kept none s) {key : String} {t t' : Task} (ht : t ∈ s.tasks)
    (ht' : t' ∈ s.tasks) (hk : t.laneKey = some key) (hk' : t'.laneKey = some key)
    (hf : t.runId ∈ s.inFlight) (hf' : t'.runId ∈ s.inFlight) : t = t' := by
  have hbusy {x : Task} (hx : x ∈ s.tasks) (hkx : x.laneKey = some key)
      (hfx : x.runId ∈ s.inFlight) : s.Busy (some key) x.runId := by
    obtain ⟨k, y, hy, hky, hid, hphase⟩ := (h.turns.flying _).1 hfx
    have hsame := h.books.task_unique hy hx hid
    subst hsame
    exact ⟨y, hy, hkx, rfl, hphase⟩
  have hmine := hbusy ht hk hf
  obtain ⟨⟨a, p⟩, hface⟩ := Option.isSome_iff_exists.1 (h.turns.lanes key _ hmine)
  have ha := (h.turns.active key a p hface _).2 hmine
  have ha' := (h.turns.active key a p hface _).2 (hbusy ht' hk' hf')
  exact h.books.task_unique ht ht' (Option.some.inj (ha.symm.trans ha'))

/-- A lane has its run, or is parked. -/
theorem Kept.lane_state (h : Kept none s) {key : String} {lane : Lane}
    (hlane : s.lanes.get? key = some lane) :
    lane.parked = false ∧ (∃ id ∈ s.inFlight, lane.activeRunId = some id) ∨
      lane.parked = true ∧ s.parked.count key = 1 := by
  have hface := face_of_get? hlane
  have hturn : lane.parked = lane.activeRunId.isNone := h.turns.turn key _ _ hface
  cases ha : lane.activeRunId with
  | none =>
      have hp : lane.parked = true := by rw [hturn, ha]; rfl
      refine .inr ⟨hp, List.count_eq_one_of_mem h.turns.parkedOnce ?_⟩
      rw [h.turns.parked]
      exact ⟨lane.activeRunId, by rw [hface, hp]⟩
  | some id =>
      have hp : lane.parked = false := by rw [hturn, ha]; rfl
      refine .inl ⟨hp, id, ?_, rfl⟩
      rw [h.turns.flying]
      exact ⟨some key, (h.turns.active key _ _ hface id).1 ha⟩

/-! ## Every run of the system -/

theorem reachable_kept {maxQueuedRuns : Int} {maxConcurrentRuns : Option Int}
    (hs : (system E maxQueuedRuns maxConcurrentRuns).Reachable s) : Sound s := by
  refine System.Reachable.invariant (P := Sound) ?_ ?_ hs
  · rintro s rfl
    exact sound_start maxQueuedRuns maxConcurrentRuns
  · rintro s m s' - h hstep
    exact h.step hstep

/-- **Main result.**  In every state a started runtime gets into: an accepted run that has
not ended is executing, or waits once in the queue of its lane and is not marked dropped;
a lane has at most one run executing; a lane has a run executing or is parked, and is
parked once; while a lane is parked no slot is free; and the runs of a lane start in the
order they were accepted. -/
theorem no_run_stuck_or_lost {maxQueuedRuns : Int} {maxConcurrentRuns : Option Int}
    (hs : (system E maxQueuedRuns maxConcurrentRuns).Reachable s) :
    (∀ k run, (k, run) ∈ s.accepted → ¬ s.Ended run.runId →
      run.runId ∈ s.inFlight ∧ ¬ s.Queued run.runId ∨
        run.runId ∉ s.inFlight ∧ s.WaitsOnce run) ∧
    (∀ key, ∀ t ∈ s.tasks, ∀ t' ∈ s.tasks, t.laneKey = some key → t'.laneKey = some key →
      t.runId ∈ s.inFlight → t'.runId ∈ s.inFlight → t = t') ∧
    (∀ key lane, s.lanes.get? key = some lane →
      lane.parked = false ∧ (∃ id ∈ s.inFlight, lane.activeRunId = some id) ∨
        lane.parked = true ∧ s.parked.count key = 1) ∧
    (∀ key lane, s.lanes.get? key = some lane → lane.parked = true → s.slotFree = false) ∧
    (∀ key, (s.startedOn (some key)).Sublist (s.acceptedOn (some key))) := by
  obtain ⟨hkept, hfull⟩ := reachable_kept hs
  refine ⟨fun k run hrun => hkept.held hrun, fun key t ht t' ht' => hkept.one_a_lane ht ht',
    fun key lane => hkept.lane_state, fun key lane hlane hparked => hfull fun hnil => ?_,
    fun key => (List.sublist_append_left _ _).trans (hkept.books.order (some key))⟩
  have hmem : key ∈ s.parked := by
    rw [hkept.turns.parked]
    exact ⟨lane.activeRunId, by rw [face_of_get? hlane, hparked]⟩
  rw [hnil] at hmem
  cases hmem

namespace Demo

def run (runId threadId : String) : DeliveredRun where
  runId := runId
  agentName := "a"
  runInput := .obj []
  threadId := some threadId

/-- With one slot, a thread has a second run waiting and another thread is parked when the
first run ends. -/
def kicked : List (Move Nat) :=
  [.deliver (run "r" "t") .absent, .deliver (run "q" "t") .absent, .deliver (run "p" "u") .absent,
    .begin "r" true, .yields "r" 7, .stops "r", .complete "r"]

def after (moves : List (Move Nat)) : Runtime Nat :=
  (system Nat 2 (some 1)).runFrom (Runtime.start { maxQueuedRuns := 2, maxConcurrentRuns := some 1 })
    moves

theorem reachable_after (moves : List (Move Nat)) :
    (system Nat 2 (some 1)).Reachable (after moves) := System.Reachable.runFrom (.init rfl) moves

end Demo

/-- The second run of the thread has started, and the other thread is parked. -/
theorem no_run_stuck_or_lost_kicked :
    (Demo.after Demo.kicked).inFlight = ["q"] ∧ (Demo.after Demo.kicked).parked = ["u"] ∧
    ((Demo.after Demo.kicked).startedOn (some "t")).Sublist
      ((Demo.after Demo.kicked).acceptedOn (some "t")) := by
  have h := no_run_stuck_or_lost (Demo.reachable_after Demo.kicked)
  exact ⟨by decide +kernel, by decide +kernel, h.2.2.2.2 "t"⟩

end Funduq.Provider.Runtime
