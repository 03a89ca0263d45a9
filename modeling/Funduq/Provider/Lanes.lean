import Funduq.Provider.Books

/-!
# Whose turn it is

A lane's face is its active run and whether it is parked.  A lane in `_lanes` has the
one or is the other, and which tasks are unfinished says which (`Turns`): the active
run of a lane is the run of the one unfinished task spawned from it.  In the middle of
a transition one lane may be loose, with nobody active and not parked either;
`_lane_next` is called for that lane and leaves none (`Turns.laneLoop`).

A lane is parked for want of a slot, and slots come free only in a completion callback,
which goes on to kick parked lanes until the slots are gone or the lanes are.  So as
long as a lane is parked there is no free slot (`Sound.full`).
-/

namespace Funduq.Provider.Runtime

open Funduq.Lib

variable {E : Type} {s s' : Runtime E}

/-! ## Reading the state -/

/-- A lane's active run, and whether it is parked. -/
def face (s : Runtime E) (key : String) : Option (Option String × Bool) :=
  (s.lanes.get? key).map fun lane => (lane.activeRunId, lane.parked)

/-- The run has a task that was spawned for lane `k` and whose callback has not run. -/
def Busy (s : Runtime E) (k : Option String) (id : String) : Prop :=
  ∃ t ∈ s.tasks, t.laneKey = k ∧ t.runId = id ∧ t.phase ≠ .settled

theorem get?_setLane (s : Runtime E) (key : String) (lane : Lane) :
    (s.setLane key lane).lanes.get? key = some lane := by
  show (s.lanes.set key lane).get? key = some lane
  rw [Dict.get?_set, if_pos rfl]

theorem face_setLane (s : Runtime E) (key : String) (lane : Lane) :
    (s.setLane key lane).face =
      Function.update s.face key (some (lane.activeRunId, lane.parked)) := by
  funext k
  show Option.map _ ((s.lanes.set key lane).get? k) = _
  rw [Dict.get?_set]
  by_cases h : key = k
  · subst h
    rw [if_pos rfl, Function.update_self]
    rfl
  · rw [if_neg h, Function.update_of_ne (Ne.symm h)]
    rfl

theorem face_pop (s : Runtime E) (key : String) :
    { s with lanes := s.lanes.pop key }.face = Function.update s.face key none := by
  funext k
  show Option.map _ ((s.lanes.pop key).get? k) = _
  rw [Dict.get?_pop]
  by_cases h : key = k
  · subst h
    rw [if_pos rfl, Function.update_self]
    rfl
  · rw [if_neg h, Function.update_of_ne (Ne.symm h)]
    rfl

theorem face_of_get? {key : String} {lane : Lane} (h : s.lanes.get? key = some lane) :
    s.face key = some (lane.activeRunId, lane.parked) := by
  unfold face
  rw [h]
  rfl

theorem get?_of_face {key : String} {a : Option String} {p : Bool} (h : s.face key = some (a, p)) :
    ∃ lane, s.lanes.get? key = some lane ∧ lane.activeRunId = a ∧ lane.parked = p := by
  obtain ⟨lane, hlane, hface⟩ := Option.map_eq_some_iff.1 h
  obtain ⟨ha, hp⟩ := Prod.mk.inj hface
  exact ⟨lane, hlane, ha, hp⟩

theorem busy_spawn {t : Task} (h : s'.tasks = s.tasks ++ [t]) (ht : t.phase ≠ .settled)
    (k : Option String) (id : String) :
    s'.Busy k id ↔ s.Busy k id ∨ t.laneKey = k ∧ t.runId = id := by
  unfold Busy
  rw [h]
  constructor
  · rintro ⟨x, hx, hk, hid, hphase⟩
    rcases List.mem_append.1 hx with hx | hx
    · exact .inl ⟨x, hx, hk, hid, hphase⟩
    · rw [List.mem_singleton.1 hx] at hk hid
      exact .inr ⟨hk, hid⟩
  · rintro (⟨x, hx, hrest⟩ | ⟨hk, hid⟩)
    · exact ⟨x, List.mem_append_left _ hx, hrest⟩
    · exact ⟨t, List.mem_append_right _ (List.mem_singleton_self _), hk, hid, ht⟩

/-! ## Turns -/

/-- Every lane has its turn in order, but for the loose one. -/
structure Turns (loose : Option String) (s : Runtime E) : Prop where
  flyingOnce : s.inFlight.Nodup
  flying : ∀ id, id ∈ s.inFlight ↔ ∃ k, s.Busy k id
  active : ∀ key a p, s.face key = some (a, p) → ∀ id, a = some id ↔ s.Busy (some key) id
  lanes : ∀ key id, s.Busy (some key) id → (s.face key).isSome = true
  turn : ∀ key a p, s.face key = some (a, p) →
    if loose = some key then a = none ∧ p = false else p = a.isNone
  parkedOnce : s.parked.Nodup
  parked : ∀ key, key ∈ s.parked ↔ ∃ a, s.face key = some (a, true)

/-- What the turns are read off. -/
theorem Turns.congr {loose : Option String} (h : Turns loose s) (hface : s'.face = s.face)
    (hbusy : s'.Busy = s.Busy) (hflying : s'.inFlight = s.inFlight)
    (hparked : s'.parked = s.parked) : Turns loose s' where
  flyingOnce := by rw [hflying]; exact h.flyingOnce
  flying := by rw [hflying, hbusy]; exact h.flying
  active := by rw [hface, hbusy]; exact h.active
  lanes := by rw [hface, hbusy]; exact h.lanes
  turn := by rw [hface]; exact h.turn
  parkedOnce := by rw [hparked]; exact h.parkedOnce
  parked := by rw [hface, hparked]; exact h.parked

namespace Turns

variable {key : String} {lane : Lane} {run : DeliveredRun} {rest : List DeliveredRun}

/-- The loose lane has nobody active, is not parked and is not among the parked. -/
theorem loose_face (h : Turns (some key) s) (hlane : s.lanes.get? key = some lane) :
    lane.activeRunId = none ∧ lane.parked = false ∧ key ∉ s.parked ∧
      ∀ id, ¬ s.Busy (some key) id := by
  have hface := face_of_get? hlane
  obtain ⟨ha, hp⟩ : lane.activeRunId = none ∧ lane.parked = false := by
    simpa using h.turn key _ _ hface
  refine ⟨ha, hp, ?_, fun id hbusy => ?_⟩
  · rw [h.parked]
    rintro ⟨a, ha'⟩
    rw [hface, hp] at ha'
    cases ha'
  · have hactive := (h.active key _ _ hface id).2 hbusy
    rw [ha] at hactive
    cases hactive

theorem turn_of_ne (h : Turns (some key) s) {k : String} {a : Option String} {p : Bool}
    (hk : s.face k = some (a, p)) (hne : k ≠ key) : p = a.isNone := by
  have hturn := h.turn k a p hk
  rwa [if_neg fun he => hne (Option.some.inj he).symm] at hturn

theorem skipHead {loose : Option String} (h : Turns loose s)
    (hlane : s.lanes.get? key = some lane) : Turns loose (s.skipHead key lane run rest) := by
  refine h.congr ?_ rfl rfl rfl
  have hface : (s.skipHead key lane run rest).face =
      Function.update s.face key (some (lane.activeRunId, lane.parked)) := s.face_setLane key _
  rw [hface, ← face_of_get? hlane, Function.update_eq_self]

/-- The loose lane starts a run. -/
theorem startHead (h : Turns (some key) s) (hlane : s.lanes.get? key = some lane)
    (hnew : ∀ k, ¬ s.Busy k run.runId) : Turns none (s.startHead key lane run rest) := by
  obtain ⟨-, hp, hout, hidle⟩ := h.loose_face hlane
  have hface : (s.startHead key lane run rest).face =
      Function.update s.face key (some (some run.runId, lane.parked)) :=
    ({ s with queued := s.queued.erase run.runId } : Runtime E).face_setLane key _
  have hbusy (k : Option String) (id : String) : (s.startHead key lane run rest).Busy k id ↔
      s.Busy k id ∨ some key = k ∧ run.runId = id :=
    busy_spawn (t := { run, hooked := false, laneKey := some key }) rfl nofun k id
  have hnot : run.runId ∉ s.inFlight := by
    rw [h.flying]
    rintro ⟨k, hk⟩
    exact hnew k hk
  refine ⟨h.flyingOnce.insert, fun id => ?_, fun k a p hk id => ?_, fun k id hk => ?_,
    fun k a p hk => ?_, h.parkedOnce, fun k => ?_⟩
  · show id ∈ s.inFlight.insert run.runId ↔ _
    rw [List.mem_insert_iff, h.flying]
    constructor
    · rintro (rfl | ⟨k, hk⟩)
      · exact ⟨some key, (hbusy _ _).2 (.inr ⟨rfl, rfl⟩)⟩
      · exact ⟨k, (hbusy _ _).2 (.inl hk)⟩
    · rintro ⟨k, hk⟩
      rcases (hbusy _ _).1 hk with hk | ⟨-, rfl⟩
      · exact .inr ⟨k, hk⟩
      · exact .inl rfl
  · rw [hbusy]
    rw [hface] at hk
    by_cases hkey : k = key
    · subst hkey
      rw [Function.update_self] at hk
      obtain ⟨rfl, rfl⟩ := Prod.mk.inj (Option.some.inj hk)
      constructor
      · intro hid
        exact .inr ⟨rfl, Option.some.inj hid⟩
      · rintro (hbefore | ⟨-, rfl⟩)
        · exact absurd hbefore (hidle id)
        · rfl
    · rw [Function.update_of_ne hkey] at hk
      rw [h.active k a p hk id]
      constructor
      · exact .inl
      · rintro (hbefore | ⟨hk', -⟩)
        · exact hbefore
        · exact absurd (Option.some.inj hk').symm hkey
  · rw [hface]
    by_cases hkey : k = key
    · subst hkey
      rw [Function.update_self]
      rfl
    · rw [Function.update_of_ne hkey]
      rcases (hbusy _ _).1 hk with hk | ⟨hk', -⟩
      · exact h.lanes k id hk
      · exact absurd (Option.some.inj hk').symm hkey
  · rw [if_neg nofun]
    rw [hface] at hk
    by_cases hkey : k = key
    · subst hkey
      rw [Function.update_self] at hk
      obtain ⟨rfl, rfl⟩ := Prod.mk.inj (Option.some.inj hk)
      exact hp
    · rw [Function.update_of_ne hkey] at hk
      exact h.turn_of_ne hk hkey
  · show k ∈ s.parked ↔ _
    rw [hface]
    by_cases hkey : k = key
    · subst hkey
      rw [Function.update_self, hp]
      refine iff_of_false hout ?_
      rintro ⟨a, ha⟩
      cases ha
    · rw [Function.update_of_ne hkey, h.parked]

theorem park_eq (hp : lane.parked = false) : s.park key lane =
    { s.setLane key { lane with parked := true } with parked := s.parked ++ [key] } := by
  unfold Runtime.park
  rw [hp]
  rfl

/-- The loose lane is parked. -/
theorem park (h : Turns (some key) s) (hlane : s.lanes.get? key = some lane) :
    Turns none (s.park key lane) := by
  obtain ⟨ha, hp, hout, hidle⟩ := h.loose_face hlane
  have hpark := @park_eq _ s key _ hp
  have hface : (s.park key lane).face = Function.update s.face key (some (none, true)) := by
    rw [hpark, ← ha]
    exact s.face_setLane key _
  have hbusy : (s.park key lane).Busy = s.Busy := by
    rw [hpark]
    rfl
  have hparked : (s.park key lane).parked = s.parked ++ [key] := by rw [hpark]
  have hflying : (s.park key lane).inFlight = s.inFlight := by
    rw [hpark]
    rfl
  refine ⟨by rw [hflying]; exact h.flyingOnce, by rw [hflying, hbusy]; exact h.flying,
    fun k a p hk id => ?_, fun k id hk => ?_, fun k a p hk => ?_, ?_, fun k => ?_⟩
  · rw [hbusy]
    rw [hface] at hk
    by_cases hkey : k = key
    · subst hkey
      rw [Function.update_self] at hk
      obtain ⟨rfl, rfl⟩ := Prod.mk.inj (Option.some.inj hk)
      exact iff_of_false nofun (hidle id)
    · rw [Function.update_of_ne hkey] at hk
      exact h.active k a p hk id
  · rw [hbusy] at hk
    rw [hface, Function.update_of_ne]
    · exact h.lanes k id hk
    · rintro rfl
      exact hidle id hk
  · rw [if_neg nofun]
    rw [hface] at hk
    by_cases hkey : k = key
    · subst hkey
      rw [Function.update_self] at hk
      obtain ⟨rfl, rfl⟩ := Prod.mk.inj (Option.some.inj hk)
      rfl
    · rw [Function.update_of_ne hkey] at hk
      exact h.turn_of_ne hk hkey
  · rw [hparked]
    exact List.nodup_append'.2 ⟨h.parkedOnce, List.nodup_singleton _, by simpa using hout⟩
  · rw [hparked, hface, List.mem_append, List.mem_singleton, h.parked]
    by_cases hkey : k = key
    · subst hkey
      rw [Function.update_self]
      exact iff_of_true (.inr rfl) ⟨none, rfl⟩
    · rw [Function.update_of_ne hkey]
      exact or_iff_left hkey

/-- The loose lane is retired. -/
theorem retire (h : Turns (some key) s) (hlane : s.lanes.get? key = some lane) :
    Turns none { s with lanes := s.lanes.pop key } := by
  obtain ⟨-, -, hout, hidle⟩ := h.loose_face hlane
  have hface := s.face_pop key
  have hother {k : String} {a : Option String} {p : Bool}
      (hk : { s with lanes := s.lanes.pop key }.face k = some (a, p)) :
      k ≠ key ∧ s.face k = some (a, p) := by
    rw [hface] at hk
    by_cases hkey : k = key
    · subst hkey
      rw [Function.update_self] at hk
      cases hk
    · rw [Function.update_of_ne hkey] at hk
      exact ⟨hkey, hk⟩
  refine ⟨h.flyingOnce, h.flying, fun k a p hk => h.active k a p (hother hk).2,
    fun k id hk => ?_, fun k a p hk => ?_, h.parkedOnce, fun k => ?_⟩
  · rw [hface, Function.update_of_ne]
    · exact h.lanes k id hk
    · rintro rfl
      exact hidle id hk
  · obtain ⟨hkey, hk⟩ := hother hk
    rw [if_neg nofun]
    exact h.turn_of_ne hk hkey
  · show k ∈ s.parked ↔ _
    rw [h.parked]
    constructor
    · rintro ⟨a, hk⟩
      refine ⟨a, ?_⟩
      rw [hface, Function.update_of_ne]
      · exact hk
      · rintro rfl
        exact hout ((h.parked k).2 ⟨a, hk⟩)
    · rintro ⟨a, hk⟩
      exact ⟨a, (hother hk).2⟩

/-- The first parked lane is taken. -/
theorem unpark {parked : List String} (h : Turns none s) (hparked : s.parked = key :: parked)
    (hlane : s.lanes.get? key = some lane) :
    Turns (some key) ({ s with parked := parked }.setLane key { lane with parked := false }) := by
  have hmem : key ∈ s.parked := by
    rw [hparked]
    exact List.mem_cons_self
  obtain ⟨a, ha⟩ := (h.parked key).1 hmem
  have ha' : a = none := by simpa using (h.turn key a true ha).symm
  subst ha'
  have hnone : lane.activeRunId = none := by
    rw [face_of_get? hlane] at ha
    exact (Prod.mk.inj (Option.some.inj ha)).1
  have honce := h.parkedOnce
  rw [hparked, List.nodup_cons] at honce
  have hface : ({ s with parked := parked }.setLane key { lane with parked := false }).face =
      Function.update s.face key (some (none, false)) :=
    (face_setLane _ key _).trans
      (congrArg (fun a => Function.update s.face key (some (a, false))) hnone)
  refine ⟨h.flyingOnce, h.flying, fun k a p hk id => ?_, fun k id hk => ?_, fun k a p hk => ?_,
    honce.2, fun k => ?_⟩
  · rw [hface] at hk
    by_cases hkey : k = key
    · subst hkey
      rw [Function.update_self] at hk
      obtain ⟨rfl, rfl⟩ := Prod.mk.inj (Option.some.inj hk)
      exact h.active k none true ha id
    · rw [Function.update_of_ne hkey] at hk
      exact h.active k a p hk id
  · rw [hface]
    by_cases hkey : k = key
    · subst hkey
      rw [Function.update_self]
      rfl
    · rw [Function.update_of_ne hkey]
      exact h.lanes k id hk
  · rw [hface] at hk
    by_cases hkey : k = key
    · subst hkey
      rw [Function.update_self] at hk
      obtain ⟨rfl, rfl⟩ := Prod.mk.inj (Option.some.inj hk)
      rw [if_pos rfl]
      exact ⟨rfl, rfl⟩
    · rw [Function.update_of_ne hkey] at hk
      rw [if_neg fun he => hkey (Option.some.inj he).symm]
      exact h.turn k a p hk
  · show k ∈ parked ↔ _
    rw [hface]
    by_cases hkey : k = key
    · subst hkey
      rw [Function.update_self]
      refine iff_of_false honce.1 ?_
      rintro ⟨a, ha⟩
      cases ha
    · rw [Function.update_of_ne hkey, ← h.parked, hparked, List.mem_cons]
      exact (or_iff_right hkey).symm

end Turns

/-! ## Tasks -/

theorem startedOn_atTask {id : String} {f : Task → Task}
    (hf : ∀ t, (f t).run = t.run ∧ (f t).laneKey = t.laneKey) (k : Option String) :
    (s.atTask id f).startedOn k = s.startedOn k := by
  have hrun (t : Task) : (if t.runId = id then f t else t).run = t.run := by
    split
    · exact (hf t).1
    · rfl
  have hkey (t : Task) : (if t.runId = id then f t else t).laneKey = t.laneKey := by
    split
    · exact (hf t).2
    · rfl
  show (List.filter _ (List.map _ s.tasks)).map Task.run = _
  rw [List.filter_map, List.map_map]
  unfold startedOn
  congr 1
  · funext t
    exact hrun t
  · congr 1
    funext t
    show decide ((if t.runId = id then f t else t).laneKey = k) = _
    rw [hkey]

theorem ids_atTask {id : String} {f : Task → Task} (hf : ∀ t, (f t).run = t.run) :
    (s.atTask id f).tasks.map Task.runId = s.tasks.map Task.runId := by
  show (s.tasks.map _).map _ = _
  rw [List.map_map]
  congr 1
  funext t
  show (if t.runId = id then f t else t).run.runId = t.run.runId
  split
  · rw [hf]
  · rfl

theorem Books.atTask (h : Books s) {id : String} {f : Task → Task}
    (hf : ∀ t, (f t).run = t.run ∧ (f t).laneKey = t.laneKey) : Books (s.atTask id f) :=
  h.congr rfl (startedOn_atTask hf) (ids_atTask fun t => (hf t).1) (List.Subset.refl _) rfl rfl rfl

/-- A task goes on without its callback being run. -/
theorem busy_atTask {id : String} {f : Task → Task}
    (hf : ∀ t, (f t).run = t.run ∧ (f t).laneKey = t.laneKey)
    (hphase : ∀ t ∈ s.tasks, t.runId = id → ((f t).phase = .settled ↔ t.phase = .settled)) :
    (s.atTask id f).Busy = s.Busy := by
  have hid (t : Task) : (f t).runId = t.runId := congrArg DeliveredRun.runId (hf t).1
  funext k i
  apply propext
  constructor
  · rintro ⟨x, hx, hk, hi, hne⟩
    obtain ⟨t, ht, rfl⟩ := List.mem_map.1 hx
    by_cases htid : t.runId = id
    · rw [if_pos htid] at hk hi hne
      exact ⟨t, ht, (hf t).2 ▸ hk, hid t ▸ hi, fun hp => hne ((hphase t ht htid).2 hp)⟩
    · rw [if_neg htid] at hk hi hne
      exact ⟨t, ht, hk, hi, hne⟩
  · rintro ⟨t, ht, hk, hi, hne⟩
    refine ⟨_, List.mem_map_of_mem ht, ?_⟩
    by_cases htid : t.runId = id
    · rw [if_pos htid]
      exact ⟨(hf t).2.trans hk, (hid t).trans hi, fun hp => hne ((hphase t ht htid).1 hp)⟩
    · rw [if_neg htid]
      exact ⟨hk, hi, hne⟩

/-- A task's callback runs. -/
theorem busy_settle {id : String} (k : Option String) (i : String) :
    (s.setPhase id .settled).Busy k i ↔ s.Busy k i ∧ i ≠ id := by
  constructor
  · rintro ⟨x, hx, hk, hi, hne⟩
    obtain ⟨t, ht, rfl⟩ := List.mem_map.1 hx
    by_cases htid : t.runId = id
    · rw [if_pos htid] at hne
      exact absurd rfl hne
    · rw [if_neg htid] at hk hi hne
      exact ⟨⟨t, ht, hk, hi, hne⟩, hi ▸ htid⟩
  · rintro ⟨⟨t, ht, hk, hi, hne⟩, hdiff⟩
    refine ⟨_, List.mem_map_of_mem ht, ?_⟩
    rw [if_neg (hi ▸ hdiff)]
    exact ⟨hk, hi, hne⟩

/-! ## The loops -/

/-- **Loop rule.**  What `_lane_next` does to a lane is to skip heads of its queue and
then to start one, park the lane or retire it. -/
theorem laneLoop_rule {P Q : Runtime E → Prop} {key : String}
    (hskip : ∀ s lane run rest, P s → s.lanes.get? key = some lane → lane.queue = run :: rest →
      run.runId ∈ s.dropped → P (s.skipHead key lane run rest))
    (hstart : ∀ s lane run rest, P s → s.lanes.get? key = some lane → lane.queue = run :: rest →
      run.runId ∉ s.dropped → s.slotFree = true → Q (s.startHead key lane run rest))
    (hpark : ∀ s lane, P s → s.lanes.get? key = some lane → s.slotFree = false →
      Q (s.park key lane))
    (hretire : ∀ s lane, P s → s.lanes.get? key = some lane → lane.queue = [] →
      Q { s with lanes := s.lanes.pop key })
    {lane : Lane} {queue : List DeliveredRun} (hs : P s)
    (hlane : s.lanes.get? key = some lane) (hqueue : lane.queue = queue) :
    Q (s.laneLoop key lane queue) := by
  induction queue generalizing s lane with
  | nil => exact hretire s lane hs hlane hqueue
  | cons run rest ih =>
      unfold laneLoop
      split
      · rename_i hd
        exact ih (hskip s lane run rest hs hlane hqueue hd) (s.get?_setLane key _) rfl
      · rename_i hd
        split
        · rename_i hfree
          exact hstart s lane run rest hs hlane hqueue hd hfree
        · rename_i hfull
          exact hpark s lane hs hlane (Bool.eq_false_iff.2 hfull)

/-- **Loop rule.**  What `_kick_parked` does is to take parked lanes and call `_lane_next`
for each, until it is out of turns, of lanes or of slots. -/
theorem kickLoop_rule {P : Nat → Runtime E → Prop}
    (hturn : ∀ turns s key parked lane, P (turns + 1) s → s.parked = key :: parked →
      s.slotFree = true → s.lanes.get? key = some lane →
        P turns (({ s with parked := parked }.setLane key
          { lane with parked := false }).laneLoop key { lane with parked := false } lane.queue))
    (hgone : ∀ turns s key parked, P (turns + 1) s → s.parked = key :: parked →
      s.lanes.get? key = none → P turns { s with parked := parked })
    (turns : Nat) (hs : P turns s) : ∃ left, P left (s.kickLoop turns) ∧
      (left = 0 ∨ (s.kickLoop turns).parked = [] ∨ (s.kickLoop turns).slotFree = false) := by
  induction turns generalizing s with
  | zero => exact ⟨0, hs, .inl rfl⟩
  | succ turns ih =>
      unfold kickLoop
      cases hparked : s.parked with
      | nil => exact ⟨turns + 1, hs, .inr (.inl hparked)⟩
      | cons key parked =>
          dsimp only
          cases hfree : s.slotFree with
          | false =>
              rw [if_neg nofun]
              exact ⟨turns + 1, hs, .inr (.inr hfree)⟩
          | true =>
              rw [if_pos rfl]
              cases hlane : s.lanes.get? key with
              | none => exact ih (hgone turns s key parked hs hparked hlane)
              | some lane =>
                  refine ih ?_
                  unfold laneNext
                  rw [get?_setLane]
                  exact hturn turns s key parked lane hs hparked hfree hlane

/-! ## Transitions -/

/-- The books and the turns are in order, the turns but for the loose lane. -/
structure Kept (loose : Option String) (s : Runtime E) : Prop where
  books : Books s
  turns : Turns loose s

/-- With no slot free, or no lane parked, what the transition of a lane may do. -/
structure Advances (s s' : Runtime E) : Prop where
  parked : s.slotFree = true → s'.parked = s.parked
  full : s.slotFree = false → s'.slotFree = false

theorem Kept.laneLoop {key : String} {lane : Lane} (h : Kept (some key) s)
    (hlane : s.lanes.get? key = some lane) :
    Kept none (s.laneLoop key lane lane.queue) ∧
      Advances s (s.laneLoop key lane lane.queue) := by
  refine laneLoop_rule (P := fun t => Kept (some key) t ∧ t.slotFree = s.slotFree ∧
    t.parked = s.parked) (Q := fun t => Kept none t ∧ Advances s t) ?_ ?_ ?_ ?_ ⟨h, rfl, rfl⟩
    hlane rfl
  · rintro t lane run rest ⟨ht, hslot, hparked⟩ hlane hqueue hd
    exact ⟨⟨ht.books.skipHead hlane hqueue hd, ht.turns.skipHead hlane⟩, hslot, hparked⟩
  · rintro t lane run rest ⟨ht, hslot, hparked⟩ hlane hqueue hd hfree
    have hnew (k : Option String) : ¬ t.Busy k run.runId := by
      rintro ⟨x, hx, -, hid, -⟩
      refine ht.books.ne_of_queue_of_started (k := some key) (r := run) ?_
        (mem_startedOn.2 ⟨x, hx, rfl, rfl⟩) hid
      rw [queueOf_of_get? hlane, hqueue]
      exact List.mem_cons_self
    refine ⟨⟨ht.books.startHead hlane hqueue hd, ht.turns.startHead hlane hnew⟩,
      fun _ => hparked, fun hfull => ?_⟩
    rw [← hslot, hfree] at hfull
    cases hfull
  · rintro t lane ⟨ht, hslot, hparked⟩ hlane hfull
    have hturns := ht.turns.park hlane
    rw [Turns.park_eq (ht.turns.loose_face hlane).2.1] at hturns ⊢
    refine ⟨⟨ht.books.congr (queueOf_setLane_same hlane rfl) (fun _ => rfl) rfl
      (List.Subset.refl _) rfl rfl rfl, hturns⟩, fun hfree => ?_, fun _ => hfull⟩
    rw [← hslot, hfull] at hfree
    cases hfree
  · rintro t lane ⟨ht, hslot, hparked⟩ hlane hqueue
    exact ⟨⟨ht.books.congr (queueOf_pop hlane hqueue) (fun _ => rfl) rfl
      (List.Subset.refl _) rfl rfl rfl, ht.turns.retire hlane⟩, fun _ => hparked, fun hfull => hslot.trans hfull⟩

/-- The first parked lane is there. -/
theorem Turns.parked_head (h : Turns none s) {key : String} {parked : List String}
    (hparked : s.parked = key :: parked) : s.lanes.get? key ≠ none := by
  intro hnone
  have hmem : key ∈ s.parked := by
    rw [hparked]
    exact List.mem_cons_self
  obtain ⟨a, ha⟩ := (h.parked key).1 hmem
  unfold face at ha
  rw [hnone] at ha
  cases ha

section Kick

variable {key : String} {parked : List String} {lane : Lane}

theorem Kept.unpark (h : Kept none s) (hparked : s.parked = key :: parked)
    (hlane : s.lanes.get? key = some lane) :
    Kept (some key) ({ s with parked := parked }.setLane key { lane with parked := false }) :=
  ⟨h.books.congr (queueOf_setLane_same hlane rfl) (fun _ => rfl) rfl (List.Subset.refl _)
    rfl rfl rfl, h.turns.unpark hparked hlane⟩

/-- A parked lane has its turn. -/
theorem Kept.kick (h : Kept none s) (hparked : s.parked = key :: parked)
    (hfree : s.slotFree = true) (hlane : s.lanes.get? key = some lane) :
    let t := ({ s with parked := parked }.setLane key { lane with parked := false }).laneLoop key
      { lane with parked := false } lane.queue
    Kept none t ∧ t.parked = parked := by
  obtain ⟨hnext, hadv⟩ := (h.unpark hparked hlane).laneLoop (get?_setLane _ key _)
  exact ⟨hnext, hadv.parked hfree⟩

end Kick

/-- After `_kick_parked` no lane is parked, or no slot is free. -/
theorem Kept.kickParked (h : Kept none s) : Kept none s.kickParked ∧
    (s.kickParked.parked ≠ [] → s.kickParked.slotFree = false) := by
  have hturn : ∀ turns t key parked lane, Kept none t ∧ t.parked.length ≤ turns + 1 →
      t.parked = key :: parked → t.slotFree = true → t.lanes.get? key = some lane →
        let t' := ({ t with parked := parked }.setLane key
          { lane with parked := false }).laneLoop key { lane with parked := false } lane.queue
        Kept (E := E) none t' ∧ t'.parked.length ≤ turns := by
    rintro turns t key parked lane ⟨ht, hlength⟩ hparked hfree hlane
    obtain ⟨hnext, hleft⟩ := ht.kick hparked hfree hlane
    refine ⟨hnext, ?_⟩
    rw [hleft]
    rw [hparked, List.length_cons] at hlength
    omega
  have hgone : ∀ turns t key parked, Kept none t ∧ t.parked.length ≤ turns + 1 →
      t.parked = key :: parked → t.lanes.get? key = none →
        Kept (E := E) none { t with parked := parked } ∧ parked.length ≤ turns := by
    rintro turns t key parked ⟨ht, -⟩ hparked hnone
    exact absurd hnone (ht.turns.parked_head hparked)
  obtain ⟨left, ⟨hkept, hlength⟩, hend⟩ :=
    kickLoop_rule (P := fun turns t => Kept none t ∧ t.parked.length ≤ turns) hturn hgone
      s.parked.length ⟨h, Nat.le_refl _⟩
  refine ⟨hkept, fun hne => ?_⟩
  rcases hend with rfl | hnil | hfull
  · exact absurd (List.length_eq_zero_iff.1 (Nat.le_zero.1 hlength)) hne
  · exact absurd hnil hne
  · exact hfull

end Funduq.Provider.Runtime
