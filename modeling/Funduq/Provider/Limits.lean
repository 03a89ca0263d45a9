import Funduq.Provider.Endings

/-!
# The two limits a provider declares

`max_concurrent_runs` is how many runs may execute, `max_queued_runs` how many
may wait.  A lane starts a run only into a free slot, and a run is queued where
no slot is free only while the queue has room; but an interjection is started on
the queue's room alone, and a run taken because a slot is free queues behind the
active run of its own thread, whatever the queue holds.

Nothing here rests on what is offered: a run may be offered again while it waits
or executes, and a callback may come for any task there ever was.

## Main results

* `executing_within_limit`: as long as no interjection is started without a slot,
  no more runs execute than `max_concurrent_runs` says, and the next step keeps
  it so exactly when it starts no such interjection.
* `waiting_within_limit`: the same of `max_queued_runs` and of the runs that queue
  behind an active one.
-/

namespace Funduq.Provider

open Funduq.Lib

variable {E : Type} {s s' : Runtime E}

/-! ## Whatever is offered -/

/-- One thing that can happen to a runtime to which anything is offered.  A callback is
that of a task spawned for the run and the lane. -/
inductive Happening (E : Type) where
  | deliver (run : DeliveredRun) (hook : Hook)
  | cancel (runId : String)
  | begin (runId : String) (opens : Bool)
  | yields (runId : String) (e : E)
  | stops (runId : String)
  | done (runId : String) (laneKey : Option String)
  | reportOutput

namespace Runtime

/-- `_done`. -/
def finish (s : Runtime E) (runId : String) (laneKey : Option String) : Runtime E :=
  ((s.settle runId).freeLane runId laneKey).kickParked

def happens (s : Runtime E) : Happening E → Option (Runtime E)
  | .deliver run hook => some (s.deliver run hook).2
  | .cancel runId => some (s.cancel runId)
  | .begin runId opens => s.begin runId opens
  | .yields runId e => s.yields runId e
  | .stops runId => s.stops runId
  | .done runId laneKey =>
      if s.tasks.any fun t => t.runId = runId ∧ t.laneKey = laneKey then
        some (s.finish runId laneKey)
      else none
  | .reportOutput => s.reportOutput

end Runtime

/-- A started runtime, and everything that can happen to it whatever it is offered. -/
def anyOffers (E : Type) (maxQueuedRuns : Int) (maxConcurrentRuns : Option Int) :
    System (Runtime E) (Happening E) where
  init s := s = Runtime.start { maxQueuedRuns, maxConcurrentRuns }
  step := Runtime.happens

namespace Runtime

/-- What happens to a runtime that is offered each run once is among it. -/
theorem happens_of_step {m : Move E} (h : s.step m = some s') : ∃ e, s.happens e = some s' := by
  cases m with
  | deliver run hook =>
      simp only [step] at h
      split at h
      · exact ⟨.deliver run hook, h⟩
      · cases h
  | cancel runId => exact ⟨.cancel runId, h⟩
  | begin runId opens => exact ⟨.begin runId opens, h⟩
  | yields runId e => exact ⟨.yields runId e, h⟩
  | stops runId => exact ⟨.stops runId, h⟩
  | complete runId =>
      obtain ⟨t, hfind, rfl⟩ := Option.map_eq_some_iff.1 h
      have hid := List.find?_some hfind
      rw [decide_eq_true_eq] at hid
      refine ⟨.done runId t.laneKey, if_pos ?_⟩
      refine List.any_eq_true.2 ⟨t, List.mem_of_find?_eq_some hfind, ?_⟩
      simp [hid.1]
  | reportOutput => exact ⟨.reportOutput, h⟩

theorem reachable_anyOffers {maxQueuedRuns : Int} {maxConcurrentRuns : Option Int}
    (h : (system E maxQueuedRuns maxConcurrentRuns).Reachable s) :
    (anyOffers E maxQueuedRuns maxConcurrentRuns).Reachable s := by
  induction h with
  | init h => exact .init h
  | step m _ h ih =>
      obtain ⟨e, he⟩ := happens_of_step h
      exact .step e ih he

/-! ## What a lane does -/

/-- A property that lanes, cancels and callbacks keep: a lane starts a run only into a
free slot, and what neither starts, queues nor ends a run is left aside. -/
structure SlotRule (P : Runtime E → Prop) : Prop where
  skip : ∀ {s : Runtime E} {key lane run rest}, P s → P (s.skipHead key lane run rest)
  start : ∀ {s : Runtime E} {key lane run rest}, P s → s.slotFree = true →
    P (s.startHead key lane run rest)
  settle : ∀ {s : Runtime E} {runId}, P s → P (s.settle runId)
  cancel : ∀ {s : Runtime E} {runId}, P s → P (s.cancel runId)
  aside : ∀ {s : Runtime E} {lanes parked tasks output put reported accepted}, P s →
    P { s with lanes, parked, tasks, output, put, reported, accepted }

namespace SlotRule

variable {P : Runtime E → Prop}

theorem park (hP : SlotRule P) (hs : P s) (key : String) (lane : Lane) :
    P (s.park key lane) := by
  unfold Runtime.park
  split
  · exact hs
  · exact hP.aside (s := s) hs

theorem laneLoop (hP : SlotRule P) (hs : P s) (key : String) (lane : Lane)
    (queue : List DeliveredRun) : P (s.laneLoop key lane queue) := by
  induction queue generalizing s lane with
  | nil => exact hP.aside hs
  | cons run rest ih =>
      unfold Runtime.laneLoop
      split
      · exact ih (hP.skip hs) _
      · split
        · rename_i hfree
          exact hP.start hs hfree
        · exact hP.park hs key lane

theorem laneNext (hP : SlotRule P) (hs : P s) (key : String) : P (s.laneNext key) := by
  unfold Runtime.laneNext
  split
  · exact hs
  · exact hP.laneLoop hs _ _ _

theorem kickParked (hP : SlotRule P) (hs : P s) : P s.kickParked := by
  obtain ⟨_, h, -⟩ := kickLoop_rule (P := fun _ t => P t)
    (fun _ _ _ _ _ ht _ _ _ => hP.laneLoop (hP.aside ht) _ _ _)
    (fun _ _ _ _ ht _ _ => hP.aside ht) s.parked.length hs
  exact h

theorem freeLane (hP : SlotRule P) (hs : P s) (runId : String) (laneKey : Option String) :
    P (s.freeLane runId laneKey) := by
  cases laneKey with
  | none => exact hs
  | some key =>
      unfold Runtime.freeLane
      dsimp only
      split
      · exact hs
      · split
        · exact hP.laneNext (hP.aside hs) key
        · exact hs

/-- **Step rule.**  Whatever happens but an offer keeps the property. -/
theorem happens (hP : SlotRule P) (hs : P s) {e : Happening E} (h : s.happens e = some s')
    (he : ∀ run hook, e ≠ .deliver run hook) : P s' := by
  cases e with
  | deliver run hook => exact absurd rfl (he run hook)
  | cancel runId =>
      cases h
      exact hP.cancel hs
  | begin runId opens =>
      obtain ⟨t, -, rfl⟩ := Option.map_eq_some_iff.1 h
      split
      · exact hP.aside (s := s) hs
      · split
        · exact hP.aside (s := s) hs
        · exact hP.aside (s := s) hs
  | yields runId e =>
      simp only [Runtime.happens, yields] at h
      split at h
      · cases h
        exact hP.aside (s := s) hs
      · cases h
  | stops runId =>
      simp only [Runtime.happens, stops] at h
      split at h
      · cases h
        exact hP.aside (s := s) hs
      · cases h
  | done runId laneKey =>
      simp only [Runtime.happens] at h
      split at h
      · cases h
        exact hP.kickParked (hP.freeLane (hP.settle hs) runId laneKey)
      · cases h
  | reportOutput =>
      simp only [Runtime.happens, reportOutput] at h
      split at h
      · cases h
      · cases h
        split
        · exact hP.aside (s := s) hs
        · exact hP.aside (s := s) hs

end SlotRule

/-! ## What an offer does -/

/-- `deliver` starts the run beside the lane it joins. -/
def startsBeside (s : Runtime E) (run : DeliveredRun) (hook : Hook) : Bool :=
  s.running && s.joins run && s.hasRoom && hook = .streaming

/-- `deliver` queues the run on a lane that is there. -/
def queuesBehind (s : Runtime E) (run : DeliveredRun) : Bool :=
  s.running && !s.joins run && s.hasRoom && (s.lanes.get? run.key).isSome

/-- An offer is turned away, started beside its lane, queued on a lane made for it, or
queued on one that is there. -/
theorem deliver_cases (s : Runtime E) (run : DeliveredRun) (hook : Hook) :
    ((s.deliver run hook).2 = s ∧ s.startsBeside run hook = false ∧
      s.queuesBehind run = false) ∨
    (s.startsBeside run hook = true ∧ s.queuesBehind run = false ∧
      (s.deliver run hook).2 = (s.accept none run).startRun run true none) ∨
    (s.startsBeside run hook = false ∧ s.queuesBehind run = false ∧ s.hasRoom = true ∧
      (s.deliver run hook).2 = (((s.accept (some run.key) run).enqueue run.key {} run).laneNext
        run.key)) ∨
    (s.startsBeside run hook = false ∧ s.queuesBehind run = true ∧
      ∃ lane, (s.deliver run hook).2 = (s.accept (some run.key) run).enqueue run.key lane run) := by
  unfold deliver startsBeside queuesBehind
  cases s.running with
  | false => simp
  | true =>
      cases s.joins run with
      | true => cases hook <;> cases hroom : s.hasRoom <;> simp [interject, hroom]
      | false =>
          cases hroom : s.hasRoom with
          | false => simp
          | true =>
              have hlanes : (s.accept (some run.key) run).lanes = s.lanes := rfl
              cases hlane : s.lanes.get? run.key with
              | none => simp [hlanes, hlane]
              | some lane =>
                  simp only [hlanes, hlane]
                  exact .inr (.inr (.inr ⟨by simp, by simp, lane, rfl⟩))

/-! ## What is declared -/

/-- The limits the runtime was given. -/
structure Declares (maxQueuedRuns : Int) (maxConcurrentRuns : Option Int) (s : Runtime E) :
    Prop where
  queued : s.maxQueuedRuns = maxQueuedRuns
  concurrent : s.maxConcurrentRuns = maxConcurrentRuns

namespace Declares

variable {maxQueuedRuns limit : Int} {maxConcurrentRuns : Option Int}

theorem slotRule : SlotRule (Declares (E := E) maxQueuedRuns maxConcurrentRuns) where
  skip h := ⟨h.queued, h.concurrent⟩
  start h _ := ⟨h.queued, h.concurrent⟩
  settle h := ⟨h.queued, h.concurrent⟩
  cancel h := by
    unfold cancel
    split
    · exact ⟨h.queued, h.concurrent⟩
    · split
      · exact ⟨h.queued, h.concurrent⟩
      · exact h
  aside h := ⟨h.queued, h.concurrent⟩

theorem happens (h : Declares maxQueuedRuns maxConcurrentRuns s) {e : Happening E}
    (hs : s.happens e = some s') : Declares maxQueuedRuns maxConcurrentRuns s' := by
  cases e with
  | deliver run hook =>
      cases hs
      rcases s.deliver_cases run hook with ⟨heq, -⟩ | ⟨-, -, heq⟩ | ⟨-, -, -, heq⟩ |
        ⟨-, -, lane, heq⟩
      · rw [heq]
        exact h
      · rw [heq]
        exact ⟨h.queued, h.concurrent⟩
      · rw [heq]
        refine slotRule.laneNext ?_ run.key
        exact ⟨h.queued, h.concurrent⟩
      · rw [heq]
        exact ⟨h.queued, h.concurrent⟩
  | _ => exact slotRule.happens h hs nofun

theorem of_reachableBy {C : Runtime E → Happening E → Prop}
    (h : (anyOffers E maxQueuedRuns maxConcurrentRuns).ReachableBy C s) :
    Declares maxQueuedRuns maxConcurrentRuns s := by
  refine h.invariant ?_ fun _ _ _ _ ht _ hs => ht.happens hs
  rintro t rfl
  exact ⟨rfl, rfl⟩

theorem slotFree_iff (h : Declares maxQueuedRuns (some limit) s) :
    s.slotFree = true ↔ (s.inFlight.length : Int) < limit := by
  unfold slotFree
  rw [h.concurrent]
  exact decide_eq_true_iff

/-- There is room where a slot is free, or the queue is not full. -/
theorem hasRoom_iff (h : Declares maxQueuedRuns (some limit) s) :
    s.hasRoom = true ↔ s.slotFree = true ∨ (s.queued.length : Int) < maxQueuedRuns := by
  rw [h.slotFree_iff]
  unfold hasRoom
  rw [h.concurrent, ← h.queued]
  dsimp only
  split
  · rename_i hfree
    exact iff_of_true rfl (.inl hfree)
  · rename_i hfull
    rw [decide_eq_true_eq]
    exact ⟨.inr, fun h => h.resolve_left hfull⟩

end Declares

/-! ## How many execute -/

/-- A run that joins a lane, and does not execute yet, is started only into a free slot. -/
def TakesSlot (s : Runtime E) : Happening E → Prop
  | .deliver run hook =>
      s.startsBeside run hook = true → run.runId ∉ s.inFlight → s.slotFree = true
  | _ => True

instance (s : Runtime E) (e : Happening E) : Decidable (s.TakesSlot e) :=
  match e with
  | .deliver run hook =>
      inferInstanceAs (Decidable (s.startsBeside run hook = true → run.runId ∉ s.inFlight →
        s.slotFree = true))
  | .cancel _ | .begin _ _ | .yields _ _ | .stops _ | .done _ _ | .reportOutput =>
      inferInstanceAs (Decidable True)

/-- No more runs execute than the provider declares. -/
structure Executes (maxQueuedRuns limit : Int) (s : Runtime E) : Prop where
  declares : Declares maxQueuedRuns (some limit) s
  within : (s.inFlight.length : Int) ≤ limit

namespace Executes

variable {maxQueuedRuns limit : Int}

theorem slotRule : SlotRule (Executes (E := E) maxQueuedRuns limit) where
  skip h := ⟨Declares.slotRule.skip h.declares, h.within⟩
  start {s _ _ run _} h hfree := by
    have hroom := h.declares.slotFree_iff.1 hfree
    have hlength : (s.inFlight.insert run.runId).length ≤ s.inFlight.length + 1 := by
      rw [List.length_insert]
      split <;> omega
    refine ⟨Declares.slotRule.start h.declares hfree, ?_⟩
    show ((s.inFlight.insert run.runId).length : Int) ≤ limit
    omega
  settle {s runId} h := by
    have hlength : (s.inFlight.erase runId).length ≤ s.inFlight.length := List.length_erase_le
    have hwithin := h.within
    refine ⟨Declares.slotRule.settle h.declares, ?_⟩
    show ((s.inFlight.erase runId).length : Int) ≤ limit
    omega
  cancel {s runId} h := by
    refine ⟨Declares.slotRule.cancel h.declares, ?_⟩
    unfold cancel
    split
    · exact h.within
    · split
      · exact h.within
      · exact h.within
  aside h := ⟨Declares.slotRule.aside h.declares, h.within⟩

/-- **Step lemma.**  What happens keeps the limit exactly when it takes a slot for what it
starts beside a lane. -/
theorem step_iff (h : Executes maxQueuedRuns limit s) {e : Happening E}
    (hs : s.happens e = some s') : (s'.inFlight.length : Int) ≤ limit ↔ s.TakesSlot e := by
  have hwithin := h.within
  cases e with
  | deliver run hook =>
      cases hs
      rcases s.deliver_cases run hook with ⟨heq, hno, -⟩ | ⟨hyes, -, heq⟩ |
        ⟨hno, -, -, heq⟩ | ⟨hno, -, lane, heq⟩
      · rw [heq]
        exact iff_of_true hwithin fun hyes => absurd hyes (by simp [hno])
      · rw [heq]
        simp only [startRun, accept, List.length_insert]
        constructor
        · intro hlength _ hnew
          rw [if_neg hnew] at hlength
          rw [h.declares.slotFree_iff]
          omega
        · intro htakes
          split
          · exact hwithin
          · rename_i hnew
            have hroom := h.declares.slotFree_iff.1 (htakes hyes hnew)
            omega
      · rw [heq]
        have hopened : Executes maxQueuedRuns limit
            ((s.accept (some run.key) run).enqueue run.key {} run) :=
          ⟨⟨h.declares.queued, h.declares.concurrent⟩, hwithin⟩
        exact iff_of_true (slotRule.laneNext hopened run.key).within fun hyes =>
          absurd hyes (by simp [hno])
      · rw [heq]
        exact iff_of_true hwithin fun hyes => absurd hyes (by simp [hno])
  | _ => exact iff_of_true (slotRule.happens h hs nofun).within trivial

end Executes

/-- **The limit of executing runs.**  A started runtime that declares `limit`, offered anything,
in any order with cancels and callbacks, never executes more runs than that as long as what
it starts beside a lane takes a free slot; and a step from there keeps to the limit exactly
when it does so. -/
theorem executing_within_limit {maxQueuedRuns limit : Int} (hlimit : 0 ≤ limit)
    (h : (anyOffers E maxQueuedRuns (some limit)).ReachableBy TakesSlot s) :
    (s.inFlight.length : Int) ≤ limit ∧
      ∀ e s', s.happens e = some s' → ((s'.inFlight.length : Int) ≤ limit ↔ s.TakesSlot e) := by
  have hs : Executes maxQueuedRuns limit s := by
    refine h.invariant (P := Executes maxQueuedRuns limit) ?_ fun t e t' _ ht hc hstep =>
      ⟨ht.declares.happens hstep, (ht.step_iff hstep).2 hc⟩
    rintro t rfl
    exact ⟨⟨rfl, rfl⟩, hlimit⟩
  exact ⟨hs.within, fun e s' hstep => hs.step_iff hstep⟩

namespace Demo

/-- A run addressed to another on its thread. -/
def joining (runId threadId addressed : String) : DeliveredRun where
  runId := runId
  agentName := "a"
  runInput := .obj [("forwardedProps", .obj [("funduq",
    .obj [("addressedRunId", .str addressed)])])]
  threadId := some threadId

def fresh (maxQueuedRuns limit : Int) : Runtime Nat :=
  Runtime.start { maxQueuedRuns, maxConcurrentRuns := some limit }

/-- A run, and an interjection into it. -/
def interjected : List (Move Nat) :=
  [.deliver (run "r" "t") .absent, .deliver (joining "i" "t" "r") .streaming]

/-- The same, where anything may be offered. -/
def offered : List (Happening Nat) :=
  [.deliver (run "r" "t") .absent, .deliver (joining "i" "t" "r") .streaming]

/-- Three runs on one thread. -/
def behind : List (Move Nat) :=
  [.deliver (run "r" "t") .absent, .deliver (run "q" "t") .absent,
    .deliver (run "p" "t") .absent]

/-- Two runs on one thread. -/
def paired : List (Happening Nat) :=
  [.deliver (run "r" "t") .absent, .deliver (run "q" "t") .absent]

end Demo

/-- With two slots the interjection takes the second, and one more would go past them. -/
theorem executing_within_limit_interjected :
    let s := (anyOffers Nat 1 (some 2)).runFrom (Demo.fresh 1 2) Demo.offered
    (s.inFlight.length : Int) ≤ 2 ∧
      ¬ ((s.deliver (Demo.joining "j" "t" "r") .streaming).2.inFlight.length : Int) ≤ 2 := by
  have hs : (anyOffers Nat 1 (some 2)).ReachableBy TakesSlot
      ((anyOffers Nat 1 (some 2)).runFrom (Demo.fresh 1 2) Demo.offered) :=
    System.ReachableBy.runFrom (p := fun s e => decide (s.TakesSlot e))
      (fun _ _ h => of_decide_eq_true h) (.init rfl) (by decide +kernel)
  have h := executing_within_limit (by decide) hs
  refine ⟨h.1, fun hkept => ?_⟩
  exact absurd ((h.2 (.deliver (Demo.joining "j" "t" "r") .streaming) _ rfl).1 hkept)
    (by decide +kernel)

/-- **An interjection goes past the limit.**  A provider with one slot and the queue's room
for one executes a run and the interjection into it. -/
theorem interjection_past_limit :
    ∃ s : Runtime Nat, (system Nat 1 (some 1)).Reachable s ∧
      (anyOffers Nat 1 (some 1)).Reachable s ∧ s.inFlight = ["i", "r"] ∧
      ¬ (s.inFlight.length : Int) ≤ 1 := by
  have hs : (system Nat 1 (some 1)).Reachable
      ((system Nat 1 (some 1)).runFrom (Demo.fresh 1 1) Demo.interjected) :=
    System.Reachable.runFrom (.init rfl) _
  exact ⟨_, hs, reachable_anyOffers hs, by decide +kernel, by decide +kernel⟩

/-! ## How many wait -/

/-- A run that queues on a lane that is there, and does not wait yet, finds a place free. -/
def FindsPlace (s : Runtime E) : Happening E → Prop
  | .deliver run _ =>
      s.queuesBehind run = true → run.runId ∉ s.queued →
        (s.queued.length : Int) < s.maxQueuedRuns
  | _ => True

instance (s : Runtime E) (e : Happening E) : Decidable (s.FindsPlace e) :=
  match e with
  | .deliver run _ =>
      inferInstanceAs (Decidable (s.queuesBehind run = true → run.runId ∉ s.queued →
        (s.queued.length : Int) < s.maxQueuedRuns))
  | .cancel _ | .begin _ _ | .yields _ _ | .stops _ | .done _ _ | .reportOutput =>
      inferInstanceAs (Decidable True)

/-- No more runs wait than the provider declares. -/
structure Waits (maxQueuedRuns limit : Int) (s : Runtime E) : Prop where
  declares : Declares maxQueuedRuns (some limit) s
  within : (s.queued.length : Int) ≤ maxQueuedRuns

namespace Waits

variable {maxQueuedRuns limit : Int}

theorem erase_le (h : Waits maxQueuedRuns limit s) (runId : String) :
    ((s.queued.erase runId).length : Int) ≤ maxQueuedRuns := by
  have hlength : (s.queued.erase runId).length ≤ s.queued.length := List.length_erase_le
  have hwithin := h.within
  omega

theorem slotRule : SlotRule (Waits (E := E) maxQueuedRuns limit) where
  skip h := ⟨Declares.slotRule.skip h.declares, h.erase_le _⟩
  start h hfree := ⟨Declares.slotRule.start h.declares hfree, h.erase_le _⟩
  settle h := ⟨Declares.slotRule.settle h.declares, h.within⟩
  cancel {s runId} h := by
    refine ⟨Declares.slotRule.cancel h.declares, ?_⟩
    unfold cancel
    split
    · exact h.within
    · split
      · exact h.erase_le runId
      · exact h.within
  aside h := ⟨Declares.slotRule.aside h.declares, h.within⟩

/-- A run on a lane of its own waits only where no slot is free, and then the queue has
room for it. -/
theorem opens (h : Waits maxQueuedRuns limit s) (run : DeliveredRun) (hroom : s.hasRoom = true) :
    Waits maxQueuedRuns limit
      (((s.accept (some run.key) run).enqueue run.key {} run).laneNext run.key) := by
  have hwithin := h.within
  have hback : (((s.queued.insert run.runId).erase run.runId).length : Int) ≤ maxQueuedRuns := by
    by_cases hid : run.runId ∈ s.queued
    · rw [List.insert_of_mem hid]
      exact h.erase_le run.runId
    · rw [List.insert_of_not_mem hid, List.erase_cons_head]
      exact hwithin
  have hdeclares : Declares maxQueuedRuns (some limit)
      ((s.accept (some run.key) run).enqueue run.key {} run) :=
    ⟨h.declares.queued, h.declares.concurrent⟩
  refine ⟨Declares.slotRule.laneNext hdeclares run.key, ?_⟩
  have hlane : ((s.accept (some run.key) run).enqueue run.key {} run).lanes.get? run.key =
      some { queue := [run] } := get?_setLane _ run.key _
  unfold laneNext
  rw [hlane]
  dsimp only
  unfold laneLoop
  split
  · exact hback
  · split
    · exact hback
    · rename_i hfull
      have hplace := (h.declares.hasRoom_iff.1 hroom).resolve_left hfull
      have hlength : (s.queued.insert run.runId).length ≤ s.queued.length + 1 := by
        rw [List.length_insert]
        split <;> omega
      show ((s.queued.insert run.runId).length : Int) ≤ maxQueuedRuns
      omega

/-- **Step lemma.**  What happens keeps the limit exactly when there is a place for what it
queues on a lane that is there. -/
theorem step_iff (h : Waits maxQueuedRuns limit s) {e : Happening E}
    (hs : s.happens e = some s') : (s'.queued.length : Int) ≤ maxQueuedRuns ↔ s.FindsPlace e := by
  have hwithin := h.within
  cases e with
  | deliver run hook =>
      cases hs
      rcases s.deliver_cases run hook with ⟨heq, -, hno⟩ | ⟨-, hno, heq⟩ |
        ⟨-, hno, hroom, heq⟩ | ⟨-, hyes, lane, heq⟩
      · rw [heq]
        exact iff_of_true hwithin fun hyes => absurd hyes (by simp [hno])
      · rw [heq]
        exact iff_of_true hwithin fun hyes => absurd hyes (by simp [hno])
      · rw [heq]
        exact iff_of_true (h.opens run hroom).within fun hyes => absurd hyes (by simp [hno])
      · rw [heq]
        show ((s.queued.insert run.runId).length : Int) ≤ maxQueuedRuns ↔ _
        rw [List.length_insert]
        constructor
        · intro hlength _ hnew
          rw [if_neg hnew] at hlength
          rw [h.declares.queued]
          omega
        · intro hfinds
          split
          · exact hwithin
          · rename_i hnew
            have hplace := hfinds hyes hnew
            rw [h.declares.queued] at hplace
            omega
  | _ => exact iff_of_true (slotRule.happens h hs nofun).within trivial

end Waits

/-- **The limit of waiting runs.**  A started runtime that declares both limits, offered
anything, in any order with cancels and callbacks, never has more runs waiting than
`maxQueuedRuns` as long as what it queues behind another run finds a place; and a step from
there keeps to the limit exactly when it does so. -/
theorem waiting_within_limit {maxQueuedRuns limit : Int} (hqueue : 1 ≤ maxQueuedRuns)
    (h : (anyOffers E maxQueuedRuns (some limit)).ReachableBy FindsPlace s) :
    (s.queued.length : Int) ≤ maxQueuedRuns ∧
      ∀ e s', s.happens e = some s' →
        ((s'.queued.length : Int) ≤ maxQueuedRuns ↔ s.FindsPlace e) := by
  have hs : Waits maxQueuedRuns limit s := by
    refine h.invariant (P := Waits maxQueuedRuns limit) ?_ fun t e t' _ ht hc hstep =>
      ⟨ht.declares.happens hstep, (ht.step_iff hstep).2 hc⟩
    rintro t rfl
    refine ⟨⟨rfl, rfl⟩, ?_⟩
    show (0 : Int) ≤ maxQueuedRuns
    omega
  exact ⟨hs.within, fun e s' hstep => hs.step_iff hstep⟩

/-- With two slots and one place the second run of a thread waits, and a third would go past
the place. -/
theorem waiting_within_limit_paired :
    let s := (anyOffers Nat 1 (some 2)).runFrom (Demo.fresh 1 2) Demo.paired
    (s.queued.length : Int) ≤ 1 ∧
      ¬ ((s.deliver (Demo.run "p" "t") .absent).2.queued.length : Int) ≤ 1 := by
  have hs : (anyOffers Nat 1 (some 2)).ReachableBy FindsPlace
      ((anyOffers Nat 1 (some 2)).runFrom (Demo.fresh 1 2) Demo.paired) :=
    System.ReachableBy.runFrom (p := fun s e => decide (s.FindsPlace e))
      (fun _ _ h => of_decide_eq_true h) (.init rfl) (by decide +kernel)
  have h := waiting_within_limit (by decide) hs
  refine ⟨h.1, fun hkept => ?_⟩
  exact absurd ((h.2 (.deliver (Demo.run "p" "t") .absent) _ rfl).1 hkept) (by decide +kernel)

/-- **The queue overflows.**  A provider with two slots and one place takes three runs of one
thread: one executes, and two wait behind it beside the free slot. -/
theorem queue_past_limit :
    ∃ s : Runtime Nat, (system Nat 1 (some 2)).Reachable s ∧
      (anyOffers Nat 1 (some 2)).Reachable s ∧ s.inFlight = ["r"] ∧ s.queued = ["p", "q"] ∧
      ¬ (s.queued.length : Int) ≤ 1 := by
  have hs : (system Nat 1 (some 2)).Reachable
      ((system Nat 1 (some 2)).runFrom (Demo.fresh 1 2) Demo.behind) :=
    System.Reachable.runFrom (.init rfl) _
  exact ⟨_, hs, reachable_anyOffers hs, by decide +kernel, by decide +kernel, by decide +kernel⟩

end Runtime

end Funduq.Provider
