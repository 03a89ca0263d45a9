import Funduq.Broker.Actors

/-!
# Capacity

A provider key's `in_flight` is raised in one place, when a run is offered to it
with room to spare, and lowered in several, with the run's `offered_to` deciding
whether there is anything to give back.  The count therefore agrees with the
runs at every moment (`Inv.counted`).  What is left is the limit: it is looked
at when an offer is made and moves only when a provider registers, so the count
stays within it for as long as no registration has lowered it (`Capped`).
-/

namespace Funduq.Broker

open Funduq.Lib

theorem Run.place_le_one (run : Run) (k : Key) : run.place k ≤ 1 := by
  unfold Run.place
  split <;> decide

theorem Run.place_eq_zero {run : Run} {k : Key} (h : run.offeredTo ≠ some k) :
    run.place k = 0 := if_neg h

theorem Run.place_settle (run : Run) (k : Key) : run.settle.place k = 0 := by
  obtain ⟨_, h⟩ := run.settle_run
  rw [h]
  rfl

/-- There is room below any limit there is. -/
theorem ProviderHandler.lt_of_hasRoom {p : ProviderHandler} {n : Nat} (h : p.hasRoom = true)
    (hn : p.declared = some n) : p.inFlight < n := by
  simpa [hasRoom, hn] using h

namespace State

variable {cfg : Config} {s s' : State} {h : HandlerId} {r : RunId} {k : Key} {x y : Run}
  {o : Outside}

/-! ## Within the limit -/

/-- No provider holds more runs than it declared, unless it has come to declare
less. -/
def Capped (s : State) : Prop :=
  ∀ k n, s.lowered k = false → (s.provider k).declared = some n → (s.provider k).inFlight ≤ n

/-- A place is taken only where there is room. -/
theorem Capped.shifts (hs : s.Capped) (hk : s.Shifts x y o)
    (hroom : ∀ k, y.place k ≤ x.place k ∨ (s.provider k).hasRoom = true) :
    (s.withOutside o).Capped := by
  intro k n hl hd
  change o.lowered k = false at hl
  change ((o.providers k).getD {}).declared = some n at hd
  rw [hk.lowered] at hl
  rw [hk.declared] at hd
  change ((o.providers k).getD {}).inFlight ≤ n
  have hin := hk.inFlight k
  rcases hroom k with hle | hroom
  · have hbound := hs k n hl hd
    omega
  · have hlt := ProviderHandler.lt_of_hasRoom hroom hd
    have hone := y.place_le_one k
    omega

theorem Capped.turns (hs : s.Capped) (ht : s.Turns h s') : s'.Capped := by
  obtain ⟨t, R, r, w, hread, hm⟩ := ht
  have ht : t.Capped := by
    obtain ⟨_, _, _, rfl, -⟩ := hread.eq
    exact hs
  obtain ⟨o, rfl, -, hk⟩ := hm.did
  exact ht.shifts hk hm.room

theorem Capped.settles (hs : s.Capped) (hinv : Inv s) (hm : s.Settles h s') : s'.Capped := by
  obtain ⟨r, ret, c, o, -, -, rfl, -, hk⟩ := settles_eq hinv hm
  refine hs.shifts (o := o) hk fun k => .inl ?_
  rw [Run.place_settle]
  exact Nat.zero_le _

theorem Capped.leaves (hs : s.Capped) (hm : s.Leaves h s') : s'.Capped := by
  obtain ⟨-, -, -, rfl⟩ := hm
  unfold leave
  dsimp only
  split <;> exact hs

theorem Capped.outer (hs : s.Capped) (ho : s.Outer s') : s'.Capped := by
  intro k n hl hd
  rw [ho.inFlight]
  exact hs k n (ho.lowered ▸ hl) ((ho.declared k).symm.trans hd)

/-! ## Registration -/

theorem le_of_not_lowers {old : Option Nat} {m : Nat} {new : Nat}
    (h : lowers old (some new) = false) (hold : ∀ n, old = some n → m ≤ n) : m ≤ new := by
  cases old with
  | none => cases h
  | some n =>
      have hn : ¬ new < n := by simpa [lowers] using h
      exact Nat.le_trans (hold n rfl) (Nat.not_lt.1 hn)

/-- A registration keeps the count and says whether it lowers the limit. -/
theorem Capped.registerOne (hs : s.Capped) (ref : AgentRef) (c : Connection) :
    (s.registerOne ref c).Capped := by
  intro k n hl hd
  by_cases hk : k = c.publicKey
  · subst hk
    simp only [State.registerOne, Function.update_self, Bool.or_eq_false_iff] at hl
    simp only [State.registerOne, provider, Function.update_self, Option.getD_some] at hd ⊢
    cases hp : s.providers c.publicKey with
    | none => exact Nat.zero_le _
    | some p =>
        rw [hp, Option.any_some, hd] at hl
        refine le_of_not_lowers hl.2 fun m hm => ?_
        have hbound := hs c.publicKey m hl.1 (by rw [provider, hp]; exact hm)
        rwa [provider, hp] at hbound
  · simp only [State.registerOne, provider, Function.update_of_ne hk] at hl hd ⊢
    exact hs k n hl hd

theorem Capped.registerProvider (hs : s.Capped) (mapping : List (AgentRef × Connection)) :
    (s.registerProvider mapping).Capped := by
  have hreg : (mapping.foldl (fun s e => s.registerOne e.1 e.2) s).Capped := by
    induction mapping generalizing s with
    | nil => exact hs
    | cons e mapping ih => exact ih (hs.registerOne e.1 e.2)
  unfold State.registerProvider
  have hpoke : ∀ (es : List (AgentRef × Connection)) (t : State), t.Capped →
      (es.foldl (fun s e => s.pokeAgent e.1) t).Capped := by
    intro es
    induction es with
    | nil => exact fun t ht => ht
    | cons e es ih => exact fun t ht => ih _ ht
  exact hpoke mapping _ hreg

theorem Capped.step {a : Action} (hs : s.Capped) (hinv : Inv s) (hl : ∀ r, (s.lane r).Sound)
    (hstep : s.step cfg a = some s') : s'.Capped := by
  cases ha : a.handler? with
  | some h =>
      rcases handler_cases hinv hl ha hstep with hm | hm | hm
      · exact hs.turns hm
      · exact hs.settles hinv hm
      · exact hs.leaves hm
  | none =>
      by_cases hr : ∃ mapping, a = .registerProvider mapping
      · obtain ⟨mapping, rfl⟩ := hr
        cases hstep
        exact hs.registerProvider mapping
      · exact hs.outer (outer_step hinv ha (fun mapping he => hr ⟨mapping, he⟩) hstep)

/-! ## Offers -/

theorem Turns.offered (ht : s.Turns h s') (hn : (s.run r).offeredTo ≠ some k)
    (ho : (s'.run r).offeredTo = some k) : (s.provider k).hasRoom = true := by
  obtain ⟨t, R, x, w, hread, hm⟩ := ht
  obtain ⟨_, _, _, rfl, -⟩ := hread.eq
  by_cases hx : r = x
  · subst hx
    rw [hm.did.run] at ho
    have hplace : w.run.place k = 1 := if_pos ho
    rcases hm.room k with hle | hroom
    · rw [hplace, Run.place_eq_zero hn] at hle
      exact absurd hle (by decide)
    · exact hroom
  · obtain ⟨o, rfl, -⟩ := hm.did
    have hsame : (Function.update s.run x w.run r).offeredTo = some k := ho
    rw [Function.update_of_ne hx] at hsame
    exact absurd hsame hn

/-- **A run is offered to a key only when it has room.** -/
theorem room_of_offered {a : Action} (hinv : Inv s) (hl : ∀ r, (s.lane r).Sound)
    (hstep : s.step cfg a = some s') (hn : (s.run r).offeredTo ≠ some k)
    (ho : (s'.run r).offeredTo = some k) : (s.provider k).hasRoom = true := by
  have hnot : (s'.run r).offeredTo ≠ some k → (s.provider k).hasRoom = true :=
    fun h => absurd ho h
  cases ha : a.handler? with
  | some h =>
      rcases handler_cases hinv hl ha hstep with hm | hm | hm
      · exact hm.offered hn ho
      · refine hnot ?_
        obtain ⟨x, ret, c, o, -, -, rfl, -⟩ := settles_eq hinv hm
        change (Function.update s.run x (s.run x).settle r).offeredTo ≠ some k
        by_cases hx : r = x
        · subst hx
          obtain ⟨_, hset⟩ := (s.run r).settle_run
          rw [Function.update_self, hset]
          simp
        · rwa [Function.update_of_ne hx]
      · refine hnot ?_
        obtain ⟨-, -, -, rfl⟩ := hm
        unfold leave
        dsimp only
        split <;> exact hn
  | none =>
      refine hnot ?_
      by_cases hr : ∃ mapping, a = .registerProvider mapping
      · obtain ⟨mapping, rfl⟩ := hr
        cases hstep
        obtain ⟨o, hq, -⟩ := quiet_registerProvider s mapping
        rw [hq]
        exact hn
      · have houter := outer_step hinv ha (fun mapping he => hr ⟨mapping, he⟩) hstep
        rcases houter.run r with h | h | ⟨-, h⟩
        · rwa [h]
        · rw [h]
          exact hn
        · rw [h.offeredTo]
          simp

end State

section Reachable

variable {cfg : Config} {db : RunId → Option Row} {s : State}

theorem reachable_capped (hs : Reachable cfg db s) : s.Capped := by
  refine System.Reachable.invariant (P := State.Capped) ?_ ?_ hs
  · rintro s rfl k n - hd
    cases hd
  · intro s a s' hreach hcap hstep
    have hreach' : Reachable cfg db s := hreach
    obtain ⟨hinv, hl⟩ := reachable_sound hreach'
    exact hcap.step hinv hl hstep

/-- **Main result.**  A key's count is the number of runs the broker holds that
are offered to it, so there is a place to give back whenever one of them is
released.  A step that offers a run to the key finds it with room.  So the count
is within the declared limit as long as no registration has lowered it. -/
theorem capacity_conserved (hs : Reachable cfg db s) (k : Key) :
    (s.provider k).inFlight = s.places k ∧
    (∀ r ∈ s.runs, (s.run r).offeredTo = some k → 0 < (s.provider k).inFlight) ∧
    (∀ a s' r, s.step cfg a = some s' → (s.run r).offeredTo ≠ some k →
      (s'.run r).offeredTo = some k →
      ∀ n, (s.provider k).declared = some n → (s.provider k).inFlight < n) ∧
    (s.lowered k = false →
      ∀ n, (s.provider k).declared = some n → (s.provider k).inFlight ≤ n) := by
  obtain ⟨hinv, hl⟩ := reachable_sound hs
  refine ⟨hinv.counted k, ?_, ?_, ?_⟩
  · intro r hr ho
    have hplace : (s.run r).place k = 1 := if_pos ho
    have hfunded := hinv.funded hr k
    omega
  · intro a s' r hstep hn ho n hd
    exact ProviderHandler.lt_of_hasRoom (State.room_of_offered hinv hl hstep hn ho) hd
  · exact fun hlow n hd => reachable_capped hs k n hlow hd

/-- A provider that declared one place has it taken. -/
theorem capacity_conserved_offered :
    (State.after Demo.config Demo.offered).places "pk" = 1 ∧
    ((State.after Demo.config Demo.offered).provider "pk").inFlight =
      (State.after Demo.config Demo.offered).places "pk" ∧
    ((State.after Demo.config Demo.offered).provider "pk").inFlight ≤ 1 := by
  have h := capacity_conserved (reachable_after Demo.config Demo.offered) "pk"
  refine ⟨by decide +kernel, h.1, h.2.2.2 ?_ 1 ?_⟩
  · decide +kernel
  · decide +kernel

end Reachable

end Funduq.Broker
