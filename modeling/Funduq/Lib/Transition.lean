import Mathlib.Logic.Relation

/-!
# Transition systems and their reachable states

A system is a set of initial states and a partial step function: `step s a` is
the state action `a` leads to, `none` when `a` is not enabled in `s`.  Every
safety result below a system is an instance of one rule, `Reachable.invariant`:
what holds initially and survives a step holds in every reachable state.
-/

namespace Funduq.Lib

variable {σ α : Type}

/-- A transition system over states `σ` and actions `α`. -/
structure System (σ α : Type) where
  init : σ → Prop
  step : σ → α → Option σ

namespace System

/-- The states a system can get into. -/
inductive Reachable (sys : System σ α) : σ → Prop where
  | init {s : σ} (h : sys.init s) : Reachable sys s
  | step {s s' : σ} (a : α) (hs : Reachable sys s) (h : sys.step s a = some s') :
      Reachable sys s'

/-- **Invariant rule.**  A property of the initial states that every step from
a reachable state keeps is a property of every reachable state. -/
theorem Reachable.invariant {sys : System σ α} {P : σ → Prop}
    (hinit : ∀ s, sys.init s → P s)
    (hstep : ∀ s a s', Reachable sys s → P s → sys.step s a = some s' → P s')
    {s : σ} (h : Reachable sys s) : P s := by
  induction h with
  | init h => exact hinit _ h
  | step a hs h ih => exact hstep _ a _ hs ih h

/-- The states a system can get into by taking an action only where `C` allows
it. -/
inductive ReachableBy (sys : System σ α) (C : σ → α → Prop) : σ → Prop where
  | init {s : σ} (h : sys.init s) : ReachableBy sys C s
  | step {s s' : σ} (a : α) (hs : ReachableBy sys C s) (hc : C s a)
      (h : sys.step s a = some s') : ReachableBy sys C s'

theorem ReachableBy.invariant {sys : System σ α} {C : σ → α → Prop} {P : σ → Prop}
    (hinit : ∀ s, sys.init s → P s)
    (hstep : ∀ s a s', ReachableBy sys C s → P s → C s a → sys.step s a = some s' → P s')
    {s : σ} (h : ReachableBy sys C s) : P s := by
  induction h with
  | init h => exact hinit _ h
  | step a hs hc h ih => exact hstep _ a _ hs ih hc h

/-- What holds in every state reached may be added to the condition. -/
theorem ReachableBy.strengthen {sys : System σ α} {C : σ → α → Prop} {P : σ → Prop}
    (hP : ∀ s, ReachableBy sys C s → P s) {s : σ} (h : ReachableBy sys C s) :
    ReachableBy sys (fun s a => C s a ∧ P s) s := by
  induction h with
  | init h => exact .init h
  | step a hs hc h ih => exact .step a ih ⟨hc, hP _ hs⟩ h

theorem ReachableBy.reachable {sys : System σ α} {C : σ → α → Prop} {s : σ}
    (h : ReachableBy sys C s) : Reachable sys s := by
  induction h with
  | init h => exact .init h
  | step a _ _ h ih => exact .step a ih h

theorem Reachable.by_any {sys : System σ α} {s : σ} (h : Reachable sys s) :
    ReachableBy sys (fun _ _ => True) s := by
  induction h with
  | init h => exact .init h
  | step a _ h ih => exact .step a ih trivial h

/-- The state a list of actions leads to, `none` as soon as one is not
enabled. -/
def exec (sys : System σ α) : σ → List α → Option σ
  | s, [] => some s
  | s, a :: as => (sys.step s a).bind fun s' => exec sys s' as

theorem exec_nil (sys : System σ α) (s : σ) : sys.exec s [] = some s := rfl

theorem exec_cons (sys : System σ α) (s : σ) (a : α) (as : List α) :
    sys.exec s (a :: as) = (sys.step s a).bind fun s' => sys.exec s' as := rfl

theorem exec_concat {sys : System σ α} {s t u : σ} {as : List α} {a : α}
    (h : sys.exec s as = some t) (ha : sys.step t a = some u) :
    sys.exec s (as ++ [a]) = some u := by
  induction as generalizing s with
  | nil =>
      cases h
      simp [exec_cons, exec_nil, ha]
  | cons x as ih =>
      simp only [exec_cons, Option.bind_eq_some_iff] at h
      obtain ⟨v, hv, hrest⟩ := h
      show (sys.step s x).bind _ = _
      rw [hv]
      exact ih hrest

/-- Executing actions from a reachable state ends in a reachable state. -/
theorem Reachable.exec {sys : System σ α} {s s' : σ} {as : List α}
    (hs : Reachable sys s) (h : sys.exec s as = some s') : Reachable sys s' := by
  induction as generalizing s with
  | nil =>
      simp only [exec_nil, Option.some.injEq] at h
      exact h ▸ hs
  | cons a as ih =>
      simp only [exec_cons, Option.bind_eq_some_iff] at h
      obtain ⟨t, ht, hrest⟩ := h
      exact ih (.step a hs ht) hrest

/-- **Invariant rule for a run.**  What holds of a reachable state and survives
every step from one holds wherever actions taken from there lead. -/
theorem Reachable.exec_invariant {sys : System σ α} {P : σ → Prop}
    (hstep : ∀ s a s', Reachable sys s → P s → sys.step s a = some s' → P s')
    {s s' : σ} {as : List α} (hs : Reachable sys s) (hp : P s)
    (h : sys.exec s as = some s') : P s' := by
  induction as generalizing s with
  | nil =>
      simp only [exec_nil, Option.some.injEq] at h
      exact h ▸ hp
  | cons a as ih =>
      simp only [exec_cons, Option.bind_eq_some_iff] at h
      obtain ⟨t, ht, hrest⟩ := h
      exact ih (.step a hs ht) (hstep s a t hs hp ht) hrest

/-- The state a list of actions leads to, or the one it starts from where they
cannot all be taken. -/
def runFrom (sys : System σ α) (s : σ) (as : List α) : σ := (sys.exec s as).getD s

theorem Reachable.runFrom {sys : System σ α} {s : σ} (hs : Reachable sys s) (as : List α) :
    Reachable sys (sys.runFrom s as) := by
  unfold System.runFrom
  cases h : sys.exec s as with
  | none => exact hs
  | some s' => exact hs.exec h

theorem exec_runFrom {sys : System σ α} {s : σ} {as : List α}
    (h : (sys.exec s as).isSome = true) : sys.exec s as = some (sys.runFrom s as) := by
  obtain ⟨t, ht⟩ := Option.isSome_iff_exists.1 h
  rw [runFrom, ht]
  rfl

/-- Every action of the list that is taken is one `p` allows. -/
def allows (sys : System σ α) (p : σ → α → Bool) : σ → List α → Bool
  | _, [] => true
  | s, a :: as => p s a && ((sys.step s a).all fun s' => allows sys p s' as)

/-- Every action of the list that is taken is taken where `C` allows it. -/
def Along (sys : System σ α) (C : σ → α → Prop) : σ → List α → Prop
  | _, [] => True
  | s, a :: as => C s a ∧ ∀ s', sys.step s a = some s' → Along sys C s' as

theorem along_cons {sys : System σ α} {C : σ → α → Prop} {s s' : σ} {a : α} {as : List α}
    (h : sys.step s a = some s') : sys.Along C s (a :: as) ↔ C s a ∧ sys.Along C s' as := by
  constructor
  · exact fun hc => ⟨hc.1, hc.2 s' h⟩
  · rintro ⟨hc, hrest⟩
    refine ⟨hc, fun t ht => ?_⟩
    rw [h] at ht
    cases ht
    exact hrest

theorem along_of_allows {sys : System σ α} {C : σ → α → Prop} {p : σ → α → Bool}
    (hp : ∀ s a, p s a = true → C s a) {s : σ} {as : List α} (ha : sys.allows p s as = true) :
    sys.Along C s as := by
  induction as generalizing s with
  | nil => trivial
  | cons a as ih =>
      simp only [allows, Bool.and_eq_true, Option.all_eq_true] at ha
      exact ⟨hp s a ha.1, fun s' hs' => ih (ha.2 s' hs')⟩

/-- One action that `C` allows leads from `s` to `s'`. -/
def StepBy (sys : System σ α) (C : σ → α → Prop) (s s' : σ) : Prop :=
  ∃ a, C s a ∧ sys.step s a = some s'

/-- Actions that `C` allows lead from one state to another. -/
abbrev RunsBy (sys : System σ α) (C : σ → α → Prop) : σ → σ → Prop :=
  Relation.ReflTransGen (sys.StepBy C)

theorem ReachableBy.runs {sys : System σ α} {C : σ → α → Prop} {s s' : σ}
    (hs : ReachableBy sys C s) (h : sys.RunsBy C s s') : ReachableBy sys C s' := by
  induction h with
  | refl => exact hs
  | tail _ hstep ih =>
      obtain ⟨a, hc, hstep⟩ := hstep
      exact .step a ih hc hstep

theorem Reachable.runs {sys : System σ α} {C : σ → α → Prop} {s s' : σ}
    (hs : Reachable sys s) (h : sys.RunsBy C s s') : Reachable sys s' := by
  induction h with
  | refl => exact hs
  | tail _ hstep ih =>
      obtain ⟨a, -, hstep⟩ := hstep
      exact .step a ih hstep

theorem runsBy_exec {sys : System σ α} {C : σ → α → Prop} {p : σ → α → Bool}
    (hp : ∀ s a, p s a = true → C s a) {s s' : σ} {as : List α}
    (ha : sys.allows p s as = true) (h : sys.exec s as = some s') : sys.RunsBy C s s' := by
  induction as generalizing s with
  | nil =>
      simp only [exec_nil, Option.some.injEq] at h
      exact h ▸ .refl
  | cons a as ih =>
      simp only [exec_cons, Option.bind_eq_some_iff] at h
      obtain ⟨t, ht, hrest⟩ := h
      simp only [allows, ht, Option.all_some, Bool.and_eq_true] at ha
      exact .head ⟨a, hp s a ha.1, ht⟩ (ih ha.2 hrest)

theorem runsBy_runFrom {sys : System σ α} {C : σ → α → Prop} {p : σ → α → Bool}
    (hp : ∀ s a, p s a = true → C s a) {s : σ} {as : List α} (ha : sys.allows p s as = true) :
    sys.RunsBy C s (sys.runFrom s as) := by
  unfold System.runFrom
  cases h : sys.exec s as with
  | none => exact .refl
  | some s' => exact runsBy_exec hp ha h

theorem ReachableBy.runFrom {sys : System σ α} {C : σ → α → Prop} {p : σ → α → Bool}
    (hp : ∀ s a, p s a = true → C s a) {s : σ} {as : List α} (hs : ReachableBy sys C s)
    (ha : sys.allows p s as = true) : ReachableBy sys C (sys.runFrom s as) :=
  hs.runs (runsBy_runFrom hp ha)

end System

end Funduq.Lib
