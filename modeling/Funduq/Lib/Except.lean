/-!
# Computations that may fail

When a computation in `Except` returns, and with what: one rule for each way of
putting computations together.  Tagged for `simp`, they take a whole function
apart into the conditions under which it returns.
-/

namespace Funduq.Lib

variable {ε ε' α β : Type}

/-- A sequence returns when its first part does and the rest does from there. -/
@[simp] theorem bind_eq_ok {x : Except ε α} {f : α → Except ε β} {b : β} :
    x >>= f = .ok b ↔ ∃ a, x = .ok a ∧ f a = .ok b := by
  cases x with
  | ok a => simp [bind, Except.bind]
  | error e => simp [bind, Except.bind]

/-- What an error is turned into has no bearing on what is returned. -/
@[simp] theorem mapError_eq_ok {f : ε → ε'} {x : Except ε α} {a : α} :
    Except.mapError f x = .ok a ↔ x = .ok a := by
  cases x with
  | ok b =>
      show (Except.ok b : Except ε' α) = .ok a ↔ _
      rw [Except.ok.injEq, Except.ok.injEq]
  | error e => exact iff_of_false (by rintro ⟨⟩) (by rintro ⟨⟩)

@[simp] theorem map_eq_ok {x : Except ε α} {f : α → β} {b : β} :
    x.map f = .ok b ↔ ∃ a, x = .ok a ∧ f a = b := by
  cases x <;> simp [Except.map]

@[simp] theorem pure_eq_ok {a b : α} : (pure a : Except ε α) = .ok b ↔ a = b := by
  simp [pure, Except.pure]

@[simp] theorem throw_ne_ok {e : ε} {a : α} : (throw e : Except ε α) = .ok a ↔ False := by
  simp [throw, throwThe, MonadExceptOf.throw]

/-- Two ways to go on. -/
@[simp] theorem ite_eq_ok {c : Prop} [Decidable c] {x y : Except ε α} {a : α} :
    (if c then x else y) = .ok a ↔ c ∧ x = .ok a ∨ ¬ c ∧ y = .ok a := by
  by_cases hc : c <;> simp [hc]

/-- One after the other, each has to return. -/
theorem mapM_isOk {f : α → Except ε β} {xs : List α} :
    (∃ ys, xs.mapM f = .ok ys) ↔ ∀ x ∈ xs, ∃ y, f x = .ok y := by
  induction xs with
  | nil => simp
  | cons x xs ih =>
      rw [List.forall_mem_cons, ← ih, List.mapM_cons]
      constructor
      · rintro ⟨ys, h⟩
        obtain ⟨y, hy, h⟩ := bind_eq_ok.1 h
        obtain ⟨ys, hys, -⟩ := bind_eq_ok.1 h
        exact ⟨⟨y, hy⟩, ys, hys⟩
      · rintro ⟨⟨y, hy⟩, ys, hys⟩
        refine ⟨y :: ys, bind_eq_ok.2 ⟨y, hy, bind_eq_ok.2 ⟨ys, hys, rfl⟩⟩⟩

/-- What each returns, where each returns what `g` gives. -/
theorem mapM_eq_ok {f : α → Except ε β} {g : α → β} (hfg : ∀ x y, f x = .ok y → y = g x)
    {xs : List α} {ys : List β} (h : xs.mapM f = .ok ys) : ys = xs.map g := by
  induction xs generalizing ys with
  | nil => exact (pure_eq_ok.1 h).symm
  | cons x xs ih =>
      rw [List.mapM_cons] at h
      obtain ⟨y, hy, h⟩ := bind_eq_ok.1 h
      obtain ⟨zs, hzs, h⟩ := bind_eq_ok.1 h
      rw [List.map_cons, ← hfg x y hy, ← ih hzs]
      exact (pure_eq_ok.1 h).symm

end Funduq.Lib
