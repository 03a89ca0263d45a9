import Funduq.Lib.Server

/-!
# Programs that refuse before they commit

A program is atomic when all its failures come before its first commit: from there on
it goes through, whatever it sees.  Then a request that was refused has committed
nothing, at whatever points others got in between its statements.

What counts as a refusal beside a failure is left open: `ok` are the results that are
none.
-/

namespace Funduq.Lib

variable {σ ω ε α β κ : Type}

namespace Prog

/-- Whatever it sees, the program returns, and what `ok` accepts. -/
def Succeeds (ok : α → Prop) : Prog σ ω ε α → Prop
  | ret a => ok a
  | raise _ => False
  | read k => ∀ w, (k w).Succeeds ok
  | write _ k => k.Succeeds ok
  | mint k => ∀ id, (k id).Succeeds ok
  | enter _ k => k.Succeeds ok
  | commit k => k.Succeeds ok

/-- Once it has committed, the program goes through. -/
def Atomic (ok : α → Prop) : Prog σ ω ε α → Prop
  | ret _ => True
  | raise _ => True
  | read k => ∀ w, (k w).Atomic ok
  | write _ k => k.Atomic ok
  | mint k => ∀ id, (k id).Atomic ok
  | enter _ k => k.Atomic ok
  | commit k => k.Succeeds ok

variable {ok : α → Prop} {ok' : β → Prop} {p : Prog σ ω ε α} {f : α → Prog σ ω ε β}

theorem Succeeds.atomic (h : p.Succeeds ok) : p.Atomic ok := by
  induction p with
  | ret a => trivial
  | raise e => trivial
  | read k ih => exact fun w => ih w (h w)
  | write x k ih => exact ih h
  | mint k ih => exact fun id => ih id (h id)
  | enter n k ih => exact ih h
  | commit k ih => exact h

variable (ok) in
theorem Succeeds.bind (hp : p.Succeeds ok) (hf : ∀ a, ok a → (f a).Succeeds ok') :
    (p >>= f).Succeeds ok' := by
  show (p.bind f).Succeeds ok'
  induction p with
  | ret a => exact hf a hp
  | raise e => exact hp.elim
  | read k ih => exact fun w => ih w (hp w)
  | write x k ih => exact ih hp
  | mint k ih => exact fun id => ih id (hp id)
  | enter n k ih => exact ih hp
  | commit k ih => exact ih hp

/-- **Sequencing.**  What follows goes through if a commit may be behind it. -/
theorem Atomic.bind (hp : p.Atomic ok) (hf : ∀ a, (f a).Atomic ok')
    (hok : ∀ a, ok a → (f a).Succeeds ok') : (p >>= f).Atomic ok' := by
  show (p.bind f).Atomic ok'
  induction p with
  | ret a => exact hf a
  | raise e => trivial
  | read k ih => exact fun w => ih w (hp w)
  | write x k ih => exact ih hp
  | mint k ih => exact fun id => ih id (hp id)
  | enter n k ih => exact ih hp
  | commit k ih => exact Succeeds.bind _ hp hok

/-- The program commits nothing. -/
abbrev Tentative (p : Prog σ ω ε α) : Prop := p.Atomic fun _ => False

/-- After a part that commits nothing, all is still open. -/
theorem Tentative.bind (hp : p.Tentative) (hf : ∀ a, (f a).Atomic ok') : (p >>= f).Atomic ok' :=
  Atomic.bind hp hf fun _ h => h.elim

/-- What is selected may be anything. -/
theorem Tentative.select {f : σ → β} {k : β → Prog σ ω ε α} (h : ∀ b, (k b).Atomic ok) :
    (Prog.select f >>= k).Atomic ok :=
  fun s => h (f s)

/-- Nothing fails after a part that commits. -/
theorem Atomic.then (hp : p.Atomic ok) (hf : ∀ a, (f a).Succeeds ok') : (p >>= f).Atomic ok' :=
  hp.bind (fun a => (hf a).atomic) fun a _ => hf a

theorem tentative_select (g : σ → α) : (select g : Prog σ ω ε α).Tentative := fun _ => trivial

theorem tentative_ofExcept (x : Except ε α) : (Prog.ofExcept x : Prog σ ω ε α).Tentative := by
  cases x <;> trivial

theorem succeeds_select (g : σ → α) : (select g : Prog σ ω ε α).Succeeds fun _ => True :=
  fun _ => trivial

end Prog

/-- The request was refused. -/
def Txn.Refused (ok : α → Prop) (t : Txn σ ω ε α κ) : Prop :=
  (∃ e, t.prog = .raise e) ∨ ∃ a, t.prog = .ret a ∧ ¬ ok a

/-- A request that goes through is not refused. -/
theorem Txn.not_refused {ok : α → Prop} {t : Txn σ ω ε α κ} (h : t.prog.Succeeds ok) :
    ¬ t.Refused ok := by
  rintro (⟨e, he⟩ | ⟨a, ha, hno⟩)
  · rw [he] at h
    exact h
  · rw [ha] at h
    exact hno h

namespace Server

variable {db : Db σ ω} {ok : α → Prop} {s s' : Server σ ω ε α κ} {i : Nat} {id : String}

/-- What one statement makes of a request. -/
structure Goes (db : Db σ ω) (ok : α → Prop) (s s' : Server σ ω ε α κ) (i : Nat)
    (t t' : Txn σ ω ε α κ) : Prop where
  txns : s'.txns = s.txns.set i t'
  call : t'.call = t.call
  atomic : t.prog.Atomic ok → t'.prog.Atomic ok
  succeeds : t.prog.Succeeds ok → t'.prog.Succeeds ok
  /-- Only a commit changes the world, and after it the program goes through. -/
  world : s'.world = s.world ∨ t.commits
  commits : t.commits → t.prog.Atomic ok → t'.prog.Succeeds ok

variable (ok) in
theorem advance_goes {t : Txn σ ω ε α κ} (ht : s.txns[i]? = some t)
    (h : s.advance db i id = some s') : ∃ t', Goes db ok s s' i t t' := by
  obtain ⟨call, prog, started, writes, held⟩ := t
  simp only [advance, ht, Option.bind_some] at h
  cases prog with
  | ret a =>
      cases h
      exact ⟨_, rfl, rfl, fun h => h, fun h => h, .inl rfl, (by rintro ⟨_, ⟨⟩⟩)⟩
  | raise e =>
      cases h
      exact ⟨_, rfl, rfl, fun h => h, fun h => h, .inl rfl, (by rintro ⟨_, ⟨⟩⟩)⟩
  | read k =>
      cases h
      exact ⟨_, rfl, rfl, fun h => h _, fun h => h _, .inl rfl, (by rintro ⟨_, ⟨⟩⟩)⟩
  | write x k =>
      simp only at h
      split at h
      · cases h
        exact ⟨_, rfl, rfl, fun h => h, fun h => h, .inl rfl, (by rintro ⟨_, ⟨⟩⟩)⟩
      · cases h
  | mint k =>
      simp only at h
      split at h
      · cases h
        exact ⟨_, rfl, rfl, fun h => h id, fun h => h id, .inl rfl, (by rintro ⟨_, ⟨⟩⟩)⟩
      · cases h
  | enter n k =>
      cases h
      exact ⟨_, rfl, rfl, fun h => h, fun h => h, .inl rfl, (by rintro ⟨_, ⟨⟩⟩)⟩
  | commit k =>
      cases h
      exact ⟨_, rfl, rfl, Prog.Succeeds.atomic, fun h => h, .inr ⟨k, rfl⟩, fun _ h => h⟩

end Server

end Funduq.Lib
