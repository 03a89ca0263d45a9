import Mathlib.Data.List.Basic
import Funduq.Lib.Transition

/-!
# Requests against a shared database

A request is a program whose statements go to a database it shares with others.
Its writes are its own until it commits; what it reads is the committed state
with its own writes on top; a row it has written, and a name it has minted, is
its own until its transaction is over.  This is read-committed isolation with row
locks.

`wp` is the weakest precondition of such a program among others: `R held w w'`
is what the rest of the world may have made of `w` while the program held the
names in `held`, `G held writes w` what the program promises of the writes it
commits in `w`, and `W` what may be assumed of the world whenever the program
takes a step.
-/

namespace Funduq.Lib

/-- What a request can have to itself. -/
inductive Name where
  /-- A row it has written, or an id it has minted. -/
  | own (id : String)
  /-- A section of its code it has entered. -/
  | inside (id : String)
  deriving DecidableEq, Repr

/-- The name is of a row or an id. -/
def Name.Owned (n : Name) : Prop := ∃ id, n = .own id

/-- The code of a request over worlds `σ` with writes `ω`, raising `ε` or
returning `α`. -/
inductive Prog (σ ω ε α : Type) where
  | ret (a : α)
  /-- The request fails; its transaction is rolled back. -/
  | raise (e : ε)
  /-- A `SELECT`: the code goes on with what it sees. -/
  | read (k : σ → Prog σ ω ε α)
  /-- An `INSERT` or an `UPDATE`. -/
  | write (w : ω) (k : Prog σ ω ε α)
  /-- A name nobody uses. -/
  | mint (k : String → Prog σ ω ε α)
  /-- The section named `n` begins.  Nothing happens; it is on record. -/
  | enter (n : String) (k : Prog σ ω ε α)
  | commit (k : Prog σ ω ε α)

namespace Prog

variable {σ ω ε α β : Type}

def bind : Prog σ ω ε α → (α → Prog σ ω ε β) → Prog σ ω ε β
  | ret a, f => f a
  | raise e, _ => raise e
  | read k, f => read fun s => (k s).bind f
  | write w k, f => write w (k.bind f)
  | mint k, f => mint fun id => (k id).bind f
  | enter n k, f => enter n (k.bind f)
  | commit k, f => commit (k.bind f)

instance : Monad (Prog σ ω ε) where
  pure := ret
  bind := bind

instance : MonadExcept ε (Prog σ ω ε) where
  throw := raise
  tryCatch p _ := p

theorem bind_assoc {γ : Type} (p : Prog σ ω ε α) (f : α → Prog σ ω ε β) (g : β → Prog σ ω ε γ) :
    (p.bind f).bind g = p.bind fun a => (f a).bind g := by
  induction p with
  | ret a => rfl
  | raise e => rfl
  | read k ih => exact congrArg read (funext ih)
  | write w k ih => exact congrArg (write w) ih
  | mint k ih => exact congrArg mint (funext ih)
  | enter n k ih => exact congrArg (enter n) ih
  | commit k ih => exact congrArg commit ih

/-- What a `SELECT` returns. -/
def select (f : σ → α) : Prog σ ω ε α := read fun s => ret (f s)

def put (w : ω) : Prog σ ω ε Unit := write w (ret ())

def newId : Prog σ ω ε String := mint ret

def entering (n : String) : Prog σ ω ε Unit := enter n (ret ())

def commits : Prog σ ω ε Unit := commit (ret ())

/-- A computation without statements. -/
def ofExcept : Except ε α → Prog σ ω ε α
  | .ok a => ret a
  | .error e => raise e

/-- What a program comes to in a world that stands still; `none` where it does
more than read. -/
def peek (w : σ) : Prog σ ω ε α → Option (Except ε α)
  | ret a => some (.ok a)
  | raise e => some (.error e)
  | read k => (k w).peek w
  | _ => none

/-- What comes of a result once more is done with it. -/
def andThen (x : Option (Except ε α)) (f : α → Option (Except ε β)) : Option (Except ε β) :=
  match x with
  | some (.ok a) => f a
  | some (.error e) => some (.error e)
  | none => none

theorem andThen_eq_ok {x : Option (Except ε α)} {f : α → Option (Except ε β)} {b : β} :
    andThen x f = some (.ok b) ↔ ∃ a, x = some (.ok a) ∧ f a = some (.ok b) := by
  cases x with
  | none => simp [andThen]
  | some result => cases result <;> simp [andThen]

theorem peek_bind (w : σ) (p : Prog σ ω ε α) (f : α → Prog σ ω ε β) :
    (p >>= f).peek w = andThen (p.peek w) fun a => (f a).peek w := by
  show (p.bind f).peek w = _
  induction p with
  | read k ih => exact ih w
  | _ => rfl

/-- The program has nothing left to do. -/
def isOver : Prog σ ω ε α → Bool
  | ret _ => true
  | raise _ => true
  | _ => false

end Prog

/-- What the statements of a program mean: the effect of a write, the rows it
takes, and the ids that are free. -/
structure Db (σ ω : Type) where
  apply : σ → ω → σ
  locks : ω → List String
  unused : σ → String → Bool

namespace Db

variable {σ ω ε α β : Type} (db : Db σ ω)

/-- The world with a transaction's writes made. -/
def view (w : σ) (writes : List ω) : σ := writes.foldl db.apply w

@[simp] theorem view_nil (w : σ) : db.view w [] = w := rfl

theorem view_append (w : σ) (ws xs : List ω) :
    db.view w (ws ++ xs) = db.view (db.view w ws) xs := List.foldl_append ..

/-! ## Weakest preconditions -/

section wp

variable (W : σ → Prop) (R : List Name → σ → σ → Prop) (G : List Name → List ω → σ → Prop)

/-- Run from world `w` holding `held` with `ws` still to commit, among others
that do no more than `R` allows, the program promises `G` of every commit and
returns as `Q` says. -/
def wp (Q : List Name → List ω → σ → α → Prop) :
    Prog σ ω ε α → List Name → List ω → σ → Prop
  | .ret a, held, ws, w => Q held ws w a
  | .raise _, _, _, _ => True
  | .read k, held, ws, w => ∀ w', W w' → R held w w' →
      wp Q (k (db.view w' ws)) held ws w'
  | .write x k, held, ws, w => ∀ w', W w' → R held w w' →
      wp Q k ((db.locks x).map .own ++ held) (ws ++ [x]) w'
  | .mint k, held, ws, w => ∀ w' id, W w' → R held w w' → db.unused w' id = true →
      .own id ∉ held → wp Q (k id) (.own id :: held) ws w'
  | .enter n k, held, ws, w => ∀ w', W w' → R held w w' → wp Q k (.inside n :: held) ws w'
  | .commit k, held, ws, w => ∀ w', W w' → R held w w' →
      G held ws w' ∧ wp Q k [] [] (db.view w' ws)

variable {W R G} {Q Q' : List Name → List ω → σ → α → Prop}

theorem wp_ret {a : α} {held : List Name} {ws : List ω} {w : σ} :
    db.wp W R G Q (.ret a : Prog σ ω ε α) held ws w = Q held ws w a := rfl

theorem wp_mono (hQ : ∀ held ws w a, Q held ws w a → Q' held ws w a) {p : Prog σ ω ε α}
    {held : List Name} {ws : List ω} {w : σ} (h : db.wp W R G Q p held ws w) :
    db.wp W R G Q' p held ws w := by
  induction p generalizing held ws w with
  | ret a => exact hQ _ _ _ _ h
  | raise e => trivial
  | read k ih => exact fun w' hw hr => ih _ (h w' hw hr)
  | write x k ih => exact fun w' hw hr => ih (h w' hw hr)
  | mint k ih => exact fun w' id hw hr hu hn => ih _ (h w' id hw hr hu hn)
  | enter n k ih => exact fun w' hw hr => ih (h w' hw hr)
  | commit k ih => exact fun w' hw hr => ⟨(h w' hw hr).1, ih (h w' hw hr).2⟩

/-- **Sequencing.** -/
theorem wp_bind {Q : List Name → List ω → σ → β → Prop} {p : Prog σ ω ε α}
    {f : α → Prog σ ω ε β} {held : List Name} {ws : List ω} {w : σ}
    (h : db.wp W R G (fun held ws w a => db.wp W R G Q (f a) held ws w) p held ws w) :
    db.wp W R G Q (p >>= f) held ws w := by
  show db.wp W R G Q (p.bind f) held ws w
  induction p generalizing held ws w with
  | ret a => exact h
  | raise e => trivial
  | read k ih => exact fun w' hw hr => ih _ (h w' hw hr)
  | write x k ih => exact fun w' hw hr => ih (h w' hw hr)
  | mint k ih => exact fun w' id hw hr hu hn => ih _ (h w' id hw hr hu hn)
  | enter n k ih => exact fun w' hw hr => ih (h w' hw hr)
  | commit k ih => exact fun w' hw hr => ⟨(h w' hw hr).1, ih (h w' hw hr).2⟩

theorem wp_ofExcept {x : Except ε α} {held : List Name} {ws : List ω} {w : σ}
    (h : ∀ a, x = .ok a → Q held ws w a) :
    db.wp W R G Q (Prog.ofExcept x) held ws w := by
  cases x with
  | ok a => exact h a rfl
  | error e => trivial

end wp

end Db

/-! ## What was seen -/

/-- What others may have done adds up, and is the less the more is held. -/
structure Steady {σ : Type} (R : List Name → σ → σ → Prop) : Prop where
  refl : ∀ H w, R H w w
  trans : ∀ H a b c, R H a b → R H b c → R H a c
  anti : ∀ {H H' a b}, H ⊆ H' → R H' a b → R H a b

/-- The world is later than one with `P`, and `held` was held in between. -/
def Since {σ : Type} (R : List Name → σ → σ → Prop) (held : List Name) (P : σ → Prop) (w : σ) :
    Prop :=
  ∃ w₀, P w₀ ∧ R held w₀ w

namespace Since

variable {σ : Type} {R : List Name → σ → σ → Prop} {H H' : List Name} {P P' : σ → Prop} {w w' : σ}

theorem now (hR : Steady R) (h : P w) : Since R H P w := ⟨w, h, hR.refl _ _⟩

theorem later (hR : Steady R) (h : Since R H P w) (hr : R H w w') : Since R H P w' := by
  obtain ⟨w₀, hp, h₀⟩ := h
  exact ⟨w₀, hp, hR.trans _ _ _ _ h₀ hr⟩

theorem fewer (hR : Steady R) (hsub : H ⊆ H') (h : Since R H' P w) : Since R H P w := by
  obtain ⟨w₀, hp, h₀⟩ := h
  exact ⟨w₀, hp, hR.anti hsub h₀⟩

theorem imp (hP : ∀ w, P w → P' w) (h : Since R H P w) : Since R H P' w := by
  obtain ⟨w₀, hp, h₀⟩ := h
  exact ⟨w₀, hP w₀ hp, h₀⟩

end Since

end Funduq.Lib
