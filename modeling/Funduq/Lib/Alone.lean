import Funduq.Lib.Prog

/-!
# A request with nobody else about

What a program does when nothing happens between its statements, and what it has done
when it is stopped after any number of them.

`Does` is the big step of such a run.  It goes by what the program sees: whether a
write is already committed makes no difference to it, only to what is left if it
stops.  The invariant is one of everything it sees on its way, so it is one of what
is left, too.
-/

namespace Funduq.Lib

namespace Db

variable {σ ω ε α β : Type} (db : Db σ ω)

/-- What a program returns or raises, what it has still to commit, and the world.  A
program that mints does not say which name it gets. -/
def alone : Prog σ ω ε α → List ω → σ → Option (Except ε α × List ω × σ)
  | .ret a, ws, w => some (.ok a, ws, w)
  | .raise e, ws, w => some (.error e, ws, w)
  | .read k, ws, w => alone (k (db.view w ws)) ws w
  | .write x k, ws, w => alone k (ws ++ [x]) w
  | .mint _, _, _ => none
  | .enter _ k, ws, w => alone k ws w
  | .commit k, ws, w => alone k [] (db.view w ws)

/-- The same of a program that is given `ids` for the names it mints, and which of them it
has left. -/
def given : List String → Prog σ ω ε α → List ω → σ →
    Option (Except ε α × List String × List ω × σ)
  | ids, .ret a, ws, w => some (.ok a, ids, ws, w)
  | ids, .raise e, ws, w => some (.error e, ids, ws, w)
  | ids, .read k, ws, w => given ids (k (db.view w ws)) ws w
  | ids, .write x k, ws, w => given ids k (ws ++ [x]) w
  | [], .mint _, _, _ => none
  | id :: ids, .mint k, ws, w => given ids (k id) ws w
  | ids, .enter _ k, ws, w => given ids k ws w
  | ids, .commit k, ws, w => given ids k [] (db.view w ws)

section Given

variable {db} {ids ids' : List String} {ws ws' : List ω} {w w' : σ} {a : α}

/-- **Sequencing.** -/
theorem given_bind {p : Prog σ ω ε α} {f : α → Prog σ ω ε β}
    (h : db.given ids p ws w = some (.ok a, ids', ws', w')) :
    db.given ids (p >>= f) ws w = db.given ids' (f a) ws' w' := by
  show db.given ids (p.bind f) ws w = _
  induction p generalizing ids ws w with
  | ret b =>
      cases h
      rfl
  | raise e => cases h
  | read k ih => exact ih _ h
  | write x k ih => exact ih h
  | mint k ih =>
      cases ids with
      | nil => cases h
      | cons id ids => exact ih id h
  | enter n k ih => exact ih h
  | commit k ih => exact ih h

theorem given_bind_error {p : Prog σ ω ε α} {f : α → Prog σ ω ε β} {e : ε}
    (h : db.given ids p ws w = some (.error e, ids', ws', w')) :
    db.given ids (p >>= f) ws w = some (.error e, ids', ws', w') := by
  show db.given ids (p.bind f) ws w = _
  induction p generalizing ids ws w with
  | ret b => cases h
  | raise e =>
      cases h
      rfl
  | read k ih => exact ih _ h
  | write x k ih => exact ih h
  | mint k ih =>
      cases ids with
      | nil => cases h
      | cons id ids => exact ih id h
  | enter n k ih => exact ih h
  | commit k ih => exact ih h

/-- A sequence is over where its first part fails, or where the rest is over. -/
theorem given_bind_cases {p : Prog σ ω ε α} {f : α → Prog σ ω ε β} {b : Except ε β}
    (h : db.given ids (p >>= f) ws w = some (b, ids', ws', w')) :
    (∃ e, b = .error e ∧ db.given ids p ws w = some (.error e, ids', ws', w')) ∨
      ∃ a ids₁ ws₁ w₁, db.given ids p ws w = some (.ok a, ids₁, ws₁, w₁) ∧
        db.given ids₁ (f a) ws₁ w₁ = some (b, ids', ws', w') := by
  change db.given ids (p.bind f) ws w = _ at h
  induction p generalizing ids ws w with
  | ret a => exact .inr ⟨a, ids, ws, w, rfl, h⟩
  | raise e =>
      cases h
      exact .inl ⟨e, rfl, rfl⟩
  | read k ih => exact ih _ h
  | write x k ih => exact ih h
  | mint k ih =>
      cases ids with
      | nil => cases h
      | cons id ids => exact ih id h
  | enter n k ih => exact ih h
  | commit k ih => exact ih h

theorem given_select (f : σ → α) :
    db.given ids (Prog.select f : Prog σ ω ε α) ws w = some (.ok (f (db.view w ws)), ids, ws, w) :=
  rfl

theorem given_put (x : ω) : db.given ids (Prog.put x : Prog σ ω ε Unit) ws w =
    some (.ok (), ids, ws ++ [x], w) := rfl

theorem given_newId (id : String) : db.given (id :: ids) (Prog.newId : Prog σ ω ε String) ws w =
    some (.ok id, ids, ws, w) := rfl

theorem given_entering (n : String) : db.given ids (Prog.entering n : Prog σ ω ε Unit) ws w =
    some (.ok (), ids, ws, w) := rfl

theorem given_commits : db.given ids (Prog.commits : Prog σ ω ε Unit) ws w =
    some (.ok (), ids, [], db.view w ws) := rfl

theorem given_ofExcept {x : Except ε α} (h : x = .ok a) :
    db.given ids (Prog.ofExcept x) ws w = some (.ok a, ids, ws, w) := by
  subst h
  rfl

/-- A part that only looks changes nothing. -/
theorem given_peek {p : Prog σ ω ε α} {b : Except ε α} (h : p.peek (db.view w ws) = some b) :
    db.given ids p ws w = some (b, ids, ws, w) := by
  induction p with
  | ret a =>
      cases h
      rfl
  | raise e =>
      cases h
      rfl
  | read k ih => exact ih _ h
  | _ => cases h

/-- What every write keeps, a program that is given its names keeps. -/
theorem given_grows {Rel : σ → σ → Prop} (hrefl : ∀ w, Rel w w)
    (htrans : ∀ a b c, Rel a b → Rel b c → Rel a c) (hwrite : ∀ w x, Rel w (db.apply w x))
    {p : Prog σ ω ε α} {b : Except ε α} (h : db.given ids p ws w = some (b, ids', ws', w')) :
    Rel w w' := by
  have hview : ∀ (xs : List ω) (v : σ), Rel v (db.view v xs) := by
    intro xs
    induction xs with
    | nil => exact hrefl
    | cons x xs ih => exact fun v => htrans _ _ _ (hwrite v x) (ih _)
  induction p generalizing ids ws w with
  | ret a =>
      cases h
      exact hrefl _
  | raise e =>
      cases h
      exact hrefl _
  | read k ih => exact ih _ h
  | write x k ih => exact ih h
  | mint k ih =>
      cases ids with
      | nil => cases h
      | cons id ids => exact ih id h
  | enter n k ih => exact ih h
  | commit k ih => exact htrans _ _ _ (hview ws w) (ih h)

end Given

/-- The world when the program is stopped after `n` statements. -/
def stopped : Nat → Prog σ ω ε α → List ω → σ → σ
  | 0, _, _, w => w
  | _, .ret _, _, w => w
  | _, .raise _, _, w => w
  | n + 1, .read k, ws, w => stopped n (k (db.view w ws)) ws w
  | n + 1, .write x k, ws, w => stopped n k (ws ++ [x]) w
  | _, .mint _, _, w => w
  | n + 1, .enter _ k, ws, w => stopped n k ws w
  | n + 1, .commit k, ws, w => stopped n k [] (db.view w ws)

section Grows

variable {Rel : σ → σ → Prop} (hrefl : ∀ w, Rel w w)
  (htrans : ∀ a b c, Rel a b → Rel b c → Rel a c) (hwrite : ∀ w x, Rel w (db.apply w x))
include hrefl htrans hwrite

/-- What every write keeps, a transaction keeps. -/
theorem view_grows (w : σ) (ws : List ω) : Rel w (db.view w ws) := by
  induction ws generalizing w with
  | nil => exact hrefl w
  | cons x ws ih => exact htrans _ _ _ (hwrite w x) (ih _)

theorem alone_grows {p : Prog σ ω ε α} {ws ws' : List ω} {w w' : σ} {a : Except ε α}
    (h : db.alone p ws w = some (a, ws', w')) : Rel w w' := by
  induction p generalizing ws w with
  | ret b =>
      cases h
      exact hrefl _
  | raise e =>
      cases h
      exact hrefl _
  | read k ih => exact ih _ h
  | write x k ih => exact ih h
  | mint k ih => cases h
  | enter n k ih => exact ih h
  | commit k ih => exact htrans _ _ _ (view_grows db hrefl htrans hwrite w ws) (ih h)

/-- So does a program, up to where it is stopped. -/
theorem stopped_grows (p : Prog σ ω ε α) (ws : List ω) (w : σ) (n : Nat) :
    Rel w (db.stopped n p ws w) := by
  induction p generalizing ws w n with
  | read k ih =>
      cases n with
      | zero => exact hrefl w
      | succ n => exact ih _ ws w n
  | write x k ih =>
      cases n with
      | zero => exact hrefl w
      | succ n => exact ih (ws ++ [x]) w n
  | enter m k ih =>
      cases n with
      | zero => exact hrefl w
      | succ n => exact ih ws w n
  | commit k ih =>
      cases n with
      | zero => exact hrefl w
      | succ n => exact htrans _ _ _ (view_grows db hrefl htrans hwrite w ws) (ih [] _ n)
  | _ => cases n <;> exact hrefl w

/-- And from there to where it would have come. -/
theorem stopped_alone {p : Prog σ ω ε α} {ws ws' : List ω} {w w' : σ} {a : Except ε α}
    (h : db.alone p ws w = some (a, ws', w')) (n : Nat) : Rel (db.stopped n p ws w) w' := by
  induction p generalizing ws w n with
  | ret b =>
      cases h
      cases n <;> exact hrefl _
  | raise e =>
      cases h
      cases n <;> exact hrefl _
  | read k ih =>
      cases n with
      | zero => exact alone_grows db hrefl htrans hwrite h
      | succ n => exact ih _ h n
  | write x k ih =>
      cases n with
      | zero => exact alone_grows db hrefl htrans hwrite h
      | succ n => exact ih h n
  | mint k ih => cases h
  | enter m k ih =>
      cases n with
      | zero => exact alone_grows db hrefl htrans hwrite h
      | succ n => exact ih h n
  | commit k ih =>
      cases n with
      | zero => exact alone_grows db hrefl htrans hwrite h
      | succ n => exact ih h n

end Grows

/-- Where it sees `v` the program returns `a` and sees `v'`, and `Inv` of all it sees in
between; `d` and `d'` tell whether it may have writes to commit. -/
inductive Does (Inv : σ → Prop) : Prog σ ω ε α → σ → Bool → α → σ → Bool → Prop where
  | ret (a : α) (v : σ) (d : Bool) : Does Inv (.ret a) v d a v d
  | read {k : σ → Prog σ ω ε α} {v v' : σ} {d d' : Bool} {a : α}
      (h : Does Inv (k v) v d a v' d') : Does Inv (.read k) v d a v' d'
  | write {x : ω} {k : Prog σ ω ε α} {v v' : σ} {d d' : Bool} {a : α}
      (hinv : Inv (db.apply v x)) (h : Does Inv k (db.apply v x) true a v' d') :
      Does Inv (.write x k) v d a v' d'
  | enter {n : String} {k : Prog σ ω ε α} {v v' : σ} {d d' : Bool} {a : α}
      (h : Does Inv k v d a v' d') : Does Inv (.enter n k) v d a v' d'
  | commit {k : Prog σ ω ε α} {v v' : σ} {d d' : Bool} {a : α}
      (h : Does Inv k v false a v' d') : Does Inv (.commit k) v d a v' d'

namespace Does

variable {db} {Inv : σ → Prop} {v v' v'' : σ} {d d' d'' : Bool} {a : α} {b : β}

/-- **Sequencing.** -/
theorem bind {p : Prog σ ω ε α} {f : α → Prog σ ω ε β} (h : db.Does Inv p v d a v' d')
    (h' : db.Does Inv (f a) v' d' b v'' d'') : db.Does Inv (p >>= f) v d b v'' d'' := by
  show db.Does Inv (p.bind f) v d b v'' d''
  induction h with
  | ret a v d => exact h'
  | read _ ih => exact .read (ih h')
  | write hinv _ ih => exact .write hinv (ih h')
  | enter _ ih => exact .enter (ih h')
  | commit _ ih => exact .commit (ih h')

theorem select (f : σ → α) : db.Does Inv (Prog.select f : Prog σ ω ε α) v d (f v) v d :=
  .read (.ret _ _ _)

theorem put {x : ω} (hinv : Inv (db.apply v x)) :
    db.Does Inv (Prog.put x : Prog σ ω ε Unit) v d () (db.apply v x) true :=
  .write hinv (.ret _ _ _)

theorem commits : db.Does Inv (Prog.commits : Prog σ ω ε Unit) v d () v false :=
  .commit (.ret _ _ _)

/-- What it sees at its end is one of the things it sees. -/
theorem inv {p : Prog σ ω ε α} (h : db.Does Inv p v d a v' d') (hv : Inv v) : Inv v' := by
  induction h with
  | ret a v d => exact hv
  | read _ ih => exact ih hv
  | write hinv _ ih => exact ih hinv
  | enter _ ih => exact ih hv
  | commit _ ih => exact ih hv

/-- The program runs to its end. -/
theorem alone {p : Prog σ ω ε α} (h : db.Does Inv p v d a v' d') {ws : List ω} {w : σ}
    (hview : db.view w ws = v) (hws : d = false → ws = []) :
    ∃ ws' w', db.alone p ws w = some (.ok a, ws', w') ∧ db.view w' ws' = v' ∧
      (d' = false → ws' = []) := by
  induction h generalizing ws w with
  | ret a v d => exact ⟨ws, w, rfl, hview, hws⟩
  | read _ ih =>
      subst hview
      exact ih rfl hws
  | write hinv _ ih =>
      subst hview
      exact ih (db.view_append w ws [_]) nofun
  | enter _ ih => exact ih hview hws
  | commit _ ih => exact ih hview fun _ => rfl

/-- Wherever it is stopped, the invariant is left. -/
theorem stopped {p : Prog σ ω ε α} (h : db.Does Inv p v d a v' d') {ws : List ω} {w : σ}
    (hview : db.view w ws = v) (hinv : Inv v) (hw : Inv w) (n : Nat) :
    Inv (db.stopped n p ws w) := by
  induction h generalizing ws w n with
  | ret a v d =>
      cases n <;> exact hw
  | read _ ih =>
      cases n with
      | zero => exact hw
      | succ n =>
          subst hview
          exact ih rfl hinv hw n
  | write hinv' _ ih =>
      cases n with
      | zero => exact hw
      | succ n =>
          subst hview
          exact ih (db.view_append w ws [_]) hinv' hw n
  | enter _ ih =>
      cases n with
      | zero => exact hw
      | succ n => exact ih hview hinv hw n
  | commit _ ih =>
      cases n with
      | zero => exact hw
      | succ n => exact ih (by rw [hview]; rfl) hinv (hview ▸ hinv) n

end Does

end Db

end Funduq.Lib
