import Funduq.Lib.Prog

/-!
# Many requests at once

A server holds the world and the requests that have come in.  A move lets one
request take its next statement, lets a new one in, or changes the world from
outside.  Whatever order the moves come in, an invariant of the world is kept
when every program keeps it by `wp`:

* `invariant_of_concurrent`: requests interleave statement by statement, and
  what one promises of its commits is what the others rely on;
* `invariant_of_sequential`: one request runs at a time, and nothing need be
  promised.
-/

namespace Funduq.Lib

variable {σ ω ε α κ η : Type}

/-- A request in progress: the call it is for, what it has still to do, what it
has written and what it has to itself. -/
structure Txn (σ ω ε α κ : Type) where
  call : κ
  prog : Prog σ ω ε α
  started : Bool := false
  writes : List ω := []
  held : List Name := []

/-- The request is about to commit. -/
def Txn.commits (t : Txn σ ω ε α κ) : Prop := ∃ k, t.prog = .commit k

structure Server (σ ω ε α κ : Type) where
  world : σ
  txns : List (Txn σ ω ε α κ) := []

/-- One thing that can happen. -/
inductive Move (κ η : Type) where
  | call (c : κ)
  /-- The request takes its next statement; `id` is what it mints, if it does. -/
  | advance (i : Nat) (id : String := "")
  | outside (e : η)

namespace Server

variable (s : Server σ ω ε α κ)

/-- No other request has the row or the id. -/
def free (i : Nat) (id : String) : Bool :=
  (s.txns.eraseIdx i).all fun t => .own id ∉ t.held

def setTxn (i : Nat) (t : Txn σ ω ε α κ) : Server σ ω ε α κ :=
  { s with txns := s.txns.set i t }

def advance (db : Db σ ω) (i : Nat) (id : String) : Option (Server σ ω ε α κ) :=
  (s.txns[i]?).bind fun t =>
    let t := { t with started := true }
    match t.prog with
    -- The session is closed: what is not committed is lost.
    | .ret _ => some (s.setTxn i { t with writes := [], held := [] })
    | .raise _ => some (s.setTxn i { t with writes := [], held := [] })
    | .read k => some (s.setTxn i { t with prog := k (db.view s.world t.writes) })
    | .write x k =>
        if (db.locks x).all (s.free i) then
          some (s.setTxn i { t with
            prog := k
            writes := t.writes ++ [x]
            held := (db.locks x).map .own ++ t.held })
        else none
    | .mint k =>
        if db.unused s.world id && s.free i id && decide (.own id ∉ t.held) then
          some (s.setTxn i { t with prog := k id, held := .own id :: t.held })
        else none
    | .enter n k => some (s.setTxn i { t with prog := k, held := .inside n :: t.held })
    | .commit k =>
        some { s.setTxn i { t with prog := k, writes := [], held := [] } with
          world := db.view s.world t.writes }

def step (db : Db σ ω) (program : κ → Prog σ ω ε α) (outside : σ → η → Option σ) :
    Server σ ω ε α κ → Move κ η → Option (Server σ ω ε α κ)
  | s, .call c => some { s with txns := s.txns ++ [{ call := c, prog := program c }] }
  | s, .advance i id => s.advance db i id
  | s, .outside e => (outside s.world e).map fun w => { s with world := w }

def system (db : Db σ ω) (program : κ → Prog σ ω ε α) (outside : σ → η → Option σ)
    (init : σ → Prop) : System (Server σ ω ε α κ) (Move κ η) where
  init s := init s.world ∧ s.txns = []
  step := step db program outside

variable {s}

theorem free_iff {i : Nat} {id : String} :
    s.free i id = true ↔
      ∀ j t, j ≠ i → s.txns[j]? = some t → .own id ∉ t.held := by
  simp only [free, List.all_eq_true, decide_eq_true_eq, List.mem_eraseIdx_iff_getElem?]
  constructor
  · intro h j t hj ht
    exact h t ⟨j, hj, ht⟩
  · rintro h t ⟨j, hj, ht⟩
    exact h j t hj ht

/-! ## One statement -/

section Rules

variable {db : Db σ ω} {program : κ → Prog σ ω ε α} {outside : σ → η → Option σ}
  {init : σ → Prop} {Inv : σ → Prop} {A : κ → List ω → σ → Prop}
  {R : List Name → σ → σ → Prop} {G : κ → List Name → List ω → σ → Prop}

/-- The request's promises stand from world `w` on. -/
abbrev Keeps (db : Db σ ω) (Inv : σ → Prop) (R : List Name → σ → σ → Prop)
    (G : κ → List Name → List ω → σ → Prop) (t : Txn σ ω ε α κ) (w : σ) : Prop :=
  db.wp Inv R (G t.call) (fun _ _ _ _ => True) t.prog t.held t.writes w

/-- What one statement of a request that keeps its promises does. -/
structure Took (db : Db σ ω) (Inv : σ → Prop) (R : List Name → σ → σ → Prop)
    (G : κ → List Name → List ω → σ → Prop) (s : Server σ ω ε α κ) (i : Nat)
    (t t' : Txn σ ω ε α κ) (s' : Server σ ω ε α κ) : Prop where
  txns : s'.txns = s.txns.set i t'
  call : t'.call = t.call
  started : t'.started = true
  world : s'.world = s.world ∨ t.commits ∧ G t.call t.held t.writes s.world ∧
    s'.world = db.view s.world t.writes
  keeps : Keeps db Inv R G t' s'.world
  held : ∀ n ∈ t'.held, n ∈ t.held ∨ (∃ id, n = .own id ∧ s.free i id = true) ∨
    ∃ m k, n = .inside m ∧ t.prog = .enter m k

theorem advance_took {s s' : Server σ ω ε α κ} {i : Nat} {id : String} {t : Txn σ ω ε α κ} {w : σ}
    (ht : s.txns[i]? = some t) (hk : Keeps db Inv R G t w) (hr : R t.held w s.world)
    (hinv : Inv s.world) (h : s.advance db i id = some s') :
    ∃ t', Took db Inv R G s i t t' s' := by
  obtain ⟨call, prog, started, writes, held⟩ := t
  simp only [advance, ht, Option.bind_some] at h
  cases prog with
  | ret a =>
      cases h
      exact ⟨_, rfl, rfl, rfl, .inl rfl, trivial, nofun⟩
  | raise e =>
      cases h
      exact ⟨_, rfl, rfl, rfl, .inl rfl, trivial, nofun⟩
  | read k =>
      cases h
      exact ⟨_, rfl, rfl, rfl, .inl rfl, hk _ hinv hr, fun n hn => .inl hn⟩
  | write x k =>
      simp only at h
      split at h
      · rename_i hfree
        cases h
        refine ⟨_, rfl, rfl, rfl, .inl rfl, hk _ hinv hr, fun n hn => ?_⟩
        rcases List.mem_append.1 hn with hn | hn
        · obtain ⟨id, hid, rfl⟩ := List.mem_map.1 hn
          exact .inr (.inl ⟨id, rfl, List.all_eq_true.1 hfree id hid⟩)
        · exact .inl hn
      · cases h
  | mint k =>
      simp only at h
      split at h
      · rename_i hfree
        simp only [Bool.and_eq_true, decide_eq_true_eq] at hfree
        obtain ⟨⟨hun, hfree⟩, hnot⟩ := hfree
        cases h
        refine ⟨_, rfl, rfl, rfl, .inl rfl, hk _ id hinv hr hun hnot, fun n hn => ?_⟩
        rcases List.mem_cons.1 hn with rfl | hn
        · exact .inr (.inl ⟨id, rfl, hfree⟩)
        · exact .inl hn
      · cases h
  | enter n k =>
      cases h
      refine ⟨_, rfl, rfl, rfl, .inl rfl, hk _ hinv hr, fun m hm => ?_⟩
      rcases List.mem_cons.1 hm with rfl | hm
      · exact .inr (.inr ⟨n, k, rfl, rfl⟩)
      · exact .inl hm
  | commit k =>
      cases h
      obtain ⟨hg, hk⟩ := hk _ hinv hr
      exact ⟨_, rfl, rfl, rfl, .inr ⟨⟨k, rfl⟩, hg, rfl⟩, hk, nofun⟩

theorem lt_of_getElem? {s : Server σ ω ε α κ} {i : Nat} {t : Txn σ ω ε α κ}
    (ht : s.txns[i]? = some t) : i < s.txns.length :=
  (List.getElem?_eq_some_iff.1 ht).1

/-- The other requests are where they were. -/
theorem Took.getElem? {s s' : Server σ ω ε α κ} {i : Nat} {t t' : Txn σ ω ε α κ}
    (h : Took db Inv R G s i t t' s') (ht : s.txns[i]? = some t) (j : Nat) :
    s'.txns[j]? = if i = j then some t' else s.txns[j]? := by
  have hi := lt_of_getElem? ht
  rw [h.txns, List.getElem?_set]
  by_cases he : i = j
  · rw [if_pos he, if_pos he, if_pos hi]
  · rw [if_neg he, if_neg he]

/-- A request that moves is there. -/
theorem getElem?_of_advance {s s' : Server σ ω ε α κ} {i : Nat} {id : String}
    (h : s.advance db i id = some s') : ∃ t, s.txns[i]? = some t := by
  cases ht : s.txns[i]? with
  | none => simp [advance, ht] at h
  | some t => exact ⟨t, rfl⟩

/-- A request that has come in is last. -/
theorem getElem?_append_singleton {ts : List (Txn σ ω ε α κ)} {t x : Txn σ ω ε α κ} {j : Nat}
    (h : (ts ++ [t])[j]? = some x) : ts[j]? = some x ∨ j = ts.length ∧ x = t := by
  rcases Nat.lt_or_ge j ts.length with hj | hj
  · rw [List.getElem?_append_left hj] at h
    exact .inl h
  · rw [List.getElem?_append_right hj] at h
    obtain ⟨hlt, hx⟩ := List.getElem?_eq_some_iff.1 h
    simp only [List.length_singleton] at hlt
    have hj' : j - ts.length = 0 := by omega
    refine .inr ⟨by omega, ?_⟩
    simp [hj'] at hx
    exact hx.symm

/-- What the programs promise, given the invariant, and what comes from outside:
`R` is what a request may see happen while it holds its names, `G` what it promises
of a commit. -/
structure Promises (db : Db σ ω) (program : κ → Prog σ ω ε α) (outside : σ → η → Option σ)
    (Inv : σ → Prop) (R : List Name → σ → σ → Prop)
    (G : κ → List Name → List ω → σ → Prop) : Prop where
  refl : ∀ H w, R H w w
  trans : ∀ H a b c, R H a b → R H b c → R H a c
  outside : ∀ w e w', Inv w → outside w e = some w' → Inv w' ∧ ∀ H, R H w w'
  program : ∀ c w, db.wp Inv R (G c) (fun _ _ _ _ => True) (program c) [] [] w

/-- How one move changes the world: not at all, by a commit as promised and as
assumed (`A`), or from outside. -/
inductive Change (db : Db σ ω) (outside : σ → η → Option σ) (A : κ → List ω → σ → Prop)
    (G : κ → List Name → List ω → σ → Prop) (w : σ) : σ → Prop where
  | stays : Change db outside A G w w
  | commits (c : κ) (H : List Name) (ws : List ω) (ha : A c ws w) (hg : G c H ws w) :
      Change db outside A G w (db.view w ws)
  | outside (e : η) (w' : σ) (h : outside w e = some w') : Change db outside A G w w'

/-! ## Requests that interleave -/

/-- Every request keeps its promises against what the others do, and none has
what another has. -/
structure Concurrent (db : Db σ ω) (Inv : σ → Prop) (R : List Name → σ → σ → Prop)
    (G : κ → List Name → List ω → σ → Prop) (D : Name → Prop) (s : Server σ ω ε α κ) : Prop where
  inv : Inv s.world
  keeps : ∀ (i : Nat) (t : Txn σ ω ε α κ), s.txns[i]? = some t →
    ∃ w, R t.held w s.world ∧ Keeps db Inv R G t w
  apart : ∀ (i j : Nat) (t u : Txn σ ω ε α κ), i ≠ j → s.txns[i]? = some t → s.txns[j]? = some u →
    ∀ n, D n → n ∈ t.held → n ∉ u.held

variable {C : Server σ ω ε α κ → Move κ η → Prop} {D : Name → Prop}

/-- The moves `C` allows: a request commits only as assumed, and enters no section
that counts while another is in it. -/
structure Allowed (A : κ → List ω → σ → Prop) (D : Name → Prop)
    (C : Server σ ω ε α κ → Move κ η → Prop) : Prop where
  commit : ∀ (s : Server σ ω ε α κ) (i : Nat) (id : String) (t : Txn σ ω ε α κ),
    C s (.advance i id) → s.txns[i]? = some t → t.commits → A t.call t.writes s.world
  enter : ∀ (s : Server σ ω ε α κ) (i : Nat) (id : String) (t : Txn σ ω ε α κ) (j : Nat)
    (u : Txn σ ω ε α κ) (n : String) (k : Prog σ ω ε α), C s (.advance i id) →
    s.txns[i]? = some t → s.txns[j]? = some u → j ≠ i → t.prog = .enter n k → D (.inside n) →
    .inside n ∉ u.held

/-- A request commits only what `p` allows of its call, its writes and the world. -/
def commitsAs (p : κ → List ω → σ → Bool) (s : Server σ ω ε α κ) : Move κ η → Bool
  | .advance i _ =>
      match s.txns[i]? with
      | some { call, prog := .commit _, writes, .. } => p call writes s.world
      | _ => true
  | _ => true

theorem commitsAs_commit {p : κ → List ω → σ → Bool} {s : Server σ ω ε α κ} {i : Nat} {id : String}
    {t : Txn σ ω ε α κ} (h : s.commitsAs (η := η) p (.advance i id) = true)
    (ht : s.txns[i]? = some t) (hcommit : t.commits) : p t.call t.writes s.world = true := by
  obtain ⟨call, prog, started, writes, held⟩ := t
  obtain ⟨k, hk⟩ := hcommit
  cases hk
  simpa only [commitsAs, ht] using h

/-- A request commits only as `A` says of its call, its writes and the world. -/
def CommitsOnly (A : κ → List ω → σ → Prop) (s : Server σ ω ε α κ) : Move κ η → Prop
  | .advance i _ => ∀ t, s.txns[i]? = some t → t.commits → A t.call t.writes s.world
  | _ => True

theorem commitsOnly_of_commitsAs {p : κ → List ω → σ → Bool}
    (hp : ∀ c ws w, p c ws w = true → A c ws w) {s : Server σ ω ε α κ} {a : Move κ η}
    (h : s.commitsAs p a = true) : s.CommitsOnly A a := by
  cases a with
  | advance i id => exact fun t ht hcommit => hp _ _ _ (commitsAs_commit h ht hcommit)
  | call c => trivial
  | outside e => trivial

/-- Where no section counts there is nothing to say about entering one. -/
theorem allowed_commitsOnly (A : κ → List ω → σ → Prop) :
    Allowed (ε := ε) (α := α) (η := η) A Name.Owned (CommitsOnly A) where
  commit s i id t hc ht hcommit := hc t ht hcommit
  enter s i id t j u n k hc ht hu hj hprog hD := by
    obtain ⟨id, hid⟩ := hD
    cases hid

/-- Any moves at all. -/
theorem allowed_any : Allowed (σ := σ) (ω := ω) (ε := ε) (α := α) (κ := κ) (η := η)
    (fun _ _ _ => True) Name.Owned (fun _ _ => True) where
  commit s i id t hc ht hcommit := trivial
  enter s i id t j u n k hc ht hu hj hprog hD := by
    obtain ⟨id, hid⟩ := hD
    cases hid

theorem allowed_commitsAs (p : κ → List ω → σ → Bool) :
    Allowed (ε := ε) (α := α) (η := η) (fun c ws w => p c ws w = true) Name.Owned
      (fun s a => s.commitsAs p a = true) where
  commit s i id t hc ht hcommit := commitsAs_commit hc ht hcommit
  enter s i id t j u n k hc ht hu hj hprog hD := by
    obtain ⟨id, hid⟩ := hD
    cases hid

/-- What is about to be committed is as promised. -/
theorem Concurrent.promised {s : Server σ ω ε α κ} (hs : Concurrent db Inv R G D s) {i : Nat}
    {t : Txn σ ω ε α κ} (ht : s.txns[i]? = some t) (hcommit : t.commits) :
    G t.call t.held t.writes s.world := by
  obtain ⟨w, hr, hk⟩ := hs.keeps i t ht
  obtain ⟨k, hprog⟩ := hcommit
  unfold Keeps at hk
  rw [hprog] at hk
  exact (hk s.world hs.inv hr).1

/-- The world may move as everybody relies on. -/
theorem Concurrent.moved (hP : Promises db program outside Inv R G) {s : Server σ ω ε α κ}
    (hs : Concurrent db Inv R G D s) {w : σ} (hinv : Inv w) (hR : ∀ H, R H s.world w) :
    Concurrent db Inv R G D { s with world := w } where
  inv := hinv
  keeps i t ht := by
    obtain ⟨w₀, hr, hk⟩ := hs.keeps i t ht
    exact ⟨w₀, hP.trans _ _ _ _ hr (hR _), hk⟩
  apart := hs.apart

/-- A request that commits makes its writes. -/
theorem advance_commits {s s' : Server σ ω ε α κ} {i : Nat} {id : String} {t : Txn σ ω ε α κ}
    (ht : s.txns[i]? = some t) (hcommit : t.commits) (h : s.advance db i id = some s') :
    s'.world = db.view s.world t.writes := by
  obtain ⟨call, prog, started, writes, held⟩ := t
  obtain ⟨k, hk⟩ := hcommit
  cases hk
  simp only [advance, ht, Option.bind_some] at h
  cases h
  rfl

/-- One move among interleaved requests. -/
theorem Concurrent.step (hP : Promises db program outside Inv R G)
    (hG : ∀ c H ws w, Inv w → A c ws w → G c H ws w →
      Inv (db.view w ws) ∧ ∀ H', (∀ n, D n → n ∈ H → n ∉ H') → R H' w (db.view w ws))
    (hC : Allowed A D C) {s s' : Server σ ω ε α κ} {a : Move κ η}
    (hs : Concurrent db Inv R G D s) (hc : C s a)
    (hstep : Server.step db program outside s a = some s') :
    Concurrent db Inv R G D s' ∧ Change db outside A G s.world s'.world := by
  obtain ⟨hinv, hkeeps, hapart⟩ := hs
  cases a with
  | call c =>
      cases hstep
      refine ⟨⟨hinv, ?_, ?_⟩, .stays⟩
      · intro i t ht
        rcases getElem?_append_singleton ht with ht | ⟨-, rfl⟩
        · exact hkeeps i t ht
        · exact ⟨s.world, hP.refl _ _, hP.program c s.world⟩
      · intro i j t u hij ht hu n hn hnt
        rcases getElem?_append_singleton ht with ht | ⟨-, rfl⟩
        · rcases getElem?_append_singleton hu with hu | ⟨-, rfl⟩
          · exact hapart i j t u hij ht hu n hn hnt
          · exact nofun
        · cases hnt
  | outside e =>
      obtain ⟨w, hw, rfl⟩ := Option.map_eq_some_iff.1 hstep
      obtain ⟨hinv', hR⟩ := hP.outside _ _ _ hinv hw
      refine ⟨⟨hinv', fun i t ht => ?_, hapart⟩, .outside e w hw⟩
      obtain ⟨w₀, hr, hk⟩ := hkeeps i t ht
      exact ⟨w₀, hP.trans _ _ _ _ hr (hR _), hk⟩
  | advance i id =>
      have hstep' : s.advance db i id = some s' := hstep
      obtain ⟨t, ht⟩ := getElem?_of_advance hstep'
      obtain ⟨w₀, hr, hk⟩ := hkeeps i t ht
      obtain ⟨t', htook⟩ := advance_took ht hk hr hinv hstep'
      have hget := htook.getElem? ht
      -- What the commit does is what the others rely on.
      have hworld : Inv s'.world ∧ Change db outside A G s.world s'.world ∧
          ∀ j u, j ≠ i → s.txns[j]? = some u → R u.held s.world s'.world := by
        rcases htook.world with hw | ⟨hcommit, hg, hw⟩
        · rw [hw]
          exact ⟨hinv, .stays, fun j u _ _ => hP.refl _ _⟩
        · have ha := hC.commit s i id t hc ht hcommit
          obtain ⟨hinv', hR⟩ := hG t.call t.held _ _ hinv ha hg
          rw [hw]
          exact ⟨hinv', .commits _ _ _ ha hg, fun j u hj hu => hR u.held
            fun n hn hnt => hapart i j t u (Ne.symm hj) ht hu n hn hnt⟩
      -- What is new to it, no other has.
      have hnew : ∀ j u, j ≠ i → s.txns[j]? = some u →
          ∀ n, D n → n ∈ t'.held → n ∉ u.held := by
        intro j u hj hu n hn hnt
        rcases htook.held n hnt with hold | ⟨id, rfl, hfree⟩ | ⟨m, k, rfl, hm⟩
        · exact hapart i j t u (Ne.symm hj) ht hu n hn hold
        · exact free_iff.1 hfree j u hj hu
        · exact hC.enter s i id t j u m k hc ht hu hj hm hn
      refine ⟨⟨hworld.1, ?_, ?_⟩, hworld.2.1⟩
      · intro j u hu
        rw [hget] at hu
        split at hu
        · cases hu
          exact ⟨_, hP.refl _ _, htook.keeps⟩
        · rename_i hij
          obtain ⟨w₁, hr₁, hk₁⟩ := hkeeps j u hu
          exact ⟨w₁, hP.trans _ _ _ _ hr₁ (hworld.2.2 j u (Ne.symm hij) hu), hk₁⟩
      · intro j k u v hjk hu hv n hn hnu
        rw [hget] at hu hv
        split at hu
        · cases hu
          rename_i hij
          rw [if_neg (by rintro rfl; exact hjk hij.symm)] at hv
          exact hnew k v (by rintro rfl; exact hjk hij.symm) hv n hn hnu
        · rename_i hij
          split at hv
          · cases hv
            exact fun hnv => hnew j u (Ne.symm hij) hu n hn hnv hnu
          · exact hapart j k u v hjk hu hv n hn hnu

/-- **Interleaved requests.**  Every commit and every change from outside keeps the
invariant and is what the others rely on, as long as nobody has what another has
(`D`: the names that count).  Then the invariant holds in every state. -/
theorem invariant_of_concurrent (hP : Promises db program outside Inv R G)
    (hG : ∀ c H ws w, Inv w → A c ws w → G c H ws w →
      Inv (db.view w ws) ∧ ∀ H', (∀ n, D n → n ∈ H → n ∉ H') → R H' w (db.view w ws))
    (hC : Allowed A D C) (hinit : ∀ w, init w → Inv w) {s : Server σ ω ε α κ}
    (hs : (system db program outside init).ReachableBy C s) :
    Concurrent db Inv R G D s := by
  refine System.ReachableBy.invariant (P := Concurrent db Inv R G D) ?_ ?_ hs
  · rintro s ⟨hi, ht⟩
    refine ⟨hinit _ hi, ?_, ?_⟩ <;> simp [ht]
  · exact fun s a s' _ hs hc hstep => (hs.step hP hG hC hc hstep).1

/-! ## Requests one at a time -/

/-- Every other request has not begun, or is over. -/
def alone (s : Server σ ω ε α κ) (i : Nat) : Bool :=
  (s.txns.eraseIdx i).all fun t => !t.started || t.prog.isOver

theorem alone_iff {s : Server σ ω ε α κ} {i : Nat} :
    s.alone i = true ↔ ∀ (j : Nat) (t : Txn σ ω ε α κ), j ≠ i → s.txns[j]? = some t →
      t.started = false ∨ t.prog.isOver = true := by
  simp only [alone, List.all_eq_true, Bool.or_eq_true, Bool.not_eq_true',
    List.mem_eraseIdx_iff_getElem?]
  constructor
  · intro h j t hj ht
    exact h t ⟨j, hj, ht⟩
  · rintro h t ⟨j, hj, ht⟩
    exact h j t hj ht

/-- A request has not begun, or is over, or keeps its promises. -/
structure Sequential (db : Db σ ω) (program : κ → Prog σ ω ε α) (Inv : σ → Prop)
    (R : List Name → σ → σ → Prop) (G : κ → List Name → List ω → σ → Prop)
    (s : Server σ ω ε α κ) : Prop where
  inv : Inv s.world
  keeps : ∀ (i : Nat) (t : Txn σ ω ε α κ), s.txns[i]? = some t →
    (t.started = false → t = { call := t.call, prog := program t.call }) ∧
    (t.started = true → t.prog.isOver = true ∨
      ∃ w, R t.held w s.world ∧ Keeps db Inv R G t w)

theorem keeps_of_over {t : Txn σ ω ε α κ} {w : σ} (h : t.prog.isOver = true) :
    Keeps db Inv R G t w := by
  obtain ⟨call, prog, started, writes, held⟩ := t
  cases prog with
  | ret a => trivial
  | raise e => trivial
  | _ => cases h

/-- The moves `C` allows: requests move one at a time, and commit only as
assumed. -/
structure OneAtATime (A : κ → List ω → σ → Prop)
    (C : Server σ ω ε α κ → Move κ η → Prop) : Prop where
  alone : ∀ (s : Server σ ω ε α κ) (i : Nat) (id : String), C s (.advance i id) → s.alone i = true
  commit : ∀ (s : Server σ ω ε α κ) (i : Nat) (id : String) (t : Txn σ ω ε α κ),
    C s (.advance i id) → s.txns[i]? = some t → t.commits → A t.call t.writes s.world

/-- One move of requests that come one at a time. -/
theorem Sequential.step (hP : Promises db program outside Inv R G)
    (hG : ∀ c H ws w, Inv w → A c ws w → G c H ws w → Inv (db.view w ws))
    (hC : OneAtATime A C) {s s' : Server σ ω ε α κ} {a : Move κ η}
    (hs : Sequential db program Inv R G s) (hc : C s a)
    (hstep : Server.step db program outside s a = some s') :
    Sequential db program Inv R G s' ∧ Change db outside A G s.world s'.world := by
  obtain ⟨hinv, hkeeps⟩ := hs
  cases a with
  | call c =>
      cases hstep
      refine ⟨⟨hinv, fun i t ht => ?_⟩, .stays⟩
      rcases getElem?_append_singleton ht with ht | ⟨-, rfl⟩
      · exact hkeeps i t ht
      · exact ⟨fun _ => rfl, nofun⟩
  | outside e =>
      obtain ⟨w, hw, rfl⟩ := Option.map_eq_some_iff.1 hstep
      obtain ⟨hinv', hR⟩ := hP.outside _ _ _ hinv hw
      refine ⟨⟨hinv', fun i t ht => ⟨(hkeeps i t ht).1, fun hst => ?_⟩⟩, .outside e w hw⟩
      rcases (hkeeps i t ht).2 hst with hover | ⟨w₀, hr, hk⟩
      · exact .inl hover
      · exact .inr ⟨w₀, hP.trans _ _ _ _ hr (hR _), hk⟩
  | advance i id =>
      have hstep' : s.advance db i id = some s' := hstep
      obtain ⟨t, ht⟩ := getElem?_of_advance hstep'
      have halone := hC.alone s i id hc
      obtain ⟨w₀, hr, hk⟩ : ∃ w, R t.held w s.world ∧ Keeps db Inv R G t w := by
        cases hst : t.started with
        | false =>
            refine ⟨s.world, hP.refl _ _, ?_⟩
            rw [(hkeeps i t ht).1 hst]
            exact hP.program t.call s.world
        | true =>
            rcases (hkeeps i t ht).2 hst with hover | h
            · exact ⟨s.world, hP.refl _ _, keeps_of_over hover⟩
            · exact h
      obtain ⟨t', htook⟩ := advance_took ht hk hr hinv hstep'
      have hget := htook.getElem? ht
      have hworld : Inv s'.world ∧ Change db outside A G s.world s'.world := by
        rcases htook.world with hw | ⟨hcommit, hg, hw⟩
        · rw [hw]
          exact ⟨hinv, .stays⟩
        · have ha := hC.commit s i id t hc ht hcommit
          rw [hw]
          exact ⟨hG _ _ _ _ hinv ha hg, .commits _ _ _ ha hg⟩
      refine ⟨⟨hworld.1, fun j u hu => ?_⟩, hworld.2⟩
      rw [hget] at hu
      split at hu
      · cases hu
        exact ⟨fun h => absurd (htook.started.symm.trans h) nofun,
          fun _ => .inr ⟨_, hP.refl _ _, htook.keeps⟩⟩
      · rename_i hij
        refine ⟨(hkeeps j u hu).1, fun hst => ?_⟩
        rcases alone_iff.1 halone j u (Ne.symm hij) hu with h | hover
        · exact absurd (hst.symm.trans h) nofun
        · exact .inl hover

/-- **Requests one at a time.**  Every commit and every change from outside keeps
the invariant; then it holds in every state reached by letting no request begin
before the one under way is over. -/
theorem invariant_of_sequential (hP : Promises db program outside Inv R G)
    (hG : ∀ c H ws w, Inv w → A c ws w → G c H ws w → Inv (db.view w ws))
    (hC : OneAtATime A C) (hinit : ∀ w, init w → Inv w) {s : Server σ ω ε α κ}
    (hs : (system db program outside init).ReachableBy C s) :
    Sequential db program Inv R G s := by
  refine System.ReachableBy.invariant (P := Sequential db program Inv R G) ?_ ?_ hs
  · rintro s ⟨hi, ht⟩
    exact ⟨hinit _ hi, by simp [ht]⟩
  · exact fun s a s' _ hs hc hstep => (hs.step hP hG hC hc hstep).1

end Rules

end Server

end Funduq.Lib
