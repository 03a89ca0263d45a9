import Funduq.Lib.Server

/-!
# Nobody names what is yet to be minted

Items in a shared database that name each other as parents.  An item is named by an id
its request mints, and its parent by a string: one the request's caller supplied, or the
id of an item the request has seen.  Both are known before the id is minted.  So if no
caller supplies an id before it is minted, parents are minted before their children,
whatever order the items are committed in: a child may well come first.  What is in the
database nobody mints again; it is the callers in progress who must not have guessed.

`foresees` follows a program through what it knows, and what it knew when it minted each
of its ids; `Ranked` is the invariant, the order of minting: every item's parent ranks
below it.
-/

namespace Funduq.Lib

variable {σ ω ε α β κ η : Type}

/-- How items are found in a world, and what a write makes of them. -/
structure Linking (db : Db σ ω) where
  /-- There is an item of this id. -/
  here : σ → String → Prop
  /-- The item of the first id names the second as its parent. -/
  linked : σ → String → String → Prop
  /-- An item the write makes, and its parent. -/
  links : ω → Option (String × String)
  here_apply : ∀ {w x p}, here w p → here (db.apply w x) p
  linked_apply : ∀ {w x c p}, linked (db.apply w x) c p → linked w c p ∨ links x = some (c, p)
  unused_here : ∀ {w p}, here w p → db.unused w p = false
  unused_linked : ∀ {w c p}, linked w c p → db.unused w p = false

namespace Linking

variable {db : Db σ ω} (L : Linking db)

theorem here_view {w : σ} {ws : List ω} {p : String} (h : L.here w p) :
    L.here (db.view w ws) p := by
  induction ws generalizing w with
  | nil => exact h
  | cons x ws ih => exact ih (L.here_apply h)

theorem linked_view {w : σ} {ws : List ω} {c p : String} (h : L.linked (db.view w ws) c p) :
    L.linked w c p ∨ ∃ x ∈ ws, L.links x = some (c, p) := by
  induction ws generalizing w with
  | nil => exact .inl h
  | cons x ws ih =>
      rcases ih h with h | ⟨y, hy, hlinks⟩
      · rcases L.linked_apply h with h | hlinks
        · exact .inl h
        · exact .inr ⟨x, List.mem_cons_self, hlinks⟩
      · exact .inr ⟨y, List.mem_cons_of_mem x hy, hlinks⟩

/-! ## What a program knows -/

/-- The strings a request knows: those it was given, and the items it has seen. -/
abbrev Known := String → Prop

/-- `B c p`: when the request minted `c` it knew `p`. -/
abbrev Before := String → String → Prop

/-- Knowing `K`, the program makes no item under an id but what it minted it for, with a
parent it knew by then.  `item` tells of the writes made so far whether the next id is for
an item. -/
def foresees (item : List ω → Bool) (Q : Known → Before → List ω → α → Prop) :
    Prog σ ω ε α → Known → Before → List ω → Prop
  | .ret a, K, B, ws => Q K B ws a
  | .raise _, _, _, _ => True
  | .read k, K, B, ws => ∀ w, foresees item Q (k (db.view w ws)) (fun p => K p ∨ L.here w p) B ws
  | .write x k, K, B, ws =>
      (∀ c p, L.links x = some (c, p) → B c p) ∧ foresees item Q k K B (ws ++ [x])
  | .mint k, K, B, ws => ∀ id,
      foresees item Q (k id) K (fun c p => item ws = true ∧ c = id ∧ K p ∨ B c p) ws
  | .enter _ k, K, B, ws => foresees item Q k K B ws
  | .commit k, K, _, _ => foresees item Q k K (fun _ _ => False) []

variable {L} {item : List ω → Bool} {Q Q' : Known → Before → List ω → α → Prop}

theorem foresees_mono (hQ : ∀ K B ws a, Q K B ws a → Q' K B ws a) {p : Prog σ ω ε α} {K : Known}
    {B : Before} {ws : List ω} (h : L.foresees item Q p K B ws) : L.foresees item Q' p K B ws := by
  induction p generalizing K B ws with
  | ret a => exact hQ _ _ _ _ h
  | raise e => trivial
  | read k ih => exact fun w => ih _ (h w)
  | write x k ih => exact ⟨h.1, ih h.2⟩
  | mint k ih => exact fun id => ih id (h id)
  | enter n k ih => exact ih h
  | commit k ih => exact ih h

/-- **Sequencing.** -/
theorem foresees_bind {Q : Known → Before → List ω → β → Prop} {p : Prog σ ω ε α}
    {f : α → Prog σ ω ε β} {K : Known} {B : Before} {ws : List ω}
    (h : L.foresees item (fun K B ws a => L.foresees item Q (f a) K B ws) p K B ws) :
    L.foresees item Q (p >>= f) K B ws := by
  show L.foresees item Q (p.bind f) K B ws
  induction p generalizing K B ws with
  | ret a => exact h
  | raise e => trivial
  | read k ih => exact fun w => ih _ (h w)
  | write x k ih => exact ⟨h.1, ih h.2⟩
  | mint k ih => exact fun id => ih id (h id)
  | enter n k ih => exact ih h
  | commit k ih => exact ih h

theorem foresees_ofExcept {x : Except ε α} {K : Known} {B : Before} {ws : List ω}
    (h : ∀ a, x = .ok a → Q K B ws a) : L.foresees item Q (Prog.ofExcept x) K B ws := by
  cases x with
  | ok a => exact h a rfl
  | error e => trivial

section Statements

variable {Q : Known → Before → List ω → β → Prop} {K : Known} {B : Before} {ws : List ω}

theorem foresees_select {g : σ → α} {f : α → Prog σ ω ε β}
    (h : ∀ w, L.foresees item Q (f (g (db.view w ws))) (fun p => K p ∨ L.here w p) B ws) :
    L.foresees item Q (Prog.select g >>= f) K B ws := h

theorem foresees_put {x : ω} {f : Unit → Prog σ ω ε β}
    (hx : ∀ c p, L.links x = some (c, p) → B c p) (h : L.foresees item Q (f ()) K B (ws ++ [x])) :
    L.foresees item Q (Prog.put x >>= f) K B ws := ⟨hx, h⟩

theorem foresees_newId {f : String → Prog σ ω ε β} (h : ∀ id, L.foresees item Q (f id) K
      (fun c p => item ws = true ∧ c = id ∧ K p ∨ B c p) ws) :
    L.foresees item Q (Prog.newId >>= f) K B ws := h

end Statements

/-! ## The order of minting -/

/-- What a request holds to, by the order `rank`: what it knows it was given or is in the
world, and what it knew when it minted an id ranks below the id. -/
structure Keeps (L : Linking db) (item : List ω → Bool) (given : String → Prop)
    (rank : String → Nat) (w : σ) (prog : Prog σ ω ε α) (writes : List ω) (K : Known)
    (B : Before) : Prop where
  foresees : L.foresees item (fun _ _ _ _ => True) prog K B writes
  known : ∀ p, K p → given p ∨ L.here w p
  before : ∀ c p, B c p → K p ∧ rank p < rank c
  writes : ∀ x ∈ writes, ∀ c p, L.links x = some (c, p) → K p ∧ rank p < rank c

/-- Every parent ranks below its child, and every request holds to the order. -/
def Ranked (L : Linking db) (item : κ → List ω → Bool) (given : κ → String → Prop)
    (s : Server σ ω ε α κ) : Prop :=
  ∃ rank : String → Nat, ∃ top, (∀ p, rank p < top) ∧
    (∀ c p, L.linked s.world c p → rank p < rank c) ∧
    ∀ t ∈ s.txns, ∃ K B, Keeps L (item t.call) (given t.call) rank s.world t.prog t.writes K B

section Keeps

variable {given : String → Prop} {rank : String → Nat} {w w' : σ} {prog : Prog σ ω ε α}
  {writes : List ω} {K : Known} {B : Before}

/-- The world moves on. -/
theorem Keeps.later (h : Keeps L item given rank w prog writes K B)
    (hhere : ∀ p, L.here w p → L.here w' p) : Keeps L item given rank w' prog writes K B :=
  ⟨h.foresees, fun p hp => (h.known p hp).imp_right (hhere p), h.before, h.writes⟩

/-- The order, with one id above all others. -/
def raise (rank : String → Nat) (top : Nat) (id : String) : String → Nat :=
  fun p => if p = id then top else rank p

theorem lt_raise {top : Nat} {id c p : String} (htop : ∀ p, rank p < top) (hp : p ≠ id)
    (h : rank p < rank c) : raise rank top id p < raise rank top id c := by
  unfold raise
  rw [if_neg hp]
  split
  · exact htop p
  · exact h

/-- An id that the request does not know is raised above all others. -/
theorem Keeps.raise {top : Nat} {id : String} (h : Keeps L item given rank w prog writes K B)
    (htop : ∀ p, rank p < top) (hid : ¬ K id) :
    Keeps L item given (raise rank top id) w prog writes K B where
  foresees := h.foresees
  known := h.known
  before c p hb := by
    obtain ⟨hp, hlt⟩ := h.before c p hb
    exact ⟨hp, lt_raise htop (fun he => hid (he ▸ hp)) hlt⟩
  writes x hx c p hlinks := by
    obtain ⟨hp, hlt⟩ := h.writes x hx c p hlinks
    exact ⟨hp, lt_raise htop (fun he => hid (he ▸ hp)) hlt⟩

end Keeps

section Ranked

variable {item : κ → List ω → Bool} {given : κ → String → Prop} {s s' : Server σ ω ε α κ}

/-- The world moves on, and its items stay as they are. -/
theorem Ranked.moved (h : Ranked L item given s) {w : σ}
    (hhere : ∀ p, L.here s.world p → L.here w p)
    (hlinked : ∀ c p, L.linked w c p → L.linked s.world c p) :
    Ranked L item given { s with world := w } := by
  obtain ⟨rank, top, htop, hrows, htxns⟩ := h
  refine ⟨rank, top, htop, fun c p hl => hrows c p (hlinked c p hl), fun t ht => ?_⟩
  obtain ⟨K, B, hk⟩ := htxns t ht
  exact ⟨K, B, hk.later hhere⟩

/-- A request comes in. -/
theorem Ranked.call (h : Ranked L item given s) {program : κ → Prog σ ω ε α} (c : κ)
    (hprogram : L.foresees (item c) (fun _ _ _ _ => True) (program c) (given c)
      (fun _ _ => False) []) :
    Ranked L item given { s with txns := s.txns ++ [{ call := c, prog := program c }] } := by
  obtain ⟨rank, top, htop, hrows, htxns⟩ := h
  refine ⟨rank, top, htop, hrows, fun t ht => ?_⟩
  rcases List.mem_append.1 ht with ht | ht
  · exact htxns t ht
  · rw [List.mem_singleton.1 ht]
    exact ⟨given c, fun _ _ => False, hprogram, fun p hp => .inl hp, nofun, nofun⟩

/-- One request goes on, and the others stay. -/
theorem Ranked.goes {rank : String → Nat} {top : Nat} (htop : ∀ p, rank p < top)
    {w : σ} (hrows : ∀ c p, L.linked w c p → rank p < rank c)
    {i : Nat} {t : Txn σ ω ε α κ} {K : Known} {B : Before}
    (hothers : ∀ u ∈ s.txns, ∃ K B, Keeps L (item u.call) (given u.call) rank w u.prog u.writes K B)
    (ht : Keeps L (item t.call) (given t.call) rank w t.prog t.writes K B) :
    Ranked L item given { s.setTxn i t with world := w } := by
  refine ⟨rank, top, htop, hrows, fun u hu => ?_⟩
  rcases List.mem_or_eq_of_mem_set hu with hu | rfl
  · exact hothers u hu
  · exact ⟨K, B, ht⟩

/-- A request mints an id for an item that it does not know, nor anybody else. -/
theorem Ranked.mint {rank : String → Nat} {top : Nat} (htop : ∀ p, rank p < top)
    (hrows : ∀ c p, L.linked s.world c p → rank p < rank c) {id : String}
    (hunused : db.unused s.world id = true) (hfresh : ∀ u ∈ s.txns, ¬ given u.call id)
    (htxns : ∀ u ∈ s.txns, ∃ K B,
      Keeps L (item u.call) (given u.call) rank s.world u.prog u.writes K B)
    {i : Nat} {t t' : Txn σ ω ε α κ} (ht : t ∈ s.txns) {k : String → Prog σ ω ε α}
    (hprog : t.prog = .mint k) {K : Known} {B : Before}
    (hk : Keeps L (item t.call) (given t.call) rank s.world t.prog t.writes K B)
    (hcall : t'.call = t.call) (hnext : t'.prog = k id) (hwrites : t'.writes = t.writes) :
    Ranked L item given (s.setTxn i t') := by
  have hunknown : ∀ u ∈ s.txns, ∀ {K : Known}, (∀ p, K p → given u.call p ∨
      L.here s.world p) → ¬ K id := by
    intro u hu K hknown hid
    rcases hknown id hid with hid | hid
    · exact hfresh u hu hid
    · rw [L.unused_here hid] at hunused
      cases hunused
  have hnot := hunknown t ht hk.known
  have hraised : Keeps L (item t.call) (given t.call) (raise rank top id) s.world t.prog t.writes K
      B := hk.raise htop hnot
  have hforesees := hk.foresees
  rw [hprog] at hforesees
  have htop' : ∀ p, raise rank top id p < top + 1 := by
    intro p
    have hp := htop p
    unfold raise
    split <;> omega
  refine Ranked.goes (K := K) (B := fun c p =>
    item t.call t.writes = true ∧ c = id ∧ K p ∨ B c p) htop' ?_ ?_ ?_
  · intro c p hl
    refine lt_raise htop ?_ (hrows c p hl)
    rintro rfl
    rw [L.unused_linked hl] at hunused
    cases hunused
  · intro u hu
    obtain ⟨K, B, hk⟩ := htxns u hu
    exact ⟨K, B, hk.raise htop (hunknown u hu hk.known)⟩
  · rw [hcall, hnext, hwrites]
    refine ⟨hforesees id, hk.known, ?_, hraised.writes⟩
    rintro c p (⟨-, hc, hp⟩ | hb)
    · have hne : p ≠ id := by
        rintro rfl
        exact hnot hp
      refine ⟨hp, ?_⟩
      unfold raise
      rw [if_neg hne, if_pos hc]
      exact htop p
    · exact hraised.before c p hb

/-- **Step rule.**  A request goes on; an id it mints for an item is one that no caller in
progress has supplied. -/
theorem Ranked.advance {i : Nat} {id : String} (h : Ranked L item given s)
    (hfresh : ∀ t k, s.txns[i]? = some t → t.prog = .mint k → item t.call t.writes = true →
      ∀ u ∈ s.txns, ¬ given u.call id)
    (hstep : s.advance db i id = some s') : Ranked L item given s' := by
  obtain ⟨rank, top, htop, hrows, htxns⟩ := h
  obtain ⟨t, ht⟩ := Server.getElem?_of_advance hstep
  obtain ⟨K, B, hk⟩ := htxns t (List.mem_of_getElem? ht)
  obtain ⟨call, prog, started, writes, held⟩ := t
  simp only [Server.advance, ht, Option.bind_some] at hstep
  cases prog with
  | ret a =>
      cases hstep
      exact Ranked.goes (K := fun _ => False) (B := fun _ _ => False) htop hrows htxns
        ⟨trivial, (by simp), (by simp), (by simp)⟩
  | raise e =>
      cases hstep
      exact Ranked.goes (K := fun _ => False) (B := fun _ _ => False) htop hrows htxns
        ⟨trivial, (by simp), (by simp), (by simp)⟩
  | read k =>
      cases hstep
      refine Ranked.goes (K := fun p => K p ∨ L.here s.world p) (B := B) htop hrows htxns
        ⟨hk.foresees s.world, ?_, ?_, ?_⟩
      · intro p hp
        rcases hp with hp | hp
        · exact hk.known p hp
        · exact .inr hp
      · exact fun c p hb => ⟨.inl (hk.before c p hb).1, (hk.before c p hb).2⟩
      · intro x hx c p hlinks
        obtain ⟨hp, hlt⟩ := hk.writes x hx c p hlinks
        exact ⟨.inl hp, hlt⟩
  | write x k =>
      simp only at hstep
      split at hstep
      · cases hstep
        obtain ⟨hlinks, hforesees⟩ := hk.foresees
        refine Ranked.goes (K := K) (B := B) htop hrows htxns
          ⟨hforesees, hk.known, hk.before, fun y hy c p hl => ?_⟩
        rcases List.mem_append.1 hy with hy | hy
        · exact hk.writes y hy c p hl
        · rw [List.mem_singleton.1 hy] at hl
          exact hk.before c p (hlinks c p hl)
      · cases hstep
  | enter n k =>
      cases hstep
      exact Ranked.goes (K := K) (B := B) htop hrows htxns
        ⟨hk.foresees, hk.known, hk.before, hk.writes⟩
  | commit k =>
      cases hstep
      have hhere : ∀ p, L.here s.world p → L.here (db.view s.world writes) p :=
        fun p hp => L.here_view hp
      have hothers : ∀ u ∈ s.txns, ∃ K B, Keeps L (item u.call) (given u.call) rank
          (db.view s.world writes) u.prog u.writes K B := by
        intro u hu
        obtain ⟨K, B, hk⟩ := htxns u hu
        exact ⟨K, B, hk.later hhere⟩
      refine Ranked.goes (K := K) (B := fun _ _ => False) htop ?_ hothers
        ⟨hk.foresees, fun p hp => (hk.known p hp).imp_right (hhere p), (by simp), (by simp)⟩
      intro c p hl
      rcases L.linked_view hl with hl | ⟨x, hx, hlinks⟩
      · exact hrows c p hl
      · exact (hk.writes x hx c p hlinks).2
  | mint k =>
      simp only at hstep
      split at hstep
      · rename_i hfree
        simp only [Bool.and_eq_true] at hfree
        cases hstep
        by_cases hitem : item call writes = true
        · exact Ranked.mint htop hrows hfree.1.1 (hfresh _ k ht rfl hitem) htxns
            (List.mem_of_getElem? ht) rfl hk rfl rfl rfl
        · refine Ranked.goes (K := K) (B := fun c p =>
            item call writes = true ∧ c = id ∧ K p ∨ B c p) htop hrows htxns
            ⟨hk.foresees id, hk.known, ?_, hk.writes⟩
          rintro c p (⟨hyes, -⟩ | hb)
          · exact absurd hyes hitem
          · exact hk.before c p hb
      · cases hstep

end Ranked

end Linking

/-! ## Counting -/

/-- Fewer elements pass the stricter test. -/
theorem countP_lt_countP {p q : α → Bool} {l : List α} {a : α} (ha : a ∈ l) (hq : q a = true)
    (hp : p a ≠ true) (h : ∀ x ∈ l, p x = true → q x = true) : l.countP p < l.countP q := by
  induction l with
  | nil => cases ha
  | cons x l ih =>
      have hle : l.countP p ≤ l.countP q :=
        List.countP_mono_left fun y hy => h y (List.mem_cons_of_mem x hy)
      rw [List.countP_cons, List.countP_cons]
      rcases List.mem_cons.1 ha with rfl | ha
      · rw [if_neg hp, if_pos hq]
        omega
      · have hlt := ih ha fun y hy => h y (List.mem_cons_of_mem x hy)
        have hx := h x List.mem_cons_self
        split <;> split <;> first | omega | (rename_i hpx hqx; exact absurd (hx hpx) hqx)

end Funduq.Lib
