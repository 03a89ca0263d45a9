import Funduq.Lib.Server

/-!
# A request that is not felt

A request that reads and commits nothing is not felt by the others: leave its
statements out of a run, and the world and the other requests come to the same
(`exec_without`).  The request may also turn to something else (`D`), as long as
it stays there; then nothing is said of the world.
-/

namespace Funduq.Lib

variable {σ ω ε α κ η : Type}

/-- The move is a statement of request `i`. -/
def Move.isOf (i : Nat) : Move κ η → Bool
  | .advance j _ => j = i
  | _ => false

/-- The program reads and returns, or comes to something in `D` before it does
anything else. -/
def Prog.SilentUntil (D : List ω → Prog σ ω ε α → Prop) : Prog σ ω ε α → Prop
  | .ret _ => True
  | .raise _ => True
  | .read k => ∀ w, (k w).SilentUntil D
  | p => D [] p

namespace Server

variable {db : Db σ ω} {program : κ → Prog σ ω ε α} {outside : σ → η → Option σ}
  {init : σ → Prop} {i : Nat} {s s' s₁ : Server σ ω ε α κ}

/-- `s'` is what `s` would be, had request `i` not moved. -/
structure Apart (i : Nat) (s s' : Server σ ω ε α κ) : Prop where
  world : s'.world = s.world
  others : ∀ j, j ≠ i → s'.txns[j]? = s.txns[j]?
  length : s'.txns.length = s.txns.length
  idle : ∀ t, s'.txns[i]? = some t → t.held = []

namespace Apart

theorem refl (s : Server σ ω ε α κ) (h : ∀ t, s.txns[i]? = some t → t.held = []) :
    Apart i s s where
  world := rfl
  others _ _ := rfl
  length := rfl
  idle := h

theorem free (h : Apart i s s') {j : Nat} {id : String} (hf : s.free j id = true) :
    s'.free j id = true := by
  rw [free_iff] at hf ⊢
  intro l t hl ht
  by_cases hi : l = i
  · subst hi
    rw [h.idle t ht]
    exact List.not_mem_nil
  · exact hf l t hl ((h.others l hi).symm.trans ht)

theorem setTxn (h : Apart i s s') {j : Nat} (hj : j ≠ i) (t : Txn σ ω ε α κ) {w : σ} :
    Apart i { s.setTxn j t with world := w } { s'.setTxn j t with world := w } where
  world := rfl
  others l hl := by
    show (s'.txns.set j t)[l]? = (s.txns.set j t)[l]?
    rw [List.getElem?_set, List.getElem?_set, h.length, h.others l hl]
  length := by
    show (s'.txns.set j t).length = (s.txns.set j t).length
    rw [List.length_set, List.length_set, h.length]
  idle t' ht' := by
    change (s'.txns.set j t)[i]? = some t' at ht'
    rw [List.getElem?_set_ne hj] at ht'
    exact h.idle t' ht'

/-- Another request takes a statement. -/
theorem advance (h : Apart i s s') {j : Nat} (hj : j ≠ i) {id : String}
    (hadv : s.advance db j id = some s₁) :
    ∃ s₁', s'.advance db j id = some s₁' ∧ Apart i s₁ s₁' := by
  obtain ⟨t, ht⟩ := getElem?_of_advance hadv
  have ht' : s'.txns[j]? = some t := (h.others j hj).trans ht
  have hset : ∀ t₁ : Txn σ ω ε α κ, Apart i (s.setTxn j t₁) (s'.setTxn j t₁) := by
    intro t₁
    obtain ⟨-, hothers, hlength, hidle⟩ := h.setTxn hj t₁ (w := s.world)
    exact ⟨h.world, hothers, hlength, hidle⟩
  obtain ⟨call, prog, started, writes, held⟩ := t
  simp only [Server.advance, ht, Option.bind_some] at hadv
  simp only [Server.advance, ht', Option.bind_some]
  cases prog with
  | ret a =>
      cases hadv
      exact ⟨_, rfl, hset _⟩
  | raise e =>
      cases hadv
      exact ⟨_, rfl, hset _⟩
  | read k =>
      cases hadv
      refine ⟨_, rfl, ?_⟩
      rw [h.world]
      exact hset _
  | write x k =>
      simp only at hadv ⊢
      split at hadv
      · rename_i hfree
        cases hadv
        have hfree' : (db.locks x).all (s'.free j) = true := by
          rw [List.all_eq_true] at hfree ⊢
          exact fun id hid => h.free (hfree id hid)
        rw [if_pos hfree']
        exact ⟨_, rfl, hset _⟩
      · cases hadv
  | mint k =>
      simp only at hadv ⊢
      split at hadv
      · rename_i hfree
        cases hadv
        simp only [Bool.and_eq_true, decide_eq_true_eq] at hfree
        obtain ⟨⟨hun, hfree⟩, hnot⟩ := hfree
        have hfree' : (db.unused s'.world id && s'.free j id && decide (.own id ∉ held)) =
            true := by
          simp only [Bool.and_eq_true, decide_eq_true_eq]
          exact ⟨⟨h.world ▸ hun, h.free hfree⟩, hnot⟩
        rw [if_pos hfree']
        exact ⟨_, rfl, hset _⟩
      · cases hadv
  | enter n k =>
      cases hadv
      exact ⟨_, rfl, hset _⟩
  | commit k =>
      cases hadv
      refine ⟨_, rfl, ?_⟩
      rw [h.world]
      exact h.setTxn hj _

/-- Anything but a statement of the request happens. -/
theorem step (h : Apart i s s') {m : Move κ η} (hm : m.isOf i = false) (hi : i < s.txns.length)
    (hstep : Server.step db program outside s m = some s₁) :
    ∃ s₁', Server.step db program outside s' m = some s₁' ∧ Apart i s₁ s₁' := by
  cases m with
  | call c =>
      cases hstep
      refine ⟨_, rfl, h.world, ?_, ?_, ?_⟩
      · intro j hj
        show (s'.txns ++ [_])[j]? = (s.txns ++ [_])[j]?
        rw [List.getElem?_append, List.getElem?_append, h.length, h.others j hj]
      · show (s'.txns ++ [_]).length = (s.txns ++ [_]).length
        rw [List.length_append, List.length_append, h.length]
      · intro t ht
        change (s'.txns ++ [_])[i]? = some t at ht
        rw [List.getElem?_append_left (by rw [h.length]; exact hi)] at ht
        exact h.idle t ht
  | advance j id => exact h.advance (of_decide_eq_false hm) hstep
  | outside e =>
      obtain ⟨w, hw, rfl⟩ := Option.map_eq_some_iff.1 hstep
      refine ⟨{ s' with world := w }, ?_, rfl, h.others, h.length, h.idle⟩
      show (outside s'.world e).map _ = _
      rw [h.world, hw]
      rfl

/-- The request takes a statement that leaves the world as it is. -/
theorem own (h : Apart i s s') {t : Txn σ ω ε α κ} : Apart i (s.setTxn i t) s' where
  world := h.world
  others j hj := by
    show _ = (s.txns.set i t)[j]?
    rw [List.getElem?_set_ne hj.symm]
    exact h.others j hj
  length := by
    show _ = (s.txns.set i t).length
    rw [List.length_set]
    exact h.length
  idle := h.idle

end Apart

/-- A request that comes in. -/
theorem getElem?_of_call {c : κ}
    (hstep : (system db program outside init).step s (.call c) = some s₁) :
    s₁.txns[s.txns.length]? = some { call := c, prog := program c } := by
  cases hstep
  rw [List.getElem?_append_right (Nat.le_refl _), Nat.sub_self]
  rfl

theorem advance_set {j : Nat} {id : String} (hadv : s.advance db j id = some s₁) :
    ∃ t, s₁.txns = s.txns.set j t := by
  obtain ⟨t, ht⟩ := getElem?_of_advance hadv
  simp only [Server.advance, ht, Option.bind_some] at hadv
  split at hadv
  · cases hadv
    exact ⟨_, rfl⟩
  · cases hadv
    exact ⟨_, rfl⟩
  · cases hadv
    exact ⟨_, rfl⟩
  · split at hadv
    · cases hadv
      exact ⟨_, rfl⟩
    · cases hadv
  · split at hadv
    · cases hadv
      exact ⟨_, rfl⟩
    · cases hadv
  · cases hadv
    exact ⟨_, rfl⟩
  · cases hadv
    exact ⟨_, rfl⟩

/-- What is not a statement of the request leaves it where it is. -/
theorem getElem?_of_other {m : Move κ η} (hm : m.isOf i = false) {t : Txn σ ω ε α κ}
    (ht : s.txns[i]? = some t) (hstep : Server.step db program outside s m = some s₁) :
    s₁.txns[i]? = some t := by
  cases m with
  | call c =>
      cases hstep
      show (s.txns ++ [_])[i]? = some t
      rw [List.getElem?_append_left (lt_of_getElem? ht)]
      exact ht
  | advance j id =>
      obtain ⟨t', hset⟩ := advance_set hstep
      rw [hset, List.getElem?_set_ne (of_decide_eq_false hm)]
      exact ht
  | outside e =>
      obtain ⟨w, -, rfl⟩ := Option.map_eq_some_iff.1 hstep
      exact ht

section Without

variable {C : Server σ ω ε α κ → Move κ η → Prop} {D : List ω → Prog σ ω ε α → Prop}
  (hD : ∀ (s s₁ : Server σ ω ε α κ) t id, s.txns[i]? = some t → D t.writes t.prog →
    C s (.advance i id) → s.advance db i id = some s₁ →
    ∃ t₁, s₁.txns[i]? = some t₁ ∧ D t₁.writes t₁.prog)
include hD

/-- A request in `D` stays there. -/
theorem exec_stays {ms : List (Move κ η)} {t : Txn σ ω ε α κ} (ht : s.txns[i]? = some t)
    (hd : D t.writes t.prog) (hC : (system db program outside init).Along C s ms)
    (hrun : (system db program outside init).exec s ms = some s₁) :
    ∃ t₁, s₁.txns[i]? = some t₁ ∧ D t₁.writes t₁.prog := by
  induction ms generalizing s t with
  | nil =>
      cases hrun
      exact ⟨t, ht, hd⟩
  | cons m ms ih =>
      obtain ⟨u, hu, hrest⟩ := Option.bind_eq_some_iff.1 hrun
      cases hm : m.isOf i with
      | false => exact ih (getElem?_of_other hm ht hu) hd (hC.2 u hu) hrest
      | true =>
          cases m with
          | advance j id =>
              obtain rfl : j = i := of_decide_eq_true hm
              obtain ⟨t', ht', hd'⟩ := hD s u t id ht hd hC.1 hu
              exact ih ht' hd' (hC.2 u hu) hrest
          | _ => cases hm

/-- **A run without the request.**  Either the request comes to `D`, or the run
without its statements comes to the same. -/
theorem exec_without {ms : List (Move κ η)} {t : Txn σ ω ε α κ} (ht : s.txns[i]? = some t)
    (hwrites : t.writes = []) (hsilent : t.prog.SilentUntil D) (hapart : Apart i s s')
    (hC : (system db program outside init).Along C s ms)
    (hrun : (system db program outside init).exec s ms = some s₁) :
    (∃ t₁, s₁.txns[i]? = some t₁ ∧ D t₁.writes t₁.prog) ∨
      ∃ s₂, (system db program outside init).exec s' (ms.filter fun m => !m.isOf i) = some s₂ ∧
        Apart i s₁ s₂ := by
  induction ms generalizing s s' t with
  | nil =>
      cases hrun
      exact .inr ⟨s', rfl, hapart⟩
  | cons m ms ih =>
      have hall := hrun
      obtain ⟨u, hu, hrest⟩ := Option.bind_eq_some_iff.1 hrun
      have hCrest := hC.2 u hu
      cases hm : m.isOf i with
      | false =>
          obtain ⟨u', hu', hapart'⟩ := hapart.step hm (lt_of_getElem? ht) hu
          have hkeep : List.filter (fun m => !m.isOf i) (m :: ms) =
              m :: ms.filter fun m => !m.isOf i := by
            rw [List.filter_cons_of_pos (by rw [hm]; rfl)]
          rcases ih (getElem?_of_other hm ht hu) hwrites hsilent hapart' hCrest hrest with
            h | ⟨s₂, hs₂, h⟩
          · exact .inl h
          · refine .inr ⟨s₂, ?_, h⟩
            rw [hkeep]
            show (Server.step db program outside s' m).bind _ = _
            rw [hu']
            exact hs₂
      | true =>
          cases m with
          | advance j id =>
              obtain rfl : j = i := of_decide_eq_true hm
              have hdrop : List.filter (fun m => !m.isOf j) (Move.advance j id :: ms) =
                  ms.filter fun m => !m.isOf j := by
                rw [List.filter_cons_of_neg (by rw [hm]; exact nofun)]
              rw [hdrop]
              have hget : ∀ t', (s.setTxn j t').txns[j]? = some t' := by
                intro t'
                show (s.txns.set j t')[j]? = some t'
                rw [List.getElem?_set_self (lt_of_getElem? ht)]
              have hstep : s.advance db j id = some u := hu
              obtain ⟨call, prog, started, writes, held⟩ := t
              obtain rfl : writes = [] := hwrites
              simp only [Server.advance, ht, Option.bind_some] at hstep
              cases prog with
              | ret a =>
                  cases hstep
                  refine ih (hget _) rfl ?_ hapart.own hCrest hrest
                  trivial
              | raise e =>
                  cases hstep
                  refine ih (hget _) rfl ?_ hapart.own hCrest hrest
                  trivial
              | read k =>
                  cases hstep
                  exact ih (hget _) rfl (hsilent _) hapart.own hCrest hrest
              | write x k => exact .inl (exec_stays hD ht hsilent hC hall)
              | mint k => exact .inl (exec_stays hD ht hsilent hC hall)
              | enter n k => exact .inl (exec_stays hD ht hsilent hC hall)
              | commit k => exact .inl (exec_stays hD ht hsilent hC hall)
          | _ => cases hm

end Without

end Server

end Funduq.Lib
