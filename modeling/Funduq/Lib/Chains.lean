import Mathlib.Data.List.Nodup
import Mathlib.Logic.Relation

/-!
# Chains of successors

Items that each may name another as their parent.  Where every item's parent is there,
came before it, is of the same group and is nobody else's parent, the items fall into
chains: each starts with an item without a parent, and goes on to the end from child to
child.  Every item stands in one chain, once.
-/

namespace Funduq.Lib

/-- How items name each other. -/
structure Naming (α ι τ : Type) where
  id : α → ι
  parent : α → Option ι
  group : α → τ

namespace Naming

variable {α ι τ : Type} (N : Naming α ι τ)

/-- `b` is a child of `a`. -/
def Child (xs : List α) (a b : α) : Prop := b ∈ xs ∧ N.parent b = some (N.id a)

/-- The chain from an item on, to its end. -/
inductive Down (xs : List α) : α → List α → Prop where
  | last {a : α} (h : ∀ b, ¬ N.Child xs a b) : Down xs a [a]
  | step {a b : α} {l : List α} (hb : N.Child xs a b) (h : Down xs b l) : Down xs a (a :: l)

/-- The items fall into chains. -/
structure Chained (xs : List α) : Prop where
  ids : (xs.map N.id).Nodup
  /-- No two items have one parent. -/
  single : ∀ a ∈ xs, ∀ b ∈ xs, ∀ p, N.parent a = some p → N.parent b = some p → a = b
  /-- A parent is there, in the group, and came first. -/
  ranked : ∃ rank : ι → Nat, (∀ a ∈ xs, rank (N.id a) < xs.length) ∧
    ∀ a ∈ xs, ∀ p, N.parent a = some p →
      ∃ b ∈ xs, N.id b = p ∧ N.group b = N.group a ∧ rank p < rank (N.id a)

variable {N} {xs : List α} {a b r r' : α} {l l' : List α}

/-! ## Building them -/

theorem Chained.nil : N.Chained [] :=
  ⟨List.nodup_nil, nofun, fun _ => 0, nofun, nofun⟩

/-- One more item comes after all that are there, and so after its parent. -/
theorem ranked_concat {Q : α → α → Prop} (hnew : ∀ b ∈ xs, N.id b ≠ N.id a)
    (hranked : ∃ rank : ι → Nat, (∀ b ∈ xs, rank (N.id b) < xs.length) ∧
      ∀ b ∈ xs, ∀ p, N.parent b = some p → ∃ c ∈ xs, N.id c = p ∧ Q c b ∧ rank p < rank (N.id b))
    (hparent : ∀ p, N.parent a = some p → ∃ c ∈ xs, N.id c = p ∧ Q c a) :
    ∃ rank : ι → Nat, (∀ b ∈ xs ++ [a], rank (N.id b) < (xs ++ [a]).length) ∧
      ∀ b ∈ xs ++ [a], ∀ p, N.parent b = some p →
        ∃ c ∈ xs ++ [a], N.id c = p ∧ Q c b ∧ rank p < rank (N.id b) := by
  classical
  obtain ⟨rank, hbound, hrank⟩ := hranked
  refine ⟨fun i => if i = N.id a then xs.length else rank i, ?_, ?_⟩
  · intro b hb
    rw [List.length_append, List.length_singleton]
    rcases List.mem_append.1 hb with hb | hb
    · dsimp only
      rw [if_neg (hnew b hb)]
      have := hbound b hb
      omega
    · rw [List.mem_singleton.1 hb]
      dsimp only
      rw [if_pos rfl]
      omega
  · intro b hb p hbp
    rcases List.mem_append.1 hb with hb | hb
    · obtain ⟨c, hc, rfl, hcb, hlt⟩ := hrank b hb p hbp
      refine ⟨c, List.mem_append_left _ hc, rfl, hcb, ?_⟩
      dsimp only
      rw [if_neg (hnew b hb), if_neg (hnew c hc)]
      exact hlt
    · rw [List.mem_singleton.1 hb] at hbp ⊢
      obtain ⟨c, hc, rfl, hca⟩ := hparent p hbp
      refine ⟨c, List.mem_append_left _ hc, rfl, hca, ?_⟩
      dsimp only
      rw [if_neg (hnew c hc), if_pos rfl]
      exact hbound c hc

theorem ids_concat (hids : (xs.map N.id).Nodup) (hnew : ∀ b ∈ xs, N.id b ≠ N.id a) :
    ((xs ++ [a]).map N.id).Nodup := by
  rw [List.map_append, List.nodup_append']
  refine ⟨hids, List.nodup_singleton _, ?_⟩
  intro i hi hmem
  obtain ⟨b, hb, rfl⟩ := List.mem_map.1 hi
  exact hnew b hb (List.mem_singleton.1 hmem)

/-- One more item, with a new id: the first of a chain, or the next of one. -/
theorem Chained.concat (h : N.Chained xs) (hnew : ∀ b ∈ xs, N.id b ≠ N.id a)
    (hparent : ∀ p, N.parent a = some p → (∃ b ∈ xs, N.id b = p ∧ N.group b = N.group a) ∧
      ∀ b ∈ xs, N.parent b ≠ some p) : N.Chained (xs ++ [a]) := by
  refine ⟨ids_concat h.ids hnew, ?_,
    ranked_concat (Q := fun b a => N.group b = N.group a) hnew h.ranked fun p hp =>
      (hparent p hp).1⟩
  intro b hb c hc p hbp hcp
  rcases List.mem_append.1 hb with hb | hb
  · rcases List.mem_append.1 hc with hc | hc
    · exact h.single b hb c hc p hbp hcp
    · rw [List.mem_singleton.1 hc] at hcp
      exact absurd hbp ((hparent p hcp).2 b hb)
  · rw [List.mem_singleton.1 hb] at hbp ⊢
    rcases List.mem_append.1 hc with hc | hc
    · exact absurd hcp ((hparent p hbp).2 c hc)
    · exact (List.mem_singleton.1 hc).symm

/-- Changing items but not how they name each other. -/
theorem Chained.map {f : α → α} (h : N.Chained xs) (hid : ∀ a, N.id (f a) = N.id a)
    (hparent : ∀ a, N.parent (f a) = N.parent a) (hgroup : ∀ a, N.group (f a) = N.group a) :
    N.Chained (xs.map f) := by
  obtain ⟨rank, hbound, hrank⟩ := h.ranked
  refine ⟨?_, ?_, rank, ?_, ?_⟩
  · rw [List.map_map, show N.id ∘ f = N.id from funext hid]
    exact h.ids
  · intro x hx y hy p hxp hyp
    obtain ⟨a, ha, rfl⟩ := List.mem_map.1 hx
    obtain ⟨b, hb, rfl⟩ := List.mem_map.1 hy
    rw [hparent] at hxp hyp
    rw [h.single a ha b hb p hxp hyp]
  · intro x hx
    obtain ⟨a, ha, rfl⟩ := List.mem_map.1 hx
    rw [hid, List.length_map]
    exact hbound a ha
  · intro x hx p hxp
    obtain ⟨a, ha, rfl⟩ := List.mem_map.1 hx
    rw [hparent] at hxp
    obtain ⟨b, hb, hbp, hgroups, hlt⟩ := hrank a ha p hxp
    refine ⟨f b, List.mem_map_of_mem hb, (hid b).trans hbp, ?_, ?_⟩
    · rw [hgroup, hgroup, hgroups]
    · rw [hid]
      exact hlt

/-! ## Following them -/

theorem Down.head (h : N.Down xs a l) : ∃ t, l = a :: t := by
  cases h with
  | last _ => exact ⟨[], rfl⟩
  | step _ _ => exact ⟨_, rfl⟩

theorem Down.mem_self (h : N.Down xs a l) : a ∈ l := by
  obtain ⟨t, rfl⟩ := h.head
  exact List.mem_cons_self

theorem Down.mem (h : N.Down xs a l) (ha : a ∈ xs) : ∀ b ∈ l, b ∈ xs := by
  induction h with
  | last _ =>
      intro b hb
      rw [List.mem_singleton.1 hb]
      exact ha
  | step hb _ ih =>
      intro c hc
      rcases List.mem_cons.1 hc with rfl | hc
      · exact ha
      · exact ih hb.1 c hc

/-- What stands in a chain descends from its first. -/
theorem Down.descends (h : N.Down xs a l) : ∀ b ∈ l, Relation.ReflTransGen (N.Child xs) a b := by
  induction h with
  | last _ =>
      intro b hb
      rw [List.mem_singleton.1 hb]
  | step hb _ ih =>
      intro c hc
      rcases List.mem_cons.1 hc with rfl | hc
      · exact .refl
      · exact .head hb (ih c hc)

namespace Chained

variable (h : N.Chained xs)
include h

theorem eq_of_id (ha : a ∈ xs) (hb : b ∈ xs) (hid : N.id a = N.id b) : a = b :=
  List.inj_on_of_nodup_map h.ids ha hb hid

/-- There is one child at most. -/
theorem child_unique {c : α} (hb : N.Child xs a b) (hc : N.Child xs a c) : b = c :=
  h.single b hb.1 c hc.1 _ hb.2 hc.2

/-- Every item starts a chain. -/
theorem down_exists (ha : a ∈ xs) : ∃ l, N.Down xs a l := by
  obtain ⟨rank, hbound, hrank⟩ := h.ranked
  -- The rank goes up from child to child, and there is a bound to it.
  generalize hn : xs.length - rank (N.id a) = n
  induction n using Nat.strongRecOn generalizing a with
  | ind n ih =>
      by_cases hchild : ∃ b, N.Child xs a b
      · obtain ⟨b, hb⟩ := hchild
        obtain ⟨c, -, hid, -, hlt⟩ := hrank b hb.1 _ hb.2
        have hlength := hbound b hb.1
        obtain ⟨l, hl⟩ := ih (xs.length - rank (N.id b)) (by omega) hb.1 rfl
        exact ⟨a :: l, .step hb hl⟩
      · exact ⟨[a], .last fun b hb => hchild ⟨b, hb⟩⟩

theorem down_unique (hl : N.Down xs a l) (hl' : N.Down xs a l') : l = l' := by
  induction hl generalizing l' with
  | last hnone =>
      cases hl' with
      | last _ => rfl
      | step hb _ => exact absurd hb (hnone _)
  | step hb _ ih =>
      cases hl' with
      | last hnone => exact absurd hb (hnone _)
      | step hc hrest =>
          cases h.child_unique hb hc
          rw [ih hrest]

theorem down_group (hl : N.Down xs a l) (ha : a ∈ xs) : ∀ b ∈ l, N.group b = N.group a := by
  obtain ⟨rank, -, hrank⟩ := h.ranked
  induction hl with
  | last _ =>
      intro b hb
      rw [List.mem_singleton.1 hb]
  | @step a b l hb _ ih =>
      intro c hc
      obtain ⟨p, hp, hid, hgroup, -⟩ := hrank b hb.1 _ hb.2
      cases h.eq_of_id hp ha hid
      rcases List.mem_cons.1 hc with rfl | hc
      · rfl
      · rw [ih hb.1 c hc, hgroup]

omit h in
/-- Along a chain the rank goes up: nothing stands in it twice, and a parent stands
before its child. -/
theorem down_rank {rank : ι → Nat} (hrank : ∀ a ∈ xs, ∀ p, N.parent a = some p →
      ∃ b ∈ xs, N.id b = p ∧ N.group b = N.group a ∧ rank p < rank (N.id a))
    (hl : N.Down xs a l) : l.Pairwise fun b c => rank (N.id b) < rank (N.id c) := by
  have hall : ∀ {a : α} {l : List α}, N.Down xs a l → ∀ b ∈ l, rank (N.id a) ≤ rank (N.id b) := by
    intro a l hl
    induction hl with
    | last _ =>
        intro b hb
        exact Nat.le_of_eq (by rw [List.mem_singleton.1 hb])
    | step hb _ ih =>
        intro c hc
        obtain ⟨p, -, -, -, hlt⟩ := hrank _ hb.1 _ hb.2
        rcases List.mem_cons.1 hc with rfl | hc
        · exact Nat.le_refl _
        · have := ih c hc
          omega
  induction hl with
  | last _ => exact List.pairwise_singleton _ _
  | step hb hrest ih =>
      refine List.pairwise_cons.2 ⟨fun c hc => ?_, ih⟩
      obtain ⟨p, -, -, -, hlt⟩ := hrank _ hb.1 _ hb.2
      have := hall hrest c hc
      omega

theorem down_nodup (hl : N.Down xs a l) : (l.map N.id).Nodup := by
  obtain ⟨rank, -, hrank⟩ := h.ranked
  have hpair := down_rank hrank hl
  refine List.pairwise_map.2 (hpair.imp fun hlt heq => ?_)
  rw [heq] at hlt
  exact absurd hlt (Nat.lt_irrefl _)

/-- A parent stands before its child. -/
theorem down_parent_first (hl : N.Down xs a l) (ha : a ∈ xs) {pre post : List α} {c p : α}
    (hsplit : l = pre ++ c :: post) (hp : p ∈ l) (hparent : N.parent c = some (N.id p)) :
    p ∈ pre := by
  obtain ⟨rank, -, hrank⟩ := h.ranked
  have hc : c ∈ xs := hl.mem ha c (by rw [hsplit]; simp)
  obtain ⟨-, -, -, -, hlt⟩ := hrank c hc _ hparent
  have hpair := down_rank hrank hl
  rw [hsplit] at hpair hp
  rcases List.mem_append.1 hp with hp | hp
  · exact hp
  · have hle : rank (N.id c) ≤ rank (N.id p) := by
      rcases List.mem_cons.1 hp with rfl | hp
      · exact Nat.le_refl _
      · have := (List.pairwise_cons.1 (List.pairwise_append.1 hpair).2.1).1 p hp
        omega
    omega

/-- The child of an item in a chain stands in it. -/
theorem down_child (hl : N.Down xs a l) : ∀ b ∈ l, ∀ c, N.Child xs b c → c ∈ l := by
  induction hl with
  | last hnone =>
      intro b hb c hc
      rw [List.mem_singleton.1 hb] at hc
      exact absurd hc (hnone c)
  | step hb hrest ih =>
      intro b' hb' c hc
      rcases List.mem_cons.1 hb' with rfl | hb'
      · rw [h.child_unique hc hb]
        exact List.mem_cons_of_mem _ hrest.mem_self
      · exact List.mem_cons_of_mem _ (ih b' hb' c hc)

/-- A chain is all that descends from its first. -/
theorem mem_down_iff (hl : N.Down xs a l) :
    b ∈ l ↔ Relation.ReflTransGen (N.Child xs) a b := by
  refine ⟨hl.descends b, fun hdesc => ?_⟩
  induction hdesc with
  | refl => exact hl.mem_self
  | tail _ hchild ih => exact h.down_child hl _ ih _ hchild

/-- Every item stands in the chain of one that has no parent. -/
theorem root_exists (ha : a ∈ xs) :
    ∃ r ∈ xs, N.parent r = none ∧ N.group r = N.group a ∧
      Relation.ReflTransGen (N.Child xs) r a := by
  obtain ⟨rank, hbound, hrank⟩ := h.ranked
  generalize hn : rank (N.id a) = n
  induction n using Nat.strongRecOn generalizing a with
  | ind n ih =>
      cases hparent : N.parent a with
      | none => exact ⟨a, ha, hparent, rfl, .refl⟩
      | some p =>
          obtain ⟨b, hb, rfl, hgroup, hlt⟩ := hrank a ha p hparent
          obtain ⟨r, hr, hroot, hgroup', hdesc⟩ := ih (rank (N.id b)) (by omega) hb rfl
          exact ⟨r, hr, hroot, hgroup'.trans hgroup, hdesc.tail ⟨ha, hparent⟩⟩

/-- And of one only. -/
theorem root_unique (hr : r ∈ xs) (hroot : N.parent r = none) (hr' : r' ∈ xs)
    (hroot' : N.parent r' = none) (hd : Relation.ReflTransGen (N.Child xs) r a)
    (hd' : Relation.ReflTransGen (N.Child xs) r' a) : r = r' := by
  induction hd with
  | refl =>
      cases Relation.ReflTransGen.cases_tail hd' with
      | inl heq => exact heq
      | inr hlast =>
          obtain ⟨b, -, hchild⟩ := hlast
          cases hroot.symm.trans hchild.2
  | @tail b c hrb hbc ih =>
      rcases Relation.ReflTransGen.cases_tail hd' with heq | ⟨b', hrb', hbc'⟩
      · rw [heq] at hbc
        cases hroot'.symm.trans hbc.2
      · have hmem : ∀ {r b : α}, r ∈ xs → Relation.ReflTransGen (N.Child xs) r b → b ∈ xs := by
          intro r b hr hd
          rcases Relation.ReflTransGen.cases_tail hd with rfl | ⟨_, _, hchild⟩
          · exact hr
          · exact hchild.1
        have hid : N.id b = N.id b' := Option.some.inj (hbc.2.symm.trans hbc'.2)
        cases h.eq_of_id (hmem hr hrb) (hmem hr' hrb') hid
        exact ih hrb'

end Chained

end Naming

end Funduq.Lib
