import Funduq.Lib.Chains

/-!
# Trees of children

Items that each may name another as their parent.  Where every item's parent is there and
came before it, the children of an item, their children and so on come to an end, and the
tree that is grown from an item holds what descends from it, each once.

Unlike in a chain, several items may have one parent.
-/

namespace Funduq.Lib

inductive RoseTree (β : Type) where
  | node (item : β) (children : List (RoseTree β))

namespace RoseTree

variable {β : Type}

def item : RoseTree β → β
  | node item _ => item

mutual

/-- All items, each before those below it. -/
def items : RoseTree β → List β
  | node item children => item :: itemsOf children

def itemsOf : List (RoseTree β) → List β
  | [] => []
  | t :: ts => t.items ++ itemsOf ts

end

theorem itemsOf_eq (ts : List (RoseTree β)) : itemsOf ts = ts.flatMap items := by
  induction ts with
  | nil => rw [itemsOf, List.flatMap_nil]
  | cons t ts ih => rw [itemsOf, ih, List.flatMap_cons]

end RoseTree

namespace Naming

variable {α ι τ β : Type} (N : Naming α ι τ)

/-- A parent is there and came before. -/
structure Ranks (xs : List α) (rank : ι → Nat) : Prop where
  bound : ∀ a ∈ xs, rank (N.id a) < xs.length
  parent : ∀ a ∈ xs, ∀ p, N.parent a = some p → ∃ b ∈ xs, N.id b = p ∧ rank p < rank (N.id a)

/-- The items stand in trees. -/
structure Rooted (xs : List α) : Prop where
  ids : (xs.map N.id).Nodup
  ranked : ∃ rank : ι → Nat, N.Ranks xs rank

section Growing

variable [DecidableEq ι] (f : α → β) (xs : List α)

def childrenOf (a : α) : List α := xs.filter fun b => N.parent b = some (N.id a)

/-- The tree of an item, to a depth. -/
def grow : Nat → α → RoseTree β
  | 0, a => .node (f a) []
  | n + 1, a => .node (f a) ((N.childrenOf xs a).map (grow n))

/-- What descends from an item, to a depth. -/
def below : Nat → α → List α
  | 0, a => [a]
  | n + 1, a => a :: (N.childrenOf xs a).flatMap (below n)

theorem mem_childrenOf {xs : List α} {a b : α} : b ∈ N.childrenOf xs a ↔ N.Child xs a b := by
  simp [childrenOf, Child]

theorem item_grow (n : Nat) (a : α) : (N.grow f xs n a).item = f a := by
  cases n <;> rfl

theorem items_grow (n : Nat) (a : α) : (N.grow f xs n a).items = (N.below xs n a).map f := by
  induction n generalizing a with
  | zero => rfl
  | succ n ih =>
      have hitems : (N.grow f xs (n + 1) a).items =
          f a :: RoseTree.itemsOf ((N.childrenOf xs a).map (N.grow f xs n)) := rfl
      have hbelow : N.below xs (n + 1) a = a :: (N.childrenOf xs a).flatMap (N.below xs n) := rfl
      rw [hitems, hbelow, RoseTree.itemsOf_eq, List.flatMap_map, List.map_cons, List.map_flatMap]
      simp only [ih]

end Growing

/-! ## Building them -/

variable {N} {xs : List α} {a b c c' x : α} {rank : ι → Nat}

theorem Rooted.nil : N.Rooted [] where
  ids := List.nodup_nil
  ranked := ⟨fun _ => 0, ⟨fun a ha => absurd ha List.not_mem_nil,
    fun a ha => absurd ha List.not_mem_nil⟩⟩

/-- One more item, with a new id and a parent that is there. -/
theorem Rooted.concat (h : N.Rooted xs) (hnew : ∀ b ∈ xs, N.id b ≠ N.id a)
    (hparent : ∀ p, N.parent a = some p → ∃ b ∈ xs, N.id b = p) : N.Rooted (xs ++ [a]) := by
  refine ⟨ids_concat h.ids hnew, ?_⟩
  have hranked : ∃ rank : ι → Nat, (∀ b ∈ xs, rank (N.id b) < xs.length) ∧
      ∀ b ∈ xs, ∀ p, N.parent b = some p →
        ∃ c ∈ xs, N.id c = p ∧ True ∧ rank p < rank (N.id b) := by
    obtain ⟨rank, hrank⟩ := h.ranked
    refine ⟨rank, hrank.bound, fun b hb p hp => ?_⟩
    obtain ⟨c, hc, hid, hlt⟩ := hrank.parent b hb p hp
    exact ⟨c, hc, hid, trivial, hlt⟩
  obtain ⟨rank, hbound, hrank⟩ := ranked_concat (Q := fun _ _ => True) hnew hranked fun p hp => by
    obtain ⟨c, hc, hid⟩ := hparent p hp
    exact ⟨c, hc, hid, trivial⟩
  refine ⟨rank, hbound, fun b hb p hp => ?_⟩
  obtain ⟨c, hc, hid, -, hlt⟩ := hrank b hb p hp
  exact ⟨c, hc, hid, hlt⟩

/-! ## What stands in them -/

theorem mem_of_descends (ha : a ∈ xs) (h : Relation.ReflTransGen (N.Child xs) a b) : b ∈ xs := by
  induction h with
  | refl => exact ha
  | tail _ hchild _ => exact hchild.1

namespace Ranks

variable (h : N.Ranks xs rank)
include h

theorem child_lt (hchild : N.Child xs a b) : rank (N.id a) < rank (N.id b) := by
  obtain ⟨c, -, -, hlt⟩ := h.parent b hchild.1 _ hchild.2
  exact hlt

theorem descends_le (hdesc : Relation.ReflTransGen (N.Child xs) a b) :
    rank (N.id a) ≤ rank (N.id b) := by
  induction hdesc with
  | refl => exact Nat.le_refl _
  | tail _ hchild ih => exact Nat.le_trans ih (Nat.le_of_lt (h.child_lt hchild))

/-- What descends from a child of an item does not descend from another child of it. -/
theorem child_eq (hids : (xs.map N.id).Nodup) (hc : N.Child xs a c) (hc' : N.Child xs a c')
    (hx : Relation.ReflTransGen (N.Child xs) c x)
    (hx' : Relation.ReflTransGen (N.Child xs) c' x) : c = c' := by
  -- Nothing that descends from a child is the parent of one.
  have hnot : ∀ {d d' y}, N.Child xs a d → N.Child xs a d' →
      Relation.ReflTransGen (N.Child xs) d y → ¬ N.Child xs y d' := by
    intro d d' y hd hd' hdesc hy
    have hid : N.id y = N.id a := Option.some.inj (hy.2.symm.trans hd'.2)
    have hle := h.descends_le hdesc
    rw [hid] at hle
    exact absurd (h.child_lt hd) (Nat.not_lt.2 hle)
  induction hx with
  | refl =>
      rcases Relation.ReflTransGen.cases_tail hx' with heq | ⟨y, hy, hchild⟩
      · exact heq
      · exact absurd hchild (hnot hc' hc hy)
  | @tail y x hy hchild ih =>
      rcases Relation.ReflTransGen.cases_tail hx' with rfl | ⟨y', hy', hchild'⟩
      · exact absurd hchild (hnot hc hc' hy)
      · have hid : N.id y = N.id y' := Option.some.inj (hchild.2.symm.trans hchild'.2)
        have heq : y = y' := List.inj_on_of_nodup_map hids (mem_of_descends hc.1 hy)
          (mem_of_descends hc'.1 hy') hid
        exact ih (heq ▸ hy')

variable [DecidableEq ι] {n : Nat}

theorem childrenOf_eq_nil (hn : xs.length ≤ 1 + rank (N.id a)) : N.childrenOf xs a = [] := by
  refine List.eq_nil_iff_forall_not_mem.2 fun c hc => ?_
  have hchild := N.mem_childrenOf.1 hc
  have hlt := h.child_lt hchild
  have hbound := h.bound c hchild.1
  omega

/-- At its depth the tree of an item has come to its end. -/
theorem grow_eq (f : α → β) {m : Nat} (hn : xs.length ≤ n + 1 + rank (N.id a)) (hm : n ≤ m) :
    N.grow f xs m a = N.grow f xs n a := by
  induction n generalizing a m with
  | zero =>
      cases m with
      | zero => rfl
      | succ m =>
          show RoseTree.node (f a) ((N.childrenOf xs a).map (N.grow f xs m)) = .node (f a) []
          rw [h.childrenOf_eq_nil (by omega), List.map_nil]
  | succ n ih =>
      obtain ⟨m, rfl⟩ := Nat.exists_eq_add_of_le' (Nat.lt_of_lt_of_le n.succ_pos hm)
      show RoseTree.node (f a) ((N.childrenOf xs a).map (N.grow f xs m)) =
        .node (f a) ((N.childrenOf xs a).map (N.grow f xs n))
      refine congrArg (RoseTree.node (f a)) (List.map_congr_left fun c hc => ?_)
      have hlt := h.child_lt (N.mem_childrenOf.1 hc)
      exact ih (by omega) (by omega)

omit h in
theorem descends_of_mem_below (hb : b ∈ N.below xs n a) :
    Relation.ReflTransGen (N.Child xs) a b := by
  induction n generalizing a with
  | zero =>
      rw [List.mem_singleton.1 hb]
  | succ n ih =>
      rcases List.mem_cons.1 hb with rfl | hb
      · exact .refl
      · obtain ⟨c, hc, hb⟩ := List.mem_flatMap.1 hb
        exact .head (N.mem_childrenOf.1 hc) (ih hb)

/-- To its depth, the tree of an item holds what descends from it. -/
theorem mem_below (hn : xs.length ≤ n + 1 + rank (N.id a)) :
    b ∈ N.below xs n a ↔ Relation.ReflTransGen (N.Child xs) a b := by
  refine ⟨descends_of_mem_below, fun hdesc => ?_⟩
  induction hdesc using Relation.ReflTransGen.head_induction_on generalizing n with
  | refl => cases n <;> exact List.mem_cons_self
  | @head a c hchild _ ih =>
      have hlt := h.child_lt hchild
      have hbound := h.bound c hchild.1
      cases n with
      | zero => omega
      | succ n =>
          refine List.mem_cons_of_mem _ (List.mem_flatMap.2 ⟨c, N.mem_childrenOf.2 hchild, ?_⟩)
          exact ih (by omega)

/-- And each once. -/
theorem nodup_below (hids : (xs.map N.id).Nodup) : (N.below xs n a).Nodup := by
  induction n generalizing a with
  | zero => exact List.nodup_singleton _
  | succ n ih =>
      refine List.nodup_cons.2 ⟨fun hmem => ?_, List.nodup_flatMap.2 ⟨fun c _ => ih, ?_⟩⟩
      · obtain ⟨c, hc, hmem⟩ := List.mem_flatMap.1 hmem
        have hle := h.descends_le (descends_of_mem_below hmem)
        exact absurd (h.child_lt (N.mem_childrenOf.1 hc)) (Nat.not_lt.2 hle)
      · have hnodup : (N.childrenOf xs a).Nodup := hids.of_map.filter _
        refine hnodup.imp_of_mem fun {c c'} hc hc' hne => ?_
        intro x hx hx'
        exact hne (h.child_eq hids (N.mem_childrenOf.1 hc) (N.mem_childrenOf.1 hc')
          (descends_of_mem_below hx) (descends_of_mem_below hx'))

end Ranks

end Naming

end Funduq.Lib
