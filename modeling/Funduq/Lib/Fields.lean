import Mathlib.Data.List.Basic

/-!
# Fields joined by a separator

A text of several fields with a separator between them can be taken apart again
as long as at most one field may hold the separator: from the left up to that
field (`cons_inj_left`), from the right down to it (`cons_inj_right`).  A list of
fields none of which holds the separator is determined by its join, if none of
them is empty (`intercalate_inj`).
-/

namespace Funduq.Lib.Fields

variable {α : Type} {sep : α} {x y a b : List α}

/-- The first field does not hold the separator. -/
theorem cons_inj_left (hx : sep ∉ x) (hy : sep ∉ y) (h : x ++ sep :: a = y ++ sep :: b) :
    x = y ∧ a = b := by
  induction x generalizing y with
  | nil =>
      cases y with
      | nil =>
          simp only [List.nil_append, List.cons.injEq, true_and] at h
          exact ⟨rfl, h⟩
      | cons c y =>
          rw [List.nil_append, List.cons_append, List.cons.injEq] at h
          exact absurd (h.1 ▸ List.mem_cons_self) hy
  | cons c x ih =>
      cases y with
      | nil =>
          rw [List.nil_append, List.cons_append, List.cons.injEq] at h
          exact absurd (h.1 ▸ List.mem_cons_self) hx
      | cons d y =>
          simp only [List.cons_append, List.cons.injEq] at h
          obtain ⟨rfl, hrest⟩ := h
          obtain ⟨rfl, hab⟩ := ih (fun hm => hx (List.mem_cons_of_mem _ hm))
            (fun hm => hy (List.mem_cons_of_mem _ hm)) hrest
          exact ⟨rfl, hab⟩

/-- The last field does not hold the separator. -/
theorem cons_inj_right (ha : sep ∉ a) (hb : sep ∉ b) (h : x ++ sep :: a = y ++ sep :: b) :
    x = y ∧ a = b := by
  have hrev : a.reverse ++ sep :: x.reverse = b.reverse ++ sep :: y.reverse := by
    have := congrArg List.reverse h
    simpa using this
  obtain ⟨hab, hxy⟩ := cons_inj_left (fun hm => ha (List.mem_reverse.1 hm))
    (fun hm => hb (List.mem_reverse.1 hm)) hrev
  exact ⟨List.reverse_injective hxy, List.reverse_injective hab⟩

/-- A list of fields is determined by its join. -/
theorem intercalate_inj [BEq α] [LawfulBEq α] {xs ys : List (List α)}
    (hxs : ∀ l ∈ xs, sep ∉ l ∧ l ≠ []) (hys : ∀ l ∈ ys, sep ∉ l ∧ l ≠ [])
    (h : [sep].intercalate xs = [sep].intercalate ys) : xs = ys := by
  -- Only the empty list of fields has an empty join.
  have hempty : ∀ {zs : List (List α)}, (∀ l ∈ zs, sep ∉ l ∧ l ≠ []) →
      [sep].intercalate zs = [] → zs = [] := by
    intro zs hzs hz
    by_contra hne
    have hsplit := List.splitOn_intercalate sep (fun l hl => (hzs l hl).1) hne
    rw [hz, List.splitOn_nil] at hsplit
    exact (hzs [] (hsplit ▸ List.mem_singleton_self _)).2 rfl
  by_cases hx : xs = []
  · rw [hx, List.intercalate_nil] at h
    rw [hx, hempty hys h.symm]
  · by_cases hy : ys = []
    · rw [hy, List.intercalate_nil] at h
      exact absurd (hempty hxs h) hx
    · rw [← List.splitOn_intercalate sep (fun l hl => (hxs l hl).1) hx, h,
        List.splitOn_intercalate sep (fun l hl => (hys l hl).1) hy]

end Funduq.Lib.Fields
