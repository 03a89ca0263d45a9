import Mathlib.Data.List.Induction
import Funduq.Lib.Dict

/-!
# Texts told in pieces

A text may arrive in pieces, each under the key of the text it is a piece of.  A
list of pieces says under each key the pieces of that key, joined; a key no piece
has is not spoken of at all, which is not the same as the empty text.

Whoever hears the pieces one by one keeps a dictionary and extends it.  What the
dictionary holds is what the list says (`get?_foldl_extend`), and so is what is
gathered from the list at once (`get?_merged`).  Two hearers who heard the same
but for some pieces in the middle have the same texts exactly when these pieces
are empty and their keys are spoken of elsewhere (`said_insert_iff`).
-/

namespace Funduq.Lib.Texts

variable {κ : Type} [DecidableEq κ]

/-- The pieces under `k`, in order. -/
def under (k : κ) (pieces : List (κ × String)) : List String :=
  (pieces.filter fun p => p.1 = k).map Prod.snd

/-- The text under `k`, `none` where no piece has this key. -/
def said (k : κ) (pieces : List (κ × String)) : Option String :=
  match under k pieces with
  | [] => none
  | texts => some (String.join texts)

/-- One more piece of the text under `k`. -/
def extend (d : Dict κ String) (p : κ × String) : Dict κ String :=
  d.set p.1 ((d.get? p.1).getD "" ++ p.2)

/-- The pieces by key, each key where it first stands. -/
def gathered (pieces : List (κ × String)) : Dict κ (List String) :=
  pieces.foldl (fun d p => d.set p.1 ((d.get? p.1).getD [] ++ [p.2])) []

/-- The texts gathered from the pieces. -/
def merged (pieces : List (κ × String)) : Dict κ String :=
  (gathered pieces).map fun e => (e.1, String.join e.2)

variable {k : κ} {ps qs rs : List (κ × String)} {d : Dict κ String}

@[simp] theorem under_nil : under k ([] : List (κ × String)) = [] := rfl

theorem under_append : under k (ps ++ qs) = under k ps ++ under k qs := by
  unfold under
  rw [List.filter_append, List.map_append]

theorem under_singleton (p : κ × String) : under k [p] = if p.1 = k then [p.2] else [] := by
  by_cases h : p.1 = k <;> simp [under, h]

theorem under_eq_nil_iff : under k ps = [] ↔ ∀ p ∈ ps, p.1 ≠ k := by
  simp [under, List.filter_eq_nil_iff]

theorem said_eq_none_iff : said k ps = none ↔ ∀ p ∈ ps, p.1 ≠ k := by
  rw [← under_eq_nil_iff]
  unfold said
  split
  · simp [*]
  · rename_i h
    simp only [reduceCtorEq, false_iff]
    exact h

theorem said_of_under (h : under k ps ≠ []) : said k ps = some (String.join (under k ps)) := by
  unfold said
  split
  · rename_i hnil
    exact absurd hnil h
  · rfl

/-- Where a key is spoken of or not, the pieces under it joined. -/
theorem said_getD : (said k ps).getD "" = String.join (under k ps) := by
  by_cases h : under k ps = []
  · rw [said_eq_none_iff.2 (under_eq_nil_iff.1 h), h]
    rfl
  · rw [said_of_under h]
    rfl

theorem said_congr (h : under k ps = under k qs) : said k ps = said k qs := by
  unfold said
  rw [h]

theorem said_concat (p : κ × String) :
    said k (ps ++ [p]) = if p.1 = k then some ((said k ps).getD "" ++ p.2) else said k ps := by
  by_cases h : p.1 = k
  · have hunder : under k (ps ++ [p]) = under k ps ++ [p.2] := by
      rw [under_append, under_singleton, if_pos h]
    have hne : under k (ps ++ [p]) ≠ [] := by
      rw [hunder]
      simp
    rw [if_pos h, said_of_under hne, hunder, said_getD, String.join_append]
    simp [String.join]
  · rw [if_neg h]
    apply said_congr
    rw [under_append, under_singleton, if_neg h, List.append_nil]

/-! ## Hearing and gathering -/

/-- One more piece heard is one more piece said. -/
theorem get?_extend (h : ∀ k, d.get? k = said k ps) (p : κ × String) :
    (extend d p).get? k = said k (ps ++ [p]) := by
  rw [extend, Dict.get?_set, said_concat, h, h]
  by_cases hk : p.1 = k
  · rw [if_pos hk, if_pos hk, hk]
  · rw [if_neg hk, if_neg hk]

theorem get?_foldl_extend (h : ∀ k, d.get? k = said k ps) :
    (qs.foldl extend d).get? k = said k (ps ++ qs) := by
  induction qs generalizing d ps with
  | nil => rw [List.foldl_nil, List.append_nil, h]
  | cons q qs ih =>
      rw [List.foldl_cons, ih fun k => get?_extend h q, List.append_assoc]
      rfl

theorem get?_map_snd {ν ν' : Type} (f : ν → ν') (d : Dict κ ν) :
    Dict.get? (d.map fun e => (e.1, f e.2)) k = (d.get? k).map f := by
  induction d with
  | nil => rfl
  | cons e d ih =>
      by_cases h : e.1 = k
      · simp [Dict.get?, h]
      · simp only [List.map_cons, Dict.get?, h, if_false]
        exact ih

/-- What is gathered under a key is what stands under it. -/
theorem get?_gathered :
    (gathered ps).get? k = if under k ps = [] then none else some (under k ps) := by
  induction ps using List.reverseRecOn with
  | nil => rfl
  | append_singleton ps p ih =>
      have hstep : gathered (ps ++ [p]) =
          (gathered ps).set p.1 (((gathered ps).get? p.1).getD [] ++ [p.2]) := by
        unfold gathered
        rw [List.foldl_append]
        rfl
      rw [hstep, Dict.get?_set, under_append, under_singleton]
      by_cases h : p.1 = k
      · have hgot : ((gathered ps).get? p.1).getD [] = under k ps := by
          rw [h, ih]
          split
          · simp [*]
          · rfl
        rw [if_pos h, if_pos h, hgot, if_neg (by simp)]
      · rw [if_neg h, if_neg h, List.append_nil]
        exact ih

theorem get?_merged : (merged ps).get? k = said k ps := by
  unfold merged
  rw [get?_map_snd, get?_gathered]
  by_cases h : under k ps = []
  · rw [if_pos h, said_eq_none_iff.2 (under_eq_nil_iff.1 h)]
    rfl
  · rw [if_neg h, said_of_under h]
    rfl

/-! ## Pieces left out, or heard twice -/

theorem join_eq_empty_iff {texts : List String} : String.join texts = "" ↔ ∀ t ∈ texts, t = "" := by
  induction texts with
  | nil => simp
  | cons t texts ih =>
      rw [String.join_cons, String.append_eq_empty_iff, ih]
      simp

/-- Text put between two texts does not show only where it is empty. -/
theorem append_middle_eq_iff {a b c : String} : a ++ b ++ c = a ++ c ↔ b = "" := by
  constructor
  · intro h
    have hlen := congrArg String.length h
    simp only [String.length_append] at hlen
    rw [← String.length_eq_zero_iff]
    omega
  · rintro rfl
    rw [String.append_empty]

/-- **Pieces in the middle** do not show exactly when they are empty and their keys
are spoken of without them. -/
theorem said_insert_iff : (∀ k, said k (ps ++ qs ++ rs) = said k (ps ++ rs)) ↔
    ∀ q ∈ qs, q.2 = "" ∧ ∃ p ∈ ps ++ rs, p.1 = q.1 := by
  constructor
  · intro h q hq
    have hk := h q.1
    have hspoken : said q.1 (ps ++ qs ++ rs) ≠ none := by
      intro hnone
      exact said_eq_none_iff.1 hnone q
        (List.mem_append_left _ (List.mem_append_right _ hq)) rfl
    have hwithout : ∃ p ∈ ps ++ rs, p.1 = q.1 := by
      by_contra hno
      apply hspoken
      rw [hk, said_eq_none_iff]
      exact fun p hp hpk => hno ⟨p, hp, hpk⟩
    refine ⟨?_, hwithout⟩
    have hjoin := congrArg (fun o => o.getD "") hk
    simp only [said_getD, under_append, String.join_append] at hjoin
    rw [append_middle_eq_iff, join_eq_empty_iff] at hjoin
    exact hjoin q.2 (List.mem_map.2 ⟨q, List.mem_filter.2 ⟨hq, decide_eq_true rfl⟩, rfl⟩)
  · intro h k
    by_cases hk : under k qs = []
    · apply said_congr
      simp only [under_append, hk, List.append_nil]
    · -- The key is spoken of on both sides, with the same text.
      have hempty : String.join (under k qs) = "" := by
        rw [join_eq_empty_iff]
        intro t ht
        obtain ⟨q, hq, rfl⟩ := List.mem_map.1 ht
        exact (h q (List.mem_of_mem_filter hq)).1
      obtain ⟨q, hq, rfl⟩ : ∃ q ∈ qs, q.1 = k := by
        by_contra hno
        exact hk (under_eq_nil_iff.2 fun q hq hqk => hno ⟨q, hq, hqk⟩)
      obtain ⟨-, p, hp, hpq⟩ := h q hq
      have hright : under q.1 (ps ++ rs) ≠ [] := fun hnil => under_eq_nil_iff.1 hnil p hp hpq
      have hleft : under q.1 (ps ++ qs ++ rs) ≠ [] := by
        intro hnil
        apply hk
        rw [under_append, under_append] at hnil
        simp only [List.append_eq_nil_iff] at hnil
        exact hnil.1.2
      rw [said_of_under hleft, said_of_under hright]
      simp only [under_append, String.join_append, hempty, String.append_empty]

/-! ## Texts joined event by event -/

variable {α : Type} {f g : α → String} {xs : List α}

/-- The pieces each of a list gives under a key, joined: one that gives none adds
nothing. -/
theorem join_under {piece : α → Option (κ × String)} (hf : ∀ x, f x =
    match piece x with
    | some p => if p.1 = k then p.2 else ""
    | none => "") :
    String.join (under k (xs.filterMap piece)) = String.join (xs.map f) := by
  induction xs with
  | nil => rfl
  | cons x xs ih =>
      rw [List.map_cons, String.join_cons, hf, ← ih]
      cases hx : piece x with
      | none => rw [List.filterMap_cons_none hx, String.empty_append]
      | some p =>
          rw [List.filterMap_cons_some hx, ← List.singleton_append, under_append, under_singleton]
          by_cases h : p.1 = k <;> simp [h]

/-- Where one side of two gives nothing or the same, and both join to the same text, they
give the same everywhere. -/
theorem eq_of_join_eq (h : ∀ x ∈ xs, f x = g x ∨ f x = "")
    (hjoin : String.join (xs.map f) = String.join (xs.map g)) : ∀ x ∈ xs, f x = g x := by
  have hlength : ∀ ys : List α, (∀ y ∈ ys, f y = g y ∨ f y = "") →
      (String.join (ys.map f)).length ≤ (String.join (ys.map g)).length := by
    intro ys hys
    induction ys with
    | nil => exact Nat.le_refl _
    | cons y ys ih =>
        simp only [List.map_cons, String.join_cons, String.length_append]
        have hrest := ih fun z hz => hys z (List.mem_cons_of_mem y hz)
        rcases hys y List.mem_cons_self with hy | hy
        · rw [hy]
          omega
        · rw [hy, String.length_empty]
          omega
  induction xs with
  | nil => exact nofun
  | cons x xs ih =>
      have hrest := fun z hz => h z (List.mem_cons_of_mem x hz)
      simp only [List.map_cons, String.join_cons] at hjoin
      have hhead : f x = g x := by
        rcases h x List.mem_cons_self with hx | hx
        · exact hx
        · have hlen := congrArg String.length hjoin
          have hle := hlength xs hrest
          rw [hx, String.length_append, String.length_append, String.length_empty] at hlen
          have hzero : (g x).length = 0 := by omega
          rw [hx, String.length_eq_zero_iff.1 hzero]
      rw [hhead] at hjoin
      intro z hz
      rcases List.mem_cons.1 hz with rfl | hz
      · exact hhead
      · exact ih hrest (by simpa using hjoin) z hz

end Funduq.Lib.Texts
