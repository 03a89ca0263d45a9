import Mathlib.Data.List.Forall2
import Mathlib.Data.List.Nodup

/-!
# Insertion-ordered dictionaries

A dictionary is the list of its entries in the order their keys were first
written.  Writing a key that is present replaces its value in place, writing a
new one appends, and removing one closes the gap; iteration is the list itself.
-/

namespace Funduq.Lib

/-- Entries of a dictionary, oldest key first. -/
abbrev Dict (κ ν : Type) := List (κ × ν)

namespace Dict

variable {κ ν : Type} [DecidableEq κ]

/-- The value under `k`. -/
def get? : Dict κ ν → κ → Option ν
  | [], _ => none
  | e :: d, k => if e.1 = k then some e.2 else get? d k

/-- Write `v` under `k`: in place when the key is there, at the end otherwise. -/
def set : Dict κ ν → κ → ν → Dict κ ν
  | [], k, v => [(k, v)]
  | e :: d, k, v => if e.1 = k then (k, v) :: d else e :: set d k v

/-- Remove the entry under `k`, if there is one. -/
def pop (d : Dict κ ν) (k : κ) : Dict κ ν := d.filter fun e => e.1 ≠ k

/-- The values, in iteration order. -/
def values (d : Dict κ ν) : List ν := d.map Prod.snd

@[simp] theorem get?_nil (k : κ) : get? ([] : Dict κ ν) k = none := rfl

theorem get?_cons (e : κ × ν) (d : Dict κ ν) (k : κ) :
    get? (e :: d) k = if e.1 = k then some e.2 else get? d k := rfl

theorem set_nil (k : κ) (v : ν) : set ([] : Dict κ ν) k v = [(k, v)] := rfl

theorem set_cons (e : κ × ν) (d : Dict κ ν) (k : κ) (v : ν) :
    set (e :: d) k v = if e.1 = k then (k, v) :: d else e :: set d k v := rfl

theorem get?_eq_find? (d : Dict κ ν) (k : κ) :
    d.get? k = (d.find? fun e => e.1 = k).map Prod.snd := by
  induction d with
  | nil => rfl
  | cons e d ih =>
      by_cases h : e.1 = k
      · simp [get?_cons, h]
      · simp [get?_cons, h, ih]

theorem get?_set (d : Dict κ ν) (k k' : κ) (v : ν) :
    (d.set k v).get? k' = if k = k' then some v else d.get? k' := by
  induction d with
  | nil => simp [set_nil, get?_cons]
  | cons e d ih =>
      by_cases hek : e.1 = k
      · subst hek
        by_cases hk : e.1 = k' <;> simp [set_cons, get?_cons, hk]
      · by_cases hek' : e.1 = k'
        · have hk : ¬ k = k' := fun h => hek (hek'.trans h.symm)
          rw [set_cons, if_neg hek, get?_cons, if_pos hek', if_neg hk, get?_cons, if_pos hek']
        · simp [set_cons, get?_cons, hek, hek', ih]

theorem get?_pop (d : Dict κ ν) (k k' : κ) :
    (d.pop k).get? k' = if k = k' then none else d.get? k' := by
  induction d with
  | nil => simp [pop]
  | cons e d ih =>
      have ih' : get? (List.filter (fun e => e.1 ≠ k) d) k' =
          if k = k' then none else get? d k' := ih
      by_cases hek : e.1 = k
      · subst hek
        rw [pop, List.filter_cons_of_neg (by simp), ih']
        by_cases hk : e.1 = k' <;> simp [get?_cons, hk]
      · rw [pop, List.filter_cons_of_pos (by simpa using hek), get?_cons, ih']
        by_cases hek' : e.1 = k'
        · have hk : ¬ k = k' := fun h => hek (hek'.trans h.symm)
          simp [get?_cons, hek', hk]
        · simp [get?_cons, hek']

/-- What a lookup finds is one of the values iterated over. -/
theorem mem_values_of_get? {d : Dict κ ν} {k : κ} {v : ν}
    (h : d.get? k = some v) : v ∈ d.values := by
  induction d with
  | nil => simp at h
  | cons e d ih =>
      by_cases hek : e.1 = k
      · simp only [get?_cons, hek, if_true, Option.some.injEq] at h
        simp [values, h]
      · simp only [get?_cons, hek, if_false] at h
        exact List.mem_cons_of_mem _ (ih h)

theorem mem_set {d : Dict κ ν} {k : κ} {v : ν} {e : κ × ν}
    (h : e ∈ d.set k v) : e = (k, v) ∨ e ∈ d := by
  induction d with
  | nil => exact .inl (List.mem_singleton.1 h)
  | cons x d ih =>
      rw [set_cons] at h
      split at h
      · rcases List.mem_cons.1 h with rfl | h
        · exact .inl rfl
        · exact .inr (List.mem_cons_of_mem _ h)
      · rcases List.mem_cons.1 h with rfl | h
        · exact .inr List.mem_cons_self
        · exact (ih h).imp_right (List.mem_cons_of_mem _)

theorem mem_of_get? {d : Dict κ ν} {k : κ} {v : ν} (h : d.get? k = some v) : (k, v) ∈ d := by
  rw [get?_eq_find?] at h
  obtain ⟨e, he, rfl⟩ := Option.map_eq_some_iff.1 h
  have hk : e.1 = k := by simpa using List.find?_some he
  exact hk ▸ List.mem_of_find?_eq_some he

theorem get?_isSome_of_mem {d : Dict κ ν} {k : κ} {v : ν} (h : (k, v) ∈ d) :
    (d.get? k).isSome = true := by
  rw [get?_eq_find?, Option.isSome_map, List.find?_isSome]
  exact ⟨(k, v), h, decide_eq_true rfl⟩

theorem mem_keys_iff {d : Dict κ ν} {k : κ} :
    k ∈ d.map Prod.fst ↔ (d.get? k).isSome = true := by
  constructor
  · intro h
    obtain ⟨⟨k', v⟩, he, rfl⟩ := List.mem_map.1 h
    exact get?_isSome_of_mem he
  · intro h
    obtain ⟨v, hv⟩ := Option.isSome_iff_exists.1 h
    exact List.mem_map.2 ⟨(k, v), mem_of_get? hv, rfl⟩

/-- A new key goes to the end. -/
theorem set_of_not_mem {d : Dict κ ν} {k : κ} (h : k ∉ d.map Prod.fst) (v : ν) :
    d.set k v = d ++ [(k, v)] := by
  induction d with
  | nil => rfl
  | cons e d ih =>
      rw [List.map_cons, List.mem_cons, not_or] at h
      rw [set_cons, if_neg (Ne.symm h.1), ih h.2]
      rfl

theorem keys_set (d : Dict κ ν) (k : κ) (v : ν) : (d.set k v).map Prod.fst =
    if k ∈ d.map Prod.fst then d.map Prod.fst else d.map Prod.fst ++ [k] := by
  induction d with
  | nil => rfl
  | cons e d ih =>
      rw [set_cons]
      by_cases h : e.1 = k
      · simp [h]
      · rw [if_neg h, List.map_cons, ih, List.map_cons]
        by_cases hk : k ∈ d.map Prod.fst
        · rw [if_pos hk, if_pos (List.mem_cons_of_mem _ hk)]
        · have hno : k ∉ e.1 :: d.map Prod.fst := by
            rw [List.mem_cons, not_or]
            exact ⟨Ne.symm h, hk⟩
          rw [if_neg hk, if_neg hno]
          rfl

/-- Writing a key leaves one entry a key. -/
theorem nodup_set {d : Dict κ ν} (h : (d.map Prod.fst).Nodup) (k : κ) (v : ν) :
    ((d.set k v).map Prod.fst).Nodup := by
  rw [keys_set]
  split
  · exact h
  · rename_i hk
    exact List.nodup_append'.2 ⟨h, List.nodup_singleton k, by simpa using hk⟩

theorem nodup_pop {d : Dict κ ν} (h : (d.map Prod.fst).Nodup) (k : κ) :
    ((d.pop k).map Prod.fst).Nodup := h.sublist (List.filter_sublist.map Prod.fst)

end Dict

/-- Where no two rows have the same key, a row is found under its own. -/
theorem find?_key {α κ : Type} [DecidableEq κ] {key : α → κ} {rows : List α}
    (hrows : (rows.map key).Nodup) {a : α} (ha : a ∈ rows) :
    rows.find? (fun x => key x = key a) = some a := by
  obtain ⟨b, hb⟩ : ∃ b, rows.find? (fun x => key x = key a) = some b := by
    rw [← Option.isSome_iff_exists, List.find?_isSome]
    exact ⟨a, ha, by simp⟩
  have hkey : key b = key a := by simpa using List.find?_some hb
  rw [hb, List.inj_on_of_nodup_map hrows (List.mem_of_find?_eq_some hb) ha hkey]

/-- Where no two entries have the same key, an entry is found under its own. -/
theorem Dict.get?_of_mem {κ ν : Type} [DecidableEq κ] {d : Dict κ ν}
    (hd : (d.map Prod.fst).Nodup) {k : κ} {v : ν} (h : (k, v) ∈ d) : d.get? k = some v := by
  rw [get?_eq_find?, find?_key hd h]
  rfl

/-- Where no two rows have the same key, a row is all there is under its own. -/
theorem filter_key {α κ : Type} [DecidableEq κ] {key : α → κ} {rows : List α}
    (hrows : (rows.map key).Nodup) {a : α} (ha : a ∈ rows) :
    rows.filter (fun x => key x = key a) = [a] := by
  induction rows with
  | nil => cases ha
  | cons b rows ih =>
      rw [List.map_cons, List.nodup_cons] at hrows
      rcases List.mem_cons.1 ha with rfl | ha
      · rw [List.filter_cons_of_pos (by simp), List.filter_eq_nil_iff.2]
        intro x hx hkey
        exact hrows.1 (List.mem_map.2 ⟨x, hx, of_decide_eq_true hkey⟩)
      · rw [List.filter_cons_of_neg, ih hrows.2 ha]
        intro hkey
        exact hrows.1 (List.mem_map.2 ⟨a, ha, (of_decide_eq_true hkey).symm⟩)

/-- Where no two rows have the same key, a key tells whether its row was picked. -/
theorem mem_map_key_iff {α κ : Type} {key : α → κ} {rows picked : List α}
    (hrows : (rows.map key).Nodup) (hsub : picked ⊆ rows) {a : α} (ha : a ∈ rows) :
    key a ∈ picked.map key ↔ a ∈ picked := by
  constructor
  · intro h
    obtain ⟨b, hb, hkey⟩ := List.mem_map.1 h
    rw [← List.inj_on_of_nodup_map hrows (hsub hb) ha hkey]
    exact hb
  · exact List.mem_map_of_mem

/-- Of two lists kept in step, what goes with an entry of the second. -/
theorem forall₂_right {α β : Type} {P : α → β → Prop} {as : List α} {bs : List β}
    (h : List.Forall₂ P as bs) {b : β} (hb : b ∈ bs) : ∃ a ∈ as, P a b := by
  induction h with
  | nil => cases hb
  | @cons a b' as bs hab _ ih =>
      rcases List.mem_cons.1 hb with rfl | hb
      · exact ⟨a, List.mem_cons_self, hab⟩
      · obtain ⟨a', ha', hab'⟩ := ih hb
        exact ⟨a', List.mem_cons_of_mem _ ha', hab'⟩

end Funduq.Lib
