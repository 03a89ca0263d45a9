import Mathlib.Data.List.Forall2
import Funduq.Contract.Chain
import Funduq.Lib.Except
import Funduq.Lib.HashChain

/-!
# What verifying a chain proves

`Accepted` says what a verified chain is without the loop: tokens and hops side
by side, each hop read off its token and signed by the key it names, each
carrying the hash of the token before it and obeying the rule of succession.
`verifyChain_ok` is the loop's specification: it returns exactly the hops of an
accepted chain.  The properties of chains are then inductions over `Accepted`.
-/

namespace Funduq.Contract

open Funduq.Lib

variable {PrivateKey PublicKey : Type} {P : Primitives PrivateKey PublicKey}
  {token : String} {hop : Hop} {chain tokens : List String} {hops : List Hop}

/-! ## One hop -/

/-- The token reads as the hop. -/
def Reads (P : Primitives PrivateKey PublicKey) (token : String) (hop : Hop) : Prop :=
  ∃ payload, P.decodeUnverified token = .ok payload ∧ parseClaims payload = .ok hop

/-- The token is signed by the key the hop names. -/
def Signed (P : Primitives PrivateKey PublicKey) (token : String) (hop : Hop) : Prop :=
  ∃ key payload, P.fromPublicBytes hop.actorPublicKey = .ok key ∧
    P.decode token key = .ok payload

/-- The rule of succession: what may follow a dispatch. -/
def MayFollow (previous hop : Hop) : Prop :=
  ∀ target, previous.dispatchedTo = some target →
    hop.actorPublicKey = target.providerKey ∨
      hop.actorPublicKey = previous.actorPublicKey ∧ hop.dispatchedTo.isSome = true

theorem checkSuccession_ok {index : Nat} {previous : Option Hop} {u : Unit} :
    checkSuccession index previous hop = .ok u ↔ ∀ p, previous = some p → MayFollow p hop := by
  unfold checkSuccession MayFollow
  cases previous with
  | none => simp
  | some p =>
      cases ht : p.dispatchedTo with
      | none => simp [ht]
      | some target =>
          by_cases h1 : hop.actorPublicKey = target.providerKey
          · simp [ht, h1]
          · by_cases h2 : hop.actorPublicKey = p.actorPublicKey
            · cases hop.dispatchedTo with
              | none => simp [ht, h2]
              | some _ => simp [ht, h2]
            · simp [ht, h1, h2]

/-- A turn of the loop goes through when the token reads as a hop it signs, that
links to the token before it and may follow the hop before it. -/
theorem verifyHop_ok {walk walk' : Walk} {index : Nat} :
    verifyHop P walk (token, index) = .ok walk' ↔
      ∃ hop, Reads P token hop ∧ Signed P token hop ∧
        hop.prevHash = walk.prevToken.map (hopHash P) ∧
        (∀ p, walk.previous = some p → MayFollow p hop) ∧
        walk' = ⟨walk.hops ++ [hop], some token, some hop⟩ := by
  unfold verifyHop Reads Signed
  simp only [bind_eq_ok, mapError_eq_ok, parseHop, ite_eq_ok, checkSuccession_ok, pure_eq_ok,
    throw_ne_ok, false_and, exists_false, and_false, false_or, ne_eq, not_not]
  constructor
  · rintro ⟨payload, hread, hop, hparse, key, hkey, claims, hsig, hprev, -, hnext, rfl⟩
    exact ⟨hop, ⟨payload, hread, hparse⟩, ⟨key, claims, hkey, hsig⟩, hprev, hnext, rfl⟩
  · rintro ⟨hop, ⟨payload, hread, hparse⟩, ⟨key, claims, hkey, hsig⟩, hprev, hnext, rfl⟩
    exact ⟨payload, hread, hop, hparse, key, hkey, claims, hsig, hprev, (), hnext, rfl⟩

/-! ## Chains -/

/-- The tokens are a verified chain, and these are its hops. -/
inductive Accepted (P : Primitives PrivateKey PublicKey) : List String → List Hop → Prop where
  | nil : Accepted P [] []
  | concat {tokens : List String} {hops : List Hop} {token : String} {hop : Hop}
      (h : Accepted P tokens hops) (hread : Reads P token hop) (hsign : Signed P token hop)
      (hprev : hop.prevHash = tokens.getLast?.map (hopHash P))
      (hnext : ∀ p, hops.getLast? = some p → MayFollow p hop) :
      Accepted P (tokens ++ [token]) (hops ++ [hop])

theorem Accepted.nil_inv (h : Accepted P [] hops) : hops = [] := by
  generalize he : ([] : List String) = all at h
  cases h with
  | nil => rfl
  | concat _ _ _ _ _ =>
      exact absurd he.symm (List.append_ne_nil_of_right_ne_nil _ (List.cons_ne_nil _ _))

/-- How a chain that ends in `token` was accepted. -/
theorem Accepted.concat_inv (h : Accepted P (tokens ++ [token]) hops) :
    ∃ hops' hop, hops = hops' ++ [hop] ∧ Accepted P tokens hops' ∧ Reads P token hop ∧
      Signed P token hop ∧ hop.prevHash = tokens.getLast?.map (hopHash P) ∧
      ∀ p, hops'.getLast? = some p → MayFollow p hop := by
  generalize he : tokens ++ [token] = all at h
  cases h with
  | nil => exact absurd he (List.append_ne_nil_of_right_ne_nil _ (List.cons_ne_nil _ _))
  | concat h hread hsign hprev hnext =>
      obtain ⟨rfl, ht⟩ := List.append_inj' he rfl
      cases ht
      exact ⟨_, _, rfl, h, hread, hsign, hprev, hnext⟩

/-- **The loop's specification.** -/
theorem walk_ok {walk : Walk} :
    tokens.zipIdx.foldlM (verifyHop P) {} = .ok walk ↔
      Accepted P tokens walk.hops ∧ walk.prevToken = tokens.getLast? ∧
        walk.previous = walk.hops.getLast? := by
  induction tokens using List.reverseRecOn generalizing walk with
  | nil =>
      constructor
      · intro h
        cases h
        exact ⟨.nil, rfl, rfl⟩
      · rintro ⟨h, hp, hq⟩
        obtain ⟨hops, prevToken, previous⟩ := walk
        simp only at h hp hq
        obtain rfl := h.nil_inv
        rw [hp, hq]
        rfl
  | append_singleton tokens token ih =>
      rw [List.zipIdx_append, List.foldlM_append, bind_eq_ok]
      simp only [List.zipIdx_singleton, List.foldlM_cons, List.foldlM_nil, bind_eq_ok, pure_eq_ok,
        exists_eq_right, verifyHop_ok, ih]
      constructor
      · rintro ⟨w, ⟨hacc, hp, hq⟩, hop, hread, hsign, hprev, hnext, rfl⟩
        rw [hp] at hprev
        rw [hq] at hnext
        exact ⟨.concat hacc hread hsign hprev hnext, by simp, by simp⟩
      · rintro ⟨hacc, hp, hq⟩
        obtain ⟨hops, hop, hhops, hacc, hread, hsign, hprev, hnext⟩ := hacc.concat_inv
        refine ⟨⟨hops, tokens.getLast?, hops.getLast?⟩, ⟨hacc, rfl, rfl⟩, hop, hread, hsign,
          hprev, hnext, ?_⟩
        obtain ⟨hops', prevToken, previous⟩ := walk
        simp only at hhops hp hq
        rw [hhops] at hq
        simp [hhops, hp, hq]

theorem verifyChain_ok {result : ChainResult} :
    verifyChain P chain = .ok result ↔ chain ≠ [] ∧ Accepted P chain result.hops := by
  unfold verifyChain
  simp only [ite_eq_ok, bind_eq_ok, pure_eq_ok, throw_ne_ok, false_and, exists_false, and_false,
    false_or, walk_ok, List.isEmpty_iff]
  constructor
  · rintro ⟨hne, walk, ⟨hacc, -⟩, rfl⟩
    exact ⟨hne, hacc⟩
  · rintro ⟨hne, hacc⟩
    exact ⟨hne, ⟨result.hops, chain.getLast?, result.hops.getLast?⟩, ⟨hacc, rfl, rfl⟩, rfl⟩

namespace Accepted

/-- The hash a token carries, `none` when it carries none. -/
def carried (P : Primitives PrivateKey PublicKey) (token : String) : Option String :=
  match P.decodeUnverified token with
  | .ok payload =>
      match parseClaims payload with
      | .ok hop => hop.prevHash
      | .error _ => none
  | .error _ => none

theorem carried_of_reads (h : Reads P token hop) : carried P token = hop.prevHash := by
  obtain ⟨payload, hd, hp⟩ := h
  simp [carried, hd, hp]

/-- An accepted chain is a hash chain. -/
theorem linked (h : Accepted P tokens hops) :
    HashChain.Linked (carried P) (hopHash P) none tokens := by
  induction h with
  | nil => trivial
  | concat _ hread _ hprev _ ih =>
      rw [HashChain.linked_append_singleton, Option.or_none]
      exact ⟨ih, (carried_of_reads hread).trans hprev⟩

theorem forall₂ (h : Accepted P tokens hops) :
    List.Forall₂ (fun token hop => Reads P token hop ∧ Signed P token hop) tokens hops := by
  induction h with
  | nil => exact .nil
  | concat _ hread hsign _ _ ih => exact List.rel_append ih (.cons ⟨hread, hsign⟩ .nil)

/-- A prefix of an accepted chain is accepted, with a prefix of its hops. -/
theorem of_prefix (h : Accepted P tokens hops) {pre : List String} (hp : pre <+: tokens) :
    ∃ hops', hops' <+: hops ∧ Accepted P pre hops' := by
  induction h with
  | nil =>
      rw [List.prefix_nil] at hp
      exact ⟨[], List.prefix_rfl, hp ▸ .nil⟩
  | concat h hread hsign hprev hnext ih =>
      rcases List.prefix_concat_iff.1 hp with rfl | hp
      · exact ⟨_, List.prefix_rfl, .concat h hread hsign hprev hnext⟩
      · obtain ⟨hops', hpre, hacc⟩ := ih hp
        exact ⟨hops', hpre.trans (List.prefix_append ..), hacc⟩

/-- In an accepted chain every hop obeys the rule of succession. -/
theorem succession (h : Accepted P tokens hops) {a b : Hop} {before after : List Hop}
    (he : hops = before ++ a :: b :: after) : MayFollow a b := by
  induction h generalizing after with
  | nil => exact absurd he (by simp)
  | @concat _ hops _ hop _ _ _ _ hnext ih =>
      -- The pair is the last two hops, or stands in the chain before the last.
      induction after using List.reverseRecOn with
      | nil =>
          have he' : hops ++ [hop] = (before ++ [a]) ++ [b] := by simpa using he
          obtain ⟨rfl, hb⟩ := List.append_inj' he' rfl
          cases hb
          exact hnext a (by simp)
      | append_singleton after c _ =>
          have he' : hops ++ [hop] = (before ++ a :: b :: after) ++ [c] := by simpa using he
          exact ih (List.append_inj' he' rfl).1

end Accepted

end Funduq.Contract
