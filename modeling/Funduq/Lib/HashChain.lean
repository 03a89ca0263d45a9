import Mathlib.Logic.Function.Basic
import Mathlib.Data.List.Induction

/-!
# Hash chains

A hash chain is a list of tokens in which every token carries the hash of the
one before it, and the first carries none.  Nothing is assumed of a token but
which hash it carries.  When the hash is injective the last token determines the
whole chain: that is what `eq_of_getLast?` says, and what makes a chain tamper
evident.
-/

namespace Funduq.Lib.HashChain

variable {τ η : Type} {prev : τ → Option η} {hash : τ → η} {p : Option τ} {t : τ}
  {ts us : List τ}

/-- Every token of the list carries the hash of the one before it; `p` is what
comes before the first. -/
def Linked (prev : τ → Option η) (hash : τ → η) : Option τ → List τ → Prop
  | _, [] => True
  | p, t :: ts => prev t = p.map hash ∧ Linked prev hash (some t) ts

/-- The last token carries the hash of the one before it. -/
theorem linked_append_singleton :
    Linked prev hash p (ts ++ [t]) ↔
      Linked prev hash p ts ∧ prev t = (ts.getLast?.or p).map hash := by
  induction ts generalizing p with
  | nil => simp [Linked]
  | cons u ts ih =>
      have hlast : ((u :: ts).getLast?.or p) = ts.getLast?.or (some u) := by
        cases ts with
        | nil => rfl
        | cons v ts => simp [List.getLast?_cons]
      rw [List.cons_append, Linked, Linked, ih, hlast, and_assoc]

/-- **The last token determines the chain**, under an injective hash. -/
theorem eq_of_getLast? (hinj : Function.Injective hash) (hts : Linked prev hash none ts)
    (hus : Linked prev hash none us) (hlast : ts.getLast? = us.getLast?) : ts = us := by
  induction ts using List.reverseRecOn generalizing us with
  | nil => exact (List.getLast?_eq_none_iff.1 hlast.symm).symm
  | append_singleton ts t ih =>
      rw [List.getLast?_concat] at hlast
      obtain ⟨us, rfl⟩ := List.getLast?_eq_some_iff.1 hlast.symm
      rw [linked_append_singleton, Option.or_none] at hts hus
      -- Both carry the hash of the token before, so it is the same token.
      have hbefore : ts.getLast? = us.getLast? :=
        Option.map_injective hinj (hts.2.symm.trans hus.2)
      rw [ih hts.1 hus.1 hbefore]

end Funduq.Lib.HashChain
