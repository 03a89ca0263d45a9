import Mathlib.Data.List.Chain
import Funduq.Contract.Verification

/-!
# Chains are tamper evident and their rules compose

The four things a holder of a chain relies on: the last token fixes the whole
chain; what was verified stays verified when its end is cut off; what the
builders build within the rule of succession verifies; and whatever verifies
obeys that rule.

All of it is relative to `Ideal`: the hash has no collisions, and a token
decodes to the claims it was signed over, under the signer's own public key.
-/

namespace Funduq.Contract

open Funduq.Lib

variable {PrivateKey PublicKey : Type} {P : Primitives PrivateKey PublicKey}

/-- What the libraries promise for the tokens `sign_hop` makes. -/
structure Ideal (P : Primitives PrivateKey PublicKey) : Prop where
  sha256_injective : Function.Injective P.sha256
  /-- A signed token reads back as its claims. -/
  reads : ∀ (privateKey : PrivateKey) (prevToken : Option String)
    (dispatchedTo : Option DispatchTarget),
    P.decodeUnverified (signHop P privateKey prevToken dispatchedTo) =
      .ok (hopClaims P privateKey prevToken dispatchedTo)
  /-- The signer's public key is well formed and checks its signature. -/
  verifies : ∀ (privateKey : PrivateKey) (prevToken : Option String)
    (dispatchedTo : Option DispatchTarget), ∃ key payload,
    P.fromPublicBytes (P.publicKeyHex privateKey) = .ok key ∧
      P.decode (signHop P privateKey prevToken dispatchedTo) key = .ok payload

/-! ## The builders -/

/-- The hop a builder's claims parse to. -/
def signedHop (P : Primitives PrivateKey PublicKey) (privateKey : PrivateKey)
    (prevToken : Option String) (dispatchedTo : Option DispatchTarget) : Hop :=
  ⟨P.publicKeyHex privateKey, prevToken.map (hopHash P), dispatchedTo⟩

theorem parseClaims_hopClaims (privateKey : PrivateKey) (prevToken : Option String)
    (dispatchedTo : Option DispatchTarget) :
    parseClaims (hopClaims P privateKey prevToken dispatchedTo) =
      .ok (signedHop P privateKey prevToken dispatchedTo) := by
  cases prevToken <;> cases dispatchedTo <;> rfl

namespace Ideal

theorem reads_signedHop (hP : Ideal P) (privateKey : PrivateKey) (prevToken : Option String)
    (dispatchedTo : Option DispatchTarget) :
    Reads P (signHop P privateKey prevToken dispatchedTo)
      (signedHop P privateKey prevToken dispatchedTo) :=
  ⟨_, hP.reads privateKey prevToken dispatchedTo,
    parseClaims_hopClaims privateKey prevToken dispatchedTo⟩

theorem signed_signedHop (hP : Ideal P) (privateKey : PrivateKey) (prevToken : Option String)
    (dispatchedTo : Option DispatchTarget) :
    Signed P (signHop P privateKey prevToken dispatchedTo)
      (signedHop P privateKey prevToken dispatchedTo) :=
  hP.verifies privateKey prevToken dispatchedTo

/-- A hop signed onto the end of an accepted chain is accepted with it when the
rule of succession lets it follow. -/
theorem concat (hP : Ideal P) {tokens : List String} {hops : List Hop}
    (h : Accepted P tokens hops) (privateKey : PrivateKey)
    (dispatchedTo : Option DispatchTarget)
    (hnext : ∀ p, hops.getLast? = some p →
      MayFollow p (signedHop P privateKey tokens.getLast? dispatchedTo)) :
    Accepted P (tokens ++ [signHop P privateKey tokens.getLast? dispatchedTo])
      (hops ++ [signedHop P privateKey tokens.getLast? dispatchedTo]) :=
  .concat h (hP.reads_signedHop ..) (hP.signed_signedHop ..) rfl hnext

end Ideal

/-- One call of a builder: `extend_chain`, or `dispatch_hop` to a target. -/
structure BuildStep (PrivateKey : Type) where
  signer : PrivateKey
  dispatchedTo : Option DispatchTarget

def BuildStep.build (P : Primitives PrivateKey PublicKey) (chain : List String)
    (s : BuildStep PrivateKey) : Except BuildError (List String) :=
  match s.dispatchedTo with
  | none => extendChain P s.signer chain
  | some target => dispatchHop P s.signer chain target

/-- `new_chain`, then a sequence of calls. -/
def buildChain (P : Primitives PrivateKey PublicKey) (opener : PrivateKey)
    (steps : List (BuildStep PrivateKey)) : Except BuildError (List String) :=
  steps.foldlM (BuildStep.build P) (newChain P opener)

/-- The call after a dispatch is signed by the provider it named, or is another
dispatch by the same witness. -/
def MayStep (P : Primitives PrivateKey PublicKey) (s t : BuildStep PrivateKey) : Prop :=
  ∀ target, s.dispatchedTo = some target →
    P.publicKeyHex t.signer = target.providerKey ∨
      P.publicKeyHex t.signer = P.publicKeyHex s.signer ∧ t.dispatchedTo.isSome = true

/-- Every call obeys the rule towards the one before it. -/
def Lawful (P : Primitives PrivateKey PublicKey) (opener : PrivateKey)
    (steps : List (BuildStep PrivateKey)) : Prop :=
  List.IsChain (MayStep P) (⟨opener, none⟩ :: steps)

theorem BuildStep.build_eq {chain : List String} (hne : chain ≠ []) (s : BuildStep PrivateKey) :
    s.build P chain = .ok (chain ++ [signHop P s.signer chain.getLast? s.dispatchedTo]) := by
  obtain ⟨signer, dispatchedTo⟩ := s
  obtain ⟨tail, htail⟩ : ∃ t, chain.getLast? = some t :=
    Option.ne_none_iff_exists'.1 (by simpa using hne)
  cases dispatchedTo <;> simp [BuildStep.build, extendChain, dispatchHop, htail]

/-- The hop records the call. -/
def Records (P : Primitives PrivateKey PublicKey) (hop : Hop) (s : BuildStep PrivateKey) : Prop :=
  hop.actorPublicKey = P.publicKeyHex s.signer ∧ hop.dispatchedTo = s.dispatchedTo

/-- Hops that record the calls carry the callers' keys, in order. -/
theorem Records.keys_eq {hops : List Hop} {calls : List (BuildStep PrivateKey)}
    (h : List.Forall₂ (Records P) hops calls) :
    hops.map Hop.actorPublicKey = calls.map fun s => P.publicKeyHex s.signer := by
  induction h with
  | nil => rfl
  | cons hr _ ih => rw [List.map_cons, List.map_cons, hr.1, ih]

/-- What is built within the rule is accepted, one hop a call. -/
theorem buildChain_accepted (hP : Ideal P) {opener : PrivateKey}
    {steps : List (BuildStep PrivateKey)} (hlaw : Lawful P opener steps) :
    ∃ chain hops, buildChain P opener steps = .ok chain ∧ chain ≠ [] ∧ Accepted P chain hops ∧
      List.Forall₂ (Records P) hops (⟨opener, none⟩ :: steps) := by
  induction steps using List.reverseRecOn with
  | nil =>
      have hacc : Accepted P ([] ++ [signHop P opener]) ([] ++ [signedHop P opener none none]) :=
        hP.concat .nil opener none (by simp)
      exact ⟨_, _, rfl, List.cons_ne_nil _ _, hacc, .cons ⟨rfl, rfl⟩ .nil⟩
  | append_singleton steps s ih =>
      unfold Lawful at hlaw
      rw [← List.cons_append, List.isChain_append] at hlaw
      obtain ⟨hlaw, -, hlast⟩ := hlaw
      obtain ⟨chain, hops, hbuild, hne, hacc, hrec⟩ := ih hlaw
      -- The last hop records the last call, so the rule carries over.
      have hnext : ∀ p, hops.getLast? = some p →
          MayFollow p (signedHop P s.signer chain.getLast? s.dispatchedTo) := by
        intro p hp target htarget
        have hrev := List.forall₂_reverse_iff.2 hrec
        rw [List.getLast?_eq_head?_reverse] at hp
        obtain ⟨rest, hrest⟩ := List.head?_eq_some_iff.1 hp
        rw [hrest] at hrev
        cases hsteps : (BuildStep.mk opener none :: steps).reverse with
        | nil => simp at hsteps
        | cons t ts =>
            rw [hsteps] at hrev
            cases hrev with
            | cons hpt _ =>
                have ht : (BuildStep.mk opener none :: steps).getLast? = some t := by
                  rw [List.getLast?_eq_head?_reverse, hsteps]
                  rfl
                have hrule := hlast t ht s rfl target (hpt.2 ▸ htarget)
                rw [← hpt.1] at hrule
                exact hrule
      refine ⟨_, _, ?_, ?_, hP.concat hacc s.signer s.dispatchedTo hnext, ?_⟩
      · rw [buildChain, List.foldlM_append]
        rw [buildChain] at hbuild
        rw [hbuild]
        show BuildStep.build P chain s >>= pure = _
        rw [BuildStep.build_eq hne]
        rfl
      · exact List.append_ne_nil_of_right_ne_nil _ (List.cons_ne_nil _ _)
      · rw [← List.cons_append]
        exact List.rel_append hrec (.cons ⟨rfl, rfl⟩ .nil)

/-! ## The result -/

/-- A prefix of a verified chain has the chain's head. -/
theorem head_of_start {hops hops' : List Hop} (h : hops' <+: hops) (hne : hops' ≠ []) :
    (ChainResult.mk hops').head = (ChainResult.mk hops).head := by
  obtain ⟨rest, rfl⟩ := h
  cases hops' with
  | nil => exact absurd rfl hne
  | cons hop hops' => rfl

theorem Accepted.hops_ne_nil {chain : List String} {hops : List Hop} (h : Accepted P chain hops)
    (hne : chain ≠ []) : hops ≠ [] := by
  have hlen := h.forall₂.length_eq
  intro hnil
  rw [hnil, List.length_nil, List.length_eq_zero_iff] at hlen
  exact hne hlen

theorem chain_is_tamper_evident (P : Primitives PrivateKey PublicKey) (hP : Ideal P) :
    (∀ (chain chain' : List String) (result result' : ChainResult),
      verifyChain P chain = .ok result → verifyChain P chain' = .ok result' →
      chain.getLast? = chain'.getLast? → chain = chain') ∧
    (∀ (chain pre : List String) (result : ChainResult), verifyChain P chain = .ok result →
      pre ≠ [] → pre <+: chain →
      ∃ result', verifyChain P pre = .ok result' ∧ result'.head = result.head) ∧
    (∀ (opener : PrivateKey) (steps : List (BuildStep PrivateKey)), Lawful P opener steps →
      ∃ chain result, buildChain P opener steps = .ok chain ∧ verifyChain P chain = .ok result ∧
        result.actorPublicKeys =
          (opener :: steps.map BuildStep.signer).map P.publicKeyHex) ∧
    (∀ (chain : List String) (result : ChainResult), verifyChain P chain = .ok result →
      List.Forall₂ (fun token hop => Reads P token hop ∧ Signed P token hop) chain result.hops ∧
      ∀ (before after : List Hop) (a b : Hop) (target : DispatchTarget),
        result.hops = before ++ a :: b :: after → a.dispatchedTo = some target →
        b.actorPublicKey = target.providerKey ∨
          b.actorPublicKey = a.actorPublicKey ∧ b.dispatchedTo.isSome = true) := by
  refine ⟨?_, ?_, ?_, ?_⟩
  · intro chain chain' result result' h h' hlast
    have hlink := (verifyChain_ok.1 h).2.linked
    have hlink' := (verifyChain_ok.1 h').2.linked
    exact HashChain.eq_of_getLast? hP.sha256_injective hlink hlink' hlast
  · intro chain pre result h hne hpre
    obtain ⟨-, hacc⟩ := verifyChain_ok.1 h
    obtain ⟨hops, hhops, hacc'⟩ := hacc.of_prefix hpre
    exact ⟨⟨hops⟩, verifyChain_ok.2 ⟨hne, hacc'⟩, head_of_start hhops (hacc'.hops_ne_nil hne)⟩
  · intro opener steps hlaw
    obtain ⟨chain, hops, hbuild, hne, hacc, hrec⟩ := buildChain_accepted hP hlaw
    refine ⟨chain, ⟨hops⟩, hbuild, verifyChain_ok.2 ⟨hne, hacc⟩, ?_⟩
    rw [ChainResult.actorPublicKeys, Records.keys_eq hrec]
    simp [Function.comp_def]
  · intro chain result h
    obtain ⟨-, hacc⟩ := verifyChain_ok.1 h
    refine ⟨hacc.forall₂, ?_⟩
    intro before after a b target he htarget
    exact hacc.succession he target htarget

/-! ## A concrete instance

Keys are their own hex, the hash is the identity, and a token is the list of its
fields written out, each character marked so that the fields can be told apart.
-/

namespace Plain

/-- One field: every character marked, then the end. -/
def writeField (field : List Char) (rest : List Char) : List Char :=
  field.foldr (fun c text => 'c' :: c :: text) ('e' :: rest)

def writeFields (fields : List String) : String :=
  String.ofList (fields.foldr (fun field text => writeField field.toList text) [])

/-- The fields of a text, each as its characters. -/
def splitFields : List Char → List (List Char)
  | 'c' :: c :: text =>
      match splitFields text with
      | field :: fields => (c :: field) :: fields
      | [] => []
  | 'e' :: text => [] :: splitFields text
  | _ => []

def readFields (token : String) : List String := (splitFields token.toList).map String.ofList

theorem splitFields_writeField (field rest : List Char) :
    splitFields (writeField field rest) = field :: splitFields rest := by
  induction field with
  | nil => rfl
  | cons c field ih =>
      show splitFields ('c' :: c :: writeField field rest) = _
      rw [splitFields, ih]

theorem readFields_writeFields (fields : List String) :
    readFields (writeFields fields) = fields := by
  rw [readFields, writeFields, String.toList_ofList]
  induction fields with
  | nil => rfl
  | cons field fields ih =>
      rw [List.foldr_cons, splitFields_writeField, List.map_cons, String.ofList_toList, ih]

/-- The fields of a hop: its key, the hash it carries and its target. -/
def hopFields (hop : Hop) : List String :=
  hop.actorPublicKey ::
    (hop.prevHash.elim ["first"] fun hash => ["next", hash]) ++
      hop.dispatchedTo.elim [] fun target => [target.providerKey, target.name]

/-- The claims that parse to a hop with this hash. -/
def claimsOf (key : String) (prevHash : Option String) (target : List String) :
    Dict String Json :=
  [("actorPublicKey", .str key), ("prevHash", prevHash.elim .null .str)] ++
    match target with
    | [providerKey, name] => [("dispatchedTo",
        .obj [("providerKey", .str providerKey), ("name", .str name)])]
    | _ => []

def claimsOfFields : List String → Except String (Dict String Json)
  | key :: "first" :: target => .ok (claimsOf key none target)
  | key :: "next" :: hash :: target => .ok (claimsOf key (some hash) target)
  | _ => .error "Not enough segments"

/-- The signature of a token is the key its first field names. -/
def primitives : Primitives String String where
  publicKeyHex := id
  fromPublicBytes := .ok
  encode claims _ :=
    match parseClaims claims with
    | .ok hop => writeFields (hopFields hop)
    | .error _ => ""
  decodeUnverified token := claimsOfFields (readFields token)
  decode token key :=
    if (readFields token).head? = some key then claimsOfFields (readFields token)
    else .error "Signature verification failed"
  sha256 := id

theorem readFields_signHop (key : String) (prevToken : Option String)
    (dispatchedTo : Option DispatchTarget) :
    readFields (signHop primitives key prevToken dispatchedTo) =
      hopFields (signedHop primitives key prevToken dispatchedTo) := by
  show readFields (match parseClaims (hopClaims primitives key prevToken dispatchedTo) with
    | .ok hop => writeFields (hopFields hop)
    | .error _ => "") = _
  rw [parseClaims_hopClaims]
  exact readFields_writeFields _

theorem claimsOfFields_signHop (key : String) (prevToken : Option String)
    (dispatchedTo : Option DispatchTarget) :
    claimsOfFields (readFields (signHop primitives key prevToken dispatchedTo)) =
      .ok (hopClaims primitives key prevToken dispatchedTo) := by
  rw [readFields_signHop]
  cases prevToken <;> cases dispatchedTo <;> rfl

theorem ideal : Ideal primitives where
  sha256_injective := Function.injective_id
  reads := claimsOfFields_signHop
  verifies key prevToken dispatchedTo := by
    refine ⟨key, hopClaims primitives key prevToken dispatchedTo, rfl, ?_⟩
    have hhead : (readFields (signHop primitives key prevToken dispatchedTo)).head? = some key := by
      rw [readFields_signHop]
      rfl
    show (if _ then _ else _) = _
    rw [if_pos hhead, claimsOfFields_signHop]

end Plain

/-- A caller's work, dispatched to a provider that did not take it and then to
one that did. -/
theorem chain_is_tamper_evident_redispatched :
    Ideal Plain.primitives ∧
      ∃ chain result,
        buildChain Plain.primitives "caller"
          [⟨"witness", some ⟨"away", "agent"⟩⟩, ⟨"witness", some ⟨"provider", "agent"⟩⟩,
            ⟨"provider", none⟩] = .ok chain ∧
        verifyChain Plain.primitives chain = .ok result ∧
        result.actorPublicKeys = ["caller", "witness", "witness", "provider"] := by
  refine ⟨Plain.ideal, (chain_is_tamper_evident Plain.primitives Plain.ideal).2.2.1 "caller"
    [⟨"witness", some ⟨"away", "agent"⟩⟩, ⟨"witness", some ⟨"provider", "agent"⟩⟩,
      ⟨"provider", none⟩] ?_⟩
  simp [Lawful, MayStep, Plain.primitives]

end Funduq.Contract
