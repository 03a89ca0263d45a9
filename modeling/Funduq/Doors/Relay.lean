import Funduq.Contract.Integrity
import Funduq.Doors.Caller

/-!
# The chain a run is recorded under

A door verifies the caller's chain and then signs one hop onto it, naming the
agent the run goes to.  The rule of succession binds that hop too: after a hop
that dispatched the work, only the party it named, or the witness itself with
another dispatch, may sign.  The door does not look at that, so a caller whose
last hop dispatches the work to somebody else gets a run recorded under a chain
that does not verify, and whatever reads the chain later fails on it.  `MayRelay`
is what the caller's chain has to be for the recorded one to verify.
-/

namespace Funduq.Doors

open Funduq.Lib Funduq.Store Funduq.Contract
open Funduq.Broker (AgentRef)

variable {PrivateKey PublicKey : Type} {cfg : Config PrivateKey PublicKey}
  {P : Primitives PrivateKey PublicKey} {chain : Json} {tokens : List String}
  {result : ChainResult}

/-! ## What was verified -/

/-- Where nothing is dropped, everything was a string. -/
theorem items_of_leading {items : List Json}
    (h : ((items.takeWhile fun i => i.str?.isSome).filterMap Json.str?).length = items.length) :
    items = ((items.takeWhile fun i => i.str?.isSome).filterMap Json.str?).map .str := by
  induction items with
  | nil => rfl
  | cons item items ih =>
      cases item with
      | str s =>
          have hs : Json.str? (.str s) = some s := rfl
          rw [List.takeWhile_cons_of_pos rfl, List.filterMap_cons_some hs] at h ⊢
          rw [List.length_cons, List.length_cons, Nat.add_right_cancel_iff] at h
          rw [List.map_cons, ← ih h]
      | _ => simp [List.takeWhile, Json.str?] at h

/-- A chain that verifies is iterated as strings, and they verify. -/
theorem verifyAny_ok (h : verifyAny P chain = .ok result) :
    chain.truthy = true ∧ ∃ tokens : List String, iterate chain = .ok (tokens.map .str) ∧
      verifyChain P tokens = .ok result := by
  simp only [verifyAny, bind_eq_ok, ite_eq_ok, throw_ne_ok, Bool.not_eq_true'] at h
  obtain ⟨htrue, items, hitems, hverify⟩ : chain.truthy = true ∧ ∃ items,
      iterate chain = .ok items ∧ verifyTokens P items = .ok result := by
    simpa using h
  refine ⟨htrue, ?_⟩
  unfold verifyTokens at hverify
  simp only [ite_eq_ok, mapError_eq_ok, bind_eq_ok, throw_ne_ok, exists_false, and_false,
    or_false] at hverify
  obtain ⟨hlen, hverify⟩ := hverify
  exact ⟨_, items_of_leading hlen ▸ hitems, hverify⟩

/-- What an accepted caller's chain is. -/
theorem verifyCaller_ok {bag : Dict String Json} {presenterKey : Option String} {v : Verified}
    (h : verifyCaller cfg bag presenterKey = .ok v) :
    v.headKey = none ∧ v.actorChain = none ∨
      ∃ chain result, v.actorChain = some chain ∧ v.headKey = result.head ∧
        verifyAny cfg.primitives chain = .ok result ∧ presenterKey = result.presenter := by
  unfold verifyCaller at h
  simp only at h
  split at h
  · cases h
    exact .inl ⟨rfl, rfl⟩
  · rename_i actorChain _
    split at h
    · cases h
      exact .inl ⟨rfl, rfl⟩
    · split at h
      · cases h
      · simp only [bind_eq_ok, ite_eq_ok, throw_ne_ok, false_and, exists_false, and_false,
          false_or, pure_eq_ok, ne_eq, not_not] at h
        obtain ⟨verified, hv, hp, rfl⟩ := h
        exact .inr ⟨actorChain, verified, rfl, rfl, hv, hp⟩

/-- A token reads as one hop. -/
theorem Reads.unique {token : String} {a b : Hop} (ha : Reads P token a) (hb : Reads P token b) :
    a = b := by
  obtain ⟨p, hp, ha⟩ := ha
  obtain ⟨q, hq, hb⟩ := hb
  cases hp.symm.trans hq
  cases ha.symm.trans hb
  rfl

theorem Accepted.unique {hops hops' : List Hop} (h : Accepted P tokens hops)
    (h' : Accepted P tokens hops') : hops = hops' := by
  have hr := h.forall₂
  have hr' := h'.forall₂
  clear h h'
  induction hr generalizing hops' with
  | nil =>
      cases hr'
      rfl
  | cons hhop _ ih =>
      cases hr' with
      | cons hhop' hrest => rw [Reads.unique hhop.1 hhop'.1, ih hrest]

/-! ## What is recorded -/

/-- funduq's hop may follow the last hop of the chain: the chain is no object,
and its last hop is no dispatch, or one to funduq, or one by funduq. -/
def MayRelay (cfg : Config PrivateKey PublicKey) (chain : Json) : Prop :=
  chain.members? = none ∧
    ∀ result last, verifyAny cfg.primitives chain = .ok result →
      result.hops.getLast? = some last → ∀ target, last.dispatchedTo = some target →
        target.providerKey = cfg.publicKey ∨ last.actorPublicKey = cfg.publicKey

/-- The target of funduq's hop. -/
def targetOf (agent : AgentRef) : DispatchTarget := ⟨agent.providerKey, agent.name⟩

/-- What a chain that verifies is relayed as. -/
theorem relayedChain_eq (hiter : iterate chain = .ok (tokens.map .str))
    (hverify : verifyChain cfg.primitives tokens = .ok result) (htrue : chain.truthy = true)
    (agent : AgentRef) :
    relayedChain cfg (some chain) agent =
      if chain.members?.isSome then .error (.keyError "-1")
      else .ok (some (tokens ++
        [signHop cfg.primitives cfg.identity tokens.getLast? (some (targetOf agent))])) := by
  have hne : tokens ≠ [] := (verifyChain_ok.1 hverify).1
  obtain ⟨last, hlast⟩ : ∃ t, tokens.getLast? = some t :=
    Option.ne_none_iff_exists'.1 (by simpa using hne)
  have hext : chain.members? = none → tokensToExtend chain = .ok tokens := by
    intro hm
    have hall : ∀ ts : List String, (ts.map Json.str).filterMap Json.str? = ts := by
      intro ts
      rw [List.filterMap_map]
      exact List.filterMap_some
    cases chain with
    | obj members => cases hm
    | _ =>
        simp only [tokensToExtend, hiter]
        simp [bind, Except.bind, hall, Json.str?, pure, Except.pure]
  unfold relayedChain
  simp only [htrue, if_true]
  cases hm : chain.members? with
  | none =>
      rw [hext hm]
      simp [dispatchHop, hlast, bind, Except.bind, pure, Except.pure, targetOf]
      rfl
  | some members =>
      cases chain with
      | obj members => rfl
      | _ => cases hm

/-- The relayed chain is accepted exactly when funduq's hop may follow. -/
theorem relayed_accepted_iff (hP : Ideal cfg.primitives) {hops : List Hop}
    (hacc : Accepted cfg.primitives tokens hops) (agent : AgentRef) :
    (∃ all, Accepted cfg.primitives (tokens ++
        [signHop cfg.primitives cfg.identity tokens.getLast? (some (targetOf agent))]) all) ↔
      ∀ last, hops.getLast? = some last → ∀ target, last.dispatchedTo = some target →
        target.providerKey = cfg.publicKey ∨ last.actorPublicKey = cfg.publicKey := by
  constructor
  · rintro ⟨all, hall⟩ last hlast target htarget
    obtain ⟨hops', hop, -, hacc', hread, -, -, hnext⟩ := hall.concat_inv
    cases Accepted.unique hacc hacc'
    cases Reads.unique hread (hP.reads_signedHop cfg.identity tokens.getLast? _)
    rcases hnext last hlast target htarget with h | ⟨h, -⟩
    · exact .inl h.symm
    · exact .inr h.symm
  · intro h
    refine ⟨_, hP.concat hacc cfg.identity (some (targetOf agent)) ?_⟩
    intro last hlast target htarget
    rcases h last hlast target htarget with h | h
    · exact .inl h.symm
    · exact .inr ⟨h.symm, rfl⟩

/-- The run's chain came in with a caller a door accepted, and funduq's hop could
follow it. -/
def Recorded (cfg : Config PrivateKey PublicKey) (run : RunRecord) : Prop :=
  run.actorChain = none ∨
    ∃ bag presenterKey v chain agent, verifyCaller cfg bag presenterKey = .ok v ∧
      v.actorChain = some chain ∧ MayRelay cfg chain ∧
      relayedChain cfg (some chain) agent = .ok run.actorChain

/-- A recorded chain verifies. -/
theorem Recorded.verifies (hP : Ideal cfg.primitives) {run : RunRecord} (h : Recorded cfg run)
    {tokens : List String} (hc : chainOf run = some tokens) :
    ∃ result, verifyChain cfg.primitives tokens = .ok result := by
  have hrun : run.actorChain = some tokens := (Option.filter_eq_some_iff.1 hc).1
  rcases h with h | ⟨bag, presenterKey, v, chain, agent, hv, hchain, ⟨hobj, hmay⟩, hrel⟩
  · rw [hrun] at h
    cases h
  · rcases verifyCaller_ok hv with ⟨-, h⟩ | ⟨chain', result, h, -, hany, -⟩
    · rw [hchain] at h
      cases h
    · cases hchain.symm.trans h
      obtain ⟨htrue, ts, hiter, hver⟩ := verifyAny_ok hany
      rw [relayedChain_eq hiter hver htrue, hobj, hrun] at hrel
      simp only [Option.isSome_none, Bool.false_eq_true, if_false, Except.ok.injEq,
        Option.some.injEq] at hrel
      have hacc := (verifyChain_ok.1 hver).2
      obtain ⟨all, hall⟩ := (relayed_accepted_iff hP hacc agent).2
        fun last hlast => hmay result last hany hlast
      rw [hrel] at hall
      have hne : tokens ≠ [] := by
        rw [← hrel]
        exact List.append_ne_nil_of_right_ne_nil _ (List.cons_ne_nil _ _)
      exact ⟨⟨all⟩, verifyChain_ok.2 ⟨hne, hall⟩⟩

theorem Recorded.headKeyOf (hP : Ideal cfg.primitives) {run : RunRecord}
    (h : Recorded cfg run) : ∃ head, headKeyOf cfg run = .ok head := by
  unfold Doors.headKeyOf
  cases hc : chainOf run with
  | none => exact ⟨none, rfl⟩
  | some tokens =>
      obtain ⟨result, hresult⟩ := h.verifies hP hc
      exact ⟨result.head, by simp only [hresult]; rfl⟩

theorem Recorded.readersOf (hP : Ideal cfg.primitives) {w : World} {thread : ThreadRow}
    (h : ∀ run ∈ w.runsOf thread.threadId, Recorded cfg run) :
    ∃ circle, readersOf cfg w thread = .ok circle := by
  have hfold : ∀ (runs : List RunRecord) (circle : List String),
      (∀ run ∈ runs, Recorded cfg run) →
        ∃ circle', runs.foldlM (joinReaders cfg) circle = .ok circle' := by
    intro runs
    induction runs with
    | nil => exact fun circle _ => ⟨circle, rfl⟩
    | cons run runs ih =>
        intro circle hruns
        have hrest := fun c => ih c fun r hr => hruns r (List.mem_cons_of_mem _ hr)
        have hjoin : ∃ c, joinReaders cfg circle run = .ok c := by
          unfold joinReaders
          cases hc : chainOf run with
          | none => exact ⟨circle, rfl⟩
          | some tokens =>
              obtain ⟨result, hresult⟩ := (hruns run List.mem_cons_self).verifies hP hc
              exact ⟨circle ++ result.actorPublicKeys, by simp only [hresult]; rfl⟩
        obtain ⟨c, hc⟩ := hjoin
        obtain ⟨c', hc'⟩ := hrest c
        refine ⟨c', ?_⟩
        rw [List.foldlM_cons, bind_eq_ok]
        exact ⟨c, hc, hc'⟩
  unfold Doors.readersOf
  cases thread.headKey with
  | none => exact ⟨none, rfl⟩
  | some head =>
      obtain ⟨circle, hcircle⟩ := hfold _ [thread.agent.providerKey, head] h
      refine ⟨some circle, ?_⟩
      rw [bind_eq_ok]
      exact ⟨circle, hcircle, rfl⟩

/-- **Main result.**  The chain a caller presented and a door accepted is recorded
as one that verifies, with the caller's head and funduq as its presenter, exactly
when `MayRelay` holds of it.  And where every run was recorded so, reading their
chains does not fail. -/
theorem relayed_chain_verifies (cfg : Config PrivateKey PublicKey) (hP : Ideal cfg.primitives) :
    (∀ bag presenterKey v chain agent, verifyCaller cfg bag presenterKey = .ok v →
      v.actorChain = some chain →
      ((∃ relayed result, relayedChain cfg (some chain) agent = .ok (some relayed) ∧
          verifyChain cfg.primitives relayed = .ok result ∧ result.head = v.headKey ∧
          result.presenter = some cfg.publicKey) ↔
        MayRelay cfg chain)) ∧
    (∀ run, Recorded cfg run → (∃ head, headKeyOf cfg run = .ok head) ∧
      ∀ now metadata e, authorizeCancel cfg now run metadata ≠ .error (.invalidChain e)) ∧
    ∀ (w : World) (thread : ThreadRow), (∀ run ∈ w.runsOf thread.threadId, Recorded cfg run) →
      ∃ circle, readersOf cfg w thread = .ok circle := by
  refine ⟨?_, ?_, fun w thread => Recorded.readersOf hP⟩
  · intro bag presenterKey v chain agent hv hchain
    rcases verifyCaller_ok hv with ⟨-, h⟩ | ⟨chain', result, h, hhead, hany, -⟩
    · rw [hchain] at h
      cases h
    cases hchain.symm.trans h
    obtain ⟨htrue, tokens, hiter, hver⟩ := verifyAny_ok hany
    obtain ⟨hne, hacc⟩ := verifyChain_ok.1 hver
    rw [relayedChain_eq hiter hver htrue, hhead]
    constructor
    · rintro ⟨relayed, result', hrel, hver', -⟩
      cases hobj : chain.members? with
      | some members => simp [hobj] at hrel
      | none =>
          simp only [hobj, Option.isSome_none, Bool.false_eq_true, if_false, Except.ok.injEq,
            Option.some.injEq] at hrel
          rw [← hrel] at hver'
          refine ⟨hobj, fun r last hr hlast => ?_⟩
          cases hany.symm.trans hr
          exact (relayed_accepted_iff hP hacc agent).1 ⟨_, (verifyChain_ok.1 hver').2⟩ last hlast
    · rintro ⟨hobj, hmay⟩
      obtain ⟨all, hall⟩ := (relayed_accepted_iff hP hacc agent).2
        fun last hlast => hmay result last hany hlast
      obtain ⟨hops', hop, rfl, hacc', hread, -⟩ := hall.concat_inv
      cases Accepted.unique hacc hacc'
      cases Reads.unique hread (hP.reads_signedHop cfg.identity tokens.getLast? _)
      refine ⟨_, ⟨result.hops ++ [_]⟩, ?_, verifyChain_ok.2 ⟨?_, hall⟩, ?_, ?_⟩
      · rw [hobj]
        rfl
      · exact List.append_ne_nil_of_right_ne_nil _ (List.cons_ne_nil _ _)
      · exact (head_of_start (List.prefix_append ..) (hacc.hops_ne_nil hne)).symm
      · simp [ChainResult.presenter, ChainResult.actorPublicKeys, signedHop, Config.publicKey]
  · intro run hrun
    obtain ⟨head, hhead⟩ := hrun.headKeyOf hP
    refine ⟨⟨head, hhead⟩, fun now metadata e => ?_⟩
    unfold authorizeCancel
    rw [hhead]
    cases head with
    | none => rintro ⟨⟩
    | some head =>
        show verifyCancel cfg now _ run.runId _ ≠ _
        unfold verifyCancel
        split
        · split
          · rintro ⟨⟩
          · split
            · rintro ⟨⟩
            · split <;> rintro ⟨⟩
        · rintro ⟨⟩

/-! ## A concrete funduq -/

namespace Demo

/-- AG-UI's models, where they take every value of the right shape as it is. -/
def model : RunInputModel where
  state := .ok
  messages := .ok
  tools
    | .arr items => .ok items
    | _ => .error "Input should be a valid list"
  context
    | .arr items => .ok items
    | _ => .error "Input should be a valid list"
  forwardedProps := .ok
  resume
    | .null => .ok none
    | .arr items => .ok (some items)
    | _ => .error "Input should be a valid list"

/-- A signature is the key and the payload written out. -/
def sign (key payload : String) : String := key ++ " signs " ++ payload

def config : Config String String where
  primitives := Plain.primitives
  identity := "funduq"
  verifySignature key signature payload := signature = sign key payload
  model := model
  issueKyokToken runId _ _ := "grant for " ++ runId
  threadQueueLimit := some 2
  reduceEventsToMessages := fun _ => []
  a2aMessageToAguiMessages message := .ok [message]

def agent : AgentRef := ⟨"provider", "translator"⟩

/-- A chain of one hop, signed by `key`. -/
def oneHop (key : String) (dispatchedTo : Option DispatchTarget := none) : List String :=
  [signHop Plain.primitives key none dispatchedTo]

/-- Somebody else the caller handed the work to. -/
def elsewhere : DispatchTarget := ⟨"other", "agent"⟩

def bag (tokens : List String) : Dict String Json := [("actorChain", .arr (tokens.map .str))]

theorem oneHop_accepted (key : String) (dispatchedTo : Option DispatchTarget) :
    Accepted Plain.primitives (oneHop key dispatchedTo)
      [signedHop Plain.primitives key none dispatchedTo] :=
  Plain.ideal.concat .nil key dispatchedTo nofun

theorem verifyAny_oneHop (key : String) (dispatchedTo : Option DispatchTarget) :
    verifyAny Plain.primitives (.arr ((oneHop key dispatchedTo).map .str)) =
      .ok ⟨[signedHop Plain.primitives key none dispatchedTo]⟩ := by
  have hver : verifyChain Plain.primitives (oneHop key dispatchedTo) =
      .ok ⟨[signedHop Plain.primitives key none dispatchedTo]⟩ :=
    verifyChain_ok.2 ⟨List.cons_ne_nil _ _, oneHop_accepted key dispatchedTo⟩
  show (verifyChain Plain.primitives (oneHop key dispatchedTo)).mapError _ = _
  rw [hver]
  rfl

theorem verifyCaller_oneHop (key : String) (dispatchedTo : Option DispatchTarget) :
    verifyCaller config (bag (oneHop key dispatchedTo)) (some key) =
      .ok ⟨bag (oneHop key dispatchedTo), some key,
        some (.arr ((oneHop key dispatchedTo).map .str))⟩ := by
  show (verifyAny Plain.primitives (.arr ((oneHop key dispatchedTo).map .str)) >>= fun verified =>
    if some key ≠ verified.presenter then _ else _) = _
  rw [verifyAny_oneHop]
  show (if some key ≠ some key then _ else _) = _
  rw [if_neg (by simp)]
  rfl

end Demo

/-- A caller that dispatched nothing itself. -/
theorem relayed_chain_verifies_plain :
    Ideal Demo.config.primitives ∧
      ∃ relayed result,
        relayedChain Demo.config (some (.arr ((Demo.oneHop "caller").map .str))) Demo.agent =
          .ok (some relayed) ∧
        verifyChain Demo.config.primitives relayed = .ok result ∧
        result.head = some "caller" ∧ result.presenter = some "funduq" := by
  refine ⟨Plain.ideal, ((relayed_chain_verifies Demo.config Plain.ideal).1 _ _ _ _ Demo.agent
    (Demo.verifyCaller_oneHop "caller" none) rfl).2 ⟨rfl, ?_⟩⟩
  intro result last hresult hlast target htarget
  cases (Demo.verifyAny_oneHop "caller" none).symm.trans hresult
  cases hlast
  cases htarget

/-- Reading a chain that does not verify fails. -/
theorem headKeyOf_error {run : RunRecord} (hrun : run.actorChain = some tokens)
    (hne : tokens ≠ []) (hno : ∀ result, verifyChain cfg.primitives tokens ≠ .ok result) :
    ∃ e, headKeyOf cfg run = .error (.invalidChain e) := by
  have hchain : chainOf run = some tokens := by
    rw [chainOf, hrun]
    simpa [Option.filter] using hne
  unfold headKeyOf
  cases hv : verifyChain cfg.primitives tokens with
  | ok result => exact absurd hv (hno result)
  | error e => exact ⟨e, by simp only [hchain, hv]; rfl⟩

/-- A caller whose last hop dispatches the work to somebody else: the door accepts
it, and what it records does not verify. -/
theorem dispatched_elsewhere_recorded :
    ∃ v relayed,
      verifyCaller Demo.config (Demo.bag (Demo.oneHop "caller" (some Demo.elsewhere)))
        (some "caller") = .ok v ∧
      relayedChain Demo.config v.actorChain Demo.agent = .ok (some relayed) ∧
      (∀ result, verifyChain Demo.config.primitives relayed ≠ .ok result) ∧
      ∀ run : RunRecord, run.actorChain = some relayed →
        ∃ e, headKeyOf Demo.config run = .error (.invalidChain e) := by
  have hideal : Ideal Demo.config.primitives := Plain.ideal
  have hacc : Accepted Demo.config.primitives (Demo.oneHop "caller" (some Demo.elsewhere)) _ :=
    Demo.oneHop_accepted "caller" (some Demo.elsewhere)
  have hver : verifyChain Demo.config.primitives (Demo.oneHop "caller" (some Demo.elsewhere)) =
      .ok ⟨_⟩ := verifyChain_ok.2 ⟨List.cons_ne_nil _ _, hacc⟩
  have hno : ∀ result, verifyChain Demo.config.primitives
      (Demo.oneHop "caller" (some Demo.elsewhere) ++ [signHop Demo.config.primitives
        Demo.config.identity (Demo.oneHop "caller" (some Demo.elsewhere)).getLast?
        (some (targetOf Demo.agent))]) ≠ .ok result := by
    intro result hresult
    have hmay := (relayed_accepted_iff hideal hacc Demo.agent).1
      ⟨_, (verifyChain_ok.1 hresult).2⟩ _ rfl Demo.elsewhere rfl
    rcases hmay with h | h
    · exact absurd h (show ¬ "other" = "funduq" by decide)
    · exact absurd h (show ¬ "caller" = "funduq" by decide)
  refine ⟨_, _, Demo.verifyCaller_oneHop _ _, relayedChain_eq rfl hver rfl Demo.agent, hno,
    fun run hrun => ?_⟩
  exact headKeyOf_error hrun (List.cons_ne_nil _ _) hno

end Funduq.Doors
