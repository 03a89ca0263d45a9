import Funduq.Doors.Bindings

/-!
# funduq's own key

Whatever a caller puts under `funduq` in its bag is gone at the door: a call with
another value there, or with none, is the same program.  What is handed over is the
caller's bag but for that key, and under the key what funduq has put there.

## Main results

* `program_withBag`: two bags that hold the same but for the key make one program.
* `Opens.delivered`: what a run is handed is its caller's bag with funduq's own word in
  it, and that word rests on no value under the key.
* `own_key_is_funduqs`: the three together with the round trip of the word.
-/

namespace Funduq.Doors

open Funduq.Lib Funduq.Store
open Funduq.Broker (AgentRef)
open Prog hiding ofExcept

variable {PrivateKey PublicKey : Type} {cfg : Config PrivateKey PublicKey}

/-! ## Bags -/

/-- A bag without funduq's own key. -/
def strip (bag : Dict String Json) : Dict String Json :=
  bag.filter fun m => m.1 ≠ observedMetadataKey

/-- Two bags agree under every key but funduq's own, in whatever order they hold them. -/
def AgreeElsewhere (bag bag' : Dict String Json) : Prop :=
  ∀ key, key ≠ observedMetadataKey → bag.get? key = bag'.get? key

theorem strip_set {key : String} (hkey : key ≠ observedMetadataKey) (bag : Dict String Json)
    (value : Json) : strip (bag.set key value) = (strip bag).set key value := by
  induction bag with
  | nil => simp [strip, Dict.set, hkey]
  | cons m bag ih =>
      unfold strip at ih ⊢
      simp only [Dict.set]
      by_cases hm : m.1 = key
      · rw [if_pos hm, List.filter_cons_of_pos (by simpa using hkey),
          List.filter_cons_of_pos (by simpa [hm] using hkey)]
        simp [Dict.set, hm]
      · rw [if_neg hm]
        by_cases hown : m.1 = observedMetadataKey
        · rw [List.filter_cons_of_neg (by simpa using hown),
            List.filter_cons_of_neg (by simpa using hown)]
          exact ih
        · rw [List.filter_cons_of_pos (by simpa using hown),
            List.filter_cons_of_pos (by simpa using hown), ih]
          simp [Dict.set, hm]

theorem get?_strip (bag : Dict String Json) {key : String} (hkey : key ≠ observedMetadataKey) :
    (strip bag).get? key = bag.get? key := by
  rw [Dict.get?_eq_find?, Dict.get?_eq_find?]
  exact congrArg _ (find?_filter_ne hkey)

/-- A bag without the key is forwarded as the bag is. -/
theorem build_strip (ours : FunduqProps) (bag : Dict String Json) :
    buildForwardedProps ours (.obj (strip bag)) = buildForwardedProps ours (.obj bag) := by
  have hstrip : strip (strip bag) = strip bag := by
    unfold strip
    rw [List.filter_filter]
    simp
  unfold buildForwardedProps
  simp only
  rw [show (strip bag).filter _ = _ from hstrip]
  rfl

/-! ## The door -/

theorem verifyCaller_congr {bag bag' : Dict String Json} (h : strip bag = strip bag')
    (presenterKey : Option String) :
    verifyCaller cfg bag presenterKey = verifyCaller cfg bag' presenterKey := by
  unfold verifyCaller
  unfold strip at h
  rw [h]

theorem readCaller_congr {bag bag' : Dict String Json} (h : strip bag = strip bag')
    (presenterKey : Option String) :
    readCaller cfg (.obj bag) presenterKey = readCaller cfg (.obj bag') presenterKey := by
  unfold readCaller bagOf
  rw [verifyCaller_congr h]
  rfl

/-- The call, made with another bag. -/
def Call.withBag : Call → Dict String Json → Call
  | .startRun agent runInput threadId presenterKey, bag =>
      .startRun agent (runInput.set "forwardedProps" (.obj bag)) threadId presenterKey
  | .resumeRun runId runInput presenterKey, bag =>
      .resumeRun runId (runInput.set "forwardedProps" (.obj bag)) presenterKey
  | .aguiRun agent body presenterKey, bag =>
      .aguiRun agent { body with forwardedProps := .obj bag } presenterKey
  | .a2aSend agent message actorChain _ presenterKey, bag =>
      .a2aSend agent message actorChain bag presenterKey
  | call, _ => call

theorem member_set (runInput : Dict String Json) (bag : Json) :
    member (runInput.set "forwardedProps" bag) "forwardedProps" = bag := by
  unfold member
  rw [Dict.get?_set, if_pos rfl]
  rfl

/-- The rest of a run's input is read past its bag. -/
theorem inboundOf_set (agent : AgentRef) (runInput : Dict String Json) (bag : Json)
    (caller : Caller) :
    inboundOf agent (runInput.set "forwardedProps" bag) caller = inboundOf agent runInput caller := by
  unfold inboundOf member
  simp only [Dict.get?_set]
  simp

theorem strip_a2aBag {bag bag' : Dict String Json} (h : strip bag = strip bag')
    (actorChain : Option (List String)) :
    strip (a2aBag actorChain bag) = strip (a2aBag actorChain bag') := by
  unfold a2aBag
  split
  · rw [strip_set (by decide), strip_set (by decide), h]
  · exact h

/-- **Non-interference.**  Two bags that hold the same but for funduq's own key make one
program of a call. -/
theorem program_withBag (call : Call) (questions : Nat) {bag bag' : Dict String Json}
    (h : strip bag = strip bag') :
    program cfg ⟨call.withBag bag, questions⟩ = program cfg ⟨call.withBag bag', questions⟩ := by
  cases call with
  | startRun agent runInput threadId presenterKey =>
      simp only [program, Call.withBag, startRun, member_set, inboundOf_set, readCaller_congr h]
  | resumeRun runId runInput presenterKey =>
      simp only [program, Call.withBag, resumeRun, member_set, inboundOf_set, readCaller_congr h]
  | aguiRun agent body presenterKey =>
      simp only [program, Call.withBag, aguiRun, readCaller_congr h]
      rfl
  | a2aSend agent message actorChain metadata presenterKey =>
      simp only [program, Call.withBag, a2aStartRun, readCaller_congr (strip_a2aBag h actorChain)]
  | cancelRun runId metadata => rfl
  | cancelTask agent taskId metadata => rfl

/-! ## What is handed over -/

/-- The opt-in and the chain of a caller are read past funduq's own key. -/
theorem CallerOf.reads {bag : Json} {caller : Caller} (h : CallerOf cfg bag caller) :
    caller.kyok = parseKyokOptIn (bagOf bag) ∧
      caller.actorChain = ((bagOf bag).get? "actorChain").filter Json.truthy ∧
      ∀ ours, buildForwardedProps ours caller.forwardedProps = buildForwardedProps ours bag := by
  obtain ⟨presenterKey, hverified⟩ := h.verified
  obtain ⟨hprops, hchain⟩ := verifyCaller_bag hverified
  have hstrip : caller.props = strip (bagOf bag) := hprops
  refine ⟨?_, ?_, fun ours => ?_⟩
  · rw [h.kyok, hstrip]
    exact parseKyokOptIn_congr (get?_strip _ (by decide))
  · rw [← get?_strip (bagOf bag) (by decide)]
    exact hchain
  · rw [h.forwardedProps, hstrip]
    cases bag with
    | obj members => exact build_strip ours members
    | _ => rfl

/-- A chain that is empty is none. -/
theorem relayedChain_filter (chain : Option Json) (agent : AgentRef) :
    relayedChain cfg (chain.filter Json.truthy) agent = relayedChain cfg chain agent := by
  cases chain with
  | none => rfl
  | some chain => cases htruthy : chain.truthy <;> simp [Option.filter, relayedChain, htruthy]

/-- What funduq puts under its own key of a run: the grant of one that is bound, the run it
joins, and the chain of its row. -/
def ownWord (cfg : Config PrivateKey PublicKey) (opening : Opening) (row : RunRecord) :
    FunduqProps where
  kyok := opening.handed.binding.map fun _ =>
    cfg.issueKyokToken row.runId row.agent row.createdAt
  addressedRunId := opening.handed.addressedRunId
  actorChain := chainOf row

/-- **Delivery.**  A run is given its caller's bag with funduq's word in it. -/
theorem Opens.delivered {W : World → Prop} {R : List Name → World → World → Prop} {call : Call}
    {held : List Name} {w : World} {front : List Write} {o : Opened} (hV : cfg.model.Verbatim)
    (h : Opens cfg W R call held w front o) :
    o.input.forwardedProps = buildForwardedProps (ownWord cfg o.opening o.row) call.bag ∧
      o.handed.binding = call.bindingWith o.row.actorChain ∧
      relayedChain cfg ((bagOf call.bag).get? "actorChain") o.row.agent = .ok o.row.actorChain := by
  obtain ⟨caller, hcaller, -, hchain, hkyok, hforwarded⟩ := h.inbound.caller
  obtain ⟨hoptIn, hactor, hbuild⟩ := hcaller.reads
  obtain ⟨-, -, -, -, -, -, hprops, -, -⟩ := buildRunAgentInput_ok (assemble_ok h.assembled)
  have hbinding : o.handed.binding = call.bindingWith o.row.actorChain := by
    show bindingOf o.inbound o.relayed = _
    unfold bindingOf Call.bindingWith
    rw [hkyok, hoptIn]
    rfl
  refine ⟨?_, hbinding, ?_⟩
  · have hword : funduqProps cfg o.inbound o.relayed o.runId o.addressed o.now =
        ownWord cfg o.opening o.row := by
      have hid : o.row.runId = o.runId := h.runId_eq
      unfold funduqProps ownWord InboundRun.kyokRef
      rw [hid]
      show FunduqProps.mk _ _ _ = FunduqProps.mk ((bindingOf o.inbound o.relayed).map _) _ _
      unfold bindingOf
      congr 1
      cases o.inbound.kyok with
      | none => rfl
      | some optIn =>
          show Option.map _ optIn.llmProvider = Option.map _ (Option.map _ optIn.llmProvider)
          cases optIn.llmProvider <;> rfl
    rw [hV hprops, hword, hforwarded, hbuild]
  · rw [← relayedChain_filter, ← hactor, ← hchain]
    exact h.relayed

/-- A request is about to commit the row of a run it opens. -/
def AboutToOpen (s : Process) (call : Call) (row : RunRecord) (opening : Opening) : Prop :=
  ∃ i : Nat, ∃ t, s.txns[i]? = some t ∧ t.commits ∧ t.call.call = call ∧
    .newRun row opening ∈ t.writes

/-- The run whose row is among the writes is the one that is opened. -/
theorem Commits.opens_of_mem {W : World → Prop} {R : List Name → World → World → Prop}
    {call : Call} {held : List Name} {w : World} {ws : List Write}
    (h : Commits cfg W R call held ws w) {row : RunRecord} {opening : Opening}
    (hmem : .newRun row opening ∈ ws) :
    ∃ front o, Opens cfg W R call held w front o ∧ row = o.row ∧ opening = o.opening := by
  cases h with
  | opens front o h =>
      refine ⟨front, o, h, ?_⟩
      rcases List.mem_append.1 hmem with hfront | hwrites
      · cases h.thread with
        | existing _ front_eq => simp [front_eq] at hfront
        | created _ front_eq => simp [front_eq] at hfront
        | resumed _ front_eq => simp [front_eq] at hfront
      · rcases List.mem_cons.1 hwrites with heq | hmessages
        · injection heq with hrow hopening
          exact ⟨hrow, hopening⟩
        · obtain ⟨m, -, hm⟩ := List.mem_map.1 hmessages
          cases hm
  | _ => simp at hmem

theorem AboutToOpen.delivered (hV : cfg.model.Verbatim) {s : Process}
    (hs : (system cfg Empty).Reachable s) {call : Call} {row : RunRecord} {opening : Opening}
    (h : AboutToOpen s call row opening) :
    opening.handed.inputJson.forwardedProps =
        buildForwardedProps (ownWord cfg opening row) call.bag ∧
      opening.handed.binding = call.bindingWith row.actorChain ∧
      relayedChain cfg ((bagOf call.bag).get? "actorChain") row.agent = .ok row.actorChain := by
  obtain ⟨i, t, ht, hcommits, rfl, hmem⟩ := h
  obtain ⟨front, o, hopens, rfl, rfl⟩ :=
    ((concurrent_onFile hs).promised ht hcommits).opens_of_mem hmem
  exact hopens.delivered hV

/-! ## What an agent reads -/

/-- A value that is no object has nothing under any key. -/
theorem FunduqProps.of_bag (bag : Json) : FunduqProps.of (.obj (bagOf bag)) = FunduqProps.of bag := by
  cases bag <;> rfl

/-- Under funduq's own key there is its word, or nothing. -/
theorem get?_build_own (ours : FunduqProps) (bag : Json) :
    (bagOf (buildForwardedProps ours bag)).get? observedMetadataKey =
      if ours.dump.isEmpty then none else some (.obj ours.dump) := by
  have hlast : ∀ theirs : Dict String Json,
      theirs.find? (fun m => m.1 = observedMetadataKey) = none →
      Dict.get? (theirs ++ [(observedMetadataKey, Json.obj ours.dump)]) observedMetadataKey =
        some (.obj ours.dump) := by
    intro theirs hnone
    rw [Dict.get?_eq_find?, List.find?_append, hnone]
    simp
  split
  · rename_i hempty
    cases bag with
    | obj members =>
        simp only [buildForwardedProps, if_pos hempty, bagOf]
        rw [Dict.get?_eq_find?, find?_filter_own]
        rfl
    | _ =>
        simp only [buildForwardedProps, if_pos hempty]
        rfl
  · rename_i hempty
    cases bag with
    | obj members =>
        simp only [buildForwardedProps, if_neg hempty, bagOf]
        exact hlast _ (find?_filter_own members)
    | _ =>
        simp only [buildForwardedProps, if_neg hempty, bagOf]
        exact hlast [] rfl

/-- What the caller's bag says elsewhere is all that what it is forwarded as rests on. -/
theorem agree_build (ours : FunduqProps) {bag bag' : Json}
    (h : AgreeElsewhere (bagOf bag) (bagOf bag')) (key : String) :
    (bagOf (buildForwardedProps ours bag)).get? key =
      (bagOf (buildForwardedProps ours bag')).get? key := by
  by_cases hkey : key = observedMetadataKey
  · rw [hkey, get?_build_own, get?_build_own]
  · rw [get?_build ours bag hkey, get?_build ours bag' hkey, h key hkey]

/-- Two runs of one name, of callers whose bags agree elsewhere, get one word. -/
theorem ownWord_congr {s s' : Process} (hV : cfg.model.Verbatim)
    (hs : (system cfg Empty).Reachable s) (hs' : (system cfg Empty).Reachable s')
    {call call' : Call} {row row' : RunRecord} {opening opening' : Opening}
    (h : AboutToOpen s call row opening) (h' : AboutToOpen s' call' row' opening')
    (hbags : AgreeElsewhere (bagOf call.bag) (bagOf call'.bag))
    (hid : row.runId = row'.runId) (hagent : row.agent = row'.agent)
    (htime : row.createdAt = row'.createdAt)
    (haddressed : opening.handed.addressedRunId = opening'.handed.addressedRunId) :
    ownWord cfg opening row = ownWord cfg opening' row' := by
  obtain ⟨-, hbinding, hchain⟩ := h.delivered hV hs
  obtain ⟨-, hbinding', hchain'⟩ := h'.delivered hV hs'
  rw [hbags "actorChain" (by decide), hagent, hchain', Except.ok.injEq] at hchain
  have hkyok : parseKyokOptIn (bagOf call.bag) = parseKyokOptIn (bagOf call'.bag) :=
    parseKyokOptIn_congr (hbags "kyok" (by decide))
  have hbound : opening.handed.binding = opening'.handed.binding := by
    rw [hbinding, hbinding', ← hchain]
    unfold Call.bindingWith
    rw [hkyok]
  unfold ownWord chainOf
  rw [hbound, hid, hagent, htime, haddressed, hchain]

/-! ## The whole way -/

/-- **Main result.**  A call with another value under funduq's own key is the same
program.  What a run is handed has every other key as its caller's bag has it, and under
its own key reads back as funduq's word; so of callers that agree elsewhere, in whatever
order, it is handed one thing.  And whatever a caller sends, object or not, funduq's word
is read back as it was put. -/
theorem own_key_is_funduqs (hV : cfg.model.Verbatim) :
    (∀ (call : Call) (questions : Nat) (bag bag' : Dict String Json), strip bag = strip bag' →
      program cfg ⟨call.withBag bag, questions⟩ = program cfg ⟨call.withBag bag', questions⟩) ∧
    (∀ s, (system cfg Empty).Reachable s → ∀ call row opening, AboutToOpen s call row opening →
      let props := opening.handed.inputJson.forwardedProps
      (∀ key, key ≠ observedMetadataKey →
        (bagOf props).get? key = (bagOf call.bag).get? key) ∧
      FunduqProps.of props = ownWord cfg opening row ∧
      ∀ s', (system cfg Empty).Reachable s' → ∀ call' row' opening',
        AboutToOpen s' call' row' opening' →
        AgreeElsewhere (bagOf call.bag) (bagOf call'.bag) →
        row.runId = row'.runId → row.agent = row'.agent → row.createdAt = row'.createdAt →
        opening.handed.addressedRunId = opening'.handed.addressedRunId →
        ∀ key, (bagOf props).get? key =
          (bagOf opening'.handed.inputJson.forwardedProps).get? key) ∧
    ∀ ours value, FunduqProps.of (buildForwardedProps ours value) = ours := by
  have hround : ∀ ours value, FunduqProps.of (buildForwardedProps ours value) = ours := by
    intro ours value
    rw [← FunduqProps.of_bag]
    exact FunduqProps.of_build ours value
  refine ⟨fun call questions bag bag' h => program_withBag call questions h, ?_, hround⟩
  intro s hs call row opening h
  have hprops := (h.delivered hV hs).1
  refine ⟨fun key hkey => ?_, ?_, ?_⟩
  · rw [hprops]
    exact get?_build _ _ hkey
  · rw [hprops]
    exact hround _ _
  · intro s' hs' call' row' opening' h' hbags hid hagent htime haddressed key
    rw [hprops, (h'.delivered hV hs').1,
      ownWord_congr hV hs hs' h h' hbags hid hagent htime haddressed]
    exact agree_build _ hbags key

namespace Demo

/-- A bag that opts into KYOK, and has a grant and a target of the caller's own making
under funduq's key. -/
def forged : Dict String Json := [("forwardedProps", .obj [
  ("funduq", .obj [("kyok", .obj [("token", .str "mine")]), ("addressedRunId", .str "theirs")]),
  ("kyok", .obj [("llmProvider", .obj [("providerKey", .str "llm"), ("name", .str "model")])]),
  ("colour", .str "red")])]

/-- The call of that caller, up to the commit of its run's row. -/
def forging : List (Move Request Outside) :=
  [.outside (.registerLlmProvider offering), calls (.startRun agent (saying "m0" forged) none none)] ++
  advances 0 ["", "t", "", "", "", "r0", "", "", ""]

/-- The run the first request is about to open. -/
def opensNext (s : Process) : Option (Call × RunRecord × Opening) :=
  match s.txns[(0 : Nat)]? with
  | some { call, prog := .commit _, writes, .. } =>
      writes.findSome? fun
        | .newRun row opening => some (call.call, row, opening)
        | _ => none
  | _ => none

theorem aboutToOpen {s : Process} {call : Call} {row : RunRecord} {opening : Opening}
    (h : opensNext s = some (call, row, opening)) : AboutToOpen s call row opening := by
  unfold opensNext at h
  split at h
  · rename_i request k started writes held ht
    obtain ⟨w, hw, heq⟩ := List.exists_of_findSome?_eq_some h
    split at heq
    · cases heq
      exact ⟨0, _, ht, ⟨k, rfl⟩, rfl, hw⟩
    · cases heq
  · cases h

end Demo

/-- The agent reads funduq's grant and no target, and the caller's colour. -/
theorem own_key_is_funduqs_forged :
    ∃ call row opening, AboutToOpen (Demo.after Demo.forging) call row opening ∧
      (FunduqProps.of opening.handed.inputJson.forwardedProps).kyok =
        some (Demo.config.issueKyokToken "r0" Demo.agent row.createdAt) ∧
      (FunduqProps.of opening.handed.inputJson.forwardedProps).addressedRunId = none ∧
      (bagOf opening.handed.inputJson.forwardedProps).get? "colour" =
        (bagOf call.bag).get? "colour" := by
  cases hnext : Demo.opensNext (Demo.after Demo.forging) with
  | none =>
      have hsome : (Demo.opensNext (Demo.after Demo.forging)).isSome = true := by decide +kernel
      rw [hnext] at hsome
      cases hsome
  | some next =>
      obtain ⟨call, row, opening⟩ := next
      have hword : (Demo.opensNext (Demo.after Demo.forging)).map (fun e =>
          (e.2.1.runId, e.2.1.agent, e.2.2.handed.binding.isSome,
            e.2.2.handed.addressedRunId)) = some ("r0", Demo.agent, true, none) := by
        decide +kernel
      rw [hnext] at hword
      simp only [Option.map_some, Option.some.injEq, Prod.mk.injEq] at hword
      obtain ⟨hid, hagent, hbound, haddressed⟩ := hword
      have hopens := Demo.aboutToOpen hnext
      obtain ⟨hkeys, hof, -⟩ := (own_key_is_funduqs Demo.model_verbatim).2.1 _
        (Demo.after_reachable _) call row opening hopens
      obtain ⟨binding, hbinding⟩ := Option.isSome_iff_exists.1 hbound
      refine ⟨call, row, opening, hopens, ?_, ?_, hkeys "colour" (by decide)⟩
      · rw [hof]
        simp [ownWord, hbinding, hid, hagent]
      · rw [hof]
        exact haddressed

end Funduq.Doors
