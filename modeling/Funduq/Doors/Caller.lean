import Funduq.Contract.Chain
import Funduq.Doors.Input
import Funduq.Lib.Except

/-!
# Who is at the door

What a door makes of its caller before it opens anything: the chain the caller
presents (`verify_caller`), its KYOK opt-in, and the chain as it will leave
funduq (`relayed_chain`).  And what funduq makes of a recorded run's chain later:
the authority it was opened under (`head_key_of`), who may cancel it
(`authorize_cancel`), whose signature answers it (`verify_resolution`) and who may
read its thread (`readers_of`).

The bag is JSON and its `actorChain` may be any JSON value, so the chain is
iterated the way Python iterates: an object yields its keys, a string its
characters.
-/

namespace Funduq.Doors

open Funduq.Lib Funduq.Store Funduq.Contract
open Funduq.Broker (AgentRef Time)

/-- What a door raises. -/
inductive DoorError where
  | presenterRequired (message : String)
  | invalidChain (e : InvalidChain)
  | typeError (message : String)
  | keyError (message : String)
  | integrityError
  | llmProviderNotFound (message : String)
  | threadNotFound (threadId : String)
  | threadOwnershipMismatch (message : String)
  | threadMembershipRequired (message : String)
  | threadQueueFull (message : String)
  | invalidRunInput (message : String)
  | invalidResolution (message : String)
  | invalidCancel (message : String)
  | agentNotFound (message : String)
  | noPendingAsk (message : String)
  | lookupError (message : String)
  | taskNotFound (message : String)
  | invalidParams (message : String)
  | unsupportedOperation (message : String)
  | taskNotCancelable (message : String)
  /-- A loop over the links of a lineage has not come to an end yet. -/
  | stillLooping
  deriving DecidableEq, Repr

/-- What funduq is configured with, and what it takes from elsewhere: the
primitives of the chain, the check of a signature, AG-UI's models, the token of a
KYOK grant, and the translations between events, A2A messages and AG-UI
messages. -/
structure Config (PrivateKey PublicKey : Type) where
  primitives : Primitives PrivateKey PublicKey
  identity : PrivateKey
  verifySignature : String → String → String → Bool
  model : RunInputModel
  issueKyokToken : String → AgentRef → Time → String
  threadQueueLimit : Option Int
  reduceEventsToMessages : List Json → List Json
  a2aMessageToAguiMessages : Json → Except DoorError (List Json)

variable {PrivateKey PublicKey : Type} (cfg : Config PrivateKey PublicKey)

/-- funduq's own public key. -/
def Config.publicKey : String := cfg.primitives.publicKeyHex cfg.identity

/-! ## Chains as they come -/

/-- What `for token in chain` goes over. -/
def iterate : Json → Except DoorError (List Json)
  | .arr items => .ok items
  | .obj members => .ok (members.map fun m => .str m.1)
  | .str s => .ok (s.toList.map fun c => .str c.toString)
  | _ => .error (.typeError "object is not iterable")

/-- `verify_chain` on a list of JSON values: a token that is no string does not
parse. -/
def verifyTokens (P : Primitives PrivateKey PublicKey) (items : List Json) :
    Except DoorError ChainResult :=
  let leading := (items.takeWhile fun i => i.str?.isSome).filterMap Json.str?
  if leading.length = items.length then
    (verifyChain P leading).mapError .invalidChain
  else do
    let _ ← (leading.zipIdx.foldlM (verifyHop P) {}).mapError DoorError.invalidChain
    throw (.invalidChain (.atHop leading.length
      "unparseable token: Invalid token type. Token must be a <class 'bytes'>"))

/-- `verify_chain` on what a caller presents. -/
def verifyAny (P : Primitives PrivateKey PublicKey) (chain : Json) :
    Except DoorError ChainResult := do
  if !chain.truthy then throw (.invalidChain ⟨"empty actor chain"⟩)
  let items ← iterate chain
  verifyTokens P items

/-- `prev_chain[-1]` and `[*prev_chain, …]` on a JSON value. -/
def tokensToExtend : Json → Except DoorError (List String)
  | .obj _ => .error (.keyError "-1")
  | chain => do
      let items ← iterate chain
      if items.all fun i => i.str?.isSome then return items.filterMap Json.str?
      throw (.typeError "encode")

/-- `relayed_chain`: the chain as it will leave funduq, one hop longer. -/
def relayedChain (chain : Option Json) (agent : AgentRef) :
    Except DoorError (Option (List String)) :=
  match chain with
  | none => .ok none
  | some chain =>
      if chain.truthy then do
        let tokens ← tokensToExtend chain
        let relayed ← (dispatchHop cfg.primitives cfg.identity tokens
          ⟨agent.providerKey, agent.name⟩).mapError fun _ => DoorError.keyError "-1"
        return some relayed
      else .ok none

/-! ## The caller -/

/-- What `verify_caller` returns. -/
structure Verified where
  props : Dict String Json
  headKey : Option String
  actorChain : Option Json

/-- A key as it is shown. -/
def short (key : String) : String := (key.take 16).toString

/-- `verify_caller`: the bag stripped of funduq's own key, and its chain's head
and the chain, if it carries one. -/
def verifyCaller (bag : Dict String Json) (presenterKey : Option String) :
    Except DoorError Verified :=
  let props : Dict String Json := bag.filter fun m => m.1 ≠ observedMetadataKey
  match props.get? "actorChain" with
  | none => .ok ⟨props, none, none⟩
  | some actorChain =>
      if !actorChain.truthy then .ok ⟨props, none, none⟩
      else
        match presenterKey with
        | none => .error (.presenterRequired
            ("a chain was presented, but this door was not told which key presented it. "
              ++ "Nothing in the request is wrong: the transport must authenticate the caller "
              ++ "and hand the key to core (`presenter_key_of` on the A2A handler, "
              ++ "`presenter_key=` on the AG-UI adapter and the facade). Until it does, this "
              ++ "deployment does not accept chains."))
        | some presenterKey => do
            let verified ← verifyAny cfg.primitives actorChain
            if some presenterKey ≠ verified.presenter then
              let signer := short (verified.presenter.getD "")
              let caller := short presenterKey
              throw (DoorError.invalidChain ⟨s!"the chain's last hop was signed by {signer}…, "
                ++ s!"but the caller authenticated as {caller}… — extend the chain with "
                ++ "your own key to present it"⟩)
            return ⟨props, verified.head, some actorChain⟩

/-! ## KYOK -/

structure KyokOptIn where
  llmProvider : Option LlmRef
  context : Json

/-- An `LlmRef` under its two keys. -/
def readLlmRef (target : Json) (providerKey : String) : Option LlmRef :=
  match target.getStr? providerKey, target.getStr? "name" with
  | some key, some name => some ⟨key, name⟩
  | _, _ => none

/-- `parse_kyok_opt_in`: `none` when there is none, or it is malformed. -/
def parseKyokOptIn (bag : Dict String Json) : Option KyokOptIn :=
  match bag.get? "kyok" with
  | some (.obj raw) =>
      let context := ((Json.obj raw).get? "context").getD .null
      match (Json.obj raw).get? "llmProvider" with
      | some (.obj target) =>
          (readLlmRef (.obj target) "providerKey").map fun ref => ⟨some ref, context⟩
      | some .null => some ⟨none, context⟩
      | some _ => none
      | none =>
          match (Json.obj raw).get? "llm_provider" with
          | some (.obj target) =>
              (readLlmRef (.obj target) "provider_key").map fun ref => ⟨some ref, context⟩
          | some .null => some ⟨none, context⟩
          | some _ => none
          | none => some ⟨none, context⟩
  | _ => none

/-! ## A recorded run's chain -/

/-- The chain of a row, `none` when it has none or an empty one. -/
def chainOf (run : RunRecord) : Option (List String) :=
  run.actorChain.filter fun chain => !chain.isEmpty

/-- `head_key_of`: the authority a run was opened under. -/
def headKeyOf (run : RunRecord) : Except DoorError (Option String) :=
  match chainOf run with
  | none => .ok none
  | some chain => ((verifyChain cfg.primitives chain).mapError .invalidChain).map (·.head)

/-- One run of the loop in `readers_of`: its chain's keys join the circle. -/
def joinReaders (circle : List String) (run : RunRecord) : Except DoorError (List String) :=
  match chainOf run with
  | none => .ok circle
  | some chain => do
      let verified ← (verifyChain cfg.primitives chain).mapError DoorError.invalidChain
      return circle ++ verified.actorPublicKeys

/-- `readers_of`: the keys that may read a bound thread, `none` for a thread
nobody bound. -/
def readersOf (w : World) (thread : ThreadRow) : Except DoorError (Option (List String)) :=
  match thread.headKey with
  | none => .ok none
  | some head => do
      let circle ← (w.runsOf thread.threadId).foldlM (joinReaders cfg)
        [thread.agent.providerKey, head]
      return some circle

/-! ## Signed acts -/

/-- `resolve_payload`: the bytes an authority signs to answer a run's asks. -/
def resolvePayload (P : Primitives PrivateKey PublicKey) (runId : String) (asks : List String) :
    String :=
  let asksHash := P.sha256 (String.intercalate "\x00" (asks.insertionSort fun a b => a ≤ b))
  s!"funduq-resolve:{runId}:{asksHash}"

/-- `cancel_payload`. -/
def cancelPayload (runId : String) (timestamp : Int) : String :=
  s!"funduq-cancel:{runId}:{timestamp}"

/-- `verify_resolution`: the resolution that was checked. -/
def verifyResolution (resolution : Json) (runId : String) (asks allowedKeys : List String) :
    Except DoorError Resolution :=
  match resolution.getStr? "publicKey", resolution.getStr? "signature" with
  | some signer, some signature =>
      if signer ∉ allowedKeys then
        .error (.invalidResolution ("the signer is not an authority for this run — neither its "
          ++ "segment head nor its provider (cannot resolve it)"))
      else if cfg.verifySignature signer signature (resolvePayload cfg.primitives runId asks) then
        .ok ⟨signer, signature, runId, asks⟩
      else .error (.invalidResolution ("resolve signature does not verify — it must sign this "
        ++ "run's outstanding asks, exactly"))
  | _, _ => .error (.invalidResolution "malformed resolve proof")

/-- What a resolution that was accepted says. -/
theorem verifyResolution_ok {proof : Json} {runId : String} {asks allowedKeys : List String}
    {resolution : Resolution}
    (h : verifyResolution cfg proof runId asks allowedKeys = .ok resolution) :
    resolution.root = runId ∧ resolution.asks = asks ∧ resolution.signer ∈ allowedKeys ∧
      cfg.verifySignature resolution.signer resolution.signature
        (resolvePayload cfg.primitives runId asks) = true := by
  unfold verifyResolution at h
  split at h
  · split at h
    · cases h
    · rename_i hallowed
      split at h
      · rename_i hverify
        cases h
        exact ⟨rfl, rfl, Decidable.not_not.1 hallowed, hverify⟩
      · cases h
  · cases h

/-- `SIGNATURE_FRESHNESS_WINDOW_SECONDS`, in thousandths. -/
def signatureFreshnessWindow : Nat := 60000

/-- `int(proof["timestamp"])`. -/
def timestampOf : Json → Option Int
  | .num n => some n
  | .bool b => some (if b then 1 else 0)
  | .str s => s.toInt?
  | _ => none

/-- `verify_cancel`: the cancel that was checked, by the authority that asked. -/
def verifyCancel (now : Time) (cancel : Json) (runId : String) (allowedKeys : List String) :
    Except DoorError CancelNote :=
  match cancel.getStr? "publicKey", (cancel.get? "timestamp").bind timestampOf,
      cancel.getStr? "signature" with
  | some signer, some timestamp, some signature =>
      if signer ∉ allowedKeys then
        .error (.invalidCancel ("the signer is not an authority for this run — neither its "
          ++ "segment head nor its provider (cannot cancel it)"))
      else if (now - timestamp * 1000).natAbs > signatureFreshnessWindow then
        .error (.invalidCancel "cancel timestamp outside the freshness window")
      else if cfg.verifySignature signer signature (cancelPayload runId timestamp) then
        .ok ⟨runId, some signer, timestamp, signature⟩
      else .error (.invalidCancel "cancel signature does not verify")
  | _, _, _ => .error (.invalidCancel "malformed cancel proof")

/-- What a cancel that was accepted says. -/
theorem verifyCancel_ok {now : Time} {cancel : Json} {runId : String} {allowedKeys : List String}
    {note : CancelNote} (h : verifyCancel cfg now cancel runId allowedKeys = .ok note) :
    note.runId = runId ∧ ∃ signer ∈ allowedKeys, note.requestedBy = some signer ∧
      cfg.verifySignature signer note.signature (cancelPayload runId note.timestamp) = true := by
  unfold verifyCancel at h
  split at h
  · split at h
    · cases h
    · rename_i hallowed
      split at h
      · cases h
      · split at h
        · rename_i hverify
          cases h
          exact ⟨rfl, _, Decidable.not_not.1 hallowed, rfl, hverify⟩
        · cases h
  · cases h

/-- `authorize_cancel`: what is recorded of the cancel, refused where it carries
no authority over a run with a chain. -/
def authorizeCancel (now : Time) (run : RunRecord) (metadata : Dict String Json) :
    Except DoorError CancelNote := do
  let head ← headKeyOf cfg run
  match head with
  | none => return ⟨run.runId, none, 0, ""⟩
  | some head =>
      verifyCancel cfg now (((metadata.get? "cancel").getD .null).orElse (.obj [])) run.runId
        [head, run.agent.providerKey]

/-- A cancel is recorded of the run it was asked of, and of a run with a chain on
the word of an authority. -/
theorem authorizeCancel_ok {now : Time} {run : RunRecord} {metadata : Dict String Json}
    {note : CancelNote} (h : authorizeCancel cfg now run metadata = .ok note) :
    note.runId = run.runId ∧ ∃ head, headKeyOf cfg run = .ok head ∧
      ∀ key, head = some key → ∃ signer ∈ [key, run.agent.providerKey],
        note.requestedBy = some signer ∧ cfg.verifySignature signer note.signature
          (cancelPayload run.runId note.timestamp) = true := by
  unfold authorizeCancel at h
  obtain ⟨head, hhead, h⟩ := bind_eq_ok.1 h
  cases head with
  | none =>
      cases h
      exact ⟨rfl, none, hhead, nofun⟩
  | some key =>
      obtain ⟨hid, hsigned⟩ := verifyCancel_ok cfg h
      refine ⟨hid, some key, hhead, fun key' hkey => ?_⟩
      cases hkey
      exact hsigned

end Funduq.Doors
