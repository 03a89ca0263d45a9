import Funduq.Lib.Dict
import Funduq.Lib.Json

/-!
# The actor chain

A chain is a list of signed tokens, one for each hop the work took.  A hop says
whose key signed it and carries the hash of the token before it; a hop that
dispatched the work says where to.  `verifyChain` walks the tokens in order with
the previous token and the previous hop in hand.

The signatures, the token format and the hash belong to libraries (`jwt`,
`cryptography`, `hashlib`), so they are a parameter, `Primitives`: what each call
returns, or the text of what it raises.
-/

namespace Funduq.Contract

open Funduq.Lib

/-- The calls a chain is built and verified with. -/
structure Primitives (PrivateKey PublicKey : Type) where
  /-- `private_key.public_key().public_bytes_raw().hex()`. -/
  publicKeyHex : PrivateKey → String
  /-- `Ed25519PublicKey.from_public_bytes(bytes.fromhex(…))`. -/
  fromPublicBytes : String → Except String PublicKey
  /-- `jwt.encode(claims, private_key, algorithm="EdDSA")`. -/
  encode : Dict String Json → PrivateKey → String
  /-- `jwt.decode(token, options={"verify_signature": False})`. -/
  decodeUnverified : String → Except String (Dict String Json)
  /-- `jwt.decode(token, key=public_key, algorithms=["EdDSA"], …)`. -/
  decode : String → PublicKey → Except String (Dict String Json)
  /-- `hashlib.sha256(token.encode()).hexdigest()`. -/
  sha256 : String → String

/-- A chain that fails verification. -/
structure InvalidChain where
  message : String
  deriving DecidableEq, Repr

def InvalidChain.atHop (index : Nat) (text : String) : InvalidChain :=
  ⟨s!"hop {index}: {text}"⟩

/-- Where a witness handed the work. -/
structure DispatchTarget where
  providerKey : String
  name : String
  deriving DecidableEq, Repr

/-- One hop, after parsing. -/
structure Hop where
  actorPublicKey : String
  prevHash : Option String
  dispatchedTo : Option DispatchTarget
  deriving DecidableEq, Repr

/-- A verified chain: every hop, in order, head first. -/
structure ChainResult where
  hops : List Hop
  deriving DecidableEq, Repr

namespace ChainResult

def actorPublicKeys (r : ChainResult) : List String := r.hops.map Hop.actorPublicKey

/-- The first hop's signer; a verified chain has one. -/
def head (r : ChainResult) : Option String := r.actorPublicKeys.head?

/-- The last hop's signer. -/
def presenter (r : ChainResult) : Option String := r.actorPublicKeys.getLast?

end ChainResult

/-! ## Parsing -/

/-- The `dispatchedTo` of a hop's claims. -/
def parseTarget : Json → Except String DispatchTarget
  | .obj claimed =>
      match (Json.obj claimed).getStr? "providerKey", (Json.obj claimed).getStr? "name" with
      | some providerKey, some name => .ok ⟨providerKey, name⟩
      | _, _ => .error "dispatchedTo needs a providerKey and a name, both strings"
  | _ => .error "dispatchedTo is not an object"

/-- `_parse_hop`, but for the hop's index in the text of what it raises. -/
def parseClaims (payload : Dict String Json) : Except String Hop := do
  let actorPublicKey ← match payload.get? "actorPublicKey" with
    | some (.str key) => .ok key
    | _ => .error "missing actorPublicKey"
  let prevHash ← match payload.get? "prevHash" with
    | none => .ok none
    | some .null => .ok none
    | some (.str hash) => .ok (some hash)
    | some _ => .error "prevHash is not a string"
  let dispatchedTo ← match payload.get? "dispatchedTo" with
    | none => .ok none
    | some claimed => (parseTarget claimed).map some
  return { actorPublicKey, prevHash, dispatchedTo }

/-- `_parse_hop`: the one place claims become a `Hop`. -/
def parseHop (index : Nat) (payload : Dict String Json) : Except InvalidChain Hop :=
  (parseClaims payload).mapError (.atHop index)

variable {PrivateKey PublicKey : Type}

/-! ## Building -/

def hopHash (P : Primitives PrivateKey PublicKey) (token : String) : String := P.sha256 token

/-- The claims `sign_hop` signs. -/
def hopClaims (P : Primitives PrivateKey PublicKey) (privateKey : PrivateKey)
    (prevToken : Option String) (dispatchedTo : Option DispatchTarget) : Dict String Json :=
  [("actorPublicKey", .str (P.publicKeyHex privateKey)),
    ("prevHash", (prevToken.map (hopHash P)).elim .null .str)] ++
    match dispatchedTo with
    | none => []
    | some target => [("dispatchedTo",
        .obj [("providerKey", .str target.providerKey), ("name", .str target.name)])]

/-- One hop, signed by `privateKey`, linked to `prevToken` if there is one. -/
def signHop (P : Primitives PrivateKey PublicKey) (privateKey : PrivateKey)
    (prevToken : Option String := none) (dispatchedTo : Option DispatchTarget := none) :
    String :=
  P.encode (hopClaims P privateKey prevToken dispatchedTo) privateKey

/-- What a builder raises on an empty chain. -/
inductive BuildError where
  | valueError (message : String)
  | indexError
  deriving DecidableEq, Repr

def newChain (P : Primitives PrivateKey PublicKey) (privateKey : PrivateKey) : List String :=
  [signHop P privateKey]

/-- `extend_chain`: appends a hop linked to the chain's tail. -/
def extendChain (P : Primitives PrivateKey PublicKey) (privateKey : PrivateKey)
    (prevChain : List String) : Except BuildError (List String) :=
  match prevChain.getLast? with
  | none => .error (.valueError
      "extend_chain requires a non-empty chain — use new_chain to start one")
  | some tail => .ok (prevChain ++ [signHop P privateKey (some tail)])

/-- `dispatch_hop`: appends a hop that records a dispatch to one agent. -/
def dispatchHop (P : Primitives PrivateKey PublicKey) (privateKey : PrivateKey)
    (prevChain : List String) (target : DispatchTarget) : Except BuildError (List String) :=
  match prevChain.getLast? with
  | none => .error .indexError
  | some tail => .ok (prevChain ++ [signHop P privateKey (some tail) (some target)])

/-! ## Verifying -/

/-- What the loop of `verify_chain` carries from one token to the next. -/
structure Walk where
  hops : List Hop := []
  prevToken : Option String := none
  previous : Option Hop := none

/-- A hop that follows a dispatch is signed by the party it named, or is another
dispatch by the witness that named it. -/
def checkSuccession (index : Nat) (previous : Option Hop) (hop : Hop) :
    Except InvalidChain Unit :=
  match previous with
  | none => .ok ()
  | some previous =>
      match previous.dispatchedTo with
      | none => .ok ()
      | some target =>
          if hop.actorPublicKey = target.providerKey then .ok ()
          else if hop.actorPublicKey = previous.actorPublicKey then
            if hop.dispatchedTo.isNone then
              .error (.atHop index (s!"signed by the witness that dispatched at hop {index - 1}, "
                ++ "but it is not itself a dispatch — a witness appears in a chain "
                ++ "only as a witness, so it may re-offer work nobody took and may "
                ++ "never sign as a party"))
            else .ok ()
          else
            let named := (target.providerKey.take 16).toString
            let signer := (hop.actorPublicKey.take 16).toString
            .error (.atHop index (s!"the hop before it dispatched to {named}…, "
              ++ s!"but this hop is signed by {signer}… — a hop that dispatched and its "
              ++ "successor must agree, and only the party it named or the witness "
              ++ "that named it may sign here"))

/-- One turn of the loop of `verify_chain`. -/
def verifyHop (P : Primitives PrivateKey PublicKey) (walk : Walk) (entry : String × Nat) :
    Except InvalidChain Walk := do
  let (token, index) := entry
  let unverified ← (P.decodeUnverified token).mapError fun e =>
    .atHop index s!"unparseable token: {e}"
  let hop ← parseHop index unverified
  let publicKey ← (P.fromPublicBytes hop.actorPublicKey).mapError fun e =>
    .atHop index s!"malformed actorPublicKey: {e}"
  let _ ← (P.decode token publicKey).mapError fun e =>
    .atHop index s!"signature check failed: {e}"
  if hop.prevHash ≠ walk.prevToken.map (hopHash P) then
    throw (.atHop index "prevHash doesn't match — chain reordered, truncated, or spliced")
  checkSuccession index walk.previous hop
  return { hops := walk.hops ++ [hop], prevToken := some token, previous := some hop }

/-- `verify_chain`: each hop's actor key, in order. -/
def verifyChain (P : Primitives PrivateKey PublicKey) (chain : List String) :
    Except InvalidChain ChainResult := do
  if chain.isEmpty then
    throw ⟨"empty actor chain"⟩
  let walk ← chain.zipIdx.foldlM (verifyHop P) {}
  return ⟨walk.hops⟩

end Funduq.Contract
