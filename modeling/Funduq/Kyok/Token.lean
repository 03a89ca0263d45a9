import Mathlib.Data.Rat.Defs
import Funduq.Broker.Vocabulary
import Funduq.Lib.Base64
import Funduq.Lib.JsonText

/-!
# The token of a KYOK run

A run that opted in is handed a token: its id and its agent, in JSON, in Base64, and after
a full stop the HMAC of that.  Whoever calls for a completion presents one, and
`verify_kyok_token` has to make sense of any string at all.

It reads back every token funduq has issued, until it expires.  Of any other string it
makes nothing, quietly where the string is one it can compare: `hmac.compare_digest` takes
no strings that are not ASCII, and raises (`kyok_token_read_back_iff`).

`hmac.new(key, msg, hashlib.sha256).digest()` is a parameter, and so is whether the float
of a text is less than a time: no token that funduq has issued holds a float.
-/

namespace Funduq.Kyok

open Funduq.Lib Python
open Funduq.Broker (AgentRef)

/-! ## `issue_kyok_token` -/

def kyokTokenTtlSeconds : Int := 3600

structure KyokToken where
  runId : Str
  agent : AgentRef
  deriving DecidableEq

section Tokens

variable (digest : List UInt8 → List UInt8 → List UInt8)

def hexdigest (s : List UInt8) : List Char :=
  s.flatMap fun b => [Nat.digitChar (b.toNat / 16), Nat.digitChar (b.toNat % 16)]

/-- `hmac.new(signing_secret.encode(), body, hashlib.sha256).hexdigest()`. -/
def signatureOf (signingSecret : String) (body : List UInt8) : Str :=
  .ofChars (hexdigest (digest (signingSecret.toList.flatMap String.utf8EncodeChar) body))

/-- `int(time.time()) + KYOK_TOKEN_TTL_SECONDS`. -/
def expiry (issuedAt : ℚ) : Int := issuedAt.num.tdiv issuedAt.den + kyokTokenTtlSeconds

def claims (runId : String) (agent : AgentRef) (issuedAt : ℚ) : List (String × JsonText.Scalar) :=
  [("runId", .str runId), ("providerKey", .str agent.providerKey), ("agentName", .str agent.name),
    ("exp", .int (expiry issuedAt))]

def tokenBody (runId : String) (agent : AgentRef) (issuedAt : ℚ) : List UInt8 :=
  Base64.urlsafeB64encode ((JsonText.dumps (claims runId agent issuedAt)).map byteOf)

/-- ASCII bytes, decoded. -/
def asciiOf (s : List UInt8) : List Char := s.map fun b => Char.ofNat b.toNat

def issueKyokToken (runId : String) (agent : AgentRef) (signingSecret : String) (issuedAt : ℚ) :
    Str :=
  let body := tokenBody runId agent issuedAt
  .ofChars (asciiOf body) ++ .char '.' :: signatureOf digest signingSecret body

/-! ## `verify_kyok_token` -/

/-- What it raises. -/
inductive PyError where
  | unicodeEncodeError
  | typeError
  | attributeError
  | validationError
  deriving DecidableEq

/-- `hmac.compare_digest` of two strings. -/
def compareDigest (a b : Str) : Except PyError Bool :=
  if a.isAscii && b.isAscii then .ok (a = b) else .error .typeError

variable (floatLt : Str → ℚ → Bool)

/-- `value < time.time()`. -/
def before (now : ℚ) : JsonText.Value → Except PyError Bool
  | .int n => .ok ((n : ℚ) < now)
  | .bool b => .ok ((if b then 1 else 0 : ℚ) < now)
  | .float text => .ok (floatLt text now)
  | _ => .error .typeError

def readPayload (now : ℚ) : JsonText.Value → Except PyError (Option KyokToken)
  | .dict payload => do
      let key (name : String) := Dict.get? payload (.ofString name)
      if ← before floatLt now ((key "exp").getD (.int 0)) then
        return none
      match key "runId", key "providerKey", key "agentName" with
      | some (.str runId), some (.str providerKey), some (.str agentName) =>
          -- pydantic takes no string that holds a surrogate.
          match providerKey.text?, agentName.text? with
          | some providerKey, some name => return some ⟨runId, ⟨providerKey, name⟩⟩
          | _, _ => throw .validationError
      | _, _, _ => return none
  -- `payload.get` of what is no dictionary.
  | _ => throw .attributeError

def verifyKyokToken (token : Str) (signingSecret : String) (now : ℚ) :
    Except PyError (Option KyokToken) :=
  match token.split1 (.char '.') with
  | none => return none
  | some (body, signature) =>
      match body.encode with
      | none => throw .unicodeEncodeError
      | some body => do
          let expected := signatureOf digest signingSecret body
          if ← compareDigest expected signature then
            match (Base64.urlsafeB64decode body).bind JsonText.loads with
            | none => return none
            | some payload => readPayload floatLt now payload
          else return none

/-! ## What was issued -/

section Issued

variable {digest} {floatLt} {runId signingSecret : String} {agent : AgentRef} {issuedAt now : ℚ}

theorem ascii_hexdigest (s : List UInt8) : Ascii (hexdigest s) := by
  intro c hc
  obtain ⟨b, -, hc⟩ := List.mem_flatMap.1 hc
  have hb := b.toNat_lt
  have hdigit : ∀ d, d < 16 → (Nat.digitChar d).toNat < 128 := by decide
  simp only [List.mem_cons, List.not_mem_nil, or_false] at hc
  rcases hc with rfl | rfl
  · exact hdigit _ (by omega)
  · exact hdigit _ (by omega)

theorem isAscii_signatureOf (body : List UInt8) :
    (signatureOf digest signingSecret body).isAscii = true :=
  Str.isAscii_ofChars.2 (ascii_hexdigest _)

theorem toNat_ofNat {n : Nat} (h : n < 128) : (Char.ofNat n).toNat = n := by
  have hvalid : n.isValidChar := .inl (by omega)
  unfold Char.ofNat
  rw [dif_pos hvalid]
  rfl

theorem asciiOf_ascii {s : List UInt8} (h : ∀ b ∈ s, b.toNat < 128) : Ascii (asciiOf s) := by
  intro c hc
  obtain ⟨b, hb, rfl⟩ := List.mem_map.1 hc
  rw [toNat_ofNat (h b hb)]
  exact h b hb

theorem encode_asciiOf {s : List UInt8} (h : ∀ b ∈ s, b.toNat < 128) :
    (Str.ofChars (asciiOf s)).encode = some s := by
  rw [Str.encode_ascii (asciiOf_ascii h)]
  unfold asciiOf
  rw [List.map_map]
  congr 1
  refine (List.map_congr_left fun b hb => ?_).trans (List.map_id _)
  show UInt8.ofNat (Char.ofNat b.toNat).toNat = b
  rw [toNat_ofNat (h b hb), UInt8.ofNat_toNat]

theorem tokenBody_ascii : ∀ b ∈ tokenBody runId agent issuedAt, b.toNat < 128 :=
  fun _ hb => (Base64.mem_urlsafeB64encode hb).1

/-- A body has no full stop. -/
theorem dot_not_mem_tokenBody :
    CodePoint.char '.' ∉ Str.ofChars (asciiOf (tokenBody runId agent issuedAt)) := by
  intro h
  obtain ⟨c, hc, hdot⟩ := List.mem_map.1 h
  obtain ⟨b, hb, rfl⟩ := List.mem_map.1 hc
  obtain ⟨hascii, hne⟩ := Base64.mem_urlsafeB64encode hb
  injection hdot with hdot
  have hcode := toNat_ofNat hascii
  rw [hdot] at hcode
  exact hne (UInt8.toNat_inj.1 hcode.symm)

/-- Its payload is what was put in. -/
theorem payload_tokenBody : (Base64.urlsafeB64decode (tokenBody runId agent issuedAt)).bind
    JsonText.loads = some (.dict (JsonText.members (claims runId agent issuedAt))) := by
  have hdict : JsonText.dictOf (JsonText.members (claims runId agent issuedAt)) =
      .dict (JsonText.members (claims runId agent issuedAt)) := by
    simp [JsonText.dictOf, JsonText.members, claims, Dict.set, Str.ofString_inj]
  have hne : claims runId agent issuedAt ≠ [] := List.cons_ne_nil _ _
  unfold tokenBody
  rw [Base64.urlsafeB64decode_encode, Option.bind_some, JsonText.loads_dumps hne, hdict]

theorem readPayload_claims :
    readPayload floatLt now (.dict (JsonText.members (claims runId agent issuedAt))) =
      .ok (if (expiry issuedAt : ℚ) < now then none else some ⟨.ofString runId, agent⟩) := by
  have hexp : Dict.get? (JsonText.members (claims runId agent issuedAt)) (.ofString "exp") =
      some (.int (expiry issuedAt)) := by
    simp [JsonText.members, claims, Dict.get?, Str.ofString_inj, JsonText.Scalar.value]
  have hrun : Dict.get? (JsonText.members (claims runId agent issuedAt)) (.ofString "runId") =
      some (.str (.ofString runId)) := by
    simp [JsonText.members, claims, Dict.get?, JsonText.Scalar.value]
  have hkey : Dict.get? (JsonText.members (claims runId agent issuedAt))
      (.ofString "providerKey") = some (.str (.ofString agent.providerKey)) := by
    simp [JsonText.members, claims, Dict.get?, Str.ofString_inj, JsonText.Scalar.value]
  have hname : Dict.get? (JsonText.members (claims runId agent issuedAt)) (.ofString "agentName") =
      some (.str (.ofString agent.name)) := by
    simp [JsonText.members, claims, Dict.get?, Str.ofString_inj, JsonText.Scalar.value]
  unfold readPayload
  simp only [hexp, hrun, hkey, hname, Option.getD_some, before, Str.text?_ofString]
  by_cases hlt : (expiry issuedAt : ℚ) < now
  · rw [if_pos hlt, decide_eq_true hlt]
    rfl
  · rw [if_neg hlt, decide_eq_false hlt]
    rfl

theorem split1_issue :
    (issueKyokToken digest runId agent signingSecret issuedAt).split1 (.char '.') =
      some (.ofChars (asciiOf (tokenBody runId agent issuedAt)),
        signatureOf digest signingSecret (tokenBody runId agent issuedAt)) :=
  Str.split1_append dot_not_mem_tokenBody

/-- What was issued is read back until it expires. -/
theorem verify_issue :
    verifyKyokToken digest floatLt (issueKyokToken digest runId agent signingSecret issuedAt)
        signingSecret now =
      .ok (if (expiry issuedAt : ℚ) < now then none else some ⟨.ofString runId, agent⟩) := by
  have hsame : ∀ s : Str, s.isAscii = true → compareDigest s s = .ok true := by
    intro s hs
    unfold compareDigest
    rw [hs]
    simp
  unfold verifyKyokToken
  rw [split1_issue]
  simp only [encode_asciiOf tokenBody_ascii, hsame _ (isAscii_signatureOf _), payload_tokenBody]
  exact readPayload_claims

end Issued

/-! ## What was not -/

/-- funduq has issued it. -/
def Issued (signingSecret : String) (token : Str) : Prop :=
  ∃ runId agent issuedAt, token = issueKyokToken digest runId agent signingSecret issuedAt

/-- Whoever presents the HMAC of a body has it from funduq. -/
def Unforged (signingSecret : String) (token : Str) : Prop :=
  ∀ body signature bytes, token.split1 (.char '.') = some (body, signature) →
    body.encode = some bytes → signature = signatureOf digest signingSecret bytes →
      Issued digest signingSecret token

/-- The token is read back where funduq has issued it, and refused quietly where it has
not. -/
structure ReadBack (signingSecret : String) (token : Str) (now : ℚ) : Prop where
  issued : ∀ runId agent issuedAt,
    token = issueKyokToken digest runId agent signingSecret issuedAt →
      verifyKyokToken digest floatLt token signingSecret now =
        .ok (if (expiry issuedAt : ℚ) < now then none else some ⟨.ofString runId, agent⟩)
  other : ¬ Issued digest signingSecret token →
    verifyKyokToken digest floatLt token signingSecret now = .ok none

/-- There is no full stop in it, or text before the first and ASCII after it. -/
def Comparable (token : Str) : Prop :=
  ∀ body signature, token.split1 (.char '.') = some (body, signature) →
    body.WellFormed ∧ signature.isAscii = true

variable {digest} {floatLt} {signingSecret : String} {token : Str} {now : ℚ}

theorem Issued.comparable (h : Issued digest signingSecret token) : Comparable token := by
  obtain ⟨runId, agent, issuedAt, htoken⟩ := h
  intro body signature hsplit
  rw [htoken, split1_issue, Option.some.injEq, Prod.mk.injEq] at hsplit
  rw [← hsplit.1, ← hsplit.2]
  exact ⟨Str.wellFormed_ofChars _, isAscii_signatureOf _⟩

/-- What is not issued is refused where it can be compared, and not quietly where it
cannot. -/
theorem verify_other (hun : Unforged digest signingSecret token)
    (hother : ¬ Issued digest signingSecret token) :
    verifyKyokToken digest floatLt token signingSecret now = .ok none ↔ Comparable token := by
  unfold verifyKyokToken Comparable
  cases hsplit : token.split1 (.char '.') with
  | none => exact iff_of_true rfl nofun
  | some parts =>
      obtain ⟨body, signature⟩ := parts
      have honly : (∀ b s, some (body, signature) = some (b, s) → b.WellFormed ∧ s.isAscii = true) ↔
          body.WellFormed ∧ signature.isAscii = true := by
        constructor
        · exact fun h => h body signature rfl
        · rintro h b s ⟨⟩
          exact h
      rw [honly]
      dsimp only
      cases hencode : body.encode with
      | none =>
          refine iff_of_false nofun fun h => ?_
          have hsome := Str.encode_isSome_iff.2 h.1
          rw [hencode] at hsome
          cases hsome
      | some bytes =>
          have hwell : body.WellFormed := Str.encode_isSome_iff.1 (by rw [hencode]; rfl)
          have hne : signatureOf digest signingSecret bytes ≠ signature := by
            intro h
            exact hother (hun body signature bytes hsplit hencode h.symm)
          rw [and_iff_right hwell]
          dsimp only
          unfold compareDigest
          rw [isAscii_signatureOf, Bool.true_and]
          cases hascii : signature.isAscii with
          | false => exact iff_of_false nofun nofun
          | true =>
              simp only [if_true, decide_eq_false hne]
              exact iff_of_true rfl trivial

/-- **Main result.**  A token is read back exactly where it can be compared. -/
theorem kyok_token_read_back_iff (hun : Unforged digest signingSecret token) :
    ReadBack digest floatLt signingSecret token now ↔ Comparable token := by
  constructor
  · intro h
    by_cases hissued : Issued digest signingSecret token
    · exact hissued.comparable
    · exact (verify_other hun hissued).1 (h.other hissued)
  · intro h
    refine ⟨?_, fun hother => (verify_other hun hother).2 h⟩
    intro runId agent issuedAt htoken
    rw [htoken]
    exact verify_issue

end Tokens

namespace Demo

/-- A digest of 32 bytes. -/
def digest (_ _ : List UInt8) : List UInt8 := List.replicate 32 0

def floatLt (_ : Str) (_ : ℚ) : Bool := false

/-- No signature at all. -/
def unsigned : Str := .ofString "eyJydW5JZCI6ICJyIn0=.c2ln"

/-- Its signature is not ASCII. -/
def accented : Str := .ofString "eyJydW5JZCI6ICJyIn0=.é"

theorem unforged {token signature body : Str} (hsplit : token.split1 (.char '.') =
      some (body, signature)) (hlength : signature.length ≠ 64) :
    Unforged digest "secret" token := by
  rintro body' signature' bytes hsplit' - rfl
  rw [hsplit, Option.some.injEq, Prod.mk.injEq] at hsplit'
  exact absurd (congrArg List.length hsplit'.2) hlength

end Demo

theorem kyok_token_read_back_iff_unsigned :
    ReadBack Demo.digest Demo.floatLt "secret" Demo.unsigned 0 := by
  have hparts : Demo.unsigned.split1 (.char '.') =
      some (.ofString "eyJydW5JZCI6ICJyIn0=", .ofString "c2ln") := by
    decide +kernel
  refine (kyok_token_read_back_iff (Demo.unforged hparts (by decide +kernel))).2 ?_
  intro body signature hsplit
  rw [hparts, Option.some.injEq, Prod.mk.injEq] at hsplit
  rw [← hsplit.1, ← hsplit.2]
  exact ⟨Str.wellFormed_ofChars _, by decide +kernel⟩

/-- A signature that is not ASCII is not refused: the comparison raises. -/
theorem accented_token_raises :
    Unforged Demo.digest "secret" Demo.accented ∧
      verifyKyokToken Demo.digest Demo.floatLt Demo.accented "secret" 0 = .error .typeError ∧
      ¬ ReadBack Demo.digest Demo.floatLt "secret" Demo.accented 0 := by
  have hraises : verifyKyokToken Demo.digest Demo.floatLt Demo.accented "secret" 0 =
      .error .typeError := by decide +kernel
  have hparts : Demo.accented.split1 (.char '.') =
      some (.ofString "eyJydW5JZCI6ICJyIn0=", .ofString "é") := by
    decide +kernel
  refine ⟨Demo.unforged hparts (by decide +kernel), hraises, fun h => ?_⟩
  have hother : ¬ Issued Demo.digest "secret" Demo.accented := by
    intro hissued
    have hascii := (hissued.comparable _ _ hparts).2
    revert hascii
    decide +kernel
  have hquiet := h.other hother
  rw [hraises] at hquiet
  cases hquiet

end Funduq.Kyok
