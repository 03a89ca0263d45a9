import Mathlib
import Funduq.Contract.Integrity
import Funduq.Doors.Caller
import Funduq.Lib.Fields

/-!
# The bytes that are signed

Six builders make the bytes a party signs: two for the handshake of a link, one
for a KYOK call, and one each to answer, cancel and view a run.  All are text,
fields joined by colons behind a tag of their own.  A tag holds no colon, so the
tag says which builder made a text; the fields behind it can be taken apart
because at most one of them is the caller's to choose.

A resolution carries a hash instead of the ask ids themselves: the ids are
sorted, joined by NUL and hashed.  What is hashed does not determine the ids
where an id may hold a NUL.
-/

namespace Funduq.Doors

open Funduq.Lib Funduq.Contract

variable {PrivateKey PublicKey : Type} (P : Primitives PrivateKey PublicKey)

/-! ## The builders -/

/-- `provider_connect_payload`. -/
def providerConnectPayload (funduqPublicKey funduqNonce providerNonce : String) : String :=
  s!"funduq-connect-provider:{funduqPublicKey}:{funduqNonce}:{providerNonce}"

/-- `funduq_connect_payload`. -/
def funduqConnectPayload (funduqNonce providerNonce : String) : String :=
  s!"funduq-connect-funduq:{funduqNonce}:{providerNonce}"

/-- `kyok_call_payload`. -/
def kyokCallPayload (bearer : String) (timestamp : Int) (bodyHash : String) : String :=
  s!"funduq-kyok-call:{bearer}:{timestamp}:{bodyHash}"

/-- `view_payload`. -/
def viewPayload (runId : String) (timestamp : Int) : String :=
  s!"funduq-view:{runId}:{timestamp}"

/-- Something a party signs: a builder with its arguments. -/
inductive Act where
  | providerConnect (funduqPublicKey funduqNonce providerNonce : String)
  | funduqConnect (funduqNonce providerNonce : String)
  | kyokCall (bearer : String) (timestamp : Int) (bodyHash : String)
  | resolve (runId : String) (askIds : List String)
  | cancel (runId : String) (timestamp : Int)
  | view (runId : String) (timestamp : Int)
  deriving DecidableEq, Repr

inductive Builder where
  | providerConnect
  | funduqConnect
  | kyokCall
  | resolve
  | cancel
  | view
  deriving DecidableEq, Repr

def Act.builder : Act → Builder
  | .providerConnect .. => .providerConnect
  | .funduqConnect .. => .funduqConnect
  | .kyokCall .. => .kyokCall
  | .resolve .. => .resolve
  | .cancel .. => .cancel
  | .view .. => .view

def Act.text : Act → String
  | .providerConnect funduqPublicKey funduqNonce providerNonce =>
      providerConnectPayload funduqPublicKey funduqNonce providerNonce
  | .funduqConnect funduqNonce providerNonce => funduqConnectPayload funduqNonce providerNonce
  | .kyokCall bearer timestamp bodyHash => kyokCallPayload bearer timestamp bodyHash
  | .resolve runId askIds => resolvePayload P runId askIds
  | .cancel runId timestamp => cancelPayload runId timestamp
  | .view runId timestamp => viewPayload runId timestamp

/-- The bytes: each builder ends in `.encode()`. -/
def Act.payload (a : Act) : ByteArray := (a.text P).toUTF8

/-- What funduq supplies itself is free of colons: its public key and its tickets
are hex, and so is the hash of a body. -/
def Act.AsMinted : Act → Prop
  | .providerConnect funduqPublicKey funduqNonce _ =>
      ':' ∉ funduqPublicKey.toList ∧ ':' ∉ funduqNonce.toList
  | .funduqConnect funduqNonce _ => ':' ∉ funduqNonce.toList
  | .kyokCall _ _ bodyHash => ':' ∉ bodyHash.toList
  | .resolve .. | .cancel .. | .view .. => True

/-! ## Taking a text apart -/

def Builder.tag : Builder → String
  | .providerConnect => "funduq-connect-provider"
  | .funduqConnect => "funduq-connect-funduq"
  | .kyokCall => "funduq-kyok-call"
  | .resolve => "funduq-resolve"
  | .cancel => "funduq-cancel"
  | .view => "funduq-view"

theorem Builder.tag_injective {x y : Builder} (h : x.tag = y.tag) : x = y := by
  cases x <;> cases y <;> first | rfl | exact absurd h (by decide)

theorem Builder.colon_notMem_tag (x : Builder) : ':' ∉ x.tag.toList := by
  cases x <;> decide

/-- Fields joined by colons, as characters. -/
def fieldChars : List String → List Char
  | [] => []
  | [field] => field.toList
  | field :: fields => field.toList ++ ':' :: fieldChars fields

/-- The fields of an act behind its tag. -/
def Act.fields : Act → List String
  | .providerConnect funduqPublicKey funduqNonce providerNonce =>
      [funduqPublicKey, funduqNonce, providerNonce]
  | .funduqConnect funduqNonce providerNonce => [funduqNonce, providerNonce]
  | .kyokCall bearer timestamp bodyHash => [bearer, toString timestamp, bodyHash]
  | .resolve runId askIds =>
      [runId, P.sha256 (String.intercalate "\x00" (askIds.insertionSort fun a b => a ≤ b))]
  | .cancel runId timestamp => [runId, toString timestamp]
  | .view runId timestamp => [runId, toString timestamp]

/-- A text is its tag and its fields, with a colon before each field. -/
theorem Act.text_eq (a : Act) :
    a.text P = (a.fields P).foldl (fun text field => text ++ ":" ++ field) a.builder.tag := by
  have htag : ∀ {whole tag : String} (x : String), whole = tag ++ ":" →
      whole ++ x = tag ++ ":" ++ x := fun _ h => h ▸ rfl
  cases a with
  | providerConnect funduqPublicKey funduqNonce providerNonce =>
      exact congrArg (· ++ ":" ++ funduqNonce ++ ":" ++ providerNonce)
        (htag funduqPublicKey (show "funduq-connect-provider:" = "funduq-connect-provider" ++ ":" by decide))
  | funduqConnect funduqNonce providerNonce =>
      exact congrArg (· ++ ":" ++ providerNonce)
        (htag funduqNonce (show "funduq-connect-funduq:" = "funduq-connect-funduq" ++ ":" by decide))
  | kyokCall bearer timestamp bodyHash =>
      exact congrArg (· ++ ":" ++ toString timestamp ++ ":" ++ bodyHash)
        (htag bearer (show "funduq-kyok-call:" = "funduq-kyok-call" ++ ":" by decide))
  | resolve runId askIds =>
      exact congrArg (· ++ ":" ++ P.sha256 _)
        (htag runId (show "funduq-resolve:" = "funduq-resolve" ++ ":" by decide))
  | cancel runId timestamp =>
      exact congrArg (· ++ ":" ++ toString timestamp)
        (htag runId (show "funduq-cancel:" = "funduq-cancel" ++ ":" by decide))
  | view runId timestamp =>
      exact congrArg (· ++ ":" ++ toString timestamp)
        (htag runId (show "funduq-view:" = "funduq-view" ++ ":" by decide))

theorem toList_foldl_fields {fields : List String} (hne : fields ≠ []) (tag : String) :
    (fields.foldl (fun text field => text ++ ":" ++ field) tag).toList =
      tag.toList ++ ':' :: fieldChars fields := by
  induction fields generalizing tag with
  | nil => exact absurd rfl hne
  | cons field fields ih =>
      cases fields with
      | nil => simp [fieldChars, String.toList_append]
      | cons next fields =>
          rw [List.foldl_cons, ih (List.cons_ne_nil _ _)]
          simp [fieldChars, String.toList_append]

theorem Act.toList_text (a : Act) :
    (a.text P).toList = a.builder.tag.toList ++ ':' :: fieldChars (a.fields P) := by
  have hne : a.fields P ≠ [] := by cases a <;> exact List.cons_ne_nil _ _
  rw [Act.text_eq, toList_foldl_fields hne]

theorem Act.text_of_payload {P : Primitives PrivateKey PublicKey} {a b : Act}
    (h : a.payload P = b.payload P) : a.text P = b.text P :=
  String.toByteArray_inj.1 h

/-- The tag says which builder made a text, and what stands behind it are the
fields. -/
theorem Act.fields_of_payload {P : Primitives PrivateKey PublicKey} {a b : Act}
    (h : a.payload P = b.payload P) :
    a.builder = b.builder ∧ fieldChars (a.fields P) = fieldChars (b.fields P) := by
  have htext := congrArg String.toList (Act.text_of_payload h)
  rw [Act.toList_text, Act.toList_text] at htext
  obtain ⟨htag, hfields⟩ := Fields.cons_inj_left (Builder.colon_notMem_tag _)
    (Builder.colon_notMem_tag _) htext
  exact ⟨Builder.tag_injective (String.toList_inj.1 htag), hfields⟩

/-- A timestamp is written without colons. -/
theorem colon_notMem_toString (n : Int) : ':' ∉ (toString n).toList := by
  have hdigit : ∀ m : Nat, ':' ∉ m.repr.toList := by
    intro m hm
    rw [Nat.toList_repr] at hm
    exact absurd (Nat.isDigit_of_mem_toDigits (by decide) (by decide) hm) (by decide)
  rw [Int.toString_eq_repr, Int.repr_eq_if]
  split
  · exact hdigit _
  · rw [String.toList_append, List.mem_append]
    rintro (h | h)
    · exact absurd h (by decide)
    · exact hdigit _ h

theorem toString_injective {m n : Int} (h : (toString m).toList = (toString n).toList) :
    m = n :=
  Int.repr_injective (String.toList_inj.1 h)

/-! ## One act -/

/-- A run id and a timestamp, the id whatever it is. -/
theorem stamped_inj {r r' : String} {t t' : Int}
    (h : fieldChars [r, toString t] = fieldChars [r', toString t']) : r = r' ∧ t = t' := by
  obtain ⟨hr, ht⟩ := Fields.cons_inj_right (colon_notMem_toString t) (colon_notMem_toString t') h
  exact ⟨String.toList_inj.1 hr, toString_injective ht⟩

/-- The fields of an act whose own arguments funduq has minted, other than a
resolution, determine it. -/
theorem Act.eq_of_fields {P : Primitives PrivateKey PublicKey} {a b : Act}
    (hsame : a.builder = b.builder) (h : fieldChars (a.fields P) = fieldChars (b.fields P))
    (ha : a.AsMinted) (hb : b.AsMinted) (hres : a.builder ≠ .resolve) : a = b := by
  cases a with
  | providerConnect pk n m =>
      cases b with
      | providerConnect pk' n' m' =>
          -- From the left: the last field is the provider's.
          obtain ⟨hpk, hrest⟩ := Fields.cons_inj_left ha.1 hb.1 h
          obtain ⟨hn, hm⟩ := Fields.cons_inj_left ha.2 hb.2 hrest
          rw [String.toList_inj.1 hpk, String.toList_inj.1 hn, String.toList_inj.1 hm]
      | _ => cases hsame
  | funduqConnect n m =>
      cases b with
      | funduqConnect n' m' =>
          obtain ⟨hn, hm⟩ := Fields.cons_inj_left ha hb h
          rw [String.toList_inj.1 hn, String.toList_inj.1 hm]
      | _ => cases hsame
  | kyokCall bearer t hash =>
      cases b with
      | kyokCall bearer' t' hash' =>
          -- From the right: the first field is the caller's.
          have hright : (bearer.toList ++ ':' :: (toString t).toList) ++ ':' :: hash.toList =
              (bearer'.toList ++ ':' :: (toString t').toList) ++ ':' :: hash'.toList := by
            simpa [Act.fields, fieldChars] using h
          obtain ⟨hrest, hhash⟩ := Fields.cons_inj_right ha hb hright
          obtain ⟨rfl, rfl⟩ := stamped_inj hrest
          rw [String.toList_inj.1 hhash]
      | _ => cases hsame
  | resolve _ _ => exact absurd rfl hres
  | cancel r t =>
      cases b with
      | cancel r' t' =>
          obtain ⟨rfl, rfl⟩ := stamped_inj h
          rfl
      | _ => cases hsame
  | view r t =>
      cases b with
      | view r' t' =>
          obtain ⟨rfl, rfl⟩ := stamped_inj h
          rfl
      | _ => cases hsame

/-- **Main result.**  Equal bytes come from one builder; and, unless they are a
resolution, from the same arguments, where those funduq supplies itself are as it
mints them. -/
theorem signed_bytes_name_one_act (a b : Act) (h : a.payload P = b.payload P) :
    a.builder = b.builder ∧
      (a.builder ≠ .resolve → a.AsMinted → b.AsMinted → a = b) := by
  obtain ⟨hsame, hfields⟩ := Act.fields_of_payload h
  refine ⟨hsame, ?_⟩
  intro hres ha hb
  exact Act.eq_of_fields hsame hfields ha hb hres

/-- A KYOK call whose bearer token reads like a timestamp and a hash. -/
theorem signed_bytes_name_one_act_kyokCall :
    (Act.kyokCall "b:1:ff" 2 "00").payload Plain.primitives =
        (Act.kyokCall ("b:1" ++ ":ff") (1 + 1) "00").payload Plain.primitives ∧
      Act.kyokCall "b:1:ff" 2 "00" = Act.kyokCall ("b:1" ++ ":ff") (1 + 1) "00" := by
  have hjoin : "b:1:ff" = "b:1" ++ ":ff" := by decide
  have hbytes : (Act.kyokCall "b:1:ff" 2 "00").payload Plain.primitives =
      (Act.kyokCall ("b:1" ++ ":ff") (1 + 1) "00").payload Plain.primitives := by
    rw [← hjoin]
    rfl
  have hhash : ':' ∉ "00".toList := by decide
  exact ⟨hbytes, (signed_bytes_name_one_act Plain.primitives _ _ hbytes).2 nofun hhash hhash⟩

/-! ## A resolution and its asks -/

/-- Ask ids that are not empty, their characters taken from `C`. -/
def IdsFrom (C : Set Char) (A : Finset String) : Prop :=
  ∀ id ∈ A, id ≠ "" ∧ ∀ c ∈ id.toList, c ∈ C

/-- An order in which the set may be iterated. -/
def Iterates (A : Finset String) (xs : List String) : Prop := xs.Nodup ∧ xs.toFinset = A

/-- A resolution of a minted run id names its run and exactly its asks, whichever
way the set of them is iterated. -/
structure NamesItsAsks (C : Set Char) : Prop where
  exactly : ∀ (r r₂ : String) (A A₂ : Finset String) (xs xs₂ : List String),
    ':' ∉ r.toList → ':' ∉ r₂.toList → IdsFrom C A → IdsFrom C A₂ →
    Iterates A xs → Iterates A₂ xs₂ →
    (Act.resolve r xs).payload P = (Act.resolve r₂ xs₂).payload P → r = r₂ ∧ A = A₂
  unordered : ∀ (r : String) (A : Finset String) (xs ys : List String),
    Iterates A xs → Iterates A ys →
    (Act.resolve r xs).payload P = (Act.resolve r ys).payload P

/-- `sorted` makes one list of a set. -/
theorem Iterates.sort_eq {A : Finset String} {xs ys : List String} (hx : Iterates A xs)
    (hy : Iterates A ys) :
    xs.insertionSort (fun a b => a ≤ b) = ys.insertionSort fun a b => a ≤ b := by
  have hperm : xs.Perm ys := List.perm_of_nodup_nodup_toFinset_eq hx.1 hy.1 (hx.2.trans hy.2.symm)
  exact (((List.perm_insertionSort _ xs).trans hperm).trans
    (List.perm_insertionSort _ ys).symm).eq_of_pairwise'
      (List.pairwise_insertionSort _ xs) (List.pairwise_insertionSort _ ys)

/-- What is hashed determines the asks, where none of them holds a NUL. -/
theorem asks_of_join {C : Set Char} {A A₂ : Finset String} {xs xs₂ : List String}
    (hC : '\x00' ∉ C) (hA : IdsFrom C A) (hA₂ : IdsFrom C A₂) (hx : Iterates A xs)
    (hx₂ : Iterates A₂ xs₂)
    (h : String.intercalate "\x00" (xs.insertionSort fun a b => a ≤ b) =
      String.intercalate "\x00" (xs₂.insertionSort fun a b => a ≤ b)) : A = A₂ := by
  have hids : ∀ {B : Finset String} {ys : List String}, IdsFrom C B → Iterates B ys →
      ∀ l ∈ (ys.insertionSort fun a b => a ≤ b).map String.toList, '\x00' ∉ l ∧ l ≠ [] := by
    intro B ys hB hy l hl
    obtain ⟨id, hid, rfl⟩ := List.mem_map.1 hl
    have hmem : id ∈ B := by
      rw [← hy.2]
      exact List.mem_toFinset.2 ((List.perm_insertionSort _ ys).mem_iff.1 hid)
    refine ⟨fun hnul => hC ((hB id hmem).2 _ hnul), ?_⟩
    intro hempty
    exact (hB id hmem).1 (String.toList_eq_nil_iff.1 hempty)
  have hchars := congrArg String.toList h
  rw [String.toList_intercalate, String.toList_intercalate] at hchars
  have hsorted := Fields.intercalate_inj (hids hA hx) (hids hA₂ hx₂) hchars
  have hlists := List.map_injective_iff.2 (fun _ _ => String.toList_injective) hsorted
  rw [← hx.2, ← hx₂.2]
  ext id
  rw [List.mem_toFinset, List.mem_toFinset, ← (List.perm_insertionSort (· ≤ ·) xs).mem_iff,
    hlists, (List.perm_insertionSort (· ≤ ·) xs₂).mem_iff]

/-- **Main result.**  Under a hash without collisions, resolutions name exactly
their asks for all ids over an alphabet just when NUL is not in the alphabet. -/
theorem resolution_names_its_asks (hsha : Function.Injective P.sha256) (C : Set Char) :
    NamesItsAsks P C ↔ '\x00' ∉ C := by
  constructor
  · intro hnames hnul
    -- Four NULs are one id, and two ids of one and two NULs joined.
    have hchars : ∀ id ∈ ["\x00", "\x00\x00", "\x00\x00\x00\x00"],
        id ≠ "" ∧ ∀ c ∈ id.toList, c ∈ C := by
      intro id hid
      have hall : id ≠ "" ∧ id.toList.all (· = '\x00') = true := by
        simp only [List.mem_cons, List.not_mem_nil, or_false] at hid
        rcases hid with rfl | rfl | rfl <;> decide
      refine ⟨hall.1, ?_⟩
      intro c hc
      have hc' := List.all_eq_true.1 hall.2 c hc
      rw [of_decide_eq_true hc']
      exact hnul
    have hjoin : String.intercalate "\x00"
          (["\x00\x00\x00\x00"].insertionSort fun a b => a ≤ b) =
        String.intercalate "\x00" (["\x00", "\x00\x00"].insertionSort fun a b => a ≤ b) := by
      decide
    have hbytes : (Act.resolve "" ["\x00\x00\x00\x00"]).payload P =
        (Act.resolve "" ["\x00", "\x00\x00"]).payload P := by
      show (resolvePayload P _ _).toUTF8 = (resolvePayload P _ _).toUTF8
      unfold resolvePayload
      rw [hjoin]
    have hsame := (hnames.exactly "" "" {"\x00\x00\x00\x00"} {"\x00", "\x00\x00"} _ _ (by decide)
      (by decide) (fun id hid => hchars id (by revert id; decide))
      (fun id hid => hchars id (by revert id; decide)) ⟨by decide, by decide⟩
      ⟨by decide, by decide⟩ hbytes).2
    exact absurd hsame (by decide)
  · intro hnul
    refine ⟨?_, ?_⟩
    · intro r r₂ A A₂ xs xs₂ hr hr₂ hA hA₂ hx hx₂ hbytes
      obtain ⟨-, hfields⟩ := Act.fields_of_payload hbytes
      obtain ⟨hid, hhash⟩ := Fields.cons_inj_left hr hr₂ hfields
      have hjoin := hsha (String.toList_inj.1 hhash)
      exact ⟨String.toList_inj.1 hid, asks_of_join hnul hA hA₂ hx hx₂ hjoin⟩
    · intro r A xs ys hx hy
      show (resolvePayload P _ _).toUTF8 = (resolvePayload P _ _).toUTF8
      unfold resolvePayload
      rw [hx.sort_eq hy]

/-- Ids of printable characters. -/
theorem resolution_names_its_asks_printable :
    Function.Injective Plain.primitives.sha256 ∧
      NamesItsAsks Plain.primitives {c | ' ' ≤ c} :=
  ⟨Function.injective_id,
    (resolution_names_its_asks Plain.primitives Function.injective_id _).2 (by decide)⟩

/-- Asks `a` and `b` are signed with the same bytes as the one ask `a\0b`. -/
theorem nul_joins_two_asks :
    Function.Injective Plain.primitives.sha256 ∧
      Iterates {"a\x00b"} ["a\x00b"] ∧ Iterates {"a", "b"} ["a", "b"] ∧
      (Act.resolve "run_1" ["a\x00b"]).payload Plain.primitives =
        (Act.resolve "run_1" ["a", "b"]).payload Plain.primitives ∧
      ({"a\x00b"} : Finset String) ≠ {"a", "b"} := by
  refine ⟨Function.injective_id, ⟨by decide, by decide⟩, ⟨by decide, by decide⟩, ?_, by decide⟩
  have hjoin : String.intercalate "\x00" (["a\x00b"].insertionSort fun a b => a ≤ b) =
      String.intercalate "\x00" (["a", "b"].insertionSort fun a b => a ≤ b) := by decide
  show (resolvePayload _ _ _).toUTF8 = (resolvePayload _ _ _).toUTF8
  unfold resolvePayload
  rw [hjoin]

end Funduq.Doors
