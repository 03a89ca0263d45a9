import Funduq.Rosters.Tickets

/-!
# The handshake of a link

A link opens with mutual proof.  The provider's end signs funduq's key, the ticket it was
told and a nonce of its own (`sign_connect`); funduq spends the ticket, checks the proof,
and signs the ticket and the nonce (`open`); the end checks that against the funduq key it
is pinned to (`confirm_connect`).

`Wire` is a front, the ends of links, and whoever carries what they say to each other.
That may be anybody: an end is told any key and any ticket, funduq is brought any proof
under any key, an end is brought any answer, and whatever was signed may be used in any
order and as often as one likes.  Nobody but its holder signs with an honest key, that is
all (`Unforged`); the keys sign other acts besides.

The two sides then agree: a proof funduq took was given for it, with this ticket and this
nonce, and for one answer only (`link_opens_as_meant`); an answer an end confirmed was
given by funduq to that proof, if the ticket was issued to the end's key
(`confirmed_link_was_answered`).
-/

namespace Funduq.Rosters

open Funduq.Lib Funduq.Contract
open Funduq.Broker (Key Connection RunId Time)
open Funduq.Doors (fieldChars providerConnectPayload funduqConnectPayload)

/-! ## The end of a link -/

/-- A link as its provider has it: the provider's key, and the funduq key it is pinned
to. -/
structure LinkEnd where
  publicKey : Key
  funduqPublicKey : Option Key
  deriving DecidableEq

structure WrongFunduq where
  message : String

namespace LinkEnd

variable (e : LinkEnd)

/-- `sign_connect`; `sign` is the signature of the end's own key. -/
def signConnect (sign : String → String) (funduqPublicKey funduqNonce providerNonce : String) :
    Except WrongFunduq String :=
  match e.funduqPublicKey.filter (· ≠ funduqPublicKey) with
  | some pinned =>
      .error ⟨s!"this link is pinned to '{pinned}', not the funduq claiming '{funduqPublicKey}'"⟩
  | none => .ok (sign (providerConnectPayload funduqPublicKey funduqNonce providerNonce))

/-- `confirm_connect`. -/
def confirmConnect (verifySignature : Key → String → String → Bool)
    (funduqNonce providerNonce : String) (answer : Option String) : Except WrongFunduq Unit :=
  match e.funduqPublicKey with
  | none => .ok ()
  | some pinned =>
      if answer.any fun answer =>
          verifySignature pinned answer (funduqConnectPayload funduqNonce providerNonce) then
        .ok ()
      else .error ⟨s!"the funduq answering this link-open did not prove '{pinned}'"⟩

end LinkEnd

/-! ## The wire -/

/-- A proof an end has given: what it was told, and the nonce it made. -/
structure Offer where
  linkEnd : LinkEnd
  funduqPublicKey : String
  funduqNonce : String
  providerNonce : String

/-- What the end has signed. -/
def Offer.text (o : Offer) : String :=
  providerConnectPayload o.funduqPublicKey o.funduqNonce o.providerNonce

/-- What it wants funduq to sign. -/
def Offer.expected (o : Offer) : String := funduqConnectPayload o.funduqNonce o.providerNonce

/-- A proof funduq has taken and answered; the link is not opened if `confirm_connect`
raises. -/
structure Answer where
  side : Side
  connection : Connection
  ticket : String
  providerNonce : String
  opened : Bool

/-- What the proof was over. -/
def Answer.proved (I : Identity) (a : Answer) : String :=
  providerConnectPayload I.publicKey a.ticket a.providerNonce

/-- What funduq has signed. -/
def Answer.text (a : Answer) : String := funduqConnectPayload a.ticket a.providerNonce

structure Wire where
  front : Front
  offers : List Offer := []
  answers : List Answer := []
  /-- The offers whose end has confirmed an answer. -/
  confirmed : List Offer := []
  /-- What has been signed besides, and by whom. -/
  acts : List (Key × Doors.Act) := []

inductive WireMove where
  | front (m : FrontMove)
  /-- An end is told a funduq's key and a ticket, and makes a nonce. -/
  | offers (e : LinkEnd) (funduqPublicKey funduqNonce providerNonce : String)
  /-- funduq is brought a proof. -/
  | connects (side : Side) (c : Connection) (ticket providerNonce : Option String)
      (proof : String) (confirms : Bool)
  /-- The end of offer `i` is brought an answer. -/
  | confirms (i : Nat) (answer : Option String)
  | acts (publicKey : Key) (a : Doors.Act)

/-- What the front does by itself.  A ticket is hex. -/
def FrontMove.aside : FrontMove → Bool
  | .opens _ => false
  | .issueTicket _ token => ':' ∉ token.toList
  | _ => true

/-- The ticket of a proof that is good. -/
def Front.proven (I : Identity) (f : Front) (c : Connection)
    (ticket providerNonce : Option String) (proof : String) : Option String :=
  ticket.filter fun ticket => (f.claimTicket ticket c.publicKey).2 &&
    I.verifySignature c.publicKey proof
      (providerConnectPayload I.publicKey ticket (providerNonce.getD ""))

/-- A nonce is hex, and new. -/
def Wire.step (cfg : Broker.Config) (I : Identity) (signs : Key → String → String) (w : Wire) :
    WireMove → Option Wire
  | .front m =>
      if m.aside then (w.front.step cfg I m).map fun f => { w with front := f } else none
  | .offers e funduqPublicKey funduqNonce providerNonce =>
      if ':' ∈ providerNonce.toList ∨ providerNonce ∈ w.offers.map Offer.providerNonce then none
      else
        match e.signConnect (signs e.publicKey) funduqPublicKey funduqNonce providerNonce with
        | .error _ => none
        | .ok _ =>
            some { w with
              offers := w.offers ++ [⟨e, funduqPublicKey, funduqNonce, providerNonce⟩] }
  | .connects side c ticket providerNonce proof confirms =>
      some { w with
        front := (w.front.answer cfg I side c ticket providerNonce proof confirms).1
        answers := w.answers ++
          ((w.front.proven I c ticket providerNonce proof).map fun ticket =>
            ⟨side, c, ticket, providerNonce.getD "", confirms⟩).toList }
  | .confirms i answer => do
      let o ← w.offers[i]?
      match o.linkEnd.confirmConnect I.verifySignature o.funduqNonce o.providerNonce answer with
      | .error _ => some w
      | .ok _ => some { w with confirmed := w.confirmed ++ [o] }
  | .acts k a =>
      if a.builder = .providerConnect ∨ a.builder = .funduqConnect then none
      else some { w with acts := w.acts ++ [(k, a)] }

/-- The wire of a front nobody has called yet. -/
def wire (cfg : Broker.Config) (db : RunId → Option Broker.Row) (I : Identity)
    (signs : Key → String → String) : System Wire WireMove where
  init w := ∃ f, (front cfg db I).init f ∧ w = { front := f }
  step := Wire.step cfg I signs

/-! ## Whose signatures there are -/

section Signed

variable {PrivateKey PublicKey : Type} (P : Primitives PrivateKey PublicKey) (I : Identity)

/-- The holder of the key has signed the text. -/
def Wire.signed (w : Wire) (k : Key) (text : String) : Prop :=
  (∃ o ∈ w.offers, o.linkEnd.publicKey = k ∧ o.text = text) ∨
    (k = I.publicKey ∧ ∃ a ∈ w.answers, a.text = text) ∨
    ∃ e ∈ w.acts, e.1 = k ∧ e.2.text P = text

/-- The signatures a move has verified: the key, the signature, and what it is over. -/
def Wire.checks (w : Wire) : WireMove → List (Key × String × String)
  | .connects _ c (some ticket) providerNonce proof _ =>
      [(c.publicKey, proof, providerConnectPayload I.publicKey ticket (providerNonce.getD ""))]
  | .confirms i (some answer) =>
      (w.offers[i]?.bind fun o =>
        o.linkEnd.funduqPublicKey.map fun pinned => (pinned, answer, o.expected)).toList
  | _ => []

/-- What verifies under an honest key was signed by its holder. -/
def Unforged (honest : Key → Prop) (w : Wire) (m : WireMove) : Prop :=
  ∀ c ∈ w.checks I m, honest c.1 → I.verifySignature c.1 c.2.1 c.2.2 = true →
    w.signed P I c.1 c.2.2

end Signed

/-! ## What a text says -/

section Texts

variable {PrivateKey PublicKey : Type} (P : Primitives PrivateKey PublicKey)
  {k k' t t' n n' : String}

include P in
theorem fields_of_connect (h : providerConnectPayload k t n = providerConnectPayload k' t' n') :
    fieldChars [k, t, n] = fieldChars [k', t', n'] :=
  (Doors.Act.fields_of_payload (P := P) (a := .providerConnect k t n)
    (b := .providerConnect k' t' n') (congrArg String.toUTF8 h)).2

include P in
theorem fields_of_answer (h : funduqConnectPayload t n = funduqConnectPayload t' n') :
    fieldChars [t, n] = fieldChars [t', n'] :=
  (Doors.Act.fields_of_payload (P := P) (a := .funduqConnect t n) (b := .funduqConnect t' n')
    (congrArg String.toUTF8 h)).2

/-- A ticket and a nonce are read off an answer, if the tickets are hex. -/
theorem ticket_of_fields (ht : ':' ∉ t.toList) (ht' : ':' ∉ t'.toList)
    (h : fieldChars [t, n] = fieldChars [t', n']) : t = t' ∧ n = n' := by
  obtain ⟨hticket, hnonce⟩ := Fields.cons_inj_left ht ht' h
  exact ⟨String.toList_inj.1 hticket, String.toList_inj.1 hnonce⟩

/-- Or if the nonces are. -/
theorem nonce_of_fields (hn : ':' ∉ n.toList) (hn' : ':' ∉ n'.toList)
    (h : fieldChars [t, n] = fieldChars [t', n']) : n = n' :=
  String.toList_inj.1 (Fields.cons_inj_right hn hn' h).2

/-- A proof was given to the funduq it names, if the keys are hex. -/
theorem key_of_fields (hk : ':' ∉ k.toList) (hk' : ':' ∉ k'.toList)
    (h : fieldChars [k, t, n] = fieldChars [k', t', n']) :
    k = k' ∧ fieldChars [t, n] = fieldChars [t', n'] := by
  obtain ⟨hkey, hrest⟩ := Fields.cons_inj_left hk hk' h
  exact ⟨String.toList_inj.1 hkey, hrest⟩

end Texts

/-! ## What is kept -/

/-- funduq's tickets are hex and its answers spend them; the ends' nonces are hex and new;
and what was taken or confirmed under an honest key has been said under it. -/
structure Wire.Kept (I : Identity) (honest : Key → Prop) (w : Wire) : Prop where
  front : w.front.Kept
  hex : ∀ i ∈ w.front.issues, ':' ∉ i.ticket.toList
  /-- No ticket is answered twice, and none that was is in the table. -/
  spent : (w.answers.map Answer.ticket).Nodup
  gone : ∀ e ∈ w.front.tickets, e.1 ∉ w.answers.map Answer.ticket
  own : ∀ a ∈ w.answers, ∃ i ∈ w.front.issues, i.ticket = a.ticket ∧
    i.publicKey = a.connection.publicKey
  opened : ∀ o ∈ w.front.openings, ∃ a ∈ w.answers, a.opened = true ∧ a.side = o.side ∧
    a.connection = o.connection ∧ a.ticket = o.ticket
  nonces : (w.offers.map Offer.providerNonce).Nodup
  hexNonce : ∀ o ∈ w.offers, ':' ∉ o.providerNonce.toList
  /-- An end that is pinned signs for the funduq it is pinned to. -/
  pinned : ∀ o ∈ w.offers, ∀ k, o.linkEnd.funduqPublicKey = some k → o.funduqPublicKey = k
  acts : ∀ e ∈ w.acts, e.2.builder ≠ .providerConnect ∧ e.2.builder ≠ .funduqConnect
  meant : ∀ a ∈ w.answers, honest a.connection.publicKey →
    ∃ o ∈ w.offers, o.linkEnd.publicKey = a.connection.publicKey ∧ o.text = a.proved I
  told : ∀ o ∈ w.confirmed, o ∈ w.offers ∧
    ∀ k, o.linkEnd.funduqPublicKey = some k → honest k →
      k = I.publicKey ∧ ∃ a ∈ w.answers, a.text = o.expected

/-- What becomes of a front that is brought a proof. -/
inductive Taken (I : Identity) (side : Side) (c : Connection) (confirms : Bool) (f : Front) :
    Option String → Front → Prop where
  | refused {f' : Front} (hsub : ∀ e ∈ f'.tickets, e ∈ f.tickets) (hlog : f'.log = f.log) :
      Taken I side c confirms f none f'
  | answered {f' : Front} {ticket : String} {at_ : Time}
      (hget : f.tickets.get? ticket = some (c.publicKey, at_))
      (htickets : f'.tickets = f.tickets.pop ticket)
      (hlog : f'.log = if confirms then f.log ++ [.opened side c ticket f.now] else f.log) :
      Taken I side c confirms f (some ticket) f'

section Taking

variable {PrivateKey PublicKey : Type} {P : Primitives PrivateKey PublicKey}
  {cfg : Broker.Config} {db : RunId → Option Broker.Row} {I : Identity}
  {signs : Key → String → String} {honest : Key → Prop} {w w' : Wire}

theorem answer_taken (f : Front) (side : Side) (c : Connection) (ticket nonce : Option String)
    (proof : String) (confirms : Bool) :
    Taken I side c confirms f (f.proven I c ticket nonce proof)
      (f.answer cfg I side c ticket nonce proof confirms).1 := by
  unfold Front.proven Front.answer
  cases ticket with
  | none => exact .refused (fun _ h => h) rfl
  | some ticket =>
      dsimp only
      rw [Option.filter_some]
      rcases claimTicket_cases f ticket c.publicKey with hclaim | ⟨at_, hget, hclaim⟩
      · rw [hclaim]
        exact .refused (fun _ h => h) rfl
      · have hpop : ∀ e ∈ f.tickets.pop ticket, e ∈ f.tickets :=
          fun e he => List.mem_of_mem_filter he
        rw [hclaim]
        dsimp only
        cases hfresh : decide (f.now - at_ ≤ Doors.signatureFreshnessWindow) with
        | false => exact .refused hpop rfl
        | true =>
            cases hproof : I.verifySignature c.publicKey proof
                (providerConnectPayload I.publicKey ticket (nonce.getD "")) with
            | false => exact .refused hpop rfl
            | true =>
                cases confirms with
                | false => exact .answered hget rfl rfl
                | true => exact .answered hget rfl rfl

/-- What a front does by itself: it issues tickets, to whomever, and opens nothing. -/
structure Aside (f f' : Front) : Prop where
  issues : ∀ i ∈ f.issues, i ∈ f'.issues
  hex : ∀ i ∈ f'.issues, i ∈ f.issues ∨ ':' ∉ i.ticket.toList
  openings : f'.openings = f.openings
  tickets : ∀ e ∈ f'.tickets, e ∈ f.tickets ∨ e.1 ∉ f.issues.map Issue.ticket

theorem aside_of_log {f f' : Front} {events : List Event} (hlog : f'.log = f.log ++ events)
    (hissues : events.filterMap Event.issue? = [])
    (hopenings : events.filterMap Event.opening? = []) (htickets : f'.tickets = f.tickets) :
    Aside f f' := by
  have hi : f'.issues = f.issues := by
    unfold Front.issues
    rw [hlog, List.filterMap_append, hissues, List.append_nil]
  have ho : f'.openings = f.openings := by
    unfold Front.openings
    rw [hlog, List.filterMap_append, hopenings, List.append_nil]
  refine ⟨fun i h => hi ▸ h, fun i h => .inl (hi ▸ h), ho, fun e he => .inl ?_⟩
  rw [← htickets]
  exact he

theorem aside_step {f f' : Front} {m : FrontMove} (hm : m.aside = true)
    (hstep : f.step cfg I m = some f') : Aside f f' := by
  cases m with
  | opens a => cases hm
  | advance d =>
      cases hstep
      exact aside_of_log (List.append_nil _).symm rfl rfl rfl
  | issueTicket k token =>
      simp only [Front.step] at hstep
      split at hstep
      · cases hstep
      · rename_i hnew
        cases hstep
        have hfresh := not_wasIssued (Bool.eq_false_iff.2 hnew)
        have hissues : (f.issueTicket k token).issues = f.issues ++ [⟨token, k, f.now⟩] := by
          unfold Front.issues Front.issueTicket
          rw [List.filterMap_append]
          rfl
        refine ⟨fun i h => ?_, fun i h => ?_, ?_, fun e he => ?_⟩
        · rw [hissues]
          exact List.mem_append_left _ h
        · rw [hissues, List.mem_append, List.mem_singleton] at h
          rcases h with h | h
          · exact .inl h
          · rw [h]
            exact .inr (of_decide_eq_true hm)
        · unfold Front.openings Front.issueTicket
          rw [List.filterMap_append]
          exact List.append_nil _
        · rcases Dict.mem_set he with h | h
          · rw [h]
            exact .inr hfresh
          · exact .inl (List.mem_of_mem_filter h)
  | node m =>
      simp only [Front.step] at hstep
      split at hstep
      · cases hstep
      · obtain ⟨n, -, rfl⟩ := Option.map_eq_some_iff.1 hstep
        refine aside_of_log rfl ?_ ?_ rfl
        · cases m with
          | agents op => cases op <;> rfl
          | llms op => cases op <;> rfl
          | broker a => rfl
        · cases m with
          | agents op => cases op <;> rfl
          | llms op => cases op <;> rfl
          | broker a => rfl

namespace Wire.Kept

theorem init (h : (wire cfg db I signs).init w) : w.Kept I honest := by
  obtain ⟨f, ⟨-, htickets, hlog⟩, rfl⟩ := h
  have hissues : f.issues = [] := by
    unfold Front.issues
    rw [hlog]
    rfl
  have hopenings : f.openings = [] := by
    unfold Front.openings
    rw [hlog]
    rfl
  constructor <;> simp [hissues, hopenings, htickets]
  constructor <;> simp [hissues, hopenings, htickets]

theorem aside (h : w.Kept I honest) {f : Front} (hf : f.Kept) (ha : Aside w.front f) :
    Wire.Kept I honest { w with front := f } where
  front := hf
  hex i hi := (ha.hex i hi).elim (h.hex i) id
  spent := h.spent
  gone e he := by
    rcases ha.tickets e he with he | hnew
    · exact h.gone e he
    · -- A ticket that was answered had been issued.
      intro hmem
      obtain ⟨a, ha', hticket⟩ := List.mem_map.1 hmem
      obtain ⟨i, hi, hia, -⟩ := h.own a ha'
      exact hnew (List.mem_map.2 ⟨i, hi, hia.trans hticket⟩)
  own a ha' := by
    obtain ⟨i, hi, hia⟩ := h.own a ha'
    exact ⟨i, ha.issues i hi, hia⟩
  opened o ho := h.opened o (ha.openings ▸ ho)
  nonces := h.nonces
  hexNonce := h.hexNonce
  pinned := h.pinned
  acts := h.acts
  meant := h.meant
  told := h.told

theorem offers (h : w.Kept I honest) {o : Offer} (hhex : ':' ∉ o.providerNonce.toList)
    (hnew : o.providerNonce ∉ w.offers.map Offer.providerNonce)
    (hpin : ∀ k, o.linkEnd.funduqPublicKey = some k → o.funduqPublicKey = k) :
    Wire.Kept I honest { w with offers := w.offers ++ [o] } := by
  have hmem : ∀ {o'}, o' ∈ w.offers ++ [o] → o' ∈ w.offers ∨ o' = o := by
    intro o' ho'
    rw [List.mem_append, List.mem_singleton] at ho'
    exact ho'
  refine { h with nonces := ?_, hexNonce := ?_, pinned := ?_, meant := ?_, told := ?_ }
  · rw [List.map_append, List.map_singleton, ← List.concat_eq_append, List.nodup_concat]
    exact ⟨hnew, h.nonces⟩
  · intro o' ho'
    rcases hmem ho' with ho' | rfl
    · exact h.hexNonce o' ho'
    · exact hhex
  · intro o' ho'
    rcases hmem ho' with ho' | rfl
    · exact h.pinned o' ho'
    · exact hpin
  · intro a ha hon
    obtain ⟨o', ho', hkey, htext⟩ := h.meant a ha hon
    exact ⟨o', List.mem_append_left _ ho', hkey, htext⟩
  · intro o' ho'
    exact ⟨List.mem_append_left _ (h.told o' ho').1, (h.told o' ho').2⟩

theorem refused (h : w.Kept I honest) {f : Front} (hf : f.Kept)
    (hsub : ∀ e ∈ f.tickets, e ∈ w.front.tickets) (hlog : f.log = w.front.log) :
    Wire.Kept I honest { w with front := f } := by
  refine h.aside hf ⟨fun i hi => ?_, fun i hi => .inl ?_, ?_, fun e he => .inl (hsub e he)⟩
  · unfold Front.issues at hi ⊢
    rw [hlog]
    exact hi
  · unfold Front.issues at hi ⊢
    rw [← hlog]
    exact hi
  · unfold Front.openings
    rw [hlog]

theorem answered (h : w.Kept I honest) {f : Front} (hf : f.Kept) {a : Answer} {at_ : Time}
    (hget : w.front.tickets.get? a.ticket = some (a.connection.publicKey, at_))
    (htickets : f.tickets = w.front.tickets.pop a.ticket)
    (hlog : f.log = if a.opened then
      w.front.log ++ [.opened a.side a.connection a.ticket w.front.now] else w.front.log)
    (hmeant : honest a.connection.publicKey →
      ∃ o ∈ w.offers, o.linkEnd.publicKey = a.connection.publicKey ∧ o.text = a.proved I) :
    Wire.Kept I honest { w with front := f, answers := w.answers ++ [a] } := by
  have hin := Dict.mem_of_get? hget
  have hissues : f.issues = w.front.issues := by
    unfold Front.issues
    rw [hlog]
    split
    · rw [List.filterMap_append]
      exact List.append_nil _
    · rfl
  have hopenings : ∀ o ∈ f.openings, o ∈ w.front.openings ∨
      a.opened = true ∧ o = ⟨a.side, a.connection, a.ticket, w.front.now⟩ := by
    intro o ho
    unfold Front.openings at ho ⊢
    rw [hlog] at ho
    split at ho
    · rename_i hopened
      rw [List.filterMap_append, List.mem_append] at ho
      exact ho.imp_right fun ho => ⟨hopened, List.mem_singleton.1 ho⟩
    · exact .inl ho
  have hmem : ∀ {b}, b ∈ w.answers ++ [a] → b ∈ w.answers ∨ b = a := by
    intro b hb
    rw [List.mem_append, List.mem_singleton] at hb
    exact hb
  refine { h with
    front := hf
    hex := hissues ▸ h.hex
    spent := ?_
    gone := ?_
    own := ?_
    opened := ?_
    meant := ?_
    told := ?_ }
  · rw [List.map_append, List.map_singleton, ← List.concat_eq_append, List.nodup_concat]
    exact ⟨h.gone _ hin, h.spent⟩
  · intro e he
    rw [htickets] at he
    obtain ⟨he, hne⟩ := List.mem_filter.1 he
    rw [List.map_append, List.mem_append, List.map_singleton, List.mem_singleton]
    rintro (hm | hm)
    · exact h.gone e he hm
    · exact absurd hm (of_decide_eq_true hne)
  · intro b hb
    rw [hissues]
    rcases hmem hb with hb | rfl
    · exact h.own b hb
    · exact ⟨_, (h.front.table _ hin).1, rfl, rfl⟩
  · intro o ho
    rcases hopenings o ho with ho | ⟨hopened, rfl⟩
    · obtain ⟨b, hb, hsame⟩ := h.opened o ho
      exact ⟨b, List.mem_append_left _ hb, hsame⟩
    · exact ⟨a, List.mem_append_right _ (List.mem_singleton_self a), hopened, rfl, rfl, rfl⟩
  · intro b hb
    rcases hmem hb with hb | rfl
    · exact h.meant b hb
    · exact hmeant
  · intro o ho
    refine ⟨(h.told o ho).1, fun k hk hon => ?_⟩
    obtain ⟨hkey, b, hb, htext⟩ := (h.told o ho).2 k hk hon
    exact ⟨hkey, b, List.mem_append_left _ hb, htext⟩

theorem acts' (h : w.Kept I honest) {k : Key} {a : Doors.Act}
    (hne : a.builder ≠ .providerConnect) (hne' : a.builder ≠ .funduqConnect) :
    Wire.Kept I honest { w with acts := w.acts ++ [(k, a)] } := by
  refine { h with acts := ?_ }
  intro e he
  rw [List.mem_append, List.mem_singleton] at he
  rcases he with he | rfl
  · exact h.acts e he
  · exact ⟨hne, hne'⟩

theorem confirms (h : w.Kept I honest) {o : Offer} (ho : o ∈ w.offers)
    (htold : ∀ k, o.linkEnd.funduqPublicKey = some k → honest k →
      k = I.publicKey ∧ ∃ a ∈ w.answers, a.text = o.expected) :
    Wire.Kept I honest { w with confirmed := w.confirmed ++ [o] } := by
  refine { h with told := ?_ }
  intro o' ho'
  rw [List.mem_append, List.mem_singleton] at ho'
  rcases ho' with ho' | rfl
  · exact h.told o' ho'
  · exact ⟨ho, htold⟩

/-- A proof is signed by an end, and by nobody else. -/
theorem offer_of_signed (h : w.Kept I honest) {k K t n : String}
    (hs : w.signed P I k (providerConnectPayload K t n)) :
    ∃ o ∈ w.offers, o.linkEnd.publicKey = k ∧ o.text = providerConnectPayload K t n := by
  rcases hs with hs | ⟨-, a, -, htext⟩ | ⟨e, he, -, htext⟩
  · exact hs
  · have := Doors.Act.fields_of_payload (P := P) (a := .funduqConnect a.ticket a.providerNonce)
      (b := .providerConnect K t n) (congrArg String.toUTF8 htext)
    cases this.1
  · have := Doors.Act.fields_of_payload (P := P) (a := e.2) (b := .providerConnect K t n)
      (congrArg String.toUTF8 htext)
    exact absurd this.1 (h.acts e he).1

/-- An answer is signed by funduq, and by nobody else. -/
theorem answer_of_signed (h : w.Kept I honest) {k t n : String}
    (hs : w.signed P I k (funduqConnectPayload t n)) :
    k = I.publicKey ∧ ∃ a ∈ w.answers, a.text = funduqConnectPayload t n := by
  rcases hs with ⟨o, -, -, htext⟩ | hs | ⟨e, he, -, htext⟩
  · have := Doors.Act.fields_of_payload (P := P)
      (a := .providerConnect o.funduqPublicKey o.funduqNonce o.providerNonce)
      (b := .funduqConnect t n) (congrArg String.toUTF8 htext)
    cases this.1
  · exact hs
  · have := Doors.Act.fields_of_payload (P := P) (a := e.2) (b := .funduqConnect t n)
      (congrArg String.toUTF8 htext)
    exact absurd this.1 (h.acts e he).2

theorem connects (h : w.Kept I honest) {side : Side} {c : Connection}
    {ticket nonce : Option String} {proof : String} {confirms : Bool}
    (hun : Unforged P I honest w (.connects side c ticket nonce proof confirms))
    (hstep : w.step cfg I signs (.connects side c ticket nonce proof confirms) = some w') :
    w'.Kept I honest := by
  cases hstep
  have hf : (w.front.answer cfg I side c ticket nonce proof confirms).1.Kept :=
    h.front.answered (answer_cases w.front side c ticket nonce proof confirms)
  have htaken : Taken I side c confirms w.front (w.front.proven I c ticket nonce proof)
      (w.front.answer cfg I side c ticket nonce proof confirms).1 :=
    answer_taken w.front side c ticket nonce proof confirms
  generalize hproven : w.front.proven I c ticket nonce proof = proven at htaken ⊢
  cases htaken with
  | refused hsub hlog =>
      rw [Option.map_none, Option.toList_none, List.append_nil]
      exact h.refused hf hsub hlog
  | @answered _ ticket' at_ hget htickets hlog =>
      refine h.answered (a := ⟨side, c, ticket', nonce.getD "", confirms⟩) hf hget htickets hlog ?_
      intro hon
      unfold Front.proven at hproven
      obtain ⟨rfl, hgood⟩ := Option.filter_eq_some_iff.1 hproven
      rw [Bool.and_eq_true] at hgood
      exact h.offer_of_signed (hun _ (List.mem_singleton_self _) hon hgood.2)

theorem step (h : w.Kept I honest) {m : WireMove} (hun : Unforged P I honest w m)
    (hstep : w.step cfg I signs m = some w') : w'.Kept I honest := by
  cases m with
  | front m =>
      simp only [Wire.step] at hstep
      split at hstep
      · rename_i hm
        obtain ⟨f, hf, rfl⟩ := Option.map_eq_some_iff.1 hstep
        exact h.aside (h.front.step hf) (aside_step hm hf)
      · cases hstep
  | offers e k t n =>
      simp only [Wire.step] at hstep
      split at hstep
      · cases hstep
      · rename_i hnew
        split at hstep
        · cases hstep
        · rename_i hsigned
          cases hstep
          rw [not_or] at hnew
          refine h.offers hnew.1 hnew.2 fun k' hk' => ?_
          unfold LinkEnd.signConnect at hsigned
          dsimp only at hk' ⊢
          by_contra hne
          have hpin : e.funduqPublicKey.filter (· ≠ k) = some k' := by
            rw [hk', Option.filter_some, if_pos (decide_eq_true (Ne.symm hne))]
          rw [hpin] at hsigned
          cases hsigned
  | connects side c ticket nonce proof confirms => exact h.connects hun hstep
  | confirms i answer =>
      simp only [Wire.step] at hstep
      obtain ⟨o, ho, hstep⟩ := Option.bind_eq_some_iff.1 hstep
      split at hstep
      · cases hstep
        exact h
      · rename_i hconfirmed
        cases hstep
        refine h.confirms (List.mem_of_getElem? ho) fun k hk hon => ?_
        unfold LinkEnd.confirmConnect at hconfirmed
        rw [hk] at hconfirmed
        dsimp only at hconfirmed
        split at hconfirmed
        · rename_i hverified
          obtain ⟨answer, rfl, hverified⟩ := (Option.any_eq_true _ _).1 hverified
          refine h.answer_of_signed (hun (k, answer, o.expected) ?_ hon hverified)
          simp only [Wire.checks, ho, hk, Option.bind_some, Option.map_some, Option.toList_some,
            List.mem_singleton]
        · cases hconfirmed
  | acts k a =>
      simp only [Wire.step] at hstep
      split at hstep
      · cases hstep
      · rename_i hne
        cases hstep
        rw [not_or] at hne
        exact h.acts' hne.1 hne.2

theorem of_reachable (h : (wire cfg db I signs).ReachableBy (Unforged P I honest) w) :
    w.Kept I honest :=
  h.invariant (fun _ => init) fun _ _ _ _ hk hun hs => hk.step hun hs

end Wire.Kept

/-! ## The two sides -/

/-- **funduq's side.**  A link that was opened was answered; and a proof that was answered
under an honest key was given by an end of that key, for this funduq, with this ticket and
this nonce, and is answered once. -/
theorem link_opens_as_meant (hkey : ':' ∉ I.publicKey.toList)
    (h : (wire cfg db I signs).ReachableBy (Unforged P I honest) w) :
    (∀ l ∈ w.front.openings, ∃ a ∈ w.answers, a.opened = true ∧ a.side = l.side ∧
        a.connection = l.connection ∧ a.ticket = l.ticket) ∧
      ∀ a ∈ w.answers, honest a.connection.publicKey → ∃ o ∈ w.offers,
        o.linkEnd.publicKey = a.connection.publicKey ∧ o.text = a.proved I ∧
        (∀ b ∈ w.answers, o.text = b.proved I → b = a) ∧
        (∀ k, o.linkEnd.funduqPublicKey = some k → ':' ∉ k.toList → k = I.publicKey) ∧
        (':' ∉ o.funduqPublicKey.toList → ':' ∉ o.funduqNonce.toList →
          o.funduqNonce = a.ticket ∧ o.providerNonce = a.providerNonce) := by
  have hk := Wire.Kept.of_reachable h
  refine ⟨hk.opened, fun a ha hon => ?_⟩
  obtain ⟨o, ho, howner, htext⟩ := hk.meant a ha hon
  have hticket : ∀ b ∈ w.answers, ':' ∉ b.ticket.toList := by
    intro b hb
    obtain ⟨i, hi, hib, -⟩ := hk.own b hb
    exact hib ▸ hk.hex i hi
  refine ⟨o, ho, howner, htext, fun b hb htext' => ?_, fun k hpin hhex => ?_, fun hhex hhex' => ?_⟩
  · have hsame := (key_of_fields hkey hkey (fields_of_connect P (htext'.symm.trans htext))).2
    have heq := (ticket_of_fields (hticket b hb) (hticket a ha) hsame).1
    exact List.inj_on_of_nodup_map hk.spent hb ha heq
  · have hnamed := hk.pinned o ho k hpin
    rw [← hnamed] at hhex ⊢
    exact (key_of_fields hhex hkey (fields_of_connect P htext)).1
  · have hsame := (key_of_fields hhex hkey (fields_of_connect P htext)).2
    exact ticket_of_fields hhex' (hticket a ha) hsame

/-- **The end's side.**  An end that confirmed, and is pinned to an honest key, is pinned to
this funduq's, which has answered a proof with its nonce, to no other offer.  If the ticket
it was told is one funduq has issued, it is the ticket of that answer, the proof is the
end's own, and it was answered to the key the ticket was issued to. -/
theorem confirmed_link_was_answered
    (h : (wire cfg db I signs).ReachableBy (Unforged P I honest) w) {o : Offer} {k : Key}
    (ho : o ∈ w.confirmed) (hpin : o.linkEnd.funduqPublicKey = some k) (hon : honest k) :
    k = I.publicKey ∧ ∃ a ∈ w.answers, a.text = o.expected ∧
      (∀ o' ∈ w.offers, a.text = o'.expected → o' = o) ∧
      ∀ i ∈ w.front.issues, i.ticket = o.funduqNonce →
        a.ticket = o.funduqNonce ∧ a.providerNonce = o.providerNonce ∧ o.text = a.proved I ∧
          a.connection.publicKey = i.publicKey := by
  have hk := Wire.Kept.of_reachable h
  obtain ⟨hoffer, htold⟩ := hk.told o ho
  obtain ⟨hkey, a, ha, htext⟩ := htold k hpin hon
  refine ⟨hkey, a, ha, htext, fun o' ho' htext' => ?_, fun i hi hissued => ?_⟩
  · have hsame := fields_of_answer P (htext'.symm.trans htext)
    have hnonce := nonce_of_fields (hk.hexNonce o' ho') (hk.hexNonce o hoffer) hsame
    exact List.inj_on_of_nodup_map hk.nonces ho' hoffer hnonce
  · obtain ⟨j, hj, hja, hjkey⟩ := hk.own a ha
    obtain ⟨hticket, hnonce⟩ := ticket_of_fields (hja ▸ hk.hex j hj) (hissued ▸ hk.hex i hi)
      (fields_of_answer P htext)
    have hnamed := hk.pinned o hoffer k hpin
    refine ⟨hticket, hnonce, ?_, ?_⟩
    · unfold Offer.text Answer.proved
      rw [hnamed, hkey, hticket, hnonce]
    · have hij : j = i := hk.front.unique hj hi ((hja.trans hticket).trans hissued.symm)
      rw [← hjkey, hij]

/-- In one process nobody stands between the two: `open` issues the ticket, has the end sign
it and takes the proof, in one stretch. -/
theorem openLink_eq_exec {side : Side} {c : Connection} {e : LinkEnd} {ticket nonce proof : String}
    {confirms : Bool} (ht : w.front.wasIssued ticket = false) (hhex : ':' ∉ ticket.toList)
    (hhex' : ':' ∉ nonce.toList) (hnew : nonce ∉ w.offers.map Offer.providerNonce)
    (hsign : e.signConnect (signs e.publicKey) I.publicKey ticket nonce = .ok proof) :
    ((wire cfg db I signs).exec w [.front (.issueTicket c.publicKey ticket),
        .offers e I.publicKey ticket nonce,
        .connects side c (some ticket) (some nonce) proof confirms]).map Wire.front =
      some (w.front.openLink cfg I {
        side := side
        connection := c
        ticket := none
        providerNonce := none
        proof := none
        signer := some fun k t n => (e.signConnect (signs e.publicKey) k t n).toOption
        confirms := confirms
        tokens := (ticket, nonce) }).1 := by
  have hissue : w.step cfg I signs (.front (.issueTicket c.publicKey ticket)) =
      some { w with front := w.front.issueTicket c.publicKey ticket } := by
    have hm : (FrontMove.issueTicket c.publicKey ticket).aside = true := decide_eq_true hhex
    simp only [Wire.step, hm, if_true, Front.step, ht, Bool.false_eq_true, if_false,
      Option.map_some]
  have hoffer : ∀ f, Wire.step cfg I signs { w with front := f }
      (.offers e I.publicKey ticket nonce) = some { w with
        front := f
        offers := w.offers ++ [⟨e, I.publicKey, ticket, nonce⟩] } := by
    intro f
    have hfree : ¬ (':' ∈ nonce.toList ∨ nonce ∈ w.offers.map Offer.providerNonce) := by
      rw [not_or]
      exact ⟨hhex', hnew⟩
    simp only [Wire.step, if_neg hfree, hsign]
  simp only [System.exec_cons, System.exec_nil, wire, hissue, hoffer, Option.bind_some, Front.openLink, hsign]
  rfl

end Taking

namespace Demo

open Broker.Demo (link)

def signs (k : Key) (payload : String) : String := k ++ " signs " ++ payload

def unwired : Wire := { front := unopened }

def wireAfter (ms : List WireMove) : Wire :=
  (wire Broker.Demo.config (fun _ => none) identity signs).runFrom unwired ms

/-- An end opens a link and confirms the answer. -/
def shaken : List WireMove :=
  [.front (.issueTicket "pk" "t"), .offers ⟨"pk", some "funduq"⟩ "funduq" "t" "n",
    .connects .agents link (some "t") (some "n")
      (signs "pk" (providerConnectPayload "funduq" "t" "n")) true,
    .confirms 0 (some (identity.sign (funduqConnectPayload "t" "n")))]

/-- Whatever verifies was signed by an end or by funduq. -/
def unforged (w : Wire) (m : WireMove) : Bool :=
  (w.checks identity m).all fun c =>
    (w.offers.any fun o => o.linkEnd.publicKey = c.1 ∧ o.text = c.2.2) ||
      c.1 = "funduq" && w.answers.any fun a => a.text = c.2.2

theorem unforged_sound {PrivateKey PublicKey : Type} (P : Primitives PrivateKey PublicKey)
    (w : Wire) (m : WireMove) (h : unforged w m = true) :
    Unforged P identity (fun _ => True) w m := by
  intro c hc _ _
  have hsigned := List.all_eq_true.1 h c hc
  rw [Bool.or_eq_true, Bool.and_eq_true, List.any_eq_true, List.any_eq_true] at hsigned
  rcases hsigned with ⟨o, ho, hsame⟩ | ⟨hkey, a, ha, htext⟩
  · exact .inl ⟨o, ho, of_decide_eq_true hsame⟩
  · exact .inr (.inl ⟨of_decide_eq_true hkey, a, ha, of_decide_eq_true htext⟩)

theorem shaken_reachable {PrivateKey PublicKey : Type} (P : Primitives PrivateKey PublicKey) :
    (wire Broker.Demo.config (fun _ => none) identity signs).ReachableBy
      (Unforged P identity fun _ => True) (wireAfter shaken) :=
  System.ReachableBy.runFrom (unforged_sound P) (.init ⟨unopened, ⟨rfl, rfl, rfl⟩, rfl⟩)
    (by decide +kernel)

end Demo

open Demo in
theorem link_opens_as_meant_shaken : (wireAfter shaken).front.openings.length = 1 ∧
    ∀ l ∈ (wireAfter shaken).front.openings, ∃ a ∈ (wireAfter shaken).answers,
      a.ticket = l.ticket ∧ ∃ o ∈ (wireAfter shaken).offers,
        o.linkEnd.publicKey = l.connection.publicKey ∧ o.text = a.proved identity := by
  obtain ⟨hopened, hmeant⟩ := link_opens_as_meant (I := identity) (by decide)
    (shaken_reachable Plain.primitives)
  refine ⟨by decide +kernel, fun l hl => ?_⟩
  obtain ⟨a, ha, -, -, hc, hticket⟩ := hopened l hl
  obtain ⟨o, ho, hkey, htext, -⟩ := hmeant a ha trivial
  exact ⟨a, ha, hticket, o, ho, hc ▸ hkey, htext⟩

open Demo in
theorem confirmed_link_was_answered_shaken : (wireAfter shaken).confirmed.length = 1 ∧
    ∀ o ∈ (wireAfter shaken).confirmed, o.linkEnd.funduqPublicKey = some "funduq" →
      ∃ a ∈ (wireAfter shaken).answers, a.text = o.expected := by
  refine ⟨by decide +kernel, fun o ho hpin => ?_⟩
  obtain ⟨-, a, ha, htext, -⟩ := confirmed_link_was_answered
    (shaken_reachable Plain.primitives) ho hpin trivial
  exact ⟨a, ha, htext⟩

end Funduq.Rosters
