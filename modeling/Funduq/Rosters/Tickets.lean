import Funduq.Doors.Payloads
import Funduq.Rosters.Node

/-!
# Tickets

A key is admitted to open a link by a ticket that was issued to it.  Both rosters spend
tickets of one table: `issue_ticket` clears it of stale tickets and adds a new one,
`_claim_ticket` takes one out, for its own key alone, and tells whether it was still
fresh.  `open` claims the ticket before it looks at the proof, so a bad proof of the
right key spends the ticket and a stranger spends nothing.

`Front` is the node with its tickets and its clock.  `log` is only observed: what was
issued, which links were opened with it, and which were detached.
-/

namespace Funduq.Rosters

open Funduq.Lib
open Funduq.Broker (Key Connection RunId Time)
open Funduq.Doors (providerConnectPayload funduqConnectPayload signatureFreshnessWindow)

/-- One of the two rosters. -/
inductive Side where
  | agents
  | llms
  deriving DecidableEq, Repr

/-- `party`. -/
def Side.party : Side → String
  | .agents => "provider"
  | .llms => "LLM provider"

def Side.move : Side → Op → Move
  | .agents, op => .agents op
  | .llms, op => .llms op

def Node.links (n : Node) : Side → Key → List Connection
  | .agents => n.agents.links
  | .llms => n.llms.links

def Node.calls (n : Node) : Side → List Call
  | .agents => n.agents.calls
  | .llms => n.llms.calls

/-- `require_open`. -/
def Node.requireOpen (n : Node) (side : Side) (c : Connection) : Bool :=
  (n.links side c.publicKey).any fun link => same link c

/-- What is to be remembered of tickets and links. -/
inductive Event where
  | issued (ticket : String) (publicKey : Key) (at_ : Time)
  | opened (side : Side) (connection : Connection) (ticket : String) (at_ : Time)
  | detached (side : Side) (publicKey : Key) (connection : Connection)
  | detachedAll (side : Side) (publicKey : Key)

structure Front where
  node : Node
  now : Time
  /-- `_tickets`: the key a ticket admits, and when it was issued. -/
  tickets : Dict String (Key × Time)
  log : List Event

/-- funduq's identity, and the check of a signature. -/
structure Identity where
  publicKey : String
  sign : String → String
  verifySignature : Key → String → String → Bool

/-- A call of `open`. -/
structure Attempt where
  side : Side
  connection : Connection
  ticket : Option String
  providerNonce : Option String
  proof : Option String
  /-- The connection's `sign_connect`, if it has one; `none` where it raises. -/
  signer : Option (String → String → String → Option String)
  /-- The connection's `confirm_connect` does not raise, if it has one. -/
  confirms : Bool
  /-- What `secrets.token_hex` gives for a ticket and a nonce, where they are asked
  for. -/
  tokens : String × String

namespace Front

/-- `issue_ticket`; `token` is what `secrets.token_hex` gives. -/
def issueTicket (f : Front) (publicKey : Key) (token : String) : Front :=
  { f with
    tickets := Dict.set (f.tickets.filter fun e => f.now - e.2.2 ≤ signatureFreshnessWindow)
      token (publicKey, f.now)
    log := f.log ++ [.issued token publicKey f.now] }

/-- `_claim_ticket`. -/
def claimTicket (f : Front) (ticket : String) (publicKey : Key) : Front × Bool :=
  match f.tickets.get? ticket with
  | none => (f, false)
  | some issued =>
      if issued.1 ≠ publicKey then (f, false)
      else if f.now - issued.2 > signatureFreshnessWindow then
        ({ f with tickets := f.tickets.pop ticket }, false)
      else ({ f with tickets := f.tickets.pop ticket }, true)

/-- `open`, from the claim of the ticket on: what it raises, or funduq's answer. -/
def answer (cfg : Broker.Config) (I : Identity) (f : Front) (side : Side) (c : Connection)
    (ticket providerNonce : Option String) (proof : String) (confirms : Bool) :
    Front × Except String String :=
  let refused := s!"connect proof for {side.party} '{c.publicKey}' does not answer " ++
    "a live ticket funduq issued to that key"
  match ticket with
  | none => (f, .error refused)
  | some ticket =>
      let nonce := providerNonce.getD ""
      let (f, claimed) := f.claimTicket ticket c.publicKey
      if !claimed then (f, .error refused)
      else if !I.verifySignature c.publicKey proof
          (providerConnectPayload I.publicKey ticket nonce) then
        (f, .error s!"invalid connect proof for {side.party} '{c.publicKey}'")
      else if !confirms then (f, .error "confirm_connect")
      else
        ({ f with
            node := (f.node.step cfg (side.move (.opens c true))).getD f.node
            log := f.log ++ [.opened side c ticket f.now] },
          .ok (I.sign (funduqConnectPayload ticket nonce)))

/-- `open`. -/
def openLink (cfg : Broker.Config) (I : Identity) (f : Front) (a : Attempt) :
    Front × Except String String :=
  match a.proof, a.signer with
  | some proof, _ =>
      f.answer cfg I a.side a.connection a.ticket a.providerNonce proof a.confirms
  | none, some signer =>
      let f := f.issueTicket a.connection.publicKey a.tokens.1
      match signer I.publicKey a.tokens.1 a.tokens.2 with
      | none => (f, .error "sign_connect")
      | some proof =>
          f.answer cfg I a.side a.connection (some a.tokens.1) (some a.tokens.2) proof a.confirms
  | none, none =>
      (f, .error (s!"{a.side.party} '{a.connection.publicKey}' tried to open a link without a " ++
        "connect proof — sign the ticket from issue_ticket, or expose sign_connect"))

/-- The ticket has been issued before. -/
def wasIssued (f : Front) (ticket : String) : Bool :=
  f.log.any fun
    | .issued t _ _ => t = ticket
    | _ => false

end Front

/-- What is done to the front. -/
inductive FrontMove where
  | advance (duration : Nat)
  | issueTicket (publicKey : Key) (token : String)
  | opens (a : Attempt)
  | node (m : Move)

/-- What a move of the node says about links. -/
def Move.events : Move → List Event
  | .agents (.detach k c) => [.detached .agents k c]
  | .agents (.detachAll k) => [.detachedAll .agents k]
  | .llms (.detach k c) => [.detached .llms k c]
  | .llms (.detachAll k) => [.detachedAll .llms k]
  | _ => []

/-- Links are opened through `open` only. -/
def Move.opensLink : Move → Bool
  | .agents (.opens _ _) => true
  | .llms (.opens _ _) => true
  | _ => false

/-- `secrets.token_hex` gives a token nobody has seen, so a step that would issue a
ticket a second time is none. -/
def Front.step (cfg : Broker.Config) (I : Identity) (f : Front) : FrontMove → Option Front
  | .advance d => some { f with now := f.now + d }
  | .issueTicket k token => if f.wasIssued token then none else some (f.issueTicket k token)
  | .opens a => if f.wasIssued a.tokens.1 then none else some (f.openLink cfg I a).1
  | .node m =>
      if m.opensLink then none
      else (f.node.step cfg m).map fun n =>
        { f with
          node := n
          log := f.log ++ m.events }

/-- The front of a node over a database that holds `db` when it is built. -/
def front (cfg : Broker.Config) (db : RunId → Option Broker.Row) (I : Identity) :
    System Front FrontMove where
  init f := f.node = ⟨.empty (Broker.State.init db), .empty []⟩ ∧ f.tickets = [] ∧ f.log = []
  step := Front.step cfg I

/-! ## What is said of tickets and links -/

structure Issue where
  ticket : String
  publicKey : Key
  at_ : Time

structure Opening where
  side : Side
  connection : Connection
  ticket : String
  at_ : Time

def Event.issue? : Event → Option Issue
  | .issued ticket k at_ => some ⟨ticket, k, at_⟩
  | _ => none

def Event.opening? : Event → Option Opening
  | .opened side c ticket at_ => some ⟨side, c, ticket, at_⟩
  | _ => none

namespace Front

def issues (f : Front) : List Issue := f.log.filterMap Event.issue?

def openings (f : Front) : List Opening := f.log.filterMap Event.opening?

/-- What the ticket admits: nothing once it is spent or no longer fresh. -/
def ticket? (f : Front) (ticket : String) : Option (Key × Time) :=
  (f.tickets.get? ticket).filter fun issued => f.now - issued.2 ≤ signatureFreshnessWindow

end Front

/-- Whether a connection is attached after an event, if it was (`b`) before. -/
def Event.attached (side : Side) (c : Connection) (b : Bool) : Event → Bool
  | .issued _ _ _ => b
  | .opened s c' _ _ =>
      if s = side ∧ c'.publicKey = c.publicKey ∧ same c' c then true else b
  | .detached s k c' => if s = side ∧ k = c.publicKey ∧ same c' c then false else b
  | .detachedAll s k => if s = side ∧ k = c.publicKey then false else b

/-- The connection has been opened and has not been detached since. -/
def Front.attached (f : Front) (side : Side) (c : Connection) : Bool :=
  f.log.foldl (Event.attached side c) false

/-- No connection opens a second link while it is on one. -/
def Front.opensOnce (f : Front) : FrontMove → Bool
  | .opens a => !f.node.requireOpen a.side a.connection
  | _ => true

/-! ## One attempt -/

/-- What becomes of an attempt by `c`, from the claim on. -/
inductive Answered (cfg : Broker.Config) (side : Side) (c : Connection) (f : Front) :
    Front → Prop where
  | refused : Answered cfg side c f f
  /-- The ticket was the key's own; it is spent. -/
  | spent {ticket : String} {at_ : Time} (hget : f.tickets.get? ticket = some (c.publicKey, at_)) :
      Answered cfg side c f { f with tickets := f.tickets.pop ticket }
  | opened {ticket : String} {at_ : Time} (hget : f.tickets.get? ticket = some (c.publicKey, at_))
      (hfresh : f.now - at_ ≤ signatureFreshnessWindow) :
      Answered cfg side c f { f with
        tickets := f.tickets.pop ticket
        node := (f.node.step cfg (side.move (.opens c true))).getD f.node
        log := f.log ++ [.opened side c ticket f.now] }

section Attempts

variable {cfg : Broker.Config} {db : RunId → Option Broker.Row} {I : Identity} {f f' : Front}

theorem claimTicket_cases (f : Front) (ticket : String) (k : Key) :
    f.claimTicket ticket k = (f, false) ∨
      ∃ at_, f.tickets.get? ticket = some (k, at_) ∧
        f.claimTicket ticket k = ({ f with tickets := f.tickets.pop ticket },
          decide (f.now - at_ ≤ signatureFreshnessWindow)) := by
  unfold Front.claimTicket
  split
  · exact .inl rfl
  · rename_i issued hget
    split
    · exact .inl rfl
    · rename_i hown
      rw [not_not] at hown
      subst hown
      refine .inr ⟨issued.2, hget, ?_⟩
      split
      · rename_i hstale
        rw [decide_eq_false (not_le.2 hstale)]
      · rename_i hfresh
        rw [decide_eq_true (not_lt.1 hfresh)]

theorem answer_cases (f : Front) (side : Side) (c : Connection) (ticket nonce : Option String)
    (proof : String) (confirms : Bool) :
    Answered cfg side c f (f.answer cfg I side c ticket nonce proof confirms).1 := by
  unfold Front.answer
  cases ticket with
  | none => exact .refused
  | some ticket =>
      dsimp only
      rcases claimTicket_cases f ticket c.publicKey with hclaim | ⟨at_, hget, hclaim⟩
      · rw [hclaim]
        exact .refused
      · rw [hclaim]
        dsimp only
        split
        · exact .spent hget
        · rename_i hclaimed
          split
          · exact .spent hget
          · split
            · exact .spent hget
            · refine .opened hget ?_
              simpa using hclaimed

/-- A connection that signs by itself has a ticket issued first. -/
theorem openLink_cases (cfg : Broker.Config) (I : Identity) (f : Front) (a : Attempt) :
    ∃ g, (g = f ∨ g = f.issueTicket a.connection.publicKey a.tokens.1) ∧
      Answered cfg a.side a.connection g (f.openLink cfg I a).1 := by
  unfold Front.openLink
  split
  · exact ⟨f, .inl rfl, answer_cases ..⟩
  · refine ⟨_, .inr rfl, ?_⟩
    dsimp only
    split
    · exact .refused
    · exact answer_cases ..
  · exact ⟨f, .inl rfl, .refused⟩

/-! ## The tickets of a front -/

/-- Tickets are issued once, and every one in the table has been issued and not been
answered; a link is opened with a ticket of its key, once, while it is fresh. -/
structure Front.Kept (f : Front) : Prop where
  minted : (f.issues.map Issue.ticket).Nodup
  table : ∀ e ∈ f.tickets, ⟨e.1, e.2.1, e.2.2⟩ ∈ f.issues ∧ e.2.2 ≤ f.now ∧
    e.1 ∉ f.openings.map Opening.ticket
  once : (f.openings.map Opening.ticket).Nodup
  own : ∀ o ∈ f.openings, ∃ i ∈ f.issues, i.ticket = o.ticket ∧
    i.publicKey = o.connection.publicKey ∧ i.at_ ≤ o.at_ ∧
    o.at_ - i.at_ ≤ signatureFreshnessWindow

theorem not_wasIssued {token : String} (h : f.wasIssued token = false) :
    token ∉ f.issues.map Issue.ticket := by
  intro hmem
  obtain ⟨i, hi, rfl⟩ := List.mem_map.1 hmem
  obtain ⟨e, he, hie⟩ := List.mem_filterMap.1 hi
  have hany := List.any_eq_false.1 h e he
  cases e with
  | issued t k at_ =>
      cases hie
      exact hany (decide_eq_true rfl)
  | _ => cases hie

namespace Front.Kept

/-- A ticket in the table is the only one of its name. -/
theorem unique (h : f.Kept) {i j : Issue} (hi : i ∈ f.issues) (hj : j ∈ f.issues)
    (he : i.ticket = j.ticket) : i = j :=
  List.inj_on_of_nodup_map h.minted hi hj he

theorem issueTicket (h : f.Kept) {k : Key} {token : String}
    (hnew : f.wasIssued token = false) : (f.issueTicket k token).Kept := by
  have hissues : (f.issueTicket k token).issues = f.issues ++ [⟨token, k, f.now⟩] := by
    unfold Front.issues Front.issueTicket
    rw [List.filterMap_append]
    rfl
  have hopenings : (f.issueTicket k token).openings = f.openings := by
    unfold Front.openings Front.issueTicket
    rw [List.filterMap_append]
    exact List.append_nil _
  have hfresh := not_wasIssued hnew
  refine ⟨?_, ?_, hopenings ▸ h.once, ?_⟩
  · rw [hissues, List.map_append, List.nodup_append]
    refine ⟨h.minted, List.nodup_singleton _, ?_⟩
    intro a ha b hb hab
    rw [List.map_singleton, List.mem_singleton] at hb
    subst hb
    exact hfresh (hab ▸ ha)
  · intro e he
    rw [hissues, hopenings]
    rcases Dict.mem_set he with rfl | he
    · refine ⟨List.mem_append_right _ (List.mem_singleton_self _), le_rfl, ?_⟩
      -- A ticket that was answered was issued.
      intro hmem
      obtain ⟨o, ho, hticket⟩ := List.mem_map.1 hmem
      obtain ⟨i, hi, hio, -⟩ := h.own o ho
      exact hfresh (List.mem_map.2 ⟨i, hi, hio.trans hticket⟩)
    · obtain ⟨hi, hle, hno⟩ := h.table e (List.mem_of_mem_filter he)
      exact ⟨List.mem_append_left _ hi, hle, hno⟩
  · intro o ho
    rw [hopenings] at ho
    rw [hissues]
    obtain ⟨i, hi, hio⟩ := h.own o ho
    exact ⟨i, List.mem_append_left _ hi, hio⟩

theorem answered {side : Side} {c : Connection} (h : f.Kept)
    (ha : Answered cfg side c f f') : f'.Kept := by
  cases ha with
  | refused => exact h
  | spent _ =>
      exact ⟨h.minted, fun e he => h.table e (List.mem_of_mem_filter he), h.once, h.own⟩
  | @opened ticket at_ hget hfresh =>
      obtain ⟨hi, hle, hno⟩ := h.table _ (Dict.mem_of_get? hget)
      set f' : Front := { f with
        tickets := f.tickets.pop ticket
        node := (f.node.step cfg (side.move (.opens c true))).getD f.node
        log := f.log ++ [Event.opened side c ticket f.now] } with hf'
      have hissues : f'.issues = f.issues := by
        unfold Front.issues
        rw [hf', List.filterMap_append]
        exact List.append_nil _
      have hopenings : f'.openings = f.openings ++ [⟨side, c, ticket, f.now⟩] := by
        unfold Front.openings
        rw [hf', List.filterMap_append]
        rfl
      refine ⟨hissues ▸ h.minted, ?_, ?_, ?_⟩
      · intro e he
        obtain ⟨he, hne⟩ := List.mem_filter.1 he
        obtain ⟨hie, hlee, hnoe⟩ := h.table e he
        rw [hissues, hopenings, List.map_append, List.mem_append]
        refine ⟨hie, hlee, ?_⟩
        rintro (hmem | hmem)
        · exact hnoe hmem
        · exact absurd (List.mem_singleton.1 hmem) (of_decide_eq_true hne)
      · rw [hopenings, List.map_append, List.nodup_append]
        refine ⟨h.once, List.nodup_singleton _, ?_⟩
        intro a ha b hb hab
        rw [List.map_singleton, List.mem_singleton] at hb
        subst hb
        exact hno (hab ▸ ha)
      · intro o ho
        rw [hopenings, List.mem_append] at ho
        rw [hissues]
        rcases ho with ho | ho
        · exact h.own o ho
        · rw [List.mem_singleton] at ho
          subst ho
          exact ⟨_, hi, rfl, rfl, hle, hfresh⟩

theorem step (h : f.Kept) {m : FrontMove} (hstep : f.step cfg I m = some f') : f'.Kept := by
  cases m with
  | advance d =>
      cases hstep
      refine ⟨h.minted, ?_, h.once, h.own⟩
      intro e he
      obtain ⟨hi, hle, hno⟩ := h.table e he
      refine ⟨hi, ?_, hno⟩
      show e.2.2 ≤ f.now + d
      exact le_add_of_le_of_nonneg hle (Int.natCast_nonneg d)
  | issueTicket k token =>
      simp only [Front.step] at hstep
      split at hstep
      · cases hstep
      · rename_i hnew
        cases hstep
        exact h.issueTicket (Bool.eq_false_iff.2 hnew)
  | opens a =>
      simp only [Front.step] at hstep
      split at hstep
      · cases hstep
      · rename_i hnew
        cases hstep
        obtain ⟨g, rfl | rfl, hans⟩ := openLink_cases cfg I f a
        · exact h.answered hans
        · exact (h.issueTicket (Bool.eq_false_iff.2 hnew)).answered hans
  | node m =>
      simp only [Front.step] at hstep
      split at hstep
      · cases hstep
      · obtain ⟨n, -, rfl⟩ := Option.map_eq_some_iff.1 hstep
        have hissues : m.events.filterMap Event.issue? = [] := by
          cases m with
          | agents op => cases op <;> rfl
          | llms op => cases op <;> rfl
          | broker a => rfl
        have hopenings : m.events.filterMap Event.opening? = [] := by
          cases m with
          | agents op => cases op <;> rfl
          | llms op => cases op <;> rfl
          | broker a => rfl
        constructor
        · unfold Front.issues
          rw [List.filterMap_append, hissues, List.append_nil]
          exact h.minted
        · unfold Front.issues Front.openings
          rw [List.filterMap_append, List.filterMap_append, hissues, hopenings, List.append_nil,
            List.append_nil]
          exact h.table
        · unfold Front.openings
          rw [List.filterMap_append, hopenings, List.append_nil]
          exact h.once
        · unfold Front.issues Front.openings
          rw [List.filterMap_append, List.filterMap_append, hissues, hopenings, List.append_nil,
            List.append_nil]
          exact h.own

end Front.Kept

/-! ## The ticket of another key -/

/-- Clearing the table of stale tickets and adding a new one changes no other. -/
theorem ticket?_issueTicket (h : f.Kept) {k : Key} {token ticket : String}
    (hne : token ≠ ticket) : (f.issueTicket k token).ticket? ticket = f.ticket? ticket := by
  have hsame : ∀ {x y : Key × Time}, f.tickets.get? ticket = some x →
      (ticket, y) ∈ f.tickets → y = x := by
    intro x y hx hy
    have hissue := h.unique (h.table _ hy).1 (h.table _ (Dict.mem_of_get? hx)).1 rfl
    simp only [Issue.mk.injEq, true_and] at hissue
    exact Prod.ext hissue.1 hissue.2
  unfold Front.ticket? Front.issueTicket
  dsimp only
  rw [Dict.get?_set, if_neg hne]
  cases hget : f.tickets.get? ticket with
  | none =>
      cases hkept : Dict.get? (f.tickets.filter _) ticket with
      | none => rfl
      | some y =>
          have hmem := List.mem_of_mem_filter (Dict.mem_of_get? hkept)
          have := Dict.get?_isSome_of_mem hmem
          rw [hget] at this
          cases this
  | some x =>
      by_cases hfresh : f.now - x.2 ≤ signatureFreshnessWindow
      · have hmem : (ticket, x) ∈
            f.tickets.filter fun e => f.now - e.2.2 ≤ signatureFreshnessWindow :=
          List.mem_filter.2 ⟨Dict.mem_of_get? hget, decide_eq_true hfresh⟩
        obtain ⟨y, hy⟩ := Option.isSome_iff_exists.1 (Dict.get?_isSome_of_mem hmem)
        rw [hy, hsame hget (List.mem_of_mem_filter (Dict.mem_of_get? hy))]
      · rw [Option.filter_some, if_neg (by simpa using hfresh)]
        cases hkept : Dict.get? (f.tickets.filter _) ticket with
        | none => rfl
        | some y =>
            obtain ⟨hmem, hold⟩ := List.mem_filter.1 (Dict.mem_of_get? hkept)
            rw [hsame hget hmem] at hold
            exact absurd (of_decide_eq_true hold) hfresh

theorem ticket?_answered {side : Side} {c : Connection} (h : f.Kept)
    (ha : Answered cfg side c f f') {i : Issue} (hi : i ∈ f.issues)
    (hother : i.publicKey ≠ c.publicKey) : f'.ticket? i.ticket = f.ticket? i.ticket := by
  -- The ticket that is spent is the key's own, so it is another.
  have hne : ∀ {ticket at_}, f.tickets.get? ticket = some (c.publicKey, at_) →
      ticket ≠ i.ticket := by
    intro ticket at_ hget he
    have hissue := h.unique (h.table _ (Dict.mem_of_get? hget)).1 hi he
    exact hother (congrArg Issue.publicKey hissue).symm
  unfold Front.ticket?
  cases ha with
  | refused => rfl
  | spent hget =>
      dsimp only
      rw [Dict.get?_pop, if_neg (hne hget)]
  | opened hget _ =>
      dsimp only
      rw [Dict.get?_pop, if_neg (hne hget)]

/-- **An attempt leaves the tickets of other keys as they were.** -/
theorem ticket?_opens (h : f.Kept) {a : Attempt} (hstep : f.step cfg I (.opens a) = some f')
    {i : Issue} (hi : i ∈ f.issues) (hother : i.publicKey ≠ a.connection.publicKey) :
    f'.ticket? i.ticket = f.ticket? i.ticket := by
  simp only [Front.step] at hstep
  split at hstep
  · cases hstep
  · rename_i hnew
    cases hstep
    have hnew' := Bool.eq_false_iff.2 hnew
    obtain ⟨g, rfl | rfl, hans⟩ := openLink_cases cfg I f a
    · exact ticket?_answered h hans hi hother
    · have hi' : i ∈ (f.issueTicket a.connection.publicKey a.tokens.1).issues := by
        unfold Front.issues Front.issueTicket
        rw [List.filterMap_append]
        exact List.mem_append_left _ hi
      have hne : a.tokens.1 ≠ i.ticket := by
        intro he
        exact not_wasIssued hnew' (List.mem_map.2 ⟨i, hi, he.symm⟩)
      rw [ticket?_answered (h.issueTicket hnew') hans hi' hother, ticket?_issueTicket h hne]

end Attempts

/-! ## The links of a front -/

/-- What an operation does to a roster's links. -/
def Op.onLinks (links : Key → List Connection) : Op → Key → List Connection
  | .opens c true => Function.update links c.publicKey (links c.publicKey ++ [c])
  | .detach k c => Function.update links k ((links k).eraseP fun link => same link c)
  | .detachAll k => Function.update links k []
  | _ => links

theorem Roster.links_step {T Ref : Type} [DecidableEq Ref] {K : Kind T Ref} {s s' : Roster T}
    {op : Op} (h : s.step K op = some s') : s'.links = op.onLinks s.links := by
  cases op with
  | opens c proved =>
      simp only [Roster.step] at h
      cases proved <;> cases h <;> rfl
  | register c names =>
      simp only [Roster.step] at h
      split at h <;> cases h <;> rfl
  | delete c name =>
      simp only [Roster.step] at h
      split at h <;> cases h <;> rfl
  | goesOn i =>
      obtain ⟨call, -, rfl⟩ := Option.map_eq_some_iff.1 h
      rfl
  | fails i =>
      obtain ⟨call, -, rfl⟩ := Option.map_eq_some_iff.1 h
      rfl
  | detach k c =>
      cases h
      rfl
  | detachAll k =>
      cases h
      rfl

/-- A move of the node is an operation on the links of one side, or on none. -/
theorem Node.links_step {cfg : Broker.Config} {n n' : Node} {m : Move}
    (h : n.step cfg m = some n') :
    (∃ side op, m = Side.move side op ∧ ∀ x,
      n'.links x = if x = side then op.onLinks (n.links x) else n.links x) ∨
    (∃ a, m = .broker a) ∧ n'.links = n.links := by
  cases m with
  | agents op =>
      obtain ⟨s, hs, rfl⟩ := Option.map_eq_some_iff.1 h
      refine .inl ⟨.agents, op, rfl, ?_⟩
      intro x
      cases x with
      | agents => exact Roster.links_step hs
      | llms => rfl
  | llms op =>
      obtain ⟨s, hs, rfl⟩ := Option.map_eq_some_iff.1 h
      refine .inl ⟨.llms, op, rfl, ?_⟩
      intro x
      cases x with
      | agents => rfl
      | llms => exact Roster.links_step hs
  | broker a =>
      right
      refine ⟨⟨a, rfl⟩, ?_⟩
      change (if ofRoster a then none else _) = some n' at h
      split at h
      · cases h
      · obtain ⟨t, -, rfl⟩ := Option.map_eq_some_iff.1 h
        funext x
        cases x <;> rfl

/-- Links are listed under their key, none twice, and every one of them has been opened
and not been detached since. -/
structure Front.Linked (f : Front) : Prop where
  own : ∀ side k, ∀ l ∈ f.node.links side k, l.publicKey = k
  single : ∀ side k, (f.node.links side k).Pairwise fun a b => same a b = false
  attached : ∀ side k, ∀ l ∈ f.node.links side k, f.attached side l = true

theorem same_symm (a b : Connection) : same a b = same b a := by
  simp only [same, eq_comm]

/-- `remove` leaves no second entry of a connection that is listed once. -/
theorem not_same_of_mem_eraseP {ls : List Connection} {l c : Connection}
    (hls : ls.Pairwise fun a b => same a b = false)
    (hl : l ∈ ls.eraseP fun link => same link c) : same l c = false := by
  induction ls with
  | nil => cases hl
  | cons x ls ih =>
      rw [List.pairwise_cons] at hls
      rw [List.eraseP_cons, Bool.cond_eq_ite] at hl
      by_cases hx : same x c = true
      · rw [if_pos hx] at hl
        have hxl := hls.1 l hl
        unfold same at hx hxl ⊢
        rw [of_decide_eq_true hx] at hxl
        simpa [eq_comm] using hxl
      · rw [if_neg hx] at hl
        rcases List.mem_cons.1 hl with rfl | hl
        · exact Bool.eq_false_iff.2 hx
        · exact ih hls.2 hl

section Links

variable {cfg : Broker.Config} {I : Identity} {f f' : Front}

theorem attached_append (f : Front) (side : Side) (c : Connection) (events : List Event)
    (n : Node) :
    ({ f with
        node := n
        log := f.log ++ events }).attached side c =
      events.foldl (Event.attached side c) (f.attached side c) := by
  unfold Front.attached
  rw [List.foldl_append]

namespace Front.Linked

/-- The same links under the same log. -/
theorem of_same (h : f.Linked) (hlinks : f'.node.links = f.node.links)
    (hlog : ∀ side c, f'.attached side c = f.attached side c) : f'.Linked where
  own side k l hl := h.own side k l (hlinks ▸ hl)
  single side k := by rw [hlinks]; exact h.single side k
  attached side k l hl := by
    rw [hlog]
    exact h.attached side k l (hlinks ▸ hl)

theorem opened (h : f.Linked) {side : Side} {c : Connection} {ticket : String}
    {tickets : Dict String (Key × Time)} (hclosed : f.node.requireOpen side c = false) :
    ({ f with
      tickets := tickets
      node := (f.node.step cfg (side.move (.opens c true))).getD f.node
      log := f.log ++ [.opened side c ticket f.now] } : Front).Linked := by
  set n := (f.node.step cfg (side.move (.opens c true))).getD f.node with hn
  have hlinks : ∀ x, n.links x = if x = side then
      Function.update (f.node.links x) c.publicKey (f.node.links x c.publicKey ++ [c])
      else f.node.links x := by
    intro x
    rw [hn]
    cases side <;> cases x <;> rfl
  have hnew : ∀ x k l, l ∈ n.links x k →
      l ∈ f.node.links x k ∨ x = side ∧ k = c.publicKey ∧ l = c := by
    intro x k l hl
    rw [hlinks] at hl
    by_cases hx : x = side
    · rw [if_pos hx] at hl
      by_cases hk : k = c.publicKey
      · subst hk
        rw [Function.update_self, List.mem_append, List.mem_singleton] at hl
        exact hl.imp_right fun hl => ⟨hx, rfl, hl⟩
      · rw [Function.update_of_ne hk] at hl
        exact .inl hl
    · rw [if_neg hx] at hl
      exact .inl hl
  refine ⟨?_, ?_, ?_⟩
  · intro x k l hl
    rcases hnew x k l hl with hl | ⟨-, rfl, rfl⟩
    · exact h.own x k l hl
    · rfl
  · intro x k
    show (n.links x k).Pairwise _
    rw [hlinks]
    by_cases hx : x = side
    · rw [if_pos hx]
      by_cases hk : k = c.publicKey
      · subst hx hk
        rw [Function.update_self, List.pairwise_append]
        refine ⟨h.single x _, List.pairwise_singleton .., ?_⟩
        intro a ha b hb
        rw [List.mem_singleton.1 hb]
        exact Bool.eq_false_iff.2 (List.any_eq_false.1 hclosed a ha)
      · rw [Function.update_of_ne hk]
        exact h.single x k
    · rw [if_neg hx]
      exact h.single x k
  · intro x k l hl
    have hlog := attached_append f x l [.opened side c ticket f.now] n
    refine Eq.trans hlog ?_
    show (if _ then true else f.attached x l) = true
    rcases hnew x k l hl with hl | ⟨hx, hk, hlc⟩
    · rw [h.attached x k l hl]
      exact ite_self _
    · rw [if_pos ⟨hx.symm, by rw [hlc], by rw [hlc]; exact decide_eq_true rfl⟩]

theorem answered (h : f.Linked) {side : Side} {c : Connection}
    (hclosed : f.node.requireOpen side c = false) (ha : Answered cfg side c f f') :
    f'.Linked := by
  cases ha with
  | refused => exact h
  | spent _ => exact h.of_same rfl fun _ _ => rfl
  | opened _ _ => exact h.opened hclosed

/-- Entries of one key are taken away, and the event speaks of nobody who stays. -/
theorem fewer (h : f.Linked) {side : Side} {k : Key} {rest : List Connection} {e : Event}
    {n : Node}
    (hlinks : ∀ x, n.links x = if x = side then Function.update (f.node.links x) k rest
      else f.node.links x)
    (hsub : rest.Sublist (f.node.links side k))
    (he : ∀ x (l : Connection) b, (x = side → l.publicKey = k → l ∈ rest) →
      e.attached x l b = b) :
    ({ f with
      node := n
      log := f.log ++ [e] } : Front).Linked := by
  have hat : ∀ x k', n.links x k' = if x = side ∧ k' = k then rest else f.node.links x k' := by
    intro x k'
    rw [hlinks]
    by_cases hx : x = side
    · by_cases hk : k' = k
      · subst hk
        rw [if_pos hx, Function.update_self, if_pos ⟨hx, rfl⟩]
      · rw [if_pos hx, Function.update_of_ne hk, if_neg fun h => hk h.2]
    · rw [if_neg hx, if_neg fun h => hx h.1]
  have hsub' : ∀ x k', (n.links x k').Sublist (f.node.links x k') := by
    intro x k'
    rw [hat]
    split
    · rename_i hxk
      rw [hxk.1, hxk.2]
      exact hsub
    · exact List.Sublist.refl _
  refine ⟨?_, ?_, ?_⟩
  · intro x k' l hl
    exact h.own x k' l ((hsub' x k').mem hl)
  · intro x k'
    exact (h.single x k').sublist (hsub' x k')
  · intro x k' l hl
    have hl' := (hsub' x k').mem hl
    have hrest : x = side → l.publicKey = k → l ∈ rest := by
      intro hx hk
      have hkey : k' = k := (h.own x k' l hl').symm.trans hk
      change l ∈ n.links x k' at hl
      rw [hat, if_pos ⟨hx, hkey⟩] at hl
      exact hl
    rw [attached_append]
    exact (he x l _ hrest).trans (h.attached x k' l hl')

/-- One operation on the links of a side, other than opening one. -/
theorem operated (h : f.Linked) {side : Side} {op : Op} {n : Node}
    (hop : (side.move op).opensLink = false)
    (hlinks : ∀ x, n.links x = if x = side then op.onLinks (f.node.links x)
      else f.node.links x) :
    ({ f with
      node := n
      log := f.log ++ (side.move op).events } : Front).Linked := by
  have hsame : (∀ links, op.onLinks links = links) → (side.move op).events = [] →
      ({ f with
        node := n
        log := f.log ++ (side.move op).events } : Front).Linked := by
    intro honly hevents
    refine h.of_same ?_ ?_
    · funext x
      rw [hlinks, honly, ite_self]
    · intro x c
      rw [attached_append, hevents]
      rfl
  cases op with
  | opens c proved => cases side <;> cases hop
  | register c names => exact hsame (fun _ => rfl) (by cases side <;> rfl)
  | delete c name => exact hsame (fun _ => rfl) (by cases side <;> rfl)
  | goesOn i => exact hsame (fun _ => rfl) (by cases side <;> rfl)
  | fails i => exact hsame (fun _ => rfl) (by cases side <;> rfl)
  | detach k c =>
      have hev : (side.move (.detach k c)).events = [.detached side k c] := by
        cases side <;> rfl
      rw [hev]
      have hsub : ((f.node.links side k).eraseP fun link => same link c).Sublist
          (f.node.links side k) := List.eraseP_sublist
      refine h.fewer ?_ hsub ?_
      · intro x
        rw [hlinks]
        split
        · rename_i hx
          rw [hx]
          rfl
        · rfl
      · intro x l b hrest
        refine if_neg ?_
        rintro ⟨hx, hk, hs⟩
        have hgone := not_same_of_mem_eraseP (h.single side k) (hrest hx.symm hk.symm)
        rw [same_symm, hs] at hgone
        cases hgone
  | detachAll k =>
      have hev : (side.move (.detachAll k)).events = [.detachedAll side k] := by
        cases side <;> rfl
      rw [hev]
      refine h.fewer hlinks (List.nil_sublist _) ?_
      intro x l b hrest
      refine if_neg ?_
      rintro ⟨hx, hk⟩
      exact absurd (hrest hx.symm hk.symm) List.not_mem_nil

theorem step (h : f.Linked) {m : FrontMove} (honce : f.opensOnce m = true)
    (hstep : f.step cfg I m = some f') : f'.Linked := by
  have hissue : ∀ k token, (f.issueTicket k token).Linked := by
    intro k token
    refine h.of_same rfl ?_
    intro x c
    exact attached_append f x c [.issued token k f.now] f.node
  cases m with
  | advance d =>
      cases hstep
      exact h.of_same rfl fun _ _ => rfl
  | issueTicket k token =>
      simp only [Front.step] at hstep
      split at hstep
      · cases hstep
      · cases hstep
        exact hissue k token
  | opens a =>
      simp only [Front.step] at hstep
      split at hstep
      · cases hstep
      · cases hstep
        have hclosed : f.node.requireOpen a.side a.connection = false := by
          simpa [Front.opensOnce] using honce
        obtain ⟨g, rfl | rfl, hans⟩ := openLink_cases cfg I f a
        · exact h.answered hclosed hans
        · exact (hissue _ _).answered hclosed hans
  | node m =>
      simp only [Front.step] at hstep
      split at hstep
      · cases hstep
      · rename_i hop
        obtain ⟨n, hn, rfl⟩ := Option.map_eq_some_iff.1 hstep
        rcases Node.links_step hn with ⟨side, op, rfl, hlinks⟩ | ⟨⟨a, rfl⟩, hlinks⟩
        · exact h.operated (Bool.eq_false_iff.2 hop) hlinks
        · exact h.of_same hlinks fun x c => attached_append f x c [] n

/-- A connection that passes `require_open` has been opened and not detached since. -/
theorem attached_of_requireOpen (h : f.Linked) {side : Side} {c : Connection}
    (hopen : f.node.requireOpen side c = true) : f.attached side c = true := by
  obtain ⟨l, hl, hs⟩ := List.any_eq_true.1 hopen
  have hkey := h.own side _ l hl
  have hident : l.ident = c.ident := of_decide_eq_true hs
  have hfun : Event.attached side l = Event.attached side c := by
    funext b e
    cases e <;> simp [Event.attached, same, hkey, hident]
  have hl' := h.attached side _ l hl
  unfold Front.attached at hl' ⊢
  rwa [← hfun]

end Front.Linked

/-- Whoever is attached was admitted by a ticket. -/
theorem opening_of_attached {f : Front} {side : Side} {c : Connection}
    (h : f.attached side c = true) :
    ∃ o ∈ f.openings, o.side = side ∧ o.connection.publicKey = c.publicKey ∧
      same o.connection c = true := by
  unfold Front.attached at h
  unfold Front.openings
  induction hlog : f.log using List.reverseRecOn generalizing f with
  | nil =>
      rw [hlog] at h
      cases h
  | append_singleton log e ih =>
      rw [hlog, List.foldl_append] at h
      rw [List.filterMap_append]
      have hbefore : log.foldl (Event.attached side c) false = true →
          ∃ o ∈ log.filterMap Event.opening? ++ [e].filterMap Event.opening?, o.side = side ∧
            o.connection.publicKey = c.publicKey ∧ same o.connection c = true := by
        intro hlog'
        obtain ⟨o, ho, hsame⟩ := ih (f := { f with log := log }) hlog' rfl
        exact ⟨o, List.mem_append_left _ ho, hsame⟩
      cases e with
      | issued t k at_ => exact hbefore h
      | opened s c' ticket at_ =>
          simp only [List.foldl_cons, List.foldl_nil, Event.attached] at h
          split at h
          · rename_i hc
            exact ⟨⟨s, c', ticket, at_⟩, List.mem_append_right _ (List.mem_singleton_self _), hc⟩
          · exact hbefore h
      | detached s k c' =>
          simp only [List.foldl_cons, List.foldl_nil, Event.attached] at h
          split at h
          · cases h
          · exact hbefore h
      | detachedAll s k =>
          simp only [List.foldl_cons, List.foldl_nil, Event.attached] at h
          split at h
          · cases h
          · exact hbefore h

/-- A call on a connection that is on no open link raises. -/
theorem Roster.calls_of_closed {T Ref : Type} [DecidableEq Ref] {K : Kind T Ref}
    {s s' : Roster T} {op : Op} {c : Connection}
    (hop : (∃ names, op = .register c names) ∨ ∃ name, op = .delete c name)
    (hclosed : ¬ s.requireOpen c = true) (h : s.step K op = some s') : s'.calls = s.calls := by
  rcases hop with ⟨names, rfl⟩ | ⟨name, rfl⟩
  · rw [Roster.step, if_neg fun h => hclosed h.1] at h
    cases h
    rfl
  · rw [Roster.step, if_neg hclosed] at h
    cases h
    rfl

theorem requireOpen_of_call {n n' : Node} {side : Side} {op : Op} {c : Connection}
    (hop : (∃ names, op = .register c names) ∨ ∃ name, op = .delete c name)
    (hstep : n.step cfg (side.move op) = some n') (hcalls : n'.calls side ≠ n.calls side) :
    n.requireOpen side c = true := by
  by_contra hclosed
  apply hcalls
  cases side with
  | agents =>
      obtain ⟨s, hs, rfl⟩ := Option.map_eq_some_iff.1 hstep
      exact Roster.calls_of_closed hop hclosed hs
  | llms =>
      obtain ⟨s, hs, rfl⟩ := Option.map_eq_some_iff.1 hstep
      exact Roster.calls_of_closed hop hclosed hs

end Links

/-! ## Every front -/

section Reachable

variable {cfg : Broker.Config} {db : RunId → Option Broker.Row} {I : Identity}

/-- **A ticket admits once, and only its key**, whatever is issued, tried and detached on
both rosters; and where no connection opens a second link while it is on one, every
`register` or `delete` that is taken up is on a connection that was admitted and has not
been detached since. -/
theorem ticket_admits_once {f : Front}
    (hf : (front cfg db I).ReachableBy (fun f m => f.opensOnce m = true) f) :
    (f.issues.map Issue.ticket).Nodup ∧ (f.openings.map Opening.ticket).Nodup ∧
    (∀ o ∈ f.openings, ∃ i ∈ f.issues, i.ticket = o.ticket ∧
      i.publicKey = o.connection.publicKey ∧ i.at_ ≤ o.at_ ∧
      o.at_ - i.at_ ≤ signatureFreshnessWindow) ∧
    (∀ a f', f.step cfg I (.opens a) = some f' → ∀ i ∈ f.issues,
      i.publicKey ≠ a.connection.publicKey → f'.ticket? i.ticket = f.ticket? i.ticket) ∧
    ∀ side c op f', (∃ names, op = .register c names) ∨ (∃ name, op = .delete c name) →
      f.step cfg I (.node (side.move op)) = some f' →
      f'.node.calls side ≠ f.node.calls side →
      f.attached side c = true ∧ ∃ o ∈ f.openings, o.side = side ∧
        o.connection.publicKey = c.publicKey ∧ same o.connection c = true := by
  have hkept : f.Kept ∧ f.Linked := by
    refine System.ReachableBy.invariant (P := fun f : Front => f.Kept ∧ f.Linked) ?_ ?_ hf
    · rintro f ⟨hnode, htickets, hlog⟩
      have hissues : f.issues = [] := by rw [Front.issues, hlog]; rfl
      have hopenings : f.openings = [] := by rw [Front.openings, hlog]; rfl
      have hlinks : ∀ side k, f.node.links side k = [] := by
        intro side k
        rw [hnode]
        cases side <;> rfl
      constructor
      · refine ⟨?_, ?_, ?_, ?_⟩
        · rw [hissues]
          exact List.nodup_nil
        · rw [htickets]
          intro e he
          cases he
        · rw [hopenings]
          exact List.nodup_nil
        · rw [hopenings]
          intro o ho
          cases ho
      · refine ⟨?_, ?_, ?_⟩
        · intro side k l hl
          rw [hlinks] at hl
          cases hl
        · intro side k
          rw [hlinks]
          exact List.Pairwise.nil
        · intro side k l hl
          rw [hlinks] at hl
          cases hl
    · rintro f m f' - ⟨hkept, hlinked⟩ honce hstep
      exact ⟨hkept.step hstep, hlinked.step honce hstep⟩
  obtain ⟨hkept, hlinked⟩ := hkept
  refine ⟨hkept.minted, hkept.once, hkept.own, ?_, ?_⟩
  · intro a f' hstep i hi hother
    exact ticket?_opens hkept hstep hi hother
  · intro side c op f' hop hstep hcalls
    simp only [Front.step] at hstep
    split at hstep
    · cases hstep
    · obtain ⟨n, hn, rfl⟩ := Option.map_eq_some_iff.1 hstep
      have hattached := hlinked.attached_of_requireOpen (requireOpen_of_call hop hn hcalls)
      exact ⟨hattached, opening_of_attached hattached⟩

end Reachable

namespace Demo

open Broker.Demo (link)

/-- A key signs by writing its name before what it signs. -/
def identity : Identity where
  publicKey := "funduq"
  sign payload := "funduq signs " ++ payload
  verifySignature key proof payload := proof == key ++ " signs " ++ payload

/-- A stranger's connection. -/
def stranger : Connection where
  ident := 2
  publicKey := "stranger"
  maxConcurrentRuns := none

/-- The connection answers `ticket`; `token` is not asked for. -/
def answers (c : Connection) (ticket token : String) : FrontMove :=
  .opens {
    side := .agents
    connection := c
    ticket := some ticket
    providerNonce := some "n"
    proof := some (c.publicKey ++ " signs " ++ providerConnectPayload "funduq" ticket "n")
    signer := none
    confirms := true
    tokens := (token, "") }

/-- The front before anything has happened. -/
def unopened : Front where
  node := ⟨.empty (Broker.State.init fun _ => none), .empty []⟩
  now := 0
  tickets := []
  log := []

def frontAfter (ms : List FrontMove) : Front :=
  (front Broker.Demo.config (fun _ => none) identity).runFrom unopened ms

/-- A stranger tries a ticket, its key answers it, and the ticket is tried again. -/
def admitted : List FrontMove :=
  [.issueTicket "pk" "t", answers stranger "t" "x", .advance 60000, answers link "t" "x",
    answers second "t" "x"]

/-- A connection opens two links, and is detached. -/
def detachedOnce : List FrontMove :=
  [.issueTicket "pk" "t", .issueTicket "pk" "u", answers link "t" "x", answers link "u" "x",
    .node (.agents (.detach "pk" link))]

end Demo

open Broker.Demo (config link) in
theorem ticket_admits_once_admitted :
    (Demo.frontAfter Demo.admitted).openings.length = 1 ∧
      ((Demo.frontAfter Demo.admitted).openings.map Opening.ticket).Nodup ∧
      ∀ o ∈ (Demo.frontAfter Demo.admitted).openings,
        ∃ i ∈ (Demo.frontAfter Demo.admitted).issues, i.ticket = o.ticket ∧
          i.publicKey = o.connection.publicKey := by
  have hallows : (front config (fun _ => none) Demo.identity).allows Front.opensOnce
      Demo.unopened Demo.admitted = true := by
    decide +kernel
  have hreach : (front config (fun _ => none) Demo.identity).ReachableBy
      (fun f m => f.opensOnce m = true) (Demo.frontAfter Demo.admitted) :=
    System.ReachableBy.runFrom (fun _ _ h => h) (.init ⟨rfl, rfl, rfl⟩) hallows
  obtain ⟨-, honce, hown, -, -⟩ := ticket_admits_once hreach
  refine ⟨by decide +kernel, honce, ?_⟩
  intro o ho
  obtain ⟨i, hi, hticket, hkey, -⟩ := hown o ho
  exact ⟨i, hi, hticket, hkey⟩

/-- A connection that was on two links and has been detached registers an agent. -/
theorem detached_connection_registers :
    ∃ f f', (front Broker.Demo.config (fun _ => none) Demo.identity).Reachable f ∧
      f.step Broker.Demo.config Demo.identity
        (.node (Side.agents.move (.register Broker.Demo.link ["translator"]))) = some f' ∧
      f'.node.calls .agents ≠ f.node.calls .agents ∧
      f.attached .agents Broker.Demo.link = false := by
  have hends : ((Demo.frontAfter Demo.detachedOnce).step Broker.Demo.config Demo.identity
      (.node (Side.agents.move (.register Broker.Demo.link ["translator"])))).any (fun f' =>
        (f'.node.calls .agents).length ≠
          ((Demo.frontAfter Demo.detachedOnce).node.calls .agents).length) = true := by
    decide +kernel
  obtain ⟨f', hstep, hcalls⟩ := (Option.any_eq_true _ _).1 hends
  have hunopened : (front Broker.Demo.config (fun _ => none) Demo.identity).Reachable
      Demo.unopened :=
    .init ⟨rfl, rfl, rfl⟩
  refine ⟨Demo.frontAfter Demo.detachedOnce, f', hunopened.runFrom _, hstep, ?_,
    by decide +kernel⟩
  intro hsame
  rw [hsame] at hcalls
  exact absurd rfl (of_decide_eq_true hcalls)

end Funduq.Rosters
