import Funduq.Broker.Step
import Funduq.Store.Tables

/-!
# The rosters

`_Roster` keeps the links a key has open and publishes names on them.  It is written
once for both vocabularies: which connection serves a name is kept elsewhere, by the
broker for agents and in a plain map for LLM offerings (`LiveRoster`), and `Kind` is
what the two have to offer.

A call of `register` or `delete_agent` makes its check, waits for the database, and
then writes the table, all in one stretch; everything else the roster does is one
stretch.  So a roster's state is its links, the calls that wait, and the table.
-/

namespace Funduq.Rosters

open Funduq.Lib
open Funduq.Broker (Key Connection AgentRef)
open Funduq.Store (LlmRef)

/-- `a is b`. -/
def same (a b : Connection) : Bool := a.ident = b.ident

/-! ## The plain map -/

/-- `LiveRoster`, but for its counters: the connection that serves each ref. -/
abbrev LiveRoster (Ref : Type) := Dict Ref Connection

namespace LiveRoster

variable {Ref : Type}

/-- `served_by`; `key` is the ref's `provider_key`. -/
def servedBy (key : Ref → Key) (links : LiveRoster Ref) (k : Key) : List Ref :=
  (links.map Prod.fst).filter fun ref => key ref = k

variable [DecidableEq Ref]

def attach (links : LiveRoster Ref) (mapping : List (Ref × Connection)) : LiveRoster Ref :=
  mapping.foldl (fun links e => links.set e.1 e.2) links

def withdraw (links : LiveRoster Ref) (refs : List Ref) : LiveRoster Ref :=
  refs.foldl (fun links ref => links.pop ref) links

def serving (links : LiveRoster Ref) (ref : Ref) : Option Connection := links.get? ref

end LiveRoster

/-! ## What the two rosters have of their own -/

/-- What `_Roster` leaves to its two kinds. -/
structure Kind (T Ref : Type) where
  ref : Key → String → Ref
  servedBy : T → Key → List Ref
  live : T → Ref → Option Connection
  writeLive : T → List (Ref × Connection) → T
  withdraw : T → List Ref → T

/-- `_AgentRoster`. -/
def agentRoster : Kind Broker.State AgentRef where
  ref k name := ⟨k, name⟩
  servedBy := Broker.State.agentsServedBy
  live := Broker.State.servingOf
  writeLive := Broker.State.registerProvider
  withdraw := Broker.State.unregisterProvider

/-- A roster over a plain map. -/
def plainRoster {Ref : Type} [DecidableEq Ref] (key : Ref → Key) (ref : Key → String → Ref) :
    Kind (LiveRoster Ref) Ref where
  ref := ref
  servedBy := LiveRoster.servedBy key
  live := LiveRoster.serving
  writeLive := LiveRoster.attach
  withdraw := LiveRoster.withdraw

/-- `_LlmRoster`. -/
def llmRoster : Kind (LiveRoster LlmRef) LlmRef := plainRoster LlmRef.providerKey LlmRef.mk

/-! ## The roster -/

/-- A call that waits for the database. -/
inductive Call where
  | registering (connection : Connection) (names : List String)
  | deleting (connection : Connection) (name : String)

structure Roster (T : Type) where
  /-- `_open`: the links a key has open. -/
  links : Key → List Connection
  calls : List Call
  table : T

/-- What is done to a roster. -/
inductive Op where
  /-- `open`; `proved` tells whether the ticket was live and the proof good. -/
  | opens (connection : Connection) (proved : Bool)
  | register (connection : Connection) (names : List String)
  | delete (connection : Connection) (name : String)
  /-- The database has done what call `i` waits for: the names are stored, or nothing
  stands in the way of the deletion. -/
  | goesOn (i : Nat)
  /-- Call `i` raises. -/
  | fails (i : Nat)
  | detach (publicKey : Key) (connection : Connection)
  | detachAll (publicKey : Key)

namespace Roster

variable {T Ref : Type} (K : Kind T Ref)

/-- A roster with no link. -/
def empty (t : T) : Roster T where
  links := fun _ => []
  calls := []
  table := t

/-- `require_open`. -/
def requireOpen (s : Roster T) (connection : Connection) : Bool :=
  (s.links connection.publicKey).any fun link => same link connection

/-- The connection serves the ref. -/
def serves (t : T) (connection : Connection) (ref : Ref) : Bool :=
  (K.live t ref).any fun c => same c connection

def takeOffline (t : T) (connection : Connection) (name : String) : T :=
  let ref := K.ref connection.publicKey name
  if serves K t connection ref then K.withdraw t [ref] else t

/-- Takes `refs` offline, if there are any. -/
def withdrawAll (t : T) (refs : List Ref) : T := if refs.isEmpty then t else K.withdraw t refs

/-- The refs of `publicKey` the connection serves. -/
def attached (t : T) (publicKey : Key) (connection : Connection) : List Ref :=
  (K.servedBy t publicKey).filter fun ref => serves K t connection ref

def detach (s : Roster T) (publicKey : Key) (connection : Connection) : Roster T :=
  { s with
    links := Function.update s.links publicKey
      ((s.links publicKey).eraseP fun link => same link connection)
    table := withdrawAll K s.table (attached K s.table publicKey connection) }

def detachAll (s : Roster T) (publicKey : Key) : Roster T :=
  { s with
    links := Function.update s.links publicKey []
    table := withdrawAll K s.table (K.servedBy s.table publicKey) }

variable [DecidableEq Ref]

/-- The refs of the names that are registered. -/
def keep (connection : Connection) (names : List String) : List Ref :=
  (names.map (K.ref connection.publicKey)).dedup

/-- `register`, once the names are stored: what the connection serves and does not
register again is withdrawn. -/
def publish (t : T) (connection : Connection) (names : List String) : T :=
  let keep := keep K connection names
  let withdrawn := (attached K t connection.publicKey connection).filter fun ref => ref ∉ keep
  K.writeLive (withdrawAll K t withdrawn) (keep.map fun ref => (ref, connection))

/-- What a call does to the table once it need not wait. -/
def proceed (t : T) : Call → T
  | .registering connection names => publish K t connection names
  | .deleting connection name => takeOffline K t connection name

/-- The roster once `op` is done; a call that raises changes nothing. -/
def step (s : Roster T) : Op → Option (Roster T)
  | .opens c proved =>
      if proved then
        some { s with links := Function.update s.links c.publicKey (s.links c.publicKey ++ [c]) }
      else some s
  | .register c names =>
      if s.requireOpen c ∧ names ≠ [] then
        some { s with calls := s.calls ++ [.registering c names] }
      else some s
  | .delete c name =>
      if s.requireOpen c then some { s with calls := s.calls ++ [.deleting c name] } else some s
  | .goesOn i => s.calls[i]?.map fun call =>
      { s with calls := s.calls.eraseIdx i, table := proceed K s.table call }
  | .fails i => s.calls[i]?.map fun _ => { s with calls := s.calls.eraseIdx i }
  | .detach k c => some (s.detach K k c)
  | .detachAll k => some (s.detachAll K k)

end Roster

end Funduq.Rosters
