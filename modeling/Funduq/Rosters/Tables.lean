import Mathlib.Data.List.Dedup
import Funduq.Broker.Wakeup
import Funduq.Rosters.Roster

/-!
# The two tables

What a roster may rely on in its table, whichever it is (`Lawful`): a ref that is
served is served by a connection of its own key and found among those its key serves;
what is withdrawn is served no longer; what is published is served by the connection
that published it.

What becomes of the other refs is where the two differ.  In the plain map nothing
does.  The broker keeps a key for each ref and one connection for each key, so every
ref of the key goes over to the connection that registered last.
-/

namespace Funduq.Rosters

open Funduq.Lib
open Funduq.Broker (Key Connection AgentRef)
open Funduq.Store (LlmRef)

/-- What a roster may rely on in a table with `Ok`. -/
structure Lawful {T Ref : Type} [DecidableEq Ref] (K : Kind T Ref) (key : Ref → Key)
    (Ok : T → Prop) : Prop where
  key_ref : ∀ k name, key (K.ref k name) = k
  served : ∀ {t : T} {ref : Ref} {c : Connection}, Ok t → K.live t ref = some c →
    c.publicKey = key ref ∧ ref ∈ K.servedBy t (key ref)
  live_withdraw : ∀ t refs ref,
    K.live (K.withdraw t refs) ref = if ref ∈ refs then none else K.live t ref
  withdraw : ∀ {t}, Ok t → ∀ refs, Ok (K.withdraw t refs)
  live_write : ∀ {t : T} {c : Connection} {refs : List Ref}, Ok t →
    (∀ ref ∈ refs, key ref = c.publicKey) →
    ∀ ref, K.live (K.writeLive t (refs.map fun ref => (ref, c))) ref = some c ∧
        (ref ∈ refs ∨ (K.live t ref).isSome = true ∧ key ref = c.publicKey) ∨
      ref ∉ refs ∧ K.live (K.writeLive t (refs.map fun ref => (ref, c))) ref = K.live t ref
  write : ∀ {t : T} {c : Connection} {refs : List Ref}, Ok t →
    (∀ ref ∈ refs, key ref = c.publicKey) →
    Ok (K.writeLive t (refs.map fun ref => (ref, c)))

namespace Roster

variable {T Ref : Type} [DecidableEq Ref] {K : Kind T Ref} {key : Ref → Key} {Ok : T → Prop}
  {t : T}

theorem live_withdrawAll (hK : Lawful K key Ok) (t : T) (refs : List Ref) (ref : Ref) :
    K.live (withdrawAll K t refs) ref = if ref ∈ refs then none else K.live t ref := by
  unfold withdrawAll
  split
  · rename_i hnil
    rw [List.isEmpty_iff.1 hnil]
    rfl
  · exact hK.live_withdraw t refs ref

theorem ok_withdrawAll (hK : Lawful K key Ok) (ht : Ok t) (refs : List Ref) :
    Ok (withdrawAll K t refs) := by
  unfold withdrawAll
  split
  · exact ht
  · exact hK.withdraw ht refs

theorem key_of_keep (hK : Lawful K key Ok) {c : Connection} {names : List String} {ref : Ref}
    (href : ref ∈ keep K c names) : key ref = c.publicKey := by
  obtain ⟨name, -, rfl⟩ := List.mem_map.1 (List.mem_dedup.1 href)
  exact hK.key_ref c.publicKey name

theorem ok_proceed (hK : Lawful K key Ok) (ht : Ok t) (call : Call) : Ok (proceed K t call) := by
  cases call with
  | registering c names =>
      exact hK.write (ok_withdrawAll hK ht _) fun ref href => key_of_keep hK href
  | deleting c name =>
      unfold proceed takeOffline
      dsimp only
      split
      · exact hK.withdraw ht _
      · exact ht

/-- A call that goes on puts its own connection into service, or nobody. -/
theorem live_proceed (hK : Lawful K key Ok) (ht : Ok t) {call : Call} {ref : Ref}
    {c : Connection} (hl : K.live (proceed K t call) ref = some c) :
    (∃ names, call = .registering c names) ∨ K.live t ref = some c := by
  cases call with
  | registering c' names =>
      unfold proceed publish at hl
      dsimp only at hl
      rcases hK.live_write (ok_withdrawAll hK ht _) (fun ref href => key_of_keep hK href) ref
        with ⟨hw, -⟩ | ⟨-, hw⟩
      · rw [hw] at hl
        cases hl
        exact .inl ⟨names, rfl⟩
      · rw [hw, live_withdrawAll hK] at hl
        split at hl
        · cases hl
        · exact .inr hl
  | deleting c' name =>
      right
      unfold proceed takeOffline at hl
      dsimp only at hl
      split at hl
      · rw [hK.live_withdraw] at hl
        split at hl
        · cases hl
        · exact hl
      · exact hl

/-- Whatever is done to a roster, its table is in order. -/
theorem ok_step (hK : Lawful K key Ok) {s s' : Roster T} {op : Op} (hs : Ok s.table)
    (hstep : s.step K op = some s') : Ok s'.table := by
  cases op with
  | opens c proved =>
      simp only [Roster.step] at hstep
      split at hstep <;> cases hstep <;> exact hs
  | register c names =>
      simp only [Roster.step] at hstep
      split at hstep <;> cases hstep <;> exact hs
  | delete c name =>
      simp only [Roster.step] at hstep
      split at hstep <;> cases hstep <;> exact hs
  | goesOn i =>
      obtain ⟨call, -, rfl⟩ := Option.map_eq_some_iff.1 hstep
      exact ok_proceed hK hs call
  | fails i =>
      obtain ⟨call, -, rfl⟩ := Option.map_eq_some_iff.1 hstep
      exact hs
  | detach k c =>
      cases hstep
      exact ok_withdrawAll hK hs _
  | detachAll k =>
      cases hstep
      exact ok_withdrawAll hK hs _

end Roster

/-! ## The plain map -/

section Plain

variable {Ref : Type} [DecidableEq Ref] {key : Ref → Key} {links : LiveRoster Ref}

theorem get?_attach (links : LiveRoster Ref) (c : Connection) (refs : List Ref) (ref : Ref) :
    (links.attach (refs.map fun ref => (ref, c))).get? ref =
      if ref ∈ refs then some c else links.get? ref := by
  unfold LiveRoster.attach
  induction refs generalizing links with
  | nil => rfl
  | cons x refs ih =>
      rw [List.map_cons, List.foldl_cons, ih, Dict.get?_set]
      by_cases hx : x = ref
      · subst hx
        simp
      · simp [hx, Ne.symm hx]

theorem get?_withdraw (links : LiveRoster Ref) (refs : List Ref) (ref : Ref) :
    (links.withdraw refs).get? ref = if ref ∈ refs then none else links.get? ref := by
  unfold LiveRoster.withdraw
  induction refs generalizing links with
  | nil => rfl
  | cons x refs ih =>
      rw [List.foldl_cons, ih, Dict.get?_pop]
      by_cases hx : x = ref
      · subst hx
        simp
      · simp [hx, Ne.symm hx]

/-- Every ref is served by a connection of its own key. -/
def Owned (key : Ref → Key) (links : LiveRoster Ref) : Prop :=
  ∀ ref c, links.get? ref = some c → c.publicKey = key ref

theorem lawful_plain {ref : Key → String → Ref} (hkey : ∀ k name, key (ref k name) = k) :
    Lawful (plainRoster key ref) key (Owned key) where
  key_ref := hkey
  served {t ref c} ht hl := by
    refine ⟨ht ref c hl, List.mem_filter.2 ⟨?_, decide_eq_true rfl⟩⟩
    exact List.mem_map_of_mem (Dict.mem_of_get? hl)
  live_withdraw t refs ref := get?_withdraw t refs ref
  withdraw {t} ht refs ref c hl := by
    rw [show (plainRoster key _).withdraw t refs = t.withdraw refs from rfl, get?_withdraw] at hl
    split at hl
    · cases hl
    · exact ht ref c hl
  live_write {t c refs} ht hrefs ref := by
    by_cases hmem : ref ∈ refs
    · refine .inl ⟨(get?_attach t c refs ref).trans (if_pos hmem), .inl hmem⟩
    · exact .inr ⟨hmem, (get?_attach t c refs ref).trans (if_neg hmem)⟩
  write {t c refs} ht hrefs ref c' hl := by
    rw [show (plainRoster key _).writeLive t _ = t.attach _ from rfl, get?_attach] at hl
    split at hl
    · rename_i hmem
      cases hl
      exact (hrefs ref hmem).symm
    · exact ht ref c' hl

end Plain

/-! ## The broker's tables -/

section Broker

variable {t : Broker.State}

/-- Failing the runs somebody holds does not touch the roster. -/
theorem push_roster (held : List String) (t : Broker.State) :
    (held.foldl (fun (s : Broker.State) r =>
      (s.push r (.fail "provider_left_holding_it" none)).1) t).serving = t.serving ∧
    (held.foldl (fun (s : Broker.State) r =>
      (s.push r (.fail "provider_left_holding_it" none)).1) t).providers = t.providers := by
  induction held generalizing t with
  | nil => exact ⟨rfl, rfl⟩
  | cons r held ih =>
      rw [List.foldl_cons, (ih _).1, (ih _).2]
      unfold Broker.State.push Broker.State.postTo
      split <;> exact ⟨rfl, rfl⟩

theorem roster_unregisterOne (t : Broker.State) (x : AgentRef) :
    (∀ ref, (t.unregisterOne x).serving.get? ref = if x = ref then none else t.serving.get? ref) ∧
      (t.unregisterOne x).providers = t.providers := by
  unfold Broker.State.unregisterOne
  split
  · rename_i hnone
    refine ⟨fun ref => ?_, rfl⟩
    split
    · rename_i hx
      rw [← hx, hnone]
    · rfl
  · refine ⟨fun ref => ?_, (push_roster _ _).2⟩
    change Dict.get? (Broker.State.serving (List.foldl _ _ _)) ref = _
    rw [(push_roster _ _).1]
    exact Dict.get?_pop t.serving x ref

/-- What is taken out of service is served by nobody; the keys keep their
connections. -/
theorem roster_unregister (t : Broker.State) (refs : List AgentRef) :
    (∀ ref, (t.unregisterProvider refs).serving.get? ref =
      if ref ∈ refs then none else t.serving.get? ref) ∧
      (t.unregisterProvider refs).providers = t.providers := by
  unfold Broker.State.unregisterProvider
  induction refs generalizing t with
  | nil => exact ⟨fun _ => rfl, rfl⟩
  | cons x refs ih =>
      rw [List.foldl_cons]
      obtain ⟨hserving, hproviders⟩ := roster_unregisterOne t x
      refine ⟨fun ref => ?_, ((ih _).2).trans hproviders⟩
      rw [(ih _).1, hserving]
      by_cases hx : x = ref
      · subst hx
        simp
      · simp [hx, Ne.symm hx]

/-- What is registered is in the connection's key, and the key has the connection. -/
theorem roster_register (t : Broker.State) (c : Connection) (refs : List AgentRef) :
    (∀ ref, (t.registerProvider (refs.map fun ref => (ref, c))).serving.get? ref =
      if ref ∈ refs then some c.publicKey else t.serving.get? ref) ∧
    (refs ≠ [] → ((t.registerProvider (refs.map fun ref => (ref, c))).provider
      c.publicKey).connection = some c) ∧
    ∀ k, k ≠ c.publicKey → (t.registerProvider (refs.map fun ref => (ref, c))).provider k =
      t.provider k := by
  have hpoked : ∀ (mapping : List (AgentRef × Connection)) (t : Broker.State),
      (mapping.foldl (fun (s : Broker.State) e => s.pokeAgent e.1) t).serving = t.serving ∧
        (mapping.foldl (fun (s : Broker.State) e => s.pokeAgent e.1) t).providers =
          t.providers := by
    intro mapping
    induction mapping with
    | nil => exact fun _ => ⟨rfl, rfl⟩
    | cons e mapping ih => exact fun t => ih (t.pokeAgent e.1)
  have hmapped : ∀ (refs : List AgentRef) (t : Broker.State),
      (∀ ref, ((refs.map fun ref => (ref, c)).foldl
        (fun (s : Broker.State) e => s.registerOne e.1 e.2) t).serving.get? ref =
          if ref ∈ refs then some c.publicKey else t.serving.get? ref) ∧
      (refs ≠ [] ∨ (t.provider c.publicKey).connection = some c →
        (((refs.map fun ref => (ref, c)).foldl
          (fun (s : Broker.State) e => s.registerOne e.1 e.2) t).provider
            c.publicKey).connection = some c) ∧
      ∀ k, k ≠ c.publicKey → ((refs.map fun ref => (ref, c)).foldl
        (fun (s : Broker.State) e => s.registerOne e.1 e.2) t).provider k = t.provider k := by
    intro refs
    induction refs with
    | nil =>
        refine fun t => ⟨fun _ => rfl, ?_, fun _ _ => rfl⟩
        rintro (h | h)
        · exact absurd rfl h
        · exact h
    | cons x refs ih =>
        intro t
        rw [List.map_cons, List.foldl_cons]
        obtain ⟨hserving, hconn, hother⟩ := ih (t.registerOne x c)
        refine ⟨fun ref => ?_, fun _ => hconn (.inr ?_), fun k hk => ?_⟩
        · rw [hserving]
          unfold Broker.State.registerOne
          dsimp only
          rw [Dict.get?_set]
          by_cases hx : x = ref
          · subst hx
            simp
          · simp [hx, Ne.symm hx]
        · simp [Broker.State.registerOne, Broker.State.provider]
        · rw [hother k hk]
          simp [Broker.State.registerOne, Broker.State.provider, hk]
  obtain ⟨hserving, hconn, hother⟩ := hmapped refs t
  unfold Broker.State.registerProvider
  dsimp only
  refine ⟨fun ref => ?_, fun hne => ?_, fun k hk => ?_⟩
  · rw [(hpoked _ _).1]
    exact hserving ref
  · unfold Broker.State.provider
    rw [(hpoked _ _).2]
    exact hconn (.inl hne)
  · unfold Broker.State.provider
    rw [(hpoked _ _).2]
    exact hother k hk

/-- Every agent is served under its own key, every key that serves has a connection,
and the connection is one of the key's. -/
structure RosterOk (t : Broker.State) : Prop where
  key : ∀ ref k, t.serving.get? ref = some k →
    k = ref.providerKey ∧ (t.provider k).connection.isSome = true
  own : ∀ k c, (t.provider k).connection = some c → c.publicKey = k

theorem rosterOk_init {db : Broker.RunId → Option Broker.Row} : RosterOk (Broker.State.init db) where
  key _ _ hk := by cases hk
  own _ _ hc := by cases hc

theorem RosterOk.unregister (ht : RosterOk t) (refs : List AgentRef) :
    RosterOk (t.unregisterProvider refs) := by
  obtain ⟨hserving, hproviders⟩ := roster_unregister t refs
  have hprovider : ∀ k, (t.unregisterProvider refs).provider k = t.provider k := by
    intro k
    unfold Broker.State.provider
    rw [hproviders]
  constructor
  · intro ref k hk
    rw [hserving] at hk
    split at hk
    · cases hk
    · rw [hprovider]
      exact ht.key ref k hk
  · intro k c hc
    rw [hprovider] at hc
    exact ht.own k c hc

theorem RosterOk.register {c : Connection} {refs : List AgentRef} (ht : RosterOk t)
    (hrefs : ∀ ref ∈ refs, ref.providerKey = c.publicKey) :
    RosterOk (t.registerProvider (refs.map fun ref => (ref, c))) := by
  obtain ⟨hserving, hconn, hother⟩ := roster_register t c refs
  by_cases hnil : refs = []
  · subst hnil
    exact ⟨ht.key, ht.own⟩
  constructor
  · intro ref k hk
    rw [hserving] at hk
    split at hk
    · rename_i hmem
      cases hk
      rw [hconn hnil]
      exact ⟨(hrefs ref hmem).symm, rfl⟩
    · obtain ⟨hkey, hsome⟩ := ht.key ref k hk
      refine ⟨hkey, ?_⟩
      by_cases hc : k = c.publicKey
      · rw [hc, hconn hnil]
        rfl
      · rwa [hother k hc]
  · intro k c' hc'
    by_cases hc : k = c.publicKey
    · rw [hc, hconn hnil] at hc'
      cases hc'
      exact hc.symm
    · rw [hother k hc] at hc'
      exact ht.own k c' hc'

theorem live_unregister (t : Broker.State) (refs : List AgentRef) (ref : AgentRef) :
    (t.unregisterProvider refs).servingOf ref =
      if ref ∈ refs then none else t.servingOf ref := by
  obtain ⟨hserving, hproviders⟩ := roster_unregister t refs
  unfold Broker.State.servingOf
  rw [hserving, hproviders]
  split <;> rfl

/-- A ref is served by the connection if its key is the connection's and the key
serves it, and by whom it was before if not. -/
theorem live_register (t : Broker.State) {c : Connection} {refs : List AgentRef}
    (hne : refs ≠ []) (ref : AgentRef) :
    (t.registerProvider (refs.map fun ref => (ref, c))).servingOf ref =
      if ref ∈ refs ∨ t.serving.get? ref = some c.publicKey then some c
      else t.servingOf ref := by
  obtain ⟨hserving, hconn, hother⟩ := roster_register t c refs
  rw [Broker.State.servingOf_eq, Broker.State.servingOf_eq, hserving]
  by_cases hmem : ref ∈ refs
  · rw [if_pos hmem, if_pos (.inl hmem), Option.bind_some, hconn hne]
  · rw [if_neg hmem]
    cases hk : t.serving.get? ref with
    | none => simp [hmem]
    | some k =>
        by_cases hc : k = c.publicKey
        · rw [if_pos (.inr (hc ▸ rfl)), Option.bind_some, hc, hconn hne]
        · rw [if_neg (by simp [hmem, hc]), Option.bind_some, Option.bind_some, hother k hc]

theorem lawful_agent : Lawful agentRoster AgentRef.providerKey RosterOk where
  key_ref _ _ := rfl
  served {t ref c} ht hl := by
    have hl : t.servingOf ref = some c := hl
    rw [Broker.State.servingOf_eq] at hl
    obtain ⟨k, hk, hc⟩ := Option.bind_eq_some_iff.1 hl
    obtain ⟨rfl, -⟩ := ht.key ref k hk
    refine ⟨ht.own _ c hc, List.mem_map.2 ⟨(ref, ref.providerKey), ?_, rfl⟩⟩
    exact List.mem_filter.2 ⟨Dict.mem_of_get? hk, decide_eq_true rfl⟩
  live_withdraw := live_unregister
  withdraw ht refs := ht.unregister refs
  live_write {t c refs} ht hrefs ref := by
    by_cases hne : refs = []
    · subst hne
      exact .inr ⟨List.not_mem_nil, rfl⟩
    have hl := live_register t (c := c) hne ref
    by_cases hmem : ref ∈ refs
    · rw [if_pos (.inl hmem)] at hl
      exact .inl ⟨hl, .inl hmem⟩
    by_cases hk : t.serving.get? ref = some c.publicKey
    · rw [if_pos (.inr hk)] at hl
      obtain ⟨hkey, hsome⟩ := ht.key ref _ hk
      refine .inl ⟨hl, .inr ⟨?_, hkey.symm⟩⟩
      change (t.servingOf ref).isSome = true
      rwa [Broker.State.servingOf_eq, hk, Option.bind_some]
    · rw [if_neg (by simp [hmem, hk])] at hl
      exact .inr ⟨hmem, hl⟩
  write ht hrefs := ht.register hrefs

end Broker

end Funduq.Rosters
