import Funduq.Kyok.Collapse
import Funduq.Kyok.Completion

/-!
# What is counted

A completion that was handed over is relayed chunk by chunk.  How it came out is noted
under the key of the provider that serves it, right before its caller is told: it ended,
it was refused, or it failed.  A caller that goes away is told nothing, and nothing is
noted.

So `quality` shows what the callers were told, whichever of the two ways they were told
(`quality_shows_what_was_told`).
-/

namespace Funduq.Kyok

open Funduq.Lib
open Funduq.Broker (RunId)

/-! ## The counters of a `LiveRoster` -/

/-- What wrong bookkeeping raises. -/
inductive CountingError where
  | valueError (message : String)
  | keyError (key : String)
  | typeError (message : String)

/-- `LiveRoster._counters`: for each key how often each name was noted. -/
abbrev Counters := Dict String (Dict String Nat)

/-- `dict.fromkeys(names, 0)`. -/
def fromkeys (names : List String) : Dict String Nat :=
  names.foldl (fun d name => d.set name 0) []

/-- `LiveRoster.note`. -/
def Counters.note (names : List String) (counters : Counters) (publicKey counter : String) :
    Except CountingError Counters :=
  if counter ∈ names then
    let bucket := (Dict.get? counters publicKey).getD (fromkeys names)
    match bucket.get? counter with
    | none => .error (.keyError counter)
    | some n => .ok (Dict.set counters publicKey (bucket.set counter (n + 1)))
  else .error (.valueError ("unknown counter '" ++ counter ++ "'"))

/-- The names a `KyokRelay` counts under. -/
def outcomes : List String := ["completions", "refused", "failed"]

structure LlmProviderQuality where
  completions : Nat := 0
  refused : Nat := 0
  failed : Nat := 0
  deriving DecidableEq

/-- `LlmProviderQuality(**counters)`. -/
def LlmProviderQuality.ofCounters (counters : Dict String Nat) :
    Except CountingError LlmProviderQuality :=
  match counters.find? fun e => e.1 ∉ outcomes with
  | some e => .error (.typeError
      ("LlmProviderQuality.__init__() got an unexpected keyword argument '" ++ e.1 ++ "'"))
  | none => .ok
      { completions := (counters.get? "completions").getD 0
        refused := (counters.get? "refused").getD 0
        failed := (counters.get? "failed").getD 0 }

/-- `KyokRelay.quality`. -/
def quality (counters : Counters) : Except CountingError (Dict String LlmProviderQuality) :=
  counters.mapM fun e => (LlmProviderQuality.ofCounters e.2).map fun q => (e.1, q)

/-! ## Relaying -/

/-- How a relayed completion comes to its end. -/
inductive Ending where
  | ended
  | raised (e : LinkError)
  /-- The caller has gone away. -/
  | abandoned

/-- What `_counted` notes at the end. -/
def counted (counters : Counters) (publicKey : String) : Ending → Except CountingError Counters
  | .ended => counters.note outcomes publicKey "completions"
  | .raised e =>
      counters.note outcomes publicKey (if e.refusal.isSome then "refused" else "failed")
  | .abandoned => .ok counters

/-- The completion of call `call` on its way to the caller. -/
structure Relaying where
  call : Nat
  relay : CompletionRelay
  chunks : List ChatCompletionChunk := []
  ending : Option Ending := none

def Relaying.start (call : Nat) (relay : CompletionRelay) : Relaying where
  call := call
  relay := relay

/-- The exchange, the completions it has handed over that are asked for, and the counters. -/
structure Relays where
  exchange : Exchange
  relaying : List Relaying := []
  counters : Counters := []

inductive RelayTurn where
  | exchange (turn : Turn)
  /-- The caller of call `call` asks for the first chunk. -/
  | takes (call : Nat)
  | yields (i : Nat) (chunk : ChatCompletionChunk)
  | ends (i : Nat) (ending : Ending)

namespace Relays

def step (cfg : Broker.Config) (K : Checks) (s : Relays) : RelayTurn → Option Relays
  | .exchange turn => (s.exchange.step cfg K turn).map fun x => { s with exchange := x }
  | .takes call => do
      let c ← s.exchange.calls[call]?
      match c.progress with
      | .relayed relay =>
          -- The chunks are there to be taken once.
          if call ∈ s.relaying.map Relaying.call then none
          else some { s with relaying := s.relaying ++ [.start call relay] }
      | _ => none
  | .yields i chunk => do
      let r ← s.relaying[i]?
      if r.ending.isNone then
        some { s with relaying := s.relaying.set i { r with chunks := r.chunks ++ [chunk] } }
      else none
  | .ends i ending => do
      let r ← s.relaying[i]?
      if r.ending.isNone then
        match counted s.counters r.relay.publicKey ending with
        | .ok counters => some { s with
            relaying := s.relaying.set i { r with ending := some ending }
            counters := counters }
        | .error _ => none
      else none

end Relays

def relays (cfg : Broker.Config) (db : RunId → Option Broker.Row) (K : Checks) :
    System Relays RelayTurn where
  init s := ∃ x, (exchange cfg db K).init x ∧ s = { exchange := x }
  step := Relays.step cfg K

/-! ## What the callers were told -/

/-- What the caller was answered, once the completion has come to an end with it there. -/
def Relaying.answer? (r : Relaying) : Option Answer :=
  match r.ending with
  | some .ended => some ⟨r.chunks, none⟩
  | some (.raised e) => some ⟨r.chunks, some e⟩
  | _ => none

/-- The failures in what a caller gets that streams. -/
def Answer.failures (a : Answer) : List CompletionFailure := a.stream.filterMap Sum.getRight?

/-- What the callers of a provider's completions were answered. -/
def answered (relaying : List Relaying) (publicKey : String) : List Answer :=
  relaying.filterMap fun r => if r.relay.publicKey = publicKey then r.answer? else none

/-- How often they were told what; `none` where none was told anything. -/
def told (answers : List Answer) : Option LlmProviderQuality :=
  if answers.isEmpty then none
  else some
    { completions := answers.countP fun a => a.collapsed.toBool
      refused := answers.countP fun a => a.failures.any fun f => f.refused
      failed := answers.countP fun a => a.failures.any fun f => !f.refused }

/-! ## Counters and what they count -/

theorem get?_fromkeys (names : List String) (name : String) :
    (fromkeys names).get? name = if name ∈ names then some 0 else none := by
  have hfrom : ∀ d : Dict String Nat, (names.foldl (fun d name => d.set name 0) d).get? name =
      if name ∈ names then some 0 else d.get? name := by
    induction names with
    | nil => simp
    | cons x names ih =>
        intro d
        rw [List.foldl_cons, ih, Dict.get?_set]
        by_cases hx : x = name
        · simp [hx]
        · simp [hx, Ne.symm hx]
  exact hfrom []

/-- The counters are those of `tally`, with a bucket where anything was noted. -/
structure Tallied (names : List String) (counters : Counters) (tally : String → String → Nat) :
    Prop where
  keys : (counters.map Prod.fst).Nodup
  bucket : ∀ key b, Dict.get? counters key = some b →
    ∀ name, b.get? name = if name ∈ names then some (tally key name) else none
  seen : ∀ key, Dict.get? counters key = none ↔ ∀ name ∈ names, tally key name = 0

namespace Tallied

variable {names : List String} {counters : Counters} {tally : String → String → Nat}

theorem nil : Tallied names [] fun _ _ => 0 where
  keys := List.nodup_nil
  bucket key b h := by cases h
  seen key := by simp

/-- Noting a name adds one to it. -/
theorem note (h : Tallied names counters tally) (publicKey counter : String)
    (hmem : counter ∈ names) :
    ∃ counters', counters.note names publicKey counter = .ok counters' ∧
      Tallied names counters' fun key name =>
        tally key name + if key = publicKey ∧ counter = name then 1 else 0 := by
  have hbucket : ∀ name, ((Dict.get? counters publicKey).getD (fromkeys names)).get? name =
      if name ∈ names then some (tally publicKey name) else none := by
    intro name
    cases hget : Dict.get? counters publicKey with
    | none =>
        rw [Option.getD_none, get?_fromkeys]
        by_cases hname : name ∈ names
        · rw [if_pos hname, if_pos hname, (h.seen publicKey).1 hget name hname]
        · rw [if_neg hname, if_neg hname]
    | some b => exact h.bucket publicKey b hget name
  generalize hb : (Dict.get? counters publicKey).getD (fromkeys names) = bucket at hbucket
  have hcounter : bucket.get? counter = some (tally publicKey counter) := by
    rw [hbucket, if_pos hmem]
  refine ⟨Dict.set counters publicKey (bucket.set counter (tally publicKey counter + 1)), ?_,
    ?_, ?_, ?_⟩
  · unfold Counters.note
    rw [if_pos hmem]
    dsimp only
    rw [hb, hcounter]
  · exact Dict.nodup_set h.keys _ _
  · intro key b hget name
    rw [Dict.get?_set] at hget
    by_cases hkey : publicKey = key
    · subst hkey
      rw [if_pos rfl] at hget
      cases hget
      rw [Dict.get?_set, hbucket]
      by_cases hname : counter = name
      · simp [← hname, hmem]
      · simp [hname]
    · rw [if_neg hkey] at hget
      rw [h.bucket key b hget name]
      simp [Ne.symm hkey]
  · intro key
    rw [Dict.get?_set]
    by_cases hkey : publicKey = key
    · subst hkey
      rw [if_pos rfl]
      refine iff_of_false (by simp) fun hzero => ?_
      have hone := hzero counter hmem
      simp at hone
    · rw [if_neg hkey, h.seen key]
      simp [Ne.symm hkey]

/-- The three counts of a bucket. -/
def shown (b : Dict String Nat) : LlmProviderQuality where
  completions := (b.get? "completions").getD 0
  refused := (b.get? "refused").getD 0
  failed := (b.get? "failed").getD 0

theorem ofCounters_eq_ok {b : Dict String Nat} {q : LlmProviderQuality}
    (h : LlmProviderQuality.ofCounters b = .ok q) : q = shown b := by
  unfold LlmProviderQuality.ofCounters at h
  split at h
  · cases h
  · exact (Except.ok.inj h).symm

theorem get?_map {ν ν' : Type} (d : Dict String ν) (f : String × ν → ν') (key : String) :
    Dict.get? (d.map fun e => (e.1, f e)) key = (d.get? key).map fun v => f (key, v) := by
  induction d with
  | nil => rfl
  | cons e d ih =>
      by_cases hkey : e.1 = key
      · subst hkey
        simp [Dict.get?]
      · simp [Dict.get?, hkey, ih]

/-- What `quality` shows. -/
theorem quality (h : Tallied outcomes counters tally) :
    ∃ q, Kyok.quality counters = .ok q ∧ ∀ key, Dict.get? q key =
      if ∀ name ∈ outcomes, tally key name = 0 then none
      else some
        { completions := tally key "completions"
          refused := tally key "refused"
          failed := tally key "failed" } := by
  have hok : ∃ q, Kyok.quality counters = .ok q := by
    refine mapM_isOk.2 fun e he => ?_
    have hbucket := h.bucket e.1 e.2 (Dict.get?_of_mem h.keys he)
    have hfind : e.2.find? (fun p => p.1 ∉ outcomes) = none := by
      rw [List.find?_eq_none]
      intro p hp hnot
      have hsome : (Dict.get? e.2 p.1).isSome = true := Dict.get?_isSome_of_mem hp
      rw [hbucket, if_neg (of_decide_eq_true hnot)] at hsome
      cases hsome
    unfold LlmProviderQuality.ofCounters
    rw [hfind]
    exact ⟨_, rfl⟩
  obtain ⟨q, hq⟩ := hok
  have hshown : q = counters.map fun e => (e.1, shown e.2) := by
    refine mapM_eq_ok (fun e y he => ?_) hq
    obtain ⟨v, hv, rfl⟩ := map_eq_ok.1 he
    rw [ofCounters_eq_ok hv]
  refine ⟨q, hq, fun key => ?_⟩
  rw [hshown, get?_map counters (fun e => shown e.2) key]
  cases hget : Dict.get? counters key with
  | none => rw [if_pos ((h.seen key).1 hget), Option.map_none]
  | some b =>
      have hsome : ¬ ∀ name ∈ outcomes, tally key name = 0 := by
        rw [← h.seen key, hget]
        simp
      rw [if_neg hsome, Option.map_some]
      simp [shown, h.bucket key b hget, outcomes]

end Tallied

/-! ## Counting answers -/

/-- What an answer is counted as. -/
def Answer.outcome (a : Answer) : String :=
  match a.raised with
  | none => "completions"
  | some e => if e.refusal.isSome then "refused" else "failed"

theorem Answer.outcome_mem (a : Answer) : a.outcome ∈ outcomes := by
  unfold Answer.outcome outcomes
  split
  · decide
  · split <;> decide

/-- One completion or one failure, and the failure says whether it is a refusal. -/
theorem Answer.told_as (a : Answer) :
    a.collapsed.toBool = decide (a.outcome = "completions") ∧
      (a.failures.any fun f => f.refused) = decide (a.outcome = "refused") ∧
      (a.failures.any fun f => !f.refused) = decide (a.outcome = "failed") := by
  obtain ⟨chunks, raised⟩ := a
  have hchunks : (chunks.map (Sum.inl (β := CompletionFailure))).filterMap Sum.getRight? = [] := by
    simp
  cases raised with
  | none => simp [Answer.failures, Answer.stream, Answer.collapsed, Answer.outcome, hchunks,
      Except.toBool]
  | some e =>
      cases hrefusal : e.refusal <;>
        simp [Answer.failures, Answer.stream, Answer.collapsed, Answer.outcome, hchunks, hrefusal,
          Except.toBool]

/-- How often the answers of a key came out so. -/
def tally (relaying : List Relaying) (key name : String) : Nat :=
  (answered relaying key).countP fun a => a.outcome = name

theorem told_answered (relaying : List Relaying) (key : String) :
    told (answered relaying key) =
      if ∀ name ∈ outcomes, tally relaying key name = 0 then none
      else some
        { completions := tally relaying key "completions"
          refused := tally relaying key "refused"
          failed := tally relaying key "failed" } := by
  have hempty : (∀ name ∈ outcomes, tally relaying key name = 0) ↔
      answered relaying key = [] := by
    constructor
    · intro hzero
      by_contra hne
      obtain ⟨a, ha⟩ := List.exists_mem_of_ne_nil _ hne
      have hnone := List.countP_eq_zero.1 (hzero a.outcome a.outcome_mem) a ha
      exact hnone (decide_eq_true rfl)
    · intro hnil name _
      rw [tally, hnil]
      rfl
  unfold told
  simp only [List.isEmpty_iff]
  by_cases hnil : answered relaying key = []
  · rw [if_pos hnil, if_pos (hempty.2 hnil)]
  · rw [if_neg hnil, if_neg fun hzero => hnil (hempty.1 hzero)]
    simp only [fun a => (Answer.told_as a).1, fun a => (Answer.told_as a).2.1,
      fun a => (Answer.told_as a).2.2, tally]

/-- An answer that was not there before is one more. -/
theorem tally_set {relaying : List Relaying} {i : Nat} {r r' : Relaying} (key name : String)
    (hr : relaying[i]? = some r) (hopen : r.ending = none) (hrelay : r'.relay = r.relay) :
    tally (relaying.set i r') key name = tally relaying key name +
      if key = r.relay.publicKey ∧ r'.answer?.map Answer.outcome = some name then 1 else 0 := by
  obtain ⟨hlt, hget⟩ := List.getElem?_eq_some_iff.1 hr
  have hnone : r.answer? = none := by rw [Relaying.answer?, hopen]
  unfold tally answered
  rw [List.countP_filterMap, List.countP_filterMap, List.countP_set hlt, hget, hrelay, hnone]
  by_cases hkey : r.relay.publicKey = key
  · cases hanswer : r'.answer? with
    | none => simp
    | some a => simp [hkey]
  · simp [hkey, Ne.symm hkey]

theorem tally_concat (relaying : List Relaying) {r : Relaying} (hopen : r.ending = none)
    (key name : String) : tally (relaying ++ [r]) key name = tally relaying key name := by
  have hnone : r.answer? = none := by rw [Relaying.answer?, hopen]
  unfold tally answered
  rw [List.filterMap_append, List.countP_append]
  simp [hnone]

/-! ## One turn -/

section Turns

variable {cfg : Broker.Config} {db : RunId → Option Broker.Row} {K : Checks} {s s' : Relays}

/-- What a turn does: the exchange goes on, a completion that was handed over is asked for,
or one that is being relayed goes on or ends. -/
theorem Relays.step_cases {turn : RelayTurn} (h : s.step cfg K turn = some s') :
    (∃ t x, s.exchange.step cfg K t = some x ∧ s' = { s with exchange := x }) ∨
    (∃ call c relay, s.exchange.calls[call]? = some c ∧ c.progress = .relayed relay ∧
      call ∉ s.relaying.map Relaying.call ∧
      s' = { s with relaying := s.relaying ++ [Relaying.start call relay] }) ∨
    ∃ i r r' counters, s.relaying[i]? = some r ∧ r.ending = none ∧ r'.call = r.call ∧
      r'.relay = r.relay ∧
      s' = { s with
        relaying := s.relaying.set i r'
        counters := counters } ∧
      (r'.ending = none ∧ counters = s.counters ∨
        ∃ ending, r'.ending = some ending ∧
          counted s.counters r.relay.publicKey ending = .ok counters) := by
  cases turn with
  | exchange turn =>
      obtain ⟨x, hx, rfl⟩ := Option.map_eq_some_iff.1 h
      exact .inl ⟨turn, x, hx, rfl⟩
  | takes call =>
      obtain ⟨c, hc, h⟩ := Option.bind_eq_some_iff.1 h
      split at h
      · rename_i relay hrelay
        split at h
        · cases h
        · rename_i hnew
          cases h
          exact .inr (.inl ⟨call, c, relay, hc, hrelay, hnew, rfl⟩)
      · cases h
  | yields i chunk =>
      obtain ⟨r, hr, h⟩ := Option.bind_eq_some_iff.1 h
      split at h
      · rename_i hopen
        cases h
        have hopen' := Option.isNone_iff_eq_none.1 hopen
        exact .inr (.inr ⟨i, r, { r with chunks := r.chunks ++ [chunk] }, s.counters, hr,
          hopen', rfl, rfl, rfl, .inl ⟨hopen', rfl⟩⟩)
      · cases h
  | ends i ending =>
      obtain ⟨r, hr, h⟩ := Option.bind_eq_some_iff.1 h
      split at h
      · rename_i hopen
        split at h
        · rename_i counters hcounted
          cases h
          exact .inr (.inr ⟨i, r, { r with ending := some ending }, counters, hr,
            Option.isNone_iff_eq_none.1 hopen, rfl, rfl, rfl, .inr ⟨ending, rfl, hcounted⟩⟩)
        · cases h
      · cases h

/-- A call whose completion was handed over stays as it is. -/
theorem relayed_step {x x' : Exchange} {turn : Turn} {i : Nat} {c : Completing}
    {relay : CompletionRelay} (hc : x.calls[i]? = some c) (hp : c.progress = .relayed relay)
    (h : x.step cfg K turn = some x') : x'.calls[i]? = some c := by
  cases turn with
  | call request now =>
      cases h
      rw [List.getElem?_append_left (List.getElem?_eq_some_iff.1 hc).1]
      exact hc
  | looksUp j | fails j | goesOn j =>
      obtain ⟨d, hd, h⟩ := Option.bind_eq_some_iff.1 h
      have hne : j ≠ i := by
        rintro rfl
        cases hc.symm.trans hd
        simp [hp] at h
      split at h <;> cases h
      show (x.calls.set j _)[i]? = some c
      rw [List.getElem?_set_ne hne]
      exact hc
  | broker a =>
      obtain ⟨t, -, rfl⟩ := Option.map_eq_some_iff.1 h
      exact hc
  | _ =>
      cases h
      exact hc

/-- The books are right. -/
structure Booked (s : Relays) : Prop where
  tallied : Tallied outcomes s.counters (tally s.relaying)
  once : (s.relaying.map Relaying.call).Nodup
  handed : ∀ r ∈ s.relaying, ∃ c, s.exchange.calls[r.call]? = some c ∧
    c.progress = .relayed r.relay

/-- An end is noted, as what the caller is answered. -/
theorem Booked.counted {i : Nat} {r r' : Relaying} {ending : Ending} (h : Booked s)
    (hr : s.relaying[i]? = some r) (hopen : r.ending = none) (hrelay : r'.relay = r.relay)
    (hending : r'.ending = some ending) :
    ∃ counters, counted s.counters r.relay.publicKey ending = .ok counters ∧
      Tallied outcomes counters (tally (s.relaying.set i r')) := by
  have hset : tally (s.relaying.set i r') = fun key name => tally s.relaying key name +
      if key = r.relay.publicKey ∧ r'.answer?.map Answer.outcome = some name then 1 else 0 := by
    funext key name
    exact tally_set key name hr hopen hrelay
  rw [hset]
  cases ending with
  | abandoned =>
      refine ⟨s.counters, rfl, ?_⟩
      have hnone : r'.answer? = none := by rw [Relaying.answer?, hending]
      simpa [hnone] using h.tallied
  | ended =>
      have hanswer : r'.answer? = some ⟨r'.chunks, none⟩ := by rw [Relaying.answer?, hending]
      obtain ⟨counters, hnote, htallied⟩ := h.tallied.note r.relay.publicKey
        "completions" (by decide)
      refine ⟨counters, hnote, ?_⟩
      simpa [hanswer, Answer.outcome] using htallied
  | raised e =>
      have hanswer : r'.answer? = some ⟨r'.chunks, some e⟩ := by
        rw [Relaying.answer?, hending]
      obtain ⟨counters, hnote, htallied⟩ := h.tallied.note r.relay.publicKey
        (if e.refusal.isSome then "refused" else "failed") (by split <;> decide)
      refine ⟨counters, hnote, ?_⟩
      simpa [hanswer, Answer.outcome] using htallied

/-- **Step lemma.** -/
theorem Booked.step {turn : RelayTurn} (h : Booked s) (hstep : s.step cfg K turn = some s') :
    Booked s' := by
  rcases Relays.step_cases hstep with ⟨t, x, hx, rfl⟩ | ⟨call, c, relay, hc, hp, hnew, rfl⟩ |
    ⟨i, r, r', counters, hr, hopen, hcall, hrelay, rfl, hend⟩
  · refine ⟨h.tallied, h.once, fun r hr => ?_⟩
    obtain ⟨c, hc, hp⟩ := h.handed r hr
    exact ⟨c, relayed_step hc hp hx, hp⟩
  · refine ⟨?_, ?_, ?_⟩
    · have hsame : tally (s.relaying ++ [Relaying.start call relay]) = tally s.relaying := by
        funext key name
        exact tally_concat s.relaying rfl key name
      show Tallied outcomes s.counters (tally (s.relaying ++ [Relaying.start call relay]))
      rw [hsame]
      exact h.tallied
    · show ((s.relaying ++ [Relaying.start call relay]).map Relaying.call).Nodup
      rw [List.map_append, List.map_singleton, List.nodup_append']
      exact ⟨h.once, List.nodup_singleton _, by simpa [Relaying.start] using hnew⟩
    · intro r hr
      rcases List.mem_append.1 hr with hr | hr
      · exact h.handed r hr
      · cases List.mem_singleton.1 hr
        exact ⟨c, hc, hp⟩
  · have hmem := List.mem_of_getElem? hr
    obtain ⟨hlt, hget⟩ := List.getElem?_eq_some_iff.1 hr
    refine ⟨?_, ?_, ?_⟩
    · rcases hend with ⟨hopen', rfl⟩ | ⟨ending, hending, hcounted⟩
      · have hsame : tally (s.relaying.set i r') = tally s.relaying := by
          funext key name
          have hnone : r'.answer? = none := by rw [Relaying.answer?, hopen']
          rw [tally_set key name hr hopen hrelay, hnone]
          simp
        show Tallied outcomes s.counters (tally (s.relaying.set i r'))
        rw [hsame]
        exact h.tallied
      · obtain ⟨counters', hcounted', htallied⟩ := h.counted hr hopen hrelay hending
        cases hcounted.symm.trans hcounted'
        exact htallied
    · have hcalls : (s.relaying.set i r').map Relaying.call = s.relaying.map Relaying.call := by
        rw [List.map_set, hcall, ← hget, ← List.getElem_map Relaying.call, List.set_getElem_self]
        simpa using hlt
      show ((s.relaying.set i r').map Relaying.call).Nodup
      rw [hcalls]
      exact h.once
    · intro r₀ hr₀
      rcases List.mem_or_eq_of_mem_set hr₀ with hr₀ | rfl
      · exact h.handed r₀ hr₀
      · rw [hcall, hrelay]
        exact h.handed r hmem

theorem Booked.of_reachable (hs : (relays cfg db K).Reachable s) : Booked s := by
  refine hs.invariant ?_ fun s turn s' _ h hstep => h.step hstep
  intro s hinit
  obtain ⟨x, -, rfl⟩ := hinit
  exact ⟨.nil, List.nodup_nil, fun r hr => by cases hr⟩

/-- What `quality` shows is what the callers were told. -/
structure Accounted (s : Relays) : Prop where
  /-- Of every provider: how many completions, refusals and failures its callers got. -/
  shown : ∃ q, quality s.counters = .ok q ∧
    ∀ key, Dict.get? q key = told (answered s.relaying key)
  /-- Noting an end never stands in the way of it. -/
  noted : ∀ r ∈ s.relaying, r.ending = none → ∀ ending, ∃ counters,
    counted s.counters r.relay.publicKey ending = .ok counters
  /-- A completion that was handed over is relayed once. -/
  once : (s.relaying.map Relaying.call).Nodup
  handed : ∀ r ∈ s.relaying, ∃ c, s.exchange.calls[r.call]? = some c ∧
    c.progress = .relayed r.relay

/-- **Main result.**  Over every run of the exchange, the providers' streams and the
callers, what `quality` shows is what the callers were told. -/
theorem quality_shows_what_was_told (hs : (relays cfg db K).Reachable s) : Accounted s := by
  have hbooked := Booked.of_reachable hs
  refine ⟨?_, ?_, hbooked.once, hbooked.handed⟩
  · obtain ⟨q, hq, hget⟩ := hbooked.tallied.quality
    refine ⟨q, hq, fun key => ?_⟩
    rw [hget, told_answered]
  · intro r hr hopen ending
    obtain ⟨i, hi⟩ := List.mem_iff_getElem?.1 hr
    have hrelay : ({ r with ending := some ending } : Relaying).relay = r.relay := rfl
    obtain ⟨counters, hcounted, -⟩ := hbooked.counted hi hopen hrelay rfl
    exact ⟨counters, hcounted⟩

end Turns

namespace Demo

open Broker.Demo (config agent)

def relaysAfter (turns : List RelayTurn) : Relays :=
  (relays config (fun _ => none) checks).runFrom
    { exchange := { broker := Broker.State.init fun _ => none, agents := [agent] } } turns

theorem relaysAfter_reachable (turns : List RelayTurn) :
    (relays config (fun _ => none) checks).Reachable (relaysAfter turns) := by
  have hstart : (relays config (fun _ => none) checks).init
      { exchange := { broker := Broker.State.init fun _ => none, agents := [agent] } } :=
    ⟨_, ⟨[agent], rfl⟩, rfl⟩
  exact System.Reachable.runFrom (.init hstart) turns

/-- Three completions are relayed side by side: one ends, one is refused, and of one the
caller goes away. -/
def sideBySide : List RelayTurn :=
  (bound ++ [0, 1, 2].flatMap fun i =>
    [Turn.call request 0, .looksUp i, .goesOn i]).map .exchange ++
  [.takes 0, .takes 1, .takes 2, .yields 0 ⟨"c", 0, "model", []⟩,
    .ends 1 (.raised ⟨"no", some []⟩), .ends 2 .abandoned, .ends 0 .ended]

end Demo

theorem quality_shows_what_was_told_sideBySide :
    (relays Broker.Demo.config (fun _ => none) Demo.checks).Reachable
        (Demo.relaysAfter Demo.sideBySide) ∧
      (quality (Demo.relaysAfter Demo.sideBySide).counters).toOption = some [("llm", ⟨1, 1, 0⟩)] ∧
      Accounted (Demo.relaysAfter Demo.sideBySide) := by
  have hreach := Demo.relaysAfter_reachable Demo.sideBySide
  exact ⟨hreach, by decide +kernel, quality_shows_what_was_told hreach⟩

end Funduq.Kyok
