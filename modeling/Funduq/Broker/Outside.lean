import Mathlib.Tactic.Set
import Funduq.Broker.Step

/-!
# What is outside the handlers' desks

Much of the broker only passes things on: a door posts a message, a withdrawal
posts a failure to every run it leaves behind, a counter goes up, a place is
given back.  None of it touches a run, a queue or a task.  This file separates
those fields (`Outside`) from the rest of the state and shows of every such
function that it changes nothing else, and that it adds to an inbox only at the
end and only messages that are news (`News`): never a `_Queued`, never a pushed
command other than `Fail`, and never about a run of another handler.
-/

namespace Funduq.Broker

open Funduq.Lib

/-- The fields no handler's desk depends on, the inboxes apart. -/
structure Outside where
  serving : Dict AgentRef Key
  providers : Key → Option ProviderHandler
  unservedSince : AgentRef → Option Time
  workToDo : Bool
  inbox : HandlerId → List Message
  clocks : List OfferClock
  handovers : List Handover
  posted : HandlerId → List Message
  lowered : Key → Bool

/-- The place a run takes up with provider key `k`. -/
def Run.place (run : Run) (k : Key) : Nat := if run.offeredTo = some k then 1 else 0

namespace State

/-- The state with its outside replaced. -/
@[simps -fullyApplied]
def withOutside (s : State) (o : Outside) : State :=
  { s with
    serving := o.serving
    providers := o.providers
    unservedSince := o.unservedSince
    workToDo := o.workToDo
    inbox := o.inbox
    clocks := o.clocks
    handovers := o.handovers
    posted := o.posted
    lowered := o.lowered }

def outside (s : State) : Outside :=
  ⟨s.serving, s.providers, s.unservedSince, s.workToDo, s.inbox, s.clocks,
    s.handovers, s.posted, s.lowered⟩

@[simp] theorem withOutside_outside (s : State) : s.withOutside s.outside = s := rfl

@[simp] theorem withOutside_withOutside (s : State) (o o' : Outside) :
    (s.withOutside o).withOutside o' = s.withOutside o' := rfl

/-- A message that may turn up on `h`'s inbox at any time. -/
structure News (s : State) (h : HandlerId) (m : Message) : Prop where
  no_arrival : m.arrival? = none
  only_fail : ∀ r c, m = .trusted r c → ∃ code message, c = .fail code message
  at_home : ∀ r, m.runId? = some r → s.home r = some h
  asked : ∀ r, m = .cancelAsked r → s.cancelCalled r = true

theorem news_poke (s : State) (h : HandlerId) : s.News h .poke :=
  ⟨rfl, nofun, nofun, nofun⟩

theorem news_fail {s : State} {h : HandlerId} {r : RunId} (hr : s.home r = some h)
    (code : String) (message : Option String) :
    s.News h (.trusted r (.fail code message)) :=
  ⟨rfl, by rintro _ _ ⟨⟩; exact ⟨code, message, rfl⟩, by rintro _ ⟨⟩; exact hr,
    nofun⟩

/-- The outside `o` is `s`'s with news added. -/
structure Grows (s : State) (o : Outside) : Prop where
  inbox : ∀ h, ∃ l, o.inbox h = s.inbox h ++ l ∧ o.posted h = s.posted h ++ l ∧
    ∀ m ∈ l, s.News h m
  clocks : ∀ c ∈ o.clocks, c ∈ s.clocks ∨ s.home c.runId = some c.handler
  handovers : ∀ t ∈ o.handovers,
    (∃ u ∈ s.handovers, u.clock = t.clock) ∨ s.home t.clock.runId = some t.clock.handler

theorem News.congr {s s' : State} {h : HandlerId} {m : Message} (hn : s.News h m)
    (hh : s'.home = s.home) (hc : s'.cancelCalled = s.cancelCalled) :
    s'.News h m :=
  ⟨hn.no_arrival, hn.only_fail, fun r hr => hh ▸ hn.at_home r hr,
    fun r hr => hc ▸ hn.asked r hr⟩

/-- Growing is about the inboxes, the tasks spawned for offers, the homes
of runs and the cancellations asked for. -/
theorem Grows.congr {s s' : State} {o : Outside} (hg : s.Grows o)
    (hh : s'.home = s.home) (hi : s'.inbox = s.inbox)
    (hp : s'.posted = s.posted) (hc : s'.clocks = s.clocks)
    (ht : s'.handovers = s.handovers) (ha : s'.cancelCalled = s.cancelCalled) :
    s'.Grows o := by
  refine ⟨fun h => ?_, fun c hm => ?_, fun t hm => ?_⟩
  · obtain ⟨l, h1, h2, h3⟩ := hg.inbox h
    exact ⟨l, hi ▸ h1, hp ▸ h2, fun m hm => (h3 m hm).congr hh ha⟩
  · rw [hc, hh]
    exact hg.clocks c hm
  · rw [ht, hh]
    exact hg.handovers t hm

/-- `s'` differs from `s` outside only, where it has grown, with as many places
taken. -/
def Quiet (s s' : State) : Prop :=
  ∃ o, s' = s.withOutside o ∧ s.Grows o ∧
    ∀ k, ((o.providers k).getD {}).inFlight = (s.provider k).inFlight

/-- The outside `o` serves nobody that `s` does not, and knows of every provider
key what `s` knows but its counters and its places: those change as they must
when the run `x` becomes the run `y`. -/
structure Shifts (s : State) (x y : Run) (o : Outside) : Prop where
  serving : ∀ a k, o.serving.get? a = some k → s.serving.get? a = some k
  inFlight : ∀ k, ((o.providers k).getD {}).inFlight + x.place k =
    (s.provider k).inFlight + y.place k
  declared : ∀ k, ((o.providers k).getD {}).declared = (s.provider k).declared
  connection : ∀ k, ((o.providers k).getD {}).connection = (s.provider k).connection
  workToDo : o.workToDo = s.workToDo
  lowered : o.lowered = s.lowered

/-- Shifting is about the roster and whether there is work. -/
theorem Shifts.congr {s s' : State} {x y : Run} {o : Outside} (hk : s.Shifts x y o)
    (hs : s'.serving = s.serving) (hp : s'.providers = s.providers)
    (hw : s'.workToDo = s.workToDo) (hl : s'.lowered = s.lowered) :
    s'.Shifts x y o := by
  have hprov : s'.provider = s.provider := by
    funext k
    rw [provider, hp, provider]
  exact ⟨hs ▸ hk.serving, hprov ▸ hk.inFlight, hprov ▸ hk.declared, hprov ▸ hk.connection,
    hw ▸ hk.workToDo, hl ▸ hk.lowered⟩

/-- `Quiet`, with the roster no larger and every place where it was. -/
def Still (s s' : State) : Prop :=
  ∃ o, s' = s.withOutside o ∧ s.Grows o ∧ ∀ x, s.Shifts x x o

theorem Still.quiet {s s' : State} (h : s.Still s') : s.Quiet s' := by
  obtain ⟨o, ho, hg, hk⟩ := h
  exact ⟨o, ho, hg, fun k => Nat.add_right_cancel ((hk Run.blank).inFlight k)⟩

theorem shifts_of_same {s : State} {o : Outside} (hs : o.serving = s.serving)
    (hp : o.providers = s.providers) (hw : o.workToDo = s.workToDo)
    (hl : o.lowered = s.lowered) {x y : Run} (ho : y.offeredTo = x.offeredTo) :
    s.Shifts x y o :=
  ⟨fun _ _ h => hs ▸ h, fun _ => by rw [hp, Run.place, Run.place, ho]; rfl,
    fun _ => by rw [hp]; rfl, fun _ => by rw [hp]; rfl, hw, hl⟩

theorem grows_of_inbox {s : State} {o : Outside}
    (hi : ∀ h, ∃ l, o.inbox h = s.inbox h ++ l ∧ o.posted h = s.posted h ++ l ∧
      ∀ m ∈ l, s.News h m)
    (hc : o.clocks = s.clocks) (ht : o.handovers = s.handovers) : s.Grows o :=
  ⟨hi, fun _ h => .inl (hc ▸ h), fun t h => .inl ⟨t, ht ▸ h, rfl⟩⟩

theorem grows_of_same {s : State} {o : Outside} (hi : o.inbox = s.inbox)
    (hp : o.posted = s.posted) (hc : o.clocks = s.clocks)
    (ht : o.handovers = s.handovers) : s.Grows o :=
  grows_of_inbox (fun h => ⟨[], by simp [hi], by simp [hp], by simp⟩) hc ht

theorem grows_outside (s : State) : s.Grows s.outside := grows_of_same rfl rfl rfl rfl

theorem shifts_outside (s : State) (x : Run) : s.Shifts x x s.outside :=
  shifts_of_same rfl rfl rfl rfl rfl

theorem Quiet.refl (s : State) : s.Quiet s :=
  ⟨s.outside, rfl, s.grows_outside, fun _ => rfl⟩

theorem Still.refl (s : State) : s.Still s :=
  ⟨s.outside, rfl, s.grows_outside, s.shifts_outside⟩

theorem Grows.trans {s : State} {o o' : Outside} (hg : s.Grows o)
    (hg' : (s.withOutside o).Grows o') : s.Grows o' := by
  refine ⟨?_, ?_, ?_⟩
  · intro h
    obtain ⟨l, hi, hp, hn⟩ := hg.inbox h
    obtain ⟨l', hi', hp', hn'⟩ := hg'.inbox h
    refine ⟨l ++ l', ?_, ?_, ?_⟩
    · rw [hi', withOutside_inbox, hi, List.append_assoc]
    · rw [hp', withOutside_posted, hp, List.append_assoc]
    · intro m hm
      rcases List.mem_append.1 hm with hm | hm
      · exact hn m hm
      · exact (hn' m hm).congr rfl rfl
  · intro c hc
    rcases hg'.clocks c hc with h | h
    · exact hg.clocks c h
    · exact .inr h
  · intro t ht
    rcases hg'.handovers t ht with ⟨u, hu, he⟩ | h
    · rcases hg.handovers u hu with ⟨v, hv, he'⟩ | h
      · exact .inl ⟨v, hv, he'.trans he⟩
      · exact .inr (he ▸ h)
    · exact .inr h

theorem Shifts.trans {s : State} {x y z : Run} {o o' : Outside} (hk : s.Shifts x y o)
    (hk' : (s.withOutside o).Shifts y z o') : s.Shifts x z o' where
  serving a k h := hk.serving a k (hk'.serving a k h)
  inFlight k := by
    have h1 := hk.inFlight k
    have h2 := hk'.inFlight k
    change _ = ((o.providers k).getD {}).inFlight + z.place k at h2
    omega
  declared k := (hk'.declared k).trans (hk.declared k)
  connection k := (hk'.connection k).trans (hk.connection k)
  workToDo := hk'.workToDo.trans hk.workToDo
  lowered := hk'.lowered.trans hk.lowered

theorem Quiet.trans {s s' s'' : State} (h : s.Quiet s') (h' : s'.Quiet s'') :
    s.Quiet s'' := by
  obtain ⟨o, rfl, hg, hp⟩ := h
  obtain ⟨o', rfl, hg', hp'⟩ := h'
  exact ⟨o', rfl, hg.trans hg', fun k => (hp' k).trans (hp k)⟩

theorem Still.trans {s s' s'' : State} (h : s.Still s') (h' : s'.Still s'') :
    s.Still s'' := by
  obtain ⟨o, rfl, hg, hk⟩ := h
  obtain ⟨o', rfl, hg', hk'⟩ := h'
  exact ⟨o', rfl, hg.trans hg', fun x => (hk x).trans (hk' x)⟩

/-- Every run a handler is named for was enqueued on it. -/
def AtHome (s : State) : Prop := ∀ r h, s.runThreads r = some h → s.home r = some h

theorem Still.atHome {s s' : State} (h : s.Still s') (hs : s.AtHome) : s'.AtHome := by
  obtain ⟨o, rfl, -⟩ := h
  exact hs

/-! ## Posting -/

theorem still_post {s : State} {h : HandlerId} {m : Message} (hn : s.News h m) :
    s.Still (s.post h m) := by
  refine ⟨(s.post h m).outside, rfl, grows_of_inbox ?_ rfl rfl, fun _ => shifts_of_same rfl rfl rfl rfl rfl⟩
  intro h'
  by_cases hh : h' = h
  · subst hh
    exact ⟨[m], by simp [outside], by simp [outside], by simpa using hn⟩
  · exact ⟨[], by simp [outside, hh], by simp [outside, hh], by simp⟩

theorem still_pokeAll (s : State) (hs : List HandlerId) : s.Still (s.pokeAll hs) := by
  refine ⟨(s.pokeAll hs).outside, rfl, grows_of_inbox ?_ rfl rfl,
    fun _ => shifts_of_same rfl rfl rfl rfl rfl⟩
  intro h
  by_cases hh : h ∈ hs
  · exact ⟨[.poke], by simp [outside, hh], by simp [outside, hh],
      by simpa using news_poke s h⟩
  · exact ⟨[], by simp [outside, hh], by simp [outside, hh], by simp⟩

theorem still_postTo {s : State} (hs : s.AtHome) {r : RunId} {m : Message}
    (hn : ∀ h, s.home r = some h → s.News h m) : s.Still (s.postTo r m).1 := by
  unfold postTo
  split
  · exact .refl s
  · rename_i h hr
    exact still_post (hn h (hs r h hr))

theorem still_pushFail {s : State} (hs : s.AtHome) (r : RunId) (code : String)
    (message : Option String) : s.Still (s.push r (.fail code message)).1 :=
  still_postTo hs fun _ hr => news_fail hr code message

theorem still_pushFails {s : State} (hs : s.AtHome) (code : String) (rs : List RunId) :
    s.Still (rs.foldl (fun s r => (s.push r (.fail code none)).1) s) := by
  induction rs generalizing s with
  | nil => exact .refl s
  | cons r rs ih =>
      have h := still_pushFail hs r code none
      exact h.trans (ih (h.atHome hs))

/-! ## The roster -/

theorem still_unregisterOne {s : State} (hs : s.AtHome) (ref : AgentRef) :
    s.Still (s.unregisterOne ref) := by
  unfold unregisterOne
  split
  · exact .refl s
  · set t : State := { s with
      serving := s.serving.pop ref
      unservedSince := Function.update s.unservedSince ref (some s.now) } with ht
    have h1 : s.Still t := by
      refine ⟨t.outside, rfl, grows_of_same rfl rfl rfl rfl, fun x => ⟨?_, fun _ => rfl,
        fun _ => rfl, fun _ => rfl, rfl, rfl⟩⟩
      intro a k hk
      change (s.serving.pop ref).get? a = some k at hk
      rw [Dict.get?_pop] at hk
      split at hk
      · cases hk
      · exact hk
    have h2 := still_pushFails (s := t) hs "provider_left_holding_it"
      (t.runs.filter fun r => (t.run r).agent = ref ∧ (t.run r).claimedBy.isSome)
    exact (h1.trans h2).trans (still_pokeAll _ _)

theorem still_unregisterProvider {s : State} (hs : s.AtHome) (agents : List AgentRef) :
    s.Still (s.unregisterProvider agents) := by
  unfold unregisterProvider
  induction agents generalizing s with
  | nil => exact .refl s
  | cons ref agents ih =>
      have h := still_unregisterOne hs ref
      exact h.trans (ih (h.atHome hs))

/-- Counting against a key leaves its capacity as it is. -/
theorem still_setCounters (s : State) (k : Key) (counters : Counter → Nat) :
    s.Still (s.setProvider k { s.provider k with counters := counters }) := by
  set t := s.setProvider k { s.provider k with counters := counters } with ht
  have hp : ∀ k', (t.outside.providers k').getD {} =
      if k' = k then { s.provider k with counters := counters } else s.provider k' := by
    intro k'
    by_cases hk : k' = k
    · subst hk
      simp [ht, outside]
    · simp [ht, hk, provider, outside]
  refine ⟨t.outside, rfl, grows_of_same rfl rfl rfl rfl, fun x =>
    ⟨fun _ _ h => h, fun k' => ?_, fun k' => ?_, fun k' => ?_, rfl, rfl⟩⟩
  all_goals
    rw [hp k']
    split
    · subst_vars
      rfl
    · rfl

theorem still_noteAbnormal {s : State} (hs : s.AtHome) (cfg : Config) (k : Key)
    (event : Counter) : s.Still (s.noteAbnormal cfg k event) := by
  unfold noteAbnormal
  split
  · exact still_setCounters s k _
  · dsimp only
    split
    · exact still_setCounters s k _
    · have h := still_setCounters s k
        (Function.update (s.provider k).counters event ((s.provider k).counters event + 1))
      exact h.trans (still_unregisterProvider (h.atHome hs) _)

theorem still_noteMisdeclared {s : State} (hs : s.AtHome) (cfg : Config) (k : Key) :
    s.Still (s.noteMisdeclared cfg k) := by
  unfold noteMisdeclared
  split
  · exact still_noteAbnormal hs cfg k .misdeclared
  · exact .refl s

theorem still_noteUnanswered {s : State} (hs : s.AtHome) (cfg : Config) (r : RunId) :
    s.Still (s.noteUnanswered cfg r) := by
  unfold noteUnanswered
  split
  · exact .refl s
  · exact still_noteAbnormal hs cfg _ .unanswered

/-- A fold of quiet functions is quiet. -/
theorem Quiet.foldl {α : Type} {f : State → α → State}
    (hf : ∀ (s : State) (a : α), s.Quiet (f s a)) (as : List α) (s : State) :
    s.Quiet (as.foldl f s) := by
  induction as generalizing s with
  | nil => exact .refl s
  | cons a as ih => exact (hf s a).trans (ih (f s a))

theorem quiet_registerOne (s : State) (ref : AgentRef) (connection : Connection) :
    s.Quiet (s.registerOne ref connection) := by
  refine ⟨(s.registerOne ref connection).outside, rfl, grows_of_same rfl rfl rfl rfl, ?_⟩
  intro k
  by_cases hk : k = connection.publicKey
  · subst hk
    simp [registerOne, outside]
  · simp [registerOne, outside, provider, hk]

theorem quiet_registerProvider (s : State) (mapping : List (AgentRef × Connection)) :
    s.Quiet (s.registerProvider mapping) := by
  unfold registerProvider
  refine (Quiet.foldl (f := fun s e => s.registerOne e.1 e.2)
    (fun s e => quiet_registerOne s e.1 e.2) mapping s).trans ?_
  set t := mapping.foldl (fun s e => s.registerOne e.1 e.2) s
  have h : t.Quiet { t with workToDo := true } :=
    ⟨{ t.outside with workToDo := true }, rfl, grows_of_same rfl rfl rfl rfl, fun _ => rfl⟩
  exact h.trans (Quiet.foldl (f := fun s (e : AgentRef × Connection) => s.pokeAgent e.1)
    (fun s e => (still_pokeAll s _).quiet) mapping _)

/-- The sweep leaves everything as it is but the inboxes, and waits. -/
theorem still_sweep {s : State} (hs : s.AtHome) (cfg : Config) :
    { s with loopTask := some .waiting, workToDo := false }.Still (s.sweep cfg) := by
  obtain ⟨o, ho, hg, hk⟩ := still_pushFails hs "no_provider_took_it"
    (s.runs.filter fun r => s.expired cfg.unservedTimeout r)
  set t : State := { s with loopTask := some .waiting, workToDo := false } with ht
  have hg' : s.Grows { o with workToDo := false } := ⟨hg.inbox, hg.clocks, hg.handovers⟩
  have h1 : t.Still (t.withOutside { o with workToDo := false }) :=
    ⟨_, rfl, hg'.congr rfl rfl rfl rfl rfl rfl, fun x => { hk x with workToDo := rfl }⟩
  have he : s.sweep cfg =
      (t.withOutside { o with workToDo := false }).pokeAll s.threads.values := by
    unfold sweep expireQueued
    dsimp only
    rw [ho]
    rfl
  rw [he]
  exact h1.trans (still_pokeAll _ s.threads.values)

end State

end Funduq.Broker
