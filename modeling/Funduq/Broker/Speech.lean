import Mathlib.Data.List.TakeWhile
import Funduq.Broker.Offers

/-!
# Only the holder speaks

What a run's record relays is decided by the messages about it alone, in the
order they were posted: `afterVerdict` finds the verdict that let somebody
speak, `speech` what that key said from then until its speech ended.  A verdict
and the reports that follow it come by the same road, so no report is heard
before the verdict that lets it in (`Lane.Heeds`), and what any other key posts
about the run leaves it as it is.
-/

namespace Funduq.Broker

open Funduq.Lib

/-! ## Speech -/

/-- The event `k` reports with a message. -/
def Message.eventOf (k : Key) : Message → Option Reported
  | .said _ origin (.relayEvent event) => if origin = k then some event else none
  | _ => none

/-- The message ends what `k` has to say: its end of stream, an event of its that
AG-UI refuses, or a `Fail` for the run. -/
def Message.endsSpeech (cfg : Config) (k : Key) : Message → Bool
  | .said _ origin .finishStream => origin = k
  | .said _ origin (.relayEvent event) => origin = k && malformed cfg event
  | .trusted _ (.fail _ _) => true
  | _ => false

/-- The key whose accepting verdict was heard while the run's offer was open to
it. -/
def Heard.acceptedBy (e : Heard) : Option Key :=
  match e.message with
  | .answered _ key .accepted => if e.openTo = some key then some key else none
  | _ => none

/-- The first accepting verdict handled while the offer was open: its key, and
the messages handled after it. -/
def afterVerdict : List Heard → Option (Key × List Message)
  | [] => none
  | e :: rest =>
      match e.acceptedBy with
      | some k => some (k, rest.map Heard.message)
      | none => afterVerdict rest

/-- The events `k` reports, up to the message that ends its speech. -/
def wordsOf (cfg : Config) (k : Key) (ms : List Message) : List Reported :=
  (ms.takeWhile fun m => !m.endsSpeech cfg k).filterMap (Message.eventOf k)

/-- The event that ends `k`'s speech, where it is one. -/
def lastWordOf (cfg : Config) (k : Key) (ms : List Message) : Option Reported :=
  (ms.find? fun m => m.endsSpeech cfg k).bind (Message.eventOf k)

/-- The events of the key that took the run, from its verdict to the end of its
speech. -/
def speech (cfg : Config) (heard : List Heard) : List Reported :=
  (afterVerdict heard).elim [] fun v => wordsOf cfg v.1 v.2

/-- The malformed event that ended that speech, where one did. -/
def refusedWord (cfg : Config) (heard : List Heard) : Option Reported :=
  (afterVerdict heard).bind fun v => lastWordOf cfg v.1 v.2

/-- The events a record relays. -/
def relaysOf (recorded : List Command) : List Reported :=
  recorded.filterMap fun c =>
    match c with
    | .relayEvent event => some event
    | _ => none

theorem afterVerdict_append_singleton (heard : List Heard) (e : Heard) :
    afterVerdict (heard ++ [e]) = match afterVerdict heard with
      | some (k, ms) => some (k, ms ++ [e.message])
      | none => e.acceptedBy.map fun k => (k, []) := by
  induction heard with
  | nil =>
      simp only [List.nil_append, afterVerdict]
      cases e.acceptedBy <;> rfl
  | cons d rest ih =>
      simp only [List.cons_append, afterVerdict]
      cases d.acceptedBy with
      | none => exact ih
      | some k => simp

section Words

variable {cfg : Config} {k : Key} {ms : List Message} {m : Message}

theorem wordsOf_of_ended (h : ms.any (fun m => m.endsSpeech cfg k) = true) :
    wordsOf cfg k (ms ++ [m]) = wordsOf cfg k ms := by
  unfold wordsOf
  rw [List.takeWhile_append, if_neg]
  intro hlen
  obtain ⟨x, hx, hend⟩ := List.any_eq_true.1 h
  have hall := List.takeWhile_eq_self_iff.1
    ((List.takeWhile_prefix _).eq_of_length hlen) x hx
  rw [hend] at hall
  cases hall

theorem lastWordOf_of_ended (h : ms.any (fun m => m.endsSpeech cfg k) = true) :
    lastWordOf cfg k (ms ++ [m]) = lastWordOf cfg k ms := by
  unfold lastWordOf
  rw [List.find?_append]
  cases hf : ms.find? fun m => m.endsSpeech cfg k with
  | some x => rfl
  | none =>
      obtain ⟨x, hx, hend⟩ := List.any_eq_true.1 h
      exact absurd hend (List.find?_eq_none.1 hf x hx)

/-- A message more, while the speech goes on. -/
theorem wordsOf_of_open (h : ms.any (fun m => m.endsSpeech cfg k) = false) :
    wordsOf cfg k (ms ++ [m]) = wordsOf cfg k ms ++
      if m.endsSpeech cfg k then [] else (m.eventOf k).toList := by
  have hall : ∀ x ∈ ms, (!x.endsSpeech cfg k) = true := by
    intro x hx
    rw [List.any_eq_false.1 h x hx |> Bool.eq_false_iff.2]
    rfl
  unfold wordsOf
  rw [List.takeWhile_append_of_pos hall, List.takeWhile_eq_self_iff.2 hall,
    List.filterMap_append]
  congr 1
  cases hm : m.endsSpeech cfg k <;> cases he : m.eventOf k <;> simp [hm, he]

theorem lastWordOf_of_open (h : ms.any (fun m => m.endsSpeech cfg k) = false) :
    lastWordOf cfg k ms = none ∧ lastWordOf cfg k (ms ++ [m]) =
      if m.endsSpeech cfg k then m.eventOf k else none := by
  have hnone : (ms.find? fun m => m.endsSpeech cfg k) = none :=
    List.find?_eq_none.2 fun x hx => List.any_eq_false.1 h x hx
  unfold lastWordOf
  rw [List.find?_append, hnone]
  refine ⟨rfl, ?_⟩
  cases hm : m.endsSpeech cfg k <;> simp [hm]

theorem malformed_of_mem_wordsOf {event : Reported} (h : event ∈ wordsOf cfg k ms) :
    malformed cfg event = false := by
  obtain ⟨m, hm, he⟩ := List.mem_filterMap.1 h
  have hgo := List.mem_takeWhile_imp hm
  cases m with
  | said x origin report =>
      cases report with
      | finishStream => cases he
      | relayEvent e =>
          simp only [Message.eventOf] at he
          split at he
          · rename_i ho
            cases he
            simpa [Message.endsSpeech, ho] using hgo
          · cases he
  | _ => cases he

theorem malformed_of_lastWordOf {event : Reported} (h : lastWordOf cfg k ms = some event) :
    malformed cfg event = true := by
  obtain ⟨m, hm, he⟩ := Option.bind_eq_some_iff.1 h
  have hend := List.find?_some hm
  cases m with
  | said x origin report =>
      cases report with
      | finishStream => cases he
      | relayEvent e =>
          simp only [Message.eventOf] at he
          split at he
          · cases he
            simp only [Message.endsSpeech, Bool.and_eq_true] at hend
            exact hend.2
          · cases he
  | _ => cases he

end Words

/-- A speech is what is left of it and its last word when that is refused. -/
theorem filter_speech (cfg : Config) (heard : List Heard) :
    (speech cfg heard ++ (refusedWord cfg heard).toList).filter (fun e => !malformed cfg e) =
      speech cfg heard := by
  unfold speech refusedWord
  cases afterVerdict heard with
  | none => rfl
  | some v =>
      change (wordsOf cfg v.1 v.2 ++ (lastWordOf cfg v.1 v.2).toList).filter _ = _
      rw [List.filter_append, List.filter_eq_self.2, List.filter_eq_nil_iff.2,
        List.append_nil]
      · rfl
      · intro e he
        rw [malformed_of_lastWordOf (Option.mem_toList.1 he)]
        exact nofun
      · intro e he
        rw [malformed_of_mem_wordsOf he]
        rfl

theorem relaysOf_append_singleton (cs : List Command) (c : Command) :
    relaysOf (cs ++ [c]) = relaysOf cs ++ relaysOf [c] := by
  simp [relaysOf]

/-! ## Who is heeded -/

namespace Lane

variable {cfg : Config} {r : RunId} {a : Option Message} {l l' : Lane} {m : Message}

/-- Of all that is heard about a run, its record relays the speech of the key
whose verdict let it in, and the malformed event that ended it, if one did. -/
structure Heeds (cfg : Config) (l : Lane) : Prop where
  verdict : l.run.claimedBy = (afterVerdict l.trail.heard).map Prod.fst
  going_on : ∀ k ms, afterVerdict l.trail.heard = some (k, ms) →
    (ms.any (fun m => m.endsSpeech cfg k) = false ↔
      stageOf l.trail.recorded = some .held ∧ l.run.poison = none)
  relays : relaysOf l.trail.recorded =
    speech cfg l.trail.heard ++ (refusedWord cfg l.trail.heard).toList

/-- Nobody has taken the run, and nothing is relayed. -/
theorem heeds_of_unclaimed (hc : l.run.claimedBy = none)
    (hv : afterVerdict l.trail.heard = none) (hr : relaysOf l.trail.recorded = []) :
    l.Heeds cfg where
  verdict := by rw [hc, hv]; rfl
  going_on k ms h := absurd (h.symm.trans hv) nofun
  relays := by rw [speech, refusedWord, hv, hr]; rfl

theorem Heeds.unclaimed (hl : l.Heeds cfg) (hc : l.run.claimedBy = none) :
    afterVerdict l.trail.heard = none ∧ relaysOf l.trail.recorded = [] := by
  have hv : afterVerdict l.trail.heard = none := by
    have := hl.verdict
    rw [hc] at this
    exact Option.map_eq_none_iff.1 this.symm
  refine ⟨hv, ?_⟩
  rw [hl.relays, speech, refusedWord, hv]
  rfl

/-- Nothing is heard of a run as it goes on by itself. -/
private theorem Heeds.of_same (hl : l.Heeds cfg) (hheard : l'.trail.heard = l.trail.heard)
    (hc : l'.run.claimedBy = l.run.claimedBy) (hp : l'.run.poison = l.run.poison)
    (hrec : l'.trail.recorded = l.trail.recorded) : l'.Heeds cfg where
  verdict := by rw [hc, hheard]; exact hl.verdict
  going_on k ms h := by
    rw [hrec, hp]
    exact hl.going_on k ms (hheard ▸ h)
  relays := by rw [hrec, hheard]; exact hl.relays

private theorem claimedBy_none_of_unoffered (hu : l.run.unoffered = true) :
    l.run.claimedBy = none := by
  simp only [Run.unoffered, Bool.and_eq_true, Option.isNone_iff_eq_none] at hu
  exact hu.1.1

/-- A run nobody has taken goes on as nobody's. -/
private theorem Heeds.record_unclaimed {c : Command} {ret : Ret} {x : Run}
    (hl : l.Heeds cfg) (hc : l.run.claimedBy = none) (hx : x.claimedBy = none)
    (hr : relaysOf [c] = []) : ({ l with run := x }.record cfg c ret).Heeds cfg := by
  obtain ⟨hv, hrel⟩ := hl.unclaimed hc
  refine heeds_of_unclaimed ?_ hv ?_
  · exact (handle_claimedBy cfg c x).trans hx
  · change relaysOf (l.trail.recorded ++ [c]) = []
    rw [relaysOf_append_singleton, hrel, hr]
    rfl

theorem relaysOf_dropped (run : Run) (code : String) : relaysOf [run.dropped code] = [] := by
  unfold Run.dropped
  split <;> rfl

/-! ## Messages -/

/-- A message about a run nobody has taken. -/
private theorem Heeds.took_unclaimed (hs : l.Sound) (hl : l.Heeds cfg) (hh : l.hand = none)
    (hc : l.run.claimedBy = none) (ht : Takes cfg r m (l.hear m) l') : l'.Heeds cfg := by
  obtain ⟨hv, hrel⟩ := hl.unclaimed hc
  have hheard : afterVerdict (l.hear m).trail.heard =
      (Heard.acceptedBy ⟨m, l.openTo⟩).map fun k => (k, []) := by
    change afterVerdict (l.trail.heard ++ [⟨m, l.openTo⟩]) = _
    rw [afterVerdict_append_singleton, hv]
  -- Unless the message is the verdict that lets somebody in.
  have hplain : Heard.acceptedBy ⟨m, l.openTo⟩ = none → (l.hear m).Heeds cfg := by
    intro hn
    rw [hn] at hheard
    exact heeds_of_unclaimed hc hheard hrel
  cases ht with
  | ignored hi =>
      refine hplain ?_
      cases m with
      | answered x key answer =>
          cases answer with
          | accepted =>
              refine if_neg fun ho => hi ?_
              change (if l.live = true ∧ l.run.verdictOpen = true then l.run.offeredTo
                else none) = some key at ho
              split at ho
              · rename_i hopen
                exact ⟨hopen.1, hopen.2, ho⟩
              · cases ho
          | _ => rfl
      | _ => rfl
  | arrived _ _ => exact (hplain rfl).of_same rfl rfl rfl rfl
  | @accepted _ key hlive ho hk =>
      have hopen : l.openTo = some key := (if_pos ⟨hlive, ho⟩).trans hk
      obtain ⟨hst, -, -, -, -, hp, -⟩ := hs.offering_of_open hlive hh ho
      have hheard' : afterVerdict (l.hear (.answered r key .accepted)).trail.heard =
          some (key, []) := by
        rw [hheard]
        simp [Heard.acceptedBy, hopen]
      refine ⟨?_, ?_, ?_⟩
      · change some key = (afterVerdict (l.hear _).trail.heard).map Prod.fst
        rw [hheard']
        rfl
      · intro k ms h
        cases hheard'.symm.trans h
        refine iff_of_true rfl ⟨?_, hp⟩
        change stageOf (l.trail.recorded ++ [Command.claim]) = _
        rw [stageOf_append_singleton, hst]
        rfl
      · change relaysOf (l.trail.recorded ++ [Command.claim]) =
          speech cfg (l.hear _).trail.heard ++ (refusedWord cfg (l.hear _).trail.heard).toList
        rw [relaysOf_append_singleton, hrel, speech, refusedWord, hheard']
        rfl
  | refused _ _ _ => exact (hplain rfl).record_unclaimed hc hc rfl
  | declined _ _ _ => exact (hplain rfl).record_unclaimed hc hc (relaysOf_dropped _ _)
  | lapsed _ _ _ => exact (hplain rfl).record_unclaimed hc hc (relaysOf_dropped _ _)
  | said _ hk => exact absurd (hk.symm.trans hc) nofun
  | cancelPending _ _ _ => exact (hplain rfl).of_same rfl rfl rfl rfl
  | cancelled _ _ _ => exact (hplain rfl).record_unclaimed hc hc rfl
  | failed _ => exact (hplain rfl).record_unclaimed hc hc rfl
  | undelivered _ => exact (hplain rfl).of_same rfl rfl rfl rfl

/-- A message more about a run somebody holds and still speaks for. -/
private theorem Heeds.of_open (hl : l.Heeds cfg) {k : Key} {ms : List Message}
    {o : Option Key} (hv : afterVerdict l.trail.heard = some (k, ms))
    (hopen : ms.any (fun m => m.endsSpeech cfg k) = false)
    (hheard : l'.trail.heard = l.trail.heard ++ [⟨m, o⟩]) (hc : l'.run.claimedBy = some k)
    (hrel : relaysOf l'.trail.recorded =
      relaysOf l.trail.recorded ++ (m.eventOf k).toList)
    (hgo : m.endsSpeech cfg k = false ↔
      stageOf l'.trail.recorded = some .held ∧ l'.run.poison = none) : l'.Heeds cfg := by
  have hv' : afterVerdict l'.trail.heard = some (k, ms ++ [m]) := by
    rw [hheard, afterVerdict_append_singleton, hv]
  refine ⟨by rw [hc, hv']; rfl, ?_, ?_⟩
  · intro k' ms' h
    cases hv'.symm.trans h
    rw [← hgo, List.any_append, hopen]
    simp
  · obtain ⟨hnone, hlast⟩ := lastWordOf_of_open (m := m) hopen
    have hold : relaysOf l.trail.recorded = wordsOf cfg k ms := by
      rw [hl.relays, speech, refusedWord, hv]
      simp [hnone]
    rw [hrel, hold, speech, refusedWord, hv']
    change _ = wordsOf cfg k (ms ++ [m]) ++ (lastWordOf cfg k (ms ++ [m])).toList
    rw [wordsOf_of_open hopen, hlast]
    cases m.endsSpeech cfg k <;> simp

/-- A message more about a run whose holder has had its say. -/
private theorem Heeds.of_ended (hl : l.Heeds cfg) {k : Key} {ms : List Message}
    (hv : afterVerdict l.trail.heard = some (k, ms))
    (hend : ms.any (fun m => m.endsSpeech cfg k) = true) : (l.hear m).Heeds cfg := by
  have hv' : afterVerdict (l.hear m).trail.heard = some (k, ms ++ [m]) := by
    change afterVerdict (l.trail.heard ++ [_]) = _
    rw [afterVerdict_append_singleton, hv]
  refine ⟨?_, ?_, ?_⟩
  · rw [hv']
    exact hl.verdict.trans (by rw [hv]; rfl)
  · intro k' ms' h
    cases hv'.symm.trans h
    refine iff_of_false ?_ ?_
    · rw [List.any_append, hend]
      exact nofun
    · intro hgo
      exact absurd (hend.symm.trans ((hl.going_on k ms hv).2 hgo)) nofun
  · change relaysOf l.trail.recorded = _
    rw [hl.relays, speech, refusedWord, speech, refusedWord, hv, hv']
    change wordsOf cfg k ms ++ _ = wordsOf cfg k (ms ++ [m]) ++ _
    rw [wordsOf_of_ended hend]
    change _ = _ ++ (lastWordOf cfg k (ms ++ [m])).toList
    rw [lastWordOf_of_ended hend]
    rfl

/-- A claimed run its handler has nothing in hand for is held, or over. -/
private theorem Sound.held_or_over (hs : l.Sound) (hh : l.hand = none)
    (hc : l.run.claimedBy.isSome = true) :
    (stageOf l.trail.recorded = some .held ∧ l.run.poison = none ∧ l.live = true ∧
      l.run.verdictOpen = false) ∨ l.live = false ∧ l.held = false := by
  obtain ⟨st, hst, hat⟩ := hs.stage
  have hne : l.run.claimedBy ≠ none := fun h => by rw [h] at hc; cases hc
  cases st with
  | fresh => exact absurd (claimedBy_none_of_unoffered hat.1) hne
  | offering => exact absurd hat.2.1 hne
  | held =>
      obtain ⟨hl, ho, -, -, ⟨hp, -⟩ | ⟨_, _, hhand, -⟩⟩ := hat
      · exact .inl ⟨hst, hp, hl, ho⟩
      · exact absurd (hh.symm.trans hhand) nofun
  | ended =>
      rcases hat with ⟨hheld, hl, -⟩ | ⟨-, _, h | ⟨h, -⟩⟩
      · exact .inr ⟨hl, hheld⟩
      · exact absurd (hh.symm.trans h) nofun
      · exact absurd (hh.symm.trans h) nofun

/-- A message about a run that is over passes it by. -/
private theorem Takes.of_over (hl : l.live = false) (hheld : l.held = false)
    (ht : Takes cfg r m l l') : l' = l := by
  cases ht with
  | ignored _ => rfl
  | arrived _ h => exact absurd (hheld.symm.trans h) nofun
  | accepted h _ _ => exact absurd (hl.symm.trans h) nofun
  | refused h _ _ => exact absurd (hl.symm.trans h) nofun
  | declined h _ _ => exact absurd (hl.symm.trans h) nofun
  | lapsed h _ _ => exact absurd (hl.symm.trans h) nofun
  | said h _ => exact absurd (hl.symm.trans h) nofun
  | cancelPending h _ _ => exact absurd (hl.symm.trans h) nofun
  | cancelled h _ _ => exact absurd (hl.symm.trans h) nofun
  | failed h => exact absurd (hl.symm.trans h) nofun
  | undelivered h => exact absurd (hl.symm.trans h) nofun

/-- A message about a run somebody holds. -/
private theorem Heeds.took_held (hl : l.Heeds cfg) {k : Key} {ms : List Message}
    (hv : afterVerdict l.trail.heard = some (k, ms))
    (hopen : ms.any (fun m => m.endsSpeech cfg k) = false) (hc : l.run.claimedBy = some k)
    (hst : stageOf l.trail.recorded = some .held) (hp : l.run.poison = none)
    (hlive : l.live = true) (ho : l.run.verdictOpen = false)
    (ht : Takes cfg r m (l.hear m) l') : l'.Heeds cfg := by
  have hheld : ∀ c, Stage.held.next c = some .held →
      stageOf (l.trail.recorded ++ [c]) = some .held := by
    intro c hn
    rw [stageOf_append_singleton, hst]
    exact hn
  have hended : ∀ c, Stage.held.next c = some .ended →
      stageOf (l.trail.recorded ++ [c]) ≠ some .held := by
    intro c hn
    rw [stageOf_append_singleton, hst, Option.bind_some, hn]
    simp
  have hrel : ∀ c e, relaysOf [c] = Option.toList e →
      relaysOf (l.trail.recorded ++ [c]) = relaysOf l.trail.recorded ++ e.toList := by
    intro c e h
    rw [relaysOf_append_singleton, h]
  -- A message that says nothing to the point.
  have hplain : m.endsSpeech cfg k = false → m.eventOf k = none → (l.hear m).Heeds cfg := by
    intro hno hev
    refine hl.of_open hv hopen rfl hc ?_ (iff_of_true hno ⟨hst, hp⟩)
    rw [hev, Option.toList_none, List.append_nil]
    rfl
  cases ht with
  | ignored hi =>
      cases m with
      | said x origin report =>
          have hne : origin ≠ k := by
            rintro rfl
            exact hi ⟨hlive, hc⟩
          cases report <;> exact hplain (by simp [Message.endsSpeech, hne])
            (by simp [Message.eventOf, hne])
      | trusted x c => exact absurd (hlive.symm.trans hi) (by simp)
      | _ => exact hplain rfl rfl
  | arrived h _ => exact absurd (hlive.symm.trans h) (by simp)
  | accepted _ h _ => exact absurd (ho.symm.trans h) (by simp)
  | refused _ h _ => exact absurd (ho.symm.trans h) (by simp)
  | declined _ h _ => exact absurd (ho.symm.trans h) (by simp)
  | lapsed _ h _ => exact absurd (ho.symm.trans h) (by simp)
  | @said _ origin report _ hk =>
      have heq : origin = k := Option.some.inj (hk.symm.trans hc)
      subst heq
      cases report with
      | finishStream =>
          refine hl.of_open hv hopen rfl ?_ (hrel .finishStream none rfl) (iff_of_false ?_ ?_)
          · exact (handle_claimedBy cfg _ l.run).trans hc
          · simp [Message.endsSpeech]
          · exact fun h => hended .finishStream rfl h.1
      | relayEvent event =>
          refine hl.of_open hv hopen rfl ?_ (hrel (.relayEvent event) (some event) rfl |>.trans ?_)
            ?_
          · exact (handle_claimedBy cfg _ l.run).trans hc
          · simp [Message.eventOf]
          · cases hm : malformed cfg event with
            | false =>
                refine iff_of_true (by simp [Message.endsSpeech, hm]) ⟨hheld _ rfl, ?_⟩
                rcases handle_poison cfg (.relayEvent event) l.run with h | ⟨⟨_, ⟨⟩, h⟩, -⟩
                · exact h.trans hp
                · exact absurd (hm.symm.trans h) (by simp)
            | true =>
                refine iff_of_false (by simp [Message.endsSpeech, hm]) fun h => ?_
                have hpois : (handleRelay cfg l.run event).1.poison = none := h.2
                simp [handleRelay, hm] at hpois
  | cancelPending _ _ h => exact absurd (ho.symm.trans h) (by simp)
  | cancelled _ _ _ =>
      refine hl.of_open hv hopen rfl ?_ (hrel .requestCancel none rfl)
        (iff_of_true rfl ⟨hheld .requestCancel rfl, ?_⟩)
      · exact (handle_claimedBy cfg _ l.run.askCancel).trans hc
      · rcases handle_poison cfg .requestCancel l.run.askCancel with h | ⟨⟨_, h, -⟩, -⟩
        · exact h.trans hp
        · cases h
  | failed _ =>
      refine hl.of_open hv hopen rfl ?_ (hrel (.fail _ _) none rfl) (iff_of_false (by rintro ⟨⟩) ?_)
      · exact (handle_claimedBy cfg _ l.run.noteAbnormal).trans hc
      · exact fun h => hended (.fail _ _) rfl h.1
  | undelivered _ => exact (hplain rfl rfl).of_same rfl rfl rfl rfl

/-- Whatever is heard about a run, its record relays its holder's speech. -/
theorem Heeds.took (hs : l.Sound) (hl : l.Heeds cfg) (hh : l.hand = none)
    (ht : Takes cfg r m (l.hear m) l') : l'.Heeds cfg := by
  cases hv : afterVerdict l.trail.heard with
  | none =>
      have hc : l.run.claimedBy = none := by
        rw [hl.verdict, hv]
        rfl
      exact hl.took_unclaimed hs hh hc ht
  | some v =>
      obtain ⟨k, ms⟩ := v
      have hc : l.run.claimedBy = some k := by
        rw [hl.verdict, hv]
        rfl
      rcases hs.held_or_over hh (by rw [hc]; rfl) with ⟨hst, hp, hlive, ho⟩ | ⟨hlive, hheld⟩
      · exact hl.took_held hv ((hl.going_on k ms hv).2 ⟨hst, hp⟩) hc hst hp hlive ho ht
      · have hend : ms.any (fun m => m.endsSpeech cfg k) = true := by
          refine Bool.eq_true_of_not_eq_false fun hopen => ?_
          obtain ⟨st, hst, hat⟩ := hs.stage
          cases hst.symm.trans ((hl.going_on k ms hv).1 hopen).1
          exact absurd (hlive.symm.trans hat.1) nofun
        rw [Takes.of_over (l := l.hear m) hlive hheld ht]
        exact hl.of_ended hv hend

private theorem stageOf_fail_ne_held (cs : List Command) (code : String)
    (message : Option String) : stageOf (cs ++ [.fail code message]) ≠ some .held := by
  rw [stageOf_append_singleton]
  rcases stageOf cs with _ | _ | _ | _ | _ <;> exact nofun

theorem Heeds.step (hs : l.Sound) (hl : l.Heeds cfg) (ht : Step cfg r a l l') :
    l'.Heeds cfg := by
  cases ht with
  | enqueued hh hf _ _ _ =>
      obtain ⟨st, hst, hat⟩ := hs.stage
      rw [hs.unborn hh] at hst
      cases hst
      obtain ⟨hv, hrel⟩ := hl.unclaimed (claimedBy_none_of_unoffered hat.1)
      exact heeds_of_unclaimed (claimedBy_none_of_unoffered (l := { l with run := _ })
        hf.unoffered) hv hrel
  | took _ hh ht => exact hl.took hs hh ht
  | offered _ _ hu _ =>
      have hc := claimedBy_none_of_unoffered hu
      exact Heeds.record_unclaimed (l := { l with trail := _ })
        (hl.of_same rfl rfl rfl rfl) hc hc rfl
  | invalid _ _ hu =>
      have hc := claimedBy_none_of_unoffered hu
      exact hl.record_unclaimed hc hc rfl
  | cancelChecked hlive hh hc _ =>
      rcases hs.held_or_over hh hc with ⟨hst, hp, -⟩ | ⟨h, -⟩
      · refine ⟨hl.verdict ▸ handle_claimedBy cfg .requestCancel l.run, ?_, ?_⟩
        · intro k ms h
          refine iff_of_true ((hl.going_on k ms h).2 ⟨hst, hp⟩) ⟨?_, ?_⟩
          · change stageOf (l.trail.recorded ++ [Command.requestCancel]) = _
            rw [stageOf_append_singleton, hst]
            rfl
          · rcases handle_poison cfg .requestCancel l.run with h | ⟨⟨_, h, -⟩, -⟩
            · exact h.trans hp
            · cases h
        · change relaysOf (l.trail.recorded ++ [Command.requestCancel]) = _
          rw [relaysOf_append_singleton, hl.relays]
          simp [relaysOf, Lane.record]
      · exact absurd (hlive.symm.trans h) (by simp)
  | @poisoned _ command text hh hp =>
      refine ⟨hl.verdict ▸ handle_claimedBy cfg
        (.fail "provider_sent_malformed_event" (some text)) l.run, ?_, ?_⟩
      · intro k ms h
        refine iff_of_false ?_ ?_
        · intro hopen
          exact absurd (hp.symm.trans ((hl.going_on k ms h).1 hopen).2) (by simp)
        · intro hst
          exact absurd hst.1 (stageOf_fail_ne_held _ _ _)
      · change relaysOf (l.trail.recorded ++ [Command.fail _ _]) = _
        rw [relaysOf_append_singleton, hl.relays]
        simp [relaysOf, Lane.record]
  | settled _ _ =>
      obtain ⟨_, h⟩ := l.run.settle_run
      exact hl.of_same rfl (congrArg Run.claimedBy h :) (congrArg Run.poison h :) rfl
  | _ => exact hl.of_same rfl rfl rfl rfl

end Lane

/-! ## Everybody else -/

/-- The key a verdict, a report or an end of stream comes from. -/
def Message.speaker? : Message → Option Key
  | .answered _ key _ => some key
  | .said _ origin _ => some origin
  | _ => none

/-- The verdict, report or end of stream an action posts. -/
def Action.posts? : Action → Option Message
  | .answerOffer r answer key => some (.answered r key answer)
  | .reportEvent r event origin => some (.said r origin (.relayEvent event))
  | .finishStream r origin => some (.said r origin .finishStream)
  | _ => none

/-- A handler passes over what a key says that the run was not offered to. -/
theorem Lane.Takes.of_stranger {cfg : Config} {r : RunId} {m : Message} {l l' : Lane} {k : Key}
    (ht : Lane.Takes cfg r m l l') (hn : l.Noted) (hm : m.speaker? = some k)
    (hk : k ∉ l.trail.offers.map OfferNote.key) : l' = l := by
  have hstrange : ∀ k', l.run.offeredTo = some k' ∨ l.run.claimedBy = some k' → k ≠ k' := by
    rintro k' h rfl
    rw [hn.key h] at hk
    exact hk (List.mem_singleton.2 rfl)
  cases ht with
  | ignored _ => rfl
  | accepted _ _ ho => exact absurd (Option.some.inj hm).symm (hstrange _ (.inl ho))
  | refused _ _ ho => exact absurd (Option.some.inj hm).symm (hstrange _ (.inl ho))
  | declined _ _ ho => exact absurd (Option.some.inj hm).symm (hstrange _ (.inl ho))
  | said _ hc => exact absurd (Option.some.inj hm).symm (hstrange _ (.inr hc))
  | _ => cases hm

section Reachable

variable {cfg : Config} {db : RunId → Option Row} {s : State}

theorem reachable_heeds (hs : Reachable cfg db s) (r : RunId) : (s.lane r).Heeds cfg :=
  hs.lane_invariant (P := Lane.Heeds cfg) r (Lane.heeds_of_unclaimed rfl rfl rfl)
    fun _ _ _ hl hh ht => hh.step hl ht

theorem lane_of_posts {a : Action} {s' : State} {m : Message} (ha : a.posts? = some m)
    (hstep : s.step cfg a = some s') (r : RunId) : s'.lane r = s.lane r := by
  have hpost : ∀ x m, (s.postTo x m).1.lane r = s.lane r := by
    intro x m
    unfold State.postTo
    split <;> rfl
  cases a with
  | answerOffer x answer key => cases hstep; exact hpost _ _
  | reportEvent x event origin => cases hstep; exact hpost _ _
  | finishStream x origin => cases hstep; exact hpost _ _
  | _ => cases ha

/-- What a key the run was not offered to posts about it passes the run by, when
it is posted and when it is taken. -/
theorem Reachable.stranger {a : Action} {s' : State} {m : Message} {k : Key} {r : RunId}
    (hs : Reachable cfg db s) (hstep : s.step cfg a = some s')
    (ha : a.posts? = some m ∨ s.takes a r = some m) (hm : m.speaker? = some k)
    (hk : k ∉ (s.trail r).offers.map OfferNote.key) :
    s'.run r = s.run r ∧ s'.rows r = s.rows r ∧
      (s'.trail r).recorded = (s.trail r).recorded := by
  rcases ha with ha | ha
  · have hlane := lane_of_posts ha hstep r
    exact ⟨congrArg Lane.run hlane, congrArg Lane.row hlane,
      congrArg (fun l : Lane => l.trail.recorded) hlane⟩
  · have hcourse := (hs.refines_step hstep).lane r
    rw [ha] at hcourse
    obtain ⟨l₁, ht, -, hlast⟩ := hcourse
    cases ht with
    | took _ _ ht =>
        have hl₁ := Lane.Takes.of_stranger ht (reachable_noted hs r) hm hk
        have harr : m.arrival? = none := by cases m <;> first | rfl | cases hm
        have hlane := (hlast harr).trans hl₁
        exact ⟨congrArg Lane.run hlane, congrArg Lane.row hlane,
          congrArg (fun l : Lane => l.trail.recorded) hlane⟩

/-- The event AG-UI refuses is recorded too, though it ends the speech. -/
theorem malformed_event_recorded :
    relaysOf ((State.after Demo.config Demo.poisoned).trail "r").recorded ≠
      speech Demo.config ((State.after Demo.config Demo.poisoned).trail "r").heard := by
  intro h
  exact absurd (congrArg List.length h) (by decide +kernel)

/-- **Main result.**  The messages about a run are handled in the order they were
posted.  What its record relays is the speech of the one key it was offered to,
from that key's accepting verdict on, and behind it the event AG-UI refused, if
that is what ended the speech: the other relayed events are the speech itself.
What any other key posts about the run changes nothing about it. -/
theorem only_holder_speaks (hs : Reachable cfg db s) (r : RunId) :
    (∀ h, s.home r = some h → State.about r (s.posted h) =
      (s.trail r).heard.map Heard.message ++ State.about r (s.inbox h)) ∧
    relaysOf (s.trail r).recorded =
      speech cfg (s.trail r).heard ++ (refusedWord cfg (s.trail r).heard).toList ∧
    (relaysOf (s.trail r).recorded).filter (fun e => !malformed cfg e) =
      speech cfg (s.trail r).heard ∧
    (∀ k ms, afterVerdict (s.trail r).heard = some (k, ms) →
      (s.trail r).offers.map OfferNote.key = [k] ∧ (s.run r).claimedBy = some k) ∧
    (∀ a s' m k, s.step cfg a = some s' → (a.posts? = some m ∨ s.takes a r = some m) →
      m.speaker? = some k → k ∉ (s.trail r).offers.map OfferNote.key →
      s'.run r = s.run r ∧ s'.rows r = s.rows r ∧
        (s'.trail r).recorded = (s.trail r).recorded) := by
  have hheeds := reachable_heeds hs r
  have hrel : relaysOf (s.trail r).recorded =
    speech cfg (s.trail r).heard ++ (refusedWord cfg (s.trail r).heard).toList := hheeds.relays
  refine ⟨(reachable_inv hs).roll.fifo r, hrel, ?_, ?_, ?_⟩
  · rw [hrel]
    exact filter_speech cfg _
  · intro k ms hv
    have hc : (s.run r).claimedBy = some k := by
      change (s.lane r).run.claimedBy = some k
      rw [hheeds.verdict]
      exact congrArg (Option.map Prod.fst) hv
    exact ⟨(reachable_noted hs r).key (.inr hc), hc⟩
  · intro a s' m k hstep ha hm hk
    exact hs.stranger hstep ha hm hk

/-- A finished run's record relays one event, and what somebody else reports of
it passes it by. -/
theorem only_holder_speaks_completed :
    (speech Demo.config ((State.after Demo.config Demo.completed).trail "r").heard).length = 1 ∧
    relaysOf ((State.after Demo.config Demo.completed).trail "r").recorded =
      speech Demo.config ((State.after Demo.config Demo.completed).trail "r").heard ++
        (refusedWord Demo.config
          ((State.after Demo.config Demo.completed).trail "r").heard).toList ∧
    (((State.after Demo.config Demo.claimed).reportEvent "r" Demo.finishedEvent "xk").1.run
      "r" = (State.after Demo.config Demo.claimed).run "r") := by
  refine ⟨by decide +kernel, ?_, ?_⟩
  · exact (only_holder_speaks (reachable_after Demo.config Demo.completed) "r").2.1
  · exact ((only_holder_speaks (reachable_after Demo.config Demo.claimed) "r").2.2.2.2
      (.reportEvent "r" Demo.finishedEvent "xk") _ _ "xk" rfl (.inl rfl) rfl
      (by decide +kernel)).1

end Reachable

end Funduq.Broker
