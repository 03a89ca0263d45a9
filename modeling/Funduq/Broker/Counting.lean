import Funduq.Broker.Evidence
import Funduq.Broker.Placing

/-!
# Counting is fair

Four counters are kept for a provider's key, and five handlers add to them.  A
handler charges a key for the run its message is about (`Lane.Charged`), and what
it does next sees to it that the run is never charged again (`Lane.Spent`): it
ends the run, or it sets the flag that says its holder has been counted.  So a run
costs one key one count at most, whatever the tolerance, and whatever the
withdrawal of the key posts to the runs it holds.
-/

namespace Funduq.Broker

open Funduq.Lib

/-- The messages about run `r` a key is charged for, and what is counted. -/
inductive Run.Charged (r : RunId) (run : Run) : Message → Key → Counter → Prop where
  | misdeclared {k : Key} (ho : run.verdictOpen = true) (hk : run.offeredTo = some k) :
      Charged r run (.answered r k .declined) k .misdeclared
  | abandoned {k : Key} {code : String} {message : Option String}
      (hk : run.claimedBy = some k) (hn : run.notedAbnormal = false) :
      Charged r run (.trusted r (.fail code message)) k .abandoned
  | unanswered {k : Key} {offerId : Nat} (ho : run.verdictOpen = true)
      (hid : run.offerId = offerId) (hk : run.offeredTo = some k) :
      Charged r run (.offerLapsed r offerId) k .unanswered
  | undelivered {k : Key} (hk : run.claimedBy = some k) (hn : run.notedAbnormal = false) :
      Charged r run (.undelivered r) k .undelivered

theorem Run.Charged.runId {r : RunId} {run : Run} {m : Message} {k : Key} {c : Counter}
    (hc : run.Charged r m k c) : m.runId? = some r := by
  cases hc <;> rfl

namespace State

variable {cfg : Config} {s s' : State} {h : HandlerId} {r : RunId} {a : Action} {m : Message}

/-- Counter `c` of key `k`. -/
def count (s : State) (k : Key) (c : Counter) : Nat := (s.provider k).counters c

/-! ## What counts nothing -/

theorem setProvider_count {k : Key} {p : ProviderHandler}
    (hp : p.counters = (s.provider k).counters) : (s.setProvider k p).count = s.count := by
  funext k' c
  unfold count provider
  rw [setProvider_providers]
  by_cases hk : k' = k
  · subst hk
    rw [Function.update_self, Option.getD_some, hp]
    rfl
  · rw [Function.update_of_ne hk]

theorem foldl_count {β : Type} {f : State → β → State} (hf : ∀ s b, (f s b).count = s.count)
    (l : List β) (s : State) : (l.foldl f s).count = s.count := by
  induction l generalizing s with
  | nil => rfl
  | cons b l ih => exact (ih (f s b)).trans (hf s b)

theorem postTo_count (s : State) (r : RunId) (m : Message) : (s.postTo r m).1.count = s.count := by
  unfold postTo
  split <;> rfl

theorem unregisterProvider_count (s : State) (agents : List AgentRef) :
    (s.unregisterProvider agents).count = s.count := by
  refine foldl_count (fun s ref => ?_) agents s
  unfold unregisterOne
  split
  · rfl
  · exact foldl_count (fun s r => postTo_count s r _) _ _

theorem registerProvider_count (s : State) (mapping : List (AgentRef × Connection)) :
    (s.registerProvider mapping).count = s.count := by
  unfold registerProvider
  dsimp only
  rw [foldl_count (f := fun (s : State) (e : AgentRef × Connection) => s.pokeAgent e.1)
    (fun s e => rfl)]
  refine foldl_count (f := fun (s : State) (e : AgentRef × Connection) => s.registerOne e.1 e.2)
    (fun s e => ?_) mapping s
  exact setProvider_count (k := e.2.publicKey) (p := { s.provider e.2.publicKey with
    connection := some e.2
    declared := e.2.maxConcurrentRuns }) rfl

@[simp] theorem release_count (s : State) (r : RunId) : (s.release r).count = s.count := by
  unfold release
  dsimp only
  split
  · rfl
  · rename_i k
    split
    · rfl
    · rename_i p hp
      split
      · exact setProvider_count (s := s.setRun r _) (by rw [provider, hp]; rfl)
      · rfl

@[simp] theorem cancelTimer_count (s : State) (h : HandlerId) (r : RunId) :
    (s.cancelTimer h r).count = s.count := by
  unfold cancelTimer
  split <;> rfl

@[simp] theorem closeOffer_count (s : State) (h : HandlerId) (r : RunId) :
    (s.closeOffer h r).count = s.count :=
  cancelTimer_count _ h r

@[simp] theorem cancelHandover_count (s : State) (h : HandlerId) (r : RunId) :
    (s.cancelHandover h r).count = s.count := by
  unfold cancelHandover
  dsimp only
  split <;> rfl

@[simp] theorem record_count (cfg : Config) (s : State) (h : HandlerId) (r : RunId)
    (command : Command) (ret : Ret) (k : Cont) :
    (s.record cfg h r command ret k).count = s.count := by
  unfold record
  dsimp only
  split
  · split <;> rfl
  · rfl

@[simp] theorem settle_count (s : State) (h : HandlerId) (r : RunId) :
    (s.settle h r).count = s.count := by
  have hforget : ∀ s : State, (s.forget r).count = s.count := by
    intro s
    unfold forget
    dsimp only
    split
    · change State.count (if _ then _ else _) = _
      split
      · exact release_count _ r
      · rfl
    · rfl
  unfold settle
  exact (hforget _).trans (cancelTimer_count _ h r)

@[simp] theorem offer_count {i : Bool} {k : Cont} : (s.offer cfg h r i k).count = s.count := by
  cases hp : s.hasPlace r with
  | true =>
      rcases offer_of_place cfg h i k hp with ⟨e, he⟩ | ⟨c, he⟩
      · rw [he, record_count]
      · rw [he, record_count]
        exact setProvider_count rfl
  | false =>
      rw [offer_of_no_place hp, noRoom]
      cases i <;> rfl

theorem resume_count (hstep : s.resume cfg h = some s') : s'.count = s.count := by
  unfold resume at hstep
  split at hstep
  · cases hstep
    unfold afterWrite
    dsimp only
    split
    · split <;> rfl
    · rfl
  · cases hstep
    rfl
  · cases hstep
    rename_i x ret k _
    cases ret with
    | settle => exact settle_count s h x
    | handOver c n => rfl
    | claimed =>
        unfold onReturn afterClaim
        dsimp only
        split
        · split <;> rfl
        · exact postTo_count s x _
    | maybeSettle command =>
        unfold onReturn maybeSettle
        dsimp only
        split
        · exact record_count ..
        · cases command with
          | finishStream => exact settle_count s h x
          | _ => rfl
    | nothing => rfl
  · cases hstep
    rename_i k _
    unfold goOn
    split
    · split
      · unfold leave
        dsimp only
        split <;> rfl
      · rfl
    · unfold advance
      dsimp only
      split
      · rfl
      · split
        · exact offer_count
        · rfl
    · rfl
    · exact offer_count
    · split
      · exact record_count ..
      · rfl
  · cases hstep

/-! ## What counts -/

/-- One more of `c` for key `k`. -/
def bump (f : Key → Counter → Nat) (k : Key) (c : Counter) : Key → Counter → Nat :=
  fun k' c' => f k' c' + if k' = k ∧ c' = c then 1 else 0

theorem noteAbnormal_count (cfg : Config) (s : State) (k : Key) (c : Counter) :
    (s.noteAbnormal cfg k c).count = bump s.count k c := by
  have hcounted : ∀ t : State, t.count = (s.setProvider k { s.provider k with
      counters := Function.update (s.provider k).counters c
        ((s.provider k).counters c + 1) }).count → t.count = bump s.count k c := by
    intro t ht
    rw [ht]
    funext k' c'
    unfold bump
    by_cases hk : k' = k
    · subst hk
      by_cases hc : c' = c
      · subst hc
        simp [count, provider, setProvider]
      · simp [count, provider, setProvider, hc]
    · simp [count, provider, setProvider, hk]
  unfold noteAbnormal
  dsimp only
  split
  · exact hcounted _ rfl
  · split
    · exact hcounted _ rfl
    · exact hcounted _ (unregisterProvider_count _ _)

theorem onCancelAsked_count : (s.onCancelAsked cfg h r).count = s.count := by
  unfold onCancelAsked
  split
  · dsimp only
    split
    · rfl
    · split <;> exact record_count ..
  · rfl

/-- The run as `_on_offer_lapsed` comes to count it. -/
theorem lapsed_offeredTo (s : State) (h : HandlerId) (r : RunId) :
    (((s.closeOffer h r).cancelHandover h r).run r).offeredTo = (s.run r).offeredTo := by
  have hclose : ((s.closeOffer h r).run r).offeredTo = (s.run r).offeredTo := by
    unfold closeOffer
    dsimp only
    unfold cancelTimer
    split <;> simp
  unfold cancelHandover
  dsimp only
  rw [setRun_run, Function.update_self]
  rw [← hclose]
  split <;> rfl

/-- What a handler makes of a message counts nothing, or charges one key once. -/
theorem onMessage_count (cfg : Config) (s : State) (h : HandlerId) (m : Message) :
    (s.onMessage cfg h m).count = s.count ∨
    ∃ r k c, r ∈ s.live h ∧ (s.run r).Charged r m k c ∧
      (s.onMessage cfg h m).count = bump s.count k c := by
  cases m with
  | queued r =>
      left
      have hjoin : ∀ (t : State) (p : Prop) [Decidable p], t.count = s.count →
          State.count (if p then t.offer cfg h r true .advance
            else (t.setQueue h (t.queue h ++ [r])).setTask h (.at .advance)) = s.count := by
        intro t p _ ht
        split
        · rw [offer_count, ht]
        · exact ht
      unfold onMessage onQueued
      dsimp only
      split <;> exact hjoin _ _ rfl
  | answered r key answer =>
      simp only [onMessage, onAnswered]
      split
      · rename_i hopen
        have hclosed : ((s.closeOffer h r).release r).count = s.count := by
          rw [release_count, closeOffer_count]
        cases answer with
        | refusal reason => exact .inl (by rw [record_count, hclosed])
        | declined =>
            dsimp only
            split
            · exact .inl (by rw [record_count, hclosed])
            · rw [record_count, noteMisdeclared]
              split
              · refine .inr ⟨r, key, .misdeclared, hopen.1, .misdeclared hopen.2.1 hopen.2.2, ?_⟩
                rw [noteAbnormal_count, hclosed]
              · exact .inl hclosed
        | accepted =>
            left
            rw [record_count]
            exact closeOffer_count s h r
      · exact .inl rfl
  | said r origin report =>
      left
      simp only [onMessage, onSaid]
      split
      · exact record_count ..
      · rfl
  | trusted r command =>
      simp only [onMessage, onTrusted]
      split
      · rename_i hlive
        cases command with
        | requestCancel => exact .inl onCancelAsked_count
        | fail code message =>
            rw [record_count, noteAbandoned]
            split
            · exact .inl rfl
            · rename_i holder hholder
              split
              · exact .inl rfl
              · rename_i hn
                refine .inr ⟨r, holder, .abandoned, hlive,
                  .abandoned hholder (Bool.eq_false_iff.2 hn), ?_⟩
                exact noteAbnormal_count ..
        | _ => exact .inl (record_count ..)
      · exact .inl rfl
  | cancelAsked r => exact .inl onCancelAsked_count
  | offerLapsed r offerId =>
      simp only [onMessage, onOfferLapsed]
      split
      · rename_i hopen
        have hrecorded : ∀ t : State, State.count (if (t.run r).cancelRequested = true then
            t.record cfg h r .requestCancel .settle .advance
          else t.record cfg h r (.fail "provider_did_not_answer" none) .settle .advance) =
            t.count := by
          intro t
          split <;> exact record_count ..
        rw [hrecorded, release_count, noteUnanswered, lapsed_offeredTo]
        have hclosed : ((s.closeOffer h r).cancelHandover h r).count = s.count := by
          rw [cancelHandover_count, closeOffer_count]
        split
        · exact .inl hclosed
        · rename_i k hk
          refine .inr ⟨r, k, .unanswered, hopen.1, .unanswered hopen.2.1 hopen.2.2 hk, ?_⟩
          rw [noteAbnormal_count, hclosed]
      · exact .inl rfl
  | undelivered r =>
      simp only [onMessage, onUndelivered]
      split
      · exact .inl rfl
      · rename_i holder hholder
        split
        · rename_i hlive
          refine .inr ⟨r, holder, .undelivered, hlive.1, .undelivered hholder hlive.2, ?_⟩
          exact noteAbnormal_count ..
        · exact .inl rfl
  | poke => exact .inl rfl

/-! ## Every step -/

theorem take_count (hstep : s.take cfg h = some s') : s'.count = s.count ∨
    ∃ m r k c, (s.inbox h).head? = some m ∧ r ∈ s.live h ∧ (s.run r).Charged r m k c ∧
      s'.count = bump s.count k c := by
  unfold take at hstep
  split at hstep
  · rename_i m rest _ hin
    cases hstep
    have hsame : ∀ t : State, (t.hear h m).count = t.count ∧ (t.hear h m).live = t.live ∧
        (t.hear h m).run = t.run := by
      intro t
      unfold hear
      split <;> exact ⟨rfl, rfl, rfl⟩
    obtain ⟨hcount, hlive, hrun⟩ := hsame { s with inbox := Function.update s.inbox h rest }
    rcases onMessage_count cfg
      (({ s with inbox := Function.update s.inbox h rest } : State).hear h m) h m with
      hc | ⟨r, k, c, hl, hch, hc⟩
    · exact .inl (hc.trans hcount)
    · rw [hlive] at hl
      rw [hrun] at hch
      exact .inr ⟨m, r, k, c, by rw [hin]; rfl, hl, hch, by rw [hc, hcount]; rfl⟩
  · cases hstep

/-- A step counts nothing, or it takes a message and charges one key once. -/
theorem count_step (hstep : s.step cfg a = some s') : s'.count = s.count ∨
    ∃ h m r k c, a = .take h ∧ (s.inbox h).head? = some m ∧ r ∈ s.live h ∧
      (s.run r).Charged r m k c ∧ s'.count = bump s.count k c := by
  cases a with
  | take h =>
      rcases take_count hstep with hc | ⟨m, r, k, c, hm, hl, hch, hc⟩
      · exact .inl hc
      · exact .inr ⟨h, m, r, k, c, rfl, hm, hl, hch, hc⟩
  | start =>
      simp only [step] at hstep
      split at hstep <;> (cases hstep; exact .inl rfl)
  | stop => cases hstep; exact .inl rfl
  | tick elapsed => cases hstep; exact .inl rfl
  | openRow r =>
      simp only [step] at hstep
      split at hstep
      · cases hstep
        exact .inl rfl
      · cases hstep
  | enqueueRun e =>
      simp only [step] at hstep
      split at hstep
      · cases hstep
        left
        unfold enqueueRun threadHandler
        dsimp only
        split <;> rfl
      · cases hstep
  | answerOffer r answer key => cases hstep; exact .inl (postTo_count s r _)
  | reportEvent r event origin => cases hstep; exact .inl (postTo_count s r _)
  | finishStream r origin => cases hstep; exact .inl (postTo_count s r _)
  | pushFail r code message => cases hstep; exact .inl (postTo_count s r _)
  | noteUndelivered r => cases hstep; exact .inl (postTo_count s r _)
  | requestCancel r =>
      cases hstep
      left
      unfold requestCancel
      split
      · exact postTo_count _ r _
      · rfl
  | registerProvider mapping => cases hstep; exact .inl (registerProvider_count s mapping)
  | unregisterProvider agents => cases hstep; exact .inl (unregisterProvider_count s agents)
  | sweep =>
      simp only [step] at hstep
      split at hstep
      · cases hstep
        exact .inl (foldl_count (fun s r => postTo_count s r _) _ _)
      · cases hstep
  | clockRunsOut clock =>
      simp only [step, clockRunsOut] at hstep
      split at hstep
      · cases hstep
        exact .inl rfl
      · cases hstep
  | deliver task =>
      simp only [step, deliver] at hstep
      split at hstep
      · cases hstep
        exact .inl rfl
      · cases hstep
  | handOverEnds task fails =>
      simp only [step, handOverEnds] at hstep
      split at hstep
      · split at hstep <;> (cases hstep; exact .inl rfl)
      · cases hstep
  | transact h succeeds =>
      simp only [step, transact] at hstep
      split at hstep
      · split at hstep
        · cases hstep
          exact .inl rfl
        · cases hstep
          exact .inl rfl
        · cases hstep
      · cases hstep
  | resume h => exact .inl (resume_count hstep)

end State

/-! ## The life of a run -/

/-- A run that has not ended has not finished its stream. -/
theorem finishStream_not_mem {cs : List Command} {st : Stage} (hst : stageOf cs = some st)
    (hne : st ≠ .ended) : .finishStream ∉ cs.map Command.kind := by
  have hw := word_of_stage hst
  cases st with
  | fresh =>
      rw [show cs.map Command.kind = [] from hw]
      exact nofun
  | offering =>
      rw [show cs.map Command.kind = [.offer] from hw]
      decide
  | held =>
      obtain ⟨ks, hks, hmid⟩ := hw
      rw [hks]
      intro hmem
      have hin : .finishStream ∈ ks := by simpa using hmem
      rcases hmid _ hin with h | h <;> cases h
  | ended => exact absurd rfl hne

namespace Lane

variable {cfg : Config} {r : RunId} {a : Option Message} {l l' : Lane} {m : Message} {k : Key}
  {c : Counter}

/-- A run that was charged under `c` and is charged no more: it has ended, or the flag
of its holder is set.  One charged under any other counter than `undelivered` has ended,
and not by the end of its stream. -/
structure Spent (c : Counter) (l : Lane) : Prop where
  spent : l.Ended ∨ l.run.claimedBy.isSome = true ∧ l.run.notedAbnormal = true
  cut : c ≠ .undelivered → l.Ended ∧ .finishStream ∉ l.trail.recorded.map Command.kind

theorem Step.recorded_of_ended (hs : l.Sound) (hhome : l.home.isSome = true) (he : l.Ended)
    (ht : Step cfg r a l l') : l'.trail.recorded = l.trail.recorded := by
  cases ht.writes hs with
  | opened _ hl => rw [hl]
  | enqueued hh _ _ _ _ =>
      rw [hh] at hhome
      cases hhome
  | kept hk => exact hk.recorded
  | @entered command x hc =>
      obtain ⟨st, st', hst, -, -, hn⟩ := hc.stages hs (hs.step ht)
      cases he.symm.trans hst
      cases command <;> cases hn
  | lost _ hl => rw [hl]

/-- Once its holder was counted, a run stays somebody's and its flag set. -/
theorem Step.noted (hhome : l.home.isSome = true) (hc : l.run.claimedBy.isSome = true)
    (hn : l.run.notedAbnormal = true) (ht : Step cfg r a l l') :
    l'.run.claimedBy.isSome = true ∧ l'.run.notedAbnormal = true := by
  have hrec : ∀ (command : Command) (x : Run), x.claimedBy.isSome = true →
      x.notedAbnormal = true → (handle cfg command x).1.claimedBy.isSome = true ∧
        (handle cfg command x).1.notedAbnormal = true := by
    intro command x hc hn
    rw [handle_claimedBy, handle_notedAbnormal]
    exact ⟨hc, hn⟩
  have hnoted : l.run.noteAbnormal.notedAbnormal = true := by
    change (l.run.notedAbnormal || l.run.claimedBy.isSome) = true
    rw [hn, Bool.true_or]
  cases ht with
  | enqueued hh _ _ _ _ =>
      rw [hh] at hhome
      cases hhome
  | took _ _ ht =>
      cases ht with
      | accepted _ _ _ => exact hrec .claim (l.run.accept _) rfl hn
      | refused _ _ _ => exact hrec _ l.run.turnDown hc hn
      | declined _ _ _ => exact hrec _ l.run.turnDown hc hn
      | lapsed _ _ _ => exact hrec _ l.run.lapse hc hn
      | said _ _ => exact hrec _ l.run hc hn
      | cancelled _ _ _ => exact hrec _ l.run.askCancel hc hn
      | failed _ => exact hrec _ l.run.noteAbnormal hc hnoted
      | undelivered _ => exact ⟨hc, hnoted⟩
      | _ => exact ⟨hc, hn⟩
  | offered _ _ _ _ => exact hrec _ (l.run.offerTo _ _) hc hn
  | invalid _ _ _ => exact hrec _ l.run hc hn
  | cancelChecked _ _ _ _ => exact hrec _ l.run hc hn
  | poisoned _ _ => exact hrec _ l.run hc hn
  | settled _ _ =>
      obtain ⟨_, h⟩ := l.run.settle_run
      change l.run.settle.claimedBy.isSome = true ∧ l.run.settle.notedAbnormal = true
      rw [h]
      exact ⟨hc, hn⟩
  | _ => exact ⟨hc, hn⟩

theorem Spent.step (hs : l.Sound) (hhome : l.home.isSome = true) (hp : l.Spent c)
    (ht : Step cfg r a l l') : l'.Spent c where
  spent := by
    rcases hp.spent with he | ⟨hc, hn⟩
    · exact .inl (ht.ended hs hhome he)
    · exact .inr (ht.noted hhome hc hn)
  cut hc := by
    obtain ⟨he, hf⟩ := hp.cut hc
    exact ⟨ht.ended hs hhome he, by rw [ht.recorded_of_ended hs hhome he]; exact hf⟩

/-- A run that ends otherwise than by the end of its stream is spent. -/
theorem spent_record {x : Run} {command : Command} {ret : Ret} {st : Stage}
    (hst : stageOf l.trail.recorded = some st) (hn : st.next command = some .ended)
    (hk : command.kind ≠ .finishStream) :
    ({ l with run := x }.record cfg command ret).Spent c := by
  have he : ({ l with run := x }.record cfg command ret).Ended := ended_record hst hn
  refine ⟨.inl he, fun _ => ⟨he, ?_⟩⟩
  have hne : st ≠ .ended := by
    rintro rfl
    cases command <;> cases hn
  change _ ∉ (l.trail.recorded ++ [command]).map Command.kind
  rw [List.map_append, List.mem_append, not_or]
  exact ⟨finishStream_not_mem hst hne, fun h => hk (List.mem_singleton.1 h).symm⟩

theorem dropped_kind (run : Run) (code : String) : (run.dropped code).kind ≠ .finishStream := by
  unfold Run.dropped
  split <;> exact nofun

/-- Whoever is charged has not been charged before. -/
theorem not_spent_of_charged {c' : Counter} (hs : l.Sound) (hl : l.live = true)
    (hh : l.hand = none) (hc : l.run.Charged r m k c) : ¬ l.Spent c' := by
  intro hp
  rcases hp.spent with he | ⟨hclaimed, hnoted⟩
  · obtain ⟨st, hst, hat⟩ := hs.stage
    cases he.symm.trans hst
    exact Sound.not_ended hl hh hat
  · have hopen : l.run.verdictOpen ≠ true := by
      intro ho
      have hnone := (hs.offering_of_open hl hh ho).2.2.1
      rw [hnone] at hclaimed
      cases hclaimed
    cases hc with
    | misdeclared ho _ => exact hopen ho
    | unanswered ho _ _ => exact hopen ho
    | abandoned _ hn => exact absurd (hnoted.symm.trans hn) nofun
    | undelivered _ hn => exact absurd (hnoted.symm.trans hn) nofun

/-- Whoever is charged is not charged again. -/
theorem spent_of_charged (hs : l.Sound) (hl : l.live = true) (hh : l.hand = none)
    (hc : l.run.Charged r m k c) (ht : Takes cfg r m (l.hear m) l') : l'.Spent c := by
  cases hc with
  | misdeclared ho hk =>
      have hst := (hs.offering_of_open hl hh ho).1
      cases ht with
      | ignored hi => exact absurd ⟨hl, ho, hk⟩ hi
      | declined _ _ _ =>
          exact spent_record (l := l.hear _) hst (Stage.next_dropped _ _) (dropped_kind _ _)
  | unanswered ho hid hk =>
      have hst := (hs.offering_of_open hl hh ho).1
      cases ht with
      | ignored hi => exact absurd ⟨hl, ho, hid⟩ hi
      | lapsed _ _ _ =>
          exact spent_record (l := l.hear _) hst (Stage.next_dropped _ _) (dropped_kind _ _)
  | abandoned hk hn =>
      have hst := (hs.held_of_claimed hl hh (by rw [hk]; rfl)).1
      cases ht with
      | ignored hi => exact absurd (hl.symm.trans hi) nofun
      | failed _ => exact spent_record (l := l.hear _) hst rfl nofun
  | undelivered hk hn =>
      cases ht with
      | ignored hi => exact absurd (hl.symm.trans hi) nofun
      | undelivered _ =>
          refine ⟨.inr ⟨?_, ?_⟩, fun h => absurd rfl h⟩
          · change l.run.claimedBy.isSome = true
            rw [hk]
            rfl
          · change (l.run.notedAbnormal || l.run.claimedBy.isSome) = true
            rw [hk, Option.isSome_some, Bool.or_true]

/-! ## Completion -/

/-- Only the end of a stream completes a run. -/
theorem completes_of_handle {command : Command} {x : Run}
    (h : (handle cfg command x).2.bind Write.status = some .completed) :
    command = .finishStream := by
  cases command with
  | finishStream => rfl
  | offer => cases h
  | claim => cases h
  | fail code message => cases h
  | requestCancel =>
      simp only [handle, handleCancel] at h
      split at h <;> cases h
  | relayEvent event =>
      simp only [handle, handleRelay] at h
      split at h
      · cases h
      · split at h <;> cases h

/-- A run whose row is completed, or about to be, has finished its stream. -/
def Completes (l : Lane) : Prop :=
  l.home.isSome = true → ∀ row, l.ledger = some row → row.status = .completed →
    .finishStream ∈ l.trail.recorded.map Command.kind

theorem Completes.step (hs : l.Sound) (hb : l.Booked) (hp : l.Completes)
    (ht : Step cfg r a l l') : l'.Completes := by
  intro hhome row hrow hdone
  cases ht.writes hs with
  | opened hr he =>
      subst he
      obtain ⟨row₀, hrow₀, -⟩ := hb hhome
      exact absurd (hrow₀.symm.trans hr) nofun
  | enqueued hh _ hr hq he =>
      subst he
      have hidle : l.hand = none := hs.idle_of_unborn hh
      have hrow' := hrow.symm.trans ((ledger_of_idle hidle).trans hr)
      cases hrow'
      exact absurd (hq.symm.trans hdone) nofun
  | kept hk =>
      rw [hk.recorded]
      exact hp (hk.home ▸ hhome) row (hk.ledger ▸ hrow) hdone
  | @entered command x hc =>
      rw [hc.recorded, List.map_append, List.mem_append]
      rw [hc.ledger] at hrow
      obtain ⟨row₀, hrow₀, rfl⟩ := Option.map_eq_some_iff.1 hrow
      cases hw : (handle cfg command x).2 with
      | none =>
          rw [hw] at hdone
          exact .inl (hp (hc.home ▸ hhome) row₀ hrow₀ hdone)
      | some w =>
          rw [hw] at hdone
          change (w.commit row₀).status = .completed at hdone
          rcases w.commit_status_eq row₀ with hst | hst
          · exact .inl (hp (hc.home ▸ hhome) row₀ hrow₀ (hst.symm.trans hdone))
          · rw [hdone] at hst
            have hwrite : (handle cfg command x).2.bind Write.status = some .completed := by
              rw [hw]
              exact hst
            rw [completes_of_handle hwrite]
            exact .inr (List.mem_singleton.2 rfl)
  | @lost w ret hh he =>
      subst he
      have hrow' : l.row = some row := by
        obtain ⟨row₀, hrow₀, hwith⟩ := Option.map_eq_some_iff.1 hrow
        rw [← hwith]
        exact hrow₀
      refine hp hhome (w.commit row) ?_ ?_
      · rw [ledger, hrow', pending, hh]
        rfl
      · rw [commit_of_terminal w (by rw [hdone]; rfl), hdone]

/-- A run that was offered is not offered again. -/
theorem Step.offers_eq (hs : l.Sound) (hn : l.Noted) (ho : l.trail.offers ≠ [])
    (ht : Step cfg r a l l') : l'.trail.offers = l.trail.offers := by
  cases ht with
  | offered hl hh hu _ =>
      have hrec : l.trail.recorded = [] :=
        List.map_eq_nil_iff.1 (word_of_stage (hs.fresh_of_unoffered hl hh hu).1)
      rcases hn with ⟨he, -⟩ | ⟨hne, -⟩
      · exact absurd he ho
      · exact absurd hrec hne
  | took _ _ ht => cases ht <;> rfl
  | _ => rfl

theorem Step.heard_kept (hs : l.Sound) (ht : Step cfg r a l l') :
    ∀ e ∈ l.trail.heard, e ∈ l'.trail.heard := by
  intro e he
  cases ht.writes hs with
  | opened _ hl => rw [hl]; exact he
  | enqueued _ _ _ _ hl => rw [hl]; exact he
  | kept hk => exact hk.heard e he
  | entered hc => exact hc.heard e he
  | lost _ hl => rw [hl]; exact he

/-- One count of `c` against key `k` is on the account of the run. -/
structure Billed (r : RunId) (k : Key) (c : Counter) (l : Lane) : Prop where
  home : l.home.isSome = true
  spent : l.Spent c
  noted : l.Noted
  key : l.trail.offers.map OfferNote.key = [k]
  reported : c = .undelivered → .undelivered r ∈ l.trail.heard.map Heard.message

theorem Billed.step (hs : l.Sound) (hb : l.Billed r k c) (ht : Step cfg r a l l') :
    l'.Billed r k c where
  home := by
    obtain ⟨h, hh⟩ := Option.isSome_iff_exists.1 hb.home
    rw [ht.home hh]
    rfl
  spent := hb.spent.step hs hb.home ht
  noted := hb.noted.step hs ht
  key := by
    have ho : l.trail.offers ≠ [] := by
      intro h
      have hk := hb.key
      rw [h] at hk
      cases hk
    rw [ht.offers_eq hs hb.noted ho]
    exact hb.key
  reported hc := by
    obtain ⟨e, he, hm⟩ := List.mem_map.1 (hb.reported hc)
    exact List.mem_map.2 ⟨e, ht.heard_kept hs e he, hm⟩

end Lane

/-! ## The account of a run -/

/-- The run whose message action `a` hands to its handler. -/
def State.handles (s : State) (a : Action) : Option RunId := (s.takes? a).bind Message.runId?

/-- What handling the messages about the runs in `p` adds to counter `c` of key `k`,
along `as`. -/
def adds (cfg : Config) (p : RunId → Bool) (s : State) (as : List Action) (k : Key)
    (c : Counter) : Nat :=
  match as with
  | [] => 0
  | a :: as =>
      match s.step cfg a with
      | none => 0
      | some s' =>
          (if (s.handles a).any p then s'.count k c - s.count k c else 0) + adds cfg p s' as k c

section Reachable

variable {cfg : Config} {db : RunId → Option Row} {s s' : State} {r : RunId} {a : Action}

theorem State.handles_iff : s.handles a = some r ↔ ∃ m, s.takes a r = some m := by
  unfold State.handles State.takes
  rw [Option.bind_eq_some_iff]
  constructor
  · rintro ⟨m, hm, hr⟩
    exact ⟨m, Option.filter_eq_some_iff.2 ⟨hm, decide_eq_true hr⟩⟩
  · rintro ⟨m, hm⟩
    obtain ⟨hm, hr⟩ := Option.filter_eq_some_iff.1 hm
    exact ⟨m, hm, of_decide_eq_true hr⟩

/-- **The step.**  A step counts nothing, or it handles a message about one run and
charges one key once, for a run that was not charged before and will not be again. -/
theorem Reachable.count_step (hs : Reachable cfg db s) (hstep : s.step cfg a = some s') :
    s'.count = s.count ∨ ∃ r k c, s.handles a = some r ∧ s'.count = State.bump s.count k c ∧
      (∀ c', ¬ (s.lane r).Spent c') ∧ (s'.lane r).Billed r k c := by
  rcases State.count_step hstep with hc | ⟨h, m, r, k, c, rfl, hm, hlive, hch, hc⟩
  · exact .inl hc
  · right
    have hinv := reachable_inv hs
    have hsound := (reachable_sound hs).2 r
    have hhome := hinv.roll.home_of_live hlive
    have hl : (s.lane r).live = true := (State.lane_live hhome).2 hlive
    have hh : (s.lane r).hand = none := by
      rw [State.lane_hand hhome, (State.take_task hstep).1]
      rfl
    have htakes : s.takes (.take h) r = some m :=
      Option.filter_eq_some_iff.2 ⟨hm, decide_eq_true hch.runId⟩
    have hnew : m.arrival? = none := by
      cases hch <;> rfl
    have href := (hs.refines_step hstep).lane r
    rw [htakes] at href
    obtain ⟨l₁, ht, -, hlast⟩ := href
    rw [← hlast hnew] at ht
    have hkey : (s.run r).offeredTo = some k ∨ (s.run r).claimedBy = some k := by
      cases hch with
      | misdeclared _ hk => exact .inl hk
      | abandoned hk _ => exact .inr hk
      | unanswered _ _ hk => exact .inl hk
      | undelivered hk _ => exact .inr hk
    have hnoted := reachable_noted hs r
    have hoffer := hnoted.key hkey
    refine ⟨r, k, c, State.handles_iff.2 ⟨m, htakes⟩, hc,
      fun c' => Lane.not_spent_of_charged hsound hl hh hch, ?_⟩
    have ho : (s.lane r).trail.offers ≠ [] := by
      intro h
      rw [h] at hoffer
      cases hoffer
    refine ⟨?_, ?_, hnoted.step hsound ht, ?_, ?_⟩
    · change (s'.home r).isSome = true
      rw [hs.home_kept hhome hstep]
      rfl
    · cases ht with
      | took _ _ ht => exact Lane.spent_of_charged hsound hl hh hch ht
    · rw [ht.offers_eq hsound hnoted ho]
      exact hoffer
    · rintro rfl
      cases hch with
      | undelivered _ _ =>
          have hheard : ∀ l₁ l₂ : Lane, Lane.Takes cfg r (.undelivered r) l₁ l₂ →
              l₂.trail.heard = l₁.trail.heard := by
            intro l₁ l₂ ht
            cases ht <;> rfl
          cases ht with
          | took _ _ ht =>
              rw [hheard _ _ ht]
              simp [Lane.hear]

theorem Reachable.billed_kept {k : Key} {c : Counter} (hs : Reachable cfg db s)
    (hb : (s.lane r).Billed r k c) (hstep : s.step cfg a = some s') : (s'.lane r).Billed r k c :=
  (((hs.refines_step hstep).lane r).keeps (A := fun _ _ => True) (P := fun l => l.Billed r k c)
    (fun _ _ => trivial) (fun _ _ _ hs _ hp ht => hp.step hs ht) ((reachable_sound hs).2 r) hb).2

theorem adds_cons {p : RunId → Bool} {as : List Action} (hstep : s.step cfg a = some s') (k : Key)
    (c : Counter) : adds cfg p s (a :: as) k c =
      (if (s.handles a).any p then s'.count k c - s.count k c else 0) + adds cfg p s' as k c := by
  rw [adds, hstep]

/-- Every count is made for some run. -/
theorem count_eq_adds {as : List Action} {t : State} (hs : Reachable cfg db s)
    (hexec : (system cfg db).exec s as = some t) (k : Key) (c : Counter) :
    t.count k c = s.count k c + adds cfg (fun _ => true) s as k c := by
  induction as generalizing s with
  | nil =>
      cases hexec
      rfl
  | cons a as ih =>
      obtain ⟨s', hstep, hrest⟩ := Option.bind_eq_some_iff.1 hexec
      rw [ih (.step a hs hstep) hrest, adds_cons hstep]
      rcases hs.count_step hstep with hc | ⟨r, k', c', hr, hc, -⟩
      · rw [hc]
        split <;> omega
      · rw [hr, hc, Option.any_some, if_pos rfl]
        unfold State.bump
        omega

/-- The account of run `r` reads `bill`: nothing, or one count that is on record. -/
def Fair (r : RunId) (bill : Key → Counter → Nat) (s : State) : Prop :=
  bill = (fun _ _ => 0) ∨
    ∃ k c, bill = State.bump (fun _ _ => 0) k c ∧ (s.lane r).Billed r k c

theorem Fair.step {bill : Key → Counter → Nat} (hs : Reachable cfg db s) (hf : Fair r bill s)
    (hstep : s.step cfg a = some s') :
    Fair r (fun k c => bill k c +
      if (s.handles a).any (fun x => x = r) then s'.count k c - s.count k c else 0) s' := by
  have hkept : (∀ k c, (if (s.handles a).any (fun x => x = r) then
      s'.count k c - s.count k c else 0) = 0) → Fair r (fun k c => bill k c +
      if (s.handles a).any (fun x => x = r) then s'.count k c - s.count k c else 0) s' := by
    intro hzero
    simp only [hzero, Nat.add_zero]
    rcases hf with hf | ⟨k, c, hf, hb⟩
    · exact .inl hf
    · exact .inr ⟨k, c, hf, hs.billed_kept hb hstep⟩
  rcases hs.count_step hstep with hc | ⟨r', k, c, hr, hc, hnew, hb⟩
  · refine hkept fun k c => ?_
    rw [hc]
    split <;> omega
  · by_cases hrr : r' = r
    · subst hrr
      -- The run has not been charged before.
      rcases hf with hf | ⟨k₀, c₀, -, hb₀⟩
      · refine .inr ⟨k, c, ?_, hb⟩
        funext k' c'
        rw [hr, hf, hc, Option.any_some, if_pos (decide_eq_true rfl)]
        unfold State.bump
        omega
      · exact absurd hb₀.spent (hnew c₀)
    · refine hkept fun k c => ?_
      rw [hr, Option.any_some, if_neg (by simpa using hrr)]

theorem Fair.run {bill : Key → Counter → Nat} {as : List Action} {t : State}
    (hs : Reachable cfg db s) (hf : Fair r bill s) (hexec : (system cfg db).exec s as = some t) :
    Fair r (fun k c => bill k c + adds cfg (fun x => x = r) s as k c) t := by
  induction as generalizing s bill with
  | nil =>
      cases hexec
      exact hf
  | cons a as ih =>
      obtain ⟨s', hstep, hrest⟩ := Option.bind_eq_some_iff.1 hexec
      have hnext := ih (.step a hs hstep) (hf.step hs hstep) hrest
      simp only [adds_cons hstep, ← Nat.add_assoc]
      exact hnext

theorem reachable_completes (hs : Reachable cfg db s) (r : RunId) : (s.lane r).Completes := by
  have h := hs.lane_invariant (P := fun l => l.Booked ∧ l.Completes) r ⟨nofun, nofun⟩
    fun _ _ _ hl hp ht => ⟨hp.1.step hl ht, hp.2.step hl hp.1 ht⟩
  exact h.2

/-- A run whose row is completed has finished its stream. -/
theorem finished_of_completed (hs : Reachable cfg db s) (hhome : (s.home r).isSome = true)
    (hdone : (s.rows r).map Row.status = some .completed) :
    .finishStream ∈ (s.trail r).recorded.map Command.kind := by
  obtain ⟨row, hrow, hst⟩ := Option.map_eq_some_iff.1 hdone
  refine reachable_completes hs r hhome (row.with (s.lane r).pending) ?_ ?_
  · rw [Lane.ledger, show (s.lane r).row = some row from hrow]
    rfl
  · cases (s.lane r).pending with
    | none => exact hst
    | some w =>
        change (w.commit row).status = _
        rw [commit_of_terminal w (by rw [hst]; rfl), hst]

/-- **Counting is fair.**  Every count is made for some run.  A run adds nothing to
the counters, or one to one of them, and that under the key it was offered to; and
if it ends completed, the counter is `undelivered` and the host has reported it. -/
theorem counting_is_fair {as : List Action} {t : State}
    (hexec : (system cfg db).exec (State.init db) as = some t) :
    (∀ k c, t.count k c = adds cfg (fun _ => true) (State.init db) as k c) ∧
    ∀ r, (∀ k c, adds cfg (fun x => x = r) (State.init db) as k c = 0) ∨
      ∃ k c, (∀ k' c', adds cfg (fun x => x = r) (State.init db) as k' c' =
          if k' = k ∧ c' = c then 1 else 0) ∧
        (t.trail r).offers.map OfferNote.key = [k] ∧
        ((t.rows r).map Row.status = some .completed →
          c = .undelivered ∧ .undelivered r ∈ (t.trail r).heard.map Heard.message) := by
  have hinit : Reachable cfg db (State.init db) := .init rfl
  have ht : Reachable cfg db t := System.Reachable.exec hinit hexec
  refine ⟨fun k c => ?_, fun r => ?_⟩
  · rw [count_eq_adds hinit hexec]
    exact Nat.zero_add _
  · have hfair := Fair.run (r := r) hinit (.inl rfl) hexec
    simp only [Nat.zero_add] at hfair
    rcases hfair with hzero | ⟨k, c, hone, hb⟩
    · exact .inl fun k c => congrFun (congrFun hzero k) c
    · refine .inr ⟨k, c, fun k' c' => ?_, hb.key, fun hdone => ?_⟩
      · rw [congrFun (congrFun hone k') c']
        exact Nat.zero_add _
      · have hc : c = .undelivered := by
          by_contra hne
          exact (hb.spent.cut hne).2 (finished_of_completed ht hb.home hdone)
        exact ⟨hc, hb.reported hc⟩

end Reachable

namespace Demo

/-- The host reports that the holder has not delivered, and the holder ends the run
after all. -/
def lateDelivery : List Action :=
  claimed ++ [.noteUndelivered "r"] ++ look 0 ++ [.reportEvent "r" finishedEvent "pk"] ++
    record 0 4 ++ [.finishStream "r" "pk"] ++ record 0 4

end Demo

theorem counting_is_fair_lateDelivery :
    ∃ t, (system Demo.config fun _ => none).exec (State.init fun _ => none) Demo.lateDelivery =
        some t ∧
      (t.rows "r").map Row.status = some .completed ∧ t.count "pk" .undelivered = 1 ∧
      ∀ r, (∀ k c, adds Demo.config (fun x => x = r) (State.init fun _ => none)
          Demo.lateDelivery k c = 0) ∨
        ∃ k c, (∀ k' c', adds Demo.config (fun x => x = r) (State.init fun _ => none)
            Demo.lateDelivery k' c' = if k' = k ∧ c' = c then 1 else 0) ∧
          (t.trail r).offers.map OfferNote.key = [k] ∧
          ((t.rows r).map Row.status = some .completed →
            c = .undelivered ∧ .undelivered r ∈ (t.trail r).heard.map Heard.message) := by
  have hrun : ((system Demo.config fun _ => none).exec (State.init fun _ => none)
      Demo.lateDelivery).any (fun t => (t.rows "r").map Row.status = some .completed ∧
        t.count "pk" .undelivered = 1) = true := by
    decide +kernel
  obtain ⟨t, hexec, ht⟩ := (Option.any_eq_true _ _).1 hrun
  obtain ⟨hdone, hcount⟩ := of_decide_eq_true ht
  exact ⟨t, hexec, hdone, hcount, (counting_is_fair hexec).2⟩

end Funduq.Broker
