import Funduq.Broker.Stream

/-!
# The stream a door takes for its caller

`start_run`, `resume_run` and the AG-UI door enqueue a run inside their database
session and take its stream once the session has been left.  Leaving it is an
await, so the broker may take any number of steps in between.  `subscribe` looks
the run up among the runs the broker still holds: where it finds it, it hands
out the run's queue, from the first item on; where the run has left already, it
hands out `_no_events()`.

`subscription` is the system of the broker and the caller that reads the stream
taken in some state: the broker goes on by its own steps, the caller asks for
the next item whenever it likes.
-/

namespace Funduq.Broker

open Funduq.Lib

/-- What `subscribe` returns. -/
inductive Iterator where
  /-- `_no_events()`. -/
  | noEvents
  /-- `_drain_run(run)`, with so many items taken off `run.out_queue`. -/
  | drainRun (taken : Nat)
  deriving DecidableEq, Repr

/-- `subscribe`: `streamOpen` is the run's `stream_open`. -/
def State.subscribe (s : State) (r : RunId) (streamOpen : Bool) : Except String Iterator :=
  if r ∈ s.runs then
    if streamOpen then
      .error ("run " ++ r ++ " already has a live stream; funduq serves one")
    else
      .ok (.drainRun 0)
  else
    .ok .noEvents

/-- The caller: what it reads from, and the events it has got. -/
inductive Reader where
  | reading (events : Iterator) (got : List Json)
  | ended (got : List Json)

def Reader.got : Reader → List Json
  | .reading _ got => got
  | .ended got => got

/-- `anext` on the caller's iterator, `q` being everything put on the run's queue;
`none` while there is nothing to return. -/
def Reader.next (q : List OutItem) : Reader → Option Reader
  | .reading .noEvents got => some (.ended got)
  | .reading (.drainRun n) got =>
      match q[n]? with
      | none => none
      | some .endOfStream => some (.ended got)
      | some (.event e) => some (.reading (.drainRun (n + 1)) (got ++ [e]))
  | .ended _ => none

/-- The broker, and a caller that has taken a stream. -/
structure Reading where
  broker : State
  reader : Reader

inductive Reading.Move where
  | broker (a : Action)
  | next

/-- The door has taken the stream of `r` in state `s`; nobody had it open. -/
def subscription (cfg : Config) (r : RunId) (s : State) : System Reading Reading.Move where
  init t := ∃ events, s.subscribe r false = .ok events ∧ t = ⟨s, .reading events []⟩
  step t
    | .broker a => (t.broker.step cfg a).map fun broker => { t with broker := broker }
    | .next =>
        (t.reader.next (t.broker.run r).outQueue).map fun reader => { t with reader := reader }

/-- The events the row of `r` has gained since the run was enqueued. -/
def State.recordedEvents (s : State) (r : RunId) : List Json :=
  match s.rows r with
  | none => []
  | some row => (row.events.drop (s.trail r).before.length).map Prod.snd

/-- The caller has got the run's first events in order, all of them by the time
its stream ends; and once the run has left the broker, reading on is answered
each time and ends the stream. -/
structure Reading.MissesNothing (cfg : Config) (r : RunId) (s : State) (t : Reading) :
    Prop where
  inOrder : t.reader.got <+: t.broker.recordedEvents r
  last : ∀ got, t.reader = .ended got →
    r ∉ t.broker.runs ∧ got = t.broker.recordedEvents r
  ends : r ∉ t.broker.runs → ∃ n t',
    (subscription cfg r s).exec t (List.replicate n .next) = some t' ∧
      t'.reader = .ended (t.broker.recordedEvents r)

/-! ## The queue -/

/-- A run's queue only grows. -/
theorem Lane.Step.outQueue {cfg : Config} {r : RunId} {a : Option Message} {l l' : Lane}
    (ht : Lane.Step cfg r a l l') (hhome : l.home.isSome = true) :
    l.run.outQueue <+: l'.run.outQueue := by
  have hsame : ∀ {q : List OutItem}, q = l.run.outQueue → l.run.outQueue <+: q := by
    intro q hq
    rw [hq]
  cases ht with
  | enqueued hh _ _ _ _ =>
      rw [hh] at hhome
      cases hhome
  | took _ _ ht =>
      cases ht with
      | ignored _ => exact hsame rfl
      | declined => exact hsame (handle_outQueue ..)
      | _ => first
          | exact hsame rfl
          | exact hsame (handle_outQueue ..)
  | streamed _ => exact List.prefix_append ..
  | settled _ _ =>
      show _ <+: l.run.settle.outQueue
      rw [Run.settle_outQueue]
      exact List.prefix_append ..
  | _ => first
      | exact hsame rfl
      | exact hsame (handle_outQueue ..)

section Reading

variable {cfg : Config} {db : RunId → Option Row} {s s₁ s₂ : State} {e : Enqueue}
  {as : List Action} {got sent : List Json} {q : List OutItem} {b : Prop} [Decidable b]

/-- What is on the stream of a run that was enqueued, and what its record has
besides. -/
theorem queue_after (hs : Reachable cfg db s) (henq : s.step cfg (.enqueueRun e) = some s₁)
    (hrun : (system cfg db).exec s₁ as = some s₂) :
    ∃ sent unsent : List Json, s₂.recordedEvents e.runId = sent ++ unsent ∧
      (s₂.run e.runId).outQueue = sent.map .event ++
        (if e.runId ∉ s₂.runs then [.endOfStream] else []) ∧
      (e.runId ∉ s₂.runs → unsent = []) := by
  have hs₁ : Reachable cfg db s₁ := System.Reachable.step (.enqueueRun e) hs henq
  have hs₂ : Reachable cfg db s₂ := hs₁.exec hrun
  obtain ⟨hcopied, -⟩ := copied_after hs henq hrun
  obtain ⟨row, sent, hrow, hev, hsent, -, -⟩ := hcopied.rows
  obtain ⟨events, hout⟩ := reachable_streamed hs₂ e.runId
  rw [hout, onStream_append] at hsent
  refine ⟨sent.map Prod.snd, (s₂.unsent e.runId).map Prod.snd, ?_, ?_, ?_⟩
  · have hrow' : s₂.rows e.runId = some row := hrow
    have hev' : row.events = (s₂.trail e.runId).before ++ (sent ++ s₂.unsent e.runId) := hev
    unfold State.recordedEvents
    rw [hrow']
    show (row.events.drop _).map _ = _
    rw [hev', List.drop_left, List.map_append]
  · show (s₂.lane e.runId).run.outQueue = _
    rw [hout, hsent]
    simp only [hcopied.home, true_and]
    simp [State.lane]
  · intro hgone
    have hleft := Lane.unsent_of_left ((reachable_sound hs₂).2 e.runId)
      (by simpa [State.lane] using hgone)
    show ((s₂.lane e.runId).unsent).map Prod.snd = []
    rw [hleft]
    rfl

/-- The queue of an enqueued run only grows. -/
theorem queue_grows {a : Action} (hs : Reachable cfg db s)
    (henq : s.step cfg (.enqueueRun e) = some s₁)
    (hrun : (system cfg db).exec s₁ as = some s₂) {s₃ : State}
    (hstep : s₂.step cfg a = some s₃) :
    (s₂.run e.runId).outQueue <+: (s₃.run e.runId).outQueue := by
  have hs₁ : Reachable cfg db s₁ := System.Reachable.step (.enqueueRun e) hs henq
  have hs₂ : Reachable cfg db s₂ := hs₁.exec hrun
  obtain ⟨hcopied, -⟩ := copied_after hs henq hrun
  have hone : (system cfg db).exec s₂ [a] = some s₃ := by
    show (s₂.step cfg a).bind _ = _
    rw [hstep]
    rfl
  refine (hs₂.lane_along (r := e.runId) (P := fun l => l.home.isSome = true ∧
    (s₂.run e.runId).outQueue <+: l.run.outQueue) ?_ ⟨hcopied.home, List.prefix_rfl⟩ hone).2
  rintro a l l' hl ⟨hhome, hq⟩ ht
  refine ⟨?_, hq.trans (ht.outQueue hhome)⟩
  obtain ⟨h, hh⟩ := Option.isSome_iff_exists.1 hhome
  rw [ht.home hh]
  rfl

/-- `END_OF_STREAM` stands only behind the last event of a queue. -/
theorem last_of_end (h : got.map OutItem.event ++ [.endOfStream] <+:
    sent.map OutItem.event ++ if b then [.endOfStream] else []) : got = sent ∧ b := by
  induction got generalizing sent with
  | nil =>
      cases sent with
      | nil =>
          by_cases hb : b
          · exact ⟨rfl, hb⟩
          · rw [if_neg hb] at h
            have := h.length_le
            simp at this
      | cons x sent =>
          obtain ⟨rest, hrest⟩ := h
          cases hrest
  | cons x got ih =>
      cases sent with
      | nil =>
          obtain ⟨rest, hrest⟩ := h
          split at hrest <;> cases hrest
      | cons y sent =>
          simp only [List.map_cons, List.cons_append, List.cons_prefix_cons] at h
          obtain ⟨hxy, hrest⟩ := h
          cases hxy
          obtain ⟨rfl, hb⟩ := ih hrest
          exact ⟨rfl, hb⟩

theorem prefix_of_events (h : got.map OutItem.event <+:
    sent.map OutItem.event ++ if b then [.endOfStream] else []) : got <+: sent := by
  induction got generalizing sent with
  | nil => exact List.nil_prefix
  | cons x got ih =>
      cases sent with
      | nil =>
          obtain ⟨rest, hrest⟩ := h
          split at hrest <;> cases hrest
      | cons y sent =>
          simp only [List.map_cons, List.cons_append, List.cons_prefix_cons] at h
          obtain ⟨hxy, hrest⟩ := h
          cases hxy
          exact List.cons_prefix_cons.2 ⟨rfl, ih hrest⟩

/-! ## The reader -/

/-- The reader has got the first items of the queue `q`; if its stream has ended,
or is the one without events, the end of the queue is next. -/
def Reader.Follows (q : List OutItem) : Reader → Prop
  | .reading .noEvents got => got.map OutItem.event ++ [.endOfStream] <+: q
  | .reading (.drainRun n) got => n = got.length ∧ got.map OutItem.event <+: q
  | .ended got => got.map OutItem.event ++ [.endOfStream] <+: q

theorem Reader.Follows.grow {q' : List OutItem} {rd : Reader} (hf : rd.Follows q)
    (hq : q <+: q') : rd.Follows q' := by
  match rd, hf with
  | .reading .noEvents _, hf => exact List.IsPrefix.trans hf hq
  | .reading (.drainRun _) _, hf => exact ⟨hf.1, hf.2.trans hq⟩
  | .ended _, hf => exact List.IsPrefix.trans hf hq

theorem Reader.Follows.next {rd rd' : Reader} (hf : rd.Follows q) (hn : rd.next q = some rd') :
    rd'.Follows q := by
  match rd, hf with
  | .reading .noEvents got, hf =>
      simp only [Reader.next, Option.some.injEq] at hn
      rw [← hn]
      exact hf
  | .reading (.drainRun n) got, ⟨hlen, hf⟩ =>
      have hat : ∀ {x}, q[n]? = some x → got.map OutItem.event ++ [x] <+: q := by
        intro x hx
        obtain ⟨hlt, rfl⟩ := List.getElem?_eq_some_iff.1 hx
        have hmap : (got.map OutItem.event).length = n := by rw [List.length_map, hlen]
        have := List.concat_get_prefix hf (by rw [hmap]; exact hlt)
        simpa only [hmap, List.get_eq_getElem] using this
      simp only [Reader.next] at hn
      split at hn
      · cases hn
      · rename_i hx
        cases hn
        exact hat hx
      · rename_i e hx
        cases hn
        refine ⟨by rw [hlen, List.length_append]; rfl, ?_⟩
        rw [List.map_append]
        exact hat hx

/-- The state of a reader and a broker that has gone on from `s₁`. -/
def Reading.Follows (cfg : Config) (db : RunId → Option Row) (r : RunId) (s₁ : State)
    (t : Reading) : Prop :=
  (∃ as, (system cfg db).exec s₁ as = some t.broker) ∧
    t.reader.Follows (t.broker.run r).outQueue

theorem Reading.Follows.step {t t' : Reading} {m : Reading.Move} (hs : Reachable cfg db s)
    (henq : s.step cfg (.enqueueRun e) = some s₁) (hf : t.Follows cfg db e.runId s₁)
    (hstep : (subscription cfg e.runId s₂).step t m = some t') :
    t'.Follows cfg db e.runId s₁ := by
  obtain ⟨⟨as, has⟩, hf⟩ := hf
  cases m with
  | broker a =>
      obtain ⟨s₃, hs₃, rfl⟩ := Option.map_eq_some_iff.1 hstep
      exact ⟨⟨as ++ [a], System.exec_concat has hs₃⟩, hf.grow (queue_grows hs henq has hs₃)⟩
  | next =>
      obtain ⟨rd, hrd, rfl⟩ := Option.map_eq_some_iff.1 hstep
      exact ⟨⟨as, has⟩, hf.next hrd⟩

/-- Reading on to the end of a queue that has one. -/
theorem reads_on {t : Reading} {n : Nat} (hq : (t.broker.run e.runId).outQueue =
      sent.map OutItem.event ++ [.endOfStream])
    (hr : t.reader = .reading (.drainRun n) (sent.take n)) (hn : n ≤ sent.length) :
    ∃ k t', (subscription cfg e.runId s₂).exec t (List.replicate k .next) = some t' ∧
      t'.reader = .ended sent := by
  induction hk : sent.length - n generalizing n t with
  | zero =>
      have hlen : n = sent.length := by omega
      refine ⟨1, { t with reader := .ended sent }, ?_, rfl⟩
      show Option.bind (Option.map _ (t.reader.next _)) _ = _
      rw [hr, hq, hlen]
      simp [Reader.next, System.exec_nil]
  | succ k ih =>
      have hlt : n < sent.length := by omega
      obtain ⟨j, t', hrun, hend⟩ := ih
        (t := { t with reader := .reading (.drainRun (n + 1)) (sent.take (n + 1)) }) hq rfl
        (by omega) (by omega)
      refine ⟨j + 1, t', ?_, hend⟩
      show Option.bind (Option.map _ (t.reader.next _)) _ = _
      rw [hr, hq]
      have hat : (sent.map OutItem.event ++ [OutItem.endOfStream])[n]? = some (.event sent[n]) := by
        rw [List.getElem?_append_left (by rw [List.length_map]; exact hlt), List.getElem?_map,
          List.getElem?_eq_getElem hlt]
        rfl
      simp only [Reader.next, hat, Option.map_some, Option.bind_some]
      rw [← List.take_concat_get' sent n hlt] at hrun
      exact hrun

/-- A reader that follows the queue of a run misses nothing of it. -/
theorem Reading.Follows.missesNothing {t : Reading} (hs : Reachable cfg db s)
    (henq : s.step cfg (.enqueueRun e) = some s₁) (hf : t.Follows cfg db e.runId s₁) :
    t.MissesNothing cfg e.runId s₂ := by
  obtain ⟨⟨as, has⟩, hf⟩ := hf
  obtain ⟨sent, unsent, hrec, hq, hun⟩ := queue_after hs henq has
  have hall : e.runId ∉ t.broker.runs → t.broker.recordedEvents e.runId = sent := by
    intro hgone
    rw [hrec, hun hgone, List.append_nil]
  have hlast : ∀ {got}, got.map OutItem.event ++ [OutItem.endOfStream] <+:
      (t.broker.run e.runId).outQueue → e.runId ∉ t.broker.runs ∧ got = sent := by
    intro got h
    rw [hq] at h
    obtain ⟨hgot, hgone⟩ := last_of_end h
    exact ⟨hgone, hgot⟩
  cases hrd : t.reader with
  | ended got =>
      rw [hrd] at hf
      obtain ⟨hgone, rfl⟩ := hlast hf
      refine ⟨?_, ?_, ?_⟩
      · rw [hrd, hall hgone]
        exact List.prefix_rfl
      · intro got' h
        cases hrd.symm.trans h
        exact ⟨hgone, (hall hgone).symm⟩
      · intro _
        exact ⟨0, t, rfl, by rw [hrd, hall hgone]⟩
  | reading events got =>
      rw [hrd] at hf
      refine ⟨?_, ?_, ?_⟩
      · rw [hrd, hrec]
        cases events with
        | noEvents =>
            obtain ⟨hgone, rfl⟩ := hlast hf
            exact List.prefix_append ..
        | drainRun n =>
            have h := hf.2
            rw [hq] at h
            exact (prefix_of_events h).trans (List.prefix_append ..)
      · intro got' h
        cases hrd.symm.trans h
      · intro hgone
        rw [hall hgone]
        cases events with
        | noEvents =>
            obtain ⟨-, rfl⟩ := hlast hf
            refine ⟨1, { t with reader := .ended got }, ?_, rfl⟩
            show Option.bind (Option.map _ (t.reader.next _)) _ = _
            rw [hrd]
            rfl
        | drainRun n =>
            obtain ⟨hlen, h⟩ := hf
            rw [hq] at h
            have hpre := prefix_of_events h
            rw [if_pos hgone] at hq
            refine reads_on hq (n := n) ?_ ?_
            · rw [hrd, hlen, ← List.prefix_iff_eq_take.1 hpre]
            · rw [hlen]
              exact hpre.length_le

/-- **Main result.**  A door enqueues a run, leaves its session while the broker
does `as`, and takes the run's stream in `s₂`.  Under every interleaving from
there the caller's stream misses nothing, exactly when the broker still holds
the run in `s₂` or the run has no event recorded by then. -/
theorem caller_misses_nothing (hs : Reachable cfg db s)
    (henq : s.step cfg (.enqueueRun e) = some s₁)
    (hexit : (system cfg db).exec s₁ as = some s₂) :
    (∀ t, (subscription cfg e.runId s₂).Reachable t → t.MissesNothing cfg e.runId s₂) ↔
      (e.runId ∈ s₂.runs ∨ s₂.recordedEvents e.runId = []) := by
  constructor
  · intro hall
    by_cases hheld : e.runId ∈ s₂.runs
    · exact .inl hheld
    · -- The stream is `_no_events()`, and it ends at the first `anext`.
      right
      have htaken : (subscription cfg e.runId s₂).Reachable ⟨s₂, .reading .noEvents []⟩ :=
        .init ⟨.noEvents, by rw [State.subscribe, if_neg hheld], rfl⟩
      have hended : (subscription cfg e.runId s₂).Reachable ⟨s₂, .ended []⟩ :=
        .step .next htaken rfl
      exact ((hall _ hended).last [] rfl).2.symm
  · intro hcond t ht
    have hfollows : t.Follows cfg db e.runId s₁ := by
      refine System.Reachable.invariant (P := fun t => t.Follows cfg db e.runId s₁) ?_ ?_ ht
      · rintro t ⟨events, hsub, rfl⟩
        refine ⟨⟨as, hexit⟩, ?_⟩
        unfold State.subscribe at hsub
        split at hsub
        · cases hsub
          exact ⟨rfl, List.nil_prefix⟩
        · rename_i hgone
          cases hsub
          obtain ⟨sent, unsent, hrec, hq, hun⟩ := queue_after hs henq hexit
          have hnone : sent = [] := by
            rw [hcond.resolve_left hgone, hun hgone, List.append_nil] at hrec
            exact hrec.symm
          rw [if_pos hgone, hnone] at hq
          show [] ++ [OutItem.endOfStream] <+: (s₂.run e.runId).outQueue
          rw [hq]
          exact List.prefix_rfl
      · intro t m t' _ hf hstep
        exact hf.step hs henq hstep
    exact hfollows.missesNothing hs henq

/-- The door takes the stream right after it has enqueued the run. -/
theorem caller_misses_nothing_held :
    ∃ s₁ : State, (State.after Demo.config Demo.ready).step Demo.config
        (.enqueueRun Demo.enqueueR) = some s₁ ∧
      ∀ t, (subscription Demo.config "r" s₁).Reachable t →
        t.MissesNothing Demo.config "r" s₁ := by
  have hends : ((State.after Demo.config Demo.ready).step Demo.config
      (.enqueueRun Demo.enqueueR)).any (fun s₁ => decide ("r" ∈ s₁.runs)) = true := by
    decide +kernel
  obtain ⟨s₁, henq, hheld⟩ := (Option.any_eq_true _ _).1 hends
  have hexit : (system Demo.config fun _ => none).exec s₁ [] = some s₁ := rfl
  exact ⟨s₁, henq, (caller_misses_nothing (reachable_after Demo.config Demo.ready) henq hexit).2
    (.inl (of_decide_eq_true hheld))⟩

/-- The run is served and ends while the door leaves its session: the caller's
stream is over at once, and the run has events. -/
theorem stream_taken_late :
    ((State.after Demo.config Demo.ready).servingOf Demo.agent).isSome = true ∧
    ∃ s₁ s₂ : State,
      (State.after Demo.config Demo.ready).step Demo.config (.enqueueRun Demo.enqueueR) =
        some s₁ ∧
      (system Demo.config fun _ => none).exec s₁ (Demo.completed.drop 4) = some s₂ ∧
      ∃ t, (subscription Demo.config "r" s₂).Reachable t ∧ t.reader = .ended [] ∧
        t.broker.recordedEvents "r" ≠ [] ∧ ¬ t.MissesNothing Demo.config "r" s₂ := by
  have hends : ((State.after Demo.config Demo.ready).step Demo.config
      (.enqueueRun Demo.enqueueR)).any (fun s₁ =>
        ((system Demo.config fun _ => none).exec s₁ (Demo.completed.drop 4)).any fun s₂ =>
          decide ("r" ∉ s₂.runs) && !(s₂.recordedEvents "r").isEmpty) = true := by
    decide +kernel
  refine ⟨by decide +kernel, ?_⟩
  obtain ⟨s₁, henq, hrest⟩ := (Option.any_eq_true _ _).1 hends
  obtain ⟨s₂, hrun, hgone⟩ := (Option.any_eq_true _ _).1 hrest
  simp only [Bool.and_eq_true, decide_eq_true_eq, Bool.not_eq_true', List.isEmpty_eq_false_iff]
    at hgone
  have htaken : (subscription Demo.config "r" s₂).Reachable ⟨s₂, .reading .noEvents []⟩ :=
    .init ⟨.noEvents, by rw [State.subscribe, if_neg hgone.1], rfl⟩
  refine ⟨s₁, s₂, henq, hrun, ⟨s₂, .ended []⟩, .step .next htaken rfl, rfl, hgone.2, ?_⟩
  intro hmiss
  exact hgone.2 (hmiss.last [] rfl).2.symm

end Reading

end Funduq.Broker
