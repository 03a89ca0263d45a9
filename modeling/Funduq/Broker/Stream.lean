import Funduq.Broker.Grammar
import Funduq.Broker.Ledger

/-!
# The stream is the record

What a subscriber of a run receives is what the database keeps of it.  An event
is numbered when its handler starts, written later, and put on the stream only
once the write has committed; a write that fails leaves a gap in the numbers and
nothing else.  So the events on the stream, with the one whose write has just
committed, are the events added to the run's row since it was enqueued, in the
order of their numbers: `Lane.Copied`, kept by every step of a run's life.
-/

namespace Funduq.Broker

open Funduq.Lib

/-- A handler numbers the event it is about to write with the next number, and
writes none otherwise. -/
theorem handle_event (cfg : Config) (command : Command) (run : Run) :
    ((handle cfg command run).2.bind Write.event = none ∧
      (handle cfg command run).1.seq = run.seq) ∨
    ∃ e, (handle cfg command run).2.bind Write.event = some (run.seq + 1, e) ∧
      (handle cfg command run).1.seq = run.seq + 1 := by
  cases command with
  | offer => exact .inl ⟨rfl, rfl⟩
  | claim => exact .inl ⟨rfl, rfl⟩
  | relayEvent event =>
      simp only [handle, handleRelay]
      split
      · exact .inl ⟨rfl, rfl⟩
      · split
        · exact .inl ⟨rfl, rfl⟩
        · rename_i e _
          right
          split
          · exact ⟨e, rfl, rfl⟩
          · split <;> exact ⟨e, rfl, rfl⟩
  | finishStream =>
      simp only [handle, handleFinish]
      split
      · exact .inr ⟨_, rfl, rfl⟩
      · exact .inl ⟨rfl, rfl⟩
  | requestCancel =>
      simp only [handle, handleCancel]
      split <;> exact .inl ⟨rfl, rfl⟩
  | fail code message => exact .inr ⟨_, rfl, rfl⟩

namespace Lane

variable {cfg : Config} {r : RunId} {a : Option Message} {l l' : Lane} {n : Nat}
  {command : Command}

/-- The event the run's handler is about to write. -/
def upcoming (l : Lane) : List (Nat × Json) := (l.pending.bind Write.event).toList

/-- The event whose write has committed and that is not on the stream yet. -/
def unsent (l : Lane) : List (Nat × Json) :=
  match l.hand with
  | some (.written w, _) => w.event.toList
  | _ => []

/-- The events on a stream. -/
def onStream (items : List OutItem) : List Json :=
  items.filterMap fun
    | .event e => some e
    | .endOfStream => none

/-- The run was enqueued with number `n`: what its row has gained since is what
is on its stream with what is about to be, numbered upwards from `n`. -/
structure Copied (n : Nat) (l : Lane) : Prop where
  home : l.home.isSome = true
  rows : ∃ row sent, l.row = some row ∧ row.events = l.trail.before ++ (sent ++ l.unsent) ∧
    onStream l.run.outQueue = sent.map Prod.snd ∧
    ((sent ++ l.unsent ++ l.upcoming).map Prod.fst).Pairwise (· < ·) ∧
    ∀ e ∈ sent ++ l.unsent ++ l.upcoming, n < e.1 ∧ e.1 ≤ l.run.seq
  seq : n ≤ l.run.seq

namespace Copied

/-- Nothing that is spoken of changes. -/
private theorem of_same (hc : l.Copied n) (hrow : l'.row = l.row)
    (hbefore : l'.trail.before = l.trail.before)
    (hout : l'.run.outQueue = l.run.outQueue)
    (hseq : l'.run.seq = l.run.seq)
    (hhome : l'.home = l.home)
    (hun : l'.unsent = l.unsent)
    (hup : l'.upcoming = l.upcoming) : l'.Copied n where
  home := by rw [hhome]; exact hc.home
  rows := by rw [hrow, hbefore, hout, hun, hup, hseq]; exact hc.rows
  seq := by rw [hseq]; exact hc.seq

/-- A command is recorded, while no write is in hand: its event, if it has one,
gets the next number. -/
private theorem record {x : Run} {ret : Ret} (hc : l.Copied n) (hun : l.unsent = [])
    (hup : l.upcoming = []) (hout : x.outQueue = l.run.outQueue)
    (hseq : x.seq = l.run.seq) :
    ({ l with run := x }.record cfg command ret).Copied n := by
  obtain ⟨row, sent, hrow, hev, hsent, hlt, hbound⟩ := hc.rows
  have hn := hc.seq
  rw [hup, hun, List.append_nil, List.append_nil] at hlt hbound
  rw [hun, List.append_nil] at hev
  -- What the handler is about to write is what it returns.
  have hup' : ({ l with run := x }.record cfg command ret).upcoming =
      ((handle cfg command x).2.bind Write.event).toList := by
    unfold upcoming pending Lane.record
    cases (handle cfg command x).2 <;> rfl
  have hun' : ({ l with run := x }.record cfg command ret).unsent = [] := by
    unfold unsent Lane.record
    cases (handle cfg command x).2 <;> rfl
  refine ⟨hc.home, ⟨row, sent, hrow, ?_, ?_, ?_, ?_⟩, ?_⟩
  · rw [hun', List.append_nil]
    exact hev
  · show onStream (handle cfg command x).1.outQueue = _
    rw [handle_outQueue, hout]
    exact hsent
  · rw [hup', hun', List.append_nil, List.map_append, List.pairwise_append]
    refine ⟨hlt, ?_, ?_⟩
    · cases (handle cfg command x).2.bind Write.event with
      | none => exact .nil
      | some e => exact List.pairwise_singleton ..
    · intro i hi j hj
      obtain ⟨e, he, rfl⟩ := List.mem_map.1 hi
      have hle := (hbound e he).2
      rcases handle_event cfg command x with ⟨h, -⟩ | ⟨ev, h, -⟩
      · rw [h] at hj
        cases hj
      · rw [h] at hj
        simp only [Option.toList_some, List.map_cons, List.map_nil, List.mem_singleton] at hj
        omega
  · rw [hup', hun', List.append_nil]
    intro e he
    show n < e.1 ∧ e.1 ≤ (handle cfg command x).1.seq
    rcases handle_event cfg command x with ⟨h, hs⟩ | ⟨ev, h, hs⟩
    · rw [h, Option.toList_none, List.append_nil] at he
      rw [hs, hseq]
      exact hbound e he
    · rw [h, Option.toList_some] at he
      rcases List.mem_append.1 he with he | he
      · have := hbound e he
        omega
      · rw [List.mem_singleton.1 he, hs]
        exact ⟨by show n < x.seq + 1; omega, le_rfl⟩
  · show n ≤ (handle cfg command x).1.seq
    rcases handle_event cfg command x with ⟨-, hs⟩ | ⟨-, -, hs⟩ <;> omega

private theorem takes {m : Message} (hc : l.Copied n) (hh : l.hand = none)
    (ht : Takes cfg r m l l') : l'.Copied n := by
  have hun : l.unsent = [] := by rw [unsent, hh]
  have hup : l.upcoming = [] := by rw [upcoming, pending, hh]; rfl
  cases ht with
  | ignored _ => exact hc
  | arrived _ _ => exact hc.of_same rfl rfl rfl rfl rfl rfl rfl
  | accepted _ _ _ => exact hc.record hun hup rfl rfl
  | refused _ _ _ => exact hc.record hun hup rfl rfl
  | declined _ _ _ => exact hc.record hun hup rfl rfl
  | lapsed _ _ _ => exact hc.record hun hup rfl rfl
  | said _ _ => exact hc.record hun hup rfl rfl
  | cancelPending _ _ _ => exact hc.of_same rfl rfl rfl rfl rfl rfl rfl
  | cancelled _ _ _ => exact hc.record hun hup rfl rfl
  | failed _ => exact hc.record hun hup rfl rfl
  | undelivered _ => exact hc.of_same rfl rfl rfl rfl rfl rfl rfl

/-- **The step.**  Whatever happens to an enqueued run, its stream stays a copy
of its record. -/
theorem step (hc : l.Copied n) (ht : Step cfg r a l l') : l'.Copied n := by
  have hidle : l.hand = none ∨ (∃ ret, l.hand = some (.returned, ret)) →
      l.unsent = [] ∧ l.upcoming = [] := by
    intro hh
    rcases hh with hh | ⟨ret, hh⟩
    · exact ⟨by rw [unsent, hh], by rw [upcoming, pending, hh]; rfl⟩
    · exact ⟨by rw [unsent, hh], by rw [upcoming, pending, hh]; rfl⟩
  cases ht with
  | opened hr =>
      obtain ⟨row, -, hrow, -⟩ := hc.rows
      exact absurd (hrow.symm.trans hr) (by simp)
  | enqueued hh _ _ _ _ =>
      have := hc.home
      rw [hh] at this
      cases this
  | cancelCalled _ => exact hc.of_same rfl rfl rfl rfl rfl rfl rfl
  | delivered c => exact hc.of_same rfl rfl rfl rfl rfl rfl rfl
  | took _ hh ht => exact Copied.takes (l := l.hear _) (hc.of_same rfl rfl rfl rfl rfl rfl rfl) hh ht
  | offered _ hh _ _ =>
      obtain ⟨hun, hup⟩ := hidle (.inl hh)
      exact Copied.record (l := { l with trail := _ })
        (hc.of_same rfl rfl rfl rfl rfl rfl rfl) hun hup rfl rfl
  | invalid _ hh _ =>
      obtain ⟨hun, hup⟩ := hidle (.inl hh)
      exact hc.record hun hup rfl rfl
  | cancelChecked _ hh _ _ =>
      obtain ⟨hun, hup⟩ := hidle (.inl hh)
      exact hc.record hun hup rfl rfl
  | @committed _ w ret row hh hr =>
      -- The event leaves the hand for the row, and waits for the stream.
      obtain ⟨row', sent, hrow, hev, hsent, hlt, hbound⟩ := hc.rows
      cases hrow.symm.trans hr
      have hun : l.unsent = [] := by rw [unsent, hh]
      have hup : l.upcoming = w.event.toList := by rw [upcoming, pending, hh]; rfl
      rw [hup, hun, List.append_nil] at hlt hbound
      rw [hun, List.append_nil] at hev
      refine ⟨hc.home, ⟨w.commit row, sent, rfl, ?_, hsent, ?_, ?_⟩, hc.seq⟩
      · show (row.with (some w)).events = _
        rw [Row.with_events, hev, List.append_assoc]
        rfl
      · show ((sent ++ w.event.toList ++ []).map Prod.fst).Pairwise (· < ·)
        rw [List.append_nil]
        exact hlt
      · show ∀ e ∈ sent ++ w.event.toList ++ [], _
        rw [List.append_nil]
        exact hbound
  | @rolledBack _ w ret hh =>
      -- The number is lost with the event.
      obtain ⟨row, sent, hrow, hev, hsent, hlt, hbound⟩ := hc.rows
      have hun : l.unsent = [] := by rw [unsent, hh]
      rw [hun, List.append_nil] at hlt hbound hev
      refine ⟨hc.home, ⟨row, sent, hrow, ?_, hsent, ?_, ?_⟩, hc.seq⟩
      · show row.events = _ ++ (sent ++ [])
        rw [List.append_nil]
        exact hev
      · show ((sent ++ [] ++ []).map Prod.fst).Pairwise (· < ·)
        rw [List.append_nil, List.append_nil]
        rw [List.map_append, List.pairwise_append] at hlt
        exact hlt.1
      · show ∀ e ∈ sent ++ [] ++ [], _
        rw [List.append_nil, List.append_nil]
        exact fun e he => hbound e (List.mem_append_left _ he)
  | @streamed _ w ret hh =>
      obtain ⟨row, sent, hrow, hev, hsent, hlt, hbound⟩ := hc.rows
      have hun : l.unsent = w.event.toList := by rw [unsent, hh]
      have hup : l.upcoming = [] := by rw [upcoming, pending, hh]; rfl
      rw [hun] at hev
      rw [hun, hup, List.append_nil] at hlt hbound
      have hhand : ∀ stops : Bool, unsent { l with
            hand := some (if stops then .notifying else .returned, ret) } = [] ∧
          upcoming { l with
            hand := some (if stops then .notifying else .returned, ret) } = [] := by
        rintro (_ | _) <;> exact ⟨rfl, rfl⟩
      obtain ⟨hun', hup'⟩ := hhand (l.run.stops w).isSome
      refine ⟨hc.home, ⟨row, sent ++ w.event.toList, hrow, ?_, ?_, ?_, ?_⟩, hc.seq⟩
      · show row.events = _ ++ (_ ++ unsent { l with hand := some (_, ret) })
        rw [hun', List.append_nil]
        exact hev
      · show onStream (l.run.outQueue ++ _) = _
        rw [onStream, List.filterMap_append, List.map_append, ← hsent]
        cases w.event <;> rfl
      · show ((_ ++ unsent { l with hand := some (_, ret) } ++
          upcoming { l with hand := some (_, ret) }).map Prod.fst).Pairwise _
        rw [hun', hup', List.append_nil, List.append_nil]
        exact hlt
      · show ∀ e ∈ _ ++ unsent { l with hand := some (_, ret) } ++
          upcoming { l with hand := some (_, ret) }, _
        rw [hun', hup', List.append_nil, List.append_nil]
        exact hbound
  | notified hh =>
      exact hc.of_same rfl rfl rfl rfl rfl (by rw [unsent, unsent, hh])
        (by rw [upcoming, upcoming, pending, pending, hh])
  | handedOver hh =>
      obtain ⟨hun, hup⟩ := hidle (.inr ⟨_, hh⟩)
      exact hc.of_same rfl rfl rfl rfl rfl hun.symm hup.symm
  | returned hh _ =>
      obtain ⟨hun, hup⟩ := hidle (.inr ⟨_, hh⟩)
      exact hc.of_same rfl rfl rfl rfl rfl hun.symm hup.symm
  | poisoned hh _ =>
      obtain ⟨hun, hup⟩ := hidle (.inr ⟨_, hh⟩)
      exact hc.record hun hup rfl rfl
  | settled hh _ =>
      obtain ⟨hun, hup⟩ := hidle (.inr ⟨_, hh⟩)
      obtain ⟨row, sent, hrow, hev, hsent, hlt, hbound⟩ := hc.rows
      obtain ⟨_, hrun⟩ := l.run.settle_run
      have hseq : l.run.settle.seq = l.run.seq := by rw [hrun]
      rw [hun] at hev
      rw [hun, hup] at hlt hbound
      refine ⟨hc.home, ⟨row, sent, hrow, hev, ?_, hlt, ?_⟩, hseq ▸ hc.seq⟩
      · show onStream l.run.settle.outQueue = _
        rw [Run.settle_outQueue, ← hsent]
        simp [onStream]
      · show ∀ e ∈ sent ++ [] ++ [], n < e.1 ∧ e.1 ≤ l.run.settle.seq
        rw [hseq]
        exact hbound

end Copied

end Lane

/-- A run that has left the broker has nothing in hand. -/
theorem Lane.unsent_of_left {l : Lane} (hs : l.Sound) (hheld : l.held = false) :
    l.unsent = [] := by
  cases hh : l.hand with
  | none => rw [unsent, hh]
  | some x =>
      obtain ⟨ph, ret⟩ := x
      have := hs.held (hs.live_of_hand hh)
      rw [hheld] at this
      cases this

/-! ## Every stream -/

section Streams

variable {cfg : Config} {db : RunId → Option Row} {s s₁ s₂ : State} {e : Enqueue}
  {as : List Action}

/-- The event of run `r` whose write has committed and that its handler has
still to put on the stream. -/
def State.unsent (s : State) (r : RunId) : List (Nat × Json) := (s.lane r).unsent

/-- A run just enqueued has an empty stream, and nothing in its row is new. -/
theorem copied_enqueueRun (hs : Reachable cfg db s)
    (henq : s.step cfg (.enqueueRun e) = some s₁) :
    (s₁.lane e.runId).Copied e.seq ∧
      (s.rows e.runId).map Row.events = some (s₁.trail e.runId).before := by
  have hpath : Lane.Path cfg e.runId (s.lane e.runId) (s₁.lane e.runId) :=
    (hs.refines_step henq).lane e.runId
  simp only [State.step] at henq
  split at henq
  · rename_i hmay
    cases henq
    simp only [State.mayEnqueue, Bool.and_eq_true, Option.isNone_iff_eq_none] at hmay
    have hnew : (s.lane e.runId).home = none := hmay.1.2
    have hhand : (s.lane e.runId).hand = none := by
      show (s.lane e.runId).home.bind _ = none
      rw [hnew]
      rfl
    have hhome : ((s.enqueueRun e).lane e.runId).home.isSome = true := by
      simp [State.enqueueRun, State.lane]
    have hrun : ((s.enqueueRun e).lane e.runId).run.seq = e.seq := by
      simp [State.enqueueRun, State.lane, State.newRun]
    show _ ∧ (s.lane e.runId).row.map Row.events =
      some ((s.enqueueRun e).lane e.runId).trail.before
    generalize (s.enqueueRun e).lane e.runId = l' at hpath hhome hrun
    -- The one step of its life that gives a run a home.
    cases hpath with
    | refl => exact absurd (hnew ▸ hhome) (by simp)
    | single ht =>
        cases ht with
        | @enqueued _ run row h hh hf hr hq hle =>
            refine ⟨⟨hhome, ⟨row, [], hr, ?_, ?_, ?_, ?_⟩, hrun.ge⟩, ?_⟩
            · simp [Lane.unsent, hhand]
            · rw [hf]
              rfl
            · simp [Lane.unsent, Lane.upcoming, Lane.pending, hhand]
            · simp [Lane.unsent, Lane.upcoming, Lane.pending, hhand]
            · rw [hr]
              rfl
        | _ => exact absurd (hnew ▸ hhome) (by simp)
  · cases henq

/-- Where nothing but events and one `END_OF_STREAM` is on a stream, the events
are what `onStream` reads off it. -/
theorem onStream_append {events : List Json} {b : Prop} [Decidable b] :
    Lane.onStream (events.map OutItem.event ++ if b then [.endOfStream] else []) = events := by
  split <;> simp [Lane.onStream, List.filterMap_map]

/-- The stream of a run that was enqueued stays a copy of its record, and its row
keeps the events it had. -/
theorem copied_after (hs : Reachable cfg db s) (henq : s.step cfg (.enqueueRun e) = some s₁)
    (hrun : (system cfg db).exec s₁ as = some s₂) :
    (s₂.lane e.runId).Copied e.seq ∧
      (s₂.trail e.runId).before = (s₁.trail e.runId).before := by
  have hs₁ : Reachable cfg db s₁ := System.Reachable.step (.enqueueRun e) hs henq
  obtain ⟨hcopied, -⟩ := copied_enqueueRun hs henq
  refine hs₁.lane_along (P := fun l => l.Copied e.seq ∧
    l.trail.before = (s₁.lane e.runId).trail.before) ?_ ⟨hcopied, rfl⟩ hrun
  rintro a l l' hl ⟨hc, hb⟩ hstep
  refine ⟨hc.step hstep, ?_⟩
  rw [← hb]
  cases hstep.writes hl with
  | opened _ he => rw [he]
  | enqueued hh _ _ _ _ =>
      have := hc.home
      rw [hh] at this
      cases this
  | kept hk => exact hk.before
  | entered hc => exact hc.before
  | lost _ he => rw [he]

/-- **Main result.**  From the moment a run is enqueued, under every interleaving
and whichever writes fail, the events put on its stream are the events its row
has gained since, in order, but for one whose write has just committed; once the
stream has ended they are all of them.  Their numbers go up and start above the
one the run was enqueued with. -/
theorem stream_is_record (hs : Reachable cfg db s)
    (henq : s.step cfg (.enqueueRun e) = some s₁)
    (hrun : (system cfg db).exec s₁ as = some s₂) :
    ∃ before sent : List (Nat × Json),
      (s.rows e.runId).map Row.events = some before ∧
      (s₂.rows e.runId).map Row.events = some (before ++ (sent ++ s₂.unsent e.runId)) ∧
      (s₂.run e.runId).outQueue = (sent.map fun ev => .event ev.2) ++
        (if e.runId ∉ s₂.runs then [.endOfStream] else []) ∧
      (e.runId ∉ s₂.runs → s₂.unsent e.runId = []) ∧
      ((sent ++ s₂.unsent e.runId).map Prod.fst).Pairwise (· < ·) ∧
      ∀ ev ∈ sent ++ s₂.unsent e.runId, e.seq < ev.1 := by
  have hs₁ : Reachable cfg db s₁ := System.Reachable.step (.enqueueRun e) hs henq
  have hs₂ : Reachable cfg db s₂ := hs₁.exec hrun
  obtain ⟨-, hbefore⟩ := copied_enqueueRun hs henq
  obtain ⟨hcopied, hsame⟩ := copied_after hs henq hrun
  obtain ⟨row, sent, hrow, hev, hsent, hlt, hbound⟩ := hcopied.rows
  obtain ⟨events, hout⟩ := reachable_streamed hs₂ e.runId
  rw [hout, onStream_append] at hsent
  refine ⟨(s₁.trail e.runId).before, sent, hbefore, ?_, ?_, ?_, ?_, ?_⟩
  · show (s₂.lane e.runId).row.map Row.events = _
    rw [hrow, Option.map_some, hev, ← hsame]
    rfl
  · show (s₂.lane e.runId).run.outQueue = _
    rw [hout, hsent, List.map_map]
    simp only [hcopied.home, true_and]
    simp [State.lane, Function.comp_def]
  · intro hgone
    exact Lane.unsent_of_left ((reachable_sound hs₂).2 e.runId) (by simpa [State.lane] using hgone)
  · rw [List.map_append, List.pairwise_append] at hlt
    exact hlt.1
  · exact fun ev hmem => (hbound ev (List.mem_append_left _ hmem)).1

/-- A run's row is written, and the provider that will serve it is there. -/
def Demo.ready : List Action :=
  [.start, .registerProvider [(Demo.agent, Demo.link)], .openRow "r"]

def Demo.enqueueR : Enqueue :=
  { runId := "r", agent := Demo.agent, threadId := "t", inputJson := .null }

/-- A run that was enqueued, served and ended. -/
theorem stream_is_record_completed :
    ∃ s₁ s₂ : State,
      (State.after Demo.config Demo.ready).step Demo.config (.enqueueRun Demo.enqueueR) =
        some s₁ ∧
      (system Demo.config fun _ => none).exec s₁ (Demo.completed.drop 4) = some s₂ ∧
      ∃ sent : List (Nat × Json), (s₂.rows "r").map Row.events = some sent ∧ sent ≠ [] ∧
        (s₂.run "r").outQueue = (sent.map fun ev => .event ev.2) ++ [.endOfStream] := by
  have hends : ((State.after Demo.config Demo.ready).step Demo.config
      (.enqueueRun Demo.enqueueR)).any (fun s₁ =>
        ((system Demo.config fun _ => none).exec s₁ (Demo.completed.drop 4)).any fun s₂ =>
          decide ("r" ∉ s₂.runs) && (s₂.run "r").outQueue.length = 2) = true := by
    decide +kernel
  obtain ⟨s₁, henq, hrest⟩ := (Option.any_eq_true _ _).1 hends
  obtain ⟨s₂, hrun, hgone⟩ := (Option.any_eq_true _ _).1 hrest
  simp only [Bool.and_eq_true, decide_eq_true_eq] at hgone
  obtain ⟨before, sent, hb, hrow, hout, hun, -⟩ :=
    stream_is_record (reachable_after Demo.config Demo.ready) henq hrun
  have hun' : s₂.unsent "r" = [] := hun hgone.1
  have hbefore : before = [] := by
    have : ((State.after Demo.config Demo.ready).rows "r").map Row.events = some [] := rfl
    exact (Option.some.inj (this.symm.trans hb)).symm
  have hgone' : Demo.enqueueR.runId ∉ s₂.runs := hgone.1
  rw [if_pos hgone'] at hout
  have hlen : (s₂.run "r").outQueue.length = 2 := hgone.2
  refine ⟨s₁, s₂, henq, hrun, sent, ?_, ?_, hout⟩
  · have hrow' : (s₂.rows "r").map Row.events = some (before ++ (sent ++ s₂.unsent "r")) := hrow
    rw [hrow', hbefore, hun', List.append_nil, List.nil_append]
  · rintro rfl
    have hout' : (s₂.run "r").outQueue = [.endOfStream] := hout
    rw [hout'] at hlen
    cases hlen

end Streams

end Funduq.Broker
