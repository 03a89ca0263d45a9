import Funduq.Broker.Lane
import Funduq.Broker.Roll

/-!
# What a handler's move amounts to

A handler's coroutine goes from one stopping point to the next in one move.
`Moves` says everything the rest of the development needs of a move, whichever
branch of whichever function made it: what it wrote (`Did`), that the desk is in
order afterwards, how the lane of the run it was about changed, and that it left
nobody asleep who could be served (`Wakes`).  The theorems below go through the
code branch by branch, once.
-/

namespace Funduq.Broker

open Funduq.Lib

/-- The coroutine will come to `_advance` before it next waits for a message. -/
def Task.awake : Task → Bool
  | .at .loop => false
  | .at _ => true
  | .recording _ _ _ k => k ≠ .loop
  | .idle => false
  | .finished => false

/-- The coroutine has been to `_advance` since it last waited for a message. -/
def Task.resting : Task → Bool
  | .at k => k = .loop
  | .recording _ _ _ k => k = .loop
  | .idle => false
  | .finished => false

theorem Task.not_awake_of_resting {t : Task} (h : t.resting = true) : t.awake = false := by
  cases t with
  | «at» k => cases k <;> first | rfl | cases h
  | recording _ _ _ k => cases k <;> first | rfl | cases h
  | _ => rfl

@[simp] theorem handle_unoffered (cfg : Config) (command : Command) (run : Run) :
    (handle cfg command run).1.unoffered = run.unoffered := by
  simp [Run.unoffered]

/-- A desk does not see what is recorded. -/
theorem Run.SameDesk.handle {a b : Run} (hab : a.SameDesk b) (cfg : Config)
    (command : Command) : a.SameDesk (handle cfg command b).1 where
  unoffered := by rw [handle_unoffered]; exact hab.unoffered
  isInterjection := by rw [handle_isInterjection]; exact hab.isInterjection
  addressed := by rw [handle_addressedRunId]; exact hab.addressed
  claimed := by rw [handle_claimedBy]; exact hab.claimed

namespace State

variable {cfg : Config} {s s' : State} {h : HandlerId} {r x : RunId} {w : Sheet}

/-- The thread's turn is free, and the run at the head of its queue could be
offered. -/
def Wanting (s : State) (h : HandlerId) : Prop :=
  ∃ r, (s.queue h).head? = some r ∧ (s.run r).unoffered = true ∧
    s.Servable (s.run r).agent

/-- A move that frees a place, or stops short of a run that could be offered,
does so on the way to settling a run; or it leaves things as they were. -/
structure Wakes (s : State) (h : HandlerId) (r : RunId) (w : Sheet) (s' : State) : Prop where
  ending : ∀ x, (s.task h).ending x → ∃ y, w.task.ending y
  place : (∀ k, (s.run r).place k ≤ w.run.place k) ∨ ∃ y, w.task.ending y
  mover : w.task.awake = true ∨ (∃ y, w.task.ending y) ∨ ¬ s'.Wanting h ∨
    (s.task h).resting = true ∧ w.queue = s.queue h ∧
      w.run.unoffered = (s.run r).unoffered ∧ w.run.agent = (s.run r).agent

/-- One move of handler `h`, about run `r`, that leaves the sheet `w` and changes
the run's lane as `R` says. -/
structure Moved (R : Lane → Lane → Prop) (s : State) (h : HandlerId) (r : RunId) (w : Sheet)
    (s' : State) : Prop where
  did : s.Did h r w s'
  follows : w.Follows (s.sheet h r)
  live : r ∈ s.live h ∨ w.run = s.run r
  unfinished : w.task ≠ .finished
  desk : DeskOk (Function.update s.run r w.run) w.queue (s.live h) w.task
  hands : ∀ x, x ≠ r → w.task.hand x = (s.task h).hand x
  room : ∀ k, w.run.place k ≤ (s.run r).place k ∨ (s.provider k).hasRoom = true
  wakes : s.Wakes h r w s'
  lane : R (s.lane r) (s'.lane r)

/-- A move keeps the invariant. -/
theorem Moved.inv {R : Lane → Lane → Prop} (hm : s.Moved R h r w s') (hs : InvBut h s)
    (hf : s.task h ≠ .finished) : Inv s' := by
  refine hs.did hm.did hm.follows (hm.live.imp_right fun h => ?_) ?_ hm.desk
  · rw [h]
    exact ⟨.refl _, rfl⟩
  · exact ⟨fun h => absurd h hm.unfinished, fun h => absurd h hf⟩

/-- One move of handler `h`. -/
def Moves (R : RunId → Lane → Lane → Prop) (s : State) (h : HandlerId) (s' : State) : Prop :=
  ∃ r w, s.Moved (R r) h r w s'

/-! ## Lanes -/

namespace Did

theorem rows (hd : s.Did h r w s') : s'.rows r = w.row := congrArg Sheet.row hd.sheet

theorem task (hd : s.Did h r w s') : s'.task h = w.task := congrArg Sheet.task hd.sheet

/-- The lane of the run that was worked on. -/
theorem lane (hd : s.Did h r w s') (hr : s.home r = some h) :
    s'.lane r = { s.lane r with
      run := w.run
      trail := w.trail
      row := w.row
      hand := w.task.hand r } := by
  obtain ⟨o, rfl, -⟩ := hd
  simp [State.lane, hr]

/-- The lanes of the other runs. -/
theorem lane_of_ne (hd : s.Did h r w s') (hx : x ≠ r)
    (hh : w.task.hand x = (s.task h).hand x) : s'.lane x = s.lane x := by
  obtain ⟨o, rfl, -⟩ := hd
  cases hhome : s.home x with
  | none => simp [State.lane, hhome, hx]
  | some h' =>
      by_cases he : h' = h
      · subst he
        simp [State.lane, hhome, hx, hh]
      · simp [State.lane, hhome, hx, he]

end Did

/-- Only the handler's task has changed, and it still has nothing in hand. -/
theorem lane_setTask {t : Task} (hh : t.hand r = (s.task h).hand r) :
    (s.setTask h t).lane r = s.lane r := by
  cases hhome : s.home r with
  | none => simp [lane, hhome]
  | some h' =>
      by_cases he : h' = h
      · subst he
        simp [lane, hhome, hh]
      · simp [lane, hhome, he]

theorem lane_live (hr : s.home r = some h) : (s.lane r).live = true ↔ r ∈ s.live h := by
  simp [lane, hr]

theorem lane_hand (hr : s.home r = some h) : (s.lane r).hand = (s.task h).hand r := by
  simp [lane, hr]

/-! ## Messages -/

section Messages

variable {R : Lane → Lane → Prop} {run : Run} {command : Command} {ret : Ret}

/-- A move that ends in a call of `_record`, with nothing written but the run. -/
theorem moved_record {k : Cont} (hs : Inv s) (hl : r ∈ s.live h)
    (he : ∀ x, ¬ (s.task h).ending x) (hh : ∀ x, x ≠ r → (s.task h).hand x = none)
    (hd : s.Did h r ({ s.sheet h r with run := run }.record cfg r command ret k) s')
    (ht : run.threadId = (s.run r).threadId) (hset : run.settled = (s.run r).settled)
    (hp : run.offeredTo = (s.run r).offeredTo ∨ run.offeredTo = none ∧ ret = .settle)
    (hk : k ≠ .loop)
    (hdesk : ∀ ph, DeskOk (Function.update s.run r (handle cfg command run).1) (s.queue h)
      (s.live h) (.recording r ph ret k))
    (hR : R (s.lane r) ({ s.lane r with run := run }.record cfg command ret)) :
    s.Moved R h r ({ s.sheet h r with run := run }.record cfg r command ret k) s' where
  did := hd
  follows := .record ⟨ht, hset, rfl⟩
  live := .inl hl
  unfinished := nofun
  desk := hdesk _
  hands x hx := by
    rw [hh x hx]
    exact if_neg fun e => hx e.symm
  room k := by
    refine .inl ?_
    rcases hp with hp | ⟨hp, -⟩ <;> simp [Sheet.record, Run.place, hp]
  wakes :=
    { ending := fun x hx => absurd hx (he x)
      place := by
        rcases hp with hp | ⟨-, rfl⟩
        · refine .inl fun k => ?_
          simp [Sheet.record, Run.place, hp]
        · exact .inr ⟨r, rfl⟩
      mover := .inl (by simpa [Sheet.record, Task.awake] using hk) }
  lane := by
    rw [hd.lane (hs.roll.home_of_live hl)]
    simpa [Sheet.record, Lane.record, Task.hand, sheet, lane] using hR

/-- A move that ends between two calls, with nothing written but the run, where
no desk sees it. -/
theorem moved_at {k : Cont} (hs : Inv s) (he : ∀ x, ¬ (s.task h).ending x)
    (hh : ∀ x, x ≠ r → (s.task h).hand x = none) (hr : s.home r = some h)
    (hd : s.Did h r { s.sheet h r with run := run, task := .at k } s')
    (hl : r ∈ s.live h ∨ run = s.run r)
    (ht : run.threadId = (s.run r).threadId) (hset : run.settled = (s.run r).settled)
    (hp : run.offeredTo = (s.run r).offeredTo) (ha : run.agent = (s.run r).agent)
    (hrun : (s.run r).SameDesk run) (hk : k ≠ .loop ∨ (s.task h).resting = true)
    (hc : ContOk s.run (s.queue h) (s.live h) k)
    (hR : R (s.lane r) { s.lane r with run := run, hand := none }) :
    s.Moved R h r { s.sheet h r with run := run, task := .at k } s' where
  did := hd
  follows := ⟨ht, hset, rfl⟩
  live := hl
  unfinished := nofun
  desk := by
    have hdesk : DeskOk s.run (s.queue h) (s.live h) (.at k) := (hs.desk h).retask he hc
    exact hdesk.update hrun
  hands x hx := (hh x hx).symm
  room k := .inl (by simp [Run.place, hp])
  wakes :=
    { ending := fun x hx => absurd hx (he x)
      place := .inl fun k => by simp [Run.place, hp]
      mover := by
        rcases hk with hk | hk
        · exact .inl (by cases k <;> first | rfl | exact absurd rfl hk)
        · exact .inr (.inr (.inr ⟨hk, rfl, hrun.unoffered.symm, ha⟩)) }
  lane := by
    rw [hd.lane hr]
    exact hR

/-- A move that is about no run: the handler only turns to something else. -/
theorem moves_turn {R : RunId → Lane → Lane → Prop} {t : Task} (hs : Inv s)
    (he : ∀ x, ¬ (s.task h).ending x) (hh : ∀ x, (s.task h).hand x = none)
    (ht : ∀ x, t.hand x = none) (hf : t ≠ .finished)
    (hb : TaskOk s.run (s.queue h) (s.live h) t)
    (hm : t.awake = true ∨ ¬ s.Wanting h ∨ (s.task h).resting = true)
    (hR : ∀ l, R "" l l) : s.Moves R h (s.setTask h t) := by
  have hd : s.Did h "" { s.sheet h "" with task := t } (s.setTask h t) :=
    (Did.refl s h "").setTask
  refine ⟨"", { s.sheet h "" with task := t }, hd, ⟨rfl, rfl, rfl⟩, .inr rfl, hf, ?_,
    fun x _ => (ht x).trans (hh x).symm, fun _ => .inl (Nat.le_refl _), ⟨fun x hx => absurd hx (he x),
      .inl fun _ => Nat.le_refl _, ?_⟩, ?_⟩
  · exact ((hs.desk h).retask he hb).update (.refl _)
  · rcases hm with hm | hm | hm
    · exact .inl hm
    · exact .inr (.inr (.inl hm))
    · exact .inr (.inr (.inr ⟨hm, rfl, rfl, rfl⟩))
  · rw [lane_setTask ((ht "").trans (hh "").symm)]
    exact hR _

variable {m : Message}

/-- What a message does to the lane of the run it is about, and to no other. -/
def Hears (cfg : Config) (m : Message) (r : RunId) (l l' : Lane) : Prop :=
  m.runId? = some r ∧ Lane.Takes cfg r m l l' ∨ m.runId? = none ∧ l' = l

/-- The handler lets the message pass. -/
theorem moves_ignored (hs : Inv s) (hi : s.task h = .idle) (hm : m.runId? = some r)
    (hr : s.home r = some h) (hg : (s.lane r).Ignores m) :
    s.Moves (Hears cfg m) h (s.setTask h (.at .advance)) := by
  have hhand : (s.lane r).hand = none := by
    rw [lane_hand hr, hi]
    rfl
  refine ⟨r, _, moved_at hs (by simp [hi, Task.ending]) (by simp [hi, Task.hand]) hr
    ((Did.refl s h r).setTask) (.inr rfl) rfl rfl rfl rfl (.refl _) (.inl nofun) trivial
    (.inl ⟨hm, ?_⟩)⟩
  rw [← hhand]
  exact .ignored hg

/-- A verdict on the offer that is open to its key. -/
theorem moves_answered {key : Key} {answer : Verdict} (hs : Inv s) (hi : s.task h = .idle)
    (hl : r ∈ s.live h) (ho : (s.run r).verdictOpen = true)
    (hk : (s.run r).offeredTo = some key) (hc : (s.run r).claimedBy = none) :
    s.Moves (Hears cfg (.answered r key answer)) h (s.onAnswered cfg h r key answer) := by
  have hheld := hs.roll.held_of_live hl
  have hreg : s.handlers r = true := (hs.roll.registered r).2 hheld
  have hlane : (s.lane r).live = true := (lane_live (hs.roll.home_of_live hl)).2 hl
  have hdesk := hi ▸ hs.desk h
  have he : ∀ x, ¬ (s.task h).ending x := by simp [hi, Task.ending]
  have hh : ∀ x, x ≠ r → (s.task h).hand x = none := by simp [hi, Task.hand]
  cases answer with
  | accepted =>
      refine ⟨r, _, moved_record hs hl he hh (did_accepted hreg hl ho hk) rfl rfl (.inl rfl)
        (by simp) (fun ph => hdesk.claims hl ?_ ?_ ?_ ?_) (.inl ⟨rfl, .accepted hlane ho hk⟩)⟩
      · simp [Run.unoffered, ho]
      · simp [Run.unoffered, Run.accept]
      · simp [Run.accept]
      · simp [Run.accept, Run.close]
  | refusal reason =>
      refine ⟨r, _, moved_record hs hl he hh
        (did_refused hreg (hs.funded hheld) hl ho hk) rfl rfl (.inr ⟨rfl, rfl⟩)
        (by simp)
        (fun ph => hdesk.turnedDown hl ?_ ?_) (.inl ⟨rfl, .refused hlane ho hk⟩)⟩
      · simp [Run.unoffered, Run.turnDown, Run.close, Run.release, hc]
      · simp [Run.turnDown, Run.close, Run.release]
  | declined =>
      refine ⟨r, _, moved_record hs hl he hh
        (did_declined hs.roll.atHome hreg (hs.funded hheld) hl ho hk) rfl rfl (.inr ⟨rfl, rfl⟩)
        (by simp)
        (fun ph => hdesk.turnedDown hl ?_ ?_) (.inl ⟨rfl, .declined hlane ho hk⟩)⟩
      · simp [Run.unoffered, Run.turnDown, Run.close, Run.release, hc]
      · simp [Run.turnDown, Run.close, Run.release]

theorem moves_lapsed {offerId : Nat} (hs : Inv s) (hi : s.task h = .idle)
    (hl : r ∈ s.live h) (ho : (s.run r).verdictOpen = true)
    (hn : (s.run r).offerId = offerId) (hc : (s.run r).claimedBy = none) :
    s.Moves (Hears cfg (.offerLapsed r offerId)) h (s.onOfferLapsed cfg h r offerId) := by
  have hheld := hs.roll.held_of_live hl
  have hreg : s.handlers r = true := (hs.roll.registered r).2 hheld
  have hdesk := hi ▸ hs.desk h
  refine ⟨r, _, moved_record hs hl (by simp [hi, Task.ending]) (by simp [hi, Task.hand])
    (did_lapsed hs.roll.atHome hreg (hs.funded hheld) hl ho hn) rfl rfl (.inr ⟨rfl, rfl⟩)
    nofun
    (fun ph => hdesk.turnedDown hl ?_ ?_)
    (.inl ⟨rfl, .lapsed ((lane_live (hs.roll.home_of_live hl)).2 hl) ho hn⟩)⟩
  · simp [Run.unoffered, Run.lapse, Run.turnDown, Run.close, Run.release, hc]
  · simp [Run.lapse, Run.turnDown, Run.close, Run.release]

/-- A record that the handler's desk does not see. -/
theorem moves_unseen {R : RunId → Lane → Lane → Prop} (run : Run) (hs : Inv s)
    (he : ∀ x, ¬ (s.task h).ending x) (hh : ∀ x, x ≠ r → (s.task h).hand x = none)
    (hl : r ∈ s.live h)
    (hd : s.Did h r ({ s.sheet h r with run := run }.record cfg r command ret .advance) s')
    (ht : run.threadId = (s.run r).threadId) (hset : run.settled = (s.run r).settled)
    (hp : run.offeredTo = (s.run r).offeredTo) (hrun : (s.run r).SameDesk run)
    (hret : RetOk s.run (s.queue h) r ret .advance)
    (hR : R r (s.lane r) ({ s.lane r with run := run }.record cfg command ret)) :
    s.Moves R h s' := by
  refine ⟨r, _, moved_record hs hl he hh hd ht hset (.inl hp) nofun (fun ph => ?_) hR⟩
  have hdesk : DeskOk s.run (s.queue h) (s.live h) (.recording r ph ret .advance) :=
    (hs.desk h).retask he ⟨hl, hret, trivial, trivial⟩
  exact hdesk.update (hrun.handle cfg command)

theorem moves_said {key : Key} {report : Report} (hs : Inv s) (hi : s.task h = .idle)
    (hl : r ∈ s.live h) (hk : (s.run r).claimedBy = some key) :
    s.Moves (Hears cfg (.said r key report)) h (s.onSaid cfg h r key report) :=
  moves_unseen _ hs (by simp [hi, Task.ending]) (by simp [hi, Task.hand]) hl
    (did_said ((hs.roll.registered r).2 (hs.roll.held_of_live hl)) hl hk) rfl rfl rfl (.refl _)
    rfl (.inl ⟨rfl, .said ((lane_live (hs.roll.home_of_live hl)).2 hl) hk⟩)

theorem moves_cancelAsked (hs : Inv s) (hi : s.task h = .idle) (hl : r ∈ s.live h)
    (ha : s.cancelCalled r = true) :
    s.Moves (Hears cfg (.cancelAsked r)) h (s.onCancelAsked cfg h r) := by
  have hlane : (s.lane r).live = true := (lane_live (hs.roll.home_of_live hl)).2 hl
  have he : ∀ x, ¬ (s.task h).ending x := by simp [hi, Task.ending]
  have hh : ∀ x, (s.task h).hand x = none := by simp [hi, Task.hand]
  have hsame : (s.run r).SameDesk (s.run r).askCancel := ⟨rfl, rfl, rfl, rfl⟩
  cases ho : (s.run r).verdictOpen with
  | true =>
      refine ⟨r, _, moved_at hs he (fun x _ => hh x) (hs.roll.home_of_live hl)
        (did_cancelPending hl ho) (.inl hl) rfl rfl rfl rfl hsame (.inl (by simp)) trivial
        (.inl ⟨rfl, ?_⟩)⟩
      rw [← hh r, ← lane_hand (hs.roll.home_of_live hl)]
      exact .cancelPending hlane ha ho
  | false =>
      refine moves_unseen _ hs he (fun x _ => hh x) hl
        (did_cancelled ((hs.roll.registered r).2 (hs.roll.held_of_live hl)) hl ho) rfl rfl rfl
        hsame ?_ (.inl ⟨rfl, .cancelled hlane ha ho⟩)
      cases (s.run r).claimedBy <;> trivial

theorem moves_failed {code : String} {message : Option String} (hs : Inv s)
    (hi : s.task h = .idle) (hl : r ∈ s.live h) :
    s.Moves (Hears cfg (.trusted r (.fail code message))) h
      (s.onTrusted cfg h r (.fail code message)) :=
  moves_unseen _ hs (by simp [hi, Task.ending]) (by simp [hi, Task.hand]) hl
    (did_failed hs.roll.atHome ((hs.roll.registered r).2 (hs.roll.held_of_live hl)) hl) rfl rfl
    rfl ⟨rfl, rfl, rfl, rfl⟩ trivial
    (.inl ⟨rfl, .failed ((lane_live (hs.roll.home_of_live hl)).2 hl)⟩)

theorem moves_undelivered (hs : Inv s) (hi : s.task h = .idle) (hl : r ∈ s.live h) :
    s.Moves (Hears cfg (.undelivered r)) h (s.onUndelivered cfg h r) := by
  have hhome := hs.roll.home_of_live hl
  have hh : ∀ x, (s.task h).hand x = none := by simp [hi, Task.hand]
  refine ⟨r, _, moved_at hs (by simp [hi, Task.ending]) (fun x _ => hh x) hhome
    (did_undelivered hs.roll.atHome hl) (.inl hl) rfl rfl rfl rfl ⟨rfl, rfl, rfl, rfl⟩
    (.inl (by simp)) trivial (.inl ⟨rfl, ?_⟩)⟩
  rw [← hh r, ← lane_hand hhome]
  exact .undelivered ((lane_live hhome).2 hl)

/-- **A message is taken.**  Whatever it is, but for a `_Queued`, its handler
makes one move, about the run the message is about. -/
theorem moves_onMessage (hs : Inv s) (hi : s.task h = .idle)
    (hv : ∀ r ∈ s.live h, (s.run r).verdictOpen = true → (s.run r).claimedBy = none)
    (hn : s.News h m) : s.Moves (Hears cfg m) h (s.onMessage cfg h m) := by
  have hhome : ∀ r, m.runId? = some r → s.home r = some h := hn.at_home
  have hlive : ∀ r, m.runId? = some r → ((s.lane r).live = true ↔ r ∈ s.live h) :=
    fun r hr => lane_live (hhome r hr)
  have hdead : ∀ r, m.runId? = some r → r ∉ s.live h → (s.lane r).live = false :=
    fun r hr hl => Bool.eq_false_iff.2 fun h => hl ((hlive r hr).1 h)
  cases m with
  | queued r => exact absurd hn.no_arrival nofun
  | answered r key answer =>
      by_cases hg : r ∈ s.live h ∧ (s.run r).verdictOpen = true ∧
          (s.run r).offeredTo = some key
      · exact moves_answered hs hi hg.1 hg.2.1 hg.2.2 (hv r hg.1 hg.2.1)
      · have he : s.onAnswered cfg h r key answer = s.setTask h (.at .advance) := if_neg hg
        rw [onMessage, he]
        exact moves_ignored hs hi rfl (hhome r rfl)
          fun hc => hg ⟨(hlive r rfl).1 hc.1, hc.2⟩
  | said r origin report =>
      by_cases hg : r ∈ s.live h ∧ (s.run r).claimedBy = some origin
      · exact moves_said hs hi hg.1 hg.2
      · have he : s.onSaid cfg h r origin report = s.setTask h (.at .advance) := if_neg hg
        rw [onMessage, he]
        exact moves_ignored hs hi rfl (hhome r rfl)
          fun hc => hg ⟨(hlive r rfl).1 hc.1, hc.2⟩
  | trusted r command =>
      obtain ⟨code, message, rfl⟩ := hn.only_fail r command rfl
      by_cases hl : r ∈ s.live h
      · exact moves_failed hs hi hl
      · have he : s.onTrusted cfg h r (.fail code message) = s.setTask h (.at .advance) :=
          if_neg hl
        rw [onMessage, he]
        exact moves_ignored hs hi rfl (hhome r rfl) (hdead r rfl hl)
  | cancelAsked r =>
      by_cases hl : r ∈ s.live h
      · exact moves_cancelAsked hs hi hl (hn.asked r rfl)
      · have he : s.onCancelAsked cfg h r = s.setTask h (.at .advance) := if_neg hl
        rw [onMessage, he]
        exact moves_ignored hs hi rfl (hhome r rfl) (hdead r rfl hl)
  | offerLapsed r offerId =>
      by_cases hg : r ∈ s.live h ∧ (s.run r).verdictOpen = true ∧ (s.run r).offerId = offerId
      · exact moves_lapsed hs hi hg.1 hg.2.1 hg.2.2 (hv r hg.1 hg.2.1)
      · have he : s.onOfferLapsed cfg h r offerId = s.setTask h (.at .advance) := if_neg hg
        rw [onMessage, he]
        exact moves_ignored hs hi rfl (hhome r rfl)
          fun hc => hg ⟨(hlive r rfl).1 hc.1, hc.2⟩
  | undelivered r =>
      by_cases hl : r ∈ s.live h
      · exact moves_undelivered hs hi hl
      · have he : s.onUndelivered cfg h r = s.setTask h (.at .advance) := by
          unfold onUndelivered
          split
          · rfl
          · rw [if_neg fun hc => hl hc.1]
        rw [onMessage, he]
        exact moves_ignored hs hi rfl (hhome r rfl) (hdead r rfl hl)
  | poke =>
      exact moves_turn hs (by simp [hi, Task.ending]) (by simp [hi, Task.hand]) (fun _ => rfl)
        nofun trivial (.inl rfl) fun l => .inr ⟨rfl, rfl⟩

end Messages

/-! ## Offers -/

/-- One step of the run's life, or none. -/
def Goes (cfg : Config) (r : RunId) (l l' : Lane) : Prop := l' = l ∨ Lane.Step cfg r none l l'

section Offers

variable {q : List RunId} {i : Bool} {k : Cont}

theorem offerNote_proper {c : Connection} (hq : s'.queue h = q)
    (hroom : (s'.provider c.publicKey).hasRoom = true)
    (hj : i = true → ∃ head, q.head? = some head ∧ (s'.run head).claimedBy.isSome = true ∧
      (s'.run r).addressedRunId = some head) :
    (s'.offerNote h c.publicKey i).Proper (s'.run r) c i where
  key := rfl
  kind := rfl
  room n hn := by
    change (s'.provider c.publicKey).declared = some n at hn
    change (s'.provider c.publicKey).inFlight < n
    simpa [ProviderHandler.hasRoom, hn] using hroom
  joins hi := by
    obtain ⟨head, hhead, hc, ha⟩ := hj hi
    simp [offerNote, hq, hhead, hc, ha]

/-- `_offer`, on a desk that is ready for it. -/
theorem moves_offer (hs : Roll s) (he : ∀ x, ¬ (s.task h).ending x)
    (hh : ∀ x, (s.task h).hand x = none)
    (hd : DeskOk.Ready s.run q (s.live h) r i k) (hk : i = true → k ≠ .loop)
    (hj : i = true → ∃ head, q.head? = some head ∧ (s.run head).claimedBy.isSome = true ∧
      (s.run r).addressedRunId = some head) :
    s.Moves (Goes cfg) h ((s.setQueue h q).offer cfg h r i k) := by
  have hhome := hs.home_of_live hd.mem
  have hreg : (s.setQueue h q).handlers r = true :=
    (hs.registered r).2 (hs.held_of_live hd.mem)
  have ho : ((s.setQueue h q).run r).offeredTo = none := by
    have := hd.unoffered
    simp only [Run.unoffered, Bool.and_eq_true, Option.isNone_iff_eq_none] at this
    exact this.2
  have hplace : ∀ k, (s.run r).place k = 0 := fun k => by
    rw [Run.place, if_neg]
    rw [show (s.run r).offeredTo = none from ho]
    simp
  have hlane : (s.lane r).live = true := (lane_live hhome).2 hd.mem
  have hhand : (s.lane r).hand = none := (lane_hand hhome).trans (hh r)
  have h0 : s.Did h r { s.sheet h r with queue := q } (s.setQueue h q) :=
    (Did.refl s h r).setQueue
  have hawake : ∀ ph ret, (Task.recording r ph ret k).awake = true ∨ k = .loop ∧ i = false := by
    intro ph ret
    by_cases hkl : k = .loop
    · refine .inr ⟨hkl, Bool.eq_false_iff.2 fun hi => hk hi hkl⟩
    · exact .inl (by simpa [Task.awake] using hkl)
  rcases offer_cases cfg h i k hreg ho with
    ⟨-, message, h1⟩ | ⟨c, -, hroom, h1⟩ | ⟨hnone, h1⟩
  · rw [h0.sheet] at h1
    have h2 := h0.trans h1
    refine ⟨r, _, h2, .record ⟨rfl, rfl, rfl⟩, .inl hd.mem, (by rintro ⟨⟩),
      hd.invalid (Run.SameDesk.handle (.refl _) cfg _), fun x hx => ?_,
      fun k => .inl (by simp [Sheet.record, Run.place, sheet]), ⟨fun x hx => absurd hx (he x), .inr ⟨r, rfl⟩, .inr (.inl ⟨r, rfl⟩)⟩, .inr ?_⟩
    · rw [hh x]
      exact if_neg fun e => hx e.symm
    · rw [h2.lane hhome]
      have hstep : Lane.Step cfg r none (s.lane r) ((s.lane r).record cfg
          (.fail "input_does_not_validate" (some message)) .settle) :=
        .invalid hlane hhand hd.unoffered
      simpa [Sheet.record, Lane.record, Task.hand, sheet, lane] using hstep
  · rw [placed, h0.sheet] at h1
    have h2 := h0.trans h1
    refine ⟨r, _, h2, .record ⟨rfl, rfl, rfl⟩, .inl hd.mem, (by rintro ⟨⟩), hd.offered ?_ ?_,
      fun x hx => ?_, fun k => ?_, ⟨fun x hx => absurd hx (he x), .inl fun k => ?_, ?_⟩, .inr ?_⟩
    · simp [Sheet.record, Run.unoffered, Run.offerTo]
    · simp [Sheet.record, Run.offerTo]
    · rw [hh x]
      exact if_neg fun e => hx e.symm
    · by_cases hc : c.publicKey = k
      · exact .inr (hc ▸ hroom)
      · refine .inl ?_
        simp [Sheet.record, Run.place, Run.offerTo, hc]
    · rw [hplace]
      exact Nat.zero_le _
    · -- The head of the queue has just been offered.
      rcases hawake _ _ with hawake | ⟨-, rfl⟩
      · exact .inl hawake
      · refine .inr (.inr (.inl ?_))
        rintro ⟨y, hy, hu, -⟩
        rw [h2.queue] at hy
        obtain rfl : y = r := Option.some.inj (hy.symm.trans hd.place)
        rw [h2.run] at hu
        simp [Sheet.record, Run.unoffered, Run.offerTo] at hu
    · rw [h2.lane hhome]
      have hnote : ((s.setQueue h q).offerNote h c.publicKey i).Proper (s.lane r).run c i :=
        offerNote_proper h0.queue hroom hj
      have hstep : Lane.Step cfg r none (s.lane r) _ := .offered hlane hhand hd.unoffered hnote
      simpa [Sheet.record, Lane.record, Task.hand, sheet, lane] using hstep
  · have hroom : s.Did h r { s.sheet h r with
        queue := if i then q.insertIdx (min 1 q.length) r else q
        task := .at k } ((s.setQueue h q).offer cfg h r i k) := by
      have h2 := did_noRoom (s := s.setQueue h q) (h := h) (r := r) (i := i) (k := k)
      rw [h0.sheet, h0.queue] at h2
      rw [h1]
      exact h0.trans h2
    refine ⟨r, _, hroom, ⟨rfl, rfl, rfl⟩, .inr rfl, (by rintro ⟨⟩), ?_, fun x _ => (hh x).symm,
      fun _ => .inl (Nat.le_refl _),
      ⟨fun x hx => absurd hx (he x), .inl fun k => Nat.le_refl _, ?_⟩, .inl ?_⟩
    · change DeskOk (Function.update s.run r (s.run r)) _ _ _
      rw [Function.update_eq_self]
      cases i with
      | true => exact hd.noRoom_interjection
      | false => exact hd.noRoom_turn
    · -- Nobody who serves the head of the queue has room.
      by_cases hkl : k = .loop
      · refine .inr (.inr (.inl ?_))
        rintro ⟨y, hy, -, hserve⟩
        have hi : i = false := Bool.eq_false_iff.2 fun hi => hk hi hkl
        subst hi
        rw [hroom.queue] at hy
        obtain rfl : y = r := Option.some.inj (hy.symm.trans hd.place)
        rw [hroom.run, h1] at hserve
        exact hnone hserve
      · exact .inl (by cases k <;> first | rfl | exact absurd rfl hkl)
    · rw [hroom.lane hhome]
      simp [lane, sheet, hhome, hh]

end Offers

/-! ## After an await -/

section Resume

variable {ph ph' : RecordPhase} {ret : Ret} {k : Cont}

private theorem hand_recording (ht : s.task h = .recording r ph ret k) (hx : x ≠ r) :
    (s.task h).hand x = none := by
  rw [ht]
  exact if_neg fun e => hx e.symm

private theorem hand_self (ht : s.task h = .recording r ph ret k) :
    (s.task h).hand r = some (ph, ret) := by
  rw [ht]
  exact if_pos rfl

/-- A run the handler is recording is live on it. -/
theorem live_of_recording (hs : Inv s) (ht : s.task h = .recording r ph ret k) :
    r ∈ s.live h := by
  have hb := (hs.desk h).busy
  rw [ht] at hb
  exact hb.1

/-- A record handler goes on, for the same caller. -/
theorem moves_rephase {run : Run} {tr : Trail} {row : Option Row} (hs : Inv s)
    (ht : s.task h = .recording r ph ret k)
    (hd : s.Did h r ⟨run, tr, row, s.queue h, .recording r ph' ret k⟩ s')
    (hw : Sheet.Follows ⟨run, tr, row, s.queue h, .recording r ph' ret k⟩ (s.sheet h r))
    (hp : run.offeredTo = (s.run r).offeredTo) (ha : run.agent = (s.run r).agent)
    (hrun : (s.run r).SameDesk run)
    (hR : Lane.Step cfg r none (s.lane r) { s.lane r with
      run := run
      trail := tr
      row := row
      hand := some (ph', ret) }) : s.Moves (Goes cfg) h s' := by
  have hl := live_of_recording hs ht
  have hdesk := ht ▸ hs.desk h
  refine ⟨r, _, hd, hw, .inl hl, nofun, hdesk.rephase.update hrun, fun x hx => ?_,
    fun _ => .inl (by simp [Run.place, hp]), ⟨fun x hx => ⟨x, ?_⟩, .inl fun k => by simp [Run.place, hp], ?_⟩, .inr ?_⟩
  · rw [hand_recording ht hx]
    exact if_neg fun e => hx e.symm
  · rw [ht] at hx
    cases ret with
    | settle => exact hx
    | _ => exact absurd hx id
  · by_cases hk : k = .loop
    · refine .inr (.inr (.inr ⟨?_, rfl, hrun.unoffered.symm, ha⟩))
      rw [ht, hk]
      rfl
    · exact .inl (by simpa [Task.awake] using hk)
  · rw [hd.lane (hs.roll.home_of_live hl)]
    simpa [Task.hand] using hR

/-- The transaction commits or fails. -/
theorem moves_transact {succeeds : Bool} (hs : Inv s)
    (hstep : s.transact h succeeds = some s') : s.Moves (Goes cfg) h s' := by
  unfold transact at hstep
  split at hstep
  · rename_i r v ret k ht
    have hhome := hs.roll.home_of_live (live_of_recording hs ht)
    have hhand := (lane_hand hhome).trans (hand_self ht)
    split at hstep
    · rename_i row hrow
      cases hstep
      exact moves_rephase hs ht did_commit ⟨rfl, rfl, rfl⟩ rfl rfl (.refl _)
        (.committed hhand hrow)
    · cases hstep
      exact moves_rephase hs ht did_rollback ⟨rfl, rfl, rfl⟩ rfl rfl (.refl _)
        (.rolledBack hhand)
    · cases hstep
  · cases hstep

/-- What follows the return of `_record`, where the run is not settled. -/
theorem moves_return {run : Run} (hs : Inv s) (ht : s.task h = .recording r .returned ret k)
    (hne : ∀ x, ¬ (s.task h).ending x) {k' : Cont}
    (hd : s.Did h r { s.sheet h r with run := run, task := .at k' } s')
    (htid : run.threadId = (s.run r).threadId) (hset : run.settled = (s.run r).settled)
    (hp : run.offeredTo = (s.run r).offeredTo) (ha : run.agent = (s.run r).agent)
    (hrun : (s.run r).SameDesk run) (hk : k' ≠ .loop ∨ (s.task h).resting = true)
    (hc : ContOk s.run (s.queue h) (s.live h) k')
    (hR : Lane.Step cfg r none (s.lane r) { s.lane r with run := run, hand := none }) :
    s.Moves (Goes cfg) h s' := by
  have hl := live_of_recording hs ht
  exact ⟨r, _, moved_at hs hne (fun x hx => hand_recording ht hx) (hs.roll.home_of_live hl) hd
    (.inl hl) htid hset hp ha hrun hk hc (.inr hR)⟩

/-- The handler has nothing left to do for the run but to settle it. -/
def Settles (s : State) (h : HandlerId) (s' : State) : Prop :=
  ∃ r ret k, s.task h = .recording r .returned ret k ∧
    (ret = .settle ∨ ret = .maybeSettle .finishStream ∧ (s.run r).poison = none) ∧
    s' = (s.settle h r).setTask h (.at k)

/-- What follows the return of `_record`. -/
theorem moves_onReturn (cfg : Config) (hs : Inv s) (ht : s.task h = .recording r .returned ret k) :
    s.Moves (Goes cfg) h (s.onReturn cfg h r k ret) ∨
      s.Settles h (s.onReturn cfg h r k ret) := by
  have hl := live_of_recording hs ht
  have hhome := hs.roll.home_of_live hl
  have hhand := (lane_hand hhome).trans (hand_self ht)
  have hreg : s.handlers r = true := (hs.roll.registered r).2 (hs.roll.held_of_live hl)
  have hdesk := hs.desk h
  rw [ht] at hdesk
  obtain ⟨-, hret, hcont, -⟩ := hdesk.busy
  cases ret with
  | settle => exact .inr ⟨r, _, k, ht, .inl rfl, rfl⟩
  | handOver c n =>
      refine .inl (moves_return hs ht (by simp [ht, Task.ending]) (did_handOver hhome) rfl rfl
        rfl rfl ⟨rfl, rfl, rfl, rfl⟩ ?_ hcont (.handedOver hhand))
      by_cases hk : k = .loop
      · exact .inr (by rw [ht, hk]; rfl)
      · exact .inl hk
  | claimed =>
      obtain ⟨k', hd, hk'⟩ := afterClaim_cases (h := h) (r := r) hs.roll.atHome
      refine .inl (moves_return hs ht (by simp [ht, Task.ending]) hd rfl rfl rfl rfl (.refl _)
        ?_ ?_ (.returned hhand (.inl rfl)))
      · rcases hk' with rfl | rfl | ⟨-, rfl⟩ <;> exact .inl nofun
      · rcases hk' with rfl | rfl | ⟨hi, rfl⟩
        · trivial
        · exact ⟨hl, hret.2.1⟩
        · refine (hdesk.joins hi ?_).busy
          intro x hx
          simp only [decide_eq_true_eq] at hx
          exact hx.1
  | maybeSettle command =>
      obtain rfl : k = .advance := hret
      have hne : ∀ x, ¬ (s.task h).ending x := by simp [ht, Task.ending]
      simp only [onReturn, maybeSettle]
      split
      · rename_i text hp
        refine .inl (moves_unseen (s.run r) hs hne (fun x hx => hand_recording ht hx) hl
          ((Did.refl s h r).record hreg) rfl rfl rfl (.refl _) trivial (.inr ?_))
        exact .poisoned hhand hp
      · rename_i hp
        split
        · exact .inr ⟨r, _, .advance, ht, .inr ⟨rfl, hp⟩, rfl⟩
        · rename_i hc
          exact .inl (moves_return hs ht hne ((Did.refl s h r).setTask) rfl rfl rfl rfl
            (.refl _) (.inl nofun) trivial
            (.returned hhand (.inr (.inr ⟨command, rfl, hc, hp⟩))))
  | nothing =>
      obtain rfl : k = .advance := hret
      exact .inl (moves_return hs ht (by simp [ht, Task.ending]) ((Did.refl s h r).setTask) rfl
        rfl rfl rfl (.refl _) (.inl nofun) trivial (.returned hhand (.inr (.inl rfl))))

/-- The handler leaves its loop. -/
def Leaves (s : State) (h : HandlerId) (s' : State) : Prop :=
  s.task h = .at .loop ∧ s.live h = [] ∧ s.inbox h = [] ∧ s' = s.leave h

/-- No settled run is left in a queue, so `_advance` pops none. -/
theorem queue_unsettled (hs : Inv s) :
    (s.queue h).dropWhile (fun r => (s.run r).settled) = s.queue h := by
  cases hq : s.queue h with
  | nil => rfl
  | cons r tl =>
      have hr : r ∈ s.live h := (hs.desk h).sub r (by simp [hq])
      have := hs.roll.unsettled r (hs.roll.held_of_live hr)
      rw [List.dropWhile_cons_of_neg (by simp [this])]

theorem moves_advance (hs : Inv s) (ht : s.task h = .at .advance) :
    s.Moves (Goes cfg) h (s.advance cfg h) := by
  have he : ∀ x, ¬ (s.task h).ending x := by simp [ht, Task.ending]
  have hh : ∀ x, (s.task h).hand x = none := by simp [ht]
  have hdesk := ht ▸ hs.desk h
  have hstay : ¬ s.Wanting h → s.Moves (Goes cfg) h (s.setTask h (.at .loop)) :=
    fun hw => moves_turn hs he hh (fun _ => rfl) (by simp) trivial (.inr (.inl hw))
      fun _ => .inl rfl
  have hq : s.setQueue h (s.queue h) = s := by simp [setQueue]
  unfold advance
  rw [queue_unsettled hs, hq]
  dsimp only
  cases hhead : (s.queue h).head? with
  | none =>
      refine hstay ?_
      rintro ⟨r, hr, -⟩
      rw [hhead] at hr
      cases hr
  | some r =>
      dsimp only
      split
      · rename_i hu
        have hm : s.Moves (Goes cfg) h ((s.setQueue h (s.queue h)).offer cfg h r false .loop) :=
          moves_offer hs.roll he hh (hdesk.advance_ready hhead hu) (by simp) (by simp)
        rwa [hq] at hm
      · rename_i hu
        refine hstay ?_
        rintro ⟨r', hr', hu', -⟩
        rw [hhead] at hr'
        cases hr'
        exact hu hu'

/-- Where a handler goes on when it is not waiting for anything. -/
theorem moves_goOn (cfg : Config) (hs : Inv s) (ht : s.task h = .at k) :
    s.Moves (Goes cfg) h (s.goOn cfg h k) ∨ s.Leaves h (s.goOn cfg h k) := by
  have he : ∀ x, ¬ (s.task h).ending x := by simp [ht, Task.ending]
  have hh : ∀ x, (s.task h).hand x = none := by simp [ht]
  have hdesk := hs.desk h
  rw [ht] at hdesk
  cases k with
  | loop =>
      simp only [goOn]
      split
      · rename_i hg
        exact .inr ⟨ht, hg.1, List.isEmpty_iff.1 hg.2, rfl⟩
      · exact .inl (moves_turn hs he hh (fun _ => rfl) nofun trivial
          (.inr (.inr (by rw [ht]; rfl))) fun _ => .inl rfl)
  | advance => exact .inl (moves_advance hs ht)
  | joining head rest =>
      left
      cases rest with
      | nil =>
          obtain ⟨tl, hq, -, hc, -⟩ := hdesk.busy
          exact moves_turn hs he hh (fun _ => rfl) nofun
            ⟨hdesk.sub head (by rw [hq]; simp), hc⟩ (.inl rfl) fun _ => .inl rfl
      | cons r rest =>
          obtain ⟨tl, hq, hrest, hc, ha⟩ := hdesk.busy
          refine moves_offer hs.roll he hh hdesk.joining_ready nofun fun _ =>
            ⟨head, ?_, hc, ha r (by simp)⟩
          have hne : head ≠ r := by
            rintro rfl
            have hn := hdesk.nodup
            rw [hq, List.nodup_cons] at hn
            exact hn.1 (hrest.subset (by simp))
          rw [hq, List.erase_cons_tail (by simpa using hne)]
          rfl
  | cancelCheck r =>
      left
      obtain ⟨hl, hc⟩ := hdesk.busy
      have hhome := hs.roll.home_of_live hl
      simp only [goOn]
      split
      · rename_i hr
        refine moves_unseen (s.run r) hs he (fun x _ => hh x) hl
          ((Did.refl s h r).record ((hs.roll.registered r).2 (hs.roll.held_of_live hl))) rfl rfl
          rfl (.refl _) rfl (.inr ?_)
        exact .cancelChecked ((lane_live hhome).2 hl) ((lane_hand hhome).trans (hh r)) hc hr
      · exact moves_turn hs he hh (fun _ => rfl) nofun trivial (.inl rfl) fun _ => .inl rfl

/-- **A handler's coroutine goes on.**  It makes one move, settles the run it has
in hand, or leaves its loop. -/
theorem moves_resume (hs : Inv s) (hstep : s.resume cfg h = some s') :
    s.Moves (Goes cfg) h s' ∨ s.Settles h s' ∨ s.Leaves h s' := by
  unfold resume at hstep
  split at hstep
  · rename_i r v ret k ht
    cases hstep
    have hl := live_of_recording hs ht
    exact .inl (moves_rephase hs ht did_afterWrite ⟨rfl, rfl, rfl⟩ rfl rfl
      ⟨rfl, rfl, rfl, rfl⟩
      (.streamed ((lane_hand (hs.roll.home_of_live hl)).trans (hand_self ht))))
  · rename_i r ret k ht
    cases hstep
    have hl := live_of_recording hs ht
    exact .inl (moves_rephase hs ht ((Did.refl s h r).setTask) ⟨rfl, rfl, rfl⟩ rfl rfl (.refl _)
      (.notified ((lane_hand (hs.roll.home_of_live hl)).trans (hand_self ht))))
  · rename_i r ret k ht
    cases hstep
    rcases moves_onReturn cfg hs ht with hm | hm
    · exact .inl hm
    · exact .inr (.inl hm)
  · rename_i k ht
    cases hstep
    rcases moves_goOn cfg hs ht with hm | hm
    · exact .inl hm
    · exact .inr (.inr hm)
  · cases hstep

end Resume

end State

end Funduq.Broker
