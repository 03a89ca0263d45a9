import Funduq.Broker.Offers

/-!
# Turns

What the desks of the handlers, taken together with the roll, say about threads.
A thread has one handler at a time; whatever the broker holds of the thread is
live on that handler or has yet to be read by it; and of the live runs, the ones
that were not offered as interjections stand in its queue, each once, with
nobody but the head offered to anybody.
-/

namespace Funduq.Broker

open Funduq.Lib

namespace DeskOk

variable {run : RunId → Run} {queue live : List RunId} {task : Task} {r : RunId}

/-- When no run is being ended, the queue holds the live runs that were not
offered as interjections. -/
theorem count_queue (hd : DeskOk run queue live task) (he : ∀ x, ¬ task.ending x)
    (hr : r ∈ live) : queue.count r = if (run r).isInterjection then 0 else 1 := by
  by_cases hq : r ∈ queue
  · rw [hd.turn r hq]
    exact List.count_eq_one_of_mem hd.nodup hq
  · rw [(hd.interjection_of_not_mem (he r) hr hq).1]
    exact List.count_eq_zero.2 hq

theorem turn_of_unoffered (hd : DeskOk run queue live task) (he : ∀ x, ¬ task.ending x)
    (hr : r ∈ live) (hu : (run r).unoffered = true) : (run r).isInterjection = false := by
  by_cases hq : r ∈ queue
  · exact hd.turn r hq
  · exact absurd ((hd.interjection_of_not_mem (he r) hr hq).2.symm.trans hu) nofun

end DeskOk

/-! ## The handler of a run -/

section Roll

variable {s : State} {h : HandlerId} {r : RunId}

theorem Roll.mem_inbox_of_arriving (h : HandlerId) (hr : r ∈ s.arriving h) :
    .queued r ∈ s.inbox h := by
  obtain ⟨m, hm, ha⟩ := List.mem_filterMap.1 hr
  cases m with
  | queued x => cases ha; exact hm
  | _ => cases ha

/-- A run the broker holds is on a handler that is in its loop, the one of the
run's thread. -/
theorem Roll.handler_of_held (hs : Roll s) (hr : r ∈ s.runs) :
    ∃ h, s.runThreads r = some h ∧ (r ∈ s.live h ∨ r ∈ s.arriving h) ∧
      s.task h ≠ .finished ∧ s.threads.get? (s.run r).threadId = some h := by
  obtain ⟨h, ht⟩ := (hs.held_iff r).1 hr
  have hmem := List.mem_append.1 ((hs.mem_iff h r).2 ht)
  have hf : s.task h ≠ .finished := by
    intro hf
    obtain ⟨hl, ha⟩ := hs.gone h hf
    rw [hl, ha] at hmem
    rcases hmem with hmem | hmem <;> cases hmem
  refine ⟨h, ht, hmem, hf, ?_⟩
  rw [← hs.thread r h ht]
  exact hs.at_desk h (hs.born r h (hs.atHome r h ht)) hf

end Roll

section Reachable

variable {cfg : Config} {db : RunId → Option Row} {s : State}

/-- A run the broker holds that was offered or claimed as an ordinary turn is at
the head of its thread's queue. -/
theorem head_of_turn (hs : Inv s) {r : RunId} (hr : r ∈ s.runs)
    (hi : (s.run r).isInterjection = false) (ho : (s.run r).unoffered = false) :
    ∃ h, s.threads.get? (s.run r).threadId = some h ∧ (s.queue h).head? = some r := by
  obtain ⟨h, -, hl | ha, -, hthread⟩ := hs.roll.handler_of_held hr
  · exact ⟨h, hthread, (hs.desk h).head_of_offered hl ho hi⟩
  · exact absurd (ho.symm.trans (hs.roll.arriving h r ha).1) nofun

/-- **Main result.**  Of the runs the broker holds of one thread, at most one is
offered or claimed as an ordinary turn, and it is the head of the thread's
queue.  A run that is an interjection was offered once, when the head of the
queue was claimed and was the run it is addressed to. -/
theorem one_turn_per_thread (hs : Reachable cfg db s) :
    (∀ r ∈ s.runs, (s.run r).isInterjection = false → (s.run r).unoffered = false →
      ∃ h, s.threads.get? (s.run r).threadId = some h ∧ (s.queue h).head? = some r) ∧
    (∀ r ∈ s.runs, ∀ x ∈ s.runs, (s.run r).threadId = (s.run x).threadId →
      (s.run r).isInterjection = false → (s.run r).unoffered = false →
      (s.run x).isInterjection = false → (s.run x).unoffered = false → r = x) ∧
    (∀ r, (s.run r).isInterjection = true → ∃ note head, (s.trail r).offers = [note] ∧
      note.interjection = true ∧ note.headClaimed = true ∧ note.head = some head ∧
      (s.run r).addressedRunId = some head) := by
  have hinv := reachable_inv hs
  refine ⟨fun r hr hi ho => head_of_turn hinv hr hi ho, ?_, ?_⟩
  · intro r hr x hx ht hi ho hi' ho'
    obtain ⟨h, hth, hhead⟩ := head_of_turn hinv hr hi ho
    obtain ⟨h', hth', hhead'⟩ := head_of_turn hinv hx hi' ho'
    rw [← ht, hth] at hth'
    cases hth'
    exact Option.some.inj (hhead.symm.trans hhead')
  · intro r hi
    have hnoted : (s.lane r).Noted := reachable_noted hs r
    rcases hnoted with ⟨-, -, hn⟩ | ⟨-, note, hoffers, hm⟩
    · exact absurd (hi.symm.trans hn) nofun
    · have hkind : note.interjection = true := hm.kind.symm.trans hi
      obtain ⟨hclaimed, hsome, hjoin⟩ := hm.joins hkind
      obtain ⟨head, hhead⟩ := Option.isSome_iff_exists.1 hsome
      exact ⟨note, head, hoffers, hkind, hclaimed, hhead, hjoin.symm.trans hhead⟩

/-- A turn that is claimed, and an interjection that was offered beside it. -/
theorem one_turn_per_thread_joined :
    (∃ h, (State.after Demo.config Demo.joined).threads.get?
        ((State.after Demo.config Demo.joined).run "r").threadId = some h ∧
      ((State.after Demo.config Demo.joined).queue h).head? = some "r") ∧
    (∃ note head, ((State.after Demo.config Demo.joined).trail "i").offers = [note] ∧
      note.interjection = true ∧ note.headClaimed = true ∧ note.head = some head ∧
      ((State.after Demo.config Demo.joined).run "i").addressedRunId = some head) := by
  obtain ⟨hturn, -, hjoin⟩ := one_turn_per_thread (reachable_after Demo.config Demo.joined)
  exact ⟨hturn "r" (by decide +kernel) (by decide +kernel) (by decide +kernel),
    hjoin "i" (by decide +kernel)⟩

/-- **Main result.**  A run the broker holds is live on the handler it was given
to, or on its way to it, and that handler is in its loop; a thread has at most
one handler in its loop; and between two messages a handler's queue holds each
of its live runs once, but for the interjections that were offered, which it
does not hold. -/
theorem no_run_stranded (hs : Reachable cfg db s) :
    (∀ r ∈ s.runs, ∃ h, s.runThreads r = some h ∧
      (r ∈ s.live h ∨ .queued r ∈ s.inbox h) ∧ s.task h ≠ .finished) ∧
    (∀ h < s.nextHandler, ∀ h' < s.nextHandler, s.task h ≠ .finished →
      s.task h' ≠ .finished → s.threadOf h = s.threadOf h' → h = h') ∧
    (∀ h, s.task h = .idle ∨ s.task h = .at .loop → ∀ r ∈ s.live h,
      ((s.run r).unoffered = true → (s.queue h).count r = 1) ∧
      ((s.run r).isInterjection = false → (s.queue h).count r = 1) ∧
      ((s.run r).isInterjection = true → (s.queue h).count r = 0)) := by
  have hinv := reachable_inv hs
  refine ⟨?_, ?_, ?_⟩
  · intro r hr
    obtain ⟨h, hthread, hmem, hf, -⟩ := hinv.roll.handler_of_held hr
    exact ⟨h, hthread, hmem.imp_right (Roll.mem_inbox_of_arriving h), hf⟩
  · intro h hh h' hh' hf hf' ht
    have hdesk := hinv.roll.at_desk h hh hf
    rw [ht, hinv.roll.at_desk h' hh' hf'] at hdesk
    exact (Option.some.inj hdesk).symm
  · intro h hidle r hr
    have he : ∀ x, ¬ (s.task h).ending x := by
      intro x
      rcases hidle with hi | hi <;> rw [hi] <;> exact id
    have hcount := (hinv.desk h).count_queue he hr
    have hturn : (s.run r).isInterjection = false → (s.queue h).count r = 1 := by
      intro hi
      rw [hcount, hi]
      rfl
    refine ⟨fun hu => hturn ((hinv.desk h).turn_of_unoffered he hr hu), hturn, fun hi => ?_⟩
    rw [hcount, hi]
    rfl

/-- Two runs on two threads, one claimed and one waiting. -/
theorem no_run_stranded_waiting :
    (State.after Demo.config Demo.waiting).runs = ["r", "q"] ∧
    (∃ h, (State.after Demo.config Demo.waiting).runThreads "q" = some h ∧
      ("q" ∈ (State.after Demo.config Demo.waiting).live h ∨
        .queued "q" ∈ (State.after Demo.config Demo.waiting).inbox h) ∧
      (State.after Demo.config Demo.waiting).task h ≠ .finished) :=
  ⟨by decide +kernel, (no_run_stranded (reachable_after Demo.config Demo.waiting)).1 "q"
    (by decide +kernel)⟩

end Reachable

end Funduq.Broker
