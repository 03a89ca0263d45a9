import Funduq.Broker.Intake

/-!
# Settling a run, and leaving the loop

Two things a handler does are not moves: it settles a run, which takes the run
off every list and dictionary at once, and it leaves its loop, which takes the
handler itself off the broker's.  Both keep the invariant, the first because a
run is live on one handler only, the second because a thread has one handler
only.
-/

namespace Funduq.Broker

open Funduq.Lib

namespace State

variable {s s' : State} {h : HandlerId} {r x : RunId} {ret : Ret} {k : Cont}

/-! ## Settling -/

/-- The state once run `r` is settled, with the outside `o`. -/
def settledState (s : State) (h : HandlerId) (r : RunId) (k : Cont) (o : Outside) : State :=
  (((s.withOutside { o with workToDo := true }).dropRun h r).setRun r (s.run r).settle).setTask h
    (.at k)

theorem settles_eq (hs : Inv s) (hm : s.Settles h s') :
    ∃ r ret k o, s.task h = .recording r .returned ret k ∧
      (ret = .settle ∨ ret = .maybeSettle .finishStream ∧ (s.run r).poison = none) ∧
      s' = s.settledState h r k o ∧ s.Grows o ∧ s.Shifts (s.run r) (s.run r).settle o := by
  obtain ⟨r, ret, k, ht, hret, rfl⟩ := hm
  have hheld := hs.roll.held_of_live (live_of_recording hs ht)
  obtain ⟨o, ho, hg, hk⟩ := settle_eq (h := h) hheld (hs.funded hheld)
  exact ⟨r, ret, k, o, ht, hret, by rw [ho]; rfl, hg, hk⟩

section Settled

variable {o : Outside}

private theorem arriving_settled (hg : s.Grows o) (h' : HandlerId) :
    (s.settledState h r k o).arriving h' = s.arriving h' := by
  obtain ⟨l, hi, -, hn⟩ := hg.inbox h'
  change (o.inbox h').filterMap Message.arrival? = s.arriving h'
  rw [hi, List.filterMap_append, filterMap_arrival_news hn, List.append_nil]
  rfl

private theorem mem_live_settled (hs : Roll s) (hl : r ∈ s.live h) (h' : HandlerId) :
    x ∈ Function.update s.live h ((s.live h).erase r) h' ↔ x ∈ s.live h' ∧ x ≠ r := by
  have hnd : (s.live h).Nodup := (List.nodup_append.1 (hs.nodup h)).1
  by_cases hh : h' = h
  · subst hh
    rw [Function.update_self, hnd.mem_erase_iff, and_comm]
  · rw [Function.update_of_ne hh]
    refine ⟨fun hx => ⟨hx, ?_⟩, And.left⟩
    rintro rfl
    exact hh (hs.live_unique hx hl)

private theorem roll_settled (hs : Roll s) (hl : r ∈ s.live h) (hf : s.task h ≠ .finished)
    (hg : s.Grows o) : Roll (s.settledState h r k o) := by
  have harr := arriving_settled (h := h) (r := r) (k := k) hg
  have hlive := fun x h' => mem_live_settled (x := x) hs hl h'
  have htask : ∀ h', (s.settledState h r k o).task h' = .finished ↔ s.task h' = .finished := by
    intro h'
    change Function.update s.task h (.at k) h' = _ ↔ _
    by_cases hh : h' = h
    · subst hh
      rw [Function.update_self]
      exact ⟨nofun, fun h => absurd h hf⟩
    · rw [Function.update_of_ne hh]
  have hrun : ∀ x, x ≠ r → (s.settledState h r k o).run x = s.run x :=
    fun x hx => Function.update_of_ne hx ..
  have hthreads : ∀ x h', (s.settledState h r k o).runThreads x = some h' →
      x ≠ r ∧ s.runThreads x = some h' := by
    intro x h' hx
    change Function.update s.runThreads r none x = some h' at hx
    by_cases he : x = r
    · subst he
      rw [Function.update_self] at hx
      cases hx
    · rw [Function.update_of_ne he] at hx
      exact ⟨he, hx⟩
  refine
    { runs_nodup := hs.runs_nodup.erase r, held_iff := fun x => ?_, registered := fun x => ?_,
      atHome := fun x h' hx => hs.atHome x h' (hthreads x h' hx).2, nodup := fun h' => ?_,
      mem_iff := fun h' x => ?_, arriving := fun h' x hx => ?_, unsettled := fun x hx => ?_,
      thread := fun x h' hx => ?_, born := hs.born,
      at_desk := fun h' hlt hne => hs.at_desk h' hlt fun hc => hne ((htask h').2 hc),
      desk_of := fun t h' ht => ?_, gone := fun h' hgone => ?_, only_fail := fun h' x c hc => ?_,
      asked := fun h' x hx => ?_, unread := fun h' m hm => ?_, posted_home := fun h' m x hm hx => ?_,
      fifo := fun x h' hx => ?_, unheard := hs.unheard, clocks := fun c hc => ?_,
      handovers := fun t ht => ?_ }
  · change x ∈ s.runs.erase r ↔ ∃ h', Function.update s.runThreads r none x = some h'
    rw [hs.runs_nodup.mem_erase_iff, hs.held_iff]
    by_cases he : x = r
    · subst he
      simp
    · rw [Function.update_of_ne he]
      simp [he]
  · change Function.update s.handlers r false x = true ↔ x ∈ s.runs.erase r
    rw [hs.runs_nodup.mem_erase_iff, ← hs.registered]
    by_cases he : x = r
    · subst he
      simp
    · rw [Function.update_of_ne he]
      simp [he]
  · rw [harr]
    change (Function.update s.live h ((s.live h).erase r) h' ++ s.arriving h').Nodup
    refine (hs.nodup h').sublist (List.Sublist.append ?_ (List.Sublist.refl _))
    by_cases hh : h' = h
    · subst hh
      rw [Function.update_self]
      exact List.erase_sublist
    · rw [Function.update_of_ne hh]
  · rw [harr]
    change x ∈ Function.update s.live h ((s.live h).erase r) h' ++ s.arriving h' ↔
      Function.update s.runThreads r none x = some h'
    rw [List.mem_append, hlive]
    by_cases he : x = r
    · subst he
      rw [Function.update_self]
      simp [hs.not_arriving_of_live hl]
    · rw [Function.update_of_ne he, ← hs.mem_iff, List.mem_append]
      simp [he]
  · rw [harr] at hx
    have hne : x ≠ r := by
      rintro rfl
      exact hs.not_arriving_of_live hl hx
    rw [hrun x hne]
    exact hs.arriving h' x hx
  · have hx' : x ≠ r ∧ x ∈ s.runs := hs.runs_nodup.mem_erase_iff.1 hx
    rw [hrun x hx'.1]
    exact hs.unsettled x hx'.2
  · obtain ⟨hne, hx'⟩ := hthreads x h' hx
    rw [hrun x hne]
    exact hs.thread x h' hx'
  · obtain ⟨h1, h2, h3⟩ := hs.desk_of t h' ht
    exact ⟨h1, h2, fun hc => h3 ((htask h').1 hc)⟩
  · obtain ⟨h1, h2⟩ := hs.gone h' ((htask h').1 hgone)
    rw [harr]
    refine ⟨List.eq_nil_iff_forall_not_mem.2 fun x hx => ?_, h2⟩
    have := ((hlive x h').1 hx).1
    rw [h1] at this
    cases this
  · obtain ⟨l, hi, -, hn⟩ := hg.inbox h'
    change _ ∈ o.inbox h' at hc
    rw [hi] at hc
    rcases List.mem_append.1 hc with hc | hc
    · exact hs.only_fail h' x c hc
    · exact (hn _ hc).only_fail x c rfl
  · obtain ⟨l, hi, -, hn⟩ := hg.inbox h'
    change _ ∈ o.inbox h' at hx
    rw [hi] at hx
    rcases List.mem_append.1 hx with hx | hx
    · exact hs.asked h' x hx
    · exact (hn _ hx).asked x rfl
  · obtain ⟨l, hi, hp, -⟩ := hg.inbox h'
    change m ∈ o.inbox h' at hm
    change m ∈ o.posted h'
    rw [hi] at hm
    rw [hp]
    rcases List.mem_append.1 hm with hm | hm
    · exact List.mem_append_left _ (hs.unread h' m hm)
    · exact List.mem_append_right _ hm
  · obtain ⟨l, -, hp, hn⟩ := hg.inbox h'
    change m ∈ o.posted h' at hm
    rw [hp] at hm
    rcases List.mem_append.1 hm with hm | hm
    · exact hs.posted_home h' m x hm hx
    · exact (hn m hm).at_home x hx
  · obtain ⟨l, hi, hp, -⟩ := hg.inbox h'
    change about x (o.posted h') = (s.trail x).heard.map Heard.message ++ about x (o.inbox h')
    have hf := hs.fifo x h' hx
    rw [hi, hp, about, List.filter_append]
    rw [about] at hf
    rw [hf, about, about, List.filter_append, List.append_assoc]
  · rcases hg.clocks c hc with hc | hc
    · exact hs.clocks c hc
    · exact hc
  · rcases hg.handovers t ht with ⟨u, hu, he⟩ | ht
    · exact he ▸ hs.handovers u hu
    · exact ht

/-- **Settling keeps the invariant.** -/
theorem inv_settled (hs : Inv s) (ht : s.task h = .recording r .returned ret k)
    (hg : s.Grows o) (hk : s.Shifts (s.run r) (s.run r).settle o) :
    Inv (s.settledState h r k o) := by
  have hl := live_of_recording hs ht
  have hheld := hs.roll.held_of_live hl
  have hnd : (s.live h).Nodup := (List.nodup_append.1 (hs.roll.nodup h)).1
  refine ⟨roll_settled hs.roll hl (by rw [ht]; exact nofun) hg, fun h' => ?_, fun key => ?_⟩
  · change DeskOk (Function.update s.run r (s.run r).settle)
      (Function.update s.queue h ((s.queue h).erase r) h')
      (Function.update s.live h ((s.live h).erase r) h') (Function.update s.task h (.at k) h')
    by_cases hh : h' = h
    · subst hh
      simp only [Function.update_self]
      exact DeskOk.settles hnd (ht ▸ hs.desk h')
    · simp only [Function.update_of_ne hh]
      exact (hs.desk h').update_other fun hl' => hh (hs.roll.live_unique hl' hl)
  · have hshift := hk.inFlight key
    have hold := hs.counted key
    change ((o.providers key).getD {}).inFlight = (s.runs.erase r).countP fun x =>
      (Function.update s.run r (s.run r).settle x).offeredTo = some key
    have hsame : ((s.runs.erase r).countP fun x =>
        (Function.update s.run r (s.run r).settle x).offeredTo = some key) =
          (s.runs.erase r).countP fun x => (s.run x).offeredTo = some key := by
      refine List.countP_congr fun x hx => ?_
      rw [Function.update_of_ne (hs.roll.runs_nodup.mem_erase_iff.1 hx).1]
    have hsplit := (List.perm_cons_erase hheld).countP_eq
      (fun x => decide ((s.run x).offeredTo = some key))
    rw [List.countP_cons] at hsplit
    rw [hsame]
    simp only [places] at hold
    simp only [Run.place, Run.settle_offeredTo, decide_eq_true_eq] at hshift hsplit
    simp at hshift
    omega

end Settled

/-! ## Leaving -/

theorem leave_eq (s : State) (h : HandlerId) :
    s.leave h = { s with
      agentThreads := Function.update s.agentThreads (s.agentOf h)
        ((s.agentThreads (s.agentOf h)).filter fun h' => h' ≠ h)
      threads := if s.threads.get? (s.threadOf h) = some h then s.threads.pop (s.threadOf h)
        else s.threads
      task := Function.update s.task h .finished } := by
  unfold leave
  dsimp only
  split <;> rfl

/-- **Leaving the loop keeps the invariant.** -/
theorem inv_leave (hs : Inv s) (hm : s.Leaves h s') : Inv s' := by
  obtain ⟨ht, hlive, hin, rfl⟩ := hm
  have hroll := hs.roll
  have hf : s.task h ≠ .finished := by rw [ht]; simp
  have harr : s.arriving h = [] := by
    rw [arriving, hin]
    rfl
  -- The handler's thread is the only one whose entry may go.
  have hget : ∀ t h', (if s.threads.get? (s.threadOf h) = some h then
        s.threads.pop (s.threadOf h) else s.threads).get? t = some h' ↔
      s.threads.get? t = some h' ∧ h' ≠ h := by
    intro t h'
    split
    · rename_i hin
      rw [Dict.get?_pop]
      by_cases htt : s.threadOf h = t
      · subst htt
        rw [if_pos rfl, hin, Option.some.injEq]
        exact ⟨(by simp), fun hc => absurd hc.1.symm hc.2⟩
      · rw [if_neg htt]
        refine ⟨fun hg => ⟨hg, ?_⟩, And.left⟩
        rintro rfl
        exact htt (hroll.desk_of t h' hg).2.1
    · rename_i hin
      refine ⟨fun hg => ⟨hg, ?_⟩, And.left⟩
      rintro rfl
      exact hin ((hroll.desk_of t h' hg).2.1 ▸ hg)
  have htask : ∀ h', h' ≠ h → Function.update s.task h .finished h' = s.task h' :=
    fun h' hh => Function.update_of_ne hh ..
  rw [leave_eq]
  refine ⟨{ hroll with
    at_desk := fun h' hlt hne => ?_
    desk_of := fun t h' hg => ?_
    gone := fun h' hgone => ?_ }, fun h' => ?_, hs.counted⟩
  · have hh : h' ≠ h := by
      rintro rfl
      exact hne (Function.update_self ..)
    have hne' : s.task h' ≠ .finished := fun hc => hne ((htask h' hh).trans hc)
    exact (hget _ _).2 ⟨hroll.at_desk h' hlt hne', hh⟩
  · obtain ⟨hg', hh⟩ := (hget t h').1 hg
    obtain ⟨h1, h2, h3⟩ := hroll.desk_of t h' hg'
    exact ⟨h1, h2, fun hc => h3 ((htask h' hh).symm.trans hc)⟩
  · by_cases hh : h' = h
    · subst hh
      exact ⟨hlive, harr⟩
    · exact hroll.gone h' ((htask h' hh).symm.trans hgone)
  · by_cases hh : h' = h
    · subst hh
      have hdesk : DeskOk s.run (s.queue h') (s.live h') .finished :=
        (hs.desk h').retask (by simp [ht, Task.ending]) hlive
      change DeskOk s.run (s.queue h') (s.live h') (Function.update s.task h' .finished h')
      rw [Function.update_self]
      exact hdesk
    · change DeskOk s.run (s.queue h') (s.live h') (Function.update s.task h .finished h')
      rw [htask h' hh]
      exact hs.desk h'

/-! ## Lanes -/

/-- A run that is settled leaves the broker; no other run's lane changes. -/
theorem lane_settled {o : Outside} (hs : Inv s)
    (ht : s.task h = .recording r .returned ret k) (x : RunId) :
    (s.settledState h r k o).lane x =
      if x = r then { s.lane x with
        run := (s.run x).settle
        held := false
        live := false
        hand := none } else s.lane x := by
  have hl := live_of_recording hs ht
  have hnd : (s.live h).Nodup := (List.nodup_append.1 (hs.roll.nodup h)).1
  by_cases hx : x = r
  · subst hx
    simp [lane, settledState, hs.roll.home_of_live hl, hs.roll.runs_nodup.mem_erase_iff,
      hnd.mem_erase_iff]
  · cases hhome : s.home x with
    | none => simp [lane, settledState, hhome, hx, hs.roll.runs_nodup.mem_erase_iff]
    | some h' =>
        by_cases hh : h' = h
        · subst hh
          have hx' : ¬ r = x := fun e => hx e.symm
          simp [lane, settledState, hhome, hx, hs.roll.runs_nodup.mem_erase_iff,
            hnd.mem_erase_iff, ht, Task.hand, hx']
        · simp [lane, settledState, hhome, hx, hh, hs.roll.runs_nodup.mem_erase_iff]

theorem lane_leave (hm : s.Leaves h s') (x : RunId) : s'.lane x = s.lane x := by
  obtain ⟨ht, -, -, rfl⟩ := hm
  rw [leave_eq]
  cases hhome : s.home x with
  | none => simp [lane, hhome]
  | some h' =>
      by_cases hh : h' = h
      · subst hh
        simp [lane, hhome, ht, Task.hand]
      · simp [lane, hhome, hh]

/-- A run that is enqueued enters its lane; no other run's lane changes. -/
theorem lane_takeIn {run : Run} {events : List (Nat × Json)} (hs : Inv s)
    (hr : s.home r = none) (hh : (s.task h).hand r = none) (x : RunId) :
    (s.takeIn h r run events).lane x =
      if x = r then { s.lane x with
        run := run
        trail := { s.trail x with before := events }
        home := some h
        held := true } else s.lane x := by
  obtain ⟨-, -, hnl⟩ := unborn_facts hs hr
  have hnl' : r ∉ s.live h := fun hl => hnl h (List.mem_append_left _ hl)
  by_cases hx : x = r
  · subst hx
    simp [lane, takeIn, hr, hnl', hh]
  · simp [lane, takeIn, hx]
    rfl

theorem lane_newHandler {t : ThreadId} {agent : AgentRef} (hs : Roll s) (x : RunId) :
    (s.newHandler t agent).lane x = s.lane x := by
  cases hhome : s.home x with
  | none =>
      simp [lane, newHandler, hhome]
      rfl
  | some h' =>
      have hne : h' ≠ s.nextHandler := Nat.ne_of_lt (hs.born x h' hhome)
      simp [lane, newHandler, hhome, hne]
      exact ⟨rfl, rfl⟩

end State

end Funduq.Broker
