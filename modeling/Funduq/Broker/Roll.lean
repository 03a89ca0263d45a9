import Funduq.Broker.Desk
import Funduq.Broker.Sheet

/-!
# The roll of runs and handlers

`Roll` is the bookkeeping that ties the broker's dictionaries together: a run
is in `_runs` exactly when `_run_threads` names a handler for it, that handler
has it live or has its `_Queued` still to read and never both, and the handlers
that have not left their loops are exactly the ones in `_threads`, one for each
thread.  `Inv` adds that every desk is in order and every place counted.

Almost everything a handler does is local (`Local`): it touches one run, its
own queue and its own task, and otherwise only adds news to inboxes.  What a
local change needs to keep `Inv` is said once, in `Inv.did`: the handler's own
desk has to be in order afterwards.
-/

namespace Funduq.Broker

open Funduq.Lib

namespace State

/-- The runs whose `_Queued` a handler has still to read. -/
def arriving (s : State) (h : HandlerId) : List RunId :=
  (s.inbox h).filterMap Message.arrival?

/-- The messages of a list that are about `r`. -/
def about (r : RunId) (ms : List Message) : List Message :=
  ms.filter fun m => m.runId? = some r

/-- The runs in `_runs` that have been offered to `k`. -/
def places (s : State) (k : Key) : Nat :=
  s.runs.countP fun r => (s.run r).offeredTo = some k

end State

/-- The broker's dictionaries fit together. -/
structure Roll (s : State) : Prop where
  runs_nodup : s.runs.Nodup
  held_iff : ∀ r, r ∈ s.runs ↔ ∃ h, s.runThreads r = some h
  registered : ∀ r, s.handlers r = true ↔ r ∈ s.runs
  atHome : s.AtHome
  nodup : ∀ h, (s.live h ++ s.arriving h).Nodup
  mem_iff : ∀ h r, r ∈ s.live h ++ s.arriving h ↔ s.runThreads r = some h
  arriving : ∀ h r, r ∈ s.arriving h →
    (s.run r).unoffered = true ∧ (s.run r).isInterjection = false
  unsettled : ∀ r ∈ s.runs, (s.run r).settled = false
  thread : ∀ r h, s.runThreads r = some h → s.threadOf h = (s.run r).threadId
  born : ∀ r h, s.home r = some h → h < s.nextHandler
  at_desk : ∀ h, h < s.nextHandler → s.task h ≠ .finished →
    s.threads.get? (s.threadOf h) = some h
  desk_of : ∀ t h, s.threads.get? t = some h →
    h < s.nextHandler ∧ s.threadOf h = t ∧ s.task h ≠ .finished
  gone : ∀ h, s.task h = .finished → s.live h = [] ∧ s.arriving h = []
  only_fail : ∀ h r c, .trusted r c ∈ s.inbox h → ∃ code message, c = .fail code message
  asked : ∀ h r, .cancelAsked r ∈ s.inbox h → s.cancelCalled r = true
  unread : ∀ h, ∀ m ∈ s.inbox h, m ∈ s.posted h
  posted_home : ∀ h m r, m ∈ s.posted h → m.runId? = some r → s.home r = some h
  fifo : ∀ r h, s.home r = some h → State.about r (s.posted h) =
    (s.trail r).heard.map Heard.message ++ State.about r (s.inbox h)
  unheard : ∀ r, s.home r = none → (s.trail r).heard = []
  clocks : ∀ c ∈ s.clocks, s.home c.runId = some c.handler
  handovers : ∀ t ∈ s.handovers, s.home t.clock.runId = some t.clock.handler

/-- **The broker's structural invariant.** -/
structure Inv (s : State) : Prop where
  roll : Roll s
  desk : ∀ h, DeskOk s.run (s.queue h) (s.live h) (s.task h)
  counted : ∀ k, (s.provider k).inFlight = s.places k

/-- The invariant, but for the desk of handler `h`. -/
structure InvBut (h : HandlerId) (s : State) : Prop where
  roll : Roll s
  desk : ∀ h', h' ≠ h → DeskOk s.run (s.queue h') (s.live h') (s.task h')
  counted : ∀ k, (s.provider k).inFlight = s.places k

theorem Inv.but {s : State} (hs : Inv s) (h : HandlerId) : InvBut h s :=
  ⟨hs.roll, fun h' _ => hs.desk h', hs.counted⟩

/-- Handler `h` has touched run `r`, its own queue and its own task, and news
has been posted. -/
structure Local (h : HandlerId) (r : RunId) (s s' : State) : Prop where
  runs : s'.runs = s.runs
  runThreads : s'.runThreads = s.runThreads
  handlers : s'.handlers = s.handlers
  threads : s'.threads = s.threads
  nextHandler : s'.nextHandler = s.nextHandler
  threadOf : s'.threadOf = s.threadOf
  live : s'.live = s.live
  home : s'.home = s.home
  cancelCalled : s'.cancelCalled = s.cancelCalled
  run_off : ∀ r', r' ≠ r → s'.run r' = s.run r'
  trail_off : ∀ r', r' ≠ r → s'.trail r' = s.trail r'
  queue_off : ∀ h', h' ≠ h → s'.queue h' = s.queue h'
  task_off : ∀ h', h' ≠ h → s'.task h' = s.task h'
  threadId : (s'.run r).threadId = (s.run r).threadId
  settled : (s'.run r).settled = (s.run r).settled
  heard : (s'.trail r).heard = (s.trail r).heard
  inbox : ∀ h', ∃ l, s'.inbox h' = s.inbox h' ++ l ∧ s'.posted h' = s.posted h' ++ l ∧
    ∀ m ∈ l, s.News h' m
  clocks : ∀ c ∈ s'.clocks, c ∈ s.clocks ∨ s.home c.runId = some c.handler
  handovers : ∀ t ∈ s'.handovers,
    (∃ u ∈ s.handovers, u.clock = t.clock) ∨ s.home t.clock.runId = some t.clock.handler

namespace Local

variable {h : HandlerId} {r : RunId} {s s' s'' : State}

theorem of_quiet (hq : s.Quiet s') : Local h r s s' := by
  obtain ⟨o, rfl, hg, -⟩ := hq
  exact ⟨rfl, rfl, rfl, rfl, rfl, rfl, rfl, rfl, rfl, fun _ _ => rfl, fun _ _ => rfl,
    fun _ _ => rfl, fun _ _ => rfl, rfl, rfl, rfl, hg.inbox, hg.clocks, hg.handovers⟩

/-- Working on a run is local, when it keeps the run's thread, does not settle
it, and leaves what was heard of it. -/
theorem of_did {w : Sheet} (hd : s.Did h r w s') (hw : w.Follows (s.sheet h r)) :
    Local h r s s' := by
  obtain ⟨o, rfl, hg, -⟩ := hd
  exact
    { runs := rfl
      runThreads := rfl
      handlers := rfl
      threads := rfl
      nextHandler := rfl
      threadOf := rfl
      live := rfl
      home := rfl
      cancelCalled := rfl
      run_off := fun r' hr' => by simp [hr']
      trail_off := fun r' hr' => by simp [hr']
      queue_off := fun h' hh' => by simp [hh']
      task_off := fun h' hh' => by simp [hh']
      threadId := by
        rw [State.put_run, Function.update_self]
        exact hw.threadId
      settled := by
        rw [State.put_run, Function.update_self]
        exact hw.settled
      heard := by
        rw [State.put_trail, Function.update_self]
        exact hw.heard
      inbox := hg.inbox
      clocks := hg.clocks
      handovers := hg.handovers }

theorem atHome (hl : Local h r s s') (hs : s.AtHome) : s'.AtHome := by
  intro r' h' hr'
  rw [hl.home]
  exact hs r' h' (hl.runThreads ▸ hr')

end Local

/-! ## Keeping the invariant -/

section Keeping

variable {h : HandlerId} {r : RunId} {s s' : State}

theorem filterMap_arrival_news {l : List Message} (hn : ∀ m ∈ l, s.News h m) :
    l.filterMap Message.arrival? = [] := by
  rw [List.filterMap_eq_nil_iff]
  exact fun m hm => (hn m hm).no_arrival

theorem Local.arriving (hl : Local h r s s') (h' : HandlerId) :
    s'.arriving h' = s.arriving h' := by
  obtain ⟨l, hi, -, hn⟩ := hl.inbox h'
  rw [State.arriving, hi, List.filterMap_append, filterMap_arrival_news hn, List.append_nil]
  rfl

theorem Roll.home_of_live (hs : Roll s) (hr : r ∈ s.live h) : s.home r = some h :=
  hs.atHome r h ((hs.mem_iff h r).1 (List.mem_append_left _ hr))

theorem Roll.held_of_live (hs : Roll s) (hr : r ∈ s.live h) : r ∈ s.runs :=
  (hs.held_iff r).2 ⟨h, (hs.mem_iff h r).1 (List.mem_append_left _ hr)⟩

/-- A run is live on one handler only. -/
theorem Roll.live_unique (hs : Roll s) {h' : HandlerId} (hr : r ∈ s.live h)
    (hr' : r ∈ s.live h') : h = h' :=
  Option.some.inj ((hs.home_of_live hr).symm.trans (hs.home_of_live hr'))

/-- A live run has been read. -/
theorem Roll.not_arriving_of_live (hs : Roll s) {h' : HandlerId} (hr : r ∈ s.live h) :
    r ∉ s.arriving h' := by
  intro ha
  have h1 := (hs.mem_iff h r).1 (List.mem_append_left _ hr)
  have h2 := (hs.mem_iff h' r).1 (List.mem_append_right _ ha)
  have he : h = h' := Option.some.inj (h1.symm.trans h2)
  subst he
  exact List.disjoint_of_nodup_append (hs.nodup h) hr ha

/-- A local change keeps the roll. -/
theorem Roll.local (hs : Roll s) (hl : Local h r s s')
    (hr : r ∈ s.live h ∨ (s.run r).SameDesk (s'.run r))
    (hf : s'.task h = .finished ↔ s.task h = .finished) : Roll s' := by
  have harr := hl.arriving
  have hrun : ∀ h' x, x ∈ s.arriving h' → (s.run x).SameDesk (s'.run x) := by
    intro h' x hx
    by_cases he : x = r
    · subst he
      rcases hr with hr | hr
      · exact absurd hx (hs.not_arriving_of_live hr)
      · exact hr
    · rw [hl.run_off x he]
      exact .refl _
  have hfin : ∀ h', s'.task h' = .finished ↔ s.task h' = .finished := by
    intro h'
    by_cases he : h' = h
    · subst he
      exact hf
    · rw [hl.task_off h' he]
  have hheard : ∀ x, (s'.trail x).heard = (s.trail x).heard := by
    intro x
    by_cases he : x = r
    · subst he
      exact hl.heard
    · rw [hl.trail_off x he]
  refine
    { runs_nodup := by rw [hl.runs]; exact hs.runs_nodup
      held_iff := by rw [hl.runs, hl.runThreads]; exact hs.held_iff
      registered := by rw [hl.runs, hl.handlers]; exact hs.registered
      atHome := hl.atHome hs.atHome
      nodup := fun h' => by rw [hl.live, harr]; exact hs.nodup h'
      mem_iff := fun h' x => by rw [hl.live, harr, hl.runThreads]; exact hs.mem_iff h' x
      arriving := fun h' x hx => by
        rw [harr] at hx
        have hsame := hrun h' x hx
        rw [← hsame.unoffered, ← hsame.isInterjection]
        exact hs.arriving h' x hx
      unsettled := ?_
      thread := ?_
      born := by rw [hl.home, hl.nextHandler]; exact hs.born
      at_desk := fun h' hlt hne => by
        rw [hl.threads, hl.threadOf]
        exact hs.at_desk h' (hl.nextHandler ▸ hlt) (fun h => hne ((hfin h').2 h))
      desk_of := fun t h' ht => by
        rw [hl.nextHandler, hl.threadOf]
        obtain ⟨h1, h2, h3⟩ := hs.desk_of t h' (hl.threads ▸ ht)
        exact ⟨h1, h2, fun h => h3 ((hfin h').1 h)⟩
      gone := fun h' hg => by
        rw [hl.live, harr]
        exact hs.gone h' ((hfin h').1 hg)
      only_fail := ?_
      asked := ?_
      unread := ?_
      posted_home := ?_
      fifo := ?_
      unheard := ?_
      clocks := ?_
      handovers := ?_ }
  · intro x hx
    rw [hl.runs] at hx
    by_cases he : x = r
    · subst he
      rw [hl.settled]
      exact hs.unsettled x hx
    · rw [hl.run_off x he]
      exact hs.unsettled x hx
  · intro x h' hx
    rw [hl.runThreads] at hx
    rw [hl.threadOf, hs.thread x h' hx]
    by_cases he : x = r
    · subst he
      exact hl.threadId.symm
    · rw [hl.run_off x he]
  · intro h' x c hx
    obtain ⟨l, hi, -, hn⟩ := hl.inbox h'
    rw [hi] at hx
    rcases List.mem_append.1 hx with hx | hx
    · exact hs.only_fail h' x c hx
    · exact (hn _ hx).only_fail x c rfl
  · intro h' x hx
    obtain ⟨l, hi, -, hn⟩ := hl.inbox h'
    rw [hi] at hx
    rw [hl.cancelCalled]
    rcases List.mem_append.1 hx with hx | hx
    · exact hs.asked h' x hx
    · exact (hn _ hx).asked x rfl
  · intro h' m hm
    obtain ⟨l, hi, hp, -⟩ := hl.inbox h'
    rw [hi] at hm
    rw [hp]
    rcases List.mem_append.1 hm with hm | hm
    · exact List.mem_append_left _ (hs.unread h' m hm)
    · exact List.mem_append_right _ hm
  · intro h' m x hm hx
    obtain ⟨l, -, hp, hn⟩ := hl.inbox h'
    rw [hp] at hm
    rw [hl.home]
    rcases List.mem_append.1 hm with hm | hm
    · exact hs.posted_home h' m x hm hx
    · exact (hn m hm).at_home x hx
  · intro x h' hx
    obtain ⟨l, hi, hp, -⟩ := hl.inbox h'
    rw [hi, hp, hheard, State.about, List.filter_append]
    rw [hl.home] at hx
    have hf := hs.fifo x h' hx
    rw [State.about] at hf
    rw [hf, State.about, State.about, List.filter_append, List.append_assoc]
  · intro x hx
    rw [hheard]
    exact hs.unheard x (hl.home ▸ hx)
  · intro c hc
    rw [hl.home]
    rcases hl.clocks c hc with hc | hc
    · exact hs.clocks c hc
    · exact hc
  · intro t ht
    rw [hl.home]
    rcases hl.handovers t ht with ⟨u, hu, he⟩ | ht
    · exact he ▸ hs.handovers u hu
    · exact ht

/-- What becomes of a count when only one counted element changes. -/
theorem countP_update {l : List RunId} {p q : RunId → Bool} (hl : l.Nodup) (hr : r ∈ l)
    (hpq : ∀ x, x ≠ r → p x = q x) :
    l.countP q + (if p r then 1 else 0) = l.countP p + (if q r then 1 else 0) := by
  have hperm := List.perm_cons_erase hr
  have hrest : (l.erase r).countP p = (l.erase r).countP q := by
    refine List.countP_congr fun x hx => ?_
    have hne : x ≠ r := by
      rintro rfl
      exact hl.not_mem_erase hx
    rw [hpq x hne]
  rw [hperm.countP_eq, hperm.countP_eq, List.countP_cons, List.countP_cons, hrest]
  omega

/-- Where a held run has been offered, its place is counted. -/
theorem Inv.funded (hs : Inv s) (hr : r ∈ s.runs) : s.Funded r := by
  intro k
  rw [hs.counted, Run.place]
  split
  · rename_i ho
    exact List.countP_pos_iff.2 ⟨r, hr, by simpa using ho⟩
  · exact Nat.zero_le _

/-- A local change keeps every desk in order when it leaves the handler's own
so. -/
private theorem desks_local (hs : InvBut h s) (hl : Local h r s s')
    (hr : r ∈ s.live h ∨ (s.run r).SameDesk (s'.run r))
    (hd : DeskOk s'.run (s'.queue h) (s.live h) (s'.task h)) (h' : HandlerId) :
    DeskOk s'.run (s'.queue h') (s'.live h') (s'.task h') := by
  by_cases he : h' = h
  · subst he
    rw [hl.live]
    exact hd
  · rw [hl.queue_off h' he, hl.task_off h' he, hl.live]
    refine (hs.desk h' he).congr fun x hx => ?_
    by_cases hxr : x = r
    · subst hxr
      rcases hr with hr | hr
      · exact absurd (hs.roll.live_unique hx hr) he
      · exact hr
    · rw [hl.run_off x hxr]
      exact .refl _

/-- The places follow the run a handler works on. -/
private theorem counted_did {w : Sheet} (hs : InvBut h s) (hd : s.Did h r w s')
    (hr : r ∈ s.runs ∨ w.run.offeredTo = (s.run r).offeredTo) (k : Key) :
    (s'.provider k).inFlight = s'.places k := by
  obtain ⟨o, rfl, -, hk⟩ := hd
  have h1 := hk.inFlight k
  have h2 := hs.counted k
  change ((o.providers k).getD {}).inFlight =
    s.runs.countP fun x => (Function.update s.run r w.run x).offeredTo = some k
  rcases hr with hr | hr
  · have h3 := countP_update (p := fun x => (s.run x).offeredTo = some k)
      (q := fun x => (Function.update s.run r w.run x).offeredTo = some k)
      hs.roll.runs_nodup hr (fun x hx => by rw [Function.update_of_ne hx])
    simp only [Function.update_self, decide_eq_true_eq] at h3
    simp only [Run.place, State.places] at h1 h2
    omega
  · have hsame : (s.runs.countP fun x =>
        (Function.update s.run r w.run x).offeredTo = some k) = s.places k := by
      refine List.countP_congr fun x _ => ?_
      by_cases hx : x = r
      · subst hx
        rw [Function.update_self, hr]
      · rw [Function.update_of_ne hx]
    rw [hsame]
    simp only [Run.place, hr] at h1
    omega

/-- **Working on a live run keeps the invariant** when it leaves the handler's
desk in order. -/
theorem InvBut.did {w : Sheet} (hs : InvBut h s) (hd : s.Did h r w s')
    (hw : w.Follows (s.sheet h r))
    (hr : r ∈ s.live h ∨
      (s.run r).SameDesk w.run ∧ w.run.offeredTo = (s.run r).offeredTo)
    (hf : w.task = .finished ↔ s.task h = .finished)
    (hdesk : DeskOk (Function.update s.run r w.run) w.queue (s.live h) w.task) : Inv s' := by
  have hl : Local h r s s' := .of_did hd hw
  have hrun : s'.run = Function.update s.run r w.run := by
    obtain ⟨o, rfl, -⟩ := hd
    rfl
  have htask : s'.task h = w.task := congrArg Sheet.task hd.sheet
  have hr' : r ∈ s.live h ∨ (s.run r).SameDesk (s'.run r) := by
    rw [hd.run]
    exact hr.imp_right And.left
  refine ⟨hs.roll.local hl hr' ?_, desks_local hs hl hr' ?_,
    counted_did hs hd (hr.imp hs.roll.held_of_live And.right)⟩
  · rw [htask]
    exact hf
  · rw [hrun, hd.queue, htask]
    exact hdesk

/-- News changes no desk. -/
theorem Inv.quiet (hs : Inv s) (hq : s.Quiet s') : Inv s' := by
  have hl : Local 0 "" s s' := .of_quiet hq
  obtain ⟨o, rfl, -, hp⟩ := hq
  exact ⟨hs.roll.local hl (.inr (.refl _)) .rfl, hs.desk,
    fun k => (hp k).trans (hs.counted k)⟩

end Keeping

end Funduq.Broker
