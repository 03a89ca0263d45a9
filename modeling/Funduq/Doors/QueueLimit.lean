import Funduq.Doors.History

/-!
# The queue limit

`ensure_queue_room` counts and `create_run` inserts, and other requests come in
between.  What keeps the count is the thread's row: every door that opens a run
that answers nothing has written to it first, and keeps it until the commit.  So
while a request holds the row, runs on the thread may be accepted, fail or be
answered, but none that counts is added.
-/

namespace Funduq.Doors

open Funduq.Lib Funduq.Store
open Funduq.Broker (Status)

/-- The run was opened without answering anything. -/
def unasked (w : World) (runId : String) : Bool :=
  w.openings.any fun o => o.handed.runId = runId && o.answers.isNone

/-- A run of the thread that answers nothing and that no provider has accepted. -/
def isPending (w : World) (threadId : String) (r : RunRecord) : Bool :=
  r.threadId = threadId && World.pendingRunStatuses.contains r.status && unasked w r.runId

/-- How many there are. -/
def pendingUtterances (w : World) (threadId : String) : Nat :=
  w.runs.countP (isPending w threadId)

/-- They are among the runs `ensure_queue_room` counts. -/
theorem pendingUtterances_le (w : World) (threadId : String) :
    pendingUtterances w threadId ≤ w.countQueuedRunsForThread threadId := by
  unfold pendingUtterances World.countQueuedRunsForThread World.runsOf
  rw [List.filter_filter, List.countP_eq_length_filter]
  apply List.Sublist.length_le
  apply List.monotone_filter_right
  intro r hr
  simp only [isPending, Bool.and_eq_true, decide_eq_true_eq, List.contains_iff_mem] at hr
  simp [hr.1.1, hr.1.2]

/-- What opens nothing adds nothing. -/
theorem Still.pendingUtterances_le {w w' : World} (h : Still w w') (threadId : String) :
    pendingUtterances w' threadId ≤ pendingUtterances w threadId := by
  obtain ⟨f, hf, hruns⟩ := h.runs
  unfold pendingUtterances
  rw [hruns, List.countP_map]
  apply List.countP_mono_left
  intro r _ hr
  simp only [isPending, unasked, Function.comp_apply, Bool.and_eq_true, decide_eq_true_eq,
    List.contains_iff_mem, h.openings, (hf r).threadId, (hf r).runId] at hr ⊢
  exact ⟨⟨hr.1.1, (hf r).pending hr.1.2⟩, hr.2⟩

variable {PrivateKey PublicKey : Type} {cfg : Config PrivateKey PublicKey}

/-- No thread holds more than its limit. -/
structure Limited (cfg : Config PrivateKey PublicKey) (w : World) : Prop where
  sane : Sane w
  limit : ∀ limit threadId, cfg.threadQueueLimit = some limit →
    pendingUtterances w threadId ≤ limit.toNat

/-- What a request relies on: nobody adds to a thread whose row it has. -/
structure Guarded (held : List Name) (w w' : World) : Prop where
  undisturbed : Undisturbed held w w'
  pending : ∀ threadId, .own threadId ∈ held →
    pendingUtterances w' threadId ≤ pendingUtterances w threadId

theorem guarded_steady : Steady Guarded where
  refl H w := ⟨undisturbed_steady.refl H w, fun _ _ => Nat.le_refl _⟩
  trans H a b c h h' := ⟨undisturbed_steady.trans H a b c h.undisturbed h'.undisturbed,
    fun t ht => Nat.le_trans (h'.pending t ht) (h.pending t ht)⟩
  anti hsub h := ⟨undisturbed_steady.anti hsub h.undisturbed, fun t ht => h.pending t (hsub ht)⟩

section

variable {W : World → Prop} {R : List Name → World → World → Prop} {call : Call}
  {held : List Name} {w : World} {front : List Write} {o : Opened}

/-- Opening a run adds it to its thread if it answers nothing, and nothing to any
other thread. -/
theorem Opens.pendingUtterances (h : Opens cfg W R call held w front o)
    (hU : ∀ H a b, R H a b → Undisturbed H a b) (hs : Sane w) (threadId : String) :
    pendingUtterances (db.view w (front ++ o.writes)) threadId =
      pendingUtterances w threadId +
        if o.threadId = threadId ∧ o.answers = none then 1 else 0 := by
  have hfresh : ∀ r ∈ w.runs, r.runId ≠ o.input.runId := by
    rw [h.runId_eq]
    exact (h.fresh_runId hU).2
  rw [o.view h.thread.front]
  -- Nothing that was there changes.
  have hold : ∀ r ∈ w.runs, isPending { w with openings := w.openings ++ [o.opening] } threadId r =
      isPending w threadId r := by
    intro r hr
    have hne : o.opening.handed.runId ≠ r.runId := Ne.symm (hfresh r hr)
    simp [isPending, unasked, List.any_append, hne]
  have hnone : (w.openings.any fun o' => o'.handed.runId = o.row.runId && o'.answers.isNone) =
      false := by
    rw [List.any_eq_false]
    intro o' ho'
    obtain ⟨r, hr, hb⟩ := hs.run_of_opening ho'
    have hne : o'.handed.runId ≠ o.row.runId := by
      rw [hb.runId]
      exact hfresh r hr
    simp [hne]
  have hnew : isPending { w with openings := w.openings ++ [o.opening] } threadId o.row =
      decide (o.threadId = threadId ∧ o.answers = none) := by
    unfold isPending unasked
    rw [List.any_append, hnone, show o.row.threadId = o.threadId from h.threadId_eq]
    cases ha : o.answers with
    | none => simp [Opened.opening, Opened.row, Opened.handed, dispatchedOf, rowOf, ha,
        World.pendingRunStatuses]
    | some run => simp [Opened.opening, ha]
  show (w.runs ++ [o.row]).countP (isPending { w with openings := w.openings ++ [o.opening] }
    threadId) = _
  rw [List.countP_append, List.countP_congr fun r hr => by rw [hold r hr], List.countP_singleton,
    hnew]
  simp only [decide_eq_true_eq]
  rfl

end

/-- Every commit keeps the limit, and adds to no thread whose row another has. -/
theorem limited_commit {call : Call} {held : List Name} {ws : List Write} {w : World}
    (hw : Limited cfg w) (h : Commits cfg (Limited cfg) Guarded call held ws w) :
    Limited cfg (db.view w ws) ∧
      ∀ held', (∀ id, .own id ∈ held → .own id ∉ held') → Guarded held' w (db.view w ws) := by
  have hU : ∀ H a b, Guarded H a b → Undisturbed H a b := fun _ _ _ hg => hg.undisturbed
  have hsane := h.sane hU (fun _ hl => hl.sane) hw.sane
  rcases h.cases with ⟨front, o, rfl, hopens⟩ | hstill
  · have hcount := hopens.pendingUtterances hU hw.sane
    refine ⟨⟨hsane, fun limit threadId hlimit => ?_⟩, fun held' hsep =>
      ⟨h.undisturbed hsep, fun threadId hown => ?_⟩⟩
    · rw [hcount]
      by_cases hadds : o.threadId = threadId ∧ o.answers = none
      · rw [if_pos hadds]
        obtain ⟨rfl, hanswers⟩ := hadds
        obtain ⟨w₀, hroom, hguard⟩ := (hopens.room hanswers).2 limit hlimit
        have hpending := hguard.pending _ List.mem_cons_self
        have hle := pendingUtterances_le w₀ o.threadId
        omega
      · rw [if_neg hadds]
        exact hw.limit limit threadId hlimit
    · rw [hcount, if_neg]
      · exact Nat.le_refl _
      · rintro ⟨rfl, hanswers⟩
        have hthread := hopens.thread
        rw [hanswers] at hthread
        exact hsep _ hthread.own hown
  · refine ⟨⟨hsane, fun limit threadId hlimit => ?_⟩, fun held' hsep =>
      ⟨h.undisturbed hsep, fun threadId _ => hstill.pendingUtterances_le threadId⟩⟩
    exact Nat.le_trans (hstill.pendingUtterances_le threadId) (hw.limit limit threadId hlimit)

theorem limited_promises : Server.Promises db (program cfg) outside (Limited cfg) Guarded
    (fun r => Commits cfg (Limited cfg) Guarded r.call) where
  refl := guarded_steady.refl
  trans := guarded_steady.trans
  outside w e w' hw h := by
    have hstill := still_outside hw.sane h
    refine ⟨⟨hstill.sane hw.sane, fun limit threadId hlimit => ?_⟩, fun held => ?_⟩
    · exact Nat.le_trans (hstill.pendingUtterances_le threadId) (hw.limit limit threadId hlimit)
    · exact ⟨⟨hstill.later, fun id _ => hstill.fresh⟩,
        fun threadId _ => hstill.pendingUtterances_le threadId⟩
  program r w := wp_program guarded_steady r w

/-- **Main result.**  However the requests interleave, no thread holds more runs that
answer nothing and that nobody has accepted than its limit. -/
theorem queue_limit_is_hard {limit : Int} (hlimit : cfg.threadQueueLimit = some limit)
    {s : Process} (hs : (system cfg Empty).Reachable s) (threadId : String) :
    pendingUtterances s.world threadId ≤ limit.toNat := by
  have hinv := Server.invariant_of_concurrent limited_promises
    (fun c held ws w hw _ hg => by
      obtain ⟨hlimited, hguard⟩ := limited_commit hw hg
      exact ⟨hlimited, fun held' hsep => hguard held' fun id => hsep _ ⟨id, rfl⟩⟩)
    Server.allowed_any
    (fun w hw => ⟨hw.sane, fun limit threadId _ => by
      unfold pendingUtterances
      rw [hw.runs]
      exact Nat.zero_le _⟩) hs.by_any
  exact hinv.inv.limit limit threadId hlimit

namespace Demo

/-- A run opens a thread; two more want to join it at once.  One has the thread's row
and opens, the other finds the thread full. -/
def crowded : Process := after <|
  [calls (.startRun agent (saying "m0") none none)] ++
  advances 0 ["t", "", "", "", "r0", "", "", "", ""] ++
  [calls (.startRun agent (saying "m1") (some "t") none),
    calls (.startRun agent (saying "m2") (some "t") none)] ++
  advances 1 ["", ""] ++ advances 2 [""] ++ advances 1 ["", "r1", "", "", "", ""] ++
  advances 2 ["", ""]

end Demo

/-- The limit is reached. -/
theorem queue_limit_is_hard_reached :
    Demo.config.threadQueueLimit = some 2 ∧ (system Demo.config Empty).Reachable Demo.crowded ∧
      pendingUtterances Demo.crowded.world "t" = 2 ∧
      pendingUtterances Demo.crowded.world "t" ≤ (2 : Int).toNat :=
  ⟨rfl, Demo.after_reachable _, by decide +kernel,
    queue_limit_is_hard rfl (Demo.after_reachable _) "t"⟩

end Funduq.Doors
