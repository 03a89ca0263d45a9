import Funduq.Doors.History

/-!
# One answer per ask

A door looks whether a run waits for an answer, and later writes the run that
answers it.  AG-UI has the thread's row by the time it looks; `resume_run` never
takes it, and A2A takes it after it has looked.  So two requests can both find the
run waiting, and both are let in.

What is left is that a request which looks while nobody else is between its look
and its end finds out the truth: then there is one answer to every ask.
-/

namespace Funduq.Doors

open Funduq.Lib Funduq.Store

/-- The runs that were answered, once for each answer. -/
def answered (w : World) : List String := w.openings.filterMap Opening.answers

/-- The rows that were opened as an answer to `runId`. -/
def answersTo (w : World) (runId : String) : List RunRecord :=
  w.runs.filter fun r => r.parentRunId = some runId &&
    w.openings.any fun o => o.handed.runId = r.runId && o.answers = some runId

/-- A run that was answered has a child. -/
theorem not_answered {w : World} (hs : Sane w) {runId : String} (h : w.childOf runId = none) :
    runId ∉ answered w := by
  intro hmem
  obtain ⟨o, ho, hanswers⟩ := List.mem_filterMap.1 hmem
  obtain ⟨r, hr, hb⟩ := hs.run_of_opening ho
  have hnil := RunRecord.newest_eq_none.1 h
  rw [List.filter_eq_nil_iff] at hnil
  exact hnil r hr (by simp [hb.answers runId hanswers])

/-- No run was answered twice. -/
structure OnceAnswered (w : World) : Prop where
  sane : Sane w
  once : (answered w).Nodup

theorem OnceAnswered.answersTo {w : World} (h : OnceAnswered w) (runId : String) :
    (answersTo w runId).length ≤ 1 := by
  have hnodup : (Doors.answersTo w runId).Nodup := (List.Nodup.of_map _ h.sane.runIds).filter _
  -- Two such rows have the same record.
  have hsame : ∀ r ∈ Doors.answersTo w runId, ∀ r' ∈ Doors.answersTo w runId, r = r' := by
    have hone : ∀ o ∈ w.openings, ∀ o' ∈ w.openings, o.answers = some runId →
        o'.answers = some runId → o = o' := by
      have hlist := h.once
      unfold answered at hlist
      generalize w.openings = openings at hlist
      induction openings with
      | nil => exact List.forall_mem_nil _
      | cons x rest ih =>
          have hrest : (rest.filterMap Opening.answers).Nodup :=
            hlist.sublist ((List.sublist_cons_self x rest).filterMap _)
          have hx : ∀ o ∈ rest, o.answers = some runId → x.answers ≠ some runId := by
            intro o ho hanswers hsome
            rw [List.filterMap_cons_some hsome, List.nodup_cons] at hlist
            exact hlist.1 (List.mem_filterMap.2 ⟨o, ho, hanswers⟩)
          intro o ho o' ho' hanswers hanswers'
          rcases List.mem_cons.1 ho with rfl | hin
          · rcases List.mem_cons.1 ho' with rfl | hin'
            · rfl
            · exact absurd hanswers (hx o' hin' hanswers')
          · rcases List.mem_cons.1 ho' with rfl | hin'
            · exact absurd hanswers' (hx o hin hanswers)
            · exact ih hrest o hin o' hin' hanswers hanswers'
    intro r hr r' hr'
    obtain ⟨hmem, hr⟩ := List.mem_filter.1 hr
    obtain ⟨hmem', hr'⟩ := List.mem_filter.1 hr'
    simp only [Bool.and_eq_true, List.any_eq_true, decide_eq_true_eq] at hr hr'
    obtain ⟨-, o, ho, hid, hanswers⟩ := hr
    obtain ⟨-, o', ho', hid', hanswers'⟩ := hr'
    cases hone o ho o' ho' hanswers hanswers'
    exact List.inj_on_of_nodup_map h.sane.runIds hmem hmem' (hid.symm.trans hid')
  match hl : Doors.answersTo w runId with
  | [] => exact Nat.zero_le _
  | [_] => exact Nat.le_refl _
  | r :: r' :: rest =>
      rw [hl] at hnodup hsame
      have heq := hsame r List.mem_cons_self r' (List.mem_cons_of_mem _ List.mem_cons_self)
      rw [List.nodup_cons] at hnodup
      exact absurd (heq ▸ List.mem_cons_self) hnodup.1

/-- What a request relies on: nobody answers the run it has looked at. -/
structure Unanswered (held : List Name) (w w' : World) : Prop where
  undisturbed : Undisturbed held w w'
  unanswered : ∀ runId, .inside runId ∈ held → runId ∈ answered w' → runId ∈ answered w

theorem unanswered_steady : Steady Unanswered where
  refl H w := ⟨undisturbed_steady.refl H w, fun _ _ h => h⟩
  trans H a b c h h' := ⟨undisturbed_steady.trans H a b c h.undisturbed h'.undisturbed,
    fun x hx hc => h.unanswered x hx (h'.unanswered x hx hc)⟩
  anti hsub h := ⟨undisturbed_steady.anti hsub h.undisturbed,
    fun x hx => h.unanswered x (hsub hx)⟩

theorem Still.answered {w w' : World} (h : Still w w') : answered w' = answered w := by
  unfold Doors.answered
  rw [h.openings]

variable {PrivateKey PublicKey : Type} {cfg : Config PrivateKey PublicKey}

/-- A commit answers at most the run its request has looked at. -/
theorem once_commit {call : Call} {held : List Name} {ws : List Write} {w : World}
    (hw : OnceAnswered w) (h : Commits cfg OnceAnswered Unanswered call held ws w) :
    OnceAnswered (db.view w ws) ∧
      ∀ held', (∀ n ∈ held, n ∉ held') → Unanswered held' w (db.view w ws) := by
  have hU : ∀ H a b, Unanswered H a b → Undisturbed H a b := fun _ _ _ hg => hg.undisturbed
  have hsane := h.sane hU (fun _ ho => ho.sane) hw.sane
  have hundisturbed : ∀ held', (∀ n ∈ held, n ∉ held') → Undisturbed held' w (db.view w ws) :=
    fun held' hsep => h.undisturbed fun id hid => hsep _ hid
  rcases h.cases with ⟨front, o, rfl, hopens⟩ | hstill
  · have hanswered : answered (db.view w (front ++ o.writes)) =
        answered w ++ (o.answers.map RunRecord.runId).toList := by
      rw [o.view hopens.thread.front]
      show (w.openings ++ [o.opening]).filterMap Opening.answers = _
      rw [List.filterMap_append]
      cases ha : o.answers <;> simp [answered, Opened.opening, ha]
    cases ha : o.answers with
    | none =>
        rw [ha, Option.map_none, Option.toList_none, List.append_nil] at hanswered
        refine ⟨⟨hsane, ?_⟩, fun held' hsep => ⟨hundisturbed held' hsep, fun x _ hx => ?_⟩⟩
        · rw [hanswered]
          exact hw.once
        · rwa [hanswered] at hx
    | some run =>
        rw [ha, Option.map_some, Option.toList_some] at hanswered
        have hawaits := (hopens.answers run ha).1
        obtain ⟨w₀, ⟨hw₀, hchild⟩, hr⟩ := hawaits.unanswered
        have hnot : run.runId ∉ answered w := fun hmem =>
          not_answered hw₀.sane hchild (hr.unanswered _ List.mem_cons_self hmem)
        refine ⟨⟨hsane, ?_⟩, fun held' hsep => ⟨hundisturbed held' hsep, fun x hx hmem => ?_⟩⟩
        · rw [hanswered, List.nodup_append']
          refine ⟨hw.once, List.nodup_singleton _, ?_⟩
          intro x hx hin
          rw [List.mem_singleton.1 hin] at hx
          exact hnot hx
        · rw [hanswered] at hmem
          rcases List.mem_append.1 hmem with hmem | hmem
          · exact hmem
          · rw [List.mem_singleton.1 hmem] at hx
            exact absurd hx (hsep _ hawaits.inside)
  · refine ⟨⟨hsane, ?_⟩, fun held' hsep => ⟨hundisturbed held' hsep, fun x _ hx => ?_⟩⟩
    · rw [hstill.answered]
      exact hw.once
    · rwa [hstill.answered] at hx

theorem once_promises : Server.Promises db (program cfg) outside OnceAnswered Unanswered
    (fun r => Commits cfg OnceAnswered Unanswered r.call) where
  refl := unanswered_steady.refl
  trans := unanswered_steady.trans
  outside w e w' hw h := by
    have hstill := still_outside hw.sane h
    refine ⟨⟨hstill.sane hw.sane, ?_⟩, fun held => ⟨⟨hstill.later, fun id _ => hstill.fresh⟩, ?_⟩⟩
    · rw [hstill.answered]
      exact hw.once
    · intro x _ hx
      rwa [hstill.answered] at hx
  program r w := wp_program unanswered_steady r w

/-- A request comes to look whether a run waits only while no other request that
looked at it is under way. -/
def looksAlone (s : Process) : Move Request Outside → Bool
  | .advance i _ =>
      match (s.txns[i]?).map Txn.prog with
      | some (.enter runId _) => (s.txns.eraseIdx i).all fun u => .inside runId ∉ u.held
      | _ => true
  | _ => true

theorem looksAlone_enter {s : Process} {i j : Nat} {id runId : String}
    {t u : Txn World Write DoorError Reply Request} {k : Door Reply}
    (h : looksAlone s (.advance i id) = true) (ht : s.txns[i]? = some t)
    (hprog : t.prog = .enter runId k) (hu : s.txns[j]? = some u) (hj : j ≠ i) :
    .inside runId ∉ u.held := by
  simp only [looksAlone, ht, Option.map_some, hprog, List.all_eq_true, decide_eq_true_eq] at h
  exact h u (List.mem_eraseIdx_iff_getElem?.2 ⟨j, hj, hu⟩)

/-- **Main result.**  Where every request looks alone, at most one row was opened as
the answer to any run. -/
theorem one_answer_per_ask {s : Process}
    (hs : (system cfg Empty).ReachableBy (fun s a => looksAlone s a = true) s) (runId : String) :
    (answersTo s.world runId).length ≤ 1 := by
  have hinv := Server.invariant_of_concurrent (A := fun _ _ _ => True) (D := fun _ => True)
    once_promises
    (fun c held ws w hw _ hg => by
      obtain ⟨honce, hguard⟩ := once_commit hw hg
      exact ⟨honce, fun held' hsep => hguard held' fun n hn => hsep n trivial hn⟩)
    ⟨fun _ _ _ _ _ _ _ => trivial, fun s i id t j u n k hc ht hu hj hprog _ =>
      looksAlone_enter hc ht hprog hu hj⟩
    (fun w hw => ⟨hw.sane, by
      unfold answered
      rw [hw.openings]
      exact List.nodup_nil⟩) hs
  exact hinv.inv.answersTo runId

namespace Demo

/-- A run asks; it is answered, and the second answer comes too late. -/
def answeredOnce : List (Move Request Outside) :=
  paused ++ [calls (.resumeRun "r0" (saying "m1") none)] ++
  advances 1 ["", "", "", "", "", "r1", "", "", "", ""] ++
  [calls (.resumeRun "r0" (saying "m2") none)] ++ advances 2 ["", "", "", "", "", ""]

/-- Two answers come at once: both look before either is in. -/
def answeredTwice : List (Move Request Outside) :=
  paused ++ [calls (.resumeRun "r0" (saying "m1") none),
    calls (.resumeRun "r0" (saying "m2") none)] ++
  advances 1 ["", "", "", "", ""] ++ advances 2 ["", "", "", "", ""] ++
  advances 1 ["r1", "", "", "", ""] ++ advances 2 ["r2", "", "", "", ""]

end Demo

theorem one_answer_per_ask_answered :
    (system Demo.config Empty).ReachableBy (fun s a => looksAlone s a = true)
        (Demo.after Demo.answeredOnce) ∧
      (answersTo (Demo.after Demo.answeredOnce).world "r0").map RunRecord.runId = ["r1"] ∧
      (answersTo (Demo.after Demo.answeredOnce).world "r0").length ≤ 1 := by
  have hreach : (system Demo.config Empty).ReachableBy (fun s a => looksAlone s a = true)
      (Demo.after Demo.answeredOnce) :=
    System.ReachableBy.runFrom (fun _ _ h => h) (.init Demo.start_init) (by decide +kernel)
  exact ⟨hreach, by decide +kernel, one_answer_per_ask hreach "r0"⟩

/-- Both answers are in. -/
theorem two_answers_one_ask :
    (system Demo.config Empty).Reachable (Demo.after Demo.answeredTwice) ∧
      (answersTo (Demo.after Demo.answeredTwice).world "r0").map RunRecord.runId =
        ["r1", "r2"] :=
  ⟨Demo.after_reachable _, by decide +kernel⟩

end Funduq.Doors
