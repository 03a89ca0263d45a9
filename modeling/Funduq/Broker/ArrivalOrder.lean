import Funduq.Broker.Arrivals

/-!
# A thread keeps arrival order

The runs of a thread are offered in the order they came in, those addressed to no
run among themselves, and those addressed to one run among themselves.  For the
first the queue sees to it.  A run addressed to the turn in flight is not only
queued: it joins the turn as it arrives, it is released when the turn is claimed,
and when there is no place for it it goes back in the queue right behind the turn.
That keeps the order as long as no other run addressed to the same turn waits
there (`State.keepsTurn`): one that is turned back goes in front of those that came
before it, and one that finds a place overtakes them.
-/

namespace Funduq.Broker

open Funduq.Lib

/-! ## The line -/

theorem filter_sublist_of_imp {α : Type} {p q : α → Bool} {l : List α}
    (h : ∀ x ∈ l, p x = true → q x = true) : (l.filter p).Sublist (l.filter q) := by
  have heq : l.filter p = (l.filter q).filter p := by
    rw [List.filter_filter]
    refine List.filter_congr fun x hx => ?_
    cases hp : p x with
    | true => rw [h x hx hp]; rfl
    | false => rfl
  rw [heq]
  exact List.filter_sublist

namespace State

/-- Run `r` is addressed to `c`, and has not been offered. -/
def waits (s : State) (c : Option RunId) (r : RunId) : Bool :=
  (s.run r).addressedRunId = c && (s.trail r).offers.isEmpty

/-- The runs addressed to `c` that wait on handler `h`, in the order they would be
offered. -/
def line (s : State) (c : Option RunId) (h : HandlerId) : List RunId :=
  (s.queue h ++ s.arriving h).filter (s.waits c)

/-- A run addressed to the turn `x` joins it as it arrives only when no other run
addressed to `x` waits, and while others follow it finds a place when it is
released. -/
def keepsTurn (x : RunId) (s : State) : Action → Bool
  | .take h =>
      match s.inbox h with
      | .queued r :: _ =>
          !(s.joinsTurn h r && (s.run r).addressedRunId = some x &&
            (s.queue h).tail.any fun q => (s.run q).addressedRunId = some x)
      | _ => true
  | .resume h =>
      match s.task h with
      | .at (.joining head (y :: _ :: _)) => head ≠ x || s.hasPlace y
      | _ => true
  | _ => true

/-- While the runs that join a turn are released, no other run addressed to the
turn waits. -/
def Released (c : Option RunId) (s : State) : Prop :=
  ∀ h head y rest, (s.task h).cont? = some (.joining head (y :: rest)) → c = some head →
    ∀ r ∈ s.queue h, s.waits c r = true → r ∈ y :: rest

end State

section Reachable

variable {cfg : Config} {db : RunId → Option Row} {s s' : State} {h : HandlerId} {r : RunId}
  {a : Action} {c : Option RunId}

theorem waits_iff : s.waits c r = true ↔
    (s.run r).addressedRunId = c ∧ (s.trail r).offers = [] := by
  simp [State.waits]

theorem home_of_queued (hs : Inv s) (hr : r ∈ s.queue h ++ s.arriving h) :
    s.home r = some h := by
  rcases List.mem_append.1 hr with hr | hr
  · exact hs.roll.home_of_live ((hs.desk h).sub r hr)
  · exact hs.roll.atHome r h ((hs.roll.mem_iff h r).1 (List.mem_append_right _ hr))

/-- Whoever waits after a step waited before it. -/
theorem Reachable.waits_of_step (hs : Reachable cfg db s) (hstep : s.step cfg a = some s')
    (hh : s.home r = some h) (hw : s'.waits c r = true) : s.waits c r = true := by
  obtain ⟨ha, ho⟩ := waits_iff.1 hw
  refine waits_iff.2 ⟨(hs.bound_kept hh hstep).1 ▸ ha, ?_⟩
  by_contra hne
  exact hs.offers_kept hstep hne ho

/-- A run somebody holds does not wait. -/
theorem Reachable.not_waits_of_claimed (hs : Reachable cfg db s)
    (hc : (s.run r).claimedBy.isSome = true) : s.waits c r = false := by
  refine Bool.eq_false_iff.2 fun hw => ?_
  obtain ⟨k, hk⟩ := Option.isSome_iff_exists.1 hc
  have hkey := (reachable_noted hs r).key (.inr hk)
  change (s.trail r).offers.map _ = _ at hkey
  rw [(waits_iff.1 hw).2] at hkey
  cases hkey

/-- The line does not grow where the queue and what arrives do not. -/
theorem Reachable.line_of_sublist (hs : Reachable cfg db s) (hstep : s.step cfg a = some s')
    (hsub : (s'.queue h ++ s'.arriving h).Sublist (s.queue h ++ s.arriving h)) :
    (s'.line c h).Sublist (s.line c h) := by
  refine List.Sublist.trans ?_ (hsub.filter (s.waits c))
  exact filter_sublist_of_imp fun r hr hw =>
    hs.waits_of_step hstep (home_of_queued (reachable_inv hs) (hsub.subset hr)) hw

/-- A run goes back behind the turn at the head of the queue it was taken from. -/
theorem Reachable.line_of_turnedBack {head x : RunId} {q arr : List RunId}
    (hs : Reachable cfg db s) (hstep : s.step cfg a = some s')
    (hsub : (head :: q ++ arr).Sublist (s.queue h ++ s.arriving h))
    (hfirst : (x :: arr).Sublist (s.queue h ++ s.arriving h))
    (hhead : s'.waits c head = false)
    (hbehind : (s'.run x).addressedRunId = c → ∀ r ∈ q, s'.waits c r = false) :
    ((head :: x :: q ++ arr).filter (s'.waits c)).Sublist (s.line c h) := by
  have hmono : ∀ l : List RunId, l.Sublist (s.queue h ++ s.arriving h) →
      (l.filter (s'.waits c)).Sublist (s.line c h) := by
    intro l hl
    refine List.Sublist.trans ?_ (hl.filter (s.waits c))
    exact filter_sublist_of_imp fun r hr hw =>
      hs.waits_of_step hstep (home_of_queued (reachable_inv hs) (hl.subset hr)) hw
  by_cases ha : (s'.run x).addressedRunId = c
  · have hq : q.filter (s'.waits c) = [] :=
      List.filter_eq_nil_iff.2 fun r hr => by rw [hbehind ha r hr]; exact nofun
    have heq : (head :: x :: q ++ arr).filter (s'.waits c) = (x :: arr).filter (s'.waits c) := by
      rw [List.cons_append, List.filter_cons_of_neg (by rw [hhead]; exact nofun), List.cons_append,
        List.filter_cons, List.filter_append, hq, List.nil_append, ← List.filter_cons]
    rw [heq]
    exact hmono _ hfirst
  · have hw : s'.waits c x = false := Bool.eq_false_iff.2 fun hw => ha (waits_iff.1 hw).1
    have heq : (head :: x :: q ++ arr).filter (s'.waits c) =
        (head :: q ++ arr).filter (s'.waits c) := by
      rw [List.cons_append, List.cons_append, List.filter_cons_of_neg (by rw [hhead]; exact nofun),
        List.filter_cons_of_neg (by rw [hw]; exact nofun), List.cons_append,
        List.filter_cons_of_neg (by rw [hhead]; exact nofun)]
    rw [heq]
    exact hmono _ hsub

/-- The turn a run joins is at the head of the queue. -/
theorem joinsTurn_cases (hj : s.joinsTurn h r = true) :
    ∃ head tl, s.queue h = head :: tl ∧ (s.run head).claimedBy.isSome = true ∧
      (s.run r).addressedRunId = some head := by
  unfold State.joinsTurn at hj
  cases hq : s.queue h with
  | nil =>
      rw [hq] at hj
      cases hj
  | cons head tl =>
      rw [hq] at hj
      obtain ⟨hc, ha⟩ := of_decide_eq_true hj
      exact ⟨head, tl, rfl, hc, ha⟩

theorem insertIdx_behind (head x : RunId) (tl : List RunId) :
    (head :: tl).insertIdx (min 1 (head :: tl).length) x = head :: x :: tl := by
  simp

/-- The line where the handler takes in a run. -/
theorem Reachable.line_of_queued {rest : List Message} (hs : Reachable cfg db s)
    (hC : ∀ x, c = some x → s.keepsTurn x (.take h) = true)
    (hin : s.inbox h = .queued r :: rest) (hstep : s.step cfg (.take h) = some s') :
    (s'.line c h).Sublist (s.line c h) := by
  have harr : s.arriving h = r :: s'.arriving h := by
    rw [(State.arrivals_step (fun e he => by cases he) hstep h).2, State.arriving, hin]
    simp [State.unread, hin, Message.arrival?]
  have hqueue := State.take_queued_queue hin hstep
  cases hj : s.joinsTurn h r with
  | false =>
      refine hs.line_of_sublist hstep ?_
      rw [hqueue, hj, if_neg (by simp), harr, List.append_assoc]
      exact .refl _
  | true =>
      rw [hj, if_pos rfl] at hqueue
      cases hp : s.hasPlace r with
      | true =>
          refine hs.line_of_sublist hstep ?_
          rw [hqueue, hp, if_pos rfl, harr]
          exact (List.sublist_cons_self ..).append_left _
      | false =>
          obtain ⟨head, tl, hq, hclaimed, haddr⟩ := joinsTurn_cases hj
          rw [hp, if_neg (by simp), hq, insertIdx_behind] at hqueue
          have hhome : ∀ x ∈ head :: tl, s.home x = some h := fun x hx =>
            home_of_queued (reachable_inv hs) (List.mem_append_left _ (hq ▸ hx))
          unfold State.line
          rw [hqueue]
          refine hs.line_of_turnedBack hstep ?_ ?_ ?_ ?_
          · rw [hq, harr]
            exact (List.sublist_cons_self ..).append_left _
          · rw [harr]
            exact List.sublist_append_right _ _
          · refine Bool.eq_false_iff.2 fun hw => ?_
            have := hs.waits_of_step hstep (hhome head List.mem_cons_self) hw
            rw [hs.not_waits_of_claimed hclaimed] at this
            cases this
          · -- Nobody addressed to the same turn waits behind it.
            intro hr x hx
            refine Bool.eq_false_iff.2 fun hw => ?_
            have hw := hs.waits_of_step hstep (hhome x (List.mem_cons_of_mem _ hx)) hw
            have hrhome : s.home r = some h := home_of_queued (reachable_inv hs)
              (List.mem_append_right _ (by rw [harr]; exact List.mem_cons_self))
            rw [(hs.bound_kept hrhome hstep).1, haddr] at hr
            have hkeeps := hC head hr.symm
            have hany : ((s.queue h).tail.any fun q =>
                decide ((s.run q).addressedRunId = some head)) = true := by
              rw [hq]
              exact List.any_eq_true.2 ⟨x, hx, decide_eq_true ((waits_iff.1 hw).1.trans hr.symm)⟩
            simp [State.keepsTurn, hin, hj, haddr, hany] at hkeeps

/-- The line where the handler's coroutine goes on. -/
theorem Reachable.line_of_resume (hs : Reachable cfg db s) (hrel : s.Released c)
    (hC : ∀ x, c = some x → s.keepsTurn x (.resume h) = true)
    (hstep : s.step cfg (.resume h) = some s') : (s'.line c h).Sublist (s.line c h) := by
  have hinv := reachable_inv hs
  have harr : s'.arriving h = s.arriving h :=
    (State.arrivals_step (fun e he => by cases he) hstep h).2
  have hsub : (s'.queue h).Sublist (s.queue h) → (s'.line c h).Sublist (s.line c h) := by
    intro hq
    refine hs.line_of_sublist hstep ?_
    rw [harr]
    exact hq.append_right _
  have hmoved := State.resume_queue hstep
  generalize ht : s.task h = t at hmoved
  generalize hq' : s'.queue h = q' at hmoved hsub
  cases hmoved with
  | same _ _ => exact hsub (.refl _)
  | settles => exact hsub List.erase_sublist
  | advances => exact hsub (List.dropWhile_sublist _)
  | joins _ => exact hsub List.erase_sublist
  | @turnsBack head x rest hp =>
      have hbusy := (hinv.desk h).busy
      rw [ht] at hbusy
      obtain ⟨tl, hq, hrest, hclaimed, haddr⟩ := hbusy
      have hnodup := (hinv.desk h).nodup
      rw [hq] at hnodup
      have hxtl : x ∈ tl := hrest.subset List.mem_cons_self
      have hne : head ≠ x := by
        rintro rfl
        exact (List.nodup_cons.1 hnodup).1 hxtl
      have hhome : ∀ y ∈ head :: tl, s.home y = some h := fun y hy =>
        home_of_queued hinv (List.mem_append_left _ (hq ▸ hy))
      have herase : (head :: tl).erase x = head :: tl.erase x :=
        List.erase_cons_tail (by simpa using hne)
      rw [hq, herase, insertIdx_behind] at hq'
      unfold State.line
      rw [hq', harr]
      refine hs.line_of_turnedBack hstep ?_ ?_ ?_ ?_
      · rw [hq]
        exact (List.erase_sublist.cons_cons head).append_right _
      · rw [hq]
        exact ((List.singleton_sublist.2 hxtl).cons head).append_right _
      · refine Bool.eq_false_iff.2 fun hw => ?_
        have := hs.waits_of_step hstep (hhome head List.mem_cons_self) hw
        rw [hs.not_waits_of_claimed hclaimed] at this
        cases this
      · -- The last of those that join is the last that waits.
        intro hx y hy
        refine Bool.eq_false_iff.2 fun hw => ?_
        have hytl : y ∈ tl := List.mem_of_mem_erase hy
        have hw := hs.waits_of_step hstep (hhome y (List.mem_cons_of_mem _ hytl)) hw
        rw [(hs.bound_kept (hhome x (List.mem_cons_of_mem _ hxtl)) hstep).1,
          haddr x List.mem_cons_self] at hx
        have hlast : rest = [] := by
          cases rest with
          | nil => rfl
          | cons z rest =>
              have hkeeps := hC head hx.symm
              simp [State.keepsTurn, ht, hp] at hkeeps
        have hmem := hrel h head x rest (by rw [ht]; rfl) hx.symm y
          (hq ▸ List.mem_cons_of_mem _ hytl) hw
        rw [hlast, List.mem_singleton] at hmem
        subst hmem
        exact (List.nodup_cons.1 hnodup).2.not_mem_erase hy

/-- **The line.**  After a step, whoever waits on a handler stands behind those who
waited before, in the order they came in. -/
theorem Reachable.line_step (hs : Reachable cfg db s) (hrel : s.Released c)
    (hC : ∀ x, c = some x → s.keepsTurn x a = true) (hstep : s.step cfg a = some s')
    (h : HandlerId) :
    ∃ new, s'.arrivals h = s.arrivals h ++ new ∧ (s'.line c h).Sublist (s.line c h ++ new) := by
  by_cases he : ∃ e, a = .enqueueRun e
  · obtain ⟨e, rfl⟩ := he
    obtain ⟨h₀, htake⟩ := hs.takesIn_step hstep
    by_cases hh : h = h₀
    · subst hh
      refine ⟨[e.runId], by rw [htake.arrivals, Function.update_self], ?_⟩
      unfold State.line
      rw [htake.queue, htake.arriving, Function.update_self, ← List.append_assoc,
        List.filter_append]
      refine List.Sublist.append ?_ List.filter_sublist
      exact filter_sublist_of_imp fun r hr hw =>
        hs.waits_of_step hstep (home_of_queued (reachable_inv hs) hr) hw
    · refine ⟨[], by rw [htake.arrivals, Function.update_of_ne hh, List.append_nil], ?_⟩
      rw [List.append_nil]
      refine hs.line_of_sublist hstep ?_
      rw [htake.queue, htake.arriving, Function.update_of_ne hh]
  · have he' : ∀ e, a ≠ .enqueueRun e := fun e hea => he ⟨e, hea⟩
    obtain ⟨harrivals, harriving⟩ := State.arrivals_step he' hstep h
    refine ⟨[], by rw [harrivals, List.append_nil], ?_⟩
    rw [List.append_nil]
    by_cases hact : a.handler? = some h
    · cases a with
      | take h' =>
          cases hact
          cases hin : s.inbox h with
          | nil => simp [State.step, State.take, hin] at hstep
          | cons m rest =>
              cases hm : m.arrival? with
              | none =>
                  refine hs.line_of_sublist hstep ?_
                  rw [State.take_queue hin hm hstep, harriving, State.arriving, hin]
                  simp [State.unread, hin, hm]
              | some x =>
                  obtain rfl : m = .queued x := by
                    cases m <;> cases hm
                    rfl
                  exact hs.line_of_queued hC hin hstep
      | transact h' succeeds =>
          cases hact
          refine hs.line_of_sublist hstep ?_
          rw [State.transact_queue hstep, harriving]
          exact .refl _
      | resume h' =>
          cases hact
          exact hs.line_of_resume hrel hC hstep
      | _ => cases hact
    · refine hs.line_of_sublist hstep ?_
      rw [State.queue_of_other (reachable_inv hs) (reachable_sound hs).2 hact hstep, harriving]
      exact ((s.unread_sublist h a).filterMap _).append_left _

end Reachable

/-- The coroutine goes on with the runs that join a turn: it records something of
one of them, has come to the next, or has just claimed the turn. -/
theorem Task.Next.joining {t t' : Task} {head y : RunId} {rest : List RunId}
    (hn : Task.Next t t') (hc : t'.cont? = some (.joining head (y :: rest))) :
    (∃ x ph ret, t = .recording x ph ret (.joining head (y :: rest))) ∨
      (∃ z, t = .at (.joining head (z :: y :: rest))) ∨
      ∃ k, t = .recording head .returned .claimed k ∧ t' = .at (.joining head (y :: rest)) := by
  cases hn with
  | phase =>
      cases hc
      exact .inl ⟨_, _, _, rfl⟩
  | back _ =>
      cases hc
      exact .inl ⟨_, _, _, rfl⟩
  | claimed hk =>
      rcases hk with rfl | rfl | ⟨js, rfl⟩
      · cases hc
      · cases hc
      · cases hc
        exact .inr (.inr ⟨_, rfl, rfl⟩)
  | poisoned =>
      cases hc
      exact .inl ⟨_, _, _, rfl⟩
  | passes =>
      cases hc
      exact .inr (.inl ⟨_, rfl⟩)
  | joins _ =>
      cases hc
      exact .inr (.inl ⟨_, rfl⟩)
  | _ => cases hc

section Reachable

variable {cfg : Config} {db : RunId → Option Row} {s s' : State} {h : HandlerId} {r : RunId}
  {a : Action} {c : Option RunId}

/-- `_release_interjections` takes every run that waits for the turn. -/
theorem Reachable.released_of_claim {head y : RunId} {rest : List RunId} {k : Cont}
    (hs : Reachable cfg db s) (hstep : s.resume cfg h = some s')
    (ht : s.task h = .recording head .returned .claimed k)
    (ht' : s'.task h = .at (.joining head (y :: rest))) (hr : r ∈ s.queue h)
    (hw : s.waits (some head) r = true) : r ∈ y :: rest := by
  have hinv := reachable_inv hs
  have hbusy := (hinv.desk h).busy
  rw [ht] at hbusy
  obtain ⟨-, ⟨-, hclaimed, hturn⟩, -, -⟩ := hbusy
  simp only [State.resume, ht, State.onReturn, State.afterClaim, Option.some.injEq] at hstep
  have hset : ∀ (u : State) (t : Task), (u.setTask h t).task h = t :=
    fun u t => Function.update_self ..
  subst hstep
  split at ht'
  · split at ht'
    · rw [hset] at ht'
      cases ht'
    · rename_i hint
      rw [hset] at ht'
      injection ht' with hk
      injection hk with _ hjoin
      rw [← hjoin]
      have hhead := hturn (Bool.eq_false_iff.2 hint)
      cases hq : s.queue h with
      | nil =>
          rw [hq] at hhead
          cases hhead
      | cons q tl =>
          rw [hq] at hhead hr
          obtain rfl : q = head := Option.some.inj hhead
          have hne : r ≠ q := by
            rintro rfl
            rw [hs.not_waits_of_claimed hclaimed] at hw
            cases hw
          have hlive := (hinv.desk h).sub r (by rw [hq]; exact hr)
          have hheld := (hinv.roll.held_iff r).2
            ⟨h, (hinv.roll.mem_iff h r).1 (List.mem_append_left _ hlive)⟩
          refine List.mem_filter.2 ⟨?_, decide_eq_true ⟨(waits_iff.1 hw).1, ?_⟩⟩
          · rw [hq]
            exact (List.mem_cons.1 hr).resolve_left hne
          · exact hinv.roll.unsettled r hheld
  · rw [hset] at ht'
    cases ht'

theorem State.Released.step (hs : Reachable cfg db s) (hrel : s.Released c)
    (hC : ∀ x, c = some x → s.keepsTurn x a = true) (hstep : s.step cfg a = some s') :
    s'.Released c := by
  intro h head y rest hcont hc r hr hw
  have hinv := reachable_inv hs
  have hinv' := (hs.refines_step hstep).inv
  -- The turn is at the head of the queue, so the handler has long been there.
  have hbound : s.home r = some h → h < s.nextHandler := hinv.roll.born r h
  by_cases hact : a.handler? = some h
  · cases a with
    | take h' =>
        cases hact
        obtain ⟨-, m, -, ht | ⟨x, ph, ret, -, ht⟩⟩ := take_task hstep
        · rw [ht] at hcont
          cases hcont
        · rw [ht] at hcont
          cases hcont
    | transact h' succeeds =>
        cases hact
        have hq := transact_queue hstep
        rw [hq] at hr
        have hw' := hs.waits_of_step hstep (home_of_queued hinv (List.mem_append_left _ hr)) hw
        rcases (transact_next hstep).joining hcont with ⟨x, ph, ret, ht⟩ | ⟨z, ht⟩ | ⟨k, ht, -⟩
        · exact hrel h head y rest (by rw [ht]; rfl) hc r hr hw'
        · simp [step, transact, ht] at hstep
        · simp [step, transact, ht] at hstep
    | resume h' =>
        cases hact
        have hmoved := resume_queue hstep
        have hnodup := (hinv.desk h).nodup
        have hsub : ∀ {r}, r ∈ s.queue h → s'.waits c r = true → s.waits c r = true :=
          fun hr hw => hs.waits_of_step hstep (home_of_queued hinv (List.mem_append_left _ hr)) hw
        rcases (resume_next hstep).joining hcont with ⟨x, ph, ret, ht⟩ | ⟨z, ht⟩ | ⟨k, ht, ht'⟩
        · have hold : r ∈ s.queue h := by
            rw [ht] at hmoved
            generalize s'.queue h = q' at hmoved hr
            cases hmoved with
            | same _ _ => exact hr
            | settles => exact List.mem_of_mem_erase hr
          exact hrel h head y rest (by rw [ht]; rfl) hc r hold (hsub hold hw)
        · have hplace : s.hasPlace z = true := by
            have hkeeps := hC head hc
            simpa [keepsTurn, ht] using hkeeps
          rw [ht] at hmoved
          generalize s'.queue h = q' at hmoved hr
          cases hmoved with
          | same _ hj => exact absurd rfl (hj _ _ _)
          | joins _ =>
              have hold := List.mem_of_mem_erase hr
              have hmem := hrel h head z (y :: rest) (by rw [ht]; rfl) hc r hold (hsub hold hw)
              refine (List.mem_cons.1 hmem).resolve_left ?_
              rintro rfl
              exact hnodup.not_mem_erase hr
          | turnsBack hp => exact absurd (hplace.symm.trans hp) (by simp)
        · have hold : r ∈ s.queue h := by
            rw [ht] at hmoved
            generalize s'.queue h = q' at hmoved hr
            cases hmoved with
            | same _ _ => exact hr
            | settles => exact List.mem_of_mem_erase hr
          exact hs.released_of_claim hstep ht ht' hold (hc ▸ hsub hold hw)
    | _ => cases hact
  · rw [queue_of_other hinv (reachable_sound hs).2 hact hstep] at hr
    have hhome := home_of_queued hinv (List.mem_append_left _ hr)
    rw [task_of_other hinv (reachable_sound hs).2 hact (hbound hhome) hstep] at hcont
    exact hrel h head y rest hcont hc r hr (hs.waits_of_step hstep hhome hw)

/-! ## Who is offered -/

/-- A run that was not offered and has not ended is in the queue, or about to be. -/
theorem Reachable.mem_of_waiting (hs : Reachable cfg db s) (hh : s.home r = some h)
    (ho : (s.trail r).offers = []) (hne : ¬ (s.lane r).Ended) :
    r ∈ s.queue h ++ s.arriving h := by
  have hinv := reachable_inv hs
  have hheld : r ∈ s.runs := by
    by_contra hn
    exact hne (reachable_leftEnded hs r (by rw [show (s.lane r).home = some h from hh]; rfl)
      (decide_eq_false hn))
  obtain ⟨h', hthread⟩ := (hinv.roll.held_iff r).1 hheld
  cases (hinv.roll.atHome r h' hthread).symm.trans hh
  rcases List.mem_append.1 ((hinv.roll.mem_iff h r).2 hthread) with hlive | harr
  · by_contra hn
    have hq : r ∉ s.queue h := fun hq => hn (List.mem_append_left _ hq)
    rcases (hinv.desk h).beside r hlive hq with ⟨-, hu⟩ | ⟨hend, -⟩
    · rcases reachable_noted hs r with ⟨-, hfree, -⟩ | ⟨-, note, hnote, -⟩
      · exact absurd (hu.symm.trans hfree) nofun
      · exact absurd (ho.symm.trans hnote) nofun
    · -- Its end is being recorded.
      cases ht : s.task h with
      | recording x ph ret k =>
          rw [ht] at hend
          cases ret with
          | settle =>
              obtain rfl : x = r := hend
              have hph : (s.lane x).hand = some (ph, .settle) := by
                rw [State.lane_hand hh, ht]
                exact if_pos rfl
              rcases ((reachable_sound hs).2 x).of_hand hph with ⟨_, _, hc, -⟩ | ⟨hc, -⟩ | ⟨-, -, hst⟩
              · cases hc
              · simp at hc
              · exact hne hst
          | _ => exact hend
      | _ =>
          rw [ht] at hend
          exact hend
  · exact List.mem_append_right _ harr

theorem unsettled_eq (hs : Inv s) (h : HandlerId) : s.unsettled h = s.queue h := by
  unfold State.unsettled
  cases hq : s.queue h with
  | nil => rfl
  | cons x tl =>
      have hlive := (hs.desk h).sub x (by rw [hq]; exact List.mem_cons_self)
      have hheld := (hs.roll.held_iff x).2
        ⟨h, (hs.roll.mem_iff h x).1 (List.mem_append_left _ hlive)⟩
      rw [List.dropWhile_cons_of_neg]
      rw [hs.roll.unsettled x hheld]
      exact nofun

/-- **The first in line.**  The run a handler comes to `_offer` with stands before
everybody else who is addressed to the same run. -/
theorem Reachable.first_in_line {x : RunId} (hs : Reachable cfg db s) (hrel : s.Released c)
    (hC : ∀ x, c = some x → s.keepsTurn x a = true) (hact : a.handler? = some h)
    (hoffers : s.offers? a = some r) (hw : s.waits c r = true) (hx : x ∈ s.line c h)
    (hne : x ≠ r) : [r, x].Sublist (s.line c h) := by
  have hinv := reachable_inv hs
  obtain ⟨hmem, hxw⟩ := List.mem_filter.1 hx
  -- It is enough to find the two in this order in the queue and behind it.
  suffices hsub : [r, x].Sublist (s.queue h ++ s.arriving h) by
    have := hsub.filter (s.waits c)
    simpa [State.line, hw, hxw] using this
  have hfront : ∀ l : List RunId, s.queue h ++ s.arriving h = r :: l →
      [r, x].Sublist (s.queue h ++ s.arriving h) := by
    intro l hl
    rw [hl] at hmem ⊢
    exact (List.singleton_sublist.2 ((List.mem_cons.1 hmem).resolve_left hne)).cons_cons r
  cases a with
  | take h' =>
      cases hact
      cases hin : s.inbox h with
      | nil => simp [State.offers?, hin] at hoffers
      | cons m rest =>
          cases m with
          | queued y =>
              simp only [State.offers?, hin, Option.ite_none_right_eq_some,
                Option.some.injEq] at hoffers
              obtain ⟨hj, rfl⟩ := hoffers
              have harr : s.arriving h = y :: rest.filterMap Message.arrival? := by
                rw [State.arriving, hin]
                rfl
              obtain ⟨head, tl, hq, hclaimed, haddr⟩ := joinsTurn_cases hj
              have hc : c = some head := (waits_iff.1 hw).1.symm.trans haddr
              rcases List.mem_append.1 hmem with hmem | hmem
              · -- Nobody else addressed to the turn is in the queue.
                rw [hq] at hmem
                rcases List.mem_cons.1 hmem with rfl | hmem
                · rw [hs.not_waits_of_claimed hclaimed] at hxw
                  cases hxw
                · have hkeeps := hC head hc
                  have hany : ((s.queue h).tail.any fun q =>
                      decide ((s.run q).addressedRunId = some head)) = true := by
                    rw [hq]
                    exact List.any_eq_true.2 ⟨x, hmem,
                      decide_eq_true ((waits_iff.1 hxw).1.trans hc)⟩
                  simp [State.keepsTurn, hin, hj, haddr, hany] at hkeeps
              · refine List.Sublist.trans ?_ (List.sublist_append_right _ _)
                rw [harr] at hmem ⊢
                exact (List.singleton_sublist.2
                  ((List.mem_cons.1 hmem).resolve_left hne)).cons_cons y
          | _ => simp [State.offers?, hin] at hoffers
  | resume h' =>
      cases hact
      cases ht : s.task h with
      | «at» k =>
          cases k with
          | advance =>
              simp only [State.offers?, ht] at hoffers
              obtain ⟨hhead, -⟩ := Option.filter_eq_some_iff.1 hoffers
              rw [unsettled_eq hinv] at hhead
              cases hq : s.queue h with
              | nil =>
                  rw [hq] at hhead
                  cases hhead
              | cons y tl =>
                  rw [hq] at hhead
                  obtain rfl : y = r := Option.some.inj hhead
                  rw [← hq]
                  refine hfront (tl ++ s.arriving h) ?_
                  rw [hq]
                  rfl
          | joining head rest =>
              cases rest with
              | nil => simp [State.offers?, ht] at hoffers
              | cons y rest =>
                  simp only [State.offers?, ht, Option.some.injEq] at hoffers
                  subst hoffers
                  have hbusy := (hinv.desk h).busy
                  rw [ht] at hbusy
                  obtain ⟨tl, hq, hrest, -, haddr⟩ := hbusy
                  have hc : c = some head :=
                    (waits_iff.1 hw).1.symm.trans (haddr y List.mem_cons_self)
                  have hqueue : (y :: rest).Sublist (s.queue h) := by
                    rw [hq]
                    exact hrest.cons head
                  rcases List.mem_append.1 hmem with hmem | hmem
                  · have hin := hrel h head y rest (by rw [ht]; rfl) hc x hmem hxw
                    refine List.Sublist.trans ?_ (hqueue.trans (List.sublist_append_left _ _))
                    exact (List.singleton_sublist.2
                      ((List.mem_cons.1 hin).resolve_left hne)).cons_cons y
                  · exact (List.singleton_sublist.2 (hqueue.subset List.mem_cons_self)).append
                      (List.singleton_sublist.2 hmem)
          | _ => simp [State.offers?, ht] at hoffers
      | _ => simp [State.offers?, ht] at hoffers
  | transact h' succeeds => cases hoffers
  | _ => cases hact

/-- Two runs come in one order. -/
theorem no_swap {l : List RunId} {x y : RunId} (hn : l.Nodup) (hxy : [x, y].Sublist l)
    (hyx : [y, x].Sublist l) : False := by
  induction l with
  | nil => cases hxy
  | cons z l ih =>
      obtain ⟨hz, hn⟩ := List.nodup_cons.1 hn
      cases hxy with
      | cons _ hxy =>
          cases hyx with
          | cons _ hyx => exact ih hn hxy hyx
          | cons_cons _ hyx => exact hz (hxy.subset (by simp))
      | cons_cons _ hxy =>
          cases hyx with
          | cons _ hyx => exact hz (hyx.subset (by simp))
          | cons_cons _ hyx => exact hz (hyx.subset (by simp))

/-- The runs addressed to `c` stand in line, and were offered in the order they came
in. -/
structure State.InLine (c : Option RunId) (s : State) : Prop where
  released : s.Released c
  line : ∀ h, (s.line c h).Sublist (s.arrivals h)
  first : ∀ h r₁ r₂, [r₁, r₂].Sublist (s.arrivals h) → (s.run r₁).addressedRunId = c →
    (s.run r₂).addressedRunId = c → (s.trail r₂).offers ≠ [] →
    (s.trail r₁).offers ≠ [] ∨ (s.lane r₁).Ended

/-- Arrivals only come in behind. -/
theorem Reachable.arrivals_prefix (hs : Reachable cfg db s) (hstep : s.step cfg a = some s')
    (h : HandlerId) : s'.arrivals h = s.arrivals h ∨
      ∃ e, a = .enqueueRun e ∧ s.TakesIn e h s' ∧ s'.arrivals h = s.arrivals h ++ [e.runId] := by
  by_cases he : ∃ e, a = .enqueueRun e
  · obtain ⟨e, rfl⟩ := he
    obtain ⟨h₀, htake⟩ := hs.takesIn_step hstep
    by_cases hh : h = h₀
    · subst hh
      exact .inr ⟨e, rfl, htake, by rw [htake.arrivals, Function.update_self]⟩
    · exact .inl (by rw [htake.arrivals, Function.update_of_ne hh])
  · exact .inl (State.arrivals_step (fun e hea => he ⟨e, hea⟩) hstep h).1

theorem State.InLine.first_step {r₁ r₂ : RunId} (hs : Reachable cfg db s) (hl : s.InLine c)
    (hC : ∀ x, c = some x → s.keepsTurn x a = true) (hstep : s.step cfg a = some s')
    (hsub : [r₁, r₂].Sublist (s.arrivals h)) (ha₁ : (s.run r₁).addressedRunId = c)
    (ha₂ : (s.run r₂).addressedRunId = c) (ho : (s'.trail r₂).offers ≠ []) :
    (s'.trail r₁).offers ≠ [] ∨ (s'.lane r₁).Ended := by
  obtain ⟨hnodup, hmem⟩ := reachable_arrivals hs h
  have hh₁ := (hmem r₁).1 (hsub.subset (by simp))
  have hh₂ := (hmem r₂).1 (hsub.subset (by simp))
  have hkeep : (s.trail r₁).offers ≠ [] ∨ (s.lane r₁).Ended →
      (s'.trail r₁).offers ≠ [] ∨ (s'.lane r₁).Ended := by
    rintro (h₁ | h₁)
    · exact .inl (hs.offers_kept hstep h₁)
    · exact .inr (((hs.refines_step hstep).lane r₁).ended ((reachable_sound hs).2 r₁) hh₁ h₁)
  refine hkeep ?_
  by_cases hold : (s.trail r₂).offers = []
  · rcases hs.offers_step (r := r₂) hstep with hsame | ⟨hoffers, -, h', hact, hh'⟩
    · exact absurd (hsame.trans hold) ho
    · cases hh'.symm.trans hh₂
      by_contra hnot
      obtain ⟨hfree, hgoing⟩ := not_or.1 hnot
      have hfree : (s.trail r₁).offers = [] := not_not.1 hfree
      have hline : r₁ ∈ s.line c h := List.mem_filter.2
        ⟨hs.mem_of_waiting hh₁ hfree hgoing, waits_iff.2 ⟨ha₁, hfree⟩⟩
      have hne : r₁ ≠ r₂ := by
        rintro rfl
        have := hsub.nodup hnodup
        simp at this
      have hswap := hs.first_in_line hl.released hC hact hoffers (waits_iff.2 ⟨ha₂, hold⟩) hline hne
      exact no_swap hnodup hsub (hswap.trans (hl.line h))
  · exact hl.first h r₁ r₂ hsub ha₁ ha₂ hold

theorem State.InLine.step (hs : Reachable cfg db s) (hl : s.InLine c)
    (hC : ∀ x, c = some x → s.keepsTurn x a = true) (hstep : s.step cfg a = some s') :
    s'.InLine c where
  released := hl.released.step hs hC hstep
  line h := by
    obtain ⟨new, harr, hsub⟩ := hs.line_step hl.released hC hstep h
    rw [harr]
    exact hsub.trans ((hl.line h).append_right new)
  first h r₁ r₂ hsub ha₁ ha₂ ho := by
    have hhome : ∀ r ∈ s.arrivals h, s.home r = some h := fun r => ((reachable_arrivals hs h).2 r).1
    have hold : [r₁, r₂].Sublist (s.arrivals h) := by
      rcases hs.arrivals_prefix hstep h with hsame | ⟨e, rfl, htake, happ⟩
      · exact hsame ▸ hsub
      · -- A run that has just come in was not offered.
        rw [happ] at hsub
        obtain ⟨l₁, l₂, hl, h₁, h₂⟩ := List.sublist_append_iff.1 hsub
        rcases List.sublist_singleton.1 h₂ with rfl | rfl
        · rw [List.append_nil] at hl
          exact hl ▸ h₁
        · have hlast : r₂ = e.runId := by
            have := congrArg List.getLast? hl
            simpa using this
          subst hlast
          rw [htake.trail, hs.offers_of_unborn htake.fresh] at ho
          exact absurd rfl ho
    have hh₁ := hhome r₁ (hold.subset (by simp))
    have hh₂ := hhome r₂ (hold.subset (by simp))
    refine hl.first_step hs hC hstep hold ?_ ?_ ho
    · exact (hs.bound_kept hh₁ hstep).1 ▸ ha₁
    · exact (hs.bound_kept hh₂ hstep).1 ▸ ha₂

/-! ## The order of a thread -/

theorem reachableBy_inLine
    (hs : ReachableBy cfg db (fun s a => ∀ x, c = some x → s.keepsTurn x a = true) s) :
    s.InLine c := by
  refine System.ReachableBy.invariant ?_ ?_ hs
  · rintro s rfl
    refine ⟨?_, fun h => .refl _, ?_⟩
    · intro h head y rest hcont
      cases hcont
    · intro h r₁ r₂ hsub
      cases hsub
  · intro s a s' hreach hl hC hstep
    exact hl.step (System.ReachableBy.reachable hreach) hC hstep

/-- While a run of a thread has not ended, the runs that come in on the thread come
in on the same handler. -/
theorem Reachable.behind_step {r₁ r₂ : RunId} (hs : Reachable cfg db s)
    (hh₁ : s.home r₁ = some h) (hgoing : ¬ (s.lane r₁).Ended) (hh₂ : s.home r₂ = none)
    (hstep : s.step cfg a = some s') :
    s'.home r₂ = none ∨ [r₁, r₂].Sublist (s'.arrivals h) ∨
      (s'.home r₂).isSome = true ∧ (s'.run r₁).threadId ≠ (s'.run r₂).threadId := by
  by_cases he : ∃ e, a = .enqueueRun e
  · obtain ⟨e, rfl⟩ := he
    obtain ⟨h₀, htake⟩ := hs.takesIn_step hstep
    by_cases hr : r₂ = e.runId
    · subst hr
      by_cases hh : h₀ = h
      · subst hh
        have hmem := ((reachable_arrivals hs h₀).2 r₁).2 hh₁
        right
        left
        rw [htake.arrivals, Function.update_self]
        exact (List.singleton_sublist.2 hmem).append (.refl [e.runId])
      · right
        right
        refine ⟨by rw [htake.home]; rfl, fun hsame => hh ?_⟩
        have hroll := (reachable_inv hs).roll
        have hheld : r₁ ∈ s.runs := by
          by_contra hn
          exact hgoing (reachable_leftEnded hs r₁
            (by rw [show (s.lane r₁).home = some h from hh₁]; rfl) (decide_eq_false hn))
        obtain ⟨h', hthread⟩ := (hroll.held_iff r₁).1 hheld
        cases (hroll.atHome r₁ h' hthread).symm.trans hh₁
        -- Its handler is at the desk of the thread.
        have hdesk : s.task h ≠ .finished := by
          intro hf
          have hmem := (hroll.mem_iff h r₁).2 hthread
          rw [(hroll.gone h hf).1, (hroll.gone h hf).2] at hmem
          cases hmem
        have hat := hroll.at_desk h (hroll.born r₁ h hh₁) hdesk
        have hid : s.threadOf h = e.threadId := by
          calc s.threadOf h = (s.run r₁).threadId := hroll.thread r₁ h hthread
            _ = (s'.run r₁).threadId := (hs.bound_kept hh₁ hstep).2.symm
            _ = (s'.run e.runId).threadId := hsame
            _ = e.threadId := by rw [htake.run]; rfl
        rw [hid] at hat
        rcases htake.thread with hget | ⟨hget, -⟩
        · exact Option.some.inj (hget.symm.trans hat)
        · exact absurd (hget.symm.trans hat) nofun
    · left
      rw [htake.home_of_ne r₂ hr, hh₂]
  · left
    rw [hs.home_step (fun e hea => he ⟨e, hea⟩) hstep, hh₂]

/-- Run `r₁` is at home on handler `h`, and run `r₂` comes behind it, unless `r₁` has
ended or `r₂` is on another thread. -/
def State.Behind (r₁ r₂ : RunId) (h : HandlerId) (s : State) : Prop :=
  s.home r₁ = some h ∧ ((s.lane r₁).Ended ∨ s.home r₂ = none ∨ [r₁, r₂].Sublist (s.arrivals h) ∨
    (s.home r₂).isSome = true ∧ (s.run r₁).threadId ≠ (s.run r₂).threadId)

theorem State.Behind.step {r₁ r₂ : RunId} (hs : Reachable cfg db s) (hb : s.Behind r₁ r₂ h)
    (hstep : s.step cfg a = some s') : s'.Behind r₁ r₂ h := by
  obtain ⟨hh₁, hb⟩ := hb
  refine ⟨hs.home_kept hh₁ hstep, ?_⟩
  by_cases hended : (s.lane r₁).Ended
  · exact .inl (((hs.refines_step hstep).lane r₁).ended ((reachable_sound hs).2 r₁) hh₁ hended)
  right
  rcases hb with hb | hh₂ | hsub | ⟨hh₂, hne⟩
  · exact absurd hb hended
  · exact hs.behind_step hh₁ hended hh₂ hstep
  · right
    left
    rcases hs.arrivals_prefix hstep h with hsame | ⟨e, -, -, happ⟩
    · exact hsame ▸ hsub
    · rw [happ]
      exact hsub.trans (List.sublist_append_left _ _)
  · right
    right
    obtain ⟨h₂, hh₂⟩ := Option.isSome_iff_exists.1 hh₂
    refine ⟨by rw [hs.home_kept hh₂ hstep]; rfl, ?_⟩
    rw [(hs.bound_kept hh₁ hstep).2, (hs.bound_kept hh₂ hstep).2]
    exact hne

/-- **A thread keeps arrival order.**  Two runs of one thread that are addressed to
the same run, or both to none: the one that was enqueued first has been offered, or
has ended, before the other is offered.  Of runs addressed to `x` that is so where
each finds its turn free (`State.keepsTurn`); of runs addressed to none, always. -/
theorem thread_keeps_arrival_order {t : State} {r₁ r₂ : RunId}
    (hs : ReachableBy cfg db (fun s a => ∀ x, c = some x → s.keepsTurn x a = true) s)
    (hfirst : (s.home r₁).isSome = true) (hsecond : s.home r₂ = none)
    (hrun : (system cfg db).RunsBy (fun s a => ∀ x, c = some x → s.keepsTurn x a = true) s t)
    (hthread : (t.run r₁).threadId = (t.run r₂).threadId)
    (hc₁ : (t.run r₁).addressedRunId = c) (hc₂ : (t.run r₂).addressedRunId = c)
    (hoffered : (t.trail r₂).offers ≠ []) :
    (t.trail r₁).offers ≠ [] ∨ (t.lane r₁).Ended := by
  obtain ⟨h, hh₁⟩ := Option.isSome_iff_exists.1 hfirst
  have ht := System.ReachableBy.runs hs hrun
  have hbehind : t.Behind r₁ r₂ h := by
    clear hthread hc₁ hc₂ hoffered ht
    induction hrun with
    | refl => exact ⟨hh₁, .inr (.inl hsecond)⟩
    | tail hrun hstep ih =>
        obtain ⟨a, -, hstep⟩ := hstep
        exact ih.step (System.ReachableBy.reachable (System.ReachableBy.runs hs hrun)) hstep
  rcases hbehind.2 with hended | hh₂ | hsub | ⟨-, hne⟩
  · exact .inr hended
  · exact absurd (Reachable.offers_of_unborn (System.ReachableBy.reachable ht) hh₂) hoffered
  · exact (reachableBy_inLine ht).first h r₁ r₂ hsub hc₁ hc₂ hoffered
  · exact absurd hthread hne

end Reachable

namespace Demo

/-- Somebody speaks to run `r` while it is running. -/
def interject (r : RunId) : List Action :=
  [.openRow r, .enqueueRun
    { runId := r
      agent := agent
      threadId := "t"
      inputJson := .null
      addressedRunId := some "r" }]

/-- The provider of the turn declares that it takes `n` runs at a time. -/
def declare (n : Nat) : List Action :=
  .registerProvider [(agent, { link with maxConcurrentRuns := some n })] :: look 0

/-- There is room when `i` speaks to the turn. -/
def roomFirst : List Action := claimed ++ declare 3 ++ interject "i"

/-- `i` joins the turn, and `j` after it. -/
def joinInOrder : List Action := record 0 4 ++ interject "j" ++ [.take 0]

/-- There is no room when `i` speaks to the turn, and it waits behind it. -/
def roomLate : List Action := claimed ++ interject "i" ++ look 0

/-- The provider makes room for one, and `j` speaks to the turn. -/
def overtake : List Action := declare 2 ++ interject "j" ++ [.take 0]

end Demo

theorem thread_keeps_arrival_order_interjections :
    let s := State.after Demo.config Demo.roomFirst
    let t := (system Demo.config fun _ => none).runFrom s Demo.joinInOrder
    (s.home "i").isSome = true ∧ s.home "j" = none ∧
      ((t.trail "i").offers ≠ [] ∨ (t.lane "i").Ended) := by
  have hp : ∀ (s : State) (a : Action), s.keepsTurn "r" a = true →
      ∀ x, some "r" = some x → s.keepsTurn x a = true := by
    rintro s a h x ⟨⟩
    exact h
  have hs : ReachableBy Demo.config (fun _ => none)
      (fun s a => ∀ x, some "r" = some x → s.keepsTurn x a = true)
      (State.after Demo.config Demo.roomFirst) :=
    System.ReachableBy.runFrom (p := State.keepsTurn "r") hp (.init rfl) (by decide +kernel)
  have hfirst : ((State.after Demo.config Demo.roomFirst).home "i").isSome = true := by
    decide +kernel
  have hsecond : (State.after Demo.config Demo.roomFirst).home "j" = none := by decide +kernel
  have hrun := System.runsBy_runFrom (p := State.keepsTurn "r") hp
    (show System.allows (system Demo.config fun _ => none) (State.keepsTurn "r")
      (State.after Demo.config Demo.roomFirst) Demo.joinInOrder = true by decide +kernel)
  exact ⟨hfirst, hsecond, thread_keeps_arrival_order hs hfirst hsecond hrun (by decide +kernel)
    (by decide +kernel) (by decide +kernel) (by decide +kernel)⟩

/-- `i` and `j` are addressed to one run of their thread, and `j`, enqueued after `i`,
is offered while `i` is not. -/
theorem interjection_overtaken :
    let s := State.after Demo.config Demo.roomLate
    let t := (system Demo.config fun _ => none).runFrom s Demo.overtake
    Reachable Demo.config (fun _ => none) s ∧
      System.RunsBy (system Demo.config fun _ => none) (fun _ _ => True) s t ∧
      ((s.home "i").isSome = true ∧ s.home "j" = none ∧
        (t.run "i").threadId = (t.run "j").threadId ∧
        (t.run "i").addressedRunId = some "r" ∧ (t.run "j").addressedRunId = some "r" ∧
        (t.trail "j").offers ≠ [] ∧ (t.trail "i").offers = []) ∧ ¬ (t.lane "i").Ended := by
  refine ⟨reachable_after _ _, ?_, by decide +kernel, ?_⟩
  · exact System.runsBy_runFrom (p := fun _ _ => true) (fun _ _ _ => trivial)
      (by decide +kernel)
  · unfold Lane.Ended
    decide +kernel

end Funduq.Broker
