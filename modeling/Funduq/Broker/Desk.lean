import Mathlib.Data.List.Nodup
import Mathlib.Tactic.Tauto
import Funduq.Broker.Step

/-!
# One handler's desk

A thread handler's queue, its live runs and what its coroutine is doing fit
together at every moment, in the middle of a message as well as between two.
`DeskOk` says how, over those three values and the runs alone, so that the
lemmas below are about lists and never about the broker:

* the queue holds live runs, each once, none of them an interjection;
* behind its head nothing has been offered;
* a live run that is not in the queue is an interjection somebody has been
  offered, or a run about to be settled;
* what the coroutine still has to do (`TaskOk`) is about runs that are where it
  expects them.

Each lemma is one thing a handler does to its desk.
-/

namespace Funduq.Broker

/-- The two runs look the same to a desk. -/
structure Run.SameDesk (a b : Run) : Prop where
  unoffered : a.unoffered = b.unoffered
  isInterjection : a.isInterjection = b.isInterjection
  addressed : a.addressedRunId = b.addressedRunId
  claimed : a.claimedBy.isSome = b.claimedBy.isSome

theorem Run.SameDesk.refl (a : Run) : a.SameDesk a := ⟨rfl, rfl, rfl, rfl⟩

variable {run run' : RunId → Run} {queue live : List RunId} {task : Task} {r : RunId}
  {k : Cont}

/-- The coroutine is recording the end of `r`. -/
def Task.ending (r : RunId) : Task → Prop
  | .recording r' _ .settle _ => r' = r
  | _ => False

/-- What a live run outside the queue must be. -/
def Beside (run : RunId → Run) (task : Task) (r : RunId) : Prop :=
  ((run r).isInterjection = true ∧ (run r).unoffered = false) ∨
    (task.ending r ∧ ((run r).isInterjection = true ∨ (run r).unoffered = true))

/-- The runs `k` goes on with are where it expects them. -/
def ContOk (run : RunId → Run) (queue live : List RunId) : Cont → Prop
  | .loop => True
  | .advance => True
  | .joining head rest => ∃ tl, queue = head :: tl ∧ rest.Sublist tl ∧
      (run head).claimedBy.isSome = true ∧
      ∀ r ∈ rest, (run r).addressedRunId = some head
  | .cancelCheck r => r ∈ live ∧ (run r).claimedBy.isSome = true

/-- A call of `_record` returns to the foot of the loop, to `_advance`, or, for
a run taken out of the queue, to `_release_interjections`. -/
def CallerOk (queue : List RunId) (r : RunId) : Cont → Prop
  | .loop => True
  | .advance => True
  | .joining _ _ => r ∉ queue
  | .cancelCheck _ => False

/-- What the caller of `_record` needs of the run it recorded. -/
def RetOk (run : RunId → Run) (queue : List RunId) (r : RunId) : Ret → Cont → Prop
  | .settle, _ => True
  | .handOver _ _, _ => True
  | .claimed, k => k = .advance ∧ (run r).claimedBy.isSome = true ∧
      ((run r).isInterjection = false → queue.head? = some r)
  | .maybeSettle _, k => k = .advance
  | .nothing, k => k = .advance

/-- What the coroutine still has to do is about runs that are where it expects
them. -/
def TaskOk (run : RunId → Run) (queue live : List RunId) : Task → Prop
  | .idle => True
  | .finished => live = []
  | .at k => ContOk run queue live k
  | .recording r _ ret k => r ∈ live ∧ RetOk run queue r ret k ∧
      ContOk run queue live k ∧ CallerOk queue r k

/-- **The desk invariant.** -/
structure DeskOk (run : RunId → Run) (queue live : List RunId) (task : Task) : Prop where
  nodup : queue.Nodup
  sub : ∀ r ∈ queue, r ∈ live
  waiting : ∀ r ∈ queue.tail, (run r).unoffered = true
  turn : ∀ r ∈ queue, (run r).isInterjection = false
  beside : ∀ r ∈ live, r ∉ queue → Beside run task r
  busy : TaskOk run queue live task

namespace DeskOk

/-! ## Runs that look the same -/

private theorem contOk_congr (hsub : ∀ x ∈ queue, x ∈ live)
    (h : ∀ x ∈ live, (run x).SameDesk (run' x)) (hk : ContOk run queue live k) :
    ContOk run' queue live k := by
  cases k with
  | loop => trivial
  | advance => trivial
  | joining head rest =>
      obtain ⟨tl, hq, hrest, hc, ha⟩ := hk
      have hmem : ∀ x ∈ head :: tl, x ∈ live := fun x hx => hsub x (hq ▸ hx)
      refine ⟨tl, hq, hrest, ?_, ?_⟩
      · rw [← (h head (hmem head (by simp))).claimed]
        exact hc
      · intro x hx
        rw [← (h x (hmem x (by simp [hrest.subset hx]))).addressed]
        exact ha x hx
  | cancelCheck x =>
      exact ⟨hk.1, (h x hk.1).claimed ▸ hk.2⟩

/-- A desk sees of the runs only what `SameDesk` compares, and only of the live
ones. -/
theorem congr (hd : DeskOk run queue live task)
    (h : ∀ x ∈ live, (run x).SameDesk (run' x)) : DeskOk run' queue live task where
  nodup := hd.nodup
  sub := hd.sub
  waiting x hx := by
    rw [← (h x (hd.sub x (List.mem_of_mem_tail hx))).unoffered]
    exact hd.waiting x hx
  turn x hx := by
    rw [← (h x (hd.sub x hx)).isInterjection]
    exact hd.turn x hx
  beside x hx hq := by
    have hb := hd.beside x hx hq
    unfold Beside at hb ⊢
    rw [← (h x hx).isInterjection, ← (h x hx).unoffered]
    exact hb
  busy := by
    have hb := hd.busy
    cases task with
    | idle => trivial
    | finished => exact hb
    | «at» k => exact contOk_congr hd.sub h hb
    | recording x ph ret k =>
        obtain ⟨hx, hret, hk, hcall⟩ := hb
        refine ⟨hx, ?_, contOk_congr hd.sub h hk, hcall⟩
        cases ret with
        | claimed =>
            obtain ⟨h1, h2, h3⟩ := hret
            refine ⟨h1, (h x hx).claimed ▸ h2, fun hi => h3 ?_⟩
            rw [(h x hx).isInterjection]
            exact hi
        | _ => exact hret

/-- Changing a run in a way the desk does not see. -/
theorem update {x : Run} (hd : DeskOk run queue live task) (hx : (run r).SameDesk x) :
    DeskOk (Function.update run r x) queue live task := by
  refine hd.congr fun y _ => ?_
  by_cases hy : y = r
  · subst hy
    rw [Function.update_self]
    exact hx
  · rw [Function.update_of_ne hy]
    exact .refl _

/-- A run of another desk is no concern of this one. -/
theorem update_other {x : Run} (hd : DeskOk run queue live task) (hr : r ∉ live) :
    DeskOk (Function.update run r x) queue live task := by
  refine hd.congr fun y hy => ?_
  have hne : y ≠ r := by
    rintro rfl
    exact hr hy
  rw [Function.update_of_ne hne]
  exact .refl _

/-! ## The coroutine moves on -/

/-- Everything off the queue has been offered as an interjection, unless the
coroutine is ending it. -/
theorem interjection_of_not_mem (hd : DeskOk run queue live task)
    (he : ¬ task.ending r) (hr : r ∈ live) (hq : r ∉ queue) :
    (run r).isInterjection = true ∧ (run r).unoffered = false := by
  rcases hd.beside r hr hq with h | h
  · exact h
  · exact absurd h.1 he

/-- A coroutine that is ending nothing may turn to anything its desk is ready
for. -/
theorem retask {task' : Task} (hd : DeskOk run queue live task)
    (he : ∀ r, ¬ task.ending r) (hb : TaskOk run queue live task') :
    DeskOk run queue live task' :=
  { hd with
    beside := fun r hr hq => .inl (hd.interjection_of_not_mem (he r) hr hq)
    busy := hb }

/-- A record handler goes on, still for the same caller. -/
theorem rephase {ph ph' : RecordPhase} {ret : Ret}
    (hd : DeskOk run queue live (.recording r ph ret k)) :
    DeskOk run queue live (.recording r ph' ret k) :=
  { hd with
    beside := fun x hx hq => by
      rcases hd.beside x hx hq with h | h
      · exact .inl h
      · refine .inr ⟨?_, h.2⟩
        cases ret with
        | settle => exact h.1
        | _ => exact absurd h.1 id
    busy := hd.busy }

/-! ## A run is offered -/

/-- The desk as `_offer` finds it: `r` is live and unoffered, and stands at the
head of the queue, or, for an interjection, has been taken out of it. -/
structure Ready (run : RunId → Run) (queue live : List RunId) (r : RunId)
    (interjection : Bool) (k : Cont) : Prop where
  mem : r ∈ live
  unoffered : (run r).unoffered = true
  plain : (run r).isInterjection = false
  place : if interjection then r ∉ queue ∧ queue ≠ [] else queue.head? = some r
  nodup : queue.Nodup
  sub : ∀ x ∈ queue, x ∈ live
  waiting : ∀ x ∈ queue.tail, (run x).unoffered = true
  turn : ∀ x ∈ queue, (run x).isInterjection = false
  beside : ∀ x ∈ live, x ≠ r → x ∉ queue →
    (run x).isInterjection = true ∧ (run x).unoffered = false
  cont : ContOk run queue live k
  caller : CallerOk queue r k

namespace Ready

variable {interjection : Bool}

private theorem not_mem_tail (hd : Ready run queue live r interjection k) :
    r ∉ queue.tail := by
  intro hr
  cases interjection with
  | true => exact hd.place.1 (List.mem_of_mem_tail hr)
  | false =>
      cases hq : queue with
      | nil => simp [hq] at hr
      | cons x tl =>
          have hp := hd.place
          simp only [hq, List.head?_cons, Option.some.injEq] at hp
          rw [hq, List.tail_cons] at hr
          have := hd.nodup
          rw [hq, List.nodup_cons, hp] at this
          exact this.1 hr

private theorem contOk_update {x : Run} (hd : Ready run queue live r interjection k) :
    ContOk (Function.update run r x) queue live k := by
  have hk := hd.cont
  have hcall := hd.caller
  cases k with
  | loop => trivial
  | advance => trivial
  | cancelCheck y => exact absurd hcall id
  | joining head rest =>
      obtain ⟨tl, hq, hrest, hc, had⟩ := hk
      have hne : ∀ y ∈ head :: tl, y ≠ r := by
        intro y hy he
        exact hcall (by rw [hq, ← he]; exact hy)
      refine ⟨tl, hq, hrest, ?_, ?_⟩
      · rw [Function.update_of_ne (hne head (by simp))]
        exact hc
      · intro y hy
        rw [Function.update_of_ne (hne y (by simp [hrest.subset hy]))]
        exact had y hy

/-- The offer goes out. -/
theorem offered {x : Run} {ph : RecordPhase} {c : Connection} {n : Nat}
    (hd : Ready run queue live r interjection k)
    (hx : x.unoffered = false) (hi : x.isInterjection = interjection) :
    DeskOk (Function.update run r x) queue live (.recording r ph (.handOver c n) k) where
  nodup := hd.nodup
  sub := hd.sub
  waiting y hy := by
    have hne : y ≠ r := by
      rintro rfl
      exact hd.not_mem_tail hy
    rw [Function.update_of_ne hne]
    exact hd.waiting y hy
  turn y hy := by
    by_cases he : y = r
    · subst he
      rw [Function.update_self, hi]
      cases interjection with
      | false => rfl
      | true => exact absurd hy hd.place.1
    · rw [Function.update_of_ne he]
      exact hd.turn y hy
  beside y hy hq := by
    left
    by_cases he : y = r
    · subst he
      rw [Function.update_self, hi]
      refine ⟨?_, hx⟩
      cases interjection with
      | true => rfl
      | false => exact absurd (List.mem_of_mem_head? hd.place) hq
    · rw [Function.update_of_ne he]
      exact hd.beside y hy he hq
  busy := ⟨hd.mem, trivial, hd.contOk_update, hd.caller⟩

/-- The input does not validate: the run is ended instead. -/
theorem invalid {x : Run} {ph : RecordPhase} (hd : Ready run queue live r interjection k)
    (hx : (run r).SameDesk x) :
    DeskOk (Function.update run r x) queue live (.recording r ph .settle k) := by
  have h : DeskOk run queue live (.recording r ph .settle k) :=
    { nodup := hd.nodup
      sub := hd.sub
      waiting := hd.waiting
      turn := hd.turn
      beside := fun y hy hq => by
        by_cases he : y = r
        · subst he
          exact .inr ⟨rfl, .inr hd.unoffered⟩
        · exact .inl (hd.beside y hy he hq)
      busy := ⟨hd.mem, trivial, hd.cont, hd.caller⟩ }
  exact h.update hx

/-- There is nobody to offer the turn to: it keeps its place. -/
theorem noRoom_turn (hd : Ready run queue live r false k) :
    DeskOk run queue live (.at k) where
  nodup := hd.nodup
  sub := hd.sub
  waiting := hd.waiting
  turn := hd.turn
  beside y hy hq := by
    have he : y ≠ r := fun he => hq (he ▸ List.mem_of_mem_head? hd.place)
    exact .inl (hd.beside y hy he hq)
  busy := hd.cont

/-- There is nobody to offer the interjection to: it goes back right behind the
head. -/
theorem noRoom_interjection (hd : Ready run queue live r true k) :
    DeskOk run (queue.insertIdx (min 1 queue.length) r) live (.at k) := by
  obtain ⟨hr, hne⟩ := hd.place
  obtain ⟨head, tl, rfl⟩ := List.exists_cons_of_ne_nil hne
  have hmin : min 1 (head :: tl).length = 1 := by simp
  rw [hmin, List.insertIdx_succ_cons, List.insertIdx_zero]
  have hmem : ∀ y, y ∈ head :: r :: tl ↔ y = r ∨ y ∈ head :: tl := by
    intro y
    simp only [List.mem_cons]
    tauto
  refine ⟨?_, ?_, ?_, ?_, ?_, ?_⟩
  · have hn := hd.nodup
    simp only [List.nodup_cons, List.mem_cons, not_or] at hn hr ⊢
    exact ⟨⟨fun he => hr.1 he.symm, hn.1⟩, hr.2, hn.2⟩
  · intro y hy
    rcases (hmem y).1 hy with rfl | hy
    · exact hd.mem
    · exact hd.sub y hy
  · intro y hy
    rcases List.mem_cons.1 hy with rfl | hy
    · exact hd.unoffered
    · exact hd.waiting y hy
  · intro y hy
    rcases (hmem y).1 hy with rfl | hy
    · exact hd.plain
    · exact hd.turn y hy
  · intro y hy hq
    have h : ¬ (y = r ∨ y ∈ head :: tl) := fun h => hq ((hmem y).2 h)
    exact .inl (hd.beside y hy (fun he => h (.inl he)) (fun hm => h (.inr hm)))
  · have hk := hd.cont
    cases k with
    | loop => trivial
    | advance => trivial
    | cancelCheck y => exact hk
    | joining h' rest =>
        obtain ⟨tl', hq, hrest, hc, ha⟩ := hk
        obtain ⟨rfl, rfl⟩ := List.cons.inj hq
        exact ⟨r :: tl, rfl, hrest.cons r, hc, ha⟩

end Ready

/-! ## A run arrives -/

/-- The run joins the back of the queue. -/
theorem arrive (hd : DeskOk run queue live .idle) (hr : r ∉ live)
    (hu : (run r).unoffered = true) (hi : (run r).isInterjection = false) :
    DeskOk run (queue ++ [r]) (live ++ [r]) (.at .advance) := by
  have hq : r ∉ queue := fun h => hr (hd.sub r h)
  refine ⟨?_, ?_, ?_, ?_, ?_, trivial⟩
  · exact List.Nodup.append hd.nodup (List.nodup_singleton r) (by simpa using hq)
  · intro y hy
    rcases List.mem_append.1 hy with hy | hy
    · exact List.mem_append_left _ (hd.sub y hy)
    · exact List.mem_append_right _ hy
  · intro y hy
    have hy' : y ∈ queue.tail ∨ y = r := by
      cases queue with
      | nil => simp at hy
      | cons x tl => simpa using hy
    rcases hy' with hy | rfl
    · exact hd.waiting y hy
    · exact hu
  · intro y hy
    rcases List.mem_append.1 hy with hy | hy
    · exact hd.turn y hy
    · rw [List.mem_singleton.1 hy]
      exact hi
  · intro y hy hn
    rcases List.mem_append.1 hy with hy | hy
    · have hyq : y ∉ queue := fun h => hn (List.mem_append_left _ h)
      exact .inl (hd.interjection_of_not_mem id hy hyq)
    · exact absurd (List.mem_append_right _ hy) hn

/-- The run arrives to join a turn that is under way. -/
theorem arrive_ready (hd : DeskOk run queue live .idle) (hr : r ∉ live)
    (hu : (run r).unoffered = true) (hi : (run r).isInterjection = false)
    (hq : queue ≠ []) : Ready run queue (live ++ [r]) r true .advance where
  mem := by simp
  unoffered := hu
  plain := hi
  place := ⟨fun h => hr (hd.sub r h), hq⟩
  nodup := hd.nodup
  sub x hx := List.mem_append_left _ (hd.sub x hx)
  waiting := hd.waiting
  turn := hd.turn
  beside x hx hne hxq := by
    have hx' : x ∈ live := by simpa [hne] using hx
    exact hd.interjection_of_not_mem id hx' hxq
  cont := trivial
  caller := trivial

/-- `_advance` has found an unoffered run at the head. -/
theorem advance_ready (hd : DeskOk run queue live (.at .advance))
    (hq : queue.head? = some r) (hu : (run r).unoffered = true) :
    Ready run queue live r false .loop where
  mem := hd.sub r (List.mem_of_mem_head? hq)
  unoffered := hu
  plain := hd.turn r (List.mem_of_mem_head? hq)
  place := hq
  nodup := hd.nodup
  sub := hd.sub
  waiting := hd.waiting
  turn := hd.turn
  beside _ hx _ hxq := hd.interjection_of_not_mem id hx hxq
  cont := trivial
  caller := trivial

/-- `_release_interjections` takes the next run out of the queue. -/
theorem joining_ready {head : RunId} {rest : List RunId}
    (hd : DeskOk run queue live (.at (.joining head (r :: rest)))) :
    Ready run (queue.erase r) live r true (.joining head rest) := by
  obtain ⟨tl, rfl, hrest, hc, ha⟩ := hd.busy
  have hn := hd.nodup
  rw [List.nodup_cons] at hn
  have hrtl : r ∈ tl := hrest.subset (by simp)
  have hne : head ≠ r := fun he => hn.1 (he ▸ hrtl)
  have herase : (head :: tl).erase r = head :: tl.erase r := by
    rw [List.erase_cons_tail (by simpa using hne)]
  have hsub : ∀ x ∈ head :: tl.erase r, x ∈ head :: tl := by
    intro x hx
    rcases List.mem_cons.1 hx with rfl | hx
    · simp
    · exact List.mem_cons_of_mem _ (List.mem_of_mem_erase hx)
  rw [herase]
  have hr : r ∉ head :: tl.erase r := by
    simp only [List.mem_cons, not_or]
    exact ⟨fun h => hne h.symm, hn.2.not_mem_erase⟩
  refine ⟨hd.sub r (by simp [hrtl]), hd.waiting r hrtl, hd.turn r (by simp [hrtl]),
    ⟨hr, by simp⟩, ?_, fun x hx => hd.sub x (hsub x hx), ?_,
    fun x hx => hd.turn x (hsub x hx), ?_, ?_, hr⟩
  · rw [List.nodup_cons]
    exact ⟨fun h => hn.1 (List.mem_of_mem_erase h), hn.2.erase r⟩
  · exact fun x hx => hd.waiting x (List.mem_of_mem_erase hx)
  · intro x hx hxr hxq
    refine hd.interjection_of_not_mem id hx fun hm => hxq ?_
    rcases List.mem_cons.1 hm with rfl | hm
    · simp
    · exact List.mem_cons_of_mem _ ((List.mem_erase_of_ne hxr).2 hm)
  · refine ⟨tl.erase r, rfl, ?_, hc, fun x hx => ha x (List.mem_cons_of_mem _ hx)⟩
    have h := hrest.erase r
    rwa [List.erase_cons_head] at h

/-! ## A verdict, and what follows it -/

/-- The offer of `r` came to nothing; `r` is about to be settled. -/
theorem turnedDown {x : Run} {ph : RecordPhase} (hd : DeskOk run queue live .idle)
    (hr : r ∈ live) (hx : x.unoffered = true)
    (hi : x.isInterjection = (run r).isInterjection) :
    DeskOk (Function.update run r x) queue live (.recording r ph .settle .advance) where
  nodup := hd.nodup
  sub := hd.sub
  waiting y hy := by
    by_cases he : y = r
    · subst he
      rw [Function.update_self]
      exact hx
    · rw [Function.update_of_ne he]
      exact hd.waiting y hy
  turn y hy := by
    by_cases he : y = r
    · subst he
      rw [Function.update_self, hi]
      exact hd.turn y hy
    · rw [Function.update_of_ne he]
      exact hd.turn y hy
  beside y hy hq := by
    by_cases he : y = r
    · subst he
      refine .inr ⟨rfl, .inr ?_⟩
      rw [Function.update_self]
      exact hx
    · refine .inl ?_
      rw [Function.update_of_ne he]
      exact hd.interjection_of_not_mem id hy hq
  busy := ⟨hr, trivial, trivial, trivial⟩

/-- A live run somebody has been offered is the head of the queue, unless it is
an interjection. -/
theorem head_of_offered (hd : DeskOk run queue live task) (hr : r ∈ live)
    (ho : (run r).unoffered = false) (hi : (run r).isInterjection = false) :
    queue.head? = some r := by
  have hq : r ∈ queue := by
    by_contra hq
    rcases hd.beside r hr hq with ⟨h, -⟩ | ⟨-, h | h⟩
    · exact absurd (hi.symm.trans h) nofun
    · exact absurd (hi.symm.trans h) nofun
    · exact absurd (ho.symm.trans h) nofun
  cases queue with
  | nil => simp at hq
  | cons y tl =>
      rcases List.mem_cons.1 hq with rfl | hq
      · rfl
      · have h := hd.waiting r hq
        rw [ho] at h
        cases h

/-- The holder's acceptance is being recorded. -/
theorem claims {x : Run} {ph : RecordPhase} (hd : DeskOk run queue live .idle)
    (hr : r ∈ live) (ho : (run r).unoffered = false) (hx : x.unoffered = false)
    (hc : x.claimedBy.isSome = true) (hi : x.isInterjection = (run r).isInterjection) :
    DeskOk (Function.update run r x) queue live (.recording r ph .claimed .advance) where
  nodup := hd.nodup
  sub := hd.sub
  waiting y hy := by
    have hne : y ≠ r := by
      rintro rfl
      have h := hd.waiting y hy
      rw [ho] at h
      cases h
    rw [Function.update_of_ne hne]
    exact hd.waiting y hy
  turn y hy := by
    by_cases he : y = r
    · subst he
      rw [Function.update_self, hi]
      exact hd.turn y hy
    · rw [Function.update_of_ne he]
      exact hd.turn y hy
  beside y hy hq := by
    left
    by_cases he : y = r
    · subst he
      rw [Function.update_self, hi]
      exact ⟨(hd.interjection_of_not_mem id hy hq).1, hx⟩
    · rw [Function.update_of_ne he]
      exact hd.interjection_of_not_mem id hy hq
  busy := by
    refine ⟨hr, ⟨rfl, ?_, fun h => ?_⟩, trivial, trivial⟩
    · rw [Function.update_self]
      exact hc
    · rw [Function.update_self, hi] at h
      exact hd.head_of_offered hr ho h

/-- The claimed run's interjections are to be offered beside it. -/
theorem joins {ph : RecordPhase} {p : RunId → Bool}
    (hd : DeskOk run queue live (.recording r ph .claimed k))
    (hi : (run r).isInterjection = false)
    (hp : ∀ x, p x = true → (run x).addressedRunId = some r) :
    DeskOk run queue live (.at (.joining r (queue.tail.filter p))) := by
  obtain ⟨-, ⟨-, hc, hh⟩, -, -⟩ := hd.busy
  have hq := hh hi
  refine hd.retask (fun _ h => h) ⟨queue.tail, ?_, List.filter_sublist, hc, ?_⟩
  · cases queue with
    | nil => simp at hq
    | cons y tl =>
        simp only [List.head?_cons, Option.some.injEq] at hq
        rw [hq, List.tail_cons]
  · intro x hx
    exact hp x (List.mem_filter.1 hx).2

/-- The run is settled: it is live no more and in no queue. -/
theorem settles {x : Run} {ph : RecordPhase} {ret : Ret} (hl : live.Nodup)
    (hd : DeskOk run queue live (.recording r ph ret k)) :
    DeskOk (Function.update run r x) (queue.erase r) (live.erase r) (.at k) := by
  refine update_other ?_ hl.not_mem_erase
  refine ⟨hd.nodup.erase r, ?_, ?_, ?_, ?_, ?_⟩
  · intro y hy
    have hne : y ≠ r := by
      rintro rfl
      exact hd.nodup.not_mem_erase hy
    exact (List.mem_erase_of_ne hne).2 (hd.sub y (List.mem_of_mem_erase hy))
  · intro y hy
    refine hd.waiting y ?_
    cases queue with
    | nil => simp at hy
    | cons z tl =>
        by_cases hz : z = r
        · subst hz
          rw [List.erase_cons_head] at hy
          exact List.mem_of_mem_tail hy
        · rw [List.erase_cons_tail (by simpa using hz), List.tail_cons] at hy
          exact List.mem_of_mem_erase hy
  · intro y hy
    exact hd.turn y (List.mem_of_mem_erase hy)
  · intro y hy hq
    have hne : y ≠ r := by
      rintro rfl
      exact hl.not_mem_erase hy
    have hq' : y ∉ queue := fun h => hq ((List.mem_erase_of_ne hne).2 h)
    rcases hd.beside y (List.mem_of_mem_erase hy) hq' with h | h
    · exact .inl h
    · cases ret with
      | settle => exact absurd h.1.symm hne
      | _ => exact absurd h.1 id
  · obtain ⟨-, -, hk, hcall⟩ := hd.busy
    cases k with
    | loop => trivial
    | advance => trivial
    | cancelCheck y => exact absurd hcall id
    | joining head rest =>
        rw [List.erase_of_not_mem hcall]
        exact hk

end DeskOk

end Funduq.Broker
