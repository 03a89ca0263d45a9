import Funduq.Broker.Actors

/-!
# No lost wakeup

A thread that finds nobody to serve its head, or nobody with room, leaves it at
that: `_advance` returns, and nothing is kept that says it should come back.
That it does come back is the business of whoever changes the answer.  `Stirred`
is the list of reasons why a thread will be looked at again: its own coroutine
is on the way to `_advance`, it has a message to read, the sweep has work to do
or has yet to wait for some, or a run is being settled, at the end of which the
sweep will have work.  `Watched` says that a thread whose head could be offered
has one of them, and every step keeps it: the moves that free a place are on
their way to settling a run, and registration sets the sweep to work.  When
nothing is left to do there is no such reason, so there is no such thread.
-/

namespace Funduq.Broker

open Funduq.Lib

/-- The coroutine is not inside a message. -/
def Task.waits : Task → Bool
  | .idle => true
  | .finished => true
  | _ => false

namespace State

variable {cfg : Config} {s s' t : State} {h h' : HandlerId} {r : RunId}

/-- Something will have thread handler `h` look at its head again. -/
def Stirred (s : State) (h : HandlerId) : Prop :=
  (s.task h).awake = true ∨ s.inbox h ≠ [] ∨ s.workToDo = true ∨
    s.loopTask ≠ some .waiting ∨ ∃ h' x, (s.task h').ending x

/-- No thread whose head could be offered is left alone. -/
def Watched (s : State) : Prop := ∀ h, s.Wanting h → s.Stirred h

/-- Nothing is left to do: every handler waits with nothing to read, and so does
the sweep. -/
def Quiescent (s : State) : Prop :=
  (∀ h < s.nextHandler, s.inbox h = [] ∧ (s.task h).waits = true) ∧
    s.loopTask = some .waiting ∧ s.workToDo = false

/-! ## Who could be served -/

theorem servingOf_eq (s : State) (agent : AgentRef) :
    s.servingOf agent = (s.serving.get? agent).bind fun k => (s.provider k).connection := by
  unfold servingOf
  congr 1
  funext k
  unfold provider
  cases s.providers k <;> rfl

/-- Whoever can be served could be before, if nobody was put on the roster and no
place was freed. -/
theorem Servable.mono {agent : AgentRef} (hv : s'.Servable agent)
    (hserving : ∀ a k, s'.serving.get? a = some k → s.serving.get? a = some k)
    (hc : ∀ k, (s'.provider k).connection = (s.provider k).connection)
    (hd : ∀ k, (s'.provider k).declared = (s.provider k).declared)
    (hin : ∀ k, (s.provider k).inFlight ≤ (s'.provider k).inFlight) : s.Servable agent := by
  obtain ⟨c, hs, hroom⟩ := hv
  rw [servingOf_eq] at hs
  obtain ⟨k, hk, hconn⟩ := Option.bind_eq_some_iff.1 hs
  refine ⟨c, ?_, ?_⟩
  · rw [servingOf_eq, hserving agent k hk]
    exact (hc k).symm.trans hconn
  · unfold ProviderHandler.hasRoom at hroom ⊢
    rw [hd] at hroom
    cases hn : (s.provider c.publicKey).declared with
    | none => rfl
    | some n =>
        rw [hn] at hroom
        have hlt : (s'.provider c.publicKey).inFlight < n := by simpa using hroom
        have hle := hin c.publicKey
        simpa using Nat.lt_of_le_of_lt hle hlt

/-- A thread wants what it wanted, if its head is the same to it. -/
theorem Wanting.mono (hw : s'.Wanting h) (hq : s'.queue h = s.queue h)
    (hrun : ∀ r ∈ s.queue h, (s'.run r).unoffered = (s.run r).unoffered ∧
      (s'.run r).agent = (s.run r).agent)
    (hserve : ∀ agent, s'.Servable agent → s.Servable agent) : s.Wanting h := by
  obtain ⟨r, hr, hu, hs⟩ := hw
  rw [hq] at hr
  obtain ⟨hu', ha⟩ := hrun r (List.mem_of_mem_head? hr)
  exact ⟨r, hr, hu'.symm.trans hu, hserve _ (ha ▸ hs)⟩

/-- A handler with a head is at its desk. -/
theorem Wanting.at_desk (hs : Inv s) (hw : s.Wanting h) :
    h < s.nextHandler ∧ h ∈ s.threads.values := by
  obtain ⟨r, hr, -⟩ := hw
  have hlive : r ∈ s.live h := (hs.desk h).sub r (List.mem_of_mem_head? hr)
  have hborn := hs.roll.born r h (hs.roll.home_of_live hlive)
  have hf : s.task h ≠ .finished := by
    intro hf
    rw [(hs.roll.gone h hf).1] at hlive
    cases hlive
  exact ⟨hborn, Dict.mem_values_of_get? (hs.roll.at_desk h hborn hf)⟩

/-- A handler that is settling a run has been made. -/
theorem born_of_ending (hs : Inv s) {x : RunId} (he : (s.task h).ending x) :
    h < s.nextHandler := by
  cases ht : s.task h with
  | recording r ph ret k =>
      exact hs.roll.born r h (hs.roll.home_of_live (live_of_recording hs ht))
  | _ =>
      rw [ht] at he
      exact he.elim

/-! ## Steps outside the handlers -/

theorem Watched.outer (hw : s.Watched) (hs : Inv s) (ho : s.Outer s') : s'.Watched := by
  intro h hwant
  have hwas : s.Wanting h := by
    refine hwant.mono (congrFun ho.queue h) (fun r hr => ?_) fun agent hv => ?_
    · rcases ho.run r with he | he | ⟨hn, -⟩
      · rw [he]
        exact ⟨rfl, rfl⟩
      · rw [he]
        exact ⟨rfl, rfl⟩
      · exact absurd (hs.roll.home_of_live ((hs.desk h).sub r hr)) (by rw [hn]; exact nofun)
    · exact hv.mono ho.serving ho.connection ho.declared fun k => Nat.le_of_eq (ho.inFlight k).symm
  obtain ⟨hborn, hdesk⟩ := hwas.at_desk hs
  by_cases hloop : s'.loopTask = some .waiting
  swap
  · exact .inr (.inr (.inr (.inl hloop)))
  cases hwork : s'.workToDo with
  | true => exact .inr (.inr (.inl hwork))
  | false =>
      rcases ho.looked hloop hwork with ⟨hl, hn⟩ | hpoked
      swap
      · exact .inr (.inl (hpoked h hdesk))
      rcases hw h hwas with ha | hi | hwd | hlt | ⟨h', x, he⟩
      · exact .inl ((ho.task h hborn).symm ▸ ha)
      · refine .inr (.inl fun hnil => hi ?_)
        have hpre := ho.inbox h
        rwa [hnil, List.prefix_nil] at hpre
      · exact absurd (hn.symm.trans hwd) nofun
      · exact absurd hl hlt
      · exact .inr (.inr (.inr (.inr ⟨h', x, (ho.task h' (born_of_ending hs he)).symm ▸ he⟩)))

theorem workToDo_registerProvider (s : State) (mapping : List (AgentRef × Connection)) :
    (s.registerProvider mapping).workToDo = true := by
  have hpoke : ∀ (es : List (AgentRef × Connection)) (t : State), t.workToDo = true →
      (es.foldl (fun s e => s.pokeAgent e.1) t).workToDo = true := by
    intro es
    induction es with
    | nil => exact fun t ht => ht
    | cons e es ih => exact fun t ht => ih _ ht
  exact hpoke mapping _ rfl

/-! ## Steps of the handlers -/

section Turn

variable {R : Lane → Lane → Prop} {w : Sheet}

/-- A move that frees no place gives nobody anybody new to serve it. -/
theorem Moved.servable (hm : t.Moved R h r w s')
    (hp : ∀ k, (t.run r).place k ≤ w.run.place k) (agent : AgentRef) (hv : s'.Servable agent) :
    t.Servable agent := by
  obtain ⟨o, rfl, -, hk⟩ := hm.did
  refine hv.mono hk.serving hk.connection hk.declared fun k => ?_
  have hin := hk.inFlight k
  have hle := hp k
  change (t.provider k).inFlight ≤ ((o.providers k).getD {}).inFlight
  omega

/-- What a move leaves of the reasons to look at a thread again. -/
theorem Moved.stirred (hm : t.Moved R h r w s') (hs : t.Stirred h')
    (ha : (t.task h').awake = true → h' ≠ h) : s'.Stirred h' := by
  have hending := hm.wakes.ending
  obtain ⟨o, rfl, hg, hk⟩ := hm.did
  rcases hs with haw | hi | hwd | hl | ⟨h'', x, he⟩
  · refine .inl ?_
    change (Function.update t.task h w.task h').awake = true
    rwa [Function.update_of_ne (ha haw)]
  · refine .inr (.inl fun hnil => hi ?_)
    have hpre : t.inbox h' <+: o.inbox h' := hg.prefix h'
    have hnil' : o.inbox h' = [] := hnil
    rwa [hnil', List.prefix_nil] at hpre
  · exact .inr (.inr (.inl (hk.workToDo.trans hwd)))
  · exact .inr (.inr (.inr (.inl hl)))
  · refine .inr (.inr (.inr (.inr ?_)))
    by_cases hh : h'' = h
    · subst hh
      obtain ⟨y, hy⟩ := hending x he
      refine ⟨h'', y, ?_⟩
      change (Function.update t.task h'' w.task h'').ending y
      rwa [Function.update_self]
    · refine ⟨h'', x, ?_⟩
      change (Function.update t.task h w.task h'').ending x
      rwa [Function.update_of_ne hh]

/-- A thread looks the same once its neighbour has read a message. -/
theorem Reads.stirred (hr : s.Reads h t) (hs : s.Stirred h') (hne : h' ≠ h ∨ t = s) :
    t.Stirred h' := by
  rcases hne with hne | rfl
  · obtain ⟨inbox, trail, live, rfl, hin⟩ := hr.eq
    rcases hs with h1 | h2 | h3 | h4 | h5
    · exact .inl h1
    · exact .inr (.inl fun hnil => h2 ((hin h' hne).1.symm.trans hnil))
    · exact .inr (.inr (.inl h3))
    · exact .inr (.inr (.inr (.inl h4)))
    · exact .inr (.inr (.inr (.inr h5)))
  · exact hs

theorem Reads.wanting (hr : s.Reads h t) (hw : t.Wanting h') : s.Wanting h' := by
  obtain ⟨inbox, trail, live, rfl, -⟩ := hr.eq
  exact hw

/-- A handler that has read a message has not rested since. -/
theorem Reads.eq_of_resting (hr : s.Reads h t) (hrest : (t.task h).resting = true) : t = s := by
  have htask : t.task = s.task := by
    obtain ⟨_, _, _, rfl, -⟩ := hr.eq
    rfl
  rw [htask] at hrest
  cases hr with
  | nothing => rfl
  | heard hi _ _ =>
      rw [hi] at hrest
      cases hrest
  | arrived hi _ =>
      rw [hi] at hrest
      cases hrest

theorem Watched.turns (hw : s.Watched) (hs : Inv s) (ht : s.Turns h s') : s'.Watched := by
  obtain ⟨t, R, r, w, hread, hm⟩ := ht
  have hsettling : (∃ y, w.task.ending y) → ∀ h', s'.Stirred h' := by
    rintro ⟨y, hy⟩ h'
    refine .inr (.inr (.inr (.inr ⟨h, y, ?_⟩)))
    rwa [hm.did.task]
  intro h' hwant
  rcases hm.wakes.place with hplace | hend
  swap
  · exact hsettling hend h'
  have hserve := hm.servable hplace
  by_cases hh : h' = h
  · subst hh
    rcases hm.wakes.mover with ha | hend | hnot | ⟨hrest, hq, hu, hag⟩
    · refine .inl ?_
      rwa [hm.did.task]
    · exact hsettling hend h'
    · exact absurd hwant hnot
    · -- The handler goes on from where it had looked already.
      obtain rfl := hread.eq_of_resting hrest
      have hwas : t.Wanting h' := by
        refine hwant.mono (hm.did.queue.trans hq) (fun x _ => ?_) hserve
        by_cases hx : x = r
        · subst hx
          rw [hm.did.run]
          exact ⟨hu, hag⟩
        · obtain ⟨o, rfl, -⟩ := hm.did
          change (Function.update t.run r w.run x).unoffered = _ ∧
            (Function.update t.run r w.run x).agent = _
          rw [Function.update_of_ne hx]
          exact ⟨rfl, rfl⟩
      refine hm.stirred (hw h' hwas) fun ha => ?_
      exact absurd (ha.symm.trans (Task.not_awake_of_resting hrest)) nofun
  · -- Another thread: its queue and its runs are as they were.
    have hwas : t.Wanting h' := by
      refine hwant.mono ?_ (fun x hx => ?_) hserve
      · obtain ⟨o, rfl, -⟩ := hm.did
        exact Function.update_of_ne hh ..
      · have hrun : s'.run x = t.run x := by
          by_cases hxr : x = r
          · subst hxr
            rw [hm.did.run]
            rcases hm.live with hl | hl
            · have hx' : x ∈ t.live h' := by
                obtain ⟨_, _, live, rfl, hsame⟩ := hread.eq
                change x ∈ live h'
                rw [(hsame h' hh).2]
                exact (hs.desk h').sub x hx
              exact absurd ((hread.roll hs).live_unique hx' hl) hh
            · exact hl
          · obtain ⟨o, rfl, -⟩ := hm.did
            exact Function.update_of_ne hxr ..
        rw [hrun]
        exact ⟨rfl, rfl⟩
    refine hm.stirred (hread.stirred (hw h' (hread.wanting hwas)) (.inl hh)) fun _ => hh

end Turn

theorem Watched.settles (hs : Inv s) (hm : s.Settles h s') : s'.Watched := by
  obtain ⟨r, ret, k, o, -, -, rfl, -⟩ := settles_eq hs hm
  exact fun _ _ => .inr (.inr (.inl rfl))

theorem Watched.leaves (hw : s.Watched) (hs : Inv s) (hm : s.Leaves h s') : s'.Watched := by
  obtain ⟨ht, hlive, -, rfl⟩ := hm
  obtain ⟨agentThreads, threads, he⟩ : ∃ agentThreads threads, s.leave h =
      { s with
        agentThreads := agentThreads
        threads := threads
        task := Function.update s.task h .finished } := by
    unfold leave
    dsimp only
    split <;> exact ⟨_, _, rfl⟩
  rw [he]
  intro h' hwant
  have hwas : s.Wanting h' := hwant
  by_cases hh : h' = h
  · subst hh
    obtain ⟨r, hr, -⟩ := hwas
    have hmem := (hs.desk h').sub r (List.mem_of_mem_head? hr)
    rw [hlive] at hmem
    cases hmem
  · rcases hw h' hwas with ha | hi | hwd | hl | ⟨h'', x, hx⟩
    · refine .inl ?_
      change (Function.update s.task h .finished h').awake = true
      rwa [Function.update_of_ne hh]
    · exact .inr (.inl hi)
    · exact .inr (.inr (.inl hwd))
    · exact .inr (.inr (.inr (.inl hl)))
    · refine .inr (.inr (.inr (.inr ⟨h'', x, ?_⟩)))
      have hne : h'' ≠ h := by
        rintro rfl
        rw [ht] at hx
        exact hx
      change (Function.update s.task h .finished h'').ending x
      rwa [Function.update_of_ne hne]

theorem Watched.step {a : Action} (hw : s.Watched) (hs : Inv s) (hl : ∀ r, (s.lane r).Sound)
    (hstep : s.step cfg a = some s') : s'.Watched := by
  cases ha : a.handler? with
  | some h =>
      rcases handler_cases hs hl ha hstep with hm | hm | hm
      · exact hw.turns hs hm
      · exact Watched.settles hs hm
      · exact hw.leaves hs hm
  | none =>
      by_cases hr : ∃ mapping, a = .registerProvider mapping
      · obtain ⟨mapping, rfl⟩ := hr
        cases hstep
        exact fun _ _ => .inr (.inr (.inl (workToDo_registerProvider s mapping)))
      · exact hw.outer hs (outer_step hs ha (fun mapping he => hr ⟨mapping, he⟩) hstep)

end State

section Reachable

variable {cfg : Config} {db : RunId → Option Row} {s : State}

theorem reachable_watched (hs : Reachable cfg db s) : s.Watched := by
  refine System.Reachable.invariant (P := State.Watched) ?_ ?_ hs
  · rintro s rfl h ⟨r, hr, -⟩
    cases hr
  · intro s a s' hreach hw hstep
    have hreach' : Reachable cfg db s := hreach
    obtain ⟨hinv, hl⟩ := reachable_sound hreach'
    exact hw.step hinv hl hstep

/-- **Main result.**  When nothing is left to do, a run that is unoffered at the
head of a thread's queue has an agent nobody serves, or one whose provider has
no room. -/
theorem no_lost_wakeup (hs : Reachable cfg db s) (hq : s.Quiescent) (h : HandlerId) (r : RunId)
    (hr : (s.queue h).head? = some r) (hu : (s.run r).unoffered = true) (c : Connection)
    (hc : s.servingOf (s.run r).agent = some c) :
    (s.provider c.publicKey).hasRoom = false := by
  refine Bool.eq_false_iff.2 fun hroom => ?_
  have hinv := reachable_inv hs
  have hwant : s.Wanting h := ⟨r, hr, hu, c, hc, hroom⟩
  obtain ⟨hborn, -⟩ := hwant.at_desk hinv
  have hwaits : ∀ t : Task, t.waits = true → t.awake = false ∧ ∀ x, ¬ t.ending x := by
    intro t ht
    cases t with
    | idle => exact ⟨rfl, fun _ => id⟩
    | finished => exact ⟨rfl, fun _ => id⟩
    | _ => cases ht
  obtain ⟨hidle, hloop, hwork⟩ := hq
  rcases reachable_watched hs h hwant with ha | hi | hwd | hl | ⟨h', x, he⟩
  · exact absurd (ha.symm.trans (hwaits _ (hidle h hborn).2).1) nofun
  · exact hi (hidle h hborn).1
  · exact absurd (hwork.symm.trans hwd) nofun
  · exact hl hloop
  · exact (hwaits _ (hidle h' (State.born_of_ending hinv he)).2).2 x he

/-- A second run waits for the only place its provider declared. -/
theorem no_lost_wakeup_waiting :
    (State.after Demo.config Demo.waiting).Quiescent ∧
    ((State.after Demo.config Demo.waiting).provider "pk").hasRoom = false := by
  have hq : (State.after Demo.config Demo.waiting).Quiescent :=
    ⟨by decide +kernel, by decide +kernel, by decide +kernel⟩
  exact ⟨hq, no_lost_wakeup (reachable_after Demo.config Demo.waiting) hq 1 "q"
    (by decide +kernel) (by decide +kernel) Demo.link (by decide +kernel)⟩

end Reachable

end Funduq.Broker
