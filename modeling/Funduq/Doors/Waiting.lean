import Funduq.Doors.Lineage

/-!
# What a run waits for

Nowhere is it written that a run waits for an answer: a door reads it off the run's
events and off the `parent_run_id` of all the others.  An answer has the run it
answers for its parent.  A run that answers nothing has the parent its caller named,
whatever run of whatever thread that is, and nobody looks at it.

As long as no caller names a run that waits, or one of another thread, a wait ends
with its answer or with a cancel, and nothing that is opened on another thread is
seen from here.
-/

namespace Funduq.Doors

open Funduq.Lib Funduq.Store Funduq.Contract
open Funduq.Broker (AgentRef Status)

/-! ## Links -/

/-- Every run is on the thread of its parent. -/
structure Linked (w : World) : Prop where
  sane : Sane w
  thread : ∀ r ∈ w.runs, ∀ p ∈ w.runs, r.parentRunId = some p.runId → r.threadId = p.threadId

theorem Linked.still {w w' : World} (h : Linked w) (hstill : Still w w') : Linked w' := by
  refine ⟨hstill.sane h.sane, ?_⟩
  obtain ⟨f, hp, hruns⟩ := hstill.runs
  rw [hruns]
  intro r hr p hpm hparent
  obtain ⟨r₀, hr₀, rfl⟩ := List.mem_map.1 hr
  obtain ⟨p₀, hp₀, rfl⟩ := List.mem_map.1 hpm
  rw [(hp r₀).threadId, (hp p₀).threadId]
  rw [(hp r₀).parentRunId, (hp p₀).runId] at hparent
  exact h.thread r₀ hr₀ p₀ hp₀ hparent

/-- A run that answers nothing names no run that waits and none of another thread,
and nobody has named it before it was there. -/
def namesItsOwn (r : Request) (ws : List Write) (w : World) : Bool :=
  unforeseen ws w && ws.all fun
    | .newRun row opening =>
        opening.answers.isSome || (r.call.parentRunId.str?.bind w.getRun).all fun parent =>
          parent.threadId = row.threadId && !waits w parent
    | _ => true

theorem readParent_ok {parent : Json} {read : Option String} (h : readParent parent = .ok read) :
    parent.str? = read := by
  cases parent <;> cases h <;> rfl

section Commit

variable {PrivateKey PublicKey : Type} {cfg : Config PrivateKey PublicKey}
  {r : Request} {held : List Name} {w : World} {front : List Write} {o : Opened}

/-- A task stays on its thread. -/
theorem Descends.thread {start : String} {run : RunRecord}
    (h : Descends Linked Kin start w run) : ∃ a ∈ w.runs, ∃ b ∈ w.runs, a.runId = start ∧
      Progress run b ∧ a.threadId = b.threadId := by
  induction h with
  | @start w run hw h =>
      have hid : run.runId = start := by simpa using List.find?_some h
      have hmem := List.mem_of_find?_eq_some h
      exact ⟨run, hmem, run, hmem, hid, .refl run, rfl⟩
  | later h hr ih =>
      obtain ⟨a, ha, b, hb, hid, hp, hthread⟩ := ih
      obtain ⟨a', ha', hpa⟩ := hr.undisturbed.later.mem ha
      obtain ⟨b', hb', hpb⟩ := hr.undisturbed.later.mem hb
      refine ⟨a', ha', b', hb', hpa.runId.trans hid, hp.trans hpb, ?_⟩
      rw [hpa.threadId, hpb.threadId, hthread]
  | @child w run child h hw hc ih =>
      obtain ⟨a, ha, b, hb, hid, hp, hthread⟩ := ih
      obtain ⟨hmem, hparent⟩ := List.mem_filter.1 (RunRecord.mem_of_newest hc)
      refine ⟨a, ha, child, hmem, hid, .refl child, ?_⟩
      rw [hthread, hw.thread child hmem b hb (by rw [hp.runId]; simpa using hparent)]

/-- An answer is opened on the thread of the run it answers. -/
theorem Opens.answers_thread (h : Opens cfg Linked Kin r.call held w front o) (hw : Linked w)
    {run : RunRecord} (ha : o.answers = some run) :
    ∃ run' ∈ w.runs, Progress run run' ∧ o.threadId = run'.threadId := by
  rcases h.lineage run ha with hthread | ⟨root, hdescends, ⟨w₀, ⟨-, hroot⟩, hr₀⟩, -, hthread⟩
  · obtain ⟨w₀, ⟨-, hmem⟩, hr₀⟩ := (h.answers run ha).1.known
    obtain ⟨run', hmem', hp⟩ := hr₀.undisturbed.later.mem hmem
    exact ⟨run', hmem', hp, hthread.trans hp.threadId.symm⟩
  · obtain ⟨a, hmem, run', hmem', hid, hp, hsame⟩ := hdescends.thread
    obtain ⟨root', hroot', hp'⟩ := hr₀.undisturbed.later.mem hroot
    cases List.inj_on_of_nodup_map hw.sane.runIds hmem hroot' (hid.trans hp'.runId.symm)
    exact ⟨run', hmem', hp, hthread.trans (hp'.threadId.symm.trans hsame)⟩

/-- What the run a request opens has for its parent: the run it answers, or one of its
own thread that does not wait. -/
theorem Opens.parent (h : Opens cfg Linked Kin r.call held w front o) (hw : Linked w)
    (hnames : namesItsOwn r (front ++ o.writes) w = true) {p : RunRecord} (hp : p ∈ w.runs)
    (hparent : o.row.parentRunId = some p.runId) :
    o.threadId = p.threadId ∧ (waits w p = true → o.opening.answers = some p.runId) := by
  cases ha : o.answers with
  | some run =>
      have hid : run.runId = p.runId := Option.some.inj ((h.parent_eq ha).symm.trans hparent)
      obtain ⟨run', hmem, hprogress, hthread⟩ := h.answers_thread hw ha
      cases List.inj_on_of_nodup_map hw.sane.runIds hmem hp (hprogress.runId.trans hid)
      exact ⟨hthread, fun _ => by rw [Opened.opening, ha, Option.map_some, hid]⟩
  | none =>
      -- The caller has named it.
      have hgiven : r.call.parentRunId.str? = some p.runId :=
        (readParent_ok (h.parent_given ha)).trans hparent
      have hcond := List.all_eq_true.1 (Bool.and_eq_true_iff.1 hnames).2 (.newRun o.row o.opening)
        (List.mem_append_right _ List.mem_cons_self)
      have hanswers : o.opening.answers = none := by rw [Opened.opening, ha, Option.map_none]
      simp only [hanswers, hgiven, Option.bind_some, hw.sane.getRun hp, Option.all_some,
        Option.isSome_none, Bool.false_or, Bool.and_eq_true, decide_eq_true_eq,
        Bool.not_eq_true'] at hcond
      obtain ⟨hthread, hnot⟩ := hcond
      refine ⟨h.threadId_eq.symm.trans hthread.symm, fun hwaits => ?_⟩
      exact absurd (hnot.symm.trans hwaits) nofun

theorem Opens.linked (h : Opens cfg Linked Kin r.call held w front o) (hw : Linked w)
    (hnames : namesItsOwn r (front ++ o.writes) w = true) :
    Linked (db.view w (front ++ o.writes)) := by
  have hs' := h.sane kin_undisturbed (fun _ hl => hl.sane) hw.sane
  have hrow : o.row.threadId = o.threadId := h.threadId_eq
  have hcond := List.all_eq_true.1 (Bool.and_eq_true_iff.1 hnames).1 (.newRun o.row o.opening)
    (List.mem_append_right _ List.mem_cons_self)
  simp only [List.all_eq_true, decide_eq_true_eq] at hcond
  refine ⟨hs', ?_⟩
  rw [o.view h.thread.front]
  intro x hx p hp hparent
  rcases List.mem_append.1 hx with hx | hx
  · rcases List.mem_append.1 hp with hp | hp
    · exact hw.thread x hx p hp hparent
    · cases List.mem_singleton.1 hp
      exact absurd hparent (hcond x hx)
  · cases List.mem_singleton.1 hx
    rcases List.mem_append.1 hp with hp | hp
    · exact hrow.trans (h.parent hw hnames hp hparent).1
    · cases List.mem_singleton.1 hp
      rfl

end Commit

/-! ## How a wait ends -/

section Ends

variable {PrivateKey PublicKey : Type} (cfg : Config PrivateKey PublicKey)

/-- Since `w` a run was opened as the answer to `run`, on its thread, and if it has a
chain with a resolution over its lineage's root and its asks by one of its
authorities. -/
def AnsweredSince (w w' : World) (run : RunRecord) : Prop :=
  ∃ o ∈ w'.openings.drop w.openings.length, o.answers = some run.runId ∧
    o.handed.threadId = run.threadId ∧
    ((chainOf run).isSome = true → ∃ head resolution, headKeyOf cfg run = .ok (some head) ∧
      o.resolution = some resolution ∧ resolution.signer ∈ [head, run.agent.providerKey] ∧
      IsRoot w' run resolution.root ∧ openAsks (w'.getRunEvents run.runId) = resolution.asks ∧
      cfg.verifySignature resolution.signer resolution.signature
        (resolvePayload cfg.primitives resolution.root resolution.asks) = true)

/-- Since `w` a cancel of `run` was accepted, if it has a chain on the word of one of
its authorities. -/
def CancelledSince (w w' : World) (run : RunRecord) : Prop :=
  ∃ note ∈ w'.cancels.drop w.cancels.length, note.runId = run.runId ∧
    ((chainOf run).isSome = true → ∃ head signer, headKeyOf cfg run = .ok (some head) ∧
      signer ∈ [head, run.agent.providerKey] ∧ note.requestedBy = some signer ∧
      cfg.verifySignature signer note.signature (cancelPayload run.runId note.timestamp) = true)

variable {cfg}

/-- A chain that verifies has a head. -/
theorem chainOf_of_headKeyOf {run : RunRecord} (h : headKeyOf cfg run = .ok none) :
    chainOf run = none := by
  unfold headKeyOf at h
  cases hchain : chainOf run with
  | none => rfl
  | some chain =>
      rw [hchain] at h
      simp only at h
      cases hver : verifyChain cfg.primitives chain with
      | error e =>
          rw [hver] at h
          cases h
      | ok result =>
          rw [hver] at h
          obtain ⟨hne, hacc⟩ := verifyChain_ok.1 hver
          have hhead : result.hops.head? = none := by
            have hnone : result.head = none := Except.ok.inj h
            simpa [ChainResult.head, ChainResult.actorPublicKeys] using hnone
          rw [List.head?_eq_none_iff] at hhead
          have hlength := hacc.forall₂.length_eq
          rw [hhead] at hlength
          exact absurd (List.length_eq_zero_iff.1 hlength) hne

section Later

variable {w w' w'' : World} {run run' : RunRecord}

theorem AnsweredSince.earlier (h : Later w w') (hp : Progress run run')
    (ha : AnsweredSince cfg w' w'' run') : AnsweredSince cfg w w'' run := by
  obtain ⟨o, ho, hanswers, hthread, hresolved⟩ := ha
  rw [hp.headKeyOf, hp.chainOf, hp.runId, hp.agent] at hresolved
  refine ⟨o, List.drop_subset_drop_left _ h.openings.length_le ho, hp.runId ▸ hanswers,
    hthread.trans hp.threadId, fun hchain => ?_⟩
  obtain ⟨head, resolution, hhead, hres, hsigner, hroot, hasks, hver⟩ := hresolved hchain
  exact ⟨head, resolution, hhead, hres, hsigner, (isRoot_progress hp).1 hroot, hasks, hver⟩

theorem CancelledSince.earlier (h : Later w w') (hp : Progress run run')
    (hc : CancelledSince cfg w' w'' run') : CancelledSince cfg w w'' run := by
  obtain ⟨note, hnote, hid, hsigned⟩ := hc
  rw [hp.headKeyOf, hp.chainOf, hp.runId, hp.agent] at hsigned
  exact ⟨note, List.drop_subset_drop_left _ h.cancels.length_le hnote, hid.trans hp.runId, hsigned⟩

theorem mem_drop_of_prefix {α : Type} {l l' : List α} (h : l <+: l') {n : Nat} {a : α}
    (ha : a ∈ l.drop n) : a ∈ l'.drop n := by
  obtain ⟨t, rfl⟩ := h
  rw [List.drop_append]
  exact List.mem_append_left _ ha

theorem AnsweredSince.later (h : Kin [] w' w'') (hs : Sane w'') (hmem : run' ∈ w'.runs)
    (hp : Progress run run') (hdone : run'.status = .completed)
    (ha : AnsweredSince cfg w w' run) : AnsweredSince cfg w w'' run := by
  have hlater := h.undisturbed.later
  obtain ⟨o, ho, hanswers, hthread, hresolved⟩ := ha
  refine ⟨o, mem_drop_of_prefix hlater.openings ho, hanswers, hthread, fun hchain => ?_⟩
  obtain ⟨head, resolution, hhead, hres, hsigner, hroot, hasks, hver⟩ := hresolved hchain
  refine ⟨head, resolution, hhead, hres, hsigner, ?_, ?_, hver⟩
  · exact (isRoot_progress hp).1 (((isRoot_progress hp).2 hroot).kin h hs hmem)
  · rw [← hp.runId] at hasks ⊢
    rw [hlater.asks run' hmem hdone, hasks]

theorem CancelledSince.later (h : Later w' w'') (hc : CancelledSince cfg w w' run) :
    CancelledSince cfg w w'' run := by
  obtain ⟨note, hnote, hid, hsigned⟩ := hc
  exact ⟨note, mem_drop_of_prefix h.cancels hnote, hid, hsigned⟩

/-- A run goes on waiting while no cancel is recorded of it and no run names it. -/
theorem waiting_later (h : Later w w') (hs : Sane w') (hrun : run ∈ w.runs)
    (hwaits : waits w run = true)
    (hopen : ∀ r ∈ w'.runs, Progress run r → r.cancelRequested = false)
    (hchild : ∀ r ∈ w'.runs, r.parentRunId ≠ some run.runId) : Waiting w' run.runId := by
  obtain ⟨hdone, -, -, hasks⟩ := waits_iff.1 hwaits
  obtain ⟨r, hr, hp⟩ := h.mem hrun
  rw [waiting_iff]
  refine ⟨r, hp.runId ▸ hs.getRun hr, waits_iff.2 ⟨?_, hopen r hr hp, ?_, ?_⟩⟩
  · exact hp.completed hdone
  · rw [childOf_eq_none, hp.runId]
    exact hchild
  · rw [hp.runId, h.asks run hrun hdone]
    exact hasks

end Later

/-! ## One move -/

section Move

variable {r : Request} {held : List Name} {w : World} {front : List Write} {o : Opened}
  {run : RunRecord}

theorem Opens.answered (h : Opens cfg Linked Kin r.call held w front o) (hw : Linked w)
    (hnames : namesItsOwn r (front ++ o.writes) w = true) (hrun : run ∈ w.runs)
    (hwaits : waits w run = true) (hparent : o.row.parentRunId = some run.runId) :
    AnsweredSince cfg w (db.view w (front ++ o.writes)) run := by
  obtain ⟨hthread, hanswers⟩ := h.parent hw hnames hrun hparent
  have hview := o.view h.thread.front w
  have hs' := h.sane kin_undisturbed (fun _ hl => hl.sane) hw.sane
  obtain ⟨run₀, hrun₀, hid⟩ := Option.map_eq_some_iff.1 (hanswers hwaits)
  -- The run it answers is this one.
  obtain ⟨run', hmem', hp, -⟩ := h.answers_thread hw hrun₀
  cases List.inj_on_of_nodup_map hw.sane.runIds hmem' hrun (hp.runId.trans hid)
  obtain ⟨hawaits, hresolved⟩ := h.answers run₀ hrun₀
  have hkin : Kin [] w (db.view w (front ++ o.writes)) :=
    (Commits.opens front o h).kin (Bool.and_eq_true_iff.1 hnames).1 fun _ _ => List.not_mem_nil
  have hagent : o.inbound.agent = run.agent := by
    rw [hview] at hs'
    exact hs'.agent (List.mem_append_right _ List.mem_cons_self) (List.mem_append_left _ hrun)
      (h.threadId_eq.trans hthread)
  refine ⟨o.opening, ?_, hanswers hwaits, h.threadId_eq.trans hthread, fun hchain => ?_⟩
  · rw [hview]
    show o.opening ∈ (w.openings ++ [o.opening]).drop w.openings.length
    rw [List.drop_left]
    exact List.mem_cons_self
  · cases hres : o.resolution with
    | none =>
        rw [hres] at hresolved
        rw [hp.chainOf, chainOf_of_headKeyOf hresolved] at hchain
        cases hchain
    | some resolution =>
        rw [hres] at hresolved
        have hasks := hresolved.asks kin_undisturbed hawaits.completed
        obtain ⟨head, proof, hhead, -, hroot, hver⟩ := hresolved
        obtain ⟨-, -, hsigner, hverifies⟩ := verifyResolution_ok cfg hver
        refine ⟨head, resolution, hp.headKeyOf.trans hhead, hres, hagent ▸ hsigner, ?_, ?_,
          hverifies⟩
        · have hroot' := (isRoot_progress hp).2 (hroot.isRoot (fun _ _ _ hk => hk) hw.sane)
          exact hroot'.kin hkin hs' hrun
        · rw [hp.runId, hview]
          exact hasks

theorem Opens.waiting (h : Opens cfg Linked Kin r.call held w front o) (hw : Linked w)
    (hnames : namesItsOwn r (front ++ o.writes) w = true) (hrun : run ∈ w.runs)
    (hwaits : waits w run = true) :
    Waiting (db.view w (front ++ o.writes)) run.runId ∨
      AnsweredSince cfg w (db.view w (front ++ o.writes)) run := by
  by_cases hparent : o.row.parentRunId = some run.runId
  · exact .inr (h.answered hw hnames hrun hwaits hparent)
  · obtain ⟨-, hopen, hchild, -⟩ := waits_iff.1 hwaits
    have hs' := h.sane kin_undisturbed (fun _ hl => hl.sane) hw.sane
    refine .inl (waiting_later h.later hs' hrun hwaits ?_ ?_)
    · intro r' hr' hp
      rw [o.view h.thread.front] at hs' hr'
      cases List.inj_on_of_nodup_map hs'.runIds hr' (List.mem_append_left _ hrun) hp.runId
      exact hopen
    · intro r' hr'
      rw [o.view h.thread.front] at hr'
      rcases List.mem_append.1 hr' with hr' | hr'
      · exact childOf_eq_none.1 hchild r' hr'
      · cases List.mem_singleton.1 hr'
        exact hparent

/-- What opens nothing names no run anew. -/
theorem Still.childless {w' : World} (h : Still w w') {runId : String}
    (hchild : w.childOf runId = none) : ∀ r ∈ w'.runs, r.parentRunId ≠ some runId := by
  obtain ⟨f, hp, hruns⟩ := h.runs
  intro r hr
  rw [hruns] at hr
  obtain ⟨r₀, hr₀, rfl⟩ := List.mem_map.1 hr
  rw [(hp r₀).parentRunId]
  exact childOf_eq_none.1 hchild r₀ hr₀

theorem Quiet.waiting {w' : World} (h : Quiet w w') (hw : Linked w) (hrun : run ∈ w.runs)
    (hwaits : waits w run = true) : Waiting w' run.runId := by
  obtain ⟨-, hopen, hchild, -⟩ := waits_iff.1 hwaits
  refine waiting_later h.still.later (h.still.sane hw.sane) hrun hwaits ?_
    (h.still.childless hchild)
  intro r hr hprogress
  obtain ⟨f, hp, hruns⟩ := h.still.runs
  have hflags := h.flags
  rw [hruns] at hr hflags
  rw [List.map_map, List.map_inj_left] at hflags
  obtain ⟨r₀, hr₀, rfl⟩ := List.mem_map.1 hr
  cases List.inj_on_of_nodup_map hw.sane.runIds hr₀ hrun
    ((hp r₀).runId.symm.trans hprogress.runId)
  exact (hflags run hrun).trans hopen

theorem cancel_waiting (hw : Linked w) {stored : RunRecord} {metadata : Dict String Json}
    {now : Broker.Time} {note : CancelNote}
    (known : Since Kin [] (fun w₀ => Linked w₀ ∧ stored ∈ w₀.runs) w)
    (authorized : authorizeCancel cfg now stored metadata = .ok note) (hrun : run ∈ w.runs)
    (hwaits : waits w run = true) :
    Waiting (w.apply (.recordCancelRequest note)) run.runId ∨
      CancelledSince cfg w (w.apply (.recordCancelRequest note)) run := by
  have hstill := still_cancel w note
  obtain ⟨-, hopen, hchild, -⟩ := waits_iff.1 hwaits
  by_cases hid : note.runId = run.runId
  · obtain ⟨w₀, ⟨-, hmem⟩, hr⟩ := known
    obtain ⟨stored', hmem', hp⟩ := hr.undisturbed.later.mem hmem
    obtain ⟨hnote, head, hhead, hsigned⟩ := authorizeCancel_ok cfg authorized
    cases List.inj_on_of_nodup_map hw.sane.runIds hmem' hrun
      (hp.runId.trans (hnote.symm.trans hid))
    refine .inr ⟨note, ?_, hid, fun hchain => ?_⟩
    · show note ∈ (w.cancels ++ [note]).drop w.cancels.length
      rw [List.drop_left]
      exact List.mem_cons_self
    · cases head with
      | none =>
          rw [hp.chainOf, chainOf_of_headKeyOf hhead] at hchain
          cases hchain
      | some key =>
          obtain ⟨signer, hsigner, hby, hver⟩ := hsigned key rfl
          rw [← hp.agent] at hsigner
          rw [← hp.runId] at hver
          exact ⟨key, signer, hp.headKeyOf.trans hhead, hsigner, hby, hver⟩
  · refine .inl (waiting_later hstill.later (hstill.sane hw.sane) hrun hwaits ?_
      (hstill.childless hchild))
    intro r' hr' hprogress
    obtain ⟨r₀, hr₀, rfl⟩ := List.mem_map.1 hr'
    split at hprogress
    · rename_i hsame
      exact absurd (hsame.symm.trans hprogress.runId) hid
    · rename_i hother
      cases List.inj_on_of_nodup_map hw.sane.runIds hr₀ hrun hprogress.runId
      rw [if_neg hother]
      exact hopen

end Move

end Ends

/-! ## What is opened elsewhere -/

section Elsewhere

/-- A child is on the thread of its parent. -/
theorem Linked.child {w : World} (hw : Linked w) {z c : RunRecord} {threadId : String}
    (hz : z ∈ w.runs) (hthread : z.threadId = threadId) (hc : w.childOf z.runId = some c) :
    c ∈ w.runs ∧ c.threadId = threadId := by
  obtain ⟨hmem, hparent⟩ := List.mem_filter.1 (RunRecord.mem_of_newest hc)
  exact ⟨hmem, (hw.thread c hmem z hz (by simpa using hparent)).trans hthread⟩

/-- A run is opened that is no child of a run on the thread. -/
structure Elsewhere (w w' : World) (threadId : String) : Prop where
  opened : ∃ row, w'.runs = w.runs ++ [row] ∧
    ∀ z ∈ w.runs, z.threadId = threadId → row.parentRunId ≠ some z.runId
  events : w'.events = w.events

namespace Elsewhere

variable {w w' : World} {threadId : String} (h : Elsewhere w w' threadId) (hw : Linked w)
include h

theorem getRunEvents (runId : String) : w'.getRunEvents runId = w.getRunEvents runId := by
  unfold World.getRunEvents World.eventsOf
  rw [h.events]

theorem childOf {z : RunRecord} (hz : z ∈ w.runs) (hthread : z.threadId = threadId) :
    w'.childOf z.runId = w.childOf z.runId := by
  obtain ⟨row, hruns, hno⟩ := h.opened
  unfold World.childOf
  rw [hruns, List.filter_append, List.filter_cons_of_neg (by simpa using hno z hz hthread),
    List.filter_nil, List.append_nil]

theorem getRun {w₀ : RunRecord} (hmem : w₀ ∈ w.runs) :
    w'.getRun w₀.runId = w.getRun w₀.runId := by
  obtain ⟨row, hruns, -⟩ := h.opened
  unfold World.getRun
  rw [hruns, List.find?_append, Option.or_of_isSome]
  rw [List.find?_isSome]
  exact ⟨w₀, hmem, by simp⟩

include hw

theorem followLineage (n : Nat) {z : RunRecord} (hz : z ∈ w.runs) (hthread : z.threadId = threadId) :
    (followLineage n z).peek w' = (followLineage n z).peek w := by
  induction n generalizing z with
  | zero => rfl
  | succ n ih =>
      rw [peek_followLineage_succ, peek_followLineage_succ, h.childOf hz hthread]
      cases hc : w.childOf z.runId with
      | none => rfl
      | some c =>
          obtain ⟨hmem, hthread'⟩ := hw.child hz hthread hc
          exact ih hmem hthread'

theorem collectLineage (n : Nat) {z : RunRecord} (hz : z ∈ w.runs)
    (hthread : z.threadId = threadId) :
    (collectLineage n z).peek w' = (collectLineage n z).peek w := by
  induction n generalizing z with
  | zero => rfl
  | succ n ih =>
      rw [peek_collectLineage_succ, peek_collectLineage_succ, h.childOf hz hthread]
      cases hc : w.childOf z.runId with
      | none => rfl
      | some c =>
          obtain ⟨hmem, hthread'⟩ := hw.child hz hthread hc
          simp only [ih hmem hthread']

theorem waitingOn (n : Nat) {y : RunRecord} (hy : y ∈ w.runs) (hthread : y.threadId = threadId) :
    (waitingOn n y).peek w' = (waitingOn n y).peek w := by
  have hseeing : ∀ tail, seeing w' y tail = seeing w y tail := by
    intro tail
    unfold seeing
    rw [h.getRunEvents]
  rw [peek_waitingOn, peek_waitingOn, peek_lineageTail, peek_lineageTail, h.getRun hy,
    hw.sane.getRun hy, Option.elim_some, Option.elim_some, h.followLineage hw n hy hthread]
  simp only [hseeing]

theorem lineage (n : Nat) {y : RunRecord} (hy : y ∈ w.runs) (hthread : y.threadId = threadId) :
    (lineage n y.runId).peek w' = (lineage n y.runId).peek w := by
  rw [peek_lineage, peek_lineage, h.getRun hy, hw.sane.getRun hy, Option.elim_some,
    Option.elim_some, h.collectLineage hw n hy hthread]

theorem taskState (n : Nat) {y : RunRecord} (hy : y ∈ w.runs) (hthread : y.threadId = threadId) :
    (taskState n y.runId).peek w' = (taskState n y.runId).peek w := by
  rw [peek_taskState, peek_taskState, h.lineage hw n hy hthread]
  simp only [h.getRunEvents]

end Elsewhere

end Elsewhere

/-! ## Every run of the process -/

section Runs

variable {PrivateKey PublicKey : Type} {cfg : Config PrivateKey PublicKey}

theorem linked_commit {r : Request} {held : List Name} {ws : List Write} {w : World}
    (hw : Linked w) (hnames : namesItsOwn r ws w = true)
    (h : Commits cfg Linked Kin r.call held ws w) : Linked (db.view w ws) := by
  rcases h.cases with ⟨front, o, rfl, hopens⟩ | hstill
  · exact hopens.linked hw hnames
  · exact hw.still hstill

theorem linked_promises : Server.Promises db (program cfg) outside Linked Kin
    (fun r => Commits cfg Linked Kin r.call) where
  refl := kin_steady.refl
  trans := kin_steady.trans
  outside w e w' hw h := by
    have hstill := still_outside hw.sane h
    exact ⟨hw.still hstill, hstill.kin⟩
  program r w := wp_program kin_steady r w

/-- Every commit is one the condition allows. -/
abbrev NamesItsOwn (s : Process) (a : Move Request Outside) : Prop :=
  s.commitsAs namesItsOwn a = true

variable (cfg) in
/-- How the world changes where callers name their own. -/
abbrev Changes (w w' : World) : Prop :=
  Server.Change db outside (fun r ws w => namesItsOwn r ws w = true)
    (fun r => Commits cfg Linked Kin r.call) w w'

theorem reachable_linked {s : Process} (hs : (system cfg Empty).ReachableBy NamesItsOwn s) :
    Linked s.world ∧ ∀ a s', NamesItsOwn s a → (system cfg Empty).step s a = some s' →
      Changes cfg s.world s'.world := by
  have hG : ∀ (r : Request) held ws w, Linked w → namesItsOwn r ws w = true →
      Commits cfg Linked Kin r.call held ws w → Linked (db.view w ws) ∧
        ∀ held', (∀ n, n.Owned → n ∈ held → n ∉ held') →
          Kin held' w (db.view w ws) :=
    fun r held ws w hw hnames hg => ⟨linked_commit hw hnames hg, fun held' hsep =>
      hg.kin (Bool.and_eq_true_iff.1 hnames).1 fun id hid => hsep _ ⟨id, rfl⟩ hid⟩
  have hinit : ∀ w, Empty w → Linked w :=
    fun w hw => ⟨hw.sane, by rw [hw.runs]; exact List.forall_mem_nil _⟩
  have hinv := Server.invariant_of_concurrent linked_promises hG (Server.allowed_commitsAs namesItsOwn) hinit hs
  exact ⟨hinv.inv, fun a s' hc hstep =>
    (hinv.step linked_promises hG (Server.allowed_commitsAs namesItsOwn) hc hstep).2⟩

theorem Changes.kin {w w' : World} (hw : Linked w) (h : Changes cfg w w') : Kin [] w w' := by
  cases h with
  | stays => exact kin_steady.refl [] w
  | outside e w' h => exact (still_outside hw.sane h).kin []
  | commits r held ws hnames hg =>
      exact hg.kin (Bool.and_eq_true_iff.1 hnames).1 fun _ _ => List.not_mem_nil

/-- One move ends no wait but by an answer or a cancel. -/
theorem Changes.waiting {w w' : World} (hw : Linked w) (h : Changes cfg w w') {run : RunRecord}
    (hrun : run ∈ w.runs) (hwaits : waits w run = true) :
    Waiting w' run.runId ∨ AnsweredSince cfg w w' run ∨ CancelledSince cfg w w' run := by
  cases h with
  | stays => exact .inl (waiting_iff.2 ⟨run, hw.sane.getRun hrun, hwaits⟩)
  | outside e w' h => exact .inl ((quiet_outside hw.sane h).waiting hw hrun hwaits)
  | commits r held ws hnames hg =>
      rcases hg.kinds with ⟨front, o, rfl, hopens⟩ |
        ⟨stored, metadata, now, note, rfl, known, authorized⟩ | hquiet
      · rcases hopens.waiting hw hnames hrun hwaits with hstays | hanswered
        · exact .inl hstays
        · exact .inr (.inl hanswered)
      · rcases cancel_waiting hw known authorized hrun hwaits with hstays | hcancelled
        · exact .inl hstays
        · exact .inr (.inr hcancelled)
      · exact .inl (hquiet.waiting hw hrun hwaits)

/-- A run that is opened on another thread is opened elsewhere. -/
theorem Changes.elsewhere {w w' : World} (hw : Linked w) (hw' : Linked w') (h : Changes cfg w w')
    {row y : RunRecord} (hruns : w'.runs = w.runs ++ [row]) (hy : y ∈ w.runs)
    (hother : row.threadId ≠ y.threadId ∨ row.agent ≠ y.agent) : Elsewhere w w' y.threadId := by
  have hlength : w'.runs.length ≠ w.runs.length := by
    rw [hruns, List.length_append, List.length_singleton]
    omega
  have hstill : ¬ Still w w' := by
    intro hstill
    obtain ⟨f, -, hmap⟩ := hstill.runs
    rw [hmap, List.length_map] at hlength
    exact hlength rfl
  have hrow : row ∈ w'.runs := by
    rw [hruns]
    exact List.mem_append_right _ List.mem_cons_self
  have hmem : ∀ z ∈ w.runs, z ∈ w'.runs := by
    rw [hruns]
    exact fun z hz => List.mem_append_left _ hz
  have hthread : row.threadId ≠ y.threadId := by
    rcases hother with hthread | hagent
    · exact hthread
    · exact fun hthread => hagent (hw'.sane.agent hrow (hmem y hy) hthread)
  refine ⟨⟨row, hruns, fun z hz hsame hparent => hthread ?_⟩, ?_⟩
  · exact (hw'.thread row hrow z (hmem z hz) hparent).trans hsame
  · cases h with
    | stays => exact absurd (.refl w) hstill
    | outside e w' h => exact absurd (still_outside hw.sane h) hstill
    | commits r held ws hnames hg =>
        rcases hg.cases with ⟨front, o, rfl, hopens⟩ | h
        · rw [o.view hopens.thread.front]
        · exact absurd h hstill

/-- `waiting_on`, `lineage` and the state of its task say the same of the run. -/
def SeenAlike (w w' : World) (run : RunRecord) : Prop :=
  ∀ questions, (waitingOn questions run).peek w' = (waitingOn questions run).peek w ∧
    (lineage questions run.runId).peek w' = (lineage questions run.runId).peek w ∧
    (taskState questions run.runId).peek w' = (taskState questions run.runId).peek w

/-- **Main result.**  Where every caller names its own, a run that waits goes on waiting
until it is answered on its own thread or cancelled, and what is opened on another
thread or for another agent is not seen from it. -/
theorem wait_ends_by_answer_or_cancel {s : Process}
    (hs : (system cfg Empty).ReachableBy NamesItsOwn s) :
    (∀ s', (system cfg Empty).RunsBy NamesItsOwn s s' → ∀ run ∈ s.world.runs,
      Waiting s.world run.runId → Waiting s'.world run.runId ∨
        AnsweredSince cfg s.world s'.world run ∨ CancelledSince cfg s.world s'.world run) ∧
    ∀ a s', NamesItsOwn s a → (system cfg Empty).step s a = some s' → ∀ row,
      s'.world.runs = s.world.runs ++ [row] → ∀ run ∈ s.world.runs,
      row.threadId ≠ run.threadId ∨ row.agent ≠ run.agent → SeenAlike s.world s'.world run := by
  obtain ⟨hlinked, hchanges⟩ := reachable_linked hs
  constructor
  · intro s' hruns run hrun hwaiting
    have hdone : run.status = .completed := by
      obtain ⟨run', hget, hwaits⟩ := waiting_iff.1 hwaiting
      cases (hlinked.sane.getRun hrun).symm.trans hget
      exact (waits_iff.1 hwaits).1
    -- Along the way history goes on, and the run waits or its wait has ended.
    suffices h : Later s.world s'.world ∧ (Waiting s'.world run.runId ∨
        AnsweredSince cfg s.world s'.world run ∨ CancelledSince cfg s.world s'.world run) from h.2
    induction hruns with
    | refl => exact ⟨.refl _, .inl hwaiting⟩
    | @tail s₁ s₂ hruns hstep ih =>
        obtain ⟨a, hc, hstep⟩ := hstep
        obtain ⟨hlater, hso⟩ := ih
        obtain ⟨hlinked₁, hchanges₁⟩ := reachable_linked (hs.runs hruns)
        have hchange := hchanges₁ a s₂ hc hstep
        have hkin := hchange.kin hlinked₁
        have hlater₁ := hkin.undisturbed.later
        obtain ⟨run₁, hrun₁, hp⟩ := hlater.mem hrun
        refine ⟨hlater.trans hlater₁, ?_⟩
        rcases hso with hwaiting₁ | hanswered | hcancelled
        · obtain ⟨run', hget, hwaits⟩ := waiting_iff.1 hwaiting₁
          rw [← hp.runId, hlinked₁.sane.getRun hrun₁] at hget
          cases hget
          rw [← hp.runId]
          rcases hchange.waiting hlinked₁ hrun₁ hwaits with hstays | hanswered | hcancelled
          · exact .inl hstays
          · exact .inr (.inl (hanswered.earlier hlater hp))
          · exact .inr (.inr (hcancelled.earlier hlater hp))
        · have hsane₂ := (reachable_linked (.step a (hs.runs hruns) hc hstep)).1.sane
          exact .inr (.inl (hanswered.later hkin hsane₂ hrun₁ hp (hp.completed hdone)))
        · exact .inr (.inr (hcancelled.later hlater₁))
  · intro a s' hc hstep row hruns run hrun hother
    have hlinked' := (reachable_linked (.step a hs hc hstep)).1
    have helse := (hchanges a s' hc hstep).elsewhere hlinked hlinked' hruns hrun hother
    exact fun n => ⟨helse.waitingOn hlinked n hrun rfl, helse.lineage hlinked n hrun rfl,
      helse.taskState hlinked n hrun rfl⟩

end Runs

namespace Demo

/-- `r0` waits while somebody opens a thread of its own, and is answered. -/
def answeredInTime : List (Move Request Outside) :=
  [calls (.startRun agent (saying "m1") none none)] ++
  advances 1 ["u", "", "", "", "r1", "", "", "", ""] ++
  [calls (.resumeRun "r0" (saying "m2") none)] ++
  advances 2 ["", "", "", "", "", "r2", "", "", "", ""]

/-- Somebody opens a thread of its own and names `r0` as the parent of its run. -/
def namesForeign : List (Move Request Outside) :=
  [calls (.startRun agent (saying "m1" [("parentRunId", .str "r0")]) none none)] ++
  advances 1 ["u", "", "", "", "r1", "", "", "", ""]

/-- What `moves` lead to from where `r0` waits. -/
def onward (moves : List (Move Request Outside)) : Process :=
  (system config Empty).runFrom (after paused) moves

theorem paused_waits : (system config Empty).ReachableBy NamesItsOwn (after paused) ∧
    ∃ run ∈ (after paused).world.runs, run.runId = "r0" ∧
      Waiting (after paused).world run.runId := by
  have hreach : (system config Empty).ReachableBy NamesItsOwn (after paused) :=
    System.ReachableBy.runFrom (fun _ _ h => h) (.init start_init) (by decide +kernel)
  have hpaused : ∃ run ∈ (after paused).world.runs, run.runId = "r0" ∧
      waits (after paused).world run = true := by
    decide +kernel
  obtain ⟨run, hrun, hid, hwaits⟩ := hpaused
  have hsane := (reachable_linked hreach).1.sane
  exact ⟨hreach, run, hrun, hid, waiting_iff.2 ⟨run, hsane.getRun hrun, hwaits⟩⟩

end Demo

/-- The answer ends the wait. -/
theorem wait_ends_by_answer_or_cancel_answered :
    (system Demo.config Empty).ReachableBy NamesItsOwn (Demo.after Demo.paused) ∧
      (system Demo.config Empty).RunsBy NamesItsOwn (Demo.after Demo.paused)
        (Demo.onward Demo.answeredInTime) ∧
      ∃ run ∈ (Demo.after Demo.paused).world.runs,
        Waiting (Demo.after Demo.paused).world run.runId ∧
        (Waiting (Demo.onward Demo.answeredInTime).world run.runId ∨
          AnsweredSince Demo.config (Demo.after Demo.paused).world
            (Demo.onward Demo.answeredInTime).world run ∨
          CancelledSince Demo.config (Demo.after Demo.paused).world
            (Demo.onward Demo.answeredInTime).world run) := by
  have hruns : (system Demo.config Empty).RunsBy NamesItsOwn (Demo.after Demo.paused)
      (Demo.onward Demo.answeredInTime) :=
    System.runsBy_runFrom (fun _ _ h => h) (by decide +kernel)
  obtain ⟨hreach, run, hrun, -, hwaiting⟩ := Demo.paused_waits
  exact ⟨hreach, hruns, run, hrun, hwaiting,
    (wait_ends_by_answer_or_cancel hreach).1 _ hruns run hrun hwaiting⟩

/-- A run on another thread that names it ends the wait. -/
theorem foreign_parent_ends_wait :
    (system Demo.config Empty).Reachable (Demo.after Demo.paused) ∧
      (system Demo.config Empty).RunsBy (fun _ _ => True) (Demo.after Demo.paused)
        (Demo.onward Demo.namesForeign) ∧
      ∃ run ∈ (Demo.after Demo.paused).world.runs,
        Waiting (Demo.after Demo.paused).world run.runId ∧
        ¬ (Waiting (Demo.onward Demo.namesForeign).world run.runId ∨
          AnsweredSince Demo.config (Demo.after Demo.paused).world
            (Demo.onward Demo.namesForeign).world run ∨
          CancelledSince Demo.config (Demo.after Demo.paused).world
            (Demo.onward Demo.namesForeign).world run) := by
  have hruns : (system Demo.config Empty).RunsBy (fun _ _ => True) (Demo.after Demo.paused)
      (Demo.onward Demo.namesForeign) :=
    System.runsBy_runFrom (p := fun _ _ => true) (fun _ _ _ => trivial) (by decide +kernel)
  have hafter : ((Demo.onward Demo.namesForeign).world.getRun "r0").any
        (waits (Demo.onward Demo.namesForeign).world) = false ∧
      (∀ o ∈ (Demo.onward Demo.namesForeign).world.openings, o.answers = none) ∧
      (Demo.onward Demo.namesForeign).world.cancels.length = 0 := by
    decide +kernel
  obtain ⟨hno, hopenings, hcancels⟩ := hafter
  obtain ⟨-, run, hrun, hid, hwaiting⟩ := Demo.paused_waits
  refine ⟨Demo.after_reachable _, hruns, run, hrun, hwaiting, ?_⟩
  rintro (hwaits | ⟨o, ho, hanswers, -⟩ | ⟨note, hnote, -⟩)
  · obtain ⟨run', hget, hwaits⟩ := waiting_iff.1 hwaits
    rw [hid] at hget
    rw [hget, Option.any_some] at hno
    exact absurd (hno.symm.trans hwaits) nofun
  · cases (hopenings o (List.mem_of_mem_drop ho)).symm.trans hanswers
  · rw [List.length_eq_zero_iff.1 hcancels] at hnote
    exact absurd (List.mem_of_mem_drop hnote) List.not_mem_nil

end Funduq.Doors
