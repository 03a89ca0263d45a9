import Funduq.Doors.History

/-!
# A bound thread and its authorities

A thread that is opened under a chain is bound to the chain's head.  The head and
the provider of the thread's agent are its authorities.  A door that takes the
thread's row asks the caller's chain for one of them.

`resume_run` takes no thread's row.  It asks for a resolution by an authority of
the run it answers, and a cancel is asked for the word of an authority of the run
it is aimed at.  Both are read off that run's own chain, and whose chain that is
was up to the caller that opened it: an answer with a resolution brings its own
chain, or none, and from then on its head is heard, or anybody.

What is left is that a thread obeys its authorities as long as whoever is heard
about a run of it is heard on their authority.
-/

namespace Funduq.Doors

open Funduq.Lib Funduq.Store Funduq.Contract
open Funduq.Broker (AgentRef Status)

/-- The head a thread is bound to, and the provider of its agent. -/
def authoritiesOf (w : World) (threadId : String) : Option (List String) :=
  (w.getThread threadId).bind fun t => t.headKey.map fun head => [head, t.agent.providerKey]

/-- A thread keeps its authorities. -/
theorem Later.authoritiesOf {w w' : World} (h : Later w w') (hs : Sane w) (hs' : Sane w')
    {t : ThreadRow} (ht : t ∈ w.threads) :
    authoritiesOf w' t.threadId = authoritiesOf w t.threadId := by
  unfold Doors.authoritiesOf
  rw [hs.getThread ht, hs'.getThread (h.threads.subset ht)]

variable {PrivateKey PublicKey : Type} (cfg : Config PrivateKey PublicKey)

/-- The run was opened by a caller whose chain one of `keys` heads, or against a
resolution one of them signed over what is asked. -/
def OpenedBy (keys : List String) (w : World) (o : Opening) : Prop :=
  (∃ key ∈ keys, o.callerHead = some key) ∨
    ∃ resolution asked, o.resolution = some resolution ∧ resolution.signer ∈ keys ∧
      o.answers = some asked.runId ∧ asked ∈ w.runs ∧ asked.status = .completed ∧
      openAsks (w.getRunEvents asked.runId) = resolution.asks ∧
      cfg.verifySignature resolution.signer resolution.signature
        (resolvePayload cfg.primitives resolution.root resolution.asks) = true

/-- The cancel carried a proof one of `keys` signed. -/
def CancelledBy (keys : List String) (note : CancelNote) : Prop :=
  ∃ signer ∈ keys, note.requestedBy = some signer ∧
    cfg.verifySignature signer note.signature (cancelPayload note.runId note.timestamp) = true

/-- Every run on the thread was opened, and every cancel of one recorded, on the
word of `keys`. -/
structure Obeys (w : World) (threadId : String) (keys : List String) : Prop where
  opened : ∀ o ∈ w.openings, o.handed.threadId = threadId → OpenedBy cfg keys w o
  cancelled : ∀ note ∈ w.cancels, ∀ r ∈ w.runs, r.runId = note.runId → r.threadId = threadId →
    CancelledBy cfg keys note

/-! ## The invariant -/

/-- The thread a run was opened on has agreed to it. -/
def Proper (w : World) (o : Opening) : Prop :=
  ∀ keys, authoritiesOf w o.handed.threadId = some keys → OpenedBy cfg keys w o

/-- The thread of the run a cancel is aimed at has agreed to it. -/
def Heeded (w : World) (note : CancelNote) : Prop :=
  ∃ r ∈ w.runs, r.runId = note.runId ∧
    ∀ keys, authoritiesOf w r.threadId = some keys → CancelledBy cfg keys note

structure Obedient (w : World) : Prop where
  sane : Sane w
  proper : ∀ o ∈ w.openings, Proper cfg w o
  heeded : ∀ note ∈ w.cancels, Heeded cfg w note

variable {cfg}

theorem Obedient.obeys {w : World} (h : Obedient cfg w) {t : ThreadRow} (ht : t ∈ w.threads)
    {head : String} (hhead : t.headKey = some head) :
    Obeys cfg w t.threadId [head, t.agent.providerKey] := by
  have hkeys : authoritiesOf w t.threadId = some [head, t.agent.providerKey] := by
    rw [authoritiesOf, h.sane.getThread ht, Option.bind_some, hhead, Option.map_some]
  constructor
  · intro o ho hid
    exact h.proper o ho _ (hid ▸ hkeys)
  · intro note hnote r hr hid hthread
    obtain ⟨r', hr', hid', hcancelled⟩ := h.heeded note hnote
    cases List.inj_on_of_nodup_map h.sane.runIds hr hr' (hid.trans hid'.symm)
    exact hcancelled _ (hthread ▸ hkeys)

section Later

variable {w w' : World} (h : Later w w')
include h

theorem OpenedBy.later {keys : List String} {o : Opening} (ho : OpenedBy cfg keys w o) :
    OpenedBy cfg keys w' o := by
  rcases ho with hhead | ⟨resolution, asked, hres, hsigner, hanswers, hmem, hdone, hasks, hver⟩
  · exact .inl hhead
  · obtain ⟨asked', hmem', hp⟩ := h.mem hmem
    refine .inr ⟨resolution, asked', hres, hsigner, ?_, hmem', ?_, ?_, hver⟩
    · rw [hanswers, hp.runId]
    · exact hp.completed hdone
    · rw [hp.runId, h.asks asked hmem hdone, hasks]

theorem Proper.later (hs : Sane w) (hs' : Sane w') {o : Opening} (ho : o ∈ w.openings)
    (hproper : Proper cfg w o) : Proper cfg w' o := by
  obtain ⟨r, hr, hb⟩ := hs.run_of_opening ho
  obtain ⟨t, ht, hid, -⟩ := hs.homes r hr
  intro keys hkeys
  rw [hb.threadId, ← hid, h.authoritiesOf hs hs' ht, hid, ← hb.threadId] at hkeys
  exact (hproper keys hkeys).later h

theorem Heeded.later (hs : Sane w) (hs' : Sane w') {note : CancelNote}
    (hheeded : Heeded cfg w note) : Heeded cfg w' note := by
  obtain ⟨r, hr, hid, hcancelled⟩ := hheeded
  obtain ⟨r', hr', hp⟩ := h.mem hr
  obtain ⟨t, ht, htid, -⟩ := hs.homes r hr
  refine ⟨r', hr', hp.runId.trans hid, fun keys hkeys => hcancelled keys ?_⟩
  rwa [hp.threadId, ← htid, h.authoritiesOf hs hs' ht, htid] at hkeys

/-- What is there stays as it is; what is new is to be looked at. -/
theorem Obedient.later (hw : Obedient cfg w) (hs' : Sane w')
    (hopenings : ∀ o ∈ w'.openings, o ∈ w.openings ∨ Proper cfg w' o)
    (hcancels : ∀ note ∈ w'.cancels, note ∈ w.cancels ∨ Heeded cfg w' note) :
    Obedient cfg w' where
  sane := hs'
  proper o ho := by
    rcases hopenings o ho with hold | hnew
    · exact (hw.proper o hold).later h hw.sane hs' hold
    · exact hnew
  heeded note hnote := by
    rcases hcancels note hnote with hold | hnew
    · exact (hw.heeded note hold).later h hw.sane hs'
    · exact hnew

end Later

/-- Where nothing is opened and nothing cancelled there is nothing to look at. -/
theorem Obedient.quiet {w w' : World} (hw : Obedient cfg w) (h : Quiet w w') :
    Obedient cfg w' := by
  refine hw.later h.still.later (h.still.sane hw.sane) (fun o ho => .inl ?_)
    fun note hnote => .inl ?_
  · rwa [h.still.openings] at ho
  · rwa [h.cancels] at hnote

/-! ## The condition -/

variable (cfg) in
/-- The run's chain is headed by one of `keys`, or it is not its head that signs. -/
def ownHead (keys : List String) (run : RunRecord) (signer : Option String) : Bool :=
  match headKeyOf cfg run with
  | .ok (some head) => head ∈ keys || signer ≠ some head
  | _ => false

variable (cfg) in
/-- A run on a bound thread is opened by a caller whose chain an authority heads, or
answers a run with such a chain; a cancel is aimed at a run with such a chain. -/
def heedsAuthorities (_ : Request) (ws : List Write) (w : World) : Bool :=
  ws.all fun
    | .newRun row opening => (authoritiesOf w row.threadId).all fun keys =>
        opening.callerHead.any (fun key => key ∈ keys) ||
          (opening.answers.bind w.getRun).all fun asked =>
            ownHead cfg keys asked (opening.resolution.map Resolution.signer)
    | .recordCancelRequest note => (w.getRun note.runId).all fun run =>
        (authoritiesOf w run.threadId).all fun keys => ownHead cfg keys run note.requestedBy
    | _ => true

theorem ownHead_iff {keys : List String} {run : RunRecord} {signer : Option String} :
    ownHead cfg keys run signer = true ↔
      ∃ head, headKeyOf cfg run = .ok (some head) ∧ (head ∈ keys ∨ signer ≠ some head) := by
  unfold ownHead
  constructor
  · intro h
    split at h
    · rename_i head hhead
      exact ⟨head, hhead, by simpa using h⟩
    · cases h
  · rintro ⟨head, hhead, h⟩
    rw [hhead]
    simpa using h

/-- A chain is the run's for good. -/
theorem ownHead_progress {r r' : RunRecord} (h : Progress r r') (keys : List String)
    (signer : Option String) : ownHead cfg keys r' signer = ownHead cfg keys r signer := by
  unfold ownHead
  rw [h.headKeyOf]

/-! ## What a request commits -/

section Commit

variable {R : List Name → World → World → Prop} {call : Call} {held : List Name} {w : World}
  {front : List Write} {o : Opened}

/-- Whoever signs for a run with a chain of the thread's is an authority. -/
theorem Resolved.signed {W : World → Prop} {inbound : InboundRun} {asked : RunRecord}
    {resolution : Option Resolution} {keys : List String}
    (h : Resolved cfg W R inbound asked w resolution)
    (hprovider : inbound.agent.providerKey ∈ keys)
    (hown : ownHead cfg keys asked (resolution.map Resolution.signer) = true) :
    ∃ res, resolution = some res ∧ res.signer ∈ keys ∧
      cfg.verifySignature res.signer res.signature
        (resolvePayload cfg.primitives res.root res.asks) = true := by
  obtain ⟨head, hhead, hsigns⟩ := ownHead_iff.1 hown
  cases resolution with
  | none => cases hhead.symm.trans h
  | some res =>
      obtain ⟨head', proof, hhead', -, -, hver⟩ := h
      cases hhead.symm.trans hhead'
      obtain ⟨-, -, hsigner, hverifies⟩ := verifyResolution_ok cfg hver
      refine ⟨res, rfl, ?_, hverifies⟩
      rcases List.mem_cons.1 hsigner with hsigner | hsigner
      · rcases hsigns with hmem | hne
        · exact hsigner ▸ hmem
        · exact absurd (by rw [Option.map_some, hsigner]) hne
      · rw [List.mem_singleton.1 hsigner]
        exact hprovider

/-- A door that takes the thread's row lets in whom the thread admits. -/
theorem openedBy_of_admits {thread : ThreadRow} {agent : AgentRef} {headKey : Option String}
    (h : admits thread agent headKey = .ok ()) {head : String} (hhead : thread.headKey = some head) :
    ∃ key ∈ [head, thread.agent.providerKey], headKey = some key := by
  unfold admits at h
  split at h
  · cases h
  · rename_i hagent
    rw [Decidable.not_not] at hagent
    split at h
    · cases h
    · rename_i hno
      rw [hhead] at hno
      rw [hagent]
      by_cases hkey : headKey = some head
      · exact ⟨head, List.mem_cons_self, hkey⟩
      · refine ⟨agent.providerKey, List.mem_cons_of_mem _ List.mem_cons_self, ?_⟩
        exact Decidable.not_not.1 fun hne => hno ⟨rfl, hkey, hne⟩

/-- Whoever opens a run on a bound thread is, or has the word of, an authority. -/
theorem Opens.proper (h : Opens cfg (Obedient cfg) R call held w front o)
    (hU : ∀ H a b, R H a b → Undisturbed H a b) (hw : Obedient cfg w)
    (hs' : Sane (db.view w (front ++ o.writes))) {r : Request}
    (hheeds : heedsAuthorities cfg r (front ++ o.writes) w = true) :
    Proper cfg (db.view w (front ++ o.writes)) o.opening := by
  have hview := o.view h.thread.front w
  intro keys hkeys
  rw [show o.opening.handed.threadId = o.threadId from h.threadId_eq] at hkeys
  -- The authorities are those of the thread's row.
  have hbound : ∀ t ∈ (db.view w front).threads, t.threadId = o.threadId →
      ∃ head, t.headKey = some head ∧ keys = [head, t.agent.providerKey] := by
    intro t ht hid
    rw [authoritiesOf, ← hid, hs'.getThread (by rw [hview]; exact ht), Option.bind_some,
      Option.map_eq_some_iff] at hkeys
    obtain ⟨head, hhead, hkeys⟩ := hkeys
    exact ⟨head, hhead, hkeys.symm⟩
  cases h.thread with
  | existing thread front_eq id_eq known admitted _ =>
      obtain ⟨w₀, ⟨-, hmem⟩, hr⟩ := known
      have hmem' := h.threads_prefix.subset ((hU _ _ _ hr).later.threads.subset hmem)
      obtain ⟨head, hhead, rfl⟩ := hbound thread hmem' id_eq
      exact .inl (openedBy_of_admits admitted hhead)
  | created thread front_eq id_eq agent_eq headKey_eq _ _ =>
      have hmem : thread ∈ (db.view w front).threads := by
        rw [front_eq]
        exact List.mem_append_right _ List.mem_cons_self
      obtain ⟨head, hhead, rfl⟩ := hbound thread hmem id_eq
      exact .inl ⟨head, List.mem_cons_self, headKey_eq.symm.trans hhead⟩
  | resumed run front_eq id_eq answers_eq agent_eq =>
      subst front_eq
      obtain ⟨hawaits, hresolved⟩ := h.answers run answers_eq
      obtain ⟨w₀, ⟨hw₀, hmem⟩, hr⟩ := hawaits.known
      obtain ⟨run', hmem', hp⟩ := (hU _ _ _ hr).later.mem hmem
      obtain ⟨t, ht, hid, hagent⟩ := hw.sane.homes run' hmem'
      obtain ⟨head, hhead, rfl⟩ := hbound t ht (hid.trans (hp.threadId.trans id_eq))
      have hkeys' : authoritiesOf w o.row.threadId = some [head, t.agent.providerKey] := by
        rw [show o.row.threadId = o.threadId from h.threadId_eq, ← id_eq, ← hp.threadId, ← hid,
          authoritiesOf, hw.sane.getThread ht, Option.bind_some, hhead, Option.map_some]
      have hanswers : o.opening.answers = some run'.runId := by
        rw [hp.runId]
        simp [Opened.opening, answers_eq]
      -- What the condition says of this commit.
      have hcond := List.all_eq_true.1 hheeds (.newRun o.row o.opening) List.mem_cons_self
      simp only [hkeys', hanswers, Option.all_some, Option.bind_some, hw.sane.getRun hmem',
        Bool.or_eq_true] at hcond
      rcases hcond with hcaller | hown
      · obtain ⟨key, hkey, hmem⟩ := (Option.any_eq_true _ _).1 hcaller
        exact .inl ⟨key, by simpa using hmem, hkey⟩
      · have hprovider : o.inbound.agent.providerKey ∈ [head, t.agent.providerKey] := by
          rw [agent_eq, ← hp.agent, ← hagent]
          exact List.mem_cons_of_mem _ List.mem_cons_self
        rw [ownHead_progress hp] at hown
        obtain ⟨res, hres, hsigner, hverifies⟩ := hresolved.signed hprovider hown
        rw [hres] at hresolved
        have hasks := hresolved.asks hU hawaits.completed
        refine .inr ⟨res, run', hres, hsigner, hanswers, ?_, ?_, ?_, hverifies⟩
        · rw [hview]
          exact List.mem_append_left _ hmem'
        · exact hp.completed hawaits.completed
        · rw [hp.runId, hview]
          exact hasks

/-- A cancel is recorded of a run of a bound thread on the word of an authority. -/
theorem heeded_cancel (hU : ∀ H a b, R H a b → Undisturbed H a b) (hw : Obedient cfg w)
    {stored : RunRecord} {metadata : Dict String Json} {now : Broker.Time} {note : CancelNote}
    (known : Since R [] (fun w₀ => Obedient cfg w₀ ∧ stored ∈ w₀.runs) w)
    (authorized : authorizeCancel cfg now stored metadata = .ok note) {r : Request}
    (hheeds : heedsAuthorities cfg r [.recordCancelRequest note] w = true) :
    Heeded cfg w note := by
  obtain ⟨w₀, ⟨-, hmem⟩, hr⟩ := known
  obtain ⟨run, hmem', hp⟩ := (hU _ _ _ hr).later.mem hmem
  obtain ⟨hid, head, hhead, hsigned⟩ := authorizeCancel_ok cfg authorized
  refine ⟨run, hmem', hp.runId.trans hid.symm, fun keys hkeys => ?_⟩
  have hcond := List.all_eq_true.1 hheeds (.recordCancelRequest note) List.mem_cons_self
  simp only [hid, ← hp.runId, hw.sane.getRun hmem', hkeys, Option.all_some] at hcond
  rw [ownHead_progress hp, ownHead_iff] at hcond
  obtain ⟨own, hown, hsigns⟩ := hcond
  cases hhead.symm.trans hown
  obtain ⟨signer, hsigner, hby, hverifies⟩ := hsigned own rfl
  refine ⟨signer, ?_, hby, hid ▸ hverifies⟩
  rcases List.mem_cons.1 hsigner with rfl | hsigner
  · rcases hsigns with hmem | hne
    · exact hmem
    · exact absurd hby hne
  · -- The provider of the run's agent is the provider of its thread's.
    obtain ⟨t, ht, htid, hagent⟩ := hw.sane.homes run hmem'
    rw [authoritiesOf, ← htid, hw.sane.getThread ht, Option.bind_some,
      Option.map_eq_some_iff] at hkeys
    obtain ⟨head, -, rfl⟩ := hkeys
    rw [List.mem_singleton.1 hsigner, ← hp.agent, ← hagent]
    exact List.mem_cons_of_mem _ List.mem_cons_self

end Commit

theorem obedient_commit {r : Request} {held : List Name} {ws : List Write} {w : World}
    (hw : Obedient cfg w) (hheeds : heedsAuthorities cfg r ws w = true)
    (h : Commits cfg (Obedient cfg) Undisturbed r.call held ws w) : Obedient cfg (db.view w ws) := by
  have hU : ∀ H a b, Undisturbed H a b → Undisturbed H a b := fun _ _ _ hg => hg
  have hs' := h.sane hU (fun _ ho => ho.sane) hw.sane
  rcases h.kinds with ⟨front, o, rfl, hopens⟩ | ⟨stored, metadata, now, note, rfl, known, authorized⟩ |
    hquiet
  · refine hw.later hopens.later hs' ?_ ?_
    · intro x hx
      rw [o.view hopens.thread.front] at hx
      rcases List.mem_append.1 hx with hx | hx
      · exact .inl hx
      · cases List.mem_singleton.1 hx
        exact .inr (hopens.proper hU hw hs' hheeds)
    · intro note hnote
      rw [o.view hopens.thread.front] at hnote
      exact .inl hnote
  · have hlater := (still_cancel w note).later
    refine hw.later hlater hs' (fun o ho => .inl ho) fun x hx => ?_
    rcases List.mem_append.1 hx with hx | hx
    · exact .inl hx
    · cases List.mem_singleton.1 hx
      exact .inr ((heeded_cancel hU hw known authorized hheeds).later hlater hw.sane hs')
  · exact hw.quiet hquiet

theorem obedient_promises : Server.Promises db (program cfg) outside (Obedient cfg) Undisturbed
    (fun r => Commits cfg (Obedient cfg) Undisturbed r.call) where
  refl := undisturbed_steady.refl
  trans := undisturbed_steady.trans
  outside w e w' hw h := by
    have hquiet := quiet_outside hw.sane h
    exact ⟨hw.quiet hquiet, fun held => ⟨hquiet.still.later, fun id _ => hquiet.still.fresh⟩⟩
  program r w := wp_program undisturbed_steady r w

/-- **Main result.**  Where whoever is heard about a run of a bound thread is heard
on its authorities' account, the thread obeys its authorities. -/
theorem bound_thread_obeys {s : Process}
    (hs : (system cfg Empty).ReachableBy
      (fun s a => s.commitsAs (heedsAuthorities cfg) a = true) s)
    {t : ThreadRow} (ht : t ∈ s.world.threads) {head : String} (hhead : t.headKey = some head) :
    Obeys cfg s.world t.threadId [head, t.agent.providerKey] := by
  have hinv := Server.invariant_of_concurrent
    obedient_promises
    (fun r held ws w hw hheeds hg => ⟨obedient_commit hw hheeds hg, fun held' hsep =>
      hg.undisturbed fun id hid => hsep _ ⟨id, rfl⟩ hid⟩)
    (Server.allowed_commitsAs (heedsAuthorities cfg))
    (fun w hw => ⟨hw.sane, by rw [hw.openings]; exact List.forall_mem_nil _,
      by rw [hw.cancels]; exact List.forall_mem_nil _⟩) hs
  exact hinv.inv.obeys ht hhead

namespace Demo

/-- A proof by `key` that it cancels the run. -/
def cancelProof (key runId : String) : Dict String Json :=
  [("cancel", .obj [("publicKey", .str key), ("timestamp", .num 0),
    ("signature", .str (sign key (cancelPayload runId 0)))])]

/-- A thread is bound to `caller`, which pauses, answers itself and cancels the
answer. -/
def headAnswers : List (Move Request Outside) :=
  paused (chained "caller") (some "caller") ++
  [calls (.resumeRun "r0" (saying "m1"
    [("forwardedProps", .obj (bag (oneHop "caller") ++ resolution "caller" ["i"]))]) (some "caller"))] ++
  advances 1 ["", "", "", "", "", "", "r1", "", "", "", ""] ++
  [calls (.cancelRun "r1" (cancelProof "caller" "r1"))] ++ advances 2 ["", "", "", ""]

/-- Its resolution is handed in by somebody without a chain, and somebody without any
proof cancels the answer. -/
def strangerCancels : List (Move Request Outside) :=
  paused (chained "caller") (some "caller") ++
  [calls (.resumeRun "r0" (saying "m1" [("forwardedProps", .obj (resolution "caller" ["i"]))]) none)] ++
  advances 1 ["", "", "", "", "", "", "r1", "", "", "", ""] ++
  [calls (.cancelRun "r1" [])] ++ advances 2 ["", "", "", ""]

end Demo

/-- The head answers and cancels on its own thread. -/
theorem bound_thread_obeys_head :
    (system Demo.config Empty).ReachableBy
        (fun s a => s.commitsAs (heedsAuthorities Demo.config) a = true)
        (Demo.after Demo.headAnswers) ∧
      (Demo.after Demo.headAnswers).world.cancels.map CancelNote.requestedBy = [some "caller"] ∧
      ∃ t ∈ (Demo.after Demo.headAnswers).world.threads, t.headKey = some "caller" ∧
        Obeys Demo.config (Demo.after Demo.headAnswers).world t.threadId
          ["caller", t.agent.providerKey] := by
  have hrun : (system Demo.config Empty).allows
        (fun s a => s.commitsAs (heedsAuthorities Demo.config) a) Demo.start Demo.headAnswers =
          true ∧
      (Demo.after Demo.headAnswers).world.cancels.map CancelNote.requestedBy = [some "caller"] ∧
      ∃ t ∈ (Demo.after Demo.headAnswers).world.threads, t.headKey = some "caller" := by
    decide +kernel
  obtain ⟨hallows, hcancels, t, ht, hhead⟩ := hrun
  have hreach : (system Demo.config Empty).ReachableBy
      (fun s a => s.commitsAs (heedsAuthorities Demo.config) a = true)
      (Demo.after Demo.headAnswers) :=
    System.ReachableBy.runFrom (fun _ _ h => h) (.init Demo.start_init) hallows
  exact ⟨hreach, hcancels, t, ht, hhead, bound_thread_obeys hreach ht hhead⟩

/-- The run the head's resolution opened is anybody's to cancel. -/
theorem stranger_cancels_on_bound_thread :
    (system Demo.config Empty).Reachable (Demo.after Demo.strangerCancels) ∧
      ∃ t ∈ (Demo.after Demo.strangerCancels).world.threads, t.headKey = some "caller" ∧
        ¬ Obeys Demo.config (Demo.after Demo.strangerCancels).world t.threadId
          ["caller", t.agent.providerKey] := by
  have hrun : (∃ t ∈ (Demo.after Demo.strangerCancels).world.threads,
        t.headKey = some "caller" ∧ t.threadId = "t") ∧
      (∃ note ∈ (Demo.after Demo.strangerCancels).world.cancels,
        note.requestedBy = none ∧ note.runId = "r1") ∧
      ∃ r ∈ (Demo.after Demo.strangerCancels).world.runs,
        r.runId = "r1" ∧ r.threadId = "t" := by
    decide +kernel
  obtain ⟨⟨t, ht, hhead, hid⟩, ⟨note, hnote, hnone, hnoteId⟩, r, hr, hrunId, hthreadId⟩ := hrun
  refine ⟨Demo.after_reachable _, t, ht, hhead, fun hobeys => ?_⟩
  obtain ⟨signer, -, hsome, -⟩ := hobeys.cancelled note hnote r hr (hrunId.trans hnoteId.symm)
    (hthreadId.trans hid.symm)
  cases hnone.symm.trans hsome

end Funduq.Doors
