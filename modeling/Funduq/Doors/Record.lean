import Funduq.Doors.History

/-!
# The row is the run

`open_run` assembles a run's input from what its door was given, and hands it to
the broker; `run_input_of` assembles it from nine columns and the messages of the
run.  Both go through AG-UI's models, which give back what they once dumped.  So
what is read off the tables is what was handed over, from the commit on and for
good.
-/

namespace Funduq.Doors

open Funduq.Lib Funduq.Store

/-! ## Inputs -/

/-- Every field of the input is a dump; `raw` are its messages as they came. -/
structure Dumped (M : RunInputModel) (raw : List Json) (input : RunAgentInput) : Prop where
  state : ∃ x, M.state x = .ok input.state
  messages : M.messages raw = .ok input.messages
  tools : ∃ x, M.tools x = .ok input.tools
  context : ∃ x, M.context x = .ok input.context
  forwardedProps : ∃ x, M.forwardedProps x = .ok input.forwardedProps
  resume : ∃ x, M.resume x = .ok input.resume

theorem dumped_of_built {M : RunInputModel} {threadId runId : String} {raw : List Json}
    {state tools context forwardedProps resume parentRunId : Json} {input : RunAgentInput}
    (h : buildRunAgentInput M threadId runId raw state tools context forwardedProps resume
      parentRunId = .ok input) : Dumped M raw input := by
  obtain ⟨-, -, hstate, hmessages, htools, hcontext, hprops, hresume, -⟩ :=
    buildRunAgentInput_ok h
  exact ⟨⟨_, hstate⟩, hmessages, ⟨_, htools⟩, ⟨_, hcontext⟩, ⟨_, hprops⟩, ⟨_, hresume⟩⟩

/-- `tools or []` of a list. -/
theorem arr_orElse_nil (items : List Json) : (Json.arr items).orElse (.arr []) = .arr items := by
  cases items <;> rfl

theorem readParent_elim (parent : Option String) :
    readParent (parent.elim .null .str) = .ok parent := by
  cases parent <;> rfl

/-- What was dumped is built again of its own fields. -/
theorem Dumped.rebuilds {M : RunInputModel} (hM : M.Idempotent) {raw : List Json}
    {input : RunAgentInput} (h : Dumped M raw input) :
    buildRunAgentInput M input.threadId input.runId raw input.state (.arr input.tools)
      (.arr input.context) input.forwardedProps (resumeJson input.resume)
      (input.parentRunId.elim .null .str) = .ok input := by
  obtain ⟨_, hstate⟩ := h.state
  obtain ⟨_, htools⟩ := h.tools
  obtain ⟨_, hcontext⟩ := h.context
  obtain ⟨_, hprops⟩ := h.forwardedProps
  obtain ⟨_, hresume⟩ := h.resume
  simp only [buildRunAgentInput, mapError_eq_ok, bind_eq_ok, pure_eq_ok, arr_orElse_nil]
  exact ⟨_, hM.state hstate, _, h.messages, _, hM.tools htools, _, hM.context hcontext, _,
    hM.forwardedProps hprops, _, hM.resume hresume, _, readParent_elim _, rfl⟩

/-- The input of a `DeliveredRun`: the one handed over, validated and dumped again. -/
def deliveredInput (M : RunInputModel) (input : RunAgentInput) : Except String RunAgentInput :=
  buildRunAgentInput M input.threadId input.runId input.messages input.state (.arr input.tools)
    (.arr input.context) input.forwardedProps (resumeJson input.resume)
    (input.parentRunId.elim .null .str)

theorem Dumped.delivered {M : RunInputModel} (hM : M.Idempotent) {raw : List Json}
    {input : RunAgentInput} (h : Dumped M raw input) : deliveredInput M input = .ok input := by
  have hagain : Dumped M input.messages input := { h with messages := hM.messages h.messages }
  exact hagain.rebuilds hM

/-! ## What is on file -/

variable {PrivateKey PublicKey : Type} {cfg : Config PrivateKey PublicKey}

/-- The messages on file are those of runs, and with its row each run's input is
there. -/
structure Filed (cfg : Config PrivateKey PublicKey) (w : World) : Prop where
  sane : Sane w
  owned : ∀ m ∈ w.messages, ∃ r ∈ w.runs, r.runId = m.runId
  dumped : ∀ o ∈ w.openings, Dumped cfg.model (w.messagesOfRun o.handed.runId) o.handed.inputJson

/-- The row and the messages of a run are its input. -/
theorem Filed.runInputOf {w : World} (h : Filed cfg w) (hM : cfg.model.Idempotent) {o : Opening}
    (ho : o ∈ w.openings) : ∃ row, w.getRun o.handed.runId = some row ∧
      runInputOf cfg.model w row = .ok o.handed.inputJson := by
  obtain ⟨row, hrow, hb⟩ := h.sane.run_of_opening ho
  refine ⟨row, ?_, ?_⟩
  · rw [hb.runId]
    exact h.sane.getRun hrow
  · have hinput := (h.dumped o ho).rebuilds hM
    have hfixed := hb.row
    have hid : row.runId = o.handed.inputJson.runId := congrArg RunRecord.runId hfixed
    have hthread : row.threadId = o.handed.inputJson.threadId :=
      congrArg RunRecord.threadId hfixed
    have hstate : row.state = o.handed.inputJson.state := congrArg RunRecord.state hfixed
    have htools : row.tools = o.handed.inputJson.tools := congrArg RunRecord.tools hfixed
    have hcontext : row.context = o.handed.inputJson.context := congrArg RunRecord.context hfixed
    have hprops : row.forwardedProps = o.handed.inputJson.forwardedProps :=
      congrArg RunRecord.forwardedProps hfixed
    have hresume : row.resume = o.handed.inputJson.resume := congrArg RunRecord.resume hfixed
    have hparent : row.parentRunId = o.handed.inputJson.parentRunId :=
      congrArg RunRecord.parentRunId hfixed
    rw [hb.runId] at hinput
    unfold Doors.runInputOf
    rw [hthread, hstate, htools, hcontext, hprops, hresume, hparent]
    rw [hid] at hinput ⊢
    exact hinput

/-- What opens nothing leaves what is on file. -/
theorem Filed.still {w w' : World} (h : Filed cfg w) (hstill : Still w w') : Filed cfg w' := by
  refine ⟨hstill.sane h.sane, fun m hm => ?_, fun o ho => ?_⟩
  · rw [hstill.messages] at hm
    obtain ⟨r, hr, hid⟩ := h.owned m hm
    obtain ⟨r', hr', hp⟩ := hstill.later.mem hr
    exact ⟨r', hr', hp.runId.trans hid⟩
  · rw [hstill.openings] at ho
    unfold World.messagesOfRun
    rw [hstill.messages]
    exact h.dumped o ho

section

variable {W : World → Prop} {R : List Name → World → World → Prop} {call : Call}
  {held : List Name} {w : World} {front : List Write} {o : Opened}

/-- A run that is opened is filed, and none that was is touched. -/
theorem Filed.opens (hw : Filed cfg w) (h : Opens cfg W R call held w front o)
    (hU : ∀ H a b, R H a b → Undisturbed H a b) (hW : ∀ w, W w → Sane w) :
    Filed cfg (db.view w (front ++ o.writes)) := by
  have hsane := h.sane hU hW hw.sane
  have hfresh := (h.fresh_runId hU).2
  rw [o.view h.thread.front] at hsane ⊢
  -- Each run's messages are its own.
  have hmessages : ∀ runId, ((w.messages ++ o.messages.map (messageRow o.threadId o.runId)).filter
      fun m => m.runId = runId).map MessageRow.message =
      w.messagesOfRun runId ++ if o.runId = runId then o.messages else [] := by
    intro runId
    rw [List.filter_append, List.map_append]
    congr 1
    split
    · rename_i hid
      rw [List.filter_eq_self.2 (by
        intro m hm
        obtain ⟨x, -, rfl⟩ := List.mem_map.1 hm
        exact decide_eq_true hid)]
      rw [List.map_map]
      exact List.map_id' _
    · rename_i hid
      rw [List.filter_eq_nil_iff.2 (by
        intro m hm
        obtain ⟨x, -, rfl⟩ := List.mem_map.1 hm
        exact fun h => hid (of_decide_eq_true h))]
      rfl
  refine ⟨hsane, ?_, ?_⟩
  · intro m hm
    rcases List.mem_append.1 hm with hm | hm
    · obtain ⟨r, hr, hid⟩ := hw.owned m hm
      exact ⟨r, List.mem_append_left _ hr, hid⟩
    · obtain ⟨x, -, rfl⟩ := List.mem_map.1 hm
      exact ⟨o.row, List.mem_append_right _ List.mem_cons_self, h.runId_eq⟩
  · intro o' ho'
    show Dumped cfg.model (List.map _ (List.filter _ _)) _
    rw [hmessages]
    rcases List.mem_append.1 ho' with ho' | ho'
    · obtain ⟨r, hr, hb⟩ := hw.sane.run_of_opening ho'
      rw [if_neg (by rw [hb.runId]; exact Ne.symm (hfresh r hr)), List.append_nil]
      exact hw.dumped o' ho'
    · rw [List.mem_singleton.1 ho']
      have hid : o.opening.handed.runId = o.runId := h.runId_eq
      have hnone : w.messagesOfRun o.runId = [] := by
        unfold World.messagesOfRun
        rw [List.map_eq_nil_iff, List.filter_eq_nil_iff]
        intro m hm hm'
        obtain ⟨r, hr, hrid⟩ := hw.owned m hm
        exact hfresh r hr (hrid.trans (by simpa using hm'))
      rw [hid, hnone, if_pos rfl, List.nil_append]
      exact dumped_of_built (assemble_ok h.assembled)

theorem Filed.commit (hU : ∀ H a b, R H a b → Undisturbed H a b) (hW : ∀ w, W w → Sane w)
    (hw : Filed cfg w) {ws : List Write} (h : Commits cfg W R call held ws w) :
    Filed cfg (db.view w ws) := by
  rcases h.cases with ⟨front, o, rfl, hopens⟩ | hstill
  · exact hw.opens hopens hU hW
  · exact hw.still hstill

/-- What was handed to the broker is what its run was opened with. -/
def Handed (w : World) : Prop := ∀ d ∈ w.dispatched, ∃ o ∈ w.openings, o.handed = d

/-- Only a run that was opened is handed over. -/
theorem Handed.commit (hU : ∀ H a b, R H a b → Undisturbed H a b) (hw : Handed w)
    {ws : List Write} (h : Commits cfg W R call held ws w) : Handed (db.view w ws) := by
  cases h with
  | opens front o h =>
      rw [o.view h.thread.front]
      intro d hd
      obtain ⟨o', ho', hd⟩ := hw d hd
      exact ⟨o', List.mem_append_left _ ho', hd⟩
  | enqueues o h =>
      intro d hd
      rcases List.mem_append.1 hd with hd | hd
      · exact hw d hd
      · obtain ⟨w₀, ho, hr⟩ := h
        exact ⟨o.opening, (hU _ _ _ hr).later.openings.subset ho.opening,
          (List.mem_singleton.1 hd).symm⟩
  | fails runId => exact hw
  | ends o code seq h => exact hw
  | cancels stored metadata now note known authorized => exact hw

end

/-- The broker hands nothing to itself. -/
theorem dispatched_outside {w w' : World} {e : Outside} (h : outside w e = some w') :
    w'.dispatched = w.dispatched := by
  cases e with
  | record runId write =>
      simp only [outside] at h
      split at h
      · cases h
        unfold World.recordWrite
        cases write.status <;> rfl
      · cases h
  | _ =>
      cases h
      rfl

/-- The files are in order, and what was handed over is on file. -/
def OnFile (cfg : Config PrivateKey PublicKey) (w : World) : Prop := Filed cfg w ∧ Handed w

theorem onFile_promises : Server.Promises db (program cfg) outside (OnFile cfg) Undisturbed
    (fun r => Commits cfg (OnFile cfg) Undisturbed r.call) where
  refl := undisturbed_steady.refl
  trans := undisturbed_steady.trans
  outside w e w' hw h := by
    have hstill := still_outside hw.1.sane h
    refine ⟨⟨hw.1.still hstill, ?_⟩, fun held => ⟨hstill.later, fun id _ => hstill.fresh⟩⟩
    unfold Handed
    rw [dispatched_outside h, hstill.openings]
    exact hw.2
  program r w := wp_program undisturbed_steady r w

theorem Empty.filed {w : World} (h : Empty w) : Filed cfg w where
  sane := h.sane
  owned := by rw [h.messages]; exact List.forall_mem_nil _
  dumped := by rw [h.openings]; exact List.forall_mem_nil _

theorem Empty.handed {w : World} (h : Empty w) : Handed w := by
  unfold Handed
  rw [h.dispatched]
  exact List.forall_mem_nil _

/-- However the requests interleave, the files are in order, and every transaction
commits what it promised. -/
theorem concurrent_onFile {s : Process} (hs : (system cfg Empty).Reachable s) :
    Server.Concurrent db (OnFile cfg) Undisturbed
      (fun r => Commits cfg (OnFile cfg) Undisturbed r.call) Name.Owned s :=
  Server.invariant_of_concurrent onFile_promises
    (fun _ _ _ _ hw _ hg =>
      ⟨⟨hw.1.commit (fun _ _ _ h => h) (fun _ hf => hf.1.sane) hg,
        hw.2.commit (fun _ _ _ h => h) hg⟩,
        fun _ hsep => hg.undisturbed fun id => hsep _ ⟨id, rfl⟩⟩)
    Server.allowed_any (fun _ hw => ⟨hw.filed, hw.handed⟩) hs.by_any

theorem reachable_onFile {s : Process} (hs : (system cfg Empty).Reachable s) :
    OnFile cfg s.world := (concurrent_onFile hs).inv

/-- **Main result.**  In every state, the row and the messages of every run that was
opened read back as the input that is handed to the broker for it; that input is
the one that was handed over, if it was, and the one a provider is given. -/
theorem row_is_the_run (hM : cfg.model.Idempotent) {s : Process}
    (hs : (system cfg Empty).Reachable s) :
    (∀ o ∈ s.world.openings, ∃ row, s.world.getRun o.handed.runId = some row ∧
      runInputOf cfg.model s.world row = .ok o.handed.inputJson ∧
      deliveredInput cfg.model o.handed.inputJson = .ok o.handed.inputJson) ∧
    ∀ d ∈ s.world.dispatched, ∃ row, s.world.getRun d.runId = some row ∧
      runInputOf cfg.model s.world row = .ok d.inputJson ∧
      deliveredInput cfg.model d.inputJson = .ok d.inputJson := by
  obtain ⟨hfiled, hhanded⟩ := reachable_onFile hs
  have hopened : ∀ o ∈ s.world.openings, ∃ row, s.world.getRun o.handed.runId = some row ∧
      runInputOf cfg.model s.world row = .ok o.handed.inputJson ∧
      deliveredInput cfg.model o.handed.inputJson = .ok o.handed.inputJson := by
    intro o ho
    obtain ⟨row, hrow, hinput⟩ := hfiled.runInputOf hM ho
    exact ⟨row, hrow, hinput, (hfiled.dumped o ho).delivered hM⟩
  refine ⟨hopened, fun d hd => ?_⟩
  obtain ⟨o, ho, rfl⟩ := hhanded d hd
  exact hopened o ho

theorem Demo.model_idempotent : Demo.model.Idempotent where
  state _ := rfl
  messages _ := rfl
  tools _ := rfl
  context _ := rfl
  forwardedProps _ := rfl
  resume {x y} h := by
    cases x with
    | null =>
        cases h
        rfl
    | arr items =>
        cases h
        rfl
    | _ => cases h

theorem row_is_the_run_handed :
    Demo.config.model.Idempotent ∧ (system Demo.config Empty).Reachable (Demo.after Demo.paused) ∧
      (Demo.after Demo.paused).world.dispatched.map Dispatched.runId = ["r0"] ∧
      ∀ d ∈ (Demo.after Demo.paused).world.dispatched, ∃ row,
        (Demo.after Demo.paused).world.getRun d.runId = some row ∧
        runInputOf Demo.config.model (Demo.after Demo.paused).world row = .ok d.inputJson ∧
        deliveredInput Demo.config.model d.inputJson = .ok d.inputJson :=
  ⟨Demo.model_idempotent, Demo.after_reachable _, by decide +kernel,
    (row_is_the_run Demo.model_idempotent (Demo.after_reachable _)).2⟩

end Funduq.Doors
