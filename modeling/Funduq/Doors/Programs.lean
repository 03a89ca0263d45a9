import Funduq.Doors.Commits

/-!
# Every request commits as promised

One rule for each procedure the doors are made of, and from them one for each
door: whatever `R` lets the others do in between, a request commits nothing but
what `Commits` describes.
-/

namespace Funduq.Doors

open Funduq.Lib Funduq.Store Funduq.Contract
open Funduq.Broker (AgentRef Status Time)

variable {PrivateKey PublicKey : Type} {cfg : Config PrivateKey PublicKey}
  {W : World → Prop} {R : List Name → World → World → Prop}

/-! ## The statements that only look -/

section Looks

variable {G : List Name → List Write → World → Prop} {held : List Name}
  {ws : List Write} {w : World}

theorem Front.childOf (hws : Front ws) (w : World) (runId : String) :
    (db.view w ws).childOf runId = w.childOf runId := by
  obtain ⟨threads, h⟩ := hws w
  rw [h]
  rfl

theorem Front.getRun (hws : Front ws) (w : World) (runId : String) :
    (db.view w ws).getRun runId = w.getRun runId := by
  obtain ⟨threads, h⟩ := hws w
  rw [h]
  rfl

theorem Front.getRunEvents (hws : Front ws) (w : World) (runId : String) :
    (db.view w ws).getRunEvents runId = w.getRunEvents runId := by
  obtain ⟨threads, h⟩ := hws w
  rw [h]
  rfl

theorem Front.count (hws : Front ws) (w : World) (threadId : String) :
    (db.view w ws).countQueuedRunsForThread threadId = w.countQueuedRunsForThread threadId := by
  obtain ⟨threads, h⟩ := hws w
  rw [h]
  rfl

theorem Front.latest (hws : Front ws) (w : World) (threadId : String) :
    (db.view w ws).latestRunForThread threadId = w.latestRunForThread threadId := by
  obtain ⟨threads, h⟩ := hws w
  rw [h]
  rfl

variable (hR : Steady R) (hws : Front ws)
include hR hws

theorem wp_followLineage {Q : List Name → List Write → World → RunRecord → Prop} {start : String}
    {n : Nat} {run : RunRecord} (hd : Descends W R start w run)
    (h : ∀ w' tail, R held w w' → Descends W R start w' tail →
      Since R held (fun w₀ => W w₀ ∧ w₀.childOf tail.runId = none) w' → Q held ws w' tail) :
    db.wp W R G Q (followLineage n run) held ws w := by
  induction n generalizing run w with
  | zero => trivial
  | succ n ih =>
      apply Db.wp_bind
      intro w' hw' hr
      have hd' : Descends W R start w' run := hd.later (hR.anti (List.nil_subset _) hr)
      simp only [Db.wp_ret, hws.childOf]
      cases hc : w'.childOf run.runId with
      | none => exact h w' run hr hd' (.now hR ⟨hw', hc⟩)
      | some child =>
          apply ih (hd'.child hw' hc)
          intro w'' tail hr' hd'' hsince
          exact h w'' tail (hR.trans _ _ _ _ hr hr') hd'' hsince

theorem wp_lineageTail {Q : List Name → List Write → World → Option RunRecord → Prop}
    {n : Nat} {start : String} (hnone : ∀ w', R held w w' → Q held ws w' none)
    (h : ∀ w' tail, R held w w' → Descends W R start w' tail →
      Since R held (fun w₀ => W w₀ ∧ w₀.childOf tail.runId = none) w' →
      Q held ws w' (some tail)) :
    db.wp W R G Q (lineageTail n start) held ws w := by
  apply Db.wp_bind
  intro w' hw' hr
  simp only [Db.wp_ret, hws.getRun]
  cases hg : w'.getRun start with
  | none => exact hnone w' hr
  | some run =>
      apply Db.wp_bind
      apply wp_followLineage hR hws (.start hw' hg)
      intro w'' tail hr' hd hsince
      exact h w'' tail (hR.trans _ _ _ _ hr hr') hd hsince

theorem wp_waitingOn {Q : List Name → List Write → World → Option (List Json) → Prop}
    {n : Nat} {run : RunRecord} (hnone : ∀ w', R held w w' → Q held ws w' none)
    (h : ∀ w' events, R held w w' → run.status = .completed → run.cancelRequested = false →
      Since R held (fun w₀ => W w₀ ∧ w₀.childOf run.runId = none) w' →
      openAsks events ≠ [] → Q held ws w' (some events)) :
    db.wp W R G Q (waitingOn n run) held ws w := by
  unfold waitingOn
  split
  · exact hnone w (hR.refl _ _)
  · rename_i hdone
    simp only [ne_eq, not_or, Decidable.not_not, Bool.not_eq_true] at hdone
    apply Db.wp_bind
    apply wp_lineageTail hR hws
    · exact fun w' _ => trivial
    · intro w' tail hr _ hsince
      show db.wp W R G Q (if tail.runId ≠ run.runId then _ else _) held ws w'
      split
      · exact hnone w' hr
      · rename_i heq
        rw [ne_eq, Decidable.not_not] at heq
        rw [heq] at hsince
        apply Db.wp_bind
        intro w'' hw'' hr'
        have hr'' := hR.trans _ _ _ _ hr hr'
        simp only [Db.wp_ret, hws.getRunEvents]
        show db.wp W R G Q (Prog.ret (if _ then none else some _)) held ws w''
        split
        · exact hnone w'' hr''
        · rename_i hasks
          exact h w'' _ hr'' hdone.1 hdone.2 (hsince.later hR hr') hasks

theorem wp_rootOf {Q : List Name → List Write → World → String → Prop} {n : Nat}
    {run : RunRecord} (hknown : Since R [] (fun w₀ => W w₀ ∧ run ∈ w₀.runs) w)
    (h : ∀ w' root, R held w w' → Ascends W R w' run root → Q held ws w' root) :
    db.wp W R G Q (rootOf n run) held ws w := by
  induction n generalizing run w with
  | zero => trivial
  | succ n ih =>
      unfold rootOf
      cases hparent : run.parentRunId with
      | none => exact h w _ (hR.refl _ _) (.start hparent)
      | some parentId =>
          apply Db.wp_bind
          intro w' hw' hr
          have hr' := hR.anti (List.nil_subset _) hr
          simp only [Db.wp_ret, hws.getRun]
          cases hget : w'.getRun parentId with
          | none =>
              apply h w' _ hr
              exact .orphan parentId hparent (.now hR ⟨hknown.later hR hr', hget⟩)
          | some parent =>
              apply ih (.now hR ⟨hw', List.mem_of_find?_eq_some hget⟩)
              intro w'' root hr'' hroot
              have hseen : Since R [] (fun w₀ => W w₀ ∧ w₀.getRun parentId = some parent) w'' :=
                ⟨w', ⟨hw', hget⟩, hR.anti (List.nil_subset _) hr''⟩
              exact h w'' root (hR.trans _ _ _ _ hr hr'') (.parent parentId hparent hseen hroot)

omit hws in
theorem wp_readCaller {Q : List Name → List Write → World → Caller → Prop} {bag : Json}
    {presenterKey : Option String}
    (h : ∀ w' caller, R held w w' → CallerOf cfg bag caller → Q held ws w' caller) :
    db.wp W R G Q (readCaller cfg bag presenterKey) held ws w := by
  apply Db.wp_bind
  apply Db.wp_ofExcept
  intro verified hverified
  apply Db.wp_bind
  have hdone : ∀ w', R held w w' → Q held ws w' ⟨verified.props, verified.headKey,
      verified.actorChain, parseKyokOptIn verified.props, forwarded bag verified.props⟩ :=
    fun w' hr => h w' _ hr ⟨⟨presenterKey, hverified⟩, rfl, rfl⟩
  unfold resolveKyok
  simp only
  split
  · exact hdone w (hR.refl _ _)
  · apply Db.wp_bind
    intro w' hw' hr
    simp only [Db.wp_ret]
    split
    · exact hdone w' hr
    · trivial

omit hws in
/-- The thread is had, and its row is taken. -/
theorem wp_ensureThread {Q : List Name → List Write → World → String → Prop} {agent : AgentRef}
    {threadId parentThreadId : Option String} {metadata : Dict String Json}
    {createIfMissing : Bool} {headKey : Option String} (answers : Option RunRecord)
    (h : ∀ held' front w' id, held ⊆ held' → R held w w' →
      OnThread W R held' w' agent headKey answers front id →
      (createIfMissing = false → ∀ given, threadId = some given → id = given) →
      Q held' front w' id) :
    db.wp W R G Q (ensureThread agent threadId parentThreadId metadata createIfMissing headKey)
      held [] w := by
  have hcreate : ∀ w', R held w w' → (createIfMissing = false → threadId = none) →
      db.wp W R G Q (createThread agent parentThreadId metadata headKey) held [] w' := by
    intro w' hr hmissing
    apply Db.wp_bind
    intro w₁ id hw₁ hr₁ hunused hnot
    apply Db.wp_bind
    intro w₂ hw₂ hr₂
    simp only [Db.wp_ret]
    split
    · apply Db.wp_bind
      intro w₃ hw₃ hr₃
      have hown : [Name.own id] ⊆ .own id :: held :=
        List.cons_subset.2 ⟨List.mem_cons_self, List.nil_subset _⟩
      have hheld : held ⊆ .own id :: held := List.subset_cons_self _ _
      have hfresh : Since R [.own id] (fun w₀ => w₀.unused id = true) w₃ :=
        ((Since.now hR hunused).later hR (hR.anti hown hr₂)).later hR (hR.anti hown hr₃)
      apply h
      · exact List.Subset.trans hheld (List.subset_append_right _ _)
      · exact hR.trans _ _ _ _ hr (hR.trans _ _ _ _ hr₁
          (hR.trans _ _ _ _ (hR.anti hheld hr₂) (hR.anti hheld hr₃)))
      · exact .created _ rfl rfl rfl rfl hfresh List.mem_cons_self
      · intro hfalse given hgiven
        rw [hmissing hfalse] at hgiven
        cases hgiven
    · trivial
  unfold ensureThread
  cases threadId with
  | none => exact hcreate w (hR.refl _ _) fun _ => rfl
  | some threadId =>
      apply Db.wp_bind
      intro w₁ hw₁ hr₁
      simp only [Db.wp_ret, Db.view_nil]
      cases hg : w₁.getThread threadId with
      | none =>
          cases createIfMissing with
          | false => trivial
          | true => exact hcreate w₁ hr₁ nofun
      | some thread =>
          have hmem : thread ∈ w₁.threads := List.mem_of_find?_eq_some hg
          have hid : thread.threadId = threadId := by simpa using List.find?_some hg
          subst hid
          apply Db.wp_bind
          apply Db.wp_ofExcept
          intro _ hadmits
          apply Db.wp_bind
          intro w₂ hw₂ hr₂
          apply h
          · exact List.subset_append_right _ _
          · exact hR.trans _ _ _ _ hr₁ hr₂
          · exact .existing thread rfl rfl ⟨w₁, ⟨hw₁, hmem⟩, hR.anti (List.nil_subset _) hr₂⟩
              hadmits List.mem_cons_self
          · intro _ given hgiven
            exact Option.some.inj hgiven

omit hws in
theorem wp_checkAddressed {Q : List Name → List Write → World → Option String → Prop}
    {addressed : Json} {threadId : String}
    (h : ∀ w' target, R held w w' → addressed = target.elim .null .str → Q held ws w' target) :
    db.wp W R G Q (checkAddressed addressed threadId) held ws w := by
  unfold checkAddressed
  split
  · exact h w none (hR.refl _ _) rfl
  · apply Db.wp_bind
    intro w' hw' hr
    simp only [Db.wp_ret]
    split
    · exact h w' (some _) hr rfl
    · trivial
  · trivial

theorem wp_checkResolution {Q : List Name → List Write → World → Option Resolution → Prop}
    {n : Nat} {inbound : InboundRun} {answers : RunRecord}
    (hknown : Since R [] (fun w₀ => W w₀ ∧ answers ∈ w₀.runs) w)
    (h : ∀ w' resolution, R held w w' → Resolved cfg W R inbound answers w' resolution →
      Q held ws w' resolution) :
    db.wp W R G Q (checkResolution cfg n inbound answers) held ws w := by
  apply Db.wp_bind
  apply Db.wp_ofExcept
  intro head hhead
  cases head with
  | none => exact h w none (hR.refl _ _) hhead
  | some head =>
      apply Db.wp_bind
      apply wp_rootOf hR hws hknown
      intro w₁ root hr₁ hascends
      apply Db.wp_bind
      intro w₂ hw₂ hr₂
      simp only [Db.wp_ret, hws.getRunEvents]
      apply Db.wp_bind
      apply Db.wp_ofExcept
      intro resolution hver
      have hr := hR.trans _ _ _ _ hr₁ hr₂
      apply h w₂ _ hr
      obtain ⟨hroot, hasks, -⟩ := verifyResolution_ok cfg hver
      rw [← hroot, ← hasks] at hver
      rw [← hroot] at hascends
      have hknown' := hknown.later hR (hR.anti (List.nil_subset _) hr)
      exact ⟨head, _, hhead, .now hR ⟨hknown', hasks.symm⟩,
        hascends.later hR (hR.anti (List.nil_subset _) hr₂), hver⟩

/-- What is asked of the run has been seen to. -/
theorem wp_checkRoom {Q : List Name → List Write → World → Option Resolution → Prop}
    {n : Nat} {inbound : InboundRun} {threadId : String} {answers : Option RunRecord}
    (hown : answers = none → .own threadId ∈ held)
    (hknown : ∀ run, answers = some run → Since R [] (fun w₀ => W w₀ ∧ run ∈ w₀.runs) w)
    (h : ∀ w' resolution, R held w w' →
      (∀ run, answers = some run → Resolved cfg W R inbound run w' resolution) →
      (answers = none → resolution = none ∧ HasRoom cfg R threadId w') →
      Q held ws w' resolution) :
    db.wp W R G Q (checkRoom cfg n inbound threadId answers) held ws w := by
  cases answers with
  | some run =>
      apply wp_checkResolution hR hws (hknown run rfl)
      intro w' resolution hr hres
      apply h w' resolution hr
      · intro run' hrun
        cases hrun
        exact hres
      · nofun
  | none =>
      have hmem := hown rfl
      apply Db.wp_bind
      unfold ensureQueueRoom
      cases hlimit : cfg.threadQueueLimit with
      | none =>
          apply h w none (hR.refl _ _) fun run hrun => nomatch hrun
          refine fun _ => ⟨rfl, fun limit hsome => ?_⟩
          rw [hlimit] at hsome
          cases hsome
      | some limit =>
          apply Db.wp_bind
          intro w' hw' hr
          simp only [Db.wp_ret, hws.count]
          split
          · trivial
          · rename_i hroom
            apply h w' none hr fun run hrun => nomatch hrun
            refine fun _ => ⟨rfl, fun limit' hsome => ?_⟩
            cases hlimit.symm.trans hsome
            exact .now hR (by omega)

omit hws in
theorem wp_appendThreadMessages {Q : List Name → List Write → World → Unit → Prop}
    {threadId runId : String} {messages : List Json}
    (h : ∀ w', R held w w' → Q held
      (ws ++ messages.map fun m => Write.newMessage (messageRow threadId runId m)) w' ()) :
    db.wp W R G Q (appendThreadMessages threadId runId messages) held ws w := by
  induction messages generalizing ws w with
  | nil =>
      rw [List.map_nil, List.append_nil] at h
      exact h w (hR.refl _ _)
  | cons message rest ih =>
      apply Db.wp_bind
      intro w₁ hw₁ hr₁
      apply ih
      intro w₂ hr₂
      rw [List.append_assoc]
      exact h w₂ (hR.trans _ _ _ _ hr₁ hr₂)

end Looks

/-! ## The way in -/

section Enter

variable {call : Call} {held : List Name} {w : World}

/-- What a door knows when it comes to `enter`. -/
structure Ready (cfg : Config PrivateKey PublicKey) (W : World → Prop)
    (R : List Name → World → World → Prop) (call : Call) (held : List Name) (w : World)
    (inbound : InboundRun) (threadId : String) (answers : Option RunRecord)
    (front : List Write) : Prop where
  translated : InboundOf cfg call inbound
  thread : OnThread W R held w inbound.agent inbound.headKey answers front threadId
  waits : ∀ run, answers = some run → Awaits W R held w run
  lineage : ∀ run, answers = some run → threadId = run.threadId ∨
    ∃ root, Descends W R root.runId w run ∧ Since R [] (fun w₀ => W w₀ ∧ root ∈ w₀.runs) w ∧
      root.agent = inbound.agent ∧ threadId = root.threadId

variable (hR : Steady R)
include hR

theorem Ready.later {inbound : InboundRun} {threadId : String} {answers : Option RunRecord}
    {front : List Write} {held' : List Name} {w' : World}
    (h : Ready cfg W R call held w inbound threadId answers front) (hr : R held w w')
    (hsub : held ⊆ held') : Ready cfg W R call held' w' inbound threadId answers front where
  translated := h.translated
  thread := h.thread.later hR hr hsub
  waits run hrun := (h.waits run hrun).later hR hr hsub
  lineage run hrun := by
    have hr' := hR.anti (List.nil_subset _) hr
    rcases h.lineage run hrun with heq | ⟨root, hd, hroot, hagent, heq⟩
    · exact .inl heq
    · exact .inr ⟨root, hd.later hr', hroot.later hR hr', hagent, heq⟩

/-- The run's last event, once it has ended. -/
theorem wp_closeWithTerminalEvent {o : Opened} {code : String} (h : Since R [] (Failed W R o) w) :
    db.wp W R (Commits cfg W R call) (fun _ _ _ _ => True)
      (closeWithTerminalEvent o.handed.runId code) [] [] w := by
  apply Db.wp_bind
  intro w₁ _ hr₁
  simp only [Db.wp_ret]
  split
  · trivial
  · apply Db.wp_bind
    intro w₂ _ hr₂
    simp only [Db.wp_ret]
    split
    · trivial
    · apply Db.wp_bind
      intro w₃ _ hr₃
      apply Db.wp_bind
      intro w₄ _ hr₄ w₅ _ hr₅
      exact ⟨.ends _ _ _ (((((h.later hR hr₁).later hR hr₂).later hR hr₃).later hR hr₄).later
        hR hr₅), trivial⟩

theorem wp_dispatch {o : Opened} (h : Since R [] (JustOpened cfg W R call o) w) :
    db.wp W R (Commits cfg W R call) (fun _ _ _ _ => True)
      (dispatch o.inbound o.relayed o.input o.addressed) [] [] w := by
  apply Db.wp_bind
  intro w₁ _ hr₁
  simp only [Db.wp_ret]
  split
  · apply Db.wp_bind
    intro w₂ _ hr₂
    apply Db.wp_bind
    intro w₃ _ hr₃
    exact ⟨.enqueues o (((h.later hR hr₁).later hR hr₂).later hR hr₃), trivial⟩
  · apply Db.wp_bind
    intro w₂ _ hr₂
    apply Db.wp_bind
    intro w₃ hw₃ hr₃
    refine ⟨.fails _, ?_⟩
    apply Db.wp_bind
    apply Db.wp_mono (Q := fun _ _ _ _ => True)
    · exact fun _ _ _ _ _ => trivial
    · apply wp_closeWithTerminalEvent hR
      have hopened := ((h.later hR hr₁).later hR hr₂).later hR hr₃
      exact .now hR ⟨w₃, hw₃, hopened.imp fun _ h => h.opening, rfl⟩

theorem wp_enter {n : Nat} {inbound : InboundRun} {threadId : String}
    {answers : Option RunRecord} {front : List Write}
    (h : Ready cfg W R call held w inbound threadId answers front) :
    db.wp W R (Commits cfg W R call) (fun _ _ _ _ => True)
      (enter cfg n inbound threadId answers) held front w := by
  apply Db.wp_bind
  apply Db.wp_ofExcept
  intro relayed hrelayed
  apply Db.wp_bind
  apply Db.wp_bind
  apply wp_checkAddressed hR
  intro w₁ addressed hr₁ haddressed
  have h₁ := h.later hR hr₁ (List.Subset.refl _)
  apply Db.wp_bind
  apply wp_checkRoom hR h₁.thread.front
  · rintro rfl
    exact h₁.thread.own
  · exact fun run hrun => (h₁.waits run hrun).known
  intro w₂ resolution hr₂ hresolved hroom
  have h₂ := h₁.later hR hr₂ (List.Subset.refl _)
  apply Db.wp_bind
  intro w₃ runId _ hr₃ hunused _
  have hsub : held ⊆ .own runId :: held := List.subset_cons_self _ _
  have hown : [Name.own runId] ⊆ .own runId :: held :=
    List.cons_subset.2 ⟨List.mem_cons_self, List.nil_subset _⟩
  have h₃ := h₂.later hR hr₃ hsub
  apply Db.wp_bind
  intro w₄ _ hr₄
  apply Db.wp_bind
  apply Db.wp_ofExcept
  intro messages _
  apply Db.wp_bind
  apply Db.wp_ofExcept
  intro input hinput
  apply Db.wp_bind
  intro w₅ _ hr₅
  apply Db.wp_bind
  apply wp_appendThreadMessages hR
  intro w₆ hr₆
  apply Db.wp_bind
  intro w₇ hw₇ hr₇
  -- From here to the commit nothing more is asked.
  have hlast : R (.own runId :: held) w₃ w₇ := hR.trans _ _ _ _ hr₄
    (hR.trans _ _ _ _ hr₅ (hR.trans _ _ _ _ hr₆ hr₇))
  let o : Opened := ⟨inbound, relayed, threadId, answers, addressed, resolution, messages,
    (db.view w₄ front).now, runId, input⟩
  have h₇ := h₃.later hR hlast (List.Subset.refl _)
  have hopens : Opens cfg W R call (.own runId :: held) w₇ front o := {
    inbound := h₇.translated
    relayed := hrelayed
    thread := h₇.thread
    addressed := haddressed
    answers := fun run hrun => ⟨h₇.waits run hrun,
      ((hresolved run hrun).later hR hr₃).later hR hlast⟩
    room := fun hnone => ⟨(hroom hnone).1, by
      have hmem : Name.own threadId ∈ held := by
        cases hnone
        exact h₁.thread.own
      exact (((hroom hnone).2.later hR hmem hr₃).later hR (hsub hmem) hlast)⟩
    lineage := h₇.lineage
    minted := (Since.now hR hunused).later hR (hR.anti hown hlast)
    own := List.mem_cons_self
    assembled := hinput }
  rw [List.append_assoc]
  refine ⟨.opens front o hopens, ?_⟩
  apply Db.wp_bind
  apply Db.wp_mono (Q := fun _ _ _ _ => True)
  · exact fun _ _ _ _ _ => trivial
  · apply wp_dispatch hR (o := o)
    exact .now hR ⟨_, front, w₇, hw₇, hopens, rfl⟩

/-- Whatever is answered once the run is in. -/
theorem wp_enter_then {α : Type} {n : Nat} {inbound : InboundRun} {threadId : String}
    {answers : Option RunRecord} {front : List Write} {f : Entered → α}
    (h : Ready cfg W R call held w inbound threadId answers front) :
    db.wp W R (Commits cfg W R call) (fun _ _ _ _ => True)
      (enter cfg n inbound threadId answers >>= fun run => pure (f run)) held front w := by
  apply Db.wp_bind
  apply Db.wp_mono (Q := fun _ _ _ _ => True)
  · exact fun _ _ _ _ _ => trivial
  · exact wp_enter hR h

end Enter

/-- A thread is had in the same way whatever the run answers. -/
theorem OnThread.any {W : World → Prop} {R : List Name → World → World → Prop} {held : List Name}
    {w : World} {agent : AgentRef} {headKey : Option String} {front : List Write}
    {threadId : String} (h : OnThread W R held w agent headKey none front threadId)
    (answers : Option RunRecord) : OnThread W R held w agent headKey answers front threadId := by
  cases h with
  | existing thread front_eq id_eq known admitted own =>
      exact .existing thread front_eq id_eq known admitted own
  | created thread front_eq id_eq agent_eq headKey_eq minted own =>
      exact .created thread front_eq id_eq agent_eq headKey_eq minted own
  | resumed _ _ _ answers_eq _ => cases answers_eq

/-! ## Door by door -/

section Doors

variable (hR : Steady R) {held : List Name} {ws : List Write} {w : World}
include hR

theorem wp_startRun {n : Nat} {agent : AgentRef} {runInput : Dict String Json}
    {threadId presenterKey : Option String} :
    db.wp W R (Commits cfg W R (.startRun agent runInput threadId presenterKey))
      (fun _ _ _ _ => True) (startRun cfg n agent runInput threadId presenterKey) [] [] w := by
  apply Db.wp_bind
  apply wp_readCaller hR
  intro w₁ caller hr₁ hcaller
  apply Db.wp_bind
  apply wp_ensureThread hR none
  intro held front w₂ id hsub hr₂ hthread _
  apply wp_enter_then hR
  exact {
    translated := ⟨⟨caller, hcaller, rfl, rfl, rfl, rfl⟩, rfl⟩
    thread := hthread
    waits := fun run hrun => nomatch hrun
    lineage := fun run hrun => nomatch hrun }

theorem wp_waitingRun {G : List Name → List Write → World → Prop}
    {Q : List Name → List Write → World → RunRecord → Prop} {n : Nat} {runId : String}
    (h : ∀ w' stored, Awaits W R (.inside stored.runId :: held) w' stored →
      Q (.inside stored.runId :: held) [] w' stored) :
    db.wp W R G Q (waitingRun n runId) held [] w := by
  apply Db.wp_bind
  intro w₁ hw₁ hr₁
  simp only [Db.wp_ret, Db.view_nil]
  cases hg : w₁.getRun runId with
  | none => trivial
  | some stored =>
      apply Db.wp_bind
      intro w₂ _ hr₂
      apply Db.wp_bind
      apply wp_waitingOn hR .nil
      · exact fun _ _ => trivial
      · intro w₃ events hr₃ hdone hopen hchild _
        have hmem : stored ∈ w₁.runs := List.mem_of_find?_eq_some hg
        have hin : [Name.inside stored.runId] ⊆ .inside stored.runId :: held :=
          List.cons_subset.2 ⟨List.mem_cons_self, List.nil_subset _⟩
        apply h
        exact {
          known := ⟨w₁, ⟨hw₁, hmem⟩, hR.trans _ _ _ _ (hR.anti (List.nil_subset _) hr₂)
            (hR.anti (List.nil_subset _) hr₃)⟩
          completed := hdone
          uncancelled := hopen
          inside := List.mem_cons_self
          unanswered := hchild.fewer hR hin }

theorem wp_resumeRun {n : Nat} {runId : String} {runInput : Dict String Json}
    {presenterKey : Option String} :
    db.wp W R (Commits cfg W R (.resumeRun runId runInput presenterKey))
      (fun _ _ _ _ => True) (resumeRun cfg n runId runInput presenterKey) [] [] w := by
  apply Db.wp_bind
  apply wp_waitingRun hR
  intro w₁ stored hawaits
  apply Db.wp_bind
  apply wp_readCaller hR
  intro w₂ caller hr₂ hcaller
  apply wp_enter_then hR
  exact {
    translated := ⟨⟨caller, hcaller, rfl, rfl, rfl, rfl⟩, rfl⟩
    thread := .resumed stored rfl rfl rfl rfl
    waits := fun run hrun => by
      cases hrun
      exact hawaits.later hR hr₂ (List.Subset.refl _)
    lineage := fun run hrun => by
      cases hrun
      exact .inl rfl }

omit hR in
theorem wp_registered {G : List Name → List Write → World → Prop}
    {Q : List Name → List Write → World → Unit → Prop} {agent : AgentRef}
    (h : ∀ w', R held w w' → Q held ws w' ()) :
    db.wp W R G Q (registered agent) held ws w := by
  apply Db.wp_bind
  intro w' _ hr
  simp only [Db.wp_ret]
  split
  · exact h w' hr
  · trivial

/-- The run an AG-UI input may answer, if it was found waiting. -/
theorem wp_latestWaiting {G : List Name → List Write → World → Prop}
    {Q : List Name → List Write → World → Option RunRecord × List Json → Prop} {n : Nat}
    {threadId : String} {answering : Bool} (hws : Front ws)
    (h : ∀ held' w' latest events, held ⊆ held' → R held w w' →
      (openAsks events ≠ [] → ∃ run, latest = some run ∧ run.threadId = threadId ∧
        Awaits W R held' w' run) → Q held' ws w' (latest, events)) :
    db.wp W R G Q (latestWaiting n threadId answering) held ws w := by
  cases answering with
  | false => exact h held w none [] (List.Subset.refl _) (hR.refl _ _) fun hne => absurd rfl hne
  | true =>
      apply Db.wp_bind
      intro w₁ hw₁ hr₁
      simp only [Db.wp_ret, hws.latest]
      cases hl : w₁.latestRunForThread threadId with
      | none => exact h held w₁ none [] (List.Subset.refl _) hr₁ fun hne => absurd rfl hne
      | some latest =>
          have hmem := List.mem_filter.1 (RunRecord.mem_of_newest hl)
          have hthread : latest.threadId = threadId := by simpa using hmem.2
          have hsub : held ⊆ .inside latest.runId :: held := List.subset_cons_self _ _
          apply Db.wp_bind
          intro w₂ _ hr₂
          apply Db.wp_bind
          apply wp_waitingOn hR hws
          · intro w₃ hr₃
            apply h _ w₃ (some latest) [] hsub
            · exact hR.trans _ _ _ _ hr₁ (hR.trans _ _ _ _ hr₂ (hR.anti hsub hr₃))
            · exact fun hne => absurd rfl hne
          · intro w₃ events hr₃ hdone hopen hchild _
            have hin : [Name.inside latest.runId] ⊆ .inside latest.runId :: held :=
              List.cons_subset.2 ⟨List.mem_cons_self, List.nil_subset _⟩
            apply h _ w₃ (some latest) events hsub
            · exact hR.trans _ _ _ _ hr₁ (hR.trans _ _ _ _ hr₂ (hR.anti hsub hr₃))
            · refine fun _ => ⟨latest, rfl, hthread, ?_⟩
              exact {
                known := ⟨w₁, ⟨hw₁, hmem.1⟩, hR.trans _ _ _ _ (hR.anti (List.nil_subset _) hr₂)
                  (hR.anti (List.nil_subset _) hr₃)⟩
                completed := hdone
                uncancelled := hopen
                inside := List.mem_cons_self
                unanswered := hchild.fewer hR hin }

theorem wp_aguiRun {n : Nat} {agent : AgentRef} {body : RunAgentInput}
    {presenterKey : Option String} :
    db.wp W R (Commits cfg W R (.aguiRun agent body presenterKey))
      (fun _ _ _ _ => True) (aguiRun cfg n agent body presenterKey) [] [] w := by
  apply Db.wp_bind
  apply wp_registered
  intro w₁ hr₁
  apply Db.wp_bind
  apply wp_readCaller hR
  intro w₂ caller hr₂ hcaller
  apply Db.wp_bind
  apply wp_ensureThread hR none
  intro held front w₃ threadId hsub hr₃ hthread _
  apply Db.wp_bind
  apply wp_latestWaiting hR hthread.front
  intro held' w₄ latest events hsub' hr₄ hlatest
  simp only
  split
  · apply Db.wp_bind
    exact fun _ _ _ => trivial
  · apply wp_enter_then hR
    have hanswers : ∀ run, (if completesTheAsk body.messages (resumeOf body) events = true then
        latest else none) = some run → run.threadId = threadId ∧ Awaits W R held' w₄ run := by
      intro run hrun
      split at hrun
      · rename_i hcompletes
        have hasks : openAsks events ≠ [] := by
          intro hnil
          simp [completesTheAsk, hnil] at hcompletes
        obtain ⟨run', rfl, hon, hawaits⟩ := hlatest hasks
        cases hrun
        exact ⟨hon, hawaits⟩
      · cases hrun
    exact {
      translated := ⟨⟨caller, hcaller, rfl, rfl, rfl, rfl⟩, rfl⟩
      thread := (hthread.later hR hr₄ hsub').any _
      waits := fun run hrun => (hanswers run hrun).2
      lineage := fun run hrun => .inl (hanswers run hrun).1.symm }

omit hR in
theorem wp_lineageParent {G : List Name → List Write → World → Prop}
    {Q : List Name → List Write → World → Option String → Prop} {message : Dict String Json}
    (hR : Steady R) (h : ∀ w' parent, R held w w' → Q held ws w' parent) :
    db.wp W R G Q (lineageParent message) held ws w := by
  unfold lineageParent
  split
  · apply Db.wp_bind
    exact fun w' _ hr => h w' _ hr
  · exact h w _ (hR.refl _ _)
  · split
    · trivial
    · exact h w _ (hR.refl _ _)
  · exact h w _ (hR.refl _ _)

/-- The task a message names, with the run of it that was found waiting. -/
theorem wp_waitingTask {G : List Name → List Write → World → Prop}
    {Q : List Name → List Write → World → Option (RunRecord × RunRecord) → Prop} {n : Nat}
    {agent : AgentRef} {taskId contextId : Option String}
    (hnone : ∀ w', R held w w' → Q held [] w' none)
    (h : ∀ w' root tail, R held w w' → Since R [] (fun w₀ => W w₀ ∧ root ∈ w₀.runs) w' →
      root.agent = agent → (∀ context, contextId = some context → context = root.threadId) →
      Descends W R root.runId w' tail → Awaits W R (.inside tail.runId :: held) w' tail →
      Q (.inside tail.runId :: held) [] w' (some (root, tail))) :
    db.wp W R G Q (waitingTask n agent taskId contextId) held [] w := by
  unfold waitingTask
  cases taskId with
  | none => exact hnone w (hR.refl _ _)
  | some taskId =>
      apply Db.wp_bind
      intro w₁ hw₁ hr₁
      simp only [Db.wp_ret, Db.view_nil]
      cases hg : w₁.getRun taskId with
      | none => trivial
      | some root =>
          have hroot : root ∈ w₁.runs := List.mem_of_find?_eq_some hg
          have hid : root.runId = taskId := by simpa using List.find?_some hg
          subst hid
          show db.wp W R G Q (if root.agent ≠ agent then _ else _) held [] w₁
          split
          · trivial
          · rename_i hagent
            split
            · trivial
            · rename_i hcontext
              apply Db.wp_bind
              apply wp_lineageTail hR .nil
              · exact fun _ _ => trivial
              · intro w₂ tail hr₂ hd _
                apply Db.wp_bind
                intro w₃ hw₃ hr₃
                apply Db.wp_bind
                apply wp_waitingOn hR .nil
                · exact fun _ _ => trivial
                · intro w₄ events hr₄ hdone hopen hchild _
                  have hsub : held ⊆ .inside tail.runId :: held := List.subset_cons_self _ _
                  have hin : [Name.inside tail.runId] ⊆ .inside tail.runId :: held :=
                    List.cons_subset.2 ⟨List.mem_cons_self, List.nil_subset _⟩
                  have hr₂₄ : R held w₂ w₄ := hR.trans _ _ _ _ hr₃ (hR.anti hsub hr₄)
                  have hfrom : R [] w₁ w₄ :=
                    hR.anti (List.nil_subset _) (hR.trans _ _ _ _ hr₂ hr₂₄)
                  have hd' := hd.later (hR.anti (List.nil_subset _) hr₂₄)
                  apply h w₄ root tail
                  · exact hR.trans _ _ _ _ hr₁ (hR.trans _ _ _ _ hr₂ hr₂₄)
                  · exact ⟨w₁, ⟨hw₁, hroot⟩, hfrom⟩
                  · exact Decidable.not_not.1 hagent
                  · rintro context rfl
                    simpa using hcontext
                  · exact hd'
                  · exact {
                      known := hd.known hR hr₂₄
                      completed := hdone
                      uncancelled := hopen
                      inside := List.mem_cons_self
                      unanswered := hchild.fewer hR hin }

theorem wp_conversationOf {G : List Name → List Write → World → Prop}
    {Q : List Name → List Write → World → List (String × Json) → Prop}
    {seen : List (Option String)} {runs : List RunRecord}
    (h : ∀ w' said, R held w w' → Q held ws w' said) :
    db.wp W R G Q (conversationOf cfg seen runs) held ws w := by
  induction runs generalizing seen w Q with
  | nil => exact h w [] (hR.refl _ _)
  | cons run runs ih =>
      have hrest : ∀ w' said, R held w w' → db.wp W R G Q
          (do
            let rest ← conversationOf cfg (unseen seen said).2 runs
            return (unseen seen said).1.map (fun m => (run.runId, m)) ++ rest) held ws w' := by
        intro w' said hr
        apply Db.wp_bind
        apply ih
        exact fun w'' said' hr' => h w'' _ (hR.trans _ _ _ _ hr hr')
      apply Db.wp_bind
      apply Db.wp_bind
      intro w₁ _ hr₁
      simp only [Db.wp_ret]
      split
      · apply Db.wp_bind
        intro w₂ _ hr₂
        exact hrest w₂ _ (hR.trans _ _ _ _ hr₁ hr₂)
      · exact hrest w₁ _ hr₁

theorem wp_a2aEnter {call : Call} {n : Nat} {agent : AgentRef} {message : Dict String Json}
    {caller : Caller} {parentThreadId contextId : Option String}
    {task : Option (RunRecord × RunRecord)} (hparent : call.parentRunId = .null)
    (hcaller : CallerOf cfg call.bag caller)
    (htask : ∀ root tail, task = some (root, tail) → root.agent = agent ∧
      (∀ context, contextId = some context → context = root.threadId) ∧
      Since R [] (fun w₀ => W w₀ ∧ root ∈ w₀.runs) w ∧ Descends W R root.runId w tail ∧
      Awaits W R held w tail) :
    db.wp W R (Commits cfg W R call) (fun _ _ _ _ => True)
      (a2aEnter cfg n agent message caller parentThreadId contextId task) held [] w := by
  apply Db.wp_bind
  apply wp_ensureThread hR none
  intro held' front w₁ threadId hsub hr₁ hthread hgiven
  apply Db.wp_bind
  intro w₂ _ hr₂
  apply Db.wp_bind
  apply wp_conversationOf hR
  intro w₃ said hr₃
  apply Db.wp_bind
  apply Db.wp_ofExcept
  intro new _
  apply wp_enter_then hR
  have hr₁₃ : R held' w₁ w₃ := hR.trans _ _ _ _ hr₂ hr₃
  have hr : R held w w₃ := hR.trans _ _ _ _ hr₁ (hR.anti hsub hr₁₃)
  have hnil : R [] w w₃ := hR.anti (List.nil_subset _) hr
  exact {
    translated := ⟨⟨caller, hcaller, rfl, rfl, rfl, rfl⟩, hparent.symm⟩
    thread := (hthread.later hR hr₁₃ (List.Subset.refl _)).any _
    waits := fun run hrun => by
      obtain ⟨⟨root, tail⟩, rfl, rfl⟩ := Option.map_eq_some_iff.1 hrun
      exact (htask root tail rfl).2.2.2.2.later hR hr hsub
    lineage := fun run hrun => by
      obtain ⟨⟨root, tail⟩, rfl, rfl⟩ := Option.map_eq_some_iff.1 hrun
      obtain ⟨hagent, hcontext, hroot, hd, -⟩ := htask root tail rfl
      refine .inr ⟨root, hd.later hnil, hroot.later hR hnil, hagent, ?_⟩
      apply hgiven rfl
      cases contextId with
      | none => rfl
      | some context =>
          rw [← hcontext context rfl]
          rfl }

theorem wp_a2aStartRun {n : Nat} {agent : AgentRef} {message : Dict String Json}
    {actorChain : Option (List String)} {metadata : Dict String Json}
    {presenterKey : Option String} :
    db.wp W R (Commits cfg W R (.a2aSend agent message actorChain metadata presenterKey))
      (fun _ _ _ _ => True)
      (a2aStartRun cfg n agent message actorChain metadata presenterKey) [] [] w := by
  apply Db.wp_bind
  apply wp_registered
  intro w₁ _
  apply Db.wp_bind
  apply wp_readCaller hR
  intro w₂ caller _ hcaller
  apply Db.wp_bind
  apply wp_lineageParent hR
  intro w₃ parentThreadId _
  apply Db.wp_bind
  apply Db.wp_ofExcept
  intro taskId _
  apply Db.wp_bind
  apply Db.wp_ofExcept
  intro contextId _
  apply Db.wp_bind
  have hparent : (Call.a2aSend agent message actorChain metadata presenterKey).parentRunId =
    .null := rfl
  apply wp_waitingTask hR
  · intro w₄ _
    apply wp_a2aEnter hR hparent hcaller
    intro root tail htask
    cases htask
  · intro w₄ root tail _ hroot hagent hcontext hd hawaits
    apply wp_a2aEnter hR hparent hcaller
    intro root' tail' htask
    cases htask
    exact ⟨hagent, hcontext, hroot, hd, hawaits⟩

theorem wp_cancelRun {call : Call} {n : Nat} {runId : String} {metadata : Dict String Json} :
    db.wp W R (Commits cfg W R call) (fun _ _ _ _ => True) (cancelRun cfg n runId metadata)
      [] [] w := by
  apply Db.wp_bind
  intro w₁ hw₁ _
  simp only [Db.wp_ret, Db.view_nil]
  cases hg : w₁.getRun runId with
  | none => trivial
  | some stored =>
      have hknown : Since R [] (fun w₀ => W w₀ ∧ stored ∈ w₀.runs) w₁ :=
        .now hR ⟨hw₁, List.mem_of_find?_eq_some hg⟩
      apply Db.wp_bind
      intro w₂ _ hr₂
      apply Db.wp_bind
      apply Db.wp_ofExcept
      intro note hnote
      have hcancels : ∀ {w' w''}, R [] w₂ w' → R [] w' w'' →
          Commits cfg W R call [] [.recordCancelRequest note] w'' := fun hr hr' =>
        .cancels stored metadata _ note (((hknown.later hR hr₂).later hR hr).later hR hr') hnote
      split
      · trivial
      · split
        · apply Db.wp_bind
          apply wp_waitingOn hR .nil
          · exact fun _ _ => trivial
          · intro w₃ _ hr₃ _ _ _ _
            apply Db.wp_bind
            intro w₄ _ hr₄
            apply Db.wp_bind
            intro w₅ _ hr₅
            exact ⟨hcancels (hR.trans _ _ _ _ hr₃ hr₄) hr₅, trivial⟩
        · apply Db.wp_bind
          intro w₃ _ hr₃
          apply Db.wp_bind
          intro w₄ _ hr₄
          exact ⟨hcancels hr₃ hr₄, fun _ _ _ => trivial⟩

theorem wp_cancelTask {call : Call} {n : Nat} {agent : AgentRef} {taskId : String}
    {metadata : Dict String Json} :
    db.wp W R (Commits cfg W R call) (fun _ _ _ _ => True)
      (cancelTask cfg n agent taskId metadata) [] [] w := by
  apply Db.wp_bind
  intro w₁ _ _
  simp only [Db.wp_ret, Db.view_nil]
  split
  · trivial
  · split
    · trivial
    · apply Db.wp_bind
      intro w₂ _ _
      apply Db.wp_bind
      apply Db.wp_ofExcept
      intro _ _
      apply Db.wp_bind
      apply wp_lineageTail hR .nil
      · exact fun _ _ => trivial
      · intro w₃ tail _ _ _
        apply Db.wp_bind
        intro w₄ _ _
        simp only [Db.wp_ret]
        split
        · trivial
        · apply Db.wp_bind
          apply Db.wp_mono (Q := fun _ _ _ _ => True)
          · exact fun _ _ _ _ _ => trivial
          · exact wp_cancelRun hR

/-- **Every request commits as promised.** -/
theorem wp_program (r : Request) (w : World) :
    db.wp W R (Commits cfg W R r.call) (fun _ _ _ _ => True) (program cfg r) [] [] w := by
  obtain ⟨call, n⟩ := r
  unfold program
  cases call with
  | startRun => exact wp_startRun hR
  | resumeRun => exact wp_resumeRun hR
  | aguiRun => exact wp_aguiRun hR
  | a2aSend => exact wp_a2aStartRun hR
  | cancelRun =>
      apply Db.wp_bind
      apply Db.wp_mono (Q := fun _ _ _ _ => True)
      · exact fun _ _ _ _ _ => trivial
      · exact wp_cancelRun hR
  | cancelTask => exact wp_cancelTask hR

end Doors

end Funduq.Doors
