import Funduq.Doors.Record
import Funduq.Doors.Restart

/-!
# What a restart makes of the store

Whatever a process leaves behind when it is gone, the next one finds in the columns
of a waiting run what the run was first handed over with: what `dispatch` took from
the caller's bag is read back from the bag that was stored (`Stored`), and a run that
waits has recorded nothing yet (`Silent`), unless a write of the broker was lost.

A process may be gone at any point of its life, and in the middle of `start` itself;
`Left` is every store that comes of that, over any number of processes.
-/

namespace Funduq.Doors

open Funduq.Lib Funduq.Store Funduq.Contract
open Funduq.Broker (AgentRef Status Time hasType runError runErrorTag legalFrom)

/-! ## What funduq wrote is read back -/

theorem FunduqProps.parse_dump (p : FunduqProps) : FunduqProps.parse p.dump = some p := by
  obtain ⟨kyok, addressed, chain⟩ := p
  have hback : ∀ tokens : List String, tokens.filterMap (Json.str? ∘ Json.str) = tokens :=
    fun tokens => List.filterMap_some
  cases kyok <;> cases addressed <;> cases chain <;>
    simp [dump, parse, field, readKyok, readStr, readChain, Json.get?, Json.getStr?,
      Json.members?, Json.str?, hback]

theorem FunduqProps.eq_of_dump_empty {p : FunduqProps} (h : p.dump.isEmpty = true) : p = {} := by
  obtain ⟨kyok, addressed, chain⟩ := p
  cases kyok with
  | some _ => simp [dump] at h
  | none =>
      cases addressed with
      | some _ => simp [dump] at h
      | none =>
          cases chain with
          | some _ => simp [dump] at h
          | none => rfl

/-- Another key is looked up past funduq's own. -/
theorem find?_filter_ne {members : Dict String Json} {key : String}
    (hkey : key ≠ observedMetadataKey) :
    (members.filter fun m => m.1 ≠ observedMetadataKey).find? (fun m => m.1 = key) =
      members.find? fun m => m.1 = key := by
  rw [List.find?_filter]
  congr 1
  funext m
  by_cases h : m.1 = key
  · simp [h, hkey]
  · simp [h]

/-- Nothing of the caller's is under funduq's own key. -/
theorem find?_filter_own (members : Dict String Json) :
    (members.filter fun m => m.1 ≠ observedMetadataKey).find?
      (fun m => m.1 = observedMetadataKey) = none := by
  rw [List.find?_eq_none]
  intro m hm hkey
  simp only [List.mem_filter, decide_eq_true_eq] at hm hkey
  exact hm.2 hkey

/-- `build_forwarded_props`, then `FunduqProps.of`. -/
theorem FunduqProps.of_build (ours : FunduqProps) (bag : Json) :
    FunduqProps.of (.obj (bagOf (buildForwardedProps ours bag))) = ours := by
  have hwritten : ∀ theirs : Dict String Json,
      theirs.find? (fun m => m.1 = observedMetadataKey) = none →
      FunduqProps.of (.obj (theirs ++ [(observedMetadataKey, .obj ours.dump)])) = ours := by
    intro theirs hnone
    simp [FunduqProps.of, Json.get?, Json.members?, List.find?_append, hnone,
      FunduqProps.parse_dump]
  have hnothing : ∀ theirs : Dict String Json,
      theirs.find? (fun m => m.1 = observedMetadataKey) = none →
      FunduqProps.of (.obj theirs) = {} := by
    intro theirs hnone
    simp [FunduqProps.of, Json.get?, Json.members?, hnone]
  by_cases hempty : ours.dump.isEmpty = true
  · rw [FunduqProps.eq_of_dump_empty hempty]
    cases bag with
    | obj members => exact hnothing _ (find?_filter_own members)
    | _ => rfl
  · cases bag with
    | obj members =>
        simp only [buildForwardedProps, if_neg hempty]
        exact hwritten _ (find?_filter_own members)
    | _ =>
        simp only [buildForwardedProps, if_neg hempty]
        exact hwritten [] rfl

/-- A key of the caller's stays where it was. -/
theorem get?_build (ours : FunduqProps) (bag : Json) {key : String}
    (hkey : key ≠ observedMetadataKey) :
    (bagOf (buildForwardedProps ours bag)).get? key = (bagOf bag).get? key := by
  simp only [Dict.get?_eq_find?]
  congr 1
  have hlast : ∀ theirs : Dict String Json, (theirs ++ [(observedMetadataKey, Json.obj ours.dump)]).find?
      (fun m => m.1 = key) = theirs.find? fun m => m.1 = key := by
    intro theirs
    rw [List.find?_append, List.find?_singleton, if_neg (by simpa using Ne.symm hkey), Option.or_none]
  by_cases hempty : ours.dump.isEmpty = true
  · cases bag with
    | obj members =>
        simp only [buildForwardedProps, if_pos hempty]
        exact find?_filter_ne hkey
    | _ => simp only [buildForwardedProps, if_pos hempty]
  · cases bag with
    | obj members =>
        simp only [buildForwardedProps, if_neg hempty]
        rw [bagOf, hlast]
        exact find?_filter_ne hkey
    | _ =>
        simp only [buildForwardedProps, if_neg hempty]
        exact hlast []

/-- The opt-in is all under its own key. -/
theorem parseKyokOptIn_congr {bag bag' : Dict String Json} (h : bag'.get? "kyok" = bag.get? "kyok") :
    parseKyokOptIn bag' = parseKyokOptIn bag := by
  unfold parseKyokOptIn
  rw [h]

/-! ## What a store holds -/

variable {PrivateKey PublicKey : Type} {cfg : Config PrivateKey PublicKey}

/-- What is read of a caller's bag is read past funduq's own key. -/
theorem verifyCaller_bag {bag : Dict String Json} {presenterKey : Option String} {v : Verified}
    (h : verifyCaller cfg bag presenterKey = .ok v) :
    let props : Dict String Json := bag.filter fun m => m.1 ≠ observedMetadataKey
    v.props = props ∧ v.actorChain = (props.get? "actorChain").filter Json.truthy := by
  unfold verifyCaller at h
  simp only at h ⊢
  split at h
  · rename_i hnone
    cases h
    exact ⟨rfl, by rw [hnone]; rfl⟩
  · rename_i actorChain hsome
    rw [hsome]
    split at h
    · rename_i hempty
      cases h
      exact ⟨rfl, by simp_all [Option.filter]⟩
    · rename_i htruthy
      split at h
      · cases h
      · simp only [bind_eq_ok, ite_eq_ok, throw_ne_ok, false_and, exists_false, and_false,
          false_or, pure_eq_ok, ne_eq, not_not] at h
        obtain ⟨verified, -, -, rfl⟩ := h
        exact ⟨rfl, by simp_all [Option.filter]⟩

/-- The opt-in a door read is the one in the bag it forwards. -/
theorem InboundOf.kyok {call : Call} {inbound : InboundRun} (h : InboundOf cfg call inbound) :
    inbound.kyok = parseKyokOptIn (bagOf inbound.forwardedProps) := by
  obtain ⟨caller, hcaller, -, -, hkyok, hprops⟩ := h.caller
  rw [hkyok, hprops, hcaller.kyok, hcaller.forwardedProps]
  generalize call.bag = bag at hcaller
  cases bag with
  | obj members => rfl
  | _ =>
      -- A bag that is no object has no opt-in.
      obtain ⟨presenterKey, hverified⟩ := hcaller.verified
      have hnone : [] = caller.props := congrArg Verified.props (Except.ok.inj hverified)
      rw [← hnone]
      rfl

/-- AG-UI's `forwardedProps` is any value, kept as it is. -/
def RunInputModel.Verbatim (M : RunInputModel) : Prop :=
  ∀ {x y : Json}, M.forwardedProps x = .ok y → y = x

/-- A run's row gives back what is handed to the broker of it. -/
theorem Opens.takenBack {W : World → Prop} {R : List Name → World → World → Prop} {call : Call}
    {held : List Name} {w : World} {front : List Write} {o : Opened} (hV : cfg.model.Verbatim)
    (h : Opens cfg W R call held w front o) : o.handed = takenBack o.row o.input 0 := by
  obtain ⟨-, -, -, -, -, -, hprops, -, -⟩ := buildRunAgentInput_ok (assemble_ok h.assembled)
  have hrow : o.row.forwardedProps = buildForwardedProps
      (funduqProps cfg o.inbound o.relayed o.runId o.addressed o.now) o.inbound.forwardedProps :=
    hV hprops
  have haddressed : addressedBy o.row = o.addressed := by
    unfold addressedBy
    rw [hrow, FunduqProps.of_build]
    rfl
  have hbinding : bindingFrom o.row = bindingOf o.inbound o.relayed := by
    unfold bindingFrom bindingOf
    rw [hrow, parseKyokOptIn_congr (get?_build _ _ (by decide)), ← h.inbound.kyok]
    rfl
  unfold Doors.takenBack
  rw [haddressed, hbinding]
  rfl

/-- The files are in order, and of every row the broker can be handed what it was to
be handed at first. -/
structure Stored (cfg : Config PrivateKey PublicKey) (w : World) : Prop where
  filed : Filed cfg w
  kept : List.Forall₂ (fun r o => o.handed = takenBack r o.handed.inputJson 0) w.runs w.openings

/-- A run that waits has recorded nothing. -/
def Silent (w : World) : Prop :=
  ∀ e ∈ w.events, ∃ r ∈ w.runs, r.runId = e.runId ∧ r.status ≠ .queued

theorem Progress.takenBack {r r' : RunRecord} (h : Progress r r') (input : RunAgentInput)
    (seq : Nat) : takenBack r' input seq = takenBack r input seq := by
  show Doors.takenBack (Doors.fixed r') input seq = Doors.takenBack (Doors.fixed r) input seq
  rw [h.fixed]

theorem Stored.still {w w' : World} (h : Stored cfg w) (hstill : Still w w') : Stored cfg w' := by
  refine ⟨h.filed.still hstill, ?_⟩
  obtain ⟨f, hf, hruns⟩ := hstill.runs
  rw [hruns, hstill.openings, List.forall₂_map_left_iff]
  apply h.kept.imp
  intro r o hkept
  rw [(hf r).takenBack]
  exact hkept

theorem Silent.still {w w' : World} (h : Silent w) (hstill : Still w w')
    (hevents : w'.events = w.events) : Silent w' := by
  intro e he
  rw [hevents] at he
  obtain ⟨r, hr, hid, hst⟩ := h e he
  obtain ⟨r', hr', hp⟩ := hstill.later.mem hr
  exact ⟨r', hr', hp.runId.trans hid, fun hq => hst (hp.queued hq)⟩

/-- Events of runs that wait no longer. -/
theorem Silent.events {w : World} (h : Silent w) {rows : List EventRow}
    (hrows : ∀ e ∈ rows, ∃ r ∈ w.runs, r.runId = e.runId ∧ r.status ≠ .queued) :
    Silent { w with events := w.events ++ rows } := by
  intro e he
  rcases List.mem_append.1 he with he | he
  · exact h e he
  · exact hrows e he

/-- A run that waits has no events. -/
theorem Silent.eventsOf {w : World} (h : Silent w) (hs : Sane w) {r : RunRecord} (hr : r ∈ w.runs)
    (hst : r.status = .queued) : w.eventsOf r.runId = [] := by
  unfold World.eventsOf
  rw [List.filter_eq_nil_iff]
  intro e he hid
  obtain ⟨r', hr', hid', hst'⟩ := h e he
  have hsame : r' = r := List.inj_on_of_nodup_map hs.runIds hr' hr
    (hid'.trans (of_decide_eq_true hid))
  exact hst' (hsame ▸ hst)

section Commit

variable {W : World → Prop} {R : List Name → World → World → Prop} {call : Call}
  {held : List Name} {w : World} {ws : List Write}

theorem Stored.commit (hV : cfg.model.Verbatim) (hU : ∀ H a b, R H a b → Undisturbed H a b)
    (hW : ∀ w, W w → Sane w) (hw : Stored cfg w) (h : Commits cfg W R call held ws w) :
    Stored cfg (db.view w ws) := by
  refine ⟨hw.filed.commit hU hW h, ?_⟩
  rcases h.cases with ⟨front, o, rfl, hopens⟩ | hstill
  · rw [o.view hopens.thread.front]
    exact List.rel_append hw.kept (.cons (hopens.takenBack hV) .nil)
  · exact (hw.still hstill).kept

/-- A run that was failed waits no longer. -/
theorem Failed.waits {o : Opened} (hU : ∀ H a b, R H a b → Undisturbed H a b)
    (hW : ∀ w, W w → Sane w) (h : Failed W R o w) :
    ∃ r ∈ w.runs, r.runId = o.handed.runId ∧ r.status ≠ .queued := by
  obtain ⟨w₀, hw₀, ⟨w₁, hopened, hr⟩, rfl⟩ := h
  obtain ⟨r, hr, hb⟩ := (hW w₀ hw₀).run_of_opening ((hU _ _ _ hr).later.openings.subset hopened)
  have hid : r.runId = o.handed.runId := hb.runId.symm
  refine ⟨_, List.mem_map_of_mem hr, ?_, ?_⟩
  · rw [if_pos hid, marked_runId]
    exact hid
  · rw [if_pos hid]
    intro hq
    have hend := r.marked_failed
    rw [hq] at hend
    cases hend

theorem Silent.commit (hU : ∀ H a b, R H a b → Undisturbed H a b) (hW : ∀ w, W w → Sane w)
    (hw : Silent w) (h : Commits cfg W R call held ws w) : Silent (db.view w ws) := by
  cases h with
  | opens front o h =>
      rw [o.view h.thread.front]
      intro e he
      obtain ⟨r, hr, hid⟩ := hw e he
      exact ⟨r, List.mem_append_left _ hr, hid⟩
  | enqueues o h => exact hw
  | fails runId => exact hw.still (still_markRunStatus w runId .failed) rfl
  | ends o code seq h =>
      apply hw.events
      intro e he
      rw [List.mem_singleton.1 he]
      obtain ⟨w₀, hfailed, hr⟩ := h
      obtain ⟨r, hr₀, hid, hst⟩ := hfailed.waits hU hW
      obtain ⟨r', hr', hp⟩ := (hU _ _ _ hr).later.mem hr₀
      exact ⟨r', hr', hp.runId.trans hid, fun hq => hst (hp.queued hq)⟩
  | cancels stored metadata now note known authorized => exact hw.still (still_cancel w note) rfl

end Commit

/-! ## What a process leaves behind -/

/-- The broker writes an event with the outcome it is the reason for, and alone only
while a provider has the run.  A write that was lost is how it can be otherwise. -/
def inOrder (w : World) : Outside → Bool
  | .record runId write => (w.getRun runId).any fun r =>
      write.event.isNone || decide (write.status = some .failed) ||
        decide (r.status = .running) || decide (r.status = .cancelling)
  | _ => true

/-- What happens without a door; `faults` tells whether writes may be lost. -/
def outsideWith (faults : Bool) (w : World) (e : Outside) : Option World :=
  if faults || inOrder w e then outside w e else none

/-- A process, from a store that satisfies `init` on. -/
def process (cfg : Config PrivateKey PublicKey) (faults : Bool) (init : World → Prop) :
    System Process (Move Request Outside) :=
  Server.system db (program cfg) (outsideWith faults) init

/-- The process is gone, and with it all it had in memory. -/
def crashed (w : World) : World :=
  { w with
    served := []
    live := []
    dispatched := [] }

/-- The stores processes leave behind, the first with nothing on file. -/
inductive Left (cfg : Config PrivateKey PublicKey) (faults : Bool) : World → Prop where
  | first {s : Process} (hs : (process cfg faults Empty).Reachable s) :
      Left cfg faults (crashed s.world)
  /-- The next process starts on what is left, and works until it is gone. -/
  | again {w w' : World} {runIds : List String} {s : Process} (h : Left cfg faults w)
      (hstart : db.alone (start cfg false) [] w = some (.ok runIds, [], w'))
      (hs : (process cfg faults fun w₀ => w₀ = w').Reachable s) : Left cfg faults (crashed s.world)
  /-- The next process is gone before it has started. -/
  | midway {w : World} (h : Left cfg faults w) (n : Nat) :
      Left cfg faults (crashed (db.stopped n (start cfg false) [] w))

/-- What every store has. -/
structure Good (cfg : Config PrivateKey PublicKey) (faults : Bool) (w : World) : Prop where
  stored : Stored cfg w
  silent : faults = false → Silent w

theorem Silent.outside {w w' : World} {e : Outside} (h : Silent w) (hs : Sane w)
    (horder : inOrder w e = true) (hout : outside w e = some w') : Silent w' := by
  have hstill := still_outside hs hout
  cases e with
  | record runId write =>
      simp only [Store.outside] at hout
      split at hout
      · cases hout
        obtain ⟨r, hget, hmay⟩ := (Option.any_eq_true _ _).1 horder
        have hr : r ∈ w.runs := List.mem_of_find?_eq_some hget
        have hid : r.runId = runId := by simpa using List.find?_some hget
        intro e he
        have hevents : (w.recordWrite runId write).events = w.events ++
            write.event.toList.map fun e => ⟨runId, e.1, e.2⟩ := by
          unfold World.recordWrite
          cases write.status <;> rfl
        rw [hevents] at he
        rcases List.mem_append.1 he with he | he
        · obtain ⟨r', hr', hid', hst'⟩ := h e he
          obtain ⟨r'', hr'', hp⟩ := hstill.later.mem hr'
          exact ⟨r'', hr'', hp.runId.trans hid', fun hq => hst' (hp.queued hq)⟩
        · obtain ⟨x, hx, rfl⟩ := List.mem_map.1 he
          by_cases hfailed : write.status = some .failed
          · refine ⟨r.marked .failed, ?_, (marked_runId r .failed).trans hid, ?_⟩
            · unfold World.recordWrite
              rw [hfailed]
              exact List.mem_map.2 ⟨r, hr, if_pos hid⟩
            · intro hq
              have hend := r.marked_failed
              rw [hq] at hend
              cases hend
          · have hevent : write.event.isNone = false := by
              cases hev : write.event with
              | none =>
                  rw [hev] at hx
                  cases hx
              | some _ => rfl
            have hst : r.status ≠ .queued := by
              intro hq
              simp [hevent, hfailed, hq] at hmay
            obtain ⟨r', hr', hp⟩ := hstill.later.mem hr
            exact ⟨r', hr', hp.runId.trans hid, fun hq => hst (hp.queued hq)⟩
      · cases hout
  | _ =>
      cases hout
      exact h

theorem outsideWith_outside {faults : Bool} {w w' : World} {e : Outside}
    (h : outsideWith faults w e = some w') :
    outside w e = some w' ∧ (faults = false → inOrder w e = true) := by
  unfold outsideWith at h
  split at h
  · rename_i hmay
    refine ⟨h, fun hf => ?_⟩
    rw [hf] at hmay
    exact hmay
  · cases h

theorem good_promises {faults : Bool} : Server.Promises db (program cfg) (outsideWith faults)
    (Good cfg faults) Undisturbed (fun r => Commits cfg (Good cfg faults) Undisturbed r.call) where
  refl := undisturbed_steady.refl
  trans := undisturbed_steady.trans
  outside w e w' hw h := by
    obtain ⟨hout, horder⟩ := outsideWith_outside h
    have hstill := still_outside hw.stored.filed.sane hout
    refine ⟨⟨hw.stored.still hstill, fun hf => ?_⟩,
      fun held => ⟨hstill.later, fun id _ => hstill.fresh⟩⟩
    exact (hw.silent hf).outside hw.stored.filed.sane (horder hf) hout
  program r w := wp_program undisturbed_steady r w

/-- Whatever a process does, the store is good. -/
theorem good_of_reachable (hV : cfg.model.Verbatim) {faults : Bool} {init : World → Prop}
    (hinit : ∀ w, init w → Good cfg faults w) {s : Process}
    (hs : (process cfg faults init).Reachable s) : Good cfg faults s.world := by
  have hinv := Server.invariant_of_concurrent good_promises
    (fun c held ws w hw _ hg =>
      ⟨⟨hw.stored.commit hV (fun _ _ _ h => h) (fun _ h => h.stored.filed.sane) hg,
        fun hf => (hw.silent hf).commit (fun _ _ _ h => h) (fun _ h => h.stored.filed.sane) hg⟩,
        fun held' hsep => hg.undisturbed fun id => hsep _ ⟨id, rfl⟩⟩)
    Server.allowed_any hinit hs.by_any
  exact hinv.inv

theorem Good.still {faults : Bool} {w w' : World} (h : Good cfg faults w) (hstill : Still w w')
    (hevents : w'.events = w.events) : Good cfg faults w' :=
  ⟨h.stored.still hstill, fun hf => (h.silent hf).still hstill hevents⟩

/-- Nor does `start` spoil it, at any point. -/
theorem good_lasting {faults : Bool} : Lasting (Good cfg faults) where
  marks w runId hw := hw.still (still_markRunStatus w runId .failed) rfl
  enqueues w d hw := hw.still (still_of_same rfl rfl rfl rfl rfl rfl) rfl
  ends w runId seq code hw hended := by
    refine ⟨hw.stored.still (still_runError w runId code seq), fun hf => ?_⟩
    apply (hw.silent hf).events
    intro e he
    rw [List.mem_singleton.1 he]
    obtain ⟨r, hr, hid, hend⟩ := hended
    refine ⟨r, hr, hid, fun hq => ?_⟩
    rw [hq] at hend
    cases hend

theorem Good.crashed {faults : Bool} {w : World} (h : Good cfg faults w) :
    Good cfg faults (crashed w) :=
  h.still (still_of_same rfl rfl rfl rfl rfl rfl) rfl

theorem Empty.good {faults : Bool} {w : World} (h : Empty w) : Good cfg faults w where
  stored := {
    filed := h.filed
    kept := by
      rw [h.runs, h.openings]
      exact .nil }
  silent _ := by
    unfold Silent
    rw [h.events]
    exact List.forall_mem_nil _

/-- Off the row and the messages of a run comes what it was to be handed over as. -/
theorem Stored.rebuilt (hM : cfg.model.Idempotent) {w : World} (h : Stored cfg w) {r : RunRecord}
    (hr : r ∈ w.runs) {o : Opening} (ho : o ∈ w.openings) (hid : o.handed.runId = r.runId) :
    runInputOf cfg.model w r = .ok o.handed.inputJson ∧
      o.handed = takenBack r o.handed.inputJson 0 := by
  obtain ⟨row, hrow, hinput⟩ := h.filed.runInputOf hM ho
  rw [hid, h.filed.sane.getRun hr] at hrow
  cases hrow
  obtain ⟨r', hr', hkept⟩ := forall₂_right h.kept ho
  have hid' : r'.runId = o.handed.runId := (congrArg Dispatched.runId hkept).symm
  cases List.inj_on_of_nodup_map h.filed.sane.runIds hr' hr (hid'.trans hid)
  exact ⟨hinput, hkept⟩

/-- **A restart on a good store.** -/
theorem Good.start (hM : cfg.model.Idempotent) {faults : Bool} {w : World} (h : Good cfg faults w)
    (hlive : w.live = []) :
    ∃ input : RunRecord → RunAgentInput,
      (∀ r ∈ w.runs, ∀ o ∈ w.openings, o.handed.runId = r.runId →
        o.handed = takenBack r (input r) 0) ∧
      db.Does (Good cfg faults) (start cfg false) w false (heldIds w) (restarted w input) false := by
  have hsane := h.stored.filed.sane
  -- Every row has its opening, and the opening the input.
  have hopening : ∀ r : RunRecord, ∃ input : RunAgentInput, r ∈ w.runs →
      ∀ o ∈ w.openings, o.handed.runId = r.runId → o.handed.inputJson = input := by
    intro r
    by_cases hr : r ∈ w.runs
    · obtain ⟨o, ho, hb⟩ := hsane.opening_of_run hr
      refine ⟨o.handed.inputJson, fun _ o' ho' hid' => ?_⟩
      have hmine := (h.stored.rebuilt hM hr ho hb.runId).1
      have htheirs := (h.stored.rebuilt hM hr ho' hid').1
      exact Except.ok.inj (htheirs.symm.trans hmine)
    · exact ⟨⟨"", "", .null, [], [], [], .null, none, none⟩, fun h => absurd h hr⟩
  choose input hinput using hopening
  refine ⟨input, fun r hr o ho hid => ?_, ?_⟩
  · rw [← hinput r hr o ho hid]
    exact (h.stored.rebuilt hM hr ho hid).2
  · apply start_does cfg good_lasting h hsane hlive
    intro r hr
    have hr' := (mem_queuedRuns.1 hr).1
    obtain ⟨o, ho, hb⟩ := hsane.opening_of_run hr'
    rw [← hinput r hr' o ho hb.runId]
    exact (h.stored.rebuilt hM hr' ho hb.runId).1

/-- Whatever is left is good, and nothing is in anybody's memory. -/
theorem Left.good (hM : cfg.model.Idempotent) (hV : cfg.model.Verbatim) {faults : Bool} {w : World}
    (h : Left cfg faults w) : Good cfg faults w ∧ w.live = [] ∧ w.dispatched = [] := by
  induction h with
  | first hs =>
      exact ⟨(good_of_reachable hV (fun w hw => hw.good) hs).crashed, rfl, rfl⟩
  | @again w w' runIds s _ hstart hs ih =>
      obtain ⟨input, -, hdoes⟩ := ih.1.start hM ih.2.1
      obtain ⟨ws, w'', halone, hview, hws⟩ := hdoes.alone (Db.view_nil db w) fun _ => rfl
      rw [hstart] at halone
      cases halone
      have hgood : Good cfg faults w' := by
        have hview' : w' = restarted w input := hview
        rw [hview']
        exact hdoes.inv ih.1
      exact ⟨(good_of_reachable hV (fun w₀ hw₀ => hw₀ ▸ hgood) hs).crashed, rfl, rfl⟩
  | midway _ n ih =>
      obtain ⟨input, -, hdoes⟩ := ih.1.start hM ih.2.1
      exact ⟨(hdoes.stopped (Db.view_nil db _) ih.1 ih.1 n).crashed, rfl, rfl⟩

/-! ## What the next process takes back -/

section Restarted

variable {w : World} (hs : Sane w) {input : RunRecord → RunAgentInput} (hnone : w.dispatched = [])
  {r : RunRecord} (hr : r ∈ w.runs) (hst : r.status = .queued) {o : Opening}
  (ho : o.handed = takenBack r (input r) 0)
include hs hnone

theorem dispatched_runIds : (restarted w input).dispatched.map Dispatched.runId =
    (taken [] w.queuedRuns).map RunRecord.runId := by
  rw [dispatched_restarted hs input hnone, List.map_map]
  rfl

include hr hst ho

omit ho in
/-- A row that is lost is not. -/
theorem dispatched_never (hgone : r.runId ∈ lostIds w) :
    ∀ d ∈ (restarted w input).dispatched, d.runId ≠ r.runId := by
  intro d hd hid
  have hqueued := mem_queuedRuns.2 ⟨hr, hst⟩
  have hmem : r.runId ∈ (taken [] w.queuedRuns).map RunRecord.runId := by
    rw [← dispatched_runIds hs hnone, ← hid]
    exact List.mem_map_of_mem hd
  rw [mem_map_key_iff (queuedRuns_nodup hs) (taken_sublist _ _).subset hqueued] at hmem
  exact (mem_taken_iff (queuedRuns_nodup hs).of_map hqueued).1 hmem ((mem_lostIds hs hr).1 hgone)

end Restarted

namespace Demo

/-- A run is taken by a provider, one waits behind it, and one wants to change it;
then the process is gone. -/
def interrupted : List (Move Request Outside) :=
  [calls (.startRun agent (saying "m0") none none)] ++
  advances 0 ["t", "", "", "", "r0", "", "", "", "", "", "", "", ""] ++
  [.outside (.record "r0" { status := some .offering }),
    .outside (.record "r0" { status := some .running }),
    calls (.startRun agent (saying "m1") (some "t") none)] ++
  advances 1 ["", "", "", "r1", "", "", "", ""] ++
  [calls (.a2aSend agent [("contextId", .str "t")] none
    [(addressedRunMetadataKey, .str "r0")] none)] ++
  advances 2 ["", "", "", "", "", "r2", "r2", "r2", "", "", "", ""]

def gone : Process := (process config false Empty).runFrom start interrupted

theorem model_verbatim : model.Verbatim := by
  intro x y h
  cases h
  rfl

end Demo

end Funduq.Doors
