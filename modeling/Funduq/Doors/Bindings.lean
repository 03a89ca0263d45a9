import Funduq.Doors.Hall
import Funduq.Lib.Refusal

/-!
# Bindings follow their runs

A run is bound while the broker holds it, if its caller opted in; and it is bound as its
caller said.  `dispatch` binds it by what the caller declared, `_recover_queued` by what
its row kept of that.

There is one way out of step: `_recover_queued` binds a row first and hands it over
later, and a run that a door has in hand at the same time may be discarded in between,
or after.
-/

namespace Funduq.Doors

open Funduq.Lib Funduq.Store
open Funduq.Broker (Status)

/-! ## What is to hold -/

/-- The binding of a run with this chain, by what its caller declared. -/
def Call.bindingWith (call : Call) (actorChain : Option (List String)) : Option KyokBinding :=
  (parseKyokOptIn (bagOf call.bag)).bind fun optIn => optIn.llmProvider.map fun ref =>
    { llmProvider := ref, context := optIn.context, actorChain := actorChain }

/-- The caller's bag carries an opt-in that names `ref`. -/
def Call.optsInto (call : Call) (ref : LlmRef) : Bool :=
  ((parseKyokOptIn (bagOf call.bag)).bind KyokOptIn.llmProvider).any fun named => named = ref

namespace Hall

/-- The runs the broker holds whose callers opted into `ref`. -/
def liveOptedInto (h : Hall) (ref : LlmRef) : List String :=
  (h.world.live.map Prod.fst).filter fun runId =>
    h.opened.any fun e => e.1 = runId && e.2.optsInto ref

/-- A run is bound if and only if it is held and its caller opted in, and as it said. -/
structure Follows (h : Hall) : Prop where
  bound : ∀ runId binding, h.bindings.bindingFor runId = some binding ↔
    (h.world.live.get? runId).isSome = true ∧ ∃ run ∈ h.world.runs, ∃ call,
      run.runId = runId ∧ (runId, call) ∈ h.opened ∧
        call.bindingWith run.actorChain = some binding
  counted : ∀ ref, h.bindings.boundRuns ref = (h.liveOptedInto ref).length

/-- `_recover_queued` has bound no run that it has not handed over. -/
def Settled (h : Hall) : Prop := h.recovery.inHand = none

/-! ## The condition -/

/-- Nothing discards the binding of a run that `_recover_queued` has in hand, and no
dispatch that of a run the broker holds. -/
def keepsBindings (h : Hall) : Turn → Bool
  | .doors a =>
      match a, h.committing a with
      | _, some (_, ws) => ws.all fun
        | .markRunStatus runId .failed =>
            (h.world.live.get? runId).isNone && h.recovery.inHand ≠ some runId
        | _ => true
      | .outside (.forget runId), none => h.recovery.inHand ≠ some runId
      | _, none => true
  | _ => true

end Hall

/-! ## The invariant -/

variable {PrivateKey PublicKey : Type} {cfg : Config PrivateKey PublicKey}

/-- The rows `_recover_queued` has still to take back. -/
def Recovery.rows : Recovery → List RunRecord
  | .taking waiting _ => waiting
  | .bound stored waiting _ => stored :: waiting
  | _ => []

/-- What funduq knows of its runs and their callers. -/
structure Kept (w : World) (opened : List (String × Call)) (bindings : Bindings)
    (recovery : Recovery) : Prop where
  callers : List.Forall₂ (fun run e => e.1 = run.runId ∧
    bindingFrom run = e.2.bindingWith run.actorChain) w.runs opened
  known : ∀ runId, (w.live.get? runId).isSome = true → ∃ run ∈ w.runs, run.runId = runId
  rows : ∀ r ∈ recovery.rows, ∃ run ∈ w.runs, Progress r run
  /-- Held or in hand, a run is bound as its row says. -/
  bound : ∀ runId, bindings.get? runId =
    if (w.live.get? runId).isSome = true ∨ recovery.inHand = some runId then
      (w.getRun runId).bind bindingFrom else none
  live : (w.live.map Prod.fst).Nodup
  keys : (bindings.map Prod.fst).Nodup

theorem Bindings.get?_bindIf (bindings : Bindings) (runId : String) (binding : Option KyokBinding)
    (runId' : String) : (bindings.bindIf runId binding).get? runId' =
      if runId = runId' then binding.or (bindings.get? runId') else bindings.get? runId' := by
  cases binding with
  | none =>
      show bindings.get? runId' = _
      split <;> rfl
  | some b => exact Dict.get?_set _ _ _ _

theorem Bindings.nodup_bindIf {bindings : Bindings} (h : (bindings.map Prod.fst).Nodup)
    (runId : String) (binding : Option KyokBinding) :
    ((bindings.bindIf runId binding).map Prod.fst).Nodup := by
  cases binding with
  | none => exact h
  | some b => exact Dict.nodup_set h _ _

/-- A row's binding is in columns that stay as they are. -/
theorem bindingFrom_progress {r r' : RunRecord} (h : Progress r r') :
    bindingFrom r' = bindingFrom r := by
  show bindingFrom (fixed r') = bindingFrom (fixed r)
  rw [h.fixed]

theorem actorChain_progress {r r' : RunRecord} (h : Progress r r') :
    r'.actorChain = r.actorChain := by
  show (fixed r').actorChain = (fixed r).actorChain
  rw [h.fixed]

/-- The opt-in is read past funduq's own key. -/
theorem CallerOf.kyok_bag {bag : Json} {caller : Caller} (h : CallerOf cfg bag caller) :
    caller.kyok = parseKyokOptIn (bagOf bag) := by
  obtain ⟨presenterKey, hverified⟩ := h.verified
  have hprops : caller.props = (bagOf bag).filter fun m => m.1 ≠ observedMetadataKey :=
    (verifyCaller_bag hverified).1
  rw [h.kyok, hprops]
  apply parseKyokOptIn_congr
  rw [Dict.get?_eq_find?, Dict.get?_eq_find?, find?_filter_ne (by decide)]

namespace Kept

variable {w w' : World} {opened : List (String × Call)} {bindings : Bindings} {recovery : Recovery}

theorem still (h : Kept w opened bindings recovery) (hstill : Still w w')
    (hlive : w'.live = w.live) : Kept w' opened bindings recovery := by
  obtain ⟨f, hf, hruns⟩ := hstill.runs
  have hget : ∀ runId, (w'.getRun runId).bind bindingFrom = (w.getRun runId).bind bindingFrom := by
    intro runId
    unfold World.getRun
    rw [hruns, List.find?_map, Option.bind_map]
    congr 1
    · congr 1
      funext r
      show decide ((f r).runId = runId) = _
      rw [(hf r).runId]
    · exact funext fun r => bindingFrom_progress (hf r)
  refine ⟨?_, ?_, ?_, ?_, by rw [hlive]; exact h.live, h.keys⟩
  · rw [hruns, List.forall₂_map_left_iff]
    apply h.callers.imp
    rintro r e ⟨hid, hbinding⟩
    rw [(hf r).runId, bindingFrom_progress (hf r), actorChain_progress (hf r)]
    exact ⟨hid, hbinding⟩
  · intro runId hheld
    rw [hlive] at hheld
    obtain ⟨run, hrun, hid⟩ := h.known runId hheld
    obtain ⟨run', hrun', hp⟩ := hstill.later.mem hrun
    exact ⟨run', hrun', hp.runId.trans hid⟩
  · intro r hr
    obtain ⟨run, hrun, hp⟩ := h.rows r hr
    obtain ⟨run', hrun', hp'⟩ := hstill.later.mem hrun
    exact ⟨run', hrun', hp.trans hp'⟩
  · intro runId
    rw [hget, hlive]
    exact h.bound runId

/-- A run that is not held and not in hand may be discarded. -/
theorem discard (h : Kept w opened bindings recovery) {runId : String}
    (hlive : w.live.get? runId = none) (hhand : recovery.inHand ≠ some runId) :
    Kept w opened (bindings.discard runId) recovery := by
  refine ⟨h.callers, h.known, h.rows, fun id => ?_, h.live, Dict.nodup_pop h.keys runId⟩
  show Dict.get? (bindings.pop runId) id = _
  rw [Dict.get?_pop]
  split
  · rename_i hid
    subst hid
    rw [if_neg]
    rw [hlive]
    simpa using hhand
  · exact h.bound id

/-- The broker forgets a run that is not in hand. -/
theorem forget (h : Kept w opened bindings recovery) {runId : String}
    (hhand : recovery.inHand ≠ some runId) :
    Kept { w with live := w.live.pop runId } opened (bindings.discard runId) recovery := by
  refine ⟨h.callers, fun id hheld => ?_, h.rows, fun id => ?_, Dict.nodup_pop h.live runId,
    Dict.nodup_pop h.keys runId⟩
  · rw [Dict.get?_pop] at hheld
    split at hheld
    · cases hheld
    · exact h.known id hheld
  · show Dict.get? (bindings.pop runId) id = _
    rw [Dict.get?_pop, Dict.get?_pop]
    split
    · rename_i hid
      subst hid
      rw [if_neg]
      simpa using hhand
    · exact h.bound id

/-- The broker holds one run more. -/
theorem known_set (h : Kept w opened bindings recovery) {run : RunRecord} (hrun : run ∈ w.runs)
    {threadId runId : String} (hheld : ((w.live.set run.runId threadId).get? runId).isSome = true) :
    ∃ run ∈ w.runs, run.runId = runId := by
  rw [Dict.get?_set] at hheld
  split at hheld
  · rename_i hid
    exact ⟨run, hrun, hid⟩
  · exact h.known runId hheld

/-- Nothing is held, and nothing bound, when the next process starts. -/
theorem crashed (h : Kept w opened bindings recovery) : Kept (crashed w) opened [] .pending where
  callers := h.callers
  known runId hheld := by cases hheld
  rows r hr := by cases hr
  bound runId := (if_neg (by rintro (hheld | hhand) <;> contradiction)).symm
  live := List.nodup_nil
  keys := List.nodup_nil

variable (hs : Sane w)
include hs

/-- A run on file is handed over, bound as its row says. -/
theorem handOver (h : Kept w opened bindings recovery) {run : RunRecord} (hrun : run ∈ w.runs)
    {d : Dispatched} (hid : d.runId = run.runId) (hbinding : d.binding = bindingFrom run) :
    Kept (w.apply (.enqueueRun d)) opened (bindings.bindIf d.runId d.binding) recovery := by
  rw [World.apply, hid, hbinding]
  refine ⟨h.callers, fun id hheld => h.known_set hrun hheld, h.rows, fun id => ?_,
    Dict.nodup_set h.live _ _, Bindings.nodup_bindIf h.keys _ _⟩
  show Dict.get? _ id = if ((w.live.set run.runId d.threadId).get? id).isSome = true ∨ _ then
    (w.getRun id).bind bindingFrom else none
  rw [Bindings.get?_bindIf, Dict.get?_set]
  split
  · rename_i hid
    subst hid
    rw [if_pos (.inl rfl), h.bound, hs.getRun hrun, Option.bind_some]
    split
    · exact Option.or_self
    · exact Option.or_none
  · exact h.bound id

/-- `_recover_queued` binds the next row. -/
theorem take {stored : RunRecord} {waiting : List RunRecord} {lost : List String}
    (h : Kept w opened bindings (.taking (stored :: waiting) lost)) :
    Kept w opened (bindings.bindIf stored.runId (bindingFrom stored))
      (.bound stored waiting lost) := by
  obtain ⟨run, hrun, hp⟩ := h.rows stored List.mem_cons_self
  refine ⟨h.callers, h.known, h.rows, fun id => ?_, h.live, Bindings.nodup_bindIf h.keys _ _⟩
  have hbound := h.bound id
  simp only [Recovery.inHand, reduceCtorEq, or_false, Option.some.injEq] at hbound ⊢
  rw [Bindings.get?_bindIf, hbound]
  split
  · rename_i hid
    subst hid
    have hhand : (w.live.get? stored.runId).isSome = true ∨ stored.runId = stored.runId := .inr rfl
    rw [if_pos hhand, ← hp.runId, hs.getRun hrun, Option.bind_some, bindingFrom_progress hp]
    split
    · exact Option.or_self
    · exact Option.or_none
  · rename_i hne
    simp [hne]

omit hs in
/-- And hands it over. -/
theorem give {stored : RunRecord} {waiting : List RunRecord} {lost : List String}
    (h : Kept w opened bindings (.bound stored waiting lost)) {d : Dispatched}
    (hid : d.runId = stored.runId) :
    Kept (w.apply (.enqueueRun d)) opened bindings (.taking waiting lost) := by
  obtain ⟨run, hrun, hp⟩ := h.rows stored List.mem_cons_self
  have hrunId : d.runId = run.runId := hid.trans hp.runId.symm
  rw [World.apply, hrunId]
  refine ⟨h.callers, fun id hheld => h.known_set hrun hheld,
    fun r hr => h.rows r (List.mem_cons_of_mem _ hr), fun id => ?_, Dict.nodup_set h.live _ _,
    h.keys⟩
  have hbound := h.bound id
  simp only [Recovery.inHand, reduceCtorEq, or_false, Option.some.injEq] at hbound ⊢
  show _ = if ((w.live.set run.runId d.threadId).get? id).isSome = true then
    (w.getRun id).bind bindingFrom else none
  rw [hbound, Dict.get?_set, hp.runId]
  by_cases hsame : stored.runId = id
  · rw [if_pos (.inr hsame), if_pos hsame]
    rfl
  · simp [hsame]

/-- What happens without the doors. -/
theorem outside (h : Kept w opened bindings recovery) {e : Outside}
    (hforget : ∀ runId, e = .forget runId → recovery.inHand ≠ some runId)
    (hout : outside w e = some w') :
    Kept w' opened (match e with
      | .forget runId => bindings.discard runId
      | _ => bindings) recovery := by
  have hstill := still_outside hs hout
  cases e with
  | forget runId =>
      cases hout
      exact h.forget (hforget runId rfl)
  | record runId write =>
      apply h.still hstill
      simp only [Store.outside] at hout
      split at hout
      · cases hout
        unfold World.recordWrite
        split <;> rfl
      · cases hout
  | _ =>
      cases hout
      exact h.still hstill rfl

/-- A run that is opened is held by nobody yet. -/
theorem opens (hV : cfg.model.Verbatim) (h : Kept w opened bindings recovery) {W : World → Prop}
    {R : List Name → World → World → Prop} {call : Call} {held : List Name} {front : List Write}
    {o : Opened} (ho : Opens cfg W R call held w front o) :
    Kept (db.view w (front ++ o.writes)) (opened ++ [(o.row.runId, call)]) bindings recovery := by
  have hrow : bindingFrom o.row = call.bindingWith o.row.actorChain := by
    obtain ⟨caller, hcaller, -, -, hkyok, -⟩ := ho.inbound.caller
    rw [show bindingFrom o.row = bindingOf o.inbound o.relayed from
      (congrArg Dispatched.binding (ho.takenBack hV)).symm]
    unfold bindingOf Call.bindingWith
    rw [hkyok, hcaller.kyok_bag]
    rfl
  rw [o.view ho.thread.front]
  refine ⟨List.rel_append h.callers (.cons ⟨rfl, hrow⟩ .nil), fun id hheld => ?_, fun r hr => ?_,
    fun id => ?_, h.live, h.keys⟩
  · obtain ⟨run, hrun, hid⟩ := h.known id hheld
    exact ⟨run, List.mem_append_left _ hrun, hid⟩
  · obtain ⟨run, hrun, hp⟩ := h.rows r hr
    exact ⟨run, List.mem_append_left _ hrun, hp⟩
  · rw [h.bound id]
    split
    · rename_i hheld
      -- It is not the run that is opened.
      have hold : ∃ run ∈ w.runs, run.runId = id := by
        rcases hheld with hlive | hhand
        · exact h.known id hlive
        · cases recovery with
          | bound stored waiting lost =>
              cases hhand
              obtain ⟨run, hrun, hp⟩ := h.rows stored List.mem_cons_self
              exact ⟨run, hrun, hp.runId⟩
          | _ => cases hhand
      obtain ⟨run, hrun, rfl⟩ := hold
      congr 1
      unfold World.getRun
      rw [List.find?_append, show w.runs.find? _ = _ from hs.getRun hrun]
      rfl
    · rfl

end Kept

/-- A run that is opened is the one run opened with its writes. -/
theorem openedBy_writes {W : World → Prop} {R : List Name → World → World → Prop} {call : Call}
    {held : List Name} {w : World} {front : List Write} {o : Opened}
    (h : Opens cfg W R call held w front o) (bindings : Bindings) :
    Hall.openedBy call (front ++ o.writes) = [(o.row.runId, call)] ∧
      (front ++ o.writes).foldl Bindings.along bindings = bindings := by
  have hmessages : ∀ messages : List Json, Hall.openedBy call (messages.map fun m =>
      Write.newMessage (messageRow o.threadId o.runId m)) = [] ∧
      (messages.map fun m => Write.newMessage (messageRow o.threadId o.runId m)).foldl
        Bindings.along bindings = bindings := by
    intro messages
    induction messages with
    | nil => exact ⟨rfl, rfl⟩
    | cons m rest ih => exact ih
  have hfront : Hall.openedBy call front = [] ∧ front.foldl Bindings.along bindings = bindings := by
    cases h.thread with
    | existing _ front_eq => rw [front_eq]; exact ⟨rfl, rfl⟩
    | created _ front_eq => rw [front_eq]; exact ⟨rfl, rfl⟩
    | resumed _ front_eq => rw [front_eq]; exact ⟨rfl, rfl⟩
  constructor
  · unfold Hall.openedBy at hfront hmessages ⊢
    rw [List.filterMap_append, hfront.1]
    show _ :: List.filterMap _ (o.messages.map _) = _
    rw [(hmessages o.messages).1]
  · rw [List.foldl_append, hfront.2]
    exact (hmessages o.messages).2

/-! ## Move by move -/

/-- Everything the doors keep to, and the relay with them. -/
structure Hall.Kempt (cfg : Config PrivateKey PublicKey) (h : Hall) : Prop where
  doors : Server.Concurrent db (Good cfg true) Undisturbed
    (fun r => Commits cfg (Good cfg true) Undisturbed r.call) Name.Owned h.doors
  kept : Kept h.world h.opened h.bindings h.recovery

theorem outside_promises : Server.Promises db (program cfg) outside (Good cfg true) Undisturbed
    (fun r => Commits cfg (Good cfg true) Undisturbed r.call) := by
  have hsame : outsideWith true = outside := by
    funext w e
    rfl
  rw [← hsame]
  exact good_promises

theorem good_commits (hV : cfg.model.Verbatim) (r : Request) (held : List Name) (ws : List Write)
    (w : World) (hw : Good cfg true w)
    (h : Commits cfg (Good cfg true) Undisturbed r.call held ws w) :
    Good cfg true (db.view w ws) ∧
      ∀ held', (∀ n, n.Owned → n ∈ held → n ∉ held') → Undisturbed held' w (db.view w ws) :=
  ⟨⟨hw.stored.commit hV (fun _ _ _ h => h) (fun _ h => h.stored.filed.sane) h,
    fun hf => (hw.silent hf).commit (fun _ _ _ h => h) (fun _ h => h.stored.filed.sane) h⟩,
    fun _ hsep => h.undisturbed fun id => hsep _ ⟨id, rfl⟩⟩

namespace Hall

/-- One move of the doors, or of what is outside. -/
theorem takeTurn_cases {h h' : Hall} {a : Move Request Outside} (hstep : h.takeTurn cfg a = some h') :
    (∃ (i : Nat) (t : Txn World Write DoorError Reply Request), h.doors.txns[i]? = some t ∧ t.commits ∧
      h.committing a = some (t.call.call, t.writes) ∧ h'.world = db.view h.world t.writes ∧
      h'.bindings = t.writes.foldl Bindings.along h.bindings ∧
      h'.opened = h.opened ++ openedBy t.call.call t.writes) ∨
    (∃ e, a = .outside e ∧ h.committing a = none ∧ outside h.world e = some h'.world ∧
      h'.opened = h.opened) ∨
    (h'.world = h.world ∧ h'.bindings = h.bindings ∧ h'.opened = h.opened) := by
  obtain ⟨s, hs, rfl⟩ := Option.map_eq_some_iff.1 hstep
  cases a with
  | call c =>
      cases hs
      exact .inr (.inr ⟨rfl, rfl, List.append_nil _⟩)
  | outside e =>
      obtain ⟨w, hw, rfl⟩ := Option.map_eq_some_iff.1 hs
      exact .inr (.inl ⟨e, rfl, rfl, hw, List.append_nil _⟩)
  | advance i id =>
      obtain ⟨t, ht⟩ := Server.getElem?_of_advance hs
      by_cases hcommits : t.commits
      · have hcommitting : h.committing (.advance i id) = some (t.call.call, t.writes) := by
          obtain ⟨call, prog, started, writes, held⟩ := t
          obtain ⟨k, hk⟩ := hcommits
          cases hk
          simp only [committing, ht]
        refine .inl ⟨i, t, ht, hcommits, hcommitting, Server.advance_commits ht hcommits hs, ?_, ?_⟩
        · show h.relayed _ = _
          unfold relayed
          rw [hcommitting]
        · show h.opened ++ (h.committing _).elim [] _ = _
          rw [hcommitting]
          rfl
      · have hnone : h.committing (.advance i id) = none := by
          unfold committing
          simp only [ht]
          split
          · rename_i heq
            cases heq
            exact absurd ⟨_, rfl⟩ hcommits
          · rfl
        obtain ⟨t', hgoes⟩ := Server.advance_goes (fun _ => True) ht hs
        refine .inr (.inr ⟨hgoes.world.resolve_right hcommits, ?_, ?_⟩)
        · show h.relayed _ = _
          unfold relayed
          rw [hnone]
        · show h.opened ++ (h.committing _).elim [] _ = _
          rw [hnone]
          exact List.append_nil _

/-- What is not the doors' doing moves the world as everybody relies on. -/
theorem Kempt.moved {h : Hall} (hk : h.Kempt cfg) {w : World} (hstill : Still h.world w) :
    Server.Concurrent db (Good cfg true) Undisturbed
      (fun r => Commits cfg (Good cfg true) Undisturbed r.call) Name.Owned
      { h.doors with world := w } := by
  apply hk.doors.moved outside_promises
  · exact ⟨hk.doors.inv.stored.still hstill, nofun⟩
  · exact fun held => ⟨hstill.later, fun id _ => hstill.fresh⟩

/-- A commit of a door keeps the relay in step, where it is allowed to. -/
theorem Kempt.commit (hV : cfg.model.Verbatim) {h : Hall} (hk : h.Kempt cfg)
    {t : Txn World Write DoorError Reply Request} {i : Nat} (ht : h.doors.txns[i]? = some t)
    (hcommits : t.commits)
    (hallowed : t.writes.all (fun
      | .markRunStatus runId .failed =>
          (h.world.live.get? runId).isNone && h.recovery.inHand ≠ some runId
      | _ => true) = true) :
    Kept (db.view h.world t.writes) (h.opened ++ openedBy t.call.call t.writes)
      (t.writes.foldl Bindings.along h.bindings) h.recovery := by
  have hpromised := hk.doors.promised ht hcommits
  have hgood := hk.doors.inv
  have hsane := hgood.stored.filed.sane
  obtain ⟨call, prog, started, writes, held⟩ := t
  dsimp only at hpromised hallowed ⊢
  cases hpromised with
  | opens front o ho =>
      obtain ⟨hopened, halong⟩ := openedBy_writes ho h.bindings
      rw [hopened, halong]
      exact hk.kept.opens hsane hV ho
  | enqueues o ho =>
      obtain ⟨w₀, hjust, hr⟩ := ho
      have hopening := hr.later.openings.subset hjust.opening
      obtain ⟨run, hrun, hhanded⟩ := forall₂_right hgood.stored.kept hopening
      have hopened : openedBy call.call [.enqueueRun o.handed] = [] := rfl
      rw [hopened, List.append_nil]
      exact hk.kept.handOver hsane hrun (congrArg Dispatched.runId hhanded)
        (congrArg Dispatched.binding hhanded)
  | fails runId =>
      have hcond := List.all_eq_true.1 hallowed _ List.mem_cons_self
      simp only [Bool.and_eq_true, Option.isNone_iff_eq_none, decide_eq_true_eq] at hcond
      have hopened : openedBy call.call [.markRunStatus runId .failed] = [] := rfl
      rw [hopened, List.append_nil]
      exact (hk.kept.discard hcond.1 hcond.2).still (still_markRunStatus h.world runId .failed) rfl
  | ends o code seq _ =>
      have hopened : openedBy call.call [.appendRunEvent ⟨o.handed.runId, seq,
        Broker.runError code code⟩] = [] := rfl
      rw [hopened, List.append_nil]
      exact hk.kept.still (still_runError h.world o.handed.runId code seq) rfl
  | cancels stored metadata now note _ _ =>
      have hopened : openedBy call.call [.recordCancelRequest note] = [] := rfl
      rw [hopened, List.append_nil]
      exact hk.kept.still (still_cancel h.world note) rfl

/-- A row is read as it was stored, whatever has become of the run. -/
theorem runInputOf_progress {w : World} {r r' : RunRecord} (h : Progress r r') :
    runInputOf cfg.model w r' = runInputOf cfg.model w r := by
  show runInputOf cfg.model w (fixed r') = runInputOf cfg.model w (fixed r)
  rw [h.fixed]

theorem still_closeRun (w : World) (code runId : String) : Still w (closeRun w code runId) := by
  unfold closeRun
  split
  · exact .refl w
  · unfold lastWord
    split
    · rw [List.append_nil]
      exact .refl w
    · exact still_runError w runId code _

/-- `_recover_queued` keeps the relay in step. -/
theorem Kempt.recover (hM : cfg.model.Idempotent) {h h' : Hall} (hk : h.Kempt cfg)
    (hstep : h.recover cfg = some h') : h'.Kempt cfg := by
  obtain ⟨doors, bindings, recovery, opened⟩ := h
  have hgood := hk.doors.inv
  have hsane := hgood.stored.filed.sane
  -- Where only the place moves on, the relay stays.
  have hpass : ∀ next : Recovery, next.inHand = recovery.inHand →
      (∀ r ∈ next.rows, ∃ run ∈ doors.world.runs, Progress r run) →
      Kept doors.world opened bindings next := by
    intro next hhand hrows
    exact ⟨hk.kept.callers, hk.kept.known, hrows, by rw [hhand]; exact hk.kept.bound,
      hk.kept.live, hk.kept.keys⟩
  cases recovery with
  | pending =>
      cases hstep
      refine ⟨hk.doors, hpass (.taking doors.world.queuedRuns []) rfl fun r hr => ?_⟩
      exact ⟨r, (mem_queuedRuns.1 hr).1, .refl r⟩
  | taking waiting lost =>
      cases waiting with
      | nil =>
          cases hstep
          exact ⟨hk.doors, hpass (.closing lost) rfl (List.forall_mem_nil _)⟩
      | cons stored waiting =>
          simp only [Hall.recover] at hstep
          split at hstep
          · cases hstep
            exact ⟨hk.doors, hk.kept.take hsane⟩
          · cases hstep
            have hstill := still_markRunStatus doors.world stored.runId .failed
            refine ⟨hk.moved hstill, Kept.still ?_ hstill rfl⟩
            exact hpass (.taking waiting _) rfl fun r hr =>
              hk.kept.rows r (List.mem_cons_of_mem _ hr)
  | bound stored waiting lost =>
      obtain ⟨run, hrun, hp⟩ := hk.kept.rows stored List.mem_cons_self
      obtain ⟨o, ho, hb⟩ := hsane.opening_of_run hrun
      have hinput : runInputOf cfg.model doors.world stored = .ok o.handed.inputJson := by
        rw [← runInputOf_progress hp]
        exact (hgood.stored.rebuilt hM hrun ho hb.runId).1
      simp only [Hall.recover, Hall.world, hinput] at hstep
      cases hstep
      exact ⟨hk.moved (still_of_same rfl rfl rfl rfl rfl rfl), hk.kept.give rfl⟩
  | closing lost =>
      cases lost with
      | nil =>
          cases hstep
          exact ⟨hk.doors, hpass .done rfl (List.forall_mem_nil _)⟩
      | cons runId lost =>
          cases hstep
          have hstill := still_closeRun doors.world "interjection_target_lost" runId
          refine ⟨hk.moved hstill, Kept.still (hpass (.closing lost) rfl (List.forall_mem_nil _)) hstill ?_⟩
          unfold closeRun
          split <;> rfl
  | done => cases hstep

/-- Every move the condition allows keeps the relay in step. -/
theorem Kempt.step (hM : cfg.model.Idempotent) (hV : cfg.model.Verbatim) {h h' : Hall} {turn : Turn}
    (hk : h.Kempt cfg) (hallowed : h.keepsBindings turn = true) (hstep : h.step cfg turn = some h') :
    h'.Kempt cfg := by
  cases turn with
  | recover => exact hk.recover hM hstep
  | restart =>
      cases hstep
      have hstill : Still h.world (crashed h.world) := still_of_same rfl rfl rfl rfl rfl rfl
      refine ⟨⟨hk.doors.inv.crashed, ?_, ?_⟩, hk.kept.crashed⟩
      · intro i t ht
        cases ht
      · intro i j t u _ ht
        cases ht
  | doors a =>
      have hdoors : Server.Concurrent db (Good cfg true) Undisturbed
          (fun r => Commits cfg (Good cfg true) Undisturbed r.call) Name.Owned h'.doors := by
        obtain ⟨s, hs, rfl⟩ := Option.map_eq_some_iff.1 hstep
        exact (hk.doors.step outside_promises (fun r held ws w hw _ hg =>
          good_commits hV r held ws w hw hg) Server.allowed_any trivial hs).1
      have hrecovery : h'.recovery = h.recovery := by
        obtain ⟨s, hs, rfl⟩ := Option.map_eq_some_iff.1 hstep
        rfl
      refine ⟨hdoors, ?_⟩
      rw [hrecovery]
      rcases takeTurn_cases hstep with ⟨i, t, ht, hcommits, hcommitting, hworld, hbindings, hopened⟩ |
        ⟨e, rfl, hnone, hout, hopened⟩ | ⟨hworld, hbindings, hopened⟩
      · rw [hworld, hbindings, hopened]
        simp only [keepsBindings, hcommitting] at hallowed
        exact hk.commit hV ht hcommits hallowed
      · have hbindings : h'.bindings = h.relayed (.outside e) := by
          obtain ⟨s, hs, rfl⟩ := Option.map_eq_some_iff.1 hstep
          rfl
        rw [hopened, hbindings]
        have hkept := hk.kept.outside hk.doors.inv.stored.filed.sane (fun runId hforget => by
          subst hforget
          simpa [keepsBindings, committing] using hallowed) hout
        cases e <;> exact hkept
      · rw [hworld, hbindings, hopened]
        exact hk.kept

end Hall

/-! ## What comes of it -/

theorem Call.optsInto_iff {call : Call} {ref : LlmRef} (actorChain : Option (List String)) :
    call.optsInto ref = true ↔
      ∃ binding, call.bindingWith actorChain = some binding ∧ binding.llmProvider = ref := by
  unfold optsInto bindingWith
  cases parseKyokOptIn (bagOf call.bag) with
  | none => simp
  | some optIn => cases hnamed : optIn.llmProvider <;> simp [hnamed]

/-- One entry a key: a key that is there has one value. -/
theorem mem_keys_filter {bindings : Bindings} (hkeys : (bindings.map Prod.fst).Nodup)
    {ref : LlmRef} {runId : String} :
    runId ∈ (bindings.filter fun e => e.2.llmProvider = ref).map Prod.fst ↔
      ∃ binding, bindings.get? runId = some binding ∧ binding.llmProvider = ref := by
  constructor
  · intro hmem
    obtain ⟨⟨id, binding⟩, he, rfl⟩ := List.mem_map.1 hmem
    obtain ⟨he, href⟩ := List.mem_filter.1 he
    exact ⟨binding, Dict.get?_of_mem hkeys he, by simpa using href⟩
  · rintro ⟨binding, hget, href⟩
    exact List.mem_map.2 ⟨(runId, binding),
      List.mem_filter.2 ⟨Dict.mem_of_get? hget, by simpa using href⟩, rfl⟩

section Settled

variable {h : Hall} (hs : Sane h.world) (hk : Kept h.world h.opened h.bindings h.recovery)
  (hsettled : h.Settled)
include hs hk hsettled

theorem Kept.bindingFor_iff (runId : String) (binding : KyokBinding) :
    h.bindings.bindingFor runId = some binding ↔
      (h.world.live.get? runId).isSome = true ∧ ∃ run ∈ h.world.runs, ∃ call,
        run.runId = runId ∧ (runId, call) ∈ h.opened ∧
          call.bindingWith run.actorChain = some binding := by
  have hbound : h.bindings.bindingFor runId = if (h.world.live.get? runId).isSome = true then
      (h.world.getRun runId).bind bindingFrom else none := by
    have hheld := hk.bound runId
    rw [show h.recovery.inHand = none from hsettled] at hheld
    simpa [Bindings.bindingFor] using hheld
  rw [hbound]
  constructor
  · intro hsome
    split at hsome
    · rename_i hlive
      obtain ⟨run, hrun, hbinding⟩ := Option.bind_eq_some_iff.1 hsome
      have hid : run.runId = runId := by simpa using List.find?_some hrun
      have hmem := List.mem_of_find?_eq_some hrun
      obtain ⟨⟨id, call⟩, he, hid', hcall⟩ := forall₂_right hk.callers.flip hmem
      cases hid'.trans hid
      exact ⟨hlive, run, hmem, call, hid, he, hcall.symm.trans hbinding⟩
    · cases hsome
  · rintro ⟨hlive, run, hrun, call, rfl, he, hbinding⟩
    obtain ⟨run', hrun', hid, hcall⟩ := forall₂_right hk.callers he
    cases List.inj_on_of_nodup_map hs.runIds hrun hrun' hid
    rw [if_pos hlive, hs.getRun hrun, Option.bind_some, hcall, hbinding]

theorem Kept.follows : h.Follows where
  bound := hk.bindingFor_iff hs hsettled
  counted ref := by
    unfold Hall.liveOptedInto
    rw [show h.bindings.boundRuns ref = ((h.bindings.filter fun e => e.2.llmProvider = ref).map
      Prod.fst).length from (List.length_map _).symm]
    apply List.Perm.length_eq
    rw [List.perm_ext_iff_of_nodup (hk.keys.sublist (List.filter_sublist.map Prod.fst))
      (hk.live.filter _)]
    intro runId
    rw [mem_keys_filter hk.keys, List.mem_filter, Dict.mem_keys_iff,
      List.any_eq_true]
    constructor
    · rintro ⟨binding, hget, href⟩
      obtain ⟨hlive, run, -, call, rfl, he, hbinding⟩ :=
        (hk.bindingFor_iff hs hsettled runId binding).1 hget
      refine ⟨hlive, _, he, ?_⟩
      simpa using (Call.optsInto_iff run.actorChain).2 ⟨binding, hbinding, href⟩
    · rintro ⟨hlive, ⟨id, call⟩, he, hopted⟩
      simp only [Bool.and_eq_true, decide_eq_true_eq] at hopted
      obtain ⟨rfl, hopted⟩ := hopted
      obtain ⟨run, hrun, hid, -⟩ := forall₂_right hk.callers he
      obtain ⟨binding, hbinding, href⟩ := (Call.optsInto_iff run.actorChain).1 hopted
      exact ⟨binding, (hk.bindingFor_iff hs hsettled id binding).2
        ⟨hlive, run, hrun, call, hid.symm, he, hbinding⟩, href⟩

end Settled

/-- **Main result.**  Where nothing is discarded of a run that `_recover_queued` has in
hand, and no dispatch fails of a run the broker holds, bindings follow their runs. -/
theorem bindings_follow_runs (hM : cfg.model.Idempotent) (hV : cfg.model.Verbatim) {h : Hall}
    (hs : (hallSystem cfg).ReachableBy (fun h turn => h.keepsBindings turn = true) h)
    (hsettled : h.Settled) : h.Follows := by
  have hk : h.Kempt cfg := by
    apply hs.invariant
    · rintro h ⟨hempty, htxns, hbindings, hrecovery, hopened⟩
      refine ⟨⟨hempty.good, ?_, ?_⟩, ?_⟩
      · intro i t ht
        rw [htxns] at ht
        cases ht
      · intro i j t u _ ht
        rw [htxns] at ht
        cases ht
      · have hlive : h.world.live = [] := hempty.live
        refine ⟨?_, ?_, ?_, ?_, ?_, ?_⟩
        · rw [hopened, hempty.runs]
          exact .nil
        · rw [hlive]
          intro runId hheld
          cases hheld
        · rw [hrecovery]
          exact List.forall_mem_nil _
        · rw [hbindings, hlive, hrecovery]
          intro runId
          rfl
        · rw [hlive]
          exact List.nodup_nil
        · rw [hbindings]
          exact List.nodup_nil
    · intro h turn h' _ hk hallowed hstep
      exact hk.step hM hV hallowed hstep
  exact hk.kept.follows hk.doors.inv.stored.filed.sane hsettled

namespace Demo

/-- An LLM offering, and the bag of a caller that opts into it. -/
def offering : LlmRef := ⟨"llm", "model"⟩

def optingIn : Dict String Json := [("forwardedProps", .obj [("kyok", .obj [("llmProvider",
  .obj [("providerKey", .str "llm"), ("name", .str "model")]), ("context", .str "mine")])])]

/-- What happens from a fresh process on that knows the offering. -/
def hallAfter (turns : List Turn) : Hall :=
  (hallSystem config).runFrom { doors := start }
    (.doors (.outside (.registerLlmProvider offering)) :: turns)

theorem hallAfter_reachable (turns : List Turn) :
    (hallSystem config).Reachable (hallAfter turns) :=
  System.Reachable.runFrom (.init hall_init) _

/-- A run is called for; its row is committed with the last of these statements. -/
def opening : List Turn := .doors (calls (.startRun agent (saying "m0" optingIn) none none)) ::
  (advances 0 ["", "t", "", "", "", "r0", "", "", "", ""]).map .doors

/-- The rest of the door's statements, where somebody serves the agent or nobody does. -/
def dispatching (statements : Nat) : List Turn :=
  (advances 0 (List.replicate statements "")).map .doors

def recovering (steps : Nat) : List Turn := List.replicate steps .recover

/-- The run is dispatched; the process is gone, and the next one takes it back. -/
def takenOver : List Turn :=
  recovering 3 ++ opening ++ dispatching 4 ++ [.restart] ++ recovering 5

/-- While `start` reads the rows a door has a run to dispatch whose agent nobody
serves. -/
def dispatchedUnserved : List Turn :=
  .doors (.outside (.unserve agent)) :: opening ++ recovering 3 ++ dispatching 6 ++ recovering 2

/-- A run ends while `_recover_queued` reads its input. -/
def handedTwice : List Turn :=
  opening ++ dispatching 4 ++ recovering 2 ++
  ([.record "r0" { status := some .offering }, .record "r0" { status := some .running },
    .record "r0" { status := some .completed }, .forget "r0"].map fun e => .doors (.outside e)) ++
  recovering 3

end Demo

/-- Over a restart the run is bound as before. -/
theorem bindings_follow_runs_taken_over :
    (hallSystem Demo.config).ReachableBy (fun h turn => h.keepsBindings turn = true)
        (Demo.hallAfter Demo.takenOver) ∧
      (Demo.hallAfter Demo.takenOver).bindings.boundRuns Demo.offering = 1 ∧
      (Demo.hallAfter Demo.takenOver).Follows := by
  have hreach : (hallSystem Demo.config).ReachableBy
      (fun h turn => h.keepsBindings turn = true) (Demo.hallAfter Demo.takenOver) :=
    System.ReachableBy.runFrom (fun _ _ h => h) (.init Demo.hall_init) (by decide +kernel)
  refine ⟨hreach, by decide +kernel, ?_⟩
  exact bindings_follow_runs Demo.model_idempotent Demo.model_verbatim hreach
    (show (Demo.hallAfter Demo.takenOver).recovery.inHand = none by decide +kernel)

/-- A run that the broker holds, and whose caller opted in, is not bound: a door's
dispatch failed of it, or it ended between its binding and its second hand-over. -/
theorem bindings_lose_runs :
    ((hallSystem Demo.config).Reachable (Demo.hallAfter Demo.dispatchedUnserved) ∧
      (Demo.hallAfter Demo.dispatchedUnserved).Settled ∧
      ¬ (Demo.hallAfter Demo.dispatchedUnserved).Follows) ∧
    (hallSystem Demo.config).Reachable (Demo.hallAfter Demo.handedTwice) ∧
      (Demo.hallAfter Demo.handedTwice).Settled ∧
      ¬ (Demo.hallAfter Demo.handedTwice).Follows := by
  have hunserved : (Demo.hallAfter Demo.dispatchedUnserved).recovery.inHand = none ∧
      (Demo.hallAfter Demo.dispatchedUnserved).bindings.boundRuns Demo.offering ≠
        ((Demo.hallAfter Demo.dispatchedUnserved).liveOptedInto Demo.offering).length := by
    decide +kernel
  have htwice : (Demo.hallAfter Demo.handedTwice).recovery.inHand = none ∧
      (Demo.hallAfter Demo.handedTwice).bindings.boundRuns Demo.offering ≠
        ((Demo.hallAfter Demo.handedTwice).liveOptedInto Demo.offering).length := by
    decide +kernel
  exact ⟨⟨Demo.hallAfter_reachable _, hunserved.1, fun h => hunserved.2 (h.counted _)⟩,
    Demo.hallAfter_reachable _, htwice.1, fun h => htwice.2 (h.counted _)⟩

end Funduq.Doors
