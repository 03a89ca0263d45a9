import Funduq.Doors.OneAnswer
import Funduq.Doors.TaskCancel
import Funduq.Lib.Chains

/-!
# The lineages of a thread

Three functions walk the links from run to run.  `root_of` goes up until the parent
is missing, `lineage` goes down by the newest child, and `root_runs_in_thread` asks for
the runs without a parent.  They agree as long as every run that names a parent names
one of its own thread that nobody else names: then the runs of a thread fall into the
lineages of its roots.

An answer names such a run.  A caller that starts a run may name any.
-/

namespace Funduq.Doors

open Funduq.Lib Funduq.Store Funduq.Contract
open Funduq.Broker (AgentRef Status)

/-- How runs name each other. -/
def naming : Naming RunRecord String String where
  id := RunRecord.runId
  parent := RunRecord.parentRunId
  group := RunRecord.threadId

/-- `lineage` lists `runs`. -/
def Lists (w : World) (runId : String) (runs : List RunRecord) : Prop :=
  ∃ questions, (lineage questions runId).peek w = some (.ok runs)

/-- It lists one thing, however often one may ask. -/
theorem Lists.unique {w : World} {runId : String} {runs runs' : List RunRecord}
    (h : Lists w runId runs) (h' : Lists w runId runs') : runs = runs' := by
  obtain ⟨n, hn⟩ := h
  obtain ⟨m, hm⟩ := h'
  rw [peek_lineage] at hn hm
  cases hrun : w.getRun runId with
  | none =>
      rw [hrun] at hn hm
      cases hn
      cases hm
      rfl
  | some run =>
      rw [hrun] at hn hm
      exact (Lineage.of_peek hn).unique (Lineage.of_peek hm)

/-- `run` descends from `ancestor` by `parentRunId`. -/
def DescendsFrom (w : World) : RunRecord → RunRecord → Prop :=
  Relation.ReflTransGen fun a b => b ∈ w.runs ∧ b.parentRunId = some a.runId

/-- Every run stands after the one it names, where that is listed. -/
def ParentsFirst (runs : List RunRecord) : Prop :=
  ∀ front run back, runs = front ++ run :: back →
    ∀ parent ∈ runs, run.parentRunId = some parent.runId → parent ∈ front

/-- The lineages of its roots partition the thread. -/
structure Partitioned (w : World) (threadId : String) : Prop where
  /-- Each run is listed by the lineage of one root only, which is its `root_of`. -/
  rooted : ∀ run ∈ w.runsOf threadId, ∃ root ∈ w.rootRunsInThread threadId,
    IsRoot w run root.runId ∧ (∃ runs, Lists w root.runId runs ∧ run ∈ runs) ∧
      ∀ other ∈ w.rootRunsInThread threadId, ∀ runs, Lists w other.runId runs →
        run ∈ runs → other = root
  /-- It lists a run once, after its parent, and runs of the thread only. -/
  listed : ∀ root ∈ w.rootRunsInThread threadId, ∃ runs, Lists w root.runId runs ∧
    (runs.map RunRecord.runId).Nodup ∧ ParentsFirst runs ∧ ∀ run ∈ runs, run ∈ w.runsOf threadId
  /-- From any run on it lists all that descend from it. -/
  descending : ∀ run ∈ w.runsOf threadId, ∃ runs, Lists w run.runId runs ∧
    ∀ other, other ∈ runs ↔ DescendsFrom w run other

/-! ## Chains of runs -/

/-- The runs of a sane world fall into chains. -/
structure Forest (w : World) : Prop where
  sane : Sane w
  chained : naming.Chained w.runs

theorem mem_runsOf {w : World} {threadId : String} {run : RunRecord} :
    run ∈ w.runsOf threadId ↔ run ∈ w.runs ∧ run.threadId = threadId := by
  simp [World.runsOf]

theorem mem_rootRunsInThread {w : World} {threadId : String} {run : RunRecord} :
    run ∈ w.rootRunsInThread threadId ↔
      run ∈ w.runs ∧ run.threadId = threadId ∧ run.parentRunId = none := by
  simp [World.rootRunsInThread, mem_runsOf, and_assoc]

namespace Forest

variable {w : World} (h : Forest w)
include h

theorem childOf_eq_some {run child : RunRecord} :
    w.childOf run.runId = some child ↔ naming.Child w.runs run child := by
  have hchild : ∀ {c}, w.childOf run.runId = some c → naming.Child w.runs run c := by
    intro c hc
    have hmem := RunRecord.mem_of_newest hc
    rw [List.mem_filter] at hmem
    exact ⟨hmem.1, by simpa [naming] using hmem.2⟩
  refine ⟨hchild, fun hnamed => ?_⟩
  cases hc : w.childOf run.runId with
  | none => exact absurd hnamed.2 (Doors.childOf_eq_none.1 hc child hnamed.1)
  | some c => rw [h.chained.child_unique (hchild hc) hnamed]

omit h in
theorem childOf_eq_none {run : RunRecord} :
    w.childOf run.runId = none ↔ ∀ child, ¬ naming.Child w.runs run child := by
  rw [Doors.childOf_eq_none]
  exact ⟨fun hnone c hc => hnone c hc.1 hc.2, fun hnone c hc hparent => hnone c ⟨hc, hparent⟩⟩

/-- A lineage is a chain. -/
theorem lineage_iff {run : RunRecord} {runs : List RunRecord} :
    Lineage w run runs ↔ naming.Down w.runs run runs := by
  constructor
  · intro hl
    induction hl with
    | last hlast => exact .last (childOf_eq_none.1 hlast)
    | answered hchild _ ih => exact .step (h.childOf_eq_some.1 hchild) ih
  · intro hd
    induction hd with
    | last hnone => exact .last (childOf_eq_none.2 hnone)
    | step hchild _ ih => exact .answered (h.childOf_eq_some.2 hchild) ih

/-- What `lineage` lists is the chain from the run on. -/
theorem lists_iff {run : RunRecord} (hrun : run ∈ w.runs) {runs : List RunRecord} :
    Lists w run.runId runs ↔ naming.Down w.runs run runs := by
  rw [← h.lineage_iff]
  constructor
  · rintro ⟨n, hn⟩
    rw [peek_lineage, h.sane.getRun hrun] at hn
    exact Lineage.of_peek hn
  · intro hl
    refine ⟨runs.length, ?_⟩
    rw [peek_lineage, h.sane.getRun hrun, Option.elim_some]
    exact hl.peek_collectLineage (Nat.le_refl _)

/-- `root_of` goes up a chain to its first. -/
theorem isRoot {root run : RunRecord} (hroot : root ∈ w.runs) (hnone : root.parentRunId = none)
    (hd : Relation.ReflTransGen (naming.Child w.runs) root run) : IsRoot w run root.runId := by
  have hall : run ∈ w.runs ∧ IsRoot w run root.runId := by
    induction hd with
    | refl =>
        refine ⟨hroot, 1, ?_⟩
        rw [peek_rootOf_succ, hnone]
        rfl
    | @tail parent child _ hchild ih =>
        obtain ⟨hmem, n, hn⟩ := ih
        have hparent : child.parentRunId = some parent.runId := hchild.2
        refine ⟨hchild.1, n + 1, ?_⟩
        rw [peek_rootOf_succ, hparent, Option.bind_some, h.sane.getRun hmem]
        exact hn
  exact hall.2

theorem partitioned (threadId : String) : Partitioned w threadId where
  rooted run hrun := by
    obtain ⟨hmem, hthread⟩ := mem_runsOf.1 hrun
    obtain ⟨root, hroot, hnone, hgroup, hdesc⟩ := h.chained.root_exists hmem
    obtain ⟨runs, hruns⟩ := h.chained.down_exists hroot
    refine ⟨root, mem_rootRunsInThread.2 ⟨hroot, hgroup.trans hthread, hnone⟩,
      h.isRoot hroot hnone hdesc, ⟨runs, (h.lists_iff hroot).2 hruns,
        (h.chained.mem_down_iff hruns).2 hdesc⟩, fun other hother runs' hlists hin => ?_⟩
    obtain ⟨hother, -, hnone'⟩ := mem_rootRunsInThread.1 hother
    have hdesc' := ((h.lists_iff hother).1 hlists).descends run hin
    exact h.chained.root_unique hother hnone' hroot hnone hdesc' hdesc
  listed root hroot := by
    obtain ⟨hroot, hthread, -⟩ := mem_rootRunsInThread.1 hroot
    obtain ⟨runs, hruns⟩ := h.chained.down_exists hroot
    refine ⟨runs, (h.lists_iff hroot).2 hruns, h.chained.down_nodup hruns, ?_, ?_⟩
    · intro front run back hsplit parent hparent hnames
      exact h.chained.down_parent_first hruns hroot hsplit hparent hnames
    · intro run hrun
      exact mem_runsOf.2 ⟨hruns.mem hroot run hrun,
        (h.chained.down_group hruns hroot run hrun).trans hthread⟩
  descending run hrun := by
    obtain ⟨hmem, -⟩ := mem_runsOf.1 hrun
    obtain ⟨runs, hruns⟩ := h.chained.down_exists hmem
    exact ⟨runs, (h.lists_iff hmem).2 hruns, fun _ => h.chained.mem_down_iff hruns⟩

end Forest

/-! ## The condition -/

/-- A run that is opened names no parent, or a run of its thread that nobody names. -/
def keepsForest (_ : Request) (ws : List Write) (w : World) : Bool :=
  ws.all fun
    | .newRun row _ => row.parentRunId.all fun parentId =>
        (w.getRun parentId).any (fun parent => parent.threadId = row.threadId) &&
          (w.childOf parentId).isNone
    | _ => true

/-- Where nothing is opened the runs name each other as before. -/
theorem Forest.still {w w' : World} (hw : Forest w) (h : Still w w') : Forest w' := by
  refine ⟨h.sane hw.sane, ?_⟩
  obtain ⟨f, hprogress, hruns⟩ := h.runs
  rw [hruns]
  apply hw.chained.map
  · intro r
    exact (hprogress r).runId
  · intro r
    exact (hprogress r).parentRunId
  · intro r
    exact (hprogress r).threadId

section Commit

variable {PrivateKey PublicKey : Type} {cfg : Config PrivateKey PublicKey}

/-- One more run, that has no parent or continues a chain. -/
theorem forest_commit {r : Request} {held : List Name} {ws : List Write} {w : World}
    (hw : Forest w) (hkeeps : keepsForest r ws w = true)
    (h : Commits cfg Forest Undisturbed r.call held ws w) : Forest (db.view w ws) := by
  have hU : ∀ H a b, Undisturbed H a b → Undisturbed H a b := fun _ _ _ hg => hg
  have hs' := h.sane hU (fun _ hf => hf.sane) hw.sane
  rcases h.cases with ⟨front, o, rfl, hopens⟩ | hstill
  · refine ⟨hs', ?_⟩
    have hnew := (hopens.fresh_runId hU).2
    have hcond := List.all_eq_true.1 hkeeps (.newRun o.row o.opening)
      (List.mem_append_right _ List.mem_cons_self)
    rw [o.view hopens.thread.front]
    apply hw.chained.concat
    · intro b hb hid
      exact hnew b hb (hid.trans hopens.runId_eq)
    · intro p hp
      have hparent : o.row.parentRunId = some p := hp
      simp only [hparent, Option.all_some, Bool.and_eq_true, Option.isNone_iff_eq_none] at hcond
      obtain ⟨hthere, hnobody⟩ := hcond
      obtain ⟨b, hb, hthread⟩ := (Option.any_eq_true _ _).1 hthere
      refine ⟨⟨b, List.mem_of_find?_eq_some hb, ?_, by simpa [naming] using hthread⟩,
        fun c hc hnames => ?_⟩
      · simpa [naming] using List.find?_some hb
      · exact Doors.childOf_eq_none.1 hnobody c hc hnames
  · exact hw.still hstill

/-- **Rule.**  What holds where nothing has been opened, where nothing more is, and after
every commit the condition admits, holds of every world that is reached under it. -/
theorem kept_of_reachableBy {P : World → Prop} {p : Request → List Write → World → Bool}
    (hsane : ∀ w, P w → Sane w) (hempty : ∀ w, Empty w → P w)
    (hstill : ∀ w w', P w → Still w w' → P w')
    (hcommit : ∀ r held ws w, P w → p r ws w = true →
      Commits cfg P Undisturbed r.call held ws w → P (db.view w ws))
    {s : Process} (hs : (system cfg Empty).ReachableBy (fun s a => s.commitsAs p a = true) s) :
    P s.world := by
  have hpromises : Server.Promises db (program cfg) outside P Undisturbed
      (fun r => Commits cfg P Undisturbed r.call) :=
    { refl := undisturbed_steady.refl
      trans := undisturbed_steady.trans
      outside := fun w e w' hw h => by
        have hstill' := (quiet_outside (hsane w hw) h).still
        exact ⟨hstill w w' hw hstill', fun held => ⟨hstill'.later, fun id _ => hstill'.fresh⟩⟩
      program := fun r w => wp_program undisturbed_steady r w }
  have hinv := Server.invariant_of_concurrent
    hpromises
    (fun r held ws w hw hp hg => ⟨hcommit r held ws w hw hp hg, fun held' hsep =>
      hg.undisturbed fun id hid => hsep _ ⟨id, rfl⟩ hid⟩)
    (Server.allowed_commitsAs p) hempty hs
  exact hinv.inv

/-- The runs of every world that is reached so fall into chains. -/
theorem forest_of_reachable {s : Process}
    (hs : (system cfg Empty).ReachableBy (fun s a => s.commitsAs keepsForest a = true) s) :
    Forest s.world := by
  apply kept_of_reachableBy
    (fun w hw => hw.sane)
    (fun w hw => ⟨hw.sane, by rw [hw.runs]; exact .nil⟩)
    (fun w w' hw hstill => hw.still hstill)
    (fun r held ws w hw hkeeps hg => forest_commit hw hkeeps hg) hs

/-- **Main result.**  Where every run that is opened names no parent or the last run of
a lineage of its thread, lineages partition every thread. -/
theorem lineages_partition {s : Process}
    (hs : (system cfg Empty).ReachableBy (fun s a => s.commitsAs keepsForest a = true) s)
    (threadId : String) : Partitioned s.world threadId := by
  have hforest := forest_of_reachable hs
  exact hforest.partitioned threadId

end Commit

namespace Demo

/-- A caller names a run that funduq does not know. -/
def orphaned : List (Move Request Outside) :=
  [calls (.startRun agent (saying "m0" [("parentRunId", .str "elsewhere")]) none none)] ++
  advances 0 ["t", "", "", "", "r0", "", "", "", "", "", "", "", ""]

/-- Two runs name the same one. -/
def forked : List (Move Request Outside) :=
  paused ++ [calls (.startRun agent (saying "m1" [("parentRunId", .str "r0")]) (some "t") none)] ++
  advances 1 ["", "", "", "r1", "", "", "", "", "", "", ""] ++
  [calls (.startRun agent (saying "m2" [("parentRunId", .str "r0")]) (some "t") none)] ++
  advances 2 ["", "", "", "r2", "", "", "", "", "", "", ""]

end Demo

/-- A run asks and is answered: one lineage of two runs. -/
theorem lineages_partition_answered :
    (system Demo.config Empty).ReachableBy (fun s a => s.commitsAs keepsForest a = true)
        (Demo.after Demo.answeredOnce) ∧
      (Demo.after Demo.answeredOnce).world.runs.map RunRecord.parentRunId = [none, some "r0"] ∧
      Partitioned (Demo.after Demo.answeredOnce).world "t" := by
  have hreach : (system Demo.config Empty).ReachableBy
      (fun s a => s.commitsAs keepsForest a = true) (Demo.after Demo.answeredOnce) :=
    System.ReachableBy.runFrom (fun _ _ h => h) (.init Demo.start_init) (by decide +kernel)
  exact ⟨hreach, by decide +kernel, lineages_partition hreach "t"⟩

/-- A run whose parent is unknown is its own `root_of` and no root of its thread; of two
runs with one parent the lineage lists one. -/
theorem lineages_miss_runs :
    ((system Demo.config Empty).Reachable (Demo.after Demo.orphaned) ∧
      ¬ Partitioned (Demo.after Demo.orphaned).world "t") ∧
    (system Demo.config Empty).Reachable (Demo.after Demo.forked) ∧
      ¬ Partitioned (Demo.after Demo.forked).world "t" := by
  refine ⟨⟨Demo.after_reachable _, fun hp => ?_⟩, Demo.after_reachable _, fun hp => ?_⟩
  · have hnone : (Demo.after Demo.orphaned).world.runsOf "t" ≠ [] ∧
        ((Demo.after Demo.orphaned).world.rootRunsInThread "t").isEmpty = true := by
      refine ⟨?_, by decide +kernel⟩
      rw [← List.isEmpty_eq_false_iff]
      decide +kernel
    obtain ⟨run, hrun⟩ := List.exists_mem_of_ne_nil _ hnone.1
    obtain ⟨root, hroot, -⟩ := hp.rooted run hrun
    rw [List.isEmpty_iff.1 hnone.2] at hroot
    cases hroot
  · have hlist : ((lineage 3 "r0").peek (Demo.after Demo.forked).world).map
        (fun listed => listed.toOption.map (List.map RunRecord.runId)) =
          some (some ["r0", "r2"]) := by
      decide +kernel
    have hruns : (∃ run ∈ (Demo.after Demo.forked).world.runsOf "t", run.runId = "r1") ∧
        ∀ root ∈ (Demo.after Demo.forked).world.rootRunsInThread "t", root.runId = "r0" := by
      decide +kernel
    obtain ⟨⟨run, hrun, hid⟩, honly⟩ := hruns
    obtain ⟨root, hroot, -, ⟨runs, hlists, hin⟩, -⟩ := hp.rooted run hrun
    rw [honly root hroot] at hlists
    -- The lineage of the one root goes on with the newer of the two.
    obtain ⟨listed, hpeek, hids⟩ := Option.map_eq_some_iff.1 hlist
    cases listed with
    | error _ => cases hids
    | ok listed =>
        cases hlists.unique ⟨3, hpeek⟩
        have hids' : runs.map RunRecord.runId = ["r0", "r2"] := Option.some.inj hids
        have hmem := List.mem_map_of_mem (f := RunRecord.runId) hin
        rw [hids', hid] at hmem
        exact absurd hmem (by decide)

end Funduq.Doors
