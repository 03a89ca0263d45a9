import Funduq.Doors.Partition
import Funduq.Lib.Trees

/-!
# The tree of a thread

A thread may name another one as its parent: a message that refers to a task opens its
thread under that task's.  `get_thread_tree` asks for the children of a thread, for theirs,
and so on.  The database holds a thread's parent to be there, so a thread comes after its
parent, and the asking comes to an end.
-/

namespace Funduq.Doors

open Funduq.Lib Funduq.Store Funduq.Contract
open Funduq.Broker (AgentRef)

/-! ## The read -/

/-- What a tree tells of a thread. -/
structure ThreadNode where
  threadId : String
  agent : AgentRef
  deriving DecidableEq

def nodeOf (row : ThreadRow) : ThreadNode where
  threadId := row.threadId
  agent := row.agent

/-- `get_thread_children`. -/
def getThreadChildren (w : World) (threadId : String) : List ThreadRow :=
  w.threads.filter fun t => t.parentThreadId = some threadId

/-- One read after the other. -/
def each {α β : Type} (read : α → Door β) : List α → Door (List β)
  | [] => return []
  | a :: as => do
      let b ← read a
      let bs ← each read as
      return b :: bs

/-- The `build` of `get_thread_tree`. -/
def buildChildren : Nat → String → Door (List (RoseTree ThreadNode))
  | 0, _ => Prog.raise .stillLooping
  | n + 1, nodeThreadId => do
      let children ← Prog.select fun w => getThreadChildren w nodeThreadId
      each (fun child => do
        let below ← buildChildren n child.threadId
        return .node (nodeOf child) below) children

/-- `Funduq.get_thread_tree`. -/
def getThreadTree (questions : Nat) (threadId : String) : Door (Option (RoseTree ThreadNode)) := do
  match ← Prog.select fun w => w.getThread threadId with
  | none => return none
  | some root =>
      let children ← buildChildren questions threadId
      return some (.node (nodeOf root) children)

/-! ## What a read comes to -/

/-- How threads name each other. -/
def threadNaming : Naming ThreadRow String Unit where
  id := ThreadRow.threadId
  parent := ThreadRow.parentThreadId
  group _ := ()

theorem getThreadChildren_eq (w : World) (row : ThreadRow) :
    getThreadChildren w row.threadId = threadNaming.childrenOf w.threads row := rfl

theorem peek_each {α β : Type} {w : World} {read : α → Door β} {f : α → β} {as : List α}
    (h : ∀ a ∈ as, (read a).peek w = some (.ok (f a))) :
    (each read as).peek w = some (.ok (as.map f)) := by
  induction as with
  | nil => rfl
  | cons a as ih =>
      unfold each
      rw [Prog.peek_bind, h a List.mem_cons_self]
      show (each read as >>= fun bs => pure (f a :: bs)).peek w = _
      rw [Prog.peek_bind, ih fun b hb => h b (List.mem_cons_of_mem _ hb)]
      rfl

theorem peek_buildChildren {w : World} {rank : String → Nat}
    (hrank : threadNaming.Ranks w.threads rank) {n : Nat} {row : ThreadRow}
    (hn : w.threads.length ≤ n + 1 + rank row.threadId) :
    (buildChildren (n + 1) row.threadId).peek w =
      some (.ok ((threadNaming.childrenOf w.threads row).map
        (threadNaming.grow nodeOf w.threads n))) := by
  induction n generalizing row with
  | zero =>
      have hend : w.threads.length ≤ 1 + rank row.threadId := by omega
      have hnone := hrank.childrenOf_eq_nil hend
      unfold buildChildren
      show (each _ (getThreadChildren w row.threadId)).peek w = _
      rw [getThreadChildren_eq, hnone]
      rfl
  | succ n ih =>
      unfold buildChildren
      show (each _ (getThreadChildren w row.threadId)).peek w = _
      rw [getThreadChildren_eq]
      refine peek_each fun child hchild => ?_
      have hlt : rank row.threadId < rank child.threadId :=
        hrank.child_lt (threadNaming.mem_childrenOf.1 hchild)
      rw [Prog.peek_bind, ih (by omega)]
      rfl

/-! ## The tree -/

/-- A thread and what is below it, each with its children under it. -/
inductive Nested (w : World) : RoseTree ThreadNode → Prop where
  | node {item : ThreadNode} {children : List (RoseTree ThreadNode)}
      (here : children.map RoseTree.item = (getThreadChildren w item.threadId).map nodeOf)
      (below : ∀ child ∈ children, Nested w child) : Nested w (.node item children)

theorem nested_grow {w : World} {rank : String → Nat}
    (hrank : threadNaming.Ranks w.threads rank) {n : Nat} {row : ThreadRow}
    (hn : w.threads.length ≤ n + 1 + rank row.threadId) :
    Nested w (threadNaming.grow nodeOf w.threads n row) := by
  induction n generalizing row with
  | zero =>
      have hend : w.threads.length ≤ 1 + rank row.threadId := by omega
      have hnone := hrank.childrenOf_eq_nil hend
      refine .node ?_ fun child hchild => absurd hchild List.not_mem_nil
      show [] = (getThreadChildren w row.threadId).map nodeOf
      rw [getThreadChildren_eq, hnone]
      rfl
  | succ n ih =>
      refine .node ?_ fun child hchild => ?_
      · show ((threadNaming.childrenOf w.threads row).map _).map RoseTree.item = _
        rw [List.map_map, ← getThreadChildren_eq]
        exact List.map_congr_left fun child _ => threadNaming.item_grow nodeOf w.threads n child
      · obtain ⟨below, hbelow, rfl⟩ := List.mem_map.1 hchild
        have hlt : rank row.threadId < rank below.threadId :=
          hrank.child_lt (threadNaming.mem_childrenOf.1 hbelow)
        exact ih (by omega)

/-- `other` descends from `row` by `parentThreadId`. -/
def ThreadDescends (w : World) : ThreadRow → ThreadRow → Prop :=
  Relation.ReflTransGen fun a b => b ∈ w.threads ∧ b.parentThreadId = some a.threadId

/-- What `get_thread_tree` returns. -/
structure Branches (w : World) : Prop where
  /-- Of a thread that is there: all that descends from it, each thread once, under its
  parent. -/
  known : ∀ row ∈ w.threads, ∃ tree,
    (∀ questions, w.threads.length ≤ questions →
      (getThreadTree questions row.threadId).peek w = some (.ok (some tree))) ∧
    tree.item = nodeOf row ∧ Nested w tree ∧ (tree.items.map ThreadNode.threadId).Nodup ∧
      ∀ node, node ∈ tree.items ↔ ∃ other, ThreadDescends w row other ∧ nodeOf other = node
  unknown : ∀ questions threadId, (∀ row ∈ w.threads, row.threadId ≠ threadId) →
    (getThreadTree questions threadId).peek w = some (.ok none)

/-- The threads of a sane world stand in trees. -/
structure Planted (w : World) : Prop where
  sane : Sane w
  rooted : threadNaming.Rooted w.threads

theorem Planted.branches {w : World} (h : Planted w) : Branches w where
  known row hrow := by
    obtain ⟨rank, hrank⟩ := h.rooted.ranked
    have hpos : 0 < w.threads.length := List.length_pos_of_mem hrow
    refine ⟨threadNaming.grow nodeOf w.threads w.threads.length row, ?_, ?_,
      nested_grow hrank (by omega), ?_, ?_⟩
    · intro questions hq
      obtain ⟨n, rfl⟩ := Nat.exists_eq_add_of_le' (hpos.trans_le hq)
      unfold getThreadTree
      show (match w.getThread row.threadId with
        | none => pure none
        | some root => _ : Door _).peek w = _
      rw [h.sane.getThread hrow]
      show (buildChildren (n + 1) row.threadId >>= fun children => _).peek w = _
      rw [Prog.peek_bind, peek_buildChildren hrank (by omega)]
      have hgrow := hrank.grow_eq nodeOf (n := w.threads.length) (a := row) (by omega) hq
      rw [← hgrow]
      rfl
    · exact threadNaming.item_grow nodeOf w.threads _ row
    · rw [Naming.items_grow, List.map_map]
      have hbelow : ∀ b ∈ threadNaming.below w.threads w.threads.length row, b ∈ w.threads :=
        fun b hb => Naming.mem_of_descends hrow (Naming.Ranks.descends_of_mem_below hb)
      exact (hrank.nodup_below h.rooted.ids).map_on fun a ha b hb hid =>
        List.inj_on_of_nodup_map h.rooted.ids (hbelow a ha) (hbelow b hb) hid
    · intro node
      rw [Naming.items_grow, List.mem_map]
      refine exists_congr fun other => and_congr_left fun _ => ?_
      exact hrank.mem_below (by omega)
  unknown questions threadId hnone := by
    have hget : w.getThread threadId = none := by
      refine List.find?_eq_none.2 fun row hrow => ?_
      simpa using hnone row hrow
    unfold getThreadTree
    show (match w.getThread threadId with
      | none => pure none
      | some root => _ : Door _).peek w = _
    rw [hget]
    rfl

/-! ## The condition -/

/-- The foreign key of `parent_thread_id`. -/
def keepsForeignKey (_ : Request) (ws : List Write) (w : World) : Bool :=
  ws.all fun
    | .newThread row => row.parentThreadId.all fun parentId => (w.getThread parentId).isSome
    | _ => true

theorem Planted.still {w w' : World} (hw : Planted w) (h : Still w w') : Planted w' := by
  refine ⟨h.sane hw.sane, ?_⟩
  rw [h.threads]
  exact hw.rooted

section Commit

variable {PrivateKey PublicKey : Type} {cfg : Config PrivateKey PublicKey}

/-- One more thread, that has no parent or one that is there. -/
theorem planted_commit {r : Request} {held : List Name} {ws : List Write} {w : World}
    (hw : Planted w) (hkeeps : keepsForeignKey r ws w = true)
    (h : Commits cfg Planted Undisturbed r.call held ws w) : Planted (db.view w ws) := by
  have hU : ∀ H a b, Undisturbed H a b → Undisturbed H a b := fun _ _ _ hg => hg
  have hs' := h.sane hU (fun _ hp => hp.sane) hw.sane
  rcases h.cases with ⟨front, o, rfl, hopens⟩ | hstill
  · refine ⟨hs', ?_⟩
    have hids := hs'.threadIds
    rw [o.view hopens.thread.front] at hids ⊢
    show threadNaming.Rooted (db.view w front).threads
    cases hopens.thread with
    | existing _ front_eq =>
        rw [front_eq]
        exact hw.rooted
    | resumed _ front_eq =>
        rw [front_eq]
        exact hw.rooted
    | created thread front_eq =>
        have hthreads : (db.view w front).threads = w.threads ++ [thread] := by
          rw [front_eq]
          rfl
        have hids' : ((w.threads ++ [thread]).map ThreadRow.threadId).Nodup := hthreads ▸ hids
        rw [hthreads]
        apply hw.rooted.concat
        · intro b hb hid
          rw [List.map_append, List.nodup_append'] at hids'
          exact hids'.2.2 (List.mem_map_of_mem hb) (List.mem_singleton.2 hid)
        · intro p hp
          have hparent : thread.parentThreadId = some p := hp
          have hcond := List.all_eq_true.1 hkeeps (.newThread thread)
            (List.mem_append_left _ (front_eq ▸ List.mem_cons_self))
          simp only [hparent, Option.all_some] at hcond
          obtain ⟨b, hb⟩ := Option.isSome_iff_exists.1 hcond
          exact ⟨b, List.mem_of_find?_eq_some hb, by simpa [threadNaming] using List.find?_some hb⟩
  · exact hw.still hstill

/-- **Main result.**  Where the database holds the parent of a new thread to be there, the
tree of a thread comes back, with all that descends from it in its place. -/
theorem thread_tree_complete {s : Process}
    (hs : (system cfg Empty).ReachableBy (fun s a => s.commitsAs keepsForeignKey a = true) s) :
    Branches s.world := by
  have hplanted : Planted s.world := kept_of_reachableBy
    (fun w hw => hw.sane)
    (fun w hw => ⟨hw.sane, by rw [hw.threads]; exact .nil⟩)
    (fun w w' hw hstill => hw.still hstill)
    (fun r held ws w hw hkeeps hg => planted_commit hw hkeeps hg) hs
  exact hplanted.branches

end Commit

namespace Demo

/-- A message refers to the task on `t`: its thread opens under it. -/
def branched : List (Move Request Outside) :=
  paused ++ [calls (.a2aSend agent [("referenceTaskIds", .arr [.str "r0"])] none [] none)] ++
  advances 1 ["", "", "u", "", "", "", "r1", "", "", "", "", "", "", ""]

end Demo

theorem thread_tree_complete_branched :
    (system Demo.config Empty).ReachableBy (fun s a => s.commitsAs keepsForeignKey a = true)
        (Demo.after Demo.branched) ∧
      (Demo.after Demo.branched).world.threads.map
        (fun t => (t.threadId, t.parentThreadId)) = [("t", none), ("u", some "t")] ∧
      Branches (Demo.after Demo.branched).world := by
  have hreach : (system Demo.config Empty).ReachableBy
      (fun s a => s.commitsAs keepsForeignKey a = true) (Demo.after Demo.branched) :=
    System.ReachableBy.runFrom (fun _ _ h => h) (.init Demo.start_init) (by decide +kernel)
  exact ⟨hreach, by decide +kernel, thread_tree_complete hreach⟩

end Funduq.Doors
