import FramePlacement.FlowGraph.Traversal
import FramePlacement.Proofs.Reachability
/-!
# The traversal is a depth first search

A traversal and a recursive search that have found and finished the same blocks go on alike: what
waits above a block on the stack is handed out as the search finishes it (`Traversal.Follows`).  The
blocks that a stack holds twice do no harm, because whatever was unvisited when it was put there is
finished by the time it comes up again, or is visited then.  So the traversal hands out the post
order (`FlowGraph.yields_postOrder`).

In this order the target of an edge comes before its source unless it leads back there
(`FlowGraph.InOrder`).  While a search is in a block, the blocks that are found and not finished all
lead to it.
-/

set_option autoImplicit false

namespace FramePlacement

open Relation

namespace FlowGraph

variable {g : FlowGraph} {entry b : BlockId} {search : Search}

theorem visit_of_found {depth : Nat} (seen : b ∈ search.found) :
    g.visit depth search b = search := by
  cases depth with
  | zero => rfl
  | succ depth => exact if_pos seen

def descend (g : FlowGraph) (depth : Nat) (search : Search) (b : BlockId) : Search :=
  (g.allSuccs b).toList.reverse.foldl (g.visit depth)
    { search with found := search.found.insert b }

theorem visit_of_new {depth : Nat} (fresh : ¬ b ∈ search.found) :
    g.visit (depth + 1) search b =
      { g.descend depth search b with finished := b :: (g.descend depth search b).finished } :=
  if_neg fresh

theorem mem_reverse_succs_iff {c : BlockId} :
    c ∈ (g.allSuccs b).toList.reverse ↔ g.Linked b c := by
  rw [List.mem_reverse, IdSet.mem_toList]

theorem descend_adds {depth : Nat} (inside : b ∈ g.findable entry) (fresh : ¬ b ∈ search.found)
    (room : unfound (g.findable entry) search.found ≤ depth + 1) :
    unfound (g.findable entry) (search.found.insert b) ≤ depth ∧
      ∃ later, Adds g (g.allSuccs b).toList.reverse
        { search with found := search.found.insert b } (g.descend depth search b) later := by
  have smaller := unfound_insert_lt inside fresh
  have less : unfound (g.findable entry) (search.found.insert b) ≤ depth := by omega
  refine ⟨less, foldl_visit_adds (fun search c => visit_adds g entry depth search c) _ _ ?_ less⟩
  exact fun c among => mem_findable_of_linked (mem_reverse_succs_iff.mp among)

/-! ## Edges in the order of the search -/

/-- Among blocks of which the latest comes first, the target of an edge is earlier than its source
unless it leads back there. -/
def InOrder (g : FlowGraph) (finished : List BlockId) : Prop :=
  ∀ later c earlier, finished = later ++ c :: earlier → ∀ d, g.Linked c d →
    d ∈ earlier ∨ ReflTransGen g.Linked d c

theorem InOrder.cons {finished : List BlockId} (ordered : g.InOrder finished)
    (targets : ∀ d, g.Linked b d → d ∈ finished ∨ ReflTransGen g.Linked d b) :
    g.InOrder (b :: finished) := by
  intro later c earlier split d linked
  cases later with
  | nil =>
      obtain ⟨rfl, rfl⟩ := List.cons.inj split
      exact targets d linked
  | cons first later => exact ordered later c earlier (List.cons.inj split).2 d linked

/-- The blocks that a search has found and not finished lead to the roots of the next searches. -/
def OpenLeadsTo (g : FlowGraph) (search : Search) (roots : List BlockId) : Prop :=
  ∀ c ∈ search.found, c ∈ search.finished ∨ ∀ root ∈ roots, ReflTransGen g.Linked c root

theorem OpenLeadsTo.after {roots done fresh : List BlockId} {later : Search}
    (leads : g.OpenLeadsTo search roots) (adds : Adds g done search later fresh) :
    g.OpenLeadsTo later roots := by
  intro c found
  rw [adds.finished, List.mem_append]
  rcases (adds.found c).mp found with new | old
  · exact Or.inl (Or.inl new)
  · exact (leads c old).imp_left Or.inr

theorem OpenLeadsTo.enter (leads : g.OpenLeadsTo search [b]) :
    g.OpenLeadsTo { search with found := search.found.insert b }
      (g.allSuccs b).toList.reverse := by
  intro c found
  have onward : ReflTransGen g.Linked c b →
      ∀ root ∈ (g.allSuccs b).toList.reverse, ReflTransGen g.Linked c root :=
    fun path root among => path.tail (mem_reverse_succs_iff.mp among)
  rcases IdSet.mem_insert.mp found with rfl | old
  · exact Or.inr (onward ReflTransGen.refl)
  · exact (leads c old).imp_right fun path => onward (path b List.mem_cons_self)

theorem foldl_visit_inOrder {depth : Nat}
    (one : ∀ (search : Search) (b : BlockId), b ∈ g.findable entry →
      unfound (g.findable entry) search.found ≤ depth → g.OpenLeadsTo search [b] →
      g.InOrder search.finished → g.InOrder (g.visit depth search b).finished)
    (roots : List BlockId) (search : Search) (inside : ∀ b ∈ roots, b ∈ g.findable entry)
    (room : unfound (g.findable entry) search.found ≤ depth) (leads : g.OpenLeadsTo search roots)
    (ordered : g.InOrder search.finished) :
    g.InOrder (roots.foldl (g.visit depth) search).finished := by
  induction roots generalizing search with
  | nil => exact ordered
  | cons b rest ih =>
      have here := inside b List.mem_cons_self
      obtain ⟨fresh, adds⟩ := visit_adds g entry depth search b here room
      have split : ∀ some ⊆ b :: rest, g.OpenLeadsTo search some := fun some among c found =>
        (leads c found).imp_right fun path root member => path root (among member)
      refine ih _ (fun c among => inside c (List.mem_cons_of_mem b among)) ?_ ?_ ?_
      · exact Nat.le_trans (unfound_le fun c member => adds.keeps member) room
      · exact (split rest (List.subset_cons_self b rest)).after adds
      · exact one search b here room (split [b] (by simp)) ordered

theorem visit_inOrder (depth : Nat) (search : Search) (b : BlockId) (inside : b ∈ g.findable entry)
    (room : unfound (g.findable entry) search.found ≤ depth) (leads : g.OpenLeadsTo search [b])
    (ordered : g.InOrder search.finished) : g.InOrder (g.visit depth search b).finished := by
  induction depth generalizing search b with
  | zero => exact ordered
  | succ depth ih =>
      by_cases seen : b ∈ search.found
      · rw [visit_of_found seen]
        exact ordered
      · obtain ⟨less, later, adds⟩ := descend_adds inside seen room
        rw [visit_of_new seen]
        refine InOrder.cons (foldl_visit_inOrder ih _ _ ?_ less leads.enter ordered) ?_
        · exact fun c among => mem_findable_of_linked (mem_reverse_succs_iff.mp among)
        · intro d linked
          rw [adds.finished, List.mem_append]
          rcases (adds.found d).mp (adds.roots_found d (mem_reverse_succs_iff.mpr linked)) with
            new | old
          · exact Or.inl (Or.inl new)
          · rcases IdSet.mem_insert.mp old with rfl | old
            · exact Or.inr ReflTransGen.refl
            · exact (leads d old).imp Or.inr fun path => path b List.mem_cons_self

/-! ## The whole search -/

theorem room_of_start (g : FlowGraph) (entry : BlockId) :
    unfound (g.findable entry) ({} : Search).found ≤ g.depthBound :=
  Nat.le_trans List.countP_le_length (Nat.le_of_eq (length_findable g entry))

theorem reversePostOrder_inOrder (g : FlowGraph) : g.InOrder g.reversePostOrder := by
  unfold reversePostOrder
  cases g.entry? with
  | none => exact fun later c earlier split => absurd split (by simp)
  | some entry =>
      refine visit_inOrder _ {} entry List.mem_cons_self (room_of_start g entry) ?_ ?_
      · exact fun c found => absurd found (IdSet.not_mem_empty c)
      · exact fun later c earlier split => absurd split (by simp)

theorem head?_reversePostOrder (start : g.entry? = some entry) :
    g.reversePostOrder.head? = some entry := by
  unfold reversePostOrder
  rw [start]
  change (g.visit (g.edgeCount + 1) {} entry).finished.head? = some entry
  rw [visit_of_new (IdSet.not_mem_empty entry)]
  rfl

end FlowGraph

/-! ## The traversal and the search -/

namespace Traversal

variable {g : FlowGraph} {b : BlockId} {rest : List BlockId} {stages : IdMap Stage}

theorem next?_nil : next? g { stack := [], stages } = none := by
  rw [next?]

theorem next?_cons : next? g { stack := b :: rest, stages } =
    match stages.get b with
    | .unvisited => next? g (enter g { stack := b :: rest, stages } b)
    | .visited => some (b, { stack := rest, stages := stages.set b .finished })
    | .finished => next? g { stack := rest, stages } := by
  rw [next?]
  dsimp only
  cases stages.get b <;> rfl

/-- The stages are those of the blocks that a search has found and finished. -/
structure Follows (stages : IdMap Stage) (search : Search) : Prop where
  found : ∀ c, c ∈ search.found ↔ stages.get c ≠ .unvisited
  finished : ∀ c, c ∈ search.finished ↔ stages.get c = .finished

theorem Follows.enter {search : Search} (follows : Follows stages search)
    (fresh : ¬ b ∈ search.found) :
    Follows (stages.set b .visited) { search with found := search.found.insert b } where
  found c := by
    rw [IdMap.get_set, IdSet.mem_insert, follows.found c]
    by_cases same : c = b <;> simp [same]
  finished c := by
    rw [IdMap.get_set]
    split
    · next same =>
        have stage : stages.get b = .unvisited := by
          simpa [follows.found b] using fresh
        rw [follows.finished c, same, stage]
        simp
    · exact follows.finished c

theorem Follows.finish {search : Search} (follows : Follows stages search)
    (seen : b ∈ search.found) :
    Follows (stages.set b .finished) { search with finished := b :: search.finished } where
  found c := by
    rw [IdMap.get_set]
    split
    · next same => exact iff_of_true (same ▸ seen) (by simp)
    · exact follows.found c
  finished c := by
    rw [IdMap.get_set, List.mem_cons, follows.finished c]
    by_cases same : c = b <;> simp [same]

def HandsOut (g : FlowGraph) (t : Traversal) (out : List BlockId) (later : Traversal) : Prop :=
  ∀ blocks, Yields g later blocks → Yields g t (out ++ blocks)

theorem handsOut_nothing {t later : Traversal} (same : t.next? g = later.next? g) :
    HandsOut g t [] later := by
  intro blocks yields
  cases yields with
  | done none => exact Yields.done (same.trans none)
  | more some others => exact Yields.more (same.trans some) others

theorem handsOut_block {t later : Traversal} (some : t.next? g = some (b, later)) :
    HandsOut g t [b] later := fun _ yields => Yields.more some yields

theorem HandsOut.trans {t middle later : Traversal} {out more : List BlockId}
    (first : HandsOut g t out middle) (second : HandsOut g middle more later) :
    HandsOut g t (out ++ more) later := by
  intro blocks yields
  rw [List.append_assoc]
  exact first _ (second blocks yields)

/-- With some blocks on top of its stack a traversal hands out what a search finishes on its way. -/
def Performs (g : FlowGraph) (waiting : List BlockId) (search later : Search) : Prop :=
  ∀ stages rest, Follows stages search → ∃ out after, Follows after later ∧
    later.finished = out.reverse ++ search.finished ∧
    HandsOut g { stack := waiting ++ rest, stages } out { stack := rest, stages := after }

theorem Performs.trans {first second : List BlockId} {search middle later : Search}
    (one : Performs g first search middle) (other : Performs g second middle later) :
    Performs g (first ++ second) search later := by
  intro stages rest follows
  obtain ⟨out, between, followsOne, finishedOne, handsOne⟩ := one stages (second ++ rest) follows
  obtain ⟨more, after, followsOther, finishedOther, handsOther⟩ := other between rest followsOne
  refine ⟨out ++ more, after, followsOther, ?_, ?_⟩
  · rw [finishedOther, finishedOne, List.reverse_append, List.append_assoc]
  · rw [List.append_assoc]
    exact handsOne.trans handsOther

theorem performs_nothing (search : Search) : Performs g [] search search :=
  fun stages _ follows => ⟨[], stages, follows, rfl, handsOut_nothing rfl⟩

theorem performs_of_finished {search : Search} (done : b ∈ search.finished) :
    Performs g [b] search search := by
  intro stages rest follows
  refine ⟨[], stages, follows, rfl, handsOut_nothing ?_⟩
  rw [List.singleton_append, next?_cons, (follows.finished b).mp done]

/-- Of some roots only those need to wait that the search has not found before. -/
theorem foldl_visit_performs {entry : BlockId} {depth : Nat}
    (one : ∀ (search : Search) (b : BlockId), b ∈ g.findable entry →
      FlowGraph.unfound (g.findable entry) search.found ≤ depth →
      (b ∈ search.found → b ∈ search.finished) → Performs g [b] search (g.visit depth search b))
    (wait : BlockId → Bool) (roots : List BlockId) (search : Search)
    (inside : ∀ b ∈ roots, b ∈ g.findable entry)
    (room : FlowGraph.unfound (g.findable entry) search.found ≤ depth)
    (waiting : ∀ b ∈ roots, wait b = true → b ∈ search.found → b ∈ search.finished)
    (others : ∀ b ∈ roots, wait b = false → b ∈ search.found) :
    Performs g (roots.filter wait) search (roots.foldl (g.visit depth) search) := by
  induction roots generalizing search with
  | nil => exact performs_nothing search
  | cons b rest ih =>
      have here := inside b List.mem_cons_self
      obtain ⟨fresh, adds⟩ := FlowGraph.visit_adds g entry depth search b here room
      have later := ih (g.visit depth search b)
        (fun c among => inside c (List.mem_cons_of_mem b among))
        (Nat.le_trans (FlowGraph.unfound_le fun c member => adds.keeps member) room)
        (fun c among waits found => by
          rw [adds.finished, List.mem_append]
          exact ((adds.found c).mp found).imp_right
            (waiting c (List.mem_cons_of_mem b among) waits))
        (fun c among skipped => adds.keeps (others c (List.mem_cons_of_mem b among) skipped))
      rw [List.foldl_cons]
      cases waits : wait b with
      | true =>
          rw [List.filter_cons_of_pos waits]
          exact (one search b here room (waiting b List.mem_cons_self waits)).trans later
      | false =>
          rw [List.filter_cons_of_neg (by simp [waits])]
          rwa [FlowGraph.visit_of_found (others b List.mem_cons_self waits)] at later ⊢

theorem performs_of_new {search below : Search} (fresh : ¬ b ∈ search.found)
    (row : Performs g
      ((g.allSuccs b).toList.reverse.filter fun c => !(search.found.insert b).contains c)
      { search with found := search.found.insert b } below)
    (found : b ∈ below.found) (still : b ∈ below.finished → b ∈ search.finished) :
    Performs g [b] search { below with finished := b :: below.finished } := by
  intro stages rest follows
  have entered := follows.enter fresh
  have first : stages.get b = .unvisited := by simpa [follows.found b] using fresh
  have waiting : (enter g { stack := b :: rest, stages } b).stack =
      ((g.allSuccs b).toList.reverse.filter fun c => !(search.found.insert b).contains c) ++
        b :: rest := by
    simp only [enter, ← List.filter_reverse]
    congr 1
    refine List.filter_congr fun c _ => ?_
    have known := entered.found c
    rw [Bool.eq_iff_iff, decide_eq_true_eq, Bool.not_eq_true', ← Bool.not_eq_true,
      IdSet.contains_iff, known, not_not]
  obtain ⟨out, after, reached, finished, hands⟩ := row _ (b :: rest) entered
  have last : after.get b = .visited := by
    have seen := (reached.found b).mp found
    cases stage : after.get b with
    | unvisited => exact absurd stage seen
    | visited => rfl
    | finished =>
        have done := (follows.finished b).mp (still ((reached.finished b).mpr stage))
        rw [first] at done
        cases done
  refine ⟨out ++ [b], after.set b .finished, reached.finish found, ?_, ?_⟩
  · rw [List.reverse_append, finished]
    rfl
  · rw [← waiting] at hands
    have start : HandsOut g { stack := b :: rest, stages } []
        (enter g { stack := b :: rest, stages } b) :=
      handsOut_nothing (by rw [next?_cons, first])
    have stop : HandsOut g { stack := b :: rest, stages := after } [b]
        { stack := rest, stages := after.set b .finished } :=
      handsOut_block (by rw [next?_cons, last])
    exact start.trans (HandsOut.trans hands stop)

theorem visit_performs {entry : BlockId} (depth : Nat) (search : Search) (b : BlockId)
    (inside : b ∈ g.findable entry)
    (room : FlowGraph.unfound (g.findable entry) search.found ≤ depth)
    (ready : b ∈ search.found → b ∈ search.finished) :
    Performs g [b] search (g.visit depth search b) := by
  induction depth generalizing search b with
  | zero =>
      obtain ⟨_, adds⟩ := FlowGraph.visit_adds g entry 0 search b inside room
      exact performs_of_finished (ready (adds.roots_found b List.mem_cons_self))
  | succ depth ih =>
      by_cases seen : b ∈ search.found
      · rw [FlowGraph.visit_of_found seen]
        exact performs_of_finished (ready seen)
      · obtain ⟨less, later, adds⟩ := FlowGraph.descend_adds inside seen room
        have findable : ∀ c ∈ (g.allSuccs b).toList.reverse, c ∈ g.findable entry := fun c among =>
          FlowGraph.mem_findable_of_linked (FlowGraph.mem_reverse_succs_iff.mp among)
        rw [FlowGraph.visit_of_new seen]
        refine performs_of_new seen (foldl_visit_performs ih _ _ _ findable less ?_ ?_) ?_ ?_
        · intro c _ waits found
          rw [IdSet.contains_iff.mpr found] at waits
          cases waits
        · intro c _ skipped
          exact IdSet.contains_iff.mp (by simpa using skipped)
        · exact adds.keeps (IdSet.mem_insert.mpr (Or.inl rfl))
        · rw [adds.finished, List.mem_append]
          have new := fun among => adds.unseen b among (IdSet.mem_insert.mpr (Or.inl rfl))
          exact fun either => either.resolve_left new

end Traversal

namespace FlowGraph

variable {g : FlowGraph} {entry : BlockId}

theorem yields_postOrder (g : FlowGraph) : g.traversal.Yields g g.postOrder := by
  unfold postOrder reversePostOrder traversal
  cases g.entry? with
  | none => exact Traversal.Yields.done Traversal.next?_nil
  | some entry =>
      have start : Traversal.Follows (IdMap.const .unvisited) ({} : Search) :=
        ⟨fun c => by simp, fun c => by simp⟩
      obtain ⟨out, after, _, finished, hands⟩ :=
        Traversal.visit_performs g.depthBound {} entry List.mem_cons_self (g.room_of_start entry)
          (fun found => absurd found (IdSet.not_mem_empty entry)) _ [] start
      have yields := hands [] (Traversal.Yields.done Traversal.next?_nil)
      simp only [List.append_nil] at finished yields
      dsimp only
      rw [finished, List.reverse_reverse]
      exact yields

/-! ## Reachable blocks -/

theorem mem_postOrder_iff {b : BlockId} : b ∈ g.postOrder ↔ g.Reachable b := by
  rw [postOrder, List.mem_reverse, mem_reversePostOrder_iff]

theorem postOrder_nodup (g : FlowGraph) : g.postOrder.Nodup :=
  List.nodup_reverse.mpr g.reversePostOrder_nodup

theorem getLast?_postOrder (start : g.entry? = some entry) :
    g.postOrder.getLast? = some entry := by
  rw [postOrder, List.getLast?_reverse, head?_reversePostOrder start]

/-- In the reverse post order a block comes before the targets of its edges, except for the edges
that lead back. -/
theorem sublist_reversePostOrder {u v : BlockId} (found : g.Reachable u) (linked : g.Linked u v) :
    [u, v].Sublist g.reversePostOrder ∨ ReflTransGen g.Linked v u := by
  obtain ⟨later, earlier, split⟩ := List.append_of_mem (mem_reversePostOrder_iff.mpr found)
  refine (g.reversePostOrder_inOrder later u earlier split v linked).imp_left fun before => ?_
  rw [split]
  have tail : [u, v].Sublist (u :: earlier) := (List.singleton_sublist.mpr before).cons_cons u
  exact tail.trans (List.sublist_append_right later _)

theorem sublist_postOrder {u v : BlockId} (found : g.Reachable u) (linked : g.Linked u v) :
    [v, u].Sublist g.postOrder ∨ ReflTransGen g.Linked v u := by
  refine (sublist_reversePostOrder found linked).imp_left fun forward => ?_
  simpa [postOrder] using forward.reverse

/-- The traversal of a graph with an entry ends and hands out a depth first post order: every
reachable block once, the entry last, and the target of an edge before its source unless the edge
leads back.  The reverse order is topological but for those edges, and the setup check reports the
first block of a layout that the traversal does not hand out. -/
theorem traversal_postOrder (g : FlowGraph) {entry : BlockId} (start : g.entry? = some entry) :
    g.traversal.Yields g g.postOrder ∧ (∀ b, b ∈ g.postOrder ↔ g.Reachable b) ∧
      g.postOrder.Nodup ∧ g.postOrder.getLast? = some entry ∧
      (∀ u v, g.Reachable u → g.Linked u v →
        [v, u].Sublist g.postOrder ∨ ReflTransGen g.Linked v u) ∧
      (∀ u v, g.Reachable u → g.Linked u v → ¬ ReflTransGen g.Linked v u →
        [u, v].Sublist g.reversePostOrder) ∧
      ∀ (s : Body) b, s.checkSetup g = .error (.unreachableBlock b) ↔
        s.layout.entry? = some entry ∧ ∃ front back, s.layout.blocks = front ++ b :: back ∧
          ¬ g.Reachable b ∧ ∀ c ∈ front, g.Reachable c := by
  refine ⟨g.yields_postOrder, fun b => mem_postOrder_iff, g.postOrder_nodup,
    getLast?_postOrder start, fun u v found linked => sublist_postOrder found linked, ?_,
    fun s b => Body.checkSetup_unreachable_iff start⟩
  intro u v found linked forward
  exact (sublist_reversePostOrder found linked).resolve_right forward

end FlowGraph

/-- A graph with a loop, a block that leads to itself, a handler that is shared and a block that
nothing leads to. -/
def winding : FlowGraph where
  entry? := some 0
  edges := [(0, 1), (1, 2), (2, 1), (2, 2), (2, 3), (5, 3)]
  excEdges := [(1, 4), (2, 4), (4, 1)]

/-- The traversal enters block 4 through an exceptional edge and skips its second copy. -/
theorem traversal_postOrder_winding :
    winding.traversal.Yields winding [4, 3, 2, 1, 0] ∧ ¬ winding.Reachable 5 ∧
      ReflTransGen winding.Linked 1 4 := by
  have order : winding.postOrder = [4, 3, 2, 1, 0] := by decide
  obtain ⟨yields, reached, -, -, -, -, -⟩ := winding.traversal_postOrder rfl
  rw [order] at yields
  refine ⟨yields, fun found => ?_, ?_⟩
  · have listed := (reached 5).mpr found
    rw [order] at listed
    simp at listed
  · exact ReflTransGen.single (by decide)

end FramePlacement
