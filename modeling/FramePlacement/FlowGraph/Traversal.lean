import FramePlacement.FlowGraph.Order
import FramePlacement.Proofs.Exploration
import Mathlib.Data.List.Perm.Subperm
/-!
# Traversal with a stack

A traversal hands out the blocks of a graph one by one, and remembers in between which blocks wait
on its stack and how far it has come with each.  A block that is looked at for the first time stays
on the stack and its unvisited successors are put above it, so it comes up again when they are done.
It is then handed out, once: a block may wait in several places, and at the others it is skipped.
-/

set_option autoImplicit false

namespace FramePlacement

inductive Stage where
  | unvisited
  | visited
  | finished
deriving DecidableEq

/-- A traversal under way: the blocks that wait, the next one first, and the stage of each block. -/
structure Traversal where
  stack : List BlockId
  stages : IdMap Stage := IdMap.const .unvisited

def FlowGraph.traversal (g : FlowGraph) : Traversal := { stack := g.entry?.toList }

namespace Traversal

/-- Visits a block: its unvisited successors wait above it, the highest on top. -/
def enter (g : FlowGraph) (t : Traversal) (b : BlockId) : Traversal :=
  let stages := t.stages.set b .visited
  { stack := ((g.allSuccs b).toList.filter fun c => stages.get c = .unvisited).reverse ++ t.stack
    stages }

/-! ## Every block takes finitely many steps -/

def pending (g : FlowGraph) (t : Traversal) : IdSet :=
  IdSet.ofList (g.edges.map Prod.snd ++ g.excEdges.map Prod.snd ++ t.stack)

def unvisited (g : FlowGraph) (t : Traversal) : Nat :=
  (t.pending g).toList.countP fun b => t.stages.get b = .unvisited

variable {g : FlowGraph} {t : Traversal} {b : BlockId} {rest : List BlockId}

theorem pending_enter : (t.enter g b).pending g = t.pending g := by
  ext c
  simp only [pending, enter, IdSet.mem_ofList, List.mem_append, List.mem_reverse, List.mem_filter,
    IdSet.mem_toList, FlowGraph.allSuccs, IdSet.mem_union, FlowGraph.succs, FlowGraph.excSuccs,
    FlowGraph.mem_targetsIn]
  constructor
  · rintro (target | ⟨normal | exceptional, -⟩ | waits)
    · exact Or.inl target
    · exact Or.inl (Or.inl (List.mem_map.mpr ⟨(b, c), normal, rfl⟩))
    · exact Or.inl (Or.inr (List.mem_map.mpr ⟨(b, c), exceptional, rfl⟩))
    · exact Or.inr waits
  · rintro (target | waits)
    · exact Or.inl target
    · exact Or.inr (Or.inr waits)

theorem unvisited_enter_lt (waiting : t.stack = b :: rest) (fresh : t.stages.get b = .unvisited) :
    (t.enter g b).unvisited g < t.unvisited g := by
  unfold unvisited
  rw [pending_enter]
  refine countP_lt_countP (x := b) (fun c _ untouched => ?_) ?_ ?_ ?_
  · simp only [enter, IdMap.get_set, decide_eq_true_eq] at untouched ⊢
    split at untouched
    · cases untouched
    · exact untouched
  · rw [IdSet.mem_toList, pending, IdSet.mem_ofList, waiting]
    simp
  · simp [enter]
  · simpa using fresh

theorem unvisited_pop_le (waiting : t.stack = b :: rest) :
    unvisited g { t with stack := rest } ≤ t.unvisited g := by
  have distinct : (pending g { t with stack := rest }).toList.Nodup :=
    (IdSet.toList_ascending _).imp fun less => Nat.ne_of_lt less
  refine (distinct.subperm fun c member => ?_).countP_le _
  simp only [IdSet.mem_toList, pending, IdSet.mem_ofList, List.mem_append, waiting,
    List.mem_cons] at member ⊢
  tauto

def next? (g : FlowGraph) (t : Traversal) : Option (BlockId × Traversal) :=
  match _ : t.stack with
  | [] => none
  | b :: rest =>
      match _ : t.stages.get b with
      | .unvisited => next? g (t.enter g b)
      | .visited => some (b, { stack := rest, stages := t.stages.set b .finished })
      | .finished => next? g { t with stack := rest }
termination_by (t.unvisited g, t.stack.length)
decreasing_by
  · exact Prod.Lex.left _ _ (unvisited_enter_lt ‹t.stack = _› ‹_›)
  · have waiting : t.stack = _ := ‹_›
    rw [waiting]
    exact Prod.Lex.right' _ (unvisited_pop_le waiting) (Nat.lt_succ_self _)

/-- Asking for the next block again and again gives these blocks, and then none. -/
inductive Yields (g : FlowGraph) : Traversal → List BlockId → Prop where
  | done {t : Traversal} : t.next? g = none → Yields g t []
  | more {t later : Traversal} {b : BlockId} {blocks : List BlockId} :
      t.next? g = some (b, later) → Yields g later blocks → Yields g t (b :: blocks)

end Traversal

end FramePlacement
