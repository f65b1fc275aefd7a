import FramePlacement.Dataflow.Solver
import FramePlacement.Proofs.Reachability
import Mathlib.Algebra.Order.BigOperators.Group.List
import Mathlib.Algebra.Order.Ring.Nat
/-!
# The worklist iteration

The solver is seen as a system of equations, one for each block: `newIn`, `newOut` and `newExc` are
the facts a visit computes from the facts that currently leave other blocks.  When recomputing is
monotone the facts of a block only descend, and the invariant `Progress` carries a run: what a block
would be given now is below what it has, and a reachable block either waits or satisfies its
equation.

A visit takes one entry from the queue.  It may put the readers of its block there, but then the
rank of a fact has dropped, so `potential` drops with every visit and bounds their number.
-/

set_option autoImplicit false

namespace FramePlacement

theorem IdSet.toList_nodup (s : IdSet) : s.toList.Nodup :=
  s.ascending.imp fun less => Nat.ne_of_lt less

theorem IdSet.size_le_length {s : IdSet} {l : List Nat} (inside : ∀ e, e ∈ s → e ∈ l) :
    s.size ≤ l.length := by
  exact (s.toList_nodup.subperm fun e member => inside e (IdSet.mem_toList.mp member)).length_le

/-! ## Sums over a row of blocks -/

theorem sum_map_add_le {l : List BlockId} {f g : BlockId → Nat} {b : BlockId} {gain : Nat}
    (below : ∀ c, f c ≤ g c) (member : b ∈ l) (drop : f b + gain ≤ g b) :
    (l.map f).sum + gain ≤ (l.map g).sum := by
  induction l with
  | nil => cases member
  | cons c rest ih =>
      rw [List.map_cons, List.map_cons, List.sum_cons, List.sum_cons]
      rcases List.mem_cons.mp member with rfl | later
      · have tail : (rest.map f).sum ≤ (rest.map g).sum :=
          List.sum_le_sum fun c _ => below c
        omega
      · have tail := ih later
        have head := below c
        omega

/-- Blocks listed once share out the edges among them, by either end. -/
theorem sum_countP_end_le {blocks : List BlockId} (distinct : blocks.Nodup) (near : Edge → BlockId)
    (edges : List Edge) :
    (blocks.map fun b => edges.countP fun edge => near edge == b).sum ≤ edges.length := by
  induction blocks generalizing edges with
  | nil => simp
  | cons b rest ih =>
      have parts := List.nodup_cons.mp distinct
      -- the edges of the other blocks are found among those that do not end in `b`
      have others : (rest.map fun c => edges.countP fun edge => near edge == c) =
          rest.map fun c =>
            (edges.filter fun edge => near edge != b).countP fun edge => near edge == c := by
        refine List.map_congr_left fun c member => ?_
        have differ : c ≠ b := fun same => parts.1 (same ▸ member)
        rw [List.countP_filter]
        refine List.countP_congr fun edge _ => ?_
        simp only [beq_iff_eq, bne_iff_ne, Bool.and_eq_true]
        exact ⟨fun same => ⟨same, same.symm ▸ differ⟩, fun both => both.1⟩
      have tail := ih parts.2 (edges.filter fun edge => near edge != b)
      have split := List.length_eq_countP_add_countP (fun edge => near edge == b) (l := edges)
      rw [List.map_cons, List.sum_cons, others]
      rw [← List.countP_eq_length_filter] at tail
      simp only [bne, Bool.not_eq_true, ← Bool.not_eq_true', Bool.decide_eq_true] at tail split ⊢
      omega

namespace FlowGraph

theorem size_le_countP {g : FlowGraph} {b : BlockId} {set : IdSet} (near far : Edge → BlockId)
    (connected : ∀ c, c ∈ set → ∃ edge ∈ g.edges ++ g.excEdges, near edge = b ∧ far edge = c) :
    set.size ≤ (g.edges.countP fun edge => near edge == b) +
      g.excEdges.countP fun edge => near edge == b := by
  rw [← List.countP_append, List.countP_eq_length_filter, ← List.length_map (f := far)]
  refine IdSet.size_le_length fun c member => ?_
  obtain ⟨edge, listed, here, there⟩ := connected c member
  exact List.mem_map.mpr ⟨edge, List.mem_filter.mpr ⟨listed, by simpa using here⟩, there⟩

theorem sum_size_le (g : FlowGraph) {blocks : List BlockId} (distinct : blocks.Nodup)
    {sets : BlockId → IdSet} (near far : Edge → BlockId) (connected : ∀ b c, c ∈ sets b →
      ∃ edge ∈ g.edges ++ g.excEdges, near edge = b ∧ far edge = c) :
    (blocks.map fun b => (sets b).size).sum ≤ g.edgeCount := by
  have each := List.sum_le_sum (l := blocks) fun b _ => size_le_countP near far (connected b)
  rw [List.sum_map_add] at each
  have normal := sum_countP_end_le distinct near g.edges
  have raised := sum_countP_end_le distinct near g.excEdges
  unfold edgeCount
  omega

theorem sum_size_allSuccs_le (g : FlowGraph) {blocks : List BlockId} (distinct : blocks.Nodup) :
    (blocks.map fun b => (g.allSuccs b).size).sum ≤ g.edgeCount :=
  g.sum_size_le distinct Prod.fst Prod.snd fun b c linked =>
    ⟨(b, c), List.mem_append.mpr (mem_allSuccs_iff.mp linked), rfl, rfl⟩

theorem mem_allPreds_iff {g : FlowGraph} {b c : BlockId} : b ∈ g.allPreds c ↔ g.Linked b c := by
  rw [allPreds, IdSet.mem_union, mem_preds_iff, mem_excPreds_iff, Linked, allSuccs, IdSet.mem_union]

theorem sum_size_allPreds_le (g : FlowGraph) {blocks : List BlockId} (distinct : blocks.Nodup) :
    (blocks.map fun b => (g.allPreds b).size).sum ≤ g.edgeCount :=
  g.sum_size_le distinct Prod.snd Prod.fst fun b c linked =>
    ⟨(c, b), List.mem_append.mpr (mem_allSuccs_iff.mp (mem_allPreds_iff.mp linked)), rfl, rfl⟩

end FlowGraph

namespace Solution

variable {F : Type} (changed : Bool) (sol : Solution F) (blocks : IdSet)

theorem ins_enqueueIf : (if changed then sol.enqueueAll blocks else sol).ins = sol.ins := by
  cases changed <;> rfl

theorem outs_enqueueIf : (if changed then sol.enqueueAll blocks else sol).outs = sol.outs := by
  cases changed <;> rfl

theorem excOuts_enqueueIf :
    (if changed then sol.enqueueAll blocks else sol).excOuts = sol.excOuts := by
  cases changed <;> rfl

theorem trace_enqueueIf : (if changed then sol.enqueueAll blocks else sol).trace = sol.trace := by
  cases changed <;> rfl

end Solution

namespace Problem

variable {F : Type}

/-! ## The order of the facts -/

def Below (p : Problem F) (a b : F) : Prop := p.meet a b = a

instance [DecidableEq F] (p : Problem F) (a b : F) : Decidable (p.Below a b) :=
  inferInstanceAs (Decidable (p.meet a b = a))

/-- The facts of a problem form a semilattice under its meet, with the initial fact on top, and
`rank` counts how far a fact can still descend. -/
structure Semilattice (p : Problem F) (Fact : F → Prop) (rank : F → Nat) : Prop where
  initial_fact : Fact p.initial
  boundary_fact : Fact p.boundary
  meet_fact : ∀ {a b}, Fact a → Fact b → Fact (p.meet a b)
  meet_self : ∀ {a}, Fact a → p.meet a a = a
  meet_comm : ∀ {a b}, Fact a → Fact b → p.meet a b = p.meet b a
  meet_assoc : ∀ {a b c}, Fact a → Fact b → Fact c →
    p.meet (p.meet a b) c = p.meet a (p.meet b c)
  meet_initial : ∀ {a}, Fact a → p.meet a p.initial = a
  rank_lt : ∀ {a b}, Fact a → Fact b → p.Below a b → a ≠ b → rank a < rank b
  rank_le : ∀ {a}, Fact a → rank a ≤ p.height

namespace Semilattice

variable {p : Problem F} {Fact : F → Prop} {rank : F → Nat} {a b c a' b' : F}

theorem below_refl (order : p.Semilattice Fact rank) (fact : Fact a) : p.Below a a :=
  order.meet_self fact

theorem below_trans (order : p.Semilattice Fact rank) (factA : Fact a) (factB : Fact b)
    (factC : Fact c) (first : p.Below a b) (second : p.Below b c) : p.Below a c := by
  unfold Below at first second ⊢
  calc p.meet a c = p.meet (p.meet a b) c := by rw [first]
    _ = p.meet a (p.meet b c) := order.meet_assoc factA factB factC
    _ = a := by rw [second, first]

theorem meet_below_left (order : p.Semilattice Fact rank) (factA : Fact a) (factB : Fact b) :
    p.Below (p.meet a b) a := by
  unfold Below
  calc p.meet (p.meet a b) a = p.meet a (p.meet a b) :=
        order.meet_comm (order.meet_fact factA factB) factA
    _ = p.meet (p.meet a a) b := (order.meet_assoc factA factA factB).symm
    _ = p.meet a b := by rw [order.meet_self factA]

theorem meet_below_right (order : p.Semilattice Fact rank) (factA : Fact a) (factB : Fact b) :
    p.Below (p.meet a b) b := by
  rw [order.meet_comm factA factB]
  exact order.meet_below_left factB factA

theorem below_meet (order : p.Semilattice Fact rank) (factA : Fact a) (factB : Fact b)
    (factC : Fact c) (left : p.Below a b) (right : p.Below a c) : p.Below a (p.meet b c) := by
  unfold Below at left right ⊢
  rw [← order.meet_assoc factA factB factC, left, right]

theorem meet_mono (order : p.Semilattice Fact rank) (factA : Fact a) (factB : Fact b)
    (factA' : Fact a') (factB' : Fact b') (left : p.Below a a') (right : p.Below b b') :
    p.Below (p.meet a b) (p.meet a' b') := by
  have fact := order.meet_fact factA factB
  exact order.below_meet fact factA' factB'
    (order.below_trans fact factA factA' (order.meet_below_left factA factB) left)
    (order.below_trans fact factB factB' (order.meet_below_right factA factB) right)

theorem rank_mono (order : p.Semilattice Fact rank) (factA : Fact a) (factB : Fact b)
    (below : p.Below a b) : rank a ≤ rank b := by
  by_cases same : a = b
  · rw [same]
  · exact Nat.le_of_lt (order.rank_lt factA factB below same)

end Semilattice

/-! ## What a visit computes -/

def newIn (p : Problem F) (s : Body) (g : FlowGraph) (entry : BlockId) (sol : Solution F)
    (b : BlockId) : F :=
  match p.direction with
  | .forward => p.joinForward g entry sol b
  | .backward => p.joinBackward s g sol b

def newOut (p : Problem F) (s : Body) (g : FlowGraph) (entry : BlockId) (sol : Solution F)
    (b : BlockId) : F :=
  match p.direction with
  | .forward => p.after (s.code b) (p.joinForward g entry sol b)
  | .backward => p.beforeAll (p.handlerFact s sol b) (s.code b) (p.joinBackward s g sol b)

def newExc (p : Problem F) (s : Body) (g : FlowGraph) (entry : BlockId) (sol : Solution F)
    (b : BlockId) : F :=
  match p.direction with
  | .forward =>
      if (s.handler? b).isSome then p.raised (s.code b) (p.joinForward g entry sol b) p.initial
      else p.initial
  | .backward => p.initial

/-- The blocks whose equations read the facts that leave a block. -/
def readers (p : Problem F) (g : FlowGraph) (b : BlockId) : IdSet :=
  match p.direction with
  | .forward => g.allSuccs b
  | .backward => g.allPreds b

/-- A backward run leaves the facts of handlers alone. -/
def Quiet (p : Problem F) (sol : Solution F) : Prop :=
  p.direction = .backward → ∀ b, sol.excOuts.get b = p.initial

variable [DecidableEq F] {p : Problem F} {s : Body} {g : FlowGraph} {entry : BlockId}
  {sol : Solution F}

theorem ins_visit (b c : BlockId) : (p.visit s g entry sol b).ins.get c =
    if c = b then p.newIn s g entry sol b else sol.ins.get c := by
  unfold visit newIn
  cases p.direction with
  | forward =>
      dsimp only
      rw [Solution.ins_enqueueIf, visitForward, IdMap.get_set]
  | backward =>
      dsimp only
      rw [Solution.ins_enqueueIf, visitBackward, IdMap.get_set]

theorem outs_visit (b c : BlockId) : (p.visit s g entry sol b).outs.get c =
    if c = b then p.newOut s g entry sol b else sol.outs.get c := by
  unfold visit newOut
  cases p.direction with
  | forward =>
      dsimp only
      rw [Solution.outs_enqueueIf, visitForward, IdMap.get_set]
  | backward =>
      dsimp only
      rw [Solution.outs_enqueueIf, visitBackward, IdMap.get_set]

theorem excOuts_visit (quiet : p.Quiet sol) (b c : BlockId) :
    (p.visit s g entry sol b).excOuts.get c =
      if c = b then p.newExc s g entry sol b else sol.excOuts.get c := by
  unfold Quiet at quiet
  unfold visit newExc
  cases direction : p.direction with
  | forward =>
      dsimp only
      rw [Solution.excOuts_enqueueIf, visitForward, IdMap.get_set]
  | backward =>
      dsimp only
      rw [Solution.excOuts_enqueueIf, visitBackward, quiet direction, ite_self]

theorem trace_visit (b : BlockId) : (p.visit s g entry sol b).trace = sol.trace := by
  unfold visit
  cases p.direction with
  | forward =>
      dsimp only
      rw [Solution.trace_enqueueIf, visitForward]
  | backward =>
      dsimp only
      rw [Solution.trace_enqueueIf, visitBackward]

theorem queue_visit (quiet : p.Quiet sol) (b : BlockId) : (p.visit s g entry sol b).queue =
    if sol.outs.get b = p.newOut s g entry sol b ∧ sol.excOuts.get b = p.newExc s g entry sol b
    then sol.queue else (sol.enqueueAll (p.readers g b)).queue := by
  unfold Quiet at quiet
  unfold visit newOut newExc readers
  cases direction : p.direction with
  | forward =>
      simp only [visitForward, decide_eq_true_eq, ne_eq, ← not_and_or, Solution.enqueueAll]
      by_cases same : sol.outs.get b = p.after (s.code b) (p.joinForward g entry sol b) ∧
          sol.excOuts.get b = (if (s.handler? b).isSome then
            p.raised (s.code b) (p.joinForward g entry sol b) p.initial else p.initial)
      · rw [if_pos same, if_neg (not_not_intro same)]
      · rw [if_neg same, if_pos same]
  | backward =>
      have still := quiet direction
      simp only [visitBackward, decide_eq_true_eq, ne_eq, Solution.enqueueAll, still, and_true]
      by_cases same : sol.outs.get b =
          p.beforeAll (p.handlerFact s sol b) (s.code b) (p.joinBackward s g sol b)
      · rw [if_pos same, if_neg (not_not_intro same)]
      · rw [if_neg same, if_pos same]

end Problem

namespace Solution

variable {F : Type}

theorem mem_foldl_enqueue {x : BlockId} (blocks queue : List BlockId) :
    x ∈ blocks.foldl enqueue queue ↔ x ∈ queue ∨ x ∈ blocks := by
  induction blocks generalizing queue with
  | nil => simp
  | cons b rest ih =>
      rw [List.foldl_cons, ih, List.mem_cons]
      unfold enqueue
      split
      · next waiting =>
          constructor
          · rintro (old | new)
            · exact Or.inl old
            · exact Or.inr (Or.inr new)
          · rintro (old | rfl | new)
            · exact Or.inl old
            · exact Or.inl waiting
            · exact Or.inr new
      · rw [List.mem_append, List.mem_singleton, or_assoc]

theorem mem_enqueueAll {sol : Solution F} {blocks : IdSet} {x : BlockId} :
    x ∈ (sol.enqueueAll blocks).queue ↔ x ∈ sol.queue ∨ x ∈ blocks := by
  unfold enqueueAll
  rw [mem_foldl_enqueue, IdSet.mem_toList]

theorem length_foldl_enqueue_le (blocks queue : List BlockId) :
    (blocks.foldl enqueue queue).length ≤ queue.length + blocks.length := by
  induction blocks generalizing queue with
  | nil => simp
  | cons b rest ih =>
      rw [List.foldl_cons, List.length_cons]
      have tail := ih (enqueue queue b)
      have one : (enqueue queue b).length ≤ queue.length + 1 := by
        unfold enqueue
        split
        · omega
        · simp
      omega

theorem length_enqueueAll_le (sol : Solution F) (blocks : IdSet) :
    (sol.enqueueAll blocks).queue.length ≤ sol.queue.length + blocks.size :=
  length_foldl_enqueue_le blocks.toList sol.queue

end Solution

end FramePlacement
