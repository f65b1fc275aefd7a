import FramePlacement.Scope
/-!
# Control flow graph

A graph has normal edges, along which control passes from the end of a block, and exception edges,
along which it passes from a raising instruction in the middle of a block to the handler.  Both are
kept once, as pairs; successors and predecessors are two views of one list and so always agree.
-/

set_option autoImplicit false

namespace FramePlacement

abbrev Edge := BlockId × BlockId

structure FlowGraph where
  entry? : Option BlockId := none
  edges : List Edge := []
  /-- From a block with a raising instruction to its handler. -/
  excEdges : List Edge := []
  /-- The blocks from which control may leave the activation, normally or by raising. -/
  exits : List BlockId := []
deriving DecidableEq, Inhabited

namespace FlowGraph

def targetsIn (edges : List Edge) (b : BlockId) : IdSet :=
  IdSet.ofList ((edges.filter fun edge => edge.1 == b).map Prod.snd)

def sourcesIn (edges : List Edge) (b : BlockId) : IdSet :=
  IdSet.ofList ((edges.filter fun edge => edge.2 == b).map Prod.fst)

def succs (g : FlowGraph) (b : BlockId) : IdSet := targetsIn g.edges b

def preds (g : FlowGraph) (b : BlockId) : IdSet := sourcesIn g.edges b

def excSuccs (g : FlowGraph) (b : BlockId) : IdSet := targetsIn g.excEdges b

def excPreds (g : FlowGraph) (b : BlockId) : IdSet := sourcesIn g.excEdges b

def allSuccs (g : FlowGraph) (b : BlockId) : IdSet := g.succs b ∪ g.excSuccs b

def allPreds (g : FlowGraph) (b : BlockId) : IdSet := g.preds b ∪ g.excPreds b

/-- The number of outgoing edges, a block that is successor in both ways counting twice. -/
def succCount (g : FlowGraph) (b : BlockId) : Nat := (g.succs b).size + (g.excSuccs b).size

def isExit (g : FlowGraph) (b : BlockId) : Bool := g.exits.contains b

def addEdge (g : FlowGraph) (source target : BlockId) : FlowGraph :=
  if (source, target) ∈ g.edges then g else { g with edges := g.edges ++ [(source, target)] }

def addExcEdge (g : FlowGraph) (source handler : BlockId) : FlowGraph :=
  if (source, handler) ∈ g.excEdges then g
  else { g with excEdges := g.excEdges ++ [(source, handler)] }

def edgeCount (g : FlowGraph) : Nat := g.edges.length + g.excEdges.length

theorem mem_targetsIn {edges : List Edge} {b c : BlockId} :
    c ∈ targetsIn edges b ↔ (b, c) ∈ edges := by
  simp only [targetsIn, IdSet.mem_ofList, List.mem_map, List.mem_filter, beq_iff_eq]
  constructor
  · rintro ⟨⟨source, target⟩, ⟨member, rfl⟩, rfl⟩
    exact member
  · intro member
    exact ⟨(b, c), ⟨member, rfl⟩, rfl⟩

theorem mem_sourcesIn {edges : List Edge} {b c : BlockId} :
    b ∈ sourcesIn edges c ↔ (b, c) ∈ edges := by
  simp only [sourcesIn, IdSet.mem_ofList, List.mem_map, List.mem_filter, beq_iff_eq]
  constructor
  · rintro ⟨⟨source, target⟩, ⟨member, rfl⟩, rfl⟩
    exact member
  · intro member
    exact ⟨(b, c), ⟨member, rfl⟩, rfl⟩

theorem mem_preds_iff {g : FlowGraph} {b c : BlockId} : b ∈ g.preds c ↔ c ∈ g.succs b :=
  mem_sourcesIn.trans mem_targetsIn.symm

theorem mem_excPreds_iff {g : FlowGraph} {b c : BlockId} : b ∈ g.excPreds c ↔ c ∈ g.excSuccs b :=
  mem_sourcesIn.trans mem_targetsIn.symm

end FlowGraph

/-! ## The graph of a scope -/

namespace Body

def mayRaise (s : Body) (b : BlockId) : Bool := (s.code b).any fun entry => entry.2.canRaise

def terminator? (s : Body) (b : BlockId) : Option Insn := (s.lastInsn? b).filter Insn.isTerminator

/-- Where control goes from the end of a block: to the targets of its terminator, or into the next
block of the layout. -/
def flowTargets (s : Body) (b : BlockId) : List BlockId :=
  match s.terminator? b with
  | some insn => insn.targets
  | none => (s.layout.nextBlock? b).toList

def excTargets (s : Body) (b : BlockId) : List BlockId :=
  if s.mayRaise b then (s.handler? b).toList else []

def leavesAtEnd (s : Body) (b : BlockId) : Bool :=
  match s.terminator? b with
  | some insn => insn.isExit && !(insn.isRaise && (s.handler? b).isSome)
  | none => (s.layout.nextBlock? b).isNone

def leaves (s : Body) (b : BlockId) : Bool :=
  s.mayRaise b && (s.handler? b).isNone || s.leavesAtEnd b

def flowGraph (s : Body) : FlowGraph :=
  let blocks := s.layout.blocks
  { entry? := s.layout.entry?
    edges := blocks.flatMap fun b => (s.flowTargets b).map fun target => (b, target)
    excEdges := blocks.flatMap fun b => (s.excTargets b).map fun handler => (b, handler)
    exits := blocks.filter s.leaves }

end Body

end FramePlacement
