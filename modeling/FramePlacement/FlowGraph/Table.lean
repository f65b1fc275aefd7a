import FramePlacement.FlowGraph
/-!
# Flow tables

A flow table keeps a graph in one node for each block, and an edge is entered in the nodes of both
of its ends.  The blocks of a layout are analysed one after the other: first what an exception of
the block does, then where control goes from its end.  Either may make the block an exit, which is
listed once.
-/

set_option autoImplicit false

namespace FramePlacement

structure FlowNode where
  preds : IdSet := ∅
  succs : IdSet := ∅
  excPreds : IdSet := ∅
  excSuccs : IdSet := ∅
deriving DecidableEq

structure FlowTable where
  entry? : Option BlockId := none
  nodes : IdMap FlowNode := IdMap.const {}
  exits : List BlockId := []
deriving DecidableEq

namespace FlowTable

def preds (t : FlowTable) (b : BlockId) : IdSet := (t.nodes.get b).preds

def succs (t : FlowTable) (b : BlockId) : IdSet := (t.nodes.get b).succs

def excPreds (t : FlowTable) (b : BlockId) : IdSet := (t.nodes.get b).excPreds

def excSuccs (t : FlowTable) (b : BlockId) : IdSet := (t.nodes.get b).excSuccs

def clear (_ : FlowTable) : FlowTable := {}

def update (t : FlowTable) (b : BlockId) (f : FlowNode → FlowNode) : FlowTable :=
  { t with nodes := t.nodes.set b (f (t.nodes.get b)) }

def addEdge (t : FlowTable) (source target : BlockId) : FlowTable :=
  let entered := t.update target fun node => { node with preds := node.preds.insert source }
  entered.update source fun node => { node with succs := node.succs.insert target }

def addExcEdge (t : FlowTable) (source handler : BlockId) : FlowTable :=
  let entered := t.update handler fun node => { node with excPreds := node.excPreds.insert source }
  entered.update source fun node => { node with excSuccs := node.excSuccs.insert handler }

def addExit (t : FlowTable) (b : BlockId) : FlowTable :=
  if b ∈ t.exits then t else { t with exits := t.exits ++ [b] }

def enterRaise (s : Body) (t : FlowTable) (b : BlockId) : FlowTable :=
  if s.mayRaise b then
    match s.handler? b with
    | some handler => t.addExcEdge b handler
    | none => t.addExit b
  else t

def enterEnd (s : Body) (t : FlowTable) (b : BlockId) : FlowTable :=
  match s.terminator? b with
  | some insn =>
      let linked := insn.targets.foldl (fun t target => t.addEdge b target) t
      if insn.isExit && !(insn.canRaise && (s.handler? b).isSome) then linked.addExit b else linked
  | none =>
      match s.layout.nextBlock? b with
      | some next => t.addEdge b next
      | none => t.addExit b

def analyze (s : Body) (t : FlowTable) (b : BlockId) : FlowTable :=
  enterEnd s (enterRaise s t b) b

def compute (t : FlowTable) (s : Body) : FlowTable :=
  s.layout.blocks.foldl (analyze s) { t.clear with entry? := s.layout.entry? }

end FlowTable

end FramePlacement
