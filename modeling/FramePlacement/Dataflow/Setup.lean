import FramePlacement.FlowGraph.Order
/-!
# Setting up an analysis

An analysis runs over a scope and a graph.  The two must start with the same block, and every block
of the layout must be reachable from it.
-/

set_option autoImplicit false

namespace FramePlacement

inductive SetupError where
  | missingEntry (scope : String)
  | entryMismatch (graph layout : BlockId)
  /-- The first block of the layout that no path from the entry reaches. -/
  | unreachableBlock (block : BlockId)
deriving DecidableEq

namespace SetupError

def message : SetupError → String
  | missingEntry scope => "scope `" ++ scope ++ "` has no entry block"
  | entryMismatch graph layout =>
      "cfg entry `" ++ blockLabel graph ++ "` differs from layout entry `" ++
        blockLabel layout ++ "`"
  | unreachableBlock block => "`" ++ blockLabel block ++ "` is not reachable from the entry block"

end SetupError

namespace Body

/-- The entry shared by the layout and the graph, if every block of the layout is reachable from
it. -/
def checkSetup (s : Body) (g : FlowGraph) : Except SetupError BlockId :=
  match s.layout.entry?, g.entry? with
  | some entry, some graphEntry =>
      if graphEntry = entry then
        let reachable := g.reversePostOrder
        match s.layout.blocks.find? fun b => !reachable.contains b with
        | some b => .error (.unreachableBlock b)
        | none => .ok entry
      else .error (.entryMismatch graphEntry entry)
  | _, _ => .error (.missingEntry s.name)

end Body

end FramePlacement
