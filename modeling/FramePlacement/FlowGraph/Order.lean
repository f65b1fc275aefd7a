import FramePlacement.FlowGraph
/-!
# Depth first order

A depth first search from the entry visits the successors of a block from the highest identifier to
the lowest and finishes a block after everything newly found behind it.  Putting each finished block
in front of the earlier ones gives the reverse post order; reading it backwards gives the post
order.
-/

set_option autoImplicit false

namespace FramePlacement

/-- The blocks a search has found, and those it has finished, the latest first. -/
structure Search where
  found : IdSet := ∅
  finished : List BlockId := []

namespace FlowGraph

/-- Searches from a block unless it was found before.  A search descends at most once into each
block, so `depth` counts the blocks that may still be found. -/
def visit (g : FlowGraph) : Nat → Search → BlockId → Search
  | 0, search, _ => search
  | depth + 1, search, b =>
      if b ∈ search.found then search
      else
        let below := (g.allSuccs b).toList.reverse.foldl (g.visit depth)
          { search with found := search.found.insert b }
        { below with finished := b :: below.finished }

def depthBound (g : FlowGraph) : Nat := g.edgeCount + 1

/-- The blocks reachable from the entry, each before its successors except along back edges. -/
def reversePostOrder (g : FlowGraph) : List BlockId :=
  match g.entry? with
  | some entry => (g.visit g.depthBound {} entry).finished
  | none => []

def postOrder (g : FlowGraph) : List BlockId := g.reversePostOrder.reverse

end FlowGraph

end FramePlacement
