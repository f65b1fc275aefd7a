import FramePlacement.Placement.Load
import FramePlacement.Verifier
/-!
# Inserting frame instructions

The due stores and loads are inserted, and the allocation of the frame where the frame is used.
Loads observe the frame, so the stores are placed once more after them.  Nothing else changes: frame
instructions neither raise nor branch, and the graph and the effects of the scope stay valid while
they are inserted.
-/

set_option autoImplicit false

namespace FramePlacement

inductive PlacementError where
  | setup (cause : SetupError)
  | invariant (scope : String) (violation : Violation)
deriving DecidableEq

namespace PlacementError

def message : PlacementError → String
  | setup cause => cause.message
  | invariant scope violation =>
      "invariant violated in scope `" ++ scope ++ "`: " ++ violation.message

end PlacementError

structure Stats where
  allocs : Nat := 0
  stores : Nat := 0
  loads : Nat := 0
  /-- The scopes left as they were and marked eager. -/
  fallbacks : Nat := 0
  visits : Nat := 0
deriving DecidableEq

namespace Stats

def add (a b : Stats) : Stats :=
  { allocs := a.allocs + b.allocs
    stores := a.stores + b.stores
    loads := a.loads + b.loads
    fallbacks := a.fallbacks + b.fallbacks
    visits := a.visits + b.visits }

instance : Add Stats := ⟨add⟩

def inserted (s : Stats) : Nat := s.allocs + s.stores + s.loads

end Stats

namespace Body

/-- Puts a move beside a marked instruction, which has to stand in the layout. -/
def insertMove (kind : String) (put : Body → Mark → Body) (s : Body) (mark : Mark) :
    Except PlacementError Body :=
  if s.layout.hasInsn mark.1 then .ok (put s mark)
  else .error (.invariant s.name (.missingInsertionPoint kind))

def insertStores (s : Body) (marks : List Mark) : Except PlacementError Body :=
  marks.foldlM (insertMove "store_binding" fun s mark => s.addAfter (.storeFrame mark.2) mark.1) s

def insertLoads (s : Body) (marks : List Mark) : Except PlacementError Body :=
  marks.foldlM (insertMove "load_binding" fun s mark => s.addBefore (.loadFrame mark.2) mark.1) s

def movesOwnLocals (s : Body) : Bool := s.allCode.any fun entry => s.movesOwn entry.2

def allocatesIn (s : Body) (b : BlockId) : Bool := (s.code b).any fun entry => entry.2.isAlloc

/-- The frame is allocated at the top of the entry block unless that block allocates it already. -/
def insertAlloc (s : Body) : Nat × Body :=
  match s.layout.entry? with
  | some entry => if s.allocatesIn entry then (0, s) else (1, s.prepend .allocFrame entry)
  | none => (0, s)

def insertMoves (s : Body) (e : Effects) (g : FlowGraph) :
    Except PlacementError (Body × Stats) := do
  let first ← (e.placeStores s g).mapError PlacementError.setup
  let stored ← s.insertStores first.marks
  let loads ← (e.placeLoads stored g).mapError PlacementError.setup
  let loaded ← stored.insertLoads loads.marks
  let stats : Stats :=
    { stores := first.marks.length
      loads := loads.marks.length
      visits := first.visits + loads.visits }
  if loads.marks.isEmpty then return (loaded, stats)
  let second ← (e.placeStores loaded g).mapError PlacementError.setup
  let settled ← loaded.insertStores second.marks
  return (settled, stats + { stores := second.marks.length, visits := second.visits })

/-- The scope with its moves and, where its frame is used, the allocation; positions count anew. -/
def insertFrameInsns (s : Body) (e : Effects) (g : FlowGraph) :
    Except PlacementError (Body × Stats) := do
  let (moved, stats) ← s.insertMoves e g
  let (allocs, allocated) :=
    if e.needsFrame moved || moved.movesOwnLocals then moved.insertAlloc else (0, moved)
  return ({ allocated with layout := allocated.layout.renumber }, stats + { allocs })

def checkInvariants (s : Body) : Except PlacementError Unit :=
  match s.verify with
  | .ok () => .ok ()
  | .error violation => .error (.invariant s.name violation)

def place (s : Body) (verified : Bool) (captures : Captures) :
    Except PlacementError (Body × Stats) :=
  match s.insertFrameInsns (s.effects captures) s.flowGraph with
  | .error error => .error error
  | .ok (placed, stats) =>
      if verified then
        match placed.checkInvariants with
        | .ok () => .ok (placed, stats)
        | .error error => .error error
      else .ok (placed, stats)

end Body

end FramePlacement
