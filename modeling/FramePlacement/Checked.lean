import FramePlacement.Run
import FramePlacement.Scope.Builder
import FramePlacement.Scope.Listing
/-!
# Checked operations

The analyses are total: an identifier outside the arenas contributes nothing.  The operations of
this module refuse such identifiers instead.  Each one says which identifiers it looks up, and
answers as the total operation does when all of them are known.
-/

set_option autoImplicit false

namespace FramePlacement

def Insn.namedVars (insn : Insn) : List VarId := insn.usedVars ++ insn.result?.toList

namespace Body

def blocksKnown (s : Body) : Bool := s.layout.blocks.all fun b => decide (b < s.handlers.size)

def insnsKnown (s : Body) : Bool := s.layout.allInsns.all fun i => decide (i < s.insns.size)

def varsKnown (s : Body) (vars : List VarId) : Bool :=
  vars.all fun v => decide (v < s.vars.size)

def accessesKnown (s : Body) : Bool :=
  s.insnsKnown && s.allCode.all fun entry => entry.2.isFrameInsn || s.varsKnown entry.2.namedVars

/-- Every block that the analyses visit is in the arena; a block outside the layout is one without
instructions. -/
def visitsKnown (s : Body) (blocks : List BlockId) : Bool :=
  s.insnsKnown && blocks.all fun b => decide (b < s.handlers.size)

def listable (s : Body) : Bool :=
  s.blocksKnown && s.insnsKnown && s.varsKnown s.captured.toList &&
    s.allCode.all fun entry => s.varsKnown entry.2.namedVars

/-- The search for an own local that is moved meets an unknown variable first. -/
def moveSearchDangles (s : Body) : Bool :=
  let moved := s.allCode.filterMap fun entry => entry.2.movedVar?
  (moved.find? fun v => s.vars.isOwn v || !s.varsKnown [v]).any fun v => !s.varsKnown [v]

end Body

namespace Scope

mutual
def accessesKnown : Scope → Bool
  | node body closures => body.accessesKnown && accessesKnownOfList closures

def accessesKnownOfList : List Scope → Bool
  | [] => true
  | closure :: rest => closure.accessesKnown && accessesKnownOfList rest
end

def capturesKnown (s : Scope) : Bool := accessesKnownOfList s.closures

mutual
def listable : Scope → Bool
  | node body closures => body.listable && listableList closures

def listableList : List Scope → Bool
  | [] => true
  | closure :: rest => closure.listable && listableList rest
end

def placeDangles (s : Scope) (config : Config) : Bool :=
  let body := s.body
  let g := body.flowGraph
  let e := s.effects
  if !(body.blocksKnown && body.insnsKnown && s.capturesKnown) then true
  else match body.checkSetup g with
    | .error _ => false
    | .ok _ =>
        if !body.visitsKnown g.reversePostOrder then true
        else
          let searched := match body.insertMoves e g with
            | .ok (moved, _) => !e.needsFrame moved && moved.moveSearchDangles
            | .error _ => false
          let verified := match body.insertFrameInsns e g with
            | .ok (placed, _) => config.verify && placed.verifyDangles
            | .error _ => false
          searched || verified

def runAloneDangles (s : Scope) (config : Config) : Bool :=
  !s.body.isExempt && s.placeDangles config

mutual
/-- A run over the scope after its closures looks up an unknown identifier before it fails. -/
def runTreeDangles (config : Config) : Scope → Bool
  | node body closures =>
      runForestDangles config closures ||
        match runForest config closures with
        | (closures, .ok _) => (node body closures).runAloneDangles config
        | (_, .error _) => false

def runForestDangles (config : Config) : List Scope → Bool
  | [] => false
  | closure :: rest =>
      closure.runTreeDangles config ||
        match closure.runTree config with
        | (_, .ok _) => runForestDangles config rest
        | (_, .error _) => false
end

def runDangles (s : Scope) (config : Config) : Bool :=
  if config.includeClosures then s.runTreeDangles config else s.runAloneDangles config

end Scope

namespace Checked

open Fault (guarded require)

def var (s : Body) (v : VarId) : Except Fault Variable :=
  Fault.unknownId.require (s.vars.var? v)

def insn (s : Body) (i : InsnId) : Except Fault Insn := Fault.unknownId.require (s.insn? i)

def handler? (s : Body) (b : BlockId) : Except Fault (Option BlockId) :=
  Fault.unknownId.require s.handlers[b]?

def setHandler (s : Body) (b : BlockId) (handler : Option BlockId) : Except Fault Body :=
  guarded (decide (b < s.handlers.size)) (s.setHandler b handler)

def blockOf (l : Layout) (i : InsnId) : Except Fault BlockId :=
  Fault.notInLayout.require (l.blockOf? i)

def setCurrentHandler (b : Builder) (handler : Option BlockId) : Except Fault Builder := do
  let changed ← b.setHandler handler
  guarded (b.current?.all fun block => decide (block < b.scope.body.handlers.size)) changed

def insnText (s : Body) (i : InsnId) : Except Fault String := do
  let insn ← insn s i
  guarded (s.varsKnown insn.namedVars) (insn.text s.vars)

def listing (s : Scope) : Except Fault String := guarded s.listable s.listing

/-- Collecting interns variables of the closures, so their accesses are looked up in the result. -/
def collectCaptures (s : Scope) : Except Fault Scope :=
  guarded s.collectCaptures.capturesKnown s.collectCaptures

def flowGraph (s : Body) : Except Fault FlowGraph :=
  guarded (s.blocksKnown && s.insnsKnown) s.flowGraph

def captures (s : Scope) : Except Fault Captures := guarded s.capturesKnown s.captures

def calls (s : Body) : Except Fault (List InsnId) := guarded s.insnsKnown s.calls

def effects (s : Scope) : Except Fault Effects :=
  guarded (s.capturesKnown && s.body.insnsKnown) s.effects

/-- Solves a problem over a graph that may lead to blocks outside the scope. -/
def solve {F : Type} [DecidableEq F] (p : Problem F) (s : Body) (g : FlowGraph) :
    Except Fault (Except SetupError (Solution F)) :=
  match p.solve s g with
  | .error cause => .ok (.error cause)
  | .ok sol => guarded (s.visitsKnown sol.trace) (.ok sol)

def placeStores (e : Effects) (s : Body) (g : FlowGraph) :
    Except Fault (Except SetupError Placement) := do
  let _ ← solve e.storeProblem s g
  return e.placeStores s g

def placeLoads (e : Effects) (s : Body) (g : FlowGraph) :
    Except Fault (Except SetupError Placement) := do
  let _ ← solve e.loadProblem s g
  return e.placeLoads s g

/-- The placement of stores with the graph and the effects of the scope as it is. -/
def storePlacement (s : Scope) : Except Fault (Except SetupError Placement) := do
  let g ← flowGraph s.body
  let e ← effects s
  placeStores e s.body g

def loadPlacement (s : Scope) : Except Fault (Except SetupError Placement) := do
  let g ← flowGraph s.body
  let e ← effects s
  placeLoads e s.body g

def checkInvariants (s : Body) : Except Fault (Except PlacementError Unit) :=
  guarded (!s.verifyDangles) s.checkInvariants

def runAlone (config : Config) (s : Scope) :
    Except Fault (Scope × Except PlacementError Stats) :=
  guarded (!s.runAloneDangles config) (s.runAlone config)

def run (config : Config) (s : Scope) : Except Fault (Scope × Except PlacementError Stats) :=
  guarded (!s.runDangles config) (s.run config)

end Checked

end FramePlacement
