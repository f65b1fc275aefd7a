import FramePlacement.Checked
/-!
# A placer and its memory

A placer handles scope after scope.  It keeps the graph and the effects of the scope at hand, the
queues of the analyses, and what the search for writes has visited and marked.  All of it is left
behind by the last scope, whatever became of that one, and is emptied before it is computed anew.
-/

set_option autoImplicit false

namespace FramePlacement

/-! ## Tables -/

namespace FlowGraph

def clear (g : FlowGraph) : FlowGraph :=
  { g with entry? := none, edges := [], excEdges := [], exits := [] }

def record (s : Body) (g : FlowGraph) (b : BlockId) : FlowGraph :=
  { g with
    edges := g.edges ++ (s.flowTargets b).map fun target => (b, target)
    excEdges := g.excEdges ++ (s.excTargets b).map fun handler => (b, handler)
    exits := if s.leaves b then g.exits ++ [b] else g.exits }

def compute (g : FlowGraph) (s : Body) : FlowGraph :=
  s.layout.blocks.foldl (record s) { g.clear with entry? := s.layout.entry? }

end FlowGraph

namespace Captures

def clear (captures : Captures) : Captures := { captures with summaries := [] }

/-- Records the summary of every closure of a scope.  A table keeps what it has at the identifiers
beyond. -/
def compute (captures : Captures) (s : Scope) : Captures :=
  let old := captures.clear
  { summaries := s.closures.map (Scope.captureSummary s.body.vars) ++
      old.summaries.drop s.closures.length }

end Captures

def IdMap.record {α : Type} (m : IdMap α) (pairs : List (Nat × α)) : IdMap α :=
  { m with entries := pairs ++ m.entries }

namespace Effects

def clear (_ : Effects) : Effects := {}

def compute (e : Effects) (s : Body) (captures : Captures) : Effects :=
  let old := e.clear
  let escapes := s.leaksBinding
  let candidates := old.candidates ∪ s.frameCandidates
  let enclosing := old.enclosing.insertAll s.vars.enclosing
  let calls := s.allCode.filter fun entry => entry.2.isCall
  let exposed (part : CaptureSummary → IdSet) : List (InsnId × IdSet) :=
    calls.map fun entry => (entry.1, Body.exposed escapes candidates captures part entry.2)
  { candidates
    enclosing
    exitObserved := if escapes then candidates else enclosing
    escapes
    observed := old.observed.record (exposed CaptureSummary.touched)
    clobbered := old.clobbered.record (exposed CaptureSummary.writes) }

end Effects

/-! ## The solver -/

/-- The memory of a solver: the blocks that wait, in order, and a flag for each of them. -/
structure Solver where
  queue : List BlockId := []
  waiting : IdSet := ∅

def Problem.recompute {F : Type} [DecidableEq F] (p : Problem F) (s : Body) (g : FlowGraph)
    (entry : BlockId) (sol : Solution F) (b : BlockId) : Bool × Solution F :=
  match p.direction with
  | .forward => p.visitForward s g entry sol b
  | .backward => p.visitBackward s g sol b

def Problem.dependents {F : Type} (p : Problem F) (g : FlowGraph) (b : BlockId) : IdSet :=
  match p.direction with
  | .forward => g.allSuccs b
  | .backward => g.allPreds b

namespace Solver

def clear (w : Solver) : Solver := { w with queue := [], waiting := ∅ }

def push (w : Solver) (b : BlockId) : Solver :=
  if b ∈ w.waiting then w else { queue := w.queue ++ [b], waiting := w.waiting.insert b }

variable {F : Type} [DecidableEq F]

def drain (p : Problem F) (s : Body) (g : FlowGraph) (entry : BlockId) :
    Nat → Solver → Solution F → Solver × Solution F
  | 0, w, sol => (w, sol)
  | limit + 1, w, sol =>
      match w.queue with
      | [] => (w, sol)
      | b :: rest =>
          let lowered : Solver := { queue := rest, waiting := w.waiting.erase b }
          let (changed, visited) := p.recompute s g entry { sol with trace := b :: sol.trace } b
          drain p s g entry limit
            (if changed then (p.dependents g b).toList.foldl push lowered else lowered) visited

/-- Solves a problem as `Problem.solve` does, with the queue of this solver. -/
def solve (w : Solver) (p : Problem F) (s : Body) (g : FlowGraph) :
    Solver × Except SetupError (Solution F) :=
  let w := w.clear
  match s.checkSetup g with
  | .error cause => (w, .error cause)
  | .ok entry =>
      let (w, sol) := drain p s g entry (p.visitLimit g) ((p.seed g).foldl push w)
        { p.start g with queue := [] }
      (w, .ok { sol with queue := w.queue })

end Solver

/-! ## Finding stores and loads -/

structure StoreFinder where
  solver : Solver := {}
  worklist : List ScanPoint := []
  visited : List (VarId × ScanPoint) := []
  marked : List Mark := []
  visits : Nat := 0

namespace StoreFinder

def clear (f : StoreFinder) : StoreFinder :=
  { f with solver := f.solver.clear, worklist := [], visited := [], marked := [], visits := 0 }

def precedes (a b : Mark) : Bool := a.1 < b.1 || (a.1 == b.1 && a.2 < b.2)

def enter (mark : Mark) : List Mark → List Mark
  | [] => [mark]
  | other :: rest =>
      if mark = other then other :: rest
      else if precedes mark other then mark :: other :: rest
      else other :: enter mark rest

variable (e : Effects) (s : Body) (g : FlowGraph) (sol : Solution IdSet)

/-- Looks upwards from a point: marks the write that is met first, or goes on where control came
from. -/
def look (v : VarId) (point : ScanPoint) (f : StoreFinder) : StoreFinder :=
  { f with
    worklist := (e.scan s g sol v point).reverse ++ f.worklist
    visited := (v, point) :: f.visited
    marked := match e.sight v (s.codeAbove point) with
      | .write i => enter (i, v) f.marked
      | _ => f.marked }

/-- Looks upwards from waiting points until none waits, each of them once. -/
def walk (v : VarId) : Nat → StoreFinder → StoreFinder
  | 0, f => f
  | limit + 1, f =>
      match f.worklist with
      | [] => f
      | point :: rest =>
          let popped : StoreFinder := { f with worklist := rest }
          walk v limit
            (if (v, point) ∈ f.visited then popped else look e s g sol v point popped)

def search (f : StoreFinder) (demand : VarId × ScanPoint) : StoreFinder :=
  let fanOut := g.edgeCount + s.allCode.length
  walk e s g sol demand.1 ((1 + fanOut) * (fanOut + 1))
    { f with worklist := demand.2 :: f.worklist }

def compute (f : StoreFinder) : StoreFinder × Except SetupError (List Mark) :=
  let f := f.clear
  match f.solver.solve e.storeProblem s g with
  | (solver, .error cause) => ({ f with solver }, .error cause)
  | (solver, .ok sol) =>
      let demands := s.layout.blocks.flatMap (e.unsyncedIn s g sol)
      let f := demands.foldl (search e s g sol) { f with solver, visits := sol.visits }
      (f, .ok f.marked)

end StoreFinder

structure LoadFinder where
  solver : Solver := {}
  visits : Nat := 0

namespace LoadFinder

def clear (f : LoadFinder) : LoadFinder := { f with solver := f.solver.clear, visits := 0 }

def compute (e : Effects) (s : Body) (g : FlowGraph) (f : LoadFinder) :
    LoadFinder × Except SetupError (List Mark) :=
  let f := f.clear
  match f.solver.solve e.loadProblem s g with
  | (solver, .error cause) => ({ f with solver }, .error cause)
  | (solver, .ok sol) => ({ f with solver, visits := sol.visits }, .ok (e.dueLoads s sol))

end LoadFinder

/-! ## Placing -/

/-- An object that handles scope after scope under one configuration. -/
structure Placer where
  config : Config
  graph : FlowGraph := {}
  captures : Captures := {}
  effects : Effects := {}
  stores : StoreFinder := {}
  loads : LoadFinder := {}

namespace Placer

def fresh (config : Config) : Placer := { config }

def clear (p : Placer) : Placer :=
  { p with
    graph := p.graph.clear
    captures := p.captures.clear
    effects := p.effects.clear
    stores := p.stores.clear
    loads := p.loads.clear }

def study (p : Placer) (s : Scope) : Placer :=
  let captures := p.captures.compute s
  { p with
    graph := p.graph.compute s.body
    captures
    effects := p.effects.compute s.body captures }

def addStores (p : Placer) (s : Body) : Placer × Body × Except PlacementError Stats :=
  match p.stores.compute p.effects s p.graph with
  | (stores, .error cause) => ({ p with stores }, s, .error (.setup cause))
  | (stores, .ok marks) =>
      match s.insertStores marks with
      | .error error => ({ p with stores }, s, .error error)
      | .ok stored =>
          ({ p with stores }, stored, .ok { stores := marks.length, visits := stores.visits })

def addLoads (p : Placer) (s : Body) : Placer × Body × Except PlacementError Stats :=
  match p.loads.compute p.effects s p.graph with
  | (loads, .error cause) => ({ p with loads }, s, .error (.setup cause))
  | (loads, .ok marks) =>
      match s.insertLoads marks with
      | .error error => ({ p with loads }, s, .error error)
      | .ok loaded =>
          ({ p with loads }, loaded, .ok { loads := marks.length, visits := loads.visits })

/-- Inserts stores and loads, and the stores that these loads need. -/
def addMoves (p : Placer) (s : Body) : Placer × Body × Except PlacementError Stats :=
  match p.addStores s with
  | (p, s, .error error) => (p, s, .error error)
  | (p, s, .ok first) =>
      match p.addLoads s with
      | (p, s, .error error) => (p, s, .error error)
      | (p, s, .ok second) =>
          if second.loads = 0 then (p, s, .ok (first + second))
          else
            match p.addStores s with
            | (p, s, .error error) => (p, s, .error error)
            | (p, s, .ok third) => (p, s, .ok (first + second + third))

/-- Places the frame instructions of a scope.  After a failure the body is what the last complete
round of insertions has made of it. -/
def place (p : Placer) (s : Scope) : Placer × Body × Except PlacementError Stats :=
  match (p.clear.study s).addMoves s.body with
  | (p, body, .error error) => (p, body, .error error)
  | (p, body, .ok stats) =>
      let (allocs, allocated) :=
        if p.effects.needsFrame body || body.movesOwnLocals then body.insertAlloc else (0, body)
      let placed := { allocated with layout := allocated.layout.renumber }
      if p.config.verify then
        match placed.checkInvariants with
        | .ok () => (p, placed, .ok (stats + { allocs }))
        | .error error => (p, placed, .error error)
      else (p, placed, .ok (stats + { allocs }))

/-- Handles the scope alone, not its closures.  A scope that fails is restored. -/
def runAlone (p : Placer) (s : Scope) : Placer × Scope × Except PlacementError Stats :=
  if s.body.isExempt then (p, s, .ok {})
  else
    let backup := s.body
    match p.place s with
    | (p, body, .ok stats) => (p, s.withBody body, .ok stats)
    | (p, _, .error error) =>
        match p.config.onError with
        | .abort => (p, s.withBody backup, .error error)
        | .fallback => (p, s.withBody { backup with eager := true }, .ok { fallbacks := 1 })

def runAfter (p : Placer) (done : Stats) (s : Scope) :
    Placer × Scope × Except PlacementError Stats :=
  match p.runAlone s with
  | (p, s, .ok stats) => (p, s, .ok (done + stats))
  | (p, s, .error error) => (p, s, .error error)

mutual
def runTree (p : Placer) : Scope → Placer × Scope × Except PlacementError Stats
  | .node body closures =>
      match runForest p closures with
      | (p, closures, .ok done) => p.runAfter done (.node body closures)
      | (p, closures, .error error) => (p, .node body closures, .error error)

def runForest (p : Placer) : List Scope → Placer × List Scope × Except PlacementError Stats
  | [] => (p, [], .ok {})
  | closure :: rest =>
      match runTree p closure with
      | (p, closure, .error error) => (p, closure :: rest, .error error)
      | (p, closure, .ok done) =>
          match runForest p rest with
          | (p, rest, .ok more) => (p, closure :: rest, .ok (done + more))
          | (p, rest, .error error) => (p, closure :: rest, .error error)
end

def run (p : Placer) (s : Scope) : Placer × Scope × Except PlacementError Stats :=
  if p.config.includeClosures then p.runTree s else p.runAfter {} s

end Placer

/-! ## Modules -/

/-- A top level scope of a module, with its result once a worker has handled it. -/
structure Slot where
  scope : Scope
  result? : Option (Except PlacementError Stats) := none

def Slot.handle (config : Config) (slot : Slot) : Slot :=
  match (Placer.fresh config).run slot.scope with
  | (_, scope, result) => { scope, result? := some result }

/-- Handles the top level scopes in the order in which workers take them up.  The results are
collected in the order of the module, whatever that order was. -/
def runInOrder (config : Config) (order : List Nat) (scopes : List Scope) :
    List Scope × Except PlacementError Stats :=
  let slots := order.foldl (fun slots i => slots.modify i (Slot.handle config))
    (scopes.map fun scope => { scope })
  (slots.map Slot.scope, sumResults (slots.filterMap Slot.result?))

/-! ## Checked runs -/

namespace Checked

open Fault (guarded)

def placeAlone (p : Placer) (s : Scope) :
    Except Fault (Placer × Scope × Except PlacementError Stats) :=
  guarded (!s.runAloneDangles p.config) (p.runAlone s)

def placeAll (p : Placer) (s : Scope) :
    Except Fault (Placer × Scope × Except PlacementError Stats) :=
  guarded (!s.runDangles p.config) (p.run s)

def placeModule (config : Config) (order : List Nat) (scopes : List Scope) :
    Except Fault (List Scope × Except PlacementError Stats) :=
  guarded (!scopes.any fun s => s.runDangles config) (runInOrder config order scopes)

end Checked

end FramePlacement
