import FramePlacement.Dataflow.Solver
import FramePlacement.Effects
import FramePlacement.Reach
/-!
# Placement of stores

A candidate is synced at a point when its frame is known to hold its current value on every path to
the point.  Wherever the frame of a candidate is observed while the candidate is not synced, the
writes of its slot that reach this point are found by walking up until a write or a sync, and a
store is due right after each of these writes.
-/

set_option autoImplicit false

namespace FramePlacement

/-- An instruction and the variable moved beside it. -/
abbrev Mark := InsnId × VarId

structure Placement where
  marks : List Mark
  visits : Nat
deriving DecidableEq

namespace Effects

/-- The sync of candidates as a fact that holds on every path.  Nested code that observes a variable
runs before the result of its call is written. -/
def storeProblem (e : Effects) : Problem IdSet where
  name := "binding_store"
  direction := .forward
  boundary := e.candidates
  initial := e.candidates
  meet := (· ∩ ·)
  transfer i insn fact :=
    match insn.movedVar? with
    | some v => if e.isCandidate v then fact.insert v else fact
    | none =>
        let told := fact ∪ e.observed.get i
        match insn.result? with
        | some dst => told.erase dst
        | none => told
  transferRaise i _ fact := fact ∪ e.observed.get i
  height := e.candidates.size

/-- The candidates whose frame value must be current right before an instruction; `canLeave` says
that an exception raised there leaves the scope. -/
def observation (e : Effects) (canLeave : Bool) (i : InsnId) : Insn → IdSet
  | .loadFrame v => if e.isCandidate v then IdSet.ofList [v] else ∅
  | .call _ _ _ _ _ =>
      if canLeave then e.observed.get i ∪ e.exitObserved else e.observed.get i
  | .ret _ => e.exitObserved
  | .raise _ => if canLeave then e.exitObserved else ∅
  | _ => ∅

/-- After the instruction the frame of `v` holds the value its slot had before it. -/
def syncs (e : Effects) (v : VarId) (i : InsnId) (insn : Insn) : Bool :=
  match insn.movedVar? with
  | some w => w == v
  | none => (e.observed.get i).contains v

end Effects

/-- The instruction computes a new value into the slot of `v`. -/
def Insn.writesSlot (insn : Insn) (v : VarId) : Bool :=
  !insn.isFrameInsn && insn.result? == some v

inductive ScanPoint where
  | bottom (block : BlockId)
  | before (insn : InsnId)
deriving DecidableEq

inductive Sighting where
  | top
  | sync
  | write (insn : InsnId)
deriving DecidableEq

namespace Body

def blockAt? (s : Body) : ScanPoint → Option BlockId
  | .bottom b => some b
  | .before i => s.layout.blockOf? i

/-- The instructions above a point in its block, the nearest first. -/
def codeAbove (s : Body) : ScanPoint → Code
  | .bottom b => (s.code b).reverse
  | .before i =>
      match s.layout.blockOf? i with
      | some b => ((s.code b).takeWhile fun entry => entry.1 != i).reverse
      | none => []

/-- Control leaves the scope by running past the last instruction of the block. -/
def fallsOffEnd (s : Body) (g : FlowGraph) (b : BlockId) : Bool :=
  (g.succs b).isEmpty && (s.terminator? b).isNone

end Body

namespace Effects

def sight (e : Effects) (v : VarId) : Code → Sighting
  | [] => .top
  | (i, insn) :: above =>
      if insn.writesSlot v then .write i
      else if e.syncs v i insn then .sync
      else e.sight v above

/-- The points from which a walk goes on that reached the top of a block: where control came from
with `v` not synced. -/
def continuations (e : Effects) (s : Body) (g : FlowGraph) (sol : Solution IdSet) (v : VarId)
    (b : BlockId) : List ScanPoint :=
  let ends := (g.preds b).toList.filter fun pred => !(sol.outs.get pred).contains v
  let raising := (g.excPreds b).toList.filter fun pred => !(sol.excOuts.get pred).contains v
  let throws := (raising.flatMap s.code).filter fun entry =>
    entry.2.canRaise && !(e.observed.get entry.1).contains v
  ends.map ScanPoint.bottom ++ throws.map fun entry => ScanPoint.before entry.1

def scan (e : Effects) (s : Body) (g : FlowGraph) (sol : Solution IdSet) (v : VarId)
    (point : ScanPoint) : List ScanPoint :=
  match e.sight v (s.codeAbove point), s.blockAt? point with
  | .top, some b => e.continuations s g sol v b
  | _, _ => []

/-- The writes of `v` that reach one of some points without a sync. -/
def reachingWrites (e : Effects) (s : Body) (g : FlowGraph) (sol : Solution IdSet) (v : VarId)
    (points : List ScanPoint) : List InsnId :=
  let fanOut := g.edgeCount + s.allCode.length
  let limit := (points.length + fanOut) * (fanOut + 1)
  (reach (e.scan s g sol v) limit points []).filterMap fun point =>
    match e.sight v (s.codeAbove point) with
    | .write i => some i
    | _ => none

def unsynced (e : Effects) (canLeave : Bool) : Code → IdSet → List (VarId × ScanPoint)
  | [], _ => []
  | (i, insn) :: rest, fact =>
      ((e.observation canLeave i insn \ fact).toList.map fun v => (v, ScanPoint.before i)) ++
        e.unsynced canLeave rest (e.storeProblem.transfer i insn fact)

def unsyncedIn (e : Effects) (s : Body) (g : FlowGraph) (sol : Solution IdSet) (b : BlockId) :
    List (VarId × ScanPoint) :=
  let fact := sol.ins.get b
  let inside := e.unsynced (s.handler? b).isNone (s.code b) fact
  if s.fallsOffEnd g b then
    let atEnd := e.storeProblem.after (s.code b) fact
    inside ++ (e.exitObserved \ atEnd).toList.map fun v => (v, ScanPoint.bottom b)
  else inside

def dueStores (e : Effects) (s : Body) (g : FlowGraph) (sol : Solution IdSet) : List Mark :=
  let demands := s.layout.blocks.flatMap (e.unsyncedIn s g sol)
  let writes := (IdSet.ofList (demands.map Prod.fst)).toList.flatMap fun v =>
    e.reachingWrites s g sol v ((demands.filter fun demand => demand.1 == v).map Prod.snd)
  (IdSet.ofList writes).toList.filterMap fun i =>
    ((s.insn? i).bind Insn.result?).map fun v => (i, v)

/-- The writes that a store must follow, ascending, each with the variable it writes. -/
def placeStores (e : Effects) (s : Body) (g : FlowGraph) : Except SetupError Placement :=
  match e.storeProblem.solve s g with
  | .ok sol => .ok { marks := e.dueStores s g sol, visits := sol.visits }
  | .error cause => .error cause

end Effects

end FramePlacement
