import FramePlacement.Placement.Store
/-!
# Placement of loads

A variable is stale at a point when on some path its frame may hold a newer value than its slot: an
enclosing local at the start, and every variable that nested code may have written.  Each read of a
stale variable is due a load right before it, which keeps the slot fresh until nested code may write
the variable again; so the analysis describes the scope after the loads have been placed.
-/

set_option autoImplicit false

namespace FramePlacement

namespace Effects

/-- What is stale after an instruction has read its operands and nested code has run. -/
def staleAfterReads (e : Effects) (i : InsnId) (insn : Insn) (fact : IdSet) : IdSet :=
  fact.eraseAll insn.usedVars ∪ e.clobbered.get i

/-- Staleness as a fact that holds on some path. -/
def loadProblem (e : Effects) : Problem IdSet where
  name := "binding_load"
  direction := .forward
  boundary := e.enclosing
  initial := ∅
  meet := (· ∪ ·)
  transfer i insn fact :=
    match insn.movedVar? with
    | some v => fact.erase v
    | none =>
        let stale := e.staleAfterReads i insn fact
        match insn.result? with
        | some dst => stale.erase dst
        | none => stale
  transferRaise i insn fact := e.staleAfterReads i insn fact
  height := e.candidates.size

end Effects

/-- The stale variables among some reads, each at its first read. -/
def firstStale : IdSet → List VarId → List VarId
  | _, [] => []
  | stale, v :: rest =>
      if v ∈ stale then v :: firstStale (stale.erase v) rest else firstStale stale rest

namespace Effects

def staleReads (e : Effects) : Code → IdSet → List Mark
  | [], _ => []
  | (i, insn) :: rest, fact =>
      let due := if insn.isFrameInsn then [] else firstStale fact insn.usedVars
      due.map (fun v => (i, v)) ++ e.staleReads rest (e.loadProblem.transfer i insn fact)

def dueLoads (e : Effects) (s : Body) (sol : Solution IdSet) : List Mark :=
  s.layout.blocks.flatMap fun b => e.staleReads (s.code b) (sol.ins.get b)

/-- The reads that a load must precede, in layout order, each with the variable it reads. -/
def placeLoads (e : Effects) (s : Body) (g : FlowGraph) : Except SetupError Placement :=
  match e.loadProblem.solve s g with
  | .ok sol => .ok { marks := e.dueLoads s sol, visits := sol.visits }
  | .error cause => .error cause

end Effects

end FramePlacement
