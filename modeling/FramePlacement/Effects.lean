import FramePlacement.Capture
/-!
# Frame effects

Which binding frames the instructions of one scope expose.  A candidate is a variable whose value
may live in a frame.  A call exposes the candidates that its block touches; once the binding
escapes, every call and every exit exposes all of them.
-/

set_option autoImplicit false

namespace FramePlacement

structure Effects where
  candidates : IdSet := ∅
  /-- Candidates that live in the frame of an enclosing scope. -/
  enclosing : IdSet := ∅
  /-- Candidates whose frame value must be current when control leaves the scope. -/
  exitObserved : IdSet := ∅
  /-- Any call can reach the frame: the scope says so, or a closure is handed out as a value. -/
  escapes : Bool := false
  /-- Candidates that nested code may read or write while an instruction runs. -/
  observed : IdMap IdSet := IdMap.const ∅
  clobbered : IdMap IdSet := IdMap.const ∅
deriving Inhabited

namespace Insn

/-- The operands that hand a closure out as a value: all but the block of a call. -/
def valueOperands : Insn → List Operand
  | call _ receiver _ args _ => receiver :: args
  | insn => insn.operands

/-- A closure is handed out as a value, so that it may run at any later point. -/
def leaksClosure (insn : Insn) : Bool :=
  insn.valueOperands.any fun op => !op.closures.isEmpty

def blockClosure? : Insn → Option ClosureId
  | call _ _ _ _ block => block.bind Operand.asClosure?
  | _ => none

end Insn

namespace Body

def leaksBinding (s : Body) : Bool :=
  s.escapes || s.allCode.any fun entry => entry.2.leaksClosure

def frameCandidates (s : Body) : IdSet :=
  let own := if s.leaksBinding then s.captured.insertAll s.vars.declared else s.captured
  own.insertAll s.vars.enclosing

/-- The candidates that a call exposes to nested code: all of them once the binding leaks, and
otherwise those that its block touches. -/
def exposed (leaks : Bool) (candidates : IdSet) (captures : Captures)
    (part : CaptureSummary → IdSet) (insn : Insn) : IdSet :=
  if leaks then candidates
  else match insn.blockClosure? with
    | some c => part (captures.summary c) ∩ candidates
    | none => ∅

def calls (s : Body) : List InsnId :=
  (s.allCode.filter fun entry => entry.2.isCall).map Prod.fst

def exposure (s : Body) (captures : Captures) (part : CaptureSummary → IdSet) : IdMap IdSet :=
  let leaks := s.leaksBinding
  let candidates := s.frameCandidates
  let calls := s.allCode.filter fun entry => entry.2.isCall
  IdMap.ofPairs ∅
    (calls.map fun entry => (entry.1, exposed leaks candidates captures part entry.2))

def effects (s : Body) (captures : Captures) : Effects :=
  let enclosing := IdSet.ofList s.vars.enclosing
  { candidates := s.frameCandidates
    enclosing
    exitObserved := if s.leaksBinding then s.frameCandidates else enclosing
    escapes := s.leaksBinding
    observed := s.exposure captures CaptureSummary.touched
    clobbered := s.exposure captures CaptureSummary.writes }

end Body

namespace Effects

def isCandidate (e : Effects) (v : VarId) : Bool := e.candidates.contains v

def needsFrame (e : Effects) (s : Body) : Bool := e.escapes || !s.captured.isEmpty

end Effects

def Scope.effects (s : Scope) : Effects := s.body.effects s.captures

end FramePlacement
