import FramePlacement.Scope
/-!
# Captured variables

A closure reaches the locals of its enclosing scopes through their binding frames.  An access is
keyed by the local's name and by how many scopes outward it lives, seen from the accessing closure;
one level further out the depth is one less.  The summary of a closure lists the variables of the
directly enclosing scope that the closure, or any closure nested in it, reads and writes.

Frame instructions only move values between a slot and a frame, so they access nothing.
-/

set_option autoImplicit false

namespace FramePlacement

/-- A local of an enclosing scope, as a closure sees it; the depth is at least one. -/
structure OuterLocal where
  name : String
  depth : Nat
deriving DecidableEq

namespace OuterLocal

def ofVariable? : Variable → Option OuterLocal
  | .named name depth => if 0 < depth then some { name, depth } else none
  | .temporary _ => none

/-- The same local seen from one scope further out, unless it lives right there. -/
def lift? (key : OuterLocal) : Option OuterLocal :=
  if 1 < key.depth then some { key with depth := key.depth - 1 } else none

def inParent (key : OuterLocal) : Variable := .named key.name (key.depth - 1)

def precedes (a b : OuterLocal) : Bool :=
  decide (a.name < b.name) || (a.name == b.name && a.depth < b.depth)

def enter (key : OuterLocal) : List OuterLocal → List OuterLocal
  | [] => [key]
  | other :: rest =>
      if key = other then other :: rest
      else if key.precedes other then key :: other :: rest
      else other :: enter key rest

def sort (keys : List OuterLocal) : List OuterLocal := keys.foldr enter []

end OuterLocal

structure FreeAccesses where
  reads : List OuterLocal := []
  writes : List OuterLocal := []

namespace FreeAccesses

def append (a b : FreeAccesses) : FreeAccesses :=
  { reads := a.reads ++ b.reads, writes := a.writes ++ b.writes }

def lift (a : FreeAccesses) : FreeAccesses :=
  { reads := a.reads.filterMap OuterLocal.lift?, writes := a.writes.filterMap OuterLocal.lift? }

end FreeAccesses

namespace Body

def outerLocal? (s : Body) (v : VarId) : Option OuterLocal :=
  (s.vars.var? v).bind OuterLocal.ofVariable?

def ownAccesses (s : Body) : FreeAccesses :=
  let accessing := s.allCode.filter fun entry => !entry.2.isFrameInsn
  { reads := (accessing.flatMap fun entry => entry.2.usedVars).filterMap s.outerLocal?
    writes := (accessing.filterMap fun entry => entry.2.result?).filterMap s.outerLocal? }

end Body

namespace Scope

mutual
def freeAccesses : Scope → FreeAccesses
  | node body closures => body.ownAccesses.append (freeAccessesOfList closures).lift

def freeAccessesOfList : List Scope → FreeAccesses
  | [] => {}
  | closure :: rest => closure.freeAccesses.append (freeAccessesOfList rest)
end

end Scope

/-- The variables of the enclosing scope that running a closure may read and write. -/
structure CaptureSummary where
  reads : IdSet := ∅
  writes : IdSet := ∅
deriving DecidableEq, Inhabited

namespace CaptureSummary

def touched (s : CaptureSummary) : IdSet := s.reads ∪ s.writes

def isEmpty (s : CaptureSummary) : Bool := s.reads.isEmpty && s.writes.isEmpty

end CaptureSummary

structure Captures where
  summaries : List CaptureSummary := []
deriving Inhabited

/-- The summary of a closure; an unknown closure captures nothing. -/
def Captures.summary (captures : Captures) (c : ClosureId) : CaptureSummary :=
  (captures.summaries[c]?).getD {}

namespace Scope

/-- The variables of the enclosing scope behind some keys; keys it has not interned are dropped. -/
def resolve (enclosing : VarTable) (keys : List OuterLocal) : IdSet :=
  IdSet.ofList (keys.filterMap fun key => enclosing.lookup? key.inParent)

def captureSummary (enclosing : VarTable) (closure : Scope) : CaptureSummary :=
  let accesses := closure.freeAccesses
  { reads := resolve enclosing accesses.reads, writes := resolve enclosing accesses.writes }

def captures (s : Scope) : Captures :=
  { summaries := s.closures.map (captureSummary s.body.vars) }

/-- Interns a captured local, and records it when it is the scope's own. -/
def recordCapture (body : Body) (key : OuterLocal) : Body :=
  let (v, body) := body.intern key.inParent
  if key.depth = 1 then { body with captured := body.captured.insert v } else body

def capturedKeys (closures : List Scope) : List OuterLocal :=
  OuterLocal.sort ((freeAccessesOfList closures).reads ++ (freeAccessesOfList closures).writes)

mutual
/-- Interns every variable captured by a nested closure and records the scope's own ones; nested
closures are collected first. -/
def collectCaptures : Scope → Scope
  | node body closures =>
      let closures := collectCapturesOfList closures
      node ((capturedKeys closures).foldl recordCapture body) closures

def collectCapturesOfList : List Scope → List Scope
  | [] => []
  | closure :: rest => closure.collectCaptures :: collectCapturesOfList rest
end

end Scope

end FramePlacement
