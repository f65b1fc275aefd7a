import FramePlacement.Capture
import FramePlacement.Variable.Indexed
/-!
# Building scopes with indexed variables

A scope is built from nothing by steps: it interns a local, makes a temporary, nests a closure that
was built in the same way, or collects what its closures capture, which interns variables in every
scope of the tree.  All other operations leave the variables alone.

The steps are taken on two kinds of scopes.  Those of the first kind have the tables of `Scope`.
Those of the second kind (`IndexedScope`) keep beside the table of each scope the array and the hash
index that a lookup goes through.
-/

set_option autoImplicit false

namespace FramePlacement

inductive ScopeStep where
  | named (name : String) (depth : Nat)
  | temporary
  /-- Nests a closure, built from nothing by steps of its own. -/
  | closure (name : String) (steps : List ScopeStep)
  | collect
  /-- Changes anything but the variables and the closures. -/
  | edit (change : Body → Body)

def Body.edit (s : Body) (change : Body → Body) : Body := { change s with vars := s.vars }

namespace Scope

mutual
def take (s : Scope) : ScopeStep → Scope
  | .named name depth => s.withBody (s.body.intern (.named name depth)).2
  | .temporary => s.withBody s.body.makeTemporary.2
  | .closure name steps => (s.addClosure ((empty name .closure).takeAll steps)).2
  | .collect => s.collectCaptures
  | .edit change => s.withBody (s.body.edit change)

def takeAll (s : Scope) : List ScopeStep → Scope
  | [] => s
  | step :: rest => (s.take step).takeAll rest
end

end Scope

/-- Interns captured locals, each as a variable of the directly enclosing scope. -/
def IndexedVars.internAll [Hashable Variable] (k : IndexedVars) (keys : List OuterLocal) :
    IndexedVars :=
  keys.foldl (fun k key => (k.intern key.inParent).2) k

/-- A scope whose variables are kept a second time, with an index, and so are those of the closures
in it. -/
inductive IndexedScope [Hashable Variable] where
  | node (body : Body) (vars : IndexedVars) (closures : List IndexedScope)

namespace IndexedScope

variable [Hashable Variable]

def body : IndexedScope → Body
  | node body _ _ => body

def vars : IndexedScope → IndexedVars
  | node _ vars _ => vars

def closures : IndexedScope → List IndexedScope
  | node _ _ closures => closures

def empty (name : String) (kind : ScopeKind) : IndexedScope := node { name, kind } {} []

def withBody (t : IndexedScope) (body : Body) (vars : IndexedVars) : IndexedScope :=
  node body vars t.closures

def addClosure (t : IndexedScope) (closure : IndexedScope) : IndexedScope :=
  node t.body t.vars (t.closures ++ [closure])

mutual
/-- The scope without the indexes. -/
def scope : IndexedScope → Scope
  | node body _ closures => .node body (scopes closures)

def scopes : List IndexedScope → List Scope
  | [] => []
  | closure :: rest => closure.scope :: scopes rest
end

mutual
def collect : IndexedScope → IndexedScope
  | node body vars closures =>
      let closures := collectOfList closures
      let keys := Scope.capturedKeys (scopes closures)
      node (keys.foldl Scope.recordCapture body) (vars.internAll keys) closures

def collectOfList : List IndexedScope → List IndexedScope
  | [] => []
  | closure :: rest => closure.collect :: collectOfList rest
end

mutual
def take (t : IndexedScope) : ScopeStep → IndexedScope
  | .named name depth =>
      t.withBody (t.body.intern (.named name depth)).2 (t.vars.intern (.named name depth)).2
  | .temporary => t.withBody t.body.makeTemporary.2 t.vars.makeTemporary.2
  | .closure name steps => t.addClosure ((empty name .closure).takeAll steps)
  | .collect => t.collect
  | .edit change => t.withBody (t.body.edit change) t.vars

def takeAll (t : IndexedScope) : List ScopeStep → IndexedScope
  | [] => t
  | step :: rest => (t.take step).takeAll rest
end

def built (name : String) (kind : ScopeKind) (steps : List ScopeStep) : IndexedScope :=
  (empty name kind).takeAll steps

def at? : List ClosureId → IndexedScope → Option IndexedScope
  | [], t => some t
  | c :: path, t => (t.closures[c]?).bind (at? path)

end IndexedScope

end FramePlacement
