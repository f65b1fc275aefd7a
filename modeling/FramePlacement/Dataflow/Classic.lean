import FramePlacement.Dataflow.Problem
/-!
# Classic problems on variables

Four problems whose facts are sets of variables.  Two look forward at definitions, two look backward
at uses; of each pair one asks what holds on every path and meets by intersection, the other what
holds on some path and meets by union.
-/

set_option autoImplicit false

namespace FramePlacement.Classic

def define (insn : Insn) (fact : IdSet) : IdSet :=
  match insn.result? with
  | some v => fact.insert v
  | none => fact

/-- Before an instruction its result is not yet awaited, and its uses are. -/
def await (insn : Insn) (fact : IdSet) : IdSet :=
  let rest := match insn.result? with
    | some v => fact.erase v
    | none => fact
  rest.insertAll insn.usedVars

def mentioned (s : Body) : IdSet :=
  IdSet.ofList (s.allCode.flatMap fun entry => entry.2.usedVars ++ entry.2.result?.toList)

/-- The variables defined on every path from the entry. -/
def mustDefined (s : Body) (everything boundary : IdSet) : Problem IdSet where
  name := "must_defined"
  direction := .forward
  boundary := boundary
  initial := everything
  meet := (· ∩ ·)
  transfer _ insn := define insn
  height := (mentioned s ∪ everything ∪ boundary).size

/-- The variables defined on some path from the entry; a raising instruction counts its uses. -/
def mayDefined (s : Body) (boundary : IdSet) : Problem IdSet where
  name := "may_defined"
  direction := .forward
  boundary := boundary
  initial := ∅
  meet := (· ∪ ·)
  transfer _ insn := define insn
  transferRaise _ insn fact := fact.insertAll insn.usedVars
  height := (mentioned s ∪ boundary).size

/-- The variables whose value some path to an exit still reads. -/
def live (s : Body) (boundary : IdSet) : Problem IdSet where
  name := "live"
  direction := .backward
  boundary := boundary
  initial := ∅
  meet := (· ∪ ·)
  transfer _ insn := await insn
  transferRaise _ insn fact := fact.insertAll insn.usedVars
  height := (mentioned s ∪ boundary).size

/-- The variables whose value every path to an exit reads. -/
def anticipated (s : Body) (everything boundary : IdSet) : Problem IdSet where
  name := "anticipated"
  direction := .backward
  boundary := boundary
  initial := everything
  meet := (· ∩ ·)
  transfer _ insn := await insn
  height := (mentioned s ∪ everything ∪ boundary).size

end FramePlacement.Classic
