import FramePlacement.Scope
/-!
# Structural checks

The verifier walks a scope in layout order and lists what it finds; a scope is accepted when it
finds no violation, and otherwise the first one is reported.  Whether an instruction is in order
depends only on its neighbours in the block and on the allocations before it, so every finding is
stated on its own.

An identifier outside the arenas is a finding as well: it is no violation but a fault, and it stops
the walk.
-/

set_option autoImplicit false

namespace FramePlacement

/-- A rule that a scope breaks.  The first one concerns an insertion; the others are structural. -/
inductive Violation where
  | missingInsertionPoint (kind : String)
  | branchToMissingBlock (block : BlockId)
  | handlerNotInLayout (block : BlockId)
  | positionNotIncreasing (block : BlockId)
  | terminatorNotLast (block : BlockId)
  | missingAlloc
  | duplicateAlloc
  | allocOutsideEntry (block : BlockId)
  | bindingBeforeAlloc
  | bindingOfTemporary
deriving DecidableEq

namespace Violation

def message : Violation → String
  | missingInsertionPoint kind => "insertion point of `" ++ kind ++ "` is not in the layout"
  | branchToMissingBlock block =>
      "`" ++ blockLabel block ++ "` branches to a block missing from the layout"
  | handlerNotInLayout block => "handler of `" ++ blockLabel block ++ "` is missing from the layout"
  | positionNotIncreasing block =>
      "instruction positions of `" ++ blockLabel block ++ "` are not increasing"
  | terminatorNotLast block => "terminator in the middle of `" ++ blockLabel block ++ "`"
  | missingAlloc => "binding instruction without a frame allocation"
  | duplicateAlloc => "frame allocated more than once"
  | allocOutsideEntry block =>
      "frame allocated outside the entry block in `" ++ blockLabel block ++ "`"
  | bindingBeforeAlloc => "binding instruction before the frame allocation"
  | bindingOfTemporary => "binding instruction on a temporary"

end Violation

inductive Finding where
  | violation (cause : Violation)
  /-- An identifier that no arena holds. -/
  | dangling
deriving DecidableEq

namespace Finding

def violation? : Finding → Option Violation
  | violation cause => some cause
  | dangling => none

def ifBroken (broken : Bool) (cause : Violation) : List Finding :=
  if broken then [violation cause] else []

end Finding

namespace Body

def allocFindings (s : Body) (b : BlockId) (earlier : Code) : List Finding :=
  Finding.ifBroken (s.layout.entry? != some b) (.allocOutsideEntry b) ++
    Finding.ifBroken (earlier.any fun entry => entry.2.isAlloc) .duplicateAlloc

def movedFindings (s : Body) (v : VarId) : List Finding :=
  match s.vars.var? v with
  | none => [.dangling]
  | some x => Finding.ifBroken x.isTemporary .bindingOfTemporary

/-- The findings at one instruction of a block, given the code before it and whether another
instruction follows. -/
def insnFindings (s : Body) (b : BlockId) (earlier : Code) (i : InsnId) (insn : Insn)
    (followed : Bool) : List Finding :=
  let notAfter := match earlier.getLast? with
    | some (previous, _) => decide (s.layout.position i ≤ s.layout.position previous)
    | none => false
  Finding.ifBroken notAfter (.positionNotIncreasing b) ++
    Finding.ifBroken (insn.isTerminator && followed) (.terminatorNotLast b) ++
    Finding.ifBroken (insn.targets.any fun target => !s.layout.hasBlock target)
      (.branchToMissingBlock b) ++
    (if insn.isAlloc then s.allocFindings b earlier else []) ++
    match insn.movedVar? with
    | some v => s.movedFindings v
    | none => []

def codeFindings (s : Body) (b : BlockId) : Code → List InsnId → List Finding
  | _, [] => []
  | earlier, i :: rest =>
      match s.insn? i with
      | none => .dangling :: s.codeFindings b earlier rest
      | some insn =>
          s.insnFindings b earlier i insn (!rest.isEmpty) ++
            s.codeFindings b (earlier ++ [(i, insn)]) rest

def handlerFindings (s : Body) (b : BlockId) : List Finding :=
  match s.handlers[b]? with
  | none => [.dangling]
  | some none => []
  | some (some handler) => Finding.ifBroken (!s.layout.hasBlock handler) (.handlerNotInLayout b)

def blockFindings (s : Body) (b : BlockId) : List Finding :=
  s.handlerFindings b ++ s.codeFindings b [] (s.layout.insns b)

def movesOwn (s : Body) (insn : Insn) : Bool := insn.movedVar?.any s.vars.isOwn

/-- A scope that moves its own locals allocates its frame, and does so before. -/
def allocationFindings (s : Body) : List Finding :=
  let entryCode := (s.layout.entry?.map s.code).getD []
  match entryCode.find? fun entry => entry.2.isAlloc with
  | none => Finding.ifBroken (s.allCode.any fun entry => s.movesOwn entry.2) .missingAlloc
  | some (alloc, _) =>
      Finding.ifBroken (entryCode.any fun entry =>
        s.movesOwn entry.2 && s.layout.position entry.1 < s.layout.position alloc)
        .bindingBeforeAlloc

def findings (s : Body) : List Finding :=
  s.layout.blocks.flatMap s.blockFindings ++ s.allocationFindings

def violation? (s : Body) : Option Violation := s.findings.findSome? Finding.violation?

def verify (s : Body) : Except Violation Unit :=
  match s.violation? with
  | some cause => .error cause
  | none => .ok ()

/-- The walk meets an identifier outside the arenas before it finds a violation. -/
def verifyDangles (s : Body) : Bool := s.findings.head? == some .dangling

end Body

end FramePlacement
