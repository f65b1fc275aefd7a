import FramePlacement.Literal.Number
import FramePlacement.Literal.Quoted
import FramePlacement.Scope
/-!
# Listings

The listing of a scope shows its variables, its flags, its blocks in layout order and its closures,
each nesting level indented by four spaces.  A listing is a list of lines; every line ends with a
line break.
-/

set_option autoImplicit false

namespace FramePlacement

def commaSeparated (parts : List String) : String := ", ".intercalate parts

namespace Operand

mutual
def text (vars : VarTable) : Operand → String
  | var v => vars.text v
  | int value => toString value
  | float value => value.text
  | str value => Literal.quote value
  | symbol name => ":" ++ name
  | regexp source options => "/" ++ source ++ "/" ++ toString options
  | nil => "nil"
  | bool value => if value then "true" else "false"
  | array elems => "[" ++ commaSeparated (textsOfList vars elems) ++ "]"
  | hash pairs => "\x7b" ++ commaSeparated (textsOfPairs vars pairs) ++ "\x7d"
  | closure c => closureLabel c
  | selfValue => "self"
  | currentScope => "%current_scope"
  | scopeModule => "%scope_module"

def textsOfList (vars : VarTable) : List Operand → List String
  | [] => []
  | op :: rest => op.text vars :: textsOfList vars rest

def textsOfPairs (vars : VarTable) : List (Operand × Operand) → List String
  | [] => []
  | (key, value) :: rest => (key.text vars ++ " => " ++ value.text vars) :: textsOfPairs vars rest
end

end Operand

namespace Insn

/-- The variable shown on the left of an instruction; a load names its variable on the right. -/
def shownResult? : Insn → Option VarId
  | loadFrame _ => none
  | insn => insn.result?

def details (vars : VarTable) : Insn → String
  | receiveArg _ index => " " ++ toString index
  | copy _ src => " " ++ src.text vars
  | call _ receiver method args block =>
      let passed := match block with
        | some op => " &" ++ op.text vars
        | none => ""
      " " ++ receiver.text vars ++ "." ++ method ++ "(" ++
        commaSeparated (args.map (Operand.text vars)) ++ ")" ++ passed
  | receiveException _ | allocFrame => ""
  | jump dest => " " ++ blockLabel dest
  | branch cond onTrue onFalse =>
      " " ++ cond.text vars ++ " " ++ blockLabel onTrue ++ " " ++ blockLabel onFalse
  | ret op | raise op => " " ++ op.text vars
  | storeFrame v | loadFrame v => " " ++ vars.text v

def text (vars : VarTable) (insn : Insn) : String :=
  let target := match insn.shownResult? with
    | some v => vars.text v ++ " = "
    | none => ""
  target ++ insn.mnemonic ++ insn.details vars

end Insn

def indented (level : Nat) (text : String) : String :=
  String.ofList (List.replicate (4 * level) ' ') ++ text

namespace Body

def blockHeader (s : Body) (b : BlockId) : String :=
  match s.handler? b with
  | some handler => blockLabel b ++ " (handler " ++ blockLabel handler ++ "):"
  | none => blockLabel b ++ ":"

def blockLines (s : Body) (level : Nat) (b : BlockId) : List String :=
  ["", indented level (s.blockHeader b)] ++
    (s.code b).map fun entry => indented (level + 1) (entry.2.text s.vars ++ ";")

def headLines (s : Body) : List String :=
  let names (vars : List VarId) : String := commaSeparated (vars.map s.vars.text)
  (if s.vars.size = 0 then [] else ["vars: " ++ names (List.range s.vars.size)]) ++
    (if s.captured.isEmpty then [] else ["captured: " ++ names s.captured.toList]) ++
    (if s.escapes then ["binding_escapes"] else []) ++
    (if s.eager then ["eager_binding"] else [])

def lines (s : Body) (level : Nat) : List String :=
  s.headLines.map (indented level) ++ s.layout.blocks.flatMap (s.blockLines level)

end Body

namespace Scope

mutual
def linesAt (level : Nat) : Scope → List String
  | node body closures =>
      [indented level (body.kind.text ++ " " ++ body.name ++ " \x7b")] ++
        body.lines (level + 1) ++ closureLinesAt (level + 1) 0 closures ++
        [indented level "\x7d"]

def closureLinesAt (level : Nat) (c : ClosureId) : List Scope → List String
  | [] => []
  | closure :: rest =>
      ["", indented level (closureLabel c ++ ":")] ++ closure.linesAt level ++
        closureLinesAt level (c + 1) rest
end

def listing (s : Scope) : String := String.join ((s.linesAt 0).map fun line => line ++ "\n")

end Scope

end FramePlacement
