import WaccArm.Tree.Program
import WaccArm.Types.Ty

namespace WaccArm

/-- What was asked of the type of an expression. -/
inductive Demand where
  | exactly (type : Ty)
  | intOrChar
  | array
  | pairOrArray
deriving Repr

def Demand.text : Demand → String
  | exactly type => type.text
  | intOrChar => "INT or CHAR"
  | array => "T[]"
  | pairOrArray => "PAIR or T[]"

inductive CheckFault where
  /-- A variable, or a function if there are parameter types, is declared twice in one scope. -/
  | redeclared (name : String) (params : Option (List Ty))
  | undeclared (name : String)
  | mismatch (expr : Source.Expr) (expected : Demand) (actual : Ty)
  | noOverload (name : String) (args : List Ty)
  | globalReturn
  | missingTerminator (name : String)
deriving Repr

/-- A function by its name and the types of its arguments. -/
private def applied (name : String) (types : List Ty) : String :=
  name ++ "(" ++ Ty.listText types ++ ")"

def CheckFault.message : CheckFault → String
  | redeclared name none => "\"" ++ name ++ "\" is already defined in this scope"
  | redeclared name (some params) =>
    "\"" ++ applied name params ++ "\" is already defined in this scope"
  | undeclared name => "\"" ++ name ++ "\" is not defined in this scope"
  | mismatch expr expected actual =>
    "Incompatible type at \"" ++ expr.render ++ "\" (expected: " ++ expected.text ++ ", actual: "
      ++ actual.text ++ ")"
  | noOverload name args => "\"" ++ applied name args ++ "\" is not defined in this scope"
  | globalReturn => "Cannot return from the global scope."
  | missingTerminator name =>
    "Function " ++ name ++ " is not ended with a return or an exit statement."

/-- A fault and the place it is blamed on. -/
abbrev CheckError := Located CheckFault

end WaccArm
