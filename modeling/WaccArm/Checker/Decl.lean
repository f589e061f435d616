import WaccArm.Scope.Chain
import WaccArm.Types.Compatible

namespace WaccArm

/-- A variable with its type, or a function with its label and its type. -/
inductive Decl where
  | variable (type : Ty)
  | function (label : String) (type : Ty)
deriving Repr

namespace Decl

def isVariable : Decl → Bool
  | .variable _ => true
  | .function .. => false

def isFunction : Decl → Bool
  | .variable _ => false
  | .function .. => true

/-- The parameter types of a function. -/
def params? : Decl → Option (List Ty)
  | .variable _ => none
  | .function _ type => type.params?

/-- Whether two parameter lists are compatible. Missing ones are compatible with each other. -/
def sameParams : Option (List Ty) → Option (List Ty) → Bool
  | some as, some bs => Ty.compatibleAll as bs
  | none, none => true
  | _, _ => false

/-- Whether the declaration is a function that takes arguments of the given types. -/
def takes (types : List Ty) (decl : Decl) : Bool := sameParams decl.params? (some types)

/-- Two functions of one name may stand in one scope if their parameters differ. Anything else
collides. -/
def collides : Decl → Decl → Bool
  | a@(.function ..), b@(.function ..) => sameParams a.params? b.params?
  | _, _ => true

instance : Binding Decl := ⟨collides⟩

end Decl

/-- The declarations that can be seen from a point of the program. -/
abbrev Env := Chain Decl

end WaccArm
