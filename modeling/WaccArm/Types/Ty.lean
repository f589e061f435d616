import WaccArm.Tree.Operator
import WaccArm.Tree.TypeExpr

namespace WaccArm

inductive Ty where
  | int | bool | char | str
  | array (elem : Option Ty) (dims : Nat)
  | pair (fst snd : Option Ty)
  | function (ret : Ty) (params : List Ty)
deriving Repr

namespace Ty

/-- A pair of which neither side is known. -/
def anyPair : Ty := .pair none none

/-- The type of an empty array literal. -/
def emptyArray : Ty := .array none 1

/-- The type that a written type stands for. -/
def ofExpr : TypeExpr → Ty
  | .int => .int
  | .bool => .bool
  | .char => .char
  | .string => .str
  | .array elem dims => .array (some (ofExpr elem)) dims
  | .pair none none => .pair none none
  | .pair (some fst) none => .pair (some (ofExpr fst)) none
  | .pair none (some snd) => .pair none (some (ofExpr snd))
  | .pair (some fst) (some snd) => .pair (some (ofExpr fst)) (some (ofExpr snd))

/-- The type of an array literal whose first element has the given type. -/
def arrayOf : Ty → Ty
  | .array elem dims => .array elem (dims + 1)
  | elem => .array (some elem) 1

/-- The type with a string at the top, or as the element of an array at the top, spelled out as an
array of characters. -/
def spelled : Ty → Ty
  | .str => .array (some .char) 1
  | .array (some .str) dims => .array (some .char) (dims + 1)
  | t => t

/-- The number of bytes that a value takes in memory. -/
def size : Ty → Nat
  | .bool | .char => 1
  | _ => 4

def isArray : Ty → Bool
  | .array .. | .str => true
  | _ => false

def isPair : Ty → Bool
  | .pair .. => true
  | _ => false

def isString (t : Ty) : Bool :=
  match t.spelled with
  | .array (some .char) 1 => true
  | _ => false

/-- The number of dimensions of an array. -/
def dims? (t : Ty) : Option Nat :=
  match t.spelled with
  | .array _ dims => some dims
  | _ => none

/-- The type of an array after `n` indices. -/
def index? (t : Ty) (n : Nat) : Option Ty :=
  match t.spelled with
  | .array elem dims =>
    if n < dims then some (.array elem (dims - n))
    else if n = dims then some (elem.getD anyPair)
    else none
  | _ => none

/-- The type of a side of a pair. A side that is not known is a pair. -/
def side? (t : Ty) (side : Side) : Option Ty :=
  match t, side with
  | .pair fst _, .fst => some (fst.getD anyPair)
  | .pair _ snd, .snd => some (snd.getD anyPair)
  | _, _ => none

/-- What a pair keeps of the type of a value put into it: a pair is forgotten. -/
def erased (t : Ty) : Option Ty := if t.isPair then none else some t

def ret? : Ty → Option Ty
  | .function ret _ => some ret
  | _ => none

def params? : Ty → Option (List Ty)
  | .function _ params => some params
  | _ => none

mutual

/-- The written form in messages. -/
def text : Ty → String
  | .int => "INT"
  | .bool => "BOOL"
  | .char => "CHAR"
  | .str => "STRING"
  | .array elem dims => elemText elem ++ String.join (List.replicate dims "[]")
  | .pair none none => "PAIR"
  | .pair fst snd => "PAIR(" ++ sideText fst ++ "," ++ sideText snd ++ ")"
  | .function ret params => text ret ++ "(" ++ String.intercalate "," (texts params) ++ ")"

def elemText : Option Ty → String
  | none => "T"
  | some t => text t

def sideText : Option Ty → String
  | none => "PAIR"
  | some t => text t

def texts : List Ty → List String
  | [] => []
  | t :: ts => text t :: texts ts

end

/-- Types with commas between them. -/
def listText (ts : List Ty) : String := String.intercalate "," (texts ts)

end Ty

end WaccArm
