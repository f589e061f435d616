import WaccArm.Text.Escape
import WaccArm.Tree.Operator

namespace WaccArm

inductive Expr (α : Type) where
  | int (note : α) (value : Int32)
  | bool (note : α) (value : Bool)
  | char (note : α) (value : UInt8)
  | str (note : α) (value : String)
  | null (note : α)
  | var (note : α) (name : String)
  | elem (note : α) (name : String) (indices : List (Expr α))
  | side (note : α) (side : Side) (pair : Expr α)
  | unary (note : α) (op : UnaryOp) (operand : Expr α)
  | binary (note : α) (op : BinaryOp) (left right : Expr α)
  | call (note : α) (callee : String) (args : List (Expr α))
  | newPair (note : α) (fst snd : Expr α)
  | array (note : α) (elems : List (Expr α))
deriving Repr

namespace Expr

variable {α : Type}

def note : Expr α → α
  | int note _ | bool note _ | char note _ | str note _ | null note | var note _ | elem note _ _
  | side note _ _ | unary note _ _ | binary note _ _ _ | call note _ _ | newPair note _ _
  | array note _ => note

/-- Whether the expression names a place that can be assigned to. -/
def isPlace : Expr α → Bool
  | var .. | elem .. | side .. => true
  | _ => false

def isBinary : Expr α → Bool
  | binary .. => true
  | _ => false

private def parenthesised (wanted : Bool) (s : String) : String :=
  if wanted then "(" ++ s ++ ")" else s

mutual

/-- The expression in source form. An operand of a binary operator is put in parentheses if it is
itself a binary expression. -/
def render : Expr α → String
  | int _ value => toString value.toInt
  | bool _ value => if value then "true" else "false"
  | char _ value => "'" ++ Text.escape value ++ "'"
  | str _ value => "\"" ++ Text.escapeAll value ++ "\""
  | null _ => "null"
  | var _ name => name
  | elem _ name indices =>
    name ++ String.join ((renderAll indices).map fun index => "[" ++ index ++ "]")
  | side _ which pair => which.text ++ " " ++ render pair
  | unary _ op operand => op.text ++ render operand
  | binary _ op left right =>
    parenthesised left.isBinary (render left) ++ " " ++ op.text ++ " "
      ++ parenthesised right.isBinary (render right)
  | call _ callee args => "call " ++ callee ++ "(" ++ String.intercalate ", " (renderAll args) ++ ")"
  | newPair _ fst snd => "newpair(" ++ render fst ++ ", " ++ render snd ++ ")"
  | array _ elems => "[" ++ String.intercalate ", " (renderAll elems) ++ "]"

def renderAll : List (Expr α) → List String
  | [] => []
  | e :: es => render e :: renderAll es

end

mutual

/-- The expression and all its parts, each before its own parts and from left to right. -/
def parts : Expr α → List (Expr α)
  | e@(elem _ _ indices) => e :: partsAll indices
  | e@(side _ _ pair) => e :: parts pair
  | e@(unary _ _ operand) => e :: parts operand
  | e@(binary _ _ left right) => e :: (parts left ++ parts right)
  | e@(call _ _ args) => e :: partsAll args
  | e@(newPair _ fst snd) => e :: (parts fst ++ parts snd)
  | e@(array _ elems) => e :: partsAll elems
  | e => [e]

def partsAll : List (Expr α) → List (Expr α)
  | [] => []
  | e :: es => parts e ++ partsAll es

end

end Expr

end WaccArm
