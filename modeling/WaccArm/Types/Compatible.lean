import WaccArm.Types.Ty

namespace WaccArm.Ty

mutual

/-- The type with all its strings spelled out as arrays of characters. -/
def expand : Ty → Ty
  | .str => .array (some .char) 1
  | .array none dims => .array none dims
  | .array (some .str) dims => .array (some .char) (dims + 1)
  | .array (some elem) dims => .array (some (expand elem)) dims
  | .pair fst snd => .pair (expandSide fst) (expandSide snd)
  | .function ret params => .function (expand ret) (expandAll params)
  | t => t

def expandSide : Option Ty → Option Ty
  | none => none
  | some t => some (expand t)

def expandAll : List Ty → List Ty
  | [] => []
  | t :: ts => expand t :: expandAll ts

end

mutual

/-- Whether two types without strings agree wherever both are known. -/
def agree : Ty → Ty → Bool
  | .int, .int | .bool, .bool | .char, .char => true
  | .array none n, .array _ m => n ≤ m
  | .array (some _) n, .array none m => m ≤ n
  | .array (some l) n, .array (some r) m => n == m && agree l r
  | .pair f s, .pair f' s' => agreeSide f f' && agreeSide s s'
  | .function r ps, .function r' ps' => agree r r' && agreeAll ps ps'
  | _, _ => false

def agreeSide : Option Ty → Option Ty → Bool
  | some l, some r => agree l r
  | _, _ => true

def agreeAll : List Ty → List Ty → Bool
  | [], [] => true
  | l :: ls, r :: rs => agree l r && agreeAll ls rs
  | _, _ => false

end

/-- Whether two types are the same as far as both are known. -/
def compatible (a b : Ty) : Bool := agree (expand a) (expand b)

/-- Whether two lists of types are of one length and compatible place by place. -/
def compatibleAll (as bs : List Ty) : Bool := agreeAll (expandAll as) (expandAll bs)

end WaccArm.Ty
