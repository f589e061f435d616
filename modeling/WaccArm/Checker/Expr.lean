import WaccArm.Checker.Decl
import WaccArm.Checker.Fault
import WaccArm.Tree.Checked

namespace WaccArm.Checker

/-- The fault that `e` has type `actual` where something else is asked for. -/
def mismatch {α : Type} (e : Source.Expr) (expected : Demand) (actual : Ty) :
    Except CheckError α :=
  .error ⟨.mismatch e expected actual, e.note⟩

/-- Asks that `e`, which was found to have type `actual`, has type `want`. -/
def expect (e : Source.Expr) (actual want : Ty) : Except CheckError Unit :=
  if actual.compatible want then .ok () else mismatch e (.exactly want) actual

/-- Asks for an integer or a character. -/
def expectIntOrChar (e : Source.Expr) : Ty → Except CheckError Unit
  | .int | .char => .ok ()
  | actual => mismatch e .intOrChar actual

/-- The type of a variable. -/
def variableType (env : Env) (name : String) (pos : Pos) : Except CheckError Ty :=
  match env.lookup? name Decl.isVariable with
  | some (.variable type) => .ok type
  | _ => .error ⟨.undeclared name, pos⟩

/-- The type of `op` applied to `e`, which has type `actual`. -/
def unaryType (op : UnaryOp) (e : Source.Expr) (actual : Ty) : Except CheckError Ty :=
  match op with
  | .not => do expect e actual .bool; return .bool
  | .negate => do expect e actual .int; return .int
  | .len => if actual.isArray then .ok .int else mismatch e .array actual
  | .ord => do expect e actual .char; return .int
  | .chr => do expect e actual .int; return .char

/-- The type of `op` applied to `left` and `right`, which have types `l` and `r`. -/
def binaryType (op : BinaryOp) (left right : Source.Expr) (l r : Ty) : Except CheckError Ty :=
  match op.kind with
  | .arithmetic => do expect left l .int; expect right r .int; return .int
  | .ordering => do expectIntOrChar left l; expect right r l; return .bool
  | .equality => do expect right r l; return .bool
  | .logical => do expect left l .bool; expect right r .bool; return .bool

/-- The label and the result type of the function that a call goes to. -/
def callee (env : Env) (name : String) (types : List Ty) (pos : Pos) :
    Except CheckError (String × Ty) :=
  match env.resolve name Decl.isFunction (Decl.takes types) with
  | .found (.function label type) => .ok (label, type.ret?.getD .int)
  | _ => .error ⟨.noOverload name types, pos⟩

mutual

def expr (env : Env) : Source.Expr → Except CheckError Checked.Expr
  | .int _ value => return .int .int value
  | .bool _ value => return .bool .bool value
  | .char _ value => return .char .char value
  | .str _ value => return .str .str value
  | .null _ => return .null .anyPair
  | .var pos name => return .var (← variableType env name pos) name
  | e@(.elem pos name indices) => do
    let array ← variableType env name pos
    let checked ← indexList env indices
    match array.index? indices.length with
    | some type => return .elem type name checked
    | none => mismatch e .array array
  | .side _ side pair => do
    let checked ← expr env pair
    match checked.note.side? side with
    | some type => return .side type side checked
    | none => mismatch pair (.exactly .anyPair) checked.note
  | .unary _ op operand => do
    let checked ← expr env operand
    let type ← unaryType op operand checked.note
    return .unary type op checked
  | .binary _ op left right => do
    let l ← expr env left
    let r ← expr env right
    let type ← binaryType op left right l.note r.note
    return .binary type op l r
  | .call pos name args => do
    let checked ← exprList env args
    let (label, type) ← callee env name (checked.map Expr.note) pos
    return .call type label checked
  | .newPair _ fst snd => do
    let f ← expr env fst
    let s ← expr env snd
    return .newPair (.pair f.note.erased s.note.erased) f s
  | .array _ [] => return .array .emptyArray []
  | .array _ (first :: others) => do
    let f ← expr env first
    let os ← elementList env f.note others
    return .array (.arrayOf f.note) (f :: os)

/-- Checks expressions from left to right. -/
def exprList (env : Env) : List Source.Expr → Except CheckError (List Checked.Expr)
  | [] => return []
  | e :: es => do
    let checked ← expr env e
    return checked :: (← exprList env es)

/-- Checks indices, which have to be integers. -/
def indexList (env : Env) : List Source.Expr → Except CheckError (List Checked.Expr)
  | [] => return []
  | e :: es => do
    let checked ← expr env e
    expect e checked.note .int
    return checked :: (← indexList env es)

/-- Checks the elements of an array literal after the first, which has type `first`. -/
def elementList (env : Env) (first : Ty) :
    List Source.Expr → Except CheckError (List Checked.Expr)
  | [] => return []
  | e :: es => do
    let checked ← expr env e
    expect e checked.note first
    return checked :: (← elementList env first es)

end

end WaccArm.Checker
