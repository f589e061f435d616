import WaccArm.Layout.Depth
import WaccArm.Proofs.Machine.Arith
import WaccArm.Tree.Checked

namespace WaccArm.Scalar

/-- Why an evaluation has no value. -/
inductive Trap where
  | overflow
  | divideByZero
  /-- The expression has no meaning. This does not happen to well-typed ones. -/
  | stuck
deriving DecidableEq, Repr

/-- The values of variables. -/
abbrev Values := String → Option Int

/-- The types of variables. -/
abbrev Types := String → Option Ty

/-- A number, unless it does not fit a register. -/
def checked (n : Int) : Except Trap Int := if Word.Fits n then .ok n else .error .overflow

def evalUnary : UnaryOp → Int → Except Trap Int
  | .not, v => .ok (v == 0).toInt
  | .negate, v => checked (-v)
  | .ord, v | .chr, v => .ok v
  | .len, _ => .error .stuck

/-- Division truncates. The one quotient that does not fit wraps around. -/
def evalBinary : BinaryOp → Int → Int → Except Trap Int
  | .mul, l, r => checked (l * r)
  | .add, l, r => checked (l + r)
  | .sub, l, r => checked (l - r)
  | .div, l, r => if r = 0 then .error .divideByZero else .ok (Word.signed (l.tdiv r))
  | .rem, l, r => if r = 0 then .error .divideByZero else .ok (l.tmod r)
  | .gt, l, r => .ok (decide (r < l)).toInt
  | .ge, l, r => .ok (decide (r ≤ l)).toInt
  | .lt, l, r => .ok (decide (l < r)).toInt
  | .le, l, r => .ok (decide (l ≤ r)).toInt
  | .eq, l, r => .ok (l == r).toInt
  | .ne, l, r => .ok (l != r).toInt
  | .and, l, r => .ok (l != 0 && r != 0).toInt
  | .or, l, r => .ok (l != 0 || r != 0).toInt

def eval (values : Values) : Checked.Expr → Except Trap Int
  | .int _ value => .ok value.toInt
  | .bool _ value => .ok value.toInt
  | .char _ value => .ok value.toNat
  | .var _ name =>
    match values name with
    | some value => .ok value
    | none => .error .stuck
  | .unary _ op operand => do evalUnary op (← eval values operand)
  | .binary _ op left right => do
    let l ← eval values left
    let r ← eval values right
    evalBinary op l r
  | _ => .error .stuck

def isScalar : Ty → Bool
  | .int | .bool | .char => true
  | _ => false

/-- Well-typed expressions over integers, booleans and characters. -/
inductive Typed (types : Types) : Checked.Expr → Ty → Prop
  | int (value : Int32) : Typed types (.int .int value) .int
  | bool (value : Bool) : Typed types (.bool .bool value) .bool
  | char (value : UInt8) : Typed types (.char .char value) .char
  | var {name : String} {type : Ty} (hname : types name = some type) (hscalar : isScalar type) :
    Typed types (.var type name) type
  | not {e : Checked.Expr} (he : Typed types e .bool) : Typed types (.unary .bool .not e) .bool
  | negate {e : Checked.Expr} (he : Typed types e .int) : Typed types (.unary .int .negate e) .int
  | ord {e : Checked.Expr} (he : Typed types e .char) : Typed types (.unary .int .ord e) .int
  | chr {e : Checked.Expr} (he : Typed types e .int) : Typed types (.unary .char .chr e) .char
  | arithmetic {op : BinaryOp} {l r : Checked.Expr} (hop : op.kind = .arithmetic)
    (hl : Typed types l .int) (hr : Typed types r .int) : Typed types (.binary .int op l r) .int
  | ordering {op : BinaryOp} {l r : Checked.Expr} {type : Ty} (hop : op.kind = .ordering)
    (htype : type = .int ∨ type = .char) (hl : Typed types l type) (hr : Typed types r type) :
    Typed types (.binary .bool op l r) .bool
  | equality {op : BinaryOp} {l r : Checked.Expr} {type : Ty} (hop : op.kind = .equality)
    (hl : Typed types l type) (hr : Typed types r type) : Typed types (.binary .bool op l r) .bool
  | logical {op : BinaryOp} {l r : Checked.Expr} (hop : op.kind = .logical)
    (hl : Typed types l .bool) (hr : Typed types r .bool) : Typed types (.binary .bool op l r) .bool

/-- The bytes below the stack pointer that the evaluation at depth `d` may use: for values that wait
on the stack, and for the return address in the check of a divisor. -/
def room : Checked.Expr → Depth → Nat
  | .unary _ _ operand, d => room operand d
  | .binary _ op left right, d =>
    max (room left d)
      (max (if d.exhausted then 4 + room right d else room right d.next)
        (if op = .div ∨ op = .rem then 4 else 0))
  | _, _ => 0

/-- A boolean is zero or one. -/
def Truth (v : Int) : Prop := v = 0 ∨ v = 1

theorem truth_toInt (b : Bool) : Truth b.toInt := by cases b <;> simp [Truth]

end WaccArm.Scalar
