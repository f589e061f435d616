namespace WaccArm

/-- One of the two components of a pair. -/
inductive Side where
  | fst | snd
deriving DecidableEq, Repr

def Side.text : Side → String
  | fst => "fst"
  | snd => "snd"

inductive UnaryOp where
  | not | negate | len | ord | chr
deriving DecidableEq, Repr

/-- The text in front of the operand. A word is set off by a space. -/
def UnaryOp.text : UnaryOp → String
  | not => "!"
  | negate => "-"
  | len => "len "
  | ord => "ord "
  | chr => "chr "

inductive BinaryOp where
  | mul | div | rem | add | sub | gt | ge | lt | le | eq | ne | and | or
deriving DecidableEq, Repr

/-- What a binary operator asks of its operands. -/
inductive OpKind where
  | arithmetic | ordering | equality | logical
deriving DecidableEq, Repr

namespace BinaryOp

/-- Every binary operator, once. -/
def all : List BinaryOp := [mul, div, rem, add, sub, gt, ge, lt, le, eq, ne, and, or]

def text : BinaryOp → String
  | mul => "*"
  | div => "/"
  | rem => "%"
  | add => "+"
  | sub => "-"
  | gt => ">"
  | ge => ">="
  | lt => "<"
  | le => "<="
  | eq => "=="
  | ne => "!="
  | and => "&&"
  | or => "||"

/-- Binding strength: an operator with a higher precedence binds its operands first. -/
def precedence : BinaryOp → Nat
  | mul | div | rem => 6
  | add | sub => 5
  | gt | ge | lt | le => 4
  | eq | ne => 3
  | and => 2
  | or => 1

def kind : BinaryOp → OpKind
  | mul | div | rem | add | sub => .arithmetic
  | gt | ge | lt | le => .ordering
  | eq | ne => .equality
  | and | or => .logical

end BinaryOp

end WaccArm
