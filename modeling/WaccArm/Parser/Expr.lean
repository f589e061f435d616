import WaccArm.Token.Stream
import WaccArm.Tree.Expr
import WaccArm.Source.Pos

namespace WaccArm.Parser

/-- The binary operator that a token stands for. -/
def binaryOp? : Token → Option BinaryOp
  | .symbol .times => some .mul
  | .symbol .divide => some .div
  | .symbol .percent => some .rem
  | .symbol .plus => some .add
  | .symbol .minus => some .sub
  | .symbol .gt => some .gt
  | .symbol .ge => some .ge
  | .symbol .lt => some .lt
  | .symbol .le => some .le
  | .symbol .eq => some .eq
  | .symbol .ne => some .ne
  | .symbol .and => some .and
  | .symbol .or => some .or
  | _ => none

/-- The unary operator that a token stands for, signs apart. -/
def unaryOp? : Token → Option UnaryOp
  | .symbol .not => some .not
  | .keyword .len => some .len
  | .keyword .ord => some .ord
  | .keyword .chr => some .chr
  | _ => none

/-- The side of a pair that a token stands for. -/
def side? : Token → Option Side
  | .keyword .fst => some .fst
  | .keyword .snd => some .snd
  | _ => none

/-- A binary operator at the front that binds at least as strongly as `min`. -/
def operatorFrom? (min : Nat) (s : Stream) : Option (Parsed BinaryOp s) :=
  s.nextMap? fun t => (binaryOp? t).filter fun op => min ≤ op.precedence

/-- An integer literal, whose value with its sign has to fit 32 bits. -/
def intLiteral (value : Int) (pos : Pos) : Except SyntaxError (Expr Pos) :=
  if -0x80000000 ≤ value ∧ value < 0x80000000 then .ok (.int pos (Int32.ofInt value))
  else .error ⟨.intRange value, pos⟩

/-- A literal that is one token. -/
def literal? (pos : Pos) : Token → Option (Expr Pos)
  | .keyword .true_ => some (.bool pos true)
  | .keyword .false_ => some (.bool pos false)
  | .char value => some (.char pos value)
  | .str value => some (.str pos value)
  | .keyword .null => some (.null pos)
  | _ => none

/-- A variable, or an element of an array if indices follow its name. -/
def named (pos : Pos) (name : String) (indices : List (Expr Pos)) : Expr Pos :=
  if indices.isEmpty then .var pos name else .elem pos name indices

mutual

/-- An expression whose operators outside parentheses all have precedence `min` or more. -/
def expression (min : Nat) (s : Stream) : Parse (Expr Pos) s := do
  let ⟨left, r, h⟩ ← factor s
  let ⟨e, r', h'⟩ ← operators min left r
  return ⟨e, r', by omega⟩
termination_by 2 * s.tokens.length + 1

/-- The operators that follow `left` and their right operands. Operators of equal precedence
group to the left, because a right operand only takes operators that bind more strongly. -/
def operators (min : Nat) (left : Expr Pos) (s : Stream) :
    Except SyntaxError (Trailing (Expr Pos) s) :=
  match operatorFrom? min s with
  | none => .ok ⟨left, s, Nat.le_refl _⟩
  | some ⟨op, r, h⟩ => do
    let ⟨right, r₁, h₁⟩ ← expression (op.precedence + 1) r
    let ⟨e, r₂, h₂⟩ ← operators min (.binary left.note op left right) r₁
    return ⟨e, r₂, by omega⟩
termination_by 2 * s.tokens.length

/-- An operand. A sign directly before an integer belongs to the literal. -/
def factor (s : Stream) : Parse (Expr Pos) s := do
  let ⟨t, r, h⟩ ← s.next
  match t.val with
  | .int value => return ⟨← intLiteral value t.pos, r, h⟩
  | .symbol .minus =>
    match r.nextInt? with
    | some ⟨value, r', h'⟩ => return ⟨← intLiteral (-value) t.pos, r', by omega⟩
    | none =>
      let ⟨e, r', h'⟩ ← factor r
      return ⟨.unary t.pos .negate e, r', by omega⟩
  | .symbol .plus =>
    match r.nextInt? with
    | some ⟨value, r', h'⟩ => return ⟨← intLiteral value t.pos, r', by omega⟩
    | none => throw ⟨.expression t.val, t.pos⟩
  | .ident name =>
    let ⟨is, r', h'⟩ ← indices r
    return ⟨named t.pos name is, r', by omega⟩
  | .symbol .openParen =>
    let ⟨e, r₁, h₁⟩ ← expression 0 r
    let ⟨_, r₂, h₂⟩ ← r₁.symbol .closeParen
    return ⟨e, r₂, by omega⟩
  | token =>
    match literal? t.pos token, unaryOp? token with
    | some e, _ => return ⟨e, r, h⟩
    | none, some op =>
      let ⟨e, r', h'⟩ ← factor r
      return ⟨.unary t.pos op e, r', by omega⟩
    | none, none => throw ⟨.expression token, t.pos⟩
termination_by 2 * s.tokens.length

/-- Any number of indices, each in brackets. -/
def indices (s : Stream) : Except SyntaxError (Trailing (List (Expr Pos)) s) :=
  match s.nextIf? (.symbol .openBracket) with
  | none => .ok ⟨[], s, Nat.le_refl _⟩
  | some ⟨_, r, h⟩ => do
    let ⟨e, r₁, h₁⟩ ← expression 0 r
    let ⟨_, r₂, h₂⟩ ← r₁.symbol .closeBracket
    let ⟨es, r₃, h₃⟩ ← indices r₂
    return ⟨e :: es, r₃, by omega⟩
termination_by 2 * s.tokens.length

end

/-- A place that can be assigned to: a variable, an element of an array, or a side of a pair that
itself stands in such a place. -/
def place (s : Stream) : Parse (Expr Pos) s := do
  let ⟨t, r, h⟩ ← s.next
  match t.val, side? t.val with
  | _, some side =>
    let ⟨pair, r', h'⟩ ← place r
    return ⟨.side t.pos side pair, r', by omega⟩
  | .ident name, none =>
    let ⟨is, r', h'⟩ ← indices r
    return ⟨named t.pos name is, r', by omega⟩
  | got, none => throw ⟨.identifier got, t.pos⟩
termination_by s.tokens.length

/-- One or more expressions with commas between them, up to the symbol `close`. -/
def commaSeparated (close : Symbol) (s : Stream) : Parse (List (Expr Pos)) s := do
  let ⟨e, r₁, h₁⟩ ← expression 0 s
  let ⟨t, r₂, h₂⟩ ← r₁.next
  if t.val = .symbol .comma then
    let ⟨es, r₃, h₃⟩ ← commaSeparated close r₂
    return ⟨e :: es, r₃, by omega⟩
  else if t.val = .symbol close then return ⟨[e], r₂, by omega⟩
  else throw ⟨.token (.symbol close) t.val, t.pos⟩
termination_by s.tokens.length

/-- Any number of expressions with commas between them, up to the symbol `close`. -/
def commaList (close : Symbol) (s : Stream) : Parse (List (Expr Pos)) s :=
  match s.nextIf? (.symbol close) with
  | some ⟨_, r, h⟩ => .ok ⟨[], r, h⟩
  | none => commaSeparated close s

/-- A right-hand side: an array literal, a new pair, a side of a pair, a call, or an expression. -/
def rightSide (s : Stream) : Parse (Expr Pos) s := do
  let pos := s.pos
  let t ← s.peek
  match t, side? t with
  | _, some _ => place s
  | .symbol .openBracket, none =>
    let ⟨_, r, h⟩ ← s.next
    let ⟨es, r₁, h₁⟩ ← commaList .closeBracket r
    return ⟨.array pos es, r₁, by omega⟩
  | .keyword .newpair, none =>
    let ⟨_, r, h⟩ ← s.next
    let ⟨_, r₁, h₁⟩ ← r.symbol .openParen
    let ⟨fst, r₂, h₂⟩ ← expression 0 r₁
    let ⟨_, r₃, h₃⟩ ← r₂.symbol .comma
    let ⟨snd, r₄, h₄⟩ ← expression 0 r₃
    let ⟨_, r₅, h₅⟩ ← r₄.symbol .closeParen
    return ⟨.newPair pos fst snd, r₅, by omega⟩
  | .keyword .call, none =>
    let ⟨_, r, h⟩ ← s.next
    let ⟨name, r₁, h₁⟩ ← r.identifier
    let ⟨_, r₂, h₂⟩ ← r₁.symbol .openParen
    let ⟨args, r₃, h₃⟩ ← commaList .closeParen r₂
    return ⟨.call pos name args, r₃, by omega⟩
  | _, none => expression 0 s

end WaccArm.Parser
