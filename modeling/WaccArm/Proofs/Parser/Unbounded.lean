import WaccArm.Parser.Program

namespace WaccArm

def Parsed.toPair {α : Type} {s : Stream} (p : Parsed α s) : α × Stream := (p.value, p.rest)

def Trailing.toPair {α : Type} {s : Stream} (p : Trailing α s) : α × Stream := (p.value, p.rest)

namespace Unbounded

/-- A command that reads from a stream and leaves the rest of it behind. It may fail, and `none` stands for a run
that does not end. -/
abbrev Reader (α : Type) := StateT Stream (ExceptT SyntaxError Option) α

section

variable {α : Type}

/-- Takes a value off the front. -/
def take (read : (s : Stream) → Parse α s) : Reader α :=
  fun s => some ((read s).map Parsed.toPair)

/-- Takes a value off the front if there is one. -/
def attempt (read : (s : Stream) → Option (Parsed α s)) : Reader (Option α) :=
  fun s => some (.ok (((read s).map fun p => (some p.value, p.rest)).getD (none, s)))

end

def next : Reader (Located Token) := take Stream.next

def identifier : Reader String := take Stream.identifier

def keyword (word : Keyword) : Reader Pos := take (·.keyword word)

def symbol (mark : Symbol) : Reader Pos := take (·.symbol mark)

/-- Takes the next token if it is `token`. -/
def nextIf (token : Token) : Reader Bool := return (← attempt (·.nextIf? token)).isSome

/-- A type, a side of a pair type, and the brackets behind a type. -/
inductive TypeRule : Type → Type 1 where
  | brackets : TypeRule Nat
  | type : TypeRule TypeExpr
  | side : TypeRule (Option TypeExpr)

namespace TypeRule

def run {α : Type} : TypeRule α → Reader α
  | brackets => do
    let s ← get
    if s.peekAt? 0 = some (.symbol .openBracket) ∧ s.peekAt? 1 = some (.symbol .closeBracket) then
      set (s.drop 2)
      return (← brackets |>.run) + 1
    else return 0
  | type => do
    let t ← next
    match Parser.baseType? t.val with
    | some base => return Parser.arrayOf base (← brackets |>.run)
    | none =>
      if t.val = .keyword .pair then
        let _ ← symbol .openParen
        let fst ← side |>.run
        let _ ← symbol .comma
        let snd ← side |>.run
        let _ ← symbol .closeParen
        return Parser.arrayOf (.pair fst snd) (← brackets |>.run)
      else throw ⟨.type t.val, t.pos⟩
  | side => do
    if ← nextIf (.keyword .pair) then
      let s ← get
      if s.peek? = some (.symbol .openParen) then throw (s.unexpected (.token (.symbol .comma)))
      else
        let dims ← brackets |>.run
        return if dims = 0 then none else some (.array (.pair none none) dims)
    else return some (← type |>.run)
partial_fixpoint

end TypeRule

def typeExpr : Reader TypeExpr := TypeRule.type.run

def pairSide : Reader (Option TypeExpr) := TypeRule.side.run

/-- An expression and its parts, a place, and expressions with commas between them. -/
inductive ExprRule : Type → Type 1 where
  | expression (min : Nat) : ExprRule (Expr Pos)
  | operators (min : Nat) (left : Expr Pos) : ExprRule (Expr Pos)
  | factor : ExprRule (Expr Pos)
  | indices : ExprRule (List (Expr Pos))
  | place : ExprRule (Expr Pos)
  | commaSeparated (close : Symbol) : ExprRule (List (Expr Pos))

namespace ExprRule

def run {α : Type} : ExprRule α → Reader α
  | expression min => do
    let left ← factor |>.run
    operators min left |>.run
  | operators min left => do
    match ← attempt (Parser.operatorFrom? min) with
    | none => return left
    | some op =>
      let right ← expression (op.precedence + 1) |>.run
      operators min (.binary left.note op left right) |>.run
  | factor => do
    let t ← next
    match t.val with
    | .ident name => return Parser.named t.pos name (← indices |>.run)
    | .symbol .openParen =>
      let e ← expression 0 |>.run
      let _ ← symbol .closeParen
      return e
    | .int value => liftExcept (Parser.intLiteral value t.pos)
    | .symbol .minus =>
      match ← attempt Stream.nextInt? with
      | some value => liftExcept (Parser.intLiteral (-value) t.pos)
      | none => return .unary t.pos .negate (← factor |>.run)
    | .symbol .plus =>
      match ← attempt Stream.nextInt? with
      | some value => liftExcept (Parser.intLiteral value t.pos)
      | none => throw ⟨.expression t.val, t.pos⟩
    | token =>
      match Parser.literal? t.pos token, Parser.unaryOp? token with
      | some e, _ => return e
      | none, some op => return .unary t.pos op (← factor |>.run)
      | none, none => throw ⟨.expression token, t.pos⟩
  | indices => do
    if ← nextIf (.symbol .openBracket) then
      let e ← expression 0 |>.run
      let _ ← symbol .closeBracket
      return e :: (← indices |>.run)
    else return []
  | place => do
    let t ← next
    match t.val with
    | .ident name => return Parser.named t.pos name (← indices |>.run)
    | .keyword .fst => return .side t.pos .fst (← place |>.run)
    | .keyword .snd => return .side t.pos .snd (← place |>.run)
    | got => throw ⟨.identifier got, t.pos⟩
  | commaSeparated close => do
    let e ← expression 0 |>.run
    let t ← next
    if t.val = .symbol .comma then return e :: (← commaSeparated close |>.run)
    else if t.val = .symbol close then return [e]
    else throw ⟨.token (.symbol close) t.val, t.pos⟩
partial_fixpoint

end ExprRule

def expression (min : Nat) : Reader (Expr Pos) := (ExprRule.expression min).run

def factor : Reader (Expr Pos) := ExprRule.factor.run

def place : Reader (Expr Pos) := ExprRule.place.run

def commaList (close : Symbol) : Reader (List (Expr Pos)) := do
  if ← nextIf (.symbol close) then return [] else (ExprRule.commaSeparated close).run

/-- The next token is only looked at. A side of a pair or an expression is read with it. -/
def rightSide : Reader (Expr Pos) := do
  let s ← get
  match ← liftExcept s.peek with
  | .symbol .openBracket =>
    let _ ← next
    return .array s.pos (← commaList .closeBracket)
  | .keyword .newpair =>
    let _ ← next
    let _ ← symbol .openParen
    let fst ← expression 0
    let _ ← symbol .comma
    let snd ← expression 0
    let _ ← symbol .closeParen
    return .newPair s.pos fst snd
  | .keyword .fst | .keyword .snd => place
  | .keyword .call =>
    let _ ← next
    let name ← identifier
    let _ ← symbol .openParen
    return .call s.pos name (← commaList .closeParen)
  | _ => expression 0

def assigned : Reader (Expr Pos) := do
  let _ ← symbol .assign
  rightSide

def declaration : Reader Source.Stmt := do
  let s ← get
  let type ← typeExpr
  let name ← identifier
  return .declare s.pos type name (← assigned)

def assignment : Reader Source.Stmt := do
  let s ← get
  let dst ← place
  return .assign s.pos dst (← assigned)

/-- One or more statements, those behind the first, and a single one. -/
inductive StmtRule : Type → Type 1 where
  | statements : StmtRule Source.Stmt
  | further : StmtRule (List Source.Stmt)
  | statement : StmtRule Source.Stmt

namespace StmtRule

/-- A statement's first token is only looked at. A declaration or an assignment is read with it. -/
def run {α : Type} : StmtRule α → Reader α
  | statements => do
    let first ← statement |>.run
    return Parser.joined first (← further |>.run)
  | further => do
    if ← nextIf (.symbol .semicolon) then
      let first ← statement |>.run
      return first :: (← further |>.run)
    else return []
  | statement => do
    let s ← get
    match ← liftExcept s.peek with
    | .keyword .int | .keyword .bool | .keyword .char | .keyword .string | .keyword .pair => declaration
    | .ident _ | .keyword .fst | .keyword .snd => assignment
    | .keyword .skip => do let _ ← next; return .skip s.pos
    | .keyword .read => do let _ ← next; return .read s.pos (← place)
    | .keyword .free => do let _ ← next; return .free s.pos (← expression 0)
    | .keyword .return_ => do let _ ← next; return .ret s.pos (← expression 0)
    | .keyword .exit => do let _ ← next; return .exit s.pos (← expression 0)
    | .keyword .print => do let _ ← next; return .print s.pos (← expression 0) false
    | .keyword .println => do let _ ← next; return .print s.pos (← expression 0) true
    | .keyword .if_ =>
      let _ ← next
      let cond ← expression 0
      let _ ← keyword .then_
      let yes ← statements |>.run
      let _ ← keyword .else_
      let no ← statements |>.run
      let _ ← keyword .fi
      return .branch s.pos cond yes no
    | .keyword .while_ =>
      let _ ← next
      let cond ← expression 0
      let _ ← keyword .do_
      let body ← statements |>.run
      let _ ← keyword .done
      return .loop s.pos cond body
    | .keyword .begin =>
      let _ ← next
      let body ← statements |>.run
      let _ ← keyword .end_
      return .scope s.pos body
    | got => throw ⟨.statement got, s.pos⟩
partial_fixpoint

end StmtRule

def statements : Reader Source.Stmt := StmtRule.statements.run

def statement : Reader Source.Stmt := StmtRule.statement.run

/-- A type and a name, and whether an opening parenthesis follows. -/
def signature : Reader Bool := do
  let _ ← typeExpr
  let _ ← identifier
  return (← get).peek? == some (.symbol .openParen)

/-- Reads ahead, and puts back what was read. -/
def startsFunction : Reader Bool := do
  let s ← get
  let found ← tryCatch signature fun _ => return false
  set s
  return found

/-- A function, its parameters, and the functions at the front of a program. -/
inductive FuncRule : Type → Type 1 where
  | commaParams : FuncRule (List Source.Param)
  | params : FuncRule (List Source.Param)
  | function : FuncRule Source.Func
  | functions : FuncRule (List Source.Func)

namespace FuncRule

def run {α : Type} : FuncRule α → Reader α
  | commaParams => do
    let s ← get
    let type ← typeExpr
    let name ← identifier
    let t ← next
    if t.val = .symbol .comma then return ⟨type, name, s.pos⟩ :: (← commaParams |>.run)
    else if t.val = .symbol .closeParen then return [⟨type, name, s.pos⟩]
    else throw ⟨.token (.symbol .closeParen) t.val, t.pos⟩
  | params => do
    if ← nextIf (.symbol .closeParen) then return [] else commaParams |>.run
  | function => do
    let s ← get
    let ret ← typeExpr
    let name ← identifier
    let _ ← symbol .openParen
    let params ← params |>.run
    let _ ← keyword .is
    let body ← statements
    let _ ← keyword .end_
    return ⟨name, ret, params, body, s.pos⟩
  | functions => do
    if ← startsFunction then
      let f ← function |>.run
      return f :: (← functions |>.run)
    else return []
partial_fixpoint

end FuncRule

def params : Reader (List Source.Param) := FuncRule.params.run

def function : Reader Source.Func := FuncRule.function.run

def program : Reader Source.Program := do
  let _ ← keyword .begin
  let funcs ← FuncRule.functions.run
  let body ← statements
  let _ ← keyword .end_
  return ⟨funcs, body⟩

/-- The program that a list of tokens spells, if the readers end. -/
def parse (tokens : List (Located Token)) : ExceptT SyntaxError Option Source.Program := do
  let (program, rest) ← program.run (.ofTokens tokens)
  match rest.tokens with
  | [] => return program
  | t :: _ => throw ⟨.trailing t.val, t.pos⟩

end Unbounded

end WaccArm
