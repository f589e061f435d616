import WaccArm.Parser.Expr
import WaccArm.Parser.Type
import WaccArm.Tree.Program

namespace WaccArm.Parser

/-- Statements joined by semicolons: a single one stands for itself, more than one are a
sequence at the place of the first. -/
def joined (first : Source.Stmt) (others : List Source.Stmt) : Source.Stmt :=
  if others.isEmpty then first else .seq first.mark (first :: others)

/-- The end of a declaration or an assignment: an equals sign and a right-hand side. -/
def assigned (s : Stream) : Parse Source.Expr s := do
  let ⟨_, r, h⟩ ← s.symbol .assign
  let ⟨e, r', h'⟩ ← rightSide r
  return ⟨e, r', Parsed.shorter_trans h h'⟩

/-- A declaration: a type, a name, and the initial value. -/
def declaration (s : Stream) : Parse Source.Stmt s := do
  let ⟨type, r₁, h₁⟩ ← typeExpr s
  let ⟨name, r₂, h₂⟩ ← r₁.identifier
  let ⟨init, r₃, h₃⟩ ← assigned r₂
  have h₂ := Parsed.shorter_trans h₁ h₂
  return ⟨.declare s.pos type name init, r₃, Parsed.shorter_trans h₂ h₃⟩

/-- An assignment: a place and the new value. -/
def assignment (s : Stream) : Parse Source.Stmt s := do
  let ⟨dst, r₁, h₁⟩ ← place s
  let ⟨src, r₂, h₂⟩ ← assigned r₁
  return ⟨.assign s.pos dst src, r₂, Parsed.shorter_trans h₁ h₂⟩

mutual

/-- One or more statements with semicolons between them. -/
def statements (s : Stream) : Parse Source.Stmt s := do
  let ⟨first, r, h⟩ ← statement s
  let ⟨others, r', h'⟩ ← furtherStatements r
  return ⟨joined first others, r', by omega⟩
termination_by 2 * s.tokens.length + 1

/-- Any number of statements, each after a semicolon. -/
def furtherStatements (s : Stream) : Except SyntaxError (Trailing (List Source.Stmt) s) :=
  match s.nextIf? (.symbol .semicolon) with
  | none => .ok ⟨[], s, Nat.le_refl _⟩
  | some ⟨_, r, h⟩ => do
    let ⟨first, r₁, h₁⟩ ← statement r
    let ⟨others, r₂, h₂⟩ ← furtherStatements r₁
    return ⟨first :: others, r₂, by omega⟩
termination_by 2 * s.tokens.length

/-- One statement, which its first token tells apart from the other kinds. -/
def statement (s : Stream) : Parse Source.Stmt s := do
  let ⟨t, r, h⟩ ← s.next
  match t.val with
  | .keyword .skip => return ⟨.skip t.pos, r, h⟩
  | .keyword .read =>
    let ⟨e, r', h'⟩ ← place r
    return ⟨.read t.pos e, r', Parsed.shorter_trans h h'⟩
  | .keyword .free =>
    let ⟨e, r', h'⟩ ← expression 0 r
    return ⟨.free t.pos e, r', Parsed.shorter_trans h h'⟩
  | .keyword .return_ =>
    let ⟨e, r', h'⟩ ← expression 0 r
    return ⟨.ret t.pos e, r', Parsed.shorter_trans h h'⟩
  | .keyword .exit =>
    let ⟨e, r', h'⟩ ← expression 0 r
    return ⟨.exit t.pos e, r', Parsed.shorter_trans h h'⟩
  | .keyword .print =>
    let ⟨e, r', h'⟩ ← expression 0 r
    return ⟨.print t.pos e false, r', Parsed.shorter_trans h h'⟩
  | .keyword .println =>
    let ⟨e, r', h'⟩ ← expression 0 r
    return ⟨.print t.pos e true, r', Parsed.shorter_trans h h'⟩
  | .keyword .if_ =>
    let ⟨cond, r₁, h₁⟩ ← expression 0 r
    let ⟨_, r₂, h₂⟩ ← r₁.keyword .then_
    let ⟨yes, r₃, h₃⟩ ← statements r₂
    let ⟨_, r₄, h₄⟩ ← r₃.keyword .else_
    let ⟨no, r₅, h₅⟩ ← statements r₄
    let ⟨_, r₆, h₆⟩ ← r₅.keyword .fi
    return ⟨.branch t.pos cond yes no, r₆, by omega⟩
  | .keyword .while_ =>
    let ⟨cond, r₁, h₁⟩ ← expression 0 r
    let ⟨_, r₂, h₂⟩ ← r₁.keyword .do_
    let ⟨body, r₃, h₃⟩ ← statements r₂
    let ⟨_, r₄, h₄⟩ ← r₃.keyword .done
    return ⟨.loop t.pos cond body, r₄, by omega⟩
  | .keyword .begin =>
    let ⟨body, r₁, h₁⟩ ← statements r
    let ⟨_, r₂, h₂⟩ ← r₁.keyword .end_
    have h₁ := Parsed.shorter_trans h h₁
    return ⟨.scope t.pos body, r₂, Parsed.shorter_trans h₁ h₂⟩
  | .keyword .int | .keyword .bool | .keyword .char | .keyword .string | .keyword .pair =>
    declaration s
  | .ident _ | .keyword .fst | .keyword .snd => assignment s
  | got => throw ⟨.statement got, t.pos⟩
termination_by 2 * s.tokens.length

end

end WaccArm.Parser
