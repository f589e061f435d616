import WaccArm.Parser.Stmt

namespace WaccArm

namespace Parser

/-- One or more parameters with commas between them, up to the closing parenthesis. -/
def commaParams (s : Stream) : Parse (List Source.Param) s := do
  let ⟨type, r₁, h₁⟩ ← typeExpr s
  let ⟨name, r₂, h₂⟩ ← r₁.identifier
  let ⟨t, r₃, h₃⟩ ← r₂.next
  if t.val = .symbol .comma then
    let ⟨others, r₄, h₄⟩ ← commaParams r₃
    return ⟨⟨type, name, s.pos⟩ :: others, r₄, by omega⟩
  else if t.val = .symbol .closeParen then return ⟨[⟨type, name, s.pos⟩], r₃, by omega⟩
  else throw ⟨.token (.symbol .closeParen) t.val, t.pos⟩
termination_by s.tokens.length

/-- Any number of parameters, up to the closing parenthesis. -/
def params (s : Stream) : Parse (List Source.Param) s :=
  match s.nextIf? (.symbol .closeParen) with
  | some ⟨_, r, h⟩ => .ok ⟨[], r, h⟩
  | none => commaParams s

def function (s : Stream) : Parse Source.Func s := do
  let ⟨ret, r₁, h₁⟩ ← typeExpr s
  let ⟨name, r₂, h₂⟩ ← r₁.identifier
  let ⟨_, r₃, h₃⟩ ← r₂.symbol .openParen
  let ⟨params, r₄, h₄⟩ ← params r₃
  let ⟨_, r₅, h₅⟩ ← r₄.keyword .is
  let ⟨body, r₆, h₆⟩ ← statements r₅
  let ⟨_, r₇, h₇⟩ ← r₆.keyword .end_
  have h₂ := Parsed.shorter_trans h₁ h₂
  have h₃ := Parsed.shorter_trans h₂ h₃
  have h₄ := Parsed.shorter_trans h₃ h₄
  have h₅ := Parsed.shorter_trans h₄ h₅
  have h₆ := Parsed.shorter_trans h₅ h₆
  return ⟨⟨name, ret, params, body, s.pos⟩, r₇, Parsed.shorter_trans h₆ h₇⟩

/-- Whether a function starts here: a type, a name and an opening parenthesis. A declaration has
an equals sign in the third place. -/
def startsFunction (s : Stream) : Bool :=
  match typeExpr s with
  | .error _ => false
  | .ok ⟨_, r, _⟩ =>
    match r.identifier with
    | .error _ => false
    | .ok ⟨_, r', _⟩ => r'.peek? == some (.symbol .openParen)

/-- The functions at the front. -/
def functions (s : Stream) : Except SyntaxError (Trailing (List Source.Func) s) :=
  if startsFunction s then do
    let ⟨f, r, h⟩ ← function s
    let ⟨fs, r', h'⟩ ← functions r
    return ⟨f :: fs, r', by omega⟩
  else .ok ⟨[], s, Nat.le_refl _⟩
termination_by s.tokens.length

/-- The functions and the body of a program, between `begin` and `end`. -/
def program (s : Stream) : Parse Source.Program s := do
  let ⟨_, r₁, h₁⟩ ← s.keyword .begin
  let ⟨funcs, r₂, h₂⟩ ← functions r₁
  let ⟨body, r₃, h₃⟩ ← statements r₂
  let ⟨_, r₄, h₄⟩ ← r₃.keyword .end_
  return ⟨⟨funcs, body⟩, r₄, by omega⟩

end Parser

/-- The program that a list of tokens spells. No token may be left over. -/
def parse (tokens : List (Located Token)) : Except SyntaxError Source.Program := do
  let ⟨program, rest, _⟩ ← Parser.program (.ofTokens tokens)
  match rest.tokens with
  | [] => return program
  | t :: _ => throw ⟨.trailing t.val, t.pos⟩

end WaccArm
