import WaccArm.Checker.Stmt
import WaccArm.Checker.Termination

namespace WaccArm

namespace Checker

/-- The label of `f` in a program with the functions `before` in front of it and `after` behind
it. The functions that share a name are numbered. -/
def label (before : List Source.Func) (f : Source.Func) (after : List Source.Func) : String :=
  let namesakes := fun (fs : List Source.Func) => fs.countP fun g => g.name == f.name
  if namesakes before + namesakes after = 0 then "f_" ++ f.name
  else "f_" ++ f.name ++ "_" ++ toString (namesakes before)

/-- The labels of the functions behind those that stand already. -/
def labelsFrom (before : List Source.Func) : List Source.Func → List String
  | [] => []
  | f :: after => label before f after :: labelsFrom (before ++ [f]) after

/-- The labels of functions, in order. -/
def labels (funcs : List Source.Func) : List String := labelsFrom [] funcs

/-- A function with its label and the types it was declared with. -/
structure Signature where
  func : Source.Func
  label : String
  params : List Ty
  ret : Ty

/-- The signatures of a program. -/
def signatures (p : Source.Program) : List Signature :=
  (p.funcs.zip (labels p.funcs)).map fun (f, label) =>
    ⟨f, label, f.params.map fun param => .ofExpr param.type, .ofExpr f.ret⟩

/-- Declares functions in one scope. -/
def declareAll : List Signature → Scope Decl → Except CheckError (Scope Decl)
  | [], scope => .ok scope
  | s :: ss, scope =>
    match scope.declare? s.func.name (.function s.label (.function s.ret s.params)) with
    | some scope => declareAll ss scope
    | none => .error ⟨.redeclared s.func.name (some s.params), s.func.pos⟩

/-- Declares parameters in the innermost scope. -/
def declareParams (env : Env) : List (Source.Param × Ty) → Except CheckError Env
  | [] => .ok env
  | (param, type) :: others => do
    let env ← declare env param.name type param.pos
    declareParams env others

/-- Checks one function, given the scope that all functions are declared in. The parameters are in
the same scope as the body. -/
def func (globals : Scope Decl) (s : Signature) : Except CheckError Checked.Func := do
  let params := s.func.params.zip s.params
  let env ← declareParams (Chain.enter [globals]) params
  let (body, _) ← stmt (some s.ret) s.func.body env
  return ⟨s.func.name, s.label, params.map fun (param, type) => ⟨param.name, type⟩, s.ret, body⟩

/-- Checks functions one by one. -/
def funcs (globals : Scope Decl) : List Signature → Except CheckError (List Checked.Func)
  | [] => return []
  | s :: ss => do
    let checked ← func globals s
    return checked :: (← funcs globals ss)

/-- Gives every expression its type and every call its label. -/
def program (p : Source.Program) : Except CheckError Checked.Program := do
  let globals ← declareAll (signatures p) []
  let checked ← funcs globals (signatures p)
  let (body, _) ← stmt none p.body (Chain.enter [globals])
  return ⟨checked, body⟩

end Checker

/-- The checked program: types first, then the ends of functions. -/
def check (p : Source.Program) : Except CheckError Checked.Program := do
  let checked ← Checker.program p
  p.checkTermination
  return checked

end WaccArm
