import WaccArm.Checker.Expr

namespace WaccArm.Checker

/-- Declares a variable in the innermost scope. -/
def declare (env : Env) (name : String) (type : Ty) (pos : Pos) : Except CheckError Env :=
  match env.declare? name (.variable type) with
  | some env => .ok env
  | none => .error ⟨.redeclared name none, pos⟩

mutual

/-- Checks a statement in a function with result type `ret`, or in the body of the program if
there is none. -/
def stmt (ret : Option Ty) : Source.Stmt → Env → Except CheckError (Checked.Stmt × Env)
  | .skip _, env => return (.skip (), env)
  | .declare pos written name init, env => do
    let type := Ty.ofExpr written
    let checked ← expr env init
    expect init checked.note type
    let env ← declare env name type pos
    return (.declare () type name checked, env)
  | .assign _ dst src, env => do
    let d ← expr env dst
    let s ← expr env src
    expect src s.note d.note
    return (.assign () d s, env)
  | .read _ target, env => do
    let checked ← expr env target
    expectIntOrChar target checked.note
    return (.read () checked, env)
  | .free _ e, env => do
    let checked ← expr env e
    match checked.note with
    | .pair .. | .array .. => return (.free () checked, env)
    | actual => mismatch e .pairOrArray actual
  | .ret pos e, env =>
    match ret with
    | none => .error ⟨.globalReturn, pos⟩
    | some want => do
      let checked ← expr env e
      expect e checked.note want
      return (.ret () checked, env)
  | .exit _ e, env => do
    let checked ← expr env e
    expect e checked.note .int
    return (.exit () checked, env)
  | .print _ e newline, env => return (.print () (← expr env e) newline, env)
  | .branch _ cond yes no, env => do
    let c ← expr env cond
    expect cond c.note .bool
    let (y, _) ← stmt ret yes env.enter
    let (n, _) ← stmt ret no env.enter
    return (.branch () c y n, env)
  | .loop _ cond body, env => do
    let c ← expr env cond
    expect cond c.note .bool
    let (b, _) ← stmt ret body env.enter
    return (.loop () c b, env)
  | .scope _ body, env => do
    let (b, _) ← stmt ret body env.enter
    return (.scope () b, env)
  | .seq _ items, env => do
    let (checked, env) ← stmtList ret items env
    return (.seq () checked, env)

/-- Checks statements one after the other in one scope. -/
def stmtList (ret : Option Ty) :
    List Source.Stmt → Env → Except CheckError (List Checked.Stmt × Env)
  | [], env => return ([], env)
  | s :: ss, env => do
    let (checked, env) ← stmt ret s env
    let (others, env) ← stmtList ret ss env
    return (checked :: others, env)

end

end WaccArm.Checker
