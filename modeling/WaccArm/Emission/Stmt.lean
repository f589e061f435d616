import WaccArm.Emission.Expr

namespace WaccArm.Emission

/-- The routine that prints a value of the given type. -/
def printRoutine : Ty → Routine
  | .int => .printInt
  | .bool => .printBool
  | .char => .printChar
  | type => if type.isString then .printString else .printReference

/-- The routine that reads a value of the given type. -/
def readRoutine : Ty → Routine
  | .char => .readChar
  | _ => .readInt

/-- The routine that frees a value of the given type. -/
def freeRoutine (type : Ty) : Routine := if type.isPair then .freePair else .freeArray

/-- Puts the address of a place into the register of depth `d`. What is no place is evaluated. -/
def address (target : Checked.Expr) (ctx : Context) (d : Depth) : Emit (List Instr) :=
  match target with
  | .elem type name indices => do
    let slot ← ctx.slot name
    return ctx.address d.reg slot ++ (← selections type.size indices ctx d)
  | .side _ which pair => do
    let code ← expr pair ctx d
    return code ++ (← nullCheck d.reg) ++ [.binary .add d.reg d.reg (.imm (sideOffset which))]
  | .var _ name => do
    let slot ← ctx.slot name
    return ctx.address d.reg slot
  | other => expr other ctx d

/-- Stores the value in the register of depth `d` in a place. -/
def assign (dst : Checked.Expr) (ctx : Context) (d : Depth) : Emit (List Instr) :=
  match dst with
  | .var type name => do
    let slot ← ctx.slot name
    return ctx.store type.size d.reg slot
  | other => do
    let code ← address other ctx d.next
    return code ++ [.store other.note.size d.reg (.mem d.next.reg 0)]

/-- Evaluates an expression and moves its value to `r0`, where routines expect it. -/
def argument (e : Checked.Expr) (ctx : Context) : Emit (List Instr) :=
  return (← expr e ctx .top) ++ [.movReg .r0 Depth.top.reg]

/-- The code of a block that declares `size` bytes, around the code of its body. -/
def block (size : Nat) (body : Context → Emit (Code × Context)) (ctx : Context) : Emit Code := do
  let (opening, frame) := ctx.frame.enter size
  let (code, inner) ← body ⟨ctx.slots.enter, frame⟩
  return Code.ofInstrs opening ++ code ++ Code.ofInstrs inner.frame.exit.1

mutual

def stmt : Checked.Stmt → Context → Emit (Code × Context)
  | .skip _, ctx => return ([], ctx)
  | .declare _ type name init, ctx => do
    let code ← expr init ctx .top
    let (slot, frame) := ctx.frame.declare type.size
    let inner : Context := ⟨ctx.slots.bind name slot, frame⟩
    return (Code.ofInstrs (code ++ inner.store slot.size Depth.top.reg slot), inner)
  | .assign _ dst src, ctx => do
    let code ← expr src ctx .top
    return (Code.ofInstrs (code ++ (← assign dst ctx .top)), ctx)
  | .read _ target, ctx => do
    let code ← address target ctx .top
    let call ← Emit.call (readRoutine target.note)
    return (Code.ofInstrs (code ++ [.movReg .r0 Depth.top.reg, call]), ctx)
  | .free _ e, ctx => do
    let code ← argument e ctx
    let call ← Emit.call (freeRoutine e.note)
    return (Code.ofInstrs (code ++ [call]), ctx)
  | .ret _ e, ctx => do
    let code ← argument e ctx
    return (Code.ofInstrs (code ++ ctx.frame.unwind ++ [.pop [.pc]]), ctx)
  | .exit _ e, ctx => do
    let code ← argument e ctx
    return (Code.ofInstrs (code ++ [.bl "exit"]), ctx)
  | .print _ e newline, ctx => do
    let code ← argument e ctx
    let call ← Emit.call (printRoutine e.note)
    let line ← if newline then pure [← Emit.call .printLn] else pure []
    return (Code.ofInstrs (code ++ call :: line), ctx)
  | .branch _ cond yes no, ctx => do
    let otherwise ← Emit.fresh
    let done ← Emit.fresh
    let test ← expr cond ctx .top
    let y ← block (blockSize yes) (stmt yes) ctx
    let n ← block (blockSize no) (stmt no) ctx
    return (Code.ofInstrs (test ++ [.cmp Depth.top.reg (.imm 0), (Instr.b otherwise).when .eq])
      ++ y ++ [.instr (.b done), .label otherwise] ++ n ++ [.label done], ctx)
  | .loop _ cond body, ctx => do
    let check ← Emit.fresh
    let start ← Emit.fresh
    let b ← block (blockSize body) (stmt body) ctx
    let test ← expr cond ctx .top
    return ([.instr (.b check), .label start] ++ b ++ [.label check]
      ++ Code.ofInstrs (test ++ [.cmp Depth.top.reg (.imm 1), (Instr.b start).when .eq]), ctx)
  | .scope _ body, ctx => return (← block (blockSize body) (stmt body) ctx, ctx)
  | .seq _ items, ctx => stmtList items ctx

/-- Code for statements one after the other in one block. -/
def stmtList : List Checked.Stmt → Context → Emit (Code × Context)
  | [], ctx => return ([], ctx)
  | s :: ss, ctx => do
    let (code, ctx) ← stmt s ctx
    let (codes, ctx) ← stmtList ss ctx
    return (code ++ codes, ctx)

end

end WaccArm.Emission
