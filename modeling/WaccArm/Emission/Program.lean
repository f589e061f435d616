import WaccArm.Emission.Stmt

namespace WaccArm

namespace Emission

/-- The parameters of a function with their slots, in one scope. -/
def paramSlots (params : List Checked.Param) : Chain Slot :=
  (params.zip (Frame.params (params.map Checked.Param.type))).foldl
    (fun slots (param, slot) => slots.bind param.name slot) (Chain.enter [])

def func (f : Checked.Func) : Emit Code := do
  Emit.record (.function f.label f.params.length (blockSize f.body))
  let code ← block (blockSize f.body) (stmt f.body) { slots := paramSlots f.params }
  return [.label f.label, .instr (.push [.lr])] ++ code ++ [.instr (.pop [.pc]), .literalPool]

def funcs : List Checked.Func → Emit Code
  | [] => return []
  | f :: fs => do
    let code ← func f
    return code ++ (← funcs fs)

def main (body : Checked.Stmt) : Emit Code := do
  Emit.record (.main (blockSize body))
  let code ← block (blockSize body) (stmt body) {}
  return [.label "main", .instr (.push [.lr])] ++ code
    ++ [.instr (.ldr .r0 (.literal 0)), .instr (.pop [.pc]), .literalPool]

/-- The functions and the body. -/
def program (p : Checked.Program) : Emit Code := do
  let fs ← funcs p.funcs
  return fs ++ (← main p.body)

end Emission

/-- The assembly file for a checked program, and what happened while it was made. Every label that
the file needs has to be there. -/
def generateLogged (p : Checked.Program) : Except EmitFault (Assembly × List Event) := do
  let (code, s) ← (Emission.program p).run {}
  let s := (s.extend code).emitRoutines
  if s.file.unresolved.isEmpty then
    return (s.file, (s.record (.emitted s.file.code.length s.file.constants.size)).log.reverse)
  else throw (.unresolved s.file.unresolved)

/-- The assembly file for a checked program. -/
def generate (p : Checked.Program) : Except EmitFault Assembly :=
  (generateLogged p).map Prod.fst

end WaccArm
