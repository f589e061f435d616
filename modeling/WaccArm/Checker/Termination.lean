import WaccArm.Checker.Fault

namespace WaccArm

mutual

/-- Whether control never falls off the end of the statement. Of a sequence only the last
statement counts. -/
def Stmt.terminates {α σ τ : Type} : Stmt α σ τ → Bool
  | .ret .. | .exit .. => true
  | .branch _ _ yes no => yes.terminates && no.terminates
  | .loop _ _ body | .scope _ body => body.terminates
  | .seq _ items => Stmt.lastTerminates items
  | _ => false

def Stmt.lastTerminates {α σ τ : Type} : List (Stmt α σ τ) → Bool
  | [] => false
  | [s] => s.terminates
  | _ :: s :: ss => Stmt.lastTerminates (s :: ss)

end

/-- Asks that control falls off the end of no function. -/
def Source.Program.checkTermination (p : Source.Program) : Except CheckError Unit :=
  match p.funcs.find? fun f => !f.body.terminates with
  | some f => .error ⟨.missingTerminator f.name, f.pos⟩
  | none => .ok ()

end WaccArm
