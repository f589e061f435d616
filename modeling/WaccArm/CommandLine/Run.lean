import WaccArm.CommandLine.Files
import WaccArm.CommandLine.Options

namespace WaccArm

/-- Why compiling a file fails. -/
inductive RunError where
  | file (e : FileError)
  | compile (e : CompileError)
deriving Repr

namespace RunError

def message : RunError → String
  | file e => e.message
  | compile e => e.message

def exitCode : RunError → Nat
  | file _ => 1
  | compile e => e.exitCode

def isSyntax : RunError → Bool
  | file _ => false
  | compile e => e.isSyntax

end RunError

/-- Compiles the file at `path` and writes the assembly, next to it if no output is named. Gives
the path written to, or nothing if the compilation stops at a stage before. -/
def compileFile {m : Type → Type} [Monad m] (files : FileAccess m) (path : String)
    (stage : Option Stage) (output : Option String) : m (Except RunError (Option String)) := do
  match ← files.read path with
  | .error e => return .error (.file e)
  | .ok source =>
    match compile source stage with
    | .error e => return .error (.compile e)
    | .ok none => return .ok none
    | .ok (some text) =>
      let target := output.getD (assemblyPath path)
      match ← files.write target (Text.bytes text) with
      | .error e => return .error (.file e)
      | .ok () => return .ok (some target)

/-- The end of a run: the exit code, and the lines for the user. -/
structure Report where
  exitCode : Nat
  errors : List String
deriving DecidableEq, Repr

/-- The report on a failed compilation. -/
def RunError.report (e : RunError) : Report :=
  ⟨e.exitCode, e.message ::
    if e.isSyntax then ["1 parser error(s) detected, no further compilation attempted."] else []⟩

/-- Runs the compiler as the arguments say. -/
def runCommand {m : Type → Type} [Monad m] (files : FileAccess m) (args : List String) :
    m Report := do
  match Options.parse args with
  | none => return ⟨1, [Options.usage]⟩
  | some options =>
    match ← compileFile files options.file options.stage options.output with
    | .error e => return e.report
    | .ok _ => return ⟨0, []⟩

end WaccArm
