import WaccArm.Compiler

namespace WaccArm

/-- What the command line asks for. -/
structure Options where
  file : String
  stage : Option Stage
  output : Option String
  verbose : Bool
deriving DecidableEq, Repr

namespace Options

/-- The options read so far. -/
structure Partial where
  file : Option String := none
  stage : Option Stage := none
  output : Option String := none
  verbose : Bool := false
deriving DecidableEq, Repr

/-- Sets what may be set only once. -/
def once {α : Type} (old : Option α) (new : α) : Option (Option α) :=
  if old.isNone then some (some new) else none

namespace Partial

def setFile (o : Partial) (file : String) : Option Partial := do
  return { o with file := ← once o.file file }

def setStage (o : Partial) (stage : Stage) : Option Partial := do
  return { o with stage := ← once o.stage stage }

def setOutput (o : Partial) (output : String) : Option Partial := do
  return { o with output := ← once o.output output }

/-- Reads arguments from left to right. -/
def read (o : Partial) : List String → Option Partial
  | [] => some o
  | "--lex" :: args => do (← o.setStage .lex).read args
  | "--parse" :: args => do (← o.setStage .parse).read args
  | "--validate" :: args => do (← o.setStage .validate).read args
  | "-o" :: output :: args => do (← o.setOutput output).read args
  | "-v" :: args => { o with verbose := true }.read args
  | arg :: args => if arg.startsWith "-" then none else do (← o.setFile arg).read args

end Partial

/-- The options that arguments ask for. There has to be one file, and stage and output may be given
at most once. -/
def parse (args : List String) : Option Options := do
  let o ← Partial.read {} args
  return ⟨← o.file, o.stage, o.output, o.verbose⟩

/-- How to call the compiler. -/
def usage : String := "Usage: wacc [--lex | --parse | --validate] [-o <output>] [-v] <file>"

end Options

end WaccArm
