import WaccArm.Checker.Program
import WaccArm.Emission.Program
import WaccArm.Parser.Program
import WaccArm.Token.Lexer

namespace WaccArm

/-- Why a compilation fails. The stages are told apart because they are reported differently. -/
inductive CompileError where
  | lexing (e : LexError)
  | parsing (e : SyntaxError)
  | checking (e : CheckError)
  | emitting (fault : EmitFault)
deriving Repr

namespace CompileError

/-- Whether the source text is not a program at all. -/
def isSyntax : CompileError → Bool
  | lexing _ | parsing _ => true
  | _ => false

/-- The exit code that tells the cause. -/
def exitCode : CompileError → Nat
  | lexing _ | parsing _ => 100
  | checking _ => 200
  | emitting _ => 1

def pos? : CompileError → Option Pos
  | lexing e => some e.pos
  | parsing e => some e.pos
  | checking e => some e.pos
  | emitting _ => none

private def located (stage : String) (pos : Pos) (message : String) : String :=
  stage ++ " Error at " ++ pos.text ++ " -- " ++ message

def message : CompileError → String
  | lexing e => located "Syntax" e.pos e.val.message
  | parsing e => located "Syntax" e.pos e.val.message
  | checking e => located "Semantic" e.pos e.val.message
  | emitting fault => "Code generation: " ++ fault.message

end CompileError

/-- The stage after which to stop. -/
inductive Stage where
  | lex | parse | validate
deriving DecidableEq, Repr

/-- Compiles a source text up to the given stage, or to the end. There is no assembly text if it
stops early. -/
def compile (source : List UInt8) (stage : Option Stage) : Except CompileError (Option String) := do
  let tokens ← (tokenize source).mapError .lexing
  if stage = some .lex then return none
  let parsed ← (parse tokens).mapError .parsing
  if stage = some .parse then return none
  let checked ← (check parsed).mapError .checking
  if stage = some .validate then return none
  let file ← (generate checked).mapError .emitting
  return some file.text

namespace Checker

/-- The functions whose check begins: those before the first fault, and the one that has it. -/
def begun (globals : Scope Decl) : List Signature → List Signature
  | [] => []
  | s :: ss =>
    match func globals s with
    | .ok _ => s :: begun globals ss
    | .error _ => [s]

/-- The events of checking a program. -/
def events (p : Source.Program) : List Event :=
  match declareAll (signatures p) [] with
  | .error _ => []
  | .ok globals => (begun globals (signatures p)).map fun s => .checking s.label

end Checker

/-- What a whole compilation tells about its work, up to the point where it fails. -/
def compileEvents (source : List UInt8) : List Event :=
  match tokenize source with
  | .error _ => []
  | .ok tokens =>
    [.lexed tokens.length, .tokenized tokens.length] ++
      match parse tokens with
      | .error _ => []
      | .ok parsed =>
        .parsed parsed.funcs.length :: Checker.events parsed ++
          match check parsed with
          | .error _ => []
          | .ok checked =>
            .checked ::
              match generateLogged checked with
              | .error _ => []
              | .ok (file, events) => events ++ [.generated (Text.bytes file.text).length]

end WaccArm
