import WaccArm.Text.Escape

namespace WaccArm

inductive LogLevel where
  | info | debug | trace
deriving DecidableEq, Repr

def LogLevel.text : LogLevel → String
  | info => "INFO"
  | debug => "DEBUG"
  | trace => "TRACE"

/-- A step of the work. -/
inductive Event where
  /-- The lexer has reached the end of the text. -/
  | lexed (tokens : Nat)
  /-- The compiler has the tokens. -/
  | tokenized (tokens : Nat)
  | parsed (funcs : Nat)
  | checking (label : String)
  | checked
  | function (label : String) (params bytes : Nat)
  | main (bytes : Nat)
  | interned (label content : String)
  | requested (routine : String)
  | emitted (lines constants : Nat)
  | generated (bytes : Nat)
deriving DecidableEq, Repr

namespace Event

def level : Event → LogLevel
  | lexed _ | interned .. | requested _ => .trace
  | checking _ | function .. | main _ | emitted .. => .debug
  | tokenized _ | parsed _ | checked | generated _ => .info

def message : Event → String
  | lexed tokens | tokenized tokens => "lexed " ++ toString tokens ++ " tokens"
  | parsed funcs => "parsed " ++ toString funcs ++ " functions"
  | checking label => "checking " ++ label
  | checked => "program is well formed"
  | function label params bytes =>
    "function " ++ label ++ " (" ++ toString params ++ " params, " ++ toString bytes
      ++ " local bytes)"
  | main bytes => "main (" ++ toString bytes ++ " local bytes)"
  | interned label content => "interned " ++ label ++ " for " ++ Text.quoted content
  | requested routine => "runtime routine " ++ routine ++ " requested"
  | emitted lines constants =>
    "emitted " ++ toString lines ++ " lines and " ++ toString constants ++ " constants"
  | generated bytes => "generated " ++ toString bytes ++ " bytes of assembly"

/-- Level and message. -/
def text (e : Event) : String := e.level.text ++ " " ++ e.message

end Event

end WaccArm
