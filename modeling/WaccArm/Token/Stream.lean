import WaccArm.Source.Pos
import WaccArm.Token.Basic

namespace WaccArm

/-- What can be wrong with the order of tokens. -/
inductive SyntaxFault where
  | endOfInput
  | token (expected got : Token)
  | identifier (got : Token)
  | type (got : Token)
  | expression (got : Token)
  | statement (got : Token)
  | intRange (value : Int)
  | trailing (got : Token)
deriving DecidableEq, Repr

def SyntaxFault.message : SyntaxFault → String
  | endOfInput => "unexpected end of input"
  | token expected got => "expected \"" ++ expected.text ++ "\", got \"" ++ got.text ++ "\""
  | identifier got => "expected an identifier, got \"" ++ got.text ++ "\""
  | type got => "expected a type, got \"" ++ got.text ++ "\""
  | expression got => "expected an expression, got \"" ++ got.text ++ "\""
  | statement got => "expected a statement, got \"" ++ got.text ++ "\""
  | intRange value => "integer literal " ++ toString value ++ " does not fit in 32 bits"
  | trailing got => "unexpected \"" ++ got.text ++ "\" after the end of the program"

/-- A fault and the token it is blamed on. -/
abbrev SyntaxError := Located SyntaxFault

/-- The tokens still to be read. `last` is the place of the last token of the whole list, which
is blamed when the tokens run out. -/
structure Stream where
  tokens : List (Located Token)
  last : Pos
deriving DecidableEq, Repr

/-- A value read off the front of `s`, and what is left. -/
structure Parsed (α : Type) (s : Stream) where
  value : α
  rest : Stream
  shorter : rest.tokens.length < s.tokens.length

/-- A value that may or may not have taken tokens off the front of `s`, and what is left. -/
structure Trailing (α : Type) (s : Stream) where
  value : α
  rest : Stream
  bound : rest.tokens.length ≤ s.tokens.length

/-- What is left when a second value is read is shorter than the stream before the first. -/
theorem Parsed.shorter_trans {s r t : Stream} (h : r.tokens.length < s.tokens.length)
    (h' : t.tokens.length < r.tokens.length) : t.tokens.length < s.tokens.length := Nat.lt_trans h' h

/-- The outcome of reading a value that takes at least one token. -/
abbrev Parse (α : Type) (s : Stream) := Except SyntaxError (Parsed α s)

namespace Stream

/-- The stream at the start of a list of tokens. -/
def ofTokens (tokens : List (Located Token)) : Stream :=
  ⟨tokens, (tokens.getLast?.map Located.pos).getD .nowhere⟩

def isEmpty (s : Stream) : Bool := s.tokens.isEmpty

/-- The token `n` places ahead. -/
def peekAt? (s : Stream) (n : Nat) : Option Token := s.tokens[n]?.map Located.val

def peek? (s : Stream) : Option Token := s.peekAt? 0

/-- The place of the next token, or of the last one once there is none. -/
def pos (s : Stream) : Pos := (s.tokens.head?.map Located.pos).getD s.last

/-- The stream without its first `n` tokens. -/
def drop (s : Stream) (n : Nat) : Stream := { s with tokens := s.tokens.drop n }

/-- The fault `f` of the next token, or the end of input if there is none. -/
def unexpected (s : Stream) (f : Token → SyntaxFault) : SyntaxError :=
  match s.tokens with
  | [] => ⟨.endOfInput, s.last⟩
  | t :: _ => ⟨f t.val, t.pos⟩

/-- The next token, which stays in the stream. -/
def peek (s : Stream) : Except SyntaxError Token :=
  match s.peek? with
  | none => .error ⟨.endOfInput, s.last⟩
  | some t => .ok t

/-- Takes the next token. -/
def next (s : Stream) : Parse (Located Token) s :=
  match h : s.tokens with
  | [] => .error ⟨.endOfInput, s.last⟩
  | t :: rest => .ok ⟨t, { s with tokens := rest }, by simp [h]⟩

/-- Takes the next token if `accept` gives a value for it. -/
def nextMap? {α : Type} (s : Stream) (accept : Token → Option α) : Option (Parsed α s) :=
  match s.next with
  | .error _ => none
  | .ok ⟨t, rest, h⟩ => (accept t.val).map fun value => ⟨value, rest, h⟩

/-- Takes the next token if it is `token`. -/
def nextIf? (s : Stream) (token : Token) : Option (Parsed Unit s) :=
  s.nextMap? fun t => if t = token then some () else none

/-- Takes the next token if it is an integer. -/
def nextInt? (s : Stream) : Option (Parsed Nat s) :=
  s.nextMap? fun
    | .int value => some value
    | _ => none

/-- Takes the next token, which has to be `expected`, and gives its place. -/
def consume (s : Stream) (expected : Token) : Parse Pos s := do
  let ⟨t, rest, h⟩ ← s.next
  if t.val = expected then .ok ⟨t.pos, rest, h⟩ else .error ⟨.token expected t.val, t.pos⟩

/-- Takes the next token, which has to be a name. -/
def identifier (s : Stream) : Parse String s := do
  let ⟨t, rest, h⟩ ← s.next
  match t.val with
  | .ident name => .ok ⟨name, rest, h⟩
  | got => .error ⟨.identifier got, t.pos⟩

/-- Takes the next token, which has to be the keyword `word`. -/
def keyword (s : Stream) (word : Keyword) : Parse Pos s := s.consume (.keyword word)

/-- Takes the next token, which has to be the symbol `mark`. -/
def symbol (s : Stream) (mark : Symbol) : Parse Pos s := s.consume (.symbol mark)

end Stream

end WaccArm
