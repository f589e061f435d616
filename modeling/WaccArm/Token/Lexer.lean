import WaccArm.Source.Cursor
import WaccArm.Token.Basic

namespace WaccArm

/-- What can be wrong with the bytes of a token. -/
inductive LexFault where
  | invalidCharacter (byte : UInt8)
  | invalidCharLiteral
  | invalidEscape (byte : UInt8)
  | unterminatedString
deriving DecidableEq, Repr

def LexFault.message : LexFault → String
  | invalidCharacter byte => "invalid character " ++ Text.shown byte
  | invalidCharLiteral => "invalid character literal"
  | invalidEscape byte => "unknown escape sequence \\" ++ Text.shown byte
  | unterminatedString => "unterminated string literal"

/-- A fault and the start of the token it is in. -/
abbrev LexError := Located LexFault

namespace Lexer

/-- Space, tab, newline, form feed and carriage return. -/
def isSpace (byte : UInt8) : Bool := byte ∈ [0x20, 0x09, 0x0a, 0x0c, 0x0d]

def isDigit (byte : UInt8) : Bool := '0'.toUInt8 ≤ byte && byte ≤ '9'.toUInt8

/-- The bytes that a word may start with: ASCII letters and the underscore. -/
def isWordStart (byte : UInt8) : Bool :=
  ('a'.toUInt8 ≤ byte && byte ≤ 'z'.toUInt8) || ('A'.toUInt8 ≤ byte && byte ≤ 'Z'.toUInt8)
    || byte == '_'.toUInt8

def isWordByte (byte : UInt8) : Bool := isWordStart byte || isDigit byte

/-- Whether a byte stands for an ASCII character. -/
def isAscii (byte : UInt8) : Bool := byte < 0x80

/-- The numeric value of a digit. -/
def digit? (byte : UInt8) : Option Nat :=
  if isDigit byte then some (byte.toNat - '0'.toNat) else none

/-- The number of bytes of trivia at the front: white space, and comments that run from a hash to
the end of the line. `inComment` says whether a comment has been opened. -/
def triviaLength : (inComment : Bool) → List UInt8 → Nat
  | _, [] => 0
  | true, byte :: rest => triviaLength (byte != '\n'.toUInt8) rest + 1
  | false, byte :: rest =>
    if isSpace byte then triviaLength false rest + 1
    else if byte = '#'.toUInt8 then triviaLength true rest + 1
    else 0

/-- The largest value an integer token can have. Larger numbers are given this value. -/
def maxLiteral : Nat := 0x7fffffffffffffff

/-- A number with one more digit behind it, cut off at the largest value after each operation. -/
def appendDigit (value : Nat) (byte : UInt8) : Nat :=
  min (min (value * 10) maxLiteral + (byte.toNat - '0'.toNat)) maxLiteral

/-- The value of an integer token, given its first digit and the others. -/
def number (first : UInt8) (digits : List UInt8) : Nat :=
  digits.foldl appendDigit (first.toNat - '0'.toNat)

/-- A token, and the number of bytes of its lexeme after the first. -/
structure Lexeme where
  token : Token
  more : Nat
deriving DecidableEq, Repr

/-- The byte that an escape stands for, given what follows the backslash. -/
def unescape : List UInt8 → Except LexFault UInt8
  | [] => .error .unterminatedString
  | letter :: _ =>
    match Text.byteOf? letter with
    | some byte => .ok byte
    | none => .error (.invalidEscape letter)

/-- The closing quote of a character literal whose content takes `width` bytes. -/
private def closeChar (value : UInt8) (width : Nat) (rest : List UInt8) : Except LexFault Lexeme :=
  if rest.head? = some '\''.toUInt8 then .ok ⟨.char value, width + 1⟩
  else .error .invalidCharLiteral

/-- A character literal, given what follows the opening quote. -/
def charLiteral : List UInt8 → Except LexFault Lexeme
  | [] => .error .invalidCharLiteral
  | byte :: rest =>
    if byte = '\\'.toUInt8 then do
      let value ← unescape rest
      closeChar value 2 (rest.drop 1)
    else if byte = '\''.toUInt8 ∨ byte = '"'.toUInt8 then .error .invalidCharLiteral
    else if isAscii byte then closeChar byte 1 rest
    else .error (.invalidCharacter byte)

/-- The bytes a string literal stands for and the number of bytes it takes, closing quote
included, given what follows the opening quote. -/
def stringContent : List UInt8 → Except LexFault (List UInt8 × Nat)
  | [] => .error .unterminatedString
  | byte :: rest =>
    if byte = '"'.toUInt8 then .ok ([], 1)
    else if byte = '\\'.toUInt8 then
      match rest with
      | [] => .error .unterminatedString
      | letter :: rest => do
        let value ← unescape [letter]
        let (content, width) ← stringContent rest
        return (value :: content, width + 2)
    else if byte = '\n'.toUInt8 then .error .unterminatedString
    else if isAscii byte then do
      let (content, width) ← stringContent rest
      return (byte :: content, width + 1)
    else .error (.invalidCharacter byte)

/-- The token that starts with `first`, where `rest` follows. Of two symbols that both fit, the
longer one is taken. -/
def scan (first : UInt8) (rest : List UInt8) : Except LexFault Lexeme :=
  match rest.head?.bind fun second => Symbol.ofChars? (Char.ofNat first.toNat) (Char.ofNat second.toNat) with
  | some mark => .ok ⟨.symbol mark, 1⟩
  | none =>
    match Symbol.ofChar? (Char.ofNat first.toNat) with
    | some mark => .ok ⟨.symbol mark, 0⟩
    | none =>
      if isDigit first then
        let digits := rest.takeWhile isDigit
        .ok ⟨.int (number first digits), digits.length⟩
      else if first = '\''.toUInt8 then charLiteral rest
      else if first = '"'.toUInt8 then do
        let (content, width) ← stringContent rest
        return ⟨.str (Text.ofBytes content), width⟩
      else if isWordStart first then
        let tail := rest.takeWhile isWordByte
        .ok ⟨.ofWord (Text.ofBytes (first :: tail)), tail.length⟩
      else .error (.invalidCharacter first)

end Lexer

/-- The cursor past the trivia at its front. -/
def Cursor.skipTrivia (c : Cursor) : Cursor := c.advance (Lexer.triviaLength false c.rest)

theorem Cursor.length_skipTrivia_le (c : Cursor) : c.skipTrivia.rest.length ≤ c.rest.length := by
  simp [Cursor.skipTrivia, Cursor.advance]

/-- The tokens from a cursor to the end of the text. -/
def Cursor.tokens (c : Cursor) : Except LexError (List (Located Token)) :=
  match _h : c.skipTrivia.rest with
  | [] => .ok []
  | first :: rest =>
    match Lexer.scan first rest with
    | .error fault => .error ⟨fault, c.skipTrivia.pos⟩
    | .ok lexeme => do
      let others ← (c.skipTrivia.advance (lexeme.more + 1)).tokens
      return ⟨lexeme.token, c.skipTrivia.pos⟩ :: others
termination_by c.rest.length
decreasing_by
  have hle := c.length_skipTrivia_le
  simp only [Cursor.advance, List.length_drop, _h, List.length_cons] at hle ⊢
  omega

/-- The tokens of a source text, each with the place of its first byte. The first fault ends the
reading. -/
def tokenize (source : List UInt8) : Except LexError (List (Located Token)) :=
  (Cursor.ofBytes source).tokens

end WaccArm
