import WaccArm.Text.Escape

namespace WaccArm

/-- The reserved words. -/
inductive Keyword where
  | begin | end_ | is | skip | read | free | return_ | exit | print | println
  | if_ | then_ | else_ | fi | while_ | do_ | done
  | newpair | call | fst | snd | int | bool | char | string | pair
  | len | ord | chr | true_ | false_ | null
deriving DecidableEq, Repr

namespace Keyword

/-- Every reserved word, once. -/
def all : List Keyword :=
  [begin, end_, is, skip, read, free, return_, exit, print, println, if_, then_, else_, fi, while_,
   do_, done, newpair, call, fst, snd, int, bool, char, string, pair, len, ord, chr, true_, false_,
   null]

def spelling : Keyword → String
  | begin => "begin"
  | end_ => "end"
  | is => "is"
  | skip => "skip"
  | read => "read"
  | free => "free"
  | return_ => "return"
  | exit => "exit"
  | print => "print"
  | println => "println"
  | if_ => "if"
  | then_ => "then"
  | else_ => "else"
  | fi => "fi"
  | while_ => "while"
  | do_ => "do"
  | done => "done"
  | newpair => "newpair"
  | call => "call"
  | fst => "fst"
  | snd => "snd"
  | int => "int"
  | bool => "bool"
  | char => "char"
  | string => "string"
  | pair => "pair"
  | len => "len"
  | ord => "ord"
  | chr => "chr"
  | true_ => "true"
  | false_ => "false"
  | null => "null"

/-- The keyword that is spelled `word`, if there is one. -/
def ofWord? (word : String) : Option Keyword := all.find? fun k => k.spelling == word

/-- The words that name a type by themselves. -/
def isBaseType : Keyword → Bool
  | int | bool | char | string => true
  | _ => false

end Keyword

/-- The operators and punctuation marks. -/
inductive Symbol where
  | openParen | closeParen | openBracket | closeBracket | comma | semicolon | assign
  | not | minus | plus | times | divide | percent
  | gt | ge | lt | le | eq | ne | and | or
deriving DecidableEq, Repr

namespace Symbol

def spelling : Symbol → String
  | openParen => "("
  | closeParen => ")"
  | openBracket => "["
  | closeBracket => "]"
  | comma => ","
  | semicolon => ";"
  | assign => "="
  | not => "!"
  | minus => "-"
  | plus => "+"
  | times => "*"
  | divide => "/"
  | percent => "%"
  | gt => ">"
  | ge => ">="
  | lt => "<"
  | le => "<="
  | eq => "=="
  | ne => "!="
  | and => "&&"
  | or => "||"

/-- The symbol written with one character. -/
def ofChar? : Char → Option Symbol
  | '(' => some openParen
  | ')' => some closeParen
  | '[' => some openBracket
  | ']' => some closeBracket
  | ',' => some comma
  | ';' => some semicolon
  | '=' => some assign
  | '!' => some not
  | '-' => some minus
  | '+' => some plus
  | '*' => some times
  | '/' => some divide
  | '%' => some percent
  | '>' => some gt
  | '<' => some lt
  | _ => none

/-- The symbol written with two characters. -/
def ofChars? : Char → Char → Option Symbol
  | '&', '&' => some and
  | '|', '|' => some or
  | '!', '=' => some ne
  | '=', '=' => some eq
  | '>', '=' => some ge
  | '<', '=' => some le
  | _, _ => none

end Symbol

/-- A token. An integer token has no sign, and a character token holds one byte. -/
inductive Token where
  | keyword (word : Keyword)
  | symbol (mark : Symbol)
  | int (value : Nat)
  | char (value : UInt8)
  | str (value : String)
  | ident (name : String)
deriving DecidableEq, Repr

namespace Token

/-- The written form of a token. -/
def text : Token → String
  | keyword word => word.spelling
  | symbol mark => mark.spelling
  | int value => toString value
  | char value => "'" ++ Text.escape value ++ "'"
  | str value => "\"" ++ Text.escapeAll value ++ "\""
  | ident name => name

/-- The token that a word stands for: a keyword if it is reserved, and a name otherwise. -/
def ofWord (word : String) : Token :=
  match Keyword.ofWord? word with
  | some k => keyword k
  | none => ident word

end Token

end WaccArm
