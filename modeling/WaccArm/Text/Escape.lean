namespace WaccArm.Text

/-- The bytes of a text in UTF-8. -/
def bytes (s : String) : List UInt8 := s.toUTF8.data.toList

/-- The text whose characters are the given bytes, one character for each byte. -/
def ofBytes (bs : List UInt8) : String := String.ofList (bs.map fun b => Char.ofNat b.toNat)

/-- The bytes that are written as a backslash and a letter, each with its letter. -/
def letters : List (UInt8 × UInt8) :=
  [(0x00, '0'.toUInt8), (0x08, 'b'.toUInt8), (0x09, 't'.toUInt8), (0x0a, 'n'.toUInt8),
   (0x0c, 'f'.toUInt8), (0x0d, 'r'.toUInt8), (0x22, 0x22), (0x27, 0x27), (0x5c, 0x5c)]

/-- The letter that stands for `byte` after a backslash. -/
def letterOf? (byte : UInt8) : Option UInt8 :=
  (letters.find? fun entry => entry.1 == byte).map Prod.snd

/-- The byte that `letter` stands for after a backslash. -/
def byteOf? (letter : UInt8) : Option UInt8 :=
  (letters.find? fun entry => entry.2 == letter).map Prod.fst

/-- Space and the visible ASCII characters. -/
def isPrintable (byte : UInt8) : Bool := 0x20 ≤ byte && byte ≤ 0x7e

private def octalDigit (n : Nat) : Char := Char.ofNat ('0'.toNat + n % 8)

/-- The three octal digits of a byte. -/
def octal (byte : UInt8) : List Char :=
  [octalDigit (byte.toNat / 64), octalDigit (byte.toNat / 8), octalDigit byte.toNat]

/-- A byte as it stands between quotes: by its letter if it has one, as it is if it can be seen,
and by its octal digits otherwise. -/
def escape (byte : UInt8) : String :=
  match letterOf? byte with
  | some letter => ofBytes ['\\'.toUInt8, letter]
  | none =>
    if isPrintable byte then ofBytes [byte] else String.ofList ('\\' :: octal byte)

/-- The bytes of `s` as they stand between quotes. -/
def escapeAll (s : String) : String := String.join ((bytes s).map escape)

/-- A character by its number, in hexadecimal. -/
private def byNumber (n : Nat) : String :=
  "\\u\x7b" ++ String.ofList (Nat.toDigits 16 n) ++ "\x7d"

/-- A byte as messages show it: the usual letter for a tab, a line end, a quote or a backslash,
the byte itself if it can be seen, and its number otherwise. -/
def shown (byte : UInt8) : String :=
  if byte ∈ [0x09, 0x0a, 0x0d, 0x22, 0x27, 0x5c] then escape byte
  else if isPrintable byte then ofBytes [byte]
  else byNumber byte.toNat

/-- A character as it stands in a quoted log text. Texts in the log are ASCII, and so are the
characters that this has a rule for. -/
private def quotedChar (c : Char) : String :=
  if c = '\x00' then "\\0"
  else if c = '\t' then "\\t"
  else if c = '\n' then "\\n"
  else if c = '\r' then "\\r"
  else if c = '"' then "\\\""
  else if c = '\\' then "\\\\"
  else if c.toNat < 0x20 || c.toNat = 0x7f then byNumber c.toNat
  else String.singleton c

/-- A text between double quotes, as the log shows it. -/
def quoted (s : String) : String := "\"" ++ String.join (s.toList.map quotedChar) ++ "\""

end WaccArm.Text
