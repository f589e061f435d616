import WaccArm.Assembly.Constants
import WaccArm.Proofs.Lexer.Reread

namespace WaccArm

namespace DataSection

open Lexer

/-- What a line of a data section says. -/
inductive Statement where
  | label (name : List UInt8)
  | word (value : Nat)
  | ascii (content : List UInt8)
deriving DecidableEq, Repr

/-- The letters that may follow a backslash, each with the byte that it stands for. -/
def escapes : List (UInt8 × UInt8) :=
  [('b'.toUInt8, 0x08), ('f'.toUInt8, 0x0c), ('n'.toUInt8, 0x0a), ('r'.toUInt8, 0x0d), ('t'.toUInt8, 0x09),
   ('"'.toUInt8, 0x22), ('\\'.toUInt8, 0x5c)]

def isOctalDigit (byte : UInt8) : Bool := '0'.toUInt8 ≤ byte && byte ≤ '7'.toUInt8

/-- The number that octal digits stand for. -/
def octalValue (digits : List UInt8) : Nat :=
  digits.foldl (fun value byte => value * 8 + (byte.toNat - '0'.toNat)) 0

/-- What follows a backslash: the byte that it stands for, and how many bytes it takes. -/
def escaped? (rest : List UInt8) : Option (UInt8 × Nat) :=
  match rest.head?.bind fun letter => escapes.lookup letter with
  | some byte => some (byte, 1)
  | none =>
    let digits := (rest.take 3).takeWhile isOctalDigit
    if digits.isEmpty then none else some (UInt8.ofNat (octalValue digits), digits.length)

/-- The bytes of a quoted text and what follows the closing quote, given what follows the opening one. -/
def quoted? (text : List UInt8) : Option (List UInt8 × List UInt8) :=
  match text with
  | [] => none
  | byte :: rest =>
    if byte = '"'.toUInt8 then some ([], rest)
    else if byte = '\\'.toUInt8 then
      match escaped? rest with
      | none => none
      | some (value, width) => (quoted? (rest.drop width)).map (Prod.map (value :: ·) id)
    else (quoted? rest).map (Prod.map (byte :: ·) id)
termination_by text.length
decreasing_by all_goals (simp only [List.length_drop, List.length_cons]; omega)

def isBlank (byte : UInt8) : Bool := byte == ' '.toUInt8 || byte == '\t'.toUInt8

/-- The argument of a directive, if the line has that directive. -/
def argument? (directive : String) (line : List UInt8) : Option (List UInt8) :=
  if (Text.bytes directive).isPrefixOf line then
    some ((line.drop (Text.bytes directive).length).dropWhile isBlank)
  else none

/-- A number in decimal digits. -/
def number? (text : List UInt8) : Option Nat :=
  if text.isEmpty || !text.all isDigit then none else some (decimalValue text)

/-- A text in double quotes, and nothing else. -/
def string? : List UInt8 → Option (List UInt8)
  | [] => none
  | byte :: rest =>
    if byte = '"'.toUInt8 then
      match quoted? rest with
      | some (content, []) => some content
      | _ => none
    else none

/-- A name with a colon behind it. -/
def labelName? (line : List UInt8) : Option (List UInt8) :=
  let name := line.takeWhile isWordByte
  if name.isEmpty || line.drop name.length != [':'.toUInt8] then none else some name

def statement? (line : List UInt8) : Option Statement :=
  let line := line.dropWhile isBlank
  match argument? ".word" line with
  | some argument => (number? argument).map .word
  | none =>
    match argument? ".ascii" line with
    | some argument => (string? argument).map .ascii
    | none => (labelName? line).map .label

/-- The lines of a text. A line feed ends a line. -/
def lines : List UInt8 → List (List UInt8)
  | [] => []
  | byte :: rest =>
    if byte = '\n'.toUInt8 then [] :: lines rest
    else
      match lines rest with
      | [] => [[byte]]
      | line :: others => (byte :: line) :: others

/-- The statements of a data section, one for each line. -/
def read (text : List UInt8) : Option (List Statement) := (lines text).mapM statement?

theorem isOctalDigit_iff {byte : UInt8} : isOctalDigit byte ↔ 48 ≤ byte.toNat ∧ byte.toNat ≤ 55 := by
  simp only [isOctalDigit, Bool.and_eq_true, decide_eq_true_eq, UInt8.le_iff_toNat_le]
  rfl

/-- The digit of a number below eight. -/
theorem octalDigit_toNat (n : Nat) :
    isOctalDigit (Char.ofNat (48 + n % 8)).toUInt8 ∧ (Char.ofNat (48 + n % 8)).toUInt8.toNat = 48 + n % 8 := by
  have hvalue : (Char.ofNat (48 + n % 8)).toUInt8.toNat = 48 + n % 8 := Text.toUInt8_ofNat (by omega)
  rw [isOctalDigit_iff, hvalue]
  omega

/-- Letters of escapes are no digits, so digits are read as a number. -/
theorem lookup_of_isOctalDigit {byte : UInt8} (h : isOctalDigit byte) : escapes.lookup byte = none := by
  rw [isOctalDigit_iff] at h
  rw [List.lookup_eq_none_iff]
  intro entry hentry
  have hletter : entry.1.toNat < 48 ∨ 55 < entry.1.toNat := by
    have hall : escapes.all fun entry => entry.1.toNat < 48 || 55 < entry.1.toNat := by decide
    simpa using List.all_eq_true.1 hall entry hentry
  simp only [bne_iff_ne, ne_eq]
  rintro rfl
  omega

/-- Three octal digits are read as the byte that they were made from, whatever follows. -/
theorem escaped?_octalBytes (byte : UInt8) (rest : List UInt8) :
    escaped? (Text.octalBytes byte ++ rest) = some (byte, 3) := by
  obtain ⟨hfirst, hfirstValue⟩ := octalDigit_toNat (byte.toNat / 64)
  obtain ⟨hsecond, hsecondValue⟩ := octalDigit_toNat (byte.toNat / 8)
  obtain ⟨hthird, hthirdValue⟩ := octalDigit_toNat byte.toNat
  have hbytes : Text.octalBytes byte = [(Char.ofNat (48 + byte.toNat / 64 % 8)).toUInt8,
    (Char.ofNat (48 + byte.toNat / 8 % 8)).toUInt8, (Char.ofNat (48 + byte.toNat % 8)).toUInt8] := rfl
  have hdigits : ((Text.octalBytes byte ++ rest).take 3).takeWhile isOctalDigit = Text.octalBytes byte := by
    simp [hbytes, hfirst, hsecond, hthird]
  have hvalue : octalValue (Text.octalBytes byte) = byte.toNat := by
    have hlt := byte.toNat_lt
    simp only [hbytes, octalValue, List.foldl_cons, List.foldl_nil, hfirstValue, hsecondValue, hthirdValue]
    change ((0 * 8 + (48 + byte.toNat / 64 % 8 - 48)) * 8 + (48 + byte.toNat / 8 % 8 - 48)) * 8 +
      (48 + byte.toNat % 8 - 48) = byte.toNat
    omega
  have hletter : ((Text.octalBytes byte ++ rest).head?.bind fun letter => escapes.lookup letter) = none :=
    lookup_of_isOctalDigit hfirst
  rw [escaped?, hletter]
  simp only [hdigits, hvalue, UInt8.ofNat_toNat]
  rfl

/-- The ways to write a byte between quotes so that it is read as that byte. -/
inductive Written (byte : UInt8) : List UInt8 → Prop
  | plain (hprintable : Text.isPrintable byte) (hquote : byte ≠ '"'.toUInt8) (hslash : byte ≠ '\\'.toUInt8) :
    Written byte [byte]
  | letter {letter : UInt8} (hletter : escapes.lookup letter = some byte) :
    Written byte ['\\'.toUInt8, letter]
  | octal : Written byte ('\\'.toUInt8 :: Text.octalBytes byte)

/-- A byte with a letter has the same letter for the assembler, unless it is zero or a single quote. -/
theorem lookup_of_letterOf? {byte letter : UInt8} (h : Text.letterOf? byte = some letter) (hzero : byte ≠ 0)
    (hquote : byte ≠ 0x27) : escapes.lookup letter = some byte := by
  have hall : Text.letters.all fun entry =>
      entry.1 = 0 || entry.1 = 0x27 || escapes.lookup entry.2 = some entry.1 := by decide
  have hentry := List.all_eq_true.1 hall _ (Text.letterOf?_eq_some h)
  simpa [hzero, hquote] using hentry

/-- What is written for a byte is one of the forms that are read. -/
theorem written_escape (byte : UInt8) : Written byte (Text.bytes (Constants.escape byte)) := by
  rw [Constants.escape]
  -- These two are the bytes that are written otherwise than in the source of a program.
  by_cases hquote : byte = 0x27
  · subst hquote
    exact .plain (by decide) (by decide) (by decide)
  by_cases hzero : byte = 0
  · subst hzero
    exact .octal
  rw [if_neg hquote, if_neg hzero]
  cases hletter : Text.letterOf? byte with
  | some letter =>
    rw [Text.bytes_escape_letter hletter]
    exact .letter (lookup_of_letterOf? hletter hzero hquote)
  | none =>
    by_cases hprintable : Text.isPrintable byte
    · rw [Text.bytes_escape_plain hletter hprintable]
      refine .plain hprintable ?_ ?_
      · rintro rfl
        cases hletter
      · rintro rfl
        cases hletter
    · rw [Text.bytes_escape_octal hletter hprintable]
      exact .octal

/-- A written byte is read as that byte whatever follows. -/
theorem Written.quoted? {byte : UInt8} {form : List UInt8} (h : Written byte form) (rest : List UInt8) :
    DataSection.quoted? (form ++ rest) = (DataSection.quoted? rest).map (Prod.map (byte :: ·) id) := by
  cases h with
  | plain hprintable hquote hslash =>
    rw [List.singleton_append, DataSection.quoted?, if_neg hquote, if_neg hslash]
  | @letter letter hletter =>
    have hescaped : escaped? (letter :: rest) = some (byte, 1) := by
      simp [escaped?, hletter]
    rw [List.cons_append, List.singleton_append, DataSection.quoted?, if_neg (by decide), if_pos rfl, hescaped]
    rfl
  | octal =>
    rw [List.cons_append, DataSection.quoted?, if_neg (by decide), if_pos rfl, escaped?_octalBytes]
    rfl

theorem printable_of_isOctalDigit {byte : UInt8} (h : isOctalDigit byte) : Text.isPrintable byte := by
  rw [isOctalDigit_iff] at h
  rw [Text.isPrintable_iff]
  omega

/-- Whatever is written for a byte can be seen, so it does not end a line. -/
theorem Written.printable {byte : UInt8} {form : List UInt8} (h : Written byte form) :
    ∀ b ∈ form, Text.isPrintable b := by
  have hslash : Text.isPrintable '\\'.toUInt8 := by decide
  cases h with
  | plain hprintable => exact List.forall_mem_singleton.2 hprintable
  | letter hletter =>
    obtain ⟨before, after, hsplit, -⟩ := List.lookup_eq_some_iff.1 hletter
    have hall : escapes.all fun entry => Text.isPrintable entry.1 := by decide
    have hprintable := List.all_eq_true.1 hall _ (hsplit ▸ List.mem_append_right before (List.mem_cons_self ..))
    exact List.forall_mem_cons.2 ⟨hslash, List.forall_mem_singleton.2 hprintable⟩
  | octal =>
    refine List.forall_mem_cons.2 ⟨hslash, ?_⟩
    change ∀ b ∈ [_, _, _], _
    simp only [List.forall_mem_cons]
    refine ⟨?_, ?_, ?_, by simp⟩ <;> exact printable_of_isOctalDigit (octalDigit_toNat _).1

/-- The content of a constant is read as it was, up to its closing quote. -/
theorem quoted?_escapes (content rest : List UInt8) :
    quoted? (content.flatMap (fun b => Text.bytes (Constants.escape b)) ++ '"'.toUInt8 :: rest) =
      some (content, rest) := by
  induction content with
  | nil =>
    rw [List.flatMap_nil, List.nil_append, quoted?, if_pos rfl]
  | cons byte content ih =>
    rw [List.flatMap_cons, List.append_assoc, (written_escape byte).quoted?, ih]
    rfl

/-- A line ends at the first line feed. -/
theorem lines_append {line : List UInt8} (h : '\n'.toUInt8 ∉ line) (rest : List UInt8) :
    lines (line ++ '\n'.toUInt8 :: rest) = line :: lines rest := by
  induction line with
  | nil => rw [List.nil_append, lines, if_pos rfl]
  | cons byte line ih =>
    rw [List.mem_cons, not_or] at h
    rw [List.cons_append, lines, if_neg (Ne.symm h.1), ih h.2]

/-- Lines that are written one after the other are found again. -/
theorem lines_flatMap {ls : List (List UInt8)} (h : ∀ line ∈ ls, '\n'.toUInt8 ∉ line) :
    lines (ls.flatMap (· ++ ['\n'.toUInt8])) = ls := by
  induction ls with
  | nil => rfl
  | cons line ls ih =>
    rw [List.forall_mem_cons] at h
    rw [List.flatMap_cons, List.append_assoc, List.singleton_append, lines_append h.1, ih h.2]

/-- A name is neither a blank nor a directive. -/
theorem wordByte_starts {byte : UInt8} (h : isWordByte byte) : isBlank byte = false ∧ byte ≠ '.'.toUInt8 := by
  constructor
  · cases hblank : isBlank byte with
    | false => rfl
    | true =>
      rw [isBlank, Bool.or_eq_true, beq_iff_eq, beq_iff_eq] at hblank
      rcases hblank with rfl | rfl <;> exact absurd h (by decide)
  · rintro rfl
    exact absurd h (by decide)

/-- A line that does not start with a dot has no directive. -/
theorem argument?_eq_none {directive : String} {letters : List UInt8}
    (hdirective : Text.bytes directive = '.'.toUInt8 :: letters) {first : UInt8} (hfirst : first ≠ '.'.toUInt8)
    (rest : List UInt8) : argument? directive (first :: rest) = none := by
  rw [argument?, hdirective, if_neg]
  simp [List.isPrefixOf, Ne.symm hfirst]

/-- A word with a colon behind it is a label. -/
theorem labelName?_colon {name : List UInt8} (hne : name ≠ []) (hname : ∀ b ∈ name, isWordByte b) :
    labelName? (name ++ [':'.toUInt8]) = some name := by
  have hcolon : ∀ b ∈ [':'.toUInt8].head?, isWordByte b = false := by
    rintro _ ⟨⟩
    decide
  have htake : (name ++ [':'.toUInt8]).takeWhile isWordByte = name := takeWhile_append_stop hname hcolon
  simp [labelName?, htake, hne]

theorem statement?_label {name : List UInt8} (hne : name ≠ []) (hname : ∀ b ∈ name, isWordByte b) :
    statement? (name ++ [':'.toUInt8]) = some (.label name) := by
  have hlabel := labelName?_colon hne hname
  cases name with
  | nil => exact absurd rfl hne
  | cons first others =>
    obtain ⟨hblank, hdot⟩ := wordByte_starts (hname first (List.mem_cons_self ..))
    have hstart : (first :: others ++ [':'.toUInt8]).dropWhile isBlank = first :: others ++ [':'.toUInt8] := by
      simp [hblank]
    have hword : argument? ".word" (first :: others ++ [':'.toUInt8]) = none := argument?_eq_none rfl hdot _
    have hascii : argument? ".ascii" (first :: others ++ [':'.toUInt8]) = none := argument?_eq_none rfl hdot _
    simp only [statement?, hstart, hword, hascii, hlabel, Option.map_some]

/-- A number is read back. -/
theorem number?_toString (n : Nat) : number? (Text.bytes (toString n)) = some n := by
  have hdigits : (Text.bytes (toString n)).all isDigit := List.all_eq_true.2 (isDigit_bytes_toString n)
  have hsome : (Text.bytes (toString n)).isEmpty = false := by
    rw [List.isEmpty_eq_false_iff]
    exact bytes_toString_ne_nil n
  rw [number?, hdigits, hsome, decimalValue_bytes_toString]
  rfl

theorem statement?_word (n : Nat) :
    statement? (Text.bytes "\t.word " ++ Text.bytes (toString n)) = some (.word n) := by
  have hargument : argument? ".word" ((Text.bytes "\t.word " ++ Text.bytes (toString n)).dropWhile isBlank) =
      some ((Text.bytes (toString n)).dropWhile isBlank) := rfl
  have hstart : (Text.bytes (toString n)).dropWhile isBlank = Text.bytes (toString n) := by
    cases hbytes : Text.bytes (toString n) with
    | nil => rfl
    | cons first others =>
      have hdigit := isDigit_bytes_toString n first (hbytes ▸ List.mem_cons_self ..)
      have hbyte : isWordByte first := by simp [isWordByte, hdigit]
      simp [(wordByte_starts hbyte).1]
  simp only [statement?, hargument, hstart, number?_toString, Option.map_some]

/-- A text between quotes is read back. -/
theorem statement?_ascii (content : List UInt8) :
    statement? (Text.bytes "\t.ascii \"" ++
      (content.flatMap (fun b => Text.bytes (Constants.escape b)) ++ ['"'.toUInt8])) = some (.ascii content) := by
  generalize hquoted : content.flatMap (fun b => Text.bytes (Constants.escape b)) ++ ['"'.toUInt8] = text
  have hword : argument? ".word" ((Text.bytes "\t.ascii \"" ++ text).dropWhile isBlank) = none := rfl
  have hascii : argument? ".ascii" ((Text.bytes "\t.ascii \"" ++ text).dropWhile isBlank) =
      some ('"'.toUInt8 :: text) := rfl
  have hstring : string? ('"'.toUInt8 :: text) = some content := by
    rw [string?, if_pos rfl, ← hquoted, quoted?_escapes]
  simp only [statement?, hword, hascii, hstring, Option.map_some]

end DataSection

end WaccArm
