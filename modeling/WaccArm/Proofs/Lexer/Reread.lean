import WaccArm.Proofs.Lexer.Literals

namespace WaccArm

namespace Lexer

open Text

/-- The tokens of a text without their places. -/
def values (source : List UInt8) : Option (List Token) :=
  (tokenize source).toOption.map (List.map Located.val)

/-- The tokens of a text without their places. -/
theorem values_eq_some {source : List UInt8} {vs : List Token} :
    values source = some vs ↔ ∃ tokens, tokenize source = .ok tokens ∧ tokens.map Located.val = vs := by
  unfold values
  cases tokenize source <;> simp [Except.toOption]

/-- The tokens from a cursor on, without their places. -/
private def valuesFrom (c : Cursor) : Option (List Token) := c.tokens.toOption.map (List.map Located.val)

private theorem valuesFrom_eq (c : Cursor) :
    valuesFrom c = match c.skipTrivia.rest with
      | [] => some []
      | first :: rest => (scan first rest).toOption.bind fun lexeme =>
          (valuesFrom (c.skipTrivia.advance (lexeme.more + 1))).map (lexeme.token :: ·) := by
  rw [valuesFrom, Cursor.tokens]
  split
  next hrest =>
    rw [hrest]
    rfl
  next first rest hrest =>
    simp only [hrest]
    cases scan first rest with
    | error fault => rfl
    | ok lexeme =>
      simp only [valuesFrom, Except.toOption, Option.bind_some]
      cases (c.skipTrivia.advance (lexeme.more + 1)).tokens <;> rfl

/-- Where a text starts does not matter. -/
private theorem valuesFrom_congr (c c' : Cursor) (h : c.rest = c'.rest) : valuesFrom c = valuesFrom c' := by
  have hskip : c.skipTrivia.rest = c'.skipTrivia.rest := by
    simp only [Cursor.skipTrivia, Cursor.advance, h]
  rw [valuesFrom_eq c, valuesFrom_eq c', ← hskip]
  cases hrest : c.skipTrivia.rest with
  | nil => rfl
  | cons first rest =>
    refine congrArg ((scan first rest).toOption.bind ·) (funext fun lexeme => ?_)
    rw [valuesFrom_congr (c.skipTrivia.advance (lexeme.more + 1)) (c'.skipTrivia.advance (lexeme.more + 1))
      (by simp only [Cursor.advance, hskip])]
termination_by c.rest.length
decreasing_by
  have hle := c.length_skipTrivia_le
  simp only [Cursor.advance, List.length_drop, hrest, List.length_cons] at hle ⊢
  omega

theorem values_eq (source : List UInt8) :
    values source = match source.drop (triviaLength false source) with
      | [] => some []
      | first :: rest => (scan first rest).toOption.bind fun lexeme =>
          (values (rest.drop lexeme.more)).map (lexeme.token :: ·) := by
  change valuesFrom (.ofBytes source) = _
  rw [valuesFrom_eq]
  change (match source.drop (triviaLength false source) with | [] => _ | first :: rest => _) = _
  cases hrest : source.drop (triviaLength false source) with
  | nil => rfl
  | cons first rest =>
    refine congrArg ((scan first rest).toOption.bind ·) (funext fun lexeme => ?_)
    refine congrArg (Option.map (lexeme.token :: ·)) (valuesFrom_congr _ (.ofBytes _) ?_)
    change (source.drop (triviaLength false source)).drop (lexeme.more + 1) = rest.drop lexeme.more
    rw [hrest, List.drop_succ_cons]

/-- Whether a byte is skipped where a token may start. -/
def startsTrivia (byte : UInt8) : Bool := isSpace byte || byte == '#'.toUInt8

theorem values_end {source : List UInt8} (hskip : source.drop (triviaLength false source) = []) :
    values source = some [] := by
  rw [values_eq, hskip]

/-- A lexeme and the tokens behind it. -/
theorem values_lexeme {source rest : List UInt8} {first : UInt8} {token : Token} {more : Nat}
    {vs : List Token} (hskip : source.drop (triviaLength false source) = first :: rest)
    (hscan : scan first rest = .ok ⟨token, more⟩) (h : values (rest.drop more) = some vs) :
    values source = some (token :: vs) := by
  rw [values_eq, hskip]
  change (scan first rest).toOption.bind _ = _
  rw [hscan]
  change (values (rest.drop more)).map _ = _
  rw [h]
  rfl

/-- Spaces in front do not matter. -/
theorem values_space {byte : UInt8} (h : isSpace byte) (rest : List UInt8) :
    values (byte :: rest) = values rest := by
  rw [values_eq, values_eq rest, triviaLength, if_pos h, List.drop_succ_cons]

/-- A text that starts with a lexeme. -/
theorem values_cons {first : UInt8} (h : startsTrivia first = false) (rest : List UInt8) :
    values (first :: rest) = (scan first rest).toOption.bind fun lexeme =>
      (values (rest.drop lexeme.more)).map (lexeme.token :: ·) := by
  simp only [startsTrivia, Bool.or_eq_false_iff, beq_eq_false_iff_ne] at h
  rw [values_eq, triviaLength, if_neg (by simp [h.1]), if_neg h.2]
  rfl

/-- Symbols of two bytes end with an equals sign, or start with no symbol. -/
theorem ofChars?_eq_some {c d : Char} {mark : Symbol} (h : Symbol.ofChars? c d = some mark) :
    c ∈ ['&', '|', '!', '=', '>', '<'] ∧ (d = '=' ∨ Symbol.ofChar? c = none) := by
  unfold Symbol.ofChars? at h
  split at h
  all_goals first
    | exact ⟨by decide, .inl rfl⟩
    | exact ⟨by decide, .inr rfl⟩
    | cases h

theorem ofChars?_of_first {c d : Char} (h : c ∉ ['&', '|', '!', '=', '>', '<']) :
    Symbol.ofChars? c d = none := by
  rw [Option.eq_none_iff_forall_ne_some]
  intro mark hsome
  exact h (ofChars?_eq_some hsome).1

theorem ofChars?_of_second {c d : Char} {mark : Symbol} (hc : Symbol.ofChar? c = some mark) (hd : d ≠ '=') :
    Symbol.ofChars? c d = none := by
  rw [Option.eq_none_iff_forall_ne_some]
  intro mark' hsome
  obtain hequals | hnone := (ofChars?_eq_some hsome).2
  · exact hd hequals
  · rw [hnone] at hc
    cases hc

theorem byte_of_char {byte : UInt8} {c : Char} (h : Char.ofNat byte.toNat = c) : byte = c.toUInt8 := by
  rw [← h, (char_of_byte byte).2]

/-- A symbol of one byte ends before anything but an equals sign. -/
theorem scan_single {first : UInt8} {mark : Symbol} {rest : List UInt8}
    (h : Symbol.ofChar? (Char.ofNat first.toNat) = some mark) (hrest : rest.head? ≠ some '='.toUInt8) :
    scan first rest = .ok ⟨.symbol mark, 0⟩ := by
  have hnone : (rest.head?.bind fun second =>
      Symbol.ofChars? (Char.ofNat first.toNat) (Char.ofNat second.toNat)) = none := by
    cases rest with
    | nil => rfl
    | cons second rest =>
      apply ofChars?_of_second h
      intro hequals
      apply hrest
      rw [List.head?_cons, byte_of_char hequals]
  rw [scan, hnone, h]

theorem scan_double {first second : UInt8} {mark : Symbol} (rest : List UInt8)
    (h : Symbol.ofChars? (Char.ofNat first.toNat) (Char.ofNat second.toNat) = some mark) :
    scan first (second :: rest) = .ok ⟨.symbol mark, 1⟩ := by
  rw [scan, List.head?_cons, Option.bind_some, h]

/-- A symbol is read back if no equals sign follows. -/
theorem scan_symbol (mark : Symbol) {rest : List UInt8} (hrest : rest.head? ≠ some '='.toUInt8) :
    ∃ first tail, bytes mark.spelling = first :: tail ∧ startsTrivia first = false ∧
      scan first (tail ++ rest) = .ok ⟨.symbol mark, tail.length⟩ := by
  cases mark
  case ge | le | eq | ne | and | or => exact ⟨_, [_], rfl, rfl, scan_double rest rfl⟩
  all_goals exact ⟨_, [], rfl, rfl, scan_single rfl hrest⟩

/-- Whether a token that starts with the byte is no symbol. -/
def startsPlain (byte : UInt8) : Bool :=
  isDigit byte || isWordStart byte || byte == '\''.toUInt8 || byte == '"'.toUInt8

/-- The bytes that symbols start with. -/
def markBytes : List UInt8 := bytes "()[],;=!-+*/%><&|"

theorem markBytes_of_ofChar? {c : Char} {mark : Symbol} (h : Symbol.ofChar? c = some mark) :
    c.toUInt8 ∈ markBytes := by
  unfold Symbol.ofChar? at h
  split at h
  all_goals first
    | decide
    | cases h

theorem not_mark_of_plain {byte : UInt8} (h : startsPlain byte) : byte ∉ markBytes := by
  have hmarks : markBytes.all fun b => !startsPlain b := by decide
  intro hmem
  have hplain := List.all_eq_true.1 hmarks byte hmem
  rw [h] at hplain
  cases hplain

theorem not_trivia_of_plain {byte : UInt8} (h : startsPlain byte) : startsTrivia byte = false := by
  have htrivia : [(0x20 : UInt8), 0x09, 0x0a, 0x0c, 0x0d, '#'.toUInt8].all fun b => !startsPlain b := by
    decide
  rw [← Bool.not_eq_true]
  intro hstarts
  have hmem : byte ∈ [(0x20 : UInt8), 0x09, 0x0a, 0x0c, 0x0d, '#'.toUInt8] := by
    simp only [startsTrivia, isSpace, Bool.or_eq_true, decide_eq_true_eq, beq_iff_eq] at hstarts
    simp only [List.mem_cons, List.not_mem_nil, or_false] at hstarts ⊢
    simpa only [or_assoc] using hstarts
  have hplain := List.all_eq_true.1 htrivia byte hmem
  rw [h] at hplain
  cases hplain

/-- Words, numbers and literals start like no symbol. -/
theorem no_symbol_of_plain {byte : UInt8} (h : startsPlain byte) :
    Symbol.ofChar? (Char.ofNat byte.toNat) = none ∧
      Char.ofNat byte.toNat ∉ ['&', '|', '!', '=', '>', '<'] := by
  have hmark := not_mark_of_plain h
  constructor
  · rw [Option.eq_none_iff_forall_ne_some]
    intro mark hsome
    apply hmark
    rw [← (char_of_byte byte).2]
    exact markBytes_of_ofChar? hsome
  · have hchars : ['&', '|', '!', '=', '>', '<'].all fun c => markBytes.contains c.toUInt8 := by decide
    intro hmem
    apply hmark
    rw [← (char_of_byte byte).2]
    exact List.contains_iff_mem.1 (List.all_eq_true.1 hchars _ hmem)

/-- The first byte says what kind of lexeme it is. -/
theorem scan_plain {first : UInt8} (h : startsPlain first) (rest : List UInt8) :
    scan first rest =
      if isDigit first then
        .ok ⟨.int (number first (rest.takeWhile isDigit)), (rest.takeWhile isDigit).length⟩
      else if first = '\''.toUInt8 then charLiteral rest
      else if first = '"'.toUInt8 then do
        let (content, width) ← stringContent rest
        return ⟨.str (ofBytes content), width⟩
      else if isWordStart first then
        .ok ⟨.ofWord (ofBytes (first :: rest.takeWhile isWordByte)), (rest.takeWhile isWordByte).length⟩
      else .error (.invalidCharacter first) := by
  obtain ⟨hsingle, hdouble⟩ := no_symbol_of_plain h
  have hnone : (rest.head?.bind fun second =>
      Symbol.ofChars? (Char.ofNat first.toNat) (Char.ofNat second.toNat)) = none := by
    cases rest with
    | nil => rfl
    | cons second rest => exact ofChars?_of_first hdouble
  rw [scan, hnone, hsingle]

theorem takeWhile_append_stop {p : UInt8 → Bool} {tail rest : List UInt8} (htail : ∀ b ∈ tail, p b)
    (hrest : ∀ b ∈ rest.head?, p b = false) : (tail ++ rest).takeWhile p = tail := by
  rw [List.takeWhile_append_of_pos htail]
  cases rest with
  | nil => simp
  | cons b rest =>
    have hb := hrest b rfl
    simp [hb]

/-- The number that a string of decimal digits stands for. -/
def decimalValue (digits : List UInt8) : Nat :=
  digits.foldl (fun value byte => value * 10 + (byte.toNat - '0'.toNat)) 0

/-- Cutting off the value before a digit is appended changes nothing, because it is cut off after it. -/
theorem appendDigit_min (value : Nat) (byte : UInt8) :
    appendDigit (min value maxLiteral) byte = min (value * 10 + (byte.toNat - '0'.toNat)) maxLiteral := by
  simp only [appendDigit, maxLiteral]
  omega

/-- The value of an integer token is the number that its digits stand for, or the largest value. -/
theorem number_eq (first : UInt8) (digits : List UInt8) :
    number first digits = min (decimalValue (first :: digits)) maxLiteral := by
  have hfold (value : Nat) : digits.foldl appendDigit (min value maxLiteral) =
      min (digits.foldl (fun value byte => value * 10 + (byte.toNat - '0'.toNat)) value) maxLiteral := by
    induction digits generalizing value with
    | nil => rfl
    | cons byte digits ih => rw [List.foldl_cons, List.foldl_cons, appendDigit_min, ih]
  have hfirst : first.toNat - '0'.toNat ≤ maxLiteral := by
    have hbyte := first.toNat_lt
    simp only [maxLiteral]
    omega
  rw [number, ← Nat.min_eq_left hfirst, hfold, decimalValue, List.foldl_cons, Nat.zero_mul, Nat.zero_add]

/-- A number that is too large is read as the bound. -/
theorem number_le (first : UInt8) (digits : List UInt8) : number first digits ≤ maxLiteral := by
  rw [number_eq]
  exact Nat.min_le_right _ _

/-- Digits are read as the number they stand for, up to the bound. -/
theorem scan_digits {first : UInt8} {tail rest : List UInt8} (hfirst : isDigit first)
    (htail : ∀ b ∈ tail, isDigit b) (hrest : ∀ b ∈ rest.head?, isDigit b = false) :
    scan first (tail ++ rest) =
      .ok ⟨.int (min (decimalValue (first :: tail)) maxLiteral), tail.length⟩ := by
  rw [scan_plain (by simp [startsPlain, hfirst]), if_pos hfirst, takeWhile_append_stop htail hrest, number_eq]

theorem word_not_quote {byte : UInt8} (h : isWordStart byte) :
    isDigit byte = false ∧ byte ≠ '\''.toUInt8 ∧ byte ≠ '"'.toUInt8 := by
  rw [← Bool.not_eq_true, isDigit_iff]
  rw [isWordStart_iff] at h
  refine ⟨by omega, ?_, ?_⟩
  · rintro rfl
    exact absurd h (by decide)
  · rintro rfl
    exact absurd h (by decide)

/-- A word is read up to the first byte that no word has. -/
theorem scan_word {first : UInt8} {tail rest : List UInt8} (hfirst : isWordStart first)
    (htail : ∀ b ∈ tail, isWordByte b) (hrest : ∀ b ∈ rest.head?, isWordByte b = false) :
    scan first (tail ++ rest) = .ok ⟨.ofWord (ofBytes (first :: tail)), tail.length⟩ := by
  obtain ⟨hdigit, hchar, hstr⟩ := word_not_quote hfirst
  rw [scan_plain (by simp [startsPlain, hfirst]), hdigit, if_neg Bool.false_ne_true, if_neg hchar,
    if_neg hstr, if_pos hfirst, takeWhile_append_stop htail hrest]

theorem toNat_of_isDigit {c : Char} (h : c.isDigit) :
    isDigit c.toUInt8 ∧ c.toUInt8.toNat = c.toNat ∧ c.toNat < 0x80 := by
  simp only [Char.isDigit, ge_iff_le, Bool.and_eq_true, decide_eq_true_eq, UInt32.le_iff_toNat_le] at h
  obtain ⟨hlow, hhigh⟩ := h
  change 48 ≤ c.toNat at hlow
  change c.toNat ≤ 57 at hhigh
  have hbyte : c.toUInt8.toNat = c.toNat := by
    change c.toNat % 256 = c.toNat
    omega
  refine ⟨?_, hbyte, by omega⟩
  simp only [isDigit, Bool.and_eq_true, decide_eq_true_eq, UInt8.le_iff_toNat_le, hbyte]
  exact ⟨hlow, hhigh⟩

theorem digits_of_toDigits (n : Nat) : ∀ c ∈ Nat.toDigits 10 n, c.isDigit := by
  intro c hc
  exact Nat.isDigit_of_mem_toDigits (by decide) (by decide) hc

theorem bytes_toString (n : Nat) : bytes (toString n) = (Nat.toDigits 10 n).map Char.toUInt8 := by
  rw [Nat.toString_eq_ofList_toDigits]
  apply bytes_ascii
  intro c hc
  exact (toNat_of_isDigit (digits_of_toDigits n c hc)).2.2

theorem decimalValue_map {cs : List Char} (h : ∀ c ∈ cs, c.isDigit) :
    decimalValue (cs.map Char.toUInt8) = Nat.ofDigitChars 10 cs 0 := by
  rw [decimalValue, Nat.ofDigitChars, List.foldl_map]
  generalize (0 : Nat) = value
  induction cs generalizing value with
  | nil => rfl
  | cons c cs ih =>
    have hc := (toNat_of_isDigit (h c (List.mem_cons_self ..))).2.1
    rw [List.foldl_cons, List.foldl_cons, hc, Nat.mul_comm value 10]
    exact ih (fun d hd => h d (List.mem_cons_of_mem _ hd)) _

theorem isDigit_bytes_toString (n : Nat) : ∀ b ∈ bytes (toString n), isDigit b := by
  intro b hb
  rw [bytes_toString] at hb
  obtain ⟨c, hc, rfl⟩ := List.mem_map.1 hb
  exact (toNat_of_isDigit (digits_of_toDigits n c hc)).1

theorem bytes_toString_ne_nil (n : Nat) : bytes (toString n) ≠ [] := by
  rw [bytes_toString]
  intro h
  exact Nat.toDigits_ne_nil (List.map_eq_nil_iff.1 h)

/-- A number is written in its digits. -/
theorem decimalValue_bytes_toString (n : Nat) : decimalValue (bytes (toString n)) = n := by
  rw [bytes_toString, decimalValue_map (digits_of_toDigits n)]
  exact Nat.ofDigitChars_ten_toDigits

/-- The decimal digits of a number are read as that number. -/
theorem scan_number {n : Nat} {rest : List UInt8} (hn : n ≤ maxLiteral)
    (hrest : ∀ b ∈ rest.head?, isDigit b = false) :
    ∃ first tail, bytes (toString n) = first :: tail ∧ startsPlain first ∧
      scan first (tail ++ rest) = .ok ⟨.int n, tail.length⟩ := by
  have hdigits := isDigit_bytes_toString n
  have hvalue := decimalValue_bytes_toString n
  cases hbytes : bytes (toString n) with
  | nil => exact absurd hbytes (bytes_toString_ne_nil n)
  | cons first tail =>
    rw [hbytes] at hdigits hvalue
    have hfirst := hdigits first (List.mem_cons_self ..)
    refine ⟨first, tail, rfl, by simp [startsPlain, hfirst], ?_⟩
    rw [scan_digits hfirst (fun b hb => hdigits b (List.mem_cons_of_mem _ hb)) hrest, hvalue,
      Nat.min_eq_left hn]

/-- A text that is read as one word. -/
def IsWord (s : String) : Prop :=
  ∃ first tail, s = ofBytes (first :: tail) ∧ isWordStart first ∧ ∀ b ∈ tail, isWordByte b

theorem ascii_of_wordByte {byte : UInt8} (h : isWordByte byte) : isAscii byte := by
  rw [isWordByte, Bool.or_eq_true, isWordStart_iff, isDigit_iff] at h
  exact isAscii_iff.2 (by omega)

/-- Keywords are words. -/
theorem isWord_spelling (k : Keyword) : IsWord k.spelling := by
  have hspelling : ofBytes (bytes k.spelling) = k.spelling ∧ bytes k.spelling ≠ [] ∧
      (bytes k.spelling).all isWordStart := by cases k <;> decide
  obtain ⟨htext, hne, hall⟩ := hspelling
  have hword := List.all_eq_true.1 hall
  cases hbytes : bytes k.spelling with
  | nil => exact absurd hbytes hne
  | cons first tail =>
    rw [hbytes] at htext hword
    refine ⟨first, tail, htext.symm, hword first (List.mem_cons_self ..), ?_⟩
    intro b hb
    simp [isWordByte, hword b (List.mem_cons_of_mem _ hb)]

/-- A keyword is read as itself and not as a name. -/
theorem ofWord_spelling (k : Keyword) : Token.ofWord k.spelling = .keyword k := by
  cases k <;> decide

/-- A word is read as the token it stands for. -/
theorem scan_isWord {s : String} {rest : List UInt8} (h : IsWord s)
    (hrest : ∀ b ∈ rest.head?, isWordByte b = false) :
    ∃ first tail, bytes s = first :: tail ∧ startsPlain first ∧
      scan first (tail ++ rest) = .ok ⟨.ofWord s, tail.length⟩ := by
  obtain ⟨first, tail, rfl, hfirst, htail⟩ := h
  have hascii : ∀ b ∈ first :: tail, isAscii b := by
    intro b hb
    apply ascii_of_wordByte
    rcases List.mem_cons.1 hb with rfl | hb
    · simp [isWordByte, hfirst]
    · exact htail b hb
  refine ⟨first, tail, bytes_ofBytes hascii, by simp [startsPlain, hfirst], ?_⟩
  exact scan_word hfirst htail hrest

end Lexer

namespace Token

open Lexer Text

/-- The tokens that can come out of a text. -/
def WellFormed : Token → Prop
  | .keyword _ | .symbol _ => True
  | .int value => value ≤ maxLiteral
  | .char value => isAscii value
  | .str value => ∃ content, value = ofBytes content ∧ ∀ b ∈ content, isAscii b
  | .ident name => IsWord name ∧ Keyword.ofWord? name = none

/-- The literals whose bytes all have readable forms, and all other tokens. -/
def Readable : Token → Prop
  | .char value => isReadable value
  | .str value => ∀ b ∈ bytes value, isReadable b
  | _ => True

/-- Whether the token does not go on into the bytes that follow its text. -/
def Apart : Token → List UInt8 → Prop
  | .keyword _, rest | .ident _, rest => ∀ b ∈ rest.head?, isWordByte b = false
  | .int _, rest => ∀ b ∈ rest.head?, isDigit b = false
  | .symbol _, rest => rest.head? ≠ some '='.toUInt8
  | .char _, _ | .str _, _ => True

/-- What the text of a token is read as. -/
def reread : Token → Except LexFault Token
  | .char value =>
    if isReadable value then .ok (.char value)
    else .error (if value < 0x40 then .invalidCharLiteral else .invalidEscape '1'.toUInt8)
  | .str value => (readBackAll (bytes value)).map fun content => .str (ofBytes content)
  | t => .ok t

/-- Whether the token is an operator or a punctuation mark. -/
def isSymbol : Token → Bool
  | .symbol _ => true
  | _ => false

/-- The text of a token is read as `reread` says, and all of it is taken. -/
theorem scan_text {t : Token} {rest : List UInt8} (ht : t.WellFormed) (hrest : t.Apart rest) :
    ∃ first tail, bytes t.text = first :: tail ∧ startsTrivia first = false ∧
      (t.isSymbol = false → startsPlain first) ∧
      scan first (tail ++ rest) = t.reread.map (⟨·, tail.length⟩) := by
  have hplain : ∀ {first tail}, bytes t.text = first :: tail → startsPlain first →
      scan first (tail ++ rest) = t.reread.map (⟨·, tail.length⟩) →
      ∃ first tail, bytes t.text = first :: tail ∧ startsTrivia first = false ∧
        (t.isSymbol = false → startsPlain first) ∧
        scan first (tail ++ rest) = t.reread.map (⟨·, tail.length⟩) :=
    fun hbytes hfirst hscan => ⟨_, _, hbytes, not_trivia_of_plain hfirst, fun _ => hfirst, hscan⟩
  cases t with
  | keyword word =>
    obtain ⟨first, tail, hbytes, hfirst, hscan⟩ := scan_isWord (isWord_spelling word) hrest
    rw [ofWord_spelling] at hscan
    exact hplain hbytes hfirst hscan
  | symbol mark =>
    obtain ⟨first, tail, hbytes, hfirst, hscan⟩ := scan_symbol mark hrest
    exact ⟨first, tail, hbytes, hfirst, by simp [isSymbol], hscan⟩
  | int value =>
    obtain ⟨first, tail, hbytes, hfirst, hscan⟩ := scan_number ht hrest
    exact hplain hbytes hfirst hscan
  | ident name =>
    obtain ⟨first, tail, hbytes, hfirst, hscan⟩ := scan_isWord ht.1 hrest
    rw [ofWord, ht.2] at hscan
    exact hplain hbytes hfirst hscan
  | char value =>
    apply @hplain '\''.toUInt8 (bytes (escape value) ++ ['\''.toUInt8]) ?_ rfl
    · rw [scan_plain rfl, List.append_assoc]
      change charLiteral (bytes (escape value) ++ '\''.toUInt8 :: rest) = _
      rw [charLiteral_escape ht, reread, List.length_append]
      split <;> rfl
    · rw [text, bytes_append, bytes_append]
      rfl
  | str value =>
    obtain ⟨content, rfl, hascii⟩ := ht
    apply @hplain '"'.toUInt8 ((content.map escape).flatMap bytes ++ ['"'.toUInt8]) ?_ rfl
    · rw [scan_plain rfl, List.append_assoc]
      change (do
        let (content, width) ← stringContent ((content.map escape).flatMap bytes ++ '"'.toUInt8 :: rest)
        return (⟨.str (ofBytes content), width⟩ : Lexeme)) = _
      rw [stringContent_escapeAll hascii, reread, bytes_ofBytes hascii, List.length_append]
      cases readBackAll content <;> rfl
    · rw [text, bytes_append, bytes_append, escapeAll, bytes_join, bytes_ofBytes hascii]
      rfl

/-- Reading a text that starts with the text of a token. -/
theorem values_text {t : Token} {rest : List UInt8} (ht : t.WellFormed) (hrest : t.Apart rest) :
    values (bytes t.text ++ rest) = t.reread.toOption.bind fun t' => (values rest).map (t' :: ·) := by
  obtain ⟨first, tail, hbytes, hfirst, -, hscan⟩ := scan_text ht hrest
  rw [hbytes, List.cons_append, values_cons hfirst, hscan]
  cases t.reread with
  | error fault => rfl
  | ok t' =>
    change (values ((tail ++ rest).drop tail.length)).map _ = _
    rw [List.drop_left]
    rfl

/-- A readable token is read as itself. -/
theorem reread_of_readable {t : Token} (ht : t.WellFormed) (h : t.Readable) : t.reread = .ok t := by
  cases t with
  | char value =>
    rw [reread, if_pos]
    exact h
  | str value =>
    obtain ⟨content, rfl, hascii⟩ := ht
    rw [Readable, bytes_ofBytes hascii] at h
    rw [reread, bytes_ofBytes hascii, readBackAll_of_readable h]
    rfl
  | _ => rfl

/-- A token is read as itself if it is readable, and as a different string otherwise. -/
theorem reread_eq_ok {t t' : Token} (ht : t.WellFormed) (h : t.reread = .ok t') :
    t.Readable ∧ t' = t ∨ ∃ s s', t = .str s ∧ t' = .str s' ∧ s ≠ s' := by
  by_cases hread : t.Readable
  · rw [reread_of_readable ht hread] at h
    cases h
    exact .inl ⟨hread, rfl⟩
  · cases t with
    | char value =>
      change ¬ isReadable value at hread
      rw [reread, if_neg hread] at h
      cases h
    | str value =>
      obtain ⟨content, rfl, hascii⟩ := ht
      rw [Readable, bytes_ofBytes hascii] at hread
      rw [reread, bytes_ofBytes hascii] at h
      cases hcontent : readBackAll content with
      | error fault =>
        rw [hcontent] at h
        cases h
      | ok others =>
        rw [hcontent] at h
        cases h
        refine .inr ⟨_, _, rfl, rfl, ?_⟩
        intro heq
        apply hread
        apply (readBackAll_length hascii hcontent).2
        rw [← length_ofBytes others, ← heq, length_ofBytes]
    | _ => exact absurd trivial hread

theorem unescape_ascii {rest : List UInt8} {value : UInt8} (h : unescape rest = .ok value) :
    isAscii value := by
  cases rest with
  | nil => cases h
  | cons letter rest =>
    rw [unescape] at h
    split at h
    next byte hbyte =>
      cases h
      obtain ⟨entry, hentry, rfl⟩ := Option.map_eq_some_iff.1 hbyte
      exact (letters_agree (List.mem_of_find?_eq_some hentry)).1
    next => cases h

/-- A character literal is an ASCII byte. -/
theorem charLiteral_ascii {rest : List UInt8} {lexeme : Lexeme} (h : charLiteral rest = .ok lexeme) :
    ∃ value, isAscii value ∧ lexeme.token = .char value := by
  cases rest with
  | nil => cases h
  | cons byte rest =>
    rw [charLiteral_cons] at h
    split at h
    · obtain ⟨value, hvalue, h⟩ := except_bind_eq_ok.1 h
      split at h
      · cases h
        exact ⟨value, unescape_ascii hvalue, rfl⟩
      · cases h
    split at h
    · cases h
    split at h
    next hascii =>
      split at h
      · cases h
        exact ⟨byte, hascii, rfl⟩
      · cases h
    next => cases h

/-- A string literal is made of ASCII bytes. -/
theorem stringContent_ascii {rest content : List UInt8} {width : Nat}
    (h : stringContent rest = .ok (content, width)) : ∀ b ∈ content, isAscii b := by
  fun_induction stringContent rest generalizing content width with
  | case1 => cases h
  | case2 => cases h; simp
  | case3 => cases h
  | case4 letter rest hquote ih =>
    obtain ⟨value, hvalue, h⟩ := except_bind_eq_ok.1 h
    obtain ⟨⟨others, n⟩, hothers, h⟩ := except_bind_eq_ok.1 h
    cases h
    intro b hb
    rcases List.mem_cons.1 hb with rfl | hb
    · exact unescape_ascii hvalue
    · exact ih hothers b hb
  | case5 => cases h
  | case6 byte rest hquote hslash hline hascii ih =>
    obtain ⟨⟨others, n⟩, hothers, h⟩ := except_bind_eq_ok.1 h
    cases h
    intro b hb
    rcases List.mem_cons.1 hb with rfl | hb
    · exact hascii
    · exact ih hothers b hb
  | case7 => cases h

/-- Tokens that are scanned have a form that can be written. -/
theorem scan_wellFormed {first : UInt8} {rest : List UInt8} {lexeme : Lexeme}
    (h : scan first rest = .ok lexeme) : lexeme.token.WellFormed := by
  unfold scan at h
  split at h
  · cases h
    trivial
  split at h
  · cases h
    trivial
  split at h
  · cases h
    exact number_le _ _
  split at h
  · obtain ⟨value, hascii, htoken⟩ := charLiteral_ascii h
    rw [htoken]
    exact hascii
  split at h
  · obtain ⟨⟨content, width⟩, hcontent, h⟩ := except_bind_eq_ok.1 h
    cases h
    exact ⟨content, rfl, stringContent_ascii hcontent⟩
  split at h
  next hfirst =>
    cases h
    have hword : IsWord (ofBytes (first :: rest.takeWhile isWordByte)) :=
      ⟨first, _, rfl, hfirst, List.all_eq_true.1 List.all_takeWhile⟩
    simp only [ofWord]
    split
    next => trivial
    next hnone => exact ⟨hword, hnone⟩
  next => cases h

/-- All tokens of a text have a form that can be written. -/
theorem values_wellFormed {source : List UInt8} {vs : List Token} (h : values source = some vs) :
    ∀ t ∈ vs, t.WellFormed := by
  rw [values_eq] at h
  cases hrest : source.drop (triviaLength false source) with
  | nil =>
    rw [hrest] at h
    cases h
    simp
  | cons first rest =>
    rw [hrest] at h
    obtain ⟨lexeme, hscan, h⟩ := Option.bind_eq_some_iff.1 h
    obtain ⟨others, hothers, rfl⟩ := Option.map_eq_some_iff.1 h
    intro t ht
    rcases List.mem_cons.1 ht with rfl | ht
    · cases hresult : scan first rest with
      | error fault =>
        rw [hresult] at hscan
        cases hscan
      | ok lexeme' =>
        rw [hresult] at hscan
        cases hscan
        exact scan_wellFormed hresult
    · exact values_wellFormed hothers t ht
termination_by source.length
decreasing_by
  have hlength := congrArg List.length hrest
  simp only [List.length_drop, List.length_cons] at hlength ⊢
  omega

end Token

end WaccArm
