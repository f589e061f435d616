import WaccArm.Proofs.Lexer.Reread

namespace WaccArm

namespace Lexer

open Text

/-- What the letter behind a backslash stands for. -/
inductive Escaped : UInt8 → UInt8 → Prop
  | nul : Escaped '0'.toUInt8 0x00
  | backspace : Escaped 'b'.toUInt8 0x08
  | tab : Escaped 't'.toUInt8 0x09
  | newline : Escaped 'n'.toUInt8 0x0a
  | formFeed : Escaped 'f'.toUInt8 0x0c
  | carriageReturn : Escaped 'r'.toUInt8 0x0d
  | doubleQuote : Escaped '"'.toUInt8 '"'.toUInt8
  | quote : Escaped '\''.toUInt8 '\''.toUInt8
  | backslash : Escaped '\\'.toUInt8 '\\'.toUInt8

/-- What stands between the quotes of a character literal. A newline may stand for itself there. -/
inductive CharBody : UInt8 → List UInt8 → Prop
  | plain {byte} (hascii : isAscii byte) (h : byte ∉ ['\''.toUInt8, '"'.toUInt8, '\\'.toUInt8]) :
    CharBody byte [byte]
  | escaped {letter byte} (h : Escaped letter byte) : CharBody byte ['\\'.toUInt8, letter]

/-- What stands between the quotes of a string literal, and the bytes it stands for. -/
inductive StringBody : List UInt8 → List UInt8 → Prop
  | nil : StringBody [] []
  | plain {byte content w} (hascii : isAscii byte) (h : byte ∉ ['"'.toUInt8, '\\'.toUInt8, '\n'.toUInt8])
    (hrest : StringBody content w) : StringBody (byte :: content) (byte :: w)
  | escaped {letter byte content w} (h : Escaped letter byte) (hrest : StringBody content w) :
    StringBody (byte :: content) ('\\'.toUInt8 :: letter :: w)

/-- The bytes are a lexeme of the token. -/
inductive Spelled : Token → List UInt8 → Prop
  | keyword (k : Keyword) : Spelled (.keyword k) (bytes k.spelling)
  | ident {first tail} (hfirst : isWordStart first) (htail : ∀ b ∈ tail, isWordByte b)
    (hfree : ∀ k : Keyword, k.spelling ≠ ofBytes (first :: tail)) :
    Spelled (.ident (ofBytes (first :: tail))) (first :: tail)
  | number {first tail} (hfirst : isDigit first) (htail : ∀ b ∈ tail, isDigit b) :
    Spelled (.int (min (decimalValue (first :: tail)) maxLiteral)) (first :: tail)
  | symbol (mark : Symbol) : Spelled (.symbol mark) (bytes mark.spelling)
  | char {value w} (h : CharBody value w) :
    Spelled (.char value) ('\''.toUInt8 :: (w ++ ['\''.toUInt8]))
  | str {content w} (h : StringBody content w) :
    Spelled (.str (ofBytes content)) ('"'.toUInt8 :: (w ++ ['"'.toUInt8]))

/-- The kinds of lexemes. -/
inductive Kind where
  | word | number | symbol | quoted
deriving DecidableEq

def kindOf : Token → Kind
  | .keyword _ | .ident _ => .word
  | .int _ => .number
  | .symbol _ => .symbol
  | .char _ | .str _ => .quoted

/-- No word byte follows a word, and no digit a number. -/
def Ends : Kind → List UInt8 → Prop
  | .word, rest => ∀ b ∈ rest.head?, isWordByte b = false
  | .number, rest => ∀ b ∈ rest.head?, isDigit b = false
  | .symbol, _ | .quoted, _ => True

/-- No lexeme of the same kind that starts where `w` does is longer. -/
def Longest (kind : Kind) (w rest : List UInt8) : Prop :=
  ∀ t' w', kindOf t' = kind → Spelled t' w' → w' <+: w ++ rest → w'.length ≤ w.length

/-- A lexeme of the token in front of `rest`. A quoted lexeme shows its end itself. -/
structure Munched (t : Token) (w rest : List UInt8) : Prop where
  spelled : Spelled t w
  longest : kindOf t ≠ .quoted → Longest (kindOf t) w rest
  ends : Ends (kindOf t) rest

/-- The lexer knows the escapes of the language. -/
theorem byteOf?_eq_some_iff {letter byte : UInt8} : byteOf? letter = some byte ↔ Escaped letter byte := by
  constructor
  · intro h
    obtain ⟨⟨byte', letter'⟩, hfind, rfl⟩ := Option.map_eq_some_iff.1 h
    have hletter : letter' = letter := by simpa using List.find?_some hfind
    have hmem := List.mem_of_find?_eq_some hfind
    rw [← hletter]
    simp only [letters, List.mem_cons, Prod.mk.injEq, List.not_mem_nil, or_false] at hmem
    rcases hmem with h | h | h | h | h | h | h | h | h
    all_goals
      obtain ⟨rfl, rfl⟩ := h
      constructor
  · rintro (_ | _)
    all_goals rfl

/-- An escape is one letter. -/
theorem unescape_eq_ok_iff {src : List UInt8} {byte : UInt8} :
    unescape src = .ok byte ↔ ∃ letter rest, src = letter :: rest ∧ Escaped letter byte := by
  cases src with
  | nil =>
    constructor
    · intro h
      cases h
    · rintro ⟨letter, rest, h, -⟩
      cases h
  | cons letter rest =>
    rw [unescape]
    constructor
    · intro h
      split at h
      next byte' hbyte =>
        cases h
        exact ⟨letter, rest, rfl, byteOf?_eq_some_iff.1 hbyte⟩
      next => cases h
    · rintro ⟨letter', rest', hsrc, hescaped⟩
      cases hsrc
      rw [byteOf?_eq_some_iff.2 hescaped]

/-- A character literal ends with its quote. -/
theorem charLiteral_of_body {value : UInt8} {w : List UInt8} (h : CharBody value w) (rest : List UInt8) :
    charLiteral (w ++ '\''.toUInt8 :: rest) = .ok ⟨.char value, w.length + 1⟩ := by
  cases h with
  | plain hascii hbyte =>
    simp only [List.mem_cons, List.not_mem_nil, or_false, not_or] at hbyte
    obtain ⟨hquote, hdouble, hslash⟩ := hbyte
    change charLiteral (value :: '\''.toUInt8 :: rest) = _
    rw [charLiteral_cons, if_neg hslash, if_neg (not_or.2 ⟨hquote, hdouble⟩), if_pos hascii]
    rfl
  | @escaped letter _ hescaped =>
    have hvalue : unescape (letter :: '\''.toUInt8 :: rest) = .ok value :=
      unescape_eq_ok_iff.2 ⟨letter, _, rfl, hescaped⟩
    change charLiteral ('\\'.toUInt8 :: letter :: '\''.toUInt8 :: rest) = _
    rw [charLiteral_cons, if_pos rfl, hvalue]
    rfl

/-- What is scanned as a character literal is one. -/
theorem body_of_charLiteral {src : List UInt8} {lexeme : Lexeme} (h : charLiteral src = .ok lexeme) :
    ∃ value w rest, src = w ++ '\''.toUInt8 :: rest ∧ CharBody value w ∧
      lexeme = ⟨.char value, w.length + 1⟩ := by
  cases src with
  | nil => cases h
  | cons byte src =>
    rw [charLiteral_cons] at h
    split at h
    next hslash =>
      obtain ⟨value, hvalue, h⟩ := except_bind_eq_ok.1 h
      obtain ⟨letter, rest, rfl, hescaped⟩ := unescape_eq_ok_iff.1 hvalue
      split at h
      next hclose =>
        cases h
        obtain ⟨rest', rfl⟩ := List.head?_eq_some_iff.1 hclose
        subst hslash
        exact ⟨value, _, rest', rfl, .escaped hescaped, rfl⟩
      next => cases h
    next hslash =>
      split at h
      next => cases h
      next hquote =>
        split at h
        next hascii =>
          split at h
          next hclose =>
            cases h
            obtain ⟨rest, rfl⟩ := List.head?_eq_some_iff.1 hclose
            refine ⟨byte, [byte], rest, rfl, .plain hascii ?_, rfl⟩
            simp only [List.mem_cons, List.not_mem_nil, or_false, not_or]
            exact ⟨(not_or.1 hquote).1, (not_or.1 hquote).2, hslash⟩
          next => cases h
        next => cases h

/-- A string literal ends at the first quote that is not escaped. -/
theorem stringContent_of_body {content w : List UInt8} (h : StringBody content w) (rest : List UInt8) :
    stringContent (w ++ '"'.toUInt8 :: rest) = .ok (content, w.length + 1) := by
  induction h with
  | nil =>
    change stringContent ('"'.toUInt8 :: rest) = _
    rw [stringContent.eq_def]
    rfl
  | @plain byte content w hascii hbyte _ ih =>
    simp only [List.mem_cons, List.not_mem_nil, or_false, not_or] at hbyte
    have hordinary : isOrdinary byte := by simp [isOrdinary, hascii, hbyte]
    rw [List.cons_append, stringContent_ordinary hordinary, ih]
    rfl
  | @escaped letter byte content w hescaped _ ih =>
    have hvalue : unescape [letter] = .ok byte := unescape_eq_ok_iff.2 ⟨letter, [], rfl, hescaped⟩
    rw [List.cons_append, List.cons_append, stringContent_letter, hvalue, ih]
    rfl

/-- What is scanned as a string literal is one. -/
theorem body_of_stringContent {src content : List UInt8} {width : Nat}
    (h : stringContent src = .ok (content, width)) :
    ∃ w rest, src = w ++ '"'.toUInt8 :: rest ∧ StringBody content w ∧ width = w.length + 1 := by
  fun_induction stringContent src generalizing content width with
  | case1 => cases h
  | case2 rest =>
    cases h
    exact ⟨[], rest, rfl, .nil, rfl⟩
  | case3 => cases h
  | case4 letter rest hquote ih =>
    obtain ⟨value, hvalue, h⟩ := except_bind_eq_ok.1 h
    obtain ⟨⟨others, n⟩, hothers, h⟩ := except_bind_eq_ok.1 h
    cases h
    obtain ⟨letter', rest', hletter, hescaped⟩ := unescape_eq_ok_iff.1 hvalue
    cases hletter
    obtain ⟨w, rest', rfl, hbody, rfl⟩ := ih hothers
    exact ⟨_ :: letter :: w, rest', rfl, .escaped hescaped hbody, rfl⟩
  | case5 => cases h
  | case6 byte rest hquote hslash hline hascii ih =>
    obtain ⟨⟨others, n⟩, hothers, h⟩ := except_bind_eq_ok.1 h
    cases h
    obtain ⟨w, rest', rfl, hbody, rfl⟩ := ih hothers
    refine ⟨byte :: w, rest', rfl, .plain hascii ?_ hbody, rfl⟩
    simp only [List.mem_cons, List.not_mem_nil, or_false, not_or]
    exact ⟨hquote, hslash, hline⟩
  | case7 => cases h

theorem wordByte_of_start {byte : UInt8} (h : isWordStart byte) : isWordByte byte := by
  simp [isWordByte, h]

theorem wordBytes_cons {first : UInt8} {tail : List UInt8} (hfirst : isWordStart first)
    (htail : ∀ b ∈ tail, isWordByte b) : ∀ b ∈ first :: tail, isWordByte b := by
  intro b hb
  rcases List.mem_cons.1 hb with rfl | hb
  · exact wordByte_of_start hfirst
  · exact htail b hb

theorem bytes_of_wordBytes {w : List UInt8} (h : ∀ b ∈ w, isWordByte b) : bytes (ofBytes w) = w :=
  bytes_ofBytes fun b hb => ascii_of_wordByte (h b hb)

/-- A word that is no keyword is a name. -/
theorem ofWord_of_free {s : String} (h : ∀ k : Keyword, k.spelling ≠ s) : Token.ofWord s = .ident s := by
  have hnone : Keyword.ofWord? s = none := by
    rw [Keyword.ofWord?, List.find?_eq_none]
    intro k _
    simpa using h k
  rw [Token.ofWord, hnone]

/-- A word lexeme is a word, and it is read as the token. -/
theorem Spelled.word {t : Token} {w : List UInt8} (h : Spelled t w) (hkind : kindOf t = .word) :
    ∃ first tail, w = first :: tail ∧ isWordStart first ∧ (∀ b ∈ tail, isWordByte b) ∧
      Token.ofWord (ofBytes w) = t := by
  cases h with
  | keyword k =>
    obtain ⟨first, tail, htext, hfirst, htail⟩ := isWord_spelling k
    have hbytes : bytes k.spelling = first :: tail := by
      rw [htext]
      exact bytes_of_wordBytes (wordBytes_cons hfirst htail)
    refine ⟨first, tail, hbytes, hfirst, htail, ?_⟩
    rw [hbytes, ← htext, ofWord_spelling]
  | ident hfirst htail hfree => exact ⟨_, _, rfl, hfirst, htail, ofWord_of_free hfree⟩
  | number | symbol | char | str => cases hkind

/-- A word is a lexeme of the token that it is read as. -/
theorem spelled_word {first : UInt8} {tail : List UInt8} (hfirst : isWordStart first)
    (htail : ∀ b ∈ tail, isWordByte b) :
    Spelled (Token.ofWord (ofBytes (first :: tail))) (first :: tail) ∧
      kindOf (Token.ofWord (ofBytes (first :: tail))) = .word := by
  by_cases hfree : ∀ k : Keyword, k.spelling ≠ ofBytes (first :: tail)
  · rw [ofWord_of_free hfree]
    exact ⟨.ident hfirst htail hfree, rfl⟩
  · simp only [not_forall, ne_eq, not_not] at hfree
    obtain ⟨k, hk⟩ := hfree
    have hbytes : bytes k.spelling = first :: tail := by
      rw [hk]
      exact bytes_of_wordBytes (wordBytes_cons hfirst htail)
    rw [← hk, ofWord_spelling, ← hbytes]
    exact ⟨.keyword k, rfl⟩

/-- Numbers are made of digits. -/
theorem Spelled.number_bytes {t : Token} {w : List UInt8} (h : Spelled t w) (hkind : kindOf t = .number) :
    ∀ b ∈ w, isDigit b := by
  cases h with
  | number hfirst htail =>
    intro b hb
    rcases List.mem_cons.1 hb with rfl | hb
    · exact hfirst
    · exact htail b hb
  | keyword | ident | symbol | char | str => cases hkind

/-- A run of bytes of a class that is followed by none of the class is the longest one. -/
theorem length_le_of_ends {p : UInt8 → Bool} {w w' rest : List UInt8} (hw : ∀ b ∈ w, p b)
    (hrest : ∀ b ∈ rest.head?, p b = false) (hw' : ∀ b ∈ w', p b) (hfront : w' <+: w ++ rest) :
    w'.length ≤ w.length := by
  obtain ⟨more, hmore⟩ := hfront
  have htake := congrArg (fun src => (src.takeWhile p).length) hmore
  simp only [List.takeWhile_append_of_pos hw', takeWhile_append_stop hw hrest, List.length_append] at htake
  omega

theorem bytes_of_ofChar? {c : Char} {mark : Symbol} (h : Symbol.ofChar? c = some mark) :
    bytes mark.spelling = [c.toUInt8] := by
  unfold Symbol.ofChar? at h
  split at h
  all_goals cases h
  all_goals rfl

theorem bytes_of_ofChars? {c d : Char} {mark : Symbol} (h : Symbol.ofChars? c d = some mark) :
    bytes mark.spelling = [c.toUInt8, d.toUInt8] := by
  unfold Symbol.ofChars? at h
  split at h
  all_goals cases h
  all_goals rfl

/-- A symbol is written with one character or with two. -/
theorem spelling_cases (mark : Symbol) :
    (∃ b, bytes mark.spelling = [b] ∧ startsTrivia b = false ∧
      Symbol.ofChar? (Char.ofNat b.toNat) = some mark) ∨
    ∃ b d, bytes mark.spelling = [b, d] ∧ startsTrivia b = false ∧
      Symbol.ofChars? (Char.ofNat b.toNat) (Char.ofNat d.toNat) = some mark := by
  cases mark
  case ge | le | eq | ne | and | or => exact .inr ⟨_, _, rfl, rfl, rfl⟩
  all_goals exact .inl ⟨_, rfl, rfl, rfl⟩

/-- The symbol of two characters that a text starts with. -/
def double? (first : UInt8) (rest : List UInt8) : Option Symbol :=
  rest.head?.bind fun second => Symbol.ofChars? (Char.ofNat first.toNat) (Char.ofNat second.toNat)

/-- Two bytes may be one symbol. -/
theorem double?_eq_some_iff {first : UInt8} {rest : List UInt8} {mark : Symbol} :
    double? first rest = some mark ↔ ∃ second rest', rest = second :: rest' ∧
      Symbol.ofChars? (Char.ofNat first.toNat) (Char.ofNat second.toNat) = some mark := by
  cases rest with
  | nil => simp [double?]
  | cons second rest => simp [double?]

/-- A symbol at the front of a text either is the one of two characters there or has one character. -/
theorem symbol_at_front {mark : Symbol} {first : UInt8} {rest : List UInt8}
    (h : bytes mark.spelling <+: first :: rest) :
    double? first rest = some mark ∨ (bytes mark.spelling).length = 1 := by
  rcases spelling_cases mark with ⟨b, hb, -⟩ | ⟨b, d, hbytes, -, hmark⟩
  · rw [hb]
    exact .inr rfl
  · rw [hbytes, List.cons_prefix_cons] at h
    obtain ⟨rfl, rest', hrest⟩ := h
    exact .inl (double?_eq_some_iff.2 ⟨d, rest', hrest.symm, hmark⟩)

/-- No symbol has three bytes. -/
theorem munched_double {first second : UInt8} {mark : Symbol} (rest : List UInt8)
    (h : Symbol.ofChars? (Char.ofNat first.toNat) (Char.ofNat second.toNat) = some mark) :
    Munched (.symbol mark) [first, second] rest := by
  have hbytes := bytes_of_ofChars? h
  rw [(char_of_byte first).2, (char_of_byte second).2] at hbytes
  refine ⟨hbytes ▸ .symbol mark, ?_, trivial⟩
  intro _ t' w' hkind hspelled _
  cases hspelled with
  | symbol mark' =>
    rcases spelling_cases mark' with ⟨b, hb, -⟩ | ⟨b, d, hb, -⟩
    · simp [hb]
    · simp [hb]
  | keyword | ident | number | char | str => cases hkind

/-- One byte is a symbol if no longer symbol starts there. -/
theorem munched_single {first : UInt8} {rest : List UInt8} {mark : Symbol}
    (hdouble : double? first rest = none) (h : Symbol.ofChar? (Char.ofNat first.toNat) = some mark) :
    Munched (.symbol mark) [first] rest := by
  have hbytes := bytes_of_ofChar? h
  rw [(char_of_byte first).2] at hbytes
  refine ⟨hbytes ▸ .symbol mark, ?_, trivial⟩
  intro _ t' w' hkind hspelled hfront
  cases hspelled with
  | symbol mark' =>
    rcases @symbol_at_front mark' first rest hfront with hsome | hone
    · rw [hdouble] at hsome
      cases hsome
    · exact Nat.le_of_eq hone
  | keyword | ident | number | char | str => cases hkind

/-- A number goes on as long as digits follow. -/
theorem munched_number {first : UInt8} {tail rest : List UInt8} (hfirst : isDigit first)
    (htail : ∀ b ∈ tail, isDigit b) (hrest : ∀ b ∈ rest.head?, isDigit b = false) :
    Munched (.int (min (decimalValue (first :: tail)) maxLiteral)) (first :: tail) rest := by
  have hspelled := Spelled.number hfirst htail
  refine ⟨hspelled, ?_, hrest⟩
  intro _ t' w' hkind hspelled' hfront
  exact length_le_of_ends (hspelled.number_bytes rfl) hrest (hspelled'.number_bytes hkind) hfront

/-- A word goes on as long as its bytes follow. -/
theorem munched_word {first : UInt8} {tail rest : List UInt8} (hfirst : isWordStart first)
    (htail : ∀ b ∈ tail, isWordByte b) (hrest : ∀ b ∈ rest.head?, isWordByte b = false) :
    Munched (Token.ofWord (ofBytes (first :: tail))) (first :: tail) rest := by
  obtain ⟨hspelled, hkind⟩ := spelled_word hfirst htail
  refine ⟨hspelled, ?_, by rwa [hkind]⟩
  rw [hkind]
  intro _ t' w' hkind' hspelled' hfront
  obtain ⟨first', tail', rfl, hfirst', htail', -⟩ := hspelled'.word hkind'
  exact length_le_of_ends (wordBytes_cons hfirst htail) hrest (wordBytes_cons hfirst' htail') hfront

/-- A literal ends with its quote, whatever follows. -/
theorem munched_quoted {t : Token} {w : List UInt8} (h : Spelled t w) (hkind : kindOf t = .quoted)
    (rest : List UInt8) : Munched t w rest := by
  refine ⟨h, fun hne => absurd hkind hne, ?_⟩
  rw [hkind]
  trivial

theorem head_dropWhile {p : UInt8 → Bool} (src : List UInt8) :
    ∀ b ∈ (src.dropWhile p).head?, p b = false := by
  intro b hb
  have hnot := List.head?_dropWhile_not p src
  rw [Option.mem_def.1 hb] at hnot
  exact hnot

/-- What is scanned is the lexeme at the front. -/
theorem munched_of_scan {first : UInt8} {src : List UInt8} {lexeme : Lexeme}
    (h : scan first src = .ok lexeme) :
    ∃ tail rest, src = tail ++ rest ∧ tail.length = lexeme.more ∧
      Munched lexeme.token (first :: tail) rest := by
  unfold scan at h
  split at h
  next mark hdouble =>
    cases h
    obtain ⟨second, rest, rfl, hmark⟩ := double?_eq_some_iff.1 hdouble
    exact ⟨[second], rest, rfl, rfl, munched_double rest hmark⟩
  next hdouble =>
    split at h
    next mark hmark =>
      cases h
      exact ⟨[], src, rfl, rfl, munched_single hdouble hmark⟩
    next =>
      split at h
      next hfirst =>
        cases h
        have hdigits : ∀ b ∈ src.takeWhile isDigit, isDigit b := List.all_eq_true.1 List.all_takeWhile
        have hmunched := munched_number hfirst hdigits (head_dropWhile src)
        rw [← number_eq] at hmunched
        exact ⟨_, _, List.takeWhile_append_dropWhile.symm, rfl, hmunched⟩
      split at h
      next hquote =>
        subst hquote
        obtain ⟨value, w, rest, rfl, hbody, rfl⟩ := body_of_charLiteral h
        exact ⟨w ++ ['\''.toUInt8], rest, by simp, by simp, munched_quoted (.char hbody) rfl rest⟩
      split at h
      next hquote =>
        subst hquote
        obtain ⟨⟨content, width⟩, hcontent, h⟩ := except_bind_eq_ok.1 h
        cases h
        obtain ⟨w, rest, rfl, hbody, rfl⟩ := body_of_stringContent hcontent
        exact ⟨w ++ ['"'.toUInt8], rest, by simp, by simp, munched_quoted (.str hbody) rfl rest⟩
      split at h
      next hfirst =>
        cases h
        exact ⟨_, _, List.takeWhile_append_dropWhile.symm, rfl,
          munched_word hfirst (List.all_eq_true.1 List.all_takeWhile) (head_dropWhile src)⟩
      next => cases h

/-- The lexeme at the front is scanned. -/
theorem scan_of_munched {t : Token} {w rest : List UInt8} (h : Munched t w rest) :
    ∃ first tail, w = first :: tail ∧ startsTrivia first = false ∧
      scan first (tail ++ rest) = .ok ⟨t, tail.length⟩ := by
  obtain ⟨hspelled, hlongest, hends⟩ := h
  have hword : kindOf t = .word → ∃ first tail, w = first :: tail ∧ startsTrivia first = false ∧
      scan first (tail ++ rest) = .ok ⟨t, tail.length⟩ := by
    intro hkind
    rw [hkind] at hends
    obtain ⟨first, tail, rfl, hfirst, htail, rfl⟩ := hspelled.word hkind
    exact ⟨first, tail, rfl, not_trivia_of_plain (by simp [startsPlain, hfirst]),
      scan_word hfirst htail hends⟩
  cases hspelled with
  | keyword k => exact hword rfl
  | ident => exact hword rfl
  | @number first tail hfirst htail =>
    exact ⟨first, tail, rfl, not_trivia_of_plain (by simp [startsPlain, hfirst]),
      scan_digits hfirst htail hends⟩
  | symbol mark =>
    rcases spelling_cases mark with ⟨b, hbytes, hfirst, hmark⟩ | ⟨b, d, hbytes, hfirst, hmark⟩
    · -- A symbol of two characters here would be a longer lexeme.
      have hdouble : double? b rest = none := by
        rw [Option.eq_none_iff_forall_ne_some]
        intro mark' hsome
        obtain ⟨second, rest', rfl, hmark'⟩ := double?_eq_some_iff.1 hsome
        have hle := hlongest (by simp [kindOf]) (.symbol mark') [b, second] rfl
          (munched_double rest' hmark').spelled (by simp [hbytes])
        simp [hbytes] at hle
      have hscan : scan b rest = .ok ⟨.symbol mark, 0⟩ := by
        rw [double?] at hdouble
        rw [scan, hdouble, hmark]
      exact ⟨b, [], hbytes, hfirst, hscan⟩
    · exact ⟨b, [d], hbytes, hfirst, scan_double rest hmark⟩
  | char hbody =>
    refine ⟨_, _, rfl, rfl, ?_⟩
    rw [scan_plain rfl, List.append_assoc]
    exact (charLiteral_of_body hbody rest).trans (by simp)
  | str hbody =>
    refine ⟨_, _, rfl, rfl, ?_⟩
    rw [scan_plain rfl, if_neg (by decide), if_neg (by decide), if_pos rfl, List.append_assoc,
      List.singleton_append, stringContent_of_body hbody, List.length_append]
    rfl

end Lexer

end WaccArm
