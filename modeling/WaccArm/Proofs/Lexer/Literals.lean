import WaccArm.Proofs.Emission.Run
import WaccArm.Token.Lexer

namespace WaccArm

namespace Text

open Lexer

theorem isAscii_iff {byte : UInt8} : isAscii byte ↔ byte.toNat < 128 := by
  simp [isAscii, UInt8.lt_iff_toNat_lt]

theorem isDigit_iff {byte : UInt8} : isDigit byte ↔ 48 ≤ byte.toNat ∧ byte.toNat ≤ 57 := by
  simp only [isDigit, Bool.and_eq_true, decide_eq_true_eq, UInt8.le_iff_toNat_le]
  rfl

theorem isPrintable_iff {byte : UInt8} : isPrintable byte ↔ 32 ≤ byte.toNat ∧ byte.toNat ≤ 126 := by
  simp only [isPrintable, Bool.and_eq_true, decide_eq_true_eq, UInt8.le_iff_toNat_le]
  rfl

theorem isWordStart_iff {byte : UInt8} : isWordStart byte ↔
    (97 ≤ byte.toNat ∧ byte.toNat ≤ 122) ∨ (65 ≤ byte.toNat ∧ byte.toNat ≤ 90) ∨ byte.toNat = 95 := by
  simp only [isWordStart, Bool.or_eq_true, Bool.and_eq_true, decide_eq_true_eq, UInt8.le_iff_toNat_le,
    beq_iff_eq, ← UInt8.toNat_inj, or_assoc]
  rfl

@[simp] theorem bytes_append (s t : String) : bytes (s ++ t) = bytes s ++ bytes t := by
  simp [bytes, String.toUTF8]

theorem bytes_ofList (cs : List Char) : bytes (String.ofList cs) = cs.flatMap String.utf8EncodeChar := by
  simp [bytes, String.toUTF8, List.utf8Encode]

theorem bytes_join (ss : List String) : bytes (String.join ss) = ss.flatMap bytes := by
  induction ss with
  | nil => rfl
  | cons s ss ih => rw [String.join_cons, bytes_append, ih, List.flatMap_cons]

/-- The bytes of an ASCII text are the numbers of its characters. -/
theorem bytes_ascii {cs : List Char} (h : ∀ c ∈ cs, c.toNat < 0x80) :
    bytes (String.ofList cs) = cs.map Char.toUInt8 := by
  rw [bytes_ofList]
  induction cs with
  | nil => rfl
  | cons c cs ih =>
    have hc := h c (List.mem_cons_self ..)
    have hsize : c.utf8Size = 1 := by
      rw [Char.utf8Size_eq_one_iff, UInt32.le_iff_toNat_le]
      exact Nat.le_of_lt_succ hc
    rw [List.flatMap_cons, String.utf8EncodeChar_eq_singleton hsize,
      ih fun d hd => h d (List.mem_cons_of_mem _ hd)]
    rfl

theorem toNat_ofNat {n : Nat} (h : n < 256) : (Char.ofNat n).toNat = n := by
  have hvalid : n.isValidChar := .inl (by omega)
  rw [Char.ofNat, dif_pos hvalid]
  rfl

theorem toUInt8_ofNat {n : Nat} (h : n < 256) : (Char.ofNat n).toUInt8.toNat = n := by
  change (Char.ofNat n).toNat % 256 = n
  rw [toNat_ofNat h, Nat.mod_eq_of_lt h]

theorem char_of_byte (byte : UInt8) :
    (Char.ofNat byte.toNat).toNat = byte.toNat ∧ (Char.ofNat byte.toNat).toUInt8 = byte := by
  have hlt := byte.toNat_lt
  exact ⟨toNat_ofNat hlt, UInt8.toNat_inj.1 (toUInt8_ofNat hlt)⟩

/-- ASCII bytes are the bytes of their text. -/
theorem bytes_ofBytes {bs : List UInt8} (h : ∀ b ∈ bs, Lexer.isAscii b) : bytes (ofBytes bs) = bs := by
  rw [ofBytes, bytes_ascii]
  · rw [List.map_map]
    exact (List.map_congr_left fun b _ => (char_of_byte b).2).trans (List.map_id _)
  · intro c hc
    obtain ⟨b, hb, rfl⟩ := List.mem_map.1 hc
    rw [(char_of_byte b).1]
    exact UInt8.lt_iff_toNat_lt.1 (of_decide_eq_true (h b hb))

theorem length_ofBytes (bs : List UInt8) : (ofBytes bs).length = bs.length := by simp [ofBytes]

/-- Whether a byte is written in a form that the lexer knows. -/
def isReadable (byte : UInt8) : Bool := (letterOf? byte).isSome || isPrintable byte

/-- The table of letters is over ASCII, and no letter stands for two bytes. -/
theorem letters_agree {entry : UInt8 × UInt8} (h : entry ∈ letters) :
    isAscii entry.1 ∧ isAscii entry.2 ∧ byteOf? entry.2 = some entry.1 := by
  have hall : letters.all fun entry =>
      isAscii entry.1 && isAscii entry.2 && decide (byteOf? entry.2 = some entry.1) := by decide
  simpa [and_assoc] using List.all_eq_true.1 hall entry h

/-- The letters of escapes are those of the table. -/
theorem letterOf?_eq_some {byte letter : UInt8} (h : letterOf? byte = some letter) :
    (byte, letter) ∈ letters := by
  obtain ⟨⟨byte', letter'⟩, hfind, rfl⟩ := Option.map_eq_some_iff.1 h
  have hbyte : byte' = byte := by simpa using List.find?_some hfind
  rw [← hbyte]
  exact List.mem_of_find?_eq_some hfind

/-- Some bytes are written by a letter. -/
theorem bytes_escape_letter {byte letter : UInt8} (h : letterOf? byte = some letter) :
    bytes (escape byte) = ['\\'.toUInt8, letter] := by
  have hletter := (letters_agree (letterOf?_eq_some h)).2.1
  rw [escape, h]
  apply bytes_ofBytes
  intro b hb
  rcases List.mem_pair.1 hb with rfl | rfl
  · decide
  · exact hletter

/-- Printable bytes are written as they are. -/
theorem bytes_escape_plain {byte : UInt8} (h : letterOf? byte = none) (hplain : isPrintable byte) :
    bytes (escape byte) = [byte] := by
  have hascii : Lexer.isAscii byte := by
    rw [isPrintable_iff] at hplain
    exact isAscii_iff.2 (by omega)
  rw [escape, h]
  simp only [hplain, if_true]
  apply bytes_ofBytes
  intro b hb
  rw [List.mem_singleton.1 hb]
  exact hascii

/-- The octal digits of a byte, each as a byte. -/
def octalBytes (byte : UInt8) : List UInt8 := (octal byte).map Char.toUInt8

theorem octal_ascii (byte : UInt8) : ∀ c ∈ octal byte, c.toNat < 0x80 := by
  intro c hc
  have hdigit : ∀ n, (Char.ofNat (48 + n % 8)).toNat < 0x80 := by
    intro n
    rw [toNat_ofNat (by omega)]
    omega
  change c ∈ [_, _, _] at hc
  simp only [List.mem_cons, List.not_mem_nil, or_false] at hc
  rcases hc with rfl | rfl | rfl <;> exact hdigit _

/-- All other bytes are written in octal digits. -/
theorem bytes_escape_octal {byte : UInt8} (h : letterOf? byte = none) (hplain : ¬ isPrintable byte) :
    bytes (escape byte) = '\\'.toUInt8 :: octalBytes byte := by
  rw [escape, h]
  simp only [hplain]
  rw [if_neg Bool.false_ne_true, bytes_ascii]
  · rfl
  · intro c hc
    rcases List.mem_cons.1 hc with rfl | hc
    · decide
    · exact octal_ascii byte c hc

/-- What the written form of an ASCII byte stands for between quotes. -/
def readBack (byte : UInt8) : Except LexFault (List UInt8) :=
  if isReadable byte then .ok [byte]
  else if byte < 0x40 then .ok (0x00 :: (octalBytes byte).tail)
  else .error (.invalidEscape '1'.toUInt8)

/-- The first octal digit of an ASCII byte is a zero or a one. -/
theorem octalBytes_eq {byte : UInt8} (hascii : isAscii byte) :
    ∃ second third, Lexer.isDigit second ∧ Lexer.isDigit third ∧
      octalBytes byte = [if byte < 0x40 then '0'.toUInt8 else '1'.toUInt8, second, third] := by
  have hdigit : ∀ n, (Char.ofNat (48 + n % 8)).toUInt8.toNat = 48 + n % 8 := by
    intro n
    exact toUInt8_ofNat (by omega)
  have hisDigit : ∀ n, isDigit (Char.ofNat (48 + n % 8)).toUInt8 := by
    intro n
    rw [isDigit_iff, hdigit]
    omega
  have hfirst : (Char.ofNat (48 + byte.toNat / 64 % 8)).toUInt8 =
      if byte < 0x40 then '0'.toUInt8 else '1'.toUInt8 := by
    rw [isAscii_iff] at hascii
    rw [← UInt8.toNat_inj, hdigit]
    split
    next hlow =>
      rw [UInt8.lt_iff_toNat_lt] at hlow
      change byte.toNat < 64 at hlow
      change _ = 48
      omega
    next hlow =>
      rw [UInt8.lt_iff_toNat_lt] at hlow
      change ¬ byte.toNat < 64 at hlow
      change _ = 49
      omega
  refine ⟨_, _, hisDigit (byte.toNat / 8), hisDigit byte.toNat, ?_⟩
  rw [← hfirst]
  rfl

/-- A control character without a letter of its own, or the byte behind all visible ones. -/
def Unprintable (byte : UInt8) : Prop :=
  (byte < 0x20 ∧ byte ∉ [(0 : UInt8), 8, 9, 10, 12, 13]) ∨ byte = 0x7f

theorem isSome_letterOf? {byte : UInt8} :
    (letterOf? byte).isSome ↔ byte ∈ [(0 : UInt8), 8, 9, 10, 12, 13, 34, 39, 92] := by
  rw [letterOf?, Option.isSome_map, List.find?_isSome]
  change _ ↔ byte ∈ letters.map Prod.fst
  simp only [List.mem_map, beq_iff_eq]

/-- The bytes without a readable form are the control characters. -/
theorem isReadable_iff {byte : UInt8} (hascii : isAscii byte) : isReadable byte ↔ ¬ Unprintable byte := by
  rw [isAscii_iff] at hascii
  rw [isReadable, Bool.or_eq_true, isSome_letterOf?, isPrintable_iff, Unprintable]
  simp only [List.mem_cons, List.not_mem_nil, or_false, ← UInt8.toNat_inj, UInt8.lt_iff_toNat_lt,
    UInt8.reduceToNat]
  omega

end Text

namespace Lexer

open Text

/-- A byte that stands for itself in a string literal. -/
def isOrdinary (byte : UInt8) : Bool :=
  isAscii byte && byte != '"'.toUInt8 && byte != '\\'.toUInt8 && byte != '\n'.toUInt8

/-- An ordinary byte stands for itself. -/
theorem stringContent_ordinary {byte : UInt8} (h : isOrdinary byte) (rest : List UInt8) :
    stringContent (byte :: rest) = (do
      let (content, width) ← stringContent rest
      return (byte :: content, width + 1)) := by
  simp only [isOrdinary, Bool.and_eq_true, bne_iff_ne] at h
  obtain ⟨⟨⟨hascii, hquote⟩, hslash⟩, hline⟩ := h
  rw [stringContent.eq_def]
  simp only [hquote, hslash, hline, hascii, if_true, if_false]

/-- A backslash and a letter stand for one byte. -/
theorem stringContent_letter (letter : UInt8) (rest : List UInt8) :
    stringContent ('\\'.toUInt8 :: letter :: rest) = (do
      let value ← unescape [letter]
      let (content, width) ← stringContent rest
      return (value :: content, width + 2)) := by
  rw [stringContent.eq_def]
  rfl

theorem ordinary_of_plain {byte : UInt8} (hletter : letterOf? byte = none) (hplain : isPrintable byte) :
    isOrdinary byte := by
  have hletters : byte ∉ [(0 : UInt8), 8, 9, 10, 12, 13, 34, 39, 92] := by
    rw [← isSome_letterOf?, hletter]
    simp
  rw [isPrintable_iff] at hplain
  have hascii : isAscii byte := isAscii_iff.2 (by omega)
  simp only [List.mem_cons, not_or] at hletters
  simp only [isOrdinary, hascii, Bool.true_and, Bool.and_eq_true, bne_iff_ne]
  exact ⟨⟨hletters.2.2.2.2.2.2.1, hletters.2.2.2.2.2.2.2.2.1⟩, hletters.2.2.2.1⟩

theorem ordinary_of_digit {byte : UInt8} (h : isDigit byte) : isOrdinary byte := by
  rw [isDigit_iff] at h
  have hascii : isAscii byte := isAscii_iff.2 (by omega)
  simp only [isOrdinary, hascii, Bool.true_and, Bool.and_eq_true, bne_iff_ne, ne_eq, ← UInt8.toNat_inj]
  change (¬ byte.toNat = 34 ∧ ¬ byte.toNat = 92) ∧ ¬ byte.toNat = 10
  omega

/-- The letter of a byte is read as that byte. -/
theorem unescape_letter {byte letter : UInt8} (h : letterOf? byte = some letter) (rest : List UInt8) :
    unescape (letter :: rest) = .ok byte := by
  have hbyte := (letters_agree (letterOf?_eq_some h)).2.2
  rw [unescape, hbyte]

/-- A string literal is read byte by byte: the written form of one byte, then the rest. -/
theorem stringContent_escape {byte : UInt8} (hascii : isAscii byte) (rest : List UInt8) :
    stringContent (bytes (escape byte) ++ rest) = (do
      let front ← readBack byte
      let (content, width) ← stringContent rest
      return (front ++ content, width + (bytes (escape byte)).length)) := by
  cases hletter : letterOf? byte with
  | some letter =>
    have hread : readBack byte = .ok [byte] := by
      rw [readBack, if_pos]
      simp [isReadable, hletter]
    rw [bytes_escape_letter hletter, hread]
    change stringContent ('\\'.toUInt8 :: letter :: rest) = _
    rw [stringContent_letter, unescape_letter hletter]
    rfl
  | none =>
    by_cases hplain : isPrintable byte
    · have hread : readBack byte = .ok [byte] := by
        rw [readBack, if_pos]
        simp [isReadable, hplain]
      rw [bytes_escape_plain hletter hplain, hread]
      change stringContent (byte :: rest) = _
      rw [stringContent_ordinary (ordinary_of_plain hletter hplain)]
      rfl
    · have hread : isReadable byte = false := by simp [isReadable, hletter, hplain]
      obtain ⟨second, third, hsecond, hthird, hdigits⟩ := octalBytes_eq hascii
      rw [bytes_escape_octal hletter hplain, readBack, hread, hdigits]
      change stringContent ('\\'.toUInt8 :: _ :: second :: third :: rest) = _
      rw [stringContent_letter, if_neg Bool.false_ne_true]
      by_cases hlow : byte < 0x40
      · rw [if_pos hlow, if_pos hlow, stringContent_ordinary (ordinary_of_digit hsecond),
          stringContent_ordinary (ordinary_of_digit hthird)]
        cases stringContent rest <;> rfl
      · rw [if_neg hlow, if_neg hlow]
        rfl

/-- What the written form of a content is read as. -/
def readBackAll : List UInt8 → Except LexFault (List UInt8)
  | [] => .ok []
  | byte :: content => do
    let front ← readBack byte
    let others ← readBackAll content
    return front ++ others

/-- The content of a literal is read back byte by byte. -/
theorem stringContent_escapeAll {content : List UInt8} (hascii : ∀ b ∈ content, isAscii b)
    (rest : List UInt8) :
    stringContent ((content.map escape).flatMap bytes ++ '"'.toUInt8 :: rest) =
      (readBackAll content).map (·, ((content.map escape).flatMap bytes).length + 1) := by
  induction content with
  | nil =>
    change stringContent ('"'.toUInt8 :: rest) = _
    rw [stringContent.eq_def]
    rfl
  | cons byte content ih =>
    have hbyte := hascii byte (List.mem_cons_self ..)
    specialize ih fun b hb => hascii b (List.mem_cons_of_mem _ hb)
    rw [List.map_cons, List.flatMap_cons, List.append_assoc, stringContent_escape hbyte, ih, readBackAll,
      List.length_append]
    cases readBack byte with
    | error fault => rfl
    | ok front =>
      cases readBackAll content with
      | error fault => rfl
      | ok others =>
        have hwidth : ∀ m n : Nat, n + 1 + m = m + n + 1 := by omega
        exact congrArg Except.ok (Prod.ext rfl (hwidth _ _))

/-- Readable bytes are read back as they were. -/
theorem readBackAll_of_readable {content : List UInt8} (h : ∀ b ∈ content, isReadable b) :
    readBackAll content = .ok content := by
  induction content with
  | nil => rfl
  | cons byte content ih =>
    have hbyte : readBack byte = .ok [byte] := by rw [readBack, if_pos (h byte (List.mem_cons_self ..))]
    rw [readBackAll, hbyte, ih fun b hb => h b (List.mem_cons_of_mem _ hb)]
    rfl

/-- A byte that is read as one byte is readable. -/
theorem readBack_length {byte : UInt8} {front : List UInt8} (hascii : isAscii byte)
    (h : readBack byte = .ok front) : 1 ≤ front.length ∧ (front.length = 1 → isReadable byte) := by
  rw [readBack] at h
  split at h
  next hread =>
    cases h
    exact ⟨Nat.le_refl 1, fun _ => hread⟩
  next hread =>
    split at h
    next =>
      obtain ⟨second, third, -, -, hdigits⟩ := octalBytes_eq hascii
      cases h
      rw [hdigits]
      exact ⟨by simp, by simp⟩
    next => cases h

/-- Whatever is read back is no shorter than what was written, and longer if a byte was not readable. -/
theorem readBackAll_length {content others : List UInt8} (hascii : ∀ b ∈ content, isAscii b)
    (h : readBackAll content = .ok others) :
    content.length ≤ others.length ∧ (others.length = content.length → ∀ b ∈ content, isReadable b) := by
  induction content generalizing others with
  | nil => exact ⟨Nat.zero_le _, by simp⟩
  | cons byte content ih =>
    rw [readBackAll, except_bind_eq_ok] at h
    obtain ⟨front, hfront, h⟩ := h
    rw [except_bind_eq_ok] at h
    obtain ⟨tail, htail, h⟩ := h
    cases h
    obtain ⟨hle, hone⟩ := readBack_length (hascii byte (List.mem_cons_self ..)) hfront
    obtain ⟨hrest, hall⟩ := ih (fun b hb => hascii b (List.mem_cons_of_mem _ hb)) htail
    rw [List.length_append, List.length_cons]
    refine ⟨by omega, ?_⟩
    intro hlength b hb
    rcases List.mem_cons.1 hb with rfl | hb
    · exact hone (by omega)
    · exact hall (by omega) b hb

theorem charLiteral_cons (byte : UInt8) (rest : List UInt8) :
    charLiteral (byte :: rest) =
      if byte = '\\'.toUInt8 then do
        let value ← unescape rest
        if (rest.drop 1).head? = some '\''.toUInt8 then .ok ⟨.char value, 3⟩ else .error .invalidCharLiteral
      else if byte = '\''.toUInt8 ∨ byte = '"'.toUInt8 then .error .invalidCharLiteral
      else if isAscii byte then
        if rest.head? = some '\''.toUInt8 then .ok ⟨.char byte, 2⟩ else .error .invalidCharLiteral
      else .error (.invalidCharacter byte) := rfl

/-- An ordinary byte between single quotes. -/
theorem charLiteral_ordinary {byte : UInt8} (h : isOrdinary byte) (hquote : byte ≠ '\''.toUInt8)
    (rest : List UInt8) : charLiteral (byte :: '\''.toUInt8 :: rest) = .ok ⟨.char byte, 2⟩ := by
  simp only [isOrdinary, Bool.and_eq_true, bne_iff_ne] at h
  obtain ⟨⟨⟨hascii, hdouble⟩, hslash⟩, -⟩ := h
  rw [charLiteral_cons, if_neg hslash, if_neg (not_or.2 ⟨hquote, hdouble⟩), if_pos hascii]
  rfl

/-- A character literal whose byte is readable is read back, and any other is refused. -/
theorem charLiteral_escape {byte : UInt8} (hascii : isAscii byte) (rest : List UInt8) :
    charLiteral (bytes (escape byte) ++ '\''.toUInt8 :: rest) =
      if isReadable byte then .ok ⟨.char byte, (bytes (escape byte)).length + 1⟩
      else .error (if byte < 0x40 then .invalidCharLiteral else .invalidEscape '1'.toUInt8) := by
  cases hletter : letterOf? byte with
  | some letter =>
    have hread : isReadable byte := by simp [isReadable, hletter]
    rw [bytes_escape_letter hletter, if_pos hread]
    change charLiteral ('\\'.toUInt8 :: letter :: '\''.toUInt8 :: rest) = _
    rw [charLiteral_cons, if_pos rfl, unescape_letter hletter]
    rfl
  | none =>
    by_cases hplain : isPrintable byte
    · have hread : isReadable byte := by simp [isReadable, hplain]
      have hquote : byte ≠ '\''.toUInt8 := by
        rintro rfl
        cases hletter
      rw [bytes_escape_plain hletter hplain, if_pos hread]
      exact charLiteral_ordinary (ordinary_of_plain hletter hplain) hquote rest
    · have hread : isReadable byte = false := by simp [isReadable, hletter, hplain]
      obtain ⟨second, third, hsecond, -, hdigits⟩ := octalBytes_eq hascii
      have hquote : second ≠ '\''.toUInt8 := by
        rintro rfl
        cases hsecond
      rw [bytes_escape_octal hletter hplain, hread, hdigits, if_neg Bool.false_ne_true]
      change charLiteral ('\\'.toUInt8 :: _ :: second :: third :: _) = _
      rw [charLiteral_cons, if_pos rfl]
      by_cases hlow : byte < 0x40
      · rw [if_pos hlow, if_pos hlow]
        change (if some second = some '\''.toUInt8 then _ else _) = _
        rw [if_neg (by simpa using hquote)]
      · rw [if_neg hlow, if_neg hlow]
        rfl

end Lexer

end WaccArm
