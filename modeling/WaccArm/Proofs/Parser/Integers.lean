import WaccArm.Proofs.Blame.Tracked
import WaccArm.Proofs.Lexer.Munch
import WaccArm.Proofs.Parser.Expr

namespace WaccArm

open Lexer Text

/-- The signs that belong to an integer behind them. -/
inductive Sign where
  | plus | minus
deriving DecidableEq

namespace Sign

def mark : Sign → Symbol
  | plus => .plus
  | minus => .minus

def byte : Sign → UInt8
  | plus => '+'.toUInt8
  | minus => '-'.toUInt8

/-- A number behind an optional sign. -/
def apply : Option Sign → Nat → Int
  | some minus, n => -n
  | _, n => n

/-- Digits behind an optional sign, with trivia between the two. -/
def write : Option Sign → (inner digits : List UInt8) → List UInt8
  | none, _, digits => digits
  | some sign, inner, digits => sign.byte :: (inner ++ digits)

/-- The tokens of a number behind an optional sign. -/
def tokens : Option Sign → Nat → (place digitsPlace : Pos) → List (Located Token)
  | none, n, place, _ => [⟨.int n, place⟩]
  | some sign, n, place, digitsPlace => [⟨.symbol sign.mark, place⟩, ⟨.int n, digitsPlace⟩]

/-- No symbol of two characters starts with a sign. -/
theorem munched (sign : Sign) (rest : List UInt8) : Munched (.symbol sign.mark) [sign.byte] rest := by
  have hfirst : Char.ofNat sign.byte.toNat ∉ ['&', '|', '!', '=', '>', '<'] := by
    cases sign <;> decide
  have hdouble : double? sign.byte rest = none := by
    cases rest with
    | nil => rfl
    | cons second rest => exact ofChars?_of_first hfirst
  cases sign with
  | plus => exact munched_single hdouble rfl
  | minus => exact munched_single hdouble rfl

/-- The sign is part of the integer that is read, and its place is the place of the integer. -/
theorem factor_tokens {sign : Option Sign} {n : Nat} {p : Pos} {read : Except SyntaxError (Expr Pos)}
    (hread : Parser.intLiteral (apply sign n) p = read) (q : Pos) (others : List (Located Token)) (last : Pos) :
    ∃ h, Parser.factor ⟨tokens sign n p q ++ others, last⟩ = read.map (⟨·, ⟨others, last⟩, h⟩) := by
  cases sign with
  | none =>
    refine ⟨Nat.lt_succ_self _, ?_⟩
    simp only [apply] at hread
    simp only [tokens, List.cons_append, List.nil_append]
    rw [Parser.factor, Parser.next_bind]
    simp only [hread]
    cases read <;> rfl
  | some sign =>
    -- A number behind the sign is taken together with it, before an operand is looked for.
    obtain ⟨h, hint⟩ := Parser.nextInt?_of_int ⟨others, last⟩ n q []
    simp only [Stream.prepend, List.cons_append, List.nil_append] at hint
    refine ⟨Nat.lt_trans h (Nat.lt_succ_self _), ?_⟩
    simp only [tokens, List.cons_append, List.nil_append]
    rw [Parser.factor, Parser.next_bind]
    cases sign with
    | plus | minus =>
      simp only [apply] at hread
      simp only [mark, hint, hread]
      cases read <;> rfl

end Sign

/-- A string of digits in a text, alone or behind a sign. There is trivia in front of it and between the sign
and the digits, and no further digit behind it. -/
structure WrittenInt where
  gap : List UInt8
  sign : Option Sign
  inner : List UInt8
  digits : List UInt8
  rest : List UInt8
  digits_ne_nil : digits ≠ []
  digits_isDigit : ∀ b ∈ digits, isDigit b
  ends : ∀ b ∈ rest.head?, isDigit b = false
  inner_trivia : Trivia inner (digits ++ rest)
  gap_trivia : Trivia gap (Sign.write sign inner digits ++ rest)

namespace WrittenInt

variable (i : WrittenInt)

/-- The trivia in front, the sign and the digits. -/
def text : List UInt8 := i.gap ++ Sign.write i.sign i.inner i.digits

/-- The value that is written. -/
def value : Int := Sign.apply i.sign (decimalValue i.digits)

/-- The value has 32 bits. -/
def InRange : Prop := -2147483648 ≤ i.value ∧ i.value ≤ 2147483647

instance : Decidable i.InRange := inferInstanceAs (Decidable (_ ∧ _))

/-- The place of the sign, or of the digits if there is none, where the text stands behind `before`. -/
def place (before : List UInt8) : Pos := .behind (before ++ i.gap)

/-- The number that is left of the digits. -/
def cutOff : Nat := min (decimalValue i.digits) maxLiteral

/-- The sign and the number that are read. -/
def tokens (before : List UInt8) : List (Located Token) :=
  Sign.tokens i.sign i.cutOff (i.place before)
    (.behind (before ++ (i.gap ++ i.sign.toList.map Sign.byte) ++ i.inner))

/-- The digits are one lexeme. -/
theorem munched_digits : Munched (.int i.cutOff) i.digits i.rest := by
  obtain ⟨first, tail, hdigits⟩ := List.exists_cons_of_ne_nil i.digits_ne_nil
  have hall := i.digits_isDigit
  rw [hdigits, List.forall_mem_cons] at hall
  rw [cutOff, hdigits]
  exact munched_number hall.1 hall.2 i.ends

/-- The scanner finds the sign and the number, whatever else follows. -/
theorem tokens_text (before : List UInt8) {others : List (Located Token)}
    (hothers : (⟨i.rest, .behind (before ++ i.text)⟩ : Cursor).tokens = .ok others) :
    (⟨i.text ++ i.rest, .behind before⟩ : Cursor).tokens = .ok (i.tokens before ++ others) := by
  have hgap := i.gap_trivia
  rw [text, tokens]
  rw [text] at hothers
  cases hsign : i.sign with
  | none =>
    rw [hsign] at hgap hothers
    simp only [Sign.write] at hgap hothers ⊢
    rw [List.append_assoc, tokens_cons before hgap i.munched_digits, hothers]
    rfl
  | some sign =>
    rw [hsign] at hgap hothers
    simp only [Sign.write] at hgap hothers ⊢
    have hmunched := sign.munched (i.inner ++ (i.digits ++ i.rest))
    have hmark := tokens_cons before (g := i.gap) (by simpa using hgap) hmunched
    have hdigits := tokens_cons (before ++ (i.gap ++ [sign.byte])) i.inner_trivia i.munched_digits
    simp only [List.append_assoc, List.cons_append, List.nil_append] at hmark hdigits hothers ⊢
    rw [hmark, hdigits, hothers]
    rfl

/-- Cutting a number off changes no answer: it has more than 32 bits with either sign, before and after. -/
theorem apply_cutOff :
    Sign.apply i.sign i.cutOff = i.value ∨
      ¬ i.InRange ∧ ¬ (-0x80000000 ≤ Sign.apply i.sign i.cutOff ∧ Sign.apply i.sign i.cutOff < 0x80000000) := by
  rw [InRange, value, cutOff]
  rcases Nat.le_total (decimalValue i.digits) maxLiteral with hle | hle
  · rw [Nat.min_eq_left hle]
    exact .inl rfl
  · -- Both the value and what is left of it are far outside, and on the same side.
    rw [Nat.min_eq_right hle]
    rw [maxLiteral] at hle ⊢
    right
    rcases i.sign with _ | _ | _ <;> simp only [Sign.apply] <;> omega

/-- Cutting off does not bring a number into range. -/
theorem intLiteral_cutOff (p : Pos) :
    (i.InRange → ∃ n : Int32, n.toInt = i.value ∧
      Parser.intLiteral (Sign.apply i.sign i.cutOff) p = .ok (.int p n)) ∧
    (¬ i.InRange → Parser.intLiteral (Sign.apply i.sign i.cutOff) p =
      .error ⟨.intRange (Sign.apply i.sign i.cutOff), p⟩) := by
  constructor
  · intro h
    obtain hvalue | ⟨hout, -⟩ := i.apply_cutOff
    · have hbounds : -0x80000000 ≤ i.value ∧ i.value < 0x80000000 := ⟨h.1, Int.lt_add_one_of_le h.2⟩
      have hread : Parser.intLiteral i.value p = .ok (.int p (Int32.ofInt i.value)) := if_pos hbounds
      obtain ⟨n, hn, he⟩ := Parser.intLiteral_eq_ok.1 hread
      rw [hvalue]
      exact ⟨n, hn, he ▸ hread⟩
    · exact absurd h hout
  · intro h
    refine if_neg ?_
    obtain hvalue | ⟨-, hout⟩ := i.apply_cutOff
    · rw [hvalue]
      exact fun hbounds => h ⟨hbounds.1, Int.le_of_lt_add_one hbounds.2⟩
    · exact hout

end WrittenInt

/-- An integer is read as the value that is written, however many digits it has, if the value has 32 bits, and is
refused where it starts if not. The scanner's number and its negation have 64 bits. -/
theorem integer_judged_by_value (i : WrittenInt) (before : List UInt8) (last : Pos)
    {others : List (Located Token)}
    (hothers : (⟨i.rest, .behind (before ++ i.text)⟩ : Cursor).tokens = .ok others) :
    ∃ tokens, (⟨i.text ++ i.rest, .behind before⟩ : Cursor).tokens = .ok tokens ∧
      (i.InRange → ∃ n : Int32, n.toInt = i.value ∧
        Parser.Reads (Parser.factor ⟨tokens, last⟩) (.int (i.place before) n) ⟨others, last⟩) ∧
      (¬ i.InRange → Parser.factor ⟨tokens, last⟩ =
        .error ⟨.intRange (Sign.apply i.sign i.cutOff), i.place before⟩) ∧
      ∀ first digits, (number first digits : Int) ≤ 0x7fffffffffffffff ∧
        -0x8000000000000000 ≤ -(number first digits : Int) := by
  obtain ⟨hin, hout⟩ := i.intLiteral_cutOff (i.place before)
  refine ⟨_, i.tokens_text before hothers, fun h => ?_, fun h => ?_, fun first digits => ?_⟩
  · obtain ⟨n, hn, hread⟩ := hin h
    obtain ⟨hshorter, hfactor⟩ := Sign.factor_tokens hread _ others last
    exact ⟨n, hn, hshorter, hfactor⟩
  · obtain ⟨_, hfactor⟩ := Sign.factor_tokens (hout h) _ others last
    exact hfactor
  · have hle := number_le first digits
    rw [maxLiteral] at hle
    omega

namespace Lowest

/-- ` - 0002147483648`, or the same with another sign. -/
def written (sign : Sign) : WrittenInt where
  gap := [0x20]
  sign := some sign
  inner := [0x20]
  digits := bytes "0002147483648"
  rest := []
  digits_ne_nil := by decide
  digits_isDigit := List.all_eq_true.1 (by decide)
  ends := by simp
  inner_trivia := .space (by decide) .nil
  gap_trivia := .space (by decide) .nil

theorem tokens_nil (pos : Pos) : (⟨[], pos⟩ : Cursor).tokens = .ok [] := tokens_of_end rfl

end Lowest

/-- The lowest integer is read, with zeros in front. With the other sign it is one too large. -/
theorem integer_judged_by_value_lowest :
    (∃ tokens n, (⟨bytes " - 0002147483648", .behind []⟩ : Cursor).tokens = .ok tokens ∧ n.toInt = -2147483648 ∧
      Parser.Reads (Parser.factor ⟨tokens, .nowhere⟩) (.int ⟨1, 1⟩ n) ⟨[], .nowhere⟩) ∧
    ∃ tokens, (⟨bytes " + 0002147483648", .behind []⟩ : Cursor).tokens = .ok tokens ∧
      Parser.factor ⟨tokens, .nowhere⟩ = .error ⟨.intRange 2147483648, ⟨1, 1⟩⟩ := by
  obtain ⟨minus, hminus, hread, -⟩ :=
    integer_judged_by_value (Lowest.written .minus) [] .nowhere (Lowest.tokens_nil _)
  obtain ⟨plus, hplus, -, hrefused, -⟩ :=
    integer_judged_by_value (Lowest.written .plus) [] .nowhere (Lowest.tokens_nil _)
  obtain ⟨n, hn, hreads⟩ := hread (by decide)
  exact ⟨⟨minus, n, hminus, hn, hreads⟩, plus, hplus, hrefused (by decide)⟩

end WaccArm
