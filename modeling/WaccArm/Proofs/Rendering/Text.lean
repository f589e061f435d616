import WaccArm.Proofs.Lexer.Reread
import WaccArm.Proofs.Parser.Grammar

namespace WaccArm

open Lexer Grammar

def inParens (ts : List Token) : List Token := .symbol .openParen :: (ts ++ [.symbol .closeParen])

def inBrackets (ts : List Token) : List Token := .symbol .openBracket :: (ts ++ [.symbol .closeBracket])

/-- Phrases with commas between them. -/
def separated : List (List Token) → List Token
  | [] => []
  | [ts] => ts
  | ts :: us :: phrases => ts ++ .symbol .comma :: separated (us :: phrases)

/-- The tokens of an integer: its digits, after a minus sign if it is negative. -/
def signedTokens (value : Int32) : List Token :=
  if value.toInt < 0 then [.symbol .minus, .int value.toInt.natAbs] else [.int value.toInt.natAbs]

namespace Expr

variable {α : Type}

mutual

/-- The tokens of the source form of an expression. -/
def tokens : Expr α → List Token
  | int _ value => signedTokens value
  | bool _ value => [.keyword (if value then .true_ else .false_)]
  | char _ value => [.char value]
  | str _ value => [.str value]
  | null _ => [.keyword .null]
  | var _ name => [.ident name]
  | elem _ name indices => .ident name :: (tokensAll indices).flatMap inBrackets
  | side _ which pair => .keyword (sideWord which) :: tokens pair
  | unary _ op operand => unaryToken op :: tokens operand
  | binary _ op left right =>
    (if left.isBinary then inParens (tokens left) else tokens left) ++
      .symbol (operatorMark op) :: (if right.isBinary then inParens (tokens right) else tokens right)
  | call _ callee args => .keyword .call :: .ident callee :: inParens (separated (tokensAll args))
  | newPair _ fst snd => .keyword .newpair :: inParens (separated [tokens fst, tokens snd])
  | array _ elems => inBrackets (separated (tokensAll elems))

def tokensAll : List (Expr α) → List (List Token)
  | [] => []
  | e :: es => tokens e :: tokensAll es

end

/-- The tokens of an operand of a binary operator. -/
def operandTokens (e : Expr α) : List Token := if e.isBinary then inParens e.tokens else e.tokens

/-- The mark of an operator stands between its operands. -/
theorem tokens_binary (note : α) (op : BinaryOp) (left right : Expr α) :
    (binary note op left right).tokens =
      left.operandTokens ++ .symbol (operatorMark op) :: right.operandTokens := by
  rw [tokens]
  rfl

/-- The text of an operand of a binary operator. -/
def operandText (e : Expr α) : String := if e.isBinary then "(" ++ e.render ++ ")" else e.render

/-- The text of an operator stands between those of its operands. -/
theorem render_binary (note : α) (op : BinaryOp) (left right : Expr α) :
    (binary note op left right).render =
      left.operandText ++ " " ++ op.text ++ " " ++ right.operandText := by
  rw [render]
  rfl

end Expr

namespace Lexer

open Text

/-- What a text is read as if it starts with the texts of `ts` and `tail` is read from there on. -/
def resume (ts : List Token) (tail : Option (List Token)) : Option (List Token) :=
  ts.foldr (fun t tail => t.reread.toOption.bind fun t' => tail.map (t' :: ·)) tail

theorem resume_cons (t : Token) (ts : List Token) (tail : Option (List Token)) :
    resume (t :: ts) tail = t.reread.toOption.bind fun t' => (resume ts tail).map (t' :: ·) := rfl

/-- Tokens are read one after the other. -/
theorem resume_append (ts us : List Token) (tail : Option (List Token)) :
    resume (ts ++ us) tail = resume ts (resume us tail) := List.foldr_append

/-- Readable tokens come back. -/
theorem resume_of_readable {ts : List Token} (hwell : ∀ t ∈ ts, t.WellFormed)
    (hread : ∀ t ∈ ts, t.Readable) : resume ts (some []) = some ts := by
  induction ts with
  | nil => rfl
  | cons t ts ih =>
    have ht := Token.reread_of_readable (hwell t (List.mem_cons_self ..)) (hread t (List.mem_cons_self ..))
    rw [resume_cons, ht, ih (fun u hu => hwell u (List.mem_cons_of_mem _ hu))
      fun u hu => hread u (List.mem_cons_of_mem _ hu)]
    rfl

theorem forall₂_of_resume {ts vs : List Token} (h : resume ts (some []) = some vs) :
    List.Forall₂ (fun t t' => t.reread = .ok t') ts vs := by
  induction ts generalizing vs with
  | nil =>
    cases h
    exact .nil
  | cons t ts ih =>
    rw [resume_cons] at h
    obtain ⟨t', ht, h⟩ := Option.bind_eq_some_iff.1 h
    obtain ⟨others, hothers, rfl⟩ := Option.map_eq_some_iff.1 h
    refine .cons ?_ (ih hothers)
    cases hreread : t.reread with
    | error fault =>
      rw [hreread] at ht
      cases ht
    | ok u =>
      rw [hreread] at ht
      rw [Option.some.inj ht]

/-- A byte that can follow every token: a space, a parenthesis, a bracket or a comma. -/
def isDelimiter (byte : UInt8) : Bool := byte ∈ bytes " ()[],"

def Delimited (rest : List UInt8) : Prop := ∀ b ∈ rest.head?, isDelimiter b

/-- A delimiter ends words, numbers and marks. -/
theorem delimiter_ends (byte : UInt8) (h : isDelimiter byte) :
    isWordByte byte = false ∧ isDigit byte = false ∧ byte ≠ '='.toUInt8 := by
  have hends : (bytes " ()[],").all fun b => !isWordByte b && !isDigit b && b != '='.toUInt8 := by decide
  simpa [and_assoc] using List.all_eq_true.1 hends byte (of_decide_eq_true h)

theorem Delimited.nil : Delimited [] := by simp [Delimited]

theorem Delimited.ne_equals {rest : List UInt8} (h : Delimited rest) : rest.head? ≠ some '='.toUInt8 := by
  intro hequals
  exact (delimiter_ends _ (h _ hequals)).2.2 rfl

/-- A delimiter can stand behind any token. -/
theorem Delimited.apart {rest : List UInt8} (h : Delimited rest) (t : Token) : t.Apart rest := by
  cases t with
  | keyword | ident => exact fun b hb => (delimiter_ends b (h b hb)).1
  | int => exact fun b hb => (delimiter_ends b (h b hb)).2.1
  | symbol => exact h.ne_equals
  | char | str => trivial

theorem Delimited.append {text rest : List UInt8} (h : Delimited text) (hrest : Delimited rest) :
    Delimited (text ++ rest) := by
  cases text with
  | nil => exact hrest
  | cons b text => exact h

theorem Delimited.cons {byte : UInt8} (h : isDelimiter byte) (text : List UInt8) :
    Delimited (byte :: text) := by
  intro b hb
  cases hb
  exact h

/-- The text is read as the tokens, whatever delimiter follows. It does not start with an equals sign,
which a mark before it would be joined with. -/
structure ReadAs (text : List UInt8) (ts : List Token) : Prop where
  starts : text.head? ≠ some '='.toUInt8
  reads : ∀ rest, Delimited rest → values (text ++ rest) = resume ts (values rest)

namespace ReadAs

variable {text text' : List UInt8} {ts us : List Token}

theorem nil : ReadAs [] [] := ⟨by simp, fun _ _ => rfl⟩

/-- A token that is no mark is read up to a delimiter. -/
theorem token {t : Token} (ht : t.WellFormed) (hsymbol : t.isSymbol = false) : ReadAs (bytes t.text) [t] := by
  constructor
  · obtain ⟨first, tail, hbytes, -, hplain, -⟩ := Token.scan_text ht (Delimited.nil.apart t)
    rw [hbytes, List.head?_cons]
    intro hequals
    cases Option.some.inj hequals
    cases hplain hsymbol
  · intro rest hrest
    exact Token.values_text ht (hrest.apart t)

/-- Texts with a delimiter between them are read one by one. -/
theorem append (h : ReadAs text ts) (h' : ReadAs text' us) (hdelimited : Delimited text') :
    ReadAs (text ++ text') (ts ++ us) := by
  constructor
  · cases text with
    | nil => exact h'.starts
    | cons b text => exact h.starts
  · intro rest hrest
    rw [List.append_assoc, h.reads _ (hdelimited.append hrest), h'.reads rest hrest, resume_append]

theorem head?_space (text : List UInt8) : (' '.toUInt8 :: text).head? ≠ some '='.toUInt8 := by
  intro hequals
  cases Option.some.inj hequals

/-- Spaces are skipped. -/
theorem space (h : ReadAs text ts) : ReadAs (' '.toUInt8 :: text) ts := by
  refine ⟨head?_space text, ?_⟩
  intro rest hrest
  rw [List.cons_append, values_space rfl, h.reads rest hrest]

/-- A mark in front. It is not joined with what follows, because that does not start with an equals
sign. -/
theorem symbol (h : ReadAs text ts) {mark : Symbol}
    (hmark : (bytes mark.spelling).head? ≠ some '='.toUInt8) :
    ReadAs (bytes mark.spelling ++ text) (.symbol mark :: ts) := by
  constructor
  · obtain ⟨first, tail, hbytes, -⟩ := scan_symbol mark Delimited.nil.ne_equals
    rw [hbytes] at hmark ⊢
    exact hmark
  · intro rest hrest
    have hapart : (Token.symbol mark).Apart (text ++ rest) := by
      cases text with
      | nil => exact hrest.ne_equals
      | cons b text => exact h.starts
    have hvalues := @Token.values_text (.symbol mark) _ trivial hapart
    rw [h.reads rest hrest] at hvalues
    rw [List.append_assoc]
    exact hvalues

/-- An operator between spaces, in front. -/
theorem operator (h : ReadAs text ts) (mark : Symbol) :
    ReadAs (' '.toUInt8 :: (bytes mark.spelling ++ ' '.toUInt8 :: text)) (.symbol mark :: ts) := by
  refine ⟨head?_space _, ?_⟩
  intro rest hrest
  have hvalues := @Token.values_text (.symbol mark) (' '.toUInt8 :: (text ++ rest)) trivial (head?_space _)
  rw [values_space rfl, h.reads rest hrest] at hvalues
  rw [List.cons_append, values_space rfl, List.append_assoc]
  exact hvalues

/-- Text on both sides of a delimiter. -/
theorem closing (h : ReadAs text ts) (h' : ReadAs text' us) {mark : Symbol}
    (hmark : ∀ text', Delimited (bytes mark.spelling ++ text')) :
    ReadAs (text ++ (bytes mark.spelling ++ text')) (ts ++ .symbol mark :: us) := by
  apply h.append _ (hmark text')
  apply h'.symbol
  have hdelimited := hmark []
  rw [List.append_nil] at hdelimited
  exact hdelimited.ne_equals

theorem parenthesised (h : ReadAs text ts) :
    ReadAs (bytes "(" ++ (text ++ bytes ")")) (inParens ts) := by
  have hclose := @closing _ _ _ _ h nil .closeParen fun text' => .cons rfl _
  rw [List.append_nil] at hclose
  exact @symbol _ _ hclose .openParen (@Delimited.cons '('.toUInt8 rfl []).ne_equals

theorem bracketed (h : ReadAs text ts) :
    ReadAs (bytes "[" ++ (text ++ bytes "]")) (inBrackets ts) := by
  have hclose := @closing _ _ _ _ h nil .closeBracket fun text' => .cons rfl _
  rw [List.append_nil] at hclose
  exact @symbol _ _ hclose .openBracket (@Delimited.cons '['.toUInt8 rfl []).ne_equals

theorem separated {texts : List String} {phrases : List (List Token)}
    (h : List.Forall₂ (fun s ts => ReadAs (bytes s) ts) texts phrases) :
    ReadAs (bytes (String.intercalate ", " texts)) (separated phrases) := by
  induction h with
  | nil => exact nil
  | @cons s ts texts phrases hs hothers ih =>
    cases hothers with
    | nil =>
      rw [String.intercalate_singleton]
      exact hs
    | @cons s' ts' texts phrases hs' hothers =>
      rw [String.intercalate_cons_cons, bytes_append, bytes_append, List.append_assoc]
      exact @closing _ _ _ _ hs ih.space .comma fun text' => .cons rfl _

theorem indices {texts : List String} {phrases : List (List Token)}
    (h : List.Forall₂ (fun s ts => ReadAs (bytes s) ts) texts phrases) :
    ReadAs (bytes (String.join (texts.map fun index => "[" ++ index ++ "]")))
        (phrases.flatMap inBrackets) ∧
      Delimited (bytes (String.join (texts.map fun index => "[" ++ index ++ "]"))) := by
  induction h with
  | nil => exact ⟨nil, Delimited.nil⟩
  | @cons s ts texts phrases hs hothers ih =>
    rw [List.map_cons, String.join_cons, bytes_append]
    have hindex : bytes ("[" ++ s ++ "]") = bytes "[" ++ (bytes s ++ bytes "]") := by
      rw [bytes_append, bytes_append, List.append_assoc]
    rw [hindex]
    exact ⟨hs.bracketed.append ih.1 ih.2, .cons rfl _⟩

end ReadAs

end Lexer

namespace Expr

open Text

variable {α : Type}

/-- A number is read as its sign and its digits. -/
theorem readAs_signed {value : Int32} (h : ∀ t ∈ signedTokens value, t.WellFormed) :
    ReadAs (bytes (toString value.toInt)) (signedTokens value) := by
  have hdigits : Token.WellFormed (.int value.toInt.natAbs) := by
    unfold signedTokens at h
    split at h <;> exact h _ (by simp)
  have hread : ReadAs (bytes (toString value.toInt.natAbs)) [.int value.toInt.natAbs] := .token hdigits rfl
  unfold signedTokens
  generalize value.toInt = n at hread ⊢
  cases n with
  | ofNat n => exact hread
  | negSucc n =>
    have hminus := @ReadAs.symbol _ _ hread .minus (by decide)
    rw [if_pos (Int.negSucc_lt_zero n)]
    exact hminus

/-- A word, a space and what follows. -/
theorem readAs_word {text : List UInt8} {ts : List Token} (h : ReadAs text ts) (k : Keyword) :
    ReadAs (bytes k.spelling ++ ' '.toUInt8 :: text) (.keyword k :: ts) :=
  (@ReadAs.token (.keyword k) trivial rfl).append h.space (.cons rfl _)

/-- A unary operator is read in front of its operand. -/
theorem readAs_unary {text : List UInt8} {ts : List Token} (h : ReadAs text ts) (op : UnaryOp) :
    ReadAs (bytes op.text ++ text) (unaryToken op :: ts) := by
  cases op with
  | not => exact @ReadAs.symbol _ _ h .not (by decide)
  | negate => exact @ReadAs.symbol _ _ h .minus (by decide)
  | len => exact readAs_word h .len
  | ord => exact readAs_word h .ord
  | chr => exact readAs_word h .chr

theorem readAs_operand {e : Expr α} (h : ReadAs (bytes e.render) e.tokens) :
    ReadAs (bytes e.operandText) e.operandTokens := by
  unfold operandText operandTokens
  split
  · rw [bytes_append, bytes_append, List.append_assoc]
    exact h.parenthesised
  · exact h

theorem bytes_operator (op : BinaryOp) : bytes op.text = bytes (operatorMark op).spelling := by
  cases op <;> rfl

/-- A binary operator is read between its operands. -/
theorem readAs_binary {left right : Expr α} (hleft : ReadAs (bytes left.render) left.tokens)
    (hright : ReadAs (bytes right.render) right.tokens) (note : α) (op : BinaryOp) :
    ReadAs (bytes (binary note op left right).render) (binary note op left right).tokens := by
  have hoperator := (readAs_operand hright).operator (operatorMark op)
  have happend := (readAs_operand hleft).append hoperator (.cons rfl _)
  rw [render_binary, tokens_binary, bytes_append, bytes_append, bytes_append, bytes_append, bytes_operator,
    List.append_assoc, List.append_assoc, List.append_assoc]
  exact happend

theorem mem_operandTokens {e : Expr α} {t : Token} (h : t ∈ e.tokens) : t ∈ e.operandTokens := by
  unfold operandTokens
  split
  · simp [inParens, h]
  · exact h

theorem mem_separated {phrases : List (List Token)} {ts : List Token} {t : Token} (hts : ts ∈ phrases)
    (ht : t ∈ ts) : t ∈ separated phrases := by
  induction phrases with
  | nil => cases hts
  | cons us phrases ih =>
    cases phrases with
    | nil =>
      rw [List.mem_singleton.1 hts] at ht
      exact ht
    | cons vs phrases =>
      rw [separated, List.mem_append, List.mem_cons]
      rcases List.mem_cons.1 hts with rfl | hts
      · exact .inl ht
      · exact .inr (.inr (ih hts))

mutual

/-- The source form of an expression is read as its tokens. -/
theorem readAs_render (e : Expr α) (h : ∀ t ∈ e.tokens, t.WellFormed) : ReadAs (bytes e.render) e.tokens := by
  cases e with
  | int note value =>
    rw [tokens] at h
    rw [render, tokens]
    exact readAs_signed h
  | bool note value =>
    rw [render, tokens]
    cases value with
    | true => exact @ReadAs.token (.keyword .true_) trivial rfl
    | false => exact @ReadAs.token (.keyword .false_) trivial rfl
  | char note value =>
    rw [render, tokens]
    rw [tokens] at h
    exact @ReadAs.token (.char value) (h _ (List.mem_singleton_self _)) rfl
  | str note value =>
    rw [render, tokens]
    rw [tokens] at h
    exact @ReadAs.token (.str value) (h _ (List.mem_singleton_self _)) rfl
  | null note =>
    rw [render, tokens]
    exact @ReadAs.token (.keyword .null) trivial rfl
  | var note name =>
    rw [render, tokens]
    rw [tokens] at h
    exact @ReadAs.token (.ident name) (h _ (List.mem_singleton_self _)) rfl
  | elem note name indices =>
    rw [tokens] at h
    rw [render, tokens, bytes_append]
    have hname : ReadAs (bytes name) [.ident name] :=
      @ReadAs.token (.ident name) (h _ (List.mem_cons_self ..)) rfl
    obtain ⟨hindices, hdelimited⟩ := ReadAs.indices (readAs_renderAll indices fun ts hts t ht =>
      h t (List.mem_cons_of_mem _ (List.mem_flatMap.2 ⟨ts, hts, by simp [inBrackets, ht]⟩)))
    exact hname.append hindices hdelimited
  | side note which pair =>
    rw [tokens] at h
    rw [render, tokens, bytes_append, bytes_append, List.append_assoc]
    have hpair := readAs_render pair fun t ht => h t (List.mem_cons_of_mem _ ht)
    cases which with
    | fst => exact readAs_word hpair .fst
    | snd => exact readAs_word hpair .snd
  | unary note op operand =>
    rw [tokens] at h
    rw [render, tokens, bytes_append]
    exact readAs_unary (readAs_render operand fun t ht => h t (List.mem_cons_of_mem _ ht)) op
  | binary note op left right =>
    rw [tokens_binary] at h
    have hleft := readAs_render left fun t ht => h t (by simp [mem_operandTokens ht])
    have hright := readAs_render right fun t ht => h t (by simp [mem_operandTokens ht])
    exact readAs_binary hleft hright note op
  | call note callee args =>
    rw [tokens] at h
    have hargs := ReadAs.separated (readAs_renderAll args fun ts hts t ht =>
      h t (by simp [inParens, mem_separated hts ht]))
    have hname : ReadAs (bytes callee) [.ident callee] := @ReadAs.token (.ident callee) (h _ (by simp)) rfl
    have hcall := readAs_word (hname.append hargs.parenthesised (.cons rfl _)) .call
    have hbytes : bytes "call " = bytes "call" ++ [' '.toUInt8] := rfl
    rw [render, tokens]
    simp only [bytes_append, hbytes, List.append_assoc]
    exact hcall
  | newPair note fst snd =>
    rw [tokens] at h
    have hfst := readAs_render fst fun t ht => h t (by simp [inParens, separated, ht])
    have hsnd := readAs_render snd fun t ht => h t (by simp [inParens, separated, ht])
    have hpair := ReadAs.separated (.cons hfst (.cons hsnd .nil))
    have hword : ReadAs (bytes "newpair") [.keyword .newpair] := @ReadAs.token (.keyword .newpair) trivial rfl
    have hnew := hword.append hpair.parenthesised (.cons rfl _)
    have hbytes : bytes "newpair(" = bytes "newpair" ++ bytes "(" := rfl
    rw [render, tokens]
    simp only [String.intercalate_cons_cons, String.intercalate_singleton, bytes_append, hbytes,
      List.append_assoc] at hnew ⊢
    exact hnew
  | array note elems =>
    rw [tokens] at h
    have helems := ReadAs.separated (readAs_renderAll elems fun ts hts t ht =>
      h t (by simp [inBrackets, mem_separated hts ht]))
    rw [render, tokens, bytes_append, bytes_append, List.append_assoc]
    exact helems.bracketed

theorem readAs_renderAll (es : List (Expr α)) (h : ∀ ts ∈ tokensAll es, ∀ t ∈ ts, t.WellFormed) :
    List.Forall₂ (fun s ts => ReadAs (bytes s) ts) (renderAll es) (tokensAll es) := by
  cases es with
  | nil =>
    rw [renderAll, tokensAll]
    exact .nil
  | cons e es =>
    rw [tokensAll] at h
    rw [renderAll, tokensAll]
    exact .cons (readAs_render e (h _ (List.mem_cons_self ..)))
      (readAs_renderAll es fun ts hts => h ts (List.mem_cons_of_mem _ hts))

end

/-- The lexer finds the tokens of a rendered expression. -/
theorem values_render {e : Expr α} (h : ∀ t ∈ e.tokens, t.WellFormed) :
    values (bytes e.render) = resume e.tokens (some []) := by
  have hread := (readAs_render e h).reads [] .nil
  have hend : values [] = some [] := values_end rfl
  rwa [List.append_nil, hend] at hread

end Expr

end WaccArm
