import WaccArm.Proofs.Parser.Right
import WaccArm.Proofs.Rendering.Ambiguity

namespace WaccArm

open Grammar Lexer

namespace Grammar

/-- The expression without its notes. -/
abbrev bare (e : Source.Expr) : Expr Unit := e.map fun _ => ()

/-- The highest level that the tokens of an expression have. -/
def ownLevel : Source.Expr → Nat
  | .binary _ op _ _ => op.precedence - 1
  | _ => operandLevel

/-- All but binary operators bind like operands. -/
theorem ownLevel_of_not_binary {e : Source.Expr} (h : e.isBinary = false) : ownLevel e = operandLevel := by
  cases e with
  | binary => cases h
  | _ => rfl

/-- Every phrase with the tokens of the source form spells the tree, but for its notes. -/
def ExprTree.Respelled : ExprTree → Prop
  | .expr _ e => e.Clear → ∀ us : Phrase, us.vals = e.tokens →
      ∃ e', bare e' = bare e ∧ ExprSpelled (.expr (ownLevel e) e') us
  | .named e => e.Clear → ∀ us : Phrase, us.vals = e.tokens →
      ∃ e', bare e' = bare e ∧ ExprSpelled (.named e') us
  | .indices es => (∀ e ∈ es, e.Clear) → ∀ us : Phrase, us.vals = (es.map Expr.tokens).flatMap inBrackets →
      ∃ es', es'.map bare = es.map bare ∧ ExprSpelled (.indices es') us

theorem vals_eq_cons {us : Phrase} {t : Token} {ts : List Token} (h : us.vals = t :: ts) :
    ∃ p vs, us = ⟨t, p⟩ :: vs ∧ Phrase.vals vs = ts := by
  obtain ⟨⟨_, p⟩, vs, rfl, rfl, hvs⟩ := List.map_eq_cons_iff.1 h
  exact ⟨p, vs, rfl, hvs⟩

/-- Tokens with places are split where their values are. -/
theorem vals_eq_append_cons {us : Phrase} {t : Token} {ts ts' : List Token} (h : us.vals = ts ++ t :: ts') :
    ∃ vs p vs', us = vs ++ ⟨t, p⟩ :: vs' ∧ Phrase.vals vs = ts ∧ Phrase.vals vs' = ts' := by
  obtain ⟨vs, ws, rfl, hvs, hws⟩ := List.map_eq_append_iff.1 h
  obtain ⟨p, vs', rfl, hvs'⟩ := vals_eq_cons hws
  exact ⟨vs, p, vs', rfl, hvs, hvs'⟩

theorem vals_eq_inParens {us : Phrase} {ts : List Token} (h : us.vals = inParens ts) :
    ∃ p vs q, us = mark .openParen p :: (vs ++ [mark .closeParen q]) ∧ Phrase.vals vs = ts := by
  obtain ⟨p, vs, rfl, hvs⟩ := vals_eq_cons h
  obtain ⟨vs, q, ws, rfl, hvs, hws⟩ := vals_eq_append_cons hvs
  rw [List.map_eq_nil_iff.1 hws]
  exact ⟨p, vs, q, rfl, hvs⟩

/-- An operand is spelled by its tokens. -/
theorem respelled_operand {level : Nat} {e : Source.Expr} (h : (ExprTree.expr level e).Respelled)
    (hclear : e.Clear) {us : Phrase} (hus : us.vals = e.operandTokens) :
    ∃ e', bare e' = bare e ∧ ExprSpelled (.expr operandLevel e') us := by
  unfold Expr.operandTokens at hus
  split at hus
  next hbinary =>
    obtain ⟨p, vs, q, rfl, hvs⟩ := vals_eq_inParens hus
    obtain ⟨e', hbare, hspelled⟩ := h hclear vs hvs
    exact ⟨e', hbare, .parens (hspelled.lower (Nat.zero_le _))⟩
  next hbinary =>
    obtain ⟨e', hbare, hspelled⟩ := h hclear us hus
    rw [ownLevel_of_not_binary (by simpa using hbinary)] at hspelled
    exact ⟨e', hbare, hspelled⟩

/-- What starts with a number is one or starts with one. -/
theorem int_of_head {e : Source.Expr} {n : Nat} (h : e.tokens.head? = some (.int n)) :
    e.isBinary ∨ ∃ note value, e = .int note value ∧ 0 ≤ value.toInt := by
  cases e with
  | binary => exact .inl rfl
  | int note value =>
    refine .inr ⟨note, value, rfl, ?_⟩
    rw [Expr.tokens, signedTokens] at h
    split at h
    · cases h
    · omega
  | unary note op operand => cases op <;> cases h
  | _ => cases h

theorem vals_eq_singleton {us : Phrase} {t : Token} (h : us.vals = [t]) : ∃ p, us = [⟨t, p⟩] := by
  obtain ⟨p, vs, rfl, hvs⟩ := vals_eq_cons h
  exact ⟨p, by rw [List.map_eq_nil_iff.1 hvs]⟩

/-- A number is spelled by its tokens. -/
theorem respelled_int {level : Nat} {p : Pos} {value : Int32} : (ExprTree.expr level (.int p value)).Respelled := by
  intro _ us hus
  rw [Expr.tokens, signedTokens] at hus
  split at hus
  · obtain ⟨p, vs, rfl, hvs⟩ := vals_eq_cons hus
    obtain ⟨q, rfl⟩ := vals_eq_singleton hvs
    exact ⟨.int p value, rfl, .minusInt (by omega)⟩
  · obtain ⟨p, rfl⟩ := vals_eq_singleton hus
    exact ⟨.int p value, rfl, .int (by omega)⟩

/-- An operator is spelled by the tokens of its operands and its own. -/
theorem respelled_binary {level : Nat} {op : BinaryOp} {left right : Source.Expr}
    (hop : op ∈ operatorsAt level) (ihleft : (ExprTree.expr level left).Respelled)
    (ihright : (ExprTree.expr (level + 1) right).Respelled) :
    (ExprTree.expr level (.binary left.note op left right)).Respelled := by
  intro hclear us hus
  rw [Expr.tokens_binary] at hus
  obtain ⟨vs, p, vs', rfl, hvs, hvs'⟩ := vals_eq_append_cons hus
  obtain ⟨left', hbareleft, hleft⟩ := respelled_operand ihleft (hclear.child (by simp [Expr.children])) hvs
  obtain ⟨right', hbareright, hright⟩ :=
    respelled_operand ihright (hclear.child (by simp [Expr.children])) hvs'
  have hprecedence := mem_operatorsAt.1 hop
  have hlevel := precedence_le op
  have hown : ownLevel (.binary left.note op left right) = level := by
    rw [ownLevel, hprecedence]
    rfl
  refine ⟨.binary left'.note op left' right', ?_, ?_⟩
  · simp only [bare, Expr.map] at hbareleft hbareright ⊢
    rw [hbareleft, hbareright]
  · rw [hown]
    exact .binary hop (hleft.lower (by omega)) (hright.lower (by omega))

/-- A unary operator is spelled in front of its operand. -/
theorem respelled_unary {op : UnaryOp} {e : Source.Expr} {p : Pos}
    (ih : (ExprTree.expr operandLevel e).Respelled) :
    (ExprTree.expr operandLevel (.unary p op e)).Respelled := by
  intro hclear us hus
  have hself := (Expr.clear_iff.1 hclear).1
  have hbinary : e.isBinary = false := by
    rw [← Bool.not_eq_true]
    exact fun hbinary => hself (.operator hbinary)
  rw [Expr.tokens] at hus
  obtain ⟨q, vs, rfl, hvs⟩ := vals_eq_cons hus
  obtain ⟨e', hbare, hspelled⟩ := ih (hclear.child (by simp [Expr.children])) vs hvs
  rw [ownLevel_of_not_binary hbinary] at hspelled
  refine ⟨.unary q op e', ?_, .unary hspelled ?_⟩
  · simp only [bare, Expr.map] at hbare ⊢
    rw [hbare]
  · -- The digits of a number would take the minus sign for themselves.
    rintro rfl ⟨n, hn⟩
    rw [← List.head?_map] at hn
    rw [Phrase.vals] at hvs
    rw [hvs] at hn
    obtain hbinary' | ⟨note, value, rfl, hvalue⟩ := int_of_head hn
    · rw [hbinary] at hbinary'
      cases hbinary'
    · exact hself (.sign hvalue)

/-- A clear expression is spelled by the tokens of its source form, wherever they stand. -/
theorem ExprSpelled.respelled {tree : ExprTree} {ts : Phrase} (h : ExprSpelled tree ts) : tree.Respelled := by
  induction h with
  | binary hop hleft hright ihleft ihright => exact respelled_binary hop ihleft ihright
  | higher hlevel h ih => exact ih
  | parens h ih => exact ih
  | int | plusInt | minusInt => exact respelled_int
  | true =>
    intro _ us hus
    obtain ⟨p, rfl⟩ := vals_eq_singleton hus
    exact ⟨.bool p Bool.true, rfl, .true⟩
  | false =>
    intro _ us hus
    obtain ⟨p, rfl⟩ := vals_eq_singleton hus
    exact ⟨.bool p Bool.false, rfl, .false⟩
  | @char value =>
    intro _ us hus
    obtain ⟨p, rfl⟩ := vals_eq_singleton hus
    exact ⟨.char p value, rfl, .char⟩
  | @str value =>
    intro _ us hus
    obtain ⟨p, rfl⟩ := vals_eq_singleton hus
    exact ⟨.str p value, rfl, .str⟩
  | null =>
    intro _ us hus
    obtain ⟨p, rfl⟩ := vals_eq_singleton hus
    exact ⟨.null p, rfl, .null⟩
  | unary h hsign ih => exact respelled_unary ih
  | @named e ts h ih =>
    intro hclear us hus
    obtain ⟨e', hbare, hspelled⟩ := ih hclear us hus
    have hlevel : ownLevel e = operandLevel := by
      cases h with
      | var | elem => rfl
    rw [hlevel]
    exact ⟨e', hbare, .named hspelled⟩
  | @var name =>
    intro _ us hus
    obtain ⟨p, rfl⟩ := vals_eq_singleton hus
    exact ⟨.var p name, rfl, .var⟩
  | @elem name e es ts p h ih =>
    intro hclear us hus
    rw [Expr.tokens, Expr.tokensAll_eq_map] at hus
    obtain ⟨q, vs, rfl, hvs⟩ := vals_eq_cons hus
    obtain ⟨es', hbare, hspelled⟩ := ih (fun x hx => hclear.child hx) vs hvs
    cases es' with
    | nil => cases hbare
    | cons e' es' =>
      refine ⟨.elem q name (e' :: es'), ?_, .elem hspelled⟩
      simp only [bare, Expr.map, Expr.mapAll_eq_map] at hbare ⊢
      rw [hbare]
  | noIndex =>
    intro _ us hus
    rw [List.map_eq_nil_iff.1 hus]
    exact ⟨[], rfl, .noIndex⟩
  | @index e es ts us p q hindex hothers ihindex ihothers =>
    intro hclear ws hws
    rw [List.map_cons, List.flatMap_cons, inBrackets, List.cons_append, List.append_assoc] at hws
    obtain ⟨p', ws', rfl, hws'⟩ := vals_eq_cons hws
    obtain ⟨vs, q', vs', rfl, hvs, hvs'⟩ := vals_eq_append_cons hws'
    obtain ⟨e', hbare, hspelled⟩ := ihindex (hclear e (List.mem_cons_self ..)) vs hvs
    obtain ⟨es', hbares, hspelleds⟩ :=
      ihothers (fun x hx => hclear x (List.mem_cons_of_mem _ hx)) vs' hvs'
    refine ⟨e' :: es', ?_, .index (hspelled.lower (Nat.zero_le _)) hspelleds⟩
    rw [List.map_cons, List.map_cons, hbare, hbares]

/-- A clear expression is spelled by its tokens. -/
theorem ExprSpelled.again {e : Source.Expr} {ts us : Phrase} (h : ExprSpelled (.expr 0 e) ts)
    (hclear : e.Clear) (hus : us.vals = e.tokens) :
    ∃ e', bare e' = bare e ∧ ExprSpelled (.expr 0 e') us := by
  obtain ⟨e', hbare, hspelled⟩ := h.respelled hclear us hus
  exact ⟨e', hbare, hspelled.lower (Nat.zero_le _)⟩

/-- A clear place is spelled by its tokens. -/
theorem PlaceSpelled.again {e : Source.Expr} {ts us : Phrase} (h : PlaceSpelled e ts)
    (hclear : e.Clear) (hus : us.vals = e.tokens) : ∃ e', bare e' = bare e ∧ PlaceSpelled e' us := by
  induction h generalizing us with
  | named h =>
    obtain ⟨e', hbare, hspelled⟩ := h.respelled hclear us hus
    exact ⟨e', hbare, .named hspelled⟩
  | @side which pair ts p h ih =>
    rw [Expr.tokens] at hus
    obtain ⟨q, vs, rfl, hvs⟩ := vals_eq_cons hus
    obtain ⟨pair', hbare, hspelled⟩ := ih (hclear.child (by simp [Expr.children])) hvs
    refine ⟨.side q which pair', ?_, .side hspelled⟩
    simp only [bare, Expr.map] at hbare ⊢
    rw [hbare]

/-- A list of clear expressions is spelled by its tokens. -/
theorem ListSpelled.again {es : List Source.Expr} {ts us : Phrase} (h : ListSpelled es ts)
    (hclear : ∀ e ∈ es, e.Clear) (hus : us.vals = separated (es.map Expr.tokens)) :
    ∃ es', es'.map bare = es.map bare ∧ ListSpelled es' us := by
  induction h generalizing us with
  | @one e ts h =>
    obtain ⟨e', hbare, hspelled⟩ := h.again (hclear e (List.mem_cons_self ..)) hus
    exact ⟨[e'], by rw [List.map_singleton, List.map_singleton, hbare], .one hspelled⟩
  | @cons e es ts us p h hothers ih =>
    rw [List.map_cons, separated_cons (by simpa using hothers.ne_nil)] at hus
    obtain ⟨vs, q, vs', rfl, hvs, hvs'⟩ := vals_eq_append_cons hus
    obtain ⟨e', hbare, hspelled⟩ := h.again (hclear e (List.mem_cons_self ..)) hvs
    obtain ⟨es', hbares, hspelleds⟩ := ih (fun x hx => hclear x (List.mem_cons_of_mem _ hx)) hvs'
    exact ⟨e' :: es', by rw [List.map_cons, List.map_cons, hbare, hbares], .cons hspelled hspelleds⟩

theorem ArgsSpelled.again {es : List Source.Expr} {ts us : Phrase} (h : ArgsSpelled es ts)
    (hclear : ∀ e ∈ es, e.Clear) (hus : us.vals = separated (es.map Expr.tokens)) :
    ∃ es', es'.map bare = es.map bare ∧ ArgsSpelled es' us := by
  cases h with
  | none =>
    rw [List.map_eq_nil_iff.1 hus]
    exact ⟨[], rfl, .none⟩
  | some h =>
    obtain ⟨es', hbares, hspelled⟩ := h.again hclear hus
    exact ⟨es', hbares, .some hspelled⟩

theorem vals_eq_inBrackets {us : Phrase} {ts : List Token} (h : us.vals = inBrackets ts) :
    ∃ p vs q, us = mark .openBracket p :: (vs ++ [mark .closeBracket q]) ∧ Phrase.vals vs = ts := by
  obtain ⟨p, vs, rfl, hvs⟩ := vals_eq_cons h
  obtain ⟨vs, q, ws, rfl, hvs, hws⟩ := vals_eq_append_cons hvs
  rw [List.map_eq_nil_iff.1 hws]
  exact ⟨p, vs, q, rfl, hvs⟩

/-- The same for what can stand behind an equals sign. -/
theorem RightSpelled.again {e : Source.Expr} {ts us : Phrase} (h : RightSpelled e ts)
    (hclear : e.Clear) (hus : us.vals = e.tokens) : ∃ e', bare e' = bare e ∧ RightSpelled e' us := by
  cases h with
  | expr h =>
    obtain ⟨e', hbare, hspelled⟩ := h.again hclear hus
    exact ⟨e', hbare, .expr hspelled⟩
  | @side which pair ts p h =>
    rw [Expr.tokens] at hus
    obtain ⟨q, vs, rfl, hvs⟩ := vals_eq_cons hus
    obtain ⟨pair', hbare, hspelled⟩ := h.again (hclear.child (by simp [Expr.children])) hvs
    refine ⟨.side q which pair', ?_, .side hspelled⟩
    simp only [bare, Expr.map] at hbare ⊢
    rw [hbare]
  | array h =>
    rw [Expr.tokens, Expr.tokensAll_eq_map] at hus
    obtain ⟨p, vs, q, rfl, hvs⟩ := vals_eq_inBrackets hus
    obtain ⟨es', hbares, hspelled⟩ := h.again (fun x hx => hclear.child hx) hvs
    refine ⟨.array p es', ?_, .array hspelled⟩
    simp only [bare, Expr.map, Expr.mapAll_eq_map] at hbares ⊢
    rw [hbares]
  | @newPair fst snd ts us p q r t hfst hsnd =>
    rw [Expr.tokens] at hus
    obtain ⟨p, ws, rfl, hws⟩ := vals_eq_cons hus
    obtain ⟨q, ws', t, rfl, hws'⟩ := vals_eq_inParens hws
    obtain ⟨vs, r, vs', rfl, hvs, hvs'⟩ := vals_eq_append_cons hws'
    obtain ⟨fst', hbarefst, hfst'⟩ := hfst.again (hclear.child (by simp [Expr.children])) hvs
    obtain ⟨snd', hbaresnd, hsnd'⟩ := hsnd.again (hclear.child (by simp [Expr.children])) hvs'
    refine ⟨.newPair p fst' snd', ?_, ?_⟩
    · simp only [bare, Expr.map] at hbarefst hbaresnd ⊢
      rw [hbarefst, hbaresnd]
    · rw [List.append_assoc, List.cons_append]
      exact .newPair hfst' hsnd'
  | @call name args ts p q r t h =>
    rw [Expr.tokens, Expr.tokensAll_eq_map] at hus
    obtain ⟨p, ws, rfl, hws⟩ := vals_eq_cons hus
    obtain ⟨q, ws', rfl, hws'⟩ := vals_eq_cons hws
    obtain ⟨r, vs, t, rfl, hvs⟩ := vals_eq_inParens hws'
    obtain ⟨args', hbares, hspelled⟩ := h.again (fun x hx => hclear.child hx) hvs
    refine ⟨.call p name args', ?_, .call hspelled⟩
    simp only [bare, Expr.map, Expr.mapAll_eq_map] at hbares ⊢
    rw [hbares]

end Grammar

def Token.isLiteral : Token → Bool
  | .char _ | .str _ => true
  | _ => false

/-- Commas are no literals. -/
theorem filter_separated (p : Token → Bool) (hp : p (.symbol .comma) = false) (phrases : List (List Token)) :
    (separated phrases).filter p = phrases.flatMap (List.filter p) := by
  induction phrases with
  | nil => rfl
  | cons ts phrases ih =>
    cases phrases with
    | nil => simp [separated]
    | cons us phrases =>
      rw [separated, List.filter_append, List.filter_cons_of_neg (by simp [hp]), ih]
      rfl

theorem filter_inParens (ts : List Token) :
    (inParens ts).filter Token.isLiteral = ts.filter Token.isLiteral := by
  simp [inParens, Token.isLiteral]

theorem filter_inBrackets (ts : List Token) :
    (inBrackets ts).filter Token.isLiteral = ts.filter Token.isLiteral := by
  simp [inBrackets, Token.isLiteral]

namespace Expr

variable {α : Type}

/-- The token of a character or string literal. -/
def literal? : Expr α → Option Token
  | char _ value => some (.char value)
  | str _ value => some (.str value)
  | _ => none

theorem filter_operandTokens (e : Expr α) :
    e.operandTokens.filter Token.isLiteral = e.tokens.filter Token.isLiteral := by
  unfold operandTokens
  split
  · exact filter_inParens _
  · rfl

theorem isLiteral_unary (op : UnaryOp) : (unaryToken op).isLiteral = false := by cases op <;> rfl

mutual

/-- The literals among the tokens are those among the parts. -/
theorem filter_tokens (e : Expr α) : e.tokens.filter Token.isLiteral = e.parts.filterMap literal? := by
  cases e with
  | int note value =>
    rw [tokens, signedTokens]
    split <;> rfl
  | bool | char | str | null | var => rfl
  | elem note name indices =>
    have hindices : ((tokensAll indices).flatMap inBrackets).filter Token.isLiteral =
        (tokensAll indices).flatMap (List.filter Token.isLiteral) := by
      rw [List.filter_flatMap]
      exact List.flatMap_congr fun ts _ => filter_inBrackets ts
    rw [tokens, parts, List.filter_cons_of_neg (by simp [Token.isLiteral]), hindices,
      filter_tokensAll indices]
    rfl
  | side note which pair =>
    rw [tokens, parts, List.filter_cons_of_neg (by simp [Token.isLiteral]), filter_tokens pair]
    rfl
  | unary note op operand =>
    rw [tokens, parts, List.filter_cons_of_neg (by simp [isLiteral_unary]), filter_tokens operand]
    rfl
  | binary note op left right =>
    rw [tokens_binary, parts, List.filter_append, List.filter_cons_of_neg (by simp [Token.isLiteral]),
      filter_operandTokens, filter_operandTokens, filter_tokens left, filter_tokens right,
      ← List.filterMap_append]
    rfl
  | call note callee args =>
    rw [tokens, parts, List.filter_cons_of_neg (by simp [Token.isLiteral]),
      List.filter_cons_of_neg (by simp [Token.isLiteral]), filter_inParens, filter_separated _ rfl,
      filter_tokensAll args]
    rfl
  | newPair note fst snd =>
    rw [tokens, parts, List.filter_cons_of_neg (by simp [Token.isLiteral]), filter_inParens,
      filter_separated _ rfl]
    simp only [List.flatMap_cons, List.flatMap_nil, List.append_nil]
    rw [filter_tokens fst, filter_tokens snd, ← List.filterMap_append]
    rfl
  | array note elems =>
    rw [tokens, parts, filter_inBrackets, filter_separated _ rfl, filter_tokensAll elems]
    rfl

theorem filter_tokensAll (es : List (Expr α)) :
    (tokensAll es).flatMap (List.filter Token.isLiteral) = (partsAll es).filterMap literal? := by
  cases es with
  | nil => rfl
  | cons e es =>
    rw [tokensAll, partsAll, List.flatMap_cons, filter_tokens e, filter_tokensAll es, List.filterMap_append]

end

/-- Only the literals in it can make an expression unreadable. -/
theorem readable_tokens_iff {e : Expr α} :
    (∀ t ∈ e.tokens, t.Readable) ↔ ∀ part ∈ e.parts, ∀ t, part.literal? = some t → t.Readable := by
  have hmem : ∀ t, t ∈ e.tokens ∧ t.isLiteral ↔ ∃ part ∈ e.parts, part.literal? = some t := by
    intro t
    rw [← List.mem_filter, filter_tokens, List.mem_filterMap]
  constructor
  · intro h part hpart t ht
    exact h t ((hmem t).2 ⟨part, hpart, ht⟩).1
  · intro h t ht
    cases hliteral : t.isLiteral with
    | false =>
      cases t with
      | char | str => cases hliteral
      | _ => trivial
    | true =>
      obtain ⟨part, hpart, hpartt⟩ := (hmem t).1 ⟨ht, hliteral⟩
      exact h part hpart t hpartt

/-- The shapes that are not read back: a unary operator over a binary one, a minus sign over a number that
is not negative, and a literal with an unprintable byte. -/
inductive Misread : Expr α → Prop
  | operator {note op operand} (h : operand.isBinary) : Misread (.unary note op operand)
  | sign {note note' value} (h : 0 ≤ value.toInt) : Misread (.unary note .negate (.int note' value))
  | char {note value} (h : Text.Unprintable value) : Misread (.char note value)
  | str {note value byte} (hbyte : byte ∈ Text.bytes value) (h : Text.Unprintable byte) :
    Misread (.str note value)

/-- A string is readable if its bytes are printable. -/
theorem readable_str_iff {value : String} (h : (Token.str value).WellFormed) :
    (Token.str value).Readable ↔ ∀ b ∈ Text.bytes value, ¬ Text.Unprintable b := by
  obtain ⟨content, rfl, hascii⟩ := h
  rw [Token.Readable, Text.bytes_ofBytes hascii]
  constructor
  · intro h b hb
    exact (Text.isReadable_iff (hascii b hb)).1 (h b hb)
  · intro h b hb
    exact (Text.isReadable_iff (hascii b hb)).2 (h b hb)

/-- The two reasons for which a part is misread. -/
theorem not_misread_iff {e : Expr α} (hwell : ∀ t, e.literal? = some t → t.WellFormed) :
    ¬ e.Misread ↔ ¬ e.Ambiguous ∧ ∀ t, e.literal? = some t → t.Readable := by
  constructor
  · intro h
    constructor
    · intro hambiguous
      cases hambiguous with
      | operator hbinary => exact h (.operator hbinary)
      | sign hvalue => exact h (.sign hvalue)
    · intro t ht
      specialize hwell t ht
      cases e with
      | char note value =>
        cases ht
        exact (Text.isReadable_iff hwell).2 fun hbyte => h (.char hbyte)
      | str note value =>
        cases ht
        exact (readable_str_iff hwell).2 fun b hb hbyte => h (.str hb hbyte)
      | _ => cases ht
  · rintro ⟨hambiguous, hread⟩ hmisread
    cases hmisread with
    | operator hbinary => exact hambiguous (.operator hbinary)
    | sign hvalue => exact hambiguous (.sign hvalue)
    | char hbyte => exact (Text.isReadable_iff (hwell _ rfl)).1 (hread _ rfl) hbyte
    | str hb hbyte => exact (readable_str_iff (hwell _ rfl)).1 (hread _ rfl) _ hb hbyte

/-- No part is misread if and only if no part is ambiguous and all literals are readable. -/
theorem faithful_iff {e : Expr α} (hwell : ∀ t ∈ e.tokens, t.WellFormed) :
    (∀ part ∈ e.parts, ¬ part.Misread) ↔ e.Clear ∧ ∀ t ∈ e.tokens, t.Readable := by
  have hpart : ∀ part ∈ e.parts, ¬ part.Misread ↔
      ¬ part.Ambiguous ∧ ∀ t, part.literal? = some t → t.Readable := by
    intro part hpart
    apply not_misread_iff
    intro t ht
    have hmem : t ∈ e.tokens.filter Token.isLiteral := by
      rw [filter_tokens]
      exact List.mem_filterMap.2 ⟨part, hpart, ht⟩
    exact hwell t (List.mem_filter.1 hmem).1
  rw [readable_tokens_iff]
  constructor
  · intro h
    exact ⟨fun part hmem => ((hpart part hmem).1 (h part hmem)).1,
      fun part hmem => ((hpart part hmem).1 (h part hmem)).2⟩
  · rintro ⟨hclear, hread⟩ part hmem
    exact (hpart part hmem).2 ⟨hclear part hmem, hread part hmem⟩

end Expr

theorem isParen_of_reread {t t' : Token} (hwell : t.WellFormed) (h : t.reread = .ok t') :
    t'.isParen = t.isParen := by
  obtain ⟨-, rfl⟩ | ⟨s, s', rfl, rfl, -⟩ := Token.reread_eq_ok hwell h
  · rfl
  · rfl

/-- Reading again loses no token. -/
theorem length_core_of_reread {ts vs : List Token} (h : List.Forall₂ (fun t t' => t.reread = .ok t') ts vs)
    (hwell : ∀ t ∈ ts, t.WellFormed) : (core vs).length = (core ts).length := by
  induction h with
  | nil => rfl
  | @cons t t' ts vs ht h ih =>
    have hparen := isParen_of_reread (hwell t (List.mem_cons_self ..)) ht
    specialize ih fun u hu => hwell u (List.mem_cons_of_mem _ hu)
    by_cases hpar : t.isParen
    · rw [core_paren hpar, core_paren (hparen.trans hpar), ih]
    · rw [Bool.not_eq_true] at hpar
      rw [core_cons hpar, core_cons (hparen.trans hpar), List.length_cons, List.length_cons, ih]

/-- Tokens that are read as tokens with the same ones among them are read as themselves. -/
theorem eq_of_reread {ts vs : List Token} (h : List.Forall₂ (fun t t' => t.reread = .ok t') ts vs)
    (hwell : ∀ t ∈ ts, t.WellFormed) (hcore : core ts = core vs) : vs = ts ∧ ∀ t ∈ ts, t.Readable := by
  induction h with
  | nil => exact ⟨rfl, by simp⟩
  | @cons t t' ts vs ht h ih =>
    have htwell := hwell t (List.mem_cons_self ..)
    obtain ⟨hread, rfl⟩ | ⟨s, s', rfl, rfl, hne⟩ := Token.reread_eq_ok htwell ht
    · have hothers : core ts = core vs := by
        by_cases hpar : t'.isParen
        · rwa [core_paren hpar, core_paren hpar] at hcore
        · rw [Bool.not_eq_true] at hpar
          rw [core_cons hpar, core_cons hpar] at hcore
          exact (List.cons.inj hcore).2
      obtain ⟨rfl, hreads⟩ := ih (fun u hu => hwell u (List.mem_cons_of_mem _ hu)) hothers
      refine ⟨rfl, fun u hu => ?_⟩
      rcases List.mem_cons.1 hu with rfl | hu
      · exact hread
      · exact hreads u hu
    · rw [core_cons rfl, core_cons rfl] at hcore
      exact absurd (Token.str.inj (List.cons.inj hcore).1) hne

/-- The tokens of an expression that was read off a text could have come out of a text. -/
theorem Grammar.RightSpelled.wellFormed {e : Source.Expr} {ts : Phrase} (h : RightSpelled e ts)
    (hts : ∀ t ∈ ts.vals, t.WellFormed) : ∀ t ∈ e.tokens, t.WellFormed := by
  intro t ht
  by_cases hparen : t.isParen
  · cases t with
    | symbol => trivial
    | _ => cases hparen
  · have hmem : t ∈ core e.tokens := List.mem_filter.2 ⟨ht, by simp [hparen]⟩
    exact hts t (List.mem_filter.1 (h.core_sublist.subset hmem)).1

/-- A right-hand side is read to its end. -/
theorem Parser.reads_whole {e : Source.Expr} {ts : Phrase} (h : RightSpelled e ts) :
    ∃ last h', Parser.rightSide (.ofTokens ts) = .ok ⟨e, ⟨[], last⟩, h'⟩ := by
  have hends : Ends (Stream.prepend ⟨[], (Stream.ofTokens ts).last⟩ []) := by
    constructor <;> simp [Stream.peek?, Stream.peekAt?]
  have hstream : Stream.prepend ⟨[], (Stream.ofTokens ts).last⟩ (ts ++ []) = .ofTokens ts := by
    simp [Stream.prepend, Stream.ofTokens]
  have hread := Parser.reads_rightSide h hends
  rw [hstream] at hread
  exact ⟨_, hread⟩

/-- For every expression that can be read off a text: its source form is read as one whole expression that
differs from it in places only, if and only if no part of it is misread. -/
theorem render_read_back_iff {source : List UInt8} {tokens : List (Located Token)} {e : Source.Expr}
    {rest : Stream} {h : rest.tokens.length < (Stream.ofTokens tokens).tokens.length}
    (htokens : tokenize source = .ok tokens)
    (hread : Parser.rightSide (.ofTokens tokens) = .ok ⟨e, rest, h⟩) :
    (∃ tokens' e' rest' h', tokenize (Text.bytes e.render) = .ok tokens' ∧
      Parser.rightSide (.ofTokens tokens') = .ok ⟨e', rest', h'⟩ ∧ rest'.tokens = [] ∧
      bare e' = bare e) ↔ ∀ part ∈ e.parts, ¬ part.Misread := by
  obtain ⟨ts, hs, hspelled⟩ := Parser.rightSide_sound hread
  have hwell : ∀ t ∈ e.tokens, t.WellFormed := by
    apply hspelled.wellFormed
    intro t ht
    have hvalues := values_eq_some.2 ⟨tokens, htokens, rfl⟩
    apply Token.values_wellFormed hvalues
    have hsplit : tokens = ts ++ rest.tokens := congrArg Stream.tokens hs
    rw [hsplit, List.map_append]
    exact List.mem_append_left _ ht
  rw [Expr.faithful_iff hwell]
  constructor
  · rintro ⟨tokens', e', rest', h', htokens', hread', hrest', hbare⟩
    obtain ⟨ts', hs', hspelled'⟩ := Parser.rightSide_sound hread'
    have hall : tokens' = ts' := by
      have hsplit : tokens' = ts' ++ rest'.tokens := congrArg Stream.tokens hs'
      rwa [hrest', List.append_nil] at hsplit
    subst hall
    have hsame : e'.tokens = e.tokens := by
      rw [← Expr.tokens_map (fun _ => ()) e', ← Expr.tokens_map (fun _ => ()) e]
      exact congrArg Expr.tokens hbare
    have hvalues := values_eq_some.2 ⟨tokens', htokens', rfl⟩
    rw [Expr.values_render hwell] at hvalues
    have hforall := forall₂_of_resume hvalues
    have hsublist := hspelled'.core_sublist
    rw [hsame] at hsublist
    have hcore := hsublist.eq_of_length (length_core_of_reread hforall hwell).symm
    obtain ⟨hvals, hreadable⟩ := eq_of_reread hforall hwell hcore
    refine ⟨?_, hreadable⟩
    have hclear : (bare e').Clear := Expr.clear_map.2 (hspelled'.clear (hvals.trans hsame.symm))
    rw [hbare] at hclear
    exact Expr.clear_map.1 hclear
  · rintro ⟨hclear, hreadable⟩
    have hvalues := Expr.values_render hwell
    rw [resume_of_readable hwell hreadable] at hvalues
    obtain ⟨tokens', htokens', hvals⟩ := values_eq_some.1 hvalues
    obtain ⟨e', hbare, hspelled'⟩ := hspelled.again hclear hvals
    obtain ⟨last, h', hread'⟩ := Parser.reads_whole hspelled'
    exact ⟨tokens', e', ⟨[], last⟩, h', htokens', hread', rfl, hbare⟩

/-- The minus sign of `-(x + 1)` is bound to the variable when the source form `-x + 1` is read. -/
theorem negated_sum_not_read_back :
    ∃ tokens e rest h, tokenize (Text.bytes "-(x + 1)") = .ok tokens ∧
      Parser.rightSide (.ofTokens tokens) = .ok ⟨e, rest, h⟩ ∧ e.render = "-x + 1" ∧
      ¬ ∃ tokens' e' rest' h', tokenize (Text.bytes e.render) = .ok tokens' ∧
        Parser.rightSide (.ofTokens tokens') = .ok ⟨e', rest', h'⟩ ∧ rest'.tokens = [] ∧
        bare e' = bare e := by
  have hvalues : values (Text.bytes "-(x + 1)") = some [.symbol .minus, .symbol .openParen, .ident "x",
      .symbol .plus, .int 1, .symbol .closeParen] := by
    repeat apply values_lexeme rfl rfl
    exact values_end rfl
  obtain ⟨tokens, htokens, hvals⟩ := values_eq_some.1 hvalues
  obtain ⟨p₁, ts₁, rfl, hvals₁⟩ := vals_eq_cons hvals
  obtain ⟨p₂, ts₂, rfl, hvals₂⟩ := vals_eq_cons hvals₁
  obtain ⟨p₃, ts₃, rfl, hvals₃⟩ := vals_eq_cons hvals₂
  obtain ⟨p₄, ts₄, rfl, hvals₄⟩ := vals_eq_cons hvals₃
  obtain ⟨p₅, ts₅, rfl, hvals₅⟩ := vals_eq_cons hvals₄
  obtain ⟨p₆, rfl⟩ := vals_eq_singleton hvals₅
  have hsum : ExprSpelled (.expr 4 (.binary p₃ .add (.var p₃ "x") (.int p₅ 1)))
      [ident "x" p₃, mark .plus p₄, ⟨.int 1, p₅⟩] :=
    .binary (by decide) (ExprSpelled.lower (.named .var) (by decide)) (ExprSpelled.lower (.int rfl) (by decide))
  have hspelled : RightSpelled (.unary p₁ .negate (.binary p₃ .add (.var p₃ "x") (.int p₅ 1)))
      [mark .minus p₁, mark .openParen p₂, ident "x" p₃, mark .plus p₄, ⟨.int 1, p₅⟩, mark .closeParen p₆] := by
    apply RightSpelled.expr
    apply ExprSpelled.lower (.unary (.parens (hsum.lower (Nat.zero_le 4))) _) (Nat.zero_le operandLevel)
    rintro - ⟨_, ⟨⟩⟩
  obtain ⟨last, h, hread⟩ := Parser.reads_whole hspelled
  refine ⟨_, _, _, h, htokens, hread, rfl, fun hback => ?_⟩
  exact (render_read_back_iff htokens hread).1 hback _ (List.mem_cons_self ..) (.operator rfl)

end WaccArm
