import WaccArm.Proofs.Parser.Expr
import WaccArm.Proofs.Positions.Tree
import WaccArm.Proofs.Rendering.Text

namespace WaccArm

open Grammar

def Token.isParen : Token → Bool
  | .symbol .openParen | .symbol .closeParen => true
  | _ => false

/-- The tokens other than round parentheses. -/
def core (ts : List Token) : List Token := ts.filter fun t => !t.isParen

theorem core_append (ts us : List Token) : core (ts ++ us) = core ts ++ core us := List.filter_append ..

theorem core_cons {t : Token} (h : t.isParen = false) (ts : List Token) : core (t :: ts) = t :: core ts := by
  simp [core, h]

theorem core_paren {t : Token} (h : t.isParen) (ts : List Token) : core (t :: ts) = core ts := by
  simp [core, h]

/-- Parentheses are not counted. -/
theorem core_inParens (ts : List Token) : core (inParens ts) = core ts := by
  rw [inParens, core_paren rfl, core_append, core_paren rfl]
  exact List.append_nil _

theorem core_inBrackets (ts : List Token) : core (inBrackets ts) = inBrackets (core ts) := by
  rw [inBrackets, core_cons rfl, core_append, core_cons rfl]
  rfl

theorem isParen_operator (op : BinaryOp) : (Token.symbol (operatorMark op)).isParen = false := by
  cases op <;> rfl

theorem isParen_unary (op : UnaryOp) : (unaryToken op).isParen = false := by
  cases op <;> rfl

theorem core_operandTokens {α : Type} (e : Expr α) : core e.operandTokens = core e.tokens := by
  unfold Expr.operandTokens
  split
  · exact core_inParens _
  · rfl

/-- Two texts with a token other than a parenthesis in them are cut there in the same way if they have the
same number of such tokens before it. -/
theorem cut_unique {as bs cs ds : List Token} {x y : Token} (h : as ++ x :: bs = cs ++ y :: ds)
    (hx : x.isParen = false) (hy : y.isParen = false) (hlength : (core as).length = (core cs).length) :
    as = cs ∧ x = y ∧ bs = ds := by
  induction as generalizing cs with
  | nil =>
    cases cs with
    | nil =>
      obtain ⟨hxy, htail⟩ := List.cons.inj h
      exact ⟨rfl, hxy, htail⟩
    | cons c cs =>
      obtain ⟨rfl, -⟩ := List.cons.inj h
      rw [core_cons hx] at hlength
      cases hlength
  | cons a as ih =>
    cases cs with
    | nil =>
      obtain ⟨rfl, -⟩ := List.cons.inj h
      rw [core_cons hy] at hlength
      cases hlength
    | cons c cs =>
      obtain ⟨rfl, htail⟩ := List.cons.inj h
      have hothers : (core as).length = (core cs).length := by
        by_cases ha : a.isParen
        · rwa [core_paren ha, core_paren ha] at hlength
        · rw [Bool.not_eq_true] at ha
          rw [core_cons ha, core_cons ha] at hlength
          exact Nat.succ.inj hlength
      obtain ⟨rfl, hxy, hrest⟩ := ih htail hothers
      exact ⟨rfl, hxy, hrest⟩

/-- The same if one text has at least as many tokens on each side of the cut as the other. -/
theorem split_unique {as bs cs ds : List Token} {x y : Token} (h : as ++ x :: bs = cs ++ y :: ds)
    (hx : x.isParen = false) (hy : y.isParen = false) (hleft : (core cs).length ≤ (core as).length)
    (hright : (core ds).length ≤ (core bs).length) : as = cs ∧ x = y ∧ bs = ds := by
  apply cut_unique h hx hy
  have htotal := congrArg (fun ts => (core ts).length) h
  simp only [core_append, core_cons hx, core_cons hy, List.length_append, List.length_cons] at htotal
  omega

/-- As many parentheses are opened as closed. -/
def Paired (ts : List Token) : Prop :=
  ts.count (.symbol .openParen) = ts.count (.symbol .closeParen)

namespace Paired

variable {ts us : List Token}

theorem nil : Paired [] := rfl

theorem append (h : Paired ts) (h' : Paired us) : Paired (ts ++ us) := by
  unfold Paired at h h' ⊢
  rw [List.count_append, List.count_append, h, h']

theorem cons {t : Token} (ht : t.isParen = false) (h : Paired ts) : Paired (t :: ts) := by
  have hopen : t ≠ .symbol .openParen := by
    rintro rfl
    cases ht
  have hclose : t ≠ .symbol .closeParen := by
    rintro rfl
    cases ht
  unfold Paired at h ⊢
  rw [List.count_cons_of_ne hopen, List.count_cons_of_ne hclose, h]

theorem inParens (h : Paired ts) : Paired (inParens ts) := by
  unfold Paired at h ⊢
  simp [WaccArm.inParens, h]

theorem inBrackets (h : Paired ts) : Paired (inBrackets ts) := .cons rfl (h.append (.cons rfl nil))

theorem separated {phrases : List (List Token)} (h : ∀ ts ∈ phrases, Paired ts) :
    Paired (separated phrases) := by
  induction phrases with
  | nil => exact nil
  | cons ts phrases ih =>
    have hts := h ts (List.mem_cons_self ..)
    cases phrases with
    | nil => exact hts
    | cons us phrases => exact hts.append (.cons rfl (ih fun vs hvs => h vs (List.mem_cons_of_mem _ hvs)))

theorem flatMap_inBrackets {phrases : List (List Token)} (h : ∀ ts ∈ phrases, Paired ts) :
    Paired (phrases.flatMap WaccArm.inBrackets) := by
  induction phrases with
  | nil => exact nil
  | cons ts phrases ih =>
    rw [List.flatMap_cons]
    exact (h ts (List.mem_cons_self ..)).inBrackets.append (ih fun us hus => h us (List.mem_cons_of_mem _ hus))

/-- Parentheses put in front of such texts can be counted. -/
theorem replicate_inj {m n : Nat} (h : Paired ts) (h' : Paired us)
    (heq : List.replicate m (Token.symbol .openParen) ++ ts = List.replicate n (.symbol .openParen) ++ us) :
    m = n ∧ ts = us := by
  have hopen := congrArg (List.count (.symbol .openParen)) heq
  have hclose := congrArg (List.count (.symbol .closeParen)) heq
  simp only [List.count_append, List.count_replicate_self] at hopen
  simp only [List.count_append, List.count_replicate] at hclose
  unfold Paired at h h'
  have hmn : m = n := by simp at hclose; omega
  subst hmn
  exact ⟨rfl, List.append_cancel_left heq⟩

end Paired

namespace Expr

variable {α β : Type}

theorem tokensAll_eq_map (es : List (Expr α)) : tokensAll es = es.map tokens := by
  induction es with
  | nil => rfl
  | cons e es ih => rw [tokensAll, ih, List.map_cons]

theorem paired_signed (value : Int32) : Paired (signedTokens value) := by
  unfold signedTokens
  split
  · exact .cons rfl (.cons rfl .nil)
  · exact .cons rfl .nil

theorem paired_operandTokens {e : Expr α} (h : Paired e.tokens) : Paired e.operandTokens := by
  unfold operandTokens
  split
  · exact h.inParens
  · exact h

mutual

/-- The parentheses of a source form are paired. -/
theorem paired_tokens (e : Expr α) : Paired e.tokens := by
  cases e with
  | int note value => exact paired_signed value
  | bool | char | str | null | var => exact .cons rfl .nil
  | elem note name indices =>
    rw [tokens]
    exact .cons rfl (.flatMap_inBrackets (paired_tokensAll indices))
  | side note which pair =>
    rw [tokens]
    exact .cons rfl (paired_tokens pair)
  | unary note op operand =>
    rw [tokens]
    exact .cons (isParen_unary op) (paired_tokens operand)
  | binary note op left right =>
    rw [tokens_binary]
    exact (paired_operandTokens (paired_tokens left)).append
      (.cons (isParen_operator op) (paired_operandTokens (paired_tokens right)))
  | call note callee args =>
    rw [tokens]
    exact .cons rfl (.cons rfl (Paired.separated (paired_tokensAll args)).inParens)
  | newPair note fst snd =>
    rw [tokens]
    exact .cons rfl (Paired.append (paired_tokens fst) (.cons rfl (paired_tokens snd))).inParens
  | array note elems =>
    rw [tokens]
    exact (Paired.separated (paired_tokensAll elems)).inBrackets

theorem paired_tokensAll (es : List (Expr α)) : ∀ ts ∈ tokensAll es, Paired ts := by
  cases es with
  | nil =>
    intro ts hts
    cases hts
  | cons e es =>
    intro ts hts
    rw [tokensAll] at hts
    rcases List.mem_cons.1 hts with rfl | hts
    · exact paired_tokens e
    · exact paired_tokensAll es ts hts

end

mutual

/-- Notes are not rendered. -/
theorem tokens_map (f : α → β) (e : Expr α) : (e.map f).tokens = e.tokens := by
  cases e with
  | int | bool | char | str | null | var => rfl
  | elem note name indices => rw [map, tokens, tokens, tokensAll_map f indices]
  | side note which pair => rw [map, tokens, tokens, tokens_map f pair]
  | unary note op operand => rw [map, tokens, tokens, tokens_map f operand]
  | binary note op left right =>
    rw [map, tokens, tokens, tokens_map f left, tokens_map f right, isBinary_map, isBinary_map]
  | call note callee args => rw [map, tokens, tokens, tokensAll_map f args]
  | newPair note fst snd => rw [map, tokens, tokens, tokens_map f fst, tokens_map f snd]
  | array note elems => rw [map, tokens, tokens, tokensAll_map f elems]

theorem tokensAll_map (f : α → β) (es : List (Expr α)) : tokensAll (mapAll f es) = tokensAll es := by
  cases es with
  | nil => rfl
  | cons e es => rw [mapAll, tokensAll, tokensAll, tokens_map f e, tokensAll_map f es]

end

end Expr

namespace Grammar

/-- The tokens of a phrase. -/
abbrev Phrase.vals (ts : Phrase) : List Token := ts.map Located.val

theorem vals_parens (ts : Phrase) (p q : Pos) :
    Phrase.vals (mark .openParen p :: (ts ++ [mark .closeParen q])) = inParens ts.vals := by
  rw [Phrase.vals, List.map_cons, List.map_append]
  rfl

/-- The tokens of the source form of a tree. -/
def ExprTree.tokens : ExprTree → List Token
  | .expr _ e | .named e => e.tokens
  | .indices es => (es.map Expr.tokens).flatMap inBrackets

/-- A number that is not negative has no sign. -/
theorem signedTokens_of_nonneg {value : Int32} {n : Nat} (h : value.toInt = n) : signedTokens value = [.int n] := by
  rw [signedTokens, h, if_neg (by omega), Int.natAbs_natCast]

/-- Every spelling of an expression has the tokens of its source form, in order and apart from round
parentheses. -/
theorem ExprSpelled.core_sublist {tree : ExprTree} {ts : Phrase} (h : ExprSpelled tree ts) :
    (core tree.tokens).Sublist (core ts.vals) := by
  induction h with
  | @binary level op left right ts us p hop hleft hright ihleft ihright =>
    rw [ExprTree.tokens, Expr.tokens_binary, Phrase.vals, List.map_append, List.map_cons, core_append,
      core_append, core_cons (isParen_operator op), core_cons (isParen_operator op), core_operandTokens,
      core_operandTokens]
    exact ihleft.append (ihright.cons_cons _)
  | higher hlevel h ih => exact ih
  | int hvalue =>
    rw [ExprTree.tokens, Expr.tokens, signedTokens_of_nonneg hvalue]
    exact .refl _
  | @plusInt n value p q hvalue =>
    rw [ExprTree.tokens, Expr.tokens, signedTokens_of_nonneg hvalue]
    exact .cons _ (.refl _)
  | @minusInt n value p q hvalue =>
    rw [ExprTree.tokens, Expr.tokens, signedTokens, hvalue]
    split
    · rw [Int.natAbs_neg, Int.natAbs_natCast]
      exact .refl _
    · rw [Int.natAbs_neg, Int.natAbs_natCast]
      exact .cons _ (.refl _)
  | true | false | char | str | null | var => exact .refl _
  | @unary op e ts p h hsign ih =>
    rw [ExprTree.tokens, Expr.tokens, Phrase.vals, List.map_cons, core_cons (isParen_unary op),
      core_cons (isParen_unary op)]
    exact ih.cons_cons _
  | named h ih => exact ih
  | @parens e ts p q h ih =>
    rw [vals_parens, core_inParens]
    exact ih
  | @elem name e es ts p h ih =>
    rw [ExprTree.tokens, Expr.tokens, Expr.tokensAll_eq_map, core_cons rfl]
    exact ih.cons_cons _
  | noIndex => exact .refl _
  | @index e es ts us p q hindex hothers ihindex ihothers =>
    rw [ExprTree.tokens, List.map_cons, List.flatMap_cons, core_append, core_inBrackets, Phrase.vals,
      List.map_cons, List.map_append, List.map_cons, core_cons rfl, core_append, core_cons rfl, inBrackets,
      List.cons_append, List.append_assoc]
    exact (ihindex.append (ihothers.cons_cons _)).cons_cons _

/-- The parentheses of a spelling are paired. -/
theorem ExprSpelled.paired {tree : ExprTree} {ts : Phrase} (h : ExprSpelled tree ts) :
    Paired ts.vals := by
  induction h with
  | @binary level op left right ts us p hop hleft hright ihleft ihright =>
    rw [Phrase.vals, List.map_append, List.map_cons]
    exact ihleft.append (.cons (isParen_operator op) ihright)
  | higher hlevel h ih => exact ih
  | plusInt | minusInt => exact .cons rfl (.cons rfl .nil)
  | int | true | false | char | str | null | var => exact .cons rfl .nil
  | @unary op e ts p h hsign ih => exact .cons (isParen_unary op) ih
  | named h ih => exact ih
  | @parens e ts p q h ih =>
    rw [vals_parens]
    exact ih.inParens
  | elem h ih => exact .cons rfl ih
  | noIndex => exact .nil
  | @index e es ts us p q hindex hothers ihindex ihothers =>
    rw [Phrase.vals, List.map_cons, List.map_append, List.map_cons]
    exact .cons rfl (ihindex.append (.cons rfl ihothers))

end Grammar

end WaccArm
