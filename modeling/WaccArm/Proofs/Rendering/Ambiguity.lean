import WaccArm.Proofs.Rendering.Spelling

namespace WaccArm

open Grammar

namespace Expr

variable {α β : Type}

/-- The parts right below an expression. -/
def children : Expr α → List (Expr α)
  | elem _ _ indices => indices
  | side _ _ pair => [pair]
  | unary _ _ operand => [operand]
  | binary _ _ left right => [left, right]
  | call _ _ args => args
  | newPair _ fst snd => [fst, snd]
  | array _ elems => elems
  | _ => []

theorem partsAll_eq (es : List (Expr α)) : partsAll es = es.flatMap parts := by
  induction es with
  | nil => rfl
  | cons e es ih => rw [partsAll, ih, List.flatMap_cons]

/-- An expression and the parts of its children. -/
theorem parts_eq (e : Expr α) : e.parts = e :: e.children.flatMap parts := by
  cases e <;> simp [parts, children, partsAll_eq]

mutual

theorem parts_map (f : α → β) (e : Expr α) : (e.map f).parts = e.parts.map (map f) := by
  cases e with
  | int | bool | char | str | null | var => rfl
  | elem note name indices => rw [map, parts, parts, partsAll_map f indices, List.map_cons, map]
  | side note which pair => rw [map, parts, parts, parts_map f pair, List.map_cons, map]
  | unary note op operand => rw [map, parts, parts, parts_map f operand, List.map_cons, map]
  | binary note op left right =>
    rw [map, parts, parts, parts_map f left, parts_map f right, List.map_cons, List.map_append, map]
  | call note callee args => rw [map, parts, parts, partsAll_map f args, List.map_cons, map]
  | newPair note fst snd =>
    rw [map, parts, parts, parts_map f fst, parts_map f snd, List.map_cons, List.map_append, map]
  | array note elems => rw [map, parts, parts, partsAll_map f elems, List.map_cons, map]

theorem partsAll_map (f : α → β) (es : List (Expr α)) :
    partsAll (mapAll f es) = (partsAll es).map (map f) := by
  cases es with
  | nil => rfl
  | cons e es => rw [mapAll, partsAll, partsAll, parts_map f e, partsAll_map f es, List.map_append]

end

/-- A unary operator over a binary one, and a minus sign over a number that is not negative. -/
inductive Ambiguous : Expr α → Prop
  | operator {note op operand} (h : operand.isBinary) : Ambiguous (.unary note op operand)
  | sign {note note' value} (h : 0 ≤ value.toInt) : Ambiguous (.unary note .negate (.int note' value))

theorem ambiguous_map {f : α → β} {e : Expr α} : (e.map f).Ambiguous ↔ e.Ambiguous := by
  constructor
  · intro h
    cases e with
    | unary note op operand =>
      rw [map] at h
      generalize hoperand : operand.map f = operand' at h
      cases h with
      | operator hbinary =>
        rw [← hoperand, isBinary_map] at hbinary
        exact .operator hbinary
      | sign hvalue =>
        cases operand with
        | int note value =>
          cases hoperand
          exact .sign hvalue
        | _ => cases hoperand
    | _ => cases h
  · intro h
    cases h with
    | operator hbinary => exact .operator (by rwa [isBinary_map])
    | sign hvalue => exact .sign hvalue

/-- No part has one of these shapes. -/
def Clear (e : Expr α) : Prop := ∀ part ∈ e.parts, ¬ part.Ambiguous

/-- An expression is clear if it and its children are. -/
theorem clear_iff {e : Expr α} : e.Clear ↔ ¬ e.Ambiguous ∧ ∀ x ∈ e.children, x.Clear := by
  unfold Clear
  rw [parts_eq]
  simp only [List.mem_cons, List.mem_flatMap]
  constructor
  · intro h
    exact ⟨h e (.inl rfl), fun x hx part hpart => h part (.inr ⟨x, hx, hpart⟩)⟩
  · rintro ⟨hself, hchildren⟩ part (rfl | ⟨x, hx, hpart⟩)
    · exact hself
    · exact hchildren x hx part hpart

theorem Clear.of_children {e : Expr α} (h : ∀ x ∈ e.children, x.Clear) (hself : ¬ e.Ambiguous) : e.Clear :=
  clear_iff.2 ⟨hself, h⟩

theorem Clear.child {e x : Expr α} (h : e.Clear) (hx : x ∈ e.children) : x.Clear := (clear_iff.1 h).2 x hx

/-- Notes do not make an expression ambiguous. -/
theorem clear_map {f : α → β} {e : Expr α} : (e.map f).Clear ↔ e.Clear := by
  unfold Clear
  rw [parts_map]
  simp only [List.mem_map, forall_exists_index, and_imp, forall_apply_eq_imp_iff₂, ambiguous_map]

end Expr

/-- The tokens between so many pairs of parentheses. -/
def wrap (n : Nat) (ts : List Token) : List Token :=
  List.replicate n (.symbol .openParen) ++ (ts ++ List.replicate n (.symbol .closeParen))

theorem wrap_zero (ts : List Token) : wrap 0 ts = ts := List.append_nil ts

/-- One more pair of parentheses. -/
theorem wrap_succ (n : Nat) (ts : List Token) : wrap (n + 1) ts = wrap n (inParens ts) := by
  rw [wrap, wrap, inParens, List.replicate_succ', List.replicate_succ]
  simp only [List.append_assoc, List.cons_append, List.nil_append]

theorem operandTokens_eq_wrap {α : Type} (e : Expr α) :
    e.operandTokens = wrap (if e.isBinary then 1 else 0) e.tokens := by
  unfold Expr.operandTokens
  split
  · rw [wrap_succ, wrap_zero]
  · rw [wrap_zero]

theorem core_replicate {t : Token} (h : t.isParen) (n : Nat) : core (List.replicate n t) = [] := by
  induction n with
  | zero => rfl
  | succ n ih => rw [List.replicate_succ, core_paren h, ih]

theorem wrap_append_cons (n : Nat) (as bs : List Token) (x : Token) :
    wrap n (as ++ x :: bs) =
      (List.replicate n (.symbol .openParen) ++ as) ++ x :: (bs ++ List.replicate n (.symbol .closeParen)) := by
  simp [wrap]

/-- Parentheses around a text that starts with another token can be counted. -/
theorem wrap_cons_inj {m n : Nat} {x y : Token} {as bs : List Token} (hx : x.isParen = false)
    (hy : y.isParen = false) (h : wrap m (x :: as) = wrap n (y :: bs)) : m = n ∧ x = y ∧ as = bs := by
  obtain ⟨hopen, hxy, hrest⟩ := cut_unique h hx hy (by rw [core_replicate rfl, core_replicate rfl])
  have hmn : m = n := by simpa using congrArg List.length hopen
  subst hmn
  exact ⟨rfl, hxy, List.append_cancel_right hrest⟩

namespace Grammar

/-- What follows for a tree that is spelled by `ts` if these are the tokens of its source form, up to pairs
of parentheses around them. A binary expression cannot be an operand without parentheses. -/
def ExprTree.Recovered : ExprTree → List Token → Prop
  | .expr level e, ts => ∀ m n, wrap m ts = wrap n e.tokens →
      e.Clear ∧ (e.isBinary → m ≤ n ∧ (m = n → level < operandLevel))
  | .named e, ts => ∀ m n, wrap m ts = wrap n e.tokens → e.Clear ∧ e.isBinary = false
  | .indices es, ts => ts = (es.map Expr.tokens).flatMap inBrackets → ∀ e ∈ es, e.Clear

/-- A literal has no parts that could be misread. -/
theorem recovered_literal {level : Nat} {e : Source.Expr} {ts : List Token} (hchildren : e.children = [])
    (hself : ¬ e.Ambiguous) (hbinary : e.isBinary = false) : (ExprTree.expr level e).Recovered ts := by
  intro m n heq
  refine ⟨.of_children ?_ hself, by simp [hbinary]⟩
  rw [hchildren]
  simp

/-- An operator is recovered with its operands. -/
theorem recovered_binary {level : Nat} {op : BinaryOp} {left right : Source.Expr} {ts us : Phrase} {p : Pos}
    (hop : op ∈ operatorsAt level) (hleft : ExprSpelled (.expr level left) ts)
    (hright : ExprSpelled (.expr (level + 1) right) us)
    (ihleft : (ExprTree.expr level left).Recovered ts.vals)
    (ihright : (ExprTree.expr (level + 1) right).Recovered us.vals) :
    (ExprTree.expr level (.binary left.note op left right)).Recovered
      (Phrase.vals (ts ++ mark (operatorMark op) p :: us)) := by
  intro m n heq
  have hcoreleft : (core left.operandTokens).length ≤ (core ts.vals).length := by
    rw [core_operandTokens]
    exact hleft.core_sublist.length_le
  have hcoreright : (core right.operandTokens).length ≤ (core us.vals).length := by
    rw [core_operandTokens]
    exact hright.core_sublist.length_le
  rw [Expr.tokens_binary, Phrase.vals, List.map_append, List.map_cons, wrap_append_cons, wrap_append_cons]
    at heq
  -- The operator cuts both texts at the same place, since neither operand is short of tokens.
  obtain ⟨hopen, -, hclose⟩ := split_unique heq (isParen_operator op) (isParen_operator op)
    (by rwa [core_append, core_append, core_replicate rfl, core_replicate rfl])
    (by rwa [core_append, core_append, core_replicate rfl, core_replicate rfl, List.append_nil,
      List.append_nil])
  obtain ⟨rfl, hts⟩ := hleft.paired.replicate_inj
    (Expr.paired_operandTokens (Expr.paired_tokens left)) hopen
  have hus := List.append_cancel_right hclose
  rw [operandTokens_eq_wrap] at hts hus
  have hclearleft := (ihleft 0 _ ((wrap_zero _).trans hts)).1
  have hclearright := (ihright 0 _ ((wrap_zero _).trans hus)).1
  refine ⟨.of_children (by simp [Expr.children, hclearleft, hclearright]) (by rintro ⟨⟩), fun _ => ?_⟩
  have hlevel := precedence_le op
  rw [mem_operatorsAt.1 hop] at hlevel
  exact ⟨Nat.le_refl m, fun _ => hlevel⟩

/-- An expression that is spelled by the tokens of its source form is clear. -/
theorem ExprSpelled.recovered {tree : ExprTree} {ts : Phrase} (h : ExprSpelled tree ts) :
    tree.Recovered ts.vals := by
  induction h with
  | binary hop hleft hright ihleft ihright => exact recovered_binary hop hleft hright ihleft ihright
  | higher hlevel h ih =>
    intro m n heq
    obtain ⟨hclear, hbinary⟩ := ih m n heq
    exact ⟨hclear, fun hb => ⟨(hbinary hb).1, fun _ => hlevel⟩⟩
  | int | plusInt | minusInt | true | false | char | str | null =>
    exact recovered_literal rfl (by rintro ⟨⟩) rfl
  | @unary op e ts p h hsign ih =>
    intro m n heq
    rw [Expr.tokens] at heq
    obtain ⟨-, -, htokens⟩ := wrap_cons_inj (isParen_unary op) (isParen_unary op) heq
    obtain ⟨hclear, hbinary⟩ := ih 0 0 (congrArg (wrap 0) htokens)
    refine ⟨.of_children (by simpa [Expr.children] using hclear) ?_, by simp [Expr.isBinary]⟩
    intro hambiguous
    cases hambiguous with
    | operator hb => exact Nat.lt_irrefl _ ((hbinary hb).2 rfl)
    | @sign _ _ value hvalue =>
      apply hsign rfl
      rw [Expr.tokens, signedTokens, if_neg (by omega)] at htokens
      exact ⟨_, List.head?_map.symm.trans (congrArg List.head? htokens)⟩
  | named h ih =>
    intro m n heq
    obtain ⟨hclear, hbinary⟩ := ih m n heq
    exact ⟨hclear, by simp [hbinary]⟩
  | @parens e ts p q h ih =>
    intro m n heq
    have hwrap : wrap (m + 1) ts.vals = wrap n e.tokens := by
      rw [wrap_succ, ← heq, vals_parens]
    obtain ⟨hclear, hbinary⟩ := ih (m + 1) n hwrap
    refine ⟨hclear, fun hb => ?_⟩
    have hle := (hbinary hb).1
    exact ⟨by omega, by omega⟩
  | var =>
    intro m n heq
    exact ⟨.of_children (by simp [Expr.children]) (by rintro ⟨⟩), rfl⟩
  | @elem name e es ts p h ih =>
    intro m n heq
    rw [Expr.tokens, Expr.tokensAll_eq_map] at heq
    obtain ⟨-, -, htokens⟩ := wrap_cons_inj rfl rfl heq
    exact ⟨.of_children (ih htokens) (by rintro ⟨⟩), rfl⟩
  | noIndex =>
    intro heq e he
    cases he
  | @index e es ts us p q hindex hothers ihindex ihothers =>
    intro heq
    rw [Phrase.vals, List.map_cons, List.map_append, List.map_cons, List.map_cons, List.flatMap_cons,
      inBrackets, List.cons_append, List.append_assoc] at heq
    obtain ⟨htokens, -, hrest⟩ := split_unique (List.cons.inj heq).2 rfl rfl
      hindex.core_sublist.length_le hothers.core_sublist.length_le
    have hclear := (ihindex 0 0 (congrArg (wrap 0) htokens)).1
    intro x hx
    rcases List.mem_cons.1 hx with rfl | hx
    · exact hclear
    · exact ihothers hrest x hx

/-- An expression that its tokens spell is clear. -/
theorem ExprSpelled.clear {level : Nat} {e : Source.Expr} {ts : Phrase} (h : ExprSpelled (.expr level e) ts)
    (htokens : ts.vals = e.tokens) : e.Clear :=
  (h.recovered 0 0 (congrArg (wrap 0) htokens)).1

/-- A place is spelled with at least its tokens. -/
theorem PlaceSpelled.core_sublist {e : Source.Expr} {ts : Phrase} (h : PlaceSpelled e ts) :
    (core e.tokens).Sublist (core ts.vals) := by
  induction h with
  | named h => exact h.core_sublist
  | side h ih =>
    rw [Expr.tokens, core_cons rfl]
    exact ih.cons_cons _

/-- A place that its tokens spell is clear. -/
theorem PlaceSpelled.clear {e : Source.Expr} {ts : Phrase} (h : PlaceSpelled e ts)
    (htokens : ts.vals = e.tokens) : e.Clear := by
  induction h with
  | named h => exact (h.recovered 0 0 (congrArg (wrap 0) htokens)).1
  | side h ih =>
    rw [Expr.tokens] at htokens
    have hpair := ih (List.cons.inj htokens).2
    exact .of_children (by simpa [Expr.children] using hpair) (by rintro ⟨⟩)

theorem separated_cons {ts : List Token} {phrases : List (List Token)} (h : phrases ≠ []) :
    separated (ts :: phrases) = ts ++ .symbol .comma :: separated phrases := by
  cases phrases with
  | nil => exact absurd rfl h
  | cons us phrases => rfl

theorem ListSpelled.ne_nil {es : List Source.Expr} {ts : Phrase} (h : ListSpelled es ts) : es ≠ [] := by
  cases h <;> simp

/-- A list is spelled with at least its tokens. -/
theorem ListSpelled.core_sublist {es : List Source.Expr} {ts : Phrase} (h : ListSpelled es ts) :
    (core (separated (es.map Expr.tokens))).Sublist (core ts.vals) := by
  induction h with
  | one h => exact h.core_sublist
  | cons h hothers ih =>
    rw [List.map_cons, separated_cons (by simpa using hothers.ne_nil), core_append, core_cons rfl,
      Phrase.vals, List.map_append, List.map_cons, core_append, core_cons rfl]
    exact h.core_sublist.append (ih.cons_cons _)

/-- Elements that their tokens spell are clear. -/
theorem ListSpelled.clear {es : List Source.Expr} {ts : Phrase} (h : ListSpelled es ts)
    (htokens : ts.vals = separated (es.map Expr.tokens)) : ∀ e ∈ es, e.Clear := by
  induction h with
  | one h =>
    intro e he
    rw [List.mem_singleton.1 he]
    exact h.clear htokens
  | cons h hothers ih =>
    rw [List.map_cons, separated_cons (by simpa using hothers.ne_nil), Phrase.vals, List.map_append,
      List.map_cons] at htokens
    obtain ⟨hfirst, -, hrest⟩ := split_unique htokens rfl rfl h.core_sublist.length_le
      hothers.core_sublist.length_le
    intro x hx
    rcases List.mem_cons.1 hx with rfl | hx
    · exact h.clear hfirst
    · exact ih hrest x hx

theorem ArgsSpelled.core_sublist {es : List Source.Expr} {ts : Phrase} (h : ArgsSpelled es ts) :
    (core (separated (es.map Expr.tokens))).Sublist (core ts.vals) := by
  cases h with
  | none => exact .refl _
  | some h => exact h.core_sublist

theorem ArgsSpelled.clear {es : List Source.Expr} {ts : Phrase} (h : ArgsSpelled es ts)
    (htokens : ts.vals = separated (es.map Expr.tokens)) : ∀ e ∈ es, e.Clear := by
  cases h with
  | none =>
    intro e he
    cases he
  | some h => exact h.clear htokens

theorem inParens_inj {ts us : List Token} (h : inParens ts = inParens us) : ts = us :=
  List.append_cancel_right (List.cons.inj h).2

theorem inBrackets_inj {ts us : List Token} (h : inBrackets ts = inBrackets us) : ts = us :=
  List.append_cancel_right (List.cons.inj h).2

theorem vals_brackets (ts : Phrase) (p q : Pos) :
    Phrase.vals (mark .openBracket p :: (ts ++ [mark .closeBracket q])) = inBrackets ts.vals := by
  rw [Phrase.vals, List.map_cons, List.map_append]
  rfl

theorem vals_call (name : String) (ts : Phrase) (p q r t : Pos) :
    Phrase.vals (word .call p :: ident name q :: mark .openParen r :: (ts ++ [mark .closeParen t])) =
      .keyword .call :: .ident name :: inParens ts.vals := by
  rw [← vals_parens ts r t]
  rfl

theorem vals_newPair (ts us : Phrase) (p q r t : Pos) :
    Phrase.vals (word .newpair p :: mark .openParen q :: (ts ++ mark .comma r :: (us ++ [mark .closeParen t]))) =
      .keyword .newpair :: inParens (Phrase.vals (ts ++ mark .comma r :: us)) := by
  rw [← vals_parens _ q t, List.append_assoc, List.cons_append]
  rfl

/-- A right-hand side is spelled with at least its tokens. -/
theorem RightSpelled.core_sublist {e : Source.Expr} {ts : Phrase} (h : RightSpelled e ts) :
    (core e.tokens).Sublist (core ts.vals) := by
  cases h with
  | expr h => exact h.core_sublist
  | side h =>
    rw [Expr.tokens, core_cons rfl]
    exact h.core_sublist.cons_cons _
  | array h =>
    rw [Expr.tokens, Expr.tokensAll_eq_map, core_inBrackets, vals_brackets, core_inBrackets]
    exact (h.core_sublist.append (.refl _)).cons_cons _
  | newPair hfst hsnd =>
    rw [Expr.tokens, vals_newPair, core_cons rfl, core_cons rfl, core_inParens, core_inParens]
    exact (ListSpelled.cons hfst (.one hsnd)).core_sublist.cons_cons _
  | call h =>
    rw [Expr.tokens, Expr.tokensAll_eq_map, vals_call, core_cons rfl, core_cons rfl, core_cons rfl,
      core_cons rfl, core_inParens, core_inParens]
    exact (h.core_sublist.cons_cons _).cons_cons _

/-- What stands behind an equals sign and is spelled by the tokens of its source form is clear. -/
theorem RightSpelled.clear {e : Source.Expr} {ts : Phrase} (h : RightSpelled e ts)
    (htokens : ts.vals = e.tokens) : e.Clear := by
  cases h with
  | expr h => exact h.clear htokens
  | side h =>
    rw [Expr.tokens] at htokens
    have hpair := h.clear (List.cons.inj htokens).2
    exact .of_children (by simpa [Expr.children] using hpair) (by rintro ⟨⟩)
  | array h =>
    rw [Expr.tokens, Expr.tokensAll_eq_map, vals_brackets] at htokens
    exact .of_children (h.clear (inBrackets_inj htokens)) (by rintro ⟨⟩)
  | newPair hfst hsnd =>
    rw [Expr.tokens, vals_newPair] at htokens
    exact .of_children ((ListSpelled.cons hfst (.one hsnd)).clear (inParens_inj (List.cons.inj htokens).2))
      (by rintro ⟨⟩)
  | call h =>
    rw [Expr.tokens, Expr.tokensAll_eq_map, vals_call] at htokens
    exact .of_children (h.clear (inParens_inj (List.cons.inj (List.cons.inj htokens).2).2)) (by rintro ⟨⟩)

end Grammar

end WaccArm
