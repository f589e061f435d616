import WaccArm.Proofs.Blame.Tracked
import WaccArm.Proofs.Parser.Expr

namespace WaccArm

namespace Grammar

namespace Lang

/-- An expression of a level. -/
def expr (level : Nat) : Lang := fun ts => ∃ e, ExprSpelled (.expr level e) ts

/-- Any number of indices. -/
def indices : Lang := fun ts => ∃ es, ExprSpelled (.indices es) ts

variable {level level' : Nat} {ts us : Phrase} {p : Pos}

/-- An expression that binds tighter may stand wherever one may that does not. -/
theorem expr.lower (h : expr level ts) (hle : level' ≤ level) : expr level' ts :=
  h.imp fun _ h => ExprSpelled.lower h hle

/-- Something can be read at every level. -/
theorem possible_expr (hle : level ≤ operandLevel) : (expr level).Possible :=
  ⟨[word .null .nowhere], expr.lower ⟨_, .null⟩ hle⟩

theorem possible_indices : indices.Possible := ⟨[], _, .noIndex⟩

/-- Operators of one level are taken from the left. -/
theorem expr.binary {op : BinaryOp} (hprecedence : op.precedence = level + 1) (hts : expr level ts)
    (hus : expr (level + 1) us) (p : Pos) : expr level (ts ++ mark (operatorMark op) p :: us) := by
  obtain ⟨left, hleft⟩ := hts
  obtain ⟨right, hright⟩ := hus
  exact ⟨_, .binary (mem_operatorsAt.2 hprecedence) hleft hright⟩

theorem expr_named {name : String} (h : indices ts) : expr operandLevel (ident name p :: ts) := by
  obtain ⟨es, hes⟩ := h
  exact ⟨_, .named (Parser.named_spelled hes)⟩

/-- An operand that starts with digits is only these. -/
theorem eq_int_of_starts {e : Source.Expr} (h : ExprSpelled (.expr operandLevel e) ts) (hint : StartsWithInt ts) :
    ∃ (n : Nat) (value : Int32) (q : Pos), ts = [⟨.int n, q⟩] ∧ value.toInt = n := by
  obtain ⟨n, hn⟩ := hint
  cases h with
  | binary hop => cases hop
  | higher hlevel => exact absurd hlevel (Nat.lt_irrefl _)
  | int hvalue => exact ⟨_, _, _, rfl, hvalue⟩
  | @unary op _ _ _ _ hsign => cases op <;> cases hn
  | named h => cases h <;> cases hn
  | _ => cases hn

/-- A minus before any operand makes an operand. -/
theorem expr.negated (h : expr operandLevel ts) (p : Pos) : expr operandLevel (mark .minus p :: ts) := by
  obtain ⟨e, he⟩ := h
  by_cases hint : StartsWithInt ts
  · obtain ⟨n, value, q, rfl, hvalue⟩ := eq_int_of_starts he hint
    have hhigh := value.toInt_lt
    have hnegated : (Int32.ofInt (-n)).toInt = -n := Int32.toInt_ofInt_of_le (by omega) (by omega)
    exact ⟨_, .minusInt hnegated⟩
  · have hsign : UnaryOp.negate = .negate → ¬ StartsWithInt ts := fun _ => hint
    exact ⟨_, .unary he hsign⟩

/-- An operator in front keeps an operand an operand. -/
theorem expr_unary {op : UnaryOp} (hop : op ≠ .negate) (h : expr operandLevel ts) :
    expr operandLevel (⟨unaryToken op, p⟩ :: ts) := by
  obtain ⟨e, he⟩ := h
  exact ⟨_, .unary he fun heq => absurd heq hop⟩

/-- An expression, and a parenthesis behind it. -/
def parenTail : Lang := (expr 0).followedBy (token (.symbol .closeParen))

/-- Parentheses make an operand of any expression. -/
theorem expr_of_parenTail (h : parenTail ts) : expr operandLevel (mark .openParen p :: ts) := by
  obtain ⟨us, _, rfl, ⟨e, he⟩, q, rfl⟩ := h
  exact ⟨_, .parens he⟩

/-- What follows the bracket that opens an index. -/
def indexTail : Lang := (expr 0).followedBy ((token (.symbol .closeBracket)).followedBy indices)

theorem indices_of_indexTail (h : indexTail ts) : indices (mark .openBracket p :: ts) := by
  obtain ⟨us, _, rfl, ⟨e, he⟩, _, vs, rfl, ⟨q, rfl⟩, es, hes⟩ := h
  exact ⟨_, .index he hes⟩

end Lang

end Grammar

namespace Parser

open Grammar

variable {s : Stream} {min : Nat} {p q last : Pos} {ts : Phrase}

/-- What follows an operand: operators with their right operands. -/
def operatorTail (min : Nat) : Reader := trailer (operators min (.null .nowhere))

/-- The left operand does not matter for where the loop ends, nor for its error. -/
theorem trailer_operators (min : Nat) (left left' : Source.Expr) (s : Stream) :
    trailer (operators min left) s = trailer (operators min left') s := by
  rw [trailer, trailer, operators, operators]
  split
  · rfl
  · rename_i op r h hsome
    refine map_bind_congr ?_
    rintro ⟨right, r₁, h₁⟩
    calc _ = trailer (operators min (.binary left.note op left right)) r₁ := map_bind_ok fun _ => rfl
      _ = trailer (operators min (.binary left'.note op left' right)) r₁ := trailer_operators min _ _ r₁
      _ = Except.map Trailing.rest _ := (map_bind_ok fun _ => rfl).symm
termination_by s.tokens.length

/-- An expression is an operand and the operators behind it. -/
theorem expression_eq (min : Nat) (s : Stream) :
    reader (expression min) s = (reader factor).andThen (operatorTail min) s := by
  rw [reader, expression]
  refine map_bind ?_
  rintro ⟨left, r, h⟩
  calc _ = trailer (operators min left) r := map_bind_ok fun _ => rfl
    _ = operatorTail min r := trailer_operators min left _ r

/-- The loop ends where no operator binds tightly enough. -/
theorem operatorTail_none (h : NoOperator min s) : operatorTail min s = .ok s := by
  rw [operatorTail, trailer, operators, operatorFrom?_eq_none.2 h]
  rfl

/-- One round of the loop reads an operator and its right operand. -/
theorem operatorTail_cons {op : BinaryOp} (hmin : min ≤ op.precedence) (p : Pos) (ts : Phrase) (last : Pos) :
    operatorTail min ⟨mark (operatorMark op) p :: ts, last⟩ =
      (reader (expression (op.precedence + 1))).andThen (operatorTail min) ⟨ts, last⟩ := by
  obtain ⟨h, hsome⟩ := operatorFrom?_of_le hmin ⟨ts, last⟩ p []
  change operatorFrom? min ⟨mark (operatorMark op) p :: ts, last⟩ = some ⟨op, ⟨ts, last⟩, h⟩ at hsome
  rw [operatorTail, trailer, operators, hsome]
  refine map_bind ?_
  rintro ⟨right, r, hr⟩
  calc _ = trailer (operators min _) r := map_bind_ok fun _ => rfl
    _ = operatorTail min r := trailer_operators min _ _ r

theorem factor_int (n : Nat) (p : Pos) (ts : Phrase) (last : Pos) :
    reader factor ⟨⟨.int n, p⟩ :: ts, last⟩ = (intLiteral n p).map fun _ => ⟨ts, last⟩ := by
  rw [reader, factor, next_bind]
  exact map_bind_ok fun _ => rfl

theorem nextInt?_cons (n : Nat) (q : Pos) (ts : Phrase) (last : Pos) :
    ∃ h, (⟨⟨.int n, q⟩ :: ts, last⟩ : Stream).nextInt? = some ⟨n, ⟨ts, last⟩, h⟩ :=
  nextInt?_of_int ⟨ts, last⟩ n q []

theorem factor_minus_int (n : Nat) (p q : Pos) (ts : Phrase) (last : Pos) :
    reader factor ⟨mark .minus p :: ⟨.int n, q⟩ :: ts, last⟩ = (intLiteral (-n) p).map fun _ => ⟨ts, last⟩ := by
  obtain ⟨h, hint⟩ := nextInt?_cons n q ts last
  rw [reader, factor, next_bind]
  simp only [hint]
  exact map_bind_ok fun _ => rfl

theorem factor_plus_int (n : Nat) (p q : Pos) (ts : Phrase) (last : Pos) :
    reader factor ⟨mark .plus p :: ⟨.int n, q⟩ :: ts, last⟩ = (intLiteral n p).map fun _ => ⟨ts, last⟩ := by
  obtain ⟨h, hint⟩ := nextInt?_cons n q ts last
  rw [reader, factor, next_bind]
  simp only [hint]
  exact map_bind_ok fun _ => rfl

/-- A minus that no number follows is an operator. -/
theorem factor_minus (h : ∀ n : Nat, (⟨ts, last⟩ : Stream).peek? ≠ some (.int n)) (p : Pos) :
    reader factor ⟨mark .minus p :: ts, last⟩ = reader factor ⟨ts, last⟩ := by
  rw [reader, factor, next_bind]
  simp only [nextInt?_eq_none.2 h]
  exact map_bind_ok fun _ => rfl

/-- A plus that no number follows is blamed itself. -/
theorem factor_plus (h : ∀ n : Nat, (⟨ts, last⟩ : Stream).peek? ≠ some (.int n)) (p : Pos) :
    reader factor ⟨mark .plus p :: ts, last⟩ = .error ⟨.expression (.symbol .plus), p⟩ := by
  rw [reader, factor, next_bind]
  simp only [nextInt?_eq_none.2 h]
  rfl

theorem factor_ident (name : String) (p : Pos) (ts : Phrase) (last : Pos) :
    reader factor ⟨ident name p :: ts, last⟩ = trailer indices ⟨ts, last⟩ := by
  rw [reader, factor, next_bind]
  exact map_bind_ok fun _ => rfl

theorem factor_paren (p : Pos) (ts : Phrase) (last : Pos) :
    reader factor ⟨mark .openParen p :: ts, last⟩ =
      (reader (expression 0)).andThen (reader (Stream.symbol · .closeParen)) ⟨ts, last⟩ := by
  rw [reader, factor, next_bind]
  refine map_bind ?_
  rintro ⟨e, r, h⟩
  exact map_bind_ok fun _ => rfl

theorem factor_literal {token : Token} {e : Source.Expr} (h : literal? q token = some e) (p : Pos) (ts : Phrase)
    (last : Pos) : reader factor ⟨⟨token, p⟩ :: ts, last⟩ = .ok ⟨ts, last⟩ := by
  rw [reader, factor, next_bind]
  cases token with
  | keyword word =>
    cases word with
    | true_ | false_ | null => rfl
    | _ => cases h
  | char value => rfl
  | str value => rfl
  | symbol | int | ident => cases h

theorem factor_unary {token : Token} {op : UnaryOp} (h : unaryOp? token = some op) (p : Pos) (ts : Phrase)
    (last : Pos) : reader factor ⟨⟨token, p⟩ :: ts, last⟩ = reader factor ⟨ts, last⟩ := by
  rw [reader, factor, next_bind]
  unfold unaryOp? at h
  split at h <;> first | exact map_bind_ok fun _ => rfl | cases h

/-- A token that starts no expression is blamed. -/
theorem factor_other {token : Token} (h : startsExpr token = false) (p : Pos) (ts : Phrase) (last : Pos) :
    reader factor ⟨⟨token, p⟩ :: ts, last⟩ = .error ⟨.expression token, p⟩ := by
  rw [reader, factor, next_bind]
  cases token with
  | symbol mark => cases mark <;> first | rfl | cases h
  | keyword word => cases word <;> first | rfl | cases h
  | _ => cases h

/-- An integer with its sign is taken or blamed as a whole. -/
theorem tracked_intLiteral {L : Lang} {R : Reader} (value : Int) {n : Nat} (hs : s.tokens ≠ [])
    (hn : n ≤ s.tokens.length) (hn' : n ≤ 2) (hL : L.Possible)
    (hread : ∀ literal : Int32, literal.toInt = value → L (s.tokens.take n))
    (h : ∀ s', s.Agrees 2 s' → R s' = (intLiteral value s'.pos).map fun _ => s'.drop n) : Tracked L R s := by
  by_cases hrange : -0x80000000 ≤ value ∧ value < 0x80000000
  · refine .read hn (hread _ (Int32.toInt_ofInt_of_le hrange.1 hrange.2)) fun s' hs' => ?_
    rw [h s' (hs'.mono (by omega)), intLiteral, if_pos hrange]
    rfl
  · obtain ⟨tokens, last⟩ := s
    cases tokens with
    | nil => exact absurd rfl hs
    | cons t ts =>
      have hfault : SyntaxFault.intRange value ≠ .endOfInput := by simp
      refine .blamed (k := 0) hfault rfl hL fun s' hs' => ?_
      obtain ⟨p', ts', last', rfl, -⟩ := hs'.cons
      refine ⟨⟨t.val, p'⟩, rfl, ?_⟩
      rw [h _ hs', intLiteral, if_neg hrange]
      rfl

/-- The sign belongs to the number, which can be too large. -/
theorem tracked_minus_int (n : Nat) (p q : Pos) (ts : Phrase) (last : Pos) :
    Tracked (.expr operandLevel) (reader factor) ⟨mark .minus p :: ⟨.int n, q⟩ :: ts, last⟩ := by
  refine tracked_intLiteral (-n) (n := 2) (by simp) (by simp) (Nat.le_refl 2)
    (Lang.possible_expr (Nat.le_refl _)) (fun literal hliteral => ⟨_, .minusInt hliteral⟩) fun s' hs' => ?_
  obtain ⟨p', ts', last', rfl, hts'⟩ := hs'.cons
  obtain ⟨q', us', last', heq, -⟩ := hts'.cons
  cases heq
  exact factor_minus_int n p' q' us' last'

theorem tracked_plus_int (n : Nat) (p q : Pos) (ts : Phrase) (last : Pos) :
    Tracked (.expr operandLevel) (reader factor) ⟨mark .plus p :: ⟨.int n, q⟩ :: ts, last⟩ := by
  refine tracked_intLiteral n (n := 2) (by simp) (by simp) (Nat.le_refl 2)
    (Lang.possible_expr (Nat.le_refl _)) (fun literal hliteral => ⟨_, .plusInt hliteral⟩) fun s' hs' => ?_
  obtain ⟨p', ts', last', rfl, hts'⟩ := hs'.cons
  obtain ⟨q', us', last', heq, -⟩ := hts'.cons
  cases heq
  exact factor_plus_int n p' q' us' last'

theorem tracked_int (n : Nat) (p : Pos) (ts : Phrase) (last : Pos) :
    Tracked (.expr operandLevel) (reader factor) ⟨⟨.int n, p⟩ :: ts, last⟩ := by
  refine tracked_intLiteral n (n := 1) (by simp) (by simp) (by decide)
    (Lang.possible_expr (Nat.le_refl _)) (fun literal hliteral => ⟨_, .int hliteral⟩) fun s' hs' => ?_
  obtain ⟨p', ts', last', rfl, -⟩ := hs'.cons
  exact factor_int n p' ts' last'

/-- Whether a sign belongs to an integer shows in the next token. -/
theorem int_or_not (s : Stream) :
    (∃ n q ts last, s = ⟨⟨.int n, q⟩ :: ts, last⟩) ∨ ∀ s', s.Agrees 1 s' → ∀ n : Nat, s'.peek? ≠ some (.int n) := by
  obtain ⟨tokens, last⟩ := s
  by_cases hint : ∃ n : Nat, (⟨tokens, last⟩ : Stream).peek? = some (.int n)
  · obtain ⟨n, hn⟩ := hint
    cases tokens with
    | nil => cases hn
    | cons t ts =>
      obtain ⟨token, q⟩ := t
      obtain rfl : token = .int n := Option.some.inj hn
      exact .inl ⟨n, q, ts, last, rfl⟩
  · refine .inr fun s' hs' n hn => hint ⟨n, ?_⟩
    rwa [hs'.peek?] at hn

theorem tracked_literal {token : Token} {e : Source.Expr} (h : literal? p token = some e) :
    Tracked (.expr operandLevel) (reader factor) ⟨⟨token, p⟩ :: ts, last⟩ :=
  tracked_only ⟨e, literal?_spelled h⟩ (factor_literal h)

/-- An operator in front blames what its operand does. -/
theorem tracked_unary {token : Token} {op : UnaryOp} (h : unaryOp? token = some op)
    (hfactor : Tracked (.expr operandLevel) (reader factor) ⟨ts, last⟩) :
    Tracked (.expr operandLevel) (reader factor) ⟨⟨token, p⟩ :: ts, last⟩ := by
  refine tracked_next (fun p' ts' last' _ => factor_unary h p' ts' last') ?_
  obtain ⟨rfl, hne⟩ := unaryOp?_eq_some h
  exact hfactor.mono fun us hus => Lang.expr_unary hne hus

/-- No expression starts with the token that is blamed. -/
theorem tracked_no_expr {token : Token} (h : startsExpr token = false) :
    Tracked (.expr operandLevel) (reader factor) ⟨⟨token, p⟩ :: ts, last⟩ :=
  tracked_blamed (.expression token) (by simp) (Lang.possible_expr (Nat.le_refl _))
    fun p' ts' last' _ => factor_other h p' ts' last'

theorem tracked_minus (hfactor : Tracked (.expr operandLevel) (reader factor) ⟨ts, last⟩) :
    Tracked (.expr operandLevel) (reader factor) ⟨mark .minus p :: ts, last⟩ := by
  rcases int_or_not ⟨ts, last⟩ with ⟨n, q, us, last', hint⟩ | hint
  · cases hint
    exact tracked_minus_int n p q us last
  · refine tracked_next (fun p' ts' last' hts' => factor_minus (hint _ (hts'.mono (by decide))) p') ?_
    exact hfactor.mono fun us hus => hus.negated p

/-- A plus can only go on with a number. -/
theorem tracked_plus : Tracked (.expr operandLevel) (reader factor) ⟨mark .plus p :: ts, last⟩ := by
  rcases int_or_not ⟨ts, last⟩ with ⟨n, q, us, last', hint⟩ | hint
  · cases hint
    exact tracked_plus_int n p q us last
  · exact tracked_blamed (.expression (.symbol .plus)) (by simp) (Lang.possible_expr (Nat.le_refl _))
      fun p' ts' last' hts' => factor_plus (hint _ hts') p'

theorem indices_none (h : s.peek? ≠ some (.symbol .openBracket)) : trailer indices s = .ok s := by
  rw [trailer, indices, nextIf?_eq_none.2 h]
  rfl

theorem indices_cons (p : Pos) (ts : Phrase) (last : Pos) :
    trailer indices ⟨mark .openBracket p :: ts, last⟩ =
      (reader (expression 0)).andThen ((reader (Stream.symbol · .closeBracket)).andThen (trailer indices))
        ⟨ts, last⟩ := by
  obtain ⟨h, hsome⟩ := nextIf?_of_eq ⟨ts, last⟩ (.symbol .openBracket) p []
  change Stream.nextIf? ⟨mark .openBracket p :: ts, last⟩ _ = some ⟨(), ⟨ts, last⟩, h⟩ at hsome
  rw [trailer, indices, hsome]
  refine map_bind ?_
  rintro ⟨e, r₁, h₁⟩
  refine map_bind ?_
  rintro ⟨q, r₂, h₂⟩
  exact map_bind_ok fun _ => rfl

mutual

/-- Reading an expression blames the first token that no expression goes on with. -/
theorem tracked_expression (min : Nat) (s : Stream) (hmin : min ≤ operandLevel + 1) :
    Tracked (.expr (min - 1)) (reader (expression min)) s := by
  refine Tracked.congr ?_ fun s' _ => expression_eq min s'
  refine (tracked_factor s).bind (fun us hus => ⟨[], ?_⟩) fun r us hr _ hus => ?_
  · rw [List.append_nil]
    exact Lang.expr.lower hus (by omega)
  · have hlt := reader_shorter hr
    exact tracked_operators min r hus hmin (noOperator_of_lt (by decide) r)
termination_by 2 * s.tokens.length + 1

/-- The loop blames what cannot follow the operand on its left. -/
theorem tracked_operators (min : Nat) (s : Stream) {level : Nat} {ts : Phrase} (hleft : Lang.expr level ts)
    (hmin : min ≤ level + 1) (hnext : NoOperator (level + 2) s) :
    Tracked (fun us => Lang.expr (min - 1) (ts ++ us)) (operatorTail min) s := by
  cases hsome : operatorFrom? min s with
  | none =>
    refine tracked_nothing ?_ fun s' hs' => operatorTail_none fun op hop => ?_
    · rw [List.append_nil]
      exact hleft.lower (by omega)
    · rw [hs'.peek?] at hop
      exact operatorFrom?_eq_none.1 hsome op hop
  | some parsed =>
    obtain ⟨op, r, hr⟩ := parsed
    obtain ⟨⟨p, hs⟩, hle⟩ := operatorFrom?_eq_some hsome
    obtain ⟨level', hlevel'⟩ := Nat.exists_eq_add_one_of_ne_zero (Nat.pos_iff_ne_zero.1 (precedence_pos op))
    have hlt : op.precedence < level + 2 := by
      refine hnext op ?_
      rw [hs]
      rfl
    have hbound : op.precedence + 1 ≤ operandLevel + 1 := Nat.succ_le_succ (precedence_le op)
    -- With its right operand the operator makes an expression of its own level.
    have hbinary : ∀ us, Lang.expr op.precedence us →
        Lang.expr level' (ts ++ mark (operatorMark op) p :: us) := by
      intro us hus
      rw [hlevel'] at hus
      exact Lang.expr.binary hlevel' (hleft.lower (by omega)) hus p
    refine tracked_step hs (fun p' ts' last' _ => operatorTail_cons hle p' ts' last') ?_
    refine (tracked_expression (op.precedence + 1) r hbound).bind (fun us hus => ⟨[], ?_⟩)
      fun r' us hexpression _ hus => ?_
    · rw [List.append_nil]
      exact (hbinary us hus).lower (by omega)
    · obtain ⟨e, hlt', hok⟩ := reader_eq_ok hexpression
      obtain ⟨-, -, -, hnext'⟩ := expression_sound (op.precedence + 1) r hok hbound
      refine (tracked_operators min r' (hbinary us hus) (by omega) (hnext'.mono (by omega))).mono fun vs hvs => ?_
      rw [List.append_assoc] at hvs
      exact hvs
termination_by 2 * s.tokens.length

/-- Reading an operand blames the first token that no operand goes on with. -/
theorem tracked_factor (s : Stream) : Tracked (.expr operandLevel) (reader factor) s := by
  match s with
  | ⟨[], last⟩ =>
    refine tracked_end (Lang.possible_expr (Nat.le_refl _)) ?_
    rw [reader, factor]
    rfl
  | ⟨⟨token, p⟩ :: ts, last⟩ =>
    cases token with
    | int n => exact tracked_int n p ts last
    | char value => exact tracked_literal rfl
    | str value => exact tracked_literal rfl
    | ident name =>
      refine tracked_next (fun p' ts' last' _ => factor_ident name p' ts' last') ?_
      exact (tracked_indices ⟨ts, last⟩).mono fun us hus => Lang.expr_named hus
    | symbol mark =>
      cases mark with
      | minus => exact tracked_minus (tracked_factor ⟨ts, last⟩)
      | plus => exact tracked_plus
      | not => exact tracked_unary rfl (tracked_factor ⟨ts, last⟩)
      | openParen =>
        refine tracked_next (fun p' ts' last' _ => factor_paren p' ts' last') ?_
        refine Tracked.mono ?_ fun us => Lang.expr_of_parenTail
        exact (tracked_expression 0 ⟨ts, last⟩ (Nat.zero_le _)).andThen (Lang.possible_token _)
          fun r _ => tracked_symbol _ r
      | _ => exact tracked_no_expr rfl
    | keyword word =>
      cases word with
      | true_ | false_ | null => exact tracked_literal rfl
      | len | ord | chr => exact tracked_unary rfl (tracked_factor ⟨ts, last⟩)
      | _ => exact tracked_no_expr rfl
termination_by 2 * s.tokens.length

/-- Reading indices blames the first token that no index goes on with. -/
theorem tracked_indices (s : Stream) : Tracked .indices (trailer indices) s := by
  cases hsome : s.nextIf? (.symbol .openBracket) with
  | none =>
    refine tracked_nothing ⟨_, .noIndex⟩ fun s' hs' => indices_none ?_
    rw [hs'.peek?]
    exact nextIf?_eq_none.1 hsome
  | some parsed =>
    obtain ⟨_, r, hr⟩ := parsed
    obtain ⟨p, hs⟩ := nextIf?_eq_some hsome
    refine tracked_step hs (fun p' ts' last' _ => indices_cons p' ts' last') ?_
    refine Tracked.mono ?_ fun us => Lang.indices_of_indexTail
    have hclose := (Lang.possible_token (.symbol .closeBracket)).followedBy Lang.possible_indices
    refine (tracked_expression 0 r (Nat.zero_le _)).andThen hclose fun r₁ h₁ => ?_
    refine (tracked_symbol _ r₁).andThen Lang.possible_indices fun r₂ h₂ => ?_
    have hlt₁ := reader_shorter h₁
    have hlt₂ := reader_shorter h₂
    exact tracked_indices r₂
termination_by 2 * s.tokens.length

end

end Parser

end WaccArm
