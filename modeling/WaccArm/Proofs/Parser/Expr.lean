import WaccArm.Parser.Expr
import WaccArm.Proofs.Parser.Stream

namespace WaccArm

namespace Grammar

variable {level : Nat} {e : Source.Expr} {ts : Phrase}

theorem mem_operatorsAt {op : BinaryOp} : op ∈ operatorsAt level ↔ op.precedence = level + 1 := by
  match level with
  | 0 | 1 | 2 | 3 | 4 | 5 => cases op <;> simp [operatorsAt, BinaryOp.precedence]
  | n + 6 => cases op <;> simp [operatorsAt, BinaryOp.precedence]

theorem precedence_pos (op : BinaryOp) : 0 < op.precedence := by
  cases op <;> decide

theorem precedence_le (op : BinaryOp) : op.precedence ≤ operandLevel := by
  cases op <;> decide

/-- No operator binds more strongly than an operand is one. -/
theorem ExprSpelled.level_le (h : ExprSpelled (.expr level e) ts) : level ≤ operandLevel := by
  cases h with
  | @binary _ op _ _ _ _ _ hop =>
    have hle := precedence_le op
    rw [mem_operatorsAt.1 hop] at hle
    omega
  | higher hlevel => exact Nat.le_of_lt hlevel
  | _ => exact Nat.le_refl _

/-- An expression of a level is one of each lower level. -/
theorem ExprSpelled.lower (h : ExprSpelled (.expr level e) ts) {level' : Nat} (hle : level' ≤ level) :
    ExprSpelled (.expr level' e) ts := by
  obtain ⟨k, rfl⟩ := Nat.exists_eq_add_of_le hle
  induction k with
  | zero => exact h
  | succ k ih => exact ih (.higher h.level_le h) (Nat.le_add_right ..)

/-- The tokens that an expression can start with. -/
def startsExpr : Token → Bool
  | .int _ | .char _ | .str _ | .ident _ => true
  | .symbol mark => mark = .not ∨ mark = .minus ∨ mark = .plus ∨ mark = .openParen
  | .keyword word =>
    word = .true_ ∨ word = .false_ ∨ word = .null ∨ word = .len ∨ word = .ord ∨ word = .chr

/-- What is no list of indices starts like an expression. -/
def ExprTree.Starts : ExprTree → Phrase → Prop
  | .expr _ _, ts | .named _, ts => Grammar.Starts startsExpr ts
  | .indices _, _ => True

/-- An expression starts with a token that can start one. -/
theorem ExprSpelled.starts {tree : ExprTree} (h : ExprSpelled tree ts) : tree.Starts ts := by
  induction h with
  | binary _ _ _ ih => exact ih.append _
  | higher _ _ ih | named _ ih => exact ih
  | noIndex | index => trivial
  | @unary op => exact ⟨_, _, rfl, by cases op <;> rfl⟩
  | _ => exact ⟨_, _, rfl, rfl⟩

end Grammar

namespace Parser

open Grammar

variable {r s : Stream} {min : Nat} {op : BinaryOp}

/-- Each operator has one symbol. -/
theorem binaryOp?_eq_some {token : Token} : binaryOp? token = some op ↔ token = .symbol (operatorMark op) := by
  constructor
  · intro h
    unfold binaryOp? at h
    split at h <;> cases h <;> rfl
  · rintro rfl
    cases op <;> rfl

theorem operatorMark_inj {op op' : BinaryOp} (h : operatorMark op = operatorMark op') : op = op' := by
  have hop := binaryOp?_eq_some.2 (congrArg Token.symbol h)
  rw [binaryOp?_eq_some.2 rfl] at hop
  exact Option.some.inj hop

/-- No operator follows that binds as strongly as `bound` or more. -/
def NoOperator (bound : Nat) (s : Stream) : Prop :=
  ∀ op, s.peek? = some (.symbol (operatorMark op)) → op.precedence < bound

theorem NoOperator.mono {bound bound' : Nat} (h : NoOperator bound s) (hle : bound ≤ bound') :
    NoOperator bound' s :=
  fun op hop => Nat.lt_of_lt_of_le (h op hop) hle

/-- No operator is above the bound of all. -/
theorem noOperator_of_lt {bound : Nat} (hbound : operandLevel < bound) (s : Stream) : NoOperator bound s :=
  fun op _ => Nat.lt_of_le_of_lt (precedence_le op) hbound

theorem operatorMark_ne (op : BinaryOp) : operatorMark op ≠ .openBracket := by
  cases op <;> nofun

theorem noOperator_mark (op : BinaryOp) (p : Pos) (ts : Phrase) :
    NoOperator (op.precedence + 1) (r.prepend (mark (operatorMark op) p :: ts)) := by
  intro op' hop'
  obtain rfl := operatorMark_inj (Token.symbol.inj (Option.some.inj hop'))
  exact Nat.lt_succ_self _

/-- An operator that is taken binds strongly enough. -/
theorem operatorFrom?_eq_some {h : r.tokens.length < s.tokens.length}
    (hsome : operatorFrom? min s = some ⟨op, r, h⟩) :
    (∃ p, s = r.prepend [mark (operatorMark op) p]) ∧ min ≤ op.precedence := by
  obtain ⟨⟨token, p⟩, rfl, haccept⟩ := nextMap?_eq_some hsome
  obtain ⟨hop, hmin⟩ := Option.filter_eq_some_iff.1 haccept
  obtain rfl := binaryOp?_eq_some.1 hop
  exact ⟨⟨p, rfl⟩, of_decide_eq_true hmin⟩

/-- An operator that binds strongly enough is taken. -/
theorem operatorFrom?_of_le (hmin : min ≤ op.precedence) (r : Stream) (p : Pos) (ts : Phrase) :
    ∃ h, operatorFrom? min (r.prepend (mark (operatorMark op) p :: ts)) = some ⟨op, r.prepend ts, h⟩ := by
  refine nextMap?_of_accept r ts ?_
  rw [binaryOp?_eq_some.2 rfl]
  exact Option.filter_eq_some_iff.2 ⟨rfl, decide_eq_true hmin⟩

/-- The loop ends exactly where no such operator is next. -/
theorem operatorFrom?_eq_none : operatorFrom? min s = none ↔ NoOperator min s := by
  rw [operatorFrom?, nextMap?_eq_none]
  constructor
  · intro h op hop
    have hnone := h _ hop
    rw [binaryOp?_eq_some.2 rfl, Option.filter_eq_none_iff] at hnone
    exact Nat.lt_of_not_le fun hle => hnone op rfl (decide_eq_true hle)
  · intro h token htoken
    refine Option.filter_eq_none_iff.2 fun op hop hmin => ?_
    obtain rfl := binaryOp?_eq_some.1 hop
    have hlt := h op htoken
    have hle : min ≤ op.precedence := of_decide_eq_true hmin
    omega

/-- A literal is read if its value has 32 bits. -/
theorem intLiteral_eq_ok {value : Int} {p : Pos} {e : Source.Expr} :
    intLiteral value p = .ok e ↔ ∃ n : Int32, n.toInt = value ∧ e = .int p n := by
  unfold intLiteral
  constructor
  · intro h
    split at h
    · rename_i hrange
      cases h
      exact ⟨_, Int32.toInt_ofInt_of_le hrange.1 hrange.2, rfl⟩
    · cases h
  · rintro ⟨n, rfl, rfl⟩
    have hlow := n.le_toInt
    have hhigh := n.toInt_lt
    rw [if_pos ⟨hlow, hhigh⟩, Int32.ofInt_toInt]

theorem nextInt?_eq_some {n : Nat} {h : r.tokens.length < s.tokens.length}
    (hsome : s.nextInt? = some ⟨n, r, h⟩) : ∃ p, s = r.prepend [⟨.int n, p⟩] := by
  obtain ⟨⟨token, p⟩, rfl, haccept⟩ := nextMap?_eq_some hsome
  simp only at haccept
  split at haccept
  · cases haccept
    exact ⟨p, rfl⟩
  · cases haccept

theorem nextInt?_of_int (r : Stream) (n : Nat) (p : Pos) (ts : Phrase) :
    ∃ h, (r.prepend (⟨.int n, p⟩ :: ts)).nextInt? = some ⟨n, r.prepend ts, h⟩ :=
  nextMap?_of_accept r ts rfl

/-- A sign belongs to a number only if that is next. -/
theorem nextInt?_eq_none : s.nextInt? = none ↔ ∀ n : Nat, s.peek? ≠ some (.int n) := by
  rw [Stream.nextInt?, nextMap?_eq_none]
  constructor
  · intro h n hn
    cases h _ hn
  · intro h token htoken
    split
    · exact absurd htoken (h _)
    · rfl

theorem literal?_spelled {token : Token} {p : Pos} {e : Source.Expr} (h : literal? p token = some e) :
    ExprSpelled (.expr operandLevel e) [⟨token, p⟩] := by
  cases token with
  | keyword keyword =>
    cases keyword with
    | true_ => cases h; exact .true
    | false_ => cases h; exact .false
    | null => cases h; exact .null
    | _ => cases h
  | char value => cases h; exact .char
  | str value => cases h; exact .str
  | _ => cases h

/-- A minus is not among the operators that are words or marks of their own. -/
theorem unaryOp?_eq_some {token : Token} {op : UnaryOp} (h : unaryOp? token = some op) :
    token = unaryToken op ∧ op ≠ .negate := by
  unfold unaryOp? at h
  split at h <;> cases h <;> exact ⟨rfl, nofun⟩

theorem named_spelled {name : String} {p : Pos} {es : List Source.Expr} {ts : Phrase}
    (h : ExprSpelled (.indices es) ts) : ExprSpelled (.named (named p name es)) (ident name p :: ts) := by
  cases h with
  | noIndex => exact .var
  | index hindex hothers => exact .elem (.index hindex hothers)

mutual

/-- What is read as an expression is spelled like one. -/
theorem expression_sound (min : Nat) (s : Stream) {e : Source.Expr} {r : Stream}
    {h : r.tokens.length < s.tokens.length} (hok : expression min s = .ok ⟨e, r, h⟩)
    (hmin : min ≤ operandLevel + 1) :
    ∃ ts, s = r.prepend ts ∧ ExprSpelled (.expr (min - 1) e) ts ∧ NoOperator min r := by
  rw [expression] at hok
  obtain ⟨⟨left, r₁, h₁⟩, hfactor, hok⟩ := except_bind_eq_ok.1 hok
  obtain ⟨⟨e', r₂, h₂⟩, hoperators, hok⟩ := except_bind_eq_ok.1 hok
  cases hok
  obtain ⟨ts, hs, hleft⟩ := factor_sound s hfactor
  have hnext : NoOperator (operandLevel + 2) r₁ := noOperator_of_lt (by decide) r₁
  obtain ⟨us, hr₁, he, hrest⟩ := operators_sound min left r₁ hoperators hleft hmin hnext
  exact ⟨ts ++ us, Stream.prepend_trans hs hr₁, he, hrest⟩
termination_by 2 * s.tokens.length + 1

/-- The loop builds an expression of its bound from the left operand. -/
theorem operators_sound (min : Nat) (left : Source.Expr) (s : Stream) {e : Source.Expr} {r : Stream}
    {h : r.tokens.length ≤ s.tokens.length} (hok : operators min left s = .ok ⟨e, r, h⟩) {level : Nat}
    {ts : Phrase} (hleft : ExprSpelled (.expr level left) ts) (hmin : min ≤ level + 1)
    (hnext : NoOperator (level + 2) s) :
    ∃ us, s = r.prepend us ∧ ExprSpelled (.expr (min - 1) e) (ts ++ us) ∧ NoOperator min r := by
  rw [operators] at hok
  split at hok
  · rename_i hnone
    cases hok
    refine ⟨[], rfl, ?_, operatorFrom?_eq_none.1 hnone⟩
    rw [List.append_nil]
    exact hleft.lower (by omega)
  · rename_i op r₁ h₁ hsome
    obtain ⟨⟨right, r₂, h₂⟩, hexpression, hok⟩ := except_bind_eq_ok.1 hok
    obtain ⟨⟨e', r₃, h₃⟩, hoperators, hok⟩ := except_bind_eq_ok.1 hok
    cases hok
    obtain ⟨⟨p, hs⟩, hle⟩ := operatorFrom?_eq_some hsome
    -- The operator has a level, and what was read so far is an expression of that level.
    obtain ⟨level', hlevel'⟩ := Nat.exists_eq_succ_of_ne_zero (Nat.pos_iff_ne_zero.1 (precedence_pos op))
    have hlt : op.precedence < level + 2 := by
      refine hnext op ?_
      rw [hs]
      rfl
    have hbound : op.precedence + 1 ≤ operandLevel + 1 := Nat.succ_le_succ (precedence_le op)
    obtain ⟨us, hr₁, hright, hrest⟩ := expression_sound (op.precedence + 1) r₁ hexpression hbound
    rw [Nat.add_sub_cancel, hlevel'] at hright
    have hbinary : ExprSpelled (.expr level' (.binary left.note op left right))
        (ts ++ mark (operatorMark op) p :: us) :=
      .binary (mem_operatorsAt.2 hlevel') (hleft.lower (by omega)) hright
    obtain ⟨vs, hr₂, he, hend⟩ := operators_sound min _ r₂ hoperators hbinary (by omega)
      (hrest.mono (by omega))
    refine ⟨_, Stream.prepend_trans hs (Stream.prepend_trans hr₁ hr₂), ?_, hend⟩
    rw [List.append_assoc] at he
    exact he
termination_by 2 * s.tokens.length

/-- What is read as an operand is spelled like one. -/
theorem factor_sound (s : Stream) {e : Source.Expr} {r : Stream} {h : r.tokens.length < s.tokens.length}
    (hok : factor s = .ok ⟨e, r, h⟩) : ∃ ts, s = r.prepend ts ∧ ExprSpelled (.expr operandLevel e) ts := by
  rw [factor] at hok
  obtain ⟨⟨⟨token, p⟩, r₁, h₁⟩, hnext, hok⟩ := except_bind_eq_ok.1 hok
  have hs := next_eq_ok hnext
  simp only at hok
  split at hok
  · obtain ⟨e', hliteral, hok⟩ := except_bind_eq_ok.1 hok
    cases hok
    obtain ⟨value, hvalue, rfl⟩ := intLiteral_eq_ok.1 hliteral
    exact ⟨_, hs, .int hvalue⟩
  · split at hok
    · rename_i n r₂ h₂ hint
      obtain ⟨e', hliteral, hok⟩ := except_bind_eq_ok.1 hok
      cases hok
      obtain ⟨value, hvalue, rfl⟩ := intLiteral_eq_ok.1 hliteral
      obtain ⟨q, hr₁⟩ := nextInt?_eq_some hint
      exact ⟨_, Stream.prepend_trans hs hr₁, .minusInt hvalue⟩
    · rename_i hint
      obtain ⟨⟨e', r₂, h₂⟩, hfactor, hok⟩ := except_bind_eq_ok.1 hok
      cases hok
      obtain ⟨ts, hr₁, he⟩ := factor_sound r₁ hfactor
      refine ⟨_, Stream.prepend_trans hs hr₁, .unary he fun _ ⟨n, hn⟩ => ?_⟩
      obtain ⟨t, us, rfl, -⟩ := he.starts
      refine nextInt?_eq_none.1 hint n ?_
      rw [hr₁]
      exact hn
  · split at hok
    · rename_i n r₂ h₂ hint
      obtain ⟨e', hliteral, hok⟩ := except_bind_eq_ok.1 hok
      cases hok
      obtain ⟨value, hvalue, rfl⟩ := intLiteral_eq_ok.1 hliteral
      obtain ⟨q, hr₁⟩ := nextInt?_eq_some hint
      exact ⟨_, Stream.prepend_trans hs hr₁, .plusInt hvalue⟩
    · cases hok
  · rename_i name
    obtain ⟨⟨es, r₂, h₂⟩, hindices, hok⟩ := except_bind_eq_ok.1 hok
    cases hok
    obtain ⟨ts, hr₁, hes⟩ := indices_sound r₁ hindices
    exact ⟨_, Stream.prepend_trans hs hr₁, .named (named_spelled hes)⟩
  · obtain ⟨⟨e', r₂, h₂⟩, hexpression, hok⟩ := except_bind_eq_ok.1 hok
    obtain ⟨⟨q, r₃, h₃⟩, hclose, hok⟩ := except_bind_eq_ok.1 hok
    cases hok
    obtain ⟨ts, hr₁, he, -⟩ := expression_sound 0 r₁ hexpression (Nat.zero_le _)
    have hr₁ := Stream.prepend_trans hr₁ (consume_eq_ok hclose)
    exact ⟨_, Stream.prepend_trans hs hr₁, .parens he⟩
  · split at hok
    · rename_i hliteral
      cases hok
      exact ⟨_, hs, literal?_spelled hliteral⟩
    · rename_i op _ hop
      obtain ⟨⟨e', r₂, h₂⟩, hfactor, hok⟩ := except_bind_eq_ok.1 hok
      cases hok
      obtain ⟨ts, hr₁, he⟩ := factor_sound r₁ hfactor
      obtain ⟨rfl, hne⟩ := unaryOp?_eq_some hop
      exact ⟨_, Stream.prepend_trans hs hr₁, .unary he fun heq => absurd heq hne⟩
    · cases hok
termination_by 2 * s.tokens.length

/-- What is read as indices is spelled like them. -/
theorem indices_sound (s : Stream) {es : List Source.Expr} {r : Stream} {h : r.tokens.length ≤ s.tokens.length}
    (hok : indices s = .ok ⟨es, r, h⟩) : ∃ ts, s = r.prepend ts ∧ ExprSpelled (.indices es) ts := by
  rw [indices] at hok
  split at hok
  · cases hok
    exact ⟨[], rfl, .noIndex⟩
  · rename_i r₁ h₁ hsome
    obtain ⟨⟨e, r₂, h₂⟩, hexpression, hok⟩ := except_bind_eq_ok.1 hok
    obtain ⟨⟨q, r₃, h₃⟩, hclose, hok⟩ := except_bind_eq_ok.1 hok
    obtain ⟨⟨es', r₄, h₄⟩, hindices, hok⟩ := except_bind_eq_ok.1 hok
    cases hok
    obtain ⟨p, hs⟩ := nextIf?_eq_some hsome
    obtain ⟨ts, hr₁, he, -⟩ := expression_sound 0 r₁ hexpression (Nat.zero_le _)
    obtain ⟨us, hr₃, hes⟩ := indices_sound r₃ hindices
    have hr₁ := Stream.prepend_trans hr₁ (Stream.prepend_trans (consume_eq_ok hclose) hr₃)
    exact ⟨_, Stream.prepend_trans hs hr₁, .index he hes⟩
termination_by 2 * s.tokens.length

end

/-- Nothing follows that an expression could go on with. -/
structure Ends (s : Stream) : Prop where
  bracket : s.peek? ≠ some (.symbol .openBracket)
  operator : ∀ op, s.peek? ≠ some (.symbol (operatorMark op))

theorem ends_cons {t : Located Token} {ts : Phrase} (hbracket : t.val ≠ .symbol .openBracket)
    (hop : binaryOp? t.val = none) : Ends (r.prepend (t :: ts)) where
  bracket h := hbracket (Option.some.inj h)
  operator op h := by
    rw [Option.some.inj h, binaryOp?_eq_some.2 rfl] at hop
    cases hop

theorem Ends.noOperator (h : Ends s) (bound : Nat) : NoOperator bound s :=
  fun op hop => absurd hop (h.operator op)

/-- The loop ends where no operator follows. -/
theorem trails_operators (h : NoOperator min s) (e : Source.Expr) : Trails (operators min e s) e s := by
  rw [operators, operatorFrom?_eq_none.2 h]
  exact ⟨_, rfl⟩

theorem trails_indices (h : s.peek? ≠ some (.symbol .openBracket)) : Trails (indices s) [] s := by
  rw [indices, nextIf?_eq_none.2 h]
  exact ⟨_, rfl⟩

/-- A phrase is read off the front of a stream. An expression is read up to its end if the next operator
does not bind more strongly than its level, and the loop goes on behind it. -/
def Read (r : Stream) : ExprTree → Phrase → Prop
  | .expr level e, ts =>
    (level = operandLevel → ∀ us, (r.prepend us).peek? ≠ some (.symbol .openBracket) →
      Reads (factor (r.prepend (ts ++ us))) e (r.prepend us)) ∧
    ∀ us min e' r', min ≤ level + 1 → NoOperator (level + 2) (r.prepend us) →
      (r.prepend us).peek? ≠ some (.symbol .openBracket) → Trails (operators min e (r.prepend us)) e' r' →
      Reads (expression min (r.prepend (ts ++ us))) e' r'
  | .named e, ts => ∃ name p es ts', ts = ident name p :: ts' ∧ e = named p name es ∧
    ∀ us, (r.prepend us).peek? ≠ some (.symbol .openBracket) →
      Trails (indices (r.prepend (ts' ++ us))) es (r.prepend us)
  | .indices es, ts => ∀ us, (r.prepend us).peek? ≠ some (.symbol .openBracket) →
      Trails (indices (r.prepend (ts ++ us))) es (r.prepend us)

/-- An operand that is read is an expression of every bound. -/
theorem read_operand {e : Source.Expr} {ts : Phrase}
    (h : ∀ us, (r.prepend us).peek? ≠ some (.symbol .openBracket) →
      Reads (factor (r.prepend (ts ++ us))) e (r.prepend us)) : Read r (.expr operandLevel e) ts := by
  refine ⟨fun _ => h, fun us min e' r' _ _ hus hoperators => ?_⟩
  rw [expression]
  refine Reads.bind (h us hus) fun _ => ?_
  exact Trails.bind hoperators fun _ => ⟨_, rfl⟩

/-- An expression ends where no operator follows. -/
theorem Read.expression {e : Source.Expr} {ts us : Phrase} (h : Read r (.expr 0 e) ts)
    (hus : Ends (r.prepend us)) : Reads (Parser.expression 0 (r.prepend (ts ++ us))) e (r.prepend us) := by
  refine h.2 us 0 e _ (Nat.zero_le _) (hus.noOperator _) hus.bracket ?_
  exact trails_operators (hus.noOperator _) e

/-- The loop takes the operator behind its left operand. -/
theorem read_binary {level : Nat} {left right : Source.Expr} {ts us : Phrase} {p : Pos}
    (hop : op ∈ operatorsAt level) (hleft : Read r (.expr level left) ts)
    (hright : Read r (.expr (level + 1) right) us) :
    Read r (.expr level (.binary left.note op left right)) (ts ++ mark (operatorMark op) p :: us) := by
  have hprecedence := mem_operatorsAt.1 hop
  constructor
  · rintro rfl
    cases hop
  · intro vs min e' r' hmin hnext hvs hoperators
    rw [List.append_assoc]
    -- The left operand ends at the operator, the right one where the whole expression does.
    refine hleft.2 _ min e' r' hmin ?_ ?_ ?_
    · have hmark := @noOperator_mark r op p (us ++ vs)
      rw [hprecedence] at hmark
      exact hmark
    · exact fun h => operatorMark_ne op (Token.symbol.inj (Option.some.inj h))
    · have hexpression : Reads (expression (op.precedence + 1) (r.prepend (us ++ vs))) right (r.prepend vs) := by
        rw [hprecedence]
        exact hright.2 vs _ right _ (Nat.le_refl _) (hnext.mono (Nat.le_succ _)) hvs
          (trails_operators hnext right)
      rw [← hprecedence] at hmin
      obtain ⟨h₁, hsome⟩ := operatorFrom?_of_le hmin r p (us ++ vs)
      rw [List.cons_append, operators, hsome]
      refine Reads.bindTrails hexpression fun h₂ => ?_
      exact Trails.bindTrails hoperators fun _ => ⟨_, rfl⟩

/-- What is spelled like an expression is read as it. -/
theorem read_of_spelled {tree : ExprTree} {ts : Phrase} (h : ExprSpelled tree ts) : Read r tree ts := by
  induction h with
  | binary hop _ _ ihl ihr => exact read_binary hop ihl ihr
  | higher hlevel _ ih =>
    refine ⟨fun heq => absurd heq (Nat.ne_of_lt hlevel), fun us min e' r' hmin hnext hus hoperators => ?_⟩
    exact ih.2 us min e' r' (by omega) (hnext.mono (Nat.le_succ _)) hus hoperators
  | int hvalue =>
    refine read_operand fun us _ => ?_
    rw [List.cons_append, factor]
    refine Reads.bind (reads_next ..) fun h => ?_
    simp only [intLiteral_eq_ok.2 ⟨_, hvalue, rfl⟩]
    exact ⟨_, rfl⟩
  | @plusInt n _ p q hvalue =>
    refine read_operand fun us _ => ?_
    obtain ⟨h₂, hint⟩ := nextInt?_of_int r n q us
    rw [List.cons_append, factor]
    refine Reads.bind (reads_next ..) fun h => ?_
    simp only [List.cons_append, List.nil_append, hint, intLiteral_eq_ok.2 ⟨_, hvalue, rfl⟩]
    exact ⟨_, rfl⟩
  | @minusInt n _ p q hvalue =>
    refine read_operand fun us _ => ?_
    obtain ⟨h₂, hint⟩ := nextInt?_of_int r n q us
    rw [List.cons_append, factor]
    refine Reads.bind (reads_next ..) fun h => ?_
    simp only [List.cons_append, List.nil_append, hint, intLiteral_eq_ok.2 ⟨_, hvalue, rfl⟩]
    exact ⟨_, rfl⟩
  | true | false | char | str | null =>
    refine read_operand fun us _ => ?_
    rw [List.cons_append, factor]
    exact Reads.bind (reads_next ..) fun h => ⟨_, rfl⟩
  | @unary op e ts p he hsign ih =>
    refine read_operand fun us hus => ?_
    have hoperand := ih.1 rfl us hus
    rw [List.cons_append, factor]
    refine Reads.bind (reads_next ..) fun h => ?_
    cases op with
    | negate =>
      have hnone : (r.prepend (ts ++ us)).nextInt? = none := by
        refine nextInt?_eq_none.2 fun n hn => hsign rfl ⟨n, ?_⟩
        obtain ⟨t, ts', rfl, -⟩ := he.starts
        exact hn
      simp only [unaryToken, hnone]
      exact Reads.bind hoperand fun _ => ⟨_, rfl⟩
    | not | len | ord | chr => exact Reads.bind hoperand fun _ => ⟨_, rfl⟩
  | named _ ih =>
    obtain ⟨name, p, es, ts', rfl, rfl, ih⟩ := ih
    refine read_operand fun us hus => ?_
    rw [List.cons_append, factor]
    refine Reads.bind (reads_next ..) fun h => ?_
    exact Trails.bind (ih us hus) fun _ => ⟨_, rfl⟩
  | parens _ ih =>
    refine read_operand fun us hus => ?_
    rw [List.cons_append, List.append_assoc, factor]
    refine Reads.bind (reads_next ..) fun h => ?_
    refine Reads.bind (ih.expression (ends_cons nofun rfl)) fun h₁ => ?_
    exact Reads.bind (reads_symbol ..) fun h₂ => ⟨_, rfl⟩
  | var => exact ⟨_, _, [], [], rfl, rfl, fun us => trails_indices⟩
  | elem _ ih => exact ⟨_, _, _, _, rfl, rfl, ih⟩
  | noIndex => exact fun us => trails_indices
  | @index e es ts us p q _ _ ihe ihes =>
    intro vs hvs
    obtain ⟨h₁, hsome⟩ := nextIf?_of_eq r (.symbol .openBracket) p (ts ++ mark .closeBracket q :: (us ++ vs))
    rw [List.cons_append, List.append_assoc, List.cons_append, indices, hsome]
    refine Reads.bindTrails (ihe.expression (ends_cons nofun rfl)) fun h₂ => ?_
    refine Reads.bindTrails (reads_symbol ..) fun h₃ => ?_
    exact Trails.bindTrails (ihes vs hvs) fun _ => ⟨_, rfl⟩

end Parser

end WaccArm
