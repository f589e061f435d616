import WaccArm.Proofs.Emission.Run
import WaccArm.Parser.Program
import WaccArm.Proofs.Parser.Type
import WaccArm.Proofs.Positions.Tree

namespace WaccArm

variable {move : Pos → Pos}

namespace Stream

/-- The stream with its tokens at other places. -/
def moved (move : Pos → Pos) (s : Stream) : Stream :=
  ⟨s.tokens.map (Located.moved move), move s.last⟩

theorem peek?_moved (s : Stream) : (s.moved move).peek? = s.peek? := by
  simp only [peek?, peekAt?, moved, List.getElem?_map, Option.map_map]
  rfl

theorem pos_moved (s : Stream) : (s.moved move).pos = move s.pos := by
  obtain ⟨tokens, last⟩ := s
  cases tokens <;> rfl

/-- A fault is blamed on the place that has been moved. -/
theorem unexpected_moved (s : Stream) (f : Token → SyntaxFault) :
    (s.moved move).unexpected f = (s.unexpected f).moved move := by
  obtain ⟨tokens, last⟩ := s
  cases tokens <;> rfl

end Stream

namespace Parser

variable {α β γ δ : Type} {s s' : Stream}

/-- Two outcomes are the same up to places: both are read and stand in a relation, or both are the same
fault. -/
inductive Moves (move : Pos → Pos) (R : α → β → Prop) :
    Except SyntaxError α → Except SyntaxError β → Prop
  | ok {a : α} {b : β} (h : R a b) : Moves move R (.ok a) (.ok b)
  | error (e : SyntaxError) : Moves move R (.error e) (.error (e.moved move))

/-- Steps that hand places on do so together. -/
theorem Moves.bind {R : α → β → Prop} {Q : γ → δ → Prop} {x : Except SyntaxError α}
    {y : Except SyntaxError β} {k : α → Except SyntaxError γ} {l : β → Except SyntaxError δ}
    (h : Moves move R x y) (hk : ∀ a b, R a b → Moves move Q (k a) (l b)) :
    Moves move Q (x >>= k) (y >>= l) := by
  cases h with
  | ok h => exact hk _ _ h
  | error e => exact .error e

theorem Moves.ite {R : α → β → Prop} {c : Prop} [Decidable c] {x x' : Except SyntaxError α}
    {y y' : Except SyntaxError β} (h : c → Moves move R x y) (h' : ¬ c → Moves move R x' y') :
    Moves move R (if c then x else x') (if c then y else y') := by
  by_cases hc : c
  · rw [if_pos hc, if_pos hc]
    exact h hc
  · rw [if_neg hc, if_neg hc]
    exact h' hc

/-- What is read and what is left are the same up to places. -/
def Moved (move : Pos → Pos) (value : α → β) (a : Parsed α s) (b : Parsed β s') : Prop :=
  b.value = value a.value ∧ b.rest = a.rest.moved move

/-- The same, for what may have taken no tokens. -/
def MovedTrailing (move : Pos → Pos) (value : α → β) (a : Trailing α s) (b : Trailing β s') : Prop :=
  b.value = value a.value ∧ b.rest = a.rest.moved move

/-- Reading goes on in streams that are the same up to places. -/
theorem Moves.read {value : α → β} {Q : γ → δ → Prop} {x : Parse α s} {y : Parse β s'}
    {k : Parsed α s → Except SyntaxError γ} {l : Parsed β s' → Except SyntaxError δ}
    (h : Moves move (Moved move value) x y)
    (hk : ∀ a r h h', Moves move Q (k ⟨a, r, h⟩) (l ⟨value a, r.moved move, h'⟩)) :
    Moves move Q (x >>= k) (y >>= l) := by
  refine h.bind ?_
  rintro ⟨a, r, h⟩ ⟨b, r', h'⟩ ⟨hvalue, hrest⟩
  obtain rfl : b = value a := hvalue
  obtain rfl : r' = r.moved move := hrest
  exact hk a r h h'

/-- A reader behind one that may take nothing. -/
theorem Moves.trail {value : α → β} {Q : γ → δ → Prop} {x : Except SyntaxError (Trailing α s)}
    {y : Except SyntaxError (Trailing β s')} {k : Trailing α s → Except SyntaxError γ}
    {l : Trailing β s' → Except SyntaxError δ} (h : Moves move (MovedTrailing move value) x y)
    (hk : ∀ a r h h', Moves move Q (k ⟨a, r, h⟩) (l ⟨value a, r.moved move, h'⟩)) :
    Moves move Q (x >>= k) (y >>= l) := by
  refine h.bind ?_
  rintro ⟨a, r, h⟩ ⟨b, r', h'⟩ ⟨hvalue, hrest⟩
  obtain rfl : b = value a := hvalue
  obtain rfl : r' = r.moved move := hrest
  exact hk a r h h'

theorem next_moved (s : Stream) :
    Moves move (Moved move (Located.moved move)) s.next (s.moved move).next := by
  obtain ⟨tokens, last⟩ := s
  cases tokens with
  | nil => exact .error _
  | cons t tokens => exact .ok ⟨rfl, rfl⟩

/-- The token that is taken has its place moved. -/
theorem consume_moved (s : Stream) (expected : Token) :
    Moves move (Moved move move) (s.consume expected) ((s.moved move).consume expected) :=
  (next_moved s).read fun _ _ _ _ => .ite (fun _ => .ok ⟨rfl, rfl⟩) fun _ => .error _

theorem identifier_moved (s : Stream) :
    Moves move (Moved move id) s.identifier (s.moved move).identifier := by
  refine (next_moved s).read fun ⟨token, p⟩ r h h' => ?_
  cases token with
  | ident name => exact .ok ⟨rfl, rfl⟩
  | _ => exact .error _

theorem peek_moved (s : Stream) : Moves move Eq s.peek (s.moved move).peek := by
  rw [Stream.peek, Stream.peek, Stream.peek?_moved]
  cases s.peek? with
  | none => exact .error _
  | some token => exact .ok rfl

/-- A token that may be there is there or not, wherever it stands. -/
theorem nextMap?_moved (s : Stream) (accept : Token → Option α) :
    (s.nextMap? accept = none ∧ (s.moved move).nextMap? accept = none) ∨
      ∃ a r h h', s.nextMap? accept = some ⟨a, r, h⟩ ∧
        (s.moved move).nextMap? accept = some ⟨a, r.moved move, h'⟩ := by
  obtain ⟨tokens, last⟩ := s
  cases tokens with
  | nil => exact .inl ⟨rfl, rfl⟩
  | cons t tokens =>
    have hnext : ∀ (t : Located Token) tokens last, Stream.nextMap? ⟨t :: tokens, last⟩ accept =
        (accept t.val).map fun value => ⟨value, ⟨tokens, last⟩, Nat.lt_succ_self _⟩ := fun _ _ _ => rfl
    rw [Stream.moved, List.map_cons, hnext, hnext, Located.val_moved]
    cases accept t.val with
    | none => exact .inl ⟨rfl, rfl⟩
    | some a => exact .inr ⟨a, _, _, _, rfl, rfl⟩

theorem nextIf?_moved (s : Stream) (token : Token) :
    (s.nextIf? token = none ∧ (s.moved move).nextIf? token = none) ∨
      ∃ u r h h', s.nextIf? token = some ⟨u, r, h⟩ ∧
        (s.moved move).nextIf? token = some ⟨u, r.moved move, h'⟩ :=
  nextMap?_moved s _

theorem brackets_moved (s : Stream) : MovedTrailing move id (brackets s) (brackets (s.moved move)) := by
  fun_induction brackets s with
  | case1 s p q tokens hs dims rest bound heq ih =>
    rw [heq] at ih
    have htokens : (s.moved move).tokens = ⟨.symbol .openBracket, move p⟩ ::
        ⟨.symbol .closeBracket, move q⟩ :: tokens.map (Located.moved move) := by
      rw [Stream.moved, hs]
      rfl
    fun_cases brackets (s.moved move) with
    | case1 _ _ tokens' hs' dims' rest' bound' heq' =>
      obtain rfl : tokens.map (Located.moved move) = tokens' :=
        (List.cons.inj (List.cons.inj (htokens.symm.trans hs')).2).2
      obtain ⟨hdims, hrest⟩ : MovedTrailing move id ⟨dims, rest, bound⟩ ⟨dims', rest', bound'⟩ := heq' ▸ ih
      exact ⟨congrArg (· + 1) hdims, hrest⟩
    | case2 h => exact absurd htokens (h _ _ _)
  | case2 s hs =>
    fun_cases brackets (s.moved move) with
    | case1 p q tokens' hs' =>
      obtain ⟨⟨token, p⟩, rest, hrest, hfirst, htail⟩ := List.map_eq_cons_iff.1 hs'
      obtain ⟨⟨token', q⟩, rest', rfl, hsecond, -⟩ := List.map_eq_cons_iff.1 htail
      cases hfirst
      cases hsecond
      exact absurd hrest (hs p q rest')
    | case2 => exact ⟨rfl, rfl⟩

mutual

/-- Types have no places. -/
theorem typeExpr_moved (s : Stream) :
    Moves move (Moved move id) (typeExpr s) (typeExpr (s.moved move)) := by
  rw [typeExpr, typeExpr]
  refine (next_moved s).read fun ⟨token, p⟩ r h h' => ?_
  simp only [Located.val_moved]
  cases baseType? token with
  | some base =>
    obtain ⟨hdims, hrest⟩ := @brackets_moved move r
    exact .ok ⟨congrArg (arrayOf base) hdims, hrest⟩
  | none =>
    refine .ite (fun _ => ?_) fun _ => .error _
    refine (consume_moved r _).read fun _ r₁ h₁ h₁' => ?_
    refine (pairSide_moved r₁).read fun fst r₂ h₂ h₂' => ?_
    refine (consume_moved r₂ _).read fun _ r₃ h₃ h₃' => ?_
    refine (pairSide_moved r₃).read fun snd r₄ h₄ h₄' => ?_
    refine (consume_moved r₄ _).read fun _ r₅ h₅ h₅' => ?_
    obtain ⟨hdims, hrest⟩ := @brackets_moved move r₅
    exact .ok ⟨congrArg (arrayOf (.pair fst snd)) hdims, hrest⟩
termination_by 2 * s.tokens.length

theorem pairSide_moved (s : Stream) :
    Moves move (Moved move id) (pairSide s) (pairSide (s.moved move)) := by
  rw [pairSide, pairSide]
  obtain ⟨hnone, hnone'⟩ | ⟨_, r, h, h', hsome, hsome'⟩ := @nextIf?_moved move s (.keyword .pair)
  · rw [hnone, hnone']
    exact (typeExpr_moved s).read fun type r h h' => .ok ⟨rfl, rfl⟩
  · rw [hsome, hsome']
    simp only [Stream.peek?_moved]
    refine .ite (fun _ => ?_) fun _ => ?_
    · rw [Stream.unexpected_moved]
      exact .error _
    · obtain ⟨hdims, hrest⟩ := @brackets_moved move r
      refine .ok ⟨?_, hrest⟩
      simp only [hdims, id]
termination_by 2 * s.tokens.length + 1

end

theorem nextInt?_moved (s : Stream) :
    (s.nextInt? = none ∧ (s.moved move).nextInt? = none) ∨
      ∃ n r h h', s.nextInt? = some ⟨n, r, h⟩ ∧ (s.moved move).nextInt? = some ⟨n, r.moved move, h'⟩ :=
  nextMap?_moved s _

theorem intLiteral_moved (value : Int) (p : Pos) :
    Moves move (fun e e' => e' = e.map move) (intLiteral value p) (intLiteral value (move p)) :=
  .ite (fun _ => .ok rfl) fun _ => .error _

/-- A literal gets the place of its token. -/
theorem literal?_moved (p : Pos) (token : Token) :
    literal? (move p) token = (literal? p token).map (Expr.map move) := by
  cases token with
  | keyword word => cases word <;> rfl
  | _ => rfl

theorem named_moved (p : Pos) (name : String) (es : List Source.Expr) :
    named (move p) name (es.map (Expr.map move)) = (named p name es).map move := by
  cases es with
  | nil => rfl
  | cons e es => simp [named, Expr.map]

mutual

/-- Reading an expression commutes with moving places. -/
theorem expression_moved (min : Nat) (s : Stream) :
    Moves move (Moved move (Expr.map move)) (expression min s) (expression min (s.moved move)) := by
  rw [expression, expression]
  refine (factor_moved s).read fun left r h h' => ?_
  exact (operators_moved min left r).trail fun e r' h₁ h₁' => .ok ⟨rfl, rfl⟩
termination_by 2 * s.tokens.length + 1

theorem operators_moved (min : Nat) (left : Source.Expr) (s : Stream) :
    Moves move (MovedTrailing move (Expr.map move)) (operators min left s)
      (operators min (left.map move) (s.moved move)) := by
  rw [operators, operators]
  obtain ⟨hnone, hnone'⟩ | ⟨op, r, h, h', hsome, hsome'⟩ :=
    @nextMap?_moved move _ s fun t => (binaryOp? t).filter fun op => min ≤ op.precedence
  · rw [operatorFrom?, operatorFrom?, hnone, hnone']
    exact .ok ⟨rfl, rfl⟩
  · rw [operatorFrom?, operatorFrom?, hsome, hsome']
    refine (expression_moved (op.precedence + 1) r).read fun right r₁ h₁ h₁' => ?_
    have hothers := operators_moved min (.binary left.note op left right) r₁
    rw [Expr.map, ← Expr.note_map move left] at hothers
    exact hothers.trail fun e r₂ h₂ h₂' => .ok ⟨rfl, rfl⟩
termination_by 2 * s.tokens.length

theorem factor_moved (s : Stream) :
    Moves move (Moved move (Expr.map move)) (factor s) (factor (s.moved move)) := by
  rw [factor, factor]
  refine (next_moved s).read fun ⟨token, p⟩ r h h' => ?_
  simp only [Located.moved]
  split
  · refine (intLiteral_moved _ p).bind ?_
    rintro e _ rfl
    exact .ok ⟨rfl, rfl⟩
  · obtain ⟨hnone, hnone'⟩ | ⟨n, r₁, h₁, h₁', hsome, hsome'⟩ := @nextInt?_moved move r
    · simp only [hnone, hnone']
      exact (factor_moved r).read fun e r₁ h₁ h₁' => .ok ⟨rfl, rfl⟩
    · simp only [hsome, hsome']
      refine (intLiteral_moved _ p).bind ?_
      rintro e _ rfl
      exact .ok ⟨rfl, rfl⟩
  · obtain ⟨hnone, hnone'⟩ | ⟨n, r₁, h₁, h₁', hsome, hsome'⟩ := @nextInt?_moved move r
    · simp only [hnone, hnone']
      exact .error _
    · simp only [hsome, hsome']
      refine (intLiteral_moved _ p).bind ?_
      rintro e _ rfl
      exact .ok ⟨rfl, rfl⟩
  · rename_i name
    refine (indices_moved r).trail fun es r₁ h₁ h₁' => ?_
    exact .ok ⟨named_moved p name es, rfl⟩
  · refine (expression_moved 0 r).read fun e r₁ h₁ h₁' => ?_
    exact (consume_moved r₁ _).read fun _ r₂ h₂ h₂' => .ok ⟨rfl, rfl⟩
  · simp only [literal?_moved]
    cases literal? p token with
    | some e => exact .ok ⟨rfl, rfl⟩
    | none =>
      cases unaryOp? token with
      | some op => exact (factor_moved r).read fun e r₁ h₁ h₁' => .ok ⟨rfl, rfl⟩
      | none => exact .error _
termination_by 2 * s.tokens.length

theorem indices_moved (s : Stream) :
    Moves move (MovedTrailing move (List.map (Expr.map move))) (indices s) (indices (s.moved move)) := by
  rw [indices, indices]
  obtain ⟨hnone, hnone'⟩ | ⟨_, r, h, h', hsome, hsome'⟩ := @nextIf?_moved move s (.symbol .openBracket)
  · rw [hnone, hnone']
    exact .ok ⟨rfl, rfl⟩
  · rw [hsome, hsome']
    refine (expression_moved 0 r).read fun e r₁ h₁ h₁' => ?_
    refine (consume_moved r₁ _).read fun _ r₂ h₂ h₂' => ?_
    exact (indices_moved r₂).trail fun es r₃ h₃ h₃' => .ok ⟨rfl, rfl⟩
termination_by 2 * s.tokens.length

end

theorem place_moved (s : Stream) :
    Moves move (Moved move (Expr.map move)) (place s) (place (s.moved move)) := by
  rw [place, place]
  refine (next_moved s).read fun ⟨token, p⟩ r h h' => ?_
  simp only [Located.moved]
  split
  · exact (place_moved r).read fun pair r₁ h₁ h₁' => .ok ⟨rfl, rfl⟩
  · rename_i name _
    refine (indices_moved r).trail fun es r₁ h₁ h₁' => ?_
    exact .ok ⟨named_moved p name es, rfl⟩
  · exact .error _
termination_by s.tokens.length

theorem commaSeparated_moved (close : Symbol) (s : Stream) :
    Moves move (Moved move (List.map (Expr.map move))) (commaSeparated close s)
      (commaSeparated close (s.moved move)) := by
  rw [commaSeparated, commaSeparated]
  refine (expression_moved 0 s).read fun e r₁ h₁ h₁' => ?_
  refine (next_moved r₁).read fun t r₂ h₂ h₂' => ?_
  refine .ite (fun _ => ?_) fun _ => .ite (fun _ => .ok ⟨rfl, rfl⟩) fun _ => .error _
  exact (commaSeparated_moved close r₂).read fun es r₃ h₃ h₃' => .ok ⟨rfl, rfl⟩
termination_by s.tokens.length

theorem commaList_moved (close : Symbol) (s : Stream) :
    Moves move (Moved move (List.map (Expr.map move))) (commaList close s)
      (commaList close (s.moved move)) := by
  rw [commaList, commaList]
  obtain ⟨hnone, hnone'⟩ | ⟨_, r, h, h', hsome, hsome'⟩ := @nextIf?_moved move s (.symbol close)
  · rw [hnone, hnone']
    exact commaSeparated_moved close s
  · rw [hsome, hsome']
    exact .ok ⟨rfl, rfl⟩

/-- Reading a right-hand side commutes with moving places. -/
theorem rightSide_moved (s : Stream) :
    Moves move (Moved move (Expr.map move)) (rightSide s) (rightSide (s.moved move)) := by
  rw [rightSide, rightSide, Stream.pos_moved]
  refine (peek_moved s).bind ?_
  rintro token _ rfl
  split
  · exact place_moved s
  · refine (next_moved s).read fun t r h h' => ?_
    refine (commaList_moved _ r).read fun es r₁ h₁ h₁' => .ok ⟨?_, rfl⟩
    rw [Expr.map, Expr.mapAll_eq_map]
  · refine (next_moved s).read fun t r h h' => ?_
    refine (consume_moved r _).read fun _ r₁ h₁ h₁' => ?_
    refine (expression_moved 0 r₁).read fun fst r₂ h₂ h₂' => ?_
    refine (consume_moved r₂ _).read fun _ r₃ h₃ h₃' => ?_
    refine (expression_moved 0 r₃).read fun snd r₄ h₄ h₄' => ?_
    exact (consume_moved r₄ _).read fun _ r₅ h₅ h₅' => .ok ⟨rfl, rfl⟩
  · refine (next_moved s).read fun t r h h' => ?_
    refine (identifier_moved r).read fun name r₁ h₁ h₁' => ?_
    refine (consume_moved r₁ _).read fun _ r₂ h₂ h₂' => ?_
    refine (commaList_moved _ r₂).read fun args r₃ h₃ h₃' => .ok ⟨?_, rfl⟩
    rw [Expr.map, Expr.mapAll_eq_map]
    rfl
  · exact expression_moved 0 s

theorem assigned_moved (s : Stream) :
    Moves move (Moved move (Expr.map move)) (assigned s) (assigned (s.moved move)) := by
  refine (consume_moved s _).read fun _ r h h' => ?_
  exact (rightSide_moved r).read fun e r₁ h₁ h₁' => .ok ⟨rfl, rfl⟩

theorem declaration_moved (s : Stream) :
    Moves move (Moved move (Stmt.map move move)) (declaration s) (declaration (s.moved move)) := by
  rw [declaration, declaration, Stream.pos_moved]
  refine (typeExpr_moved s).read fun type r₁ h₁ h₁' => ?_
  refine (identifier_moved r₁).read fun name r₂ h₂ h₂' => ?_
  exact (assigned_moved r₂).read fun init r₃ h₃ h₃' => .ok ⟨rfl, rfl⟩

theorem assignment_moved (s : Stream) :
    Moves move (Moved move (Stmt.map move move)) (assignment s) (assignment (s.moved move)) := by
  rw [assignment, assignment, Stream.pos_moved]
  refine (place_moved s).read fun dst r₁ h₁ h₁' => ?_
  exact (assigned_moved r₁).read fun src r₂ h₂ h₂' => .ok ⟨rfl, rfl⟩

theorem joined_moved (first : Source.Stmt) (others : List Source.Stmt) :
    joined (first.map move move) (others.map (Stmt.map move move)) = (joined first others).map move move := by
  cases others with
  | nil => rfl
  | cons other others => simp [joined, Stmt.map]

mutual

theorem statements_moved (s : Stream) :
    Moves move (Moved move (Stmt.map move move)) (statements s) (statements (s.moved move)) := by
  rw [statements, statements]
  refine (statement_moved s).read fun first r h h' => ?_
  refine (furtherStatements_moved r).trail fun others r₁ h₁ h₁' => ?_
  exact .ok ⟨joined_moved first others, rfl⟩
termination_by 2 * s.tokens.length + 1

theorem furtherStatements_moved (s : Stream) :
    Moves move (MovedTrailing move (List.map (Stmt.map move move))) (furtherStatements s)
      (furtherStatements (s.moved move)) := by
  rw [furtherStatements, furtherStatements]
  obtain ⟨hnone, hnone'⟩ | ⟨_, r, h, h', hsome, hsome'⟩ := @nextIf?_moved move s (.symbol .semicolon)
  · rw [hnone, hnone']
    exact .ok ⟨rfl, rfl⟩
  · rw [hsome, hsome']
    refine (statement_moved r).read fun first r₁ h₁ h₁' => ?_
    exact (furtherStatements_moved r₁).trail fun others r₂ h₂ h₂' => .ok ⟨rfl, rfl⟩
termination_by 2 * s.tokens.length

/-- Reading a statement commutes with moving places. -/
theorem statement_moved (s : Stream) :
    Moves move (Moved move (Stmt.map move move)) (statement s) (statement (s.moved move)) := by
  rw [statement, statement]
  refine (next_moved s).read fun ⟨token, p⟩ r h h' => ?_
  cases token with
  | ident name => exact assignment_moved s
  | keyword word =>
    cases word with
    | skip => exact .ok ⟨rfl, rfl⟩
    | read => exact (place_moved r).read fun e r₁ h₁ h₁' => .ok ⟨rfl, rfl⟩
    | free | return_ | exit | print | println =>
      exact (expression_moved 0 r).read fun e r₁ h₁ h₁' => .ok ⟨rfl, rfl⟩
    | if_ =>
      refine (expression_moved 0 r).read fun cond r₁ h₁ h₁' => ?_
      refine (consume_moved r₁ _).read fun _ r₂ h₂ h₂' => ?_
      refine (statements_moved r₂).read fun yes r₃ h₃ h₃' => ?_
      refine (consume_moved r₃ _).read fun _ r₄ h₄ h₄' => ?_
      refine (statements_moved r₄).read fun no r₅ h₅ h₅' => ?_
      exact (consume_moved r₅ _).read fun _ r₆ h₆ h₆' => .ok ⟨rfl, rfl⟩
    | while_ =>
      refine (expression_moved 0 r).read fun cond r₁ h₁ h₁' => ?_
      refine (consume_moved r₁ _).read fun _ r₂ h₂ h₂' => ?_
      refine (statements_moved r₂).read fun body r₃ h₃ h₃' => ?_
      exact (consume_moved r₃ _).read fun _ r₄ h₄ h₄' => .ok ⟨rfl, rfl⟩
    | begin =>
      refine (statements_moved r).read fun body r₁ h₁ h₁' => ?_
      exact (consume_moved r₁ _).read fun _ r₂ h₂ h₂' => .ok ⟨rfl, rfl⟩
    | int | bool | char | string | pair => exact declaration_moved s
    | fst | snd => exact assignment_moved s
    | _ => exact .error _
  | _ => exact .error _
termination_by 2 * s.tokens.length

end

theorem commaParams_moved (s : Stream) :
    Moves move (Moved move (List.map (Source.Param.moved move))) (commaParams s)
      (commaParams (s.moved move)) := by
  rw [commaParams, commaParams, Stream.pos_moved]
  refine (typeExpr_moved s).read fun type r₁ h₁ h₁' => ?_
  refine (identifier_moved r₁).read fun name r₂ h₂ h₂' => ?_
  refine (next_moved r₂).read fun t r₃ h₃ h₃' => ?_
  refine .ite (fun _ => ?_) fun _ => .ite (fun _ => .ok ⟨rfl, rfl⟩) fun _ => .error _
  exact (commaParams_moved r₃).read fun others r₄ h₄ h₄' => .ok ⟨rfl, rfl⟩
termination_by s.tokens.length

theorem params_moved (s : Stream) :
    Moves move (Moved move (List.map (Source.Param.moved move))) (params s) (params (s.moved move)) := by
  rw [params, params]
  obtain ⟨hnone, hnone'⟩ | ⟨_, r, h, h', hsome, hsome'⟩ := @nextIf?_moved move s (.symbol .closeParen)
  · rw [hnone, hnone']
    exact commaParams_moved s
  · rw [hsome, hsome']
    exact .ok ⟨rfl, rfl⟩

theorem function_moved (s : Stream) :
    Moves move (Moved move (Source.Func.moved move)) (function s) (function (s.moved move)) := by
  rw [function, function, Stream.pos_moved]
  refine (typeExpr_moved s).read fun ret r₁ h₁ h₁' => ?_
  refine (identifier_moved r₁).read fun name r₂ h₂ h₂' => ?_
  refine (consume_moved r₂ _).read fun _ r₃ h₃ h₃' => ?_
  refine (params_moved r₃).read fun params r₄ h₄ h₄' => ?_
  refine (consume_moved r₄ _).read fun _ r₅ h₅ h₅' => ?_
  refine (statements_moved r₅).read fun body r₆ h₆ h₆' => ?_
  exact (consume_moved r₆ _).read fun _ r₇ h₇ h₇' => .ok ⟨rfl, rfl⟩

/-- Looking ahead for a function sees no places. -/
theorem startsFunction_moved (s : Stream) : startsFunction (s.moved move) = startsFunction s := by
  have htype := @typeExpr_moved move s
  rw [startsFunction, startsFunction]
  generalize typeExpr s = x at htype
  generalize typeExpr (s.moved move) = y at htype
  cases htype with
  | error e => rfl
  | @ok a b h =>
    obtain ⟨type, r, h₁⟩ := a
    obtain ⟨_, r', h₁'⟩ := b
    obtain rfl : r' = r.moved move := h.2
    have hname := @identifier_moved move r
    simp only
    generalize r.identifier = x at hname
    generalize (r.moved move).identifier = y at hname
    cases hname with
    | error e => rfl
    | ok h => exact congrArg (· == some _) (h.2 ▸ Stream.peek?_moved _)

theorem functions_moved (s : Stream) :
    Moves move (MovedTrailing move (List.map (Source.Func.moved move))) (functions s)
      (functions (s.moved move)) := by
  rw [functions, functions, startsFunction_moved]
  refine .ite (fun _ => ?_) fun _ => .ok ⟨rfl, rfl⟩
  refine (function_moved s).read fun f r h h' => ?_
  exact (functions_moved r).trail fun fs r₁ h₁ h₁' => .ok ⟨rfl, rfl⟩
termination_by s.tokens.length

/-- Reading a program commutes with moving places. -/
theorem program_moved (s : Stream) :
    Moves move (Moved move (Source.Program.moved move)) (program s) (program (s.moved move)) := by
  refine (consume_moved s _).read fun _ r₁ h₁ h₁' => ?_
  refine (functions_moved r₁).trail fun funcs r₂ h₂ h₂' => ?_
  refine (statements_moved r₂).read fun body r₃ h₃ h₃' => ?_
  exact (consume_moved r₃ _).read fun _ r₄ h₄ h₄' => .ok ⟨rfl, rfl⟩

end Parser

/-- The end of the input has no place. -/
theorem Stream.ofTokens_moved (hmove : move .nowhere = .nowhere) (tokens : List (Located Token)) :
    (Stream.ofTokens tokens).moved move = .ofTokens (tokens.map (Located.moved move)) := by
  simp only [moved, ofTokens, List.getLast?_map]
  cases tokens.getLast? with
  | none => simp [hmove]
  | some t => rfl

/-- Reading commutes with every change of places that leaves the end of no tokens where it is. -/
theorem parse_moved (hmove : move .nowhere = .nowhere) (tokens : List (Located Token)) :
    Parser.Moves move (fun p p' => p' = p.moved move) (parse tokens)
      (parse (tokens.map (Located.moved move))) := by
  have hprogram := @Parser.program_moved move (.ofTokens tokens)
  rw [Stream.ofTokens_moved hmove] at hprogram
  refine hprogram.read fun program ⟨tokens, last⟩ h h' => ?_
  cases tokens with
  | nil => exact .ok rfl
  | cons t tokens => exact .error _

end WaccArm
