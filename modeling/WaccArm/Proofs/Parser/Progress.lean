import WaccArm.Proofs.Parser.Type
import WaccArm.Proofs.Parser.Unbounded

namespace WaccArm

namespace Unbounded

open Grammar (Phrase)

variable {α β ρ σ : Type} {s r : Stream}

/-- The command ends at `s` with the outcome `x`, of which `view` shows the value and what is left. What is left is
the end of what there was. -/
structure Answers (view : ρ → α × Stream) (op : Reader α) (s : Stream) (x : Except SyntaxError ρ) : Prop where
  run : op s = some (x.map view)
  left : ∀ p, x = .ok p → ∃ ts : Phrase, s = (view p).2.prepend ts

section

variable {view : ρ → α × Stream} {view' : σ → β × Stream} {op : Reader α} {f : α → Reader β}

/-- Readers that answer alike do so one after the other. -/
theorem Answers.bind {x : Except SyntaxError ρ} {k : ρ → Except SyntaxError σ} (hop : Answers view op s x)
    (hk : ∀ p, Answers view' (f (view p).1) (view p).2 (k p)) :
    Answers view' (op >>= f) s (x >>= k) := by
  cases x with
  | error e =>
    refine ⟨?_, fun q hq => by cases hq⟩
    change (op s).bind _ = _
    rw [hop.run]
    rfl
  | ok p =>
    have hnext := hk p
    constructor
    · change (op s).bind _ = _
      rw [hop.run]
      exact hnext.run
    · intro q hq
      obtain ⟨ts, hts⟩ := hop.left p rfl
      obtain ⟨us, hus⟩ := hnext.left q hq
      exact ⟨_, Stream.prepend_trans hts hus⟩

theorem Answers.bindParsed {x : Parse α s} {k : Parsed α s → Except SyntaxError σ}
    (hop : Answers Parsed.toPair op s x) (hk : ∀ a r h, Answers view' (f a) r (k ⟨a, r, h⟩)) :
    Answers view' (op >>= f) s (x >>= k) := hop.bind fun p => hk p.value p.rest p.shorter

theorem Answers.bindTrailing {x : Except SyntaxError (Trailing α s)} {k : Trailing α s → Except SyntaxError σ}
    (hop : Answers Trailing.toPair op s x) (hk : ∀ a r h, Answers view' (f a) r (k ⟨a, r, h⟩)) :
    Answers view' (op >>= f) s (x >>= k) := hop.bind fun p => hk p.value p.rest p.bound

/-- A command that cannot fail here. The measured reader has no step for it. -/
theorem Answers.after {a : α} {ts : Phrase} {y : Except SyntaxError σ} (hop : op s = some (.ok (a, r)))
    (hs : s = r.prepend ts) (hf : Answers view' (f a) r y) : Answers view' (op >>= f) s y := by
  constructor
  · change (op s).bind _ = _
    rw [hop]
    exact hf.run
  · intro q hq
    obtain ⟨us, hus⟩ := hf.left q hq
    exact ⟨_, Stream.prepend_trans hs hus⟩

theorem Answers.pure {q : ρ} {a : α} (hq : view q = (a, s)) : Answers view (pure a) s (.ok q) := by
  constructor
  · change some (Except.ok (a, s)) = some (Except.ok (view q))
    rw [hq]
  · intro p hp
    cases hp
    exact ⟨[], by rw [hq]; rfl⟩

theorem Answers.throw (e : SyntaxError) : Answers view (throw e) s (.error e) :=
  ⟨rfl, fun p hp => by cases hp⟩

/-- Both readers decide in the same way. -/
theorem Answers.ite {c : Prop} [Decidable c] {op' : Reader α} {x x' : Except SyntaxError ρ}
    (hpos : Answers view op s x) (hneg : Answers view op' s x') :
    Answers view (if c then op else op') s (if c then x else x') := by
  split
  · exact hpos
  · exact hneg

end

theorem take_answers {read : (s : Stream) → Parse α s} (hleft : ∀ p, read s = .ok p → ∃ ts, s = p.rest.prepend ts) :
    Answers Parsed.toPair (take read) s (read s) := ⟨rfl, hleft⟩

/-- One token is taken. -/
theorem next_answers (s : Stream) : Answers Parsed.toPair next s s.next :=
  take_answers fun _ hp => ⟨_, Parser.next_eq_ok hp⟩

theorem keyword_answers (word : Keyword) (s : Stream) : Answers Parsed.toPair (keyword word) s (s.keyword word) :=
  take_answers fun _ hp => ⟨_, Parser.consume_eq_ok hp⟩

theorem symbol_answers (mark : Symbol) (s : Stream) : Answers Parsed.toPair (symbol mark) s (s.symbol mark) :=
  take_answers fun _ hp => ⟨_, Parser.consume_eq_ok hp⟩

theorem identifier_answers (s : Stream) : Answers Parsed.toPair identifier s s.identifier := by
  refine take_answers fun p hp => ?_
  obtain ⟨_, hs⟩ := Parser.identifier_eq_ok hp
  exact ⟨_, hs⟩

section

variable {view : ρ → β × Stream} {x : Except SyntaxError ρ}

/-- Looking at the stream takes nothing. -/
theorem Answers.get {f : Stream → Reader β} (hf : Answers view (f s) s x) : Answers view (get >>= f) s x :=
  ⟨hf.run, hf.left⟩

/-- An outcome that takes no token. -/
theorem Answers.lift {y : Except SyntaxError α} {f : α → Reader β} {k : α → Except SyntaxError ρ}
    (hk : ∀ a, Answers view (f a) s (k a)) : Answers view (liftExcept y >>= f) s (y >>= k) := by
  cases y with
  | error e => exact .throw e
  | ok a => exact hk a

theorem Answers.lift_last {y : Except SyntaxError β} {k : β → Except SyntaxError ρ}
    (hk : ∀ b, Answers view (Pure.pure b) s (k b)) : Answers view (liftExcept y) s (y >>= k) := by
  rw [← bind_pure (liftExcept y)]
  exact .lift hk

/-- The next token is looked at, where the measured reader has taken it. -/
theorem Answers.look {f : Token → Reader β} {k : Parsed (Located Token) s → Except SyntaxError ρ}
    (hk : ∀ t r h, s.next = .ok ⟨t, r, h⟩ → Answers view (f t.val) s (k ⟨t, r, h⟩)) :
    Answers view (liftExcept s.peek >>= f) s (s.next >>= k) := by
  obtain ⟨tokens, last⟩ := s
  cases tokens with
  | nil => exact .throw _
  | cons t tokens => exact hk t ⟨tokens, last⟩ (Nat.lt_succ_self _) rfl

theorem Answers.skip {t : Located Token} {h : r.tokens.length < s.tokens.length} {f : Located Token → Reader β}
    (hnext : s.next = .ok ⟨t, r, h⟩) (hf : Answers view (f t) r x) : Answers view (next >>= f) s x := by
  refine .after ?_ (Parser.next_eq_ok hnext) hf
  rw [next, take, hnext]
  rfl

/-- An attempt that fails takes nothing. -/
theorem Answers.attempt_none {read : (s : Stream) → Option (Parsed α s)} {f : Option α → Reader β}
    (hread : read s = none) (hf : Answers view (f none) s x) : Answers view (attempt read >>= f) s x := by
  refine .after ?_ (Stream.prepend_nil s).symm hf
  rw [attempt, hread]
  rfl

/-- An attempt that succeeds takes its token. -/
theorem Answers.attempt_some {read : (s : Stream) → Option (Parsed α s)} {accept : Token → Option α}
    {f : Option α → Reader β} {a : α} {h : r.tokens.length < s.tokens.length} (hread : read s = some ⟨a, r, h⟩)
    (haccept : read s = s.nextMap? accept) (hf : Answers view (f (some a)) r x) :
    Answers view (attempt read >>= f) s x := by
  obtain ⟨t, hs, -⟩ := Parser.nextMap?_eq_some (haccept.symm.trans hread)
  refine .after ?_ hs hf
  rw [attempt, hread]
  rfl

theorem Answers.nextIf_none {token : Token} {f : Bool → Reader β} (hnext : s.nextIf? token = none)
    (hf : Answers view (f false) s x) : Answers view (nextIf token >>= f) s x := by
  rw [nextIf, bind_assoc]
  refine .attempt_none hnext ?_
  rw [pure_bind]
  exact hf

theorem Answers.nextIf_some {token : Token} {f : Bool → Reader β} {u : Unit}
    {h : r.tokens.length < s.tokens.length} (hnext : s.nextIf? token = some ⟨u, r, h⟩)
    (hf : Answers view (f true) r x) : Answers view (nextIf token >>= f) s x := by
  rw [nextIf, bind_assoc]
  refine .attempt_some hnext rfl ?_
  rw [pure_bind]
  exact hf

end

/-- Dimensions never fail to be read. -/
theorem brackets_run (s : Stream) : TypeRule.brackets.run s = some (.ok (Parser.brackets s).toPair) := by
  rw [TypeRule.run]
  fun_induction Parser.brackets s with
  | case1 s p q tokens hs dims rest bound hrest ih =>
    obtain ⟨_, last⟩ := s
    cases hs
    change (TypeRule.brackets.run ⟨tokens, last⟩).bind _ = _
    rw [TypeRule.run, ih, hrest]
    rfl
  | case2 s hs =>
    have hnot : ¬ (s.peekAt? 0 = some (.symbol .openBracket) ∧ s.peekAt? 1 = some (.symbol .closeBracket)) := by
      obtain ⟨tokens, last⟩ := s
      rintro ⟨hopen, hclose⟩
      rcases tokens with _ | ⟨⟨_, p⟩, _ | ⟨⟨_, q⟩, tokens⟩⟩
      · cases hopen
      · cases hclose
      · cases hopen
        cases hclose
        exact hs p q tokens rfl
    change (if _ then _ else _ : Reader Nat) s = _
    rw [if_neg hnot]
    rfl

theorem Answers.brackets {view : ρ → β × Stream} {x : Except SyntaxError ρ} {f : Nat → Reader β}
    (hf : Answers view (f (Parser.brackets s).value) (Parser.brackets s).rest x) :
    Answers view (TypeRule.brackets.run >>= f) s x := by
  obtain ⟨ts, hs, -⟩ := Parser.brackets_spelled s
  exact .after (brackets_run s) hs hf

-- The measures are those of the readers: each call follows a token that is taken.
mutual

/-- Reading a type ends with the same outcome. -/
theorem typeExpr_answers (s : Stream) : Answers Parsed.toPair typeExpr s (Parser.typeExpr s) := by
  rw [typeExpr, TypeRule.run, Parser.typeExpr]
  refine .bindParsed (next_answers s) ?_
  rintro ⟨token, p⟩ r h
  dsimp only
  cases hbase : Parser.baseType? token with
  | some base => exact .brackets (.pure rfl)
  | none =>
    refine .ite ?_ (.throw _)
    refine .bindParsed (symbol_answers .openParen r) fun _ r₁ h₁ => ?_
    refine .bindParsed (pairSide_answers r₁) fun fst r₂ h₂ => ?_
    refine .bindParsed (symbol_answers .comma r₂) fun _ r₃ h₃ => ?_
    refine .bindParsed (pairSide_answers r₃) fun snd r₄ h₄ => ?_
    refine .bindParsed (symbol_answers .closeParen r₄) fun _ r₅ h₅ => ?_
    exact .brackets (.pure rfl)
termination_by 2 * s.tokens.length

theorem pairSide_answers (s : Stream) : Answers Parsed.toPair pairSide s (Parser.pairSide s) := by
  rw [pairSide, TypeRule.run, Parser.pairSide]
  split
  · rename_i hnone
    refine .nextIf_none hnone ?_
    exact .bindParsed (typeExpr_answers s) fun _ _ _ => .pure rfl
  · rename_i u r h hsome
    refine .nextIf_some hsome ?_
    refine .get ?_
    exact .ite (.throw _) (.brackets (.pure rfl))
termination_by 2 * s.tokens.length + 1

end

mutual

/-- Reading an expression ends with the same outcome. -/
theorem expression_answers (min : Nat) (s : Stream) :
    Answers Parsed.toPair (expression min) s (Parser.expression min s) := by
  rw [expression, ExprRule.run, Parser.expression]
  refine .bindParsed (factor_answers s) fun left r h => ?_
  rw [← bind_pure (ExprRule.run _)]
  exact .bindTrailing (operators_answers min left r) fun _ _ _ => .pure rfl
termination_by 2 * s.tokens.length + 1

theorem operators_answers (min : Nat) (left : Expr Pos) (s : Stream) :
    Answers Trailing.toPair (ExprRule.operators min left).run s (Parser.operators min left s) := by
  rw [ExprRule.run, Parser.operators]
  split
  · rename_i hnone
    exact .attempt_none hnone (.pure rfl)
  · rename_i op r h hsome
    refine .attempt_some hsome rfl ?_
    refine .bindParsed (expression_answers (op.precedence + 1) r) fun right r₁ h₁ => ?_
    rw [← bind_pure (ExprRule.run _)]
    exact .bindTrailing (operators_answers min _ r₁) fun _ _ _ => .pure rfl
termination_by 2 * s.tokens.length

theorem factor_answers (s : Stream) : Answers Parsed.toPair factor s (Parser.factor s) := by
  rw [factor, ExprRule.run, Parser.factor]
  refine .bindParsed (next_answers s) ?_
  rintro ⟨token, p⟩ r h
  dsimp only
  split
  · exact .bindTrailing (indices_answers r) fun _ _ _ => .pure rfl
  · refine .bindParsed (expression_answers 0 r) fun e r₁ h₁ => ?_
    exact .bindParsed (symbol_answers .closeParen r₁) fun _ _ _ => .pure rfl
  · exact .lift_last fun _ => .pure rfl
  · cases hint : r.nextInt? with
    | some read =>
      obtain ⟨value, r', h'⟩ := read
      exact .attempt_some hint rfl (.lift_last fun _ => .pure rfl)
    | none =>
      refine .attempt_none hint ?_
      exact .bindParsed (factor_answers r) fun _ _ _ => .pure rfl
  · cases hint : r.nextInt? with
    | some read =>
      obtain ⟨value, r', h'⟩ := read
      exact .attempt_some hint rfl (.lift_last fun _ => .pure rfl)
    | none => exact .attempt_none hint (.throw _)
  · -- The token is none of those above, on either side.
    simp only [*]
    cases Parser.literal? p token with
    | some e => exact .pure rfl
    | none =>
      cases Parser.unaryOp? token with
      | some op => exact .bindParsed (factor_answers r) fun _ _ _ => .pure rfl
      | none => exact .throw _
termination_by 2 * s.tokens.length

theorem indices_answers (s : Stream) : Answers Trailing.toPair ExprRule.indices.run s (Parser.indices s) := by
  rw [ExprRule.run, Parser.indices]
  split
  · rename_i hnone
    refine .nextIf_none hnone ?_
    exact .pure rfl
  · rename_i u r h hsome
    refine .nextIf_some hsome ?_
    refine .bindParsed (expression_answers 0 r) fun e r₁ h₁ => ?_
    refine .bindParsed (symbol_answers .closeBracket r₁) fun _ r₂ h₂ => ?_
    exact .bindTrailing (indices_answers r₂) fun _ _ _ => .pure rfl
termination_by 2 * s.tokens.length

end

theorem place_answers (s : Stream) : Answers Parsed.toPair place s (Parser.place s) := by
  rw [place, ExprRule.run, Parser.place]
  refine .bindParsed (next_answers s) ?_
  rintro ⟨token, p⟩ r h
  dsimp only
  split
  · exact .bindTrailing (indices_answers r) fun _ _ _ => .pure rfl
  · exact .bindParsed (place_answers r) fun _ _ _ => .pure rfl
  · exact .bindParsed (place_answers r) fun _ _ _ => .pure rfl
  · simp only [Parser.side?, *]
    exact .throw _
termination_by s.tokens.length

theorem commaSeparated_answers (close : Symbol) (s : Stream) :
    Answers Parsed.toPair (ExprRule.commaSeparated close).run s (Parser.commaSeparated close s) := by
  rw [ExprRule.run, Parser.commaSeparated]
  refine .bindParsed (expression_answers 0 s) fun e r₁ h₁ => ?_
  refine .bindParsed (next_answers r₁) fun t r₂ h₂ => ?_
  refine .ite ?_ (.ite (.pure rfl) (.throw _))
  exact .bindParsed (commaSeparated_answers close r₂) fun _ _ _ => .pure rfl
termination_by s.tokens.length

theorem commaList_answers (close : Symbol) (s : Stream) :
    Answers Parsed.toPair (commaList close) s (Parser.commaList close s) := by
  rw [commaList, Parser.commaList]
  split
  · rename_i hsome
    exact .nextIf_some hsome (.pure rfl)
  · rename_i hnone
    exact .nextIf_none hnone (commaSeparated_answers close s)

theorem rightSide_answers (s : Stream) : Answers Parsed.toPair rightSide s (Parser.rightSide s) := by
  rw [rightSide, Parser.rightSide]
  refine .get ?_
  refine .lift fun token => ?_
  split
  · refine .bindParsed (next_answers s) fun _ r h => ?_
    exact .bindParsed (commaList_answers .closeBracket r) fun _ _ _ => .pure rfl
  · refine .bindParsed (next_answers s) fun _ r h => ?_
    refine .bindParsed (symbol_answers .openParen r) fun _ r₁ h₁ => ?_
    refine .bindParsed (expression_answers 0 r₁) fun fst r₂ h₂ => ?_
    refine .bindParsed (symbol_answers .comma r₂) fun _ r₃ h₃ => ?_
    refine .bindParsed (expression_answers 0 r₃) fun snd r₄ h₄ => ?_
    exact .bindParsed (symbol_answers .closeParen r₄) fun _ _ _ => .pure rfl
  · exact place_answers s
  · exact place_answers s
  · refine .bindParsed (next_answers s) fun _ r h => ?_
    refine .bindParsed (identifier_answers r) fun name r₁ h₁ => ?_
    refine .bindParsed (symbol_answers .openParen r₁) fun _ r₂ h₂ => ?_
    exact .bindParsed (commaList_answers .closeParen r₂) fun _ _ _ => .pure rfl
  · simp only [Parser.side?, *]
    exact expression_answers 0 s

theorem assigned_answers (s : Stream) : Answers Parsed.toPair assigned s (Parser.assigned s) := by
  rw [assigned, Parser.assigned]
  refine .bindParsed (symbol_answers .assign s) fun _ r h => ?_
  rw [← bind_pure rightSide]
  exact .bindParsed (rightSide_answers r) fun _ _ _ => .pure rfl

theorem declaration_answers (s : Stream) : Answers Parsed.toPair declaration s (Parser.declaration s) := by
  rw [declaration, Parser.declaration]
  refine .get ?_
  refine .bindParsed (typeExpr_answers s) fun type r₁ h₁ => ?_
  refine .bindParsed (identifier_answers r₁) fun name r₂ h₂ => ?_
  exact .bindParsed (assigned_answers r₂) fun _ _ _ => .pure rfl

theorem assignment_answers (s : Stream) : Answers Parsed.toPair assignment s (Parser.assignment s) := by
  rw [assignment, Parser.assignment]
  refine .get ?_
  refine .bindParsed (place_answers s) fun dst r₁ h₁ => ?_
  exact .bindParsed (assigned_answers r₁) fun _ _ _ => .pure rfl

mutual

theorem statements_answers (s : Stream) : Answers Parsed.toPair statements s (Parser.statements s) := by
  rw [statements, StmtRule.run, Parser.statements]
  refine .bindParsed (statement_answers s) fun first r h => ?_
  exact .bindTrailing (furtherStatements_answers r) fun _ _ _ => .pure rfl
termination_by 2 * s.tokens.length + 1

theorem furtherStatements_answers (s : Stream) :
    Answers Trailing.toPair StmtRule.further.run s (Parser.furtherStatements s) := by
  rw [StmtRule.run, Parser.furtherStatements]
  split
  · rename_i hnone
    exact .nextIf_none hnone (.pure rfl)
  · rename_i u r h hsome
    refine .nextIf_some hsome ?_
    refine .bindParsed (statement_answers r) fun first r₁ h₁ => ?_
    exact .bindTrailing (furtherStatements_answers r₁) fun _ _ _ => .pure rfl
termination_by 2 * s.tokens.length

/-- Reading a statement ends with the same outcome. -/
theorem statement_answers (s : Stream) : Answers Parsed.toPair statement s (Parser.statement s) := by
  rw [statement, StmtRule.run, Parser.statement]
  refine .get ?_
  refine .look ?_
  rintro ⟨token, p⟩ r h hnext
  have hpos : s.pos = p := by rw [Parser.next_eq_ok hnext]; rfl
  rw [hpos]
  dsimp only
  split
  -- Nothing is taken yet, and these take their first token themselves.
  case h_1 | h_2 | h_3 | h_4 | h_5 => exact declaration_answers s
  case h_6 | h_7 | h_8 => exact assignment_answers s
  case h_9 => exact .skip hnext (.pure rfl)
  case h_10 => exact .skip hnext (.bindParsed (place_answers r) fun _ _ _ => .pure rfl)
  case h_11 | h_12 | h_13 | h_14 | h_15 =>
    exact .skip hnext (.bindParsed (expression_answers 0 r) fun _ _ _ => .pure rfl)
  case h_16 =>
    refine .skip hnext ?_
    refine .bindParsed (expression_answers 0 r) fun cond r₁ h₁ => ?_
    refine .bindParsed (keyword_answers .then_ r₁) fun _ r₂ h₂ => ?_
    refine .bindParsed (statements_answers r₂) fun yes r₃ h₃ => ?_
    refine .bindParsed (keyword_answers .else_ r₃) fun _ r₄ h₄ => ?_
    refine .bindParsed (statements_answers r₄) fun no r₅ h₅ => ?_
    exact .bindParsed (keyword_answers .fi r₅) fun _ _ _ => .pure rfl
  case h_17 =>
    refine .skip hnext ?_
    refine .bindParsed (expression_answers 0 r) fun cond r₁ h₁ => ?_
    refine .bindParsed (keyword_answers .do_ r₁) fun _ r₂ h₂ => ?_
    refine .bindParsed (statements_answers r₂) fun body r₃ h₃ => ?_
    exact .bindParsed (keyword_answers .done r₃) fun _ _ _ => .pure rfl
  case h_18 =>
    refine .skip hnext ?_
    refine .bindParsed (statements_answers r) fun body r₁ h₁ => ?_
    exact .bindParsed (keyword_answers .end_ r₁) fun _ _ _ => .pure rfl
  case h_19 =>
    simp only [*]
    exact .throw _
termination_by 2 * s.tokens.length

end

theorem commaParams_answers (s : Stream) :
    Answers Parsed.toPair FuncRule.commaParams.run s (Parser.commaParams s) := by
  rw [FuncRule.run, Parser.commaParams]
  refine .get ?_
  refine .bindParsed (typeExpr_answers s) fun type r₁ h₁ => ?_
  refine .bindParsed (identifier_answers r₁) fun name r₂ h₂ => ?_
  refine .bindParsed (next_answers r₂) fun t r₃ h₃ => ?_
  refine .ite ?_ (.ite (.pure rfl) (.throw _))
  exact .bindParsed (commaParams_answers r₃) fun _ _ _ => .pure rfl
termination_by s.tokens.length

theorem params_answers (s : Stream) : Answers Parsed.toPair params s (Parser.params s) := by
  rw [params, FuncRule.run, Parser.params]
  split
  · rename_i hsome
    exact .nextIf_some hsome (.pure rfl)
  · rename_i hnone
    exact .nextIf_none hnone (commaParams_answers s)

theorem function_answers (s : Stream) : Answers Parsed.toPair function s (Parser.function s) := by
  rw [function, FuncRule.run, Parser.function]
  refine .get ?_
  refine .bindParsed (typeExpr_answers s) fun ret r₁ h₁ => ?_
  refine .bindParsed (identifier_answers r₁) fun name r₂ h₂ => ?_
  refine .bindParsed (symbol_answers .openParen r₂) fun _ r₃ h₃ => ?_
  refine .bindParsed (params_answers r₃) fun params r₄ h₄ => ?_
  refine .bindParsed (keyword_answers .is r₄) fun _ r₅ h₅ => ?_
  refine .bindParsed (statements_answers r₅) fun body r₆ h₆ => ?_
  exact .bindParsed (keyword_answers .end_ r₆) fun _ _ _ => .pure rfl

theorem signature_answers (s : Stream) : Answers id signature s (do
    let p ← Parser.typeExpr s
    let q ← p.rest.identifier
    return (q.rest.peek? == some (.symbol .openParen), q.rest)) := by
  rw [signature]
  refine .bindParsed (typeExpr_answers s) fun _ r h => ?_
  refine .bindParsed (identifier_answers r) fun _ r' h' => ?_
  exact .get (.pure rfl)

/-- What was read ahead is put back, whether it failed or not. -/
theorem startsFunction_of_signature {x : Except SyntaxError (Bool × Stream)} (hread : signature s = some x) :
    startsFunction s = some (.ok ((x.map Prod.fst).toOption.getD false, s)) := by
  change (tryCatch (signature s) _ : ExceptT SyntaxError Option (Bool × Stream)) >>= _ = _
  rw [hread]
  cases x with
  | error _ | ok _ => rfl

/-- Looking ahead for a function always ends. -/
theorem startsFunction_run (s : Stream) : startsFunction s = some (.ok (Parser.startsFunction s, s)) := by
  have hread := (signature_answers s).run
  rw [Parser.startsFunction]
  cases htype : Parser.typeExpr s with
  | error e =>
    rw [htype] at hread
    exact startsFunction_of_signature hread
  | ok p =>
    obtain ⟨type, r, h⟩ := p
    rw [htype] at hread
    change signature s = some ((r.identifier >>= _).map id) at hread
    dsimp only
    cases hname : r.identifier with
    | error _ | ok _ =>
      rw [hname] at hread
      exact startsFunction_of_signature hread

theorem functions_answers (s : Stream) : Answers Trailing.toPair FuncRule.functions.run s (Parser.functions s) := by
  rw [FuncRule.run, Parser.functions]
  refine .after (startsFunction_run s) (Stream.prepend_nil s).symm ?_
  refine .ite ?_ (.pure rfl)
  refine .bindParsed (function_answers s) fun f r h => ?_
  exact .bindTrailing (functions_answers r) fun _ _ _ => .pure rfl
termination_by s.tokens.length

/-- Reading a program ends with the same outcome. -/
theorem program_answers (s : Stream) : Answers Parsed.toPair program s (Parser.program s) := by
  rw [program, Parser.program]
  refine .bindParsed (keyword_answers .begin s) fun _ r₁ h₁ => ?_
  refine .bindTrailing (functions_answers r₁) fun funcs r₂ h₂ => ?_
  refine .bindParsed (statements_answers r₂) fun body r₃ h₃ => ?_
  exact .bindParsed (keyword_answers .end_ r₃) fun _ _ _ => .pure rfl

/-- The parser without a measure ends on all tokens. -/
theorem parse_run (tokens : List (Located Token)) : parse tokens = some (WaccArm.parse tokens) := by
  have hrun := (program_answers (.ofTokens tokens)).run
  rw [WaccArm.parse]
  change (program (.ofTokens tokens)).bind _ = _
  rw [hrun]
  cases Parser.program (.ofTokens tokens) with
  | error e => rfl
  | ok p =>
    obtain ⟨program, ⟨rest, last⟩, h⟩ := p
    cases rest with
    | nil | cons => rfl

/-- The command ends on every stream, with what the measured reader reads. Where it succeeds, the tokens that are
left are a proper suffix of those that it was given. -/
structure Progresses (op : Reader α) (read : (s : Stream) → Parse α s) : Prop where
  ends : ∀ s, op s = some ((read s).map Parsed.toPair)
  suffix : ∀ s a r, op s = some (.ok (a, r)) → r.tokens <:+ s.tokens ∧ r.tokens ≠ s.tokens ∧ r.last = s.last

/-- A reader that answers like one with a measure makes progress. -/
theorem progresses_of_answers {op : Reader α} {read : (s : Stream) → Parse α s}
    (hanswers : ∀ s, Answers Parsed.toPair op s (read s)) : Progresses op read := by
  refine ⟨fun s => (hanswers s).run, fun s a r hrun => ?_⟩
  rw [(hanswers s).run] at hrun
  cases hread : read s with
  | error e =>
    rw [hread] at hrun
    cases hrun
  | ok p =>
    rw [hread] at hrun
    cases hrun
    obtain ⟨ts, hs⟩ := (hanswers s).left p hread
    refine ⟨⟨ts, (congrArg Stream.tokens hs).symm⟩, ?_, (congrArg Stream.last hs).symm⟩
    intro heq
    exact Nat.ne_of_lt p.shorter (congrArg List.length heq)

/-- No reader goes on without taking a token. So all of them end, and a list of tokens is always parsed or refused.
Looking for a function ahead leaves the stream as it is. -/
theorem readers_progress :
    Progresses typeExpr Parser.typeExpr ∧ Progresses pairSide Parser.pairSide ∧
    Progresses statement Parser.statement ∧ Progresses statements Parser.statements ∧
    Progresses place Parser.place ∧ Progresses rightSide Parser.rightSide ∧
    (∀ min, Progresses (expression min) (Parser.expression min)) ∧ Progresses factor Parser.factor ∧
    Progresses params Parser.params ∧ (∀ close, Progresses (commaList close) (Parser.commaList close)) ∧
    Progresses function Parser.function ∧
    (∀ s, startsFunction s = some (.ok (Parser.startsFunction s, s))) ∧
    ∀ tokens, parse tokens = some (WaccArm.parse tokens) :=
  ⟨progresses_of_answers typeExpr_answers, progresses_of_answers pairSide_answers,
    progresses_of_answers statement_answers, progresses_of_answers statements_answers,
    progresses_of_answers place_answers, progresses_of_answers rightSide_answers,
    fun min => progresses_of_answers (expression_answers min), progresses_of_answers factor_answers,
    progresses_of_answers params_answers, fun close => progresses_of_answers (commaList_answers close),
    progresses_of_answers function_answers, startsFunction_run, parse_run⟩

end Unbounded

end WaccArm
