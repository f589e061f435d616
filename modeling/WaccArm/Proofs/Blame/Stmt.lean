import WaccArm.Proofs.Blame.Expr
import WaccArm.Proofs.Blame.Type
import WaccArm.Proofs.Parser.Stmt

namespace WaccArm

namespace Grammar.Lang

variable {ts us : Phrase} {p : Pos} {close : Symbol}

def place : Lang := fun ts => ∃ e, PlaceSpelled e ts

/-- One or more expressions with commas between them, and a mark that closes the list. -/
def listTo (close : Symbol) : Lang := fun ts => ∃ es us p, ts = us ++ [mark close p] ∧ ListSpelled es us

/-- The same, where the list may be empty. -/
def argsTo (close : Symbol) : Lang := fun ts => ∃ es us p, ts = us ++ [mark close p] ∧ ArgsSpelled es us

def right : Lang := fun ts => ∃ e, RightSpelled e ts

theorem possible_place : place.Possible := ⟨[ident "x" .nowhere], _, .named .var⟩

/-- A list of arguments can always be closed. -/
theorem possible_argsTo : (argsTo close).Possible := ⟨_, [], [], .nowhere, rfl, .none⟩

/-- What may stand in an expression may stand behind an equals sign. -/
theorem right_of_expr (h : expr 0 ts) : right ts := by
  obtain ⟨e, he⟩ := h
  exact ⟨e, .expr he⟩

theorem possible_right : right.Possible := by
  obtain ⟨ts, hts⟩ := possible_expr (Nat.zero_le operandLevel)
  exact ⟨ts, right_of_expr hts⟩

theorem place_named {name : String} (h : indices ts) : place (ident name p :: ts) := by
  obtain ⟨es, hes⟩ := h
  exact ⟨_, .named (Parser.named_spelled hes)⟩

/-- A side of a place is a place. -/
theorem place_side {side : Side} (h : place ts) : place (word (sideWord side) p :: ts) := by
  obtain ⟨e, he⟩ := h
  exact ⟨_, .side he⟩

theorem right_of_place (h : place ts) : right ts := by
  obtain ⟨e, he⟩ := h
  cases he with
  | named he => exact ⟨e, .expr ((ExprSpelled.named he).lower (Nat.zero_le _))⟩
  | side he => exact ⟨_, .side he⟩

theorem listTo_one (h : expr 0 ts) (p : Pos) : listTo close (ts ++ [mark close p]) := by
  obtain ⟨e, he⟩ := h
  exact ⟨_, ts, p, rfl, .one he⟩

/-- A list goes on behind a comma. -/
theorem listTo_cons (h : expr 0 ts) (hus : listTo close us) (p : Pos) :
    listTo close (ts ++ mark .comma p :: us) := by
  obtain ⟨e, he⟩ := h
  obtain ⟨es, vs, q, rfl, hes⟩ := hus
  exact ⟨_, _, q, by simp, .cons (p := p) he hes⟩

/-- Arguments may be none, or a list. -/
theorem argsTo_of_listTo (h : listTo close ts) : argsTo close ts := by
  obtain ⟨es, us, p, hts, hes⟩ := h
  exact ⟨es, us, p, hts, .some hes⟩

theorem right_array (h : argsTo .closeBracket ts) : right (mark .openBracket p :: ts) := by
  obtain ⟨es, us, q, rfl, hes⟩ := h
  exact ⟨_, .array hes⟩

/-- What follows the word `newpair`. -/
def newPairTail : Lang :=
  (token (.symbol .openParen)).followedBy <| (expr 0).followedBy <| (token (.symbol .comma)).followedBy <|
    (expr 0).followedBy (token (.symbol .closeParen))

/-- A new pair is its word and what follows it. -/
theorem right_of_newPairTail (h : newPairTail ts) : right (word .newpair p :: ts) := by
  obtain ⟨_, _, rfl, ⟨q, rfl⟩, us, _, rfl, ⟨fst, hfst⟩, _, _, rfl, ⟨r, rfl⟩, vs, _, rfl, ⟨snd, hsnd⟩, t, rfl⟩ := h
  exact ⟨_, .newPair hfst hsnd⟩

/-- What follows the word `call`. -/
def callTail : Lang := name.followedBy ((token (.symbol .openParen)).followedBy (argsTo .closeParen))

/-- A call is its word and what follows it. -/
theorem right_of_callTail (h : callTail ts) : right (word .call p :: ts) := by
  obtain ⟨_, _, rfl, ⟨name, q, rfl⟩, _, _, rfl, ⟨r, rfl⟩, args, us, t, rfl, hargs⟩ := h
  exact ⟨_, .call hargs⟩

/-- The end of a declaration or an assignment. -/
def assigned : Lang := (token (.symbol .assign)).followedBy right

def declaration : Lang := type.followedBy (name.followedBy assigned)

def assignment : Lang := place.followedBy assigned

def statement : Lang := fun ts => ∃ s, StmtSpelled (.statement s) ts

/-- Statements with semicolons between them. -/
def body : Lang := fun ts => ∃ s, StmtSpelled (.body s) ts

/-- What can follow the first statement of a list. -/
def further : Lang := fun ts => ∀ us, statement us → ∃ s ss, StmtSpelled (.list (s :: ss)) (us ++ ts)

/-- A value can be assigned from any point on. -/
theorem possible_assigned : assigned.Possible := (possible_token _).followedBy possible_right

theorem statement_of_declaration (h : declaration ts) : statement ts := by
  obtain ⟨us, _, rfl, ⟨type, htype⟩, _, _, rfl, ⟨name, q, rfl⟩, _, vs, rfl, ⟨r, rfl⟩, init, hinit⟩ := h
  obtain ⟨t, us', rfl, -⟩ := htype.starts
  exact ⟨_, .declare htype rfl hinit⟩

theorem statement_of_assignment (h : assignment ts) : statement ts := by
  obtain ⟨us, _, rfl, ⟨dst, hdst⟩, _, vs, rfl, ⟨q, rfl⟩, src, hsrc⟩ := h
  obtain ⟨t, us', rfl, -⟩ := hdst.starts
  exact ⟨_, .assign hdst rfl hsrc⟩

theorem further_nil : further [] := by
  rintro us ⟨s, hs⟩
  rw [List.append_nil]
  exact ⟨s, [], .one hs⟩

/-- A semicolon asks for another statement. -/
theorem further_cons (h : (statement.followedBy further) ts) : further (mark .semicolon p :: ts) := by
  obtain ⟨us, vs, rfl, hus, hvs⟩ := h
  rintro ws ⟨s, hs⟩
  obtain ⟨s', ss, hlist⟩ := hvs us hus
  exact ⟨s, s' :: ss, .cons hs hlist⟩

/-- A body is a statement and those that follow it. -/
theorem body_of_further (h : (statement.followedBy further) ts) : body ts := by
  obtain ⟨us, vs, rfl, hus, hvs⟩ := h
  obtain ⟨s, ss, hlist⟩ := hvs us hus
  exact ⟨_, hlist.joined⟩

theorem possible_statement : statement.Possible := ⟨[word .skip .nowhere], _, .skip⟩

theorem possible_further : further.Possible := ⟨[], further_nil⟩

theorem possible_body : body.Possible :=
  (possible_statement.followedBy possible_further).imp fun _ => body_of_further

/-- What follows the word `if`. -/
def branchTail : Lang :=
  (expr 0).followedBy <| (token (.keyword .then_)).followedBy <| body.followedBy <|
    (token (.keyword .else_)).followedBy <| body.followedBy (token (.keyword .fi))

/-- A conditional is its word and what follows it. -/
theorem statement_of_branchTail (h : branchTail ts) : statement (word .if_ p :: ts) := by
  obtain ⟨us, _, rfl, ⟨cond, hcond⟩, _, _, rfl, ⟨q, rfl⟩, vs, _, rfl, ⟨yes, hyes⟩, _, _, rfl, ⟨r, rfl⟩, ws, _, rfl,
    ⟨no, hno⟩, t, rfl⟩ := h
  exact ⟨_, .branch hcond hyes hno⟩

/-- What follows the word `while`. -/
def loopTail : Lang :=
  (expr 0).followedBy <| (token (.keyword .do_)).followedBy <| body.followedBy (token (.keyword .done))

/-- A loop is its word and what follows it. -/
theorem statement_of_loopTail (h : loopTail ts) : statement (word .while_ p :: ts) := by
  obtain ⟨us, _, rfl, ⟨cond, hcond⟩, _, _, rfl, ⟨q, rfl⟩, vs, _, rfl, ⟨body, hbody⟩, r, rfl⟩ := h
  exact ⟨_, .loop hcond hbody⟩

/-- What follows the word `begin`. -/
def scopeTail : Lang := body.followedBy (token (.keyword .end_))

/-- A block is its word and what follows it. -/
theorem statement_of_scopeTail (h : scopeTail ts) : statement (word .begin p :: ts) := by
  obtain ⟨us, _, rfl, ⟨body, hbody⟩, q, rfl⟩ := h
  exact ⟨_, .scope hbody⟩

end Grammar.Lang

namespace Parser

open Grammar

variable {s : Stream} {p q last : Pos} {ts : Phrase} {token : Token} {close : Symbol}

theorem place_side_cons {side : Side} (h : side? token = some side) (p : Pos) (ts : Phrase) (last : Pos) :
    reader place ⟨⟨token, p⟩ :: ts, last⟩ = reader place ⟨ts, last⟩ := by
  rw [reader, place, next_bind]
  simp only [h]
  exact map_bind_ok fun _ => rfl

theorem place_ident_cons (name : String) (p : Pos) (ts : Phrase) (last : Pos) :
    reader place ⟨ident name p :: ts, last⟩ = trailer indices ⟨ts, last⟩ := by
  rw [reader, place, next_bind]
  exact map_bind_ok fun _ => rfl

/-- A place starts with a side or a name. -/
theorem place_other_cons (hside : side? token = none) (hident : ∀ name, token ≠ .ident name) (p : Pos)
    (ts : Phrase) (last : Pos) :
    reader place ⟨⟨token, p⟩ :: ts, last⟩ = .error ⟨.identifier token, p⟩ := by
  rw [reader, place, next_bind]
  simp only [hside]
  rfl

/-- Reading a place blames the first token that no place goes on with. -/
theorem tracked_place (s : Stream) : Tracked .place (reader place) s := by
  obtain ⟨tokens, last⟩ := s
  cases tokens with
  | nil =>
    refine tracked_end Lang.possible_place ?_
    rw [reader, place]
    rfl
  | cons first ts =>
    obtain ⟨token, p⟩ := first
    cases hside : side? token with
    | some side =>
      refine tracked_next (fun p' ts' last' _ => place_side_cons hside p' ts' last') ?_
      obtain rfl := side?_eq_some.1 hside
      exact (tracked_place ⟨ts, last⟩).mono fun us => Lang.place_side
    | none =>
      by_cases hident : ∃ name, token = .ident name
      · obtain ⟨name, rfl⟩ := hident
        refine tracked_next (fun p' ts' last' _ => place_ident_cons name p' ts' last') ?_
        exact (tracked_indices ⟨ts, last⟩).mono fun us => Lang.place_named
      · refine tracked_blamed (.identifier token) (by simp) Lang.possible_place fun p' ts' last' _ => ?_
        exact place_other_cons hside (fun name h => hident ⟨name, h⟩) p' ts' last'
termination_by s.tokens.length

/-- Expressions are read one by one up to the closing mark. -/
theorem commaSeparated_eq (close : Symbol) (s : Stream) :
    reader (commaSeparated close) s =
      (reader (expression 0)).andThen (separator close (reader (commaSeparated close))) s := by
  rw [reader, commaSeparated]
  refine map_bind ?_
  rintro ⟨e, r, h⟩
  obtain ⟨tokens, last⟩ := r
  cases tokens with
  | nil => rfl
  | cons t ts =>
    simp only [next_bind, separator_cons]
    split
    · exact map_bind_ok fun _ => rfl
    · split <;> rfl

/-- Reading a list blames the first token that no list goes on with. -/
theorem tracked_commaSeparated (close : Symbol) (s : Stream) :
    Tracked (.listTo close) (reader (commaSeparated close)) s := by
  refine Tracked.congr ?_ fun s' _ => commaSeparated_eq close s'
  refine (tracked_expression 0 s (Nat.zero_le _)).bind (fun us hus => ⟨_, Lang.listTo_one hus .nowhere⟩)
    fun r us hr _ hus => ?_
  have hlt := reader_shorter hr
  refine tracked_separator (Lang.listTo_one hus) fun r' p hlt' => ?_
  exact (tracked_commaSeparated close r').mono fun vs hvs => Lang.listTo_cons hus hvs p
termination_by s.tokens.length

theorem commaList_nil (close : Symbol) (p : Pos) (ts : Phrase) (last : Pos) :
    reader (commaList close) ⟨mark close p :: ts, last⟩ = .ok ⟨ts, last⟩ := by
  obtain ⟨h, hsome⟩ := nextIf?_of_eq ⟨ts, last⟩ (.symbol close) p []
  change Stream.nextIf? ⟨mark close p :: ts, last⟩ _ = some ⟨(), ⟨ts, last⟩, h⟩ at hsome
  rw [reader, commaList, hsome]
  rfl

theorem commaList_some (h : s.peek? ≠ some (.symbol close)) :
    reader (commaList close) s = reader (commaSeparated close) s := by
  rw [reader, commaList, nextIf?_eq_none.2 h]
  rfl

/-- A list may be closed at once. -/
theorem tracked_commaList (close : Symbol) (s : Stream) : Tracked (.argsTo close) (reader (commaList close)) s := by
  by_cases hclose : s.peek? = some (.symbol close)
  · obtain ⟨tokens, last⟩ := s
    cases tokens with
    | nil => cases hclose
    | cons t ts =>
      obtain ⟨token, p⟩ := t
      obtain rfl : token = .symbol close := Option.some.inj hclose
      exact tracked_only ⟨[], [], p, rfl, .none⟩ (commaList_nil close)
  · refine ((tracked_commaSeparated close s).mono fun ts => Lang.argsTo_of_listTo).congr fun s' hs' => ?_
    exact commaList_some (by rwa [hs'.peek?])

/-- A side on the right is a place. -/
theorem rightSide_side_cons {side : Side} (h : side? token = some side) (p : Pos) (ts : Phrase) (last : Pos) :
    reader rightSide ⟨⟨token, p⟩ :: ts, last⟩ = reader place ⟨⟨token, p⟩ :: ts, last⟩ := by
  obtain rfl := side?_eq_some.1 h
  cases side <;> rfl

/-- A bracket on the right starts an array literal. -/
theorem rightSide_array_cons (p : Pos) (ts : Phrase) (last : Pos) :
    reader rightSide ⟨mark .openBracket p :: ts, last⟩ = reader (commaList .closeBracket) ⟨ts, last⟩ :=
  map_bind_ok (f := Parsed.rest) fun _ => rfl

theorem rightSide_newPair_cons (p : Pos) (ts : Phrase) (last : Pos) :
    reader rightSide ⟨word .newpair p :: ts, last⟩ =
      (reader (Stream.symbol · .openParen)).andThen ((reader (expression 0)).andThen
        ((reader (Stream.symbol · .comma)).andThen ((reader (expression 0)).andThen
          (reader (Stream.symbol · .closeParen))))) ⟨ts, last⟩ := by
  refine map_bind (f := Parsed.rest) ?_
  rintro ⟨q, r₁, h₁⟩
  refine map_bind ?_
  rintro ⟨fst, r₂, h₂⟩
  refine map_bind ?_
  rintro ⟨r, r₃, h₃⟩
  refine map_bind ?_
  rintro ⟨snd, r₄, h₄⟩
  exact map_bind_ok fun _ => rfl

theorem rightSide_call_cons (p : Pos) (ts : Phrase) (last : Pos) :
    reader rightSide ⟨word .call p :: ts, last⟩ =
      (reader Stream.identifier).andThen ((reader (Stream.symbol · .openParen)).andThen
        (reader (commaList .closeParen))) ⟨ts, last⟩ := by
  refine map_bind (f := Parsed.rest) ?_
  rintro ⟨name, r₁, h₁⟩
  refine map_bind ?_
  rintro ⟨q, r₂, h₂⟩
  exact map_bind_ok fun _ => rfl

theorem peek_bind {β : Type} (t : Located Token) (ts : Phrase) (last : Pos)
    (k : Token → Except SyntaxError β) : ((⟨t :: ts, last⟩ : Stream).peek >>= k) = k t.val := rfl

/-- A token that starts a right-hand side only as an expression does. -/
theorem rightSide_expr_cons (hside : side? token = none) (hbracket : token ≠ .symbol .openBracket)
    (hpair : token ≠ .keyword .newpair) (hcall : token ≠ .keyword .call) (p : Pos) (ts : Phrase) (last : Pos) :
    reader rightSide ⟨⟨token, p⟩ :: ts, last⟩ = reader (expression 0) ⟨⟨token, p⟩ :: ts, last⟩ := by
  rw [reader, rightSide, peek_bind]
  simp only [hside]
  rfl

/-- Reading a right-hand side blames the first token that none goes on with. -/
theorem tracked_rightSide (s : Stream) : Tracked .right (reader rightSide) s := by
  obtain ⟨tokens, last⟩ := s
  cases tokens with
  | nil => exact tracked_end Lang.possible_right rfl
  | cons t ts =>
    obtain ⟨token, p⟩ := t
    cases hside : side? token with
    | some side =>
      refine ((tracked_place _).mono fun ts => Lang.right_of_place).congr fun s' hs' => ?_
      obtain ⟨p', ts', last', rfl, -⟩ := hs'.cons
      exact rightSide_side_cons hside p' ts' last'
    | none =>
      by_cases hbracket : token = .symbol .openBracket
      · subst hbracket
        refine tracked_next (fun p' ts' last' _ => rightSide_array_cons p' ts' last') ?_
        exact (tracked_commaList .closeBracket _).mono fun ts => Lang.right_array
      by_cases hpair : token = .keyword .newpair
      · subst hpair
        refine tracked_next (fun p' ts' last' _ => rightSide_newPair_cons p' ts' last') ?_
        refine Tracked.mono ?_ fun ts => Lang.right_of_newPairTail
        have hexpr := Lang.possible_expr (Nat.zero_le operandLevel)
        have hsnd := hexpr.followedBy (Lang.possible_token (.symbol .closeParen))
        have hcomma := (Lang.possible_token (.symbol .comma)).followedBy hsnd
        refine (tracked_symbol _ _).andThen (hexpr.followedBy hcomma) fun r₁ _ => ?_
        refine (tracked_expression 0 r₁ (Nat.zero_le _)).andThen hcomma fun r₂ _ => ?_
        refine (tracked_symbol _ r₂).andThen hsnd fun r₃ _ => ?_
        exact (tracked_expression 0 r₃ (Nat.zero_le _)).andThen (Lang.possible_token _) fun r₄ _ => tracked_symbol _ r₄
      by_cases hcall : token = .keyword .call
      · subst hcall
        refine tracked_next (fun p' ts' last' _ => rightSide_call_cons p' ts' last') ?_
        refine Tracked.mono ?_ fun ts => Lang.right_of_callTail
        have hopen := (Lang.possible_token (.symbol .openParen)).followedBy (@Lang.possible_argsTo .closeParen)
        refine (tracked_identifier _).andThen hopen fun r₁ _ => ?_
        exact (tracked_symbol _ r₁).andThen Lang.possible_argsTo fun r₂ _ => tracked_commaList _ r₂
      · refine ((tracked_expression 0 _ (Nat.zero_le _)).mono fun ts => Lang.right_of_expr).congr fun s' hs' => ?_
        obtain ⟨p', ts', last', rfl, -⟩ := hs'.cons
        exact rightSide_expr_cons hside hbracket hpair hcall p' ts' last'

theorem assigned_eq (s : Stream) :
    reader assigned s = (reader (Stream.symbol · .assign)).andThen (reader rightSide) s := by
  rw [reader, assigned]
  refine map_bind ?_
  rintro ⟨q, r, h⟩
  exact map_bind_ok fun _ => rfl

/-- Behind the equals sign the right-hand side is blamed. -/
theorem tracked_assigned (s : Stream) : Tracked .assigned (reader assigned) s := by
  refine Tracked.congr ?_ fun s' _ => assigned_eq s'
  exact (tracked_symbol _ s).andThen Lang.possible_right fun r _ => tracked_rightSide r

theorem declaration_eq (s : Stream) :
    reader declaration s = (reader typeExpr).andThen ((reader Stream.identifier).andThen (reader assigned)) s := by
  rw [reader, declaration]
  refine map_bind ?_
  rintro ⟨type, r₁, h₁⟩
  refine map_bind ?_
  rintro ⟨name, r₂, h₂⟩
  exact map_bind_ok fun _ => rfl

/-- Reading a declaration blames the first token that none goes on with. -/
theorem tracked_declaration (s : Stream) : Tracked .declaration (reader declaration) s := by
  refine Tracked.congr ?_ fun s' _ => declaration_eq s'
  refine (tracked_typeExpr s).andThen (Lang.possible_name.followedBy Lang.possible_assigned) fun r₁ _ => ?_
  exact (tracked_identifier r₁).andThen Lang.possible_assigned fun r₂ _ => tracked_assigned r₂

theorem assignment_eq (s : Stream) :
    reader assignment s = (reader place).andThen (reader assigned) s := by
  rw [reader, assignment]
  refine map_bind ?_
  rintro ⟨dst, r₁, h₁⟩
  exact map_bind_ok fun _ => rfl

/-- Reading an assignment blames the first token that none goes on with. -/
theorem tracked_assignment (s : Stream) : Tracked .assignment (reader assignment) s := by
  refine Tracked.congr ?_ fun s' _ => assignment_eq s'
  exact (tracked_place s).andThen Lang.possible_assigned fun r _ => tracked_assigned r

/-- A statement that is a word and an expression. -/
inductive OperandWord : Keyword → Prop
  | free : OperandWord .free
  | ret : OperandWord .return_
  | exit : OperandWord .exit
  | print : OperandWord .print
  | println : OperandWord .println

theorem statement_skip_cons (p : Pos) (ts : Phrase) (last : Pos) :
    reader statement ⟨word .skip p :: ts, last⟩ = .ok ⟨ts, last⟩ := by
  rw [reader, statement, next_bind]
  rfl

theorem statement_read_cons (p : Pos) (ts : Phrase) (last : Pos) :
    reader statement ⟨word .read p :: ts, last⟩ = reader place ⟨ts, last⟩ := by
  rw [reader, statement, next_bind]
  exact map_bind_ok fun _ => rfl

/-- These words ask for one expression. -/
theorem statement_operand_cons {keyword : Keyword} (h : OperandWord keyword) (p : Pos) (ts : Phrase) (last : Pos) :
    reader statement ⟨word keyword p :: ts, last⟩ = reader (expression 0) ⟨ts, last⟩ := by
  rw [reader, statement, next_bind]
  cases h <;> exact map_bind_ok fun _ => rfl

theorem statement_if_cons (p : Pos) (ts : Phrase) (last : Pos) :
    reader statement ⟨word .if_ p :: ts, last⟩ =
      (reader (expression 0)).andThen ((reader (Stream.keyword · .then_)).andThen ((reader statements).andThen
        ((reader (Stream.keyword · .else_)).andThen ((reader statements).andThen
          (reader (Stream.keyword · .fi)))))) ⟨ts, last⟩ := by
  rw [reader, statement, next_bind]
  refine map_bind ?_
  rintro ⟨cond, r₁, h₁⟩
  refine map_bind ?_
  rintro ⟨q, r₂, h₂⟩
  refine map_bind ?_
  rintro ⟨yes, r₃, h₃⟩
  refine map_bind ?_
  rintro ⟨r, r₄, h₄⟩
  refine map_bind ?_
  rintro ⟨no, r₅, h₅⟩
  exact map_bind_ok fun _ => rfl

theorem statement_while_cons (p : Pos) (ts : Phrase) (last : Pos) :
    reader statement ⟨word .while_ p :: ts, last⟩ =
      (reader (expression 0)).andThen ((reader (Stream.keyword · .do_)).andThen ((reader statements).andThen
        (reader (Stream.keyword · .done)))) ⟨ts, last⟩ := by
  rw [reader, statement, next_bind]
  refine map_bind ?_
  rintro ⟨cond, r₁, h₁⟩
  refine map_bind ?_
  rintro ⟨q, r₂, h₂⟩
  refine map_bind ?_
  rintro ⟨body, r₃, h₃⟩
  exact map_bind_ok fun _ => rfl

theorem statement_begin_cons (p : Pos) (ts : Phrase) (last : Pos) :
    reader statement ⟨word .begin p :: ts, last⟩ =
      (reader statements).andThen (reader (Stream.keyword · .end_)) ⟨ts, last⟩ := by
  rw [reader, statement, next_bind]
  refine map_bind ?_
  rintro ⟨body, r₁, h₁⟩
  exact map_bind_ok fun _ => rfl

/-- A word that starts a type starts a declaration. -/
theorem statement_type_cons (h : startsType token) (p : Pos) (ts : Phrase) (last : Pos) :
    reader statement ⟨⟨token, p⟩ :: ts, last⟩ = reader declaration ⟨⟨token, p⟩ :: ts, last⟩ := by
  have hstmt : statement (Stream.prepend ⟨[], last⟩ ([⟨token, p⟩] ++ ts)) =
      declaration (Stream.prepend ⟨[], last⟩ ([⟨token, p⟩] ++ ts)) :=
    statement_of_type ⟨⟨token, p⟩, [], rfl, h⟩
  rw [Stream.prepend, List.append_nil] at hstmt
  exact congrArg (Except.map Parsed.rest) hstmt

/-- What starts a place starts an assignment. -/
theorem statement_place_cons (h : startsPlace token) (p : Pos) (ts : Phrase) (last : Pos) :
    reader statement ⟨⟨token, p⟩ :: ts, last⟩ = reader assignment ⟨⟨token, p⟩ :: ts, last⟩ := by
  have hstmt : statement (Stream.prepend ⟨[], last⟩ ([⟨token, p⟩] ++ ts)) =
      assignment (Stream.prepend ⟨[], last⟩ ([⟨token, p⟩] ++ ts)) :=
    statement_of_place ⟨⟨token, p⟩, [], rfl, h⟩
  rw [Stream.prepend, List.append_nil] at hstmt
  exact congrArg (Except.map Parsed.rest) hstmt

/-- A body ends where no semicolon is. -/
theorem furtherStatements_none (h : s.peek? ≠ some (.symbol .semicolon)) : trailer furtherStatements s = .ok s := by
  rw [trailer, furtherStatements, nextIf?_eq_none.2 h]
  rfl

/-- Behind a semicolon a statement is read. -/
theorem furtherStatements_cons (p : Pos) (ts : Phrase) (last : Pos) :
    trailer furtherStatements ⟨mark .semicolon p :: ts, last⟩ =
      (reader statement).andThen (trailer furtherStatements) ⟨ts, last⟩ := by
  obtain ⟨h, hsome⟩ := nextIf?_of_eq ⟨ts, last⟩ (.symbol .semicolon) p []
  change Stream.nextIf? ⟨mark .semicolon p :: ts, last⟩ _ = some ⟨(), ⟨ts, last⟩, h⟩ at hsome
  rw [trailer, furtherStatements, hsome]
  refine map_bind ?_
  rintro ⟨first, r, hr⟩
  exact map_bind_ok fun _ => rfl

theorem statements_eq (s : Stream) :
    reader statements s = (reader statement).andThen (trailer furtherStatements) s := by
  rw [reader, statements]
  refine map_bind ?_
  rintro ⟨first, r, h⟩
  exact map_bind_ok fun _ => rfl

/-- Behind such a word the expression is blamed. -/
theorem tracked_operand {keyword : Keyword} (h : OperandWord keyword) :
    Tracked .statement (reader statement) ⟨word keyword p :: ts, last⟩ := by
  refine tracked_next (fun p' ts' last' _ => statement_operand_cons h p' ts' last') ?_
  refine (tracked_expression 0 _ (Nat.zero_le _)).mono fun ts hts => ?_
  obtain ⟨e, he⟩ := hts
  cases h with
  | free => exact ⟨_, .free he⟩
  | ret => exact ⟨_, .ret he⟩
  | exit => exact ⟨_, .exit he⟩
  | print => exact ⟨_, .print he⟩
  | println => exact ⟨_, .println he⟩

theorem tracked_declare (h : startsType token) :
    Tracked .statement (reader statement) ⟨⟨token, p⟩ :: ts, last⟩ := by
  refine ((tracked_declaration _).mono fun ts => Lang.statement_of_declaration).congr fun s' hs' => ?_
  obtain ⟨p', ts', last', rfl, -⟩ := hs'.cons
  exact statement_type_cons h p' ts' last'

theorem tracked_assign (h : startsPlace token) :
    Tracked .statement (reader statement) ⟨⟨token, p⟩ :: ts, last⟩ := by
  refine ((tracked_assignment _).mono fun ts => Lang.statement_of_assignment).congr fun s' hs' => ?_
  obtain ⟨p', ts', last', rfl, -⟩ := hs'.cons
  exact statement_place_cons h p' ts' last'

/-- A token that starts no statement. -/
theorem tracked_no_statement
    (h : ∀ p' ts' last', reader statement ⟨⟨token, p'⟩ :: ts', last'⟩ = .error ⟨.statement token, p'⟩) :
    Tracked .statement (reader statement) ⟨⟨token, p⟩ :: ts, last⟩ :=
  tracked_blamed (.statement token) (by simp) Lang.possible_statement fun p' ts' last' _ => h p' ts' last'

mutual

/-- Reading a body blames the first token that no body goes on with. -/
theorem tracked_statements (s : Stream) : Tracked .body (reader statements) s := by
  refine Tracked.congr ?_ fun s' _ => statements_eq s'
  refine Tracked.mono ?_ fun ts => Lang.body_of_further
  refine (tracked_statement s).andThen Lang.possible_further fun r hr => ?_
  have hlt := reader_shorter hr
  exact tracked_further r
termination_by 2 * s.tokens.length + 1

/-- Reading on blames what cannot follow a statement. -/
theorem tracked_further (s : Stream) : Tracked .further (trailer furtherStatements) s := by
  cases hsome : s.nextIf? (.symbol .semicolon) with
  | none =>
    refine tracked_nothing Lang.further_nil fun s' hs' => furtherStatements_none ?_
    rw [hs'.peek?]
    exact nextIf?_eq_none.1 hsome
  | some parsed =>
    obtain ⟨_, r, hr⟩ := parsed
    obtain ⟨p, hs⟩ := nextIf?_eq_some hsome
    refine tracked_step hs (fun p' ts' last' _ => furtherStatements_cons p' ts' last') ?_
    refine Tracked.mono ?_ fun ts => Lang.further_cons
    refine (tracked_statement r).andThen Lang.possible_further fun r₁ h₁ => ?_
    have hlt := reader_shorter h₁
    exact tracked_further r₁
termination_by 2 * s.tokens.length

/-- Reading a statement blames the first token that none goes on with. -/
theorem tracked_statement (s : Stream) : Tracked .statement (reader statement) s := by
  match s with
  | ⟨[], last⟩ =>
    refine tracked_end Lang.possible_statement ?_
    rw [reader, statement]
    rfl
  | ⟨⟨token, p⟩ :: ts, last⟩ =>
    cases token with
    | ident name => exact tracked_assign rfl
    | keyword word =>
      cases word with
      | skip => exact tracked_only ⟨_, .skip⟩ statement_skip_cons
      | read =>
        refine tracked_next (fun p' ts' last' _ => statement_read_cons p' ts' last') ?_
        refine (tracked_place _).mono fun ts hts => ?_
        obtain ⟨e, he⟩ := hts
        exact ⟨_, .read he⟩
      | free => exact tracked_operand .free
      | return_ => exact tracked_operand .ret
      | exit => exact tracked_operand .exit
      | print => exact tracked_operand .print
      | println => exact tracked_operand .println
      | if_ =>
        refine tracked_next (fun p' ts' last' _ => statement_if_cons p' ts' last') ?_
        refine Tracked.mono ?_ fun ts => Lang.statement_of_branchTail
        have hno := Lang.possible_body.followedBy (Lang.possible_token (.keyword .fi))
        have helse := (Lang.possible_token (.keyword .else_)).followedBy hno
        have hyes := Lang.possible_body.followedBy helse
        have hthen := (Lang.possible_token (.keyword .then_)).followedBy hyes
        refine (tracked_expression 0 _ (Nat.zero_le _)).andThen hthen fun r₁ h₁ => ?_
        refine (tracked_keyword _ r₁).andThen hyes fun r₂ h₂ => ?_
        have hlt₁ : r₁.tokens.length < ts.length := reader_shorter h₁
        have hlt₂ := reader_shorter h₂
        refine (tracked_statements r₂).andThen helse fun r₃ h₃ => ?_
        refine (tracked_keyword _ r₃).andThen hno fun r₄ h₄ => ?_
        have hlt₃ := reader_shorter h₃
        have hlt₄ := reader_shorter h₄
        exact (tracked_statements r₄).andThen (Lang.possible_token _) fun r₅ _ => tracked_keyword _ r₅
      | while_ =>
        refine tracked_next (fun p' ts' last' _ => statement_while_cons p' ts' last') ?_
        refine Tracked.mono ?_ fun ts => Lang.statement_of_loopTail
        have hbody := Lang.possible_body.followedBy (Lang.possible_token (.keyword .done))
        have hdo := (Lang.possible_token (.keyword .do_)).followedBy hbody
        refine (tracked_expression 0 _ (Nat.zero_le _)).andThen hdo fun r₁ h₁ => ?_
        refine (tracked_keyword _ r₁).andThen hbody fun r₂ h₂ => ?_
        have hlt₁ : r₁.tokens.length < ts.length := reader_shorter h₁
        have hlt₂ := reader_shorter h₂
        exact (tracked_statements r₂).andThen (Lang.possible_token _) fun r₃ _ => tracked_keyword _ r₃
      | begin =>
        refine tracked_next (fun p' ts' last' _ => statement_begin_cons p' ts' last') ?_
        refine Tracked.mono ?_ fun ts => Lang.statement_of_scopeTail
        exact (tracked_statements ⟨ts, last⟩).andThen (Lang.possible_token _) fun r₁ _ => tracked_keyword _ r₁
      | int | bool | char | string | pair => exact tracked_declare rfl
      | fst | snd => exact tracked_assign rfl
      | _ =>
        refine tracked_no_statement fun p' ts' last' => ?_
        rw [reader, statement, next_bind]
        rfl
    | _ =>
      refine tracked_no_statement fun p' ts' last' => ?_
      rw [reader, statement, next_bind]
      rfl
termination_by 2 * s.tokens.length

end

end Parser

end WaccArm
