import WaccArm.Compiler
import WaccArm.Proofs.Lexer.Reread
import WaccArm.Proofs.Positions.Checker
import WaccArm.Proofs.Positions.Parser

namespace WaccArm

/-- All places are taken for one. -/
def Pos.forgotten (_ : Pos) : Pos := .nowhere

namespace CompileError

/-- The error without its places: those it is blamed on, and those inside an expression that it shows. -/
def unplaced : CompileError → CompileError
  | lexing e => .lexing (e.moved Pos.forgotten)
  | parsing e => .parsing (e.moved Pos.forgotten)
  | checking e => .checking (e.moved Pos.forgotten)
  | emitting fault => .emitting fault

/-- The written form of the place that the error reports. -/
def place (e : CompileError) : String := (e.pos?.map Pos.text).getD ""

/-- The message up to the place. -/
def lead : CompileError → String
  | lexing _ | parsing _ => "Syntax" ++ " Error at "
  | checking _ => "Semantic" ++ " Error at "
  | emitting fault => "Code generation: " ++ fault.message

/-- The message from the place on. -/
def tail : CompileError → String
  | lexing e => " -- " ++ e.val.message
  | parsing e => " -- " ++ e.val.message
  | checking e => " -- " ++ e.val.message
  | emitting _ => ""

/-- A message has its place in the middle. -/
theorem message_eq (e : CompileError) : e.message = e.lead ++ e.place ++ e.tail := by
  cases e with
  | lexing e => exact String.append_assoc
  | parsing e => exact String.append_assoc
  | checking e => exact String.append_assoc
  | emitting fault =>
    change _ = "Code generation: " ++ fault.message ++ "" ++ ""
    rw [String.append_empty, String.append_empty]
    rfl

theorem lead_unplaced (e : CompileError) : e.unplaced.lead = e.lead := by cases e <;> rfl

/-- What follows the place does not depend on it. -/
theorem tail_unplaced (e : CompileError) : e.unplaced.tail = e.tail := by
  cases e with
  | checking e =>
    change " -- " ++ (e.val.moved Pos.forgotten).message = " -- " ++ e.val.message
    rw [CheckFault.message_moved]
  | _ => rfl

/-- The messages of two errors that are the same without their places differ in the reported place only. -/
theorem message_of_unplaced {e e' : CompileError} (h : e.unplaced = e'.unplaced) :
    ∃ before after, e.message = before ++ e.place ++ after ∧ e'.message = before ++ e'.place ++ after := by
  refine ⟨e.lead, e.tail, e.message_eq, ?_⟩
  rw [message_eq, ← lead_unplaced e', ← tail_unplaced e', ← h, lead_unplaced, tail_unplaced]

end CompileError

/-- Two compilations end alike: with the same text, or both without one, or with errors of the same kind
whose messages differ in the reported place only. -/
inductive SameOutcome : Except CompileError (Option String) → Except CompileError (Option String) → Prop
  | ok (text : Option String) : SameOutcome (.ok text) (.ok text)
  | error {e e' : CompileError} (hkind : e.unplaced = e'.unplaced)
      (hmessage : ∃ before after, e.message = before ++ e.place ++ after ∧
        e'.message = before ++ e'.place ++ after) : SameOutcome (.error e) (.error e')

theorem SameOutcome.of_unplaced {e e' : CompileError} (h : e.unplaced = e'.unplaced) :
    SameOutcome (.error e) (.error e') := .error h (CompileError.message_of_unplaced h)

theorem SameOutcome.refl (x : Except CompileError (Option String)) : SameOutcome x x := by
  cases x with
  | ok text => exact .ok text
  | error e => exact .of_unplaced rfl

/-- Programs that differ in places only are checked alike. -/
theorem check_unplaced {p p' : Source.Program} (h : p.moved Pos.forgotten = p'.moved Pos.forgotten) :
    (∃ c, check p = .ok c ∧ check p' = .ok c) ∨
      ∃ e e' : CheckError, check p = .error e ∧ check p' = .error e' ∧
        e.moved Pos.forgotten = e'.moved Pos.forgotten := by
  have hcheck : (check p).mapError (CheckError.moved Pos.forgotten) =
      (check p').mapError (CheckError.moved Pos.forgotten) := by
    rw [← check_moved, ← check_moved, h]
  cases hp : check p with
  | ok c =>
    cases hp' : check p' with
    | ok c' =>
      rw [hp, hp'] at hcheck
      cases hcheck
      exact .inl ⟨c, rfl, rfl⟩
    | error e' =>
      rw [hp, hp'] at hcheck
      cases hcheck
  | error e =>
    cases hp' : check p' with
    | ok c' =>
      rw [hp, hp'] at hcheck
      cases hcheck
    | error e' =>
      rw [hp, hp'] at hcheck
      exact .inr ⟨e, e', rfl, rfl, Except.error.inj hcheck⟩

theorem Parser.Moves.eq_ok {move : Pos → Pos} {p : Source.Program} {x : Except SyntaxError Source.Program}
    (h : Moves move (fun p p' => p' = p.moved move) (.ok p) x) : x = .ok (p.moved move) := by
  cases h with
  | ok h => rw [h]

theorem Parser.Moves.eq_error {move : Pos → Pos} {e : SyntaxError} {R : Source.Program → Source.Program → Prop}
    {x : Except SyntaxError Source.Program} (h : Moves move R (.error e) x) : x = .error (e.moved move) := by
  cases h with
  | error => rfl

/-- Tokens that differ in places only are parsed alike. -/
theorem parse_unplaced {tokens tokens' : List (Located Token)}
    (hsame : tokens.map Located.val = tokens'.map Located.val) :
    (∃ p p', parse tokens = .ok p ∧ parse tokens' = .ok p' ∧
        p.moved Pos.forgotten = p'.moved Pos.forgotten) ∨
      ∃ e e' : SyntaxError, parse tokens = .error e ∧ parse tokens' = .error e' ∧
        e.moved Pos.forgotten = e'.moved Pos.forgotten := by
  have herased : ∀ ts : List (Located Token),
      ts.map (Located.moved Pos.forgotten) = (ts.map Located.val).map (⟨·, .nowhere⟩) := by
    intro ts
    rw [List.map_map]
    rfl
  have h := @parse_moved Pos.forgotten rfl tokens
  have h' := @parse_moved Pos.forgotten rfl tokens'
  rw [herased, hsame, ← herased] at h
  cases hp : parse tokens with
  | ok p =>
    rw [hp] at h
    cases hp' : parse tokens' with
    | ok p' =>
      rw [hp'] at h'
      exact .inl ⟨p, p', rfl, rfl, Except.ok.inj (h.eq_ok.symm.trans h'.eq_ok)⟩
    | error e' =>
      rw [hp'] at h'
      cases h.eq_ok.symm.trans h'.eq_error
  | error e =>
    rw [hp] at h
    cases hp' : parse tokens' with
    | ok p' =>
      rw [hp'] at h'
      cases h.eq_error.symm.trans h'.eq_ok
    | error e' =>
      rw [hp'] at h'
      exact .inr ⟨e, e', rfl, rfl, Except.error.inj (h.eq_error.symm.trans h'.eq_error)⟩

/-- The rest of a compilation from a parsed program on. -/
def compileParsed (p : Source.Program) (stage : Option Stage) : Except CompileError (Option String) :=
  if stage = some .parse then .ok none
  else do
    let checked ← (check p).mapError .checking
    if stage = some .validate then return none
    let file ← (generate checked).mapError .emitting
    return some file.text

/-- The compiler sees nothing but the tokens. -/
theorem compile_of_tokens {source : List UInt8} {tokens : List (Located Token)}
    (h : tokenize source = .ok tokens) (stage : Option Stage) :
    compile source stage =
      if stage = some .lex then .ok none
      else (parse tokens).mapError .parsing >>= fun p => compileParsed p stage := by
  rw [compile, h]
  rfl

/-- Programs that differ in places only are compiled alike. -/
theorem compileParsed_unplaced {p p' : Source.Program}
    (h : p.moved Pos.forgotten = p'.moved Pos.forgotten) (stage : Option Stage) :
    SameOutcome (compileParsed p stage) (compileParsed p' stage) := by
  rw [compileParsed, compileParsed]
  by_cases hparse : stage = some .parse
  · rw [if_pos hparse, if_pos hparse]
    exact .ok none
  · rw [if_neg hparse, if_neg hparse]
    obtain ⟨c, hc, hc'⟩ | ⟨e, e', he, he', hmoved⟩ := check_unplaced h
    · rw [hc, hc']
      exact .refl _
    · rw [he, he']
      exact .of_unplaced (congrArg CompileError.checking hmoved)

/-- Two texts with the same tokens compile alike at every stage, wherever their tokens stand. -/
theorem compile_of_same_tokens {source source' : List UInt8} {tokens tokens' : List (Located Token)}
    (h : tokenize source = .ok tokens) (h' : tokenize source' = .ok tokens')
    (hsame : tokens.map Located.val = tokens'.map Located.val) (stage : Option Stage) :
    SameOutcome (compile source stage) (compile source' stage) := by
  rw [compile_of_tokens h, compile_of_tokens h']
  by_cases hlex : stage = some .lex
  · rw [if_pos hlex, if_pos hlex]
    exact .ok none
  · rw [if_neg hlex, if_neg hlex]
    obtain ⟨p, p', hp, hp', hmoved⟩ | ⟨e, e', he, he', hmoved⟩ := parse_unplaced hsame
    · rw [hp, hp']
      exact compileParsed_unplaced hmoved stage
    · rw [he, he']
      exact .of_unplaced (congrArg CompileError.parsing hmoved)

/-- A declaration of the wrong type on one line, and the same with lines and a comment put in. -/
theorem relaid_declaration_same_outcome :
    ∃ tokens tokens', tokenize (Text.bytes "begin int x = true end") = .ok tokens ∧
      tokenize (Text.bytes "begin # a flag\n\tint x=true\nend\n") = .ok tokens' ∧
      tokens.map Located.val = tokens'.map Located.val ∧
      ∀ stage, SameOutcome (compile (Text.bytes "begin int x = true end") stage)
        (compile (Text.bytes "begin # a flag\n\tint x=true\nend\n") stage) := by
  have hvalues : Lexer.values (Text.bytes "begin int x = true end") = some [.keyword .begin,
      .keyword .int, .ident "x", .symbol .assign, .keyword .true_, .keyword .end_] := by
    repeat apply Lexer.values_lexeme rfl rfl
    exact Lexer.values_end rfl
  have hvalues' : Lexer.values (Text.bytes "begin # a flag\n\tint x=true\nend\n") =
      some [.keyword .begin, .keyword .int, .ident "x", .symbol .assign, .keyword .true_,
        .keyword .end_] := by
    repeat apply Lexer.values_lexeme rfl rfl
    exact Lexer.values_end rfl
  obtain ⟨tokens, h, hvals⟩ := Lexer.values_eq_some.1 hvalues
  obtain ⟨tokens', h', hvals'⟩ := Lexer.values_eq_some.1 hvalues'
  have hsame := hvals.trans hvals'.symm
  exact ⟨tokens, tokens', h, h', hsame, compile_of_same_tokens h h' hsame⟩

end WaccArm
