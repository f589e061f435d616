import WaccArm.Parser.Program
import WaccArm.Proofs.Parser.Stmt

namespace WaccArm

namespace Grammar

theorem ParamSpelled.starts {param : Source.Param} {ts : Phrase} (h : ParamSpelled param ts) :
    Starts startsType ts := by
  cases h with
  | mk htype _ => exact htype.starts.append _

/-- Parameters start with a type. -/
theorem ParamsSpelled.starts {params : List Source.Param} {ts : Phrase} (h : ParamsSpelled params ts)
    (hne : params ≠ []) : Starts startsType ts := by
  cases h with
  | none => exact absurd rfl hne
  | one h => exact h.starts
  | cons h _ => exact h.starts.append _

/-- A place does not start like a type. -/
theorem startsType_of_startsPlace {token : Token} (h : startsPlace token) : startsType token = false := by
  unfold startsPlace at h
  split at h
  · rfl
  · rfl
  · rfl
  · cases h

end Grammar

namespace Parser

open Grammar

variable {r s : Stream}

/-- What is read as parameters is spelled like them. -/
theorem commaParams_sound (s : Stream) {params : List Source.Param} {r : Stream}
    {h : r.tokens.length < s.tokens.length} (hok : commaParams s = .ok ⟨params, r, h⟩) :
    ∃ ts p, s = r.prepend (ts ++ [mark .closeParen p]) ∧ params ≠ [] ∧ ParamsSpelled params ts := by
  rw [commaParams] at hok
  obtain ⟨⟨type, r₁, h₁⟩, htype, hok⟩ := except_bind_eq_ok.1 hok
  obtain ⟨⟨name, r₂, h₂⟩, hname, hok⟩ := except_bind_eq_ok.1 hok
  obtain ⟨⟨⟨token, p⟩, r₃, h₃⟩, hnext, hok⟩ := except_bind_eq_ok.1 hok
  obtain ⟨ts, hs, htype⟩ := typeExpr_sound htype
  obtain ⟨q, hr₁⟩ := identifier_eq_ok hname
  have hpos := Stream.startsAt_pos hs htype.starts
  have hparam : ParamSpelled ⟨type, name, s.pos⟩ (ts ++ [ident name q]) := .mk htype hpos
  have hs := Stream.prepend_trans (Stream.prepend_trans hs hr₁) (next_eq_ok hnext)
  simp only at hok
  split at hok
  · rename_i hcomma
    obtain rfl : token = .symbol .comma := hcomma
    obtain ⟨⟨others, r₄, h₄⟩, hothers, hok⟩ := except_bind_eq_ok.1 hok
    cases hok
    have hlt : r₃.tokens.length < s.tokens.length := Nat.lt_trans h₃ (Nat.lt_trans h₂ h₁)
    obtain ⟨us, t, hr₃, hne, hothers⟩ := commaParams_sound r₃ hothers
    obtain ⟨other, others, rfl⟩ := List.exists_cons_of_ne_nil hne
    refine ⟨ts ++ [ident name q] ++ mark .comma p :: us, t, ?_, List.cons_ne_nil _ _, .cons hparam hothers⟩
    rw [Stream.prepend_trans hs hr₃]
    simp
  · split at hok
    · rename_i hclose
      obtain rfl : token = .symbol .closeParen := hclose
      cases hok
      exact ⟨_, p, hs, List.cons_ne_nil _ _, .one hparam⟩
    · cases hok
termination_by s.tokens.length

theorem params_sound {params : List Source.Param} {h : r.tokens.length < s.tokens.length}
    (hok : Parser.params s = .ok ⟨params, r, h⟩) :
    ∃ ts p, s = r.prepend (ts ++ [mark .closeParen p]) ∧ ParamsSpelled params ts := by
  rw [Parser.params] at hok
  split at hok
  · rename_i r₁ h₁ hsome
    cases hok
    obtain ⟨p, hs⟩ := nextIf?_eq_some hsome
    exact ⟨[], p, hs, .none⟩
  · obtain ⟨ts, p, hs, -, hparams⟩ := commaParams_sound s hok
    exact ⟨ts, p, hs, hparams⟩

/-- What is read as a function is spelled like one. -/
theorem function_sound {f : Source.Func} {h : r.tokens.length < s.tokens.length}
    (hok : function s = .ok ⟨f, r, h⟩) : ∃ ts, s = r.prepend ts ∧ FuncSpelled f ts := by
  rw [function] at hok
  obtain ⟨⟨ret, r₁, h₁⟩, hret, hok⟩ := except_bind_eq_ok.1 hok
  obtain ⟨⟨name, r₂, h₂⟩, hname, hok⟩ := except_bind_eq_ok.1 hok
  obtain ⟨⟨p, r₃, h₃⟩, hopen, hok⟩ := except_bind_eq_ok.1 hok
  obtain ⟨⟨params, r₄, h₄⟩, hparams, hok⟩ := except_bind_eq_ok.1 hok
  obtain ⟨⟨q, r₅, h₅⟩, his, hok⟩ := except_bind_eq_ok.1 hok
  obtain ⟨⟨body, r₆, h₆⟩, hbody, hok⟩ := except_bind_eq_ok.1 hok
  obtain ⟨⟨t, r₇, h₇⟩, hend, hok⟩ := except_bind_eq_ok.1 hok
  cases hok
  obtain ⟨ts, hs, hret⟩ := typeExpr_sound hret
  obtain ⟨u, hr₁⟩ := identifier_eq_ok hname
  obtain ⟨us, v, hr₃, hparams⟩ := params_sound hparams
  obtain ⟨vs, hr₅, hbody⟩ := statements_sound r₅ hbody
  have hpos := Stream.startsAt_pos hs hret.starts
  refine ⟨ts ++ ident name u :: mark .openParen p ::
    (us ++ mark .closeParen v :: word .is q :: (vs ++ [word .end_ t])), ?_, .mk hret hpos hparams hbody⟩
  have hr₅ := Stream.prepend_trans hr₅ (consume_eq_ok hend)
  have hr₃ := Stream.prepend_trans hr₃ (Stream.prepend_trans (consume_eq_ok his) hr₅)
  have hr₁ := Stream.prepend_trans hr₁ (Stream.prepend_trans (consume_eq_ok hopen) hr₃)
  rw [Stream.prepend_trans hs hr₁]
  simp

/-- What is read as functions is spelled like them. -/
theorem functions_sound (s : Stream) {fs : List Source.Func} {r : Stream}
    {h : r.tokens.length ≤ s.tokens.length} (hok : functions s = .ok ⟨fs, r, h⟩) :
    ∃ ts, s = r.prepend ts ∧ FuncsSpelled fs ts := by
  rw [functions] at hok
  split at hok
  · obtain ⟨⟨f, r₁, h₁⟩, hf, hok⟩ := except_bind_eq_ok.1 hok
    obtain ⟨⟨others, r₂, h₂⟩, hothers, hok⟩ := except_bind_eq_ok.1 hok
    cases hok
    obtain ⟨ts, hs, hf⟩ := function_sound hf
    obtain ⟨us, hr₁, hothers⟩ := functions_sound r₁ hothers
    exact ⟨_, Stream.prepend_trans hs hr₁, .cons hf hothers⟩
  · cases hok
    exact ⟨[], rfl, .nil⟩
termination_by s.tokens.length

/-- What is read as a program is spelled like one. -/
theorem program_sound {program : Source.Program} {h : r.tokens.length < s.tokens.length}
    (hok : Parser.program s = .ok ⟨program, r, h⟩) : ∃ ts, s = r.prepend ts ∧ ProgramSpelled program ts := by
  rw [Parser.program] at hok
  obtain ⟨⟨p, r₁, h₁⟩, hbegin, hok⟩ := except_bind_eq_ok.1 hok
  obtain ⟨⟨funcs, r₂, h₂⟩, hfuncs, hok⟩ := except_bind_eq_ok.1 hok
  obtain ⟨⟨body, r₃, h₃⟩, hbody, hok⟩ := except_bind_eq_ok.1 hok
  obtain ⟨⟨q, r₄, h₄⟩, hend, hok⟩ := except_bind_eq_ok.1 hok
  cases hok
  obtain ⟨ts, hr₁, hfuncs⟩ := functions_sound r₁ hfuncs
  obtain ⟨us, hr₂, hbody⟩ := statements_sound r₂ hbody
  have hr₂ := Stream.prepend_trans hr₂ (consume_eq_ok hend)
  have hr₁ := Stream.prepend_trans hr₁ hr₂
  exact ⟨_, Stream.prepend_trans (consume_eq_ok hbegin) hr₁, .mk hfuncs hbody⟩

/-- Parameters are read up to the parenthesis. -/
theorem reads_commaParams {params : List Source.Param} {ts us : Phrase} {p : Pos}
    (h : ParamsSpelled params ts) (hne : params ≠ []) :
    Reads (commaParams (r.prepend (ts ++ mark .closeParen p :: us))) params (r.prepend us) := by
  induction h with
  | none => exact absurd rfl hne
  | one h =>
    obtain @⟨type, name, ts, q, t, htype, hpos⟩ := h
    have hphrase : ts ++ [ident name t] ++ mark .closeParen p :: us =
        ts ++ ident name t :: mark .closeParen p :: us := by simp
    rw [hphrase, commaParams, Stream.pos_of_startsAt hpos]
    refine Reads.bind (reads_type htype nofun) fun h₁ => ?_
    refine Reads.bind (reads_identifier ..) fun h₂ => ?_
    refine Reads.bind (reads_next ..) fun h₃ => ?_
    exact ⟨_, rfl⟩
  | @cons param other params ts vs q h _ ih =>
    obtain @⟨type, name, ts, t, u, htype, hpos⟩ := h
    have hphrase : ts ++ [ident name u] ++ mark .comma q :: vs ++ mark .closeParen p :: us =
        ts ++ ident name u :: mark .comma q :: (vs ++ mark .closeParen p :: us) := by simp
    rw [hphrase, commaParams, Stream.pos_of_startsAt hpos]
    refine Reads.bind (reads_type htype nofun) fun h₁ => ?_
    refine Reads.bind (reads_identifier ..) fun h₂ => ?_
    refine Reads.bind (reads_next ..) fun h₃ => ?_
    simp only [if_true]
    exact Reads.bind (ih (List.cons_ne_nil _ _)) fun _ => ⟨_, rfl⟩

theorem reads_params {params : List Source.Param} {ts us : Phrase} {p : Pos} (h : ParamsSpelled params ts) :
    Reads (Parser.params (r.prepend (ts ++ mark .closeParen p :: us))) params (r.prepend us) := by
  rcases eq_or_ne params [] with rfl | hne
  · cases h
    obtain ⟨hlt, hsome⟩ := nextIf?_of_eq r (.symbol .closeParen) p us
    rw [List.nil_append, Parser.params, hsome]
    exact ⟨_, rfl⟩
  · have hnone : (r.prepend (ts ++ mark .closeParen p :: us)).nextIf? (.symbol .closeParen) = none := by
      refine nextIf?_eq_none.2 fun heq => ?_
      obtain ⟨⟨token, q⟩, ts', rfl, hstarts⟩ := h.starts hne
      obtain rfl : token = .symbol .closeParen := Option.some.inj heq
      cases hstarts
    rw [Parser.params, hnone]
    exact reads_commaParams h hne

/-- What is spelled like a function is read as it. -/
theorem reads_function {f : Source.Func} {ts ws : Phrase} (h : FuncSpelled f ts) :
    Reads (function (r.prepend (ts ++ ws))) f (r.prepend ws) := by
  obtain @⟨name, ret, params, body, ts, us, vs, p, q, o, t, u, v, hret, hpos, hparams, hbody⟩ := h
  have hphrase : ts ++ ident name q :: mark .openParen o ::
      (us ++ mark .closeParen t :: word .is u :: (vs ++ [word .end_ v])) ++ ws =
    ts ++ ident name q :: mark .openParen o ::
      (us ++ mark .closeParen t :: word .is u :: (vs ++ word .end_ v :: ws)) := by simp
  rw [hphrase, function, Stream.pos_of_startsAt hpos]
  refine Reads.bind (reads_type hret nofun) fun h₁ => ?_
  refine Reads.bind (reads_identifier ..) fun h₂ => ?_
  refine Reads.bind (reads_symbol ..) fun h₃ => ?_
  refine Reads.bind (reads_params hparams) fun h₄ => ?_
  refine Reads.bind (reads_keyword ..) fun h₅ => ?_
  refine Reads.bind (reads_body hbody (ends_cons nofun rfl) nofun) fun h₆ => ?_
  exact Reads.bind (reads_keyword ..) fun _ => ⟨_, rfl⟩

/-- A type and a name are looked past. -/
theorem startsFunction_of_type {type : TypeExpr} {name : String} {ts us : Phrase} {p : Pos}
    (h : TypeSpelled type ts) : startsFunction (r.prepend (ts ++ ident name p :: us)) =
      ((r.prepend us).peek? == some (.symbol .openParen)) := by
  have hread : Reads (typeExpr (r.prepend (ts ++ ident name p :: us))) type _ := reads_type h nofun
  obtain ⟨h₁, htype⟩ := hread
  obtain ⟨h₂, hname⟩ := reads_identifier r name p us
  rw [startsFunction, htype]
  simp only [hname]

/-- A function starts with a type. -/
theorem startsFunction_of_not_type {t : Located Token} {ts : Phrase} (h : startsType t.val = false) :
    startsFunction (r.prepend (t :: ts)) = false := by
  rw [startsFunction]
  split
  · rfl
  · rename_i type r₁ h₁ hok
    obtain ⟨us, hs, htype⟩ := typeExpr_sound hok
    obtain ⟨t', us', rfl, hstarts⟩ := htype.starts
    obtain ⟨rfl, -⟩ := List.cons.inj (congrArg Stream.tokens hs)
    rw [h] at hstarts
    cases hstarts

/-- No statement looks like a function. -/
theorem startsFunction_of_stmt {tree : StmtTree} {ts : Phrase} (h : StmtSpelled tree ts) (us : Phrase) :
    startsFunction (r.prepend (ts ++ us)) = false := by
  induction h generalizing us with
  | skip | read | free | ret | exit | print | println | branch | loop | scope =>
    exact startsFunction_of_not_type rfl
  | declare htype _ _ =>
    -- The only statement that starts with a type has an equals sign behind the name.
    rw [List.append_assoc]
    exact startsFunction_of_type htype
  | assign hdst _ _ =>
    obtain ⟨t, ts', rfl, hstarts⟩ := hdst.starts
    exact startsFunction_of_not_type (startsType_of_startsPlace hstarts)
  | one _ ih => exact ih us
  | cons _ _ ih _ =>
    rw [List.append_assoc]
    exact ih _
  | single _ ih => exact ih us
  | several _ ih => exact ih us

/-- A function is told from a declaration by the parenthesis. -/
theorem startsFunction_of_func {f : Source.Func} {ts us : Phrase} (h : FuncSpelled f ts) :
    startsFunction (r.prepend (ts ++ us)) = true := by
  cases h with
  | mk hret =>
    rw [List.append_assoc]
    exact startsFunction_of_type hret

/-- Functions are read up to where none starts. -/
theorem trails_functions {fs : List Source.Func} {ts us : Phrase} (h : FuncsSpelled fs ts)
    (hus : startsFunction (r.prepend us) = false) :
    Trails (functions (r.prepend (ts ++ us))) fs (r.prepend us) := by
  induction h with
  | nil =>
    rw [List.nil_append, functions, hus]
    exact ⟨_, rfl⟩
  | cons h _ ih =>
    rw [List.append_assoc, functions, if_pos (startsFunction_of_func h)]
    refine Reads.bindTrails (reads_function h) fun h₁ => ?_
    exact Trails.bindTrails ih fun _ => ⟨_, rfl⟩

theorem reads_program {program : Source.Program} {ts : Phrase} (h : ProgramSpelled program ts) :
    Reads (Parser.program (r.prepend ts)) program r := by
  cases h with
  | mk hfuncs hbody =>
    rw [Parser.program]
    refine Reads.bind (reads_keyword ..) fun h₁ => ?_
    refine Trails.bind (trails_functions hfuncs (startsFunction_of_stmt hbody _)) fun h₂ => ?_
    refine Reads.bind (reads_body hbody (ends_cons nofun rfl) nofun) fun h₃ => ?_
    exact Reads.bind (reads_keyword ..) fun _ => ⟨_, rfl⟩

end Parser

open Grammar

/-- What is accepted is a program of the grammar. -/
theorem spelled_of_parse {tokens : List (Located Token)} {program : Source.Program}
    (hok : parse tokens = .ok program) : ProgramSpelled program tokens := by
  rw [parse] at hok
  obtain ⟨⟨program', r, h⟩, hprogram, hok⟩ := except_bind_eq_ok.1 hok
  obtain ⟨ts, hs, hspelled⟩ := Parser.program_sound hprogram
  have htokens : tokens = ts ++ r.tokens := congrArg Stream.tokens hs
  simp only at hok
  split at hok
  · rename_i hnil
    cases hok
    rw [htokens, hnil, List.append_nil]
    exact hspelled
  · cases hok

/-- A program of the grammar is accepted. -/
theorem parse_of_spelled {tokens : List (Located Token)} {program : Source.Program}
    (h : ProgramSpelled program tokens) : parse tokens = .ok program := by
  let r : Stream := ⟨[], (Stream.ofTokens tokens).last⟩
  have hs : Stream.ofTokens tokens = r.prepend tokens := by
    rw [Stream.prepend, List.append_nil]
    rfl
  have hread : Parser.Reads (Parser.program (Stream.ofTokens tokens)) program r :=
    hs ▸ Parser.reads_program h
  obtain ⟨hlt, hprogram⟩ := hread
  rw [parse, hprogram]
  rfl

/-- The parser accepts what the grammar spells and nothing else, and a list of tokens spells one program
at most. -/
theorem parse_eq_ok_iff_spelled (tokens : List (Located Token)) :
    (∀ program, parse tokens = .ok program ↔ ProgramSpelled program tokens) ∧
      ∀ program other, ProgramSpelled program tokens → ProgramSpelled other tokens → program = other := by
  refine ⟨fun program => ⟨spelled_of_parse, parse_of_spelled⟩, ?_⟩
  intro program other hprogram hother
  have hok := (parse_of_spelled hprogram).symm.trans (parse_of_spelled hother)
  exact Except.ok.inj hok

namespace Grouping

/-- `-x * 2 - 1 - -4` -/
def valueTokens : Phrase :=
  [mark .minus ⟨2, 8⟩, ident "x" ⟨2, 9⟩, mark .times ⟨2, 11⟩, ⟨.int 2, ⟨2, 13⟩⟩, mark .minus ⟨2, 15⟩,
    ⟨.int 1, ⟨2, 17⟩⟩, mark .minus ⟨2, 19⟩, mark .minus ⟨2, 21⟩, ⟨.int 4, ⟨2, 22⟩⟩]

def product : Source.Expr :=
  .binary ⟨2, 8⟩ .mul (.unary ⟨2, 8⟩ .negate (.var ⟨2, 9⟩ "x")) (.int ⟨2, 13⟩ 2)

def left : Source.Expr :=
  .binary ⟨2, 8⟩ .sub (.binary ⟨2, 8⟩ .sub product (.int ⟨2, 17⟩ 1)) (.int ⟨2, 21⟩ (-4))

def right : Source.Expr :=
  .binary ⟨2, 8⟩ .sub product (.binary ⟨2, 17⟩ .sub (.int ⟨2, 17⟩ 1) (.int ⟨2, 21⟩ (-4)))

/-- `int[] a = [3]` -/
def declarationTokens : Phrase :=
  [word .int ⟨3, 1⟩, mark .openBracket ⟨3, 4⟩, mark .closeBracket ⟨3, 5⟩, ident "a" ⟨3, 7⟩, mark .assign ⟨3, 9⟩,
    mark .openBracket ⟨3, 11⟩, ⟨.int 3, ⟨3, 12⟩⟩, mark .closeBracket ⟨3, 13⟩]

def declaration : Source.Stmt :=
  .declare ⟨3, 1⟩ (.array .int 1) "a" (.array ⟨3, 11⟩ [.int ⟨3, 12⟩ 3])

/-- `a[0] = call f(+7)` -/
def assignmentTokens : Phrase :=
  [ident "a" ⟨4, 1⟩, mark .openBracket ⟨4, 2⟩, ⟨.int 0, ⟨4, 3⟩⟩, mark .closeBracket ⟨4, 4⟩, mark .assign ⟨4, 6⟩,
    word .call ⟨4, 8⟩, ident "f" ⟨4, 13⟩, mark .openParen ⟨4, 14⟩, mark .plus ⟨4, 15⟩, ⟨.int 7, ⟨4, 16⟩⟩,
    mark .closeParen ⟨4, 17⟩]

def assignment : Source.Stmt :=
  .assign ⟨4, 1⟩ (.elem ⟨4, 1⟩ "a" [.int ⟨4, 3⟩ 0]) (.call ⟨4, 8⟩ "f" [.int ⟨4, 15⟩ 7])

/-- `begin int f(int x) is return -x * 2 - 1 - -4 end int[] a = [3]; a[0] = call f(+7) end` -/
def tokens : Phrase :=
  [word .begin ⟨1, 1⟩, word .int ⟨1, 7⟩, ident "f" ⟨1, 11⟩, mark .openParen ⟨1, 12⟩, word .int ⟨1, 13⟩,
    ident "x" ⟨1, 17⟩, mark .closeParen ⟨1, 18⟩, word .is ⟨1, 20⟩, word .return_ ⟨2, 1⟩] ++ valueTokens ++
  [word .end_ ⟨2, 24⟩] ++ declarationTokens ++ [mark .semicolon ⟨3, 14⟩] ++ assignmentTokens ++
  [word .end_ ⟨5, 1⟩]

def returning (e : Source.Expr) : Source.Program where
  funcs := [⟨"f", .int, [⟨.int, "x", ⟨1, 13⟩⟩], .ret ⟨2, 1⟩ e, ⟨1, 7⟩⟩]
  body := .seq ⟨3, 1⟩ [declaration, assignment]

theorem left_spelled : ExprSpelled (.expr 0 left) valueTokens := by
  have hmul : BinaryOp.mul ∈ operatorsAt 5 := by decide
  have hsub : BinaryOp.sub ∈ operatorsAt 4 := by decide
  have hneg : ExprSpelled (.expr operandLevel (.unary ⟨2, 8⟩ .negate (.var ⟨2, 9⟩ "x")))
      [mark .minus ⟨2, 8⟩, ident "x" ⟨2, 9⟩] := by
    refine .unary (.named .var) ?_
    rintro - ⟨n, hn⟩
    cases hn
  have htwo : ExprSpelled (.expr operandLevel (.int ⟨2, 13⟩ 2)) [⟨.int 2, ⟨2, 13⟩⟩] := .int rfl
  have hone : ExprSpelled (.expr operandLevel (.int ⟨2, 17⟩ 1)) [⟨.int 1, ⟨2, 17⟩⟩] := .int rfl
  have hfour : ExprSpelled (.expr operandLevel (.int ⟨2, 21⟩ (-4))) [mark .minus ⟨2, 21⟩, ⟨.int 4, ⟨2, 22⟩⟩] :=
    .minusInt rfl
  have hproduct := ExprSpelled.binary (p := ⟨2, 11⟩) hmul (hneg.lower (by decide)) htwo
  have hfirst := ExprSpelled.binary (p := ⟨2, 15⟩) hsub (hproduct.lower (by decide)) (hone.lower (by decide))
  have hvalue := ExprSpelled.binary (p := ⟨2, 19⟩) hsub hfirst (hfour.lower (by decide))
  exact hvalue.lower (Nat.zero_le _)

theorem declaration_spelled : StmtSpelled (.statement declaration) declarationTokens := by
  have hthree : ExprSpelled (.expr operandLevel (.int ⟨3, 12⟩ 3)) [⟨.int 3, ⟨3, 12⟩⟩] := .int rfl
  have harray := RightSpelled.array (p := ⟨3, 11⟩) (q := ⟨3, 13⟩) (.some (.one (hthree.lower (Nat.zero_le _))))
  exact .declare (.array (.base .int) (.succ .zero)) rfl harray

theorem assignment_spelled : StmtSpelled (.statement assignment) assignmentTokens := by
  have hzero : ExprSpelled (.expr operandLevel (.int ⟨4, 3⟩ 0)) [⟨.int 0, ⟨4, 3⟩⟩] := .int rfl
  have hseven : ExprSpelled (.expr operandLevel (.int ⟨4, 15⟩ 7)) [mark .plus ⟨4, 15⟩, ⟨.int 7, ⟨4, 16⟩⟩] :=
    .plusInt rfl
  exact .assign (.named (.elem (.index (hzero.lower (Nat.zero_le _)) .noIndex))) rfl
    (.call (.some (.one (hseven.lower (Nat.zero_le _)))))

theorem spelled : ProgramSpelled (returning left) tokens := by
  have hparam : ParamSpelled ⟨.int, "x", ⟨1, 13⟩⟩ [word .int ⟨1, 13⟩, ident "x" ⟨1, 17⟩] :=
    .mk (.element (.base .int)) rfl
  have hret := StmtSpelled.ret (p := ⟨2, 1⟩) left_spelled
  exact .mk (.cons (.mk (.element (.base .int)) rfl (.one hparam) (.single (.one hret))) .nil)
    (.several (.cons declaration_spelled (.one assignment_spelled)))

end Grouping

/-- Subtractions group to the left, and the tokens cannot be read otherwise. -/
theorem subtractions_read_left : parse Grouping.tokens = .ok (Grouping.returning Grouping.left) ∧
    ProgramSpelled (Grouping.returning Grouping.left) Grouping.tokens ∧
    ¬ ProgramSpelled (Grouping.returning Grouping.right) Grouping.tokens := by
  obtain ⟨hparse, hunique⟩ := parse_eq_ok_iff_spelled Grouping.tokens
  refine ⟨(hparse _).2 Grouping.spelled, Grouping.spelled, fun hright => ?_⟩
  cases hunique _ _ Grouping.spelled hright

end WaccArm
