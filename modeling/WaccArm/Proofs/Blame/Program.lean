import WaccArm.Proofs.Blame.Stmt
import WaccArm.Proofs.Parser.Program

namespace WaccArm

namespace Grammar.Lang

variable {ts us : Phrase} {p : Pos}

/-- One or more parameters, and the parenthesis that closes the list. -/
def paramsTo : Lang := fun ts =>
  ∃ param others us p, ts = us ++ [mark .closeParen p] ∧ ParamsSpelled (param :: others) us

/-- The same, where the list may be empty. -/
def params : Lang := fun ts => ∃ params us p, ts = us ++ [mark .closeParen p] ∧ ParamsSpelled params us

/-- What follows the name of a function. -/
def functionTail : Lang :=
  (token (.symbol .openParen)).followedBy <| params.followedBy <| (token (.keyword .is)).followedBy <|
    body.followedBy (token (.keyword .end_))

/-- Functions, statements, and the word `end`. -/
def rest : Lang := fun ts =>
  ∃ funcs us vs, FuncsSpelled funcs us ∧ (body.followedBy (token (.keyword .end_))) vs ∧ ts = us ++ vs

/-- What follows a type and a name at the start of the above. -/
def restTail : Lang := fun ts => ∀ us name p, type us → rest (us ++ ident name p :: ts)

def program : Lang := fun ts => ∃ program, ProgramSpelled program ts

theorem possible_params : params.Possible := ⟨_, [], [], .nowhere, rfl, .none⟩

/-- A program can be ended from any point of its body. -/
theorem possible_ending : (body.followedBy (token (.keyword .end_))).Possible :=
  possible_body.followedBy (possible_token _)

theorem possible_rest : rest.Possible := by
  obtain ⟨vs, hvs⟩ := possible_ending
  exact ⟨vs, [], [], vs, .nil, hvs, rfl⟩

theorem rest_of_body (h : (body.followedBy (token (.keyword .end_))) ts) : rest ts := ⟨[], [], ts, .nil, h, rfl⟩

/-- A type and a name are a parameter. -/
theorem param_of_type (h : type ts) (name : String) (q : Pos) :
    ∃ param, ParamSpelled param (ts ++ [ident name q]) := by
  obtain ⟨type, htype⟩ := h
  obtain ⟨t, ts', rfl, -⟩ := htype.starts
  exact ⟨⟨type, name, t.pos⟩, .mk htype rfl⟩

theorem paramsTo_one (h : type ts) (name : String) (q p : Pos) :
    paramsTo (ts ++ [ident name q] ++ [mark .closeParen p]) := by
  obtain ⟨param, hparam⟩ := param_of_type h name q
  exact ⟨param, [], _, p, rfl, .one hparam⟩

theorem paramsTo_cons (h : type ts) (hus : paramsTo us) (name : String) (q p : Pos) :
    paramsTo (ts ++ [ident name q] ++ mark .comma p :: us) := by
  obtain ⟨param, hparam⟩ := param_of_type h name q
  obtain ⟨other, others, vs, r, rfl, hothers⟩ := hus
  exact ⟨param, other :: others, _, r, by simp, .cons (p := p) hparam hothers⟩

theorem params_of_paramsTo (h : paramsTo ts) : params ts := by
  obtain ⟨param, others, us, p, hts, hparams⟩ := h
  exact ⟨_, us, p, hts, hparams⟩

/-- A function, and the rest of the program behind it. -/
theorem restTail_of_function (h : (functionTail.followedBy rest) ts) : restTail ts := by
  rintro us name p ⟨ret, hret⟩
  obtain ⟨_, _, rfl, ⟨_, _, rfl, ⟨q, rfl⟩, _, _, rfl, ⟨params, vs, r, rfl, hparams⟩, _, _, rfl, ⟨t, rfl⟩, ws, _, rfl,
    ⟨body, hbody⟩, u, rfl⟩, funcs, xs, ys, hfuncs, hys, rfl⟩ := h
  obtain ⟨first, us', rfl, -⟩ := hret.starts
  have hfunc : FuncSpelled ⟨name, ret, params, body, first.pos⟩ (first :: us' ++ ident name p :: mark .openParen q ::
      (vs ++ mark .closeParen r :: word .is t :: (ws ++ [word .end_ u]))) := .mk hret rfl hparams hbody
  exact ⟨_, _, ys, .cons hfunc hfuncs, hys, by simp⟩

/-- A declaration, and the statements behind it. -/
theorem restTail_of_declaration
    (h : (assigned.followedBy (further.followedBy (token (.keyword .end_)))) ts) : restTail ts := by
  rintro us name p htype
  obtain ⟨vs, _, rfl, hvs, ws, xs, rfl, hws, hend⟩ := h
  have hfirst : statement (us ++ ident name p :: vs) :=
    statement_of_declaration ⟨us, ident name p :: vs, rfl, htype, [ident name p], vs, rfl, ⟨name, p, rfl⟩, hvs⟩
  refine rest_of_body ⟨_, xs, ?_, body_of_further ⟨_, ws, rfl, hfirst, hws⟩, hend⟩
  simp

theorem possible_restTail : restTail.Possible := by
  have htail := possible_assigned.followedBy (possible_further.followedBy (possible_token (.keyword .end_)))
  exact htail.imp fun _ => restTail_of_declaration

/-- Behind a type and a name comes a function or a declaration. -/
theorem rest_of_restTail (h : (type.followedBy (name.followedBy restTail)) ts) : rest ts := by
  obtain ⟨us, _, rfl, hus, _, vs, rfl, ⟨name, p, rfl⟩, hvs⟩ := h
  exact hvs us name p hus

/-- A program is what stands behind its first word. -/
theorem program_of_rest (h : rest ts) : program (word .begin p :: ts) := by
  obtain ⟨funcs, us, _, hfuncs, ⟨vs, _, rfl, ⟨body, hbody⟩, q, rfl⟩, rfl⟩ := h
  exact ⟨_, .mk hfuncs hbody⟩

end Grammar.Lang

namespace Parser

open Grammar

variable {s : Stream} {p last : Pos} {ts : Phrase} {token : Token}

/-- Parameters are read one by one up to the parenthesis. -/
theorem commaParams_eq (s : Stream) :
    reader commaParams s = (reader typeExpr).andThen ((reader Stream.identifier).andThen
      (separator .closeParen (reader commaParams))) s := by
  rw [reader, commaParams]
  refine map_bind ?_
  rintro ⟨type, r₁, h₁⟩
  refine map_bind ?_
  rintro ⟨name, r₂, h₂⟩
  obtain ⟨tokens, last⟩ := r₂
  cases tokens with
  | nil => rfl
  | cons t ts =>
    simp only [next_bind, separator_cons]
    split
    · exact map_bind_ok fun _ => rfl
    · split <;> rfl

/-- Reading parameters blames the first token that none goes on with. -/
theorem tracked_commaParams (s : Stream) : Tracked .paramsTo (reader commaParams) s := by
  refine Tracked.congr ?_ fun s' _ => commaParams_eq s'
  refine (tracked_typeExpr s).bind (fun us hus => ?_) fun r₁ us h₁ _ hus => ?_
  · have hone := Lang.paramsTo_one hus "x" .nowhere .nowhere
    rw [List.append_assoc] at hone
    exact ⟨_, hone⟩
  · have hlt₁ := reader_shorter h₁
    -- The name is a phrase of its own, so that one parameter is a type and a name.
    have hlist : ∀ vs ws, Lang.paramsTo (us ++ vs ++ ws) → Lang.paramsTo (us ++ (vs ++ ws)) := by
      intro vs ws h
      rwa [List.append_assoc] at h
    refine (tracked_identifier r₁).bind ?_ ?_
    · rintro _ ⟨name, q, rfl⟩
      exact ⟨_, hlist _ _ (Lang.paramsTo_one hus name q .nowhere)⟩
    · rintro r₂ _ h₂ - ⟨name, q, rfl⟩
      have hlt₂ := reader_shorter h₂
      refine tracked_separator (fun p => hlist _ _ (Lang.paramsTo_one hus name q p)) fun r₃ p h₃ => ?_
      exact (tracked_commaParams r₃).mono fun vs hvs => hlist _ _ (Lang.paramsTo_cons hus hvs name q p)
termination_by s.tokens.length

theorem params_nil (p : Pos) (ts : Phrase) (last : Pos) :
    reader params ⟨mark .closeParen p :: ts, last⟩ = .ok ⟨ts, last⟩ := by
  obtain ⟨h, hsome⟩ := nextIf?_of_eq ⟨ts, last⟩ (.symbol .closeParen) p []
  change Stream.nextIf? ⟨mark .closeParen p :: ts, last⟩ _ = some ⟨(), ⟨ts, last⟩, h⟩ at hsome
  rw [reader, params, hsome]
  rfl

theorem params_some (h : s.peek? ≠ some (.symbol .closeParen)) : reader params s = reader commaParams s := by
  rw [reader, params, nextIf?_eq_none.2 h]
  rfl

/-- There may be no parameters at all. -/
theorem tracked_params (s : Stream) : Tracked .params (reader params) s := by
  by_cases hclose : s.peek? = some (.symbol .closeParen)
  · obtain ⟨tokens, last⟩ := s
    cases tokens with
    | nil => cases hclose
    | cons t ts =>
      obtain ⟨token, p⟩ := t
      obtain rfl : token = .symbol .closeParen := Option.some.inj hclose
      exact tracked_only ⟨[], [], p, rfl, .none⟩ params_nil
  · refine ((tracked_commaParams s).mono fun ts => Lang.params_of_paramsTo).congr fun s' hs' => ?_
    exact params_some (by rwa [hs'.peek?])

/-- What follows the name of a function. -/
def functionTail : Reader :=
  (reader (Stream.symbol · .openParen)).andThen ((reader params).andThen ((reader (Stream.keyword · .is)).andThen
    ((reader statements).andThen (reader (Stream.keyword · .end_)))))

/-- A function is a type, a name and the rest. -/
theorem function_eq (s : Stream) :
    reader function s = (reader typeExpr).andThen ((reader Stream.identifier).andThen functionTail) s := by
  rw [reader, function]
  refine map_bind ?_
  rintro ⟨ret, r₁, h₁⟩
  refine map_bind ?_
  rintro ⟨name, r₂, h₂⟩
  refine map_bind ?_
  rintro ⟨p, r₃, h₃⟩
  refine map_bind ?_
  rintro ⟨params, r₄, h₄⟩
  refine map_bind ?_
  rintro ⟨q, r₅, h₅⟩
  refine map_bind ?_
  rintro ⟨body, r₆, h₆⟩
  exact map_bind_ok fun _ => rfl

/-- Behind its name a function is read with no look ahead. -/
theorem tracked_functionTail (s : Stream) : Tracked .functionTail functionTail s := by
  have his := (Lang.possible_token (.keyword .is)).followedBy Lang.possible_ending
  refine (tracked_symbol _ s).andThen (Lang.possible_params.followedBy his) fun r₁ _ => ?_
  refine (tracked_params r₁).andThen his fun r₂ _ => ?_
  refine (tracked_keyword _ r₂).andThen Lang.possible_ending fun r₃ _ => ?_
  exact (tracked_statements r₃).andThen (Lang.possible_token _) fun r₄ _ => tracked_keyword _ r₄

/-- Always at least one token is taken. -/
def Reader.Shrinks (R : Reader) : Prop := ∀ s r, R s = .ok r → r.tokens.length < s.tokens.length

theorem shrinks_reader {α : Type} (f : (s : Stream) → Parse α s) : (reader f).Shrinks := fun _ _ => reader_shorter

/-- Readers that take tokens take some one after the other. -/
theorem Reader.Shrinks.andThen {R T : Reader} (hR : R.Shrinks) (hT : T.Shrinks) : (R.andThen T).Shrinks := by
  intro s r h
  obtain ⟨m, hm, hr⟩ := except_bind_eq_ok.1 h
  exact Nat.lt_trans (hT m r hr) (hR s m hm)

theorem shrinks_functionTail : functionTail.Shrinks :=
  (shrinks_reader _).andThen <| (shrinks_reader _).andThen <| (shrinks_reader _).andThen <|
    (shrinks_reader _).andThen (shrinks_reader _)

/-- The functions, the statements and the end of a program. -/
def rest : Reader := (trailer functions).andThen ((reader statements).andThen (reader (Stream.keyword · .end_)))

/-- What follows a type and a name there: the rest of a function or of a declaration, and what is behind it. -/
def restTail : Reader := fun s =>
  if s.peek? = some (.symbol .openParen) then functionTail.andThen rest s
  else (reader assigned).andThen ((trailer furtherStatements).andThen (reader (Stream.keyword · .end_))) s

/-- Functions are read as long as one starts. -/
theorem functions_eq (s : Stream) :
    trailer functions s = if startsFunction s then (reader function).andThen (trailer functions) s else .ok s := by
  rw [trailer, functions]
  split
  · refine map_bind ?_
    rintro ⟨f, r, h⟩
    exact map_bind_ok fun _ => rfl
  · rfl

/-- Where a function starts, it is read first. -/
theorem rest_function (h : startsFunction s = true) : rest s = (reader function).andThen rest s := by
  have hfunctions : trailer functions s = (reader function).andThen (trailer functions) s := by
    rw [functions_eq, if_pos h]
  rw [rest, Reader.andThen, hfunctions, ← Reader.andThen_assoc (reader function)]
  rfl

/-- Where no function starts, the body does. -/
theorem rest_statements (h : startsFunction s = false) :
    rest s = (reader statements).andThen (reader (Stream.keyword · .end_)) s := by
  refine Reader.andThen_ok ?_
  rw [functions_eq, h]
  rfl

/-- Behind a type and a name the next token decides. -/
theorem startsFunction_of_read {r₁ r₂ : Stream} (htype : reader typeExpr s = .ok r₁)
    (hname : reader Stream.identifier r₁ = .ok r₂) :
    startsFunction s = (r₂.peek? == some (.symbol .openParen)) := by
  obtain ⟨type, h₁, htype⟩ := reader_eq_ok htype
  obtain ⟨name, h₂, hname⟩ := reader_eq_ok hname
  rw [startsFunction, htype]
  simp only [hname]

/-- What is not a type and a name starts no function. -/
theorem startsFunction_of_error {e : SyntaxError}
    (h : (reader typeExpr).andThen (reader Stream.identifier) s = .error e) : startsFunction s = false := by
  rw [startsFunction]
  split
  · rfl
  · rename_i type r₁ h₁ htype
    split
    · rfl
    · rename_i name r₂ h₂ hname
      rw [Reader.andThen, reader, htype] at h
      simp only [Except.map, bind, Except.bind, reader, hname] at h
      cases h

/-- Behind a word that starts a type, the parser does as one that reads the type and the name only once. -/
theorem rest_type_cons (h : startsType token) (p : Pos) (ts : Phrase) (last : Pos) :
    rest ⟨⟨token, p⟩ :: ts, last⟩ =
      (reader typeExpr).andThen ((reader Stream.identifier).andThen restTail) ⟨⟨token, p⟩ :: ts, last⟩ := by
  have hstatement := statement_type_cons h p ts last
  generalize (⟨⟨token, p⟩ :: ts, last⟩ : Stream) = s at hstatement ⊢
  have hdeclaration : startsFunction s = false → rest s =
      (reader typeExpr).andThen ((reader Stream.identifier).andThen ((reader assigned).andThen
        ((trailer furtherStatements).andThen (reader (Stream.keyword · .end_))))) s := by
    intro hstarts
    rw [rest_statements hstarts, Reader.andThen, statements_eq, Reader.andThen, hstatement, declaration_eq]
    simp only [← Reader.andThen_assoc]
    rfl
  have hfunction : startsFunction s = true → rest s =
      (reader typeExpr).andThen ((reader Stream.identifier).andThen (functionTail.andThen rest)) s := by
    intro hstarts
    rw [rest_function hstarts, Reader.andThen, function_eq]
    simp only [← Reader.andThen_assoc]
    rfl
  cases htype : reader typeExpr s with
  | error e =>
    rw [hdeclaration (startsFunction_of_error (Reader.andThen_error htype)), Reader.andThen_error htype,
      Reader.andThen_error htype]
  | ok r₁ =>
    cases hname : reader Stream.identifier r₁ with
    | error e =>
      have hstarts := startsFunction_of_error ((Reader.andThen_ok htype).trans hname)
      rw [hdeclaration hstarts, Reader.andThen_ok htype, Reader.andThen_ok htype, Reader.andThen_error hname,
        Reader.andThen_error hname]
    | ok r₂ =>
      have hstarts := startsFunction_of_read htype hname
      rw [Reader.andThen_ok htype, Reader.andThen_ok hname, restTail]
      by_cases hopen : r₂.peek? = some (.symbol .openParen)
      · rw [hopen, beq_self_eq_true] at hstarts
        rw [if_pos hopen, hfunction hstarts, Reader.andThen_ok htype, Reader.andThen_ok hname]
      · rw [beq_eq_false_iff_ne.2 hopen] at hstarts
        rw [if_neg hopen, hdeclaration hstarts, Reader.andThen_ok htype, Reader.andThen_ok hname]

/-- A function starts with a type. -/
theorem startsFunction_of_other (h : ∀ token, s.peek? = some token → startsType token = false) :
    startsFunction s = false := by
  obtain ⟨tokens, last⟩ := s
  cases tokens with
  | nil =>
    have hend : reader typeExpr ⟨[], last⟩ = .error ⟨.endOfInput, last⟩ := by
      rw [reader, typeExpr]
      rfl
    exact startsFunction_of_error (Reader.andThen_error hend)
  | cons t ts =>
    have hother : startsFunction (Stream.prepend ⟨ts, last⟩ [t]) = false :=
      startsFunction_of_not_type (h t.val rfl)
    exact hother

mutual

/-- Functions and the body are blamed as one reader would blame them. -/
theorem tracked_rest (s : Stream) : Tracked .rest rest s := by
  by_cases htype : ∃ token, s.peek? = some token ∧ startsType token = true
  · have htracked : Tracked .rest ((reader typeExpr).andThen ((reader Stream.identifier).andThen restTail)) s := by
      refine Tracked.mono ?_ fun ts => Lang.rest_of_restTail
      have hname := Lang.possible_name.followedBy Lang.possible_restTail
      refine (tracked_typeExpr s).andThen hname fun r₁ h₁ => ?_
      refine (tracked_identifier r₁).andThen Lang.possible_restTail fun r₂ h₂ => ?_
      have hlt₁ := reader_shorter h₁
      have hlt₂ := reader_shorter h₂
      exact tracked_restTail r₂
    refine htracked.congr fun s' hs' => ?_
    obtain ⟨token, hpeek, hstarts⟩ := htype
    rw [← hs'.peek?] at hpeek
    obtain ⟨tokens, last⟩ := s'
    cases tokens with
    | nil => cases hpeek
    | cons t ts =>
      cases hpeek
      exact rest_type_cons hstarts t.pos ts last
  · have htracked : Tracked .rest ((reader statements).andThen (reader (Stream.keyword · .end_))) s := by
      refine Tracked.mono ?_ fun ts => Lang.rest_of_body
      exact (tracked_statements s).andThen (Lang.possible_token _) fun r _ => tracked_keyword _ r
    refine htracked.congr fun s' hs' => rest_statements (startsFunction_of_other fun token htoken => ?_)
    rw [hs'.peek?] at htoken
    exact Bool.eq_false_iff.2 fun hstarts => htype ⟨token, htoken, hstarts⟩
termination_by 2 * s.tokens.length

/-- The token behind a type and a name is blamed at once. -/
theorem tracked_restTail (s : Stream) : Tracked .restTail restTail s := by
  by_cases hopen : s.peek? = some (.symbol .openParen)
  · have htracked : Tracked .restTail (functionTail.andThen rest) s := by
      refine Tracked.mono ?_ fun ts => Lang.restTail_of_function
      refine (tracked_functionTail s).andThen Lang.possible_rest fun r hr => ?_
      have hlt := shrinks_functionTail s r hr
      exact tracked_rest r
    exact htracked.congr fun s' hs' => if_pos (hs'.peek?.trans hopen)
  · have htracked : Tracked .restTail ((reader assigned).andThen ((trailer furtherStatements).andThen
        (reader (Stream.keyword · .end_)))) s := by
      refine Tracked.mono ?_ fun ts => Lang.restTail_of_declaration
      have hfurther := Lang.possible_further.followedBy (Lang.possible_token (.keyword .end_))
      refine (tracked_assigned s).andThen hfurther fun r₁ _ => ?_
      exact (tracked_further r₁).andThen (Lang.possible_token _) fun r₂ _ => tracked_keyword _ r₂
    refine htracked.congr fun s' hs' => if_neg ?_
    rwa [hs'.peek?]
termination_by 2 * s.tokens.length + 1

end

/-- A program is its first word and the rest. -/
theorem program_eq (s : Stream) : reader program s = (reader (Stream.keyword · .begin)).andThen rest s := by
  rw [reader, program]
  refine map_bind ?_
  rintro ⟨p, r₁, h₁⟩
  refine map_bind ?_
  rintro ⟨funcs, r₂, h₂⟩
  refine map_bind ?_
  rintro ⟨body, r₃, h₃⟩
  exact map_bind_ok fun _ => rfl

/-- Nothing is left. -/
def atEnd : Reader := fun s =>
  match s.tokens with
  | [] => .ok s
  | t :: _ => .error ⟨.trailing t.val, t.pos⟩

/-- Behind the program nothing may stand. -/
theorem tracked_atEnd (s : Stream) : Tracked (fun ts => ts = []) atEnd s := by
  obtain ⟨tokens, last⟩ := s
  cases tokens with
  | nil =>
    refine tracked_nothing rfl fun s' hs' => ?_
    obtain ⟨last', rfl⟩ := hs'.nil
    rfl
  | cons t ts => exact tracked_blamed (.trailing t.val) (by simp) ⟨[], rfl⟩ fun _ _ _ _ => rfl

/-- Reading a program blames the first token that no program goes on with. -/
theorem tracked_program (s : Stream) : Tracked .program ((reader program).andThen atEnd) s := by
  have hprogram : Tracked .program (reader program) s := by
    refine Tracked.congr ?_ fun s' _ => program_eq s'
    refine (tracked_keyword _ s).bind ?_ ?_
    · rintro _ ⟨p, rfl⟩
      obtain ⟨ts, hts⟩ := Lang.possible_rest
      exact ⟨ts, Lang.program_of_rest hts⟩
    · rintro r _ - - ⟨p, rfl⟩
      exact (tracked_rest r).mono fun ts => Lang.program_of_rest
  refine hprogram.bind (fun us hus => ⟨[], by rwa [List.append_nil]⟩) fun r us _ _ hus => ?_
  refine (tracked_atEnd r).mono fun ts hts => ?_
  rwa [hts, List.append_nil]

end Parser

open WaccArm.Grammar WaccArm.Parser

/-- Whether the parser fails, and how, is what the reader of programs does. -/
theorem parse_map (tokens : List (Located Token)) :
    (parse tokens).map (fun _ => ()) = ((reader program).andThen atEnd (.ofTokens tokens)).map fun _ => () := by
  rw [parse, Reader.andThen, reader]
  cases program (.ofTokens tokens) with
  | error e => rfl
  | ok parsed =>
    obtain ⟨program, ⟨left, last⟩, h⟩ := parsed
    cases left <;> rfl

/-- The parser blames what the reader of programs does. -/
theorem parse_eq_error_iff {tokens : List (Located Token)} {e : SyntaxError} :
    parse tokens = .error e ↔ (reader program).andThen atEnd (.ofTokens tokens) = .error e := by
  have hmap := parse_map tokens
  generalize (reader program).andThen atEnd (.ofTokens tokens) = x at hmap ⊢
  cases hparse : parse tokens <;> cases x <;> rw [hparse] at hmap <;> cases hmap <;> simp

/-- Streams agree as far as their tokens are the same. -/
theorem agrees_of_take {tokens tokens' : List (Located Token)} {n : Nat}
    (h : (tokens'.take n).map Located.val = (tokens.take n).map Located.val) :
    (Stream.ofTokens tokens).Agrees n (.ofTokens tokens') := by
  intro k hk
  have hget := congrArg (·[k]?) h
  simp only [List.getElem?_map, List.getElem?_take, hk, if_true] at hget
  exact hget.symm

/-- A syntax error is blamed neither too late nor without cause. At the end of the input, the tokens are the start of
a program. Otherwise a token is blamed; those before it are the start of a program, and no list with the same
tokens up to the one behind the blamed one can be parsed, or is blamed elsewhere or for something else. -/
theorem parse_error_blamed {tokens : List (Located Token)} {e : SyntaxError} (h : parse tokens = .error e) :
    (e.val = .endOfInput → ∃ more program, more ≠ [] ∧ parse (tokens ++ more) = .ok program) ∧
      (e.val ≠ .endOfInput → ∃ k t, tokens[k]? = some t ∧ e.pos = t.pos ∧
        (∃ more program, parse (tokens.take k ++ more) = .ok program) ∧
        ∀ tokens' : List (Located Token),
          (tokens'.take (k + 2)).map Located.val = (tokens.take (k + 2)).map Located.val →
            ∃ t', tokens'[k]? = some t' ∧ parse tokens' = .error ⟨e.val, t'.pos⟩) := by
  have herror := parse_eq_error_iff.1 h
  cases tracked_program (.ofTokens tokens) with
  | read hn hread hok =>
    rw [hok _ (.refl _ _)] at herror
    cases herror
  | @ended p hmore hend =>
    obtain rfl : e = ⟨.endOfInput, p⟩ := Except.error.inj (herror.symm.trans hend)
    refine ⟨fun _ => ?_, fun hne => absurd rfl hne⟩
    obtain ⟨more, program, hspelled⟩ := hmore
    have hparse : parse (tokens ++ more) = .ok program := parse_of_spelled hspelled
    refine ⟨more, program, ?_, hparse⟩
    rintro rfl
    rw [List.append_nil, h] at hparse
    cases hparse
  | @blamed fault k t hfault ht hmore hblame =>
    obtain ⟨t', ht', hsame⟩ := hblame _ (.refl _ _)
    obtain rfl : e = ⟨fault, t'.pos⟩ := Except.error.inj (herror.symm.trans hsame)
    refine ⟨fun hend => absurd hend hfault, fun _ => ⟨k, t', ht', rfl, ?_, fun tokens' htokens' => ?_⟩⟩
    · obtain ⟨more, program, hspelled⟩ := hmore
      exact ⟨more, program, parse_of_spelled hspelled⟩
    · obtain ⟨t'', ht'', hfail⟩ := hblame _ (agrees_of_take htokens')
      exact ⟨t'', ht'', parse_eq_error_iff.2 hfail⟩

/-- The tokens of `begin int [x`. The bracket is not closed, and it is blamed because a name was expected. -/
def loneBracket : List (Located Token) :=
  [word .begin ⟨1, 0⟩, word .int ⟨1, 6⟩, mark .openBracket ⟨1, 10⟩, ident "x" ⟨1, 11⟩]

theorem parse_loneBracket : parse loneBracket = .error ⟨.identifier (.symbol .openBracket), ⟨1, 10⟩⟩ := by
  refine parse_eq_error_iff.2 (Reader.andThen_error ?_)
  have hbegin : reader (Stream.keyword · .begin) (.ofTokens loneBracket) =
      .ok ⟨[word .int ⟨1, 6⟩, mark .openBracket ⟨1, 10⟩, ident "x" ⟨1, 11⟩], ⟨1, 11⟩⟩ := rfl
  have htype : reader typeExpr ⟨[word .int ⟨1, 6⟩, mark .openBracket ⟨1, 10⟩, ident "x" ⟨1, 11⟩], ⟨1, 11⟩⟩ =
      .ok ⟨[mark .openBracket ⟨1, 10⟩, ident "x" ⟨1, 11⟩], ⟨1, 11⟩⟩ := by
    refine (typeExpr_base_cons rfl _ _ _).trans (dims_none fun _ h => ?_)
    cases h
  rw [program_eq, Reader.andThen_ok hbegin, rest_type_cons rfl, Reader.andThen_ok htype]
  rfl

/-- The tokens before the bracket are the start of a program, and whatever follows the name, the bracket is to
blame. -/
theorem loneBracket_blamed : parse loneBracket = .error ⟨.identifier (.symbol .openBracket), ⟨1, 10⟩⟩ ∧
    (∃ more program, parse ([word .begin ⟨1, 0⟩, word .int ⟨1, 6⟩] ++ more) = .ok program) ∧
    ∀ more, parse (loneBracket ++ more) = .error ⟨.identifier (.symbol .openBracket), ⟨1, 10⟩⟩ := by
  refine ⟨parse_loneBracket, ?_⟩
  obtain ⟨k, t, ht, hpos, hstart, hblame⟩ := (parse_error_blamed parse_loneBracket).2 (by simp)
  obtain rfl : k = 2 := by
    match k with
    | 0 | 1 | 3 =>
      cases ht
      cases hpos
    | 2 => rfl
    | k + 4 => cases ht
  refine ⟨hstart, fun more => ?_⟩
  obtain ⟨t', ht', hparse⟩ := hblame (loneBracket ++ more) rfl
  obtain rfl : t' = mark .openBracket ⟨1, 10⟩ := (Option.some.inj ht').symm
  exact hparse

end WaccArm
