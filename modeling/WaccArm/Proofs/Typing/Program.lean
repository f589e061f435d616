import WaccArm.Proofs.Checker.Labels
import WaccArm.Proofs.Typing.Expr

namespace WaccArm

namespace Expr

variable {α : Type}

mutual

/-- The expression without its notes, and without what its calls go to. -/
def bare : Expr α → Expr Unit
  | int _ value => .int () value
  | bool _ value => .bool () value
  | char _ value => .char () value
  | str _ value => .str () value
  | null _ => .null ()
  | var _ name => .var () name
  | elem _ name indices => .elem () name (bareAll indices)
  | side _ which pair => .side () which (bare pair)
  | unary _ op operand => .unary () op (bare operand)
  | binary _ op left right => .binary () op (bare left) (bare right)
  | call _ _ args => .call () "" (bareAll args)
  | newPair _ fst snd => .newPair () (bare fst) (bare snd)
  | array _ elems => .array () (bareAll elems)

def bareAll : List (Expr α) → List (Expr Unit)
  | [] => []
  | e :: es => bare e :: bareAll es

end

end Expr

namespace Stmt

variable {α σ τ : Type}

mutual

/-- The statement without notes and marks, with the types that its declarations stand for. -/
def bare (type : τ → Ty) : Stmt α σ τ → Stmt Unit Unit Ty
  | skip _ => .skip ()
  | declare _ written name init => .declare () (type written) name init.bare
  | assign _ dst src => .assign () dst.bare src.bare
  | read _ target => .read () target.bare
  | free _ e => .free () e.bare
  | ret _ e => .ret () e.bare
  | exit _ e => .exit () e.bare
  | print _ e newline => .print () e.bare newline
  | branch _ cond yes no => .branch () cond.bare (bare type yes) (bare type no)
  | loop _ cond body => .loop () cond.bare (bare type body)
  | scope _ body => .scope () (bare type body)
  | seq _ items => .seq () (bareAll type items)

def bareAll (type : τ → Ty) : List (Stmt α σ τ) → List (Stmt Unit Unit Ty)
  | [] => []
  | s :: ss => bare type s :: bareAll type ss

end

end Stmt

/-- A function without positions, notes and label. -/
structure FuncOutline where
  name : String
  params : List Checked.Param
  ret : Ty
  body : Stmt Unit Unit Ty

/-- The functions and the body of a program without positions, notes and labels. -/
structure Outline where
  funcs : List FuncOutline
  body : Stmt Unit Unit Ty

def Source.Func.outline (f : Source.Func) : FuncOutline :=
  ⟨f.name, Typing.typedParams f, .ofExpr f.ret, f.body.bare .ofExpr⟩

def Source.Program.outline (p : Source.Program) : Outline :=
  ⟨p.funcs.map Source.Func.outline, p.body.bare .ofExpr⟩

def Checked.Func.outline (f : Checked.Func) : FuncOutline := ⟨f.name, f.params, f.ret, f.body.bare id⟩

def Checked.Program.outline (c : Checked.Program) : Outline :=
  ⟨c.funcs.map Checked.Func.outline, c.body.bare id⟩

namespace Typing

/-- A phrase keeps its form. -/
def Phrase.Kept : Phrase → Prop
  | .expr e c => c.bare = e.bare
  | .exprs es cs => Expr.bareAll cs = Expr.bareAll es

/-- A derivation keeps the expression. -/
theorem ExprTyped.kept {Φ : List Header} {Γ : Scopes} {phrase : Phrase} (h : ExprTyped Φ Γ phrase) :
    phrase.Kept := by
  induction h with
  | int | bool | char | str | null | var | emptyArray | nil => rfl
  | slice _ _ _ _ _ _ ih | elem _ _ _ _ _ ih | unknownElem _ _ _ _ _ ih =>
    exact congrArg (Expr.elem () _) ih
  | fst _ _ _ ih | snd _ _ _ ih => exact congrArg (Expr.side () _) ih
  | not _ _ _ ih | negate _ _ _ ih | len _ _ _ ih | ord _ _ _ ih | chr _ _ _ ih =>
    exact congrArg (Expr.unary () _) ih
  | arithmetic _ _ _ _ _ _ ihl ihr | ordering _ _ _ _ _ _ ihl ihr | equality _ _ _ _ _ ihl ihr
  | logical _ _ _ _ _ _ ihl ihr => exact congrArg₂ (Expr.binary () _) ihl ihr
  | call _ _ _ ih => exact congrArg (Expr.call () "") ih
  | newPair _ _ _ ihf ihs => exact congrArg₂ (Expr.newPair ()) ihf ihs
  | array _ _ _ _ ihf iho => exact congrArg (Expr.array ()) (congrArg₂ List.cons ihf iho)
  | cons _ _ ihe ihes => exact congrArg₂ List.cons ihe ihes

variable {Φ : List Header} {ret : Option Ty}

theorem stmt_seq_eq_ok {pos : Pos} {ss : List Source.Stmt} {cs : List Checked.Stmt} {start after : Env} :
    Checker.stmt ret (.seq pos ss) start = .ok (.seq () cs, after) ↔
      Checker.stmtList ret ss start = .ok (cs, after) := by
  rw [Checker.stmt]
  constructor
  · intro h
    obtain ⟨⟨cs', after'⟩, hlist, h⟩ := except_bind_eq_ok.1 h
    cases h
    exact hlist
  · intro h
    exact except_bind_eq_ok.2 ⟨(cs, after), h, rfl⟩

/-- A statement is typed in the scopes where the checker works, and only the innermost one changes. -/
def Checks (Φ : List Header) (ret : Option Ty) (vars : Vars) (outer : Scopes) (s : Source.Stmt)
    (c : Checked.Stmt) (after : Env) : Prop :=
  ∃ vars', StmtTyped Φ ret (vars :: outer) s c (vars' :: outer) ∧ after = env Φ (vars' :: outer)

mutual

/-- What the checker accepts is derivable. -/
theorem stmtTyped_of_stmt {vars : Vars} {outer : Scopes} (s : Source.Stmt) {c : Checked.Stmt} {after : Env}
    (hok : Checker.stmt ret s (env Φ (vars :: outer)) = .ok (c, after)) :
    Checks Φ ret vars outer s c after := by
  cases s with
  | skip pos =>
    rw [Checker.stmt] at hok
    cases hok
    exact ⟨vars, .skip pos, rfl⟩
  | declare pos written name init =>
    rw [Checker.stmt] at hok
    obtain ⟨cinit, hinit, hok⟩ := except_bind_eq_ok.1 hok
    obtain ⟨htype, hok⟩ := Checker.expect_then.1 hok
    obtain ⟨env', hdeclare, hok⟩ := except_bind_eq_ok.1 hok
    cases hok
    obtain ⟨hnew, rfl⟩ := declare_env.1 hdeclare
    exact ⟨_, .declare pos (expr_eq_ok.1 hinit) htype hnew, rfl⟩
  | assign pos dst src =>
    rw [Checker.stmt] at hok
    obtain ⟨cdst, hdst, hok⟩ := except_bind_eq_ok.1 hok
    obtain ⟨csrc, hsrc, hok⟩ := except_bind_eq_ok.1 hok
    obtain ⟨htype, hok⟩ := Checker.expect_then.1 hok
    cases hok
    exact ⟨vars, .assign pos (expr_eq_ok.1 hdst) (expr_eq_ok.1 hsrc) htype, rfl⟩
  | read pos target =>
    rw [Checker.stmt] at hok
    obtain ⟨ctarget, htarget, hok⟩ := except_bind_eq_ok.1 hok
    obtain ⟨_, htype, hok⟩ := except_bind_eq_ok.1 hok
    cases hok
    exact ⟨vars, .read pos (expr_eq_ok.1 htarget) (Checker.expectIntOrChar_eq_ok.1 htype), rfl⟩
  | free pos e =>
    rw [Checker.stmt] at hok
    obtain ⟨ce, he, hok⟩ := except_bind_eq_ok.1 hok
    split at hok
    · rename_i fst snd htype
      cases hok
      exact ⟨vars, .freePair pos (expr_eq_ok.1 he) htype, rfl⟩
    · rename_i elem dims htype
      cases hok
      exact ⟨vars, .freeArray pos (expr_eq_ok.1 he) htype, rfl⟩
    · cases hok
  | ret pos e =>
    cases ret with
    | none =>
      rw [Checker.stmt] at hok
      cases hok
    | some want =>
      rw [Checker.stmt] at hok
      obtain ⟨ce, he, hok⟩ := except_bind_eq_ok.1 hok
      obtain ⟨htype, hok⟩ := Checker.expect_then.1 hok
      cases hok
      exact ⟨vars, .ret pos rfl (expr_eq_ok.1 he) htype, rfl⟩
  | exit pos e =>
    rw [Checker.stmt] at hok
    obtain ⟨ce, he, hok⟩ := except_bind_eq_ok.1 hok
    obtain ⟨htype, hok⟩ := Checker.expect_then.1 hok
    cases hok
    exact ⟨vars, .exit pos (expr_eq_ok.1 he) htype, rfl⟩
  | print pos e newline =>
    rw [Checker.stmt] at hok
    obtain ⟨ce, he, hok⟩ := except_bind_eq_ok.1 hok
    cases hok
    exact ⟨vars, .print pos (expr_eq_ok.1 he), rfl⟩
  | branch pos cond yes no =>
    rw [Checker.stmt] at hok
    obtain ⟨ccond, hcond, hok⟩ := except_bind_eq_ok.1 hok
    obtain ⟨htype, hok⟩ := Checker.expect_then.1 hok
    obtain ⟨⟨cyes, yafter⟩, hyes, hok⟩ := except_bind_eq_ok.1 hok
    obtain ⟨⟨cno, nafter⟩, hno, hok⟩ := except_bind_eq_ok.1 hok
    cases hok
    rw [env_enter] at hyes hno
    obtain ⟨yvars, hyes, -⟩ := stmtTyped_of_stmt yes hyes
    obtain ⟨nvars, hno, -⟩ := stmtTyped_of_stmt no hno
    exact ⟨vars, .branch pos (expr_eq_ok.1 hcond) htype hyes hno, rfl⟩
  | loop pos cond body =>
    rw [Checker.stmt] at hok
    obtain ⟨ccond, hcond, hok⟩ := except_bind_eq_ok.1 hok
    obtain ⟨htype, hok⟩ := Checker.expect_then.1 hok
    obtain ⟨⟨cbody, bafter⟩, hbody, hok⟩ := except_bind_eq_ok.1 hok
    cases hok
    rw [env_enter] at hbody
    obtain ⟨bvars, hbody, -⟩ := stmtTyped_of_stmt body hbody
    exact ⟨vars, .loop pos (expr_eq_ok.1 hcond) htype hbody, rfl⟩
  | scope pos body =>
    rw [Checker.stmt] at hok
    obtain ⟨⟨cbody, bafter⟩, hbody, hok⟩ := except_bind_eq_ok.1 hok
    cases hok
    rw [env_enter] at hbody
    obtain ⟨bvars, hbody, -⟩ := stmtTyped_of_stmt body hbody
    exact ⟨vars, .scope pos hbody, rfl⟩
  | seq pos items =>
    rw [Checker.stmt] at hok
    obtain ⟨⟨citems, iafter⟩, hitems, hok⟩ := except_bind_eq_ok.1 hok
    cases hok
    exact stmtsTyped_of_stmtList pos items hitems

theorem stmtsTyped_of_stmtList {vars : Vars} {outer : Scopes} (pos : Pos) (ss : List Source.Stmt)
    {cs : List Checked.Stmt} {after : Env}
    (hok : Checker.stmtList ret ss (env Φ (vars :: outer)) = .ok (cs, after)) :
    Checks Φ ret vars outer (.seq pos ss) (.seq () cs) after := by
  cases ss with
  | nil =>
    rw [Checker.stmtList] at hok
    cases hok
    exact ⟨vars, .seqNil pos, rfl⟩
  | cons s ss =>
    rw [Checker.stmtList] at hok
    obtain ⟨⟨c, middle⟩, hfirst, hok⟩ := except_bind_eq_ok.1 hok
    obtain ⟨⟨cs', last⟩, hothers, hok⟩ := except_bind_eq_ok.1 hok
    cases hok
    obtain ⟨vars₁, htyped, rfl⟩ := stmtTyped_of_stmt s hfirst
    obtain ⟨vars₂, hotyped, rfl⟩ := stmtsTyped_of_stmtList pos ss hothers
    exact ⟨vars₂, .seqCons pos htyped hotyped, rfl⟩

end

/-- What is derivable the checker accepts. -/
theorem StmtTyped.accepted {Γ Γ' : Scopes} {s : Source.Stmt} {c : Checked.Stmt}
    (h : StmtTyped Φ ret Γ s c Γ') : Checker.stmt ret s (env Φ Γ) = .ok (c, env Φ Γ') := by
  induction h with
  | skip pos =>
    rw [Checker.stmt]
    rfl
  | declare pos hinit htype hnew =>
    rw [Checker.stmt]
    refine except_bind_eq_ok.2 ⟨_, expr_eq_ok.2 hinit, Checker.expect_then.2 ⟨htype, ?_⟩⟩
    exact except_bind_eq_ok.2 ⟨_, declare_env.2 ⟨hnew, rfl⟩, rfl⟩
  | assign pos hdst hsrc htype =>
    rw [Checker.stmt]
    refine except_bind_eq_ok.2 ⟨_, expr_eq_ok.2 hdst, except_bind_eq_ok.2 ⟨_, expr_eq_ok.2 hsrc, ?_⟩⟩
    exact Checker.expect_then.2 ⟨htype, rfl⟩
  | read pos htarget htype =>
    rw [Checker.stmt]
    refine except_bind_eq_ok.2 ⟨_, expr_eq_ok.2 htarget, ?_⟩
    exact except_bind_eq_ok.2 ⟨(), Checker.expectIntOrChar_eq_ok.2 htype, rfl⟩
  | freePair pos he htype | freeArray pos he htype =>
    rw [Checker.stmt]
    refine except_bind_eq_ok.2 ⟨_, expr_eq_ok.2 he, ?_⟩
    rw [htype]
    rfl
  | ret pos hret he htype =>
    subst hret
    rw [Checker.stmt]
    exact except_bind_eq_ok.2 ⟨_, expr_eq_ok.2 he, Checker.expect_then.2 ⟨htype, rfl⟩⟩
  | exit pos he htype =>
    rw [Checker.stmt]
    exact except_bind_eq_ok.2 ⟨_, expr_eq_ok.2 he, Checker.expect_then.2 ⟨htype, rfl⟩⟩
  | print pos he =>
    rw [Checker.stmt]
    exact except_bind_eq_ok.2 ⟨_, expr_eq_ok.2 he, rfl⟩
  | branch pos hcond htype _ _ ihy ihn =>
    rw [Checker.stmt]
    refine except_bind_eq_ok.2 ⟨_, expr_eq_ok.2 hcond, Checker.expect_then.2 ⟨htype, ?_⟩⟩
    exact except_bind_eq_ok.2 ⟨_, ihy, except_bind_eq_ok.2 ⟨_, ihn, rfl⟩⟩
  | loop pos hcond htype _ ih =>
    rw [Checker.stmt]
    refine except_bind_eq_ok.2 ⟨_, expr_eq_ok.2 hcond, Checker.expect_then.2 ⟨htype, ?_⟩⟩
    exact except_bind_eq_ok.2 ⟨_, ih, rfl⟩
  | scope pos _ ih =>
    rw [Checker.stmt]
    exact except_bind_eq_ok.2 ⟨_, ih, rfl⟩
  | seqNil pos => exact stmt_seq_eq_ok.2 (by rw [Checker.stmtList]; rfl)
  | seqCons pos _ _ ihf iho =>
    refine stmt_seq_eq_ok.2 ?_
    rw [Checker.stmtList]
    exact except_bind_eq_ok.2 ⟨_, ihf, except_bind_eq_ok.2 ⟨_, stmt_seq_eq_ok.1 iho, rfl⟩⟩

/-- Parameters are declared if their names are distinct. -/
theorem declareParams_env {vars : Vars} {outer : Scopes} {params : List Source.Param} {env' : Env} :
    Checker.declareParams (env Φ (vars :: outer)) (params.map fun param => (param, .ofExpr param.type)) =
        .ok env' ↔
      ((params.map Source.Param.name).Nodup ∧ ∀ param ∈ params, ∀ type, (param.name, type) ∉ vars) ∧
        env' = env Φ (((params.map fun param => (param.name, .ofExpr param.type)).reverse ++ vars) :: outer) := by
  induction params generalizing vars with
  | nil => simp [Checker.declareParams, eq_comm]
  | cons param params ih =>
    have hnew : (∀ other ∈ params, ∀ type, (other.name, type) ∉ (param.name, Ty.ofExpr param.type) :: vars) ↔
        param.name ∉ params.map Source.Param.name ∧ ∀ other ∈ params, ∀ type, (other.name, type) ∉ vars := by
      simp only [List.mem_cons, Prod.mk.injEq, not_or, List.mem_map, not_exists, not_and, forall_and]
      refine and_congr_left' (forall₂_congr fun other _ => ?_)
      exact ⟨fun h heq => h _ heq rfl, fun h type heq => absurd heq h⟩
    rw [List.map_cons, Checker.declareParams, except_bind_eq_ok]
    simp only [declare_env, and_assoc, exists_and_left, exists_eq_left, ih, hnew]
    simp only [List.map_cons, List.nodup_cons, List.forall_mem_cons, List.reverse_cons, List.append_assoc,
      List.singleton_append]
    tauto

/-- What the checker declares of a function with the given label. -/
def signature (f : Source.Func) (label : String) : Checker.Signature where
  func := f
  label := label
  params := f.params.map fun param => .ofExpr param.type
  ret := .ofExpr f.ret

theorem signatures_eq (p : Source.Program) :
    Checker.signatures p = (p.funcs.zip (Checker.labels p.funcs)).map fun f => signature f.1 f.2 := rfl

/-- The header of a declared function. -/
def Header.ofSignature (s : Checker.Signature) : Header := ⟨s.func.name, s.label, s.params, s.ret⟩

theorem headers_eq (p : Source.Program) : headers p = (Checker.signatures p).map .ofSignature := by
  rw [signatures_eq, List.map_map]
  rfl

theorem globals_concat (Φ : List Header) (f : Header) :
    globals (Φ ++ [f]) = (globals Φ).bind f.name f.decl := by
  simp [globals, Scope.bind]

theorem enter_globals (Φ : List Header) : Chain.enter [globals Φ] = env Φ [[]] := rfl

/-- A function is declared if no other takes its arguments. -/
theorem declare?_globals {Φ : List Header} {f : Header} {scope : Scope Decl} :
    (globals Φ).declare? f.name f.decl = some scope ↔
      (∀ g ∈ Φ, ¬ g.Accepts f.name f.params) ∧ scope = globals (Φ ++ [f]) := by
  have hany : (((globals Φ).decls f.name).any fun old => Binding.collides old f.decl) = true ↔
      ∃ g ∈ Φ, g.Accepts f.name f.params := by
    rw [decls_globals, List.any_reverse, List.any_map, List.any_filter]
    simp [Header.decl, Header.Accepts, Binding.collides, Decl.collides, Decl.sameParams, Decl.params?,
      Ty.params?]
  rw [Scope.declare?, globals_concat]
  by_cases h : ∃ g ∈ Φ, g.Accepts f.name f.params
  · rw [if_pos (hany.2 h)]
    obtain ⟨g, hg, haccepts⟩ := h
    simp only [reduceCtorEq, false_iff]
    exact fun hnone => hnone.1 g hg haccepts
  · rw [if_neg (mt hany.1 h)]
    simp only [Option.some.injEq, eq_comm (a := scope), iff_and_self]
    exact fun _ g hg haccepts => h ⟨g, hg, haccepts⟩

/-- Functions are declared exactly if their headers are distinct, also from those that stand already. -/
theorem declareAll_globals {before : List Header} {sigs : List Checker.Signature} {scope : Scope Decl}
    (hbefore : DistinctHeaders before) :
    Checker.declareAll sigs (globals before) = .ok scope ↔
      DistinctHeaders (before ++ sigs.map .ofSignature) ∧
        scope = globals (before ++ sigs.map .ofSignature) := by
  induction sigs generalizing before with
  | nil => simp [Checker.declareAll, hbefore, eq_comm]
  | cons s sigs ih =>
    rw [Checker.declareAll]
    have hfirst := @declare?_globals before (.ofSignature s)
    split
    · rename_i scope' hdeclare
      obtain ⟨hnew, rfl⟩ := hfirst.1 hdeclare
      have hdistinct : DistinctHeaders (before ++ [.ofSignature s]) := by
        rw [DistinctHeaders, List.pairwise_append]
        exact ⟨hbefore, List.pairwise_singleton .., by simpa using hnew⟩
      rw [ih hdistinct, List.append_assoc, List.singleton_append, List.map_cons]
    · rename_i hdeclare
      simp only [reduceCtorEq, false_iff, List.map_cons]
      rintro ⟨hdistinct, -⟩
      rw [DistinctHeaders, List.pairwise_append] at hdistinct
      have hnew := hfirst.2 ⟨fun g hg => hdistinct.2.2 g hg _ (List.mem_cons_self ..), rfl⟩
      exact Option.some_ne_none _ (hnew.symm.trans hdeclare)

/-- The functions of a program are declared exactly if their headers are distinct. -/
theorem declareAll_signatures {p : Source.Program} {scope : Scope Decl} :
    Checker.declareAll (Checker.signatures p) [] = .ok scope ↔
      DistinctHeaders (headers p) ∧ scope = globals (headers p) := by
  rw [headers_eq]
  exact @declareAll_globals [] _ _ List.Pairwise.nil

theorem paramVars_typedParams (f : Source.Func) :
    paramVars (typedParams f) = (f.params.map fun param => (param.name, .ofExpr param.type)).reverse := by
  rw [paramVars, typedParams, List.map_map]
  rfl

/-- A function is checked exactly if it is derivable. -/
theorem func_eq_ok {f : Source.Func} {label : String} {c : Checked.Func} :
    Checker.func (globals Φ) (signature f label) = .ok c ↔ FuncTyped Φ f label c := by
  have hzip : f.params.zip (f.params.map fun param => Ty.ofExpr param.type) =
      f.params.map fun param => (param, .ofExpr param.type) := (List.map_prod_left_eq_zip ..).symm
  have hparams := @declareParams_env Φ [] [] f.params
  simp only [List.not_mem_nil, not_false_eq_true, implies_true, and_true, List.append_nil] at hparams
  simp only [Checker.func, signature, hzip, List.map_map]
  constructor
  · intro hok
    obtain ⟨start, hstart, hok⟩ := except_bind_eq_ok.1 hok
    obtain ⟨⟨body, after⟩, hbody, hok⟩ := except_bind_eq_ok.1 hok
    cases hok
    obtain ⟨hnodup, rfl⟩ := hparams.1 hstart
    obtain ⟨vars, htyped, -⟩ := stmtTyped_of_stmt f.body hbody
    rw [← paramVars_typedParams] at htyped
    exact .mk hnodup htyped
  · rintro ⟨hnodup, hbody⟩
    refine except_bind_eq_ok.2 ⟨_, hparams.2 ⟨hnodup, rfl⟩, ?_⟩
    rw [paramVars_typedParams] at hbody
    exact except_bind_eq_ok.2 ⟨_, hbody.accepted, rfl⟩

theorem funcs_eq_ok {globals : Scope Decl} {sigs : List Checker.Signature} {cs : List Checked.Func} :
    Checker.funcs globals sigs = .ok cs ↔ List.Forall₂ (Checker.func globals · = .ok ·) sigs cs := by
  constructor
  · intro h
    induction sigs generalizing cs with
    | nil =>
      cases h
      exact .nil
    | cons s sigs ih =>
      rw [Checker.funcs] at h
      obtain ⟨c, hfirst, h⟩ := except_bind_eq_ok.1 h
      obtain ⟨others, hothers, h⟩ := except_bind_eq_ok.1 h
      cases h
      exact .cons hfirst (ih hothers)
  · intro h
    induction h with
    | nil => rfl
    | cons hfirst _ ih =>
      rw [Checker.funcs]
      exact except_bind_eq_ok.2 ⟨_, hfirst, except_bind_eq_ok.2 ⟨_, ih, rfl⟩⟩

/-- A program is checked exactly if it is derivable. -/
theorem program_eq_ok {p : Source.Program} {c : Checked.Program} :
    Checker.program p = .ok c ↔ ProgramTyped p c := by
  have hfuncs : ∀ cs, Checker.funcs (globals (headers p)) (Checker.signatures p) = .ok cs ↔
      List.Forall₂ (fun f cf => FuncTyped (headers p) f.1 f.2 cf)
        (p.funcs.zip (Checker.labels p.funcs)) cs := by
    intro cs
    rw [funcs_eq_ok, signatures_eq, List.forall₂_map_left_iff]
    simp only [func_eq_ok]
  rw [Checker.program]
  constructor
  · intro hok
    obtain ⟨scope, hscope, hok⟩ := except_bind_eq_ok.1 hok
    obtain ⟨hdistinct, rfl⟩ := declareAll_signatures.1 hscope
    obtain ⟨cs, hcs, hok⟩ := except_bind_eq_ok.1 hok
    obtain ⟨⟨body, after⟩, hbody, hok⟩ := except_bind_eq_ok.1 hok
    cases hok
    rw [enter_globals] at hbody
    obtain ⟨vars, htyped, -⟩ := stmtTyped_of_stmt p.body hbody
    exact ⟨hdistinct, (hfuncs cs).1 hcs, _, htyped⟩
  · rintro ⟨hdistinct, hcs, Γ, hbody⟩
    refine except_bind_eq_ok.2 ⟨_, declareAll_signatures.2 ⟨hdistinct, rfl⟩, ?_⟩
    refine except_bind_eq_ok.2 ⟨_, (hfuncs _).2 hcs, ?_⟩
    exact except_bind_eq_ok.2 ⟨_, hbody.accepted, rfl⟩

/-- A program is accepted exactly if it is derivable and each of its functions ends. -/
theorem check_eq_ok {p : Source.Program} {c : Checked.Program} :
    check p = .ok c ↔ ProgramTyped p c ∧ p.checkTermination = .ok () := by
  rw [check, except_bind_eq_ok]
  constructor
  · rintro ⟨q, hq, hok⟩
    obtain ⟨_, hends, ⟨⟩⟩ := except_bind_eq_ok.1 hok
    exact ⟨program_eq_ok.1 hq, hends⟩
  · rintro ⟨htyped, hends⟩
    exact ⟨c, program_eq_ok.2 htyped, except_bind_eq_ok.2 ⟨(), hends, rfl⟩⟩

/-- A derivation keeps the statement. -/
theorem StmtTyped.kept {Γ Γ' : Scopes} {s : Source.Stmt} {c : Checked.Stmt}
    (h : StmtTyped Φ ret Γ s c Γ') : c.bare id = s.bare .ofExpr := by
  induction h with
  | skip | seqNil => rfl
  | declare _ hinit _ _ => exact congrArg (Stmt.declare () _ _) hinit.kept
  | assign _ hdst hsrc _ => exact congrArg₂ (Stmt.assign ()) hdst.kept hsrc.kept
  | read _ he _ => exact congrArg (Stmt.read ()) he.kept
  | freePair _ he _ | freeArray _ he _ => exact congrArg (Stmt.free ()) he.kept
  | ret _ _ he _ => exact congrArg (Stmt.ret ()) he.kept
  | exit _ he _ => exact congrArg (Stmt.exit ()) he.kept
  | print _ he => exact congrArg (Stmt.print () · _) he.kept
  | branch _ hcond _ _ _ ihy ihn =>
    rw [Stmt.bare, Stmt.bare, hcond.kept, ihy, ihn]
  | loop _ hcond _ _ ih => exact congrArg₂ (Stmt.loop ()) hcond.kept ih
  | scope _ _ ih => exact congrArg (Stmt.scope ()) ih
  | seqCons _ _ _ ihf iho =>
    rw [Stmt.bare, Stmt.bare] at iho ⊢
    rw [Stmt.bareAll, Stmt.bareAll, ihf, (Stmt.seq.inj iho).2]

/-- A derivation keeps the function. -/
theorem FuncTyped.kept {f : Source.Func} {label : String} {c : Checked.Func}
    (h : FuncTyped Φ f label c) : c.outline = f.outline := by
  cases h with
  | mk _ hbody => rw [Checked.Func.outline, Source.Func.outline, hbody.kept]

theorem funcs_kept {fs : List (Source.Func × String)} {cs : List Checked.Func}
    (h : List.Forall₂ (fun f c => FuncTyped Φ f.1 f.2 c) fs cs) :
    cs.map Checked.Func.outline = (fs.map Prod.fst).map Source.Func.outline := by
  induction h with
  | nil => rfl
  | cons hfirst _ ih => rw [List.map_cons, List.map_cons, List.map_cons, hfirst.kept, ih]

/-- Checking changes no name, no type and no statement of a program. -/
theorem ProgramTyped.kept {p : Source.Program} {c : Checked.Program} (h : ProgramTyped p c) :
    c.outline = p.outline := by
  obtain ⟨Γ, hbody⟩ := h.body
  have hlength : p.funcs.length ≤ (Checker.labels p.funcs).length :=
    Nat.le_of_eq (Checker.length_labels p.funcs).symm
  have hfuncs := funcs_kept h.funcs
  rw [List.map_fst_zip hlength] at hfuncs
  rw [Checked.Program.outline, Source.Program.outline, hfuncs, hbody.kept]

end Typing

end WaccArm
