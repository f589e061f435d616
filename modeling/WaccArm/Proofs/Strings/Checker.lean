import WaccArm.Proofs.Checker.Labels
import WaccArm.Proofs.Strings.Spelling

namespace WaccArm

section

variable {δ ε : Type} {f : δ → ε}

/-- The scope with each declaration replaced. -/
def Scope.mapDecls (f : δ → ε) (scope : Scope δ) : Scope ε := scope.map (Prod.map id f)

/-- The scopes with each declaration replaced. -/
def Chain.mapDecls (f : δ → ε) (chain : Chain δ) : Chain ε := chain.map (Scope.mapDecls f)

/-- The outcome with the declaration replaced. -/
def Resolution.mapDecl (f : δ → ε) : Resolution δ → Resolution ε
  | found decl => .found (f decl)
  | notFound => .notFound
  | ambiguous => .ambiguous

theorem Scope.decls_mapDecls (scope : Scope δ) (name : String) :
    (scope.mapDecls f).decls name = (scope.decls name).map f := by
  rw [decls, decls, mapDecls, List.filter_map, List.map_map, List.map_map]
  rfl

theorem Scope.declare?_mapDecls [Binding δ] [Binding ε]
    (hf : ∀ a b, Binding.collides (f a) (f b) = Binding.collides a b) (scope : Scope δ) (name : String)
    (decl : δ) :
    (scope.mapDecls f).declare? name (f decl) = (scope.declare? name decl).map (Scope.mapDecls f) := by
  have hany : ((scope.decls name).map f).any (Binding.collides · (f decl)) =
      (scope.decls name).any (Binding.collides · decl) := by
    rw [List.any_map]
    exact congrArg (List.any _) (funext fun old => hf old decl)
  rw [declare?, declare?, decls_mapDecls, hany]
  split <;> rfl

theorem Chain.declare?_mapDecls [Binding δ] [Binding ε]
    (hf : ∀ a b, Binding.collides (f a) (f b) = Binding.collides a b) (chain : Chain δ) (name : String)
    (decl : δ) :
    (chain.mapDecls f).declare? name (f decl) = (chain.declare? name decl).map (Chain.mapDecls f) := by
  cases chain with
  | nil => rfl
  | cons scope outer =>
    rw [mapDecls, List.map_cons, declare?, declare?, Scope.declare?_mapDecls hf, Option.map_map, Option.map_map]
    rfl

theorem filter_map_of_accept {accept : δ → Bool} {accept' : ε → Bool} (h : ∀ decl, accept' (f decl) = accept decl)
    (decls : List δ) : (decls.map f).filter accept' = (decls.filter accept).map f := by
  rw [List.filter_map]
  exact congrArg (List.map f) (congrArg (List.filter · decls) (funext h))

/-- A name is found whatever is done to the declarations. -/
theorem Chain.lookup?_mapDecls {accept : δ → Bool} {accept' : ε → Bool}
    (h : ∀ decl, accept' (f decl) = accept decl) (chain : Chain δ) (name : String) :
    (chain.mapDecls f).lookup? name accept' = (chain.lookup? name accept).map f := by
  induction chain with
  | nil => rfl
  | cons scope outer ih =>
    have hscope : (scope.mapDecls f).lookup? name accept' = (scope.lookup? name accept).map f := by
      rw [Scope.lookup?, Scope.lookup?, Scope.decls_mapDecls, ← List.head?_filter, ← List.head?_filter,
        filter_map_of_accept h, List.head?_map]
    rw [lookup?, mapDecls, List.map_cons, List.findSome?_cons, hscope, lookup?, List.findSome?_cons]
    cases scope.lookup? name accept with
    | none => exact ih
    | some decl => rfl

/-- A use is resolved whatever is done to the declarations. -/
theorem Chain.resolve_mapDecls {candidate fits : δ → Bool} {candidate' fits' : ε → Bool}
    (hcandidate : ∀ decl, candidate' (f decl) = candidate decl) (hfits : ∀ decl, fits' (f decl) = fits decl)
    (chain : Chain δ) (name : String) :
    (chain.mapDecls f).resolve name candidate' fits' = (chain.resolve name candidate fits).mapDecl f := by
  induction chain with
  | nil => rfl
  | cons scope outer ih =>
    rw [mapDecls, List.map_cons, ← mapDecls, resolve, resolve, List.map_cons, List.map_cons,
      Resolution.among, Resolution.among, ← resolve, ← resolve, Scope.decls_mapDecls, ih]
    simp only [filter_map_of_accept hcandidate, filter_map_of_accept hfits, List.isEmpty_map]
    cases ((scope.decls name).filter candidate).filter fits with
    | nil =>
      cases Chain.resolve outer name candidate fits with
      | notFound => cases ((scope.decls name).filter candidate).isEmpty <;> rfl
      | _ => rfl
    | cons decl decls => cases decls <;> rfl

end

/-- The declaration with its type spelled out. -/
def Decl.expanded : Decl → Decl
  | .variable type => .variable type.expand
  | .function label type => .function label type.expand

namespace Decl

theorem isVariable_expanded (decl : Decl) : decl.expanded.isVariable = decl.isVariable := by
  cases decl <;> rfl

theorem isFunction_expanded (decl : Decl) : decl.expanded.isFunction = decl.isFunction := by
  cases decl <;> rfl

theorem params?_expanded (decl : Decl) : decl.expanded.params? = decl.params?.map Ty.expandAll := by
  match decl with
  | .variable type => rfl
  | .function label type => exact type.params?_expand

/-- Parameters are compared by what they spell out to. -/
theorem sameParams_congr {as bs as' bs' : Option (List Ty)} (ha : as.map Ty.expandAll = as'.map Ty.expandAll)
    (hb : bs.map Ty.expandAll = bs'.map Ty.expandAll) : sameParams as bs = sameParams as' bs' := by
  have hspelled : ∀ as bs : Option (List Ty),
      sameParams as bs = sameParams (as.map Ty.expandAll) (bs.map Ty.expandAll) := by
    intro as bs
    cases as with
    | none => cases bs <;> rfl
    | some as =>
      cases bs with
      | none => rfl
      | some bs =>
        simp only [Option.map_some, sameParams, Ty.compatibleAll, Ty.expandAll_expandAll]
  rw [hspelled as bs, hspelled as' bs', ha, hb]

theorem map_expandAll (params : Option (List Ty)) :
    (params.map Ty.expandAll).map Ty.expandAll = params.map Ty.expandAll := by
  cases params with
  | none => rfl
  | some params => exact congrArg some (Ty.expandAll_expandAll params)

/-- A function takes the same arguments. -/
theorem takes_expanded {types types' : List Ty} (h : Ty.expandAll types = Ty.expandAll types') (decl : Decl) :
    decl.expanded.takes types' = decl.takes types := by
  rw [takes, takes, params?_expanded]
  exact sameParams_congr (map_expandAll _) (congrArg some h.symm)

/-- Declarations collide as before. -/
theorem collides_expanded (a b : Decl) :
    Binding.collides a.expanded b.expanded = Binding.collides a b := by
  match a, b with
  | .variable _, _ => cases b <;> rfl
  | .function .., .variable _ => rfl
  | .function label type, .function label' type' =>
    exact sameParams_congr
      ((congrArg _ (params?_expanded (.function label type))).trans (map_expandAll _))
      ((congrArg _ (params?_expanded (.function label' type'))).trans (map_expandAll _))

end Decl

/-- The environment with all its types spelled out. -/
abbrev Env.expanded (env : Env) : Env := env.mapDecls Decl.expanded

/-- The fault that a string is freed. -/
def CheckFault.FreesString (fault : CheckFault) : Prop := ∃ e, fault = .mismatch e .pairOrArray .str

namespace Checker

open Ty (Respelled)

/-- Both checks find a fault or both give results, which are then related, unless the first comes to a string
that is freed. -/
inductive Alike {α β : Type} (related : α → β → Prop) : Except CheckError α → Except CheckError β → Prop
  | ok {a : α} {b : β} (h : related a b) : Alike related (.ok a) (.ok b)
  | error (e e' : CheckError) : Alike related (.error e) (.error e')
  | freesString {e : CheckError} (h : e.val.FreesString) (result : Except CheckError β) :
    Alike related (.error e) result

section

variable {α β α' β' : Type} {related : α → β → Prop} {related' : α' → β' → Prop}

/-- Checks that are alike go on alike. -/
theorem Alike.bind {x : Except CheckError α} {y : Except CheckError β} {f : α → Except CheckError α'}
    {g : β → Except CheckError β'} (h : Alike related x y)
    (hf : ∀ a b, related a b → Alike related' (f a) (g b)) : Alike related' (x >>= f) (y >>= g) := by
  cases h with
  | ok hab => exact hf _ _ hab
  | error e e' => exact .error e e'
  | freesString he => exact .freesString he _

theorem Alike.mismatch (e e' : Source.Expr) (demand demand' : Demand) (actual actual' : Ty) :
    Alike related (Checker.mismatch e demand actual) (Checker.mismatch e' demand' actual') :=
  .error _ _

end

/-- Two results of checking one expression: the types on them spell out to the same types. -/
def SameExpr (c c' : Checked.Expr) : Prop := Respelled c.note c'.note ∧ c.expanded = c'.expanded

theorem expandAll_notes {cs cs' : List Checked.Expr} (h : List.Forall₂ SameExpr cs cs') :
    Ty.expandAll (cs.map Expr.note) = Ty.expandAll (cs'.map Expr.note) := by
  induction h with
  | nil => rfl
  | cons hc _ ih => rw [List.map_cons, List.map_cons, Ty.expandAll, Ty.expandAll, hc.1.expand_eq, ih]

theorem mapAll_expanded {cs cs' : List Checked.Expr} (h : List.Forall₂ SameExpr cs cs') :
    Expr.mapAll Ty.expand cs = Expr.mapAll Ty.expand cs' := by
  induction h with
  | nil => rfl
  | cons hc _ ih => exact congrArg₂ List.cons hc.2 ih

section

variable {a a' b b' : Ty}

/-- Types are compared after spelling out. -/
theorem expect_alike (e : Source.Expr) (ha : a.expand = a'.expand) (hb : b.expand = b'.expand) :
    Alike (fun _ _ => True) (expect e a b) (expect e a' b') := by
  rw [expect, expect, Ty.compatible, Ty.compatible, ha, hb]
  split
  · exact .ok trivial
  · exact .mismatch ..

theorem expectIntOrChar_alike (e : Source.Expr) (h : Respelled a a') :
    Alike (fun _ _ => True) (expectIntOrChar e a) (expectIntOrChar e a') := by
  cases h with
  | refl =>
    cases a with
    | int | char => exact .ok trivial
    | _ => exact .mismatch ..
  | _ => exact .mismatch ..

theorem unaryType_alike (op : UnaryOp) (e : Source.Expr) (h : Respelled a a') :
    Alike Respelled (unaryType op e a) (unaryType op e a') := by
  cases op with
  | len =>
    rw [unaryType, unaryType, h.isArray_eq]
    split
    · exact .ok (.refl _)
    · exact .mismatch ..
  | not | negate | ord | chr => exact (expect_alike e h.expand_eq rfl).bind fun _ _ _ => .ok (.refl _)

theorem binaryType_alike (op : BinaryOp) (left right : Source.Expr) (hl : Respelled a a')
    (hr : Respelled b b') :
    Alike Respelled (binaryType op left right a b) (binaryType op left right a' b') := by
  rw [binaryType, binaryType]
  cases op.kind with
  | arithmetic | logical =>
    refine (expect_alike left hl.expand_eq rfl).bind fun _ _ _ => ?_
    exact (expect_alike right hr.expand_eq rfl).bind fun _ _ _ => .ok (.refl _)
  | ordering =>
    refine (expectIntOrChar_alike left hl).bind fun _ _ _ => ?_
    exact (expect_alike right hr.expand_eq hl.expand_eq).bind fun _ _ _ => .ok (.refl _)
  | equality => exact (expect_alike right hr.expand_eq hl.expand_eq).bind fun _ _ _ => .ok (.refl _)

end

theorem variableType_alike (env : Env) (name : String) (pos : Pos) :
    Alike Respelled (variableType env name pos) (variableType env.expanded name pos) := by
  rw [variableType, variableType, Chain.lookup?_mapDecls Decl.isVariable_expanded]
  cases env.lookup? name Decl.isVariable with
  | none => exact .error _ _
  | some decl =>
    rcases decl with type | _
    · exact .ok (Ty.respelled_expand type)
    · exact .error _ _

/-- A label and a result type, which may be spelled out. -/
def SameCallee (callee callee' : String × Ty) : Prop := callee.1 = callee'.1 ∧ Respelled callee.2 callee'.2

/-- A call goes to the same function. -/
theorem callee_alike (env : Env) (name : String) {types types' : List Ty}
    (h : Ty.expandAll types = Ty.expandAll types') (pos : Pos) :
    Alike SameCallee (callee env name types pos) (callee env.expanded name types' pos) := by
  rw [callee, callee, Chain.resolve_mapDecls Decl.isFunction_expanded (Decl.takes_expanded h)]
  cases env.resolve name Decl.isFunction (Decl.takes types) with
  | notFound | ambiguous => exact .error _ _
  | found decl =>
    rcases decl with _ | ⟨label, type⟩
    · exact .error _ _
    refine .ok ⟨rfl, ?_⟩
    change Respelled (type.ret?.getD .int) (type.expand.ret?.getD .int)
    rw [Ty.ret?_expand]
    cases type.ret? with
    | none => exact .refl _
    | some ret => exact Ty.respelled_expand ret

mutual

/-- An expression is checked alike. -/
theorem expr_alike (env : Env) (e : Source.Expr) : Alike SameExpr (expr env e) (expr env.expanded e) := by
  cases e with
  | int | bool | char | str | null => exact .ok ⟨.refl _, rfl⟩
  | var pos name =>
    rw [expr, expr]
    refine (variableType_alike env name pos).bind fun type type' h => .ok ⟨h, ?_⟩
    exact congrArg (Expr.var · name) h.expand_eq
  | elem pos name indices =>
    rw [expr, expr]
    refine (variableType_alike env name pos).bind fun array array' harray => ?_
    refine (indexList_alike env indices).bind fun cs cs' hcs => ?_
    match array.index? indices.length, array'.index? indices.length, harray.index? indices.length with
    | _, _, .unknown => exact .mismatch ..
    | some type, some type', .known h =>
      refine .ok ⟨h, ?_⟩
      exact congrArg₂ (Expr.elem · name) h.expand_eq (mapAll_expanded hcs)
  | side pos which pair =>
    rw [expr, expr]
    refine (expr_alike env pair).bind fun c c' hc => ?_
    match c.note.side? which, c'.note.side? which, hc.1.side? which with
    | _, _, .unknown => exact .mismatch ..
    | some type, some type', .known h =>
      exact .ok ⟨h, congrArg₂ (Expr.side · which) h.expand_eq hc.2⟩
  | unary pos op operand =>
    rw [expr, expr]
    refine (expr_alike env operand).bind fun c c' hc => ?_
    refine (unaryType_alike op operand hc.1).bind fun type type' h => .ok ⟨h, ?_⟩
    exact congrArg₂ (Expr.unary · op) h.expand_eq hc.2
  | binary pos op left right =>
    rw [expr, expr]
    refine (expr_alike env left).bind fun l l' hl => ?_
    refine (expr_alike env right).bind fun r r' hr => ?_
    refine (binaryType_alike op left right hl.1 hr.1).bind fun type type' h => .ok ⟨h, ?_⟩
    exact (congr (congrArg₂ (Expr.binary · op) h.expand_eq hl.2) hr.2 :)
  | call pos name args =>
    rw [expr, expr]
    refine (exprList_alike env args).bind fun cs cs' hcs => ?_
    refine (callee_alike env name (expandAll_notes hcs) pos).bind fun callee callee' h => .ok ⟨h.2, ?_⟩
    exact (congr (congrArg₂ Expr.call h.2.expand_eq h.1) (mapAll_expanded hcs) :)
  | newPair pos fst snd =>
    rw [expr, expr]
    refine (expr_alike env fst).bind fun f f' hf => ?_
    refine (expr_alike env snd).bind fun s s' hs => ?_
    have h := Respelled.of_sides hf.1.erased hs.1.erased
    exact .ok ⟨h, (congr (congrArg₂ Expr.newPair h.expand_eq hf.2) hs.2 :)⟩
  | array pos elems =>
    cases elems with
    | nil => exact .ok ⟨.refl _, rfl⟩
    | cons first others =>
      rw [expr, expr]
      refine (expr_alike env first).bind fun c c' hc => ?_
      refine (elementList_alike env hc.1 others).bind fun cs cs' hcs => .ok ⟨hc.1.arrayOf, ?_⟩
      exact congrArg₂ Expr.array hc.1.arrayOf.expand_eq (mapAll_expanded (.cons hc hcs))

theorem exprList_alike (env : Env) (es : List Source.Expr) :
    Alike (List.Forall₂ SameExpr) (exprList env es) (exprList env.expanded es) := by
  cases es with
  | nil => exact .ok .nil
  | cons e es =>
    rw [exprList, exprList]
    refine (expr_alike env e).bind fun c c' hc => ?_
    exact (exprList_alike env es).bind fun cs cs' hcs => .ok (.cons hc hcs)

theorem indexList_alike (env : Env) (es : List Source.Expr) :
    Alike (List.Forall₂ SameExpr) (indexList env es) (indexList env.expanded es) := by
  cases es with
  | nil => exact .ok .nil
  | cons e es =>
    rw [indexList, indexList]
    refine (expr_alike env e).bind fun c c' hc => ?_
    refine (expect_alike e hc.1.expand_eq rfl).bind fun _ _ _ => ?_
    exact (indexList_alike env es).bind fun cs cs' hcs => .ok (.cons hc hcs)

theorem elementList_alike (env : Env) {first first' : Ty} (hfirst : Respelled first first')
    (es : List Source.Expr) :
    Alike (List.Forall₂ SameExpr) (elementList env first es) (elementList env.expanded first' es) := by
  cases es with
  | nil => exact .ok .nil
  | cons e es =>
    rw [elementList, elementList]
    refine (expr_alike env e).bind fun c c' hc => ?_
    refine (expect_alike e hc.1.expand_eq hfirst.expand_eq).bind fun _ _ _ => ?_
    exact (elementList_alike env hfirst es).bind fun cs cs' hcs => .ok (.cons hc hcs)

end

/-- A name is declared alike. -/
theorem declare_alike (env : Env) (name : String) (type : Ty) (pos : Pos) :
    Alike (fun env env' => env' = Env.expanded env) (declare env name type pos)
      (declare env.expanded name type.expand pos) := by
  have hdeclare : env.expanded.declare? name (.variable type.expand) =
      (env.declare? name (.variable type)).map Env.expanded :=
    Chain.declare?_mapDecls Decl.collides_expanded env name (.variable type)
  rw [declare, declare, hdeclare]
  cases env.declare? name (.variable type) with
  | none => exact .error _ _
  | some env => exact .ok rfl

/-- Two results of checking one statement, with the environments behind it. -/
def SameStmt (result result' : Checked.Stmt × Env) : Prop :=
  Checked.Stmt.expanded result.1 = Checked.Stmt.expanded result'.1 ∧ result'.2 = result.2.expanded

/-- Two results of checking statements one after the other. -/
def SameStmts (result result' : List Checked.Stmt × Env) : Prop :=
  Stmt.retypeAll Checked.Expr.expanded Ty.expand result.1 =
      Stmt.retypeAll Checked.Expr.expanded Ty.expand result'.1 ∧
    result'.2 = result.2.expanded

/-- Freeing is where the spelling of a type is looked at. -/
theorem free_alike (e : Source.Expr) (env : Env) {c c' : Checked.Expr} (hc : SameExpr c c') :
    Alike SameStmt
      (match c.note with
        | .pair .. | .array .. => .ok (.free () c, env)
        | actual => mismatch e .pairOrArray actual)
      (match c'.note with
        | .pair .. | .array .. => .ok (.free () c', env.expanded)
        | actual => mismatch e .pairOrArray actual) := by
  have hsame : SameStmt (.free () c, env) (.free () c', env.expanded) :=
    ⟨congrArg (Stmt.free ()) hc.2, rfl⟩
  match c.note, c'.note, hc.1 with
  | _, _, .str => exact .freesString ⟨e, rfl⟩ _
  | _, _, .strings _ | _, _, .array .. | _, _, .pair .. => exact .ok hsame
  | _, _, .function .. => exact .mismatch ..
  | t, _, .refl _ =>
    cases t with
    | array | pair => exact .ok hsame
    | _ => exact .mismatch ..

mutual

/-- A statement is checked alike. -/
theorem stmt_alike {ret ret' : Option Ty} (hret : ret' = ret.map Ty.expand) (s : Source.Stmt) (env : Env) :
    Alike SameStmt (stmt ret s env) (stmt ret' (Source.Stmt.respelled s) env.expanded) := by
  cases s with
  | skip => exact .ok ⟨rfl, rfl⟩
  | declare pos written name init =>
    rw [Source.Stmt.respelled, Stmt.retype, stmt, stmt, id, Ty.ofExpr_respelled]
    refine (expr_alike env init).bind fun c c' hc => ?_
    refine (expect_alike init hc.1.expand_eq (Ty.expand_expand _).symm).bind fun _ _ _ => ?_
    refine (declare_alike env name _ pos).bind fun env env' henv => .ok ⟨?_, henv⟩
    exact congrArg₂ (Stmt.declare () · name) (Ty.expand_expand _).symm hc.2
  | assign pos dst src =>
    rw [Source.Stmt.respelled, Stmt.retype, stmt, stmt]
    refine (expr_alike env dst).bind fun d d' hd => ?_
    refine (expr_alike env src).bind fun c c' hc => ?_
    refine (expect_alike src hc.1.expand_eq hd.1.expand_eq).bind fun _ _ _ => .ok ⟨?_, rfl⟩
    exact congrArg₂ (Stmt.assign ()) hd.2 hc.2
  | read pos target =>
    rw [Source.Stmt.respelled, Stmt.retype, stmt, stmt]
    refine (expr_alike env target).bind fun c c' hc => ?_
    refine (expectIntOrChar_alike target hc.1).bind fun _ _ _ => .ok ⟨?_, rfl⟩
    exact congrArg (Stmt.read ()) hc.2
  | free pos e =>
    rw [Source.Stmt.respelled, Stmt.retype, stmt, stmt]
    exact (expr_alike env e).bind fun c c' hc => free_alike e env hc
  | ret pos e =>
    subst hret
    rw [Source.Stmt.respelled, Stmt.retype]
    cases ret with
    | none => exact .error _ _
    | some want =>
      rw [Option.map_some, stmt, stmt]
      refine (expr_alike env e).bind fun c c' hc => ?_
      refine (expect_alike e hc.1.expand_eq (Ty.expand_expand _).symm).bind fun _ _ _ => .ok ⟨?_, rfl⟩
      exact congrArg (Stmt.ret ()) hc.2
  | exit pos e =>
    rw [Source.Stmt.respelled, Stmt.retype, stmt, stmt]
    refine (expr_alike env e).bind fun c c' hc => ?_
    refine (expect_alike e hc.1.expand_eq rfl).bind fun _ _ _ => .ok ⟨?_, rfl⟩
    exact congrArg (Stmt.exit ()) hc.2
  | print pos e newline =>
    rw [Source.Stmt.respelled, Stmt.retype, stmt, stmt]
    refine (expr_alike env e).bind fun c c' hc => .ok ⟨?_, rfl⟩
    exact congrArg (Stmt.print () · newline) hc.2
  | branch pos cond yes no =>
    rw [Source.Stmt.respelled, Stmt.retype, stmt, stmt]
    refine (expr_alike env cond).bind fun c c' hc => ?_
    refine (expect_alike cond hc.1.expand_eq rfl).bind fun _ _ _ => ?_
    refine (stmt_alike hret yes env.enter).bind fun y y' hy => ?_
    refine (stmt_alike hret no env.enter).bind fun n n' hn => .ok ⟨?_, rfl⟩
    exact (congr (congrArg₂ (Stmt.branch ()) hc.2 hy.1) hn.1 :)
  | loop pos cond body =>
    rw [Source.Stmt.respelled, Stmt.retype, stmt, stmt]
    refine (expr_alike env cond).bind fun c c' hc => ?_
    refine (expect_alike cond hc.1.expand_eq rfl).bind fun _ _ _ => ?_
    refine (stmt_alike hret body env.enter).bind fun b b' hb => .ok ⟨?_, rfl⟩
    exact congrArg₂ (Stmt.loop ()) hc.2 hb.1
  | scope pos body =>
    rw [Source.Stmt.respelled, Stmt.retype, stmt, stmt]
    refine (stmt_alike hret body env.enter).bind fun b b' hb => .ok ⟨?_, rfl⟩
    exact congrArg (Stmt.scope ()) hb.1
  | seq pos items =>
    rw [Source.Stmt.respelled, Stmt.retype, stmt, stmt]
    refine (stmtList_alike hret items env).bind fun cs cs' hcs => .ok ⟨?_, hcs.2⟩
    exact congrArg (Stmt.seq ()) hcs.1

theorem stmtList_alike {ret ret' : Option Ty} (hret : ret' = ret.map Ty.expand) (ss : List Source.Stmt)
    (env : Env) :
    Alike SameStmts (stmtList ret ss env)
      (stmtList ret' (Stmt.retypeAll id TypeExpr.respelled ss) env.expanded) := by
  cases ss with
  | nil => exact .ok ⟨rfl, rfl⟩
  | cons s ss =>
    rw [Stmt.retypeAll, stmtList, stmtList]
    refine (stmt_alike hret s env).bind fun c c' hc => ?_
    obtain ⟨c', env'⟩ := c'
    obtain ⟨hc, rfl⟩ := hc
    refine (stmtList_alike hret ss c.2).bind fun cs cs' hcs => .ok ⟨?_, hcs.2⟩
    exact congrArg₂ List.cons hc hcs.1

end

/-- The signature of a function that has been rewritten. -/
def Signature.respelled (s : Signature) : Signature :=
  { s with func := s.func.respelled, params := Ty.expandAll s.params, ret := s.ret.expand }

theorem expandAll_eq_map (ts : List Ty) : Ty.expandAll ts = ts.map Ty.expand := by
  induction ts with
  | nil => rfl
  | cons t ts ih => rw [Ty.expandAll, ih, List.map_cons]

theorem signatures_respelled (p : Source.Program) :
    signatures p.respelled = (signatures p).map Signature.respelled := by
  have hlabels : labels (p.funcs.map Source.Func.respelled) = labels p.funcs :=
    labels_map Source.Func.respelled (fun _ => rfl) p.funcs
  simp only [signatures, Source.Program.respelled, hlabels, List.zip_map_left, List.map_map]
  refine List.map_congr_left fun f _ => ?_
  simp [Signature.respelled, Source.Func.respelled, Source.Param.respelled, Ty.ofExpr_respelled, expandAll_eq_map]

theorem declareAll_alike (sigs : List Signature) (scope : Scope Decl) :
    Alike (fun scope scope' => scope' = Scope.mapDecls Decl.expanded scope) (declareAll sigs scope)
      (declareAll (sigs.map Signature.respelled) (scope.mapDecls Decl.expanded)) := by
  induction sigs generalizing scope with
  | nil => exact .ok rfl
  | cons s sigs ih =>
    have hdeclare : (scope.mapDecls Decl.expanded).declare? s.respelled.func.name
          (.function s.respelled.label (.function s.respelled.ret s.respelled.params)) =
        (scope.declare? s.func.name (.function s.label (.function s.ret s.params))).map
          (Scope.mapDecls Decl.expanded) :=
      Scope.declare?_mapDecls Decl.collides_expanded scope s.func.name (.function s.label (.function s.ret s.params))
    rw [List.map_cons, declareAll, declareAll, hdeclare]
    cases scope.declare? s.func.name (.function s.label (.function s.ret s.params)) with
    | none => exact .error _ _
    | some scope => exact ih scope

/-- A parameter that has been rewritten, with its type. -/
def respelledParam (param : Source.Param × Ty) : Source.Param × Ty := (param.1.respelled, param.2.expand)

theorem declareParams_alike (env : Env) (params : List (Source.Param × Ty)) :
    Alike (fun env env' => env' = Env.expanded env) (declareParams env params)
      (declareParams env.expanded (params.map respelledParam)) := by
  induction params generalizing env with
  | nil => exact .ok rfl
  | cons param params ih =>
    obtain ⟨param, type⟩ := param
    refine (declare_alike env param.name type param.pos).bind fun env env' henv => ?_
    subst henv
    exact ih env

/-- Two results of checking one function. -/
def SameFunc (f f' : Checked.Func) : Prop := f.expanded = f'.expanded

/-- A function is checked alike. -/
theorem func_alike (globals : Scope Decl) (s : Signature) :
    Alike SameFunc (func globals s) (func (globals.mapDecls Decl.expanded) s.respelled) := by
  have hparams : s.respelled.func.params.zip s.respelled.params =
      (s.func.params.zip s.params).map respelledParam := by
    change (s.func.params.map Source.Param.respelled).zip (Ty.expandAll s.params) = _
    rw [expandAll_eq_map, List.zip_map]
    rfl
  rw [func, func, hparams]
  refine (declareParams_alike (Chain.enter [globals]) _).bind fun env env' henv => ?_
  subst henv
  refine (stmt_alike rfl s.func.body env).bind fun body body' hbody => .ok ?_
  obtain ⟨body, inner⟩ := body
  obtain ⟨body', inner'⟩ := body'
  simp only [SameFunc, Checked.Func.expanded, List.map_map, hbody.1]
  refine congrArg₂ (Checked.Func.mk s.func.name s.label · · _) ?_ (Ty.expand_expand s.ret).symm
  refine List.map_congr_left fun param _ => ?_
  exact congrArg (Checked.Param.mk param.1.name) (Ty.expand_expand param.2).symm

theorem funcs_alike (globals : Scope Decl) (sigs : List Signature) :
    Alike (List.Forall₂ SameFunc) (funcs globals sigs)
      (funcs (globals.mapDecls Decl.expanded) (sigs.map Signature.respelled)) := by
  induction sigs with
  | nil => exact .ok .nil
  | cons s sigs ih =>
    refine (func_alike globals s).bind fun f f' hf => ?_
    exact ih.bind fun fs fs' hfs => .ok (.cons hf hfs)

/-- Two results of checking one program. -/
def SameProgram (p p' : Checked.Program) : Prop := p.expanded = p'.expanded

/-- A program is checked alike. -/
theorem program_alike (p : Source.Program) : Alike SameProgram (program p) (program p.respelled) := by
  rw [program, program, signatures_respelled]
  refine (declareAll_alike (signatures p) []).bind fun globals globals' hglobals => ?_
  subst hglobals
  refine (funcs_alike globals (signatures p)).bind fun fs fs' hfs => ?_
  refine (stmt_alike rfl p.body (Chain.enter [globals])).bind fun body body' hbody => .ok ?_
  have hfuncs : fs.map Checked.Func.expanded = fs'.map Checked.Func.expanded := by
    induction hfs with
    | nil => rfl
    | cons hf _ ih => rw [List.map_cons, List.map_cons, hf, ih]
  exact congrArg₂ Checked.Program.mk hfuncs hbody.1

end Checker

/-- Control falls off the end of the same functions. -/
theorem Source.Program.checkTermination_respelled (p : Source.Program) :
    p.respelled.checkTermination = p.checkTermination := by
  have hfind : p.respelled.funcs.find? (fun f => !f.body.terminates) =
      (p.funcs.find? fun f => !f.body.terminates).map Source.Func.respelled := by
    rw [Source.Program.respelled, List.find?_map]
    congr 2
    funext f
    exact congrArg (!·) (Stmt.terminates_retype id TypeExpr.respelled f.body)
  rw [checkTermination, checkTermination, hfind]
  cases p.funcs.find? fun f => !f.body.terminates <;> rfl

/-- The checker gives the operand of a `free` the type of strings. It ends there, with a fault that no other
statement has. -/
def Source.Program.FreesString (p : Source.Program) : Prop :=
  ∃ e, check p = .error e ∧ e.val.FreesString

/-- Checking a program and checking it with `char[]` for `string` come to the same, unless a string is
freed. -/
theorem check_alike (p : Source.Program) : Checker.Alike Checker.SameProgram (check p) (check p.respelled) := by
  rw [check, check, Source.Program.checkTermination_respelled]
  refine (Checker.program_alike p).bind fun c c' hc => ?_
  cases p.checkTermination with
  | error e => exact .error e e
  | ok _ => exact .ok hc

end WaccArm
