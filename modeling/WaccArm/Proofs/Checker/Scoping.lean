import WaccArm.Checker.Program
import WaccArm.Proofs.Emission.Success

namespace WaccArm

/-- What an expression names or calls at its top is known. -/
def Expr.Fits {α : Type} (known callable : String → Prop) (e : Expr α) : Prop :=
  (∀ name, e.named? = some name → known name) ∧ ∀ name, e.callee? = some name → callable name

namespace Checker

/-- The variables of an environment are known, and its functions can be called. -/
structure Bounded (known callable : String → Prop) (env : Env) : Prop where
  vars : ∀ name type, (name, .variable type) ∈ env.flatten → known name
  funcs : ∀ name label type, (name, .function label type) ∈ env.flatten → callable label

section

variable {known callable : String → Prop} {env : Env}

/-- A variable that has a type is known. -/
theorem Bounded.variableType (h : Bounded known callable env) {name : String} {pos : Pos} {type : Ty}
    (hok : variableType env name pos = .ok type) : known name := by
  rw [Checker.variableType] at hok
  split at hok
  · rename_i found hlookup
    exact h.vars name found (Chain.mem_of_lookup? hlookup)
  · cases hok

/-- A function that is found can be called. -/
theorem Bounded.callee (h : Bounded known callable env) {name label : String} {types : List Ty}
    {pos : Pos} {type : Ty} (hok : callee env name types pos = .ok (label, type)) : callable label := by
  rw [Checker.callee] at hok
  split at hok
  · rename_i found declared hresolve
    cases hok
    exact h.funcs name label declared (Chain.mem_of_resolve hresolve)
  · cases hok

/-- A declaration makes its own name known. -/
theorem Bounded.declare (h : Bounded known callable env) {env' : Env} {name : String} {type : Ty}
    {pos : Pos} (hok : declare env name type pos = .ok env') :
    Bounded (fun other => known other ∨ other = name) callable env' := by
  rw [Checker.declare] at hok
  split at hok
  · rename_i declared hdeclare
    cases hok
    refine ⟨fun other otype hmem => ?_, fun other label otype hmem => ?_⟩
    · rcases Chain.mem_of_declare? hdeclare hmem with heq | hmem
      · cases heq
        exact .inr rfl
      · exact .inl (h.vars other otype hmem)
    · rcases Chain.mem_of_declare? hdeclare hmem with heq | hmem
      · cases heq
      · exact h.funcs other label otype hmem
  · cases hok

/-- A block sees what is around it. -/
theorem Bounded.enter (h : Bounded known callable env) : Bounded known callable env.enter :=
  ⟨h.vars, h.funcs⟩

/-- More names may be known. -/
theorem Bounded.imp {known' : String → Prop} (h : Bounded known callable env)
    (himp : ∀ name, known name → known' name) : Bounded known' callable env :=
  ⟨fun name type hmem => himp name (h.vars name type hmem), h.funcs⟩

end

/-- A reader of lists that reads the first expression and then the others reads them one by one. -/
theorem forall₂_of_cons {env : Env} {read : List Source.Expr → Except CheckError (List Checked.Expr)}
    (hnil : read [] = .ok [])
    (hcons : ∀ e es checked, read (e :: es) = .ok checked → ∃ first others,
      expr env e = .ok first ∧ read es = .ok others ∧ checked = first :: others)
    {es : List Source.Expr} {checked : List Checked.Expr} (hok : read es = .ok checked) :
    List.Forall₂ (expr env · = .ok ·) es checked := by
  induction es generalizing checked with
  | nil =>
    rw [hnil] at hok
    cases hok
    exact .nil
  | cons e es ih =>
    obtain ⟨first, others, hfirst, hothers, rfl⟩ := hcons e es checked hok
    exact .cons hfirst (ih hothers)

/-- Arguments are checked one by one. -/
theorem exprList_forall₂ {env : Env} {es : List Source.Expr} {checked : List Checked.Expr}
    (hok : exprList env es = .ok checked) : List.Forall₂ (expr env · = .ok ·) es checked := by
  refine forall₂_of_cons (by rw [exprList]; rfl) (fun e es checked hok => ?_) hok
  rw [exprList] at hok
  obtain ⟨first, hfirst, hok⟩ := except_bind_eq_ok.1 hok
  obtain ⟨others, hothers, hok⟩ := except_bind_eq_ok.1 hok
  cases hok
  exact ⟨first, others, hfirst, hothers, rfl⟩

theorem indexList_forall₂ {env : Env} {es : List Source.Expr} {checked : List Checked.Expr}
    (hok : indexList env es = .ok checked) : List.Forall₂ (expr env · = .ok ·) es checked := by
  refine forall₂_of_cons (by rw [indexList]; rfl) (fun e es checked hok => ?_) hok
  rw [indexList] at hok
  obtain ⟨first, hfirst, hok⟩ := except_bind_eq_ok.1 hok
  obtain ⟨-, -, hok⟩ := except_bind_eq_ok.1 hok
  obtain ⟨others, hothers, hok⟩ := except_bind_eq_ok.1 hok
  cases hok
  exact ⟨first, others, hfirst, hothers, rfl⟩

/-- Elements are checked one by one. -/
theorem elementList_forall₂ {env : Env} {type : Ty} {es : List Source.Expr}
    {checked : List Checked.Expr} (hok : elementList env type es = .ok checked) :
    List.Forall₂ (expr env · = .ok ·) es checked := by
  refine forall₂_of_cons (by rw [elementList]; rfl) (fun e es checked hok => ?_) hok
  rw [elementList] at hok
  obtain ⟨first, hfirst, hok⟩ := except_bind_eq_ok.1 hok
  obtain ⟨-, -, hok⟩ := except_bind_eq_ok.1 hok
  obtain ⟨others, hothers, hok⟩ := except_bind_eq_ok.1 hok
  cases hok
  exact ⟨first, others, hfirst, hothers, rfl⟩

variable {known callable : String → Prop}

mutual

/-- A checked expression uses known variables and calls functions that can be called. -/
theorem expr_fits {env : Env} (henv : Bounded known callable env) (e : Source.Expr)
    {checked : Checked.Expr} (hok : expr env e = .ok checked) :
    ∀ part ∈ checked.parts, part.Fits known callable := by
  cases e with
  | int pos value | bool pos value | char pos value | str pos value | null pos =>
    rw [expr] at hok
    cases hok
    exact List.forall_mem_singleton.2 ⟨nofun, nofun⟩
  | var pos name =>
    rw [expr] at hok
    obtain ⟨type, htype, hok⟩ := except_bind_eq_ok.1 hok
    cases hok
    refine List.forall_mem_singleton.2 ⟨?_, nofun⟩
    rintro other ⟨rfl⟩
    exact henv.variableType htype
  | elem pos name indices =>
    rw [expr] at hok
    obtain ⟨array, harray, hok⟩ := except_bind_eq_ok.1 hok
    obtain ⟨cindices, hindices, hok⟩ := except_bind_eq_ok.1 hok
    split at hok
    · cases hok
      refine List.forall_mem_cons.2 ⟨⟨?_, nofun⟩, exprs_fit henv indices (indexList_forall₂ hindices)⟩
      rintro other ⟨rfl⟩
      exact henv.variableType harray
    · cases hok
  | side pos which pair =>
    rw [expr] at hok
    obtain ⟨cpair, hpair, hok⟩ := except_bind_eq_ok.1 hok
    split at hok
    · cases hok
      exact List.forall_mem_cons.2 ⟨⟨nofun, nofun⟩, expr_fits henv pair hpair⟩
    · cases hok
  | unary pos op operand =>
    rw [expr] at hok
    obtain ⟨coperand, hoperand, hok⟩ := except_bind_eq_ok.1 hok
    obtain ⟨type, -, hok⟩ := except_bind_eq_ok.1 hok
    cases hok
    exact List.forall_mem_cons.2 ⟨⟨nofun, nofun⟩, expr_fits henv operand hoperand⟩
  | binary pos op left right =>
    rw [expr] at hok
    obtain ⟨cleft, hleft, hok⟩ := except_bind_eq_ok.1 hok
    obtain ⟨cright, hright, hok⟩ := except_bind_eq_ok.1 hok
    obtain ⟨type, -, hok⟩ := except_bind_eq_ok.1 hok
    cases hok
    refine List.forall_mem_cons.2 ⟨⟨nofun, nofun⟩, List.forall_mem_append.2 ⟨?_, ?_⟩⟩
    · exact expr_fits henv left hleft
    · exact expr_fits henv right hright
  | call pos name args =>
    rw [expr] at hok
    obtain ⟨cargs, hargs, hok⟩ := except_bind_eq_ok.1 hok
    obtain ⟨⟨label, type⟩, hcallee, hok⟩ := except_bind_eq_ok.1 hok
    cases hok
    refine List.forall_mem_cons.2 ⟨⟨nofun, ?_⟩, exprs_fit henv args (exprList_forall₂ hargs)⟩
    rintro other ⟨rfl⟩
    exact henv.callee hcallee
  | newPair pos fst snd =>
    rw [expr] at hok
    obtain ⟨cfst, hfst, hok⟩ := except_bind_eq_ok.1 hok
    obtain ⟨csnd, hsnd, hok⟩ := except_bind_eq_ok.1 hok
    cases hok
    refine List.forall_mem_cons.2 ⟨⟨nofun, nofun⟩, List.forall_mem_append.2 ⟨?_, ?_⟩⟩
    · exact expr_fits henv fst hfst
    · exact expr_fits henv snd hsnd
  | array pos elems =>
    cases elems with
    | nil =>
      rw [expr] at hok
      cases hok
      exact List.forall_mem_singleton.2 ⟨nofun, nofun⟩
    | cons first others =>
      rw [expr] at hok
      obtain ⟨cfirst, hfirst, hok⟩ := except_bind_eq_ok.1 hok
      obtain ⟨cothers, hothers, hok⟩ := except_bind_eq_ok.1 hok
      cases hok
      refine List.forall_mem_cons.2 ⟨⟨nofun, nofun⟩, List.forall_mem_append.2 ⟨?_, ?_⟩⟩
      · exact expr_fits henv first hfirst
      · exact exprs_fit henv others (elementList_forall₂ hothers)

/-- Checked expressions use known names. -/
theorem exprs_fit {env : Env} (henv : Bounded known callable env) (es : List Source.Expr)
    {checked : List Checked.Expr} (hok : List.Forall₂ (expr env · = .ok ·) es checked) :
    ∀ part ∈ Expr.partsAll checked, part.Fits known callable := by
  cases es with
  | nil =>
    cases hok
    exact nofun
  | cons e es =>
    cases hok with
    | cons hfirst hothers =>
      exact List.forall_mem_append.2 ⟨expr_fits henv e hfirst, exprs_fit henv es hothers⟩

end

/-- Expressions that fit name known variables. -/
theorem names_of_fits {es : List Checked.Expr} (h : ∀ part ∈ es, part.Fits known callable) :
    ∀ name ∈ Expr.names es, known name := by
  intro name hname
  obtain ⟨e, he, hnamed⟩ := Expr.mem_names.1 hname
  exact (h e he).1 name hnamed

theorem calls_of_fits {es : List Checked.Expr} (h : ∀ part ∈ es, part.Fits known callable) :
    Expr.CallsKnown callable es :=
  fun e he => (h e he).2

/-- A checked statement uses known variables and calls functions that can be called, and after it
the variables that it declares are known too. -/
structure StmtFits (known callable : String → Prop) (s : Checked.Stmt) (after : Env) : Prop where
  names : ∀ name ∈ s.freeNames, known name
  calls : Expr.CallsKnown callable s.exprs
  bounded : Bounded (fun name => known name ∨ name ∈ s.declared) callable after

/-- A statement with one expression fits if the expression does. -/
theorem StmtFits.of_expr {env : Env} {s : Checked.Stmt} {e : Checked.Expr}
    (henv : Bounded known callable env) (he : ∀ part ∈ e.parts, part.Fits known callable)
    (hnames : s.freeNames = Expr.names e.parts) (hexprs : s.exprs = e.parts) :
    StmtFits known callable s env where
  names := by
    rw [hnames]
    exact names_of_fits he
  calls := by
    rw [hexprs]
    exact calls_of_fits he
  bounded := henv.imp fun _ => .inl

mutual

/-- A checked statement uses known names and adds those it declares. -/
theorem stmt_fits {result : Option Ty} {known : String → Prop} {env : Env}
    (henv : Bounded known callable env) (s : Source.Stmt) {checked : Checked.Stmt} {after : Env}
    (hok : stmt result s env = .ok (checked, after)) : StmtFits known callable checked after := by
  have hsame : ∀ s' : Checked.Stmt,
      Bounded (fun name => known name ∨ name ∈ s'.declared) callable env :=
    fun s' => henv.imp fun _ => .inl
  cases s with
  | skip pos =>
    rw [stmt] at hok
    cases hok
    exact ⟨nofun, nofun, hsame _⟩
  | declare pos written name init =>
    rw [stmt] at hok
    obtain ⟨cinit, hinit, hok⟩ := except_bind_eq_ok.1 hok
    obtain ⟨-, -, hok⟩ := except_bind_eq_ok.1 hok
    obtain ⟨env', hdeclare, hok⟩ := except_bind_eq_ok.1 hok
    cases hok
    have hfits := expr_fits henv init hinit
    refine ⟨names_of_fits hfits, calls_of_fits hfits, ?_⟩
    exact (henv.declare hdeclare).imp fun other hother => hother.imp_right List.mem_singleton.2
  | assign pos dst src =>
    rw [stmt] at hok
    obtain ⟨cdst, hdst, hok⟩ := except_bind_eq_ok.1 hok
    obtain ⟨csrc, hsrc, hok⟩ := except_bind_eq_ok.1 hok
    obtain ⟨-, -, hok⟩ := except_bind_eq_ok.1 hok
    cases hok
    have hdfits := expr_fits henv dst hdst
    have hsfits := expr_fits henv src hsrc
    refine ⟨List.forall_mem_append.2 ⟨names_of_fits hsfits, names_of_fits hdfits⟩, ?_, hsame _⟩
    exact List.forall_mem_append.2 ⟨calls_of_fits hdfits, calls_of_fits hsfits⟩
  | read pos target =>
    rw [stmt] at hok
    obtain ⟨ctarget, htarget, hok⟩ := except_bind_eq_ok.1 hok
    obtain ⟨-, -, hok⟩ := except_bind_eq_ok.1 hok
    cases hok
    exact .of_expr henv (expr_fits henv target htarget) rfl rfl
  | free pos e =>
    rw [stmt] at hok
    obtain ⟨ce, he, hok⟩ := except_bind_eq_ok.1 hok
    have hfits := expr_fits henv e he
    split at hok
    · cases hok
      exact .of_expr henv hfits rfl rfl
    · cases hok
      exact .of_expr henv hfits rfl rfl
    · cases hok
  | ret pos e =>
    cases result with
    | none =>
      rw [stmt] at hok
      cases hok
    | some want =>
      rw [stmt] at hok
      obtain ⟨ce, he, hok⟩ := except_bind_eq_ok.1 hok
      obtain ⟨-, -, hok⟩ := except_bind_eq_ok.1 hok
      cases hok
      exact .of_expr henv (expr_fits henv e he) rfl rfl
  | exit pos e =>
    rw [stmt] at hok
    obtain ⟨ce, he, hok⟩ := except_bind_eq_ok.1 hok
    obtain ⟨-, -, hok⟩ := except_bind_eq_ok.1 hok
    cases hok
    exact .of_expr henv (expr_fits henv e he) rfl rfl
  | print pos e newline =>
    rw [stmt] at hok
    obtain ⟨ce, he, hok⟩ := except_bind_eq_ok.1 hok
    cases hok
    exact .of_expr henv (expr_fits henv e he) rfl rfl
  | branch pos cond yes no =>
    rw [stmt] at hok
    obtain ⟨ccond, hcond, hok⟩ := except_bind_eq_ok.1 hok
    obtain ⟨-, -, hok⟩ := except_bind_eq_ok.1 hok
    obtain ⟨⟨cyes, yafter⟩, hyes, hok⟩ := except_bind_eq_ok.1 hok
    obtain ⟨⟨cno, nafter⟩, hno, hok⟩ := except_bind_eq_ok.1 hok
    cases hok
    have hfits := expr_fits henv cond hcond
    have hyfits := stmt_fits henv.enter yes hyes
    have hnfits := stmt_fits henv.enter no hno
    refine ⟨?_, ?_, hsame _⟩
    · have hbranches := List.forall_mem_append.2 ⟨hyfits.names, hnfits.names⟩
      exact List.forall_mem_append.2 ⟨names_of_fits hfits, hbranches⟩
    · have hbranches := List.forall_mem_append.2 ⟨hyfits.calls, hnfits.calls⟩
      exact List.forall_mem_append.2 ⟨calls_of_fits hfits, hbranches⟩
  | loop pos cond body =>
    rw [stmt] at hok
    obtain ⟨ccond, hcond, hok⟩ := except_bind_eq_ok.1 hok
    obtain ⟨-, -, hok⟩ := except_bind_eq_ok.1 hok
    obtain ⟨⟨cbody, bafter⟩, hbody, hok⟩ := except_bind_eq_ok.1 hok
    cases hok
    have hfits := expr_fits henv cond hcond
    have hbfits := stmt_fits henv.enter body hbody
    refine ⟨List.forall_mem_append.2 ⟨hbfits.names, names_of_fits hfits⟩, ?_, hsame _⟩
    exact List.forall_mem_append.2 ⟨calls_of_fits hfits, hbfits.calls⟩
  | scope pos body =>
    rw [stmt] at hok
    obtain ⟨⟨cbody, bafter⟩, hbody, hok⟩ := except_bind_eq_ok.1 hok
    cases hok
    have hfits := stmt_fits henv.enter body hbody
    exact ⟨hfits.names, hfits.calls, hsame _⟩
  | seq pos items =>
    rw [stmt] at hok
    obtain ⟨⟨citems, iafter⟩, hitems, hok⟩ := except_bind_eq_ok.1 hok
    cases hok
    exact stmtList_fits henv items hitems

/-- Each statement knows what those before it have declared. -/
theorem stmtList_fits {result : Option Ty} {known : String → Prop} {env : Env}
    (henv : Bounded known callable env) (ss : List Source.Stmt) {checked : List Checked.Stmt}
    {after : Env} (hok : stmtList result ss env = .ok (checked, after)) :
    StmtFits known callable (.seq () checked) after := by
  cases ss with
  | nil =>
    rw [stmtList] at hok
    cases hok
    exact ⟨nofun, nofun, henv.imp fun _ => .inl⟩
  | cons s ss =>
    rw [stmtList] at hok
    obtain ⟨⟨first, env'⟩, hfirst, hok⟩ := except_bind_eq_ok.1 hok
    obtain ⟨⟨others, env''⟩, hothers, hok⟩ := except_bind_eq_ok.1 hok
    cases hok
    have hffits := stmt_fits henv s hfirst
    have hofits := stmtList_fits hffits.bounded ss hothers
    refine ⟨List.forall_mem_append.2 ⟨hffits.names, fun name hname => ?_⟩, ?_, ?_⟩
    · obtain ⟨hname, hnot⟩ := List.mem_filter.1 hname
      exact (hofits.names name hname).resolve_right (of_decide_eq_true hnot)
    · exact List.forall_mem_append.2 ⟨hffits.calls, hofits.calls⟩
    · refine hofits.bounded.imp fun name hname => ?_
      rw [or_assoc] at hname
      exact hname.imp_right List.mem_append.2

end

/-- The global scope has the functions of the program. -/
theorem mem_declareAll {sigs : List Signature} {scope globals : Scope Decl}
    (hok : declareAll sigs scope = .ok globals) {binding : String × Decl} (hmem : binding ∈ globals) :
    binding ∈ scope ∨
      ∃ s ∈ sigs, binding = (s.func.name, .function s.label (.function s.ret s.params)) := by
  induction sigs generalizing scope with
  | nil =>
    cases hok
    exact .inl hmem
  | cons s sigs ih =>
    rw [declareAll] at hok
    split at hok
    · rename_i scope' hdeclare
      rcases ih hok with hmem | ⟨s', hs', heq⟩
      · rw [Scope.declare?] at hdeclare
        split at hdeclare
        · cases hdeclare
        · cases hdeclare
          rcases List.mem_cons.1 hmem with heq | hmem
          · exact .inr ⟨s, List.mem_cons_self .., heq⟩
          · exact .inl hmem
      · exact .inr ⟨s', List.mem_cons_of_mem _ hs', heq⟩
    · cases hok

/-- Where only functions are declared, no variable is known. -/
theorem bounded_globals {sigs : List Signature} {globals : Scope Decl}
    (hok : declareAll sigs [] = .ok globals) :
    Bounded (fun _ => False) (· ∈ sigs.map Signature.label) (Chain.enter [globals]) := by
  have hfunction : ∀ binding ∈ (Chain.enter [globals]).flatten, ∃ s ∈ sigs,
      binding = (s.func.name, .function s.label (.function s.ret s.params)) := by
    intro binding hmem
    have hglobal : binding ∈ globals := by simpa [Chain.enter] using hmem
    exact (mem_declareAll hok hglobal).resolve_left nofun
  refine ⟨fun name type hmem => ?_, fun name label type hmem => ?_⟩
  · obtain ⟨s, -, heq⟩ := hfunction _ hmem
    cases heq
  · obtain ⟨s, hs, heq⟩ := hfunction _ hmem
    cases heq
    exact List.mem_map_of_mem hs

/-- A body knows its parameters. -/
theorem bounded_params {known callable : String → Prop} {env env' : Env}
    {params : List (Source.Param × Ty)} (henv : Bounded known callable env)
    (hok : declareParams env params = .ok env') :
    Bounded (fun name => known name ∨ name ∈ params.map (·.1.name)) callable env' := by
  induction params generalizing env known with
  | nil =>
    cases hok
    exact henv.imp fun _ => .inl
  | cons param params ih =>
    rw [declareParams] at hok
    obtain ⟨first, hfirst, hok⟩ := except_bind_eq_ok.1 hok
    refine (ih (henv.declare hfirst) hok).imp fun name hname => ?_
    rw [List.map_cons, List.mem_cons, ← or_assoc]
    exact hname

/-- A checked function uses its parameters and the variables that it declares. -/
structure FuncFits (callable : String → Prop) (f : Checked.Func) : Prop where
  names : ∀ name ∈ f.body.freeNames, name ∈ f.params.map Checked.Param.name
  calls : Expr.CallsKnown callable f.body.exprs

/-- A checked function calls functions of the program. -/
theorem func_fits {callable : String → Prop} {globals : Scope Decl} {s : Signature} {f : Checked.Func}
    (henv : Bounded (fun _ => False) callable (Chain.enter [globals]))
    (hok : func globals s = .ok f) : FuncFits callable f ∧ f.label = s.label := by
  rw [func] at hok
  obtain ⟨env, hparams, hok⟩ := except_bind_eq_ok.1 hok
  obtain ⟨⟨body, after⟩, hbody, hok⟩ := except_bind_eq_ok.1 hok
  cases hok
  have hfits := stmt_fits (bounded_params henv hparams) s.func.body hbody
  refine ⟨⟨fun name hname => ?_, hfits.calls⟩, rfl⟩
  have hparam := (hfits.names name hname).resolve_left id
  simpa using hparam

/-- Checked functions keep their labels and their order. -/
theorem funcs_fit {callable : String → Prop} {globals : Scope Decl} {sigs : List Signature}
    {fs : List Checked.Func} (henv : Bounded (fun _ => False) callable (Chain.enter [globals]))
    (hok : funcs globals sigs = .ok fs) :
    (∀ f ∈ fs, FuncFits callable f) ∧ fs.map Checked.Func.label = sigs.map Signature.label := by
  induction sigs generalizing fs with
  | nil =>
    cases hok
    exact ⟨nofun, rfl⟩
  | cons s sigs ih =>
    rw [funcs] at hok
    obtain ⟨f, hf, hok⟩ := except_bind_eq_ok.1 hok
    obtain ⟨others, hothers, hok⟩ := except_bind_eq_ok.1 hok
    cases hok
    obtain ⟨hfits, hlabel⟩ := func_fits henv hf
    obtain ⟨hofits, hlabels⟩ := ih hothers
    refine ⟨List.forall_mem_cons.2 ⟨hfits, hofits⟩, ?_⟩
    rw [List.map_cons, List.map_cons, hlabel, hlabels]

/-- In a checked program every variable is used where it is known, and every function that is called is
one of the program. -/
theorem program_scoped {p : Source.Program} {checked : Checked.Program}
    (hok : program p = .ok checked) : Emission.Scoped checked := by
  rw [program] at hok
  obtain ⟨globals, hglobals, hok⟩ := except_bind_eq_ok.1 hok
  obtain ⟨fs, hfuncs, hok⟩ := except_bind_eq_ok.1 hok
  obtain ⟨⟨body, after⟩, hbody, hok⟩ := except_bind_eq_ok.1 hok
  cases hok
  have henv := bounded_globals hglobals
  obtain ⟨hfits, hlabels⟩ := funcs_fit henv hfuncs
  have hbfits := stmt_fits henv p.body hbody
  rw [← hlabels] at hfits hbfits
  exact ⟨fun f hf => (hfits f hf).names, fun name hname => hbfits.names name hname,
    fun f hf => (hfits f hf).calls, hbfits.calls⟩

end Checker

/-- A file is generated for every program that passes the check. -/
theorem generate_of_check {p : Source.Program} {checked : Checked.Program}
    (hok : check p = .ok checked) : ∃ file, generate checked = .ok file := by
  rw [check] at hok
  obtain ⟨q, hq, hok⟩ := except_bind_eq_ok.1 hok
  obtain ⟨-, -, hok⟩ := except_bind_eq_ok.1 hok
  cases hok
  exact generate_of_scoped (Checker.program_scoped hq)

namespace Overloaded

def start : Pos := .start

/-- `int f(int n) is if n > 0 then return 1 + call f(n - 1) else bool n = true; return 0 fi end` -/
def onInt : Source.Func where
  name := "f"
  ret := .int
  params := [⟨.int, "n", start⟩]
  body := .branch start (.binary start .gt (.var start "n") (.int start 0))
    (.ret start (.binary start .add (.int start 1)
      (.call start "f" [.binary start .sub (.var start "n") (.int start 1)])))
    (.seq start [.declare start .bool "n" (.bool start true), .ret start (.int start 0)])
  pos := start

/-- `int f(char c) is return ord c end` -/
def onChar : Source.Func where
  name := "f"
  ret := .int
  params := [⟨.char, "c", start⟩]
  body := .ret start (.unary start .ord (.var start "c"))
  pos := start

/-- Two functions of one name, and a body in which calls stand in an index and an element of an array,
a sequence is empty and a literal is assigned to. -/
def program : Source.Program where
  funcs := [onInt, onChar]
  body := .seq start [.seq start [],
    .declare start (.array .int 2) "a"
      (.array start [.array start [.int start 1, .call start "f" [.char start 97]]]),
    .loop start (.bool start false) (.declare start .char "a" (.char start 98)),
    .assign start (.int start 3) (.elem start "a" [.int start 0, .call start "f" [.int start 0]]),
    .print start (.var start "a") true]

/-- Functions of one name may differ in their parameters. -/
theorem accepted : ∃ checked, check program = .ok checked :=
  except_eq_ok_of_isOk (by decide +kernel)

end Overloaded

theorem generate_overloaded : ∃ checked, check Overloaded.program = .ok checked ∧
    ∃ file, generate checked = .ok file := by
  obtain ⟨checked, hok⟩ := Overloaded.accepted
  exact ⟨checked, hok, generate_of_check hok⟩

end WaccArm
