import WaccArm.Proofs.Checker.Scoping
import WaccArm.Proofs.Typing.Rules

namespace WaccArm

namespace Ty

theorem index?_eq_some {t : Ty} {n : Nat} {type : Ty} :
    t.index? n = some type ↔ ∃ elem dims, t.spelled = .array elem dims ∧
      (n < dims ∧ type = .array elem (dims - n) ∨ n = dims ∧ type = elem.getD anyPair) := by
  rw [index?]
  split
  case h_1 elem dims hspelled =>
    rw [hspelled]
    constructor
    · intro h
      refine ⟨elem, dims, rfl, ?_⟩
      split at h
      · rename_i hlt
        cases h
        exact .inl ⟨hlt, rfl⟩
      · split at h
        · rename_i heq
          cases h
          exact .inr ⟨heq, rfl⟩
        · cases h
    · rintro ⟨elem', dims', heq, h⟩
      cases heq
      rcases h with ⟨hlt, rfl⟩ | ⟨rfl, rfl⟩
      · rw [if_pos hlt]
      · rw [if_neg (Nat.lt_irrefl n), if_pos rfl]
  case h_2 hspelled =>
    constructor
    · intro h
      cases h
    · rintro ⟨elem, dims, heq, -⟩
      exact absurd heq (hspelled elem dims)

theorem side?_eq_some {t : Ty} {side : Side} {type : Ty} :
    t.side? side = some type ↔ ∃ fst snd, t = .pair fst snd ∧
      type = (match side with | .fst => fst | .snd => snd).getD anyPair := by
  cases t <;> cases side <;> simp [side?, eq_comm]

theorem isArray_iff {t : Ty} : t.isArray ↔ ∃ elem dims, t.spelled = .array elem dims := by
  cases t with
  | str => exact ⟨fun _ => ⟨_, _, rfl⟩, fun _ => rfl⟩
  | array elem dims =>
    refine ⟨fun _ => ?_, fun _ => rfl⟩
    rw [spelled.eq_def]
    split
    all_goals simp_all
  | int | bool | char | pair | function => simp [isArray, spelled]

end Ty

/-- In one scope the one fitting candidate is found. -/
theorem Chain.resolve_singleton {δ : Type} {scope : Scope δ} {name : String} {candidate fits : δ → Bool}
    {decl : δ} : Chain.resolve [scope] name candidate fits = .found decl ↔
      ((scope.decls name).filter candidate).filter fits = [decl] := by
  rw [Chain.resolve, List.map_singleton, Resolution.among]
  split
  case h_1 found hfits => simp [hfits]
  case h_2 hfits => simp [hfits]
  case h_3 hfits =>
    simp only [hfits, Resolution.among]
    split <;> simp

namespace Typing

theorem Scopes.find?_eq_lookup (Γ : Scopes) (name : String) : Γ.find? name = Γ.flatten.lookup name := by
  induction Γ with
  | nil => rfl
  | cons vars outer ih =>
    rw [find?] at ih
    rw [find?, List.findSome?_cons, List.flatten_cons, List.lookup_append, ih]
    cases vars.lookup name <;> rfl

def Header.decl (f : Header) : Decl := .function f.label (.function f.ret f.params)

/-- The scope in which all functions are declared. -/
def globals (Φ : List Header) : Scope Decl := (Φ.map fun f => (f.name, f.decl)).reverse

/-- The variables of one scope as declarations. -/
def declared (vars : Vars) : Scope Decl := vars.map fun var => (var.1, .variable var.2)

/-- The environment in which the checker works. -/
def env (Φ : List Header) (Γ : Scopes) : Env := Γ.map declared ++ [globals Φ]

theorem env_enter (Φ : List Header) (Γ : Scopes) : (env Φ Γ).enter = env Φ ([] :: Γ) := rfl

theorem decls_declared (vars : Vars) (name : String) :
    (declared vars).decls name = ((vars.filter (·.1 == name)).map (·.2)).map .variable := by
  rw [declared, Scope.decls, List.filter_map, List.map_map, List.map_map]
  rfl

/-- The newest function comes first. -/
theorem decls_globals (Φ : List Header) (name : String) :
    (globals Φ).decls name = ((Φ.filter (·.name == name)).map Header.decl).reverse := by
  rw [globals, Scope.decls, List.filter_reverse, List.map_reverse, List.filter_map, List.map_map]
  rfl

theorem lookup?_declared (vars : Vars) (name : String) :
    (declared vars).lookup? name Decl.isVariable = (vars.lookup name).map .variable := by
  induction vars with
  | nil => rfl
  | cons var vars ih =>
    obtain ⟨other, type⟩ := var
    rw [Scope.lookup?, decls_declared] at ih ⊢
    by_cases hname : other = name
    · subst hname
      simp [Decl.isVariable]
    · have hname' : (name == other) = false := beq_false_of_ne (Ne.symm hname)
      rw [List.filter_cons_of_neg (by simpa using hname), ih, List.lookup_cons, hname']

theorem lookup?_globals (Φ : List Header) (name : String) :
    (globals Φ).lookup? name Decl.isVariable = none := by
  rw [Scope.lookup?, decls_globals, List.find?_eq_none]
  intro decl hdecl
  obtain ⟨f, -, rfl⟩ := List.mem_map.1 (List.mem_reverse.1 hdecl)
  simp [Header.decl, Decl.isVariable]

/-- A variable is found where the rules find it. -/
theorem lookup?_env (Φ : List Header) (Γ : Scopes) (name : String) :
    (env Φ Γ).lookup? name Decl.isVariable = (Γ.find? name).map .variable := by
  induction Γ with
  | nil => simp [env, Chain.lookup?, lookup?_globals, Scopes.find?]
  | cons vars outer ih =>
    rw [Chain.lookup?, Scopes.find?] at ih ⊢
    rw [env, List.map_cons, List.cons_append, List.findSome?_cons, List.findSome?_cons,
      lookup?_declared]
    cases vars.lookup name with
    | some type => rfl
    | none => exact ih

/-- A variable has the type that the rules give it. -/
theorem variableType_env {Φ : List Header} {Γ : Scopes} {name : String} {pos : Pos} {type : Ty} :
    Checker.variableType (env Φ Γ) name pos = .ok type ↔ Γ.find? name = some type := by
  rw [Checker.variableType, lookup?_env]
  cases Γ.find? name <;> simp

/-- A call passes the scopes of variables and is resolved among the functions. -/
theorem resolve_env (Φ : List Header) (Γ : Scopes) (name : String) (types : List Ty) :
    (env Φ Γ).resolve name Decl.isFunction (Decl.takes types) =
      Chain.resolve [globals Φ] name Decl.isFunction (Decl.takes types) := by
  induction Γ with
  | nil => rfl
  | cons vars outer ih =>
    have hnone : ((declared vars).decls name).filter Decl.isFunction = [] := by
      rw [decls_declared, List.filter_eq_nil_iff]
      intro decl hdecl
      obtain ⟨type, -, rfl⟩ := List.mem_map.1 hdecl
      simp [Decl.isFunction]
    rw [env, List.map_cons, List.cons_append, Chain.resolve, List.map_cons, Resolution.among, ← Chain.resolve]
    simp only [hnone, List.filter_nil, List.isEmpty_nil, if_true]
    rw [← env, ih]
    split
    · rename_i h
      exact h.symm
    · rfl

/-- Whether a function is one that a call goes to can be decided. -/
instance (f : Header) (name : String) (types : List Ty) : Decidable (f.Accepts name types) :=
  inferInstanceAs (Decidable (_ ∧ _))

/-- One function accepts the call. -/
theorem chosen_iff_filter {Φ : List Header} {name : String} {types : List Ty} {f : Header} :
    Chosen Φ name types f ↔ Φ.filter (·.Accepts name types) = [f] := by
  rw [List.filter_eq_cons_iff]
  constructor
  · rintro ⟨before, after, rfl, hf, hothers⟩
    rw [List.forall_mem_append] at hothers
    refine ⟨before, after, rfl, ?_, by simpa using hf, ?_⟩
    · simpa using hothers.1
    · simpa using hothers.2
  · rintro ⟨before, after, rfl, hbefore, hf, hafter⟩
    refine ⟨before, after, rfl, by simpa using hf, List.forall_mem_append.2 ⟨?_, ?_⟩⟩
    · simpa using hbefore
    · simpa using hafter

theorem fitting_globals (Φ : List Header) (name : String) (types : List Ty) :
    (((globals Φ).decls name).filter Decl.isFunction).filter (Decl.takes types) =
      ((Φ.filter (·.Accepts name types)).map Header.decl).reverse := by
  rw [decls_globals, List.filter_reverse, List.filter_reverse, List.filter_map, List.filter_map,
    List.filter_filter, List.filter_filter]
  congr 3
  funext f
  simp only [Function.comp, Header.decl, Decl.takes, Decl.sameParams, Decl.params?, Ty.params?,
    Decl.isFunction, Bool.and_true]
  rw [Bool.eq_iff_iff, Bool.and_eq_true, beq_iff_eq, decide_eq_true_iff, and_comm]
  rfl

/-- A call goes to the one function that accepts its arguments. -/
theorem callee_env {Φ : List Header} {Γ : Scopes} {name : String} {types : List Ty} {pos : Pos}
    {label : String} {type : Ty} :
    Checker.callee (env Φ Γ) name types pos = .ok (label, type) ↔
      ∃ f, Chosen Φ name types f ∧ f.label = label ∧ f.ret = type := by
  have hfound : ∀ decl, (env Φ Γ).resolve name Decl.isFunction (Decl.takes types) = .found decl ↔
      ∃ f, Chosen Φ name types f ∧ f.decl = decl := by
    intro decl
    rw [resolve_env, Chain.resolve_singleton, fitting_globals, List.reverse_eq_iff, List.reverse_singleton,
      List.map_eq_singleton_iff]
    simp only [chosen_iff_filter]
  rw [Checker.callee]
  constructor
  · intro h
    split at h
    · rename_i declared type' hresolve
      cases h
      obtain ⟨f, hchosen, hdecl⟩ := (hfound _).1 hresolve
      cases hdecl
      exact ⟨f, hchosen, rfl, rfl⟩
    · cases h
  · rintro ⟨f, hchosen, rfl, rfl⟩
    rw [(hfound f.decl).2 ⟨f, hchosen, rfl⟩]
    rfl

/-- A name is declared if it is new in the innermost scope. -/
theorem declare_env {Φ : List Header} {vars : Vars} {outer : Scopes} {name : String} {type : Ty}
    {pos : Pos} {env' : Env} :
    Checker.declare (env Φ (vars :: outer)) name type pos = .ok env' ↔
      (∀ other, (name, other) ∉ vars) ∧ env' = env Φ (((name, type) :: vars) :: outer) := by
  have hany : (((declared vars).decls name).any fun old => Binding.collides old (Decl.variable type)) = true ↔
      ∃ other, (name, other) ∈ vars := by
    rw [decls_declared, List.any_map, List.any_map, List.any_filter]
    simp [Binding.collides, Decl.collides]
  rw [Checker.declare, env, List.map_cons, List.cons_append, Chain.declare?, Scope.declare?]
  by_cases h : ∃ other, (name, other) ∈ vars
  · rw [if_pos (hany.2 h)]
    obtain ⟨other, hother⟩ := h
    simp only [Option.map_none, reduceCtorEq, false_iff]
    exact fun hnew => hnew.1 other hother
  · rw [if_neg (mt hany.1 h)]
    simp only [Option.map_some, Except.ok.injEq, not_exists.1 h, not_false_eq_true, implies_true,
      true_and]
    exact eq_comm

end Typing

namespace Checker

theorem expect_eq_ok {e : Source.Expr} {actual want : Ty} {u : Unit} :
    expect e actual want = .ok u ↔ actual.compatible want := by
  rw [expect]
  split <;> simp_all [mismatch]

theorem expectIntOrChar_eq_ok {e : Source.Expr} {actual : Ty} {u : Unit} :
    expectIntOrChar e actual = .ok u ↔ actual = .int ∨ actual = .char := by
  cases actual <;> simp [expectIntOrChar, mismatch]

/-- What is asked for and then given. -/
theorem expect_then {α : Type} {e : Source.Expr} {actual want : Ty} {f : Unit → Except CheckError α}
    {a : α} : (expect e actual want >>= f) = .ok a ↔ actual.compatible want ∧ f () = .ok a := by
  rw [except_bind_eq_ok]
  simp only [expect_eq_ok]
  exact ⟨fun ⟨_, h⟩ => h, fun h => ⟨(), h⟩⟩

/-- A list is checked one by one. -/
theorem exprList_eq_ok {env : Env} {es : List Source.Expr} {cs : List Checked.Expr} :
    exprList env es = .ok cs ↔ List.Forall₂ (expr env · = .ok ·) es cs := by
  refine ⟨exprList_forall₂, fun h => ?_⟩
  induction h with
  | nil => rw [exprList]; rfl
  | cons he _ ih =>
    rw [exprList]
    exact except_bind_eq_ok.2 ⟨_, he, except_bind_eq_ok.2 ⟨_, ih, rfl⟩⟩

theorem elementList_eq_ok {env : Env} {first : Ty} {es : List Source.Expr} {cs : List Checked.Expr} :
    elementList env first es = .ok cs ↔
      List.Forall₂ (expr env · = .ok ·) es cs ∧ ∀ c ∈ cs, c.note.compatible first := by
  constructor
  · intro h
    refine ⟨elementList_forall₂ h, ?_⟩
    induction es generalizing cs with
    | nil =>
      rw [elementList] at h
      cases h
      simp
    | cons e es ih =>
      rw [elementList] at h
      obtain ⟨c, -, h⟩ := except_bind_eq_ok.1 h
      obtain ⟨hcompatible, h⟩ := expect_then.1 h
      obtain ⟨others, hothers, h⟩ := except_bind_eq_ok.1 h
      cases h
      exact List.forall_mem_cons.2 ⟨hcompatible, ih hothers⟩
  · rintro ⟨h, hcompatible⟩
    induction h with
    | nil => rw [elementList]; rfl
    | cons he _ ih =>
      obtain ⟨hfirst, hothers⟩ := List.forall_mem_cons.1 hcompatible
      rw [elementList]
      exact except_bind_eq_ok.2 ⟨_, he, expect_then.2 ⟨hfirst, except_bind_eq_ok.2 ⟨_, ih hothers, rfl⟩⟩⟩

/-- Indices are checked as the elements of an array of integers would be. -/
theorem indexList_eq_elementList (env : Env) (es : List Source.Expr) :
    indexList env es = elementList env .int es := by
  induction es with
  | nil => rw [indexList, elementList]
  | cons e es ih => rw [indexList, elementList, ih]

theorem indexList_eq_ok {env : Env} {es : List Source.Expr} {cs : List Checked.Expr} :
    indexList env es = .ok cs ↔
      List.Forall₂ (expr env · = .ok ·) es cs ∧ ∀ c ∈ cs, c.note.compatible .int := by
  rw [indexList_eq_elementList, elementList_eq_ok]

end Checker

namespace Typing

variable {Φ : List Header} {Γ : Scopes}

theorem mem_operators {op : BinaryOp} {kind : OpKind} : op ∈ operators kind ↔ op.kind = kind := by
  cases op <;> cases kind <;> decide

/-- An operand that the checker accepts can be derived. -/
theorem ExprTyped.unary {pos : Pos} {op : UnaryOp} {e : Source.Expr} {c : Checked.Expr} {type : Ty}
    (he : ExprTyped Φ Γ (.expr e c)) (hop : Checker.unaryType op e c.note = .ok type) :
    ExprTyped Φ Γ (.expr (.unary pos op e) (.unary type op c)) := by
  cases op with
  | not =>
    obtain ⟨htype, h⟩ := Checker.expect_then.1 hop
    cases h
    exact .not pos he htype
  | negate =>
    obtain ⟨htype, h⟩ := Checker.expect_then.1 hop
    cases h
    exact .negate pos he htype
  | len =>
    rw [Checker.unaryType] at hop
    split at hop
    · rename_i harray
      cases hop
      obtain ⟨elem, dims, htype⟩ := Ty.isArray_iff.1 harray
      exact .len pos he htype
    · cases hop
  | ord =>
    obtain ⟨htype, h⟩ := Checker.expect_then.1 hop
    cases h
    exact .ord pos he htype
  | chr =>
    obtain ⟨htype, h⟩ := Checker.expect_then.1 hop
    cases h
    exact .chr pos he htype

/-- Operands that the checker accepts can be derived. -/
theorem ExprTyped.binary {pos : Pos} {op : BinaryOp} {l r : Source.Expr} {cl cr : Checked.Expr}
    {type : Ty} (hl : ExprTyped Φ Γ (.expr l cl)) (hr : ExprTyped Φ Γ (.expr r cr))
    (hop : Checker.binaryType op l r cl.note cr.note = .ok type) :
    ExprTyped Φ Γ (.expr (.binary pos op l r) (.binary type op cl cr)) := by
  rw [Checker.binaryType] at hop
  split at hop
  case h_1 hkind =>
    obtain ⟨hltype, hop⟩ := Checker.expect_then.1 hop
    obtain ⟨hrtype, hop⟩ := Checker.expect_then.1 hop
    cases hop
    exact .arithmetic pos (mem_operators.2 hkind) hl hr hltype hrtype
  case h_2 hkind =>
    obtain ⟨_, hltype, hop⟩ := except_bind_eq_ok.1 hop
    obtain ⟨hrtype, hop⟩ := Checker.expect_then.1 hop
    cases hop
    have hltype := Checker.expectIntOrChar_eq_ok.1 hltype
    exact .ordering pos (mem_operators.2 hkind) hl hr hltype hrtype
  case h_3 hkind =>
    obtain ⟨htype, hop⟩ := Checker.expect_then.1 hop
    cases hop
    exact .equality pos (mem_operators.2 hkind) hl hr htype
  case h_4 hkind =>
    obtain ⟨hltype, hop⟩ := Checker.expect_then.1 hop
    obtain ⟨hrtype, hop⟩ := Checker.expect_then.1 hop
    cases hop
    exact .logical pos (mem_operators.2 hkind) hl hr hltype hrtype

/-- An element of an array, once its indices are typed. -/
theorem ExprTyped.element {pos : Pos} {name : String} {array type : Ty} {indices : List Source.Expr}
    {cs : List Checked.Expr} (hname : Γ.find? name = some array)
    (hindices : ExprTyped Φ Γ (.exprs indices cs)) (hints : ∀ c ∈ cs, c.note.compatible .int)
    (htype : array.index? indices.length = some type) :
    ExprTyped Φ Γ (.expr (.elem pos name indices) (.elem type name cs)) := by
  obtain ⟨elem, dims, harray, ⟨hlt, rfl⟩ | ⟨rfl, rfl⟩⟩ := Ty.index?_eq_some.1 htype
  · exact .slice pos hname hindices hints harray hlt
  · cases elem with
    | none => exact .unknownElem pos hname hindices hints harray
    | some elem => exact .elem pos hname hindices hints harray

mutual

/-- What the checker accepts is derivable. -/
theorem exprTyped_of_expr (e : Source.Expr) {c : Checked.Expr}
    (hok : Checker.expr (env Φ Γ) e = .ok c) : ExprTyped Φ Γ (.expr e c) := by
  cases e with
  | int pos value =>
    rw [Checker.expr] at hok
    cases hok
    exact .int pos value
  | bool pos value =>
    rw [Checker.expr] at hok
    cases hok
    exact .bool pos value
  | char pos value =>
    rw [Checker.expr] at hok
    cases hok
    exact .char pos value
  | str pos value =>
    rw [Checker.expr] at hok
    cases hok
    exact .str pos value
  | null pos =>
    rw [Checker.expr] at hok
    cases hok
    exact .null pos
  | var pos name =>
    rw [Checker.expr] at hok
    obtain ⟨type, htype, hok⟩ := except_bind_eq_ok.1 hok
    cases hok
    exact .var pos (variableType_env.1 htype)
  | elem pos name indices =>
    rw [Checker.expr] at hok
    obtain ⟨array, harray, hok⟩ := except_bind_eq_ok.1 hok
    obtain ⟨cs, hindices, hok⟩ := except_bind_eq_ok.1 hok
    obtain ⟨hcs, hints⟩ := Checker.indexList_eq_ok.1 hindices
    split at hok
    · rename_i type htype
      cases hok
      exact .element (variableType_env.1 harray) (exprsTyped_of_forall₂ indices hcs) hints htype
    · cases hok
  | side pos which pair =>
    rw [Checker.expr] at hok
    obtain ⟨cpair, hpair, hok⟩ := except_bind_eq_ok.1 hok
    split at hok
    · rename_i type htype
      cases hok
      obtain ⟨fst, snd, hnote, rfl⟩ := Ty.side?_eq_some.1 htype
      cases which with
      | fst => exact .fst pos (exprTyped_of_expr pair hpair) hnote
      | snd => exact .snd pos (exprTyped_of_expr pair hpair) hnote
    · cases hok
  | unary pos op operand =>
    rw [Checker.expr] at hok
    obtain ⟨coperand, hoperand, hok⟩ := except_bind_eq_ok.1 hok
    obtain ⟨type, htype, hok⟩ := except_bind_eq_ok.1 hok
    cases hok
    exact .unary (exprTyped_of_expr operand hoperand) htype
  | binary pos op left right =>
    rw [Checker.expr] at hok
    obtain ⟨cleft, hleft, hok⟩ := except_bind_eq_ok.1 hok
    obtain ⟨cright, hright, hok⟩ := except_bind_eq_ok.1 hok
    obtain ⟨type, htype, hok⟩ := except_bind_eq_ok.1 hok
    cases hok
    exact .binary (exprTyped_of_expr left hleft) (exprTyped_of_expr right hright) htype
  | call pos name args =>
    rw [Checker.expr] at hok
    obtain ⟨cargs, hargs, hok⟩ := except_bind_eq_ok.1 hok
    obtain ⟨⟨label, type⟩, hcallee, hok⟩ := except_bind_eq_ok.1 hok
    cases hok
    obtain ⟨f, hchosen, rfl, rfl⟩ := callee_env.1 hcallee
    exact .call pos (exprsTyped_of_forall₂ args (Checker.exprList_eq_ok.1 hargs)) hchosen
  | newPair pos fst snd =>
    rw [Checker.expr] at hok
    obtain ⟨cfst, hfst, hok⟩ := except_bind_eq_ok.1 hok
    obtain ⟨csnd, hsnd, hok⟩ := except_bind_eq_ok.1 hok
    cases hok
    exact .newPair pos (exprTyped_of_expr fst hfst) (exprTyped_of_expr snd hsnd)
  | array pos elems =>
    cases elems with
    | nil =>
      rw [Checker.expr] at hok
      cases hok
      exact .emptyArray pos
    | cons first others =>
      rw [Checker.expr] at hok
      obtain ⟨cfirst, hfirst, hok⟩ := except_bind_eq_ok.1 hok
      obtain ⟨cothers, hothers, hok⟩ := except_bind_eq_ok.1 hok
      cases hok
      obtain ⟨hcothers, hsame⟩ := Checker.elementList_eq_ok.1 hothers
      exact .array pos (exprTyped_of_expr first hfirst) (exprsTyped_of_forall₂ others hcothers) hsame

theorem exprsTyped_of_forall₂ (es : List Source.Expr) {cs : List Checked.Expr}
    (hok : List.Forall₂ (Checker.expr (env Φ Γ) · = .ok ·) es cs) : ExprTyped Φ Γ (.exprs es cs) := by
  cases es with
  | nil =>
    cases hok
    exact .nil
  | cons e es =>
    cases hok with
    | cons he hes => exact .cons (exprTyped_of_expr e he) (exprsTyped_of_forall₂ es hes)

end

/-- The checker gives a phrase its types. -/
def Phrase.Accepted (Φ : List Header) (Γ : Scopes) : Phrase → Prop
  | .expr e c => Checker.expr (env Φ Γ) e = .ok c
  | .exprs es cs => List.Forall₂ (Checker.expr (env Φ Γ) · = .ok ·) es cs

/-- An element is accepted if its indices are and the array has the dimensions. -/
theorem accepted_elem {pos : Pos} {name : String} {array type : Ty} {indices : List Source.Expr}
    {cs : List Checked.Expr} (hname : Γ.find? name = some array)
    (hindices : Phrase.Accepted Φ Γ (.exprs indices cs)) (hints : ∀ c ∈ cs, c.note.compatible .int)
    (htype : array.index? indices.length = some type) :
    Phrase.Accepted Φ Γ (.expr (.elem pos name indices) (.elem type name cs)) := by
  rw [Phrase.Accepted, Checker.expr]
  refine except_bind_eq_ok.2 ⟨array, variableType_env.2 hname, ?_⟩
  refine except_bind_eq_ok.2 ⟨cs, Checker.indexList_eq_ok.2 ⟨hindices, hints⟩, ?_⟩
  rw [htype]
  rfl

theorem accepted_side {pos : Pos} {which : Side} {pair : Source.Expr} {c : Checked.Expr} {type : Ty}
    (hpair : Phrase.Accepted Φ Γ (.expr pair c)) (htype : c.note.side? which = some type) :
    Phrase.Accepted Φ Γ (.expr (.side pos which pair) (.side type which c)) := by
  rw [Phrase.Accepted, Checker.expr]
  refine except_bind_eq_ok.2 ⟨c, hpair, ?_⟩
  rw [htype]
  rfl

theorem accepted_unary {pos : Pos} {op : UnaryOp} {e : Source.Expr} {c : Checked.Expr} {type : Ty}
    (he : Phrase.Accepted Φ Γ (.expr e c)) (htype : Checker.unaryType op e c.note = .ok type) :
    Phrase.Accepted Φ Γ (.expr (.unary pos op e) (.unary type op c)) := by
  rw [Phrase.Accepted, Checker.expr]
  exact except_bind_eq_ok.2 ⟨c, he, except_bind_eq_ok.2 ⟨type, htype, rfl⟩⟩

theorem accepted_binary {pos : Pos} {op : BinaryOp} {l r : Source.Expr} {cl cr : Checked.Expr} {type : Ty}
    (hl : Phrase.Accepted Φ Γ (.expr l cl)) (hr : Phrase.Accepted Φ Γ (.expr r cr))
    (htype : Checker.binaryType op l r cl.note cr.note = .ok type) :
    Phrase.Accepted Φ Γ (.expr (.binary pos op l r) (.binary type op cl cr)) := by
  rw [Phrase.Accepted, Checker.expr]
  refine except_bind_eq_ok.2 ⟨cl, hl, except_bind_eq_ok.2 ⟨cr, hr, ?_⟩⟩
  exact except_bind_eq_ok.2 ⟨type, htype, rfl⟩

/-- What is derivable the checker accepts, with the types of the derivation. -/
theorem ExprTyped.accepted {phrase : Phrase} (h : ExprTyped Φ Γ phrase) : phrase.Accepted Φ Γ := by
  induction h with
  | int | bool | char | str | null | emptyArray =>
    rw [Phrase.Accepted, Checker.expr]
    rfl
  | var pos hname =>
    rw [Phrase.Accepted, Checker.expr]
    exact except_bind_eq_ok.2 ⟨_, variableType_env.2 hname, rfl⟩
  | slice pos hname _ hints harray hlt ih =>
    exact accepted_elem hname ih hints (Ty.index?_eq_some.2 ⟨_, _, harray, .inl ⟨hlt, rfl⟩⟩)
  | elem pos hname _ hints harray ih | unknownElem pos hname _ hints harray ih =>
    exact accepted_elem hname ih hints (Ty.index?_eq_some.2 ⟨_, _, harray, .inr ⟨rfl, rfl⟩⟩)
  | fst pos _ htype ih | snd pos _ htype ih =>
    exact accepted_side ih (Ty.side?_eq_some.2 ⟨_, _, htype, rfl⟩)
  | not pos _ htype ih | negate pos _ htype ih | ord pos _ htype ih | chr pos _ htype ih =>
    exact accepted_unary ih (Checker.expect_then.2 ⟨htype, rfl⟩)
  | len pos _ htype ih =>
    refine accepted_unary ih ?_
    rw [Checker.unaryType, if_pos (Ty.isArray_iff.2 ⟨_, _, htype⟩)]
  | arithmetic pos hop _ _ hltype hrtype ihl ihr | logical pos hop _ _ hltype hrtype ihl ihr =>
    refine accepted_binary ihl ihr ?_
    rw [Checker.binaryType, mem_operators.1 hop]
    exact Checker.expect_then.2 ⟨hltype, Checker.expect_then.2 ⟨hrtype, rfl⟩⟩
  | ordering pos hop _ _ hltype hrtype ihl ihr =>
    refine accepted_binary ihl ihr ?_
    rw [Checker.binaryType, mem_operators.1 hop]
    refine except_bind_eq_ok.2 ⟨(), Checker.expectIntOrChar_eq_ok.2 hltype, ?_⟩
    exact Checker.expect_then.2 ⟨hrtype, rfl⟩
  | equality pos hop _ _ htype ihl ihr =>
    refine accepted_binary ihl ihr ?_
    rw [Checker.binaryType, mem_operators.1 hop]
    exact Checker.expect_then.2 ⟨htype, rfl⟩
  | call pos _ hchosen ih =>
    rw [Phrase.Accepted, Checker.expr]
    refine except_bind_eq_ok.2 ⟨_, Checker.exprList_eq_ok.2 ih, ?_⟩
    exact except_bind_eq_ok.2 ⟨(_, _), callee_env.2 ⟨_, hchosen, rfl, rfl⟩, rfl⟩
  | newPair pos _ _ ihf ihs =>
    rw [Phrase.Accepted, Checker.expr]
    exact except_bind_eq_ok.2 ⟨_, ihf, except_bind_eq_ok.2 ⟨_, ihs, rfl⟩⟩
  | array pos _ _ hsame ihf iho =>
    rw [Phrase.Accepted, Checker.expr]
    refine except_bind_eq_ok.2 ⟨_, ihf, ?_⟩
    exact except_bind_eq_ok.2 ⟨_, Checker.elementList_eq_ok.2 ⟨iho, hsame⟩, rfl⟩
  | nil => exact .nil
  | cons _ _ ihe ihes => exact .cons ihe ihes

/-- An expression is checked exactly if it is derivable. -/
theorem expr_eq_ok {e : Source.Expr} {c : Checked.Expr} :
    Checker.expr (env Φ Γ) e = .ok c ↔ ExprTyped Φ Γ (.expr e c) :=
  ⟨exprTyped_of_expr e, fun h => h.accepted⟩

end Typing

end WaccArm
