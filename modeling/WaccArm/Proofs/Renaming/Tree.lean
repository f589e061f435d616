import Mathlib.SetTheory.Cardinal.Arithmetic
import WaccArm.Checker.Termination
import WaccArm.Proofs.Emission.Trace

namespace WaccArm

namespace Expr

variable {α : Type} (v l : String → String)

mutual

/-- The expression with its variables renamed by `v` and the functions that it calls by `l`. -/
def rename : Expr α → Expr α
  | var note name => .var note (v name)
  | elem note name indices => .elem note (v name) (renameAll indices)
  | side note which pair => .side note which (rename pair)
  | unary note op operand => .unary note op (rename operand)
  | binary note op left right => .binary note op (rename left) (rename right)
  | call note callee args => .call note (l callee) (renameAll args)
  | newPair note fst snd => .newPair note (rename fst) (rename snd)
  | array note elems => .array note (renameAll elems)
  | e => e

def renameAll : List (Expr α) → List (Expr α)
  | [] => []
  | e :: es => rename e :: renameAll es

end

@[simp] theorem renameAll_eq_map (es : List (Expr α)) : renameAll v l es = es.map (rename v l) := by
  induction es with
  | nil => rfl
  | cons e es ih => rw [renameAll, ih, List.map_cons]

/-- Renaming keeps notes. -/
@[simp] theorem note_rename (e : Expr α) : (e.rename v l).note = e.note := by
  cases e <;> rfl

theorem map_note_rename (es : List (Expr α)) : (es.map (rename v l)).map note = es.map note := by
  rw [List.map_map]
  exact List.map_congr_left fun e _ => note_rename v l e

mutual

/-- Nothing changes if every name stays. -/
theorem rename_id (e : Expr α) : e.rename id id = e := by
  cases e with
  | int | bool | char | str | null | var => rfl
  | elem note name indices => rw [rename, renameAll_id indices, id]
  | side note which pair => rw [rename, rename_id pair]
  | unary note op operand => rw [rename, rename_id operand]
  | binary note op left right => rw [rename, rename_id left, rename_id right]
  | call note callee args => rw [rename, renameAll_id args, id]
  | newPair note fst snd => rw [rename, rename_id fst, rename_id snd]
  | array note elems => rw [rename, renameAll_id elems]

theorem renameAll_id (es : List (Expr α)) : renameAll id id es = es := by
  cases es with
  | nil => rfl
  | cons e es => rw [renameAll, rename_id e, renameAll_id es]

end

mutual

/-- The parts of a renamed expression are renamed. -/
theorem parts_rename (e : Expr α) : (e.rename v l).parts = e.parts.map (rename v l) := by
  cases e with
  | int | bool | char | str | null | var => rfl
  | elem note name indices => rw [rename, parts, parts, partsAll_rename indices, List.map_cons, rename]
  | side note which pair => rw [rename, parts, parts, parts_rename pair, List.map_cons, rename]
  | unary note op operand => rw [rename, parts, parts, parts_rename operand, List.map_cons, rename]
  | binary note op left right =>
    rw [rename, parts, parts, parts_rename left, parts_rename right, List.map_cons, List.map_append, rename]
  | call note callee args => rw [rename, parts, parts, partsAll_rename args, List.map_cons, rename]
  | newPair note fst snd =>
    rw [rename, parts, parts, parts_rename fst, parts_rename snd, List.map_cons, List.map_append, rename]
  | array note elems => rw [rename, parts, parts, partsAll_rename elems, List.map_cons, rename]

theorem partsAll_rename (es : List (Expr α)) : partsAll (renameAll v l es) = (partsAll es).map (rename v l) := by
  cases es with
  | nil => rfl
  | cons e es => rw [renameAll, partsAll, partsAll, parts_rename e, partsAll_rename es, List.map_append]

end

variable (v' l' : String → String)

mutual

/-- Two renamings are one. -/
theorem rename_rename (e : Expr α) : (e.rename v l).rename v' l' = e.rename (v' ∘ v) (l' ∘ l) := by
  cases e with
  | int | bool | char | str | null | var => rfl
  | elem note name indices => rw [rename, rename, rename, renameAll_renameAll indices, Function.comp_apply]
  | side note which pair => rw [rename, rename, rename, rename_rename pair]
  | unary note op operand => rw [rename, rename, rename, rename_rename operand]
  | binary note op left right => rw [rename, rename, rename, rename_rename left, rename_rename right]
  | call note callee args => rw [rename, rename, rename, renameAll_renameAll args, Function.comp_apply]
  | newPair note fst snd => rw [rename, rename, rename, rename_rename fst, rename_rename snd]
  | array note elems => rw [rename, rename, rename, renameAll_renameAll elems]

theorem renameAll_renameAll (es : List (Expr α)) :
    renameAll v' l' (renameAll v l es) = renameAll (v' ∘ v) (l' ∘ l) es := by
  cases es with
  | nil => rfl
  | cons e es => rw [renameAll, renameAll, renameAll, rename_rename e, renameAll_renameAll es]

end

variable {v v' l}

mutual

/-- A renaming matters on the variables that the expression names only. -/
theorem rename_congr (e : Expr α) (h : ∀ name ∈ names e.parts, v name = v' name) :
    e.rename v l = e.rename v' l := by
  cases e with
  | int | bool | char | str | null => rfl
  | var note name => exact congrArg (Expr.var note) (h name (List.mem_singleton.2 rfl))
  | elem note name indices =>
    have hindices : ∀ x ∈ names (partsAll indices), v x = v' x := fun x hx => h x (List.mem_cons_of_mem _ hx)
    rw [rename, rename, renameAll_congr indices hindices, h name (List.mem_cons_self ..)]
  | side note which pair => rw [rename, rename, rename_congr pair h]
  | unary note op operand => rw [rename, rename, rename_congr operand h]
  | binary note op left right =>
    have hboth : ∀ x ∈ names (left.parts ++ right.parts), v x = v' x := h
    rw [names_append, List.forall_mem_append] at hboth
    rw [rename, rename, rename_congr left hboth.1, rename_congr right hboth.2]
  | call note callee args => rw [rename, rename, renameAll_congr args h]
  | newPair note fst snd =>
    have hboth : ∀ x ∈ names (fst.parts ++ snd.parts), v x = v' x := h
    rw [names_append, List.forall_mem_append] at hboth
    rw [rename, rename, rename_congr fst hboth.1, rename_congr snd hboth.2]
  | array note elems => rw [rename, rename, renameAll_congr elems h]

theorem renameAll_congr (es : List (Expr α)) (h : ∀ name ∈ names (partsAll es), v name = v' name) :
    renameAll v l es = renameAll v' l es := by
  cases es with
  | nil => rfl
  | cons e es =>
    rw [partsAll, names_append, List.forall_mem_append] at h
    rw [renameAll, renameAll, rename_congr e h.1, renameAll_congr es h.2]

end

end Expr

namespace Stmt

variable {α σ τ : Type} (v l : String → String)

mutual

/-- The statement with its variables renamed by `v`, also where they are declared, and the functions that
it calls by `l`. -/
def rename : Stmt α σ τ → Stmt α σ τ
  | skip mark => .skip mark
  | declare mark type name init => .declare mark type (v name) (init.rename v l)
  | assign mark dst src => .assign mark (dst.rename v l) (src.rename v l)
  | read mark target => .read mark (target.rename v l)
  | free mark e => .free mark (e.rename v l)
  | ret mark e => .ret mark (e.rename v l)
  | exit mark e => .exit mark (e.rename v l)
  | print mark e newline => .print mark (e.rename v l) newline
  | branch mark cond yes no => .branch mark (cond.rename v l) (rename yes) (rename no)
  | loop mark cond body => .loop mark (cond.rename v l) (rename body)
  | scope mark body => .scope mark (rename body)
  | seq mark items => .seq mark (renameAll items)

def renameAll : List (Stmt α σ τ) → List (Stmt α σ τ)
  | [] => []
  | s :: ss => rename s :: renameAll ss

end

mutual

/-- The variables that stand in a statement, where they are declared or used. -/
def vars : Stmt α σ τ → List String
  | skip _ => []
  | declare _ _ name init => name :: Expr.names init.parts
  | assign _ dst src => Expr.names dst.parts ++ Expr.names src.parts
  | read _ e | free _ e | ret _ e | exit _ e | print _ e _ => Expr.names e.parts
  | branch _ cond yes no => Expr.names cond.parts ++ (vars yes ++ vars no)
  | loop _ cond body => Expr.names cond.parts ++ vars body
  | scope _ body => vars body
  | seq _ items => varsAll items

def varsAll : List (Stmt α σ τ) → List String
  | [] => []
  | s :: ss => vars s ++ varsAll ss

end

mutual

/-- Names do not decide whether a statement terminates. -/
theorem terminates_rename (s : Stmt α σ τ) : (s.rename v l).terminates = s.terminates := by
  cases s with
  | skip | declare | assign | read | free | ret | exit | print => rfl
  | branch mark cond yes no =>
    rw [rename, terminates, terminates, terminates_rename yes, terminates_rename no]
  | loop mark cond body => rw [rename, terminates, terminates, terminates_rename body]
  | scope mark body => rw [rename, terminates, terminates, terminates_rename body]
  | seq mark items => rw [rename, terminates, terminates, lastTerminates_rename items]

theorem lastTerminates_rename (ss : List (Stmt α σ τ)) :
    lastTerminates (renameAll v l ss) = lastTerminates ss := by
  match ss with
  | [] => rfl
  | [s] => exact terminates_rename s
  | s :: s' :: ss => exact lastTerminates_rename (s' :: ss)

end

mutual

theorem rename_id (s : Stmt α σ τ) : s.rename id id = s := by
  cases s with
  | skip => rfl
  | declare mark type name init => rw [rename, init.rename_id, id]
  | assign mark dst src => rw [rename, dst.rename_id, src.rename_id]
  | read _ e | free _ e | ret _ e | exit _ e | print _ e => rw [rename, e.rename_id]
  | branch mark cond yes no => rw [rename, cond.rename_id, rename_id yes, rename_id no]
  | loop mark cond body => rw [rename, cond.rename_id, rename_id body]
  | scope mark body => rw [rename, rename_id body]
  | seq mark items => rw [rename, renameAll_id items]

theorem renameAll_id (ss : List (Stmt α σ τ)) : renameAll id id ss = ss := by
  cases ss with
  | nil => rfl
  | cons s ss => rw [renameAll, rename_id s, renameAll_id ss]

end

mutual

/-- The expressions of a renamed statement are renamed. -/
theorem exprs_rename (s : Stmt α σ τ) : (s.rename v l).exprs = s.exprs.map (Expr.rename v l) := by
  cases s with
  | skip => rfl
  | declare mark type name init => rw [rename, exprs, exprs, init.parts_rename]
  | assign mark dst src => rw [rename, exprs, exprs, dst.parts_rename, src.parts_rename, List.map_append]
  | read _ e | free _ e | ret _ e | exit _ e | print _ e => rw [rename, exprs, exprs, e.parts_rename]
  | branch mark cond yes no =>
    rw [rename, exprs, exprs, cond.parts_rename, exprs_rename yes, exprs_rename no, List.map_append,
      List.map_append]
  | loop mark cond body => rw [rename, exprs, exprs, cond.parts_rename, exprs_rename body, List.map_append]
  | scope mark body => rw [rename, exprs, exprs, exprs_rename body]
  | seq mark items => rw [rename, exprs, exprs, exprsAll_rename items]

theorem exprsAll_rename (ss : List (Stmt α σ τ)) :
    exprsAll (renameAll v l ss) = (exprsAll ss).map (Expr.rename v l) := by
  cases ss with
  | nil => rfl
  | cons s ss => rw [renameAll, exprsAll, exprsAll, exprs_rename s, exprsAll_rename ss, List.map_append]

end

variable (v' l' : String → String)

mutual

theorem rename_rename (s : Stmt α σ τ) : (s.rename v l).rename v' l' = s.rename (v' ∘ v) (l' ∘ l) := by
  cases s with
  | skip => rfl
  | declare mark type name init => rw [rename, rename, rename, init.rename_rename, Function.comp_apply]
  | assign mark dst src => rw [rename, rename, rename, dst.rename_rename, src.rename_rename]
  | read _ e | free _ e | ret _ e | exit _ e | print _ e => rw [rename, rename, rename, e.rename_rename]
  | branch mark cond yes no =>
    rw [rename, rename, rename, cond.rename_rename, rename_rename yes, rename_rename no]
  | loop mark cond body => rw [rename, rename, rename, cond.rename_rename, rename_rename body]
  | scope mark body => rw [rename, rename, rename, rename_rename body]
  | seq mark items => rw [rename, rename, rename, renameAll_renameAll items]

theorem renameAll_renameAll (ss : List (Stmt α σ τ)) :
    renameAll v' l' (renameAll v l ss) = renameAll (v' ∘ v) (l' ∘ l) ss := by
  cases ss with
  | nil => rfl
  | cons s ss => rw [renameAll, renameAll, renameAll, rename_rename s, renameAll_renameAll ss]

end

variable {v v' l}

mutual

/-- A renaming matters on the variables that stand in the statement only. -/
theorem rename_congr (s : Stmt α σ τ) (h : ∀ name ∈ s.vars, v name = v' name) :
    s.rename v l = s.rename v' l := by
  cases s with
  | skip => rfl
  | declare mark type name init =>
    rw [vars, List.forall_mem_cons] at h
    rw [rename, rename, h.1, init.rename_congr h.2]
  | assign mark dst src =>
    rw [vars, List.forall_mem_append] at h
    rw [rename, rename, dst.rename_congr h.1, src.rename_congr h.2]
  | read _ e | free _ e | ret _ e | exit _ e | print _ e => rw [rename, rename, e.rename_congr h]
  | branch mark cond yes no =>
    rw [vars, List.forall_mem_append, List.forall_mem_append] at h
    rw [rename, rename, cond.rename_congr h.1, rename_congr yes h.2.1, rename_congr no h.2.2]
  | loop mark cond body =>
    rw [vars, List.forall_mem_append] at h
    rw [rename, rename, cond.rename_congr h.1, rename_congr body h.2]
  | scope mark body => rw [rename, rename, rename_congr body h]
  | seq mark items => rw [rename, rename, renameAll_congr items h]

theorem renameAll_congr (ss : List (Stmt α σ τ)) (h : ∀ name ∈ varsAll ss, v name = v' name) :
    renameAll v l ss = renameAll v' l ss := by
  cases ss with
  | nil => rfl
  | cons s ss =>
    rw [varsAll, List.forall_mem_append] at h
    rw [renameAll, renameAll, rename_congr s h.1, renameAll_congr ss h.2]

end

end Stmt

namespace Source

variable (v : String → String)

def Param.rename (param : Param) : Param := { param with name := v param.name }

/-- The function with its parameters and variables renamed. Its own name and those of the functions that
it calls stay. -/
def Func.rename (f : Func) : Func :=
  { f with params := f.params.map (Param.rename v), body := f.body.rename v id }

/-- The program with its parameters and variables renamed. -/
def Program.rename (p : Program) : Program := ⟨p.funcs.map (Func.rename v), p.body.rename v id⟩

/-- The parameters and variables that stand in a function. -/
def Func.vars (f : Func) : List String := f.params.map Param.name ++ f.body.vars

/-- The parameters and variables that stand in a program. -/
def Program.vars (p : Program) : List String := p.funcs.flatMap Func.vars ++ p.body.vars

variable {v} {v' : String → String}

theorem Func.rename_congr {f : Func} (h : ∀ name ∈ f.vars, v name = v' name) :
    f.rename v = f.rename v' := by
  rw [vars, List.forall_mem_append, List.forall_mem_map] at h
  have hparams : f.params.map (Param.rename v) = f.params.map (Param.rename v') :=
    List.map_congr_left fun param hparam => by rw [Param.rename, Param.rename, h.1 param hparam]
  rw [rename, rename, hparams, f.body.rename_congr h.2]

/-- Only the variables of the program matter. -/
theorem Program.rename_congr {p : Program} (h : ∀ name ∈ p.vars, v name = v' name) :
    p.rename v = p.rename v' := by
  rw [vars, List.forall_mem_append] at h
  have hfuncs : p.funcs.map (Func.rename v) = p.funcs.map (Func.rename v') :=
    List.map_congr_left fun f hf =>
      Func.rename_congr fun name hname => h.1 name (List.mem_flatMap.2 ⟨f, hf, hname⟩)
  rw [rename, rename, hfuncs, p.body.rename_congr h.2]

/-- A renaming that keeps names apart can be undone. -/
theorem Program.rename_symm (p : Program) (v : Equiv.Perm String) : (p.rename v).rename v.symm = p := by
  have hbody : ∀ s : Stmt, (s.rename v id).rename v.symm id = s := by
    intro s
    rw [s.rename_rename, Equiv.symm_comp_self, Function.comp_id, s.rename_id]
  have hparams : Param.rename v.symm ∘ Param.rename v = id := by
    funext param
    exact congrArg (fun name => { param with name }) (v.symm_apply_apply param.name)
  have hfuncs : Func.rename v.symm ∘ Func.rename v = id := by
    funext f
    rw [Function.comp_apply, Func.rename, Func.rename, List.map_map, hparams, List.map_id, hbody, id]
  rw [rename, rename, List.map_map, hfuncs, List.map_id, hbody]

end Source

namespace Checked

variable (v l : String → String)

def Param.rename (param : Param) : Param := { param with name := v param.name }

/-- The function with its parameters and variables renamed by `v`, and its label and those of the functions
that it calls by `l`. -/
def Func.rename (f : Func) : Func :=
  { f with label := l f.label, params := f.params.map (Param.rename v), body := f.body.rename v l }

/-- The program with its parameters and variables renamed by `v`, and its labels by `l`. -/
def Program.rename (p : Program) : Program := ⟨p.funcs.map (Func.rename v l), p.body.rename v l⟩

theorem map_param_rename_id (params : List Param) : params.map (Param.rename id) = params :=
  List.map_id params

theorem Func.rename_id (f : Func) : f.rename id id = f := by
  rw [rename, map_param_rename_id, f.body.rename_id, id]

theorem Program.rename_id (p : Program) : p.rename id id = p := by
  rw [rename, funext Func.rename_id, List.map_id', p.body.rename_id]

end Checked

namespace Scope

variable {δ : Type}

/-- The scope with other names for the same bindings. -/
def rename (v : String → String) (scope : Scope δ) : Scope δ := scope.map (Prod.map v id)

theorem rename_id (scope : Scope δ) : scope.rename id = scope := by
  rw [rename, Prod.map_id, List.map_id]

end Scope

namespace Chain

variable {δ : Type}

/-- The chain with other names for the same bindings. -/
def rename (v : String → String) (chain : Chain δ) : Chain δ := chain.map (Scope.rename v)

theorem rename_id (chain : Chain δ) : chain.rename id = chain := by
  rw [rename, funext Scope.rename_id]
  exact List.map_id chain

/-- A renamed binding is one of the new name. -/
theorem bind_rename (v : String → String) (chain : Chain δ) (name : String) (decl : δ) :
    (chain.rename v).bind (v name) decl = (chain.bind name decl).rename v := by
  cases chain <;> rfl

end Chain

/-- A renaming that keeps some names apart agrees on them with one that keeps all names apart. -/
theorem exists_perm_of_injOn {names : List String} {ρ : String → String}
    (hρ : Set.InjOn ρ {name | name ∈ names}) :
    ∃ σ : Equiv.Perm String, ∀ name ∈ names, σ name = ρ name := by
  have hfinite : {name | name ∈ names}.Finite := List.finite_toSet names
  have hsmall : Cardinal.mk {name | name ∈ names} < Cardinal.mk String :=
    hfinite.lt_aleph0.trans_le (Cardinal.aleph0_le_mk String)
  obtain ⟨σ, hσ⟩ := Cardinal.extend_function_of_lt ⟨_, hρ.injective⟩ hsmall ⟨Equiv.refl String⟩
  exact ⟨σ, fun name hname => hσ ⟨name, hname⟩⟩

end WaccArm
