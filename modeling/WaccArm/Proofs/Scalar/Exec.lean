import Mathlib.Data.List.Basic
import WaccArm.Layout.Frame
import WaccArm.Proofs.Scalar.Eval

namespace WaccArm.Scalar

structure Variable where
  type : Ty
  value : Int

/-- The variables that can be seen, the newest first. -/
abbrev Env := List (String × Variable)

namespace Env

def types (env : Env) : List (String × Ty) := env.map fun x => (x.1, x.2.type)

def values (env : Env) : Values := fun name => (env.lookup name).map Variable.value

/-- Gives the newest variable of a name a new value. -/
def update (name : String) (value : Int) : Env → Env
  | [] => []
  | x :: env =>
    if x.1 = name then (x.1, { x.2 with value }) :: env else x :: update name value env

/-- The oldest `n` variables, which are those outside a block that was entered with `n`. -/
def leave (env : Env) (n : Nat) : Env := env.drop (env.length - n)

end Env

/-- The value that a variable has after it was given one: characters and booleans are stored in a
byte, which is read back with its sign. -/
def stored (type : Ty) (value : Int) : Int := if type.size = 1 then value.bmod 256 else value

/-- How the execution of a statement ends. -/
inductive Outcome where
  | normal (env : Env)
  | exited (status : Int)
  | returned (value : Int)
  | trapped (trap : Trap)

namespace Outcome

/-- What comes of an evaluation, and of its value if it has one. -/
def after (result : Except Trap Int) (next : Int → Outcome) : Outcome :=
  match result with
  | .ok v => next v
  | .error trap => .trapped trap

/-- The outcome outside a block that was entered with `n` variables. -/
def leave (n : Nat) : Outcome → Outcome
  | normal env => normal (env.leave n)
  | o => o

def isNormal : Outcome → Bool
  | normal _ => true
  | _ => false

end Outcome

/-- Execution of a statement to its end. -/
inductive Exec : Env → Checked.Stmt → Outcome → Prop
  | skip {env m} : Exec env (.skip m) (.normal env)
  | declare {env m type name init} :
    Exec env (.declare m type name init)
      (.after (eval env.values init) fun v => .normal ((name, ⟨type, stored type v⟩) :: env))
  | assign {env m type name src} :
    Exec env (.assign m (.var type name) src)
      (.after (eval env.values src) fun v => .normal (env.update name (stored type v)))
  | exit {env m e} : Exec env (.exit m e) (.after (eval env.values e) .exited)
  | ret {env m e} : Exec env (.ret m e) (.after (eval env.values e) .returned)
  | branchTrap {env m cond yes no trap} (hcond : eval env.values cond = .error trap) :
    Exec env (.branch m cond yes no) (.trapped trap)
  | branch {env m cond yes no v o} (hcond : eval env.values cond = .ok v)
    (hside : Exec env (if v = 0 then no else yes) o) :
    Exec env (.branch m cond yes no) (o.leave env.length)
  | loopTrap {env m cond body trap} (hcond : eval env.values cond = .error trap) :
    Exec env (.loop m cond body) (.trapped trap)
  | loopDone {env m cond body} (hcond : eval env.values cond = .ok 0) :
    Exec env (.loop m cond body) (.normal env)
  | loopStop {env m cond body v o} (hcond : eval env.values cond = .ok v) (hv : v ≠ 0)
    (hbody : Exec env body o) (ho : o.isNormal = false) : Exec env (.loop m cond body) o
  | loopNext {env m cond body v env' o} (hcond : eval env.values cond = .ok v) (hv : v ≠ 0)
    (hbody : Exec env body (.normal env'))
    (hnext : Exec (env'.leave env.length) (.loop m cond body) o) : Exec env (.loop m cond body) o
  | scope {env m body o} (hbody : Exec env body o) : Exec env (.scope m body) (o.leave env.length)
  | seqNil {env m} : Exec env (.seq m []) (.normal env)
  | seqStop {env m s ss o} (hfirst : Exec env s o) (ho : o.isNormal = false) :
    Exec env (.seq m (s :: ss)) o
  | seqNext {env m s ss env' o} (hfirst : Exec env s (.normal env'))
    (hothers : Exec env' (.seq m ss) o) : Exec env (.seq m (s :: ss)) o

/-- The types of variables, the newest first. -/
abbrev Scopes := List (String × Ty)

/-- The type of the newest variable of a name. -/
def typeOf (types : Scopes) : Types := fun name => types.lookup name

/-- Well-typed statements, with the types of the variables before and after. -/
inductive StmtTyped : Scopes → Checked.Stmt → Scopes → Prop
  | skip {types m} : StmtTyped types (.skip m) types
  | declare {types m type name init} (hscalar : isScalar type) (hinit : Typed (typeOf types) init type) :
    StmtTyped types (.declare m type name init) ((name, type) :: types)
  | assign {types m type name src} (hdst : Typed (typeOf types) (.var type name) type)
    (hsrc : Typed (typeOf types) src type) : StmtTyped types (.assign m (.var type name) src) types
  | exit {types m e} (he : Typed (typeOf types) e .int) : StmtTyped types (.exit m e) types
  | ret {types m e type} (he : Typed (typeOf types) e type) : StmtTyped types (.ret m e) types
  | branch {types m cond yes no types₁ types₂} (hcond : Typed (typeOf types) cond .bool)
    (hyes : StmtTyped types yes types₁) (hno : StmtTyped types no types₂) :
    StmtTyped types (.branch m cond yes no) types
  | loop {types m cond body types'} (hcond : Typed (typeOf types) cond .bool)
    (hbody : StmtTyped types body types') : StmtTyped types (.loop m cond body) types
  | scope {types m body types'} (hbody : StmtTyped types body types') :
    StmtTyped types (.scope m body) types
  | seqNil {types m} : StmtTyped types (.seq m []) types
  | seqCons {types m s ss types₁ types₂} (hfirst : StmtTyped types s types₁)
    (hothers : StmtTyped types₁ (.seq m ss) types₂) : StmtTyped types (.seq m (s :: ss)) types₂

mutual

/-- The bytes below the stack pointer that a statement may use. -/
def stmtRoom : Checked.Stmt → Nat
  | .declare _ _ _ e | .assign _ _ e | .ret _ e | .exit _ e => room e .top
  | .branch _ cond yes no =>
    max (room cond .top) (max (blockSize yes + stmtRoom yes) (blockSize no + stmtRoom no))
  | .loop _ cond body => max (room cond .top) (blockSize body + stmtRoom body)
  | .scope _ body => blockSize body + stmtRoom body
  | .seq _ items => stmtRoomAll items
  | _ => 0

def stmtRoomAll : List Checked.Stmt → Nat
  | [] => 0
  | s :: ss => max (stmtRoom s) (stmtRoomAll ss)

end

/-- A statement adds the types of its declarations in front. -/
theorem StmtTyped.suffix {types types' : Scopes} {s : Checked.Stmt} (h : StmtTyped types s types') :
    types <:+ types' := by
  induction h with
  | declare => exact List.suffix_cons _ _
  | seqCons _ _ ih iho => exact ih.trans iho
  | _ => exact List.suffix_refl _

/-- An assignment keeps types. -/
@[simp] theorem Env.types_update (env : Env) (name : String) (value : Int) :
    (env.update name value).types = env.types := by
  induction env with
  | nil => rfl
  | cons x env ih =>
    rw [update]
    split
    · rfl
    · exact congrArg ((x.1, x.2.type) :: ·) ih

/-- The end of a block takes its variables away. -/
theorem Env.types_leave {env env' : Env} (h : env.types <:+ env'.types) :
    (env'.leave env.length).types = env.types := by
  obtain ⟨added, hadded⟩ := h
  have hlength : added.length + env.length = env'.length := by
    have := congrArg List.length hadded
    simpa [types] using this
  have hdrop : (env'.leave env.length).types = env'.types.drop (env'.length - env.length) := by
    rw [leave, types, types, List.map_drop]
  rw [hdrop, ← hadded, show env'.length - env.length = added.length by omega, List.drop_left]

theorem Outcome.after_eq_normal {result : Except Trap Int} {next : Int → Outcome} {env : Env}
    (h : Outcome.after result next = .normal env) : ∃ v, result = .ok v ∧ next v = .normal env := by
  cases result with
  | ok v => exact ⟨v, rfl, h⟩
  | error trap => cases h

theorem Outcome.leave_eq_normal {n : Nat} {o : Outcome} {env : Env} (h : o.leave n = .normal env) :
    ∃ env', o = .normal env' ∧ env = env'.leave n := by
  cases o with
  | normal env' =>
    cases h
    exact ⟨env', rfl, rfl⟩
  | exited | returned | trapped => cases h

theorem Outcome.leave_of_stop {n : Nat} {o : Outcome} (h : o.isNormal = false) : o.leave n = o := by
  cases o with
  | normal => cases h
  | exited | returned | trapped => rfl

/-- A well-typed statement leaves variables of the types that it should. -/
theorem Exec.types_eq {env env' : Env} {s : Checked.Stmt} {o : Outcome} (h : Exec env s o)
    {types' : Scopes} (htyped : StmtTyped env.types s types') (ho : o = .normal env') :
    env'.types = types' := by
  induction h generalizing env' types' with
  | skip | seqNil =>
    cases ho
    cases htyped
    rfl
  | declare =>
    obtain ⟨v, _, hnext⟩ := Outcome.after_eq_normal ho
    cases hnext
    cases htyped
    rfl
  | assign =>
    obtain ⟨v, _, hnext⟩ := Outcome.after_eq_normal ho
    cases hnext
    cases htyped
    exact Env.types_update _ _ _
  | exit | ret =>
    obtain ⟨v, _, hnext⟩ := Outcome.after_eq_normal ho
    cases hnext
  | branchTrap | loopTrap => cases ho
  | @branch env m cond yes no v o _ _ ih =>
    obtain ⟨inner, rfl, rfl⟩ := Outcome.leave_eq_normal ho
    cases htyped with
    | branch _ hyes hno =>
      apply Env.types_leave
      by_cases hv : v = 0
      · simp only [if_pos hv] at ih
        rw [ih hno rfl]
        exact hno.suffix
      · simp only [if_neg hv] at ih
        rw [ih hyes rfl]
        exact hyes.suffix
  | loopDone =>
    cases ho
    cases htyped
    rfl
  | loopStop _ _ _ hstop | seqStop _ hstop =>
    subst ho
    cases hstop
  | loopNext _ _ _ _ ih iho =>
    cases htyped with
    | loop hcond hbody =>
      have hleave := Env.types_leave ((ih hbody rfl).symm ▸ hbody.suffix)
      rw [← hleave] at hcond hbody ⊢
      exact iho (.loop hcond hbody) ho
  | scope _ ih =>
    obtain ⟨inner, rfl, rfl⟩ := Outcome.leave_eq_normal ho
    cases htyped with
    | scope hbody =>
      apply Env.types_leave
      rw [ih hbody rfl]
      exact hbody.suffix
  | seqNext _ _ ih iho =>
    cases htyped with
    | seqCons hfirst hothers =>
      rw [← ih hfirst rfl] at hothers
      exact iho hothers ho

end WaccArm.Scalar
