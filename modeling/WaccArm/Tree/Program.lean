import WaccArm.Source.Pos
import WaccArm.Tree.Expr
import WaccArm.Tree.TypeExpr

namespace WaccArm

inductive Stmt (α σ τ : Type) where
  | skip (mark : σ)
  | declare (mark : σ) (type : τ) (name : String) (init : Expr α)
  | assign (mark : σ) (dst src : Expr α)
  | read (mark : σ) (target : Expr α)
  | free (mark : σ) (e : Expr α)
  | ret (mark : σ) (e : Expr α)
  | exit (mark : σ) (e : Expr α)
  | print (mark : σ) (e : Expr α) (newline : Bool)
  | branch (mark : σ) (cond : Expr α) (yes no : Stmt α σ τ)
  | loop (mark : σ) (cond : Expr α) (body : Stmt α σ τ)
  | scope (mark : σ) (body : Stmt α σ τ)
  | seq (mark : σ) (items : List (Stmt α σ τ))
deriving Repr

namespace Stmt

variable {α σ τ : Type}

def mark : Stmt α σ τ → σ
  | skip mark | declare mark _ _ _ | assign mark _ _ | read mark _ | free mark _ | ret mark _
  | exit mark _ | print mark _ _ | branch mark _ _ _ | loop mark _ _ | scope mark _
  | seq mark _ => mark

mutual

/-- The expressions of a statement with all their parts, in the order they are written. -/
def exprs : Stmt α σ τ → List (Expr α)
  | skip _ => []
  | declare _ _ _ init => init.parts
  | assign _ dst src => dst.parts ++ src.parts
  | read _ e | free _ e | ret _ e | exit _ e | print _ e _ => e.parts
  | branch _ cond yes no => cond.parts ++ (exprs yes ++ exprs no)
  | loop _ cond body => cond.parts ++ exprs body
  | scope _ body => exprs body
  | seq _ items => exprsAll items

def exprsAll : List (Stmt α σ τ) → List (Expr α)
  | [] => []
  | s :: ss => exprs s ++ exprsAll ss

end

end Stmt

namespace Source

abbrev Expr := WaccArm.Expr Pos

abbrev Stmt := WaccArm.Stmt Pos Pos TypeExpr

structure Param where
  type : TypeExpr
  name : String
  pos : Pos
deriving Repr

structure Func where
  name : String
  ret : TypeExpr
  params : List Param
  body : Stmt
  pos : Pos
deriving Repr

/-- A program as it is parsed: functions, then the statement that runs. -/
structure Program where
  funcs : List Func
  body : Stmt
deriving Repr

/-- The expressions of a program with all their parts, functions first. -/
def Program.exprs (p : Program) : List Expr :=
  p.funcs.flatMap (fun f => f.body.exprs) ++ p.body.exprs

end Source

end WaccArm
