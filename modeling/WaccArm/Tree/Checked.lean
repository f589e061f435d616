import WaccArm.Tree.Program
import WaccArm.Types.Ty

namespace WaccArm.Checked

abbrev Expr := WaccArm.Expr Ty

abbrev Stmt := WaccArm.Stmt Ty Unit Ty

structure Param where
  name : String
  type : Ty
deriving Repr

structure Func where
  name : String
  label : String
  params : List Param
  ret : Ty
  body : Stmt
deriving Repr

structure Program where
  funcs : List Func
  body : Stmt
deriving Repr

end WaccArm.Checked
