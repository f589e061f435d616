import WaccArm.Proofs.Checker.Labels
import WaccArm.Proofs.Positions.Tree

namespace WaccArm

/-- The fault with the places inside it moved. -/
def CheckFault.moved (move : Pos → Pos) : CheckFault → CheckFault
  | mismatch expr expected actual => .mismatch (expr.map move) expected actual
  | fault => fault

/-- The fault at another place. -/
def CheckError.moved (move : Pos → Pos) (e : CheckError) : CheckError := ⟨e.val.moved move, move e.pos⟩

/-- The message of a fault shows no places. -/
theorem CheckFault.message_moved (move : Pos → Pos) (fault : CheckFault) :
    (fault.moved move).message = fault.message := by
  cases fault with
  | mismatch expr expected actual =>
    unfold message moved
    simp only [Expr.render_map]
  | _ => rfl

/-- A change of faults goes through both steps. -/
theorem mapError_bind {ε ε' α β : Type} (g : ε → ε') (x : Except ε α) (k : α → Except ε β) :
    (x >>= k).mapError g = x.mapError g >>= fun a => (k a).mapError g := by
  cases x <;> rfl

@[simp] theorem mapError_pure {ε ε' α : Type} (g : ε → ε') (a : α) :
    (pure a : Except ε α).mapError g = pure a := rfl

namespace Checker

variable {α : Type} (move : Pos → Pos)

theorem mismatch_moved (e : Source.Expr) (expected : Demand) (actual : Ty) :
    (mismatch (e.map move) expected actual : Except CheckError α) =
      (mismatch e expected actual).mapError (CheckError.moved move) := by
  rw [mismatch, Expr.note_map]
  rfl

/-- Types are compared whatever the place is. -/
theorem expect_moved (e : Source.Expr) (actual want : Ty) :
    expect (e.map move) actual want = (expect e actual want).mapError (CheckError.moved move) := by
  rw [expect, expect]
  split
  · rfl
  · exact mismatch_moved move e _ actual

theorem expectIntOrChar_moved (e : Source.Expr) (actual : Ty) :
    expectIntOrChar (e.map move) actual =
      (expectIntOrChar e actual).mapError (CheckError.moved move) := by
  cases actual with
  | int | char => rfl
  | _ => exact mismatch_moved move e _ _

theorem variableType_moved (env : Env) (name : String) (pos : Pos) :
    variableType env name (move pos) = (variableType env name pos).mapError (CheckError.moved move) := by
  rw [variableType, variableType]
  split <;> rfl

theorem unaryType_moved (op : UnaryOp) (e : Source.Expr) (actual : Ty) :
    unaryType op (e.map move) actual = (unaryType op e actual).mapError (CheckError.moved move) := by
  cases op with
  | len =>
    rw [unaryType, unaryType]
    split
    · rfl
    · exact mismatch_moved move e _ actual
  | not | negate | ord | chr => simp only [unaryType, mapError_bind, expect_moved, mapError_pure]

theorem binaryType_moved (op : BinaryOp) (left right : Source.Expr) (l r : Ty) :
    binaryType op (left.map move) (right.map move) l r =
      (binaryType op left right l r).mapError (CheckError.moved move) := by
  rw [binaryType, binaryType]
  cases op.kind <;> simp only [mapError_bind, expect_moved, expectIntOrChar_moved, mapError_pure]

/-- A call is resolved whatever its place is. -/
theorem callee_moved (env : Env) (name : String) (types : List Ty) (pos : Pos) :
    callee env name types (move pos) =
      (callee env name types pos).mapError (CheckError.moved move) := by
  rw [callee, callee]
  split <;> rfl

mutual

/-- The check of an expression does not look at places. -/
theorem expr_moved (env : Env) (e : Source.Expr) :
    expr env (e.map move) = (expr env e).mapError (CheckError.moved move) := by
  cases e with
  | int | bool | char | str | null => rfl
  | var pos name => rw [Expr.map, expr, expr, mapError_bind, variableType_moved]; rfl
  | elem pos name indices =>
    have hself : Expr.map move (.elem pos name indices) = .elem (move pos) name (Expr.mapAll move indices) := rfl
    have hlength : (Expr.mapAll move indices).length = indices.length := by simp
    rw [hself, expr, expr, ← hself]
    simp only [mapError_bind, variableType_moved, indexList_moved env indices, hlength]
    refine bind_congr fun array => bind_congr fun checked => ?_
    cases array.index? indices.length with
    | some type => rfl
    | none => exact mismatch_moved move (.elem pos name indices) _ array
  | side pos which pair =>
    rw [Expr.map, expr, expr, mapError_bind, expr_moved env pair]
    refine bind_congr fun checked => ?_
    cases checked.note.side? which with
    | some type => rfl
    | none => exact mismatch_moved move pair _ _
  | unary pos op operand =>
    simp only [Expr.map, expr, mapError_bind, expr_moved env operand, unaryType_moved, mapError_pure]
  | binary pos op left right =>
    simp only [Expr.map, expr, mapError_bind, expr_moved env left, expr_moved env right,
      binaryType_moved, mapError_pure]
  | call pos name args =>
    simp only [Expr.map, expr, mapError_bind, exprList_moved env args, callee_moved, mapError_pure]
  | newPair pos fst snd =>
    simp only [Expr.map, expr, mapError_bind, expr_moved env fst, expr_moved env snd, mapError_pure]
  | array pos elems =>
    cases elems with
    | nil => rfl
    | cons first others =>
      simp only [Expr.map, Expr.mapAll, expr, mapError_bind, expr_moved env first, mapError_pure]
      refine bind_congr fun checked => ?_
      rw [elementList_moved env checked.note others]

theorem exprList_moved (env : Env) (es : List Source.Expr) :
    exprList env (Expr.mapAll move es) = (exprList env es).mapError (CheckError.moved move) := by
  cases es with
  | nil => rfl
  | cons e es =>
    simp only [Expr.mapAll, exprList, mapError_bind, expr_moved env e, exprList_moved env es, mapError_pure]

theorem indexList_moved (env : Env) (es : List Source.Expr) :
    indexList env (Expr.mapAll move es) = (indexList env es).mapError (CheckError.moved move) := by
  cases es with
  | nil => rfl
  | cons e es =>
    simp only [Expr.mapAll, indexList, mapError_bind, expr_moved env e, expect_moved,
      indexList_moved env es, mapError_pure]

theorem elementList_moved (env : Env) (first : Ty) (es : List Source.Expr) :
    elementList env first (Expr.mapAll move es) =
      (elementList env first es).mapError (CheckError.moved move) := by
  cases es with
  | nil => rfl
  | cons e es =>
    simp only [Expr.mapAll, elementList, mapError_bind, expr_moved env e, expect_moved,
      elementList_moved env first es, mapError_pure]

end

/-- A name is declared whatever its place is. -/
theorem declare_moved (env : Env) (name : String) (type : Ty) (pos : Pos) :
    declare env name type (move pos) = (declare env name type pos).mapError (CheckError.moved move) := by
  rw [declare, declare]
  split <;> rfl

mutual

/-- The check of a statement does not look at places. -/
theorem stmt_moved (ret : Option Ty) (s : Source.Stmt) (env : Env) :
    stmt ret (s.map move move) env = (stmt ret s env).mapError (CheckError.moved move) := by
  cases s with
  | skip => rfl
  | declare pos written name init =>
    simp only [Stmt.map, stmt, mapError_bind, expr_moved, expect_moved, declare_moved, mapError_pure]
  | assign pos dst src =>
    simp only [Stmt.map, stmt, mapError_bind, expr_moved, expect_moved, mapError_pure]
  | read pos target =>
    simp only [Stmt.map, stmt, mapError_bind, expr_moved, expectIntOrChar_moved, mapError_pure]
  | free pos e =>
    simp only [Stmt.map, stmt, mapError_bind, expr_moved]
    refine bind_congr fun checked => ?_
    split
    · rfl
    · rfl
    · exact mismatch_moved move e _ _
  | ret pos e =>
    cases ret with
    | none => rfl
    | some want => simp only [Stmt.map, stmt, mapError_bind, expr_moved, expect_moved, mapError_pure]
  | exit pos e =>
    simp only [Stmt.map, stmt, mapError_bind, expr_moved, expect_moved, mapError_pure]
  | print pos e newline => simp only [Stmt.map, stmt, mapError_bind, expr_moved, mapError_pure]
  | branch pos cond yes no =>
    simp only [Stmt.map, stmt, mapError_bind, expr_moved, expect_moved, stmt_moved ret yes,
      stmt_moved ret no, mapError_pure]
  | loop pos cond body =>
    simp only [Stmt.map, stmt, mapError_bind, expr_moved, expect_moved, stmt_moved ret body, mapError_pure]
  | scope pos body => simp only [Stmt.map, stmt, mapError_bind, stmt_moved ret body, mapError_pure]
  | seq pos items => simp only [Stmt.map, stmt, mapError_bind, stmtList_moved ret items, mapError_pure]

/-- The check of a body does not look at places. -/
theorem stmtList_moved (ret : Option Ty) (ss : List Source.Stmt) (env : Env) :
    stmtList ret (Stmt.mapAll move move ss) env =
      (stmtList ret ss env).mapError (CheckError.moved move) := by
  cases ss with
  | nil => rfl
  | cons s ss =>
    simp only [Stmt.mapAll, stmtList, mapError_bind, stmt_moved ret s, stmtList_moved ret ss, mapError_pure]

end

/-- The signature of a function that has been moved. -/
def Signature.moved (s : Signature) : Signature := { s with func := s.func.moved move }

/-- Signatures keep the places of their functions. -/
theorem signatures_moved (p : Source.Program) :
    signatures (p.moved move) = (signatures p).map (Signature.moved move) := by
  have hlabels : labels (p.funcs.map (Source.Func.moved move)) = labels p.funcs :=
    labels_map (Source.Func.moved move) (fun _ => rfl) p.funcs
  simp only [signatures, Source.Program.moved, hlabels, List.zip_map_left, List.map_map]
  refine List.map_congr_left fun f _ => ?_
  simp [Signature.moved, Source.Func.moved, Source.Param.moved, Function.comp_def]

/-- A function that clashes is blamed at its own place. -/
theorem declareAll_moved (sigs : List Signature) (scope : Scope Decl) :
    declareAll (sigs.map (Signature.moved move)) scope =
      (declareAll sigs scope).mapError (CheckError.moved move) := by
  induction sigs generalizing scope with
  | nil => rfl
  | cons s sigs ih =>
    have hdeclare : scope.declare? (s.moved move).func.name (.function (s.moved move).label
          (.function (s.moved move).ret (s.moved move).params)) =
        scope.declare? s.func.name (.function s.label (.function s.ret s.params)) := rfl
    rw [List.map_cons, declareAll, declareAll, hdeclare]
    cases scope.declare? s.func.name (.function s.label (.function s.ret s.params)) with
    | none => rfl
    | some scope => exact ih scope

theorem declareParams_moved (env : Env) (params : List (Source.Param × Ty)) :
    declareParams env (params.map (Prod.map (Source.Param.moved move) id)) =
      (declareParams env params).mapError (CheckError.moved move) := by
  induction params generalizing env with
  | nil => rfl
  | cons param params ih =>
    obtain ⟨param, type⟩ := param
    simp only [List.map_cons, Prod.map_apply, declareParams, mapError_bind, Source.Param.moved,
      declare_moved, id]
    exact bind_congr fun env => ih env

/-- The check of a function does not look at places. -/
theorem func_moved (globals : Scope Decl) (s : Signature) :
    func globals (s.moved move) = (func globals s).mapError (CheckError.moved move) := by
  have hparams : (s.moved move).func.params.zip (s.moved move).params =
      (s.func.params.zip s.params).map (Prod.map (Source.Param.moved move) id) := List.zip_map_left ..
  simp only [func, hparams, declareParams_moved, mapError_bind, mapError_pure, List.map_map]
  refine bind_congr fun env => ?_
  have hbody : stmt (some (s.moved move).ret) (s.moved move).func.body env = _ :=
    stmt_moved move (some s.ret) s.func.body env
  rw [hbody]
  rfl

theorem funcs_moved (globals : Scope Decl) (sigs : List Signature) :
    funcs globals (sigs.map (Signature.moved move)) =
      (funcs globals sigs).mapError (CheckError.moved move) := by
  induction sigs with
  | nil => rfl
  | cons s sigs ih =>
    simp only [List.map_cons, funcs, mapError_bind, func_moved, ih, mapError_pure]

/-- The check of a program does not look at places. -/
theorem program_moved (p : Source.Program) :
    program (p.moved move) = (program p).mapError (CheckError.moved move) := by
  simp only [program, signatures_moved, declareAll_moved, funcs_moved, mapError_bind, mapError_pure]
  refine bind_congr fun globals => bind_congr fun checked => ?_
  have hbody : stmt none (p.moved move).body (Chain.enter [globals]) = _ :=
    stmt_moved move none p.body (Chain.enter [globals])
  rw [hbody]

end Checker

/-- Whether a function returns does not depend on places. -/
theorem Source.Program.checkTermination_moved (move : Pos → Pos) (p : Source.Program) :
    (p.moved move).checkTermination = p.checkTermination.mapError (CheckError.moved move) := by
  have hfind : (p.moved move).funcs.find? (fun f => !f.body.terminates) =
      (p.funcs.find? fun f => !f.body.terminates).map (Source.Func.moved move) := by
    rw [Source.Program.moved, List.find?_map]
    congr 2
    funext f
    exact congrArg (!·) (Stmt.terminates_map move move f.body)
  rw [checkTermination, checkTermination, hfind]
  cases p.funcs.find? fun f => !f.body.terminates <;> rfl

/-- Checking commutes with every change of places. -/
theorem check_moved (move : Pos → Pos) (p : Source.Program) :
    check (p.moved move) = (check p).mapError (CheckError.moved move) := by
  simp only [check, Checker.program_moved, Source.Program.checkTermination_moved, mapError_bind,
    mapError_pure]

end WaccArm
