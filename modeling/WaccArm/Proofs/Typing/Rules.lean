import Mathlib.Data.List.Forall2
import WaccArm.Checker.Program

namespace WaccArm.Typing

/-- What calls see of a function. -/
structure Header where
  name : String
  label : String
  params : List Ty
  ret : Ty

/-- The header of a function with the given label. -/
def Header.of (f : Source.Func) (label : String) : Header where
  name := f.name
  label := label
  params := f.params.map fun param => .ofExpr param.type
  ret := .ofExpr f.ret

/-- The headers of a program, in order. -/
def headers (p : Source.Program) : List Header :=
  (p.funcs.zip (Checker.labels p.funcs)).map fun (f, label) => .of f label

/-- Whether a function has the given name and takes arguments of the given types. -/
def Header.Accepts (f : Header) (name : String) (types : List Ty) : Prop :=
  f.name = name ∧ Ty.compatibleAll f.params types

/-- A call of `name` with arguments of the given types goes to `f`, and no other function would do. -/
def Chosen (Φ : List Header) (name : String) (types : List Ty) (f : Header) : Prop :=
  ∃ before after, Φ = before ++ f :: after ∧ f.Accepts name types ∧
    ∀ g ∈ before ++ after, ¬ g.Accepts name types

/-- The variables of one scope with their types, the newest first. -/
abbrev Vars := List (String × Ty)

/-- The scopes that can be seen from a point, the innermost first. -/
abbrev Scopes := List Vars

/-- The type of a variable: the innermost scope that declares it decides. -/
def Scopes.find? (Γ : Scopes) (name : String) : Option Ty := Γ.findSome? (List.lookup name)

/-- The operators that ask the same of their operands. -/
def operators : OpKind → List BinaryOp
  | .arithmetic => [.mul, .div, .rem, .add, .sub]
  | .ordering => [.gt, .ge, .lt, .le]
  | .equality => [.eq, .ne]
  | .logical => [.and, .or]

/-- An expression or some expressions, beside the same with their types. -/
inductive Phrase where
  | expr (e : Source.Expr) (c : Checked.Expr)
  | exprs (es : List Source.Expr) (cs : List Checked.Expr)

inductive ExprTyped (Φ : List Header) (Γ : Scopes) : Phrase → Prop
  | int (pos : Pos) (value : Int32) : ExprTyped Φ Γ (.expr (.int pos value) (.int .int value))
  | bool (pos : Pos) (value : Bool) : ExprTyped Φ Γ (.expr (.bool pos value) (.bool .bool value))
  | char (pos : Pos) (value : UInt8) : ExprTyped Φ Γ (.expr (.char pos value) (.char .char value))
  | str (pos : Pos) (value : String) : ExprTyped Φ Γ (.expr (.str pos value) (.str .str value))
  | null (pos : Pos) : ExprTyped Φ Γ (.expr (.null pos) (.null (.pair none none)))
  | var (pos : Pos) {name type} (hname : Γ.find? name = some type) :
    ExprTyped Φ Γ (.expr (.var pos name) (.var type name))
  -- Fewer indices than dimensions select an array.
  | slice (pos : Pos) {name array indices cs elem dims} (hname : Γ.find? name = some array)
    (hindices : ExprTyped Φ Γ (.exprs indices cs)) (hints : ∀ c ∈ cs, c.note.compatible .int)
    (harray : array.spelled = .array elem dims) (hlt : indices.length < dims) :
    ExprTyped Φ Γ
      (.expr (.elem pos name indices) (.elem (.array elem (dims - indices.length)) name cs))
  | elem (pos : Pos) {name array indices cs elem} (hname : Γ.find? name = some array)
    (hindices : ExprTyped Φ Γ (.exprs indices cs)) (hints : ∀ c ∈ cs, c.note.compatible .int)
    (harray : array.spelled = .array (some elem) indices.length) :
    ExprTyped Φ Γ (.expr (.elem pos name indices) (.elem elem name cs))
  | unknownElem (pos : Pos) {name array indices cs} (hname : Γ.find? name = some array)
    (hindices : ExprTyped Φ Γ (.exprs indices cs)) (hints : ∀ c ∈ cs, c.note.compatible .int)
    (harray : array.spelled = .array none indices.length) :
    ExprTyped Φ Γ (.expr (.elem pos name indices) (.elem (.pair none none) name cs))
  -- A side that a pair has forgotten is itself a pair.
  | fst (pos : Pos) {pair c fst snd} (hpair : ExprTyped Φ Γ (.expr pair c))
    (htype : c.note = .pair fst snd) :
    ExprTyped Φ Γ (.expr (.side pos .fst pair) (.side (fst.getD (.pair none none)) .fst c))
  | snd (pos : Pos) {pair c fst snd} (hpair : ExprTyped Φ Γ (.expr pair c))
    (htype : c.note = .pair fst snd) :
    ExprTyped Φ Γ (.expr (.side pos .snd pair) (.side (snd.getD (.pair none none)) .snd c))
  | not (pos : Pos) {e c} (he : ExprTyped Φ Γ (.expr e c)) (htype : c.note.compatible .bool) :
    ExprTyped Φ Γ (.expr (.unary pos .not e) (.unary .bool .not c))
  | negate (pos : Pos) {e c} (he : ExprTyped Φ Γ (.expr e c)) (htype : c.note.compatible .int) :
    ExprTyped Φ Γ (.expr (.unary pos .negate e) (.unary .int .negate c))
  | len (pos : Pos) {e c elem dims} (he : ExprTyped Φ Γ (.expr e c))
    (htype : c.note.spelled = .array elem dims) :
    ExprTyped Φ Γ (.expr (.unary pos .len e) (.unary .int .len c))
  | ord (pos : Pos) {e c} (he : ExprTyped Φ Γ (.expr e c)) (htype : c.note.compatible .char) :
    ExprTyped Φ Γ (.expr (.unary pos .ord e) (.unary .int .ord c))
  | chr (pos : Pos) {e c} (he : ExprTyped Φ Γ (.expr e c)) (htype : c.note.compatible .int) :
    ExprTyped Φ Γ (.expr (.unary pos .chr e) (.unary .char .chr c))
  | arithmetic (pos : Pos) {op l r cl cr} (hop : op ∈ operators .arithmetic)
    (hl : ExprTyped Φ Γ (.expr l cl)) (hr : ExprTyped Φ Γ (.expr r cr))
    (hltype : cl.note.compatible .int) (hrtype : cr.note.compatible .int) :
    ExprTyped Φ Γ (.expr (.binary pos op l r) (.binary .int op cl cr))
  | ordering (pos : Pos) {op l r cl cr} (hop : op ∈ operators .ordering)
    (hl : ExprTyped Φ Γ (.expr l cl)) (hr : ExprTyped Φ Γ (.expr r cr))
    (hltype : cl.note = .int ∨ cl.note = .char) (hrtype : cr.note.compatible cl.note) :
    ExprTyped Φ Γ (.expr (.binary pos op l r) (.binary .bool op cl cr))
  | equality (pos : Pos) {op l r cl cr} (hop : op ∈ operators .equality)
    (hl : ExprTyped Φ Γ (.expr l cl)) (hr : ExprTyped Φ Γ (.expr r cr))
    (htype : cr.note.compatible cl.note) :
    ExprTyped Φ Γ (.expr (.binary pos op l r) (.binary .bool op cl cr))
  | logical (pos : Pos) {op l r cl cr} (hop : op ∈ operators .logical)
    (hl : ExprTyped Φ Γ (.expr l cl)) (hr : ExprTyped Φ Γ (.expr r cr))
    (hltype : cl.note.compatible .bool) (hrtype : cr.note.compatible .bool) :
    ExprTyped Φ Γ (.expr (.binary pos op l r) (.binary .bool op cl cr))
  | call (pos : Pos) {name args cs f} (hargs : ExprTyped Φ Γ (.exprs args cs))
    (hchosen : Chosen Φ name (cs.map Expr.note) f) :
    ExprTyped Φ Γ (.expr (.call pos name args) (.call f.ret f.label cs))
  -- A pair keeps nothing of the type of a pair that is put into it.
  | newPair (pos : Pos) {fst snd cf cs} (hfst : ExprTyped Φ Γ (.expr fst cf))
    (hsnd : ExprTyped Φ Γ (.expr snd cs)) :
    ExprTyped Φ Γ
      (.expr (.newPair pos fst snd) (.newPair (.pair cf.note.erased cs.note.erased) cf cs))
  | emptyArray (pos : Pos) : ExprTyped Φ Γ (.expr (.array pos []) (.array (.array none 1) []))
  | array (pos : Pos) {first others c cs} (hfirst : ExprTyped Φ Γ (.expr first c))
    (hothers : ExprTyped Φ Γ (.exprs others cs)) (hsame : ∀ c' ∈ cs, c'.note.compatible c.note) :
    ExprTyped Φ Γ (.expr (.array pos (first :: others)) (.array (.arrayOf c.note) (c :: cs)))
  | nil : ExprTyped Φ Γ (.exprs [] [])
  | cons {e es c cs} (he : ExprTyped Φ Γ (.expr e c)) (hes : ExprTyped Φ Γ (.exprs es cs)) :
    ExprTyped Φ Γ (.exprs (e :: es) (c :: cs))

/-- A statement is well typed in a function with result type `ret`, or in the body of the program if
there is none. A declaration adds to the innermost scope, and a block has a scope of its own. -/
inductive StmtTyped (Φ : List Header) (ret : Option Ty) :
    Scopes → Source.Stmt → Checked.Stmt → Scopes → Prop
  | skip (pos : Pos) {Γ} : StmtTyped Φ ret Γ (.skip pos) (.skip ()) Γ
  | declare (pos : Pos) {scope outer written name init c}
    (hinit : ExprTyped Φ (scope :: outer) (.expr init c)) (htype : c.note.compatible (.ofExpr written))
    (hnew : ∀ type, (name, type) ∉ scope) :
    StmtTyped Φ ret (scope :: outer) (.declare pos written name init)
      (.declare () (.ofExpr written) name c) (((name, .ofExpr written) :: scope) :: outer)
  | assign (pos : Pos) {Γ dst src cd cs} (hdst : ExprTyped Φ Γ (.expr dst cd))
    (hsrc : ExprTyped Φ Γ (.expr src cs)) (htype : cs.note.compatible cd.note) :
    StmtTyped Φ ret Γ (.assign pos dst src) (.assign () cd cs) Γ
  | read (pos : Pos) {Γ target c} (htarget : ExprTyped Φ Γ (.expr target c))
    (htype : c.note = .int ∨ c.note = .char) :
    StmtTyped Φ ret Γ (.read pos target) (.read () c) Γ
  | freePair (pos : Pos) {Γ e c fst snd} (he : ExprTyped Φ Γ (.expr e c))
    (htype : c.note = .pair fst snd) : StmtTyped Φ ret Γ (.free pos e) (.free () c) Γ
  -- The alias `string` does not count as an array here.
  | freeArray (pos : Pos) {Γ e c elem dims} (he : ExprTyped Φ Γ (.expr e c))
    (htype : c.note = .array elem dims) : StmtTyped Φ ret Γ (.free pos e) (.free () c) Γ
  | ret (pos : Pos) {Γ e c type} (hret : ret = some type) (he : ExprTyped Φ Γ (.expr e c))
    (htype : c.note.compatible type) : StmtTyped Φ ret Γ (.ret pos e) (.ret () c) Γ
  | exit (pos : Pos) {Γ e c} (he : ExprTyped Φ Γ (.expr e c)) (htype : c.note.compatible .int) :
    StmtTyped Φ ret Γ (.exit pos e) (.exit () c) Γ
  | print (pos : Pos) {Γ e c newline} (he : ExprTyped Φ Γ (.expr e c)) :
    StmtTyped Φ ret Γ (.print pos e newline) (.print () c newline) Γ
  | branch (pos : Pos) {Γ cond yes no c cy cn Γy Γn} (hcond : ExprTyped Φ Γ (.expr cond c))
    (htype : c.note.compatible .bool) (hyes : StmtTyped Φ ret ([] :: Γ) yes cy Γy)
    (hno : StmtTyped Φ ret ([] :: Γ) no cn Γn) :
    StmtTyped Φ ret Γ (.branch pos cond yes no) (.branch () c cy cn) Γ
  | loop (pos : Pos) {Γ cond body c cb Γ'} (hcond : ExprTyped Φ Γ (.expr cond c))
    (htype : c.note.compatible .bool) (hbody : StmtTyped Φ ret ([] :: Γ) body cb Γ') :
    StmtTyped Φ ret Γ (.loop pos cond body) (.loop () c cb) Γ
  | scope (pos : Pos) {Γ body cb Γ'} (hbody : StmtTyped Φ ret ([] :: Γ) body cb Γ') :
    StmtTyped Φ ret Γ (.scope pos body) (.scope () cb) Γ
  | seqNil (pos : Pos) {Γ} : StmtTyped Φ ret Γ (.seq pos []) (.seq () []) Γ
  | seqCons (pos : Pos) {Γ s ss c cs Γ₁ Γ₂} (hfirst : StmtTyped Φ ret Γ s c Γ₁)
    (hothers : StmtTyped Φ ret Γ₁ (.seq pos ss) (.seq () cs) Γ₂) :
    StmtTyped Φ ret Γ (.seq pos (s :: ss)) (.seq () (c :: cs)) Γ₂

/-- The parameters of a function as they are declared. -/
def typedParams (f : Source.Func) : List Checked.Param :=
  f.params.map fun param => ⟨param.name, .ofExpr param.type⟩

/-- The scope that a body starts in, with its parameters. -/
def paramVars (params : List Checked.Param) : Vars :=
  (params.map fun param => (param.name, param.type)).reverse

/-- A function is well typed: its parameters have different names and are in one scope with its body. -/
inductive FuncTyped (Φ : List Header) (f : Source.Func) (label : String) : Checked.Func → Prop
  | mk {c Γ} (hparams : (f.params.map Source.Param.name).Nodup)
    (hbody : StmtTyped Φ (some (.ofExpr f.ret)) [paramVars (typedParams f)] f.body c Γ) :
    FuncTyped Φ f label ⟨f.name, label, typedParams f, .ofExpr f.ret, c⟩

/-- No two functions share a name and take the same arguments. -/
def DistinctHeaders (Φ : List Header) : Prop := Φ.Pairwise fun f g => ¬ f.Accepts g.name g.params

/-- A program is well typed, and `c` is the program with its types. -/
structure ProgramTyped (p : Source.Program) (c : Checked.Program) : Prop where
  distinct : DistinctHeaders (headers p)
  funcs : List.Forall₂ (fun f cf => FuncTyped (headers p) f.1 f.2 cf)
    (p.funcs.zip (Checker.labels p.funcs)) c.funcs
  body : ∃ Γ, StmtTyped (headers p) none [[]] p.body c.body Γ

end WaccArm.Typing
