import Mathlib.Logic.Relation
import WaccArm.Checker.Program
import WaccArm.Proofs.Emission.Labels
import WaccArm.Proofs.Scalar.Layout

namespace WaccArm

/-- A turn on the way from a statement to one inside it. -/
inductive Turn where
  | yes | no | body | first | rest
deriving DecidableEq

/-- The statement behind a turn. The rest of a sequence is again a sequence. -/
def Stmt.turn? {α σ τ : Type} : Stmt α σ τ → Turn → Option (Stmt α σ τ)
  | .branch _ _ yes _, .yes => some yes
  | .branch _ _ _ no, .no => some no
  | .loop _ _ body, .body | .scope _ body, .body => some body
  | .seq _ (s :: _), .first => some s
  | .seq mark (_ :: ss), .rest => some (.seq mark ss)
  | _, _ => none

/-- The statement at the end of a way. -/
def Stmt.at? {α σ τ : Type} (s : Stmt α σ τ) (way : List Turn) : Option (Stmt α σ τ) :=
  way.foldlM turn? s

theorem Stmt.at?_concat {α σ τ : Type} {s t u : Stmt α σ τ} {way : List Turn} {turn : Turn}
    (h : s.at? way = some t) (hturn : t.turn? turn = some u) : s.at? (way ++ [turn]) = some u := by
  rw [at?] at h ⊢
  rw [List.foldlM_append, h]
  simpa using hturn

namespace Variables

open Emission

/-- Where a variable is declared: as a parameter, or by the statement at the end of a way. -/
inductive Site where
  | param (i : Nat)
  | decl (way : List Turn)
deriving DecidableEq

/-- A declaration with its type and the slot that was given out for it. -/
structure Variable where
  site : Site
  name : String
  type : Ty
  slot : Slot

/-- The declaration of a variable stands at its site. -/
def Variable.DeclaredIn (params : List Source.Param) (body : Source.Stmt) (v : Variable) : Prop :=
  match v.site with
  | .param i => ∃ param, params[i]? = some param ∧ param.name = v.name ∧ Ty.ofExpr param.type = v.type
  | .decl way => ∃ pos written init,
    body.at? way = some (.declare pos written v.name init) ∧ Ty.ofExpr written = v.type

/-- The variables of parameters from the `i`-th one on, which stands `above` the entry point. -/
def paramVariablesFrom (i : Nat) (above : Int) : List Checked.Param → List Variable
  | [] => []
  | param :: params =>
    ⟨.param i, param.name, param.type, ⟨-above, param.type.size⟩⟩ ::
      paramVariablesFrom (i + 1) (above + param.type.size) params

/-- The variables of parameters, the last one first. -/
def paramVariables (params : List Checked.Param) : List Variable :=
  (paramVariablesFrom 0 4 params).reverse

mutual

/-- The variables that a statement declares in the block that it stands in, the newest first. -/
def opened (way : List Turn) (frame : Frame) : Checked.Stmt → List Variable
  | .declare _ type name _ => [⟨.decl way, name, type, (frame.declare type.size).1⟩]
  | .seq _ items => openedAll way frame items
  | _ => []

def openedAll (way : List Turn) (frame : Frame) : List Checked.Stmt → List Variable
  | [] => []
  | c :: cs =>
    openedAll (way ++ [.rest]) (frame.advance (blockSize c)) cs ++ opened (way ++ [.first]) frame c

end

/-- The bytes that are put on the stack next. -/
def pushed (ctx : Context) (bytes : Nat) : Slot := ⟨ctx.frame.displacement + bytes, bytes⟩

/-- The bytes of arguments that were put on the stack, the last argument first. -/
def pushedArgs (ctx : Context) : List Checked.Expr → List Slot
  | [] => []
  | arg :: args => pushed (ctx.push (argBytes args)) arg.note.size :: pushedArgs ctx args

/-- Code is being made for a part of an expression, and some bytes on the stack wait to be used. -/
structure Moment where
  part : Part
  ctx : Context
  depth : Depth
  waiting : List Slot

/-- The parts for which code is made on the way, in the contexts they are given: an operand may spill a
register, a call saves registers and puts its arguments on the stack, the last one first. -/
inductive Moment.Inner : Moment → Moment → Prop
  | elem {ctx d w name indices} {type : Ty} :
    Inner ⟨.expr (.elem type name indices), ctx, d, w⟩ ⟨.selections type.size indices, ctx, d, w⟩
  | side {ctx d w pair} {type : Ty} {which : Side} :
    Inner ⟨.expr (.side type which pair), ctx, d, w⟩ ⟨.expr pair, ctx, d, w⟩
  | unary {ctx d w e} {type : Ty} {op : UnaryOp} :
    Inner ⟨.expr (.unary type op e), ctx, d, w⟩ ⟨.expr e, ctx, d, w⟩
  | left {ctx d w l r} {type : Ty} {op : BinaryOp} :
    Inner ⟨.expr (.binary type op l r), ctx, d, w⟩ ⟨.expr l, ctx, d, w⟩
  | right {ctx d w l r} {type : Ty} {op : BinaryOp} :
    Inner ⟨.expr (.binary type op l r), ctx, d, w⟩ ⟨.operand r, ctx, d, w⟩
  | call {ctx d w label args} {type : Ty} :
    Inner ⟨.expr (.call type label args), ctx, d, w⟩
      ⟨.args args, ctx.push (4 * d.live.length), d, pushed ctx (4 * d.live.length) :: w⟩
  | fst {ctx d w fst snd} {type : Ty} :
    Inner ⟨.expr (.newPair type fst snd), ctx, d, w⟩ ⟨.operand fst, ctx, d, w⟩
  | snd {ctx d w fst snd} {type : Ty} :
    Inner ⟨.expr (.newPair type fst snd), ctx, d, w⟩ ⟨.operand snd, ctx, d, w⟩
  | array {ctx d w elems} {type : Ty} :
    Inner ⟨.expr (.array type elems), ctx, d, w⟩ ⟨.elements (elemSize elems) 4 elems, ctx, d, w⟩
  | spilled {ctx d w e} (hlast : d.exhausted = true) :
    Inner ⟨.operand e, ctx, d, w⟩ ⟨.expr e, ctx.push 4, d, pushed ctx 4 :: w⟩
  | next {ctx d w e} (hmore : d.exhausted = false) :
    Inner ⟨.operand e, ctx, d, w⟩ ⟨.expr e, ctx, d.next, w⟩
  | index {ctx d w size index indices} :
    Inner ⟨.selections size (index :: indices), ctx, d, w⟩ ⟨.operand index, ctx, d, w⟩
  | indices {ctx d w size index indices} :
    Inner ⟨.selections size (index :: indices), ctx, d, w⟩ ⟨.selections size indices, ctx, d, w⟩
  | laterArgs {ctx d w arg args} : Inner ⟨.args (arg :: args), ctx, d, w⟩ ⟨.args args, ctx, d, w⟩
  | arg {ctx d w arg args} :
    Inner ⟨.args (arg :: args), ctx, d, w⟩
      ⟨.expr arg, ctx.push (argBytes args), d, pushedArgs ctx args ++ w⟩
  -- All arguments are on the stack, and the function is called.
  | called {ctx d w args} :
    Inner ⟨.args args, ctx, d, w⟩ ⟨.args [], ctx.push (argBytes args), d, pushedArgs ctx args ++ w⟩
  | element {ctx d w size offset elem elems} :
    Inner ⟨.elements size offset (elem :: elems), ctx, d, w⟩ ⟨.operand elem, ctx, d, w⟩
  | elements {ctx d w size offset elem elems} :
    Inner ⟨.elements size offset (elem :: elems), ctx, d, w⟩
      ⟨.elements size (offset + size) elems, ctx, d, w⟩

/-- The variable that is looked up first when code is made for a part. -/
def Moment.use? (m : Moment) : Option String :=
  match m.part with
  | .expr e => e.named?
  | _ => none

/-- The expressions of a statement itself, with the depths at which they are evaluated. A place that is
assigned to is found while the value is in the first register. -/
def ownExprs : Checked.Stmt → List (Checked.Expr × Depth)
  | .declare _ _ _ e | .read _ e | .free _ e | .ret _ e | .exit _ e | .print _ e _ => [(e, .top)]
  | .assign _ dst src => [(src, .top), (dst, Depth.top.next)]
  | .branch _ cond _ _ | .loop _ cond _ => [(cond, .top)]
  | .skip _ | .scope _ _ | .seq _ _ => []

/-- A statement of a body, before and after it was checked, with the environment of the checker and the
context of code generation in front of it, the variables that were declared and not yet left, and the
bodies of the blocks around it. -/
structure Spot where
  way : List Turn
  source : Source.Stmt
  checked : Checked.Stmt
  env : Env
  ctx : Context
  vars : List Variable
  blocks : List Checked.Stmt

/-- The statements inside a statement. Behind the first of some statements, the checker and code
generation go on with what they have made of it. -/
inductive Spot.Inner (ret : Option Ty) : Spot → Spot → Prop
  | yes {way pos cond yes no c cy cn env ctx vars blocks} :
    Inner ret ⟨way, .branch pos cond yes no, .branch () c cy cn, env, ctx, vars, blocks⟩
      ⟨way ++ [.yes], yes, cy, env.enter, ctx.inside (blockSize cy), vars, cy :: blocks⟩
  | no {way pos cond yes no c cy cn env ctx vars blocks} :
    Inner ret ⟨way, .branch pos cond yes no, .branch () c cy cn, env, ctx, vars, blocks⟩
      ⟨way ++ [.no], no, cn, env.enter, ctx.inside (blockSize cn), vars, cn :: blocks⟩
  | loop {way pos cond body c cb env ctx vars blocks} :
    Inner ret ⟨way, .loop pos cond body, .loop () c cb, env, ctx, vars, blocks⟩
      ⟨way ++ [.body], body, cb, env.enter, ctx.inside (blockSize cb), vars, cb :: blocks⟩
  | scope {way pos body cb env ctx vars blocks} :
    Inner ret ⟨way, .scope pos body, .scope () cb, env, ctx, vars, blocks⟩
      ⟨way ++ [.body], body, cb, env.enter, ctx.inside (blockSize cb), vars, cb :: blocks⟩
  | first {way pos s ss c cs env ctx vars blocks} :
    Inner ret ⟨way, .seq pos (s :: ss), .seq () (c :: cs), env, ctx, vars, blocks⟩
      ⟨way ++ [.first], s, c, env, ctx, vars, blocks⟩
  | rest {way pos s ss c cs env ctx vars blocks env' em code ctx' em'}
    (hcheck : Checker.stmt ret s env = .ok (c, env')) (hemit : stmt c ctx em = .ok ((code, ctx'), em')) :
    Inner ret ⟨way, .seq pos (s :: ss), .seq () (c :: cs), env, ctx, vars, blocks⟩
      ⟨way ++ [.rest], .seq pos ss, .seq () cs, env', ctx',
        opened (way ++ [.first]) ctx.frame c ++ vars, blocks⟩

/-- What is known at a point: the environment of the checker, the context of code generation, the
variables that were declared and not yet left, what waits on the stack, and the variable that is used. -/
structure Scene where
  env : Env
  ctx : Context
  vars : List Variable
  waiting : List Slot
  use : Option String

/-- The points of a statement that are not inside another statement: in front of it, inside one of its
expressions, and behind it. -/
inductive Spot.Shows (ret : Option Ty) (spot : Spot) : Scene → Prop
  | before : Shows ret spot ⟨spot.env, spot.ctx, spot.vars, [], none⟩
  | during {e d m} (hown : (e, d) ∈ ownExprs spot.checked)
    (hinner : Relation.ReflTransGen Moment.Inner ⟨.expr e, spot.ctx, d, []⟩ m) :
    Shows ret spot ⟨spot.env, m.ctx, spot.vars, m.waiting, m.use?⟩
  | after {env' em code ctx' em'} (hcheck : Checker.stmt ret spot.source spot.env = .ok (spot.checked, env'))
    (hemit : stmt spot.checked spot.ctx em = .ok ((code, ctx'), em')) :
    Shows ret spot ⟨env', ctx', opened spot.way spot.ctx.frame spot.checked ++ spot.vars, [], none⟩

/-- A body of a program, before and after it was checked, with what is known in front of it. -/
structure Body where
  ret : Option Ty
  params : List Source.Param
  source : Source.Stmt
  checked : Checked.Stmt
  env : Env
  slots : Chain Slot
  vars : List Variable

/-- The block of a body. -/
def Body.spot (b : Body) : Spot where
  way := []
  source := b.source
  checked := b.checked
  env := b.env
  ctx := Context.inside { slots := b.slots } (blockSize b.checked)
  vars := b.vars
  blocks := [b.checked]

/-- The bodies of a program: those of its functions, which see their parameters, and the last one. -/
inductive Begins (p : Source.Program) (checked : Checked.Program) : Body → Prop
  | func {globals env} {s : Checker.Signature} {cf : Checked.Func}
    (hglobals : Checker.declareAll (Checker.signatures p) [] = .ok globals)
    (hfunc : (s, cf) ∈ (Checker.signatures p).zip checked.funcs)
    (henv : Checker.declareParams (Chain.enter [globals]) (s.func.params.zip s.params) = .ok env) :
    Begins p checked ⟨some s.ret, s.func.params, s.func.body, cf.body, env, paramSlots cf.params,
      paramVariables cf.params⟩
  | main {globals} (hglobals : Checker.declareAll (Checker.signatures p) [] = .ok globals) :
    Begins p checked ⟨none, [], p.body, checked.body, Chain.enter [globals], [], []⟩

/-- The variables of an environment of the checker with their types, the innermost and newest first. -/
def variablesOf (env : Env) : List (String × Ty) :=
  env.flatten.filterMap fun
    | (name, .variable type) => some (name, type)
    | _ => none

/-- The saved link register, which takes the four bytes at the entry point. -/
def link : Slot := ⟨0, 4⟩

/-- The bytes of a slot are among those reserved for a block. -/
def InBlock (block : Block) (slot : Slot) : Prop :=
  block.start + slot.size ≤ slot.depth ∧ slot.depth ≤ block.start + block.size

/-- The checker and code generation know the same variables: declarations of the body in the same order,
each with the type of the declaration and a slot of its size. -/
structure Matched (b : Body) (env : Env) (slots : Chain Slot) (vars : List Variable) : Prop where
  declared : ∀ v ∈ vars, v.DeclaredIn b.params b.source
  sites : (vars.map Variable.site).Nodup
  checker : variablesOf env = vars.map fun v => (v.name, v.type)
  generator : slots.flatten = vars.map fun v => (v.name, v.slot)
  size : ∀ v ∈ vars, v.slot.size = v.type.size

/-- The slots of a chain lie in the blocks of a frame, scope by scope. The scopes of `outer` are not in
blocks. -/
def Inside (outer slots : Chain Slot) (frame : Frame) : Prop :=
  ∃ scopes, slots = scopes ++ outer ∧
    List.Forall₂ (fun scope block => ∀ x ∈ scope, InBlock block x.2) scopes frame.blocks

/-- The checker and code generation agree on the variables, and nothing on the stack overlaps. -/
structure Scene.Clear (b : Body) (blocks : List Checked.Stmt) (scene : Scene) : Prop where
  matched : Matched b scene.env scene.ctx.slots scene.vars
  /-- A variable that is used is found by both, and is the same for both. -/
  use : ∀ name, scene.use = some name → ∃ v, scene.vars.find? (·.name == name) = some v ∧
    scene.env.lookup? name Decl.isVariable = some (.variable v.type) ∧
    ∀ em, scene.ctx.slot name em = .ok (v.slot, em)
  apart : (scene.waiting ++ (scene.vars.map Variable.slot ++ [link])).Pairwise Slot.Apart
  inside : Inside b.slots scene.ctx.slots scene.ctx.frame
  reserved : scene.ctx.frame.blocks.map Block.size = blocks.map blockSize

/-- The checker accepts a statement where it stands, and code is made for it. -/
structure Spot.Visited (ret : Option Ty) (spot : Spot) : Prop where
  accepted : ∃ env', Checker.stmt ret spot.source spot.env = .ok (spot.checked, env')
  generated : ∀ em, ∃ code ctx' em', stmt spot.checked spot.ctx em = .ok ((code, ctx'), em')

end Variables

end WaccArm
