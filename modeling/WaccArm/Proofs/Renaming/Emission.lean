import WaccArm.Proofs.Checker.Scoping
import WaccArm.Proofs.Renaming.Typing

namespace WaccArm

/-- Names that are kept apart lead to the same declarations. -/
theorem Scope.decls_rename {δ : Type} {v : String → String} (hv : v.Injective) (scope : Scope δ)
    (name : String) : (scope.rename v).decls (v name) = scope.decls name := by
  have hsame : (fun binding : String × δ => binding.1 == v name) ∘ Prod.map v id =
      fun binding => binding.1 == name := by
    funext binding
    simp [hv.eq_iff]
  rw [decls, rename, List.filter_map, hsame, List.map_map]
  rfl

/-- Looking up a new name finds what the old one found. -/
theorem Chain.lookup?_rename {δ : Type} {v : String → String} (hv : v.Injective) (chain : Chain δ)
    (name : String) (accept : δ → Bool) :
    (chain.rename v).lookup? (v name) accept = chain.lookup? name accept := by
  have hscope : (fun scope : Scope δ => scope.lookup? (v name) accept) ∘ Scope.rename v =
      fun scope => scope.lookup? name accept := by
    funext scope
    rw [Function.comp_apply, Scope.lookup?, Scope.decls_rename hv, Scope.lookup?]
  rw [lookup?, rename, List.findSome?_map, hscope, lookup?]

/-- The fault with another name for the variable that it names. -/
def EmitFault.rename (v : String → String) : EmitFault → EmitFault
  | unbound name => .unbound (v name)
  | unresolved labels => .unresolved labels

namespace Emit

variable {α β γ δ : Type} (v : String → String)

/-- Making code that gives `g a` for `a` and names another variable if it fails. -/
def rename (g : α → β) (x : Emit α) : Emit β := fun em =>
  match x em with
  | .ok (a, em') => .ok (g a, em')
  | .error fault => .error (fault.rename v)

variable {v}

/-- What goes on step by step under other names goes on as a whole. -/
theorem bind_rename {g : α → β} {h : γ → δ} {x : Emit α} {x' : Emit β} {f : α → Emit γ} {f' : β → Emit δ}
    (hx : x' = x.rename v g) (hf : ∀ a, f' (g a) = (f a).rename v h) :
    (x' >>= f') = (x >>= f).rename v h := by
  subst hx
  funext em
  change (x.rename v g em >>= fun r => f' r.1 r.2) = rename v h (fun em => x em >>= fun r => f r.1 r.2) em
  rw [rename, rename]
  cases x em with
  | error fault => rfl
  | ok r => exact congrFun (hf r.1) r.2

end Emit

namespace Emission

open Emit (bind_rename)

variable {v : String → String}

/-- The same slots under other names. -/
def Context.rename (v : String → String) (ctx : Context) : Context := { ctx with slots := ctx.slots.rename v }

/-- A variable has its slot under any name. -/
theorem slot_rename (hv : v.Injective) (ctx : Context) (name : String) :
    (ctx.rename v).slot (v name) = (ctx.slot name).rename v id := by
  rw [Context.slot, Context.slot, Context.rename, Chain.lookup?_rename hv]
  cases ctx.slots.lookup? name fun _ => true <;> rfl

theorem unary_rename (op : UnaryOp) (reg : Register) : unary op reg = (unary op reg).rename v id := by
  cases op <;> rfl

theorem binary_rename (op : BinaryOp) (d : Depth) : binary op d = (binary op d).rename v id := by
  cases op <;> rfl

/-- Sizes of arguments do not depend on names. -/
theorem argBytes_rename (es : List Checked.Expr) : argBytes (Expr.renameAll v id es) = argBytes es := by
  induction es with
  | nil => rfl
  | cons e es ih => rw [Expr.renameAll, argBytes, argBytes, ih, Expr.note_rename]

theorem elemSize_rename (es : List Checked.Expr) : elemSize (Expr.renameAll v id es) = elemSize es := by
  cases es with
  | nil => rfl
  | cons e es => rw [Expr.renameAll, elemSize, elemSize, Expr.note_rename]

theorem isEmpty_rename (es : List Checked.Expr) : (Expr.renameAll v id es).isEmpty = es.isEmpty := by
  cases es <;> rfl

theorem operand_rename {eval eval' : Context → Depth → Emit (List Instr)}
    (h : ∀ ctx d, eval' (ctx.rename v) d = (eval ctx d).rename v id) (ctx : Context) (d : Depth) :
    operand eval' (ctx.rename v) d = (operand eval ctx d).rename v id := by
  rw [operand, operand]
  split
  · exact bind_rename (h (ctx.push 4) d) fun code => rfl
  · exact h ctx d.next

mutual

/-- An expression has the same code under other names. -/
theorem expr_rename (hv : v.Injective) (e : Checked.Expr) (ctx : Context) (d : Depth) :
    expr (e.rename v id) (ctx.rename v) d = (expr e ctx d).rename v id := by
  cases e with
  | int | bool | char | str | null => rfl
  | var type name =>
    rw [Expr.rename, expr, expr]
    exact bind_rename (slot_rename hv ctx name) fun slot => rfl
  | elem type name indices =>
    rw [Expr.rename, expr, expr]
    refine bind_rename (slot_rename hv ctx name) fun slot => ?_
    exact bind_rename (selections_rename hv type.size indices ctx d) fun code => rfl
  | side type which pair =>
    rw [Expr.rename, expr, expr]
    refine bind_rename (expr_rename hv pair ctx d) fun code => ?_
    exact bind_rename (g := id) rfl fun check => rfl
  | unary type op operand =>
    rw [Expr.rename, expr, expr]
    refine bind_rename (expr_rename hv operand ctx d) fun code => ?_
    exact bind_rename (unary_rename op d.reg) fun applied => rfl
  | binary type op left right =>
    rw [Expr.rename, expr, expr]
    refine bind_rename (expr_rename hv left ctx d) fun l => ?_
    refine bind_rename (operand_rename (expr_rename hv right) ctx d) fun r => ?_
    exact bind_rename (binary_rename op d) fun applied => rfl
  | call type label args =>
    rw [Expr.rename, expr, expr, argBytes_rename]
    exact bind_rename (pushArgs_rename hv args (ctx.push _) d) fun code => rfl
  | newPair type fst snd =>
    rw [Expr.rename, expr, expr, Expr.note_rename, Expr.note_rename]
    refine bind_rename (operand_rename (expr_rename hv fst) ctx d) fun f => ?_
    exact bind_rename (operand_rename (expr_rename hv snd) ctx d) fun s => rfl
  | array type elems =>
    rw [Expr.rename, expr, expr, elemSize_rename, Expr.renameAll_eq_map, List.length_map,
      ← Expr.renameAll_eq_map]
    exact bind_rename (elements_rename hv _ 4 elems ctx d) fun code => rfl

theorem selections_rename (hv : v.Injective) (size : Nat) (indices : List Checked.Expr) (ctx : Context)
    (d : Depth) :
    selections size (Expr.renameAll v id indices) (ctx.rename v) d =
      (selections size indices ctx d).rename v id := by
  cases indices with
  | nil => rfl
  | cons index indices =>
    rw [Expr.renameAll, selections, selections, isEmpty_rename]
    refine bind_rename (operand_rename (expr_rename hv index) ctx d) fun code => ?_
    refine bind_rename (g := id) rfl fun selected => ?_
    exact bind_rename (selections_rename hv size indices ctx d) fun codes => rfl

theorem pushArgs_rename (hv : v.Injective) (args : List Checked.Expr) (ctx : Context) (d : Depth) :
    pushArgs (Expr.renameAll v id args) (ctx.rename v) d = (pushArgs args ctx d).rename v id := by
  cases args with
  | nil => rfl
  | cons arg args =>
    rw [Expr.renameAll, pushArgs, pushArgs, argBytes_rename, Expr.note_rename]
    refine bind_rename (pushArgs_rename hv args ctx d) fun others => ?_
    exact bind_rename (expr_rename hv arg (ctx.push _) d) fun code => rfl

theorem elements_rename (hv : v.Injective) (size offset : Nat) (elems : List Checked.Expr) (ctx : Context)
    (d : Depth) :
    elements size offset (Expr.renameAll v id elems) (ctx.rename v) d =
      (elements size offset elems ctx d).rename v id := by
  cases elems with
  | nil => rfl
  | cons elem elems =>
    rw [Expr.renameAll, elements, elements]
    refine bind_rename (operand_rename (expr_rename hv elem) ctx d) fun code => ?_
    exact bind_rename (elements_rename hv size (offset + size) elems ctx d) fun codes => rfl

end

/-- A place has the same address under other names. -/
theorem address_rename (hv : v.Injective) (target : Checked.Expr) (ctx : Context) (d : Depth) :
    address (target.rename v id) (ctx.rename v) d = (address target ctx d).rename v id := by
  cases target with
  | elem type name indices =>
    rw [Expr.rename, address, address]
    refine bind_rename (slot_rename hv ctx name) fun slot => ?_
    exact bind_rename (selections_rename hv type.size indices ctx d) fun code => rfl
  | side type which pair =>
    rw [Expr.rename, address, address]
    refine bind_rename (expr_rename hv pair ctx d) fun code => ?_
    exact bind_rename (g := id) rfl fun check => rfl
  | var type name =>
    rw [Expr.rename, address, address]
    exact bind_rename (slot_rename hv ctx name) fun slot => rfl
  | _ => exact expr_rename hv _ ctx d

theorem assign_rename (hv : v.Injective) (dst : Checked.Expr) (ctx : Context) (d : Depth) :
    assign (dst.rename v id) (ctx.rename v) d = (assign dst ctx d).rename v id := by
  cases dst with
  | var type name =>
    rw [Expr.rename, assign, assign]
    exact bind_rename (slot_rename hv ctx name) fun slot => rfl
  | _ => exact bind_rename (address_rename hv _ ctx d.next) fun code => rfl

theorem argument_rename (hv : v.Injective) (e : Checked.Expr) (ctx : Context) :
    argument (e.rename v id) (ctx.rename v) = (argument e ctx).rename v id :=
  bind_rename (expr_rename hv e ctx .top) fun _ => rfl

mutual

/-- The variables of a block need the same bytes. -/
theorem blockSize_rename (s : Checked.Stmt) : blockSize (s.rename v id) = blockSize s := by
  cases s with
  | seq mark items => rw [Stmt.rename, blockSize, blockSize, blockSizeAll_rename items]
  | _ => rfl

theorem blockSizeAll_rename (ss : List Checked.Stmt) :
    blockSizeAll (Stmt.renameAll v id ss) = blockSizeAll ss := by
  cases ss with
  | nil => rfl
  | cons s ss =>
    rw [Stmt.renameAll, blockSizeAll, blockSizeAll, blockSize_rename s, blockSizeAll_rename ss]

end

/-- Code and the context behind it under other names. -/
abbrev behind (v : String → String) : Code × Context → Code × Context := Prod.map id (Context.rename v)

/-- A block is the same if its body is. -/
theorem block_rename {body body' : Context → Emit (Code × Context)}
    (h : ∀ ctx, body' (ctx.rename v) = (body ctx).rename v (behind v)) (size : Nat) (ctx : Context) :
    block size body' (ctx.rename v) = (block size body ctx).rename v id :=
  bind_rename (h ⟨ctx.slots.enter, (ctx.frame.enter size).2⟩) fun _ => rfl

mutual

/-- A statement has the same code under other names. -/
theorem stmt_rename (hv : v.Injective) (s : Checked.Stmt) (ctx : Context) :
    stmt (s.rename v id) (ctx.rename v) = (stmt s ctx).rename v (behind v) := by
  cases s with
  | skip => rfl
  | declare mark type name init =>
    rw [Stmt.rename, stmt, stmt]
    refine bind_rename (expr_rename hv init ctx .top) fun code => ?_
    have hslots := Chain.bind_rename v ctx.slots name (ctx.frame.declare type.size).1
    simp only [Context.rename, hslots]
    rfl
  | assign mark dst src =>
    rw [Stmt.rename, stmt, stmt]
    refine bind_rename (expr_rename hv src ctx .top) fun code => ?_
    exact bind_rename (assign_rename hv dst ctx .top) fun stored => rfl
  | read mark target =>
    rw [Stmt.rename, stmt, stmt, Expr.note_rename]
    refine bind_rename (address_rename hv target ctx .top) fun code => ?_
    exact bind_rename (g := id) rfl fun call => rfl
  | free mark e =>
    rw [Stmt.rename, stmt, stmt, Expr.note_rename]
    refine bind_rename (argument_rename hv e ctx) fun code => ?_
    exact bind_rename (g := id) rfl fun call => rfl
  | ret mark e =>
    rw [Stmt.rename, stmt, stmt]
    exact bind_rename (argument_rename hv e ctx) fun code => rfl
  | exit mark e =>
    rw [Stmt.rename, stmt, stmt]
    exact bind_rename (argument_rename hv e ctx) fun code => rfl
  | print mark e newline =>
    rw [Stmt.rename, stmt, stmt, Expr.note_rename]
    refine bind_rename (argument_rename hv e ctx) fun code => ?_
    refine bind_rename (g := id) rfl fun call => ?_
    cases newline <;> rfl
  | branch mark cond yes no =>
    rw [Stmt.rename, stmt, stmt, blockSize_rename, blockSize_rename]
    refine bind_rename (g := id) rfl fun otherwise => ?_
    refine bind_rename (g := id) rfl fun done => ?_
    refine bind_rename (expr_rename hv cond ctx .top) fun test => ?_
    refine bind_rename (block_rename (stmt_rename hv yes) _ ctx) fun y => ?_
    exact bind_rename (block_rename (stmt_rename hv no) _ ctx) fun n => rfl
  | loop mark cond body =>
    rw [Stmt.rename, stmt, stmt, blockSize_rename]
    refine bind_rename (g := id) rfl fun check => ?_
    refine bind_rename (g := id) rfl fun start => ?_
    refine bind_rename (block_rename (stmt_rename hv body) _ ctx) fun b => ?_
    exact bind_rename (expr_rename hv cond ctx .top) fun test => rfl
  | scope mark body =>
    rw [Stmt.rename, stmt, stmt, blockSize_rename]
    exact bind_rename (block_rename (stmt_rename hv body) _ ctx) fun code => rfl
  | seq mark items =>
    rw [Stmt.rename, stmt, stmt]
    exact stmtList_rename hv items ctx

theorem stmtList_rename (hv : v.Injective) (ss : List Checked.Stmt) (ctx : Context) :
    stmtList (Stmt.renameAll v id ss) (ctx.rename v) = (stmtList ss ctx).rename v (behind v) := by
  cases ss with
  | nil => rfl
  | cons s ss =>
    rw [Stmt.renameAll, stmtList, stmtList]
    refine bind_rename (stmt_rename hv s ctx) fun ⟨code, inner⟩ => ?_
    exact bind_rename (stmtList_rename hv ss inner) fun _ => rfl

end

theorem foldl_bind_rename (bound : List (Checked.Param × Slot)) (slots : Chain Slot) :
    (bound.map (Prod.map (Checked.Param.rename v) id)).foldl
        (fun slots param => slots.bind param.1.name param.2) (slots.rename v) =
      (bound.foldl (fun slots param => slots.bind param.1.name param.2) slots).rename v := by
  induction bound generalizing slots with
  | nil => rfl
  | cons param bound ih =>
    have hfirst := Chain.bind_rename v slots param.1.name param.2
    rw [List.map_cons, List.foldl_cons, List.foldl_cons, ← ih, ← hfirst]
    rfl

/-- Parameters keep their slots. -/
theorem paramSlots_rename (params : List Checked.Param) :
    paramSlots (params.map (.rename v)) = (paramSlots params).rename v := by
  rw [paramSlots, paramSlots, List.map_map, List.zip_map_left]
  exact foldl_bind_rename _ (Chain.enter [])

/-- A function has the same code under other names. -/
theorem func_rename (hv : v.Injective) (f : Checked.Func) : func (f.rename v id) = (func f).rename v id := by
  rw [Checked.Func.rename, func, func, blockSize_rename, List.length_map, paramSlots_rename]
  refine bind_rename (g := id) rfl fun _ => ?_
  exact bind_rename (block_rename (stmt_rename hv f.body) _ { slots := paramSlots f.params }) fun _ => rfl

theorem funcs_rename (hv : v.Injective) (fs : List Checked.Func) :
    funcs (fs.map (.rename v id)) = (funcs fs).rename v id := by
  induction fs with
  | nil => rfl
  | cons f fs ih =>
    rw [List.map_cons, funcs, funcs]
    refine bind_rename (func_rename hv f) fun code => ?_
    exact bind_rename ih fun codes => rfl

theorem main_rename (hv : v.Injective) (body : Checked.Stmt) :
    main (body.rename v id) = (main body).rename v id := by
  rw [main, main, blockSize_rename]
  refine bind_rename (g := id) rfl fun _ => ?_
  exact bind_rename (block_rename (stmt_rename hv body) _ {}) fun _ => rfl

/-- A program has the same code under other names. -/
theorem program_rename (hv : v.Injective) (p : Checked.Program) :
    program (p.rename v id) = (program p).rename v id := by
  rw [Checked.Program.rename, program, program]
  refine bind_rename (funcs_rename hv p.funcs) fun fs => ?_
  exact bind_rename (main_rename hv p.body) fun body => rfl

end Emission

/-- The file that is made for a program does not depend on the names of its variables. -/
theorem generate_rename {v : String → String} (hv : v.Injective) (p : Checked.Program) :
    generate (p.rename v id) = (generate p).mapError (.rename v) := by
  have hrun : (Emission.program (p.rename v id)).run {} = ((Emission.program p).rename v id).run {} := by
    rw [Emission.program_rename hv]
  rw [generate, generate, generateLogged, generateLogged, hrun]
  -- What follows the run only looks at the code and the state, which are the same.
  change (((Emission.program p).rename v id {}) >>= _).map Prod.fst = _
  rw [Emit.rename]
  change _ = (((Emission.program p {}) >>= _).map Prod.fst).mapError _
  cases Emission.program p {} with
  | error fault => rfl
  | ok r =>
    obtain ⟨code, em⟩ := r
    simp only [bind, Except.bind, id]
    split <;> rfl

/-- Names of variables do not matter. A program whose parameters and variables get other names, different
ones for different ones, is accepted if it was accepted before and only then, and the same file is made for
it. -/
theorem generate_of_renamed_variables (p : Source.Program) (ρ : String → String)
    (hρ : Set.InjOn ρ {name | name ∈ p.vars}) :
    ((∃ c, check (p.rename ρ) = .ok c) ↔ ∃ c, check p = .ok c) ∧
      ∀ c c', check p = .ok c → check (p.rename ρ) = .ok c' →
        ∃ file, generate c = .ok file ∧ generate c' = .ok file := by
  -- Only names that stand in the program matter, so the renaming may be taken to be one that can be undone.
  obtain ⟨σ, hσ⟩ := exists_perm_of_injOn hρ
  have hsame : p.rename ρ = p.rename σ := Source.Program.rename_congr fun name hname => (hσ name hname).symm
  rw [hsame]
  refine ⟨⟨?_, ?_⟩, ?_⟩
  · rintro ⟨c, hc⟩
    have hback := check_rename σ.symm.injective hc
    rw [Source.Program.rename_symm] at hback
    exact ⟨_, hback⟩
  · rintro ⟨c, hc⟩
    exact ⟨_, check_rename σ.injective hc⟩
  · intro c c' hc hc'
    obtain rfl : c.rename σ id = c' := Except.ok.inj ((check_rename σ.injective hc).symm.trans hc')
    have hscoped := Checker.program_scoped (Typing.program_eq_ok.2 (Typing.check_eq_ok.1 hc).1)
    obtain ⟨file, hfile⟩ := generate_of_scoped hscoped
    refine ⟨file, hfile, ?_⟩
    rw [generate_rename σ.injective, hfile]
    rfl

namespace Overloaded

/-- Calls `n` as the functions are called, and `c` as `n` was called before. -/
def newName (name : String) : String :=
  if name = "n" then "f" else if name = "c" then "n" else name

/-- The new names are as distinct as the old ones. -/
theorem newName_injOn : Set.InjOn newName {name | name ∈ program.vars} := by
  have happart : ∀ a ∈ program.vars, ∀ b ∈ program.vars, newName a = newName b → a = b := by
    decide +kernel
  exact fun a ha b hb => happart a ha b hb

end Overloaded

/-- The theorem above at a program with overloads. -/
theorem generate_overloaded_renamed : ∃ c c' file, check Overloaded.program = .ok c ∧
    check (Overloaded.program.rename Overloaded.newName) = .ok c' ∧
    generate c = .ok file ∧ generate c' = .ok file := by
  obtain ⟨haccepted, hfiles⟩ := generate_of_renamed_variables _ _ Overloaded.newName_injOn
  obtain ⟨c, hc⟩ := Overloaded.accepted
  obtain ⟨c', hc'⟩ := haccepted.2 ⟨c, hc⟩
  obtain ⟨file, hfile, hfile'⟩ := hfiles c c' hc hc'
  exact ⟨c, c', file, hc, hc', hfile, hfile'⟩

end WaccArm
