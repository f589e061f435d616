import WaccArm.Proofs.Emission.Program

namespace WaccArm

/-- The instructions among lines of code. -/
def Code.instrs (code : Code) : List Instr :=
  code.filterMap fun
    | .instr i => some i
    | _ => none

namespace Code

@[simp] theorem instrs_nil : instrs [] = [] := rfl

@[simp] theorem instrs_cons_instr (i : Instr) (code : Code) : instrs (.instr i :: code) = i :: instrs code := rfl

@[simp] theorem instrs_cons_label (name : String) (code : Code) : instrs (.label name :: code) = instrs code := rfl

@[simp] theorem instrs_cons_literalPool (code : Code) : instrs (.literalPool :: code) = instrs code := rfl

@[simp] theorem instrs_append (code code' : Code) : instrs (code ++ code') = instrs code ++ instrs code' :=
  List.filterMap_append

@[simp] theorem instrs_ofInstrs (is : List Instr) : instrs (ofInstrs is) = is := by
  induction is with
  | nil => rfl
  | cons i is ih => rw [ofInstrs_cons, instrs_cons_instr, ih]

end Code

namespace Emission

mutual

/-- A bound on the instructions of an expression. -/
def exprLines : Checked.Expr → Nat
  | .int .. | .bool .. | .char .. | .str .. | .null .. => 1
  | .var .. => 2
  | .elem _ _ indices => linesAll 9 indices + 3
  | .side _ _ pair => exprLines pair + 3
  | .unary _ _ operand => exprLines operand + 2
  | .binary _ _ left right => exprLines left + (exprLines right + 2) + 5
  | .call _ _ args => linesAll 1 args + (Stack.steps (argBytes args)).length + 4
  | .newPair _ fst snd => (exprLines fst + 2) + (exprLines snd + 2) + 9
  | .array _ elems => linesAll 5 elems + 5

/-- A bound on the instructions of expressions, each of which is used with `extra` instructions. -/
def linesAll (extra : Nat) : List Checked.Expr → Nat
  | [] => 0
  | e :: es => exprLines e + extra + linesAll extra es

end

/-- A bound on the instructions of a part of an expression. -/
def Part.lines : Part → Nat
  | .expr e => exprLines e
  | .operand e => exprLines e + 2
  | .selections _ indices => linesAll 9 indices
  | .args es => linesAll 1 es
  | .elements _ _ elems => linesAll 5 elems

/-- A bound on the instructions of a block of `size` bytes around a body with a bound of its own. -/
def blockLines (size body : Nat) : Nat := 2 * (Stack.steps size).length + body

mutual

/-- A bound on the instructions of a statement that starts with the stack pointer `displacement` below the
entry point. -/
def stmtLines (displacement : Int) : Checked.Stmt → Nat
  | .skip _ => 0
  | .declare _ _ _ e | .read _ e | .free _ e | .exit _ e => exprLines e + 2
  | .print _ e _ => exprLines e + 3
  | .assign _ dst src => exprLines src + exprLines dst + 2
  | .ret _ e => exprLines e + (Stack.steps (Word.signed displacement).toNat).length + 2
  | .branch _ cond yes no =>
    exprLines cond + blockLines (blockSize yes) (stmtLines (displacement + blockSize yes) yes)
      + blockLines (blockSize no) (stmtLines (displacement + blockSize no) no) + 3
  | .loop _ cond body =>
    exprLines cond + blockLines (blockSize body) (stmtLines (displacement + blockSize body) body) + 3
  | .scope _ body => blockLines (blockSize body) (stmtLines (displacement + blockSize body) body)
  | .seq _ items => stmtsLines displacement items

def stmtsLines (displacement : Int) : List Checked.Stmt → Nat
  | [] => 0
  | s :: ss => stmtLines displacement s + stmtsLines displacement ss

end

/-- A bound on the instructions of the procedure for a body. -/
def procedureLines (body : Checked.Stmt) : Nat :=
  blockLines (blockSize body) (stmtLines (blockSize body) body) + 3

section

variable {em em' : Emitter} {code : List Instr} {d : Depth} (ctx : Context)

theorem length_stackOperand (op : Opcode) (slot : Slot) : (ctx.stackOperand op slot).1.length ≤ 1 := by
  unfold Context.stackOperand
  simp only
  split <;> simp

/-- A load takes another instruction for a large offset. -/
theorem length_load (size : Nat) (dst : Register) (slot : Slot) : (ctx.load size dst slot).length ≤ 2 := by
  have hsetup := length_stackOperand ctx (.load size) slot
  simpa [Context.load] using hsetup

theorem length_store (size : Nat) (src : Register) (slot : Slot) : (ctx.store size src slot).length ≤ 2 := by
  have hsetup := length_stackOperand ctx (.store size) slot
  simpa [Context.store] using hsetup

theorem length_address (dst : Register) (slot : Slot) : (ctx.address dst slot).length ≤ 2 := by
  unfold Context.address
  simp only
  split <;> simp

theorem length_settle (d : Depth) : d.settle.length ≤ 1 := by
  unfold Depth.settle
  split <;> simp

/-- Storing an element takes at most three instructions. -/
theorem length_storeInto (size offset : Nat) (d : Depth) : (storeInto size offset d).length ≤ 3 := by
  have hsettle := length_settle d
  unfold storeInto
  split <;> simp <;> omega

/-- An operator and its check. -/
theorem length_unary {op : UnaryOp} {reg : Register} (h : unary op reg em = .ok (code, em')) :
    code.length ≤ 2 := by
  cases op <;> cases h <;> simp

/-- A division takes the most. -/
theorem length_binary {op : BinaryOp} (h : binary op d em = .ok (code, em')) : code.length ≤ 5 := by
  have hsettle := length_settle d
  cases op with
  | mul =>
    cases h
    simp
    omega
  | _ =>
    cases h
    simp

theorem length_nullCheck {reg : Register} (h : nullCheck reg em = .ok (code, em')) : code.length = 2 := by
  cases h
  rfl

/-- An index with its check and the way to the element. -/
theorem length_select {width : Nat} (h : select width d em = .ok (code, em')) : code.length ≤ 7 := by
  have hsettle := length_settle d
  cases h
  simp
  omega

/-- The stack pointer moves step by step. -/
theorem length_adjust (op : Opcode) (bytes : Nat) :
    (Stack.adjust op bytes).length = (Stack.steps bytes).length := by
  rw [Stack.adjust, List.length_map]

end

/-- The number of instructions in some items. -/
def count (items : List Item) : Nat := (Item.code items).instrs.length

section

variable {items items' : List Item}

@[simp] theorem count_nil : count [] = 0 := rfl

@[simp] theorem count_mark (ctx : Context) : count (ctx.mark :: items) = count items := rfl

@[simp] theorem count_append : count (items ++ items') = count items + count items' := by
  rw [count, Item.code_append, Code.instrs_append, List.length_append, count, count]

@[simp] theorem count_instrs (is : List Instr) : count (Item.instrs is) = is.length := by
  rw [count, Item.code_instrs, Code.instrs_ofInstrs]

@[simp] theorem count_access (ctx : Context) (is : List Instr) : count (ctx.access is) = is.length := by
  rw [count, Context.code_access, Code.instrs_ofInstrs]

@[simp] theorem count_label (name : String) : count (.line (.label name) :: items) = count items := rfl

@[simp] theorem count_instr (i : Instr) : count (.line (.instr i) :: items) = count items + 1 := rfl

@[simp] theorem count_literalPool : count (.line .literalPool :: items) = count items := rfl

end

/-- The code of an expression is no longer than its bound. -/
theorem Emitted.count_le {part : Part} {ctx : Context} {d : Depth} {em em' : Emitter} {items : List Item}
    (h : Emitted part ctx d em items em') : count items ≤ part.lines := by
  induction h with
  | int | bool | char | str | null => simp [Part.lines, exprLines]
  | var => simpa [Part.lines, exprLines] using length_load ..
  | @elem ctx d _ slot _ _ _ _ _ _ _ ih =>
    have haddress := length_address ctx d.reg slot
    simp [Part.lines, exprLines] at ih ⊢
    omega
  | side _ hcheck ih =>
    have hlength := length_nullCheck hcheck
    simp [Part.lines, exprLines] at ih ⊢
    omega
  | unary _ hop ih =>
    have hlength := length_unary hop
    simp [Part.lines, exprLines] at ih ⊢
    omega
  | binary _ _ hop ihl ihr =>
    have hlength := length_binary hop
    simp [Part.lines, exprLines] at ihl ihr ⊢
    omega
  | call _ ih =>
    simp [Part.lines, exprLines, length_adjust] at ih ⊢
    split <;> simp <;> omega
  | @newPair _ d _ fst snd _ _ _ _ _ _ _ ihf ihs =>
    have hfst := length_storeInto fst.note.size 0 d
    have hsnd := length_storeInto snd.note.size 4 d
    simp [Part.lines, exprLines, allocate] at ihf ihs ⊢
    omega
  | array _ ih =>
    simp [Part.lines, exprLines, allocate] at ih ⊢
    omega
  | spilled _ _ ih =>
    simp [Part.lines] at ih ⊢
    omega
  | next _ _ ih =>
    simp only [Part.lines] at ih ⊢
    omega
  | noSelection | noArg | noElement => simp
  | selection _ hselect _ ih iho =>
    have hlength := length_select hselect
    simp [Part.lines, linesAll] at ih iho ⊢
    omega
  | arg _ _ iho ih =>
    simp [Part.lines, linesAll] at ih iho ⊢
    omega
  | @element _ d _ size offset _ _ _ _ _ _ _ _ ih iho =>
    have hlength := length_storeInto size offset d
    simp [Part.lines, linesAll] at ih iho ⊢
    omega

/-- The code of an address is no longer than that of the value. -/
theorem Located.count_le {e : Checked.Expr} {ctx : Context} {d : Depth} {em em' : Emitter}
    {items : List Item} (h : Located e ctx d em items em') : count items ≤ exprLines e := by
  cases h with
  | var => simpa [exprLines] using length_address ..
  | @elem _ _ _ slot _ _ _ _ _ hslot hindices =>
    have haddress := length_address ctx d.reg slot
    have hcount := hindices.count_le
    simp [Part.lines, exprLines] at hcount ⊢
    omega
  | side hpair hcheck =>
    have hlength := length_nullCheck hcheck
    have hcount := hpair.count_le
    simp [Part.lines, exprLines] at hcount ⊢
    omega
  | other _ he => exact he.count_le

/-- A block takes its steps twice. -/
theorem StmtEmitted.count_blockItems {s : Checked.Stmt} {ctx inner : Context} {em em' : Emitter}
    {items : List Item} {size lines : Nat} (h : StmtEmitted s (ctx.inside size) em items inner em')
    (hlines : count items ≤ lines) : count (blockItems ctx size items inner) ≤ blockLines size lines := by
  rw [blockItems, h.exit_inside.1]
  simp [Frame.enter, length_adjust, blockLines]
  omega

/-- The code of a statement is no longer than its bound. -/
theorem StmtEmitted.count_le {s : Checked.Stmt} {ctx ctx' : Context} {em em' : Emitter} {items : List Item}
    (h : StmtEmitted s ctx em items ctx' em') : count items ≤ stmtLines ctx.frame.displacement s := by
  induction h with
  | skip | seqNil => simp
  | @declare ctx _ _ type name _ _ _ hinit =>
    have hcount := hinit.count_le
    have hstore := length_store (ctx.declare name type.size) (ctx.frame.declare type.size).1.size
      Depth.top.reg (ctx.frame.declare type.size).1
    simp [Part.lines, stmtLines] at hcount ⊢
    omega
  | @assignVar ctx _ _ type _ _ _ _ slot hsrc =>
    have hcount := hsrc.count_le
    have hstore := length_store ctx type.size Depth.top.reg slot
    simp [Part.lines, stmtLines] at hcount ⊢
    omega
  | assignPlace _ hsrc hplace =>
    have hcount := hsrc.count_le
    have hcount' := hplace.count_le
    simp [Part.lines, stmtLines] at hcount ⊢
    omega
  | read hplace =>
    have hcount := hplace.count_le
    simp [stmtLines]
    omega
  | ret he =>
    have hcount := he.count_le
    simp [Part.lines, stmtLines, Frame.unwind, Frame.displacement32, length_adjust] at hcount ⊢
    omega
  | free he | exit he | print he | println he =>
    have hcount := he.count_le
    simp [Part.lines, stmtLines] at hcount ⊢
    omega
  | branch hcond hyes hno ihy ihn =>
    have hcount := hcond.count_le
    have hy := hyes.count_blockItems ihy
    have hn := hno.count_blockItems ihn
    simp [Part.lines, stmtLines, Context.displacement_inside] at hcount hy hn ⊢
    omega
  | loop hbody hcond ih =>
    have hcount := hcond.count_le
    have hb := hbody.count_blockItems ih
    simp [Part.lines, stmtLines, Context.displacement_inside] at hcount hb ⊢
    omega
  | scope hbody ih => exact hbody.count_blockItems ih
  | seqCons hfirst _ ih iho =>
    rw [hfirst.displacement_eq] at iho
    simp [stmtLines, stmtsLines] at iho ⊢
    omega

end Emission

end WaccArm
