import WaccArm.Layout.Depth
import WaccArm.Emission.Emitter
import WaccArm.Layout.Frame
import WaccArm.Scope.Chain

namespace WaccArm

namespace Emission

/-- Where variables are at a point of the program. -/
structure Context where
  slots : Chain Slot := []
  frame : Frame := {}

namespace Context

/-- The context after `bytes` were put on the stack. -/
def push (ctx : Context) (bytes : Nat) : Context := { ctx with frame := ctx.frame.push bytes }

/-- The slot of a variable. -/
def slot (ctx : Context) (name : String) : Emit Slot :=
  match ctx.slots.lookup? name fun _ => true with
  | some slot => pure slot
  | none => Emit.fail (.unbound name)

/-- The memory operand for a slot, and the instructions that it needs in front. An offset that
`opcode` cannot reach goes through the scratch register. -/
def stackOperand (ctx : Context) (opcode : Opcode) (slot : Slot) : List Instr × Operand :=
  let offset := ctx.frame.offset slot
  if offset ≤ opcode.maxOffset then ([], .mem .sp offset)
  else ([.ldr scratch (.literal offset)], .indexed .sp scratch)

/-- Loads the value in a slot. -/
def load (ctx : Context) (size : Nat) (dst : Register) (slot : Slot) : List Instr :=
  let (setup, src) := ctx.stackOperand (.load size) slot
  setup ++ [.load size dst src]

/-- Stores a value in a slot. -/
def store (ctx : Context) (size : Nat) (src : Register) (slot : Slot) : List Instr :=
  let (setup, dst) := ctx.stackOperand (.store size) slot
  setup ++ [.store size src dst]

/-- Puts the address of a slot into a register. -/
def address (ctx : Context) (dst : Register) (slot : Slot) : List Instr :=
  let offset := ctx.frame.offset slot
  if 0 ≤ offset ∧ encodable offset.toNat then [.binary .add dst .sp (.imm offset)]
  else [.ldr scratch (.literal offset), .binary .add dst .sp (.reg scratch)]

end Context

/-- Where a side is in the memory of a pair. -/
def sideOffset : Side → Int
  | .fst => 0
  | .snd => 4

/-- The condition under which a comparison holds. -/
def comparison : BinaryOp → Cond
  | .gt => .gt
  | .ge => .ge
  | .lt => .lt
  | .le => .le
  | .eq => .eq
  | _ => .ne

/-- Throws an overflow error under a condition. -/
def overflowCheck (cond : Cond) : Emit (List Instr) := do
  return [(← Emit.call .throwOverflowError).when cond]

/-- Throws an error if the reference in `reg` is null. -/
def nullCheck (reg : Register) : Emit (List Instr) := do
  return [.movReg .r0 reg, ← Emit.call .checkNullPointer]

/-- Applies an operator to the value in `reg`. Characters and integers look the same in a
register. -/
def unary (op : UnaryOp) (reg : Register) : Emit (List Instr) :=
  match op with
  | .not => return [.binary .eor reg reg (.imm 1)]
  | .negate => return .binary .rsbs reg reg (.imm 0) :: (← overflowCheck .vs)
  | .len => return [.ldr reg (.mem reg 0)]
  | .ord | .chr => return []

/-- Applies an operator to two operands that have been evaluated at depth `d`. -/
def binary (op : BinaryOp) (d : Depth) : Emit (List Instr) :=
  match op with
  | .add => return .binary .adds d.reg d.left (.reg d.right) :: (← overflowCheck .vs)
  | .sub => return .binary .subs d.reg d.left (.reg d.right) :: (← overflowCheck .vs)
  | .mul =>
    return [{ opcode := .smull, operands := [.reg d.left, .reg d.right, .reg d.left, .reg d.right] },
        .cmp d.right (.shifted d.left (.asr 31))]
      ++ (← overflowCheck .ne) ++ d.settle
  | .div =>
    return [.movReg .r0 d.left, .movReg .r1 d.right, ← Emit.call .checkDivideByZero,
      .bl "__aeabi_idiv", .movReg d.reg .r0]
  | .rem =>
    return [.movReg .r0 d.left, .movReg .r1 d.right, ← Emit.call .checkDivideByZero,
      .bl "__aeabi_idivmod", .movReg d.reg .r1]
  | .gt | .ge | .lt | .le | .eq | .ne =>
    return [.cmp d.left (.reg d.right), (Instr.mov d.reg (.imm 1)).when (comparison op),
      (Instr.mov d.reg (.imm 0)).when (comparison op).negate]
  | .and => return [.binary .and d.reg d.left (.reg d.right)]
  | .or => return [.binary .orr d.reg d.left (.reg d.right)]

/-- Evaluates a right operand, by `eval`, while the left one is in the register of depth `d`. The
left one waits on the stack if no register is left. -/
def operand (eval : Context → Depth → Emit (List Instr)) (ctx : Context) (d : Depth) :
    Emit (List Instr) :=
  if d.exhausted then
    return [.push [d.reg]] ++ (← eval (ctx.push 4) d) ++ [.pop [scratch]]
  else eval ctx d.next

/-- Allocates memory and puts its address into `reg`. -/
def allocate (bytes : Nat) (reg : Register) : List Instr :=
  [.ldr .r0 (.literal bytes), .bl "malloc", .movReg reg .r0]

/-- Stores the right operand into the memory that the left one points to. An offset that the store
cannot reach goes through `r0`. -/
def storeInto (size : Nat) (offset : Nat) (d : Depth) : List Instr :=
  (if offset ≤ (Opcode.store size).maxOffset then [.store size d.right (.mem d.left offset)]
   else [.ldr .r0 (.literal offset), .store size d.right (.indexed d.left .r0)])
    ++ d.settle

/-- Goes from the address of a reference to an array to the address of the element that the right
operand selects. `width` is the size of the element. -/
def select (width : Nat) (d : Depth) : Emit (List Instr) := do
  let check ← Emit.call .checkArrayBounds
  let scaled : Operand := if width = 1 then .reg d.right else .shifted d.right (.lsl 2)
  return [.ldr d.left (.mem d.left 0), .movReg .r0 d.right, .movReg .r1 d.left, check,
      .binary .add d.left d.left (.imm 4), .binary .add d.left d.left scaled]
    ++ d.settle

/-- The bytes that arguments take on the stack. -/
def argBytes : List Checked.Expr → Nat
  | [] => 0
  | arg :: args => arg.note.size + argBytes args

/-- The size of the elements of an array literal. -/
def elemSize : List Checked.Expr → Nat
  | [] => 4
  | first :: _ => first.note.size

mutual

/-- Evaluates an expression into the register of depth `d`. -/
def expr : Checked.Expr → Context → Depth → Emit (List Instr)
  | .int _ value, _, d => return [.ldr d.reg (.literal value.toInt)]
  | .bool _ value, _, d => return [.mov d.reg (.imm (if value then 1 else 0))]
  | .char _ value, _, d => return [.mov d.reg (.imm value.toNat)]
  | .str _ value, _, d => return [.ldr d.reg (.address (← Emit.intern value))]
  | .null _, _, d => return [.ldr d.reg (.literal 0)]
  | .var _ name, ctx, d => do
    let slot ← ctx.slot name
    return ctx.load slot.size d.reg slot
  | .elem type name indices, ctx, d => do
    let slot ← ctx.slot name
    let code ← selections type.size indices ctx d
    return ctx.address d.reg slot ++ code ++ [.load type.size d.reg (.mem d.reg 0)]
  | .side type which pair, ctx, d => do
    let code ← expr pair ctx d
    let check ← nullCheck d.reg
    return code ++ check ++ [.load type.size d.reg (.mem d.reg (sideOffset which))]
  | .unary _ op operand, ctx, d => do
    let code ← expr operand ctx d
    return code ++ (← unary op d.reg)
  | .binary _ op left right, ctx, d => do
    let l ← expr left ctx d
    let r ← operand (expr right) ctx d
    return l ++ r ++ (← binary op d)
  | .call _ label args, ctx, d => do
    let saved := 4 * d.live.length
    let code ← pushArgs args (ctx.push saved) d
    return (if d.live.isEmpty then [] else [.push d.live]) ++ code ++ [.bl label]
      ++ Stack.adjust .add (argBytes args) ++ [.movReg d.reg .r0]
      ++ (if d.live.isEmpty then [] else [.pop d.live])
  | .newPair _ fst snd, ctx, d => do
    let f ← operand (expr fst) ctx d
    let s ← operand (expr snd) ctx d
    return allocate 8 d.reg ++ f ++ storeInto fst.note.size 0 d
      ++ s ++ storeInto snd.note.size 4 d
  | .array _ elems, ctx, d => do
    let size := elemSize elems
    let code ← elements size 4 elems ctx d
    return allocate (4 + elems.length * size) d.reg ++ code
      ++ [.ldr .r0 (.literal elems.length), .store 4 .r0 (.mem d.reg 0)]

/-- Follows indices from the address of an array variable. All elements but the last one selected
are references; that one takes `size` bytes. -/
def selections (size : Nat) : List Checked.Expr → Context → Depth → Emit (List Instr)
  | [], _, _ => return []
  | index :: indices, ctx, d => do
    let code ← operand (expr index) ctx d
    let selected ← select (if indices.isEmpty then size else 4) d
    return code ++ selected ++ (← selections size indices ctx d)

/-- Evaluates arguments, the last one first, and puts each on the stack. -/
def pushArgs : List Checked.Expr → Context → Depth → Emit (List Instr)
  | [], _, _ => return []
  | arg :: args, ctx, d => do
    let others ← pushArgs args ctx d
    let code ← expr arg (ctx.push (argBytes args)) d
    let size := arg.note.size
    return others ++ code ++ [.store size d.reg (.preIndexed .sp (-size))]

/-- Evaluates the elements of an array literal and stores them from `offset` on. Sizes and offsets have no
bound here. Below 2 ^ 31 they are those of 32-bit arithmetic, as `Blocks.array32_eq` says. -/
def elements (size : Nat) (offset : Nat) : List Checked.Expr → Context → Depth → Emit (List Instr)
  | [], _, _ => return []
  | elem :: elems, ctx, d => do
    let code ← operand (expr elem) ctx d
    return code ++ storeInto size offset d ++ (← elements size (offset + size) elems ctx d)

end

end Emission

end WaccArm
