import WaccArm.Arm.Instr
import WaccArm.Arm.Word
import WaccArm.Tree.Checked

namespace WaccArm

/-- Where a variable lives: the bytes from `depth` below the entry point upwards. -/
structure Slot where
  depth : Int
  size : Nat
deriving DecidableEq, Repr

/-- The depth of a slot as the machine holds it. -/
def Slot.depth32 (slot : Slot) : Int := Word.signed slot.depth

mutual

/-- The bytes that the declarations of a block take, those of blocks inside it not counted. -/
def blockSize : Checked.Stmt → Nat
  | .declare _ type _ _ => type.size
  | .seq _ items => blockSizeAll items
  | _ => 0

def blockSizeAll : List Checked.Stmt → Nat
  | [] => 0
  | s :: ss => blockSize s + blockSizeAll ss

end

namespace Stack

/-- The largest step in which the stack pointer is moved. -/
def maxStep : Nat := 1024

/-- The number with all but its eight leading bits cleared, counted from an even place. -/
def leadingBits (n : Nat) : Nat := n - n % (1 <<< ((n.log2 - 7 + 1) / 2 * 2))

theorem leadingBits_le (n : Nat) : leadingBits n ≤ n := Nat.sub_le ..

theorem leadingBits_pos {n : Nat} (hpos : 0 < n) : 0 < leadingBits n := by
  have hshift : (n.log2 - 7 + 1) / 2 * 2 ≤ n.log2 := by omega
  have hle : 2 ^ ((n.log2 - 7 + 1) / 2 * 2) ≤ n :=
    Nat.le_trans (Nat.pow_le_pow_right (by decide) hshift) (Nat.log2_self_le (by omega))
  have hmod := Nat.mod_lt n (Nat.two_pow_pos ((n.log2 - 7 + 1) / 2 * 2))
  rw [leadingBits, Nat.one_shiftLeft]
  omega

/-- Splits a number of bytes into steps that fit an immediate field. -/
def steps (bytes : Nat) : List Nat :=
  if _h : bytes = 0 then []
  else
    let step := leadingBits (min bytes maxStep)
    step :: steps (bytes - step)
termination_by bytes
decreasing_by
  have hpos : 0 < min bytes maxStep := by simp only [maxStep]; omega
  have := leadingBits_pos hpos
  omega

/-- Moves the stack pointer by `bytes`, up or down as `opcode` says. -/
def adjust (opcode : Opcode) (bytes : Nat) : List Instr :=
  (steps bytes).map fun step => .binary opcode .sp .sp (.imm (step : Nat))

end Stack

/-- A block: the displacement it starts at, the bytes reserved for it, and those given out. -/
structure Block where
  start : Int
  size : Nat
  used : Nat
deriving DecidableEq, Repr

/-- The displacement of the stack pointer, and the open blocks, the innermost first. -/
structure Frame where
  displacement : Int := 0
  blocks : List Block := []
deriving DecidableEq, Repr

namespace Frame

/-- Opens a block of `size` bytes. -/
def enter (f : Frame) (size : Nat) : List Instr × Frame :=
  (Stack.adjust .sub size, ⟨f.displacement + size, ⟨f.displacement, size, 0⟩ :: f.blocks⟩)

/-- Closes the innermost block. -/
def exit (f : Frame) : List Instr × Frame :=
  match f.blocks with
  | [] => ([], f)
  | block :: outer => (Stack.adjust .add block.size, ⟨f.displacement - block.size, outer⟩)

/-- Gives out the next bytes of the innermost block, from the top down. -/
def declare (f : Frame) (size : Nat) : Slot × Frame :=
  match f.blocks with
  | [] => (⟨f.displacement, size⟩, f)
  | block :: outer =>
    let used := block.used + size
    (⟨block.start + used, size⟩, { f with blocks := { block with used } :: outer })

/-- The displacement as the machine holds it. -/
def displacement32 (f : Frame) : Int := Word.signed f.displacement

/-- Where a slot is, from the stack pointer. -/
def offset (f : Frame) (slot : Slot) : Int := Word.signed (f.displacement - slot.depth)

/-- Takes note that `bytes` were put on the stack. -/
def push (f : Frame) (bytes : Nat) : Frame := { f with displacement := f.displacement + bytes }

/-- Takes note that `bytes` were taken off the stack. -/
def pop (f : Frame) (bytes : Nat) : Frame := { f with displacement := f.displacement - bytes }

/-- Moves the stack pointer back up to the entry point. One that is not below it stays. -/
def unwind (f : Frame) : List Instr := Stack.adjust .add f.displacement32.toNat

/-- The slots of parameters from `above` bytes above the entry point on. -/
def paramsFrom (above : Int) : List Ty → List Slot
  | [] => []
  | type :: types => ⟨-above, type.size⟩ :: paramsFrom (above + type.size) types

/-- The slots of parameters, which the caller puts above the saved link register, the first one
lowest. -/
def params (types : List Ty) : List Slot := paramsFrom 4 types

end Frame

end WaccArm
