import WaccArm.Arm.Instr

namespace WaccArm

/-- How deep a part of an expression is nested, as far as there are registers for it. -/
structure Depth where
  level : Fin 7
deriving DecidableEq, Repr

/-- The register that is kept free for spilled values and far addresses. -/
def scratch : Register := .r12

namespace Depth

/-- The registers for values, by depth. -/
def pool : List Register := [.r4, .r5, .r6, .r7, .r8, .r10, .r11]

/-- The depth of a whole expression. -/
def top : Depth := ⟨0⟩

/-- The register for values at this depth. -/
def reg (d : Depth) : Register := pool.get d.level

/-- Whether no deeper register is left. -/
def exhausted (d : Depth) : Bool := d.level = Fin.last 6

/-- The depth of a right operand. -/
def next (d : Depth) : Depth := if d.exhausted then d else ⟨d.level + 1⟩

/-- The depth of the right operand of a right operand and so on, `n` times. -/
def nested (n : Nat) : Depth := ⟨⟨min n 6, by omega⟩⟩

/-- The registers that may hold values of enclosing expressions. -/
def live (d : Depth) : List Register := pool.take d.level

/-- Where the left operand is while the right one is there too. -/
def left (d : Depth) : Register := if d.exhausted then scratch else d.reg

/-- Where the right operand is. -/
def right (d : Depth) : Register := d.next.reg

/-- Brings the left operand back to the register of this depth. -/
def settle (d : Depth) : List Instr := if d.left = d.reg then [] else [.movReg d.reg d.left]

end Depth

end WaccArm
