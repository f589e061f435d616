namespace WaccArm

inductive Register where
  | r0 | r1 | r2 | r3 | r4 | r5 | r6 | r7 | r8 | r9 | r10 | r11 | r12
  | sp | lr | pc
deriving DecidableEq, Repr

namespace Register

/-- Every register, in the order in which lists of registers are written. -/
def all : List Register :=
  [r0, r1, r2, r3, r4, r5, r6, r7, r8, r9, r10, r11, r12, sp, lr, pc]

def text : Register → String
  | r0 => "r0"
  | r1 => "r1"
  | r2 => "r2"
  | r3 => "r3"
  | r4 => "r4"
  | r5 => "r5"
  | r6 => "r6"
  | r7 => "r7"
  | r8 => "r8"
  | r9 => "r9"
  | r10 => "r10"
  | r11 => "r11"
  | r12 => "r12"
  | sp => "sp"
  | lr => "lr"
  | pc => "pc"

end Register

end WaccArm
