import WaccArm.Arm.Instr
import WaccArm.Assembly.Constants

namespace WaccArm

/-- The routines that the file may call without defining them. -/
def externals : List String :=
  ["printf", "scanf", "puts", "putchar", "fflush", "exit", "malloc", "free", "__aeabi_idiv",
   "__aeabi_idivmod"]

/-- The label with number `k` of those made on demand. -/
def freshLabel (k : Nat) : String := "L" ++ toString k

structure Assembly where
  constants : Constants := .empty
  code : Code := []
  labels : Nat := 0
deriving DecidableEq, Repr

namespace Assembly

/-- The label of a text, which becomes a constant. -/
def intern (a : Assembly) (text : String) : String × Assembly :=
  let (label, constants) := a.constants.intern text
  (label, { a with constants })

/-- A label that was not given out before. -/
def fresh (a : Assembly) : String × Assembly := (freshLabel a.labels, { a with labels := a.labels + 1 })

/-- Adds lines at the end. -/
def extend (a : Assembly) (code : Code) : Assembly := { a with code := a.code ++ code }

/-- The labels that lines define. -/
def defined (code : Code) : List String :=
  code.filterMap fun
    | .label name => some name
    | _ => none

/-- The labels that lines need, in order. -/
def needed (code : Code) : List String :=
  code.filterMap fun
    | .instr i => i.needs?
    | _ => none

/-- The first occurrence of each label. -/
def distinct : List String → List String
  | [] => []
  | name :: names => name :: (distinct names).filter (· != name)

/-- The labels that are needed and neither defined in the file nor external. -/
def unresolved (a : Assembly) : List String :=
  let known := defined a.code ++ a.constants.labels ++ externals
  distinct ((needed a.code).filter fun name => !known.contains name)

/-- The file. There is no data section if there are no constants. -/
def text (a : Assembly) : String :=
  (if a.constants.isEmpty then "" else ".data\n\n" ++ a.constants.text ++ "\n")
    ++ ".text\n\n.global main\n" ++ String.join (a.code.map fun line => line.text ++ "\n")

end Assembly

end WaccArm
