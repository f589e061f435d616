import WaccArm.Assembly.Basic

namespace WaccArm

inductive Routine where
  | printInt | printBool | printChar | printString | printReference | printLn
  | readInt | readChar
  | checkDivideByZero | checkNullPointer | checkArrayBounds
  | throwOverflowError | throwRuntimeError
  | freePair | freeArray
deriving DecidableEq, Repr

namespace Routine

/-- Every routine, once. -/
def all : List Routine :=
  [printInt, printBool, printChar, printString, printReference, printLn, readInt, readChar,
   checkDivideByZero, checkNullPointer, checkArrayBounds, throwOverflowError, throwRuntimeError,
   freePair, freeArray]

def label : Routine → String
  | printInt => "p_print_int"
  | printBool => "p_print_bool"
  | printChar => "p_print_char"
  | printString => "p_print_string"
  | printReference => "p_print_reference"
  | printLn => "p_print_ln"
  | readInt => "p_read_int"
  | readChar => "p_read_char"
  | checkDivideByZero => "p_check_divide_by_zero"
  | checkNullPointer => "p_check_null_pointer"
  | checkArrayBounds => "p_check_array_bounds"
  | throwOverflowError => "p_throw_overflow_error"
  | throwRuntimeError => "p_throw_runtime_error"
  | freePair => "p_free_pair"
  | freeArray => "p_free_array"

/-- The routines that a routine branches to. -/
def dependencies : Routine → List Routine
  | checkDivideByZero | checkNullPointer | checkArrayBounds | throwOverflowError | freePair
  | freeArray => [throwRuntimeError]
  | throwRuntimeError => [printString]
  | _ => []

def overflowMessage : String :=
  "OverflowError: the result is too small/large to store in a 4-byte signed-integer.\n"

def divideByZeroMessage : String := "DivideByZeroError: divide or modulo by zero\n"

def nullReferenceMessage : String := "NullReferenceError: dereference a null reference\n"

def negativeIndexMessage : String := "ArrayIndexOutOfBoundsError: negative index\n"

def largeIndexMessage : String := "ArrayIndexOutOfBoundsError: index too large\n"

/-- The texts that a routine uses, in the order they are asked for. -/
def texts : Routine → List String
  | printInt => ["%d\x00"]
  | printReference => ["%p\x00"]
  | printBool => ["true\x00", "false\x00"]
  | printString => ["%.*s\x00"]
  | printLn => ["\x00"]
  | printChar => []
  | readInt => [" %d\x00"]
  | readChar => [" %c\x00"]
  | checkDivideByZero => [divideByZeroMessage]
  | checkNullPointer => [nullReferenceMessage]
  | checkArrayBounds => [negativeIndexMessage, largeIndexMessage]
  | throwOverflowError => [overflowMessage]
  | throwRuntimeError => []
  | freePair | freeArray => [nullReferenceMessage]

/-- Prints by a format in `r0`, which `setup` puts there with its arguments. -/
def printing (setup : List Instr) : List Instr :=
  [.push [.lr]] ++ setup ++
    [.binary .add .r0 .r0 (.imm 4), .bl "printf", .mov .r0 (.imm 0), .bl "fflush", .pop [.pc]]

/-- Reads by a format into the address in `r0`. -/
def reading (format : String) : List Instr :=
  [.push [.lr], .movReg .r1 .r0, .ldr .r0 (.address format), .binary .add .r0 .r0 (.imm 4),
   .bl "scanf", .pop [.pc]]

/-- Throws an error if `reg` holds zero. -/
def guarded (reg : Register) (message : String) : List Instr :=
  [.push [.lr], .cmp reg (.imm 0), (Instr.ldr .r0 (.address message)).when .eq,
   (Instr.bl throwRuntimeError.label).when .eq, .pop [.pc]]

/-- The instructions of a routine, given a function from its texts to their labels. -/
def body (labelOf : String → String) : Routine → List Instr
  | printInt => printing [.movReg .r1 .r0, .ldr .r0 (.address (labelOf "%d\x00"))]
  | printReference => printing [.movReg .r1 .r0, .ldr .r0 (.address (labelOf "%p\x00"))]
  | printBool =>
    printing
      [.cmp .r0 (.imm 0), (Instr.ldr .r0 (.address (labelOf "true\x00"))).when .ne,
       (Instr.ldr .r0 (.address (labelOf "false\x00"))).when .eq]
  | printString =>
    printing
      [.ldr .r1 (.mem .r0 0), .binary .add .r2 .r0 (.imm 4),
       .ldr .r0 (.address (labelOf "%.*s\x00"))]
  | printLn =>
    [.push [.lr], .ldr .r0 (.address (labelOf "\x00")), .binary .add .r0 .r0 (.imm 4), .bl "puts",
     .mov .r0 (.imm 0), .bl "fflush", .pop [.pc]]
  | printChar => [.push [.lr], .bl "putchar", .pop [.pc]]
  | readInt => reading (labelOf " %d\x00")
  | readChar => reading (labelOf " %c\x00")
  | checkDivideByZero => guarded .r1 (labelOf divideByZeroMessage)
  | checkNullPointer => guarded .r0 (labelOf nullReferenceMessage)
  | checkArrayBounds =>
    [.push [.lr], .cmp .r0 (.imm 0),
     (Instr.ldr .r0 (.address (labelOf negativeIndexMessage))).when .lt,
     (Instr.bl throwRuntimeError.label).when .lt,
     .ldr .r1 (.mem .r1 0), .cmp .r0 (.reg .r1),
     (Instr.ldr .r0 (.address (labelOf largeIndexMessage))).when .cs,
     (Instr.bl throwRuntimeError.label).when .cs, .pop [.pc]]
  | throwOverflowError =>
    [.ldr .r0 (.address (labelOf overflowMessage)), .bl throwRuntimeError.label]
  | throwRuntimeError => [.bl printString.label, .mov .r0 (.imm (-1)), .bl "exit"]
  | freePair | freeArray =>
    [.push [.lr], .cmp .r0 (.imm 0), (Instr.ldr .r0 (.address (labelOf nullReferenceMessage))).when .eq,
     (Instr.b throwRuntimeError.label).when .eq, .bl "free", .pop [.pc]]

/-- The routines that are not in use. -/
def unused (used : List Routine) : List Routine := all.filter fun r => decide (r ∉ used)

theorem mem_all (r : Routine) : r ∈ all := by cases r <;> decide

theorem length_dependencies_le (r : Routine) : r.dependencies.length ≤ 1 := by cases r <;> decide

/-- The more is in use, the less is not. -/
theorem length_unused_le {used later : List Routine} (h : used ⊆ later) :
    (unused later).length ≤ (unused used).length := by
  rw [unused, unused, ← List.countP_eq_length_filter, ← List.countP_eq_length_filter]
  apply List.countP_mono_left
  intro r _ hr
  exact decide_eq_true fun hused => of_decide_eq_true hr (h hused)

/-- A routine that is new is one that was not in use. -/
theorem length_unused_append_lt {used : List Routine} {r : Routine} (h : r ∉ used) :
    (unused (used ++ [r])).length < (unused used).length := by
  have hfilter : unused (used ++ [r]) = (unused used).filter fun q => decide (q ≠ r) := by
    simp [unused, List.filter_filter, Bool.and_comm]
  rw [hfilter, List.length_filter_lt_length_iff_exists]
  exact ⟨r, List.mem_filter.2 ⟨mem_all r, decide_eq_true h⟩, by simp⟩

mutual

/-- Asks for a routine, given those asked for before. One of these has been followed already. -/
def ask (used : List Routine) (r : Routine) : { later : List Routine // used ⊆ later } :=
  if h : r ∈ used then ⟨used, List.Subset.refl used⟩
  else
    have := length_unused_append_lt h
    have := r.length_dependencies_le
    let ⟨later, hlater⟩ := askAll (used ++ [r]) r.dependencies
    ⟨later, fun _ hq => hlater (List.mem_append_left [r] hq)⟩
termination_by 2 * (unused used).length

/-- Asks for routines, one after the other. -/
def askAll (used : List Routine) : List Routine → { later : List Routine // used ⊆ later }
  | [] => ⟨used, List.Subset.refl used⟩
  | r :: rs =>
    let ⟨next, hnext⟩ := ask used r
    have := length_unused_le hnext
    let ⟨later, hlater⟩ := askAll next rs
    ⟨later, fun _ hq => hlater (hnext hq)⟩
termination_by rs => 2 * (unused used).length + rs.length

end

/-- Asks for a routine and for all that it leads to. -/
def require (used : List Routine) (r : Routine) : List Routine := (ask used r).val

/-- The lines of a routine. -/
def code (labelOf : String → String) (r : Routine) : Code :=
  .label r.label :: Code.ofInstrs (r.body labelOf)

end Routine

end WaccArm
