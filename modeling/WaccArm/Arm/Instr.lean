import WaccArm.Arm.Register

namespace WaccArm

/-- When an instruction takes effect. -/
inductive Cond where
  | always | eq | ne | gt | ge | lt | le | vs | cs
deriving DecidableEq, Repr

namespace Cond

/-- Every condition, once. -/
def all : List Cond := [always, eq, ne, gt, ge, lt, le, vs, cs]

def text : Cond → String
  | always => ""
  | eq => "EQ"
  | ne => "NE"
  | gt => "GT"
  | ge => "GE"
  | lt => "LT"
  | le => "LE"
  | vs => "VS"
  | cs => "CS"

/-- The opposite of a comparison. The other conditions have no opposite here and stay. -/
def negate : Cond → Cond
  | eq => ne
  | ne => eq
  | gt => le
  | ge => lt
  | lt => ge
  | le => gt
  | cond => cond

end Cond

inductive Opcode where
  | mov | ldr | ldrsb | str | strb | push | pop | add | adds | sub | subs | rsbs | smull | cmp
  | and | orr | eor | b | bl
deriving DecidableEq, Repr

namespace Opcode

/-- Every opcode, once. -/
def all : List Opcode :=
  [mov, ldr, ldrsb, str, strb, push, pop, add, adds, sub, subs, rsbs, smull, cmp, and, orr, eor, b,
   bl]

def text : Opcode → String
  | mov => "MOV"
  | ldr => "LDR"
  | ldrsb => "LDRSB"
  | str => "STR"
  | strb => "STRB"
  | push => "PUSH"
  | pop => "POP"
  | add => "ADD"
  | adds => "ADDS"
  | sub => "SUB"
  | subs => "SUBS"
  | rsbs => "RSBS"
  | smull => "SMULL"
  | cmp => "CMP"
  | and => "AND"
  | orr => "ORR"
  | eor => "EOR"
  | b => "B"
  | bl => "BL"

/-- The opcode that loads a value of `size` bytes. -/
def load (size : Nat) : Opcode := if size = 1 then ldrsb else ldr

/-- The opcode that stores a value of `size` bytes. -/
def store (size : Nat) : Opcode := if size = 1 then strb else str

/-- The largest offset in a memory operand. -/
def maxOffset : Opcode → Int
  | ldrsb => 255
  | _ => 4095

end Opcode

/-- Whether `value` fits the immediate field of a data-processing instruction: it has 32 bits, of
which eight neighbours at an even place hold all ones. -/
def encodable (value : Nat) : Bool :=
  value < 0x100000000 &&
    (List.range 16).any fun r => ((BitVec.ofNat 32 value).rotateLeft (2 * r)).toNat ≤ 0xff

/-- A shift of a register operand by a fixed number of bits. -/
inductive Shift where
  | lsl (bits : Nat)
  | asr (bits : Nat)
deriving DecidableEq, Repr

inductive Operand where
  | reg (r : Register)
  | imm (value : Int)
  /-- A constant that the assembler places in the literal pool. -/
  | literal (value : Int)
  /-- The address of a label, from the literal pool. -/
  | address (name : String)
  | mem (base : Register) (offset : Int)
  /-- A memory operand that also moves its base register by the offset. -/
  | preIndexed (base : Register) (offset : Int)
  | indexed (base index : Register)
  | shifted (r : Register) (shift : Shift)
  | regList (rs : List Register)
  | label (name : String)
deriving DecidableEq, Repr

namespace Operand

def text : Operand → String
  | reg r => r.text
  | imm value => "#" ++ toString value
  | literal value => "=" ++ toString value
  | address name => "=" ++ name
  | mem base offset =>
    if offset = 0 then "[" ++ base.text ++ "]"
    else "[" ++ base.text ++ ", #" ++ toString offset ++ "]"
  | preIndexed base offset => "[" ++ base.text ++ ", #" ++ toString offset ++ "]!"
  | indexed base index => "[" ++ base.text ++ ", " ++ index.text ++ "]"
  | shifted r (.lsl bits) => r.text ++ ", LSL #" ++ toString bits
  | shifted r (.asr bits) => r.text ++ ", ASR #" ++ toString bits
  | regList rs => "\x7b" ++ String.intercalate ", " (rs.map Register.text) ++ "\x7d"
  | label name => name

end Operand

structure Instr where
  opcode : Opcode
  cond : Cond := .always
  operands : List Operand
deriving DecidableEq, Repr

namespace Instr

/-- The written form: opcode and condition, then the operands with commas between them. -/
def text (i : Instr) : String :=
  i.opcode.text ++ i.cond.text ++
    (if i.operands.isEmpty then "" else " " ++ String.intercalate ", " (i.operands.map Operand.text))

/-- The label that a branch goes to. -/
def target? (i : Instr) : Option String :=
  match i.opcode, i.operands with
  | .b, .label name :: _ | .bl, .label name :: _ => some name
  | _, _ => none

/-- The label that an instruction needs: where it branches to, or else whose address it loads. -/
def needs? (i : Instr) : Option String :=
  match i.target?, i.operands with
  | some name, _ => some name
  | none, _ :: .address name :: _ => some name
  | none, _ => none

/-- The instruction under a condition. -/
def when (i : Instr) (cond : Cond) : Instr := { i with cond }

def mov (dst : Register) (src : Operand) : Instr := { opcode := .mov, operands := [.reg dst, src] }

def movReg (dst src : Register) : Instr := mov dst (.reg src)

def ldr (dst : Register) (src : Operand) : Instr := { opcode := .ldr, operands := [.reg dst, src] }

/-- Loads a value of `size` bytes. -/
def load (size : Nat) (dst : Register) (src : Operand) : Instr :=
  { opcode := .load size, operands := [.reg dst, src] }

/-- Stores a value of `size` bytes. -/
def store (size : Nat) (src : Register) (dst : Operand) : Instr :=
  { opcode := .store size, operands := [.reg src, dst] }

def push (rs : List Register) : Instr := { opcode := .push, operands := [.regList rs] }

def pop (rs : List Register) : Instr := { opcode := .pop, operands := [.regList rs] }

def binary (opcode : Opcode) (dst left : Register) (right : Operand) : Instr :=
  { opcode, operands := [.reg dst, .reg left, right] }

def cmp (left : Register) (right : Operand) : Instr :=
  { opcode := .cmp, operands := [.reg left, right] }

def b (name : String) : Instr := { opcode := .b, operands := [.label name] }

def bl (name : String) : Instr := { opcode := .bl, operands := [.label name] }

end Instr

/-- A line of the text section. -/
inductive Line where
  | label (name : String)
  | instr (i : Instr)
  /-- The place where the assembler puts the literals used so far. -/
  | literalPool
deriving DecidableEq, Repr

def Line.text : Line → String
  | label name => name ++ ":"
  | instr i => "\t" ++ i.text
  | literalPool => "\t.ltorg"

/-- A stretch of the text section. -/
abbrev Code := List Line

/-- Instructions as lines. -/
def Code.ofInstrs (is : List Instr) : Code := is.map .instr

end WaccArm
