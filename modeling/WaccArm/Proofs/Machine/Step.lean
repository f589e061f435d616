import Mathlib.Logic.Relation
import WaccArm.Proofs.Machine.State

namespace WaccArm

/-- A text section in memory, with the routines outside that it may call. -/
structure Machine where
  text : Code
  /-- The label of a text constant. -/
  labelOf : String → String
  /-- The address of a label. -/
  address : String → Word
  /-- The address of a line, and the line at an address. -/
  place : Nat → Word
  lineAt : Word → Nat
  lineAt_place : ∀ k ≤ text.length, lineAt (place k) = k
  /-- What a routine outside the text does, unless it never comes back. -/
  external : String → State → Option State

namespace Machine

/-- A machine without lines, with labels at the addresses. -/
def bare (address : String → Word) : Machine where
  text := []
  labelOf := id
  address := address
  place _ := 0
  lineAt _ := 0
  lineAt_place _ h := (Nat.le_zero.1 h).symm
  external _ _ := none

/-- The line of a label. -/
def line? (M : Machine) (name : String) : Option Nat := M.text.idxOf? (.label name)

/-- Calls a label from the current line. -/
def call (M : Machine) (s : State) (name : String) : Option State :=
  let s' := s.set .lr (M.place (s.pc + 1))
  match M.line? name with
  | some k => some { s' with pc := k }
  | none => (M.external name s').map fun t => { t with pc := s.pc + 1 }

/-- Takes registers off the stack. If the program counter is one of them, this is a jump. -/
def pop (M : Machine) (s : State) (rs : List Register) : State :=
  let t := s.pop rs
  if .pc ∈ rs then { t with pc := M.lineAt (t.regs .pc) } else t.next

/-- Puts the first of two results into a register and the second into the flags. -/
def setBoth (s : State) (dst : Register) (result : Word × Flags) : State :=
  { s.set dst result.1 with flags := result.2 }

/-- What an instruction does when its condition holds. -/
def exec (M : Machine) (s : State) (i : Instr) : Option State :=
  match i.opcode, i.operands with
  | .mov, [.reg dst, src] => (s.operand? src).map fun w => (s.set dst w).next
  | .ldr, [.reg dst, .literal value] => some (s.set dst (BitVec.ofInt 32 value)).next
  | .ldr, [.reg dst, .address name] => some (s.set dst (M.address name)).next
  | .ldr, [.reg dst, src] => (s.address? src).map fun a => (s.set dst (s.mem.readWord a)).next
  | .ldrsb, [.reg dst, src] => (s.address? src).map fun a => (s.set dst ((s.mem a).signExtend 32)).next
  | .str, [.reg src, .preIndexed base offset] =>
    let a := s.regs base + BitVec.ofInt 32 offset
    some { s.set base a with mem := s.mem.writeWord a (s.regs src) }.next
  | .strb, [.reg src, .preIndexed base offset] =>
    let a := s.regs base + BitVec.ofInt 32 offset
    some { s.set base a with mem := s.mem.writeByte a ((s.regs src).setWidth 8) }.next
  | .str, [.reg src, dst] =>
    (s.address? dst).map fun a => { s with mem := s.mem.writeWord a (s.regs src) }.next
  | .strb, [.reg src, dst] =>
    (s.address? dst).map fun a => { s with mem := s.mem.writeByte a ((s.regs src).setWidth 8) }.next
  | .push, [.regList rs] => some (s.push rs).next
  | .pop, [.regList rs] => some (M.pop s rs)
  | .add, [.reg dst, .reg left, right] =>
    (s.operand? right).map fun w => (s.set dst (s.regs left + w)).next
  | .sub, [.reg dst, .reg left, right] =>
    (s.operand? right).map fun w => (s.set dst (s.regs left - w)).next
  | .and, [.reg dst, .reg left, right] =>
    (s.operand? right).map fun w => (s.set dst (s.regs left &&& w)).next
  | .orr, [.reg dst, .reg left, right] =>
    (s.operand? right).map fun w => (s.set dst (s.regs left ||| w)).next
  | .eor, [.reg dst, .reg left, right] =>
    (s.operand? right).map fun w => (s.set dst (s.regs left ^^^ w)).next
  | .adds, [.reg dst, .reg left, right] =>
    (s.operand? right).map fun w => (setBoth s dst (Word.addWithCarry (s.regs left) w false)).next
  | .subs, [.reg dst, .reg left, right] =>
    (s.operand? right).map fun w => (setBoth s dst (Word.subtract (s.regs left) w)).next
  | .rsbs, [.reg dst, .reg left, right] =>
    (s.operand? right).map fun w => (setBoth s dst (Word.subtract w (s.regs left))).next
  | .smull, [.reg low, .reg high, .reg left, .reg right] =>
    let p := Word.product (s.regs left) (s.regs right)
    some ((s.set low p.1).set high p.2).next
  | .cmp, [.reg left, right] =>
    (s.operand? right).map fun w => { s with flags := (Word.subtract (s.regs left) w).2 }.next
  | .b, [.label name] => (M.line? name).map fun k => { s with pc := k }
  | .bl, [.label name] => M.call s name
  | _, _ => none

/-- One step. Nothing is run where there is no instruction. -/
def step (M : Machine) (s : State) : Option State :=
  match M.text[s.pc]? with
  | some (.instr i) => if i.cond.holds s.flags then M.exec s i else some s.next
  | some (.label _) => some s.next
  | _ => none

/-- Whether the machine gets from one state to the other. -/
def Reaches (M : Machine) : State → State → Prop := Relation.ReflTransGen fun s t => M.step s = some t

/-- Whether `code` stands in the text from line `k` on, with its labels leading there. -/
def Holds (M : Machine) : Nat → Code → Prop
  | _, [] => True
  | k, l :: code =>
    M.text[k]? = some l ∧ (∀ name, l = .label name → M.line? name = some k) ∧ M.Holds (k + 1) code

/-- Whether the next line is the given label. -/
def At (M : Machine) (s : State) (name : String) : Prop := M.text[s.pc]? = some (.label name)

variable {M : Machine} {s t u : State}

theorem Reaches.refl (s : State) : M.Reaches s s := Relation.ReflTransGen.refl

theorem Reaches.trans (h : M.Reaches s t) (h' : M.Reaches t u) : M.Reaches s u :=
  Relation.ReflTransGen.trans h h'

/-- Code stands in the text part by part. -/
theorem holds_append {k : Nat} {code code' : Code} :
    M.Holds k (code ++ code') ↔ M.Holds k code ∧ M.Holds (k + code.length) code' := by
  induction code generalizing k with
  | nil => simp [Holds]
  | cons l code ih =>
    have hlen : k + (code.length + 1) = k + 1 + code.length := by omega
    simp only [List.cons_append, Holds, List.length_cons, ih, and_assoc, hlen]

theorem Holds.left {k : Nat} {code code' : Code} (h : M.Holds k (code ++ code')) : M.Holds k code :=
  (holds_append.1 h).1

theorem Holds.right {k : Nat} {code code' : Code} (h : M.Holds k (code ++ code')) :
    M.Holds (k + code.length) code' :=
  (holds_append.1 h).2

/-- Code that stands in the text ends no later than the text. -/
theorem Holds.length_le {k : Nat} {l : Line} {code : Code} (h : M.Holds k (l :: code)) :
    k + 1 ≤ M.text.length := by
  obtain ⟨hlt, _⟩ := List.getElem?_eq_some_iff.1 h.1
  exact hlt

/-- An instruction whose condition holds is executed. -/
theorem Reaches.exec {i : Instr} {code : Code} (hcode : M.Holds s.pc (.instr i :: code))
    (hcond : i.cond.holds s.flags = true) (hexec : M.exec s i = some t) : M.Reaches s t := by
  apply Relation.ReflTransGen.single
  simp only [step, hcode.1, hcond, if_true, hexec]

/-- An instruction whose condition does not hold is passed over. -/
theorem Reaches.skip {i : Instr} {code : Code} (hcode : M.Holds s.pc (.instr i :: code))
    (hcond : i.cond.holds s.flags = false) : M.Reaches s s.next := by
  apply Relation.ReflTransGen.single
  simp [step, hcode.1, hcond]

/-- A label is passed. -/
theorem Reaches.label {name : String} (h : M.At s name) : M.Reaches s s.next := by
  apply Relation.ReflTransGen.single
  simp only [step, show M.text[s.pc]? = some (.label name) from h]

/-- A call to a label of the text. -/
theorem exec_bl {name : String} {k : Nat} (hline : M.line? name = some k) (cond : Cond) :
    M.exec s ((Instr.bl name).when cond) =
      some { s.set .lr (M.place (s.pc + 1)) with pc := k } := by
  simp only [exec, Instr.bl, Instr.when, call, hline]

/-- A call to a routine outside the text. -/
theorem exec_bl_external {name : String} (hline : M.line? name = none)
    (hext : M.external name (s.set .lr (M.place (s.pc + 1))) = some t) :
    M.exec s (.bl name) = some { t with pc := s.pc + 1 } := by
  simp only [exec, Instr.bl, call, hline, hext, Option.map_some]

/-- A branch goes to its label. -/
theorem exec_b {name : String} {k : Nat} (hline : M.line? name = some k) (cond : Cond) :
    M.exec s ((Instr.b name).when cond) = some { s with pc := k } := by
  simp only [exec, Instr.b, Instr.when, hline, Option.map_some]

/-- A load takes one or four bytes. -/
theorem exec_load {src : Operand} {a : Word} (haddress : s.address? src = some a) (size : Nat)
    (dst : Register) :
    M.exec s (.load size dst src) = some (s.set dst (s.mem.load size a)).next := by
  cases src <;> simp only [State.address?, Option.some.injEq, reduceCtorEq] at haddress <;>
    subst haddress <;> by_cases hsize : size = 1 <;>
    simp [exec, Instr.load, Opcode.load, Memory.load, State.address?, hsize]

theorem exec_store {dst : Operand} {a : Word} (haddress : s.address? dst = some a) (size : Nat)
    (src : Register) :
    M.exec s (.store size src dst) = some { s with mem := s.mem.store size a (s.regs src) }.next := by
  cases dst <;> simp only [State.address?, Option.some.injEq, reduceCtorEq] at haddress <;>
    subst haddress <;> by_cases hsize : size = 1 <;>
    simp [exec, Instr.store, Opcode.store, Memory.store, State.address?, hsize]

end Machine

end WaccArm
