import WaccArm.Proofs.Encoding.Expr
import WaccArm.Proofs.Machine.Linked
import WaccArm.Proofs.Machine.Stack

namespace WaccArm

namespace Stack

/-- No step is empty. -/
theorem steps_pos (bytes : Nat) : ∀ step ∈ steps bytes, 0 < step := by
  fun_induction steps bytes with
  | case1 => simp
  | case2 bytes hne step ih =>
    have hpos : 0 < min bytes maxStep := by
      simp only [maxStep]
      omega
    exact List.forall_mem_cons.2 ⟨leadingBits_pos hpos, ih⟩

/-- A byte is its own leading bits. -/
theorem leadingBits_byte {n : Nat} (hn : n < 256) : leadingBits n = n := by
  have hlog : n.log2 < 8 := log2_lt (by decide) hn
  have hplace : (n.log2 - 7 + 1) / 2 * 2 = 0 := by omega
  rw [leadingBits, hplace, Nat.shiftLeft_zero, Nat.mod_one, Nat.sub_zero]

/-- The eight bits of a number below the largest step leave out two bits at most. -/
theorem lt_leadingBits_add {n : Nat} (hn : n < maxStep) : n < leadingBits n + 4 := by
  have hlog : n.log2 < 10 := log2_lt (by decide) hn
  have hplace : (n.log2 - 7 + 1) / 2 * 2 ≤ 2 := by omega
  have hpow : 2 ^ ((n.log2 - 7 + 1) / 2 * 2) ≤ 2 ^ 2 := Nat.pow_le_pow_right (by decide) hplace
  have hmod := Nat.mod_lt n (Nat.two_pow_pos ((n.log2 - 7 + 1) / 2 * 2))
  rw [leadingBits, Nat.one_shiftLeft]
  omega

/-- A byte is one step. -/
theorem length_steps_byte {bytes : Nat} (hbytes : bytes < 256) : (steps bytes).length ≤ 1 := by
  have hstep : leadingBits (min bytes maxStep) = bytes := by
    rw [Nat.min_eq_left (by simp only [maxStep]; omega), leadingBits_byte hbytes]
  have hnone : steps 0 = [] := by
    rw [steps]
    simp
  rw [steps]
  split
  · simp
  · simp [hstep, hnone]

/-- Full steps as long as they fit, and two more for the rest. -/
theorem length_steps_le (bytes : Nat) : (steps bytes).length ≤ bytes / maxStep + 2 := by
  fun_induction steps bytes with
  | case1 => simp
  | case2 bytes hne step ih =>
    rw [List.length_cons]
    by_cases hfull : maxStep ≤ bytes
    · have hstep : step = 1024 := by
        change leadingBits (min bytes maxStep) = 1024
        rw [Nat.min_eq_right hfull]
        decide
      simp only [hstep, maxStep] at ih hfull ⊢
      omega
    · have hlt : bytes < step + 4 := by
        change bytes < leadingBits (min bytes maxStep) + 4
        rw [Nat.min_eq_left (by omega)]
        exact lt_leadingBits_add (by omega)
      have hrest : (steps (bytes - step)).length ≤ 1 := length_steps_byte (by omega)
      exact Nat.le_trans (Nat.succ_le_succ hrest) (Nat.le_add_left 2 _)

end Stack

namespace Machine

/-- Bytes that were put on the stack are taken off it again, also where the stack pointer wraps around. -/
theorem reaches_sub_add {M : Machine} {s : State} {bytes : Nat}
    (hcode : M.Holds s.pc (Code.ofInstrs (Stack.adjust .sub bytes ++ Stack.adjust .add bytes))) :
    ∃ t, M.Reaches s t ∧
      Moved s t (s.regs .sp) (Stack.adjust .sub bytes ++ Stack.adjust .add bytes).length := by
  rw [Code.ofInstrs, List.map_append] at hcode
  obtain ⟨u, hdown, hlow⟩ := reaches_sub hcode.left
  have hpc : s.pc + ((Stack.adjust .sub bytes).map Line.instr).length = u.pc := by
    rw [hlow.pc, List.length_map]
  obtain ⟨t, hup, hhigh⟩ := reaches_add (s := u) (hpc ▸ hcode.right)
  refine ⟨t, hdown.trans hup, ?_, ?_, fun r hr => ?_, ?_⟩
  · rw [hhigh.pc, hlow.pc, List.length_append, Nat.add_assoc]
  · rw [hhigh.sp, hlow.sp, BitVec.sub_add_cancel]
  · rw [hhigh.regs r hr, hlow.regs r hr]
  · rw [hhigh.mem, hlow.mem]

end Machine

/-- The stack pointer is moved by any number of bytes in steps that are not empty, at most 1024 and fit an
immediate field. The steps add up to the bytes, and all but two of them are full. Moving it down and up again
leaves it where it was, and with it all registers and the memory. -/
theorem adjust_splits (op : Opcode) (bytes : Nat) :
    (∃ steps : List Nat,
      Stack.adjust op bytes = steps.map (fun step => .binary op .sp .sp (.imm (step : Nat))) ∧
      (∀ step ∈ steps, 0 < step ∧ step ≤ 1024 ∧ encodable step) ∧
      steps.sum = bytes ∧ steps.length ≤ bytes / 1024 + 2) ∧
    ∀ (M : Machine) (s : State),
      M.Holds s.pc (Code.ofInstrs (Stack.adjust .sub bytes ++ Stack.adjust .add bytes)) →
      ∃ t, M.Reaches s t ∧ t.regs = s.regs ∧ t.mem = s.mem ∧
        t.pc = s.pc + (Stack.adjust .sub bytes ++ Stack.adjust .add bytes).length := by
  refine ⟨⟨Stack.steps bytes, rfl, fun step hstep => ?_, Stack.sum_steps bytes,
    Stack.length_steps_le bytes⟩, ?_⟩
  · exact ⟨Stack.steps_pos bytes step hstep, Stack.encodable_steps bytes step hstep⟩
  · intro M s hcode
    obtain ⟨t, hreach, hmoved⟩ := Machine.reaches_sub_add hcode
    refine ⟨t, hreach, funext fun r => ?_, hmoved.mem, hmoved.pc⟩
    by_cases hr : r = .sp
    · rw [hr, hmoved.sp]
    · exact hmoved.regs r hr

namespace Wrapped

/-- Down by 1535 bytes and up again. -/
def code : List Instr := Stack.adjust .sub 1535 ++ Stack.adjust .add 1535

theorem code_eq :
    code = [.binary .sub .sp .sp (.imm 1024), .binary .sub .sp .sp (.imm 508), .binary .sub .sp .sp (.imm 3),
      .binary .add .sp .sp (.imm 1024), .binary .add .sp .sp (.imm 508), .binary .add .sp .sp (.imm 3)] := by
  decide +kernel

def machine : Machine := .linked (Code.ofInstrs code) [] (by rw [code_eq]; decide)

/-- There is room for 256 bytes only. -/
def state : State where
  regs r := if r = .sp then 0x100 else 0
  flags := ⟨false, false, false, false⟩
  mem _ := 0
  pc := 0

end Wrapped

/-- The stack pointer wraps around on its way down and comes back. -/
theorem adjust_splits_wrapped :
    ∃ t, Wrapped.machine.Reaches Wrapped.state t ∧ t.regs .sp = 0x100 ∧ t.pc = 6 := by
  have hcode : Wrapped.machine.Holds 0 (Code.ofInstrs Wrapped.code) :=
    Machine.linked_holds (by rw [Wrapped.code_eq]; decide)
  obtain ⟨t, hreach, hregs, -, hpc⟩ := (adjust_splits .sub 1535).2 Wrapped.machine Wrapped.state hcode
  refine ⟨t, hreach, by rw [hregs]; rfl, ?_⟩
  have hlength : Wrapped.code.length = 6 := by rw [Wrapped.code_eq]; rfl
  exact hpc.trans ((Nat.zero_add _).trans hlength)

end WaccArm
