import WaccArm.Layout.Frame
import WaccArm.Proofs.Machine.Step

namespace WaccArm

/-- The steps add up to all bytes. -/
theorem Stack.sum_steps (bytes : Nat) : (Stack.steps bytes).sum = bytes := by
  fun_induction Stack.steps bytes with
  | case1 => rfl
  | case2 bytes hne step ih =>
    have hle : step ≤ bytes := Nat.le_trans (Stack.leadingBits_le _) (Nat.min_le_left _ _)
    rw [List.sum_cons, ih]
    omega

namespace Machine

variable {M : Machine} {s : State}

/-- The stack pointer is at a new place after `k` lines, and nothing else has changed. -/
structure Moved (s t : State) (sp : Word) (k : Nat) : Prop where
  pc : t.pc = s.pc + k
  sp : t.regs .sp = sp
  regs : ∀ r, r ≠ .sp → t.regs r = s.regs r
  mem : t.mem = s.mem

/-- Steps one after the other move the stack pointer by their sum. -/
theorem reaches_steps {op : Opcode} {f : Word → Word → Word}
    (hexec : ∀ (s : State) (n : Nat), M.exec s (.binary op .sp .sp (.imm n)) =
      some (s.set .sp (f (s.regs .sp) (BitVec.ofNat 32 n))).next)
    (hzero : ∀ a, f a 0 = a) (hadd : ∀ a b c, f (f a b) c = f a (b + c)) {steps : List Nat}
    (hcode : M.Holds s.pc
      (Code.ofInstrs (steps.map fun n => .binary op .sp .sp (.imm (n : Nat))))) :
    ∃ t, M.Reaches s t ∧ Moved s t (f (s.regs .sp) (BitVec.ofNat 32 steps.sum)) steps.length := by
  induction steps generalizing s with
  | nil => exact ⟨s, .refl s, rfl, (hzero _).symm, fun _ _ => rfl, rfl⟩
  | cons n steps ih =>
    let first : State := (s.set .sp (f (s.regs .sp) (BitVec.ofNat 32 n))).next
    have hfirst : M.Reaches s first := .exec hcode rfl (hexec s n)
    obtain ⟨t, hreach, hmoved⟩ := ih (s := first) hcode.2.2
    refine ⟨t, hfirst.trans hreach, ?_, ?_, fun r hr => ?_, hmoved.mem⟩
    · have := hmoved.pc
      simp only [first, State.next_pc, State.set_pc] at this
      simp only [List.length_cons]
      omega
    · rw [hmoved.sp, List.sum_cons, BitVec.ofNat_add, ← hadd]
      simp [first]
    · rw [hmoved.regs r hr]
      simp [first, hr]

/-- Lowering the stack pointer, which may wrap around. -/
theorem reaches_sub {bytes : Nat} (hcode : M.Holds s.pc (Code.ofInstrs (Stack.adjust .sub bytes))) :
    ∃ t, M.Reaches s t ∧
      Moved s t (s.regs .sp - BitVec.ofNat 32 bytes) (Stack.adjust .sub bytes).length := by
  obtain ⟨t, hreach, hmoved⟩ := reaches_steps (f := fun a b => a - b) (fun _ _ => rfl)
    (fun a => BitVec.sub_zero a) (fun a b c => by rw [BitVec.sub_sub]) hcode
  rw [Stack.sum_steps] at hmoved
  rw [Stack.adjust, List.length_map]
  exact ⟨t, hreach, hmoved⟩

/-- Raising the stack pointer, which may wrap around. -/
theorem reaches_add {bytes : Nat} (hcode : M.Holds s.pc (Code.ofInstrs (Stack.adjust .add bytes))) :
    ∃ t, M.Reaches s t ∧
      Moved s t (s.regs .sp + BitVec.ofNat 32 bytes) (Stack.adjust .add bytes).length := by
  obtain ⟨t, hreach, hmoved⟩ := reaches_steps (f := fun a b => a + b) (fun _ _ => rfl)
    (fun a => BitVec.add_zero a) (fun a b c => BitVec.add_assoc a b c) hcode
  rw [Stack.sum_steps] at hmoved
  rw [Stack.adjust, List.length_map]
  exact ⟨t, hreach, hmoved⟩

/-- Lowering the stack pointer where there is room. -/
theorem reaches_lowered {bytes : Nat} (hroom : bytes ≤ s.top)
    (hcode : M.Holds s.pc (Code.ofInstrs (Stack.adjust .sub bytes))) :
    ∃ t, M.Reaches s t ∧
      Moved s t (s.regs .sp - BitVec.ofNat 32 bytes) (Stack.adjust .sub bytes).length ∧
      t.top + bytes = s.top := by
  obtain ⟨t, hreach, hmoved⟩ := reaches_sub hcode
  refine ⟨t, hreach, hmoved, ?_⟩
  have hlt := s.top_lt
  rw [State.top] at hroom hlt ⊢
  rw [hmoved.sp, State.top]
  bv_omega

/-- Raising the stack pointer where there is room. -/
theorem reaches_raised {bytes : Nat} (hroom : s.top + bytes < 2 ^ 32)
    (hcode : M.Holds s.pc (Code.ofInstrs (Stack.adjust .add bytes))) :
    ∃ t, M.Reaches s t ∧
      Moved s t (s.regs .sp + BitVec.ofNat 32 bytes) (Stack.adjust .add bytes).length ∧
      t.top = s.top + bytes := by
  obtain ⟨t, hreach, hmoved⟩ := reaches_add hcode
  refine ⟨t, hreach, hmoved, ?_⟩
  rw [State.top] at hroom ⊢
  rw [hmoved.sp, State.top]
  bv_omega

end Machine

end WaccArm
