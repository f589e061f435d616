import WaccArm.Proofs.Machine.Routines

namespace WaccArm.Machine

variable {M : Machine} {A : Access} {s t : State} {code : Code}

/-- What the check does once the index has been found not to be negative. -/
private def lengthCheck (labelOf : String → String) : List Instr :=
  [.ldr .r1 (.mem .r1 0), .cmp .r0 (.reg .r1),
   (Instr.ldr .r0 (.address (labelOf Routine.largeIndexMessage))).when .cs,
   (Instr.bl Routine.throwRuntimeError.label).when .cs, .pop [.pc]]

/-- The check compares the index with zero. -/
private theorem reaches_indexCompared (hcheck : M.Provides .checkArrayBounds)
    (hcode : M.Holds s.pc (.instr (.bl Routine.checkArrayBounds.label) :: code))
    (hstack : A.Stack s 4) :
    ∃ t, M.Holds t.pc (Code.ofInstrs
        ((Instr.ldr .r0 (.address (M.labelOf Routine.negativeIndexMessage))).when .lt ::
         (Instr.bl Routine.throwRuntimeError.label).when .lt :: lengthCheck M.labelOf)) ∧
      M.ReachesWithin A s t ∧ M.Entered s t ∧ (∀ q, q ≠ .lr → q ≠ .sp → t.regs q = s.regs q) ∧
      Cond.lt.holds t.flags = decide ((s.regs .r0).toInt < 0) := by
  obtain ⟨t, ht, hreach, hentered, hregs⟩ := hcheck.enter rfl hcode hstack
  have hzero : t.operand? (.imm 0) = some 0 := by simp [State.operand?]
  refine ⟨compared t (t.regs .r0) 0, ht.2.2, hreach.trans (.cmp ht hzero), hentered.congr ?_ ?_, ?_, ?_⟩
  · rw [compared_regs]
  · rw [compared_mem]
  · rw [compared_regs]
    exact hregs
  · rw [compared_flags, Cond.holds, Word.subtract_less, hregs .r0 (by decide) (by decide)]
    rfl

/-- A negative index is reported. -/
theorem reports_negativeIndex (hcheck : M.Provides .checkArrayBounds)
    (hreport : M.Provides .throwRuntimeError)
    (hcode : M.Holds s.pc (.instr (.bl Routine.checkArrayBounds.label) :: code))
    (hindex : (s.regs .r0).toInt < 0) (hstack : A.Stack s 4) :
    M.Reports A s Routine.negativeIndexMessage := by
  obtain ⟨t, ht, hreach, -, -, hflag⟩ := reaches_indexCompared hcheck hcode hstack
  rw [decide_eq_true hindex] at hflag
  have hreports : M.Reports A t Routine.negativeIndexMessage := reports_if hreport ht hflag
  exact hreports.of_reaches hreach

/-- An index that is not negative is compared with the length. -/
private theorem reaches_lengthCompared (hcheck : M.Provides .checkArrayBounds)
    (hcode : M.Holds s.pc (.instr (.bl Routine.checkArrayBounds.label) :: code))
    (hindex : 0 ≤ (s.regs .r0).toInt) (hstack : A.Stack s 4)
    (hloads : Word.span (s.regs .r1) 4 ⊆ A.loads)
    (hkept : ∀ a ∈ Word.span (s.regs .r1) 4, a ∉ A.stores) :
    ∃ t, M.Holds t.pc (Code.ofInstrs
        [(Instr.ldr .r0 (.address (M.labelOf Routine.largeIndexMessage))).when .cs,
         (Instr.bl Routine.throwRuntimeError.label).when .cs, .pop [.pc]]) ∧
      M.ReachesWithin A s t ∧ M.Entered s t ∧
      (∀ q, q ≠ .lr → q ≠ .sp → q ≠ .r1 → t.regs q = s.regs q) ∧
      Cond.cs.holds t.flags =
        decide ((s.mem.readWord (s.regs .r1)).toNat ≤ (s.regs .r0).toNat) := by
  obtain ⟨t, ht, hreach, hentered, hregs, hflag⟩ := reaches_indexCompared hcheck hcode hstack
  rw [decide_eq_false (by omega)] at hflag
  have hpassed : M.ReachesWithin A t t.next.next := reaches_unless ht hflag
  have hr1 : t.regs .r1 = s.regs .r1 := hregs .r1 (by decide) (by decide)
  -- the return address was not put where the length is
  have hlength : t.next.next.mem.load 4 (s.regs .r1) = s.mem.readWord (s.regs .r1) :=
    Memory.readWord_of_span fun a ha => hreach.mem_eq (hkept a ha)
  have haddress : t.next.next.address? (.mem .r1 0) = some (s.regs .r1) := by
    simp [State.address?, hr1]
  let loaded : State := (t.next.next.set .r1 (s.mem.readWord (s.regs .r1))).next
  have hload : M.ReachesWithin A t.next.next loaded := by
    refine .exec (i := .load 4 .r1 (.mem .r1 0)) ht.2.2.2.2 rfl ?_ ?_ fun _ _ => rfl
    · rw [exec_load haddress, hlength]
    · rw [Instr.loads_load haddress (.inr rfl)]
      exact hloads
  refine ⟨compared loaded (loaded.regs .r0) (loaded.regs .r1), ht.2.2.2.2.2.2.2.2,
    ((hreach.trans hpassed).trans hload).trans (.cmp ht.2.2.2.2.2.2 rfl), hentered.congr ?_ ?_, ?_, ?_⟩
  · rw [compared_regs]
    rfl
  · rw [compared_mem]
    rfl
  · intro q hlr hsp hq
    rw [compared_regs]
    simp [loaded, hq, hregs q hlr hsp]
  · rw [compared_flags, Cond.holds, Word.subtract_carry]
    simp [loaded, hregs .r0 (by decide) (by decide)]

/-- An index that is not below the length is reported. -/
theorem reports_largeIndex (hcheck : M.Provides .checkArrayBounds)
    (hreport : M.Provides .throwRuntimeError)
    (hcode : M.Holds s.pc (.instr (.bl Routine.checkArrayBounds.label) :: code))
    (hindex : 0 ≤ (s.regs .r0).toInt)
    (hlarge : (s.mem.readWord (s.regs .r1)).toNat ≤ (s.regs .r0).toNat) (hstack : A.Stack s 4)
    (hloads : Word.span (s.regs .r1) 4 ⊆ A.loads)
    (hkept : ∀ a ∈ Word.span (s.regs .r1) 4, a ∉ A.stores) :
    M.Reports A s Routine.largeIndexMessage := by
  obtain ⟨t, ht, hreach, -, -, hflag⟩ :=
    reaches_lengthCompared hcheck hcode hindex hstack hloads hkept
  rw [decide_eq_true hlarge] at hflag
  have hreports : M.Reports A t Routine.largeIndexMessage := reports_if hreport ht hflag
  exact hreports.of_reaches hreach

/-- An index from zero up to the length passes, and the registers of values are kept. -/
theorem check_index (hcheck : M.Provides .checkArrayBounds)
    (hcode : M.Holds s.pc (.instr (.bl Routine.checkArrayBounds.label) :: code))
    (hindex : 0 ≤ (s.regs .r0).toInt)
    (hsmall : (s.regs .r0).toNat < (s.mem.readWord (s.regs .r1)).toNat) (hstack : A.Stack s 4)
    (hloads : Word.span (s.regs .r1) 4 ⊆ A.loads)
    (hkept : ∀ a ∈ Word.span (s.regs .r1) 4, a ∉ A.stores) :
    ∃ t, M.ReachesWithin A s t ∧ t.pc = s.pc + 1 ∧
      (∀ r, r ≠ .lr → r ≠ .pc → r ≠ .r1 → t.regs r = s.regs r) ∧
      ∀ a : Word, s.top ≤ a.toNat → t.mem a = s.mem a := by
  obtain ⟨t, ht, hreach, hentered, hregs, hflag⟩ :=
    reaches_lengthCompared hcheck hcode hindex hstack hloads hkept
  rw [decide_eq_false (by omega)] at hflag
  have hpassed : M.ReachesWithin A t t.next.next := reaches_unless ht hflag
  obtain ⟨u, hreturn, hpc, hsp, hback, hmem⟩ :=
    (hentered.congr (u := t.next.next) rfl rfl).returns hcode ht.2.2.2.2 hstack
  refine ⟨u, (hreach.trans hpassed).trans hreturn, hpc, ?_, ?_⟩
  · intro r hlr hpc' hr1
    by_cases hr : r = .sp
    · rw [hr, hsp]
    · exact (hback r hr hpc').trans (hregs r hlr hr hr1)
  · intro a ha
    refine hmem a ?_
    rw [State.mem_below]
    omega

end WaccArm.Machine
