import WaccArm.Assembly.Routine
import WaccArm.Proofs.Machine.Access
import WaccArm.Proofs.Machine.Registers
import WaccArm.Proofs.Scalar.Eval

namespace WaccArm

open Scalar

/-- The routine that a trap goes to, and the message that is shown. -/
def Scalar.Trap.report? : Trap → Option (Routine × String)
  | overflow => some (.throwOverflowError, Routine.overflowMessage)
  | divideByZero => some (.throwRuntimeError, Routine.divideByZeroMessage)
  | stuck => none

namespace Machine

/-- Whether the text has a routine, with its messages under their labels. -/
def Provides (M : Machine) (r : Routine) : Prop := ∃ k, M.Holds k (r.code M.labelOf)

/-- What every routine outside the text keeps. -/
structure Preserves (s t : State) : Prop where
  regs : ∀ r ∈ calleeSaved, t.regs r = s.regs r
  mem : ∀ a : Word, s.top ≤ a.toNat → t.mem a = s.mem a

/-- The division routines outside the text: the first gives the truncated quotient in `r0`, the
second the remainder in `r1`, for every divisor but zero. -/
structure Divides (M : Machine) : Prop where
  quotient_outside : M.line? "__aeabi_idiv" = none
  remainder_outside : M.line? "__aeabi_idivmod" = none
  quotient : ∀ s : State, s.regs .r1 ≠ 0 → ∃ t, M.external "__aeabi_idiv" s = some t ∧
    t.regs .r0 = BitVec.ofInt 32 ((s.regs .r0).toInt.tdiv (s.regs .r1).toInt) ∧ Preserves s t
  remainder : ∀ s : State, s.regs .r1 ≠ 0 → ∃ t, M.external "__aeabi_idivmod" s = some t ∧
    t.regs .r1 = BitVec.ofInt 32 ((s.regs .r0).toInt.tmod (s.regs .r1).toInt) ∧ Preserves s t

/-- Whether the division routines change nothing but the given memory. -/
def DivisionWithin (M : Machine) (stores : Set Word) : Prop :=
  ∀ name s t, name = "__aeabi_idiv" ∨ name = "__aeabi_idivmod" → M.external name s = some t →
    ∀ a ∉ stores, t.mem a = s.mem a

/-- A trap is raised: the machine gets to the routine for it, and from there to the routine that
ends every program with an error, with the message of the trap in `r0`. -/
def Raises (M : Machine) (s : State) (trap : Trap) : Prop :=
  ∃ r message t u, trap.report? = some (r, message) ∧
    M.Reaches s t ∧ M.At t r.label ∧
    M.Reaches t u ∧ M.At u Routine.throwRuntimeError.label ∧
    u.regs .r0 = M.address (M.labelOf message)

/-- The machine keeps to an access and gets to the routine that ends every program with an error,
with the message in `r0`. -/
def Reports (M : Machine) (A : Access) (s : State) (message : String) : Prop :=
  ∃ t, M.ReachesWithin A s t ∧ M.At t Routine.throwRuntimeError.label ∧
    t.regs .r0 = M.address (M.labelOf message)

/-- A trap is raised by a run that keeps to an access. -/
def RaisesWithin (M : Machine) (A : Access) (s : State) (trap : Trap) : Prop :=
  ∃ r message t, trap.report? = some (r, message) ∧
    M.ReachesWithin A s t ∧ M.At t r.label ∧ M.Reports A t message

variable {M : Machine} {A : Access} {s t u : State}

/-- A trap later in a run is a trap of the run. -/
theorem Raises.of_reaches {trap : Trap} (h : M.Reaches s t) (h' : M.Raises t trap) :
    M.Raises s trap := by
  obtain ⟨r, message, e, u, hreport, hreach, hrest⟩ := h'
  exact ⟨r, message, e, u, hreport, h.trans hreach, hrest⟩

theorem Reports.of_reaches {message : String} (h : M.ReachesWithin A s t) (h' : M.Reports A t message) :
    M.Reports A s message := by
  obtain ⟨u, hreach, hrest⟩ := h'
  exact ⟨u, h.trans hreach, hrest⟩

theorem RaisesWithin.of_reaches {trap : Trap} (h : M.ReachesWithin A s t)
    (h' : M.RaisesWithin A t trap) : M.RaisesWithin A s trap := by
  obtain ⟨r, message, e, hreport, hreach, hrest⟩ := h'
  exact ⟨r, message, e, hreport, h.trans hreach, hrest⟩

theorem RaisesWithin.raises {trap : Trap} (h : M.RaisesWithin A s trap) : M.Raises s trap := by
  obtain ⟨r, message, t, hreport, hreach, hat, u, hreach', hat', hmessage⟩ := h
  exact ⟨r, message, t, u, hreport, hreach.reaches, hat, hreach'.reaches, hat', hmessage⟩

/-- Calling a routine of the text gets to its label. -/
theorem Provides.call {r : Routine} (hr : M.Provides r) (cond : Cond) {code : Code}
    (hcode : M.Holds s.pc (.instr ((Instr.bl r.label).when cond) :: code))
    (hcond : cond.holds s.flags = true) :
    ∃ k, M.Holds k (r.code M.labelOf) ∧
      M.ReachesWithin A s { s.set .lr (M.place (s.pc + 1)) with pc := k } := by
  obtain ⟨k, hk⟩ := hr
  exact ⟨k, hk, .quiet hcode hcond (exec_bl (hk.2.1 _ rfl) cond) rfl rfl⟩

/-- An error is reported if the condition for it holds, and passed over if not. -/
theorem reports_if (hreport : M.Provides .throwRuntimeError) {cond : Cond} {message : String}
    {code : Code} (hcode : M.Holds s.pc
      (.instr ((Instr.ldr .r0 (.address (M.labelOf message))).when cond) ::
        .instr ((Instr.bl Routine.throwRuntimeError.label).when cond) :: code))
    (hcond : cond.holds s.flags = true) : M.Reports A s message := by
  let loaded : State := (s.set .r0 (M.address (M.labelOf message))).next
  have hload : M.ReachesWithin A s loaded := .quiet hcode hcond rfl rfl rfl
  obtain ⟨k, hk, hcall⟩ := hreport.call (s := loaded) cond hcode.2.2 hcond
  exact ⟨_, hload.trans hcall, hk.1, rfl⟩

/-- A check that passes leads to the next line. -/
theorem reaches_unless {cond : Cond} {message : String} {code : Code} (hcode : M.Holds s.pc
      (.instr ((Instr.ldr .r0 (.address (M.labelOf message))).when cond) ::
        .instr ((Instr.bl Routine.throwRuntimeError.label).when cond) :: code))
    (hcond : cond.holds s.flags = false) : M.ReachesWithin A s s.next.next :=
  .trans (.skip hcode hcond) (.skip (s := s.next) hcode.2.2 hcond)

/-- Calling the routine for overflows under a condition that holds. -/
theorem raises_overflow (hthrow : M.Provides .throwOverflowError)
    (hreport : M.Provides .throwRuntimeError) {cond : Cond} {code : Code}
    (hcode : M.Holds s.pc (.instr ((Instr.bl Routine.throwOverflowError.label).when cond) :: code))
    (hcond : cond.holds s.flags = true) : M.RaisesWithin A s .overflow := by
  obtain ⟨k, hk, hcall⟩ := hthrow.call cond hcode hcond
  let entry : State := { s.set .lr (M.place (s.pc + 1)) with pc := k }
  have hat : M.At entry Routine.throwOverflowError.label := hk.1
  have hthrown : M.Reports A entry.next Routine.overflowMessage :=
    by
    exact reports_if hreport hk.2.2 rfl
  exact ⟨_, _, entry, rfl, hcall, hat, hthrown.of_reaches (.label hat)⟩

/-- A routine that was called from `s` has its return address on the stack. -/
structure Entered (M : Machine) (s t : State) : Prop where
  sp : t.regs .sp = s.regs .sp - 4
  saved : t.mem.readWord (t.regs .sp) = M.place (s.pc + 1)
  mem : ∀ a ∉ s.below 4, t.mem a = s.mem a

/-- Only the stack matters for coming back. -/
theorem Entered.congr (h : M.Entered s t) (hsp : u.regs .sp = t.regs .sp) (hmem : u.mem = t.mem) :
    M.Entered s u :=
  ⟨hsp.trans h.sp, by rw [hmem, hsp, h.saved], fun a ha => by rw [hmem, h.mem a ha]⟩

/-- A call of a routine saves the return address. -/
theorem Provides.enter {r : Routine} (hr : M.Provides r) {rest : List Instr}
    (hbody : r.body M.labelOf = .push [.lr] :: rest) {code : Code}
    (hcode : M.Holds s.pc (.instr (.bl r.label) :: code)) (hstack : A.Stack s 4) :
    ∃ t, M.Holds t.pc (Code.ofInstrs rest) ∧ M.ReachesWithin A s t ∧ M.Entered s t ∧
      ∀ q, q ≠ .lr → q ≠ .sp → t.regs q = s.regs q := by
  obtain ⟨k, hk, hcall⟩ := hr.call .always hcode rfl
  rw [Routine.code, hbody] at hk
  let entry : State := { s.set .lr (M.place (s.pc + 1)) with pc := k }
  have hat : M.At entry r.label := hk.1
  have htop : entry.next.top = s.top := rfl
  have hpush : M.ReachesWithin A entry.next (entry.next.push [.lr]).next :=
    .push .lr hk.2.2 (hstack.of_top_eq htop)
  refine ⟨_, hk.2.2.2.2, (hcall.trans (.label hat)).trans hpush, ⟨rfl, ?_, fun a ha => ?_⟩, ?_⟩
  · rw [State.push_single]
    exact Memory.readWord_writeWord _ _ _
  · refine State.push_mem (by rw [htop]; exact hstack.room) .lr ?_
    rw [State.mem_below, htop]
    exact ha
  · intro q hlr hsp
    simp [State.push_single, entry, hlr, hsp]

/-- A routine goes back to the line after the call. -/
theorem Entered.returns (h : M.Entered s t) {l : Line} {code : Code}
    (hcode : M.Holds s.pc (l :: code)) (hpop : M.Holds t.pc (Code.ofInstrs [.pop [.pc]]))
    (hstack : A.Stack s 4) :
    ∃ u, M.ReachesWithin A t u ∧ u.pc = s.pc + 1 ∧ u.regs .sp = s.regs .sp ∧
      (∀ r, r ≠ .sp → r ≠ .pc → u.regs r = t.regs r) ∧ ∀ a ∉ s.below 4, u.mem a = s.mem a := by
  have hloads : (Instr.pop [.pc]).loads t ⊆ A.loads := by
    change Word.span (t.regs .sp) 4 ⊆ A.loads
    rw [h.sp, ← State.below_four hstack.room]
    exact hstack.loads
  refine ⟨M.pop t [.pc], .exec hpop rfl rfl hloads fun _ _ => rfl, ?_, ?_, ?_, h.mem⟩
  · change M.lineAt (t.mem.readWord (t.regs .sp)) = s.pc + 1
    rw [h.saved, M.lineAt_place _ hcode.length_le]
  · change t.regs .sp + 4 = s.regs .sp
    rw [h.sp]
    bv_omega
  · intro r hsp hpc
    simp [pop, State.pop, Memory.loadAll, hsp, hpc]

/-- The state after a comparison of two words. -/
def compared (s : State) (x y : Word) : State := { s with flags := (Word.subtract x y).2 }.next

section

variable (s : State) (x y : Word)

@[simp] theorem compared_regs : (compared s x y).regs = s.regs := rfl

@[simp] theorem compared_flags : (compared s x y).flags = (Word.subtract x y).2 := rfl

@[simp] theorem compared_mem : (compared s x y).mem = s.mem := rfl

@[simp] theorem compared_pc : (compared s x y).pc = s.pc + 1 := rfl

end

/-- A comparison sets the flags and nothing else. -/
theorem ReachesWithin.cmp {r : Register} {src : Operand} {w : Word} {code : Code}
    (hcode : M.Holds s.pc (.instr (.cmp r src) :: code)) (hsrc : s.operand? src = some w) :
    M.ReachesWithin A s (compared s (s.regs r) w) := by
  refine .quiet hcode rfl ?_ rfl rfl
  simp only [Machine.exec, Instr.cmp, hsrc, Option.map_some, compared]

/-- A routine that guards a register compares it with zero. -/
private theorem reaches_guardCompared {guard : Routine} {q : Register} {message : String}
    (hguard : M.Provides guard) (hbody : guard.body M.labelOf = Routine.guarded q (M.labelOf message))
    (hq : q ≠ .lr ∧ q ≠ .sp) {code : Code} (hcode : M.Holds s.pc (.instr (.bl guard.label) :: code))
    (hstack : A.Stack s 4) :
    ∃ t, M.Holds t.pc (Code.ofInstrs
        [(Instr.ldr .r0 (.address (M.labelOf message))).when .eq,
         (Instr.bl Routine.throwRuntimeError.label).when .eq, .pop [.pc]]) ∧
      M.ReachesWithin A s t ∧ M.Entered s t ∧ (∀ q, q ≠ .lr → q ≠ .sp → t.regs q = s.regs q) ∧
      t.flags.zero = decide (s.regs q = 0) := by
  obtain ⟨t, ht, hreach, hentered, hregs⟩ := hguard.enter hbody hcode hstack
  have hzero : t.operand? (.imm 0) = some 0 := by simp [State.operand?]
  refine ⟨compared t (t.regs q) 0, ht.2.2, hreach.trans (.cmp ht hzero), hentered.congr ?_ ?_, ?_, ?_⟩
  · rw [compared_regs]
  · rw [compared_mem]
  · rw [compared_regs]
    exact hregs
  · rw [compared_flags, Word.subtract_zero, hregs q hq.1 hq.2]

/-- A guard lets everything but zero pass, and only its own return address changes. -/
theorem passes_guard {guard : Routine} {q : Register} {message : String} (hguard : M.Provides guard)
    (hbody : guard.body M.labelOf = Routine.guarded q (M.labelOf message)) (hq : q ≠ .lr ∧ q ≠ .sp)
    {code : Code} (hcode : M.Holds s.pc (.instr (.bl guard.label) :: code)) (hne : s.regs q ≠ 0)
    (hstack : A.Stack s 4) :
    ∃ t, M.ReachesWithin A s t ∧ t.pc = s.pc + 1 ∧
      (∀ r, r ≠ .lr → r ≠ .pc → t.regs r = s.regs r) ∧
      ∀ a : Word, s.top ≤ a.toNat → t.mem a = s.mem a := by
  obtain ⟨t, ht, hreach, hentered, hregs, hflag⟩ := reaches_guardCompared hguard hbody hq hcode hstack
  rw [decide_eq_false hne] at hflag
  have hpassed : M.ReachesWithin A t t.next.next := reaches_unless ht hflag
  obtain ⟨u, hreturn, hpc, hsp, hkept, hmem⟩ :=
    (hentered.congr (u := t.next.next) rfl rfl).returns hcode ht.2.2.2.2 hstack
  refine ⟨u, (hreach.trans hpassed).trans hreturn, hpc, ?_, ?_⟩
  · intro r hlr hpc'
    by_cases hr : r = .sp
    · rw [hr, hsp]
    · exact (hkept r hr hpc').trans (hregs r hlr hr)
  · intro a ha
    refine hmem a ?_
    rw [State.mem_below]
    omega

/-- A divisor that is not zero passes the check. -/
theorem check_divisor (hcheck : M.Provides .checkDivideByZero) {code : Code}
    (hcode : M.Holds s.pc (.instr (.bl Routine.checkDivideByZero.label) :: code))
    (hdivisor : s.regs .r1 ≠ 0) (hstack : A.Stack s 4) :
    ∃ t, M.ReachesWithin A s t ∧ t.pc = s.pc + 1 ∧
      (∀ r, r ≠ .lr → r ≠ .pc → t.regs r = s.regs r) ∧
      ∀ a : Word, s.top ≤ a.toNat → t.mem a = s.mem a :=
  passes_guard hcheck rfl (by decide) hcode hdivisor hstack

/-- A reference that is not null passes the check. -/
theorem check_pointer (hcheck : M.Provides .checkNullPointer) {code : Code}
    (hcode : M.Holds s.pc (.instr (.bl Routine.checkNullPointer.label) :: code))
    (hpointer : s.regs .r0 ≠ 0) (hstack : A.Stack s 4) :
    ∃ t, M.ReachesWithin A s t ∧ t.pc = s.pc + 1 ∧
      (∀ r, r ≠ .lr → r ≠ .pc → t.regs r = s.regs r) ∧
      ∀ a : Word, s.top ≤ a.toNat → t.mem a = s.mem a :=
  passes_guard hcheck rfl (by decide) hcode hpointer hstack

/-- The check does not let zero pass. -/
theorem raises_divideByZero (hcheck : M.Provides .checkDivideByZero)
    (hreport : M.Provides .throwRuntimeError) {code : Code}
    (hcode : M.Holds s.pc (.instr (.bl Routine.checkDivideByZero.label) :: code))
    (hdivisor : s.regs .r1 = 0) (hstack : A.Stack s 4) : M.RaisesWithin A s .divideByZero := by
  obtain ⟨t, ht, hreach, -, -, hflag⟩ := reaches_guardCompared hcheck rfl (by decide) hcode hstack
  rw [decide_eq_true hdivisor] at hflag
  have hreports : M.Reports A t Routine.divideByZeroMessage := reports_if hreport ht hflag
  obtain ⟨u, hreach', hat, hmessage⟩ := hreports
  exact ⟨_, _, u, rfl, hreach.trans hreach', hat, u, .refl u, hat, hmessage⟩

end Machine

end WaccArm
