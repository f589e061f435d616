import WaccArm.Emission.Expr
import WaccArm.Proofs.Emission.Run
import WaccArm.Proofs.Machine.Linked

namespace WaccArm

open Scalar Emission

namespace Machine

/-- From state `s`, the machine gets to line `stop` with the value of an evaluation in the register
of depth `d` and all else kept, or raises the trap that the evaluation ends in. -/
def Computes (M : Machine) (d : Depth) (s : State) (stop : Nat) : Except Trap Int → Prop
  | .ok v => ∃ t, M.Reaches s t ∧ t.pc = stop ∧ (t.regs d.reg).toInt = v ∧ Kept d s t
  | .error trap => M.Raises s trap

/-- The same, with a run that keeps to an access. -/
def ComputesWithin (M : Machine) (A : Access) (d : Depth) (s : State) (stop : Nat) :
    Except Trap Int → Prop
  | .ok v => ∃ t, M.ReachesWithin A s t ∧ t.pc = stop ∧ (t.regs d.reg).toInt = v ∧ Kept d s t
  | .error trap => M.RaisesWithin A s trap

namespace ComputesWithin

variable {M : Machine} {A : Access} {d : Depth} {s t : State} {stop : Nat} {result : Except Trap Int}

theorem computes (h : M.ComputesWithin A d s stop result) : M.Computes d s stop result := by
  cases result with
  | error trap => exact h.raises
  | ok v =>
    obtain ⟨t, hreach, hrest⟩ := h
    exact ⟨t, hreach.reaches, hrest⟩

/-- What comes before the computation can be put in front. -/
theorem after (h : M.ComputesWithin A d t stop result) (hreach : M.ReachesWithin A s t)
    (hkept : Kept d s t) : M.ComputesWithin A d s stop result := by
  cases result with
  | error trap => exact .of_reaches hreach h
  | ok v =>
    obtain ⟨u, hreach', hpc, hvalue, hkept'⟩ := h
    exact ⟨u, hreach.trans hreach', hpc, hvalue, hkept.trans hkept'⟩

end ComputesWithin

/-- Whether the text has all the routines that were asked for, with those that they branch to. -/
def ProvidesAll (M : Machine) (em : Emitter) : Prop :=
  ∀ r ∈ em.routines, M.Provides r ∧ ∀ q ∈ r.dependencies, M.Provides q

/-- Code that is put together with a list of routines has them all, if the list is complete. -/
theorem providesAll_of_text {M : Machine} {em : Emitter} {code : Code} {routines : List Routine}
    (htext : M.text = linkedText code routines) (hlabel : M.labelOf = id)
    (hnodup : (Assembly.defined M.text).Nodup) (hcomplete : Routine.Complete routines)
    (hroutines : em.routines ⊆ routines) : M.ProvidesAll em := by
  intro r hr
  refine ⟨provides_of_text htext hlabel hnodup (hroutines hr), fun q hq => ?_⟩
  exact provides_of_text htext hlabel hnodup (hcomplete r (hroutines hr) hq)

theorem ProvidesAll.of_grows {M : Machine} {em em' : Emitter} (h : M.ProvidesAll em')
    (hgrows : em.Grows em') : M.ProvidesAll em :=
  fun r hr => h r (hgrows.routines hr)

theorem ProvidesAll.required {M : Machine} {em : Emitter} {r : Routine}
    (h : M.ProvidesAll (em.require r)) :
    M.Provides r ∧ ∀ q ∈ r.dependencies, M.Provides q := by
  refine h r ?_
  rw [em.require_routines]
  exact Routine.mem_require_self em.routines r

end Machine

namespace Scalar

variable {M : Machine} {A : Access} {d : Depth} {s : State}

theorem eq_zero_or_one_of_truth {w : Word} (h : Truth w.toInt) : w = 0 ∨ w = 1 := by
  rcases h with h | h
  · exact .inl (BitVec.eq_of_toInt_eq h)
  · exact .inr (BitVec.eq_of_toInt_eq h)

/-- A result that fits is in the register, and one that does not is reported, after an instruction
that puts the result into the register and tells by the flags whether it fits. -/
theorem computes_checked (result : Word × Flags) {i : Instr} {cond : Cond} {n : Int} {em : Emitter}
    (hcode : M.Holds s.pc
      (Code.ofInstrs [i, (Instr.bl Routine.throwOverflowError.label).when cond]))
    (hroutines : M.ProvidesAll (em.require .throwOverflowError)) (halways : i.cond = .always)
    (hexec : M.exec s i = some (Machine.setBoth s d.reg result).next) (hloads : i.loads s = ∅)
    (hvalue : result.1.toInt = Word.signed n)
    (hflag : cond.holds result.2 = decide (¬ Word.Fits n)) :
    M.ComputesWithin A d s (s.pc + 2) (checked n) := by
  have hfirst : M.ReachesWithin A s (Machine.setBoth s d.reg result).next :=
    .quiet hcode (by rw [halways]; rfl) hexec hloads rfl
  have hkept : Kept d s (Machine.setBoth s d.reg result).next.next := by
    refine .of_regs rfl fun r hr => ?_
    have hne := (Depth.ne_of_kept hr).1
    simp [Machine.setBoth, hne]
  by_cases hfits : Word.Fits n
  · rw [checked, if_pos hfits]
    refine ⟨_, hfirst.trans (.skip hcode.2.2 ?_), rfl, ?_, hkept⟩
    · exact hflag.trans (by simp [hfits])
    · change ((Machine.setBoth s d.reg result).regs d.reg).toInt = n
      simp only [Machine.setBoth, State.set_regs, if_true, hvalue]
      exact (Word.signed_eq_self_iff n).2 hfits
  · rw [checked, if_neg hfits]
    obtain ⟨hthrow, hdeps⟩ := hroutines.required
    refine Machine.RaisesWithin.of_reaches hfirst
      (Machine.raises_overflow hthrow (hdeps _ (by decide)) hcode.2.2 ?_)
    exact hflag.trans (by simp [hfits])

/-- One instruction that puts the result into the register. -/
theorem computes_set {i : Instr} {code : Code} {w : Word} (hcode : M.Holds s.pc (.instr i :: code))
    (halways : i.cond = .always) (hexec : M.exec s i = some (s.set d.reg w).next)
    (hloads : i.loads s ⊆ A.loads) : M.ComputesWithin A d s (s.pc + 1) (.ok w.toInt) := by
  refine ⟨_, .exec hcode (by rw [halways]; rfl) hexec hloads fun _ _ => rfl, rfl, by simp,
    .of_regs rfl fun r hr => ?_⟩
  have hne := (Depth.ne_of_kept hr).1
  simp [hne]

/-- The code of a unary operator computes what it means of the value in the register. -/
theorem computes_unary (d : Depth) (em : Emitter) {op : UnaryOp} (hop : op ≠ .len) :
    ∃ code em', Emission.unary op d.reg em = .ok (code, em') ∧ em.Grows em' ∧
      ∀ {M : Machine} {A : Access} {s : State}, M.Holds s.pc (Code.ofInstrs code) →
        M.ProvidesAll em' → (op = .not → Truth (s.regs d.reg).toInt) →
        M.ComputesWithin A d s (s.pc + code.length) (evalUnary op (s.regs d.reg).toInt) := by
  cases op with
  | not =>
    refine ⟨_, _, rfl, .refl em, fun {M A s} hcode _ htruth => ?_⟩
    have hrun : M.ComputesWithin A d s (s.pc + 1) (.ok (s.regs d.reg ^^^ 1).toInt) :=
      computes_set hcode rfl rfl (Set.empty_subset _)
    rcases eq_zero_or_one_of_truth (htruth rfl) with hw | hw
    · rw [hw] at hrun ⊢
      exact hrun
    · rw [hw] at hrun ⊢
      exact hrun
  | negate =>
    refine ⟨_, _, rfl, em.grows_require _, fun {M A s} hcode hroutines _ => ?_⟩
    have hneg : (0 : Word).toInt - (s.regs d.reg).toInt = -(s.regs d.reg).toInt :=
      Int.zero_sub _
    refine computes_checked (Word.subtract 0 (s.regs d.reg)) hcode hroutines rfl rfl rfl ?_ ?_
    · rw [Word.subtract_toInt, hneg]
    · rw [← hneg]
      exact Word.subtract_overflow _ _
  | len => exact absurd rfl hop
  | ord | chr =>
    exact ⟨_, _, rfl, .refl em, fun {M A s} _ _ _ => ⟨s, .refl s, rfl, rfl, .refl d s⟩⟩

/-- The condition of a comparison holds of the flags of a difference if and only if the comparison
holds of the numbers. -/
theorem evalBinary_comparison {op : BinaryOp} (hop : op.kind = .ordering ∨ op.kind = .equality)
    (x y : Word) :
    evalBinary op x.toInt y.toInt = .ok ((comparison op).holds (Word.subtract x y).2).toInt := by
  have hless := Word.subtract_less x y
  have hnotless : ((Word.subtract x y).2.negative == (Word.subtract x y).2.overflow) =
      decide (y.toInt ≤ x.toInt) := by
    rw [← Bool.not_not (_ == _), ← bne, hless, ← decide_not, decide_eq_decide]
    omega
  have hzero : (Word.subtract x y).2.zero = decide (x.toInt = y.toInt) := by
    rw [Word.subtract_zero, decide_eq_decide, BitVec.toInt_inj]
  cases op <;> simp only [BinaryOp.kind, reduceCtorEq, or_self] at hop <;>
    simp only [evalBinary, comparison, Cond.holds, hzero, hless, hnotless]
  case gt =>
    rw [← decide_not, ← Bool.decide_and]
    congr 2
    rw [decide_eq_decide]
    omega
  case le =>
    rw [← Bool.decide_or]
    congr 2
    rw [decide_eq_decide]
    omega
  case eq => rfl
  case ne => rfl

/-- One of a condition and its negation holds. -/
theorem negate_holds {op : BinaryOp} (hop : op.kind = .ordering ∨ op.kind = .equality)
    (flags : Flags) : (comparison op).negate.holds flags = !(comparison op).holds flags := by
  cases op <;> simp only [BinaryOp.kind, reduceCtorEq, or_self] at hop <;>
    simp [comparison, Cond.negate, Cond.holds, bne]

/-- A comparison and the two moves that turn its flags into a truth value. -/
theorem computes_comparison {op : BinaryOp} (hop : op.kind = .ordering ∨ op.kind = .equality)
    (hcode : M.Holds s.pc (Code.ofInstrs
      [.cmp d.left (.reg d.right), (Instr.mov d.reg (.imm 1)).when (comparison op),
       (Instr.mov d.reg (.imm 0)).when (comparison op).negate])) :
    M.ComputesWithin A d s (s.pc + 3)
      (evalBinary op (s.regs d.left).toInt (s.regs d.right).toInt) := by
  rw [evalBinary_comparison hop]
  let compared : State := Machine.compared s (s.regs d.left) (s.regs d.right)
  have hcompare : M.ReachesWithin A s compared := .cmp hcode rfl
  have hkept (w : Word) : Kept d s (compared.set d.reg w).next.next := by
    refine .of_regs rfl fun r hr => ?_
    have hne := (Depth.ne_of_kept hr).1
    simp [compared, hne]
  cases hholds : (comparison op).holds (Word.subtract (s.regs d.left) (s.regs d.right)).2 with
  | true =>
    have hset : M.ReachesWithin A compared (compared.set d.reg 1).next :=
      .quiet hcode.2.2 hholds rfl rfl rfl
    have hskip : M.ReachesWithin A (compared.set d.reg 1).next (compared.set d.reg 1).next.next :=
      .skip hcode.2.2.2.2 ((negate_holds hop _).trans (congrArg not hholds))
    exact ⟨_, (hcompare.trans hset).trans hskip, rfl, by simp, hkept 1⟩
  | false =>
    have hskip : M.ReachesWithin A compared compared.next := .skip hcode.2.2 hholds
    have hset : M.ReachesWithin A compared.next (compared.next.set d.reg 0).next :=
      .quiet hcode.2.2.2.2 ((negate_holds hop _).trans (congrArg not hholds)) rfl rfl rfl
    exact ⟨_, (hcompare.trans hskip).trans hset, rfl, by simp, hkept 0⟩

/-- Settling brings the left operand to the register of the depth. -/
theorem reaches_settled (hcode : M.Holds s.pc (Code.ofInstrs d.settle)) :
    ∃ t, M.ReachesWithin A s t ∧ t.pc = s.pc + d.settle.length ∧ t.regs d.reg = s.regs d.left ∧
      Kept d s t := by
  unfold Depth.settle at hcode ⊢
  split at hcode
  · rename_i heq
    rw [if_pos heq]
    exact ⟨s, .refl s, rfl, by rw [heq], .refl d s⟩
  · rename_i hne
    rw [if_neg hne]
    refine ⟨(s.set d.reg (s.regs d.left)).next, .quiet hcode rfl rfl rfl rfl, rfl, by simp, ?_⟩
    refine .of_regs rfl fun r hr => ?_
    have hreg := (Depth.ne_of_kept hr).1
    simp [hreg]

/-- The product in two halves, the test that the high one repeats the sign, and the low one as the
result. -/
theorem computes_product {em : Emitter} (hcode : M.Holds s.pc (Code.ofInstrs
      ([{ opcode := .smull, operands := [.reg d.left, .reg d.right, .reg d.left, .reg d.right] },
        .cmp d.right (.shifted d.left (.asr 31))]
        ++ [(Instr.bl Routine.throwOverflowError.label).when .ne] ++ d.settle)))
    (hroutines : M.ProvidesAll (em.require .throwOverflowError)) :
    M.ComputesWithin A d s (s.pc + (3 + d.settle.length))
      (evalBinary .mul (s.regs d.left).toInt (s.regs d.right).toInt) := by
  rw [Code.ofInstrs, List.map_append] at hcode
  have hhead := hcode.left
  have hsettle := hcode.right
  let p := Word.product (s.regs d.left) (s.regs d.right)
  let multiplied : State := ((s.set d.left p.1).set d.right p.2).next
  let compared : State := Machine.compared multiplied p.2 (p.1.sshiftRight 31)
  have hmultiply : M.ReachesWithin A s multiplied := .quiet hhead rfl rfl rfl rfl
  have hleft : multiplied.regs d.left = p.1 := by simp [multiplied, d.left_ne_right]
  have hright : multiplied.regs d.right = p.2 := by simp [multiplied]
  have hcompare : M.ReachesWithin A multiplied compared := by
    have h : multiplied.operand? (.shifted d.left (.asr 31)) = some (p.1.sshiftRight 31) := by
      rw [State.operand?, hleft]
    have hreach := Machine.ReachesWithin.cmp (A := A) hhead.2.2 h
    rw [hright] at hreach
    exact hreach
  have hflag : compared.flags.zero =
      decide (Word.Fits ((s.regs d.left).toInt * (s.regs d.right).toInt)) := by
    change (Word.subtract p.2 (p.1.sshiftRight 31)).2.zero = _
    rw [Word.subtract_zero]
    exact decide_eq_decide.2 (Word.product_fits_iff _ _)
  have hkept : Kept d s compared.next := by
    refine .of_regs rfl fun r hr => ?_
    obtain ⟨-, hl, hr', -⟩ := Depth.ne_of_kept hr
    simp [compared, multiplied, hl, hr']
  simp only [evalBinary, checked]
  split
  · rename_i hfits
    have hskip : M.ReachesWithin A compared compared.next :=
      .skip hhead.2.2.2.2 (by simp [Instr.when, Cond.holds, hflag, hfits])
    obtain ⟨t, hreach, hpc, hreg, hkept'⟩ := reaches_settled (s := compared.next) hsettle
    refine ⟨t, ((hmultiply.trans hcompare).trans hskip).trans hreach, ?_, ?_, hkept.trans hkept'⟩
    · rw [hpc]
      change s.pc + 3 + _ = _
      omega
    · have hresult : t.regs d.reg = p.1 := hreg.trans hleft
      rw [hresult]
      exact Word.toInt_ofInt_of_fits hfits
  · rename_i hfits
    obtain ⟨hthrow, hdeps⟩ := hroutines.required
    refine Machine.RaisesWithin.of_reaches (hmultiply.trans hcompare)
      (Machine.raises_overflow hthrow (hdeps _ (by decide)) hhead.2.2.2.2 ?_)
    simp [Cond.holds, hflag, hfits]

/-- The check of the divisor and the call of a division routine that leaves `f` of the operands in
the register `out`. -/
theorem computes_division {name : String} {out : Register} {f : Int → Int → Int} {em : Emitter}
    (houtside : M.line? name = none)
    (hwithin : ∀ s t, M.external name s = some t → ∀ a ∉ A.stores, t.mem a = s.mem a)
    (hexternal : ∀ s : State, s.regs .r1 ≠ 0 → ∃ t, M.external name s = some t ∧
      t.regs out = BitVec.ofInt 32 (f (s.regs .r0).toInt (s.regs .r1).toInt) ∧ Machine.Preserves s t)
    (hcode : M.Holds s.pc (Code.ofInstrs [.movReg .r0 d.left, .movReg .r1 d.right,
      .bl Routine.checkDivideByZero.label, .bl name, .movReg d.reg out]))
    (hroutines : M.ProvidesAll (em.require .checkDivideByZero)) (hstack : A.Stack s 4) :
    M.ComputesWithin A d s (s.pc + 5)
      (if (s.regs d.right).toInt = 0 then .error .divideByZero
       else .ok (Word.signed (f (s.regs d.left).toInt (s.regs d.right).toInt))) := by
  let first : State := (s.set .r0 (s.regs d.left)).next
  let second : State := (first.set .r1 (first.regs d.right)).next
  have hfirst : M.ReachesWithin A s first := .quiet hcode rfl rfl rfl rfl
  have hsecond : M.ReachesWithin A first second := .quiet hcode.2.2 rfl rfl rfl rfl
  have hstack' : A.Stack second 4 := hstack.of_top_eq rfl
  have hr0 : second.regs .r0 = s.regs d.left := by simp [second, first]
  have hr1 : second.regs .r1 = s.regs d.right := by
    have hne := d.right_ne.2.2.2.1
    simp [second, first, hne]
  have hcheck := hcode.2.2.2.2
  obtain ⟨hprovided, hdeps⟩ := hroutines.required
  split
  · rename_i hzero
    refine Machine.RaisesWithin.of_reaches (hfirst.trans hsecond)
      (Machine.raises_divideByZero (s := second) hprovided (hdeps _ (by decide)) hcheck ?_ hstack')
    rw [hr1]
    exact BitVec.eq_of_toInt_eq hzero
  · rename_i hzero
    have hdivisor : second.regs .r1 ≠ 0 := by
      rw [hr1]
      rintro heq
      exact hzero (by rw [heq]; rfl)
    obtain ⟨third, hthird, hpc, hregs, hmem⟩ :=
      Machine.check_divisor hprovided hcheck hdivisor hstack'
    have hcall : M.Holds third.pc (Code.ofInstrs [.bl name, .movReg d.reg out]) := by
      rw [hpc]
      exact hcheck.2.2
    let called : State := third.set .lr (M.place (third.pc + 1))
    have hc0 : called.regs .r0 = s.regs d.left := (hregs .r0 (by decide) (by decide)).trans hr0
    have hc1 : called.regs .r1 = s.regs d.right := (hregs .r1 (by decide) (by decide)).trans hr1
    obtain ⟨fourth, hfourth, hout, hkept⟩ := hexternal called (by rw [hc1, ← hr1]; exact hdivisor)
    let returned : State := { fourth with pc := third.pc + 1 }
    have hreturned : M.ReachesWithin A third returned :=
      .exec hcall rfl (Machine.exec_bl_external houtside hfourth) (Set.empty_subset _)
        fun a ha => hwithin _ _ hfourth a ha
    have hmove : M.ReachesWithin A returned (returned.set d.reg (returned.regs out)).next :=
      .quiet hcall.2.2 rfl rfl rfl rfl
    refine ⟨_, (((hfirst.trans hsecond).trans hthird).trans hreturned).trans hmove, ?_, ?_, ?_⟩
    · change third.pc + 1 + 1 = s.pc + 5
      rw [hpc]
      rfl
    · simp only [State.next_regs, State.set_regs, if_true]
      rw [← Word.toInt_ofInt, ← hc0, ← hc1]
      exact congrArg _ hout
    · have htop : called.top = s.top := by
        change (third.regs .sp).toNat = (s.regs .sp).toNat
        rw [hregs .sp (by decide) (by decide)]
        rfl
      have hall (r : Register) (hr : r = .sp ∨ r ∈ d.live) : fourth.regs r = s.regs r := by
        obtain ⟨-, -, -, hlr, hpc', h0, h1, -⟩ := Depth.ne_of_kept hr
        have hsaved : r ∈ calleeSaved := by
          rcases hr with rfl | hr
          · decide
          · exact (Depth.ne_of_mem_pool (d.live_subset_pool hr)).1
        rw [hkept.regs r hsaved]
        change (if r = .lr then _ else third.regs r) = _
        rw [if_neg hlr, hregs r hlr hpc']
        simp [second, first, h0, h1]
      have hfinal (r : Register) (hr : r = .sp ∨ r ∈ d.live) :
          ((returned.set d.reg (returned.regs out)).next).regs r = s.regs r := by
        have hne := (Depth.ne_of_kept hr).1
        simp only [State.next_regs, State.set_regs, if_neg hne]
        exact hall r hr
      refine ⟨hfinal .sp (.inl rfl), fun r hr => hfinal r (.inr hr), fun a ha => ?_⟩
      exact (hkept.mem a (by rw [htop]; exact ha)).trans (hmem a ha)

/-- The code of a binary operator computes what it means of the values of its operands. -/
theorem computes_binary (d : Depth) (em : Emitter) (op : BinaryOp) :
    ∃ code em', Emission.binary op d em = .ok (code, em') ∧ em.Grows em' ∧
      ∀ {M : Machine} {A : Access} {s : State}, M.Divides → M.DivisionWithin A.stores →
        M.Holds s.pc (Code.ofInstrs code) → M.ProvidesAll em' →
        (op = .div ∨ op = .rem → A.Stack s 4) →
        (op.kind = .logical → Truth (s.regs d.left).toInt ∧ Truth (s.regs d.right).toInt) →
        M.ComputesWithin A d s (s.pc + code.length)
          (evalBinary op (s.regs d.left).toInt (s.regs d.right).toInt) := by
  cases op with
  | add =>
    refine ⟨_, _, rfl, em.grows_require _, fun {M A s} _ _ hcode hroutines _ _ => ?_⟩
    refine computes_checked (Word.addWithCarry (s.regs d.left) (s.regs d.right) false) hcode
      hroutines rfl rfl rfl ?_ ?_
    · rw [Word.addWithCarry_toInt]
      simp
    · refine (Word.addWithCarry_overflow _ _ _).trans ?_
      simp
  | sub =>
    refine ⟨_, _, rfl, em.grows_require _, fun {M A s} _ _ hcode hroutines _ _ => ?_⟩
    exact computes_checked (Word.subtract (s.regs d.left) (s.regs d.right)) hcode hroutines rfl rfl rfl
      (Word.subtract_toInt _ _) (Word.subtract_overflow _ _)
  | mul =>
    refine ⟨_, _, rfl, em.grows_require _, fun {M A s} _ _ hcode hroutines _ _ => ?_⟩
    rw [List.length_append]
    exact computes_product hcode hroutines
  | div =>
    refine ⟨_, _, rfl, em.grows_require _, fun {M A s} hdivides hwithin hcode hroutines hstack _ => ?_⟩
    exact computes_division hdivides.quotient_outside (fun s t => hwithin _ s t (.inl rfl))
      hdivides.quotient hcode hroutines (hstack (.inl rfl))
  | rem =>
    refine ⟨_, _, rfl, em.grows_require _, fun {M A s} hdivides hwithin hcode hroutines hstack _ => ?_⟩
    have hrun := computes_division hdivides.remainder_outside (fun s t => hwithin _ s t (.inr rfl))
      hdivides.remainder hcode hroutines (hstack (.inr rfl))
    rw [(Word.signed_eq_self_iff _).2 (Word.fits_tmod _ (Word.fits_toInt _))] at hrun
    exact hrun
  | gt | ge | lt | le | eq | ne =>
    exact ⟨_, _, rfl, .refl em, fun _ _ hcode _ _ _ => computes_comparison (by decide) hcode⟩
  | and =>
    refine ⟨_, _, rfl, .refl em, fun {M A s} _ _ hcode _ _ htruth => ?_⟩
    have hrun : M.ComputesWithin A d s (s.pc + 1) (.ok (s.regs d.left &&& s.regs d.right).toInt) :=
      computes_set hcode rfl rfl (Set.empty_subset _)
    obtain ⟨hl, hr⟩ := htruth rfl
    rcases eq_zero_or_one_of_truth hl with hl | hl <;>
      rcases eq_zero_or_one_of_truth hr with hr | hr <;> rw [hl, hr] at hrun ⊢ <;> exact hrun
  | or =>
    refine ⟨_, _, rfl, .refl em, fun {M A s} _ _ hcode _ _ htruth => ?_⟩
    have hrun : M.ComputesWithin A d s (s.pc + 1) (.ok (s.regs d.left ||| s.regs d.right).toInt) :=
      computes_set hcode rfl rfl (Set.empty_subset _)
    obtain ⟨hl, hr⟩ := htruth rfl
    rcases eq_zero_or_one_of_truth hl with hl | hl <;>
      rcases eq_zero_or_one_of_truth hr with hr | hr <;> rw [hl, hr] at hrun ⊢ <;> exact hrun

end Scalar

end WaccArm
