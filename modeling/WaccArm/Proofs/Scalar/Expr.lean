import WaccArm.Proofs.Emission.Trace
import WaccArm.Proofs.Machine.Linked
import WaccArm.Proofs.Scalar.Operators

namespace WaccArm

open Scalar Emission

namespace Scalar

/-- Every variable has a slot of the size of its type. -/
def Covers (ctx : Context) (types : Types) : Prop :=
  ∀ name type, types name = some type → isScalar type →
    ∃ slot, ctx.slots.lookup? name (fun _ => true) = some slot ∧ slot.size = type.size

/-- The stack holds the value of every variable where the frame says, at or above the stack pointer
and before the end of memory. -/
def Represents (ctx : Context) (types : Types) (values : Values) (s : State) : Prop :=
  ∀ name type slot, types name = some type → isScalar type →
    ctx.slots.lookup? name (fun _ => true) = some slot →
    ∃ (v : Int) (a : Nat), values name = some v ∧ (type = .bool → Truth v) ∧
      (a : Int) = s.top + (ctx.frame.displacement - slot.depth) ∧
      s.top ≤ a ∧ a + type.size ≤ 2 ^ 32 ∧
      (s.mem.load type.size (BitVec.ofNat 32 a)).toInt = v

/-- The addresses of the variables. -/
def storage (ctx : Context) (types : Types) (s : State) : Set Word :=
  {a | ∃ name type slot, types name = some type ∧ isScalar type ∧
    ctx.slots.lookup? name (fun _ => true) = some slot ∧
    a ∈ Word.span (BitVec.ofInt 32 (s.top + (ctx.frame.displacement - slot.depth))) type.size}

/-- Expressions that need `n` bytes of stack can be evaluated within an access: the variables may be
loaded, and the stack may be used. -/
structure Allows (M : Machine) (A : Access) (ctx : Context) (types : Types) (s : State) (n : Nat) :
    Prop where
  stack : A.Stack s n
  storage : storage ctx types s ⊆ A.loads
  division : M.DivisionWithin A.stores

theorem size_eq (type : Ty) : type.size = 1 ∨ type.size = 4 := by
  cases type <;> simp [Ty.size]

variable {ctx ctx' : Context} {types : Types} {values : Values} {s t : State}

theorem Covers.push (h : Covers ctx types) (bytes : Nat) : Covers (ctx.push bytes) types := h

/-- The stack pointer may move if the frame moves with it, and memory below where it was may
change. -/
theorem Represents.transfer (h : Represents ctx types values s) (hslots : ctx'.slots = ctx.slots)
    (hentry : (t.top : Int) + ctx'.frame.displacement = s.top + ctx.frame.displacement)
    (htop : t.top ≤ s.top) (hmem : ∀ a : Word, s.top ≤ a.toNat → t.mem a = s.mem a) :
    Represents ctx' types values t := by
  intro name type slot hname hscalar hslot
  rw [hslots] at hslot
  obtain ⟨v, a, hv, htruth, ha, hlow, hhigh, hload⟩ := h name type slot hname hscalar hslot
  refine ⟨v, a, hv, htruth, by omega, by omega, hhigh, ?_⟩
  have hsize := size_eq type
  have haddr : (BitVec.ofNat 32 a).toNat = a := by
    rw [BitVec.toNat_ofNat]
    exact Nat.mod_eq_of_lt (by omega)
  rw [← hload]
  congr 1
  exact Memory.load_congr hsize (by omega) fun b hb _ => hmem b (by omega)

/-- What an evaluation keeps represents the same values. -/
theorem Represents.of_kept {d : Depth} (h : Represents ctx types values s) (hkept : Kept d s t) :
    Represents ctx types values t :=
  h.transfer rfl (by rw [hkept.top_eq]) (Nat.le_of_eq hkept.top_eq) hkept.mem

/-- The variables stay where they are. -/
theorem storage_eq (hslots : ctx'.slots = ctx.slots)
    (hentry : (t.top : Int) + ctx'.frame.displacement = s.top + ctx.frame.displacement) :
    storage ctx' types t = storage ctx types s := by
  have haddress (slot : Slot) : (t.top : Int) + (ctx'.frame.displacement - slot.depth) =
      s.top + (ctx.frame.displacement - slot.depth) := by omega
  simp only [storage, hslots, haddress]

namespace Allows

variable {M : Machine} {A : Access} {m n : Nat}

theorem all (hroom : n ≤ s.top) : Allows M .all ctx types s n :=
  ⟨.all hroom, Set.subset_univ _, fun _ _ _ _ _ a ha => absurd (Set.mem_univ a) ha⟩

theorem mono (h : Allows M A ctx types s n) (hle : m ≤ n) : Allows M A ctx types s m :=
  ⟨h.stack.mono hle, h.storage, h.division⟩

theorem of_top_eq (h : Allows M A ctx types s n) (htop : t.top = s.top) :
    Allows M A ctx types t n := by
  refine ⟨h.stack.of_top_eq htop, ?_, h.division⟩
  have hsame : Scalar.storage ctx types t = Scalar.storage ctx types s :=
    storage_eq rfl (by rw [htop])
  rw [hsame]
  exact h.storage

/-- Below a saved register the variables may still be read. -/
theorem push (h : Allows M A ctx types s (4 + n)) (r : Register) :
    Allows M A (ctx.push 4) types (s.push [r]).next n := by
  refine ⟨h.stack.push r, ?_, h.division⟩
  have htop : (s.push [r]).next.top + 4 = s.top := State.push_top (by have := h.stack.room; omega) r
  have hsame : Scalar.storage (ctx.push 4) types (s.push [r]).next = Scalar.storage ctx types s :=
    storage_eq rfl (by simp only [Context.push, Frame.push]; omega)
  rw [hsame]
  exact h.storage

end Allows

/-- The offset from the stack pointer leads to the address, although it is reduced to 32 bits. -/
theorem address_eq (s : State) (frame : Frame) (slot : Slot) :
    s.regs .sp + BitVec.ofInt 32 (frame.offset slot) =
      BitVec.ofInt 32 (s.top + (frame.displacement - slot.depth)) := by
  have hsp : s.regs .sp = BitVec.ofInt 32 (s.top : Int) := by
    rw [BitVec.ofInt_natCast, State.top, BitVec.ofNat_toNat, BitVec.setWidth_eq]
  rw [Frame.offset, Word.ofInt_signed, BitVec.ofInt_add, ← hsp]

/-- Loading from a slot. One that is out of reach is addressed through the scratch register. -/
theorem computes_load {M : Machine} {A : Access} {d : Depth} {slot : Slot} {size : Nat}
    (hsize : size = 1 ∨ size = 4)
    (hcode : M.Holds s.pc (Code.ofInstrs (ctx.load size d.reg slot)))
    (hloads : Word.span (BitVec.ofInt 32 (s.top + (ctx.frame.displacement - slot.depth))) size ⊆
      A.loads) :
    M.ComputesWithin A d s (s.pc + (ctx.load size d.reg slot).length)
      (.ok (s.mem.load size
        (BitVec.ofInt 32 (s.top + (ctx.frame.displacement - slot.depth)))).toInt) := by
  simp only [Context.load, Context.stackOperand] at hcode ⊢
  split at hcode
  · rename_i hreach
    rw [if_pos hreach]
    have haddress : s.address? (.mem .sp (ctx.frame.offset slot)) =
        some (BitVec.ofInt 32 (s.top + (ctx.frame.displacement - slot.depth))) := by
      rw [State.address?, address_eq]
    refine computes_set hcode rfl (Machine.exec_load haddress size d.reg) ?_
    rw [Instr.loads_load haddress hsize]
    exact hloads
  · rename_i hreach
    rw [if_neg hreach]
    let far : State := (s.set .r12 (BitVec.ofInt 32 (ctx.frame.offset slot))).next
    have hfar : M.ReachesWithin A s far := .quiet hcode rfl rfl rfl rfl
    have haddress : far.address? (.indexed .sp scratch) =
        some (BitVec.ofInt 32 (s.top + (ctx.frame.displacement - slot.depth))) :=
      congrArg some (address_eq s ctx.frame slot)
    obtain ⟨t, hreach, hpc, hvalue, hkept⟩ := computes_set (s := far) (d := d) hcode.2.2 rfl
      (Machine.exec_load haddress size d.reg)
      (by rw [Instr.loads_load haddress hsize]; exact hloads)
    have hscratch : Kept d s far := by
      refine .of_regs rfl fun r hr => ?_
      have hne := (Depth.ne_of_kept hr).2.2.2.2.2.2.2
      simp [far, hne]
    exact ⟨t, hfar.trans hreach, hpc, hvalue, hscratch.trans hkept⟩

/-- From state `s` with a left operand in the register of depth `d`, the machine gets to line `stop`
with both operands in place, or raises the trap of the right one. -/
def ComputesRight (M : Machine) (A : Access) (d : Depth) (s : State) (stop : Nat) :
    Except Trap Int → Prop
  | .ok v => ∃ t, M.ReachesWithin A s t ∧ t.pc = stop ∧ t.regs d.left = s.regs d.reg ∧
      (t.regs d.right).toInt = v ∧ Kept d s t
  | .error trap => M.RaisesWithin A s trap

/-- A right operand at the next depth. -/
theorem computesRight_next {M : Machine} {A : Access} {d : Depth} {stop : Nat}
    {result : Except Trap Int} (hmore : d.exhausted = false)
    (h : M.ComputesWithin A d.next s stop result) : ComputesRight M A d s stop result := by
  cases result with
  | error trap => exact h
  | ok v =>
    obtain ⟨t, hreach, hpc, hvalue, hkept⟩ := h
    refine ⟨t, hreach, hpc, ?_, hvalue, hkept.of_next⟩
    rw [Depth.left_of_not_exhausted hmore]
    exact hkept.live d.reg (Depth.reg_mem_live_next hmore)

/-- A right operand while the left one waits on the stack. -/
theorem computesRight_spilled {M : Machine} {A : Access} {d : Depth} {code : List Instr}
    {result : Except Trap Int} (hlast : d.exhausted = true) (hstack : A.Stack s 4)
    (hcode : M.Holds s.pc (Code.ofInstrs ([.push [d.reg]] ++ code ++ [.pop [scratch]])))
    (h : M.ComputesWithin A d (s.push [d.reg]).next (s.pc + 1 + code.length) result) :
    ComputesRight M A d s (s.pc + ([.push [d.reg]] ++ code ++ [.pop [scratch]] : List Instr).length)
      result := by
  rw [Code.ofInstrs, List.map_append, List.map_append] at hcode
  let spilled : State := (s.push [d.reg]).next
  have hspill : M.ReachesWithin A s spilled := .push d.reg hcode.left.left hstack
  have hsp : (s.regs .sp - 4).toNat + 4 = s.top := State.push_top hstack.room d.reg
  cases result with
  | error trap => exact .of_reaches hspill h
  | ok v =>
    obtain ⟨t, hreach, hpc, hvalue, hkept⟩ := h
    have hpop : M.Holds t.pc (Code.ofInstrs [.pop [scratch]]) := by
      have := hcode.right
      simp only [List.length_append, List.length_map, List.length_singleton, ← Nat.add_assoc] at this
      rw [hpc]
      exact this
    have htsp : t.regs .sp = s.regs .sp - 4 := hkept.sp
    have hback : t.mem.readWord (t.regs .sp) = s.regs d.reg := by
      rw [htsp, ← Memory.readWord_writeWord s.mem (s.regs .sp - 4) (s.regs d.reg)]
      refine Memory.readWord_congr ?_ fun a ha _ => hkept.mem a ha
      have := s.top_lt
      omega
    have hreg : d.reg ≠ .r12 := (Depth.ne_of_mem_pool d.reg_mem_pool).2.2.2.2.2.2
    have hloads : (Instr.pop [scratch]).loads t ⊆ A.loads := by
      change Word.span (t.regs .sp) 4 ⊆ A.loads
      rw [htsp, ← State.below_four hstack.room]
      exact hstack.loads
    have hunspill : M.ReachesWithin A t (t.pop [scratch]).next :=
      .exec hpop rfl rfl hloads fun _ _ => rfl
    refine ⟨(t.pop [scratch]).next, (hspill.trans hreach).trans hunspill, ?_, ?_, ?_, ?_⟩
    · change t.pc + 1 = _
      simp only [List.length_append, List.length_singleton]
      omega
    · rw [Depth.left_of_exhausted hlast]
      exact hback
    · rw [Depth.right_of_exhausted hlast, State.pop_single, scratch]
      simp only [State.next_regs, State.set_regs, if_neg d.reg_ne.1, if_neg hreg]
      exact hvalue
    · refine ⟨?_, fun r hr => ?_, fun a ha => ?_⟩
      · change t.regs .sp + 4 = s.regs .sp
        rw [htsp]
        bv_omega
      · have hscratch : r ≠ .r12 := (Depth.ne_of_kept (.inr hr)).2.2.2.2.2.2.2
        have hsp' : r ≠ .sp := (Depth.ne_of_mem_pool (d.live_subset_pool hr)).2.1
        rw [State.pop_single, scratch]
        simp only [State.next_regs, State.set_regs, if_neg hsp', if_neg hscratch]
        rw [hkept.live r hr, State.push_single]
        simp [hsp']
      · have hlow : (s.regs .sp - 4).toNat ≤ a.toNat := by omega
        refine (hkept.mem a hlow).trans (State.push_mem hstack.room d.reg ?_)
        rw [State.mem_below]
        omega

/-- Comparisons and connectives give truth values. -/
theorem truth_of_evalBinary {op : BinaryOp} {l r v : Int} (hop : op.kind ≠ .arithmetic)
    (h : evalBinary op l r = .ok v) : Truth v := by
  cases op <;> simp only [BinaryOp.kind, ne_eq, not_true_eq_false] at hop <;> cases h <;>
    exact truth_toInt _

/-- The value of a boolean expression is a truth value, if those of the variables are. -/
theorem Typed.truth {e : Checked.Expr} {type : Ty} (htyped : Typed types e type)
    (hvalues : ∀ name v, types name = some .bool → values name = some v → Truth v)
    (hbool : type = .bool) {v : Int} (hv : eval values e = .ok v) : Truth v := by
  cases htyped with
  | bool b =>
    cases hv
    exact truth_toInt b
  | var hname _ =>
    subst hbool
    rw [eval] at hv
    split at hv
    · cases hv
      exact hvalues _ _ hname ‹_›
    · cases hv
  | not _ =>
    rw [eval] at hv
    obtain ⟨w, _, hw⟩ := except_bind_eq_ok.1 hv
    cases hw
    exact truth_toInt _
  | ordering hop _ _ _ | equality hop _ _ | logical hop _ _ =>
    rw [eval] at hv
    obtain ⟨l, _, hv⟩ := except_bind_eq_ok.1 hv
    obtain ⟨r, _, hv⟩ := except_bind_eq_ok.1 hv
    exact truth_of_evalBinary (by rw [hop]; decide) hv
  | int | char | negate | ord | chr | arithmetic => cases hbool

theorem Represents.truth (h : Represents ctx types values s) (hcovers : Covers ctx types)
    (name : String) (v : Int) (hname : types name = some .bool) (hv : values name = some v) :
    Truth v := by
  obtain ⟨slot, hslot, _⟩ := hcovers name .bool hname rfl
  obtain ⟨w, _, hw, htruth, _⟩ := h name .bool slot hname rfl hslot
  rw [hv] at hw
  cases hw
  exact htruth rfl

/-- What the code of an expression does, wherever it stands: it computes the value. -/
def ExprRuns (types : Types) (e : Checked.Expr) (ctx : Context) (d : Depth) (em : Emitter) : Prop :=
  ∃ code em', Emission.expr e ctx d em = .ok (code, em') ∧ em.Grows em' ∧
    ∀ {M : Machine} {s : State} {values : Values}, M.Divides → M.Holds s.pc (Code.ofInstrs code) →
      M.ProvidesAll em' → Represents ctx types values s → room e d ≤ s.top →
      M.Computes d s (s.pc + code.length) (eval values e)

/-- The same within every access that allows it. -/
def ExprRunsWithin (types : Types) (e : Checked.Expr) (ctx : Context) (d : Depth) (em : Emitter) :
    Prop :=
  ∃ code em', Emission.expr e ctx d em = .ok (code, em') ∧ em.Grows em' ∧
    ∀ {M : Machine} {A : Access} {s : State} {values : Values}, M.Divides →
      M.Holds s.pc (Code.ofInstrs code) → M.ProvidesAll em' → Represents ctx types values s →
      Allows M A ctx types s (room e d) → M.ComputesWithin A d s (s.pc + code.length) (eval values e)

theorem ExprRunsWithin.runs {e : Checked.Expr} {d : Depth} {em : Emitter}
    (h : ExprRunsWithin types e ctx d em) : ExprRuns types e ctx d em := by
  obtain ⟨code, em', hcode, hgrows, hrun⟩ := h
  refine ⟨code, em', hcode, hgrows, ?_⟩
  intro M s values hdivides hholds hprovides hrep hroom
  exact (hrun hdivides hholds hprovides hrep (.all hroom)).computes

/-- A variable is loaded. -/
theorem exprRuns_var {name : String} {type : Ty} {d : Depth} {em : Emitter}
    (hcovers : Covers ctx types) (hname : types name = some type) (hscalar : isScalar type) :
    ExprRunsWithin types (.var type name) ctx d em := by
  obtain ⟨slot, hslot, hsize⟩ := hcovers name type hname hscalar
  refine ⟨ctx.load slot.size d.reg slot, em, ?_, .refl em, ?_⟩
  · rw [Emission.expr, Context.slot, hslot]
    rfl
  · intro M A s values _ hcode _ hrep hallows
    obtain ⟨v, a, hv, _, ha, _, _, hload⟩ := hrep name type slot hname hscalar hslot
    have hsize' : slot.size = 1 ∨ slot.size = 4 := by
      rw [hsize]
      exact size_eq type
    have h := computes_load (A := A) hsize' hcode fun b hb =>
      hallows.storage ⟨name, type, slot, hname, hscalar, hslot, hsize ▸ hb⟩
    rw [← ha, BitVec.ofInt_natCast, hsize, hload] at h
    rw [eval, hv, hsize]
    exact h

/-- A unary operator follows its operand. -/
theorem exprRuns_unary {op : UnaryOp} {type : Ty} {e : Checked.Expr} {d : Depth} {em : Emitter}
    (hop : op ≠ .len) (hbool : op = .not → Typed types e .bool) (hcovers : Covers ctx types)
    (he : ExprRunsWithin types e ctx d em) : ExprRunsWithin types (.unary type op e) ctx d em := by
  obtain ⟨code, em₁, hcode, hgrows, hrun⟩ := he
  obtain ⟨code', em₂, hcode', hgrows', hrun'⟩ := computes_unary d em₁ hop
  refine ⟨code ++ code', em₂, ?_, hgrows.trans hgrows', ?_⟩
  · rw [Emission.expr, Emit.bind_of_ok hcode, Emit.bind_of_ok hcode']
    rfl
  · intro M A s values hdivides hholds hprovides hrep hallows
    rw [Code.ofInstrs, List.map_append] at hholds
    have h := hrun hdivides hholds.left (hprovides.of_grows hgrows') hrep hallows
    rw [eval]
    cases hv : eval values e with
    | error trap =>
      rw [hv] at h
      exact h
    | ok v =>
      rw [hv] at h
      obtain ⟨t, hreach, hpc, hvalue, hkept⟩ := h
      have hholds' : M.Holds t.pc (Code.ofInstrs code') := by
        rw [hpc]
        simpa [Code.ofInstrs] using hholds.right
      have h' := hrun' (A := A) hholds' hprovides fun hnot => by
        rw [hvalue]
        exact (hbool hnot).truth (hrep.truth hcovers) rfl hv
      rw [hvalue, hpc] at h'
      rw [List.length_append, ← Nat.add_assoc]
      exact h'.after hreach hkept

/-- The code of a right operand puts both operands in place, with or without a register left. -/
theorem operand_runs {e : Checked.Expr} {d : Depth} {em : Emitter} (hcovers : Covers ctx types)
    (he : ∀ ctx d, Covers ctx types → ExprRunsWithin types e ctx d em) :
    ∃ code em', operand (Emission.expr e) ctx d em = .ok (code, em') ∧ em.Grows em' ∧
      ∀ {M : Machine} {A : Access} {s : State} {values : Values}, M.Divides →
        M.Holds s.pc (Code.ofInstrs code) → M.ProvidesAll em' → Represents ctx types values s →
        Allows M A ctx types s (if d.exhausted then 4 + room e d else room e d.next) →
        ComputesRight M A d s (s.pc + code.length) (eval values e) := by
  cases hlast : d.exhausted with
  | false =>
    obtain ⟨code, em', hcode, hgrows, hrun⟩ := he ctx d.next hcovers
    refine ⟨code, em', ?_, hgrows, ?_⟩
    · simp only [operand, hlast]
      exact hcode
    · intro M A s values hdivides hholds hprovides hrep hallows
      exact computesRight_next hlast (hrun hdivides hholds hprovides hrep hallows)
  | true =>
    obtain ⟨code, em', hcode, hgrows, hrun⟩ := he (ctx.push 4) d (hcovers.push 4)
    refine ⟨[.push [d.reg]] ++ code ++ [.pop [scratch]], em', ?_, hgrows, ?_⟩
    · simp only [operand, hlast, if_true]
      rw [Emit.bind_of_ok hcode]
      rfl
    · intro M A s values hdivides hholds hprovides hrep hallows
      rw [if_pos rfl] at hallows
      have hstack : A.Stack s 4 := hallows.stack.mono (Nat.le_add_right 4 _)
      have hinner : M.Holds (s.pc + 1) (Code.ofInstrs code) := by
        rw [Code.ofInstrs, List.map_append, List.map_append] at hholds
        exact hholds.left.right
      have htop : (s.push [d.reg]).next.top + 4 = s.top := State.push_top hstack.room d.reg
      have hrep' : Represents (ctx.push 4) types values (s.push [d.reg]).next := by
        refine hrep.transfer rfl ?_ (by omega) fun a ha => ?_
        · simp only [Context.push, Frame.push]
          omega
        · refine State.push_mem hstack.room d.reg ?_
          rw [State.mem_below]
          omega
      have h := hrun (s := (s.push [d.reg]).next) hdivides hinner hprovides hrep' (hallows.push d.reg)
      exact computesRight_spilled hlast hstack hholds h

/-- A binary operator follows both operands. -/
theorem exprRuns_binary {op : BinaryOp} {type : Ty} {l r : Checked.Expr} {d : Depth} {em : Emitter}
    (hbool : op.kind = .logical → Typed types l .bool ∧ Typed types r .bool)
    (hcovers : Covers ctx types) (hl : ExprRunsWithin types l ctx d em)
    (hr : ∀ ctx d em, Covers ctx types → ExprRunsWithin types r ctx d em) :
    ExprRunsWithin types (.binary type op l r) ctx d em := by
  obtain ⟨lcode, em₁, hlcode, hgrows₁, hlrun⟩ := hl
  obtain ⟨rcode, em₂, hrcode, hgrows₂, hrrun⟩ := operand_runs hcovers fun ctx d => hr ctx d em₁
  obtain ⟨code, em₃, hcode, hgrows₃, hrun⟩ := computes_binary d em₂ op
  refine ⟨lcode ++ rcode ++ code, em₃, ?_, (hgrows₁.trans hgrows₂).trans hgrows₃, ?_⟩
  · rw [Emission.expr, Emit.bind_of_ok hlcode, Emit.bind_of_ok hrcode, Emit.bind_of_ok hcode]
    rfl
  intro M A s values hdivides hholds hprovides hrep hallows
  simp only [Code.ofInstrs, List.map_append] at hholds
  simp only [room] at hallows
  have hleft := hlrun hdivides hholds.left.left (hprovides.of_grows (hgrows₂.trans hgrows₃)) hrep
    (hallows.mono (Nat.le_max_left _ _))
  rw [eval]
  cases hlv : eval values l with
  | error trap =>
    rw [hlv] at hleft
    exact hleft
  | ok lv =>
    rw [hlv] at hleft
    obtain ⟨t, hreach, hpc, hlvalue, hkept⟩ := hleft
    have hholds₂ : M.Holds t.pc (Code.ofInstrs rcode) := by
      rw [hpc]
      simpa [Code.ofInstrs] using hholds.left.right
    have hright := hrrun hdivides hholds₂ (hprovides.of_grows hgrows₃) (hrep.of_kept hkept)
      ((hallows.mono ((Nat.le_max_left _ _).trans (Nat.le_max_right _ _))).of_top_eq hkept.top_eq)
    cases hrv : eval values r with
    | error trap =>
      rw [hrv] at hright
      exact .of_reaches hreach hright
    | ok rv =>
      rw [hrv] at hright
      obtain ⟨u, hreach', hpc', hleft, hright, hkept'⟩ := hright
      have hstart : u.pc = s.pc + (lcode ++ rcode).length := by
        rw [hpc', hpc, List.length_append, Nat.add_assoc]
      have hholds₃ : M.Holds u.pc (Code.ofInstrs code) := by
        rw [hstart]
        simpa [Code.ofInstrs] using hholds.right
      have htop : u.top = s.top := hkept'.top_eq.trans hkept.top_eq
      have hstack (hdiv : op = .div ∨ op = .rem) : A.Stack u 4 := by
        rw [if_pos hdiv] at hallows
        exact (hallows.stack.mono ((Nat.le_max_right _ _).trans (Nat.le_max_right _ _))).of_top_eq htop
      have h := hrun hdivides hallows.division hholds₃ hprovides hstack fun hlogical => by
        rw [hleft, hlvalue, hright]
        exact ⟨(hbool hlogical).1.truth (hrep.truth hcovers) rfl hlv,
          (hbool hlogical).2.truth (hrep.truth hcovers) rfl hrv⟩
      rw [hleft, hlvalue, hright, hstart] at h
      rw [List.length_append, ← Nat.add_assoc]
      exact h.after (hreach.trans hreach') (hkept.trans hkept')

/-- One instruction that puts a number into the register. -/
theorem exprRuns_literal {e : Checked.Expr} {d : Depth} {em : Emitter} {i : Instr} {n : Int}
    (hcode : Emission.expr e ctx d em = .ok ([i], em)) (halways : i.cond = .always)
    (hexec : ∀ M s, Machine.exec M s i = some (s.set d.reg (BitVec.ofInt 32 n)).next)
    (hloads : ∀ s, i.loads s = ∅)
    (heval : ∀ values, eval values e = .ok n) (hfits : Word.Fits n) :
    ExprRunsWithin types e ctx d em := by
  refine ⟨[i], em, hcode, .refl em, ?_⟩
  intro M A s values _ hholds _ _ _
  have h := computes_set (A := A) hholds halways (hexec M s) (by rw [hloads s]; exact Set.empty_subset _)
  rw [Word.toInt_ofInt_of_fits hfits] at h
  rw [heval]
  exact h

/-- An expression is computed within the memory that it may use. -/
theorem Typed.runsWithin {e : Checked.Expr} {type : Ty} (htyped : Typed types e type)
    (hcovers : Covers ctx types) (d : Depth) (em : Emitter) : ExprRunsWithin types e ctx d em := by
  induction htyped generalizing ctx d em with
  | int value =>
    refine exprRuns_literal (by rw [Emission.expr]; rfl) rfl (fun _ _ => rfl) (fun _ => rfl)
      (fun _ => rfl) ?_
    exact Word.fits_toInt value.toBitVec
  | bool value =>
    refine exprRuns_literal (n := value.toInt) (by rw [Emission.expr]; rfl) rfl (fun _ _ => ?_)
      (fun _ => rfl) (fun _ => rfl) ?_
    · cases value <;> rfl
    · cases value <;> decide
  | char value =>
    refine exprRuns_literal (by rw [Emission.expr]; rfl) rfl (fun _ _ => rfl) (fun _ => rfl)
      (fun _ => rfl) ?_
    have := value.toNat_lt
    simp only [Word.Fits]
    omega
  | var hname hscalar => exact exprRuns_var hcovers hname hscalar
  | not he ih => exact exprRuns_unary (by decide) (fun _ => he) hcovers (ih hcovers d em)
  | negate _ ih | ord _ ih | chr _ ih =>
    exact exprRuns_unary (by decide) (by simp) hcovers (ih hcovers d em)
  | arithmetic hop _ _ ihl ihr | ordering hop _ _ _ ihl ihr | equality hop _ _ ihl ihr =>
    refine exprRuns_binary ?_ hcovers (ihl hcovers d em) fun _ d em h => ihr h d em
    simp [hop]
  | logical _ hl hr ihl ihr =>
    exact exprRuns_binary (fun _ => ⟨hl, hr⟩) hcovers (ihl hcovers d em) fun _ d em h => ihr h d em

theorem Typed.runs {e : Checked.Expr} {type : Ty} (htyped : Typed types e type)
    (hcovers : Covers ctx types) (d : Depth) (em : Emitter) : ExprRuns types e ctx d em :=
  (htyped.runsWithin hcovers d em).runs

/-- The code of an expression computes its value. -/
theorem Typed.computes {e : Checked.Expr} {type : Ty} {d : Depth} {em em' : Emitter}
    {items : List Item} {M : Machine} (htyped : Typed types e type) (hcovers : Covers ctx types)
    (hemitted : Emitted (.expr e) ctx d em items em') (hdivides : M.Divides)
    (hcode : M.Holds s.pc (Item.code items)) (hprovides : M.ProvidesAll em')
    (hrep : Represents ctx types values s) (hroom : room e d ≤ s.top) :
    M.Computes d s (s.pc + (Item.code items).length) (eval values e) := by
  obtain ⟨code, em₁, hok, _, hrun⟩ := htyped.runs hcovers d em
  obtain ⟨code', hok', hitems⟩ := hemitted.emit_eq
  cases hok.symm.trans hok'
  rw [hitems] at hcode ⊢
  rw [Code.ofInstrs, List.length_map]
  exact hrun hdivides hcode hprovides hrep hroom

/-- Code is made for every well-typed expression, at every depth. It gets to its end with the value
of the expression in the register of the depth, or to the routine that reports the trap. The
registers of smaller depths, the stack pointer and the stack above it are kept. -/
theorem expr_computes_value {e : Checked.Expr} {type : Ty} (htyped : Typed types e type)
    (hcovers : Covers ctx types) (d : Depth) (em : Emitter) :
    ∃ code em', Emission.expr e ctx d em = .ok (code, em') ∧
      ∀ (M : Machine) (s : State) (values : Values), M.Divides →
        M.Holds s.pc (Code.ofInstrs code) → M.ProvidesAll em' → Represents ctx types values s →
        room e d ≤ s.top → M.Computes d s (s.pc + code.length) (eval values e) := by
  obtain ⟨code, em', hcode, _, hrun⟩ := htyped.runs hcovers d em
  exact ⟨code, em', hcode, fun _ _ _ => hrun⟩

namespace Spilled

/-- The expression `x - 14 / ord c`. -/
def difference : Checked.Expr :=
  .binary .int .sub (.var .int "x")
    (.binary .int .div (.int .int 14) (.unary .int .ord (.var .char "c")))

def typeOf : Types
  | "x" => some .int
  | "c" => some .char
  | _ => none

def valueOf : Values
  | "x" => some 7
  | "c" => some 3
  | _ => none

def context : Context := ⟨[[("c", ⟨5, 1⟩), ("x", ⟨4, 4⟩)]], ⟨5, [⟨0, 5, 5⟩]⟩⟩

def code : List Instr :=
  match Emission.expr difference context (.nested 6) {} with
  | .ok (code, _) => code
  | .error _ => []

def machine : Machine :=
  .linked (Code.ofInstrs code)
    [.checkDivideByZero, .throwRuntimeError, .printString, .throwOverflowError] (by decide)

/-- The value of `c` is in the byte at the stack pointer, that of `x` in the word after it. -/
def state : State where
  regs r := if r = .sp then 0x1000 else 0
  flags := ⟨false, false, false, false⟩
  mem a := if a = 0x1000 then 3 else if a = 0x1001 then 7 else 0
  pc := 0

theorem represents : Represents context typeOf valueOf state := by
  intro name type slot hname hscalar hslot
  simp only [typeOf] at hname
  split at hname
  · cases hname
    cases hslot
    exact ⟨7, 0x1001, rfl, nofun, rfl, by decide, by decide, by decide⟩
  · cases hname
    cases hslot
    exact ⟨3, 0x1000, rfl, nofun, rfl, by decide, by decide, by decide⟩
  · cases hname

end Spilled

/-- With no register left, the value of `x` waits on the stack for that of `14 / ord c`. -/
theorem expr_computes_difference :
    ∃ t, Spilled.machine.Reaches Spilled.state t ∧ t.pc = Spilled.code.length ∧
      (t.regs .r11).toInt = 3 ∧ Kept (.nested 6) Spilled.state t := by
  have htyped : Typed Spilled.typeOf Spilled.difference .int :=
    .arithmetic rfl (.var rfl rfl) (.arithmetic rfl (.int 14) (.ord (.var rfl rfl)))
  have hcovers : Covers Spilled.context Spilled.typeOf := by
    intro name type hname hscalar
    simp only [Spilled.typeOf] at hname
    split at hname <;> cases hname <;> exact ⟨_, rfl, rfl⟩
  obtain ⟨code, em, hcode, hrun⟩ := expr_computes_value htyped hcovers (.nested 6) {}
  cases hcode
  have hnodup : (Assembly.defined Spilled.machine.text).Nodup := by decide
  refine hrun Spilled.machine Spilled.state Spilled.valueOf ?_ ?_ ?_ Spilled.represents (by decide)
  · exact Machine.linked_divides (by decide) (by decide)
  · exact Machine.linked_holds hnodup
  · exact Machine.providesAll_of_text rfl rfl hnodup (by decide) (by decide +kernel)

end Scalar

end WaccArm
