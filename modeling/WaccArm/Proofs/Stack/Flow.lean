import WaccArm.Proofs.Emission.Labels
import WaccArm.Proofs.Machine.Registers
import WaccArm.Proofs.Machine.Stack

namespace WaccArm

namespace Operand

/-- Whether an operand is a place at a distance from the stack pointer. -/
def onStack : Operand → Bool
  | .mem base _ | .indexed base _ => base = .sp
  | _ => false

@[simp] theorem onStack_mem (base : Register) (offset : Int) :
    (mem base offset).onStack = decide (base = .sp) := by
  simp [onStack]

@[simp] theorem onStack_indexed (base index : Register) :
    (indexed base index).onStack = decide (base = .sp) := by
  simp [onStack]

@[simp] theorem onStack_literal (value : Int) : (literal value).onStack = false := by simp [onStack]

@[simp] theorem onStack_address (name : String) : (address name).onStack = false := by simp [onStack]

@[simp] theorem onStack_imm (value : Int) : (imm value).onStack = false := by simp [onStack]

@[simp] theorem onStack_reg (r : Register) : (reg r).onStack = false := by simp [onStack]

end Operand

namespace Instr

/-- The registers that an instruction writes, the program counter and those of calls apart. -/
def writes (i : Instr) : List Register :=
  match i.opcode, i.operands with
  | .push, _ => [.sp]
  | .pop, [.regList rs] => .sp :: rs
  | .str, [_, .preIndexed base _] | .strb, [_, .preIndexed base _] => [base]
  | .str, _ | .strb, _ | .cmp, _ | .b, _ | .bl, _ => []
  | .smull, .reg low :: .reg high :: _ => [low, high]
  | _, .reg dst :: _ => [dst]
  | _, _ => []

/-- By how many bytes an instruction lowers the stack pointer, if it moves it by a fixed distance. -/
def lowers? (i : Instr) : Option Int :=
  match i.opcode, i.operands with
  | .push, [.regList rs] => some (4 * rs.length)
  | .pop, [.regList rs] => some (-(4 * rs.length))
  | .sub, [.reg .sp, .reg .sp, .imm n] => some n
  | .add, [.reg .sp, .reg .sp, .imm n] => some (-n)
  | .str, [_, .preIndexed .sp offset] | .strb, [_, .preIndexed .sp offset] => some (-offset)
  | _, _ => if .sp ∈ i.writes then none else some 0

/-- Whether an instruction takes the program counter off the stack. -/
def returns (i : Instr) : Bool :=
  match i.opcode, i.operands with
  | .pop, [.regList rs] => rs.contains .pc
  | _, _ => false

/-- Whether an instruction names a place by its distance from the stack pointer. -/
def accesses (i : Instr) : Bool :=
  match i.opcode, i.operands with
  | .add, [.reg dst, .reg left, _] => dst ≠ .sp && left = .sp
  | _, [_, place] => place.onStack
  | _, _ => false

/-- An instruction that leaves the stack pointer alone and goes on at the next line. -/
def Steady (i : Instr) : Prop := .sp ∉ i.writes ∧ i.opcode ≠ .b

/-- A steady instruction does not move the stack pointer. -/
theorem Steady.lowers? {i : Instr} (h : i.Steady) : i.lowers? = some 0 := by
  have hwrites := h.1
  unfold writes at hwrites
  unfold Instr.lowers?
  split <;> simp_all [writes]

theorem Steady.returns {i : Instr} (h : i.Steady) : i.returns = false := by
  have hwrites := h.1
  unfold writes at hwrites
  unfold Instr.returns
  split <;> simp_all

theorem Steady.jump? {i : Instr} (h : i.Steady) : i.jump? = none := if_neg h.2

/-- An instruction that has nothing to do with the stack. -/
def Still (i : Instr) : Prop := i.Steady ∧ i.accesses = false

section

variable {dst : Register} {place : Operand}

theorem steady_load (size : Nat) (h : dst ≠ .sp) : (load size dst place).Steady := by
  unfold Steady load Opcode.load
  split <;> simp [writes, h.symm]

theorem steady_store {size : Nat} {src : Register}
    (h : ∀ base offset, place ≠ .preIndexed base offset) : (store size src place).Steady := by
  unfold Steady store Opcode.store
  cases place with
  | preIndexed base offset => exact absurd rfl (h base offset)
  | _ => split <;> simp [writes]

theorem still_load (size : Nat) (h : dst ≠ .sp) (hplace : place.onStack = false) :
    (load size dst place).Still := by
  refine ⟨steady_load size h, ?_⟩
  unfold load Opcode.load
  split <;> simpa [accesses] using hplace

theorem still_store {size : Nat} {src : Register}
    (h : ∀ base offset, place ≠ .preIndexed base offset) (hplace : place.onStack = false) :
    (store size src place).Still := by
  refine ⟨steady_store h, ?_⟩
  unfold store Opcode.store
  split <;> simpa [accesses] using hplace

theorem still_ldr (h : dst ≠ .sp) (hplace : place.onStack = false) : (ldr dst place).Still := by
  simp [Still, Steady, ldr, writes, accesses, h.symm, hplace]

theorem still_mov (h : dst ≠ .sp) (hplace : place.onStack = false) : (mov dst place).Still := by
  simp [Still, Steady, mov, writes, accesses, h.symm, hplace]

theorem still_movReg {src : Register} (h : dst ≠ .sp) : (movReg dst src).Still := still_mov h rfl

theorem steady_add {left : Register} (h : dst ≠ .sp) : (binary .add dst left place).Steady := by
  simp [Steady, binary, writes, h.symm]

theorem still_binary {op : Opcode} {left : Register}
    (hop : op ∈ [Opcode.add, .adds, .subs, .rsbs, .and, .orr, .eor]) (h : dst ≠ .sp)
    (hleft : left ≠ .sp) : (binary op dst left place).Still := by
  simp only [List.mem_cons, List.not_mem_nil, or_false] at hop
  rcases hop with rfl | rfl | rfl | rfl | rfl | rfl | rfl <;>
    simp [Still, Steady, binary, writes, accesses, h.symm, hleft]

theorem still_cmp (left : Register) (hplace : place.onStack = false) : (cmp left place).Still := by
  simp [Still, Steady, cmp, writes, accesses, hplace]

/-- Calls come back with the stack pointer as it was. -/
theorem still_bl (name : String) : (bl name).Still := by
  simp [Still, Steady, bl, writes, accesses]

theorem still_when {i : Instr} {cond : Cond} (h : i.Still) : (i.when cond).Still := h

end

end Instr

namespace Emission

open Instr (Still Steady)

/-- Code takes the stack pointer from one displacement to another, where each label has a displacement
of its own. Nothing goes on after a return, which stands at displacement 0, and what names a place by
its distance from the stack pointer stands at a mark. -/
inductive Flow (levels : String → Int) : Int → List Item → Int → Prop
  | nil (D : Int) : Flow levels D [] D
  | mark {D E items} (h : Flow levels D items E) : Flow levels D (.mark D :: items) E
  | access {D E i items} (hsteady : Steady i) (h : Flow levels D items E) :
    Flow levels D (.mark D :: .line (.instr i) :: items) E
  | label {D E items name} (hlevel : levels name = D) (h : Flow levels D items E) :
    Flow levels D (.line (.label name) :: items) E
  | pool {D E items} (h : Flow levels D items E) : Flow levels D (.line .literalPool :: items) E
  | instr {D E n i items} (haccesses : i.accesses = false) (hreturns : i.returns = false)
    (hlowers : i.lowers? = some n) (hcond : i.cond = .always ∨ n = 0)
    (hjump : ∀ name, i.jump? = some name → levels name = D)
    (h : Flow levels (D + n) items E) : Flow levels D (.line (.instr i) :: items) E
  | ret {D E i items} (hreturns : i.returns = true) (h : Flow levels D items E) :
    Flow levels 0 (.line (.instr i) :: items) E

namespace Flow

variable {levels : String → Int} {D E F : Int} {items items' : List Item}

/-- Flows are put together. -/
theorem append (h : Flow levels D items E) (h' : Flow levels E items' F) :
    Flow levels D (items ++ items') F := by
  induction h with
  | nil => exact h'
  | mark _ ih => exact .mark (ih h')
  | access hsteady _ ih => exact .access hsteady (ih h')
  | label hlevel _ ih => exact .label hlevel (ih h')
  | pool _ ih => exact .pool (ih h')
  | instr haccesses hreturns hlowers hcond hjump _ ih =>
    exact .instr haccesses hreturns hlowers hcond hjump (ih h')
  | ret hreturns _ ih => exact .ret hreturns (ih h')

/-- A still instruction is put in front. -/
theorem of_still {i : Instr} (hstill : i.Still) (h : Flow levels D items E) :
    Flow levels D (.line (.instr i) :: items) E := by
  obtain ⟨hsteady, haccesses⟩ := hstill
  refine .instr haccesses hsteady.returns hsteady.lowers? (.inr rfl) ?_ (by rwa [Int.add_zero])
  rw [hsteady.jump?]
  nofun

/-- A jump goes where the displacement is the same. -/
theorem jump {name : String} (cond : Cond) (hlevel : levels name = D) (h : Flow levels D items E) :
    Flow levels D (.line (.instr ((Instr.b name).when cond)) :: items) E := by
  refine .instr rfl rfl rfl (.inr rfl) ?_ (by rwa [Int.add_zero])
  rintro other ⟨rfl⟩
  exact hlevel

/-- Still instructions do not flow. -/
theorem still {is : List Instr} (h : ∀ i ∈ is, Still i) : Flow levels D (Item.instrs is) D := by
  induction is with
  | nil => exact .nil D
  | cons i is ih =>
    rw [List.forall_mem_cons] at h
    exact .of_still h.1 (ih h.2)

/-- An access to a variable comes back to its displacement. -/
theorem at_place {ctx : Context} {setup : List Instr} {i : Instr} (hsetup : ∀ i ∈ setup, Still i)
    (hlast : i.Steady) :
    Flow levels ctx.frame.displacement (ctx.access (setup ++ [i])) ctx.frame.displacement := by
  induction setup with
  | nil => exact .access hlast (.nil _)
  | cons first setup ih =>
    rw [List.forall_mem_cons] at hsetup
    have hne : setup ++ [i] ≠ [] := by simp
    have hcons : ctx.access (first :: setup ++ [i]) =
        .line (.instr first) :: ctx.access (setup ++ [i]) := by
      rw [List.cons_append, Context.access]
      exact hne
    rw [hcons]
    exact .of_still hsetup.1 (ih hsetup.2)

/-- Lowering the stack pointer flows down. -/
theorem lowered (D : Int) (n : Nat) :
    Flow levels D (Item.instrs (Stack.adjust .sub n)) (D + n) := by
  suffices h : ∀ steps : List Nat, Flow levels D
      (Item.instrs (steps.map fun n => .binary .sub .sp .sp (.imm (n : Nat)))) (D + steps.sum) by
    have hsum := h (Stack.steps n)
    rwa [Stack.sum_steps] at hsum
  intro steps
  induction steps generalizing D with
  | nil => simpa [Item.instrs] using Flow.nil D
  | cons n steps ih =>
    have hrest := ih (D + n)
    rw [List.sum_cons, Int.natCast_add, ← Int.add_assoc]
    exact .instr rfl rfl rfl (.inl rfl) nofun hrest

/-- Raising it flows back. -/
theorem raised (D : Int) (n : Nat) :
    Flow levels (D + n) (Item.instrs (Stack.adjust .add n)) D := by
  suffices h : ∀ steps : List Nat, Flow levels (D + steps.sum)
      (Item.instrs (steps.map fun n => .binary .add .sp .sp (.imm (n : Nat)))) D by
    have hsum := h (Stack.steps n)
    rwa [Stack.sum_steps] at hsum
  intro steps
  induction steps with
  | nil => simpa [Item.instrs] using Flow.nil D
  | cons n steps ih =>
    refine .instr rfl rfl rfl (.inl rfl) nofun ?_
    have hsum : D + ((n :: steps).sum : Nat) + -(n : Int) = D + (steps.sum : Nat) := by
      rw [List.sum_cons]
      omega
    rw [hsum]
    exact ih

theorem pushed (D : Int) (size : Nat) (src : Register) :
    Flow levels D (Item.instrs [.store size src (.preIndexed .sp (-size))]) (D + size) := by
  have hlowers : (Instr.store size src (.preIndexed .sp (-size))).lowers? = some (size : Int) := by
    unfold Instr.store Opcode.store
    split <;> simp [Instr.lowers?]
  have hstays : (Instr.store size src (.preIndexed .sp (-size))).accesses = false ∧
      (Instr.store size src (.preIndexed .sp (-size))).returns = false ∧
      (Instr.store size src (.preIndexed .sp (-size))).jump? = none := by
    unfold Instr.store Opcode.store
    split <;> exact ⟨rfl, rfl, rfl⟩
  refine .instr hstays.1 hstays.2.1 hlowers (.inl rfl) ?_ (.nil _)
  rw [hstays.2.2]
  nofun

/-- Saved registers take four bytes each. -/
theorem saved (D : Int) (rs : List Register) :
    Flow levels D (Item.instrs (if rs.isEmpty then [] else [.push rs])) (D + (4 * rs.length : Nat)) := by
  cases rs with
  | nil => simpa [Item.instrs] using Flow.nil D
  | cons r rs => exact .instr rfl rfl rfl (.inl rfl) nofun (.nil _)

/-- Restored registers give them back. -/
theorem restored (D : Int) (rs : List Register) (hpc : .pc ∉ rs) :
    Flow levels (D + (4 * rs.length : Nat)) (Item.instrs (if rs.isEmpty then [] else [.pop rs])) D := by
  cases rs with
  | nil => simpa [Item.instrs] using Flow.nil D
  | cons r rs =>
    have hreturns : (Instr.pop (r :: rs)).returns = false := by
      simpa [Instr.returns, Instr.pop] using hpc
    refine .instr rfl hreturns rfl (.inl rfl) nofun ?_
    have hback : D + (4 * (r :: rs).length : Nat) + -(4 * ((r :: rs).length : Int)) = D := by omega
    rw [hback]
    exact .nil D

end Flow

section

variable {ctx : Context} {d : Depth} {em em' : Emitter} {code : List Instr}

/-- Loading a variable flows back. -/
theorem load_flow {levels : String → Int} (size : Nat) {dst : Register} (slot : Slot)
    (hdst : dst ≠ .sp) : Flow levels ctx.frame.displacement (ctx.access (ctx.load size dst slot))
      ctx.frame.displacement := by
  simp only [Context.load, Context.stackOperand]
  split
  · exact .at_place (by simp) (Instr.steady_load size hdst)
  · exact .at_place (by simp [Instr.still_ldr, scratch]) (Instr.steady_load size hdst)

/-- Storing a variable flows back. -/
theorem store_flow {levels : String → Int} (size : Nat) (src : Register) (slot : Slot) :
    Flow levels ctx.frame.displacement (ctx.access (ctx.store size src slot))
      ctx.frame.displacement := by
  simp only [Context.store, Context.stackOperand]
  split
  · exact .at_place (by simp) (Instr.steady_store (by simp))
  · exact .at_place (by simp [Instr.still_ldr, scratch]) (Instr.steady_store (by simp))

theorem address_flow {levels : String → Int} {dst : Register} (slot : Slot) (hdst : dst ≠ .sp) :
    Flow levels ctx.frame.displacement (ctx.access (ctx.address dst slot))
      ctx.frame.displacement := by
  have hldr : ∀ i ∈ [Instr.ldr scratch (.literal (ctx.frame.offset slot))], Still i := by
    simp [Instr.still_ldr, scratch]
  simp only [Context.address]
  split
  · exact .access (Instr.steady_add hdst) (.nil _)
  · exact .at_place hldr (Instr.steady_add hdst)

theorem unary_still {op : UnaryOp} (h : unary op d.reg em = .ok (code, em')) :
    ∀ i ∈ code, Still i := by
  have hreg := d.reg_ne.1
  cases op <;> cases h <;>
    simp [Instr.still_binary, Instr.still_ldr, Instr.still_bl, Instr.still_when, hreg]

theorem settle_still (d : Depth) : ∀ i ∈ d.settle, Still i := by
  unfold Depth.settle
  split <;> simp [Instr.still_movReg, d.reg_ne.1]

/-- Operators do not use the stack. -/
theorem binary_still {op : BinaryOp} (h : binary op d em = .ok (code, em')) :
    ∀ i ∈ code, Still i := by
  have hreg := d.reg_ne.1
  have hleft := d.left_ne.1
  cases op with
  | mul =>
    cases h
    have hsmull : (⟨.smull, .always, [.reg d.left, .reg d.right, .reg d.left, .reg d.right]⟩ :
        Instr).Still := by
      simp [Still, Steady, Instr.writes, Instr.accesses, d.left_ne.1.symm, d.right_ne.1.symm]
    simp only [List.forall_mem_append, List.forall_mem_cons]
    exact ⟨⟨⟨hsmull, Instr.still_cmp _ rfl, nofun⟩, Instr.still_when (Instr.still_bl _), nofun⟩,
      settle_still d⟩
  | add | sub | div | rem | gt | ge | lt | le | eq | ne | and | or =>
    cases h
    simp [Instr.still_binary, Instr.still_cmp, Instr.still_mov, Instr.still_movReg, Instr.still_bl,
      Instr.still_when, hreg, hleft]

theorem nullCheck_still {reg : Register} (h : nullCheck reg em = .ok (code, em')) :
    ∀ i ∈ code, Still i := by
  cases h
  simp [Instr.still_movReg, Instr.still_bl]

/-- Taking an element does not use the stack. -/
theorem select_still {width : Nat} (h : select width d em = .ok (code, em')) :
    ∀ i ∈ code, Still i := by
  cases h
  rw [List.forall_mem_append]
  refine ⟨?_, settle_still d⟩
  simp [Instr.still_ldr, Instr.still_movReg, Instr.still_bl, Instr.still_binary, d.left_ne.1]

theorem storeInto_still (size offset : Nat) (d : Depth) : ∀ i ∈ storeInto size offset d, Still i := by
  unfold storeInto
  rw [List.forall_mem_append]
  refine ⟨?_, settle_still d⟩
  split <;> simp [Instr.still_store, Instr.still_ldr, d.left_ne.1]

/-- Allocation does not use the stack. -/
theorem allocate_still (bytes : Nat) {reg : Register} (hreg : reg ≠ .sp) :
    ∀ i ∈ allocate bytes reg, Still i := by
  simp [allocate, Instr.still_ldr, Instr.still_bl, Instr.still_movReg, hreg]

end

/-- Where the code of a part leaves the stack pointer. Arguments stay on the stack. -/
def Part.after (displacement : Int) : Part → Int
  | .args es => displacement + argBytes es
  | _ => displacement

/-- The code of an expression takes the stack pointer back to where it was, and on the way it is where
the generator takes it to be. -/
theorem Emitted.flow {part : Part} {ctx : Context} {d : Depth} {em em' : Emitter}
    {items : List Item} (h : Emitted part ctx d em items em') (levels : String → Int) :
    Flow levels ctx.frame.displacement items (part.after ctx.frame.displacement) := by
  induction h with
  | int | str | null => exact .mark (.still (by simp [Instr.still_ldr, Depth.reg_ne]))
  | bool | char => exact .mark (.still (by simp [Instr.still_mov, Depth.reg_ne]))
  | var type hslot => exact .mark (load_flow _ _ (Depth.reg_ne _).1)
  | elem hslot _ ih =>
    refine .mark (.append (.append (address_flow _ (Depth.reg_ne _).1) ih) (.still ?_))
    simp [Instr.still_load, Depth.reg_ne]
  | side _ hcheck ih =>
    refine .mark (.append (.append ih (.still (nullCheck_still hcheck))) (.still ?_))
    simp [Instr.still_load, Depth.reg_ne]
  | unary _ hop ih => exact .mark (.append ih (.still (unary_still hop)))
  | binary _ _ hop ihl ihr => exact .mark (.append (.append ihl ihr) (.still (binary_still hop)))
  | @call ctx d _ label args _ _ _ _ ih =>
    have hpc : .pc ∉ d.live := fun h => (Depth.ne_of_mem_pool (d.live_subset_pool h)).2.2.2.1 rfl
    have hmov : (Instr.movReg d.reg .r0).Still := Instr.still_movReg d.reg_ne.1
    refine .mark (.append (.append (.saved _ _) ih) ?_)
    simp only [Item.instrs_append]
    refine .append (.append (.append (.still ?_) (.raised _ _)) (.still ?_)) (.restored _ _ hpc)
    · exact List.forall_mem_singleton.2 (Instr.still_bl label)
    · exact List.forall_mem_singleton.2 hmov
  | newPair _ _ ihf ihs =>
    refine .mark (.append (.append (.append (.append (.still ?_) ihf) (.still ?_)) ihs) (.still ?_))
    · exact allocate_still _ (Depth.reg_ne _).1
    · exact storeInto_still _ _ _
    · exact storeInto_still _ _ _
  | array _ ih =>
    refine .mark (.append (.append (.still (allocate_still _ (Depth.reg_ne _).1)) ih) (.still ?_))
    simp [Instr.still_ldr, Instr.still_store, Depth.reg_ne]
  | @spilled ctx d _ _ _ _ hlast _ ih =>
    exact .append (.append (.saved ctx.frame.displacement [d.reg]) ih)
      (.restored ctx.frame.displacement [scratch] (by decide))
  | next _ _ ih => exact ih
  | noSelection | noElement => exact .nil _
  | noArg => simpa [Part.after, argBytes] using Flow.nil _
  | selection _ hselect _ ih iho => exact .append (.append ih (.still (select_still hselect))) iho
  | @arg ctx d _ arg args _ _ _ _ _ _ iho ih =>
    have hbytes : argBytes (arg :: args) = argBytes args + arg.note.size := by
      rw [argBytes, Nat.add_comm]
    rw [Part.after, hbytes, Int.natCast_add, ← Int.add_assoc]
    exact .append (.append iho ih) (.pushed _ _ _)
  | element _ _ ih iho => exact .append (.append ih (.still (storeInto_still _ _ _))) iho

/-- Code for a place flows back. -/
theorem Located.flow {e : Checked.Expr} {ctx : Context} {d : Depth} {em em' : Emitter}
    {items : List Item} (h : Located e ctx d em items em') (levels : String → Int) :
    Flow levels ctx.frame.displacement items ctx.frame.displacement := by
  cases h with
  | var => exact .mark (address_flow _ d.reg_ne.1)
  | elem _ hindices =>
    exact .mark (.append (address_flow _ d.reg_ne.1) (hindices.flow levels))
  | side hpair hcheck =>
    refine .mark (.append (.append (hpair.flow levels) (.still (nullCheck_still hcheck))) (.still ?_))
    exact List.forall_mem_singleton.2 (Instr.still_binary (by decide) d.reg_ne.1 d.reg_ne.1)
  | other _ he => exact he.flow levels

/-- Leaving a function from inside its blocks takes the stack pointer back to the entry point. -/
theorem unwind_flow {levels : String → Int} {f : Frame} (hnonneg : 0 ≤ f.displacement)
    (hlt : f.displacement < 2 ^ 31) : Flow levels f.displacement (Item.instrs f.unwind) 0 := by
  have hsigned : f.displacement32 = f.displacement := Word.signed_eq_self (by omega) hlt
  have hbytes : 0 + (f.displacement32.toNat : Int) = f.displacement := by omega
  rw [← hbytes]
  exact .raised 0 _

/-- A block takes its variables off the stack again. -/
theorem StmtEmitted.block_flow {s : Checked.Stmt} {ctx inner : Context} {em em' : Emitter}
    {items : List Item} {size : Nat} {levels : String → Int}
    (h : StmtEmitted s (ctx.inside size) em items inner em')
    (hitems : Flow levels (ctx.inside size).frame.displacement items
      (ctx.inside size).frame.displacement) :
    Flow levels ctx.frame.displacement (blockItems ctx size items inner) ctx.frame.displacement := by
  rw [blockItems, h.exit_inside.1]
  exact .append (.append (.lowered _ _) hitems) (.raised _ _)

section

variable {α : Type}

/-- What is laid down for labels is the given where these were made between two states of the
file. -/
def Agrees (levels : String → α) (own : Nat → α) (em em' : Emitter) : Prop :=
  ∀ k, em.file.labels ≤ k → k < em'.file.labels → levels (freshLabel k) = own k

/-- Levels of labels can be joined. -/
theorem exists_agrees {em em₁ em' : Emitter} (hgrows : em.Grows em₁) (hgrows' : em₁.Grows em')
    (first second : Nat → α) :
    ∃ own, ∀ levels, Agrees levels own em em' →
      Agrees levels first em em₁ ∧ Agrees levels second em₁ em' := by
  refine ⟨fun k => if k < em₁.file.labels then first k else second k, fun levels h => ⟨?_, ?_⟩⟩
  · intro k hle hlt
    exact (h k hle (Nat.lt_of_lt_of_le hlt hgrows'.labels)).trans (if_pos hlt)
  · intro k hle hlt
    exact (h k (Nat.le_trans hgrows.labels hle) hlt).trans (if_neg (Nat.not_lt.2 hle))

theorem Agrees.of_grows {levels : String → α} {own : Nat → α} {em em₁ em' : Emitter}
    (h : Agrees levels own em em') (hgrows : em₁.Grows em') : Agrees levels own em em₁ :=
  fun k hle hlt => h k hle (Nat.lt_of_lt_of_le hlt hgrows.labels)

/-- Fresh labels have the levels that were chosen for them. -/
theorem Agrees.fresh {levels : String → α} {own : Nat → α} {em em' : Emitter}
    (h : Agrees levels own em em') (hgrows : em.fresh.2.fresh.2.Grows em') :
    levels em.fresh.1 = own em.file.labels ∧ levels em.fresh.2.fresh.1 = own (em.file.labels + 1) := by
  have hlabels : em.file.labels + 2 ≤ em'.file.labels := hgrows.labels
  exact ⟨h _ (Nat.le_refl _) (by omega), h (em.file.labels + 1) (Nat.le_succ _) (by omega)⟩

end

end Emission

mutual

/-- The most bytes that the blocks inside a statement take at one point. -/
def nestedBytes : Checked.Stmt → Nat
  | .branch _ _ yes no => max (blockSize yes + nestedBytes yes) (blockSize no + nestedBytes no)
  | .loop _ _ body | .scope _ body => blockSize body + nestedBytes body
  | .seq _ items => nestedBytesAll items
  | _ => 0

def nestedBytesAll : List Checked.Stmt → Nat
  | [] => 0
  | s :: ss => max (nestedBytes s) (nestedBytesAll ss)

end

namespace Emission

/-- The code of a statement takes the stack pointer back to where it was, with one displacement for
each of its labels, and on the way it is where the generator takes it to be. -/
theorem StmtEmitted.flow {s : Checked.Stmt} {ctx ctx' : Context} {em em' : Emitter}
    {items : List Item} (h : StmtEmitted s ctx em items ctx' em')
    (hnonneg : 0 ≤ ctx.frame.displacement)
    (hbound : ctx.frame.displacement + nestedBytes s < 2 ^ 31) :
    ∃ own, ∀ levels, Agrees levels own em em' →
      Flow levels ctx.frame.displacement items ctx.frame.displacement := by
  induction h with
  | skip | seqNil => exact ⟨fun _ => 0, fun levels _ => .mark (.nil _)⟩
  | @declare ctx _ _ type name _ _ _ hinit =>
    have hdeclare : (ctx.declare name type.size).frame.displacement = ctx.frame.displacement := by
      rw [Context.declare, Frame.declare_snd, Frame.displacement_advance]
    refine ⟨fun _ => 0, fun levels _ => .mark (.append (hinit.flow levels) ?_)⟩
    change Flow levels ctx.frame.displacement _ ctx.frame.displacement
    rw [← hdeclare]
    exact store_flow _ _ _
  | assignVar hsrc _ =>
    exact ⟨fun _ => 0, fun levels _ => .mark (.append (hsrc.flow levels) (store_flow _ _ _))⟩
  | assignPlace _ hsrc hplace =>
    refine ⟨fun _ => 0, fun levels _ =>
      .mark (.append (.append (hsrc.flow levels) (hplace.flow levels)) (.still ?_))⟩
    simp [Instr.still_store, Depth.reg_ne]
  | read hplace =>
    refine ⟨fun _ => 0, fun levels _ => .mark (.append (hplace.flow levels) (.still ?_))⟩
    simp [Instr.still_movReg, Instr.still_bl]
  | free he | exit he | print he | println he =>
    refine ⟨fun _ => 0, fun levels _ => .mark (.append (he.flow levels) (.still ?_))⟩
    simp [Instr.still_movReg, Instr.still_bl]
  | ret he =>
    refine ⟨fun _ => 0, fun levels _ => ?_⟩
    refine .mark (.append (.append (he.flow levels) ?_) (.ret rfl (.nil _)))
    exact .of_still (Instr.still_movReg (by decide)) (unwind_flow hnonneg (by omega))
  | @branch ctx em m cond yes no test em₁ yitems yinner em₂ nitems ninner em₃ hcond hyes hno ihy ihn =>
    rw [nestedBytes] at hbound
    rw [Context.displacement_inside] at ihy ihn
    obtain ⟨yown, hyown⟩ := ihy (by omega) (by omega)
    obtain ⟨nown, hnown⟩ := ihn (by omega) (by omega)
    have hgrows := em.grows_fresh_twice.trans hcond.grows
    obtain ⟨inner, hinner⟩ := exists_agrees hyes.grows hno.grows yown nown
    obtain ⟨own, hown⟩ := exists_agrees hgrows (hyes.grows.trans hno.grows)
      (fun _ => ctx.frame.displacement) inner
    refine ⟨own, fun levels hlevels => ?_⟩
    obtain ⟨hfresh, hrest⟩ := hown levels hlevels
    obtain ⟨hylevels, hnlevels⟩ := hinner levels hrest
    obtain ⟨hotherwise, hdone⟩ := hfresh.fresh hcond.grows
    have hy := hyes.block_flow (hyown levels hylevels)
    have hn := hno.block_flow (hnown levels hnlevels)
    refine .mark (.append (.append (.append (.append (.append (hcond.flow levels) ?_) hy) ?_) hn) ?_)
    · exact .of_still (Instr.still_cmp _ rfl) (.jump .eq hotherwise (.nil _))
    · exact .jump .always hdone (.label hotherwise (.nil _))
    · exact .label hdone (.nil _)
  | @loop ctx em m cond body items inner em₁ test em₂ hbody hcond ih =>
    rw [nestedBytes] at hbound
    rw [Context.displacement_inside] at ih
    obtain ⟨bown, hbown⟩ := ih (by omega) (by omega)
    obtain ⟨own, hown⟩ := exists_agrees em.grows_fresh_twice (hbody.grows.trans hcond.grows)
      (fun _ => ctx.frame.displacement) bown
    refine ⟨own, fun levels hlevels => ?_⟩
    obtain ⟨hfresh, hrest⟩ := hown levels hlevels
    obtain ⟨hcheck, hstart⟩ := hfresh.fresh (.refl _)
    have hb := hbody.block_flow (hbown levels (hrest.of_grows hcond.grows))
    refine .append (.append (.append (.append ?_ hb) ?_) (hcond.flow levels)) ?_
    · exact .mark (.jump .always hcheck (.label hstart (.nil _)))
    · exact .label hcheck (.nil _)
    · exact .of_still (Instr.still_cmp _ rfl) (.jump .eq hstart (.nil _))
  | scope hbody ih =>
    rw [nestedBytes] at hbound
    rw [Context.displacement_inside] at ih
    obtain ⟨own, hown⟩ := ih (by omega) (by omega)
    exact ⟨own, fun levels hlevels => .mark (hbody.block_flow (hown levels hlevels))⟩
  | seqCons hfirst hothers ih iho =>
    rw [nestedBytes, nestedBytesAll] at hbound
    rw [nestedBytes, hfirst.displacement_eq] at iho
    obtain ⟨fown, hfown⟩ := ih hnonneg (by omega)
    obtain ⟨oown, hoown⟩ := iho hnonneg (by omega)
    obtain ⟨own, hown⟩ := exists_agrees hfirst.grows hothers.grows fown oown
    refine ⟨own, fun levels hlevels => ?_⟩
    obtain ⟨hflevels, holevels⟩ := hown levels hlevels
    exact .append (hfown levels hflevels) (hoown levels holevels)

end Emission

end WaccArm
