import WaccArm.Proofs.Variables.Layout

namespace WaccArm

/-- A byte at an even place of a word fits an immediate field: the rotation that takes it down finds it. -/
theorem encodable_shifted {byte place : Nat} (hbyte : byte < 256) (hplace : place ≤ 12) :
    encodable (byte * 2 ^ (2 * place)) := by
  have hpow : 2 ^ (2 * place) ≤ 2 ^ 24 := Nat.pow_le_pow_right (by decide) (by omega)
  have hlt : byte * 2 ^ (2 * place) < 2 ^ 32 :=
    Nat.lt_of_le_of_lt (Nat.mul_le_mul (Nat.le_of_lt_succ hbyte) hpow) (by decide)
  simp only [encodable, Bool.and_eq_true, decide_eq_true_eq, List.any_eq_true, List.mem_range]
  refine ⟨hlt, (16 - place) % 16, Nat.mod_lt _ (by decide), ?_⟩
  rw [BitVec.toNat_rotateLeft, BitVec.toNat_ofNat, Nat.mod_eq_of_lt hlt]
  rcases Nat.eq_zero_or_pos place with rfl | hpos
  · suffices hrest : byte % 2 ^ 32 ||| byte >>> 32 ≤ 255 by simpa using hrest
    rw [Nat.mod_eq_of_lt (by omega), Nat.shiftRight_eq_zero _ _ (by omega), Nat.or_zero]
    omega
  · have hrotation : 2 * ((16 - place) % 16) % 32 = 32 - 2 * place := by omega
    have hsplit : 2 ^ (2 * place) * 2 ^ (32 - 2 * place) = 2 ^ 32 := by
      rw [← Nat.pow_add]
      congr 1
      omega
    rw [hrotation, Nat.shiftLeft_eq, Nat.mul_assoc, hsplit, Nat.mul_mod_left, Nat.zero_or,
      show 32 - (32 - 2 * place) = 2 * place by omega, Nat.shiftRight_eq_div_pow,
      Nat.mul_div_cancel _ (Nat.two_pow_pos _)]
    omega

namespace Operand

/-- Whether an operand of an instruction can be encoded. -/
def Fits (op : Opcode) : Operand → Prop
  | .imm value => (-2 ^ 31 ≤ value ∧ value < 2 ^ 31) ∧
    (encodable (BitVec.ofInt 32 value).toNat ∨ op = .mov ∧ encodable (~~~ BitVec.ofInt 32 value).toNat)
  | .mem _ offset | .preIndexed _ offset => -op.maxOffset ≤ offset ∧ offset ≤ op.maxOffset
  | .regList rs => rs ≠ [] ∧ (rs.map fun r => Register.all.idxOf r).Pairwise (· < ·)
  | _ => True

section

variable (op : Opcode) (r : Register)

@[simp] theorem fits_reg : (reg r).Fits op := trivial

@[simp] theorem fits_literal (value : Int) : (literal value).Fits op := trivial

@[simp] theorem fits_address (name : String) : (address name).Fits op := trivial

@[simp] theorem fits_indexed (index : Register) : (indexed r index).Fits op := trivial

@[simp] theorem fits_label (name : String) : (label name).Fits op := trivial

@[simp] theorem fits_single : (regList [r]).Fits op := by simp [Fits]

/-- An immediate operand has its bits in one place. -/
theorem fits_imm {n : Nat} (hlt : n < 2 ^ 31) (h : encodable n) : (imm n).Fits op := by
  refine ⟨by omega, .inl ?_⟩
  rw [BitVec.ofInt_natCast, BitVec.toNat_ofNat, Nat.mod_eq_of_lt (by omega)]
  exact h

/-- A byte fits every immediate field. -/
theorem fits_byte {n : Nat} (hlt : n < 256) : (imm n).Fits op := by
  have hencodable : encodable n := by simpa using encodable_shifted hlt (Nat.zero_le 12)
  exact fits_imm op (by omega) hencodable

@[simp] theorem fits_zero : (imm 0).Fits op := fits_byte op (by decide)

@[simp] theorem fits_one : (imm 1).Fits op := fits_byte op (by decide)

@[simp] theorem fits_four : (imm 4).Fits op := fits_byte op (by decide)

/-- An offset of a few bytes fits every memory operand. -/
theorem fits_near {offset : Int} (hlow : -255 ≤ offset) (hhigh : offset ≤ 255) :
    (mem r offset).Fits op ∧ (preIndexed r offset).Fits op := by
  have hmax : 255 ≤ op.maxOffset := by cases op <;> decide
  exact ⟨⟨by omega, by omega⟩, by omega, by omega⟩

end

end Operand

namespace Instr

/-- The distance from the stack pointer at which an instruction names a place, or which it puts into
the scratch register for the next one. -/
def frameOffset? (i : Instr) : Option Int :=
  match i.opcode, i.operands with
  | .add, [.reg dst, .reg .sp, .imm offset] => if dst = .sp then none else some offset
  | .ldr, [.reg .r12, .literal offset] => some offset
  | _, [_, .mem .sp offset] => some offset
  | _, _ => none

/-- Variables are reached in three ways. -/
theorem frameOffset?_eq_some {i : Instr} {offset : Int} : i.frameOffset? = some offset ↔
    (i.opcode = .add ∧ ∃ dst, dst ≠ .sp ∧ i.operands = [.reg dst, .reg .sp, .imm offset]) ∨
    (i.opcode = .ldr ∧ i.operands = [.reg .r12, .literal offset]) ∨
    ∃ o, i.operands = [o, .mem .sp offset] := by
  unfold frameOffset?
  split <;> grind

/-- An instruction that can be encoded, and that names no place below the stack pointer. -/
def Encodes (i : Instr) : Prop :=
  (∀ o ∈ i.operands, o.Fits i.opcode) ∧ ∀ offset, i.frameOffset? = some offset → 0 ≤ offset

theorem encodes_when {i : Instr} {cond : Cond} : (i.when cond).Encodes ↔ i.Encodes := Iff.rfl

section

variable {dst src base left : Register} {offset value : Int} {size : Nat} {o : Operand} {op : Opcode}

theorem encodes_bl (name : String) : (bl name).Encodes := by simp [Encodes, bl, frameOffset?_eq_some]

theorem encodes_b (name : String) : (b name).Encodes := by simp [Encodes, b, frameOffset?_eq_some]

theorem encodes_movReg : (movReg dst src).Encodes := by simp [Encodes, movReg, mov, frameOffset?_eq_some]

theorem encodes_mov (h : (Operand.imm value).Fits .mov) : (mov dst (.imm value)).Encodes := by
  simp [Encodes, mov, frameOffset?_eq_some, h]

theorem encodes_cmp (hfits : o.Fits .cmp) (h : ∀ base offset, o ≠ .mem base offset) :
    (cmp left o).Encodes := by
  refine ⟨by simp [cmp, hfits], fun value hvalue => ?_⟩
  rw [frameOffset?_eq_some] at hvalue
  simp [cmp, h] at hvalue

theorem encodes_address {name : String} : (ldr dst (.address name)).Encodes := by
  simp [Encodes, ldr, frameOffset?_eq_some]

/-- A literal is loaded from a pool and may be anything. -/
theorem encodes_literal (h : dst ≠ .r12 ∨ 0 ≤ value) : (ldr dst (.literal value)).Encodes := by
  refine ⟨by simp [ldr], fun offset hoffset => ?_⟩
  obtain ⟨rfl, rfl⟩ : dst = .r12 ∧ value = offset := by simpa [frameOffset?_eq_some, ldr] using hoffset
  simpa using h

/-- What is loaded from or stored at an offset. -/
theorem encodes_mem {cond : Cond} (hfits : (Operand.mem base offset).Fits op)
    (h : base = .sp → 0 ≤ offset) :
    Encodes { opcode := op, cond, operands := [.reg dst, .mem base offset] } := by
  refine ⟨by simp [hfits], fun value hvalue => ?_⟩
  obtain ⟨rfl, rfl⟩ : base = .sp ∧ offset = value := by simpa [frameOffset?_eq_some] using hvalue
  exact h rfl

/-- A small offset fits every load and store. -/
theorem encodes_near {cond : Cond} (hbase : base ≠ .sp) (hlow : -255 ≤ offset) (hhigh : offset ≤ 255) :
    Encodes { opcode := op, cond, operands := [.reg dst, .mem base offset] } :=
  encodes_mem (Operand.fits_near op base hlow hhigh).1 fun h => absurd h hbase

theorem encodes_ldr (hbase : base ≠ .sp) (hlow : -255 ≤ offset) (hhigh : offset ≤ 255) :
    (ldr dst (.mem base offset)).Encodes :=
  encodes_near hbase hlow hhigh

theorem encodes_load (size : Nat) (hbase : base ≠ .sp) (hlow : -255 ≤ offset) (hhigh : offset ≤ 255) :
    (load size dst (.mem base offset)).Encodes :=
  encodes_near hbase hlow hhigh

theorem encodes_store (size : Nat) (hbase : base ≠ .sp) (hlow : -255 ≤ offset) (hhigh : offset ≤ 255) :
    (store size src (.mem base offset)).Encodes :=
  encodes_near hbase hlow hhigh

/-- An offset in a register may be anything. -/
theorem encodes_indexed {cond : Cond} {index : Register} :
    Encodes { opcode := op, cond, operands := [.reg dst, .indexed base index] } := by
  simp [Encodes, frameOffset?_eq_some]

theorem encodes_preIndexed (hfits : (Operand.preIndexed base offset).Fits op) :
    Encodes { opcode := op, operands := [.reg src, .preIndexed base offset] } := by
  simp [Encodes, frameOffset?_eq_some, hfits]

/-- An offset from the stack pointer is not below zero. -/
theorem encodes_binary (hfits : o.Fits op) (h : left = .sp → ∀ value, o = .imm value → 0 ≤ value) :
    (binary op dst left o).Encodes := by
  refine ⟨by simp [binary, hfits], fun value hvalue => ?_⟩
  obtain ⟨-, -, hleft, ho⟩ : op = .add ∧ dst ≠ .sp ∧ left = .sp ∧ o = .imm value := by
    simpa [frameOffset?_eq_some, binary] using hvalue
  exact h hleft value ho

theorem encodes_push {rs : List Register} (h : (Operand.regList rs).Fits .push) : (push rs).Encodes := by
  simp [Encodes, push, frameOffset?_eq_some, h]

theorem encodes_pop {rs : List Register} (h : (Operand.regList rs).Fits .pop) : (pop rs).Encodes := by
  simp [Encodes, pop, frameOffset?_eq_some, h]

end

end Instr

theorem Stack.log2_lt {n k : Nat} (hk : 0 < k) (hlt : n < 2 ^ k) : n.log2 < k := by
  rcases Nat.eq_zero_or_pos n with rfl | hpos
  · rwa [Nat.log2_zero]
  · exact (Nat.log2_lt (by omega)).2 hlt

/-- The leading bits of a word fit an immediate field. -/
theorem Stack.encodable_leadingBits {n : Nat} (hlt : n < 2 ^ 32) : encodable (leadingBits n) := by
  obtain ⟨place, hplace⟩ : ∃ place, place = (n.log2 - 7 + 1) / 2 := ⟨_, rfl⟩
  have hlog : n.log2 < 32 := log2_lt (by decide) hlt
  have hbyte : n / 2 ^ (2 * place) < 256 := by
    refine Nat.div_lt_of_lt_mul ?_
    rw [show 256 = 2 ^ 8 from rfl, ← Nat.pow_add]
    exact Nat.lt_of_lt_of_le Nat.lt_log2_self (Nat.pow_le_pow_right (by decide) (by omega))
  have hbits : leadingBits n = n / 2 ^ (2 * place) * 2 ^ (2 * place) := by
    have hdiv := Nat.div_add_mod' n (2 ^ (2 * place))
    rw [leadingBits, Nat.one_shiftLeft, ← hplace, Nat.mul_comm place]
    omega
  rw [hbits]
  exact encodable_shifted hbyte (by omega)

/-- The stack pointer moves in steps that can be encoded. -/
theorem Stack.encodable_steps (bytes : Nat) : ∀ step ∈ Stack.steps bytes, step ≤ 1024 ∧ encodable step := by
  fun_induction Stack.steps bytes with
  | case1 => nofun
  | case2 bytes hne step ih =>
    have hle : min bytes Stack.maxStep ≤ 1024 := Nat.min_le_right _ _
    have hstep : step ≤ min bytes Stack.maxStep := Stack.leadingBits_le _
    exact List.forall_mem_cons.2 ⟨⟨by omega, Stack.encodable_leadingBits (by omega)⟩, ih⟩

/-- Moving the stack pointer by any number of bytes. -/
theorem adjust_encodes {op : Opcode} (bytes : Nat) : ∀ i ∈ Stack.adjust op bytes, i.Encodes := by
  rw [Stack.adjust, List.forall_mem_map]
  intro step hstep
  obtain ⟨hle, hencodable⟩ := Stack.encodable_steps bytes step hstep
  refine Instr.encodes_binary (Operand.fits_imm op (by omega) hencodable) ?_
  rintro - value ⟨rfl⟩
  exact Int.natCast_nonneg _

namespace Emission

/-- How far down a right operand takes the stack pointer, where `eval` tells this for its own depth. -/
def operandReach (eval : Depth → Nat) (d : Depth) : Nat :=
  if d.exhausted then 4 + eval d else eval d.next

mutual

/-- How far down the evaluation of an expression at depth `d` takes the stack pointer. -/
def exprReach : Checked.Expr → Depth → Nat
  | .elem _ _ indices, d => operandsReach indices d
  | .side _ _ e, d | .unary _ _ e, d => exprReach e d
  | .binary _ _ l r, d => max (exprReach l d) (operandReach (exprReach r) d)
  | .call _ _ args, d => 4 * d.live.length + argsReach args d
  | .newPair _ fst snd, d => max (operandReach (exprReach fst) d) (operandReach (exprReach snd) d)
  | .array _ elems, d => operandsReach elems d
  | _, _ => 0

def operandsReach : List Checked.Expr → Depth → Nat
  | [], _ => 0
  | e :: es, d => max (operandReach (exprReach e) d) (operandsReach es d)

/-- An argument is evaluated while those behind it are on the stack, and goes there itself. -/
def argsReach : List Checked.Expr → Depth → Nat
  | [], _ => 0
  | arg :: args, d => max (argsReach args d) (argBytes args + max (exprReach arg d) arg.note.size)

end

section

variable {ctx : Context} {d : Depth} {em em' : Emitter} {code : List Instr}

/-- The slots of a context begin at most `above` bytes above the entry point, and not below the stack
pointer. -/
def Spans (above : Nat) (ctx : Context) : Prop :=
  ∀ x ∈ ctx.slots.flatten, -(above : Int) ≤ x.2.depth ∧ x.2.depth ≤ ctx.frame.displacement

theorem Context.displacement_push (ctx : Context) (bytes : Nat) :
    (ctx.push bytes).frame.displacement = ctx.frame.displacement + bytes := rfl

/-- A value on the stack is below all slots. -/
theorem Spans.push {above : Nat} (h : Spans above ctx) (bytes : Nat) : Spans above (ctx.push bytes) := by
  intro x hx
  obtain ⟨hlow, hhigh⟩ := h x hx
  refine ⟨hlow, Int.le_trans hhigh ?_⟩
  exact Int.le_add_of_nonneg_right (Int.natCast_nonneg _)

/-- In a frame of less than 2 ^ 31 bytes no variable is below the stack pointer. -/
theorem Spans.offset_nonneg {above : Nat} (h : Spans above ctx)
    (hlt : ctx.frame.displacement + above < 2 ^ 31) {x : String × Slot}
    (hx : x ∈ ctx.slots.flatten) : 0 ≤ ctx.frame.offset x.2 := by
  obtain ⟨hlow, hhigh⟩ := h x hx
  rw [Frame.offset, Word.signed_eq_self (by omega) (by omega)]
  omega

theorem offset_lt (f : Frame) (slot : Slot) : f.offset slot < 2 ^ 31 := by
  have hlt := Int.bmod_lt (x := f.displacement - slot.depth) (m := 0x100000000) (by decide)
  rw [Frame.offset, Word.signed]
  omega

/-- What is loaded from a slot or stored in it, near or far. -/
theorem stackOperand_encodes {op : Opcode} {slot : Slot} (hoffset : 0 ≤ ctx.frame.offset slot)
    (r : Register) :
    ∀ i ∈ (ctx.stackOperand op slot).1 ++ [⟨op, .always, [.reg r, (ctx.stackOperand op slot).2]⟩],
      i.Encodes := by
  simp only [Context.stackOperand]
  split
  · rename_i hle
    exact List.forall_mem_singleton.2 (Instr.encodes_mem ⟨by omega, hle⟩ fun _ => hoffset)
  · simp only [List.singleton_append, List.forall_mem_cons]
    exact ⟨Instr.encodes_literal (.inr hoffset), Instr.encodes_indexed, by simp⟩

/-- A load goes through a register where its offset is too large. -/
theorem load_encodes {size : Nat} {dst : Register} {slot : Slot} (hoffset : 0 ≤ ctx.frame.offset slot) :
    ∀ i ∈ ctx.load size dst slot, i.Encodes :=
  stackOperand_encodes hoffset dst

/-- A store goes through a register where its offset is too large. -/
theorem store_encodes {size : Nat} {src : Register} {slot : Slot} (hoffset : 0 ≤ ctx.frame.offset slot) :
    ∀ i ∈ ctx.store size src slot, i.Encodes :=
  stackOperand_encodes hoffset src

/-- An address is a sum that can be encoded. -/
theorem address_encodes {dst : Register} {slot : Slot} (hoffset : 0 ≤ ctx.frame.offset slot) :
    ∀ i ∈ ctx.address dst slot, i.Encodes := by
  simp only [Context.address]
  split
  · rename_i hnear
    have hlt := offset_lt ctx.frame slot
    have hfits : (Operand.imm (ctx.frame.offset slot)).Fits .add := by
      rw [← Int.toNat_of_nonneg hoffset]
      exact Operand.fits_imm .add (by omega) hnear.2
    refine List.forall_mem_singleton.2 (Instr.encodes_binary hfits ?_)
    rintro - value ⟨rfl⟩
    exact hoffset
  · simp only [List.forall_mem_cons]
    exact ⟨Instr.encodes_literal (.inr hoffset), Instr.encodes_binary trivial (by simp), by simp⟩

/-- The code of an operator has small operands. -/
theorem unary_encodes {op : UnaryOp} (h : unary op d.reg em = .ok (code, em')) :
    ∀ i ∈ code, i.Encodes := by
  cases op <;> cases h <;>
    simp [Instr.encodes_binary, Instr.encodes_ldr, Instr.encodes_bl, Instr.encodes_when, d.reg_ne.1]

theorem settle_encodes (d : Depth) : ∀ i ∈ d.settle, i.Encodes := by
  unfold Depth.settle
  split <;> simp [Instr.encodes_movReg]

/-- The code of an operator on two operands has small operands. -/
theorem binary_encodes {op : BinaryOp} (h : binary op d em = .ok (code, em')) :
    ∀ i ∈ code, i.Encodes := by
  cases op with
  | mul =>
    cases h
    have hsmull : (⟨.smull, .always, [.reg d.left, .reg d.right, .reg d.left, .reg d.right]⟩ :
        Instr).Encodes := by
      simp [Instr.Encodes, Instr.frameOffset?]
    simp only [List.forall_mem_append, List.forall_mem_cons]
    exact ⟨⟨⟨hsmull, Instr.encodes_cmp trivial (by simp), by simp⟩,
      Instr.encodes_when.2 (Instr.encodes_bl _), by simp⟩, settle_encodes d⟩
  | add | sub | div | rem | gt | ge | lt | le | eq | ne | and | or =>
    cases h
    simp [Instr.encodes_binary, Instr.encodes_cmp, Instr.encodes_mov, Instr.encodes_movReg,
      Instr.encodes_bl, Instr.encodes_when]

theorem nullCheck_encodes {reg : Register} (h : nullCheck reg em = .ok (code, em')) :
    ∀ i ∈ code, i.Encodes := by
  cases h
  simp [Instr.encodes_movReg, Instr.encodes_bl]

theorem select_encodes {width : Nat} (h : select width d em = .ok (code, em')) :
    ∀ i ∈ code, i.Encodes := by
  cases h
  rw [List.forall_mem_append]
  refine ⟨?_, settle_encodes d⟩
  have hscaled : (Instr.binary .add d.left d.left
      (if width = 1 then .reg d.right else .shifted d.right (.lsl 2))).Encodes := by
    split <;> exact Instr.encodes_binary trivial nofun
  simp [Instr.encodes_ldr, Instr.encodes_movReg, Instr.encodes_bl, Instr.encodes_binary, d.left_ne.1,
    hscaled]

theorem allocate_encodes (bytes : Nat) (reg : Register) :
    ∀ i ∈ allocate bytes reg, i.Encodes := by
  simp [allocate, Instr.encodes_literal, Instr.encodes_bl, Instr.encodes_movReg]

/-- An element is stored through a register where its offset is too large. -/
theorem storeInto_encodes (size offset : Nat) (d : Depth) :
    ∀ i ∈ storeInto size offset d, i.Encodes := by
  unfold storeInto
  rw [List.forall_mem_append]
  refine ⟨?_, settle_encodes d⟩
  split
  · rename_i hle
    exact List.forall_mem_singleton.2 (Instr.encodes_mem ⟨by omega, hle⟩ fun _ => by omega)
  · simp only [List.forall_mem_cons, Instr.store]
    exact ⟨Instr.encodes_literal (.inl (by simp)), Instr.encodes_indexed, by simp⟩

theorem side_encodes (which : Side) (d : Depth) :
    ∀ i ∈ [Instr.binary .add d.reg d.reg (.imm (sideOffset which))], i.Encodes := by
  refine List.forall_mem_singleton.2 (Instr.encodes_binary ?_ fun h => absurd h d.reg_ne.1)
  cases which
  · exact Operand.fits_zero _
  · exact Operand.fits_four _

theorem pushArg_encodes (arg : Checked.Expr) (d : Depth) :
    ∀ i ∈ [Instr.store arg.note.size d.reg (.preIndexed .sp (-arg.note.size))], i.Encodes := by
  refine List.forall_mem_singleton.2 (Instr.encodes_preIndexed (Operand.fits_near _ _ ?_ ?_).2) <;>
    rcases Scalar.size_eq arg.note with hsize | hsize <;> omega

/-- Registers are saved in an order that can be encoded. -/
theorem live_fits (d : Depth) (op : Opcode) (h : d.live ≠ []) : (Operand.regList d.live).Fits op := by
  refine ⟨h, ?_⟩
  obtain ⟨level⟩ := d
  revert level
  decide

/-- No registers are saved where none is in use. -/
theorem save_encodes (d : Depth) :
    ∀ i ∈ (if d.live.isEmpty then [] else [Instr.push d.live]), i.Encodes := by
  split
  · nofun
  · rename_i hlive
    exact List.forall_mem_singleton.2 (Instr.encodes_push (live_fits d _ (by simpa using hlive)))

theorem restore_encodes (d : Depth) :
    ∀ i ∈ (if d.live.isEmpty then [] else [Instr.pop d.live]), i.Encodes := by
  split
  · nofun
  · rename_i hlive
    exact List.forall_mem_singleton.2 (Instr.encodes_pop (live_fits d _ (by simpa using hlive)))

end

/-- All instructions among items can be encoded. -/
def Encoded (items : List Item) : Prop := ∀ i, .instr i ∈ Item.code items → i.Encodes

section

variable {items items' : List Item} {is : List Instr}

theorem Encoded.nil : Encoded [] := nofun

theorem Encoded.mark {displacement : Int} (h : Encoded items) :
    Encoded (.mark displacement :: items) := h

/-- Code that can be encoded can be put together. -/
theorem Encoded.append (h : Encoded items) (h' : Encoded items') : Encoded (items ++ items') := by
  intro i hi
  rw [Item.code_append, List.mem_append] at hi
  exact hi.elim (h i) (h' i)

theorem Encoded.instr {i : Instr} (hi : i.Encodes) (h : Encoded items) :
    Encoded (.line (.instr i) :: items) := by
  intro j hj
  rw [Item.code_line, List.mem_cons, Line.instr.injEq] at hj
  exact hj.elim (fun heq => heq ▸ hi) (h j)

theorem Encoded.label {name : String} (h : Encoded items) : Encoded (.line (.label name) :: items) := by
  intro i hi
  exact h i (by simpa using hi)

theorem encoded_of_code (hcode : Item.code items = Code.ofInstrs is) (h : ∀ i ∈ is, i.Encodes) :
    Encoded items := by
  intro i hi
  rw [hcode, Code.ofInstrs] at hi
  exact h i (by simpa using hi)

theorem Encoded.instrs (h : ∀ i ∈ is, i.Encodes) : Encoded (Item.instrs is) :=
  encoded_of_code (Item.code_instrs is) h

theorem Encoded.access {ctx : Context} (h : ∀ i ∈ is, i.Encodes) : Encoded (ctx.access is) :=
  encoded_of_code (ctx.code_access is) h

end

/-- How far down the code of a part takes the stack pointer. -/
def Part.reach (d : Depth) : Part → Nat
  | .expr e => exprReach e d
  | .operand e => operandReach (exprReach e) d
  | .selections _ es | .elements _ _ es => operandsReach es d
  | .args es => argsReach es d

/-- The code of an expression can be encoded if the frame around it is not too large. -/
theorem Emitted.encoded {part : Part} {ctx : Context} {d : Depth} {em em' : Emitter}
    {items : List Item} (h : Emitted part ctx d em items em') {above : Nat} (hspans : Spans above ctx)
    (hlt : ctx.frame.displacement + part.reach d + above < 2 ^ 31) : Encoded items := by
  induction h with
  | @int _ d | @null _ d =>
    have hreg : d.reg ≠ .r12 := (Depth.ne_of_mem_pool d.reg_mem_pool).2.2.2.2.2.2
    exact .mark (.instrs (List.forall_mem_singleton.2 (Instr.encodes_literal (.inl hreg))))
  | str => exact .mark (.instrs (List.forall_mem_singleton.2 Instr.encodes_address))
  | bool type value =>
    refine .mark (.instrs (List.forall_mem_singleton.2 (Instr.encodes_mov ?_)))
    cases value
    · exact Operand.fits_zero _
    · exact Operand.fits_one _
  | char type value =>
    exact .mark (.instrs (List.forall_mem_singleton.2
      (Instr.encodes_mov (Operand.fits_byte _ value.toNat_lt))))
  | var type hslot =>
    have hoffset := hspans.offset_nonneg (by omega) (Chain.mem_of_lookup? hslot)
    exact .mark (.access (load_encodes hoffset))
  | @elem _ d _ _ _ _ _ _ _ hslot _ ih =>
    have hoffset := hspans.offset_nonneg (by omega) (Chain.mem_of_lookup? hslot)
    refine .mark (.append (.append (.access (address_encodes hoffset)) (ih hspans hlt)) (.instrs ?_))
    exact List.forall_mem_singleton.2 (Instr.encodes_load _ d.reg_ne.1 (by decide) (by decide))
  | @side _ d _ _ _ _ _ _ _ which _ hcheck ih =>
    refine .mark (.append (.append (ih hspans hlt) (.instrs (nullCheck_encodes hcheck))) (.instrs ?_))
    refine List.forall_mem_singleton.2 (Instr.encodes_load _ d.reg_ne.1 ?_ ?_) <;>
      cases which <;> decide
  | unary _ hop ih => exact .mark (.append (ih hspans hlt) (.instrs (unary_encodes hop)))
  | binary _ _ hop ihl ihr =>
    simp only [Part.reach, exprReach] at hlt ihl ihr
    exact .mark (.append (.append (ihl hspans (by omega)) (ihr hspans (by omega)))
      (.instrs (binary_encodes hop)))
  | @call ctx d _ label args items _ _ _ ih =>
    have hargs : Encoded items := by
      refine ih (hspans.push _) ?_
      simp only [Part.reach, exprReach, Context.displacement_push] at hlt ⊢
      omega
    have hmov : ∀ i ∈ [Instr.movReg d.reg .r0], i.Encodes :=
      List.forall_mem_singleton.2 Instr.encodes_movReg
    simp only [Item.instrs_append]
    exact .mark (.append (.append (.instrs (save_encodes d)) hargs)
      (.append (.append (.append (.instrs (List.forall_mem_singleton.2 (Instr.encodes_bl label)))
        (.instrs (adjust_encodes _))) (.instrs hmov)) (.instrs (restore_encodes d))))
  | newPair _ _ ihf ihs =>
    simp only [Part.reach, exprReach] at hlt ihf ihs
    exact .mark (.append (.append (.append (.append (.instrs (allocate_encodes _ _))
      (ihf hspans (by omega))) (.instrs (storeInto_encodes _ _ _))) (ihs hspans (by omega)))
      (.instrs (storeInto_encodes _ _ _)))
  | @array _ d _ _ _ _ _ _ ih =>
    refine .mark (.append (.append (.instrs (allocate_encodes _ _)) (ih hspans hlt)) (.instrs ?_))
    simp only [List.forall_mem_cons]
    exact ⟨Instr.encodes_literal (.inl nofun),
      Instr.encodes_store _ d.reg_ne.1 (by decide) (by decide), nofun⟩
  | @spilled ctx d _ e items _ hlast _ ih =>
    have he : Encoded items := by
      refine ih (hspans.push 4) ?_
      simp only [Part.reach, operandReach, hlast, if_true, Context.displacement_push] at hlt ⊢
      omega
    have hpush := Instr.encodes_push (Operand.fits_single .push d.reg)
    have hpop := Instr.encodes_pop (Operand.fits_single .pop scratch)
    exact .append (.append (.instrs (List.forall_mem_singleton.2 hpush)) he)
      (.instrs (List.forall_mem_singleton.2 hpop))
  | next hmore _ ih =>
    simp only [Part.reach, operandReach, hmore] at hlt
    exact ih hspans hlt
  | noSelection | noElement | noArg => exact .nil
  | selection _ hselect _ ih iho =>
    simp only [Part.reach, operandsReach] at hlt ih iho
    exact .append (.append (ih hspans (by omega)) (.instrs (select_encodes hselect)))
      (iho hspans (by omega))
  | @arg ctx d _ arg args _ _ items _ _ _ iho ih =>
    simp only [Part.reach, argsReach] at hlt ih iho
    have harg : Encoded items := by
      refine ih (hspans.push _) ?_
      rw [Context.displacement_push]
      omega
    exact .append (.append (iho hspans (by omega)) harg) (.instrs (pushArg_encodes arg d))
  | element _ _ ih iho =>
    simp only [Part.reach, operandsReach] at hlt ih iho
    exact .append (.append (ih hspans (by omega)) (.instrs (storeInto_encodes _ _ _)))
      (iho hspans (by omega))

end Emission

end WaccArm
