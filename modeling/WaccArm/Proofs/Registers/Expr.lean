import WaccArm.Proofs.Machine.Calls
import WaccArm.Proofs.Scalar.Expr

namespace WaccArm

namespace Instr

variable {d : Depth} {dst : Register} {place : Operand}

/-- An instruction without stores is judged by what it writes. -/
theorem spares_of_calm {op : Opcode} {cond : Cond} {operands : List Operand}
    (hop : op ∉ [.str, .strb, .push, .pop, .bl])
    (h : ∀ r ∈ writes ⟨op, cond, operands⟩, r ≠ .sp ∧ r ∉ d.live) : Spares d ⟨op, cond, operands⟩ :=
  .inr ⟨hop, h⟩

theorem spares_when {i : Instr} {cond : Cond} (h : i.Spares d) : (i.when cond).Spares d := by
  rcases h with ⟨name, hname, _, rfl⟩ | h
  · exact .inl ⟨name, hname, cond, rfl⟩
  · exact .inr h

theorem spares_bl {name : String} (h : name ∈ runtimeLabels) : (bl name).Spares d :=
  .inl ⟨name, h, .always, rfl⟩

/-- Routines come back with the registers as they were. -/
theorem spares_routine (r : Routine) : (bl r.label).Spares d := by
  refine spares_bl (List.mem_append_right _ (List.mem_map_of_mem ?_))
  cases r <;> decide

theorem spares_ldr (h : dst ≠ .sp ∧ dst ∉ d.live) : (ldr dst place).Spares d :=
  spares_of_calm (by decide) (List.forall_mem_singleton.2 h)

theorem spares_mov (h : dst ≠ .sp ∧ dst ∉ d.live) : (mov dst place).Spares d :=
  spares_of_calm (by decide) (List.forall_mem_singleton.2 h)

theorem spares_movReg {src : Register} (h : dst ≠ .sp ∧ dst ∉ d.live) : (movReg dst src).Spares d :=
  spares_mov h

theorem spares_load (size : Nat) (h : dst ≠ .sp ∧ dst ∉ d.live) : (load size dst place).Spares d := by
  unfold load Opcode.load
  split <;> exact spares_of_calm (by decide) (List.forall_mem_singleton.2 h)

theorem spares_cmp {left : Register} : (cmp left place).Spares d :=
  spares_of_calm (by decide) (by simp [writes])

theorem spares_binary {op : Opcode} {left : Register}
    (hop : op ∈ [Opcode.add, .adds, .subs, .rsbs, .and, .orr, .eor])
    (h : dst ≠ .sp ∧ dst ∉ d.live) : (binary op dst left place).Spares d := by
  simp only [List.mem_cons, List.not_mem_nil, or_false] at hop
  rcases hop with rfl | rfl | rfl | rfl | rfl | rfl | rfl <;>
    exact spares_of_calm (by decide) (List.forall_mem_singleton.2 h)

end Instr

namespace Depth

/-- The registers that are written at depth `d`. -/
theorem not_kept (d : Depth) {r : Register}
    (h : r ∈ [d.reg, d.left, d.right, .r0, .r1, .r12]) : r ≠ .sp ∧ r ∉ d.live := by
  have hnot : ¬ (r = .sp ∨ r ∈ d.live) := by
    intro hkept
    have hne := ne_of_kept hkept
    simp only [List.mem_cons, List.not_mem_nil, or_false] at h
    grind
  exact not_or.1 hnot

/-- The stack pointer holds no value. -/
theorem sp_not_live (d : Depth) : .sp ∉ d.live :=
  fun h => (ne_of_mem_pool (d.live_subset_pool h)).2.1 rfl

theorem live_nodup (d : Depth) : d.live.Nodup := by
  obtain ⟨level⟩ := d
  revert level
  decide

end Depth

namespace Emission

section

variable {ctx : Context} {d : Depth} {em em' : Emitter} {code : List Instr}

theorem load_spares (size : Nat) (slot : Slot) : ∀ i ∈ ctx.load size d.reg slot, i.Spares d := by
  have hreg := d.not_kept (r := d.reg) (by simp)
  have hscratch := d.not_kept (r := .r12) (by simp)
  simp only [Context.load, Context.stackOperand]
  split <;> simp [Instr.spares_load, Instr.spares_ldr, scratch, hreg, hscratch]

theorem address_spares (slot : Slot) : ∀ i ∈ ctx.address d.reg slot, i.Spares d := by
  have hreg := d.not_kept (r := d.reg) (by simp)
  have hscratch := d.not_kept (r := .r12) (by simp)
  simp only [Context.address]
  split <;> simp [Instr.spares_binary, Instr.spares_ldr, scratch, hreg, hscratch]

theorem unary_spares {op : UnaryOp} (h : unary op d.reg em = .ok (code, em')) :
    ∀ i ∈ code, i.Spares d := by
  have hreg := d.not_kept (r := d.reg) (by simp)
  cases op <;> cases h <;>
    simp [Instr.spares_binary, Instr.spares_ldr, Instr.spares_routine, Instr.spares_when, hreg]

theorem settle_spares (d : Depth) : ∀ i ∈ d.settle, i.Spares d := by
  unfold Depth.settle
  split <;> simp [Instr.spares_movReg, d.not_kept (r := d.reg)]

/-- An operator writes the registers of its own depth. -/
theorem binary_spares {op : BinaryOp} (h : binary op d em = .ok (code, em')) :
    ∀ i ∈ code, i.Spares d := by
  have hreg := d.not_kept (r := d.reg) (by simp)
  have hleft := d.not_kept (r := d.left) (by simp)
  have hright := d.not_kept (r := d.right) (by simp)
  have hr0 := d.not_kept (r := .r0) (by simp)
  have hr1 := d.not_kept (r := .r1) (by simp)
  have hidiv : (Instr.bl "__aeabi_idiv").Spares d := Instr.spares_bl (by decide)
  have hidivmod : (Instr.bl "__aeabi_idivmod").Spares d := Instr.spares_bl (by decide)
  cases op with
  | mul =>
    cases h
    have hsmull : (⟨.smull, .always, [.reg d.left, .reg d.right, .reg d.left, .reg d.right]⟩ :
        Instr).Spares d :=
      Instr.spares_of_calm (by decide) (List.forall_mem_cons.2 ⟨hleft, List.forall_mem_singleton.2 hright⟩)
    simp only [List.forall_mem_append, List.forall_mem_cons]
    exact ⟨⟨⟨hsmull, Instr.spares_cmp, nofun⟩, Instr.spares_when (Instr.spares_routine _), nofun⟩,
      settle_spares d⟩
  | add | sub | div | rem | gt | ge | lt | le | eq | ne | and | or =>
    cases h
    simp [Instr.spares_binary, Instr.spares_cmp, Instr.spares_mov, Instr.spares_movReg,
      Instr.spares_routine, Instr.spares_when, *]

theorem nullCheck_spares {reg : Register} (h : nullCheck reg em = .ok (code, em')) :
    ∀ i ∈ code, i.Spares d := by
  cases h
  simp [Instr.spares_movReg, Instr.spares_routine, d.not_kept (r := .r0)]

/-- Taking an element writes the registers of its own depth. -/
theorem select_spares {width : Nat} (h : select width d em = .ok (code, em')) :
    ∀ i ∈ code, i.Spares d := by
  have hleft := d.not_kept (r := d.left) (by simp)
  have hr0 := d.not_kept (r := .r0) (by simp)
  have hr1 := d.not_kept (r := .r1) (by simp)
  cases h
  rw [List.forall_mem_append]
  refine ⟨?_, settle_spares d⟩
  simp [Instr.spares_ldr, Instr.spares_movReg, Instr.spares_routine, Instr.spares_binary, *]

theorem allocate_spares (bytes : Nat) : ∀ i ∈ allocate bytes d.reg, i.Spares d := by
  have hreg := d.not_kept (r := d.reg) (by simp)
  have hr0 := d.not_kept (r := .r0) (by simp)
  have hmalloc : (Instr.bl "malloc").Spares d := Instr.spares_bl (by decide)
  simp [allocate, Instr.spares_ldr, Instr.spares_movReg, *]

end

section

variable {M : Machine} {W : World} {rest is : List Instr} {s t : State} {d : Depth}

/-- Bringing the left operand back. -/
theorem settle_runs (h : M.Runs W rest d.settle s t) (hW : W.Conventional) :
    W.Intact d s t ∧ t.regs d.reg = s.regs d.left := by
  refine ⟨h.intact hW (settle_spares d), ?_⟩
  unfold Depth.settle at h
  split at h
  · rename_i hleft
    rw [h.eq_of_nil, hleft]
  · obtain ⟨u, hexec, _, _, h⟩ := h.executed rfl nofun
    cases hexec
    rw [h.eq_of_nil]
    simp

/-- What is stored in memory that the left operand points to does not go to the stack. -/
theorem storeInto_runs {size offset bytes : Nat} (h : M.Runs W rest (storeInto size offset d) s t)
    (hW : W.Conventional) (hsize : size = 1 ∨ size = 4) (hclear : W.Clear (s.regs d.left) bytes)
    (hle : offset + size ≤ bytes) : W.Intact d s t ∧ t.regs d.reg = s.regs d.left := by
  obtain ⟨hend, hapart⟩ := hclear
  have haddress : (s.regs d.left + BitVec.ofInt 32 offset).toNat = (s.regs d.left).toNat + offset := by
    rw [BitVec.ofInt_natCast]
    bv_omega
  have hplace : W.Clear (s.regs d.left + BitVec.ofInt 32 offset) size := by
    rw [World.Clear, haddress]
    omega
  obtain ⟨u, hstore, hsettle⟩ := h.split
  suffices hstored : W.Intact d s u ∧ u.regs d.left = s.regs d.left by
    obtain ⟨hsettled, hreg⟩ := settle_runs hsettle hW
    exact ⟨hstored.1.trans hsettled, hreg.trans hstored.2⟩
  split at hstore
  · obtain ⟨v, hintact, hregs, hnil⟩ := hstore.stored (d := d) rfl hsize hplace
    rw [hnil.eq_of_nil]
    exact ⟨hintact, by rw [hregs]⟩
  · -- The offset goes through `r0`.
    obtain ⟨v, hexec, _, _, hstore⟩ := hstore.executed rfl nofun
    cases hexec
    have hr0 : d.left ≠ .r0 := d.left_ne.2.2.2.1
    have hfar : (s.set .r0 (BitVec.ofInt 32 offset)).next.address? (.indexed d.left .r0) =
        some (s.regs d.left + BitVec.ofInt 32 offset) := by
      simp [State.address?, hr0]
    obtain ⟨w, hintact, hregs, hnil⟩ := hstore.stored (d := d) hfar hsize hplace
    have hset : W.Intact d s (s.set .r0 (BitVec.ofInt 32 offset)).next :=
      .of_regs (fun r hr => by simp [(Depth.ne_of_kept hr).2.2.2.2.2.1]) fun _ _ _ => rfl
    rw [hnil.eq_of_nil]
    exact ⟨hset.trans hintact, by simp [hregs, hr0]⟩

/-- Memory that is allocated is outside the stack. -/
theorem allocate_runs {bytes : Nat} (h : M.Runs W rest (allocate bytes d.reg) s t)
    (hW : W.Conventional) : W.Intact d s t ∧ W.Clear (t.regs d.reg) bytes := by
  refine ⟨h.intact hW (allocate_spares bytes), ?_⟩
  obtain ⟨u, hexec, hword, _, h⟩ := h.executed rfl nofun
  cases hexec
  obtain ⟨v, hreturns, h⟩ := h.called
  obtain ⟨w, hexec, _, _, h⟩ := h.executed rfl nofun
  cases hexec
  have hclear : W.Clear (v.regs .r0) (BitVec.ofInt 32 bytes).toNat := hW.malloc _ _ _ hreturns
  have hbytes : (BitVec.ofInt 32 bytes).toNat = bytes := by
    have hlt := (hword (.literal bytes) (by simp [Instr.ldr]) bytes rfl).2
    rw [BitVec.ofInt_natCast, BitVec.toNat_ofNat]
    exact Nat.mod_eq_of_lt (by omega)
  rw [hbytes] at hclear
  rw [h.eq_of_nil]
  simpa using hclear

/-- Storing the length of an array. -/
theorem length_runs {length : Int} {bytes : Nat}
    (h : M.Runs W rest [.ldr .r0 (.literal length), .store 4 .r0 (.mem d.reg 0)] s t)
    (hclear : W.Clear (s.regs d.reg) bytes) (hle : 4 ≤ bytes) : W.Intact d s t := by
  obtain ⟨u, hexec, _, _, h⟩ := h.executed rfl nofun
  cases hexec
  have hr0 : d.reg ≠ .r0 := d.reg_ne.2.2.2.1
  have hplace : (s.set .r0 (BitVec.ofInt 32 length)).next.address? (.mem d.reg 0) =
      some (s.regs d.reg) := by
    simp [State.address?, hr0]
  obtain ⟨hend, hapart⟩ := hclear
  obtain ⟨v, hintact, _, h⟩ := h.stored (d := d) hplace (.inr rfl) ⟨by omega, by omega⟩
  have hset : W.Intact d s (s.set .r0 (BitVec.ofInt 32 length)).next :=
    .of_regs (fun r hr => by simp [(Depth.ne_of_kept hr).2.2.2.2.2.1]) fun _ _ _ => rfl
  rw [h.eq_of_nil]
  exact hset.trans hintact

/-- After a call the arguments are off the stack again, and what was above them is still there. -/
theorem call_runs {label : String} {bytes : Nat} {u v : State}
    (hargs : W.Lowered d bytes s u) (hW : W.Conventional)
    (h : M.Runs W rest (.bl label :: (Stack.adjust .add bytes ++ [.movReg d.reg .r0])) u v) :
    v.regs .sp = s.regs .sp ∧
      ∀ a : Word, s.top ≤ a.toNat → a.toNat < W.base → v.mem a = s.mem a := by
  obtain ⟨w, hreturns, h⟩ := h.called
  rw [List.append_assoc, List.singleton_append, Instr.released_adjust] at hreturns
  obtain ⟨hsp, hmem⟩ := hW.function _ _ _ _ hreturns
  obtain ⟨x, hraise, hmov⟩ := h.split
  obtain ⟨hraised, hsame⟩ := hraise.raised
  have hlast := hmov.intact hW (d := d)
    (List.forall_mem_singleton.2 (Instr.spares_movReg (d.not_kept (by simp))))
  have htop := hargs.top
  have hlt := s.top_lt
  have hback : x.regs .sp = s.regs .sp := by
    rw [hraised, hsp]
    simp only [State.top] at htop hlt
    simp only [State.set_regs, reduceCtorEq, if_false]
    bv_omega
  refine ⟨hlast.sp.trans hback, fun a hle ha => ?_⟩
  have hcalled : (u.set .lr (M.place (u.pc + 1))).top + bytes ≤ a.toNat := htop.trans_le hle
  rw [hlast.mem a (by rwa [State.top, hback]) ha, hsame, hmem a hcalled ha]
  exact hargs.mem a hle ha

end

/-- What the code of a part keeps, and what it leaves for the code after it. -/
def Part.Keeps (W : World) (d : Depth) (s t : State) : Part → Prop
  | .expr _ | .selections _ _ => W.Intact d s t
  | .operand _ => W.Intact d s t ∧ t.regs d.left = s.regs d.reg
  | .args es => W.Lowered d (argBytes es) s t
  | .elements size offset elems =>
    (size = 1 ∨ size = 4) → W.Clear (s.regs d.reg) (offset + elems.length * size) →
      W.Intact d s t ∧ t.regs d.reg = s.regs d.reg

/-- The instructions among items. -/
def Item.steps (items : List Item) : List Instr :=
  (Item.code items).filterMap fun
    | .instr i => some i
    | _ => none

namespace Item

/-- The instructions among the items. -/
theorem steps_of_code {items : List Item} {is : List Instr} (h : code items = Code.ofInstrs is) :
    steps items = is := by
  rw [steps, h, Code.ofInstrs, List.filterMap_map]
  exact List.filterMap_some

@[simp] theorem steps_mark (ctx : Context) (items : List Item) : steps (ctx.mark :: items) = steps items :=
  rfl

@[simp] theorem steps_append (items items' : List Item) :
    steps (items ++ items') = steps items ++ steps items' := by
  rw [steps, code_append, List.filterMap_append]
  rfl

@[simp] theorem steps_instrs (is : List Instr) : steps (instrs is) = is :=
  steps_of_code (code_instrs is)

@[simp] theorem steps_access (ctx : Context) (is : List Instr) : steps (ctx.access is) = is :=
  steps_of_code (ctx.code_access is)

end Item

/-- The code of a part keeps the registers of smaller depths, the stack pointer and the stack. -/
theorem Emitted.keeps {part : Part} {ctx : Context} {d : Depth} {em em' : Emitter}
    {items : List Item} (h : Emitted part ctx d em items em') {M : Machine} {W : World}
    (hW : W.Conventional) {rest : List Instr} {s t : State}
    (hrun : M.Runs W rest (Item.steps items) s t) : part.Keeps W d s t := by
  induction h generalizing rest s t with
  | @int _ d | @str _ d | @null _ d =>
    simp only [Item.steps_mark, Item.steps_instrs] at hrun
    exact hrun.intact hW (List.forall_mem_singleton.2 (Instr.spares_ldr (d.not_kept (by simp))))
  | @bool _ d | @char _ d =>
    simp only [Item.steps_mark, Item.steps_instrs] at hrun
    exact hrun.intact hW (List.forall_mem_singleton.2 (Instr.spares_mov (d.not_kept (by simp))))
  | var type hslot =>
    simp only [Item.steps_mark, Item.steps_access] at hrun
    exact hrun.intact hW (load_spares _ _)
  | @elem _ d _ _ _ _ _ _ _ hslot _ ih =>
    simp only [Item.steps_append, Item.steps_mark, Item.steps_instrs, Item.steps_access] at hrun
    obtain ⟨u, hrun, hload⟩ := hrun.split
    obtain ⟨v, haddress, hindices⟩ := hrun.split
    have hlast := hload.intact hW
      (List.forall_mem_singleton.2 (Instr.spares_load _ (d.not_kept (by simp))))
    exact ((haddress.intact hW (address_spares _)).trans (ih hindices)).trans hlast
  | @side _ d _ _ _ _ _ _ _ _ _ hcheck ih =>
    simp only [Item.steps_append, Item.steps_mark, Item.steps_instrs] at hrun
    obtain ⟨u, hrun, hload⟩ := hrun.split
    obtain ⟨v, hpair, hnull⟩ := hrun.split
    have hlast := hload.intact hW
      (List.forall_mem_singleton.2 (Instr.spares_load _ (d.not_kept (by simp))))
    exact (World.Intact.trans (ih hpair) (hnull.intact hW (nullCheck_spares hcheck))).trans hlast
  | unary _ hop ih =>
    simp only [Item.steps_append, Item.steps_mark, Item.steps_instrs] at hrun
    obtain ⟨u, hrun, happly⟩ := hrun.split
    exact World.Intact.trans (ih hrun) (happly.intact hW (unary_spares hop))
  | binary _ _ hop ihl ihr =>
    simp only [Item.steps_append, Item.steps_mark, Item.steps_instrs] at hrun
    obtain ⟨u, hrun, happly⟩ := hrun.split
    obtain ⟨v, hleft, hright⟩ := hrun.split
    have hoperands := World.Intact.trans (ihl hleft) (ihr hright).1
    exact hoperands.trans (happly.intact hW (binary_spares hop))
  | @call ctx d _ label args items _ _ _ ih =>
    simp only [Item.steps_append, Item.steps_mark, Item.steps_instrs] at hrun
    obtain ⟨u, hrun, hcall⟩ := hrun.split
    obtain ⟨v, hsave, hargs⟩ := hrun.split
    obtain ⟨w, hcall, hrestore⟩ := hcall.split
    obtain ⟨hsp, hmem⟩ := call_runs (ih hargs) hW hcall
    cases hlive : d.live with
    | nil =>
      rw [hlive] at hsave hrestore
      rw [hsave.eq_of_nil] at hsp hmem
      rw [hrestore.eq_of_nil]
      refine ⟨hsp, ?_, hmem⟩
      rw [hlive]
      simp
    | cons r rs =>
      have hpc : .pc ∉ r :: rs := by
        rw [← hlive]
        exact fun h => (Depth.ne_of_mem_pool (d.live_subset_pool h)).2.2.2.1 rfl
      have hnodup := hlive ▸ d.live_nodup
      rw [hlive] at hsave hrestore
      obtain ⟨hback, hstack, hloaded, hstored⟩ := hsave.restored hsp hmem hrestore rfl hpc
      refine ⟨hback, fun q hq => ?_, hstack⟩
      rw [hloaded q (ne_of_mem_of_not_mem hq d.sp_not_live), hstored _ q hnodup, if_pos (hlive ▸ hq)]
  | newPair _ _ ihf ihs =>
    simp only [Item.steps_append, Item.steps_mark, Item.steps_instrs] at hrun
    obtain ⟨u₄, hrun, hstore'⟩ := hrun.split
    obtain ⟨u₃, hrun, hsnd⟩ := hrun.split
    obtain ⟨u₂, hrun, hstore⟩ := hrun.split
    obtain ⟨u₁, hallocate, hfst⟩ := hrun.split
    obtain ⟨h₁, hclear⟩ := allocate_runs hallocate hW
    obtain ⟨h₂, hleft⟩ := ihf hfst
    rw [← hleft] at hclear
    obtain ⟨h₃, hreg⟩ := storeInto_runs hstore hW (Scalar.size_eq _) hclear
      (by have := Scalar.size_eq; grind)
    rw [← hreg] at hclear
    obtain ⟨h₄, hleft'⟩ := ihs hsnd
    rw [← hleft'] at hclear
    obtain ⟨h₅, _⟩ := storeInto_runs hstore' hW (Scalar.size_eq _) hclear
      (by have := Scalar.size_eq; grind)
    exact (((h₁.trans h₂).trans h₃).trans h₄).trans h₅
  | @array _ d _ elems _ _ _ _ ih =>
    simp only [Item.steps_append, Item.steps_mark, Item.steps_instrs] at hrun
    obtain ⟨u₂, hrun, hlength⟩ := hrun.split
    obtain ⟨u₁, hallocate, helems⟩ := hrun.split
    obtain ⟨h₁, hclear⟩ := allocate_runs hallocate hW
    have hsize : elemSize elems = 1 ∨ elemSize elems = 4 := by
      cases elems with
      | nil => exact .inr rfl
      | cons first _ => exact Scalar.size_eq first.note
    obtain ⟨h₂, hreg⟩ := ih helems hsize hclear
    rw [← hreg] at hclear
    exact (h₁.trans h₂).trans (length_runs hlength hclear (Nat.le_add_right _ _))
  | @spilled ctx d _ _ _ _ hlast _ ih =>
    simp only [Item.steps_append, Item.steps_instrs] at hrun
    obtain ⟨u, hrun, hpop⟩ := hrun.split
    obtain ⟨v, hpush, he⟩ := hrun.split
    have hbody : W.Intact d v u := ih he
    obtain ⟨hback, hstack, hloaded, hstored⟩ :=
      hpush.restored hbody.sp hbody.mem hpop rfl (by decide)
    refine ⟨⟨hback, fun q hq => ?_, hstack⟩, ?_⟩
    · have hq12 : q ≠ .r12 := (Depth.ne_of_kept (.inr hq)).2.2.2.2.2.2.2
      have hsp := ne_of_mem_of_not_mem hq d.sp_not_live
      rw [hloaded q hsp, ← hpush.pushed.2.2.1 q hsp, ← hbody.live q hq]
      simp [Memory.loadAll, scratch, hq12]
    · have hvalue := hstored u.regs d.reg (List.nodup_singleton _)
      rw [Depth.left_of_exhausted hlast, hloaded .r12 (by decide)]
      simpa [Memory.loadAll, scratch] using hvalue
  | next hmore _ ih =>
    have hnext : W.Intact (Depth.next _) s t := ih hrun
    refine ⟨hnext.of_next, ?_⟩
    rw [Depth.left_of_not_exhausted hmore]
    exact hnext.live _ (Depth.reg_mem_live_next hmore)
  | noSelection =>
    rw [hrun.eq_of_nil]
    exact .refl W _ s
  | noElement =>
    intro _ _
    rw [hrun.eq_of_nil]
    exact ⟨.refl W _ s, rfl⟩
  | noArg =>
    rw [hrun.eq_of_nil]
    exact ⟨rfl, fun _ _ => rfl, fun _ _ _ => rfl⟩
  | selection _ hselect _ ih iho =>
    simp only [Item.steps_append, Item.steps_instrs] at hrun
    obtain ⟨u, hrun, hothers⟩ := hrun.split
    obtain ⟨v, hindex, hselected⟩ := hrun.split
    have hfirst := (ih hindex).1.trans (hselected.intact hW (select_spares hselect))
    exact hfirst.trans (iho hothers)
  | @arg ctx d _ arg args _ _ _ _ _ _ iho ih =>
    simp only [Item.steps_append, Item.steps_instrs] at hrun
    obtain ⟨u, hrun, hpush⟩ := hrun.split
    obtain ⟨v, hothers, harg⟩ := hrun.split
    have hlow : W.Lowered d (argBytes args) s v := iho hothers
    have hvalue : W.Intact d v u := ih harg
    exact hpush.lowered (Scalar.size_eq _) hlow hvalue d.sp_not_live
  | element _ _ ih iho =>
    simp only [Item.steps_append, Item.steps_instrs] at hrun
    intro hsize hclear
    obtain ⟨u, hrun, hothers⟩ := hrun.split
    obtain ⟨v, helem, hstore⟩ := hrun.split
    obtain ⟨h₁, hleft⟩ := ih helem
    rw [← hleft, List.length_cons, Nat.add_one_mul, Nat.add_comm (_ * _), ← Nat.add_assoc] at hclear
    obtain ⟨h₂, hreg⟩ := storeInto_runs hstore hW hsize hclear (Nat.le_add_right _ _)
    rw [← hreg] at hclear
    obtain ⟨h₃, hreg'⟩ := iho hothers hsize hclear
    exact ⟨(h₁.trans h₂).trans h₃, (hreg'.trans hreg).trans hleft⟩

/-- Code that is generated follows the rules of emission. -/
theorem emitted_of_ok {e : Checked.Expr} {ctx : Context} {d : Depth} {em em' : Emitter}
    {code : List Instr} (hok : expr e ctx d em = .ok (code, em')) :
    ∃ items, Item.steps items = code ∧ Emitted (.expr e) ctx d em items em' := by
  cases expr_makes e ctx d em with
  | ok hmade htraced =>
    obtain ⟨items, hcode, hemitted⟩ := htraced
    obtain ⟨rfl, rfl⟩ := Prod.mk.inj (Except.ok.inj (hok.symm.trans hmade))
    exact ⟨items, Item.steps_of_code hcode, hemitted⟩
  | unbound _ hfail => exact nomatch hok.symm.trans hfail

/-- Evaluating an expression at any depth keeps the registers of smaller depths, the stack pointer and
the stack from the stack pointer up, if its calls follow the calling convention. -/
theorem expr_keeps_shallower {e : Checked.Expr} {ctx : Context} {d : Depth} {em em' : Emitter}
    {code : List Instr} (hok : expr e ctx d em = .ok (code, em')) {M : Machine} {W : World}
    (hW : W.Conventional) {rest : List Instr} {s t : State} (hrun : M.Runs W rest code s t) :
    W.Intact d s t := by
  obtain ⟨items, rfl, hemitted⟩ := emitted_of_ok hok
  exact hemitted.keeps hW hrun

namespace Clobbered

/-- Functions clear all that they may change. -/
def world : World where
  limit := 0x1000
  base := 0x2000
  returns name bytes s t := name ∉ runtimeLabels ∧
    t = { s with
      regs := fun r => if r = .sp then s.regs .sp else 0
      mem := fun a => if s.top + bytes ≤ a.toNat then s.mem a else 0 }

def machine : Machine := .bare fun _ => 0

def start : State where
  regs r := if r = .sp then 0x1800 else 5
  flags := ⟨false, false, false, false⟩
  mem _ := 9
  pc := 0

/-- A call of a function with a call of it as the argument, as the right operand of an operator. -/
def call : Checked.Expr := .call .int "f_g" [.call .int "f_g" [.int .int 7]]

theorem conventional : world.Conventional where
  base_le := by decide
  function name bytes s t h := by
    obtain ⟨_, rfl⟩ := h
    exact ⟨by simp, fun a ha _ => by simp [ha]⟩
  routine name hname bytes s t h := absurd hname h.1
  malloc bytes s t h := absurd (by decide) h.1

def code : List Instr :=
  [.push [.r4], .push [.r4], .ldr .r5 (.literal 7), .store 4 .r5 (.preIndexed .sp (-4)), .bl "f_g",
    .binary .add .sp .sp (.imm 4), .movReg .r5 .r0, .pop [.r4], .store 4 .r5 (.preIndexed .sp (-4)),
    .bl "f_g", .binary .add .sp .sp (.imm 4), .movReg .r5 .r0, .pop [.r4]]

theorem emits : expr call {} ⟨1⟩ {} = .ok (code, {}) := by
  have hadjust : Stack.adjust .add 4 = [.binary .add .sp .sp (.imm 4)] := by decide +kernel
  simp [call, code, expr, pushArgs, argBytes, Expr.note, Ty.size, hadjust]
  rfl

theorem runs : ∃ t, machine.Runs world [] code start t ∧ t.pc = code.length := by
  unfold code
  repeat
    first
    | exact ⟨_, .nil _, rfl⟩
    | refine Machine.exists_runs_call ⟨by decide, rfl⟩ ?_
    | refine Machine.exists_runs_exec rfl (by decide) ?_ ⟨by decide, ?_⟩ rfl rfl ?_
      · simp [Instr.WordLiterals, Instr.push, Instr.pop, Instr.ldr, Instr.store, Instr.binary,
          Instr.movReg, Instr.mov]
      · rintro n ⟨rfl⟩
        decide

end Clobbered

/-- The register of the left operand comes through both calls, although they clear it. -/
theorem expr_keeps_shallower_clobbered :
    ∃ t, Clobbered.machine.Runs Clobbered.world [] Clobbered.code Clobbered.start t ∧
      t.regs .r4 = 5 ∧ t.regs .sp = 0x1800 := by
  obtain ⟨t, hrun, -⟩ := Clobbered.runs
  have hintact := expr_keeps_shallower Clobbered.emits Clobbered.conventional hrun
  exact ⟨t, hrun, hintact.live .r4 (by decide), hintact.sp⟩

end Emission

end WaccArm
