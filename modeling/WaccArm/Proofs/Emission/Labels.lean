import WaccArm.Proofs.Emission.Program

namespace WaccArm

namespace Expr

variable {α : Type}

/-- The function that an expression calls at its top. -/
def callee? : Expr α → Option String
  | .call _ callee _ => some callee
  | _ => none

/-- All that expressions call at their tops is known. -/
def CallsKnown (known : String → Prop) (es : List (Expr α)) : Prop :=
  ∀ e ∈ es, ∀ name, e.callee? = some name → known name

/-- More functions may be known. -/
theorem CallsKnown.imp {known known' : String → Prop} {es : List (Expr α)} (h : CallsKnown known es)
    (himp : ∀ name, known name → known' name) : CallsKnown known' es :=
  fun e he name hname => himp name (h e he name hname)

theorem CallsKnown.tail {known : String → Prop} {e : Expr α} {es : List (Expr α)}
    (h : CallsKnown known (e :: es)) : CallsKnown known es :=
  (List.forall_mem_cons.1 h).2

theorem CallsKnown.of_append {known : String → Prop} {es es' : List (Expr α)}
    (h : CallsKnown known (es ++ es')) : CallsKnown known es ∧ CallsKnown known es' :=
  List.forall_mem_append.1 h

end Expr

/-- A label is defined where it stands. -/
theorem Assembly.mem_defined {name : String} {code : Code} :
    name ∈ defined code ↔ .label name ∈ code := by
  rw [defined, List.mem_filterMap]
  constructor
  · rintro ⟨_ | _ | _, hmem, ⟨⟩⟩
    exact hmem
  · exact fun hmem => ⟨.label name, hmem, rfl⟩

namespace Instr

/-- The label that an instruction may jump to. A call comes back. -/
def jump? (i : Instr) : Option String := if i.opcode = .b then i.target? else none

/-- An instruction that does not jump and needs no label but known ones. -/
def Served (known : String → Prop) (i : Instr) : Prop :=
  i.opcode ≠ .b ∧ ∀ name, i.needs? = some name → known name

variable {known : String → Prop} {dst : Register} {source : Operand}

/-- An instruction that needs nothing can always be. -/
theorem served_of_needs {i : Instr} (hop : i.opcode ≠ .b) (hneeds : i.needs? = none) :
    i.Served known := by
  refine ⟨hop, ?_⟩
  rw [hneeds]
  nofun

theorem served_when {i : Instr} {cond : Cond} : (i.when cond).Served known ↔ i.Served known := Iff.rfl

/-- A call needs the label that it branches to. -/
theorem served_bl {name : String} : (bl name).Served known ↔ known name := by
  simp [Served, bl, needs?, target?]

/-- The address of a constant needs its label. -/
theorem served_address {name : String} : (ldr dst (.address name)).Served known ↔ known name := by
  simp [Served, ldr, needs?, target?]

/-- Instructions on a register and something that is not the address of a label. -/
theorem served_pair {op : Opcode} (hop : op ≠ .b) (h : ∀ name, source ≠ .address name) :
    Served known { opcode := op, operands := [.reg dst, source] } := by
  refine served_of_needs hop ?_
  cases source with
  | address name => exact absurd rfl (h name)
  | _ => cases op <;> rfl

theorem served_ldr (h : ∀ name, source ≠ .address name) : (ldr dst source).Served known :=
  served_pair nofun h

theorem served_mov (h : ∀ name, source ≠ .address name) : (mov dst source).Served known :=
  served_pair nofun h

theorem served_movReg {src : Register} : (movReg dst src).Served known := served_mov nofun

theorem served_load {size : Nat} (h : ∀ name, source ≠ .address name) :
    (load size dst source).Served known := by
  refine served_pair ?_ h
  unfold Opcode.load
  split <;> nofun

theorem served_store {size : Nat} {src : Register} (h : ∀ name, source ≠ .address name) :
    (store size src source).Served known := by
  refine served_pair ?_ h
  unfold Opcode.store
  split <;> nofun

theorem served_cmp {left : Register} (h : ∀ name, source ≠ .address name) :
    (cmp left source).Served known :=
  served_pair nofun h

theorem served_push {rs : List Register} : (push rs).Served known := served_of_needs nofun rfl

theorem served_pop {rs : List Register} : (pop rs).Served known := served_of_needs nofun rfl

theorem served_binary {op : Opcode} {left : Register} (hop : op ≠ .b ∧ op ≠ .bl) :
    (binary op dst left source).Served known := by
  refine served_of_needs hop.1 ?_
  cases op with
  | b => exact absurd rfl hop.1
  | bl => exact absurd rfl hop.2
  | _ => rfl

end Instr

/-- Everything is known that code asked for up to a state of the file. -/
structure Emitter.Covered (known : String → Prop) (em : Emitter) : Prop where
  externals : ∀ name ∈ externals, known name
  routines : ∀ r ∈ em.routines, known r.label
  constants : ∀ name ∈ em.file.constants.labels, known name

/-- Labels of constants stay when more are added. -/
theorem Constants.labels_subset {c c' : Constants} (h : c.texts <+: c'.texts) :
    c.labels ⊆ c'.labels := by
  rw [labels_eq, labels_eq]
  refine List.map_subset _ fun k hk => ?_
  exact List.mem_range.2 (Nat.lt_of_lt_of_le (List.mem_range.1 hk) h.length_le)

/-- What is known in the end was enough at every point. -/
theorem Emitter.Covered.of_grows {known : String → Prop} {em em' : Emitter} (h : em'.Covered known)
    (hgrows : em.Grows em') : em.Covered known where
  externals := h.externals
  routines r hr := h.routines r (hgrows.routines hr)
  constants name hname := h.constants name (Constants.labels_subset hgrows.texts hname)

namespace Emission

open Instr (Served)

section

variable {known : String → Prop} {ctx : Context} {d : Depth} {em em' : Emitter} {code : List Instr}

theorem load_served (size : Nat) (dst : Register) (slot : Slot) :
    ∀ i ∈ ctx.load size dst slot, Served known i := by
  simp only [Context.load, Context.stackOperand]
  split <;> simp [Instr.served_load, Instr.served_ldr]

theorem store_served (size : Nat) (src : Register) (slot : Slot) :
    ∀ i ∈ ctx.store size src slot, Served known i := by
  simp only [Context.store, Context.stackOperand]
  split <;> simp [Instr.served_store, Instr.served_ldr]

theorem address_served (dst : Register) (slot : Slot) : ∀ i ∈ ctx.address dst slot, Served known i := by
  simp only [Context.address]
  split <;> simp [Instr.served_ldr, Instr.served_binary]

/-- A routine that was asked for is in use. -/
theorem mem_require_self (em : Emitter) (r : Routine) : r ∈ (em.require r).routines := by
  rw [Emitter.require_routines]
  exact r.mem_require_self em.routines

/-- An operator asks for the routine that it calls. -/
theorem unary_served {op : UnaryOp} {reg : Register} (h : unary op reg em = .ok (code, em'))
    (hcovered : em'.Covered known) : ∀ i ∈ code, Served known i := by
  cases op with
  | negate =>
    cases h
    have hknown := hcovered.routines _ (mem_require_self em .throwOverflowError)
    simp [Instr.served_binary, Instr.served_when, Instr.served_bl, hknown]
  | not | len | ord | chr =>
    cases h
    simp [Instr.served_binary, Instr.served_ldr]

theorem settle_served (d : Depth) : ∀ i ∈ d.settle, Served known i := by
  unfold Depth.settle
  split <;> simp [Instr.served_movReg]

/-- An operator on two operands asks for the routines that it calls. -/
theorem binary_served {op : BinaryOp} (h : binary op d em = .ok (code, em'))
    (hcovered : em'.Covered known) : ∀ i ∈ code, Served known i := by
  cases op with
  | add | sub =>
    cases h
    have hknown := hcovered.routines _ (mem_require_self em .throwOverflowError)
    simp [Instr.served_binary, Instr.served_when, Instr.served_bl, hknown]
  | mul =>
    cases h
    have hknown := hcovered.routines _ (mem_require_self em .throwOverflowError)
    simp only [List.forall_mem_append, List.forall_mem_cons]
    refine ⟨⟨⟨?_, Instr.served_cmp nofun, nofun⟩, Instr.served_bl.2 hknown, nofun⟩, settle_served d⟩
    exact Instr.served_of_needs nofun rfl
  | div | rem =>
    cases h
    have hcheck := hcovered.routines _ (mem_require_self em .checkDivideByZero)
    have hquotient := hcovered.externals "__aeabi_idiv" (by decide)
    have hremainder := hcovered.externals "__aeabi_idivmod" (by decide)
    simp [Instr.served_movReg, Instr.served_bl, hcheck, hquotient, hremainder]
  | gt | ge | lt | le | eq | ne | and | or =>
    cases h
    simp [Instr.served_binary, Instr.served_cmp, Instr.served_mov, Instr.served_when]

theorem nullCheck_served {reg : Register} (h : nullCheck reg em = .ok (code, em'))
    (hcovered : em'.Covered known) : ∀ i ∈ code, Served known i := by
  cases h
  have hknown := hcovered.routines _ (mem_require_self em .checkNullPointer)
  simp [Instr.served_movReg, Instr.served_bl, hknown]

/-- An index asks for the check of its bounds. -/
theorem select_served {width : Nat} (h : select width d em = .ok (code, em'))
    (hcovered : em'.Covered known) : ∀ i ∈ code, Served known i := by
  cases h
  have hknown := hcovered.routines _ (mem_require_self em .checkArrayBounds)
  rw [List.forall_mem_append]
  refine ⟨?_, settle_served d⟩
  simp [Instr.served_ldr, Instr.served_movReg, Instr.served_bl, Instr.served_binary, hknown]

theorem storeInto_served (size offset : Nat) (d : Depth) :
    ∀ i ∈ storeInto size offset d, Served known i := by
  unfold storeInto
  rw [List.forall_mem_append]
  refine ⟨?_, settle_served d⟩
  split <;> simp [Instr.served_store, Instr.served_ldr]

theorem allocate_served (bytes : Nat) (reg : Register) (hcovered : em.Covered known) :
    ∀ i ∈ allocate bytes reg, Served known i := by
  have hknown := hcovered.externals "malloc" (by decide)
  simp [allocate, Instr.served_ldr, Instr.served_bl, Instr.served_movReg, hknown]

theorem adjust_served (op : Opcode) (hop : op ≠ .b ∧ op ≠ .bl) (bytes : Nat) :
    ∀ i ∈ Stack.adjust op bytes, Served known i := by
  simp only [Stack.adjust, List.forall_mem_map]
  exact fun step _ => Instr.served_binary hop

end

/-- Lines that are instructions without jumps which need no label but known ones. -/
def Plain (known : String → Prop) (items : List Item) : Prop :=
  ∀ l ∈ Item.code items, ∃ i, l = .instr i ∧ Served known i

section

variable {known : String → Prop} {items items' : List Item} {is : List Instr}

theorem Plain.nil : Plain known [] := nofun

theorem Plain.mark {displacement : Int} (h : Plain known items) :
    Plain known (.mark displacement :: items) := h

/-- Code that needs no labels of its own can be put together. -/
theorem Plain.append (h : Plain known items) (h' : Plain known items') :
    Plain known (items ++ items') := by
  rw [Plain, Item.code_append]
  exact List.forall_mem_append.2 ⟨h, h'⟩

/-- Marks in the code need nothing. -/
theorem plain_of_code (hcode : Item.code items = Code.ofInstrs is) (h : ∀ i ∈ is, Served known i) :
    Plain known items := by
  intro l hl
  rw [hcode] at hl
  obtain ⟨i, hi, rfl⟩ := List.mem_map.1 hl
  exact ⟨i, rfl, h i hi⟩

theorem Plain.instrs (h : ∀ i ∈ is, Served known i) : Plain known (Item.instrs is) :=
  plain_of_code (Item.code_instrs is) h

theorem Plain.access {ctx : Context} (h : ∀ i ∈ is, Served known i) : Plain known (ctx.access is) :=
  plain_of_code (ctx.code_access is) h

end

/-- A part of an expression with all its parts. -/
def Part.parts : Part → List Checked.Expr
  | .expr e | .operand e => e.parts
  | .selections _ es | .args es | .elements _ _ es => Expr.partsAll es

/-- The code of an expression does not jump, and needs what it asked for and the functions that it
calls. -/
theorem Emitted.plain {part : Part} {ctx : Context} {d : Depth} {em em' : Emitter}
    {items : List Item} {known : String → Prop} (h : Emitted part ctx d em items em')
    (hcovered : em'.Covered known) (hcalls : Expr.CallsKnown known part.parts) :
    Plain known items := by
  induction h with
  | int | null => exact .mark (.instrs (by simp [Instr.served_ldr]))
  | bool | char => exact .mark (.instrs (by simp [Instr.served_mov]))
  | @str _ _ em type value =>
    have hmem := Emitter.labelOf_mem (em.mem_texts_intern value)
    rw [← Emitter.intern_fst] at hmem
    exact .mark (.instrs (by simp [Instr.served_address, hcovered.constants _ hmem]))
  | var => exact .mark (.access (load_served _ _ _))
  | elem _ _ ih =>
    refine .mark (.append (.append (.access (address_served _ _)) (ih hcovered hcalls.tail)) ?_)
    exact .instrs (by simp [Instr.served_load])
  | side _ hcheck ih =>
    have hpair := ih (hcovered.of_grows (nullCheck_grows hcheck)) hcalls.tail
    refine .mark (.append (.append hpair (.instrs (nullCheck_served hcheck hcovered))) ?_)
    exact .instrs (by simp [Instr.served_load])
  | unary _ hop ih =>
    have hoperand := ih (hcovered.of_grows (unary_grows hop)) hcalls.tail
    exact .mark (.append hoperand (.instrs (unary_served hop hcovered)))
  | binary _ hr hop ihl ihr =>
    obtain ⟨hlcalls, hrcalls⟩ := hcalls.tail.of_append
    have hcovered' := hcovered.of_grows (binary_grows hop)
    have hboth := (ihl (hcovered'.of_grows hr.grows) hlcalls).append (ihr hcovered' hrcalls)
    exact .mark (hboth.append (.instrs (binary_served hop hcovered)))
  | @call ctx d em label args items em' type _ ih =>
    have hknown : known label := hcalls _ (List.mem_cons_self ..) label rfl
    refine .mark (.append (.append (.instrs ?_) (ih hcovered hcalls.tail)) (.instrs ?_))
    · split <;> simp [Instr.served_push]
    · simp only [List.forall_mem_append, List.forall_mem_singleton]
      refine ⟨⟨⟨Instr.served_bl.2 hknown, adjust_served _ (by decide) _⟩, Instr.served_movReg⟩, ?_⟩
      split <;> simp [Instr.served_pop]
  | newPair _ hsnd ihf ihs =>
    obtain ⟨hfcalls, hscalls⟩ := hcalls.tail.of_append
    have hfst := ihf (hcovered.of_grows hsnd.grows) hfcalls
    refine .mark (.append (.append (.append (.append ?_ hfst) ?_) (ihs hcovered hscalls)) ?_)
    · exact .instrs (allocate_served _ _ hcovered)
    · exact .instrs (storeInto_served _ _ _)
    · exact .instrs (storeInto_served _ _ _)
  | array _ ih =>
    refine .mark (.append (.append ?_ (ih hcovered hcalls.tail)) ?_)
    · exact .instrs (allocate_served _ _ hcovered)
    · exact .instrs (by simp [Instr.served_ldr, Instr.served_store])
  | spilled _ _ ih =>
    refine .append (.append (.instrs ?_) (ih hcovered hcalls)) (.instrs ?_)
    · exact List.forall_mem_singleton.2 Instr.served_push
    · exact List.forall_mem_singleton.2 Instr.served_pop
  | next _ _ ih => exact ih hcovered hcalls
  | noSelection | noArg | noElement => exact .nil
  | selection _ hselect hothers ih iho =>
    obtain ⟨hicalls, hocalls⟩ := hcalls.of_append
    have hcovered' := hcovered.of_grows hothers.grows
    have hindex := ih (hcovered'.of_grows (select_grows hselect)) hicalls
    exact (hindex.append (.instrs (select_served hselect hcovered'))).append (iho hcovered hocalls)
  | arg _ harg iho ih =>
    obtain ⟨hacalls, hocalls⟩ := hcalls.of_append
    refine .append (.append (iho (hcovered.of_grows harg.grows) hocalls) (ih hcovered hacalls)) ?_
    exact .instrs (by simp [Instr.served_store])
  | element _ hothers ih iho =>
    obtain ⟨hecalls, hocalls⟩ := hcalls.of_append
    have helem := ih (hcovered.of_grows hothers.grows) hecalls
    exact (helem.append (.instrs (storeInto_served _ _ _))).append (iho hcovered hocalls)

/-- The code of an address has no jumps. -/
theorem Located.plain {e : Checked.Expr} {ctx : Context} {d : Depth} {em em' : Emitter}
    {items : List Item} {known : String → Prop} (h : Located e ctx d em items em')
    (hcovered : em'.Covered known) (hcalls : Expr.CallsKnown known e.parts) : Plain known items := by
  cases h with
  | var => exact .mark (.access (address_served _ _))
  | elem _ hindices =>
    exact .mark (.append (.access (address_served _ _)) (hindices.plain hcovered hcalls.tail))
  | side hpair hcheck =>
    have hplain := hpair.plain (hcovered.of_grows (nullCheck_grows hcheck)) hcalls.tail
    refine .mark (.append (hplain.append (.instrs (nullCheck_served hcheck hcovered))) ?_)
    exact .instrs (by simp [Instr.served_binary])
  | other _ he => exact he.plain hcovered hcalls

/-- Instructions that jump to the given labels only, and need no other label but known ones. -/
def Closed (known : String → Prop) (labels : List String) (items : List Item) : Prop :=
  ∀ i, .instr i ∈ Item.code items →
    Served known i ∨ ∃ name cond, i = (Instr.b name).when cond ∧ name ∈ labels

section

variable {known : String → Prop} {labels : List String} {items items' : List Item}

/-- Code without jumps needs no labels. -/
theorem Plain.closed (h : Plain known items) : Closed known labels items := by
  intro i hi
  obtain ⟨i, ⟨⟩, hserved⟩ := h _ hi
  exact .inl hserved

theorem Closed.mark {displacement : Int} (h : Closed known labels items) :
    Closed known labels (.mark displacement :: items) := h

/-- Jumps go to the labels of the whole. -/
theorem Closed.append (h : Closed known labels items) (h' : Closed known labels items') :
    Closed known labels (items ++ items') := by
  intro i hi
  rw [Item.code_append, List.mem_append] at hi
  exact hi.elim (h i) (h' i)

theorem Closed.label (name : String) (h : Closed known labels items) :
    Closed known labels (.line (.label name) :: items) := by
  rintro i (_ | ⟨_, hi⟩)
  exact h i hi

/-- A jump needs a label of the code around it. -/
theorem Closed.jump {name : String} (cond : Cond) (hname : name ∈ labels)
    (h : Closed known labels items) :
    Closed known labels (.line (.instr ((Instr.b name).when cond)) :: items) := by
  rintro i (_ | ⟨_, hi⟩)
  · exact .inr ⟨name, cond, rfl, hname⟩
  · exact h i hi

theorem Closed.served {i : Instr} (hserved : Served known i) (h : Closed known labels items) :
    Closed known labels (.line (.instr i) :: items) := by
  rintro i (_ | ⟨_, hi⟩)
  · exact .inl hserved
  · exact h i hi

theorem Closed.nil : Closed known labels [] := nofun

/-- A block adds no jumps. -/
theorem StmtEmitted.block_closed {s : Checked.Stmt} {ctx inner : Context} {em em' : Emitter}
    {size : Nat} (h : StmtEmitted s (ctx.inside size) em items inner em')
    (hitems : Closed known labels items) : Closed known labels (blockItems ctx size items inner) := by
  rw [blockItems, h.exit_inside.1]
  refine .append (.append (Plain.closed (.instrs ?_)) hitems) (Plain.closed (.instrs ?_))
  · exact adjust_served _ (by decide) _
  · exact adjust_served _ (by decide) _

end

/-- A block adds no labels. -/
theorem code_blockItems (ctx inner : Context) (size : Nat) (items : List Item) (name : String) :
    .label name ∈ Item.code (blockItems ctx size items inner) ↔ .label name ∈ Item.code items := by
  simp [blockItems, Code.ofInstrs]

/-- The code of a statement jumps to its own labels, and needs what it asked for and the functions
that it calls. -/
theorem StmtEmitted.closed {s : Checked.Stmt} {ctx ctx' : Context} {em em' : Emitter}
    {items : List Item} {known : String → Prop} {labels : List String}
    (h : StmtEmitted s ctx em items ctx' em') (hcovered : em'.Covered known)
    (hcalls : Expr.CallsKnown known s.exprs)
    (hlabels : ∀ name, .label name ∈ Item.code items → name ∈ labels) : Closed known labels items := by
  induction h with
  | skip | seqNil => exact .mark .nil
  | declare hinit =>
    refine .mark (.append (hinit.plain hcovered hcalls).closed ?_)
    exact Plain.closed (.access (store_served _ _ _))
  | assignVar hsrc _ =>
    obtain ⟨-, hscalls⟩ := hcalls.of_append
    refine .mark (.append (hsrc.plain hcovered hscalls).closed ?_)
    exact Plain.closed (.access (store_served _ _ _))
  | assignPlace _ hsrc hplace =>
    obtain ⟨hdcalls, hscalls⟩ := hcalls.of_append
    have hsplain := hsrc.plain (hcovered.of_grows hplace.grows) hscalls
    have hplain := hsplain.append (hplace.plain hcovered hdcalls)
    exact .mark (hplain.append (.instrs (by simp [Instr.served_store]))).closed
  | read hplace =>
    have hplain := hplace.plain (hcovered.of_grows (Emitter.grows_require _ _)) hcalls
    have hknown := hcovered.routines _ (mem_require_self _ _)
    exact .mark (hplain.append (.instrs (by simp [Instr.served_movReg, Instr.served_bl, hknown]))).closed
  | free he | print he =>
    have hplain := he.plain (hcovered.of_grows (Emitter.grows_require _ _)) hcalls
    have hknown := hcovered.routines _ (mem_require_self _ _)
    exact .mark (hplain.append (.instrs (by simp [Instr.served_movReg, Instr.served_bl, hknown]))).closed
  | println he =>
    have hcovered' := hcovered.of_grows (Emitter.grows_require _ _)
    have hplain := he.plain (hcovered'.of_grows (Emitter.grows_require _ _)) hcalls
    have hknown := hcovered'.routines _ (mem_require_self _ _)
    have hline := hcovered.routines _ (mem_require_self _ _)
    refine .mark (hplain.append (.instrs ?_)).closed
    simp [Instr.served_movReg, Instr.served_bl, hknown, hline]
  | ret he =>
    refine .mark (((he.plain hcovered hcalls).append (.instrs ?_)).append (.instrs ?_)).closed
    · refine List.forall_mem_cons.2 ⟨Instr.served_movReg, ?_⟩
      exact adjust_served _ (by decide) _
    · exact List.forall_mem_singleton.2 Instr.served_pop
  | exit he =>
    have hexit := hcovered.externals "exit" (by decide)
    have hplain := he.plain hcovered hcalls
    exact .mark (hplain.append (.instrs (by simp [Instr.served_movReg, Instr.served_bl, hexit]))).closed
  | branch hcond hyes hno ihy ihn =>
    obtain ⟨hccalls, hbcalls⟩ := hcalls.of_append
    obtain ⟨hycalls, hncalls⟩ := hbcalls.of_append
    simp only [List.cons_append, Context.code_mark, Item.code_append, Item.code_line, Item.code_nil,
      Item.code_instrs, List.mem_append, code_blockItems] at hlabels
    have hcovered₂ := hcovered.of_grows hno.grows
    have htest := hcond.plain (hcovered₂.of_grows hyes.grows) hccalls
    have hy := hyes.block_closed (ihy hcovered₂ hycalls fun name hname => hlabels name (by simp [hname]))
    have hn := hno.block_closed (ihn hcovered hncalls fun name hname => hlabels name (by simp [hname]))
    refine .mark (.append (.append (.append (.append (.append htest.closed ?_) hy) ?_) hn) ?_)
    · exact .served (Instr.served_cmp nofun) (.jump .eq (hlabels _ (by simp)) .nil)
    · exact .jump .always (hlabels _ (by simp)) (.label _ .nil)
    · exact .label _ .nil
  | loop hbody hcond ih =>
    obtain ⟨hccalls, hbcalls⟩ := hcalls.of_append
    simp only [List.cons_append, List.nil_append, Context.code_mark, Item.code_append, Item.code_line,
      Item.code_nil, Item.code_instrs, List.mem_append, List.mem_cons, code_blockItems] at hlabels
    have htest := hcond.plain hcovered hccalls
    have hb := hbody.block_closed (ih (hcovered.of_grows hcond.grows) hbcalls fun name hname =>
      hlabels name (by simp [hname]))
    refine .append (.append (.append (.append ?_ hb) ?_) htest.closed) ?_
    · exact .mark (.jump .always (hlabels _ (by simp)) (.label _ .nil))
    · exact .label _ .nil
    · exact .served (Instr.served_cmp nofun) (.jump .eq (hlabels _ (by simp)) .nil)
  | scope hbody ih =>
    refine .mark (hbody.block_closed (ih hcovered hcalls fun name hname => hlabels name ?_))
    simpa only [Context.code_mark, code_blockItems] using hname
  | seqCons hfirst hothers ih iho =>
    obtain ⟨hfcalls, hocalls⟩ := hcalls.of_append
    simp only [Item.code_append, List.mem_append] at hlabels
    have hf := ih (hcovered.of_grows hothers.grows) hfcalls fun name hname => hlabels name (.inl hname)
    exact hf.append (iho hcovered hocalls fun name hname => hlabels name (.inr hname))

/-- The body of a procedure jumps to its own labels only. -/
theorem BodyEmitted.closed {s : Checked.Stmt} {slots : Chain Slot} {ending : List Instr}
    {em em' : Emitter} {body : List Item} {known : String → Prop}
    (h : BodyEmitted s slots ending em body em') (hcovered : em'.Covered known)
    (hcalls : Expr.CallsKnown known s.exprs) (hending : ∀ i ∈ ending, Served known i) :
    Closed known (Assembly.defined (Item.code body)) body := by
  cases h with
  | block hitems =>
    have hpool (labels : List String) : Closed known labels [.line .literalPool] := by
      rintro i (_ | ⟨_, hi⟩)
      cases hi
    refine .append (.append (hitems.block_closed ?_) (Plain.closed (.instrs hending))) (hpool _)
    refine hitems.closed hcovered hcalls fun name hname => Assembly.mem_defined.2 ?_
    simp [code_blockItems, hname]

end Emission

end WaccArm
