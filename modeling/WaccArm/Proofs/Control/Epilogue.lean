import Mathlib.Data.List.Infix
import WaccArm.Proofs.Control.Runs
import WaccArm.Proofs.Emission.Overloads
import WaccArm.Proofs.Stack.Flow

namespace WaccArm

namespace Instr

/-- An instruction behind which control goes on at the next line and nowhere else. -/
def Straight (i : Instr) : Prop := i.opcode ≠ .b ∧ i.returns = false ∧ i.target? ≠ some "exit"

/-- Whether control may go on at the next line. -/
def Passes (i : Instr) : Prop := i.cond ≠ .always ∨ i.Straight

variable {i : Instr} {dst left : Register} {place : Operand}

/-- Control goes from such an instruction to the next one. -/
theorem Straight.jump? (h : i.Straight) : i.jump? = none := if_neg h.1

/-- Only branches, calls and pops can lead elsewhere. -/
theorem straight_of_opcode (h : i.opcode ∉ [Opcode.b, .bl, .pop]) : i.Straight := by
  simp only [List.mem_cons, List.not_mem_nil, or_false, not_or] at h
  refine ⟨h.1, ?_, ?_⟩
  · unfold returns
    split
    · exact absurd ‹_› h.2.2
    · rfl
  · unfold target?
    split
    · exact absurd ‹_› h.1
    · exact absurd ‹_› h.2.1
    · nofun

@[simp] theorem straight_when (cond : Cond) : (i.when cond).Straight ↔ i.Straight := Iff.rfl

/-- A condition may not hold. -/
theorem passes_when {cond : Cond} (h : cond ≠ .always) : (i.when cond).Passes := .inl h

@[simp] theorem straight_ldr : (ldr dst place).Straight := straight_of_opcode (by simp [ldr])

@[simp] theorem straight_mov : (mov dst place).Straight := straight_of_opcode (by simp [mov])

@[simp] theorem straight_movReg {src : Register} : (movReg dst src).Straight := straight_mov

@[simp] theorem straight_cmp : (cmp left place).Straight := straight_of_opcode (by simp [cmp])

@[simp] theorem straight_push {rs : List Register} : (push rs).Straight := straight_of_opcode (by simp [push])

@[simp] theorem straight_load {size : Nat} : (load size dst place).Straight := by
  refine straight_of_opcode ?_
  simp only [load, Opcode.load]
  split <;> decide

@[simp] theorem straight_store {size : Nat} : (store size dst place).Straight := by
  refine straight_of_opcode ?_
  simp only [store, Opcode.store]
  split <;> decide

theorem straight_binary {op : Opcode} (h : op ∉ [Opcode.b, .bl, .pop]) : (binary op dst left place).Straight :=
  straight_of_opcode h

/-- A call comes back, unless it is of `exit`. -/
theorem straight_bl {name : String} : (bl name).Straight ↔ name ≠ "exit" := by
  simp [Straight, bl, returns, target?]

/-- A pop goes on, unless it loads the program counter. -/
theorem straight_pop {rs : List Register} : (pop rs).Straight ↔ .pc ∉ rs := by
  simp [Straight, pop, returns, target?]

end Instr

/-- No routine of the file is called `exit`. -/
theorem Routine.label_ne_exit (r : Routine) : r.label ≠ "exit" := by
  cases r <;> decide

namespace Code

/-- One step of control in a text, from what is left of it to what is left then. -/
inductive Step (text : Code) : Code → Code → Prop
  | label {name rest} : Step text (.label name :: rest) rest
  | pass {i rest} (h : i.Passes) : Step text (.instr i :: rest) rest
  | jump {i name rest rest'} (hjump : i.jump? = some name) (htarget : .label name :: rest' <:+ text) :
    Step text (.instr i :: rest) (.label name :: rest')

/-- Whether control can get from one place of a text to another. -/
def Reaches (text : Code) : Code → Code → Prop := Relation.ReflTransGen (Step text)

/-- Code that control goes through line by line. -/
def Straight (code : Code) : Prop := ∀ l ∈ code, ∃ i, l = .instr i ∧ i.Straight

variable {text code code' rest : Code} {is : List Instr}

theorem Straight.nil : Straight [] := nofun

theorem Straight.append (h : Straight code) (h' : Straight code') : Straight (code ++ code') :=
  List.forall_mem_append.2 ⟨h, h'⟩

theorem straight_ofInstrs (h : ∀ i ∈ is, i.Straight) : Straight (ofInstrs is) := by
  intro l hl
  obtain ⟨i, hi, rfl⟩ := List.mem_map.1 hl
  exact ⟨i, rfl, h i hi⟩

/-- Control gets through code of such instructions. -/
theorem Straight.reaches (h : Straight code) (rest : Code) : Reaches text (code ++ rest) rest := by
  induction code with
  | nil => exact .refl
  | cons l code ih =>
    obtain ⟨⟨i, rfl, hi⟩, hothers⟩ := List.forall_mem_cons.1 h
    exact .head (.pass (.inr hi)) (ih hothers)

/-- A label stands in front of an ending that has none. -/
theorem label_suffix {ending : Code} {name : String} (hending : ∀ name, .label name ∉ ending)
    (h : .label name :: rest <:+ code ++ ending) :
    ∃ code', rest = code' ++ ending ∧ .label name :: code' <:+ code := by
  obtain ⟨before, hbefore⟩ := h
  rcases List.append_eq_append_iff.1 hbefore with ⟨middle, rfl, hmiddle⟩ | ⟨middle, rfl, hmiddle⟩
  · cases middle with
    | nil =>
      rw [List.nil_append] at hmiddle
      exact absurd (hmiddle ▸ List.mem_cons_self ..) (hending name)
    | cons l middle =>
      obtain ⟨rfl, rfl⟩ := List.cons.inj hmiddle
      exact ⟨middle, rfl, List.suffix_append _ _⟩
  · refine absurd ?_ (hending name)
    rw [hmiddle]
    simp

/-- Where control can be in code, of which the beginning is reached if `b` holds and the end only if `c` holds.
A label is reached only if it is live. -/
inductive Live (live : String → Prop) : Prop → Code → Prop → Prop
  | nil {b c} (h : b → c) : Live live b [] c
  | label {b c name rest} (hname : b → live name) (h : Live live (live name) rest c) :
    Live live b (.label name :: rest) c
  | instr {b c d i rest} (hjump : b → ∀ name, i.jump? = some name → live name) (hpass : i.Passes → b → c)
    (h : Live live c rest d) : Live live b (.instr i :: rest) d

namespace Live

variable {live : String → Prop} {b c d : Prop}

theorem mono {b' c' : Prop} (h : Live live b code c) (hb : b' → b) (hc : c → c') : Live live b' code c' := by
  induction h generalizing b' with
  | nil h => exact .nil fun hb' => hc (h (hb hb'))
  | label hname _ ih => exact .label (fun hb' => hname (hb hb')) (ih id hc)
  | instr hjump hpass _ ih =>
    exact .instr (fun hb' => hjump (hb hb')) (fun hi hb' => hpass hi (hb hb')) (ih id hc)

/-- Code that can be reached leads into the code behind it. -/
theorem append (h : Live live b code c) (h' : Live live c code' d) : Live live b (code ++ code') d := by
  induction h with
  | nil h => exact h'.mono h id
  | label hname _ ih => exact .label hname (ih h')
  | instr hjump hpass _ ih => exact .instr hjump hpass (ih h')

/-- Code without jumps is left through its end. -/
theorem straight (h : Straight code) : Live live b code b := by
  induction code with
  | nil => exact .nil id
  | cons l code ih =>
    obtain ⟨⟨i, rfl, hi⟩, hothers⟩ := List.forall_mem_cons.1 h
    refine .instr ?_ (fun _ => id) (ih hothers)
    rw [hi.jump?]
    nofun

/-- Nothing behind a return or an exit is reached from there. -/
theorem stop {i : Instr} (hjump : i.jump? = none) (hstop : ¬ i.Passes) (h : Live live False rest c) :
    Live live b (.instr i :: rest) c := by
  refine .instr ?_ (fun hi _ => hstop hi) h
  rw [hjump]
  nofun

/-- A jump leads to its label, and under a condition to the next line too. -/
theorem jump {name : String} {cond : Cond} (hname : b → live name) (hpass : cond ≠ .always → b → c)
    (h : Live live c rest d) : Live live b (.instr ((Instr.b name).when cond) :: rest) d := by
  refine .instr ?_ ?_ h
  · rintro hb _ ⟨⟩
    exact hname hb
  · rintro (hcond | hstraight)
    · exact hpass hcond
    · exact absurd rfl hstraight.1

/-- A label can be reached if a jump to it can. -/
theorem target {name : String} (h : Live live b code c) (hsuffix : .label name :: rest <:+ code) :
    Live live (live name) (.label name :: rest) c := by
  induction h with
  | nil => simp at hsuffix
  | label _ hrest ih =>
    rcases List.suffix_cons_iff.1 hsuffix with heq | hsuffix
    · cases heq
      exact .label id hrest
    · exact ih hsuffix
  | instr _ _ _ ih =>
    rcases List.suffix_cons_iff.1 hsuffix with heq | hsuffix
    · cases heq
    · exact ih hsuffix

/-- One step of control stays where the code is live, or goes on behind it. -/
theorem step {whole ending : Code} (hwhole : Live live d whole c) (hending : ∀ name, .label name ∉ ending)
    (h : Live live b code c) (hb : b) (hcode : code ≠ []) (hstep : Step (whole ++ ending) (code ++ ending) rest) :
    ∃ b' code', rest = code' ++ ending ∧ b' ∧ Live live b' code' c := by
  cases h with
  | nil => exact absurd rfl hcode
  | label hname hrest =>
    cases hstep with
    | label => exact ⟨_, _, rfl, hname hb, hrest⟩
  | instr hjump hpass hrest =>
    cases hstep with
    | pass hi => exact ⟨_, _, rfl, hpass hi hb, hrest⟩
    | @jump _ name _ rest' hname htarget =>
      obtain ⟨code', rfl, hsuffix⟩ := label_suffix hending htarget
      exact ⟨_, .label name :: code', rfl, hjump hb name hname, hwhole.target hsuffix⟩

/-- Control gets behind live code only if its end is reached. -/
theorem end_of_reaches {ending : Code} (h : Live live b code c) (hb : b)
    (hending : ∀ name, .label name ∉ ending) (hstop : ∀ text rest, ¬ Step text ending rest)
    (hreaches : Reaches (code ++ ending) (code ++ ending) ending) : c := by
  have hinv : ∀ rest, Reaches (code ++ ending) (code ++ ending) rest →
      ∃ b' code', rest = code' ++ ending ∧ b' ∧ Live live b' code' c := by
    intro rest hrest
    induction hrest with
    | refl => exact ⟨b, code, rfl, hb, h⟩
    | tail _ hstep ih =>
      obtain ⟨b', code', rfl, hb', hlive⟩ := ih
      by_cases hnil : code' = []
      · subst hnil
        exact absurd hstep (hstop _ _)
      · exact step h hending hlive hb' hnil hstep
  obtain ⟨b', code', hcode, hb', hlive⟩ := hinv ending hreaches
  obtain rfl : code' = [] := List.append_left_eq_self.1 hcode.symm
  cases hlive with
  | nil h => exact h hb'

end Live

end Code

namespace Emission

open Code (Straight Live Step Reaches)

section

variable {ctx : Context} {d : Depth} {em em' : Emitter} {code : List Instr}

theorem load_straight (size : Nat) (dst : Register) (slot : Slot) :
    ∀ i ∈ ctx.load size dst slot, i.Straight := by
  simp only [Context.load, Context.stackOperand]
  split <;> simp

theorem store_straight (size : Nat) (src : Register) (slot : Slot) :
    ∀ i ∈ ctx.store size src slot, i.Straight := by
  simp only [Context.store, Context.stackOperand]
  split <;> simp

theorem address_straight (dst : Register) (slot : Slot) : ∀ i ∈ ctx.address dst slot, i.Straight := by
  simp only [Context.address]
  split <;> simp [Instr.straight_binary]

theorem settle_straight (d : Depth) : ∀ i ∈ d.settle, i.Straight := by
  unfold Depth.settle
  split <;> simp

/-- Operators check their results with calls that come back. -/
theorem unary_straight {op : UnaryOp} {reg : Register} (h : unary op reg em = .ok (code, em')) :
    ∀ i ∈ code, i.Straight := by
  cases op <;> cases h <;> simp [Instr.straight_binary, Instr.straight_bl, Routine.label_ne_exit]

/-- Operators check their operands with calls that come back. -/
theorem binary_straight {op : BinaryOp} (h : binary op d em = .ok (code, em')) :
    ∀ i ∈ code, i.Straight := by
  cases op with
  | mul =>
    cases h
    simp only [List.forall_mem_append, List.forall_mem_cons]
    refine ⟨⟨⟨Instr.straight_of_opcode (by simp), Instr.straight_cmp, by simp⟩, ?_, by simp⟩, settle_straight d⟩
    exact Instr.straight_bl.2 (Routine.label_ne_exit _)
  | _ =>
    cases h
    simp [Instr.straight_binary, Instr.straight_bl, Routine.label_ne_exit]

theorem nullCheck_straight {reg : Register} (h : nullCheck reg em = .ok (code, em')) :
    ∀ i ∈ code, i.Straight := by
  cases h
  simp [Instr.straight_bl, Routine.label_ne_exit]

/-- An index is checked with a call that comes back. -/
theorem select_straight {width : Nat} (h : select width d em = .ok (code, em')) :
    ∀ i ∈ code, i.Straight := by
  cases h
  rw [List.forall_mem_append]
  refine ⟨?_, settle_straight d⟩
  simp [Instr.straight_binary, Instr.straight_bl, Routine.label_ne_exit]

theorem storeInto_straight (size offset : Nat) (d : Depth) : ∀ i ∈ storeInto size offset d, i.Straight := by
  unfold storeInto
  rw [List.forall_mem_append]
  refine ⟨?_, settle_straight d⟩
  split <;> simp

theorem allocate_straight (bytes : Nat) (reg : Register) : ∀ i ∈ allocate bytes reg, i.Straight := by
  simp [allocate, Instr.straight_bl]

theorem adjust_straight {op : Opcode} (hop : op ∉ [Opcode.b, .bl, .pop]) (bytes : Nat) :
    ∀ i ∈ Stack.adjust op bytes, i.Straight := by
  simp only [Stack.adjust, List.forall_mem_map]
  exact fun step _ => Instr.straight_binary hop

end

/-- A stretch of items that control goes through line by line. -/
abbrev Passable (items : List Item) : Prop := Straight (Item.code items)

theorem Passable.append {items items' : List Item} (h : Passable items) (h' : Passable items') :
    Passable (items ++ items') := by
  rw [Passable, Item.code_append]
  exact Straight.append h h'

theorem Passable.instrs {is : List Instr} (h : ∀ i ∈ is, i.Straight) : Passable (Item.instrs is) := by
  rw [Passable, Item.code_instrs]
  exact Code.straight_ofInstrs h

theorem Passable.access {ctx : Context} {is : List Instr} (h : ∀ i ∈ is, i.Straight) :
    Passable (ctx.access is) := by
  rw [Passable, Context.code_access]
  exact Code.straight_ofInstrs h

theorem Passable.mark {displacement : Int} {items : List Item} (h : Passable items) :
    Passable (.mark displacement :: items) := h

/-- Control goes through the code of an expression line by line. -/
theorem Emitted.passable {part : Part} {ctx : Context} {d : Depth} {em em' : Emitter} {items : List Item}
    (h : Emitted part ctx d em items em') (hcalls : Expr.CallsKnown (· ≠ "exit") part.parts) :
    Passable items := by
  induction h with
  | int | null | str => exact .mark (.instrs (by simp))
  | bool | char => exact .mark (.instrs (by simp))
  | var => exact .mark (.access (load_straight _ _ _))
  | elem _ _ ih =>
    refine .mark (.append (.append (.access (address_straight _ _)) (ih hcalls.tail)) ?_)
    exact .instrs (by simp)
  | side _ hcheck ih =>
    refine .mark (.append (.append (ih hcalls.tail) (.instrs (nullCheck_straight hcheck))) ?_)
    exact .instrs (by simp)
  | unary _ hop ih => exact .mark (.append (ih hcalls.tail) (.instrs (unary_straight hop)))
  | binary _ _ hop ihl ihr =>
    obtain ⟨hlcalls, hrcalls⟩ := hcalls.tail.of_append
    exact .mark (.append (.append (ihl hlcalls) (ihr hrcalls)) (.instrs (binary_straight hop)))
  | @call ctx d em label args items em' type _ ih =>
    have hlabel : label ≠ "exit" := hcalls _ (List.mem_cons_self ..) label rfl
    have hpc : .pc ∉ d.live := fun h => (Depth.ne_of_mem_pool (d.live_subset_pool h)).2.2.2.1 rfl
    refine .mark (.append (.append (.instrs ?_) (ih hcalls.tail)) (.instrs ?_))
    · split <;> simp
    · simp only [List.forall_mem_append, List.forall_mem_singleton]
      refine ⟨⟨⟨Instr.straight_bl.2 hlabel, adjust_straight (by decide) _⟩, Instr.straight_movReg⟩, ?_⟩
      split <;> simp [Instr.straight_pop, hpc]
  | newPair _ _ ihf ihs =>
    obtain ⟨hfcalls, hscalls⟩ := hcalls.tail.of_append
    refine .mark (.append (.append (.append (.append ?_ (ihf hfcalls)) ?_) (ihs hscalls)) ?_)
    · exact .instrs (allocate_straight _ _)
    · exact .instrs (storeInto_straight _ _ _)
    · exact .instrs (storeInto_straight _ _ _)
  | array _ ih =>
    refine .mark (.append (.append (.instrs (allocate_straight _ _)) (ih hcalls.tail)) ?_)
    exact .instrs (by simp)
  | spilled _ _ ih =>
    refine .append (.append (.instrs (by simp)) (ih hcalls)) (.instrs ?_)
    exact List.forall_mem_singleton.2 (Instr.straight_pop.2 (by decide))
  | next _ _ ih => exact ih hcalls
  | noSelection | noArg | noElement => exact .nil
  | selection _ hselect _ ih iho =>
    obtain ⟨hicalls, hocalls⟩ := hcalls.of_append
    exact .append (.append (ih hicalls) (.instrs (select_straight hselect))) (iho hocalls)
  | arg _ _ iho ih =>
    obtain ⟨hacalls, hocalls⟩ := hcalls.of_append
    exact .append (.append (iho hocalls) (ih hacalls)) (.instrs (by simp))
  | element _ _ ih iho =>
    obtain ⟨hecalls, hocalls⟩ := hcalls.of_append
    exact .append (.append (ih hecalls) (.instrs (storeInto_straight _ _ _))) (iho hocalls)

/-- Control gets through the code of an address. -/
theorem Located.passable {e : Checked.Expr} {ctx : Context} {d : Depth} {em em' : Emitter}
    {items : List Item} (h : Located e ctx d em items em')
    (hcalls : Expr.CallsKnown (· ≠ "exit") e.parts) : Passable items := by
  cases h with
  | var => exact .mark (.access (address_straight _ _))
  | elem _ hindices =>
    exact .mark (.append (.access (address_straight _ _)) (hindices.passable hcalls.tail))
  | side hpair hcheck =>
    refine .mark (.append (.append (hpair.passable hcalls.tail) (.instrs (nullCheck_straight hcheck))) ?_)
    exact .instrs (List.forall_mem_singleton.2 (Instr.straight_binary (by decide)))
  | other _ he => exact he.passable hcalls

/-- Leaving the function is the last that its code does. -/
theorem stops_pop : ¬ (Instr.pop [.pc]).Passes := by
  rw [Instr.Passes, Instr.straight_pop]
  simp [Instr.pop]

/-- Nothing comes back from `exit`. -/
theorem stops_exit : ¬ (Instr.bl "exit").Passes := by
  rw [Instr.Passes, Instr.straight_bl]
  simp [Instr.bl]

section

variable {s : Checked.Stmt} {ctx ctx' inner : Context} {em em' : Emitter} {items : List Item} {size : Nat}

/-- A block makes room on the stack and gives it back. -/
theorem StmtEmitted.block_code (h : StmtEmitted s (ctx.inside size) em items inner em') :
    ∃ opening closing, Straight opening ∧ Straight closing ∧
      Item.code (blockItems ctx size items inner) = opening ++ Item.code items ++ closing := by
  have hsub : ∀ i ∈ Stack.adjust .sub size, i.Straight := adjust_straight (by decide) size
  have hadd : ∀ i ∈ Stack.adjust .add size, i.Straight := adjust_straight (by decide) size
  refine ⟨_, _, Code.straight_ofInstrs hsub, Code.straight_ofInstrs hadd, ?_⟩
  rw [blockItems, h.exit_inside.1, Item.code_append, Item.code_append, Item.code_instrs, Item.code_instrs]
  rfl

/-- A block can be left as its body can. -/
theorem StmtEmitted.block_live {live : String → Prop} {b c : Prop}
    (h : StmtEmitted s (ctx.inside size) em items inner em') (hitems : Live live b (Item.code items) c) :
    Live live b (Item.code (blockItems ctx size items inner)) c := by
  obtain ⟨opening, closing, hopening, hclosing, hcode⟩ := h.block_code
  rw [hcode]
  exact .append (.append (.straight hopening) hitems) (.straight hclosing)

/-- Control goes through the code of a simple statement line by line. -/
theorem StmtEmitted.passable (h : StmtEmitted s ctx em items ctx' em')
    (hcalls : Expr.CallsKnown (· ≠ "exit") s.exprs) (hstep : s.isStep = true) : Passable items := by
  cases h with
  | skip => exact .nil
  | declare hinit => exact .mark (.append (hinit.passable hcalls) (.access (store_straight _ _ _)))
  | assignVar hsrc _ =>
    obtain ⟨-, hscalls⟩ := hcalls.of_append
    exact .mark (.append (hsrc.passable hscalls) (.access (store_straight _ _ _)))
  | assignPlace _ hsrc hplace =>
    obtain ⟨hdcalls, hscalls⟩ := hcalls.of_append
    refine .mark (.append (.append (hsrc.passable hscalls) (hplace.passable hdcalls)) (.instrs ?_))
    exact List.forall_mem_singleton.2 Instr.straight_store
  | read hplace =>
    refine .mark (.append (hplace.passable hcalls) (.instrs ?_))
    simp [Instr.straight_bl, Routine.label_ne_exit]
  | free he | print he | println he =>
    refine .mark (.append (he.passable hcalls) (.instrs ?_))
    simp [Instr.straight_bl, Routine.label_ne_exit]
  | ret | exit | branch | loop | scope | seqNil | seqCons => cases hstep

/-- A statement without control flow leads to the next one. -/
theorem Passable.live {b : Prop} (h : Passable items) (hfalls : s.falls = true) :
    ∃ own, ∀ live, Agrees live own em em' → Live live b (Item.code items) (b ∧ s.falls = true) :=
  ⟨fun _ => b, fun _ _ => (Live.straight h).mono id fun hb => ⟨hb, hfalls⟩⟩

/-- The end of the code of a statement is live only if the beginning is and control can fall through. -/
theorem StmtEmitted.live (h : StmtEmitted s ctx em items ctx' em')
    (hcalls : Expr.CallsKnown (· ≠ "exit") s.exprs) (b : Prop) :
    ∃ own, ∀ live, Agrees live own em em' → Live live b (Item.code items) (b ∧ s.falls = true) := by
  induction h generalizing b with
  | skip | seqNil => exact Passable.live .nil rfl
  | declare hinit => exact ((StmtEmitted.declare hinit).passable hcalls rfl).live rfl
  | assignVar hsrc hslot => exact ((StmtEmitted.assignVar hsrc hslot).passable hcalls rfl).live rfl
  | assignPlace hdst hsrc hplace =>
    exact ((StmtEmitted.assignPlace hdst hsrc hplace).passable hcalls rfl).live rfl
  | read hplace => exact ((StmtEmitted.read hplace).passable hcalls rfl).live rfl
  | free he => exact ((StmtEmitted.free he).passable hcalls rfl).live rfl
  | print he => exact ((StmtEmitted.print he).passable hcalls rfl).live rfl
  | println he => exact ((StmtEmitted.println he).passable hcalls rfl).live rfl
  | @ret ctx _ _ _ _ _ he =>
    have hleave : ∀ i ∈ Instr.movReg .r0 Depth.top.reg :: ctx.frame.unwind, i.Straight :=
      List.forall_mem_cons.2 ⟨Instr.straight_movReg, adjust_straight (by decide) _⟩
    have hitems := Passable.append (he.passable hcalls) (.instrs hleave)
    refine ⟨fun _ => b, fun live _ => ?_⟩
    rw [Item.code_append]
    exact .append (.straight (Passable.mark hitems)) (.stop rfl stops_pop (.nil False.elim))
  | exit he =>
    refine ⟨fun _ => b, fun live _ => ?_⟩
    rw [Item.code_append]
    refine .append (.straight (Passable.mark (he.passable hcalls))) ?_
    exact .instr nofun (fun _ => id) (.stop rfl stops_exit (.nil False.elim))
  | @branch ctx em m cond yes no test em₁ yitems yinner em₂ nitems ninner em₃ hcond hyes hno ihy ihn =>
    obtain ⟨hccalls, hbcalls⟩ := hcalls.of_append
    obtain ⟨hycalls, hncalls⟩ := hbcalls.of_append
    obtain ⟨yown, hyown⟩ := ihy hycalls b
    obtain ⟨nown, hnown⟩ := ihn hncalls b
    have hgrows := em.grows_fresh_twice.trans hcond.grows
    obtain ⟨inner, hinner⟩ := exists_agrees hyes.grows hno.grows yown nown
    obtain ⟨own, hown⟩ := exists_agrees hgrows (hyes.grows.trans hno.grows)
      (fun k => b ∧ (k = em.file.labels ∨ (yes.falls || no.falls) = true)) inner
    refine ⟨own, fun live hlive => ?_⟩
    obtain ⟨hfresh, hrest⟩ := hown live hlive
    obtain ⟨hylive, hnlive⟩ := hinner live hrest
    obtain ⟨hotherwise, hdone⟩ := hfresh.fresh hcond.grows
    have hy := hyes.block_live (hyown live hylive)
    have hn := hno.block_live (hnown live hnlive)
    rw [eq_iff_iff, and_iff_left (.inl rfl)] at hotherwise
    rw [eq_iff_iff, or_iff_right (Nat.succ_ne_self _)] at hdone
    simp only [Item.code_append, List.cons_append, Context.code_mark, Item.code_instrs]
    have htest : Live live b (Item.code test) b := .straight (hcond.passable hccalls)
    refine .append (.append (.append (.append (htest.append ?_) hy) ?_) (hn.mono hotherwise.1 id)) ?_
    · exact .instr nofun (fun _ => id) (.jump hotherwise.2 (fun _ => id) (.nil id))
    · refine .jump (fun h => hdone.2 ⟨h.1, ?_⟩) (fun h => absurd rfl h) (.label False.elim (.nil id))
      rw [h.2, Bool.true_or]
    · refine .label (fun h => hdone.2 ⟨h.1, ?_⟩) (.nil hdone.1)
      rw [h.2, Bool.or_true]
  | @loop ctx em m cond body items inner em₁ test em₂ hbody hcond ih =>
    obtain ⟨hccalls, hbcalls⟩ := hcalls.of_append
    obtain ⟨bown, hbown⟩ := ih hbcalls b
    obtain ⟨own, hown⟩ := exists_agrees em.grows_fresh_twice (hbody.grows.trans hcond.grows)
      (fun _ => b) bown
    refine ⟨own, fun live hlive => ?_⟩
    obtain ⟨hfresh, hrest⟩ := hown live hlive
    obtain ⟨hcheck, hstart⟩ := hfresh.fresh (.refl _)
    have hb := hbody.block_live (hbown live (hrest.of_grows hcond.grows))
    rw [eq_iff_iff] at hcheck hstart
    simp only [Item.code_append, Item.code_instrs]
    have htest : Live live b (Item.code test) b := .straight (hcond.passable hccalls)
    refine .append (.append (.append (.append ?_ (hb.mono hstart.1 id)) ?_) htest) ?_
    · exact .jump hcheck.2 (fun h => absurd rfl h) (.label False.elim (.nil id))
    · exact .label (fun h => hcheck.2 h.1) (.nil hcheck.1)
    · exact .instr nofun (fun _ => id) (.jump hstart.2 (fun _ => id) (.nil fun hb => ⟨hb, rfl⟩))
  | scope hbody ih =>
    obtain ⟨own, hown⟩ := ih hcalls b
    exact ⟨own, fun live hlive => hbody.block_live (hown live hlive)⟩
  | seqCons hfirst hothers ih iho =>
    obtain ⟨hfcalls, hocalls⟩ := hcalls.of_append
    obtain ⟨fown, hfown⟩ := ih hfcalls b
    obtain ⟨oown, hoown⟩ := iho hocalls (b ∧ _)
    obtain ⟨own, hown⟩ := exists_agrees hfirst.grows hothers.grows fown oown
    refine ⟨own, fun live hlive => ?_⟩
    obtain ⟨hflive, holive⟩ := hown live hlive
    rw [Item.code_append]
    refine (Live.append (hfown live hflive) (hoown live holive)).mono id fun h => ⟨h.1.1, ?_⟩
    rw [Stmt.falls, Stmt.allFall, h.1.2]
    exact h.2

/-- Control gets through a block as it does through its body. -/
theorem StmtEmitted.block_reaches {text rest : Code} (h : StmtEmitted s (ctx.inside size) em items inner em')
    (hitems : ∀ rest, Item.code items ++ rest <:+ text → Reaches text (Item.code items ++ rest) rest)
    (htext : Item.code (blockItems ctx size items inner) ++ rest <:+ text) :
    Reaches text (Item.code (blockItems ctx size items inner) ++ rest) rest := by
  obtain ⟨opening, closing, hopening, hclosing, hcode⟩ := h.block_code
  rw [hcode, List.append_assoc, List.append_assoc] at htext ⊢
  have hbody := hitems (closing ++ rest) ((List.suffix_append _ _).trans htext)
  exact ((hopening.reaches _).trans hbody).trans (hclosing.reaches rest)

/-- Control gets through the code of a statement that it can fall through. -/
theorem StmtEmitted.reaches {text rest : Code} (h : StmtEmitted s ctx em items ctx' em')
    (hcalls : Expr.CallsKnown (· ≠ "exit") s.exprs) (hfalls : s.falls = true)
    (htext : Item.code items ++ rest <:+ text) : Reaches text (Item.code items ++ rest) rest := by
  induction h generalizing rest with
  | skip | seqNil => exact .refl
  | declare hinit => exact ((StmtEmitted.declare hinit).passable hcalls rfl).reaches rest
  | assignVar hsrc hslot => exact ((StmtEmitted.assignVar hsrc hslot).passable hcalls rfl).reaches rest
  | assignPlace hdst hsrc hplace =>
    exact ((StmtEmitted.assignPlace hdst hsrc hplace).passable hcalls rfl).reaches rest
  | read hplace => exact ((StmtEmitted.read hplace).passable hcalls rfl).reaches rest
  | free he => exact ((StmtEmitted.free he).passable hcalls rfl).reaches rest
  | print he => exact ((StmtEmitted.print he).passable hcalls rfl).reaches rest
  | println he => exact ((StmtEmitted.println he).passable hcalls rfl).reaches rest
  | ret | exit => cases hfalls
  | @branch ctx em m cond yes no test em₁ yitems yinner em₂ nitems ninner em₃ hcond hyes hno ihy ihn =>
    obtain ⟨hccalls, hbcalls⟩ := hcalls.of_append
    obtain ⟨hycalls, hncalls⟩ := hbcalls.of_append
    simp only [Item.code_append, List.cons_append, Context.code_mark, Item.code_instrs, Item.code_line,
      Item.code_nil, Code.ofInstrs_cons, Code.ofInstrs_nil, List.append_assoc, List.nil_append] at htext ⊢
    refine ((hcond.passable hccalls).reaches _).trans (.head (.pass (.inr Instr.straight_cmp)) ?_)
    replace htext := ((List.suffix_cons _ _).trans (List.suffix_append _ _)).trans htext
    have hbranch := (List.suffix_cons _ _).trans htext
    have hjump := (List.suffix_append _ _).trans hbranch
    have hotherwise := (List.suffix_cons _ _).trans hjump
    have hno' := (List.suffix_cons _ _).trans hotherwise
    have hdone := (List.suffix_append _ _).trans hno'
    rw [Stmt.falls, Bool.or_eq_true] at hfalls
    rcases hfalls with hfalls | hfalls
    · have hy := hyes.block_reaches (fun rest => ihy hycalls hfalls) hbranch
      exact .head (.pass (Instr.passes_when nofun)) (hy.trans (.head (.jump rfl hdone) (.head .label .refl)))
    · have hn := hno.block_reaches (fun rest => ihn hncalls hfalls) hno'
      exact .head (.jump rfl hotherwise) (.head .label (hn.trans (.head .label .refl)))
  | @loop ctx em m cond body items inner em₁ test em₂ hbody hcond ih =>
    obtain ⟨hccalls, -⟩ := hcalls.of_append
    simp only [Item.code_append, List.cons_append, Context.code_mark, Item.code_instrs, Item.code_line,
      Code.ofInstrs_cons, Code.ofInstrs_nil, List.append_assoc, List.nil_append] at htext ⊢
    have hround := ((List.suffix_cons _ _).trans (List.suffix_cons _ _)).trans htext
    refine .head (.jump rfl ((List.suffix_append _ _).trans hround)) (.head .label ?_)
    refine ((hcond.passable hccalls).reaches _).trans (.head (.pass (.inr Instr.straight_cmp)) ?_)
    exact .head (.pass (Instr.passes_when nofun)) .refl
  | scope hbody ih => exact hbody.block_reaches (fun rest => ih hcalls hfalls) htext
  | seqCons hfirst hothers ih iho =>
    obtain ⟨hfcalls, hocalls⟩ := hcalls.of_append
    rw [Stmt.falls, Stmt.allFall, Bool.and_eq_true] at hfalls
    rw [Item.code_append, List.append_assoc] at htext ⊢
    have hrest := iho hocalls hfalls.2 ((List.suffix_append _ _).trans htext)
    exact (ih hfcalls hfalls.1 htext).trans hrest

end

/-- The labels of a function are not those of its code. -/
theorem exists_live (own : Nat → Prop) {label : String} (hlabel : ∀ k, freshLabel k ≠ label) :
    ∃ live : String → Prop, live label ∧ ∀ em em', Agrees live own em em' := by
  refine ⟨Function.extend freshLabel own fun _ => True, ?_, fun _ _ k _ _ => ?_⟩
  · rw [Function.extend_apply' _ _ _ fun ⟨k, hk⟩ => hlabel k hk]
    trivial
  · exact freshLabel_injective.extend_apply _ _ k

/-- What stands behind the code of the body of a function. -/
def epilogue : Code := [.instr (.pop [.pc]), .literalPool]

/-- Control gets to the epilogue of a function exactly if it can fall through the body. -/
theorem func_reaches_iff {f : Checked.Func} (hnames : ∀ name, ¬ Unknown f name)
    (hcalls : Expr.CallsKnown (· ≠ "exit") f.body.exprs) (hlabel : ∀ k, freshLabel k ≠ f.label) (em : Emitter) :
    ∃ code em', func f em = .ok (code ++ epilogue, em') ∧
      (Reaches (code ++ epilogue) (code ++ epilogue) epilogue ↔ f.body.falls = true) := by
  cases func_makes f em with
  | unbound hname _ => exact absurd hname (hnames _)
  | ok hok hpost =>
    obtain ⟨_, rfl, ⟨hitems⟩⟩ := hpost
    rename_i items inner
    let block := Item.code (blockItems { slots := paramSlots f.params } (blockSize f.body) items inner)
    have hcode : Procedure.code ⟨f.label, blockItems { slots := paramSlots f.params } (blockSize f.body) items inner
        ++ Item.instrs [.pop [.pc]] ++ [.line .literalPool]⟩ =
        .label f.label :: .instr (.push [.lr]) :: block ++ epilogue := by
      simp [Procedure.code, epilogue, block]
    rw [hcode] at hok
    refine ⟨_, _, hok, ?_, ?_⟩
    · intro hreaches
      obtain ⟨own, hown⟩ := hitems.live hcalls True
      obtain ⟨live, hentry, hagrees⟩ := exists_live own hlabel
      have hblock := hitems.block_live (hown live (hagrees _ _))
      have hjump : ∀ name, (Instr.push [.lr]).jump? = some name → live name := by
        intro _ h
        cases h
      have hlive : Live live True (.label f.label :: .instr (.push [.lr]) :: block)
          (True ∧ f.body.falls = true) :=
        .label (fun _ => hentry) (.instr (fun _ => hjump) (fun _ _ => trivial) hblock)
      refine (hlive.end_of_reaches trivial (by simp [epilogue]) ?_ hreaches).2
      rintro text rest (_ | hpass | ⟨⟨⟩, _⟩)
      exact stops_pop hpass
    · intro hfalls
      refine .head .label (.head (.pass (.inr Instr.straight_push)) ?_)
      refine hitems.block_reaches (fun rest => hitems.reaches hcalls hfalls) ?_
      exact (List.suffix_cons _ _).trans (List.suffix_cons _ _)

/-- In the code of a checked program, the epilogue of a function is where an execution gets through its body. -/
theorem func_reaches_iff_of_check {p : Source.Program} {q : Checked.Program} (hok : check p = .ok q)
    {f : Checked.Func} (hf : f ∈ q.funcs) (em : Emitter) :
    ∃ code em', func f em = .ok (code ++ epilogue, em') ∧
      (Reaches (code ++ epilogue) (code ++ epilogue) epilogue ↔ ∃ tests, f.body.Runs tests .through) := by
  have htyped := (Typing.check_eq_ok.1 hok).1
  have hscoped := Checker.program_scoped (Typing.program_eq_ok.2 htyped)
  have hinitials : ∀ label ∈ q.funcs.map Checked.Func.label, initials label = ['f', '_'] := by
    rw [htyped.labels]
    exact fun label => Checker.initials_labels
  have hcalls : Expr.CallsKnown (· ≠ "exit") f.body.exprs := by
    refine (hscoped.calls f hf).imp fun name hname => ?_
    rintro rfl
    cases hinitials _ hname
  have hlabel : ∀ k, freshLabel k ≠ f.label := by
    intro k hk
    obtain ⟨rest, hrest⟩ := initials_freshLabel k
    rw [hk, hinitials _ (List.mem_map_of_mem hf)] at hrest
    cases hrest
  rw [← Stmt.falls_iff]
  exact func_reaches_iff (fun name hname => hname.2 (hscoped.params f hf name hname.1)) hcalls hlabel em

end Emission

open Emission (epilogue)

/-- A terminating statement ends with a return or an exit, unless control passes over the last loop that it comes
to; the statements that this can happen to are those that control can fall through. In an accepted program every
function is terminating, and control gets to the epilogue of its code exactly if an execution of the body gets
through in this way. -/
theorem terminates_unless_passed_over (s : Source.Stmt) (p : Source.Program) (q : Checked.Program) :
    (s.terminates = true →
      (∀ tests finish, s.Runs tests finish →
        finish = .returned ∨ finish = .exited ∨ finish = .through ∧ PassedOver tests) ∧
      ((∃ tests, s.Runs tests .through) ↔ s.falls = true)) ∧
    (check p = .ok q → ∀ f ∈ q.funcs,
      (∀ tests finish, f.body.Runs tests finish →
        finish = .returned ∨ finish = .exited ∨ finish = .through ∧ PassedOver tests) ∧
      ∀ em, ∃ code em', Emission.func f em = .ok (code ++ epilogue, em') ∧
        (Code.Reaches (code ++ epilogue) (code ++ epilogue) epilogue ↔
          ∃ tests, f.body.Runs tests .through)) := by
  refine ⟨fun hends => ⟨?_, s.falls_iff.symm⟩, fun hok f hf => ⟨?_, ?_⟩⟩
  · exact fun tests finish hruns => hruns.finish_cases hends
  · exact fun tests finish hruns => hruns.finish_cases (terminates_of_check hok f hf)
  · exact fun em => Emission.func_reaches_iff_of_check hok hf em

/-- Functions that end with a branch of returns, and with a return: no way leads to their epilogues. -/
theorem overloaded_epilogues_not_reached : ∃ q, check Overloaded.program = .ok q ∧ q.funcs ≠ [] ∧
    ∀ f ∈ q.funcs, ∀ em, ∃ code em', Emission.func f em = .ok (code ++ epilogue, em') ∧
      ¬ Code.Reaches (code ++ epilogue) (code ++ epilogue) epilogue := by
  have hfalls : (check Overloaded.program).toOption.all (fun q =>
      !q.funcs.isEmpty && q.funcs.all fun f => !f.body.falls) = true := by decide +kernel
  obtain ⟨q, hq⟩ := Overloaded.accepted
  rw [hq] at hfalls
  obtain ⟨hsome, hnone⟩ := Bool.and_eq_true_iff.1 hfalls
  refine ⟨q, hq, by simpa using hsome, fun f hf em => ?_⟩
  obtain ⟨code, em', hcode, hiff⟩ := ((terminates_unless_passed_over Overloaded.program.body _ q).2 hq f hf).2 em
  refine ⟨code, em', hcode, fun hreaches => ?_⟩
  have htrue := (Stmt.falls_iff _).2 (hiff.1 hreaches)
  have hfalse := List.all_eq_true.1 hnone f hf
  rw [htrue] at hfalse
  cases hfalse

namespace SkippedLoop

/-- `while false do return 1 done` -/
def body {α σ τ : Type} (note : Ty → α) (mark : σ) : Stmt α σ τ :=
  .loop mark (.bool (note .bool) false) (.ret mark (.int (note .int) 1))

/-- `int f() is while false do return 1 done end` and `int x = call f()` -/
def program : Source.Program where
  funcs := [⟨"f", .int, [], body (fun _ => .start) .start, .start⟩]
  body := .declare .start .int "x" (.call .start "f" [])

def func : Checked.Func := ⟨"f", "f_f", [], .int, body id ()⟩

def checked : Checked.Program := ⟨[func], .declare () .int "x" (.call .int "f_f" [])⟩

/-- The code of the function up to its epilogue. -/
def code : Code :=
  [.label "f_f", .instr (.push [.lr]), .instr (.b "L0"), .label "L1", .instr (.ldr .r4 (.literal 1)),
    .instr (.movReg .r0 .r4), .instr (.pop [.pc]), .label "L0", .instr (.mov .r4 (.imm 0)),
    .instr (.cmp .r4 (.imm 1)), .instr ((Instr.b "L1").when .eq)]

/-- The code of the function with a loop in last place. -/
theorem func_eq_ok : ∃ em, Emission.func func {} = .ok (code ++ epilogue, em) := by
  obtain ⟨⟨found, em⟩, hfunc, hcode⟩ := except_eq_ok_of_any (x := Emission.func func {})
    (p := fun result => result.1 = code ++ epilogue) (by decide +kernel)
  obtain rfl : found = code ++ epilogue := of_decide_eq_true hcode
  exact ⟨em, hfunc⟩

/-- Wherever the code stands, the machine runs it to the epilogue and does not touch `r0`. -/
theorem reaches_epilogue {M : Machine} {s : State} (h : M.Holds s.pc (code ++ epilogue)) :
    ∃ t, M.Reaches s t ∧ t.pc = s.pc + code.length ∧ t.regs .r0 = s.regs .r0 := by
  have hpush := h.2.2
  have hjump := hpush.2.2
  have hcheck := hjump.2.2.2.2.2.2.2.2.2.2
  have hmov := hcheck.2.2
  have hcmp := hmov.2.2
  have hagain := hcmp.2.2
  have hline : M.line? "L0" = some (s.pc + 7) := hcheck.2.1 "L0" rfl
  let entered := (s.next.push [.lr]).next
  let checking : State := { entered with pc := s.pc + 7 }
  let tested := (checking.next.set .r4 (BitVec.ofInt 32 0)).next
  let compared := { tested with flags := (Word.subtract (tested.regs .r4) (BitVec.ofInt 32 1)).2 }.next
  have hentry : M.Reaches s entered := .trans (.label h.1) (.exec hpush rfl rfl)
  have hloop : M.Reaches entered checking := .exec hjump rfl (Machine.exec_b hline .always)
  have htest : M.Reaches checking compared := by
    have hset : M.Reaches checking.next tested := .exec hmov rfl rfl
    exact .trans (.label hcheck.1) (hset.trans (.exec hcmp rfl rfl))
  have hunequal : Cond.eq.holds (Word.subtract (BitVec.ofInt 32 0) (BitVec.ofInt 32 1)).2 = false := by decide
  have hleave : M.Reaches compared compared.next := .skip hagain hunequal
  exact ⟨compared.next, ((hentry.trans hloop).trans htest).trans hleave, rfl, rfl⟩

end SkippedLoop

/-- A function that is accepted and counts as terminating, although control passes over its only return: the
machine comes to the epilogue with what was in `r0` before the call. -/
theorem skipped_loop_falls_off : check SkippedLoop.program = .ok SkippedLoop.checked ∧
    SkippedLoop.func ∈ SkippedLoop.checked.funcs ∧ SkippedLoop.func.body.terminates = true ∧
    SkippedLoop.func.body.Runs [.loop true false] .through ∧
    ∃ em, Emission.func SkippedLoop.func {} = .ok (SkippedLoop.code ++ epilogue, em) ∧
      ∀ (M : Machine) (s : State), M.Holds s.pc (SkippedLoop.code ++ epilogue) →
        ∃ t, M.Reaches s t ∧ t.pc = s.pc + SkippedLoop.code.length ∧ t.regs .r0 = s.regs .r0 := by
  obtain ⟨em, hem⟩ := SkippedLoop.func_eq_ok
  refine ⟨rfl, List.mem_singleton.2 rfl, rfl, .loopDone, em, hem, fun M s hholds => ?_⟩
  exact SkippedLoop.reaches_epilogue hholds

end WaccArm
