import WaccArm.Emission.Stmt
import WaccArm.Proofs.Emission.Trace
import WaccArm.Proofs.Scope.Lookup

namespace WaccArm

namespace Stmt

variable {α σ τ : Type}

mutual

/-- The variables that a statement declares in the block that it stands in. -/
def declared : Stmt α σ τ → List String
  | declare _ _ name _ => [name]
  | seq _ items => declaredAll items
  | _ => []

def declaredAll : List (Stmt α σ τ) → List String
  | [] => []
  | s :: ss => declared s ++ declaredAll ss

end

mutual

/-- The variables that a statement uses and that have to be declared before it. -/
def freeNames : Stmt α σ τ → List String
  | skip _ => []
  | declare _ _ _ init => Expr.names init.parts
  | assign _ dst src => Expr.names src.parts ++ Expr.names dst.parts
  | read _ e | free _ e | ret _ e | exit _ e | print _ e _ => Expr.names e.parts
  | branch _ cond yes no => Expr.names cond.parts ++ (freeNames yes ++ freeNames no)
  | loop _ cond body => freeNames body ++ Expr.names cond.parts
  | scope _ body => freeNames body
  | seq _ items => freeNamesAll items

def freeNamesAll : List (Stmt α σ τ) → List String
  | [] => []
  | s :: ss => freeNames s ++ (freeNamesAll ss).filter (· ∉ declared s)

end

end Stmt

namespace Frame

/-- The frame after the next `bytes` of the innermost block were given out. -/
def advance (f : Frame) (bytes : Nat) : Frame :=
  match f.blocks with
  | [] => f
  | block :: outer => { f with blocks := { block with used := block.used + bytes } :: outer }

theorem advance_zero (f : Frame) : f.advance 0 = f := by
  obtain ⟨displacement, blocks⟩ := f
  cases blocks <;> rfl

/-- Variables are laid out one after the other. -/
theorem advance_add (f : Frame) (m n : Nat) : (f.advance m).advance n = f.advance (m + n) := by
  obtain ⟨displacement, blocks⟩ := f
  cases blocks with
  | nil => rfl
  | cons block outer => simp only [advance, Nat.add_assoc]

/-- Room that was made is only given out. -/
@[simp] theorem displacement_advance (f : Frame) (bytes : Nat) :
    (f.advance bytes).displacement = f.displacement := by
  obtain ⟨displacement, blocks⟩ := f
  cases blocks <;> rfl

/-- A declaration takes its bytes from the block. -/
theorem declare_snd (f : Frame) (size : Nat) : (f.declare size).2 = f.advance size := by
  obtain ⟨displacement, blocks⟩ := f
  cases blocks <;> rfl

end Frame

namespace Emission

open Emit (Makes)

/-- The context inside a new block. -/
def Context.inside (ctx : Context) (size : Nat) : Context :=
  ⟨ctx.slots.enter, (ctx.frame.enter size).2⟩

theorem Context.displacement_inside (ctx : Context) (size : Nat) :
    (ctx.inside size).frame.displacement = ctx.frame.displacement + size := rfl

/-- The context after a declaration. -/
def Context.declare (ctx : Context) (name : String) (size : Nat) : Context :=
  ⟨ctx.slots.bind name (ctx.frame.declare size).1, (ctx.frame.declare size).2⟩

/-- The code that puts the address of a place into a register. -/
inductive Located : Checked.Expr → Context → Depth → Emitter → List Item → Emitter → Prop
  | var {ctx d em slot name} (type : Ty)
    (hslot : ctx.slots.lookup? name (fun _ => true) = some slot) :
    Located (.var type name) ctx d em (ctx.mark :: ctx.access (ctx.address d.reg slot)) em
  | elem {ctx d em slot name indices items em'} {type : Ty}
    (hslot : ctx.slots.lookup? name (fun _ => true) = some slot)
    (hindices : Emitted (.selections type.size indices) ctx d em items em') :
    Located (.elem type name indices) ctx d em
      (ctx.mark :: ctx.access (ctx.address d.reg slot) ++ items) em'
  | side {ctx d em pair items em₁ check em₂} {type : Ty} {which : Side}
    (hpair : Emitted (.expr pair) ctx d em items em₁) (hcheck : nullCheck d.reg em₁ = .ok (check, em₂)) :
    Located (.side type which pair) ctx d em
      (ctx.mark :: items ++ Item.instrs check
        ++ Item.instrs [.binary .add d.reg d.reg (.imm (sideOffset which))]) em₂
  | other {ctx d em e items em'} (hplace : e.isPlace = false)
    (he : Emitted (.expr e) ctx d em items em') : Located e ctx d em items em'

/-- The code of a block around that of its body. -/
def blockItems (ctx : Context) (size : Nat) (items : List Item) (inner : Context) : List Item :=
  Item.instrs (ctx.frame.enter size).1 ++ items ++ Item.instrs inner.frame.exit.1

/-- The code that is made for a statement, with the context after it, from one state of the file to
the next. -/
inductive StmtEmitted : Checked.Stmt → Context → Emitter → List Item → Context → Emitter → Prop
  | skip {ctx em m} : StmtEmitted (.skip m) ctx em [ctx.mark] ctx em
  | declare {ctx em m type name init items em'} (hinit : Emitted (.expr init) ctx .top em items em') :
    StmtEmitted (.declare m type name init) ctx em
      (ctx.mark :: items ++ (ctx.declare name type.size).access
        ((ctx.declare name type.size).store (ctx.frame.declare type.size).1.size Depth.top.reg
          (ctx.frame.declare type.size).1)) (ctx.declare name type.size) em'
  | assignVar {ctx em m type name src items em' slot}
    (hsrc : Emitted (.expr src) ctx .top em items em')
    (hslot : ctx.slots.lookup? name (fun _ => true) = some slot) :
    StmtEmitted (.assign m (.var type name) src) ctx em
      (ctx.mark :: items ++ ctx.access (ctx.store type.size Depth.top.reg slot)) ctx em'
  | assignPlace {ctx em m dst src items em₁ place em₂} (hdst : ∀ type name, dst ≠ .var type name)
    (hsrc : Emitted (.expr src) ctx .top em items em₁)
    (hplace : Located dst ctx Depth.top.next em₁ place em₂) :
    StmtEmitted (.assign m dst src) ctx em
      (ctx.mark :: items ++ place
        ++ Item.instrs [.store dst.note.size Depth.top.reg (.mem Depth.top.next.reg 0)]) ctx em₂
  | read {ctx em m target items em'} (hplace : Located target ctx .top em items em') :
    StmtEmitted (.read m target) ctx em
      (ctx.mark :: items
        ++ Item.instrs [.movReg .r0 Depth.top.reg, .bl (readRoutine target.note).label]) ctx
      (em'.require (readRoutine target.note))
  | free {ctx em m e items em'} (he : Emitted (.expr e) ctx .top em items em') :
    StmtEmitted (.free m e) ctx em
      (ctx.mark :: items
        ++ Item.instrs [.movReg .r0 Depth.top.reg, .bl (freeRoutine e.note).label]) ctx
      (em'.require (freeRoutine e.note))
  | ret {ctx em m e items em'} (he : Emitted (.expr e) ctx .top em items em') :
    StmtEmitted (.ret m e) ctx em
      (ctx.mark :: items ++ Item.instrs (.movReg .r0 Depth.top.reg :: ctx.frame.unwind)
        ++ Item.instrs [.pop [.pc]]) ctx em'
  | exit {ctx em m e items em'} (he : Emitted (.expr e) ctx .top em items em') :
    StmtEmitted (.exit m e) ctx em
      (ctx.mark :: items ++ Item.instrs [.movReg .r0 Depth.top.reg, .bl "exit"]) ctx em'
  | print {ctx em m e items em'} (he : Emitted (.expr e) ctx .top em items em') :
    StmtEmitted (.print m e false) ctx em
      (ctx.mark :: items
        ++ Item.instrs [.movReg .r0 Depth.top.reg, .bl (printRoutine e.note).label]) ctx
      (em'.require (printRoutine e.note))
  | println {ctx em m e items em'} (he : Emitted (.expr e) ctx .top em items em') :
    StmtEmitted (.print m e true) ctx em
      (ctx.mark :: items
        ++ Item.instrs [.movReg .r0 Depth.top.reg, .bl (printRoutine e.note).label,
          .bl Routine.printLn.label]) ctx
      ((em'.require (printRoutine e.note)).require .printLn)
  | branch {ctx em m cond yes no test em₁ yitems yinner em₂ nitems ninner em₃}
    (hcond : Emitted (.expr cond) ctx .top em.fresh.2.fresh.2 test em₁)
    (hyes : StmtEmitted yes (ctx.inside (blockSize yes)) em₁ yitems yinner em₂)
    (hno : StmtEmitted no (ctx.inside (blockSize no)) em₂ nitems ninner em₃) :
    StmtEmitted (.branch m cond yes no) ctx em
      (ctx.mark :: test
        ++ Item.instrs [.cmp Depth.top.reg (.imm 0), (Instr.b em.fresh.1).when .eq]
        ++ blockItems ctx (blockSize yes) yitems yinner
        ++ [.line (.instr (.b em.fresh.2.fresh.1)), .line (.label em.fresh.1)]
        ++ blockItems ctx (blockSize no) nitems ninner
        ++ [.line (.label em.fresh.2.fresh.1)]) ctx em₃
  | loop {ctx em m cond body items inner em₁ test em₂}
    (hbody : StmtEmitted body (ctx.inside (blockSize body)) em.fresh.2.fresh.2 items inner em₁)
    (hcond : Emitted (.expr cond) ctx .top em₁ test em₂) :
    StmtEmitted (.loop m cond body) ctx em
      ([ctx.mark, .line (.instr (.b em.fresh.1)), .line (.label em.fresh.2.fresh.1)]
        ++ blockItems ctx (blockSize body) items inner ++ [.line (.label em.fresh.1)] ++ test
        ++ Item.instrs [.cmp Depth.top.reg (.imm 1), (Instr.b em.fresh.2.fresh.1).when .eq]) ctx em₂
  | scope {ctx em m body items inner em'}
    (hbody : StmtEmitted body (ctx.inside (blockSize body)) em items inner em') :
    StmtEmitted (.scope m body) ctx em
      (ctx.mark :: blockItems ctx (blockSize body) items inner) ctx em'
  | seqNil {ctx em m} : StmtEmitted (.seq m []) ctx em [ctx.mark] ctx em
  | seqCons {ctx em m s ss items ctx₁ em₁ others ctx₂ em₂}
    (hfirst : StmtEmitted s ctx em items ctx₁ em₁)
    (hothers : StmtEmitted (.seq m ss) ctx₁ em₁ others ctx₂ em₂) :
    StmtEmitted (.seq m (s :: ss)) ctx em (items ++ others) ctx₂ em₂

/-- A new slot hides no other name. -/
theorem Context.binds_bind {slots : Chain Slot} {frame frame' : Frame} {name other : String}
    {slot : Slot} :
    Context.Binds ⟨slots.bind name slot, frame⟩ other ↔
      other = name ∨ Context.Binds ⟨slots, frame'⟩ other := by
  simp only [Binds, Chain.lookup?_eq_lookup, Chain.flatten_bind, List.lookup_cons]
  cases h : other == name with
  | true => exact ⟨fun _ => .inl (beq_iff_eq.1 h), fun _ => rfl⟩
  | false =>
    have hne : other ≠ name := beq_eq_false_iff_ne.1 h
    simp [hne]

/-- A declaration adds its own name. -/
theorem Context.binds_declare {ctx : Context} {name other : String} {size : Nat} :
    (ctx.declare name size).Binds other ↔ other = name ∨ ctx.Binds other :=
  binds_bind

/-- A statement adds the variables that it declares, and no others. -/
theorem StmtEmitted.binds {s : Checked.Stmt} {ctx ctx' : Context} {em em' : Emitter}
    {items : List Item} (h : StmtEmitted s ctx em items ctx' em') (name : String) :
    ctx'.Binds name ↔ name ∈ s.declared ∨ ctx.Binds name := by
  induction h with
  | declare => simp [Stmt.declared, Context.binds_declare]
  | seqNil => simp [Stmt.declared, Stmt.declaredAll]
  | seqCons _ _ ih ihs =>
    simp only [Stmt.declared, Stmt.declaredAll] at ihs ⊢
    rw [ihs, ih, List.mem_append, or_left_comm, or_assoc]
  | _ => simp [Stmt.declared]

/-- A statement gives out the bytes of its declarations and does not move the stack pointer. -/
theorem StmtEmitted.frame {s : Checked.Stmt} {ctx ctx' : Context} {em em' : Emitter}
    {items : List Item} (h : StmtEmitted s ctx em items ctx' em') :
    ctx'.frame = ctx.frame.advance (blockSize s) := by
  induction h with
  | declare => exact Frame.declare_snd _ _
  | seqNil => exact (Frame.advance_zero _).symm
  | seqCons _ _ ih iho =>
    rw [iho, ih, Frame.advance_add]
    simp only [blockSize, blockSizeAll]
  | _ => exact (Frame.advance_zero _).symm

/-- The stack pointer is back where it was after a statement. -/
theorem StmtEmitted.displacement_eq {s : Checked.Stmt} {ctx ctx' : Context} {em em' : Emitter}
    {items : List Item} (h : StmtEmitted s ctx em items ctx' em') :
    ctx'.frame.displacement = ctx.frame.displacement := by
  rw [h.frame, Frame.displacement_advance]

/-- The end of a block gives back what was reserved for it. -/
theorem StmtEmitted.exit_inside {s : Checked.Stmt} {ctx inner : Context} {em em' : Emitter}
    {items : List Item} {size : Nat} (h : StmtEmitted s (ctx.inside size) em items inner em') :
    inner.frame.exit.1 = Stack.adjust .add size ∧
      inner.frame.displacement = ctx.frame.displacement + size := by
  rw [h.frame]
  exact ⟨rfl, rfl⟩

/-- A statement adds slots in front of those that were there. -/
theorem StmtEmitted.slots {s : Checked.Stmt} {ctx ctx' : Context} {em em' : Emitter}
    {items : List Item} (h : StmtEmitted s ctx em items ctx' em') :
    ∃ added, ctx'.slots.flatten = added ++ ctx.slots.flatten := by
  induction h with
  | declare => exact ⟨[_], Chain.flatten_bind _ _ _⟩
  | seqCons _ _ ih iho =>
    obtain ⟨added, hadded⟩ := ih
    obtain ⟨added', hadded'⟩ := iho
    exact ⟨added' ++ added, by rw [hadded', hadded, List.append_assoc]⟩
  | _ => exact ⟨[], rfl⟩

/-- The code of an address takes nothing back. -/
theorem Located.grows {e : Checked.Expr} {ctx : Context} {d : Depth} {em em' : Emitter}
    {items : List Item} (h : Located e ctx d em items em') : em.Grows em' := by
  cases h with
  | var => exact .refl em
  | elem _ hindices => exact hindices.grows
  | side hpair hcheck => exact hpair.grows.trans (nullCheck_grows hcheck)
  | other _ he => exact he.grows

/-- The code of a statement takes nothing back. -/
theorem StmtEmitted.grows {s : Checked.Stmt} {ctx ctx' : Context} {em em' : Emitter}
    {items : List Item} (h : StmtEmitted s ctx em items ctx' em') : em.Grows em' := by
  induction h with
  | skip | seqNil => exact .refl _
  | declare he | assignVar he | ret he | exit he => exact he.grows
  | assignPlace _ hsrc hplace => exact hsrc.grows.trans hplace.grows
  | read hplace => exact hplace.grows.trans (Emitter.grows_require _ _)
  | free he | print he => exact he.grows.trans (Emitter.grows_require _ _)
  | println he =>
    exact (he.grows.trans (Emitter.grows_require _ _)).trans (Emitter.grows_require _ _)
  | branch hcond _ _ ihy ihn =>
    exact (((Emitter.grows_fresh_twice _).trans hcond.grows).trans ihy).trans ihn
  | loop _ hcond ih => exact ((Emitter.grows_fresh_twice _).trans ih).trans hcond.grows
  | scope _ ih => exact ih
  | seqCons _ _ ih iho => exact ih.trans iho

/-- The code is made as `StmtEmitted` says. -/
def StmtTraced (s : Checked.Stmt) (ctx : Context) (em : Emitter) (result : Code × Context)
    (em' : Emitter) : Prop :=
  ∃ items, Item.code items = result.1 ∧ StmtEmitted s ctx em items result.2 em'

/-- A call of a routine asks for it. -/
theorem call_makes {faulty : String → Prop} (r : Routine) (em : Emitter) :
    Makes faulty (Emit.call r) em fun i em' => i = .bl r.label ∧ em' = em.require r :=
  .ok rfl ⟨rfl, rfl⟩

theorem fresh_makes {faulty : String → Prop} (em : Emitter) :
    Makes faulty Emit.fresh em fun label em' => label = em.fresh.1 ∧ em' = em.fresh.2 :=
  .ok rfl ⟨rfl, rfl⟩

/-- A value for a routine goes to `r0`. -/
theorem argument_makes (e : Checked.Expr) (ctx : Context) (em : Emitter) :
    Makes (ctx.Misses (Expr.names e.parts)) (argument e ctx) em fun code em' =>
      ∃ items, Item.code items ++ [.instr (.movReg .r0 Depth.top.reg)] = Code.ofInstrs code ∧
        Emitted (.expr e) ctx .top em items em' := by
  refine (expr_makes e ctx .top em).bind fun code em' ⟨items, hitems, hemitted⟩ => ?_
  exact .pure ⟨items, by simp [hitems], hemitted⟩

/-- The address of a target fails only for a name without a slot. -/
theorem address_makes (target : Checked.Expr) (ctx : Context) (d : Depth) (em : Emitter) :
    Makes (ctx.Misses (Expr.names target.parts)) (address target ctx d) em fun code em' =>
      ∃ items, Item.code items = Code.ofInstrs code ∧ Located target ctx d em items em' := by
  unfold address
  split
  · rename_i type name indices
    refine (slot_makes ctx em (by simp [Expr.parts, Expr.named?])).bind ?_
    rintro slot em' ⟨hslot, rfl⟩
    have hindices := (selections_makes type.size indices ctx d em').weaken
      (Expr.names_subset_cons (.elem type name indices) _)
    refine hindices.bind ?_
    rintro code em'' ⟨items, hitems, hemitted⟩
    exact .pure ⟨_, by simp [hitems], .elem hslot hemitted⟩
  · rename_i type which pair
    have hpair := (expr_makes pair ctx d em).weaken (Expr.names_subset_cons (.side type which pair) _)
    refine hpair.bind ?_
    rintro code em₁ ⟨items, hitems, hemitted⟩
    refine (Makes.of_total (nullCheck_total d.reg em₁)).bind fun check em₂ hcheck => ?_
    exact .pure ⟨_, by simp [hitems], .side hemitted hcheck⟩
  · rename_i type name
    refine (slot_makes ctx em (by simp [Expr.parts, Expr.named?])).bind ?_
    rintro slot em' ⟨hslot, rfl⟩
    exact .pure ⟨_, by simp, .var type hslot⟩
  · rename_i helem hside hvar
    refine (expr_makes target ctx d em).imp (fun _ h => h) ?_
    rintro code em' ⟨items, hitems, hemitted⟩
    refine ⟨items, hitems, .other ?_ hemitted⟩
    cases target with
    | elem => exact absurd rfl (helem _ _ _)
    | side => exact absurd rfl (hside _ _ _)
    | var => exact absurd rfl (hvar _ _)
    | _ => rfl

/-- A variable is stored to directly, and what is behind an address through a register. -/
theorem assign_makes (dst : Checked.Expr) (ctx : Context) (d : Depth) (em : Emitter) :
    Makes (ctx.Misses (Expr.names dst.parts)) (assign dst ctx d) em fun code em' =>
      (∃ type name slot, dst = .var type name ∧
        ctx.slots.lookup? name (fun _ => true) = some slot ∧
        code = ctx.store type.size d.reg slot ∧ em' = em) ∨
      (∀ type name, dst ≠ .var type name) ∧ ∃ items,
        Item.code items ++ [.instr (.store dst.note.size d.reg (.mem d.next.reg 0))] =
          Code.ofInstrs code ∧
        Located dst ctx d.next em items em' := by
  unfold assign
  split
  · rename_i type name
    refine (slot_makes ctx em (by simp [Expr.parts, Expr.named?])).bind ?_
    rintro slot em' ⟨hslot, rfl⟩
    exact .pure (.inl ⟨type, name, slot, rfl, hslot, rfl, rfl⟩)
  · rename_i hvar
    refine (address_makes dst ctx d.next em).bind ?_
    rintro code em' ⟨items, hitems, hplace⟩
    exact .pure (.inr ⟨fun type name h => hvar type name h, items, by simp [hitems], hplace⟩)

/-- A block is its body between two steps of the stack pointer. -/
theorem block_makes {s : Checked.Stmt} {faulty : String → Prop} {ctx : Context} {em : Emitter}
    (h : Makes faulty (stmt s (ctx.inside (blockSize s))) em
      (StmtTraced s (ctx.inside (blockSize s)) em)) :
    Makes faulty (block (blockSize s) (stmt s) ctx) em fun code em' =>
      ∃ items inner, Item.code (blockItems ctx (blockSize s) items inner) = code ∧
        StmtEmitted s (ctx.inside (blockSize s)) em items inner em' := by
  refine h.bind fun result em' ⟨items, hitems, hemitted⟩ => ?_
  exact .pure ⟨items, result.2, by simp [blockItems, hitems, Frame.enter], hemitted⟩

mutual

/-- Code is made for every statement, unless a variable from outside has no slot. -/
theorem stmt_makes (s : Checked.Stmt) (ctx : Context) (em : Emitter) :
    Makes (ctx.Misses s.freeNames) (stmt s ctx) em (StmtTraced s ctx em) := by
  cases s with
  | skip m =>
    rw [stmt]
    exact .pure ⟨_, by simp, .skip⟩
  | declare m type name init =>
    rw [stmt]
    refine (expr_makes init ctx .top em).bind fun code em' ⟨items, hitems, hemitted⟩ => ?_
    exact .pure ⟨_, by simp [hitems]; rfl, .declare hemitted⟩
  | assign m dst src =>
    rw [stmt, Stmt.freeNames]
    refine ((expr_makes src ctx .top em).weaken (List.subset_append_left _ _)).bind
      fun code em₁ ⟨items, hitems, hsrc⟩ => ?_
    refine ((assign_makes dst ctx .top em₁).weaken (List.subset_append_right _ _)).bind
      fun stored em₂ hstored => ?_
    rcases hstored with ⟨type, name, slot, rfl, hslot, rfl, rfl⟩ | ⟨hdst, place, hplace, hlocated⟩
    · exact .pure ⟨_, by simp [hitems], .assignVar hsrc hslot⟩
    · exact .pure ⟨_, by simp [hitems, ← hplace], .assignPlace hdst hsrc hlocated⟩
  | read m target =>
    rw [stmt]
    refine (address_makes target ctx .top em).bind fun code em' ⟨items, hitems, hplace⟩ => ?_
    refine (call_makes (readRoutine target.note) em').bind ?_
    rintro call em'' ⟨rfl, rfl⟩
    exact .pure ⟨_, by simp [hitems], .read hplace⟩
  | free m e =>
    rw [stmt]
    refine (argument_makes e ctx em).bind fun code em' ⟨items, hitems, hemitted⟩ => ?_
    refine (call_makes (freeRoutine e.note) em').bind ?_
    rintro call em'' ⟨rfl, rfl⟩
    exact .pure ⟨_, by simp [← hitems], .free hemitted⟩
  | ret m e =>
    rw [stmt]
    refine (argument_makes e ctx em).bind fun code em' ⟨items, hitems, hemitted⟩ => ?_
    exact .pure ⟨_, by simp [← hitems], .ret hemitted⟩
  | exit m e =>
    rw [stmt]
    refine (argument_makes e ctx em).bind fun code em' ⟨items, hitems, hemitted⟩ => ?_
    exact .pure ⟨_, by simp [← hitems], .exit hemitted⟩
  | print m e newline =>
    rw [stmt]
    refine (argument_makes e ctx em).bind fun code em' ⟨items, hitems, hemitted⟩ => ?_
    refine (call_makes (printRoutine e.note) em').bind ?_
    rintro call em'' ⟨rfl, rfl⟩
    cases newline with
    | false => exact .ok rfl ⟨_, by simp [← hitems], .print hemitted⟩
    | true => exact .ok rfl ⟨_, by simp [← hitems], .println hemitted⟩
  | branch m cond yes no =>
    rw [stmt, Stmt.freeNames]
    refine (fresh_makes em).bind ?_
    rintro otherwise _ ⟨rfl, rfl⟩
    refine (fresh_makes em.fresh.2).bind ?_
    rintro done _ ⟨rfl, rfl⟩
    refine ((expr_makes cond ctx .top _).weaken (List.subset_append_left _ _)).bind
      fun code em₁ ⟨test, htest, hcond⟩ => ?_
    have hyes := (stmt_makes yes (ctx.inside (blockSize yes)) em₁).weaken
      (List.subset_append_left _ no.freeNames)
    refine (block_makes (hyes.weaken (List.subset_append_right _ _))).bind
      fun ycode em₂ ⟨yitems, yinner, hyitems, hyes⟩ => ?_
    have hno := (stmt_makes no (ctx.inside (blockSize no)) em₂).weaken
      (List.subset_append_right yes.freeNames _)
    refine (block_makes (hno.weaken (List.subset_append_right _ _))).bind
      fun ncode em₃ ⟨nitems, ninner, hnitems, hno⟩ => ?_
    exact .pure ⟨_, by simp [htest, hyitems, hnitems], .branch hcond hyes hno⟩
  | loop m cond body =>
    rw [stmt, Stmt.freeNames]
    refine (fresh_makes em).bind ?_
    rintro check _ ⟨rfl, rfl⟩
    refine (fresh_makes em.fresh.2).bind ?_
    rintro start _ ⟨rfl, rfl⟩
    have hbody := stmt_makes body (ctx.inside (blockSize body)) em.fresh.2.fresh.2
    refine (block_makes (hbody.weaken (List.subset_append_left _ _))).bind
      fun bcode em₁ ⟨items, inner, hitems, hbody⟩ => ?_
    refine ((expr_makes cond ctx .top em₁).weaken (List.subset_append_right _ _)).bind
      fun code em₂ ⟨test, htest, hcond⟩ => ?_
    exact .pure ⟨_, by simp [htest, hitems], .loop hbody hcond⟩
  | scope m body =>
    rw [stmt]
    refine (block_makes (stmt_makes body (ctx.inside (blockSize body)) em)).bind
      fun code em' ⟨items, inner, hitems, hemitted⟩ => ?_
    exact .pure ⟨_, by simp [hitems], .scope hemitted⟩
  | seq m items =>
    rw [stmt]
    exact stmtList_makes m items ctx em

/-- Statements are made one after the other. -/
theorem stmtList_makes (m : Unit) (ss : List Checked.Stmt) (ctx : Context) (em : Emitter) :
    Makes (ctx.Misses (Stmt.freeNamesAll ss)) (stmtList ss ctx) em (StmtTraced (.seq m ss) ctx em) := by
  cases ss with
  | nil =>
    rw [stmtList]
    exact .pure ⟨_, by simp, .seqNil⟩
  | cons s ss =>
    rw [stmtList, Stmt.freeNamesAll]
    refine ((stmt_makes s ctx em).weaken (List.subset_append_left _ _)).bind
      fun ⟨code, ctx₁⟩ em₁ ⟨items, hitems, hfirst⟩ => ?_
    have hothers : Makes (ctx.Misses (s.freeNames ++ (Stmt.freeNamesAll ss).filter (· ∉ s.declared)))
        (stmtList ss ctx₁) em₁ (StmtTraced (.seq m ss) ctx₁ em₁) := by
      refine (stmtList_makes m ss ctx₁ em₁).imp (fun name hname => ?_) fun _ _ h => h
      have hfree := not_or.1 (mt (hfirst.binds name).2 hname.2)
      exact ⟨by simp [hname.1, hfree.1], hfree.2⟩
    refine hothers.bind fun ⟨codes, ctx₂⟩ em₂ ⟨others, hothers, hemitted⟩ => ?_
    refine .pure ⟨items ++ others, ?_, .seqCons hfirst hemitted⟩
    rw [Item.code_append, hitems, hothers]

end

end Emission

end WaccArm
