import WaccArm.Emission.Expr
import WaccArm.Proofs.Emission.Run

namespace WaccArm

@[simp] theorem Code.ofInstrs_nil : ofInstrs [] = [] := rfl

@[simp] theorem Code.ofInstrs_cons (i : Instr) (is : List Instr) :
    ofInstrs (i :: is) = .instr i :: ofInstrs is := rfl

@[simp] theorem Code.ofInstrs_append (is is' : List Instr) :
    ofInstrs (is ++ is') = ofInstrs is ++ ofInstrs is' :=
  List.map_append

namespace Emission

/-- A line of code, or a place where the stack pointer is known to be `displacement` below the
entry point. -/
inductive Item where
  | mark (displacement : Int)
  | line (l : Line)

namespace Item

def instrs (is : List Instr) : List Item := is.map fun i => .line (.instr i)

/-- The lines without the marks. -/
def code (items : List Item) : Code :=
  items.filterMap fun
    | .mark _ => none
    | .line l => some l

variable (items items' : List Item)

@[simp] theorem code_nil : code [] = [] := rfl

@[simp] theorem code_mark (displacement : Int) : code (.mark displacement :: items) = code items := rfl

@[simp] theorem code_line (l : Line) : code (.line l :: items) = l :: code items := rfl

@[simp] theorem code_append : code (items ++ items') = code items ++ code items' :=
  List.filterMap_append

theorem instrs_append (is is' : List Instr) : instrs (is ++ is') = instrs is ++ instrs is' :=
  List.map_append

@[simp] theorem code_instrs (is : List Instr) : code (instrs is) = Code.ofInstrs is := by
  induction is with
  | nil => rfl
  | cons i is ih => exact congrArg (Line.instr i :: ·) ih

theorem mem_code {l : Line} {items : List Item} : l ∈ code items ↔ .line l ∈ items := by
  rw [code, List.mem_filterMap]
  constructor
  · rintro ⟨_ | l', hmem, ⟨⟩⟩
    exact hmem
  · exact fun hmem => ⟨.line l, hmem, rfl⟩

end Item

namespace Context

def mark (ctx : Context) : Item := .mark ctx.frame.displacement

@[simp] theorem code_mark (ctx : Context) (items : List Item) :
    Item.code (ctx.mark :: items) = Item.code items := rfl

/-- Code of which the last instruction goes to the stack. -/
def access (ctx : Context) : List Instr → List Item
  | [] => []
  | [i] => [ctx.mark, .line (.instr i)]
  | i :: is => .line (.instr i) :: ctx.access is

/-- Marks are no code. -/
@[simp] theorem code_access (ctx : Context) (is : List Instr) :
    Item.code (ctx.access is) = Code.ofInstrs is := by
  fun_induction ctx.access is with
  | case1 => rfl
  | case2 i => rfl
  | case3 i is _ ih => exact congrArg (Line.instr i :: ·) ih

/-- Whether a variable has a slot. -/
def Binds (ctx : Context) (name : String) : Prop :=
  (ctx.slots.lookup? name fun _ => true).isSome

/-- A name that has no slot, among the given ones. -/
def Misses (ctx : Context) (names : List String) (name : String) : Prop :=
  name ∈ names ∧ ¬ ctx.Binds name

end Context

/-- A part of an expression that code is made for in one go. -/
inductive Part where
  | expr (e : Checked.Expr)
  | operand (e : Checked.Expr)
  | selections (size : Nat) (indices : List Checked.Expr)
  | args (args : List Checked.Expr)
  | elements (size offset : Nat) (elems : List Checked.Expr)

/-- The code that is made for a part in a context and at a depth, from one state of the file to the
next. -/
inductive Emitted : Part → Context → Depth → Emitter → List Item → Emitter → Prop
  | int {ctx d em} (type : Ty) (value : Int32) :
    Emitted (.expr (.int type value)) ctx d em
      (ctx.mark :: Item.instrs [.ldr d.reg (.literal value.toInt)]) em
  | bool {ctx d em} (type : Ty) (value : Bool) :
    Emitted (.expr (.bool type value)) ctx d em
      (ctx.mark :: Item.instrs [.mov d.reg (.imm (if value then 1 else 0))]) em
  | char {ctx d em} (type : Ty) (value : UInt8) :
    Emitted (.expr (.char type value)) ctx d em
      (ctx.mark :: Item.instrs [.mov d.reg (.imm value.toNat)]) em
  | str {ctx d em} (type : Ty) (value : String) :
    Emitted (.expr (.str type value)) ctx d em
      (ctx.mark :: Item.instrs [.ldr d.reg (.address (em.intern value).1)]) (em.intern value).2
  | null {ctx d em} (type : Ty) :
    Emitted (.expr (.null type)) ctx d em (ctx.mark :: Item.instrs [.ldr d.reg (.literal 0)]) em
  | var {ctx d em slot name} (type : Ty)
    (hslot : ctx.slots.lookup? name (fun _ => true) = some slot) :
    Emitted (.expr (.var type name)) ctx d em
      (ctx.mark :: ctx.access (ctx.load slot.size d.reg slot)) em
  | elem {ctx d em slot name indices items em'} {type : Ty}
    (hslot : ctx.slots.lookup? name (fun _ => true) = some slot)
    (hindices : Emitted (.selections type.size indices) ctx d em items em') :
    Emitted (.expr (.elem type name indices)) ctx d em
      (ctx.mark :: ctx.access (ctx.address d.reg slot) ++ items
        ++ Item.instrs [.load type.size d.reg (.mem d.reg 0)]) em'
  | side {ctx d em pair items em₁ check em₂} {type : Ty} {which : Side}
    (hpair : Emitted (.expr pair) ctx d em items em₁) (hcheck : nullCheck d.reg em₁ = .ok (check, em₂)) :
    Emitted (.expr (.side type which pair)) ctx d em
      (ctx.mark :: items ++ Item.instrs check
        ++ Item.instrs [.load type.size d.reg (.mem d.reg (sideOffset which))]) em₂
  | unary {ctx d em e items em₁ code em₂} {type : Ty} {op : UnaryOp}
    (he : Emitted (.expr e) ctx d em items em₁) (hop : unary op d.reg em₁ = .ok (code, em₂)) :
    Emitted (.expr (.unary type op e)) ctx d em (ctx.mark :: items ++ Item.instrs code) em₂
  | binary {ctx d em l r litems em₁ ritems em₂ code em₃} {type : Ty} {op : BinaryOp}
    (hl : Emitted (.expr l) ctx d em litems em₁) (hr : Emitted (.operand r) ctx d em₁ ritems em₂)
    (hop : binary op d em₂ = .ok (code, em₃)) :
    Emitted (.expr (.binary type op l r)) ctx d em
      (ctx.mark :: litems ++ ritems ++ Item.instrs code) em₃
  | call {ctx d em label args items em'} {type : Ty}
    (hargs : Emitted (.args args) (ctx.push (4 * d.live.length)) d em items em') :
    Emitted (.expr (.call type label args)) ctx d em
      (ctx.mark :: Item.instrs (if d.live.isEmpty then [] else [.push d.live]) ++ items
        ++ Item.instrs ([.bl label] ++ Stack.adjust .add (argBytes args) ++ [.movReg d.reg .r0]
          ++ (if d.live.isEmpty then [] else [.pop d.live]))) em'
  | newPair {ctx d em fst snd fitems em₁ sitems em₂} {type : Ty}
    (hfst : Emitted (.operand fst) ctx d em fitems em₁)
    (hsnd : Emitted (.operand snd) ctx d em₁ sitems em₂) :
    Emitted (.expr (.newPair type fst snd)) ctx d em
      (ctx.mark :: Item.instrs (allocate 8 d.reg) ++ fitems
        ++ Item.instrs (storeInto fst.note.size 0 d) ++ sitems
        ++ Item.instrs (storeInto snd.note.size 4 d)) em₂
  | array {ctx d em elems items em'} {type : Ty}
    (helems : Emitted (.elements (elemSize elems) 4 elems) ctx d em items em') :
    Emitted (.expr (.array type elems)) ctx d em
      (ctx.mark :: Item.instrs (allocate (4 + elems.length * elemSize elems) d.reg) ++ items
        ++ Item.instrs [.ldr .r0 (.literal elems.length), .store 4 .r0 (.mem d.reg 0)]) em'
  | spilled {ctx d em e items em'} (hlast : d.exhausted = true)
    (he : Emitted (.expr e) (ctx.push 4) d em items em') :
    Emitted (.operand e) ctx d em
      (Item.instrs [.push [d.reg]] ++ items ++ Item.instrs [.pop [scratch]]) em'
  | next {ctx d em e items em'} (hmore : d.exhausted = false)
    (he : Emitted (.expr e) ctx d.next em items em') : Emitted (.operand e) ctx d em items em'
  | noSelection {ctx d em} (size : Nat) : Emitted (.selections size []) ctx d em [] em
  | selection {ctx d em size index indices items em₁ selected em₂ others em₃}
    (hindex : Emitted (.operand index) ctx d em items em₁)
    (hselect : select (if indices.isEmpty then size else 4) d em₁ = .ok (selected, em₂))
    (hothers : Emitted (.selections size indices) ctx d em₂ others em₃) :
    Emitted (.selections size (index :: indices)) ctx d em
      (items ++ Item.instrs selected ++ others) em₃
  | noArg {ctx d em} : Emitted (.args []) ctx d em [] em
  | arg {ctx d em arg args others em₁ items em₂}
    (hothers : Emitted (.args args) ctx d em others em₁)
    (harg : Emitted (.expr arg) (ctx.push (argBytes args)) d em₁ items em₂) :
    Emitted (.args (arg :: args)) ctx d em
      (others ++ items
        ++ Item.instrs [.store arg.note.size d.reg (.preIndexed .sp (-arg.note.size))]) em₂
  | noElement {ctx d em} (size offset : Nat) : Emitted (.elements size offset []) ctx d em [] em
  | element {ctx d em size offset elem elems items em₁ others em₂}
    (helem : Emitted (.operand elem) ctx d em items em₁)
    (hothers : Emitted (.elements size (offset + size) elems) ctx d em₁ others em₂) :
    Emitted (.elements size offset (elem :: elems)) ctx d em
      (items ++ Item.instrs (storeInto size offset d) ++ others) em₂

end Emission

/-- Making code comes to a result with a property, or fails for a name of which `faulty` holds. -/
inductive Emit.Makes {α : Type} (faulty : String → Prop) (x : Emit α) (em : Emitter)
    (post : α → Emitter → Prop) : Prop
  | ok {a : α} {em' : Emitter} (hok : x em = .ok (a, em')) (hpost : post a em')
  | unbound {name : String} (hname : faulty name) (hfail : x em = .error (.unbound name))

namespace Emit

variable {α β : Type} {faulty faulty' : String → Prop} {x : Emit α} {f : α → Emit β} {em : Emitter}
  {post post' : α → Emitter → Prop} {post₂ : β → Emitter → Prop}

/-- Less may be said of the result. -/
theorem Makes.imp (h : Makes faulty x em post) (hfaulty : ∀ name, faulty name → faulty' name)
    (hpost : ∀ a em', post a em' → post' a em') : Makes faulty' x em post' := by
  cases h with
  | ok hok h => exact .ok hok (hpost _ _ h)
  | unbound hname hfail => exact .unbound (hfaulty _ hname) hfail

/-- Code is made in steps, and fails where one of them does. -/
theorem Makes.bind (h : Makes faulty x em post)
    (hf : ∀ a em', post a em' → Makes faulty (f a) em' post₂) :
    Makes faulty (x >>= f) em post₂ := by
  cases h with
  | ok hok hpost =>
    cases hf _ _ hpost with
    | ok hok' hpost' => exact .ok ((bind_of_ok hok).trans hok') hpost'
    | unbound hname hfail => exact .unbound hname ((bind_of_ok hok).trans hfail)
  | unbound hname hfail =>
    refine .unbound hname ?_
    change (x em >>= fun p => f p.1 p.2) = _
    rw [hfail]
    rfl

theorem Makes.pure {a : α} (h : post a em) : Makes faulty (Pure.pure a) em post := .ok rfl h

/-- More names may be without slots. -/
theorem Makes.weaken {ctx : Emission.Context} {names names' : List String}
    (h : Makes (ctx.Misses names) x em post) (hnames : names ⊆ names') :
    Makes (ctx.Misses names') x em post :=
  h.imp (fun _ hname => ⟨hnames hname.1, hname.2⟩) fun _ _ hpost => hpost

/-- What never fails has a result. -/
theorem Makes.of_total (h : ∃ a em', x em = .ok (a, em')) :
    Makes faulty x em fun a em' => x em = .ok (a, em') := by
  obtain ⟨a, em', h⟩ := h
  exact .ok h h

end Emit

/-- The variable that an expression names at its top. -/
def Expr.named? {α : Type} : Expr α → Option String
  | .var _ name | .elem _ name _ => some name
  | _ => none

/-- The variables that expressions name. -/
def Expr.names {α : Type} (es : List (Expr α)) : List String := es.filterMap named?

@[simp] theorem Expr.mem_names {α : Type} {name : String} {es : List (Expr α)} :
    name ∈ names es ↔ ∃ e ∈ es, e.named? = some name :=
  List.mem_filterMap

theorem Expr.names_append {α : Type} (es es' : List (Expr α)) :
    names (es ++ es') = names es ++ names es' :=
  List.filterMap_append

theorem Expr.names_subset_cons {α : Type} (e : Expr α) (es : List (Expr α)) :
    names es ⊆ names (e :: es) :=
  List.filterMap_subset _ (List.subset_cons_self _ _)

namespace Emission

open Emit (Makes)

/-- Only a variable without a slot is an error. -/
theorem slot_makes (ctx : Context) (em : Emitter) {name : String} {names : List String}
    (hname : name ∈ names) :
    Makes (ctx.Misses names) (ctx.slot name) em fun slot em' =>
      ctx.slots.lookup? name (fun _ => true) = some slot ∧ em' = em := by
  cases h : ctx.slots.lookup? name fun _ => true with
  | some slot =>
    have hok : ctx.slot name em = .ok (slot, em) := by
      rw [Context.slot, h]
      rfl
    exact .ok hok ⟨rfl, rfl⟩
  | none =>
    have hfail : ctx.slot name em = .error (.unbound name) := by
      rw [Context.slot, h]
      rfl
    refine .unbound ⟨hname, ?_⟩ hfail
    rw [Context.Binds, h]
    nofun

theorem intern_makes {faulty : String → Prop} (text : String) (em : Emitter) :
    Makes faulty (Emit.intern text) em fun label em' =>
      label = (em.intern text).1 ∧ em' = (em.intern text).2 :=
  .ok rfl ⟨rfl, rfl⟩

/-- The code of an operator is never an error. -/
theorem unary_total (op : UnaryOp) (reg : Register) (em : Emitter) :
    ∃ code em', unary op reg em = .ok (code, em') := by
  cases op <;> exact ⟨_, _, rfl⟩

/-- The code of an operator on two operands is never an error. -/
theorem binary_total (op : BinaryOp) (d : Depth) (em : Emitter) :
    ∃ code em', binary op d em = .ok (code, em') := by
  cases op <;> exact ⟨_, _, rfl⟩

/-- The code is made as `Emitted` says. -/
def Traced (part : Part) (ctx : Context) (d : Depth) (em : Emitter) (code : List Instr)
    (em' : Emitter) : Prop :=
  ∃ items, Item.code items = Code.ofInstrs code ∧ Emitted part ctx d em items em'

/-- A right operand is made like any expression. -/
theorem operand_makes {e : Checked.Expr} {names : List String}
    (he : ∀ ctx d em, Makes (Context.Misses ctx names) (expr e ctx d) em (Traced (.expr e) ctx d em))
    (ctx : Context) (d : Depth) (em : Emitter) :
    Makes (ctx.Misses names) (operand (expr e) ctx d) em (Traced (.operand e) ctx d em) := by
  unfold operand
  split
  · rename_i hlast
    refine (he (ctx.push 4) d em).bind fun code em' ⟨items, hitems, hemitted⟩ => ?_
    refine .pure ⟨_, ?_, .spilled hlast hemitted⟩
    simp [hitems]
  · rename_i hmore
    refine (he ctx d.next em).imp (fun _ h => h) fun code em' ⟨items, hitems, hemitted⟩ => ?_
    exact ⟨items, hitems, .next (by simpa using hmore) hemitted⟩

theorem nullCheck_total (reg : Register) (em : Emitter) :
    ∃ code em', nullCheck reg em = .ok (code, em') :=
  ⟨_, _, rfl⟩

theorem select_total (width : Nat) (d : Depth) (em : Emitter) :
    ∃ code em', select width d em = .ok (code, em') :=
  ⟨_, _, rfl⟩

mutual

/-- Code is made for every expression, unless a variable has no slot. -/
theorem expr_makes (e : Checked.Expr) (ctx : Context) (d : Depth) (em : Emitter) :
    Makes (ctx.Misses (Expr.names e.parts)) (expr e ctx d) em (Traced (.expr e) ctx d em) := by
  cases e with
  | int type value =>
    rw [expr]
    exact .pure ⟨_, by simp, .int type value⟩
  | bool type value =>
    rw [expr]
    exact .pure ⟨_, by simp, .bool type value⟩
  | char type value =>
    rw [expr]
    exact .pure ⟨_, by simp, .char type value⟩
  | str type value =>
    rw [expr]
    refine (intern_makes value em).bind ?_
    rintro label em' ⟨rfl, rfl⟩
    exact .pure ⟨_, by simp, .str type value⟩
  | null type =>
    rw [expr]
    exact .pure ⟨_, by simp, .null type⟩
  | var type name =>
    rw [expr]
    refine (slot_makes ctx em (by simp [Expr.parts, Expr.named?])).bind ?_
    rintro slot em' ⟨hslot, rfl⟩
    exact .pure ⟨_, by simp, .var type hslot⟩
  | elem type name indices =>
    rw [expr]
    refine (slot_makes ctx em (by simp [Expr.parts, Expr.named?])).bind ?_
    rintro slot em' ⟨hslot, rfl⟩
    have hindices := (selections_makes type.size indices ctx d em').weaken
      (Expr.names_subset_cons (.elem type name indices) _)
    refine hindices.bind fun code em'' ⟨items, hitems, hemitted⟩ => ?_
    exact .pure ⟨_, by simp [hitems], .elem hslot hemitted⟩
  | side type which pair =>
    rw [expr]
    have hpair := (expr_makes pair ctx d em).weaken
      (Expr.names_subset_cons (.side type which pair) _)
    refine hpair.bind fun code em₁ ⟨items, hitems, hemitted⟩ => ?_
    refine (Makes.of_total (nullCheck_total d.reg em₁)).bind fun check em₂ hcheck => ?_
    exact .pure ⟨_, by simp [hitems], .side hemitted hcheck⟩
  | unary type op operand =>
    rw [expr]
    have hoperand := (expr_makes operand ctx d em).weaken
      (Expr.names_subset_cons (.unary type op operand) _)
    refine hoperand.bind fun code em₁ ⟨items, hitems, hemitted⟩ => ?_
    refine (Makes.of_total (unary_total op d.reg em₁)).bind fun applied em₂ hop => ?_
    exact .pure ⟨_, by simp [hitems], .unary hemitted hop⟩
  | binary type op left right =>
    rw [expr]
    have hsubset := Expr.names_subset_cons (.binary type op left right) (left.parts ++ right.parts)
    rw [Expr.names_append] at hsubset
    have hleft := (expr_makes left ctx d em).weaken (List.append_subset.1 hsubset).1
    refine hleft.bind fun lcode em₁ ⟨litems, hlitems, hl⟩ => ?_
    have hright := (operand_makes (expr_makes right) ctx d em₁).weaken (List.append_subset.1 hsubset).2
    refine hright.bind fun rcode em₂ ⟨ritems, hritems, hr⟩ => ?_
    refine (Makes.of_total (binary_total op d em₂)).bind fun applied em₃ hop => ?_
    exact .pure ⟨_, by simp [hlitems, hritems], .binary hl hr hop⟩
  | call type label args =>
    rw [expr]
    have hargs := (pushArgs_makes args (ctx.push (4 * d.live.length)) d em).weaken
      (Expr.names_subset_cons (.call type label args) _)
    refine hargs.bind fun code em' ⟨items, hitems, hemitted⟩ => ?_
    exact .pure ⟨_, by simp [hitems], .call hemitted⟩
  | newPair type fst snd =>
    rw [expr]
    have hsubset := Expr.names_subset_cons (.newPair type fst snd) (fst.parts ++ snd.parts)
    rw [Expr.names_append] at hsubset
    have hfst := (operand_makes (expr_makes fst) ctx d em).weaken (List.append_subset.1 hsubset).1
    refine hfst.bind fun fcode em₁ ⟨fitems, hfitems, hf⟩ => ?_
    have hsnd := (operand_makes (expr_makes snd) ctx d em₁).weaken (List.append_subset.1 hsubset).2
    refine hsnd.bind fun scode em₂ ⟨sitems, hsitems, hs⟩ => ?_
    exact .pure ⟨_, by simp [hfitems, hsitems], .newPair hf hs⟩
  | array type elems =>
    rw [expr]
    have helems := (elements_makes (elemSize elems) 4 elems ctx d em).weaken
      (Expr.names_subset_cons (.array type elems) _)
    refine helems.bind fun code em' ⟨items, hitems, hemitted⟩ => ?_
    exact .pure ⟨_, by simp [hitems], .array hemitted⟩

/-- Indices are made one after the other. -/
theorem selections_makes (size : Nat) (indices : List Checked.Expr) (ctx : Context) (d : Depth)
    (em : Emitter) :
    Makes (ctx.Misses (Expr.names (Expr.partsAll indices))) (selections size indices ctx d) em
      (Traced (.selections size indices) ctx d em) := by
  cases indices with
  | nil =>
    rw [selections]
    exact .pure ⟨_, by simp, .noSelection size⟩
  | cons index indices =>
    rw [selections, Expr.partsAll, Expr.names_append]
    refine ((operand_makes (expr_makes index) ctx d em).weaken (List.subset_append_left _ _)).bind
      fun code em₁ ⟨items, hitems, hemitted⟩ => ?_
    refine (Makes.of_total (select_total _ d em₁)).bind fun selected em₂ hselect => ?_
    refine ((selections_makes size indices ctx d em₂).weaken (List.subset_append_right _ _)).bind
      fun code' em₃ ⟨others, hothers, hemitted'⟩ => ?_
    exact .pure ⟨_, by simp [hitems, hothers], .selection hemitted hselect hemitted'⟩

/-- Arguments are made from the last to the first. -/
theorem pushArgs_makes (args : List Checked.Expr) (ctx : Context) (d : Depth) (em : Emitter) :
    Makes (ctx.Misses (Expr.names (Expr.partsAll args))) (pushArgs args ctx d) em
      (Traced (.args args) ctx d em) := by
  cases args with
  | nil =>
    rw [pushArgs]
    exact .pure ⟨_, by simp, .noArg⟩
  | cons arg args =>
    rw [pushArgs, Expr.partsAll, Expr.names_append]
    refine ((pushArgs_makes args ctx d em).weaken (List.subset_append_right _ _)).bind
      fun code em₁ ⟨others, hothers, hemitted⟩ => ?_
    have harg := expr_makes arg (ctx.push (argBytes args)) d em₁
    refine (Makes.weaken harg (List.subset_append_left _ _)).bind
      fun code' em₂ ⟨items, hitems, hemitted'⟩ => ?_
    exact .pure ⟨_, by simp [hitems, hothers], .arg hemitted hemitted'⟩

/-- Elements are made one after the other. -/
theorem elements_makes (size offset : Nat) (elems : List Checked.Expr) (ctx : Context) (d : Depth)
    (em : Emitter) :
    Makes (ctx.Misses (Expr.names (Expr.partsAll elems))) (elements size offset elems ctx d) em
      (Traced (.elements size offset elems) ctx d em) := by
  cases elems with
  | nil =>
    rw [elements]
    exact .pure ⟨_, by simp, .noElement size offset⟩
  | cons elem elems =>
    rw [elements, Expr.partsAll, Expr.names_append]
    refine ((operand_makes (expr_makes elem) ctx d em).weaken (List.subset_append_left _ _)).bind
      fun code em₁ ⟨items, hitems, hemitted⟩ => ?_
    have hothers := elements_makes size (offset + size) elems ctx d em₁
    refine (hothers.weaken (List.subset_append_right _ _)).bind
      fun code' em₂ ⟨others, hothers, hemitted'⟩ => ?_
    exact .pure ⟨_, by simp [hitems, hothers], .element hemitted hemitted'⟩

end

/-- How code is made for a part. -/
abbrev Part.emit : Part → Context → Depth → Emit (List Instr)
  | .expr e => Emission.expr e
  | .operand e => Emission.operand (Emission.expr e)
  | .selections size indices => Emission.selections size indices
  | .args es => pushArgs es
  | .elements size offset elems => Emission.elements size offset elems

theorem slot_of_lookup {ctx : Context} {name : String} {slot : Slot}
    (hslot : ctx.slots.lookup? name (fun _ => true) = some slot) (em : Emitter) :
    ctx.slot name em = .ok (slot, em) := by
  rw [Context.slot, hslot]
  rfl

/-- What `Emitted` says is the code that is made. -/
theorem Emitted.emit_eq {part : Part} {ctx : Context} {d : Depth} {em em' : Emitter}
    {items : List Item} (h : Emitted part ctx d em items em') :
    ∃ code, part.emit ctx d em = .ok (code, em') ∧ Item.code items = Code.ofInstrs code := by
  induction h with
  | int type value =>
    exact ⟨[.ldr _ (.literal value.toInt)], by rw [Part.emit, Emission.expr]; rfl, rfl⟩
  | bool type value =>
    exact ⟨[.mov _ (.imm (if value then 1 else 0))], by rw [Part.emit, Emission.expr]; rfl, rfl⟩
  | char type value =>
    exact ⟨[.mov _ (.imm value.toNat)], by rw [Part.emit, Emission.expr]; rfl, rfl⟩
  | str type value => exact ⟨[.ldr _ (.address _)], by rw [Part.emit, Emission.expr]; rfl, rfl⟩
  | null type => exact ⟨[.ldr _ (.literal 0)], by rw [Part.emit, Emission.expr]; rfl, rfl⟩
  | var type hslot =>
    refine ⟨_, ?_, Context.code_access _ _⟩
    rw [Part.emit, Emission.expr, Emit.bind_of_ok (slot_of_lookup hslot _)]
    rfl
  | elem hslot _ ih =>
    obtain ⟨code, hok, hcode⟩ := ih
    apply Exists.intro
    constructor
    · rw [Part.emit, Emission.expr, Emit.bind_of_ok (slot_of_lookup hslot _), Emit.bind_of_ok hok]
      rfl
    · simp [hcode]
  | side _ hcheck ih =>
    obtain ⟨code, hok, hcode⟩ := ih
    apply Exists.intro
    constructor
    · rw [Part.emit, Emission.expr, Emit.bind_of_ok hok, Emit.bind_of_ok hcheck]
      rfl
    · simp [hcode]
  | unary _ hop ih =>
    obtain ⟨code, hok, hcode⟩ := ih
    apply Exists.intro
    constructor
    · rw [Part.emit, Emission.expr, Emit.bind_of_ok hok, Emit.bind_of_ok hop]
      rfl
    · simp [hcode]
  | binary _ _ hop ihl ihr =>
    obtain ⟨lcode, hlok, hlcode⟩ := ihl
    obtain ⟨rcode, hrok, hrcode⟩ := ihr
    apply Exists.intro
    constructor
    · rw [Part.emit, Emission.expr, Emit.bind_of_ok hlok, Emit.bind_of_ok hrok, Emit.bind_of_ok hop]
      rfl
    · simp [hlcode, hrcode]
  | call _ ih =>
    obtain ⟨code, hok, hcode⟩ := ih
    apply Exists.intro
    constructor
    · rw [Part.emit, Emission.expr, Emit.bind_of_ok hok]
      rfl
    · simp [hcode]
  | newPair _ _ ihf ihs =>
    obtain ⟨fcode, hfok, hfcode⟩ := ihf
    obtain ⟨scode, hsok, hscode⟩ := ihs
    apply Exists.intro
    constructor
    · rw [Part.emit, Emission.expr, Emit.bind_of_ok hfok, Emit.bind_of_ok hsok]
      rfl
    · simp [hfcode, hscode]
  | array _ ih =>
    obtain ⟨code, hok, hcode⟩ := ih
    apply Exists.intro
    constructor
    · rw [Part.emit, Emission.expr, Emit.bind_of_ok hok]
      rfl
    · simp [hcode]
  | spilled hlast _ ih =>
    obtain ⟨code, hok, hcode⟩ := ih
    apply Exists.intro
    constructor
    · rw [Part.emit, Emission.operand, if_pos hlast, Emit.bind_of_ok hok]
      rfl
    · simp [hcode]
  | next hmore _ ih =>
    obtain ⟨code, hok, hcode⟩ := ih
    refine ⟨code, ?_, hcode⟩
    rw [Part.emit, Emission.operand, hmore]
    exact hok
  | noSelection =>
    refine ⟨[], ?_, rfl⟩
    rw [Part.emit, Emission.selections]
    rfl
  | selection _ hselect _ ih iho =>
    obtain ⟨code, hok, hcode⟩ := ih
    obtain ⟨others, hook, hocode⟩ := iho
    apply Exists.intro
    constructor
    · rw [Part.emit, Emission.selections, Emit.bind_of_ok hok, Emit.bind_of_ok hselect,
        Emit.bind_of_ok hook]
      rfl
    · simp [hcode, hocode]
  | noArg =>
    refine ⟨[], ?_, rfl⟩
    rw [Part.emit, Emission.pushArgs]
    rfl
  | arg _ _ iho ih =>
    obtain ⟨others, hook, hocode⟩ := iho
    obtain ⟨code, hok, hcode⟩ := ih
    apply Exists.intro
    constructor
    · rw [Part.emit, Emission.pushArgs, Emit.bind_of_ok hook, Emit.bind_of_ok hok]
      rfl
    · simp [hcode, hocode]
  | noElement =>
    refine ⟨[], ?_, rfl⟩
    rw [Part.emit, Emission.elements]
    rfl
  | element _ _ ih iho =>
    obtain ⟨code, hok, hcode⟩ := ih
    obtain ⟨others, hook, hocode⟩ := iho
    apply Exists.intro
    constructor
    · rw [Part.emit, Emission.elements, Emit.bind_of_ok hok, Emit.bind_of_ok hook]
      rfl
    · simp [hcode, hocode]

section

variable {em em' : Emitter} {code : List Instr}

theorem unary_grows {op : UnaryOp} {reg : Register} (h : unary op reg em = .ok (code, em')) :
    em.Grows em' := by
  cases op with
  | negate =>
    cases h
    exact em.grows_require _
  | not | len | ord | chr =>
    cases h
    exact .refl em

theorem binary_grows {op : BinaryOp} {d : Depth} (h : binary op d em = .ok (code, em')) :
    em.Grows em' := by
  cases op with
  | add | sub | mul | div | rem =>
    cases h
    exact em.grows_require _
  | gt | ge | lt | le | eq | ne | and | or =>
    cases h
    exact .refl em

theorem nullCheck_grows {reg : Register} (h : nullCheck reg em = .ok (code, em')) :
    em.Grows em' := by
  cases h
  exact em.grows_require _

theorem select_grows {width : Nat} {d : Depth} (h : select width d em = .ok (code, em')) :
    em.Grows em' := by
  cases h
  exact em.grows_require _

end

/-- The code of an expression takes nothing back. -/
theorem Emitted.grows {part : Part} {ctx : Context} {d : Depth} {em em' : Emitter}
    {items : List Item} (h : Emitted part ctx d em items em') : em.Grows em' := by
  induction h with
  | int | bool | char | null | var | noSelection | noArg | noElement => exact .refl _
  | str => exact Emitter.grows_intern _ _
  | elem _ _ ih | call _ ih | array _ ih | spilled _ _ ih | next _ _ ih => exact ih
  | side _ hcheck ih => exact ih.trans (nullCheck_grows hcheck)
  | unary _ hop ih => exact ih.trans (unary_grows hop)
  | binary _ _ hop ihl ihr => exact (ihl.trans ihr).trans (binary_grows hop)
  | newPair _ _ ihf ihs => exact ihf.trans ihs
  | selection _ hselect _ ih iho => exact (ih.trans (select_grows hselect)).trans iho
  | arg _ _ iho ih => exact iho.trans ih
  | element _ _ ih iho => exact ih.trans iho

end Emission

end WaccArm
