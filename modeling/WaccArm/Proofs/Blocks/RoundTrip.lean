import WaccArm.Proofs.Blocks.Reads

namespace WaccArm

open Scalar Emission Arrays Blocks

namespace Blocks

/-- Wherever `name[i]` is accepted for a variable of an array type, its code reads the values from a block
that the variable refers to and that is as in `mem`. -/
def ElementsRead (array : Ty) (mem : Memory) (block : Word) (vs : List Int) : Prop :=
  ∀ (env : Env) (pos : Pos) (name : String) (i : Source.Expr) (c : Checked.Expr),
    Checker.variableTypes env name = some array → Checker.isPlain (Checker.variableTypes env) i →
    Checker.expr env (.elem pos name [i]) = .ok c →
    ∃ elem index, array.index? 1 = some elem ∧ c = .elem elem name [index] ∧
      ∀ (ctx : Context) (slot : Slot) (d : Depth) (em : Emitter),
        Covers ctx (Checker.variableTypes env) → ctx.slots.lookup? name (fun _ => true) = some slot →
        ∃ code em', Emission.expr c ctx d em = .ok (code, em') ∧
          ∀ (M : Machine) (u : State) (values : Values) (held stack : Set Word),
            Prepared M code em' ctx (Checker.variableTypes env) values held stack (indicesRoom [index] d) u →
            Word.span (slotAddress ctx slot u) 4 ⊆ held →
            Word.span block (4 + vs.length * elem.size) ⊆ held →
            u.mem.readWord (slotAddress ctx slot u) = block →
            (∀ a ∈ Word.span block (4 + vs.length * elem.size), u.mem a = mem a) →
            ∀ (k : Nat) (v : Int), vs[k]? = some v → eval values index = .ok (k : Int) →
              M.Computes d u (u.pc + code.length) (.ok (stored elem v))

/-- The value of a side of a pair. -/
def sideOf (v w : Int) : Side → Int
  | .fst => v
  | .snd => w

/-- Wherever a side of a variable of a pair type is accepted, its code reads the value from a block that the
variable refers to and that is as in `mem`. -/
def SidesRead (pair : Ty) (mem : Memory) (block : Word) (value : Side → Int) : Prop :=
  ∀ (env : Env) (pos pos' : Pos) (name : String) (which : Side) (c : Checked.Expr),
    Checker.variableTypes env name = some pair →
    Checker.expr env (.side pos which (.var pos' name)) = .ok c →
    ∃ type, pair.side? which = some type ∧ c = .side type which (.var pair name) ∧
      ∀ (ctx : Context) (slot : Slot) (d : Depth) (em : Emitter),
        ctx.slots.lookup? name (fun _ => true) = some slot → slot.size = 4 →
        ∃ code em', Emission.expr c ctx d em = .ok (code, em') ∧
          ∀ (M : Machine) (u : State) (values : Values) (held stack : Set Word),
            Prepared M code em' ctx (Checker.variableTypes env) values held stack 4 u →
            Word.span (slotAddress ctx slot u) 4 ⊆ held → Word.span block 8 ⊆ held →
            u.mem.readWord (slotAddress ctx slot u) = block → (∀ a ∈ Word.span block 8, u.mem a = mem a) →
            M.Computes d u (u.pc + code.length) (.ok (stored type (value which)))

variable {elem : Ty} {mem mem' : Memory} {block : Word} {vs : List Int}

/-- An array stays as long as its block does. -/
theorem ArrayAt.congr (h : ArrayAt elem mem block vs)
    (hmem : ∀ a ∈ Word.span block (4 + vs.length * elem.size), mem' a = mem a) :
    ArrayAt elem mem' block vs where
  length := by
    rw [← h.length]
    congr 1
    exact Memory.readWord_of_span fun a ha => hmem a (Word.span_mono (Nat.le_add_right 4 _) ha)
  value i v hv := by
    obtain ⟨hi, -⟩ := List.getElem?_eq_some_iff.1 hv
    rw [← h.value i v hv]
    congr 1
    exact Memory.load_of_span (size_eq elem) fun a ha => hmem a (element_subset hi ha)

/-- The elements of an array are read through any variable of its type. -/
theorem ArrayAt.elementsRead {array : Ty} (helem : array.index? 1 = some elem)
    (h : ArrayAt elem mem block vs) : ElementsRead array mem block vs := by
  intro env pos name i c hname hplain hok
  rw [Checker.expr] at hok
  obtain ⟨array', harray, hok⟩ := except_bind_eq_ok.1 hok
  obtain rfl : array = array' := Option.some.inj (hname.symm.trans (Checker.variableTypes_of_ok harray))
  obtain ⟨cs, hcs, hok⟩ := except_bind_eq_ok.1 hok
  obtain ⟨hforall, hints⟩ := Checker.indexList_eq_ok.1 hcs
  obtain ⟨index, hindex, rfl⟩ : ∃ index, Checker.expr env i = .ok index ∧ cs = [index] := by
    cases hforall with
    | cons hi hnil =>
      cases hnil
      exact ⟨_, hi, rfl⟩
  simp only [List.length_singleton, helem] at hok
  cases hok
  refine ⟨elem, index, helem, rfl, ?_⟩
  intro ctx slot d em hcovers hslot
  have htyped := Checker.typed_of_plain i hindex hplain
  rw [eq_of_compatible htyped.isScalar rfl (hints index (List.mem_singleton_self _))] at htyped
  obtain ⟨code, em', hcode, hrun⟩ := element_read htyped hcovers hslot elem d em
  refine ⟨code, em', hcode, ?_⟩
  intro M u values held stack hprepared hslotHeld hblockHeld hword hsame k v hv hk
  exact hrun hprepared hslotHeld hblockHeld hword (h.congr hsame) k v hv hk

/-- The sides of a pair are read through any variable of its type. -/
theorem PairAt.sidesRead {fst snd : Option Ty} {v w : Int} (hne : block ≠ 0)
    (h : PairAt (fst.getD .anyPair) (snd.getD .anyPair) mem block v w) :
    SidesRead (.pair fst snd) mem block (sideOf v w) := by
  intro env pos pos' name which c hname hok
  rw [Checker.expr, Checker.expr] at hok
  obtain ⟨pair, hpair, hok⟩ := except_bind_eq_ok.1 hok
  obtain ⟨type, htype, hpair⟩ := except_bind_eq_ok.1 hpair
  obtain rfl := Option.some.inj (hname.symm.trans (Checker.variableTypes_of_ok htype))
  cases hpair
  have hside : ∃ type, (Ty.pair fst snd).side? which = some type ∧
      (mem.load type.size (sideAt block which)).toInt = stored type (sideOf v w which) := by
    cases which with
    | fst => exact ⟨_, rfl, h.fst⟩
    | snd => exact ⟨_, rfl, h.snd⟩
  obtain ⟨type, htype, hvalue⟩ := hside
  simp only [Expr.note, htype] at hok
  cases hok
  refine ⟨type, htype, rfl, ?_⟩
  intro ctx slot d em hslot hsize
  obtain ⟨code, em', hcode, hrun⟩ := side_read (Checker.variableTypes env) hslot hsize
    (.pair fst snd) type which d em
  refine ⟨code, em', hcode, ?_⟩
  intro M u values held stack hprepared hslotHeld hblockHeld hword hsame
  have hread := hrun hprepared hslotHeld hblockHeld hne hword
  obtain ⟨offset, hoffset, heq⟩ := sideAt_eq block which
  have hload : u.mem.load type.size (sideAt block which) = mem.load type.size (sideAt block which) := by
    refine Memory.load_of_span (size_eq type) fun a ha => hsame a ?_
    rw [heq] at ha
    refine Word.span_add_subset ?_ ha
    rcases size_eq type with hbytes | hbytes <;> omega
  rw [hload, hvalue] at hread
  exact hread

end Blocks

/-- Code is made for every array literal and every new pair that is accepted, at every depth, if their parts
are variables or expressions over integers, booleans and characters. It asks for a block of the right size
and ends with its address in the register of the depth, unless a part traps. For every written type that the
type of a literal is compatible with, the block has the length and the values where the elements of a variable
of that type are read. For every pair type whose sides fit the parts, it has the values where the sides of a
variable of that type are read. -/
theorem constructed_blocks_read_back {env : Env}
    (henv : ∀ name type, Checker.variableTypes env name = some type → type.Declarable) {ctx : Context}
    (hcovers : Covers ctx (asWords (Checker.variableTypes env))) (d : Depth) (em : Emitter) :
    (∀ (pos : Pos) (elems : List Source.Expr) (type : Ty) (cs : List Checked.Expr) (written : TypeExpr),
      Checker.expr env (.array pos elems) = .ok (.array type cs) →
      (∀ e ∈ elems, Checker.isElement (Checker.variableTypes env) e) →
      type.compatible (.ofExpr written) →
      ∃ elem code em', (Ty.ofExpr written).index? 1 = some elem ∧
        Emission.expr (.array type cs) ctx d em = .ok (code, em') ∧
        ∀ (M : Machine) (s : State) (values : Values) (held stack : Set Word),
          4 + cs.length * elem.size < 2 ^ 31 →
          Prepared M code em' ctx (asWords (Checker.variableTypes env)) values held stack
            (operandsRoom cs d) s →
          M.Allocates held stack (4 + cs.length * elem.size) →
          M.Yields s (fun vs t => ∃ block,
            Built M held stack d s t (s.pc + code.length) (4 + cs.length * elem.size) block ∧
            vs.length = cs.length ∧ ArrayAt elem t.mem block vs ∧
            ElementsRead (.ofExpr written) t.mem block vs) (evalAll values cs)) ∧
    (∀ (pos : Pos) (a b : Source.Expr) (type : Ty) (ca cb : Checked.Expr) (fst snd : Option Ty),
      Checker.expr env (.newPair pos a b) = .ok (.newPair type ca cb) →
      Checker.isElement (Checker.variableTypes env) a → Checker.isElement (Checker.variableTypes env) b →
      Ty.SideFits ca.note fst → Ty.SideFits cb.note snd →
      ∃ code em', Emission.expr (.newPair type ca cb) ctx d em = .ok (code, em') ∧
        ∀ (M : Machine) (s : State) (values : Values) (held stack : Set Word),
          Prepared M code em' ctx (asWords (Checker.variableTypes env)) values held stack
            (operandsRoom [ca, cb] d) s →
          M.Allocates held stack 8 →
          M.Yields s (fun vw t => ∃ block,
            Built M held stack d s t (s.pc + code.length) 8 block ∧
            PairAt (fst.getD .anyPair) (snd.getD .anyPair) t.mem block vw.1 vw.2 ∧
            SidesRead (.pair fst snd) t.mem block (sideOf vw.1 vw.2))
            (do
              let v ← eval values ca
              let w ← eval values cb
              return (v, w))) := by
  constructor
  · intro pos elems type cs written hok helems hcompatible
    obtain ⟨hforall, htype⟩ := Checker.array_of_ok hok
    have hcs := Checker.elements_of_forall₂ hforall helems
    have helem : ∃ elem, (Ty.ofExpr written).index? 1 = some elem ∧
        (cs ≠ [] → elemSize cs = elem.size) := by
      rcases htype with ⟨rfl, rfl⟩ | ⟨first, others, rfl, rfl⟩
      · obtain ⟨elem, helem⟩ := Ty.index_one_of_emptyArray hcompatible
        exact ⟨elem, helem, fun hne => absurd rfl hne⟩
      · have hfirst := (hcs first (List.mem_cons_self ..)).declarable henv
        obtain ⟨elem, helem, hsize⟩ :=
          Ty.size_of_index_one hfirst (Ty.written_ofExpr written) hcompatible
        exact ⟨elem, helem, fun _ => hsize.symm⟩
    obtain ⟨elem, helem, hsize⟩ := helem
    obtain ⟨code, em', hcode, hrun⟩ := array_built hcs hcovers hsize type d em
    refine ⟨elem, code, em', helem, hcode, ?_⟩
    intro M s values held stack hbytes hprepared halloc
    refine (hrun hbytes hprepared halloc).imp ?_
    rintro vs t ⟨block, hbuilt, hlen, harray⟩
    exact ⟨block, hbuilt, hlen, harray, harray.elementsRead helem⟩
  · intro pos a b type ca cb fst snd hok ha hb hfst hsnd
    rw [Checker.expr] at hok
    obtain ⟨ca', hca, hok⟩ := except_bind_eq_ok.1 hok
    obtain ⟨cb', hcb, hok⟩ := except_bind_eq_ok.1 hok
    cases hok
    obtain ⟨code, em', hcode, hrun⟩ := pair_built (Checker.element_of_expr hca ha)
      (Checker.element_of_expr hcb hb) hcovers (Ty.size_of_sideFits hfst) (Ty.size_of_sideFits hsnd) _ d em
    refine ⟨code, em', hcode, ?_⟩
    intro M s values held stack hprepared halloc
    refine (hrun hprepared halloc).imp ?_
    rintro vw t ⟨block, hbuilt, hpair⟩
    exact ⟨block, hbuilt, hpair, hpair.sidesRead hbuilt.fresh.ne_zero⟩

namespace Letters

/-- A character `c` and a string `s`. -/
def env : Env := [[("c", .variable .char), ("s", .variable .str)]]

def context : Context := ⟨[[("c", ⟨5, 1⟩), ("s", ⟨4, 4⟩)]], ⟨5, [⟨0, 5, 5⟩]⟩⟩

/-- The elements of `['a', c]`. -/
def elems : List Source.Expr := [.char ⟨1, 0⟩ 97, .var ⟨1, 5⟩ "c"]

def checkedElems : List Checked.Expr := [.char .char 97, .var .char "c"]

/-- The instructions of an expression, with no register left. -/
def code (e : Checked.Expr) : List Instr :=
  match Emission.expr e context (.nested 6) {} with
  | .ok (code, _) => code
  | .error _ => []

def literal : Checked.Expr := .array (.array (some .char) 1) checkedElems

/-- `s[1]`. -/
def second : Checked.Expr := .elem .char "s" [.int .int 1]

/-- `newpair(c, s)`. -/
def pair : Checked.Expr := .newPair (.pair (some .char) (some .str)) (.var .char "c") (.var .str "s")

def routines : List Routine := [.checkArrayBounds, .throwRuntimeError, .printString]

/-- The machine for an expression. The allocator gives one block. -/
def machine (e : Checked.Expr)
    (hsize : (Machine.linkedText (Code.ofInstrs (code e)) routines).length < 2 ^ 32) : Machine :=
  { Machine.linked (Code.ofInstrs (code e)) routines hsize with
    external := fun name s =>
      if name = "malloc" then some (s.set .r0 0x2000) else Machine.divide name s }

/-- The value of `c` is in the byte at the stack pointer, and `s` in the word after it. -/
def start : State where
  regs r := if r = .sp then 0x8000 else 0
  flags := ⟨false, false, false, false⟩
  mem a := if a = 0x8000 then 98 else 0
  pc := 0

/-- A part of the program where only `s` is left. -/
def readEnv : Env := [[("s", .variable .str)]]

/-- The start with other memory in which `s` refers to a block. -/
def assigned (mem : Memory) (block : Word) : State := { start with mem := mem.writeWord 0x8001 block }

/-- The bytes of the variables. -/
def cells : Set Word := Word.span 0x8000 5

/-- The bytes below the stack pointer. -/
def below : Set Word := start.below 8

def valueOf : Values
  | "c" => some 98
  | "s" => some 0
  | _ => none

/-- The variables are `c` and `s`. -/
theorem types_cases {name : String} {type : Ty} (h : Checker.variableTypes env name = some type) :
    name = "c" ∧ type = .char ∨ name = "s" ∧ type = .str := by
  by_cases hc : name = "c"
  · subst hc
    cases h
    exact .inl ⟨rfl, rfl⟩
  by_cases hs : name = "s"
  · subst hs
    cases h
    exact .inr ⟨rfl, rfl⟩
  · simp [Checker.variableTypes, env, Chain.lookup?, Scope.lookup?, Scope.decls, Ne.symm hc, Ne.symm hs] at h

theorem words_cases {name : String} {type : Ty} (h : asWords (Checker.variableTypes env) name = some type) :
    name = "c" ∧ type = .char ∨ name = "s" ∧ type = .int := by
  obtain ⟨declared, hdeclared, rfl⟩ := Option.map_eq_some_iff.1 h
  rcases types_cases hdeclared with ⟨rfl, rfl⟩ | ⟨rfl, rfl⟩
  · exact .inl ⟨rfl, rfl⟩
  · exact .inr ⟨rfl, rfl⟩

theorem eq_str {name : String} {type : Ty} (h : Checker.variableTypes readEnv name = some type) :
    type = .str := by
  by_cases hs : name = "s"
  · subst hs
    cases h
    rfl
  · simp [Checker.variableTypes, readEnv, Chain.lookup?, Scope.lookup?, Scope.decls, Ne.symm hs] at h

theorem declarable (name : String) (type : Ty) (h : Checker.variableTypes env name = some type) :
    type.Declarable := by
  rcases types_cases h with ⟨-, rfl⟩ | ⟨-, rfl⟩
  · exact Ty.declarable_of_isScalar rfl
  · exact ⟨.string, [Grammar.word .string ⟨1, 0⟩], .element (.base .string), rfl⟩

theorem covers : Covers context (asWords (Checker.variableTypes env)) := by
  intro name type h _
  rcases words_cases h with ⟨rfl, rfl⟩ | ⟨rfl, rfl⟩
  · exact ⟨⟨5, 1⟩, rfl, rfl⟩
  · exact ⟨⟨4, 4⟩, rfl, rfl⟩

/-- Both variables lie in the frame. -/
theorem storage_subset {s : State} (hsp : s.regs .sp = 0x8000) :
    storage context (asWords (Checker.variableTypes env)) s ⊆ cells := by
  have htop : s.top = 0x8000 := by rw [State.top, hsp]; rfl
  rintro a ⟨name, type, slot, hname, -, hslot, ha⟩
  rw [htop] at ha
  rw [cells, Word.mem_span]
  rcases words_cases hname with ⟨rfl, rfl⟩ | ⟨rfl, rfl⟩
  · cases hslot
    have hbyte : (a - 0x8000).toNat < 1 := ha
    omega
  · cases hslot
    have hword : (a - 0x8001).toNat < 4 := ha
    bv_omega

/-- The memory holds the values of both variables. -/
theorem represents : Represents context (asWords (Checker.variableTypes env)) valueOf start := by
  intro name type slot hname _ hslot
  rcases words_cases hname with ⟨rfl, rfl⟩ | ⟨rfl, rfl⟩
  · cases hslot
    exact ⟨98, 0x8000, rfl, by simp, rfl, Nat.le_refl 0x8000, by decide, by decide⟩
  · cases hslot
    exact ⟨0, 0x8001, rfl, by simp, rfl, by decide, by decide, by decide⟩

theorem cells_apart : ∀ a ∈ cells, a ∉ below := by
  intro a ha hbelow
  have htop : start.top = 0x8000 := rfl
  rw [below, State.mem_below, htop] at hbelow
  rw [cells, Word.mem_span] at ha
  bv_omega

variable {e : Checked.Expr} {hsize : (Machine.linkedText (Code.ofInstrs (code e)) routines).length < 2 ^ 32}

/-- The machine can evaluate the parts of both expressions. -/
theorem prepared {em : Emitter} {types : Types} {values : Values} {held : Set Word} {n : Nat} {s : State}
    (hnodup : (Assembly.defined (Machine.linkedText (Code.ofInstrs (code e)) routines)).Nodup)
    (hdivision : "__aeabi_idiv" ∉ Assembly.defined (Machine.linkedText (Code.ofInstrs (code e)) routines) ∧
      "__aeabi_idivmod" ∉ Assembly.defined (Machine.linkedText (Code.ofInstrs (code e)) routines))
    (hroutines : em.routines ⊆ routines) (hpc : s.pc = 0) (hsp : s.regs .sp = 0x8000)
    (hn : n ≤ 8) (hrep : Represents context types values s) (hstorage : storage context types s ⊆ held)
    (happart : ∀ a ∈ held, a ∉ below) :
    Prepared (machine e hsize) (code e) em context types values held below n s := by
  have htop : s.top = start.top := by rw [State.top, hsp]; rfl
  have hstack : Access.Stack ⟨Set.univ, below⟩ s n :=
    (Access.Stack.mono ⟨show 8 ≤ 0x8000 by decide, Set.subset_univ _, fun _ ha => ha⟩ hn).of_top_eq htop
  have hdivides : (Machine.linked (Code.ofInstrs (code e)) routines hsize).Divides :=
    Machine.linked_divides hdivision.1 hdivision.2
  have hwithin : (Machine.linked (Code.ofInstrs (code e)) routines hsize).DivisionWithin below :=
    Machine.linked_divisionWithin below
  refine ⟨?_, ?_, ?_, ?_, hrep, hstorage, hstack.room, hstack.stores, happart⟩
  · rw [hpc]
    exact Machine.holds_of_text rfl hnodup
  · exact Machine.providesAll_of_text rfl rfl hnodup (by decide) hroutines
  · exact ⟨hdivides.quotient_outside, hdivides.remainder_outside, hdivides.quotient, hdivides.remainder⟩
  · rintro name s t (rfl | rfl) hdivide
    · exact hwithin _ s t (.inl rfl) hdivide
    · exact hwithin _ s t (.inr rfl) hdivide

/-- Blocks of a few bytes can be had. -/
theorem allocates {bytes : Nat} (hbytes : bytes ≤ 8)
    (hmalloc : "malloc" ∉ Assembly.defined (Machine.linkedText (Code.ofInstrs (code e)) routines)) :
    (machine e hsize).Allocates cells below bytes := by
  refine ⟨List.idxOf?_eq_none_iff.2 fun hmem => hmalloc (List.mem_filterMap.2 ⟨_, hmem, rfl⟩), ?_⟩
  intro s _
  refine ⟨s.set .r0 0x2000, rfl, fun r hr => ?_, fun a _ => rfl, by simp, fun a ha => ?_⟩
  · revert r
    simp [calleeSaved]
  · have hblock : (a - 0x2000).toNat < bytes := ha
    have htop : start.top = 0x8000 := rfl
    rintro (hmem | hmem)
    · rw [cells, Word.mem_span] at hmem
      bv_omega
    · rw [below, State.mem_below, htop] at hmem
      bv_omega

theorem slot_subset : Word.span 0x8001 4 ⊆ cells := by
  intro a ha
  rw [Word.mem_span] at ha
  rw [cells, Word.mem_span]
  bv_omega

/-- The string is no scalar variable, so nothing is asked of the memory. -/
theorem readable (held : Set Word) (s : State) :
    Covers context (Checker.variableTypes readEnv) ∧
      Represents context (Checker.variableTypes readEnv) valueOf s ∧
      storage context (Checker.variableTypes readEnv) s ⊆ held := by
  refine ⟨fun name type hname hscalar => ?_, fun name type _ hname hscalar => ?_, ?_⟩
  · rw [eq_str hname] at hscalar
    cases hscalar
  · rw [eq_str hname] at hscalar
    cases hscalar
  · rintro a ⟨name, type, slot, hname, hscalar, -⟩
    rw [eq_str hname] at hscalar
    cases hscalar

end Letters

/-- With no register left, `['a', c]` is built, and `s[1]` is read from it as the character that `c` has. A
pair of `c` and `s` is built too. -/
theorem letters_read_back :
    (∃ t block, (Letters.machine Letters.literal (by decide)).Reaches Letters.start t ∧
      t.regs .r11 = block ∧ ArrayAt .char t.mem block [97, 98] ∧
      (Letters.machine Letters.second (by decide)).Computes (.nested 6) (Letters.assigned t.mem block)
        (Letters.code Letters.second).length (.ok 98)) ∧
    ∃ t block, (Letters.machine Letters.pair (by decide)).Reaches Letters.start t ∧
      t.regs .r11 = block ∧ PairAt .char .str t.mem block 98 0 := by
  obtain ⟨harrays, hpairs⟩ :=
    constructed_blocks_read_back Letters.declarable Letters.covers (.nested 6) {}
  constructor
  · have hok : Checker.expr Letters.env (.array ⟨1, 0⟩ Letters.elems) =
        .ok (.array (.array (some .char) 1) Letters.checkedElems) := rfl
    obtain ⟨elem, code, em, helem, hcode, hrun⟩ := harrays ⟨1, 0⟩ Letters.elems _ _ .string hok
      (by decide) (by decide)
    cases helem
    cases hcode
    have hyields := hrun (Letters.machine Letters.literal (by decide)) Letters.start Letters.valueOf
      Letters.cells Letters.below (by decide)
      (Letters.prepared (by decide) (by decide) (by decide +kernel) rfl rfl (by decide) Letters.represents
        (Letters.storage_subset rfl) Letters.cells_apart)
      (Letters.allocates (by decide) (by decide))
    obtain ⟨t, hreach, block, hbuilt, -, harray, hread⟩ := hyields
    refine ⟨t, block, hreach, hbuilt.reg, harray, ?_⟩
    obtain ⟨elem, index, helem, hc, hread⟩ := hread Letters.readEnv ⟨1, 0⟩ "s" (.int ⟨1, 2⟩ 1)
      Letters.second rfl rfl rfl
    cases helem
    cases hc
    let u := Letters.assigned t.mem block
    have hheld : ∀ a ∈ Letters.cells ∪ Word.span block 6, a ∉ Letters.below := by
      rintro a (ha | ha)
      · exact Letters.cells_apart a ha
      · exact fun hmem => hbuilt.fresh.apart a ha (.inr hmem)
    obtain ⟨hcovers, hrep, hstorage⟩ := Letters.readable (Letters.cells ∪ Word.span block 6) u
    obtain ⟨code, em, hcode, hrun⟩ := hread Letters.context ⟨4, 4⟩ (.nested 6) {} hcovers rfl
    cases hcode
    have hsame : ∀ a ∈ Word.span block 6, u.mem a = t.mem a := by
      intro a ha
      have hother : a ∉ Word.span 0x8001 4 :=
        fun hmem => hbuilt.fresh.apart a ha (.inl (Letters.slot_subset hmem))
      have hstore : t.mem.store 4 0x8001 block a = t.mem a :=
        Memory.store_of_not_mem_span block (.inr rfl) hother
      exact hstore
    exact hrun (Letters.machine Letters.second (by decide)) u Letters.valueOf _ Letters.below
      (Letters.prepared (by decide) (by decide) (by decide +kernel) rfl rfl (by decide) hrep hstorage hheld)
      (Letters.slot_subset.trans Set.subset_union_left) Set.subset_union_right
      (Memory.readWord_writeWord t.mem 0x8001 block) hsame 1 98 rfl rfl
  · obtain ⟨code, em, hcode, hrun⟩ := hpairs ⟨1, 0⟩ (.var ⟨1, 8⟩ "c") (.var ⟨1, 11⟩ "s") _ _ _
      (some .char) (some .str) rfl rfl rfl rfl rfl
    cases hcode
    have hyields := hrun (Letters.machine Letters.pair (by decide)) Letters.start Letters.valueOf
      Letters.cells Letters.below
      (Letters.prepared (by decide) (by decide) (by decide +kernel) rfl rfl (by decide) Letters.represents
        (Letters.storage_subset rfl) Letters.cells_apart)
      (Letters.allocates (by decide) (by decide))
    obtain ⟨t, hreach, block, hbuilt, hpair, -⟩ := hyields
    exact ⟨t, block, hreach, hbuilt.reg, hpair⟩

end WaccArm
