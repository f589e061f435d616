import WaccArm.Proofs.Blocks.Storing

namespace WaccArm.Blocks

open Scalar Emission Arrays Machine

variable {M : Machine} {held stack : Set Word} {d : Depth} {s t u : State} {block : Word}
  {ctx : Context} {types : Types} {type : Ty}

/-- The values of expressions, from left to right. -/
def evalAll (values : Values) : List Checked.Expr → Except Trap (List Int)
  | [] => .ok []
  | e :: es => do
    let v ← eval values e
    let vs ← evalAll values es
    return v :: vs

def operandsRoom : List Checked.Expr → Depth → Nat
  | [], _ => 0
  | e :: es, d => max (operandRoom e d) (operandsRoom es d)

theorem offset_add (block : Word) (m n : Nat) :
    block + BitVec.ofNat 32 (m + n) = block + BitVec.ofNat 32 m + BitVec.ofNat 32 n := by
  rw [BitVec.ofNat_add, BitVec.add_assoc]

/-- What is stored stays, if it is not on the stack and all that follows is stored behind it. -/
theorem load_eq_of_confined {changed : Set Word} {offset : Nat} (h : Confined changed d s t)
    (happart : ∀ a ∈ Word.span (block + BitVec.ofNat 32 offset) type.size, a ∉ changed) :
    t.mem.load type.size (block + BitVec.ofNat 32 offset) =
      s.mem.load type.size (block + BitVec.ofNat 32 offset) :=
  Memory.load_of_span (size_eq type) fun a ha => h.mem a (happart a ha)

/-- Nothing is stored for no values. -/
theorem Filled.nil {offset : Nat} (hreg : s.regs d.reg = block) :
    Filled type stack d block offset s s s.pc [] where
  pc := rfl
  reg := hreg
  confined := ⟨rfl, fun _ _ => rfl, fun _ _ => rfl⟩
  value i v hv := by simp at hv

/-- Values are stored behind those that were stored before. -/
theorem Filled.append {offset stop stop' : Nat} {vs vs' : List Int}
    (h : Filled type stack d block offset s t stop vs)
    (h' : Filled type stack d block (offset + type.size * vs.length) t u stop' vs')
    (hend : offset + type.size * (vs.length + vs'.length) ≤ 2 ^ 32)
    (hstack : ∀ a ∈ Word.span (block + BitVec.ofNat 32 offset) (type.size * vs.length), a ∉ stack) :
    Filled type stack d block offset s u stop' (vs ++ vs') := by
  rw [Nat.mul_add] at hend
  refine ⟨h'.pc, h'.reg, ?_, ?_⟩
  · rw [List.length_append, Nat.mul_add]
    refine (h.confined.mono ?_).trans (h'.confined.mono ?_)
    · exact Set.union_subset_union_right _ (Word.span_mono (by omega))
    · refine Set.union_subset_union_right _ ?_
      rw [offset_add]
      exact Word.span_add_subset (Nat.le_refl _)
  · intro i v hv
    by_cases hi : i < vs.length
    · rw [List.getElem?_append_left hi] at hv
      rw [← h.value i v hv]
      have hlast : type.size * i + type.size ≤ type.size * vs.length := by
        rw [← Nat.mul_succ]
        exact Nat.mul_le_mul_left _ hi
      rw [load_eq_of_confined h'.confined]
      rintro a ha (hmem | hmem)
      · refine hstack a ?_ hmem
        rw [offset_add] at ha
        exact Word.span_add_subset hlast ha
      · exact Word.not_mem_span_add (by omega) (by omega) ha hmem
    · rw [List.getElem?_append_right (by omega)] at hv
      rw [← h'.value (i - vs.length) v hv]
      have hmul : type.size * i = type.size * vs.length + type.size * (i - vs.length) := by
        rw [← Nat.mul_add]
        congr 1
        omega
      rw [hmul, Nat.add_assoc]

/-- The elements of a literal are stored one after the other. -/
theorem elements_stored {es : List Checked.Expr} (hes : ∀ e ∈ es, Element types e)
    (hcovers : Covers ctx (asWords types)) (type : Ty) (offset : Nat) (d : Depth) (em : Emitter) :
    ∃ code em', Emission.elements type.size offset es ctx d em = .ok (code, em') ∧ em.Grows em' ∧
      ∀ {M : Machine} {held stack : Set Word} {s : State} {values : Values} {block : Word},
        Prepared M code em' ctx (asWords types) values held stack (operandsRoom es d) s →
        s.regs d.reg = block → offset + type.size * es.length ≤ 2 ^ 32 →
        (∀ a ∈ Word.span (block + BitVec.ofNat 32 offset) (type.size * es.length), a ∉ held ∪ stack) →
        M.Yields s (fun vs t => vs.length = es.length ∧
          Filled type stack d block offset s t (s.pc + code.length) vs) (evalAll values es) := by
  induction es generalizing offset em with
  | nil =>
    refine ⟨[], em, by rw [elements]; rfl, .refl em, ?_⟩
    intro M held stack s values block _ hreg _ _
    exact ⟨s, .refl s, rfl, .nil hreg⟩
  | cons e es ih =>
    obtain ⟨he, hes⟩ := List.forall_mem_cons.1 hes
    obtain ⟨code₁, em₁, hcode₁, hgrows₁, hrun₁⟩ := operand_stored he hcovers type offset d em
    obtain ⟨code₂, em₂, hcode₂, hgrows₂, hrun₂⟩ := ih hes (offset + type.size) em₁
    refine ⟨code₁ ++ storeInto type.size offset d ++ code₂, em₂, ?_, hgrows₁.trans hgrows₂, ?_⟩
    · rw [elements, Emit.bind_of_ok hcode₁, Emit.bind_of_ok hcode₂]
      rfl
    intro M held stack s values block hprepared hreg hend hfree
    rw [List.length_cons, Nat.mul_succ] at hend hfree
    rw [evalAll]
    refine (hrun₁ ((hprepared.left hgrows₂).mono (Nat.le_max_left _ _)) hreg).bind ?_
    intro v t _ hfirst
    have hspan : Word.span (block + BitVec.ofNat 32 offset) (type.size * [v].length) ⊆
        Word.span (block + BitVec.ofNat 32 offset) (type.size * es.length + type.size) :=
      Word.span_mono (by simp)
    -- the first value went to the stack and the free part of the block, so the variables are as they were
    have hprepared' := hprepared.right hfirst.pc hfirst.confined fun a ha hmem => by
      rcases hmem with hmem | hmem
      · exact hprepared.apart a ha hmem
      · exact hfree a (hspan hmem) (.inl ha)
    have hfree' : ∀ a ∈ Word.span (block + BitVec.ofNat 32 (offset + type.size)) (type.size * es.length),
        a ∉ held ∪ stack := by
      intro a ha
      rw [offset_add] at ha
      exact hfree a (Word.span_add_subset (by omega) ha)
    refine (hrun₂ (hprepared'.mono (Nat.le_max_right _ _)) hfirst.reg (by omega) hfree').bind ?_
    rintro vs u - ⟨hlen, hrest⟩
    refine ⟨u, .refl u, by rw [List.length_cons, List.length_cons, hlen], ?_⟩
    rw [hfirst.pc, Nat.add_assoc, ← List.length_append] at hrest
    have hnext : offset + type.size = offset + type.size * [v].length := by simp
    rw [hnext] at hrest
    refine hfirst.append hrest ?_ fun a ha hmem => hfree a (hspan ha) (.inr hmem)
    rw [hlen, List.length_singleton, Nat.mul_add]
    omega

/-- A new block at the end of some code: it was asked for with its size, and its address is in the register.
What evaluation at depth `d` keeps is kept, and so is the memory that is held. -/
structure Built (M : Machine) (held stack : Set Word) (d : Depth) (s t : State) (stop bytes : Nat)
    (block : Word) : Prop where
  obtained : M.Obtains s t bytes block
  fresh : Fresh (held ∪ stack) block bytes
  pc : t.pc = stop
  reg : t.regs d.reg = block
  confined : Confined heldᶜ d s t

/-- Memory has an array of such elements: the length, and then each value where reading an element looks for
it. -/
structure ArrayAt (elem : Ty) (mem : Memory) (block : Word) (vs : List Int) : Prop where
  length : (mem.readWord block).toNat = vs.length
  value : ∀ i v, vs[i]? = some v →
    (mem.load elem.size (elementAt block elem.size i)).toInt = stored elem v

/-- The address of a side of the pair at `block`. -/
def sideAt (block : Word) (which : Side) : Word := block + BitVec.ofInt 32 (sideOffset which)

/-- Memory has a pair with sides of the given types. -/
structure PairAt (fst snd : Ty) (mem : Memory) (block : Word) (v w : Int) : Prop where
  fst : (mem.load fst.size (sideAt block .fst)).toInt = stored fst v
  snd : (mem.load snd.size (sideAt block .snd)).toInt = stored snd w

/-- Elements lie behind the word of the length. -/
theorem elementAt_eq (block : Word) (width i : Nat) :
    elementAt block width i = block + BitVec.ofNat 32 (4 + width * i) :=
  (offset_add block 4 (width * i)).symm

/-- An element ends where the next one starts, at the latest at the end of the array. -/
theorem element_end {width i n : Nat} (hi : i < n) : 4 + width * i + width ≤ 4 + n * width := by
  rw [Nat.add_assoc, ← Nat.mul_succ, Nat.mul_comm n]
  exact Nat.add_le_add_left (Nat.mul_le_mul_left _ hi) 4

/-- An element is a part of the block. -/
theorem element_subset {width i n : Nat} (hi : i < n) :
    Word.span (elementAt block width i) width ⊆ Word.span block (4 + n * width) := by
  rw [elementAt_eq]
  exact Word.span_add_subset (element_end hi)

/-- What changes a block and the stack does not change what is held. -/
theorem held_of_changed {offset bytes n : Nat} (happart : ∀ a ∈ held, a ∉ stack)
    (hfresh : Fresh (held ∪ stack) block bytes) (hle : offset + n ≤ bytes) :
    ∀ a ∈ held, a ∉ stack ∪ Word.span (block + BitVec.ofNat 32 offset) n := by
  rintro a ha (hmem | hmem)
  · exact happart a ha hmem
  · exact hfresh.apart a (Word.span_add_subset hle hmem) (.inl ha)

/-- The length is stored in front of the elements. -/
theorem reaches_length {n : Nat} (hn : n < 2 ^ 32)
    (hcode : M.Holds s.pc (Code.ofInstrs [.ldr .r0 (.literal n), .store 4 .r0 (.mem d.reg 0)])) :
    ∃ t, M.Reaches s t ∧ t.pc = s.pc + 2 ∧ t.regs d.reg = s.regs d.reg ∧
      (t.mem.readWord (s.regs d.reg)).toNat = n ∧ Confined (Word.span (s.regs d.reg) 4) d s t := by
  let loaded : State := (s.set .r0 (BitVec.ofInt 32 n)).next
  have hreg : loaded.regs d.reg = s.regs d.reg := by simp [loaded, d.reg_ne.2.2.2.1]
  have haddress : loaded.address? (.mem d.reg 0) = some (s.regs d.reg) := by
    simp [State.address?, hreg]
  let written : State := { loaded with mem := s.mem.store 4 (s.regs d.reg) (BitVec.ofInt 32 n) }.next
  have hloaded : M.Reaches s loaded := .exec hcode rfl rfl
  have hwritten : M.Reaches loaded written := by
    refine .exec hcode.2.2 rfl ?_
    rw [exec_store haddress]
    rfl
  refine ⟨written, hloaded.trans hwritten, rfl, hreg, ?_, .of_regs (fun a ha => ?_) fun r hr => ?_⟩
  · change ((s.mem.writeWord (s.regs d.reg) (BitVec.ofInt 32 n)).readWord (s.regs d.reg)).toNat = n
    rw [Memory.readWord_writeWord, BitVec.ofInt_natCast, BitVec.toNat_ofNat]
    exact Nat.mod_eq_of_lt hn
  · exact Memory.store_of_not_mem_span _ (.inr rfl) ha
  · have hzero := (Depth.ne_of_kept hr).2.2.2.2.2.1
    simp [written, loaded, hzero]

/-- The code of an array literal does not depend on the size of the elements if there are none. -/
theorem expr_array {elem : Ty} {cs : List Checked.Expr} (hsize : cs ≠ [] → elemSize cs = elem.size)
    {em em' : Emitter} {code : List Instr}
    (hcode : elements elem.size 4 cs ctx d em = .ok (code, em')) :
    Emission.expr (.array type cs) ctx d em = .ok (allocate (4 + cs.length * elem.size) d.reg ++
      (code ++ [.ldr .r0 (.literal cs.length), .store 4 .r0 (.mem d.reg 0)]), em') := by
  have hbytes : cs.length * elemSize cs = cs.length * elem.size := by
    cases cs with
    | nil => simp
    | cons c cs => rw [hsize (by simp)]
  have hsame : elements (elemSize cs) 4 cs ctx d = elements elem.size 4 cs ctx d := by
    cases cs with
    | nil => rw [elements, elements]
    | cons c cs => rw [hsize (by simp)]
  rw [Emission.expr]
  simp only [hbytes, hsame]
  rw [Emit.bind_of_ok hcode, ← List.append_assoc]
  rfl

/-- The code of an array literal builds the array. -/
theorem array_built {cs : List Checked.Expr} (hcs : ∀ c ∈ cs, Element types c)
    (hcovers : Covers ctx (asWords types)) {elem : Ty} (hsize : cs ≠ [] → elemSize cs = elem.size)
    (type : Ty) (d : Depth) (em : Emitter) :
    ∃ code em', Emission.expr (.array type cs) ctx d em = .ok (code, em') ∧
      ∀ {M : Machine} {held stack : Set Word} {s : State} {values : Values},
        4 + cs.length * elem.size < 2 ^ 31 →
        Prepared M code em' ctx (asWords types) values held stack (operandsRoom cs d) s →
        M.Allocates held stack (4 + cs.length * elem.size) →
        M.Yields s (fun vs t => ∃ block, Built M held stack d s t (s.pc + code.length)
          (4 + cs.length * elem.size) block ∧ vs.length = cs.length ∧ ArrayAt elem t.mem block vs)
          (evalAll values cs) := by
  obtain ⟨code, em', hcode, hgrows, hrun⟩ := elements_stored hcs hcovers elem 4 d em
  refine ⟨_, em', expr_array hsize hcode, ?_⟩
  intro M held stack s values hbytes hprepared halloc
  have hlength : cs.length < 2 ^ 32 := by
    have hpos : cs.length * 1 ≤ cs.length * elem.size :=
      Nat.mul_le_mul_left _ (by rcases size_eq elem with h | h <;> omega)
    omega
  obtain ⟨t, block, hobtained, hpc, hreg, hconfined, hfresh⟩ :=
    reaches_allocated halloc (by omega) (hprepared.left (.refl em')).code
  have hprepared' := hprepared.right hpc hconfined fun a ha hmem => hmem ha
  have hfree : ∀ a ∈ Word.span (block + BitVec.ofNat 32 4) (elem.size * cs.length), a ∉ held ∪ stack :=
    fun a ha => hfresh.apart a (Word.span_add_subset (by rw [Nat.mul_comm]) ha)
  have hyields := hrun (hprepared'.left (.refl em')) hreg (by rw [Nat.mul_comm]; omega) hfree
  refine .of_reaches hobtained.reaches ?_
  rw [← bind_pure (evalAll values cs)]
  refine hyields.bind ?_
  rintro vs u hreach ⟨hlen, hfilled⟩
  rw [← hlen] at hfresh
  have hheld : ∀ a ∈ held, a ∉ stack ∪ Word.span (block + BitVec.ofNat 32 4) (elem.size * vs.length) :=
    held_of_changed hprepared.apart hfresh (by rw [Nat.mul_comm])
  have hlast := hprepared'.right hfilled.pc hfilled.confined hheld
  obtain ⟨w, hreach', hpc', hreg', hword, hconfined'⟩ := reaches_length hlength hlast.code
  rw [hfilled.reg] at hreg' hword hconfined'
  have hfront : ∀ a ∈ held, a ∉ Word.span block 4 :=
    fun a ha hmem => hfresh.apart a (Word.span_mono (Nat.le_add_right 4 _) hmem) (.inl ha)
  refine ⟨w, hreach', block, ⟨(hobtained.trans hreach).trans hreach', hlen ▸ hfresh, ?_, hreg', ?_⟩, hlen, ?_⟩
  · rw [hpc', hfilled.pc, hpc]
    simp only [List.length_append, List.length_cons, List.length_nil]
    omega
  · exact (hconfined.trans (hfilled.confined.spares hheld)).trans (hconfined'.spares hfront)
  · refine ⟨by rw [hword, hlen], fun i v hv => ?_⟩
    obtain ⟨hi, -⟩ := List.getElem?_eq_some_iff.1 hv
    rw [hlen] at hi
    have hinside : 4 + elem.size * i + elem.size ≤ 4 + cs.length * elem.size := element_end hi
    -- the length is written last, but in front of all elements
    rw [elementAt_eq, ← hfilled.value i v hv, load_eq_of_confined hconfined']
    intro a ha hmem
    have hmem' : a ∈ Word.span (block + BitVec.ofNat 32 0) 4 := by simpa using hmem
    exact Word.not_mem_span_add (by omega) (by omega) hmem' ha

/-- The code of a new pair builds the pair. -/
theorem pair_built {a b : Checked.Expr} (ha : Element types a) (hb : Element types b)
    (hcovers : Covers ctx (asWords types)) {fst snd : Ty} (hfst : fst.size = a.note.size)
    (hsnd : snd.size = b.note.size) (type : Ty) (d : Depth) (em : Emitter) :
    ∃ code em', Emission.expr (.newPair type a b) ctx d em = .ok (code, em') ∧
      ∀ {M : Machine} {held stack : Set Word} {s : State} {values : Values},
        Prepared M code em' ctx (asWords types) values held stack (operandsRoom [a, b] d) s →
        M.Allocates held stack 8 →
        M.Yields s (fun vw t => ∃ block, Built M held stack d s t (s.pc + code.length) 8 block ∧
          PairAt fst snd t.mem block vw.1 vw.2)
          (do
            let v ← eval values a
            let w ← eval values b
            return (v, w)) := by
  obtain ⟨code₁, em₁, hcode₁, hgrows₁, hrun₁⟩ := operand_stored ha hcovers fst 0 d em
  obtain ⟨code₂, em₂, hcode₂, hgrows₂, hrun₂⟩ := operand_stored hb hcovers snd 4 d em₁
  refine ⟨allocate 8 d.reg ++ (code₁ ++ storeInto fst.size 0 d ++ (code₂ ++ storeInto snd.size 4 d)), em₂,
    ?_, ?_⟩
  · rw [Emission.expr, Emit.bind_of_ok hcode₁, Emit.bind_of_ok hcode₂, hfst, hsnd]
    simp only [← List.append_assoc]
    rfl
  intro M held stack s values hprepared halloc
  obtain ⟨t, block, hobtained, hpc, hreg, hconfined, hfresh⟩ :=
    reaches_allocated halloc (by decide) (hprepared.left (.refl em₂)).code
  have hprepared' := hprepared.right hpc hconfined fun a ha hmem => hmem ha
  have hsizes : fst.size ≤ 4 ∧ snd.size ≤ 4 := by
    rcases size_eq fst with h | h <;> rcases size_eq snd with h' | h' <;> omega
  refine .of_reaches hobtained.reaches ?_
  refine (hrun₁ ((hprepared'.left hgrows₂).mono (Nat.le_max_left _ _)) hreg).bind ?_
  intro v u hreach hfirst
  have hheld : ∀ a ∈ held, a ∉ stack ∪ Word.span (block + BitVec.ofNat 32 0) (fst.size * [v].length) :=
    held_of_changed hprepared.apart hfresh (by simp only [List.length_singleton]; omega)
  have hprepared'' := hprepared'.right hfirst.pc hfirst.confined hheld
  have hroom : operandRoom b d ≤ operandsRoom [a, b] d :=
    (Nat.le_max_left _ _).trans (Nat.le_max_right _ _)
  -- the second side is evaluated when the first is already in the block
  refine (hrun₂ (hprepared''.mono hroom) hfirst.reg).bind ?_
  intro w x hreach' hsecond
  have hheld' : ∀ a ∈ held, a ∉ stack ∪ Word.span (block + BitVec.ofNat 32 4) (snd.size * [w].length) :=
    held_of_changed hprepared.apart hfresh (by simp only [List.length_singleton]; omega)
  refine ⟨x, .refl x, block, ⟨(hobtained.trans hreach).trans hreach', hfresh, ?_, hsecond.reg, ?_⟩, ?_, ?_⟩
  · rw [hsecond.pc, hfirst.pc, hpc]
    simp only [List.length_append]
    omega
  · exact (hconfined.trans (hfirst.confined.spares hheld)).trans (hsecond.confined.spares hheld')
  · have hvalue := hfirst.value 0 v rfl
    rw [Nat.mul_zero] at hvalue
    rw [← hvalue, ← load_eq_of_confined hsecond.confined]
    · rfl
    rintro a ha (hmem | hmem)
    · exact hfresh.apart a (Word.span_add_subset (by omega) ha) (.inr hmem)
    · exact Word.not_mem_span_add (by omega) (by simp only [List.length_singleton]; omega) ha hmem
  · exact hsecond.value 0 w rfl

/-- `storeInto` with an offset that may be below zero. -/
def storeInto32 (size : Nat) (offset : Int) (d : Depth) : List Instr :=
  (if offset ≤ (Opcode.store size).maxOffset then [.store size d.right (.mem d.left offset)]
   else [.ldr .r0 (.literal offset), .store size d.right (.indexed d.left .r0)])
    ++ d.settle

/-- Where `n` elements end in a block, in 32-bit arithmetic. -/
def offset32 (size n : Nat) : Int := Word.signed (4 + Word.signed (Word.signed n * Word.signed size))

def elements32 (size n : Nat) : List Checked.Expr → Context → Depth → Emit (List Instr)
  | [], _, _ => return []
  | elem :: elems, ctx, d => do
    let code ← operand (expr elem) ctx d
    return code ++ storeInto32 size (offset32 size n) d ++ (← elements32 size (n + 1) elems ctx d)

/-- The code of an array literal with its length, its size and its offsets in 32-bit arithmetic. -/
def array32 (elems : List Checked.Expr) (ctx : Context) (d : Depth) : Emit (List Instr) := do
  let size := elemSize elems
  let code ← elements32 size 0 elems ctx d
  return [.ldr .r0 (.literal (offset32 size elems.length)), .bl "malloc", .movReg d.reg .r0] ++ code
    ++ [.ldr .r0 (.literal (Word.signed elems.length)), .store 4 .r0 (.mem d.reg 0)]

theorem signed_natCast {n : Nat} (h : n < 2 ^ 31) : Word.signed n = n :=
  Word.signed_eq_self (by omega) (by omega)

/-- Below 2 ^ 31 nothing is reduced. -/
theorem offset32_eq {size n : Nat} (hpos : 0 < size) (h : 4 + n * size < 2 ^ 31) (hsize : size < 2 ^ 31) :
    offset32 size n = (4 + n * size : Nat) := by
  have hn : n ≤ n * size := Nat.le_mul_of_pos_right n hpos
  rw [offset32, signed_natCast (by omega), signed_natCast hsize, ← Nat.cast_mul, signed_natCast (by omega),
    ← Nat.cast_ofNat, ← Nat.cast_add, signed_natCast h]

/-- The offset of an element is counted from its number or from the one before. -/
theorem elements32_eq {size n : Nat} (hpos : 0 < size) (hsize : size < 2 ^ 31) {elems : List Checked.Expr}
    (h : 4 + (n + elems.length) * size < 2 ^ 31) (ctx : Context) (d : Depth) :
    elements32 size n elems ctx d = elements size (4 + n * size) elems ctx d := by
  induction elems generalizing n with
  | nil => rw [elements32, elements]
  | cons elem elems ih =>
    rw [List.length_cons] at h
    have hoffset : 4 + n * size < 2 ^ 31 :=
      Nat.lt_of_le_of_lt (Nat.add_le_add_left (Nat.mul_le_mul_right size (Nat.le_add_right _ _)) 4) h
    have hrest := @ih (n + 1) (by rwa [Nat.add_assoc, Nat.add_comm 1])
    rw [Nat.succ_mul, ← Nat.add_assoc] at hrest
    rw [elements32, elements, offset32_eq hpos hoffset hsize, hrest]
    rfl

/-- The code of a literal whose block is smaller than 2 ^ 31 bytes is the same in 32-bit arithmetic. -/
theorem array32_eq {elems : List Checked.Expr} (h : 4 + elems.length * elemSize elems < 2 ^ 31) (type : Ty)
    (ctx : Context) (d : Depth) : array32 elems ctx d = expr (.array type elems) ctx d := by
  have hsize : elemSize elems = 1 ∨ elemSize elems = 4 := by
    cases elems with
    | nil => exact .inr rfl
    | cons first => exact size_eq first.note
  have hpos : 0 < elemSize elems := by omega
  have hsmall : elemSize elems < 2 ^ 31 := by omega
  have hlength : elems.length ≤ elems.length * elemSize elems := Nat.le_mul_of_pos_right _ hpos
  have helements := elements32_eq (n := 0) hpos hsmall (by rwa [Nat.zero_add]) ctx d
  rw [Nat.zero_mul] at helements
  rw [array32, expr, helements, offset32_eq hpos h hsmall, signed_natCast (by omega)]
  rfl

end WaccArm.Blocks
