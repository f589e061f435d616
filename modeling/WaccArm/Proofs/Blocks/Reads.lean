import WaccArm.Proofs.Blocks.Constructors

namespace WaccArm.Blocks

open Scalar Emission Arrays Machine

variable {M : Machine} {stack : Set Word} {d : Depth} {s t : State} {ctx : Context} {types : Types}

/-- Loading a value through the address in the register. -/
theorem computes_through (stack : Set Word) {size : Nat} {offset : Int} {a : Word}
    (hcode : M.Holds s.pc (Code.ofInstrs [.load size d.reg (.mem d.reg offset)]))
    (haddress : s.regs d.reg + BitVec.ofInt 32 offset = a) :
    M.ComputesWithin ⟨Set.univ, stack⟩ d s (s.pc + 1) (.ok (s.mem.load size a).toInt) := by
  have hoperand : s.address? (.mem d.reg offset) = some a := by rw [State.address?, haddress]
  exact computes_set hcode rfl (exec_load hoperand size d.reg) (Set.subset_univ _)

/-- A value in memory that is held can be read at the end of a run that has used the stack only. -/
theorem load_of_reaches {size : Nat} {a : Word} (hsize : size = 1 ∨ size = 4)
    (hreach : M.ReachesWithin ⟨Set.univ, stack⟩ s t) (hkept : ∀ b ∈ Word.span a size, b ∉ stack) :
    t.mem.load size a = s.mem.load size a :=
  Memory.load_of_span hsize fun b hb => hreach.mem_eq (hkept b hb)

/-- An array in memory, as a nest with one dimension. -/
def ArrayAt.nest (block : Word) (vs : List Int) : Nest 1 := .array block vs.length fun _ => .cell

/-- Of an array of one dimension its reference and its length are looked at. -/
theorem words_nest (size : Nat) (block slot : Word) (vs : List Int) :
    (ArrayAt.nest block vs).words size slot = Word.span slot 4 ∪ Word.span block 4 := by
  simp [ArrayAt.nest, Nest.words]

/-- An index in range finds its element. -/
theorem locate_nest {size i : Nat} {vs : List Int} (hi : i < vs.length) (block slot : Word) :
    (ArrayAt.nest block vs).locate size slot [.ok (i : Int)] = .ok (elementAt block size i) := by
  rw [ArrayAt.nest, Nest.locate, inRange_of_lt (Int.natCast_nonneg i) hi]
  rfl

/-- The code for an element of an array variable reads the value that the array has there. -/
theorem element_read {index : Checked.Expr} (hindex : Typed types index .int) (hcovers : Covers ctx types)
    {name : String} {slot : Slot} (hslot : ctx.slots.lookup? name (fun _ => true) = some slot) (elem : Ty)
    (d : Depth) (em : Emitter) :
    ∃ code em', Emission.expr (.elem elem name [index]) ctx d em = .ok (code, em') ∧
      ∀ {M : Machine} {held stack : Set Word} {s : State} {values : Values} {block : Word} {vs : List Int},
        Prepared M code em' ctx types values held stack (indicesRoom [index] d) s →
        Word.span (slotAddress ctx slot s) 4 ⊆ held →
        Word.span block (4 + vs.length * elem.size) ⊆ held →
        s.mem.readWord (slotAddress ctx slot s) = block → ArrayAt elem s.mem block vs →
        ∀ (i : Nat) (v : Int), vs[i]? = some v → eval values index = .ok (i : Int) →
          M.Computes d s (s.pc + code.length) (.ok (stored elem v)) := by
  obtain ⟨code, em', hcode, _, hrun⟩ := selections_locate (size_eq elem) hcovers
    (List.forall_mem_singleton.2 hindex) (Nat.le_refl 1)
    (show elem.size = width elem.size (1 - [index].length) from rfl) d em
  have hok : ctx.slot name em = .ok (slot, em) := by
    rw [Context.slot, hslot]
    rfl
  refine ⟨ctx.address d.reg slot ++ (code ++ [.load elem.size d.reg (.mem d.reg 0)]), em', ?_, ?_⟩
  · rw [Emission.expr, Emit.bind_of_ok hok, Emit.bind_of_ok hcode, ← List.append_assoc]
    rfl
  intro M held stack s values block vs hprepared hslotHeld hblockHeld hword harray i v hv hi
  obtain ⟨hlt, -⟩ := List.getElem?_eq_some_iff.1 hv
  obtain ⟨t, hreach, hpc, hreg, hmem, hkept⟩ :=
    reaches_slot (A := ⟨Set.univ, stack⟩) (hprepared.left (.refl em')).code
  have hprepared' := hprepared.right hpc (.of_kept hreach hkept) hprepared.apart
  have hwords : ∀ a ∈ (ArrayAt.nest block vs).words elem.size (slotAddress ctx slot s), a ∉ stack := by
    intro a ha
    rw [words_nest] at ha
    rcases ha with ha | ha
    · exact hprepared.apart a (hslotHeld ha)
    · exact hprepared.apart a (hblockHeld (Word.span_mono (Nat.le_add_right 4 _) ha))
  have hheld : (ArrayAt.nest block vs).Held elem.size t.mem (slotAddress ctx slot s) := by
    rw [hmem]
    exact ⟨hword, harray.length, fun _ => trivial⟩
  have hlocates := hrun hprepared'.divides (hprepared'.left (.refl em')).code hprepared'.routines
    hprepared'.represents hprepared'.allows hreg hheld hwords (Set.subset_univ _)
  rw [List.map_singleton, hi, locate_nest hlt] at hlocates
  obtain ⟨u, hreach', hpc', hreg', hkept'⟩ := hlocates
  have hlast := hprepared'.right hpc' (.of_kept hreach' hkept') hprepared.apart
  have hvalue := computes_through stack hlast.code
    (show u.regs d.reg + BitVec.ofInt 32 0 = elementAt block elem.size i by simpa using hreg')
  have hsame : u.mem.load elem.size (elementAt block elem.size i) =
      s.mem.load elem.size (elementAt block elem.size i) :=
    load_of_reaches (size_eq elem) (hreach.trans hreach') fun b hb =>
      hprepared.apart b (hblockHeld (element_subset hlt hb))
  rw [hsame, harray.value i v hv, hpc', hpc] at hvalue
  have hdone := (hvalue.after (hreach.trans hreach') (hkept.trans hkept')).computes
  simpa only [List.length_append, List.length_singleton, ← Nat.add_assoc] using hdone

/-- Both sides start within the first five bytes. -/
theorem sideAt_eq (block : Word) (which : Side) :
    ∃ offset, offset ≤ 4 ∧ sideAt block which = block + BitVec.ofNat 32 offset := by
  cases which with
  | fst => exact ⟨0, by decide, rfl⟩
  | snd => exact ⟨4, by decide, rfl⟩

/-- A reference that is not null passes the check. -/
theorem null_checked (d : Depth) (em : Emitter) :
    ∃ code em', nullCheck d.reg em = .ok (code, em') ∧
      ∀ {M : Machine} {A : Access} {s : State}, M.Holds s.pc (Code.ofInstrs code) → M.ProvidesAll em' →
        s.regs d.reg ≠ 0 → A.Stack s 4 →
        ∃ t, M.ReachesWithin A s t ∧ t.pc = s.pc + code.length ∧ t.regs d.reg = s.regs d.reg ∧
          Kept d s t := by
  refine ⟨[.movReg .r0 d.reg, .bl Routine.checkNullPointer.label], _, rfl, ?_⟩
  intro M A s hcode hroutines hne hstack
  let passed : State := (s.set .r0 (s.regs d.reg)).next
  have hpassed : M.ReachesWithin A s passed := .quiet hcode rfl rfl rfl rfl
  have hstack' : A.Stack passed 4 := hstack.of_top_eq rfl
  obtain ⟨t, hreach, hpc, hregs, hmem⟩ := check_pointer hroutines.required.1 hcode.2.2
    (show passed.regs .r0 ≠ 0 by simpa [passed] using hne) hstack'
  obtain ⟨hsp, hlr, hpc', hzero, -⟩ := d.reg_ne
  refine ⟨t, hpassed.trans hreach, hpc, ?_, ?_, ?_, hmem⟩
  · rw [hregs d.reg hlr hpc']
    simp [passed, hzero]
  · rw [hregs .sp (by decide) (by decide)]
    rfl
  · intro r hr
    obtain ⟨-, -, -, hlr, hpc', hzero, -⟩ := Depth.ne_of_kept (.inr hr)
    rw [hregs r hlr hpc']
    simp [passed, hzero]

/-- The code for a side of a pair variable reads the value that the pair has there. -/
theorem side_read (types : Types) {name : String} {slot : Slot}
    (hslot : ctx.slots.lookup? name (fun _ => true) = some slot) (hsize : slot.size = 4) (pair type : Ty)
    (which : Side) (d : Depth) (em : Emitter) :
    ∃ code em', Emission.expr (.side type which (.var pair name)) ctx d em = .ok (code, em') ∧
      ∀ {M : Machine} {held stack : Set Word} {s : State} {values : Values} {block : Word},
        Prepared M code em' ctx types values held stack 4 s →
        Word.span (slotAddress ctx slot s) 4 ⊆ held → Word.span block 8 ⊆ held → block ≠ 0 →
        s.mem.readWord (slotAddress ctx slot s) = block →
        M.Computes d s (s.pc + code.length) (.ok (s.mem.load type.size (sideAt block which)).toInt) := by
  obtain ⟨code, em', hcode, hrun⟩ := null_checked d em
  have hok : ctx.slot name em = .ok (slot, em) := by
    rw [Context.slot, hslot]
    rfl
  refine ⟨ctx.load 4 d.reg slot ++ (code ++ [.load type.size d.reg (.mem d.reg (sideOffset which))]), em',
    ?_, ?_⟩
  · have hvar : Emission.expr (.var pair name) ctx d em = .ok (ctx.load 4 d.reg slot, em) := by
      rw [Emission.expr, Emit.bind_of_ok hok, hsize]
      rfl
    rw [Emission.expr, Emit.bind_of_ok hvar, Emit.bind_of_ok hcode, ← List.append_assoc]
    rfl
  intro M held stack s values block hprepared hslotHeld hblockHeld hne hword
  obtain ⟨t, hreach, hpc, hvalue, hkept⟩ := computes_load (A := ⟨Set.univ, stack⟩) (.inr rfl)
    (hprepared.left (.refl em')).code (Set.subset_univ _)
  have hreg : t.regs d.reg = block := (BitVec.eq_of_toInt_eq hvalue).trans hword
  have hprepared' := hprepared.right hpc (.of_kept hreach hkept) hprepared.apart
  obtain ⟨u, hreach', hpc', hureg, hkept'⟩ := hrun (hprepared'.left (.refl em')).code hprepared'.routines
    (hreg ▸ hne) hprepared'.allows.stack
  have hlast := hprepared'.right hpc' (.of_kept hreach' hkept') hprepared.apart
  have hread := computes_through stack (a := sideAt block which) hlast.code
    (by rw [hureg, hreg, sideAt])
  have hsame : u.mem.load type.size (sideAt block which) = s.mem.load type.size (sideAt block which) := by
    refine load_of_reaches (size_eq type) (hreach.trans hreach') fun b hb => ?_
    obtain ⟨offset, hoffset, heq⟩ := sideAt_eq block which
    rw [heq] at hb
    have hbytes : offset + type.size ≤ 8 := by
      rcases size_eq type with h | h <;> omega
    exact hprepared.apart b (hblockHeld (Word.span_add_subset hbytes hb))
  rw [hsame, hpc', hpc] at hread
  have hdone := (hread.after (hreach.trans hreach') (hkept.trans hkept')).computes
  simpa only [List.length_append, List.length_singleton, ← Nat.add_assoc] using hdone

end WaccArm.Blocks
