import WaccArm.Proofs.Arrays.Address
import WaccArm.Proofs.Blocks.Elements
import WaccArm.Proofs.Scalar.Exec

namespace WaccArm

open Scalar Emission Arrays

/-- Fewer bytes are among more. -/
theorem Word.span_mono {a : Word} {m n : Nat} (h : m ≤ n) : Word.span a m ⊆ Word.span a n :=
  fun _ hb => Nat.lt_of_lt_of_le hb h

/-- Bytes behind an offset are among those from the start. -/
theorem Word.span_add_subset {a : Word} {m k n : Nat} (h : m + k ≤ n) :
    Word.span (a + BitVec.ofNat 32 m) k ⊆ Word.span a n := by
  intro b hb
  rw [Word.mem_span] at hb ⊢
  have hsub : b - a = b - (a + BitVec.ofNat 32 m) + BitVec.ofNat 32 m := by bv_omega
  rw [hsub, BitVec.toNat_add, BitVec.toNat_ofNat]
  omega

/-- Two spans from one address do not meet if the second starts after the first, and does not come back
around to it. -/
theorem Word.not_mem_span_add {a b : Word} {m k m' k' : Nat} (h : m + k ≤ m') (hend : m' + k' ≤ 2 ^ 32)
    (hb : b ∈ Word.span (a + BitVec.ofNat 32 m) k) : b ∉ Word.span (a + BitVec.ofNat 32 m') k' := by
  intro hb'
  rw [Word.mem_span] at hb hb'
  bv_omega

namespace Memory

variable {mem mem' : Memory} {size : Nat} {a b : Word}

/-- A store leaves all other bytes. -/
theorem store_of_not_mem_span (w : Word) (hsize : size = 1 ∨ size = 4) (h : b ∉ Word.span a size) :
    mem.store size a w b = mem b := by
  rw [Word.mem_span] at h
  rcases hsize with rfl | rfl
  · refine writeByte_of_ne _ _ ?_
    rintro rfl
    simp at h
  · have h0 : b ≠ a := by bv_omega
    have h1 : b ≠ a + 1 := by bv_omega
    have h2 : b ≠ a + 2 := by bv_omega
    have h3 : b ≠ a + 3 := by bv_omega
    change mem.writeWord a w b = mem b
    simp only [writeWord, h0, h1, h2, h3, if_false]

/-- A load depends on the bytes that it reads. -/
theorem load_of_span (hsize : size = 1 ∨ size = 4) (h : ∀ b ∈ Word.span a size, mem b = mem' b) :
    mem.load size a = mem'.load size a := by
  rcases hsize with rfl | rfl
  · have hbyte : mem a = mem' a := h a (by simp [Word.mem_span])
    simp only [load, if_true, hbyte]
  · exact readWord_of_span h

end Memory

/-- What evaluation at depth `d` keeps if it may change the given memory. -/
structure Confined (changed : Set Word) (d : Depth) (s t : State) : Prop where
  sp : t.regs .sp = s.regs .sp
  live : ∀ r ∈ d.live, t.regs r = s.regs r
  mem : ∀ a ∉ changed, t.mem a = s.mem a

namespace Confined

variable {changed changed' : Set Word} {d : Depth} {s t u : State}

theorem top_eq (h : Confined changed d s t) : t.top = s.top := by rw [State.top, State.top, h.sp]

/-- What two runs keep, both together keep. -/
theorem trans (h : Confined changed d s t) (h' : Confined changed d t u) : Confined changed d s u where
  sp := h'.sp.trans h.sp
  live r hr := (h'.live r hr).trans (h.live r hr)
  mem a ha := (h'.mem a ha).trans (h.mem a ha)

/-- More memory may change than does. -/
theorem mono (h : Confined changed d s t) (hsub : changed ⊆ changed') : Confined changed' d s t :=
  ⟨h.sp, h.live, fun a ha => h.mem a fun hmem => ha (hsub hmem)⟩

/-- Memory outside of what changes is held. -/
theorem spares {held : Set Word} (h : Confined changed d s t) (hheld : ∀ a ∈ held, a ∉ changed) :
    Confined heldᶜ d s t :=
  h.mono fun a ha hmem => hheld a hmem ha

theorem of_regs (hmem : ∀ a ∉ changed, t.mem a = s.mem a)
    (h : ∀ r, r = .sp ∨ r ∈ d.live → t.regs r = s.regs r) : Confined changed d s t :=
  ⟨h .sp (.inl rfl), fun r hr => h r (.inr hr), hmem⟩

/-- Evaluation changes memory where it may store. -/
theorem of_kept {M : Machine} {A : Access} (hreach : M.ReachesWithin A s t) (hkept : Kept d s t) :
    Confined A.stores d s t :=
  ⟨hkept.sp, hkept.live, fun _ ha => hreach.mem_eq ha⟩

end Confined

/-- The values of variables are kept with the memory of the variables. -/
theorem Scalar.Represents.of_storage {ctx : Context} {types : Types} {values : Values} {s t : State}
    (h : Represents ctx types values s) (htop : t.top = s.top)
    (hmem : ∀ a ∈ storage ctx types s, t.mem a = s.mem a) : Represents ctx types values t := by
  intro name type slot hname hscalar hslot
  obtain ⟨v, a, hv, htruth, ha, hlow, hhigh, hload⟩ := h name type slot hname hscalar hslot
  refine ⟨v, a, hv, htruth, by rw [htop]; exact ha, by rw [htop]; exact hlow, hhigh, ?_⟩
  rw [← hload]
  congr 1
  refine Memory.load_of_span (size_eq type) fun b hb => hmem b ⟨name, type, slot, hname, hscalar, hslot, ?_⟩
  rw [← ha, BitVec.ofInt_natCast]
  exact hb

/-- What code starts from: it stands in the text with the routines that it calls, the variables have their
values in memory that is held, and `n` bytes of stack can be used. -/
structure Prepared (M : Machine) (code : List Instr) (em : Emitter) (ctx : Context) (types : Types)
    (values : Values) (held stack : Set Word) (n : Nat) (s : State) : Prop where
  code : M.Holds s.pc (Code.ofInstrs code)
  routines : M.ProvidesAll em
  divides : M.Divides
  division : M.DivisionWithin stack
  represents : Represents ctx types values s
  storage : storage ctx types s ⊆ held
  room : n ≤ s.top
  below : s.below n ⊆ stack
  apart : ∀ a ∈ held, a ∉ stack

namespace Prepared

variable {M : Machine} {code code' : List Instr} {em em' : Emitter} {ctx : Context} {types : Types}
  {values : Values} {held stack : Set Word} {m n : Nat} {s t : State}

/-- The code may load from everywhere and store below the stack pointer. -/
theorem allows (h : Prepared M code em ctx types values held stack n s) :
    Allows M ⟨Set.univ, stack⟩ ctx types s n :=
  ⟨⟨h.room, Set.subset_univ _, h.below⟩, Set.subset_univ _, h.division⟩

theorem mono (h : Prepared M code em ctx types values held stack n s) (hle : m ≤ n) :
    Prepared M code em ctx types values held stack m s :=
  { h with room := (h.allows.mono hle).stack.room, below := (h.allows.mono hle).stack.stores }

/-- The first part of some code can be run. -/
theorem left (h : Prepared M (code ++ code') em' ctx types values held stack n s) (hgrows : em.Grows em') :
    Prepared M code em ctx types values held stack n s where
  __ := h
  code := by
    have hcode := h.code
    rw [Code.ofInstrs, List.map_append] at hcode
    exact hcode.left
  routines := h.routines.of_grows hgrows

/-- The rest of the code is ready where the first part ends, if that has not changed what is held. -/
theorem right (h : Prepared M (code ++ code') em ctx types values held stack n s) {changed : Set Word}
    {d : Depth} (hpc : t.pc = s.pc + code.length) (hconfined : Confined changed d s t)
    (hheld : ∀ a ∈ held, a ∉ changed) : Prepared M code' em ctx types values held stack n t where
  code := by
    have hcode := h.code
    rw [Code.ofInstrs, List.map_append] at hcode
    rw [hpc]
    simpa [Code.ofInstrs] using hcode.right
  routines := h.routines
  divides := h.divides
  division := h.division
  represents := h.represents.of_storage hconfined.top_eq fun a ha =>
    hconfined.mem a (hheld a (h.storage ha))
  storage := by
    have hsame : Scalar.storage ctx types t = Scalar.storage ctx types s :=
      storage_eq rfl (by rw [hconfined.top_eq])
    rw [hsame]
    exact h.storage
  room := (h.allows.of_top_eq hconfined.top_eq).stack.room
  below := (h.allows.of_top_eq hconfined.top_eq).stack.stores
  apart := h.apart

end Prepared

namespace Machine

/-- From state `s`, the machine gets to a state that goes with the value of an evaluation, or raises the
trap that the evaluation ends in. -/
def Yields {α : Type} (M : Machine) (s : State) (goal : α → State → Prop) : Except Trap α → Prop
  | .ok v => ∃ t, M.Reaches s t ∧ goal v t
  | .error trap => M.Raises s trap

namespace Yields

variable {M : Machine} {s t : State} {α β : Type} {goal : α → State → Prop} {goal' : β → State → Prop}
  {result : Except Trap α}

/-- A run may be prolonged at its start. -/
theorem of_reaches (hreach : M.Reaches s t) (h : M.Yields t goal result) : M.Yields s goal result := by
  cases result with
  | error trap => exact Raises.of_reaches hreach h
  | ok v =>
    obtain ⟨u, hreach', hgoal⟩ := h
    exact ⟨u, hreach.trans hreach', hgoal⟩

theorem imp {more : α → State → Prop} (h : M.Yields s goal result) (hmore : ∀ v t, goal v t → more v t) :
    M.Yields s more result := by
  cases result with
  | error trap => exact h
  | ok v =>
    obtain ⟨t, hreach, hgoal⟩ := h
    exact ⟨t, hreach, hmore v t hgoal⟩

/-- One evaluation after the other. -/
theorem bind {next : α → Except Trap β} (h : M.Yields s goal result)
    (hnext : ∀ v t, M.Reaches s t → goal v t → M.Yields t goal' (next v)) :
    M.Yields s goal' (result >>= next) := by
  cases result with
  | error trap => exact h
  | ok v =>
    obtain ⟨t, hreach, hgoal⟩ := h
    exact (hnext v t hreach hgoal).of_reaches hreach

end Yields

/-- A block of memory that nothing uses yet. No block starts where null points to. -/
structure Fresh (inUse : Set Word) (block : Word) (bytes : Nat) : Prop where
  ne_zero : block ≠ 0
  apart : ∀ a ∈ Word.span block bytes, a ∉ inUse

/-- The allocator outside the text: a request for `bytes` gives a fresh block. Registers come back as from
every routine, and the memory that is held is kept. -/
structure Allocates (M : Machine) (held stack : Set Word) (bytes : Nat) : Prop where
  outside : M.line? "malloc" = none
  gives : ∀ s : State, (s.regs .r0).toNat = bytes → ∃ t, M.external "malloc" s = some t ∧
    (∀ r ∈ calleeSaved, t.regs r = s.regs r) ∧ (∀ a ∈ held, t.mem a = s.mem a) ∧
    Fresh (held ∪ stack) (t.regs .r0) bytes

/-- On the way from one state to the other, the allocator is called for so many bytes and gives the block. -/
def Obtains (M : Machine) (s t : State) (bytes : Nat) (block : Word) : Prop :=
  ∃ u v, M.Reaches s u ∧ M.text[u.pc]? = some (.instr (.bl "malloc")) ∧ (u.regs .r0).toNat = bytes ∧
    M.step u = some v ∧ v.regs .r0 = block ∧ M.Reaches v t

variable {M : Machine} {held stack : Set Word} {d : Depth} {s t u : State} {bytes : Nat} {block : Word}

/-- Memory is obtained within a run. -/
theorem Obtains.reaches (h : M.Obtains s t bytes block) : M.Reaches s t := by
  obtain ⟨u, v, hbefore, -, -, hstep, -, hafter⟩ := h
  exact (hbefore.trans (Relation.ReflTransGen.single hstep)).trans hafter

/-- Memory that was obtained stays obtained. -/
theorem Obtains.trans (h : M.Obtains s t bytes block) (hreach : M.Reaches t u) :
    M.Obtains s u bytes block := by
  obtain ⟨before, after, hbefore, hcall, hbytes, hstep, hblock, hafter⟩ := h
  exact ⟨before, after, hbefore, hcall, hbytes, hstep, hblock, hafter.trans hreach⟩

/-- The code obtains a block of which nothing is in use. -/
theorem reaches_allocated (halloc : M.Allocates held stack bytes) (hbytes : bytes < 2 ^ 32)
    (hcode : M.Holds s.pc (Code.ofInstrs (allocate bytes d.reg))) :
    ∃ t block, M.Obtains s t bytes block ∧ t.pc = s.pc + (allocate bytes d.reg).length ∧
      t.regs d.reg = block ∧ Confined heldᶜ d s t ∧ Fresh (held ∪ stack) block bytes := by
  let asked : State := (s.set .r0 (BitVec.ofInt 32 bytes)).next
  have hasked : M.Reaches s asked := .exec hcode rfl rfl
  have hr0 : (asked.regs .r0).toNat = bytes := by
    change (BitVec.ofInt 32 (bytes : Int)).toNat = bytes
    rw [BitVec.ofInt_natCast, BitVec.toNat_ofNat]
    exact Nat.mod_eq_of_lt hbytes
  obtain ⟨v, hext, hregs, hmem, hfresh⟩ := halloc.gives (asked.set .lr (M.place (asked.pc + 1))) hr0
  have hexec : M.exec asked (.bl "malloc") = some { v with pc := asked.pc + 1 } :=
    exec_bl_external halloc.outside hext
  have hstep : M.step asked = some { v with pc := asked.pc + 1 } := by
    have hline : M.text[asked.pc]? = some (.instr (.bl "malloc")) := hcode.2.2.1
    simp only [step, hline, hexec]
    rfl
  let given : State := { v with pc := asked.pc + 1 }
  let moved : State := (given.set d.reg (v.regs .r0)).next
  have hmoved : M.Reaches given moved := .exec hcode.2.2.2.2 rfl rfl
  refine ⟨moved, v.regs .r0, ⟨asked, given, hasked, hcode.2.2.1, hr0, hstep, rfl, hmoved⟩, rfl, ?_, ?_, hfresh⟩
  · simp [moved]
  · refine .of_regs (fun a ha => hmem a (Set.notMem_compl_iff.1 ha)) fun r hr => ?_
    obtain ⟨hreg, -, -, hlr, -, hzero, -⟩ := Depth.ne_of_kept hr
    have hsaved : r ∈ calleeSaved := by
      rcases hr with rfl | hr
      · decide
      · exact (Depth.ne_of_mem_pool (d.live_subset_pool hr)).1
    have hkept := hregs r hsaved
    simp only [State.set_regs, if_neg hlr, asked, State.next_regs, if_neg hzero] at hkept
    simp only [moved, State.next_regs, State.set_regs, if_neg hreg]
    exact hkept

end Machine

namespace Blocks

open Machine

variable {M : Machine} {held stack : Set Word} {d : Depth} {s t u : State} {block : Word}
  {ctx : Context} {types : Types} {values : Values}

/-- Bringing the left operand back changes no memory. -/
theorem reaches_settled_mem (hcode : M.Holds s.pc (Code.ofInstrs d.settle)) :
    ∃ t, M.Reaches s t ∧ t.pc = s.pc + d.settle.length ∧ t.regs d.reg = s.regs d.left ∧ t.mem = s.mem ∧
      ∀ r, r = .sp ∨ r ∈ d.live → t.regs r = s.regs r := by
  obtain ⟨t, hreach, hpc, hreg, hkept⟩ := reaches_settled (A := ⟨∅, ∅⟩) hcode
  refine ⟨t, hreach.reaches, hpc, hreg, funext fun a => hreach.mem_eq (Set.notMem_empty a), ?_⟩
  rintro r (rfl | hr)
  · exact hkept.sp
  · exact hkept.live r hr

/-- The right operand is stored into the block that the left one points to, whether or not the offset is in
reach of the store. -/
theorem reaches_stored {size offset : Nat} (hcode : M.Holds s.pc (Code.ofInstrs (storeInto size offset d))) :
    ∃ t, M.Reaches s t ∧ t.pc = s.pc + (storeInto size offset d).length ∧
      t.regs d.reg = s.regs d.left ∧
      t.mem = s.mem.store size (s.regs d.left + BitVec.ofNat 32 offset) (s.regs d.right) ∧
      ∀ r, r = .sp ∨ r ∈ d.live → t.regs r = s.regs r := by
  rw [storeInto, Code.ofInstrs, List.map_append] at hcode
  simp only [storeInto, List.length_append, ← Nat.add_assoc]
  split at hcode
  · rename_i hnear
    rw [if_pos hnear]
    have haddress : s.address? (.mem d.left offset) = some (s.regs d.left + BitVec.ofNat 32 offset) := by
      rw [State.address?, BitVec.ofInt_natCast]
    let written : State :=
      { s with mem := s.mem.store size (s.regs d.left + BitVec.ofNat 32 offset) (s.regs d.right) }.next
    have hwritten : M.Reaches s written := .exec hcode.left rfl (exec_store haddress size d.right)
    obtain ⟨t, hreach, hpc, hreg, hmem, hregs⟩ := reaches_settled_mem (s := written) hcode.right
    exact ⟨t, hwritten.trans hreach, hpc, hreg, hmem, hregs⟩
  · rename_i hfar
    rw [if_neg hfar]
    let far : State := (s.set .r0 (BitVec.ofInt 32 offset)).next
    have hfar : M.Reaches s far := .exec hcode.left rfl rfl
    have hleft : far.regs d.left = s.regs d.left := by simp [far, d.left_ne.2.2.2.1]
    have hright : far.regs d.right = s.regs d.right := by simp [far, d.right_ne.2.2.2.1]
    have haddress : far.address? (.indexed d.left .r0) =
        some (s.regs d.left + BitVec.ofNat 32 offset) := by
      rw [State.address?, hleft, ← BitVec.ofInt_natCast]
      rfl
    let written : State :=
      { far with mem := s.mem.store size (s.regs d.left + BitVec.ofNat 32 offset) (s.regs d.right) }.next
    have hwritten : M.Reaches far written := by
      refine .exec hcode.left.2.2 rfl ?_
      rw [exec_store haddress, hright]
      rfl
    obtain ⟨t, hreach, hpc, hreg, hmem, hregs⟩ := reaches_settled_mem (s := written) hcode.right
    refine ⟨t, (hfar.trans hwritten).trans hreach, hpc, hreg.trans hleft, hmem, fun r hr => ?_⟩
    have hzero := (Depth.ne_of_kept hr).2.2.2.2.2.1
    rw [hregs r hr]
    simp [written, far, hzero]

/-- Values of one type stand in a block, one after the other from `offset` on. They were put there at
depth `d` with the stack for evaluation and no other memory. -/
structure Filled (type : Ty) (stack : Set Word) (d : Depth) (block : Word) (offset : Nat) (s t : State)
    (stop : Nat) (vs : List Int) : Prop where
  pc : t.pc = stop
  reg : t.regs d.reg = block
  confined :
    Confined (stack ∪ Word.span (block + BitVec.ofNat 32 offset) (type.size * vs.length)) d s t
  value : ∀ i v, vs[i]? = some v →
    (t.mem.load type.size (block + BitVec.ofNat 32 (offset + type.size * i))).toInt = stored type v

/-- The bytes below the stack pointer that the evaluation of a right operand may use. -/
def operandRoom (e : Checked.Expr) (d : Depth) : Nat :=
  if d.exhausted then 4 + room e d else room e d.next

/-- A value is evaluated while the block waits in its register or on the stack, and is then stored. -/
theorem operand_stored {e : Checked.Expr} (he : Element types e) (hcovers : Covers ctx (asWords types))
    (type : Ty) (offset : Nat) (d : Depth) (em : Emitter) :
    ∃ code em', operand (Emission.expr e) ctx d em = .ok (code, em') ∧ em.Grows em' ∧
      ∀ {M : Machine} {held stack : Set Word} {s : State} {values : Values} {block : Word},
        Prepared M (code ++ storeInto type.size offset d) em' ctx (asWords types) values held stack
          (operandRoom e d) s →
        s.regs d.reg = block →
        M.Yields s (fun v t => Filled type stack d block offset s t
          (s.pc + (code ++ storeInto type.size offset d).length) [v]) (eval values e) := by
  obtain ⟨code, em', hcode, hgrows, hrun⟩ :=
    operand_runs (d := d) hcovers fun _ d h => he.runsWithin h d em
  refine ⟨code, em', hcode, hgrows, ?_⟩
  intro M held stack s values block hprepared hreg
  have hleft := hprepared.left (.refl em')
  have hvalue := hrun hprepared.divides hleft.code hprepared.routines hprepared.represents hprepared.allows
  cases hv : eval values e with
  | error trap =>
    rw [hv] at hvalue
    exact hvalue.raises
  | ok v =>
    rw [hv] at hvalue
    obtain ⟨t, hreach, hpc, htleft, htright, hkept⟩ := hvalue
    have hevaluated : Confined stack d s t := .of_kept hreach hkept
    -- the address of the block is in the left register again, whether or not it was spilled
    have hstore := hprepared.right hpc hevaluated hprepared.apart
    obtain ⟨u, hreach', hpc', hureg, hmem, hregs⟩ := reaches_stored hstore.code
    rw [htleft, hreg] at hureg hmem
    refine ⟨u, hreach.reaches.trans hreach', ?_, hureg, ?_, ?_⟩
    · rw [hpc', hpc, List.length_append, Nat.add_assoc]
    · refine (hevaluated.mono Set.subset_union_left).trans (.of_regs (fun a ha => ?_) hregs)
      rw [hmem]
      refine Memory.store_of_not_mem_span _ (size_eq type) fun hspan => ha (.inr ?_)
      simpa using hspan
    · intro i w hw
      obtain ⟨rfl, rfl⟩ : i = 0 ∧ v = w := by
        cases i with
        | zero => exact ⟨rfl, Option.some.inj hw⟩
        | succ i => cases hw
      rw [Nat.mul_zero, Nat.add_zero, hmem, Memory.load_store _ _ _ (size_eq type), htright, stored]

end Blocks

end WaccArm
