import WaccArm.Emission.Stmt
import WaccArm.Proofs.Arrays.Bounds
import WaccArm.Proofs.Arrays.Nest
import WaccArm.Proofs.Scalar.Expr

namespace WaccArm

open Scalar Emission Arrays

namespace Machine

/-- A fault is reported by a run that keeps to an access. -/
def Faults (M : Machine) (A : Access) (s : State) : Fault → Prop
  | .trap trap => M.RaisesWithin A s trap
  | .negativeIndex => M.Reports A s Routine.negativeIndexMessage
  | .largeIndex => M.Reports A s Routine.largeIndexMessage

/-- From state `s`, the machine keeps to an access and gets to line `stop` with an address in the
register of depth `d` and all else kept, or reports the fault. -/
def Locates (M : Machine) (A : Access) (d : Depth) (s : State) (stop : Nat) : Except Fault Word → Prop
  | .ok a => ∃ t, M.ReachesWithin A s t ∧ t.pc = stop ∧ t.regs d.reg = a ∧ Kept d s t
  | .error fault => M.Faults A s fault

variable {M : Machine} {A : Access} {d : Depth} {s t : State}

/-- What happens later in a run happens in the run. -/
theorem Faults.of_reaches {fault : Fault} (hreach : M.ReachesWithin A s t) (h : M.Faults A t fault) :
    M.Faults A s fault := by
  cases fault with
  | trap trap => exact RaisesWithin.of_reaches hreach h
  | negativeIndex | largeIndex => exact Reports.of_reaches hreach h

/-- Code in front may run first, if it keeps what is kept. -/
theorem Locates.after {stop : Nat} {result : Except Fault Word} (h : M.Locates A d t stop result)
    (hreach : M.ReachesWithin A s t) (hkept : Kept d s t) : M.Locates A d s stop result := by
  cases result with
  | error fault => exact h.of_reaches hreach
  | ok a =>
    obtain ⟨u, hreach', hpc, hvalue, hkept'⟩ := h
    exact ⟨u, hreach.trans hreach', hpc, hvalue, hkept.trans hkept'⟩

end Machine

namespace Arrays

variable {M : Machine} {A : Access} {ctx : Context} {types : Types} {values : Values} {d : Depth}
  {s t : State}

/-- The reference is loaded, and the index and the reference are put in place for the check. -/
theorem reaches_prepared {slot address : Word} {code : List Instr}
    (hcode : M.Holds s.pc (Code.ofInstrs
      (.ldr d.left (.mem d.left 0) :: .movReg .r0 d.right :: .movReg .r1 d.left :: code)))
    (hleft : s.regs d.left = slot) (haddress : s.mem.readWord slot = address)
    (hloads : Word.span slot 4 ⊆ A.loads) :
    ∃ t, M.ReachesWithin A s t ∧ t.pc = s.pc + 3 ∧ t.regs .r0 = s.regs d.right ∧
      t.regs .r1 = address ∧ t.regs d.left = address ∧ t.regs d.right = s.regs d.right ∧
      t.mem = s.mem ∧ Kept d s t := by
  let first : State := (s.set d.left address).next
  let second : State := (first.set .r0 (first.regs d.right)).next
  let third : State := (second.set .r1 (second.regs d.left)).next
  have hslot : s.address? (.mem d.left 0) = some slot := by simp [State.address?, hleft]
  have hfirst : M.ReachesWithin A s first := by
    refine .exec (i := .load 4 d.left (.mem d.left 0)) hcode rfl ?_ ?_ fun _ _ => rfl
    · have hvalue : s.mem.load 4 slot = address := haddress
      rw [Machine.exec_load hslot, hvalue]
    · rw [Instr.loads_load hslot (.inr rfl)]
      exact hloads
  have hsecond : M.ReachesWithin A first second := .quiet hcode.2.2 rfl rfl rfl rfl
  have hthird : M.ReachesWithin A second third := .quiet hcode.2.2.2.2 rfl rfl rfl rfl
  obtain ⟨-, -, -, hl0, hl1⟩ := d.left_ne
  obtain ⟨-, -, -, hr0, hr1⟩ := d.right_ne
  have hne : d.right ≠ d.left := Ne.symm d.left_ne_right
  refine ⟨third, (hfirst.trans hsecond).trans hthird, rfl, ?_, ?_, ?_, ?_, rfl, .of_regs rfl ?_⟩
  · simp [third, second, first, hne]
  · simp [third, second, first, hl0]
  · simp [third, second, first, hl0, hl1]
  · simp [third, second, first, hr0, hr1, hne]
  · intro r hr
    obtain ⟨-, hl, -, -, -, h0, h1, -⟩ := Depth.ne_of_kept hr
    simp [third, second, first, hl, h0, h1]

/-- The operand for an index that is scaled by the size of the elements. -/
theorem operand_scaled {width : Nat} (hwidth : width = 1 ∨ width = 4) (s : State) (r : Register) :
    s.operand? (if width = 1 then .reg r else .shifted r (.lsl 2)) =
      some (BitVec.ofNat 32 (width * (s.regs r).toNat)) := by
  rcases hwidth with rfl | rfl
  · simp [State.operand?]
  · simp only [State.operand?, if_neg (by decide : ¬ (4 = 1)), Option.some.injEq]
    apply BitVec.eq_of_toNat_eq
    simp only [BitVec.toNat_shiftLeft, BitVec.toNat_ofNat, Nat.shiftLeft_eq]
    omega

/-- What a selection does after the check: it goes from the array to the element. -/
def follow (width : Nat) (d : Depth) : List Instr :=
  [.binary .add d.left d.left (.imm 4),
   .binary .add d.left d.left (if width = 1 then .reg d.right else .shifted d.right (.lsl 2))]
    ++ d.settle

/-- Behind a reference and its checked index is the element. -/
theorem reaches_element {width : Nat} (hwidth : width = 1 ∨ width = 4)
    (hcode : M.Holds s.pc (Code.ofInstrs (follow width d))) :
    ∃ t, M.ReachesWithin A s t ∧ t.pc = s.pc + (follow width d).length ∧
      t.regs d.reg = elementAt (s.regs d.left) width (s.regs d.right).toNat ∧ Kept d s t := by
  rw [follow, Code.ofInstrs, List.map_append] at hcode
  have hhead := hcode.left
  let first : State := (s.set d.left (s.regs d.left + 4)).next
  let second : State := (first.set d.left
    (first.regs d.left + BitVec.ofNat 32 (width * (s.regs d.right).toNat))).next
  have hfirst : M.ReachesWithin A s first := .quiet hhead rfl rfl rfl rfl
  have hright : first.regs d.right = s.regs d.right := by simp [first, Ne.symm d.left_ne_right]
  have hsecond : M.ReachesWithin A first second := by
    have hoperand := operand_scaled hwidth first d.right
    rw [hright] at hoperand
    refine .quiet hhead.2.2 rfl ?_ rfl rfl
    simp only [Machine.exec, Instr.binary, hoperand, Option.map_some, second]
  obtain ⟨t, hreach, hpc, hreg, hkept⟩ := reaches_settled (A := A) (s := second) hcode.right
  have hmoved : Kept d s second := by
    refine .of_regs rfl fun r hr => ?_
    have hl := (Depth.ne_of_kept hr).2.1
    simp [second, first, hl]
  refine ⟨t, (hfirst.trans hsecond).trans hreach, ?_, ?_, hmoved.trans hkept⟩
  · rw [hpc, follow, List.length_append]
    exact Nat.add_assoc s.pc 2 _
  · rw [hreg]
    simp [second, first, elementAt]

/-- One selection: from the address of a reference to an array to that of an element. -/
theorem select_locates {width : Nat} (hwidth : width = 1 ∨ width = 4) (d : Depth) (em : Emitter) :
    ∃ code em', select width d em = .ok (code, em') ∧ em.Grows em' ∧
      ∀ {M : Machine} {A : Access} {s : State} {slot address : Word} {length : Nat},
        M.Holds s.pc (Code.ofInstrs code) → M.ProvidesAll em' → A.Stack s 4 →
        s.regs d.left = slot → s.mem.readWord slot = address →
        (s.mem.readWord address).toNat = length → Word.span slot 4 ⊆ A.loads →
        (0 ≤ (s.regs d.right).toInt → Word.span address 4 ⊆ A.loads) →
        (∀ a ∈ Word.span address 4, a ∉ A.stores) →
        M.Locates A d s (s.pc + code.length)
          ((inRange length (.ok (s.regs d.right).toInt)).map fun i : Fin length =>
            elementAt address width i) := by
  refine ⟨[.ldr d.left (.mem d.left 0), .movReg .r0 d.right, .movReg .r1 d.left,
    .bl Routine.checkArrayBounds.label] ++ follow width d, _, rfl, em.grows_require _, ?_⟩
  intro M A s slot address length hcode hroutines hstack hleft haddress hlength hloads hloads' hunchanged
  obtain ⟨t, hreach, hpc, hr0, hr1, hl, hr, hmem, hkept⟩ :=
    reaches_prepared hcode hleft haddress hloads
  have hcheck : M.Holds t.pc
      (.instr (.bl Routine.checkArrayBounds.label) :: Code.ofInstrs (follow width d)) := by
    rw [hpc]
    exact hcode.2.2.2.2.2.2
  obtain ⟨hprovided, hdeps⟩ := hroutines.required
  have hreport : M.Provides .throwRuntimeError := hdeps _ (by decide)
  have hstack' : A.Stack t 4 := hstack.of_top_eq hkept.top_eq
  have hlength' : (t.mem.readWord (t.regs .r1)).toNat = length := by rw [hr1, hmem, hlength]
  rw [← hr1] at hloads' hunchanged
  by_cases hneg : (s.regs d.right).toInt < 0
  · rw [inRange_of_neg hneg]
    refine Machine.Reports.of_reaches hreach
      (Machine.reports_negativeIndex hprovided hreport hcheck ?_ hstack')
    rw [hr0]
    exact hneg
  have hpos : 0 ≤ (s.regs d.right).toInt := by omega
  have hindex : 0 ≤ (t.regs .r0).toInt := by
    rw [hr0]
    exact hpos
  have hnat : (s.regs d.right).toInt.toNat = (s.regs d.right).toNat := by
    have := BitVec.toInt_eq_toNat_cond (s.regs d.right)
    split at this <;> omega
  by_cases hsmall : (s.regs d.right).toInt.toNat < length
  · rw [inRange_of_lt hpos hsmall]
    obtain ⟨u, hchecked, hupc, hregs, hupper⟩ := Machine.check_index hprovided hcheck hindex
      (by rw [hlength', hr0, ← hnat]; exact hsmall) hstack' (hloads' hpos) hunchanged
    have hchecked' : Kept d t u := by
      refine ⟨hregs .sp (by decide) (by decide) (by decide), fun r hr => ?_, hupper⟩
      obtain ⟨-, -, -, hlr, hpc', -, hr1', -⟩ := Depth.ne_of_kept (.inr hr)
      exact hregs r hlr hpc' hr1'
    have hul : u.regs d.left = address :=
      (hregs d.left d.left_ne.2.1 d.left_ne.2.2.1 d.left_ne.2.2.2.2).trans hl
    have hur : u.regs d.right = s.regs d.right :=
      (hregs d.right d.right_ne.2.1 d.right_ne.2.2.1 d.right_ne.2.2.2.2).trans hr
    have hfollow : M.Holds u.pc (Code.ofInstrs (follow width d)) := by
      rw [hupc]
      exact hcheck.2.2
    obtain ⟨v, hfollowed, hvpc, hvalue, hkept'⟩ := reaches_element (A := A) hwidth hfollow
    refine ⟨v, (hreach.trans hchecked).trans hfollowed, ?_, ?_, (hkept.trans hchecked').trans hkept'⟩
    · rw [hvpc, hupc, hpc, List.length_append]
      exact Nat.add_assoc s.pc 4 _
    · rw [hvalue, hul, hur]
      exact congrArg (elementAt address width) hnat.symm
  · rw [inRange_of_le hpos (by omega)]
    exact Machine.Reports.of_reaches hreach (Machine.reports_largeIndex hprovided hreport hcheck
      hindex (by rw [hlength', hr0, ← hnat]; omega) hstack' (hloads' hpos) hunchanged)

/-- The bytes below the stack pointer that selections may use: for the values of the indices, and for
the return address in the check. -/
def indicesRoom : List Checked.Expr → Depth → Nat
  | [], _ => 0
  | index :: indices, d =>
    max (max (if d.exhausted then 4 + room index d else room index d.next) 4) (indicesRoom indices d)

/-- The elements of an array that is not the last one selected from are references. -/
theorem width_eq {elem size n : Nat} {indices : List Checked.Expr} (hlen : indices.length ≤ n)
    (hsize : size = width elem (n - indices.length)) :
    (if indices.isEmpty then size else 4) = width elem n := by
  cases indices with
  | nil => simpa using hsize
  | cons index indices =>
    rw [List.length_cons] at hlen
    simp only [List.isEmpty_cons, Bool.false_eq_true, if_false, width]
    rw [if_neg (by omega)]

/-- References take four bytes, and cells one or four. -/
theorem width_cases {elem : Nat} (helem : elem = 1 ∨ elem = 4) (n : Nat) :
    width elem n = 1 ∨ width elem n = 4 := by
  rw [width]
  split
  · exact helem
  · exact .inr rfl

/-- Following indices from the address of a reference to an array. -/
theorem selections_locate {elem : Nat} (helem : elem = 1 ∨ elem = 4) (hcovers : Covers ctx types)
    {indices : List Checked.Expr} (htyped : ∀ e ∈ indices, Typed types e .int) {n size : Nat}
    (hlen : indices.length ≤ n) (hsize : size = width elem (n - indices.length)) (d : Depth)
    (em : Emitter) :
    ∃ code em', selections size indices ctx d em = .ok (code, em') ∧ em.Grows em' ∧
      ∀ {M : Machine} {A : Access} {s : State} {values : Values} {nest : Nest n} {slot : Word},
        M.Divides → M.Holds s.pc (Code.ofInstrs code) → M.ProvidesAll em' →
        Represents ctx types values s → Allows M A ctx types s (indicesRoom indices d) →
        s.regs d.reg = slot → nest.Held elem s.mem slot → (∀ a ∈ nest.words elem slot, a ∉ A.stores) →
        nest.needed elem slot (indices.map (eval values)) ⊆ A.loads →
        M.Locates A d s (s.pc + code.length) (nest.locate elem slot (indices.map (eval values))) := by
  induction indices generalizing n em with
  | nil =>
    refine ⟨[], em, by rw [selections]; rfl, .refl em, ?_⟩
    intro M A s values nest slot _ _ _ _ _ hreg _ _ _
    rw [List.map_nil, Nest.locate_nil]
    exact ⟨s, .refl s, rfl, hreg, .refl d s⟩
  | cons index indices ih =>
    obtain ⟨m, rfl⟩ : ∃ m, n = m + 1 := ⟨n - 1, by rw [List.length_cons] at hlen; omega⟩
    rw [List.length_cons] at hlen hsize
    rw [Nat.add_sub_add_right] at hsize
    have hindex : Typed types index .int := htyped index (List.mem_cons_self ..)
    obtain ⟨code₁, em₁, hcode₁, hgrows₁, hrun₁⟩ :=
      operand_runs (d := d) hcovers fun _ d h => hindex.runsWithin h d em
    obtain ⟨code₂, em₂, hcode₂, hgrows₂, hrun₂⟩ := select_locates (width_cases helem m) d em₁
    obtain ⟨code₃, em₃, hcode₃, hgrows₃, hrun₃⟩ :=
      ih (fun e he => htyped e (List.mem_cons_of_mem _ he)) (Nat.le_of_succ_le_succ hlen) hsize em₂
    refine ⟨code₁ ++ code₂ ++ code₃, em₃, ?_, (hgrows₁.trans hgrows₂).trans hgrows₃, ?_⟩
    · rw [selections, width_eq (Nat.le_of_succ_le_succ hlen) hsize, Emit.bind_of_ok hcode₁,
        Emit.bind_of_ok hcode₂, Emit.bind_of_ok hcode₃]
      rfl
    intro M A s values nest slot hdivides hholds hprovides hrep hallows hreg hheld hwords hneeded
    simp only [Code.ofInstrs, List.map_append] at hholds
    simp only [indicesRoom] at hallows
    rw [List.map_cons] at hneeded ⊢
    have hleft := hrun₁ hdivides hholds.left.left (hprovides.of_grows (hgrows₂.trans hgrows₃)) hrep
      (hallows.mono ((Nat.le_max_left _ _).trans (Nat.le_max_left _ _)))
    cases nest with
    | array address length row =>
    rw [Nest.locate]
    -- the index is evaluated before anything of the array is loaded, so its trap comes first
    cases hv : eval values index with
    | error trap =>
      rw [hv] at hleft
      exact hleft
    | ok v =>
      rw [hv] at hleft hneeded
      obtain ⟨t, hreach, hpc, htleft, htright, hkept⟩ := hleft
      -- arrays and stack are apart, so the nest is still held
      obtain ⟨hreference, hlength, -⟩ := hheld.of_words fun a ha => hreach.mem_eq (hwords a ha)
      have hholds₂ : M.Holds t.pc (Code.ofInstrs code₂) := by
        rw [hpc]
        simpa [Code.ofInstrs] using hholds.left.right
      have hstack : A.Stack t 4 := (hallows.stack.mono
        ((Nat.le_max_right _ _).trans (Nat.le_max_left _ _))).of_top_eq hkept.top_eq
      have hselected := hrun₂ hholds₂ (hprovides.of_grows hgrows₃) hstack (htleft.trans hreg)
        hreference hlength ((Nest.span_slot_subset_needed v).trans hneeded)
        (fun hpos => (Nest.span_address_subset_needed (htright ▸ hpos)).trans hneeded)
        fun a ha => hwords a (.inl (.inr ha))
      rw [htright] at hselected
      cases hrange : inRange length (.ok v) with
      | error fault =>
        rw [hrange] at hselected
        exact hselected.of_reaches hreach
      | ok i =>
        rw [hrange] at hselected
        obtain ⟨u, hreach', hpc', hureg, hkept'⟩ := hselected
        have hkept := hkept.trans hkept'
        have hreach := hreach.trans hreach'
        have hstart : u.pc = s.pc + (code₁ ++ code₂).length := by
          rw [hpc', hpc, List.length_append, Nat.add_assoc]
        have hholds₃ : M.Holds u.pc (Code.ofInstrs code₃) := by
          rw [hstart]
          simpa [Code.ofInstrs] using hholds.right
        obtain ⟨-, -, hrows⟩ := hheld.of_words fun a ha => hreach.mem_eq (hwords a ha)
        have hrest := hrun₃ hdivides hholds₃ hprovides (hrep.of_kept hkept)
          ((hallows.mono (Nat.le_max_right _ _)).of_top_eq hkept.top_eq) hureg (hrows i)
          (fun a ha => hwords a (.inr (Set.mem_iUnion.2 ⟨i, ha⟩)))
          ((Nest.row_subset_needed hrange).trans hneeded)
        rw [hstart] at hrest
        rw [List.length_append, ← Nat.add_assoc]
        exact hrest.after hreach hkept

/-- The address of a slot. -/
def slotAddress (ctx : Context) (slot : Slot) (s : State) : Word :=
  BitVec.ofInt 32 (s.top + (ctx.frame.displacement - slot.depth))

/-- The address of a variable is on the stack. -/
theorem reaches_slot {slot : Slot}
    (hcode : M.Holds s.pc (Code.ofInstrs (ctx.address d.reg slot))) :
    ∃ t, M.ReachesWithin A s t ∧ t.pc = s.pc + (ctx.address d.reg slot).length ∧
      t.regs d.reg = slotAddress ctx slot s ∧ t.mem = s.mem ∧ Kept d s t := by
  rw [slotAddress, ← address_eq]
  simp only [Context.address] at hcode ⊢
  split at hcode
  · rename_i hreach
    rw [if_pos hreach]
    refine ⟨(s.set d.reg _).next, .quiet hcode rfl rfl rfl rfl, rfl, by simp, rfl,
      .of_regs rfl fun r hr => ?_⟩
    have hne := (Depth.ne_of_kept hr).1
    simp [hne]
  · rename_i hreach
    rw [if_neg hreach]
    let far : State := (s.set .r12 (BitVec.ofInt 32 (ctx.frame.offset slot))).next
    have hfar : M.ReachesWithin A s far := .quiet hcode rfl rfl rfl rfl
    refine ⟨(far.set d.reg _).next, hfar.trans (.quiet hcode.2.2 rfl rfl rfl rfl), rfl, ?_, rfl,
      .of_regs rfl fun r hr => ?_⟩
    · simp [far, scratch]
    · obtain ⟨hne, -, -, -, -, -, -, hscratch⟩ := Depth.ne_of_kept hr
      simp [far, hne, hscratch]

/-- What is selected with fewer indices than dimensions is a reference. -/
theorem size_of_index {type elem result : Ty} {dims k : Nat} (hdims : type.dims? = some dims)
    (helem : type.index? dims = some elem) (hresult : type.index? k = some result) :
    k ≤ dims ∧ result.size = width elem.size (dims - k) := by
  simp only [Ty.dims?, Ty.index?] at hdims helem hresult
  split at hdims
  · rename_i hspelled
    cases hdims
    simp only [hspelled, Nat.lt_irrefl, if_false, if_true] at helem hresult
    split at hresult
    · cases hresult
      refine ⟨by omega, ?_⟩
      rw [width, if_neg (by omega)]
      rfl
    · split at hresult
      · rename_i heq
        subst heq
        cases helem.symm.trans hresult
        exact ⟨Nat.le_refl _, by simp [width]⟩
      · cases hresult
  · cases hdims

/-- Code is made for the address of an element of every array variable, with as many indices as there
are dimensions or fewer, at every depth. It gets to its end with the address of the element in the
register of the depth, or to the routine that reports the first index that has no value or is out of
range. Of the arrays it loads the references and lengths that are needed to tell. -/
theorem element_address_locates {type elem result : Ty} {dims : Nat} (hdims : type.dims? = some dims)
    (helem : type.index? dims = some elem) {name : String} {slot : Slot}
    (hslot : ctx.slots.lookup? name (fun _ => true) = some slot) (hcovers : Covers ctx types)
    {indices : List Checked.Expr} (hresult : type.index? indices.length = some result)
    (htyped : ∀ e ∈ indices, Typed types e .int) (d : Depth) (em : Emitter) :
    ∃ code em', Emission.address (.elem result name indices) ctx d em = .ok (code, em') ∧
      ∀ (M : Machine) (s : State) (values : Values) (nest : Nest dims) (stores : Set Word),
        M.Divides → M.DivisionWithin stores → M.Holds s.pc (Code.ofInstrs code) → M.ProvidesAll em' →
        Represents ctx types values s → indicesRoom indices d ≤ s.top →
        s.below (indicesRoom indices d) ⊆ stores →
        nest.Held elem.size s.mem (slotAddress ctx slot s) →
        (∀ a ∈ nest.words elem.size (slotAddress ctx slot s), a ∉ stores) →
        M.Locates
          ⟨s.below (indicesRoom indices d) ∪ storage ctx types s ∪
            nest.needed elem.size (slotAddress ctx slot s) (indices.map (eval values)), stores⟩
          d s (s.pc + code.length)
          (nest.locate elem.size (slotAddress ctx slot s) (indices.map (eval values))) := by
  obtain ⟨hlen, hsize⟩ := size_of_index hdims helem hresult
  obtain ⟨code, em', hcode, _, hrun⟩ :=
    selections_locate (size_eq elem) hcovers htyped hlen hsize d em
  have hok : ctx.slot name em = .ok (slot, em) := by
    rw [Context.slot, hslot]
    rfl
  refine ⟨ctx.address d.reg slot ++ code, em', ?_, ?_⟩
  · rw [Emission.address, Emit.bind_of_ok hok, Emit.bind_of_ok hcode]
    rfl
  intro M s values nest stores hdivides hdivision hholds hprovides hrep hroom hbelow hheld hwords
  rw [Code.ofInstrs, List.map_append] at hholds
  obtain ⟨t, hreach, hpc, hreg, hmem, hkept⟩ := reaches_slot hholds.left
  have hholds' : M.Holds t.pc (Code.ofInstrs code) := by
    rw [hpc]
    simpa [Code.ofInstrs] using hholds.right
  have hallows : Allows M ⟨s.below (indicesRoom indices d) ∪ storage ctx types s ∪
      nest.needed elem.size (slotAddress ctx slot s) (indices.map (eval values)), stores⟩ ctx types s
      (indicesRoom indices d) :=
    ⟨⟨hroom, Set.subset_union_left.trans Set.subset_union_left, hbelow⟩,
      Set.subset_union_right.trans Set.subset_union_left, hdivision⟩
  have h := hrun hdivides hholds' hprovides (hrep.of_kept hkept) (hallows.of_top_eq hkept.top_eq) hreg
    (by rw [hmem]; exact hheld) hwords Set.subset_union_right
  rw [hpc] at h
  rw [List.length_append, ← Nat.add_assoc]
  exact h.after hreach hkept

namespace Grid

/-- The indices in `a[x][x + 1]`. -/
def indices : List Checked.Expr :=
  [.var .int "x", .binary .int .add (.var .int "x") (.int .int 1)]

def typeOf : Types := fun name => if name = "x" then some .int else none

def valueOf (x : Int) : Values := fun name => if name = "x" then some x else none

def context : Context := ⟨[[("x", ⟨8, 4⟩), ("a", ⟨4, 4⟩)]], ⟨8, [⟨0, 8, 8⟩]⟩⟩

def code : List Instr :=
  match Emission.address (.elem .char "a" indices) context (.nested 6) {} with
  | .ok (code, _) => code
  | .error _ => []

def machine : Machine :=
  .linked (Code.ofInstrs code)
    [.checkArrayBounds, .throwRuntimeError, .printString, .throwOverflowError] (by decide)

/-- An array without elements, and one with three characters. -/
def nest : Nest 2 :=
  .array 0x2000 2 fun i =>
    if i = 0 then .array 0x2100 0 fun _ => .cell else .array 0x2200 3 fun _ => .cell

/-- The value of `x` is in the word at the stack pointer, the reference to the nest in the one after
it. -/
def state (x : BitVec 8) : State where
  regs r := if r = .sp then 0x8000 else 0
  flags := ⟨false, false, false, false⟩
  mem a :=
    if a = 0x8000 then x else if a = 0x8005 then 0x20 else if a = 0x2000 then 2
    else if a = 0x2005 then 0x21 else if a = 0x2009 then 0x22 else if a = 0x2200 then 3 else 0
  pc := 0

theorem held (x : BitVec 8) : nest.Held 1 (state x).mem 0x8004 := by
  refine ⟨by simp [Memory.readWord, state], by simp [Memory.readWord, state],
    Fin.forall_fin_two.2 ⟨?_, ?_⟩⟩
  · refine ⟨by simp [Memory.readWord, state, elementAt, width], by simp [Memory.readWord, state], ?_⟩
    exact fun i => i.elim0
  · refine ⟨by simp [Memory.readWord, state, elementAt, width], by simp [Memory.readWord, state], ?_⟩
    exact fun _ => trivial

/-- The nest is not in the stack. -/
theorem words_disjoint (x : BitVec 8) : ∀ a ∈ nest.words 1 0x8004, a ∉ (state x).below 8 := by
  have hspan (a b : Word) (hb : b.toNat + 4 ≤ 0x7ff8 ∨ b = 0x8004) (ha : a ∈ Word.span b 4) :
      a ∉ (state x).below 8 := by
    have htop : (state x).top = 0x8000 := rfl
    rw [State.mem_below, htop]
    rw [Word.mem_span] at ha
    rcases hb with hb | rfl
    · bv_omega
    · bv_omega
  intro a ha
  rcases ha with (ha | ha) | ha
  · exact hspan a _ (.inr rfl) ha
  · exact hspan a _ (.inl (by decide)) ha
  · obtain ⟨i, ha⟩ := Set.mem_iUnion.1 ha
    revert i
    refine Fin.forall_fin_two.2 ⟨fun ha => ?_, fun ha => ?_⟩
    · rcases ha with (ha | ha) | ha
      · exact hspan a _ (.inl (by decide)) ha
      · exact hspan a _ (.inl (by decide)) ha
      · obtain ⟨i, _⟩ := Set.mem_iUnion.1 ha
        exact i.elim0
    · rcases ha with (ha | ha) | ha
      · exact hspan a _ (.inl (by decide)) ha
      · exact hspan a _ (.inl (by decide)) ha
      · obtain ⟨_, ha⟩ := Set.mem_iUnion.1 ha
        cases ha

theorem covers : Covers context typeOf := by
  intro name type hname _
  simp only [typeOf] at hname
  split at hname
  · rename_i heq
    subst heq
    cases hname
    exact ⟨_, rfl, rfl⟩
  · cases hname

/-- The variable `x` lies in the frame. -/
theorem represents {x : BitVec 8} (hx : x = 1 ∨ x = 2) :
    Represents context typeOf (valueOf x.toNat) (state x) := by
  intro name type slot hname _ hslot
  simp only [typeOf] at hname
  split at hname
  · rename_i heq
    subst heq
    cases hname
    cases hslot
    refine ⟨x.toNat, 0x8000, rfl, by simp, rfl, Nat.le_refl 0x8000, by decide, ?_⟩
    rcases hx with rfl | rfl <;> decide
  · cases hname

end Grid

/-- With no register left, `a[1][2]` is found in the second array. `a[2][3]` is reported, and nothing is
loaded of the nest but the reference to it and its length. -/
theorem element_address_locates_grid :
    (∃ t, Grid.machine.Reaches (Grid.state 1) t ∧ t.pc = Grid.code.length ∧
      t.regs .r11 = 0x2206 ∧ Kept (.nested 6) (Grid.state 1) t) ∧
    Grid.machine.Reports
      ⟨(Grid.state 2).below 8 ∪ storage Grid.context Grid.typeOf (Grid.state 2) ∪
        (Word.span 0x8004 4 ∪ Word.span 0x2000 4), (Grid.state 2).below 8⟩
      (Grid.state 2) Routine.largeIndexMessage := by
  have hx : Typed Grid.typeOf (.var .int "x") .int := .var rfl rfl
  have htyped : ∀ e ∈ Grid.indices, Typed Grid.typeOf e .int := by
    intro e he
    simp only [Grid.indices, List.mem_cons, List.not_mem_nil, or_false] at he
    rcases he with rfl | rfl
    · exact hx
    · exact .arithmetic rfl hx (.int 1)
  have hdims : (Ty.array (some .char) 2).dims? = some 2 := rfl
  have helem : (Ty.array (some .char) 2).index? 2 = some .char := rfl
  have hresult : (Ty.array (some .char) 2).index? Grid.indices.length = some .char := rfl
  have hslot : Grid.context.slots.lookup? "a" (fun _ => true) = some ⟨4, 4⟩ := rfl
  obtain ⟨code, em, hcode, hrun⟩ := element_address_locates hdims helem hslot Grid.covers
    hresult htyped (.nested 6) {}
  cases hcode
  have hroom : indicesRoom Grid.indices (.nested 6) ≤ 0x8000 := by decide
  have hnodup : (Assembly.defined Grid.machine.text).Nodup := by decide
  have hlocates {x : BitVec 8} (hx : x = 1 ∨ x = 2) := hrun Grid.machine (Grid.state x)
    (Grid.valueOf x.toNat) Grid.nest ((Grid.state x).below 8)
    (Machine.linked_divides (by decide) (by decide)) (Machine.linked_divisionWithin _)
    (Machine.linked_holds hnodup) (Machine.providesAll_of_text rfl rfl hnodup (by decide) (by decide +kernel))
    (Grid.represents hx) hroom (fun _ ha => ha) (Grid.held x) (Grid.words_disjoint x)
  constructor
  · obtain ⟨t, hreach, hrest⟩ := hlocates (.inl rfl)
    exact ⟨t, hreach.reaches, hrest⟩
  · exact hlocates (.inr rfl)

end Arrays

end WaccArm
