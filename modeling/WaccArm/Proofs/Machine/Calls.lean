import WaccArm.Proofs.Stack.Flow

namespace WaccArm

namespace Memory

/-- Registers that are stored only change their own bytes. -/
theorem storeAll_of_outside (regs : Register → Word) {rs : List Register} {a b : Word} (mem : Memory)
    (hend : a.toNat + 4 * rs.length < 2 ^ 32)
    (h : b.toNat < a.toNat ∨ a.toNat + 4 * rs.length ≤ b.toNat) :
    storeAll regs rs a mem b = mem b := by
  induction rs generalizing a mem with
  | nil => rfl
  | cons r rs ih =>
    rw [List.length_cons] at hend h
    rw [storeAll, ih _ (by bv_omega) (by bv_omega)]
    exact writeWord_of_outside _ _ (by omega) (by omega)

/-- Registers come back with what they were stored with, if the bytes have not changed. -/
theorem loadAll_of_stored {regs regs' : Register → Word} {rs : List Register} {a : Word}
    (mem : Memory) {mem' : Memory} (hnodup : rs.Nodup) (hend : a.toNat + 4 * rs.length < 2 ^ 32)
    (hmem : ∀ b : Word, a.toNat ≤ b.toNat → b.toNat < a.toNat + 4 * rs.length →
      mem' b = storeAll regs rs a mem b) (r : Register) :
    mem'.loadAll rs a regs' r = if r ∈ rs then regs r else regs' r := by
  induction rs generalizing a mem regs' with
  | nil => simp [loadAll]
  | cons q rs ih =>
    rw [List.length_cons] at hend hmem
    obtain ⟨hq, hnodup⟩ := List.nodup_cons.1 hnodup
    have hfirst : mem'.readWord a = (mem.writeWord a (regs q)).readWord a := by
      refine readWord_congr (by omega) fun b hle hlt => ?_
      rw [hmem b hle (by omega), storeAll]
      exact storeAll_of_outside _ _ (by bv_omega) (.inl (by bv_omega))
    rw [readWord_writeWord] at hfirst
    have hothers := @ih (fun r => if r = q then mem'.readWord a else regs' r) (a + 4)
      (mem.writeWord a (regs q)) hnodup (by bv_omega)
      fun b hle hlt => hmem b (by bv_omega) (by bv_omega)
    rw [loadAll, hothers, hfirst]
    by_cases hr : r = q
    · subst hr
      simp [hq]
    · simp [hr]

end Memory

/-- The routines that are no functions of the program. -/
def runtimeLabels : List String := externals ++ Routine.all.map Routine.label

namespace Instr

/-- The bytes that code takes off the stack before it does anything else. After a call these are
its arguments. -/
def released : List Instr → Nat
  | { opcode := .add, cond := .always, operands := [.reg .sp, .reg .sp, .imm n] } :: is =>
    n.toNat + released is
  | _ => 0

/-- What stands behind a call says how many bytes it gives back. -/
theorem released_adjust (bytes : Nat) (dst src : Register) (is : List Instr) :
    released (Stack.adjust .add bytes ++ movReg dst src :: is) = bytes := by
  have hsteps : ∀ steps : List Nat,
      released (steps.map (fun n => binary .add .sp .sp (.imm (n : Nat))) ++ movReg dst src :: is) =
        steps.sum := by
    intro steps
    induction steps with
    | nil => rfl
    | cons n steps ih =>
      rw [List.map_cons, List.cons_append, binary, released, ih, List.sum_cons, Int.toNat_natCast]
  rw [Stack.adjust, hsteps, Stack.sum_steps]

/-- An instruction that writes neither memory nor what evaluation at depth `d` keeps, or calls a
routine. -/
def Spares (d : Depth) (i : Instr) : Prop :=
  (∃ name ∈ runtimeLabels, ∃ cond, i = (bl name).when cond) ∨
    (i.opcode ∉ [.str, .strb, .push, .pop, .bl] ∧ ∀ r ∈ i.writes, r ≠ .sp ∧ r ∉ d.live)

/-- Whether the constants from the literal pool are words. -/
def WordLiterals (i : Instr) : Prop :=
  ∀ o ∈ i.operands, ∀ value, o = .literal value → -2 ^ 31 ≤ value ∧ value < 2 ^ 32

end Instr

/-- What code runs in: the stack, and what its calls come back with. -/
structure World where
  /-- The stack is at the addresses from `limit` up to `base`. -/
  limit : Nat
  base : Nat
  /-- Whether a call of a label, with so many bytes of arguments on the stack, may come back from one
  state in another one. -/
  returns : String → Nat → State → State → Prop

namespace World

/-- Whether `bytes` at an address are outside the stack. -/
def Clear (W : World) (a : Word) (bytes : Nat) : Prop :=
  a.toNat + bytes ≤ 2 ^ 32 ∧ (a.toNat + bytes ≤ W.limit ∨ W.base ≤ a.toNat)

/-- Whether the stack pointer is on the stack and stays there when an instruction moves it. -/
def Room (W : World) (s : State) (i : Instr) : Prop :=
  s.top ≤ W.base ∧ ∀ n : Int, i.lowers? = some n → W.limit + n ≤ s.top

/-- The calling convention. A function gives back nothing but the stack pointer and the stack above
its arguments. A routine only changes the registers that no routine has to give back, and memory that
is not on the stack. -/
structure Conventional (W : World) : Prop where
  base_le : W.base ≤ 2 ^ 32
  function : ∀ name bytes s t, W.returns name bytes s t → t.regs .sp = s.regs .sp ∧
    ∀ a : Word, s.top + bytes ≤ a.toNat → a.toNat < W.base → t.mem a = s.mem a
  routine : ∀ name ∈ runtimeLabels, ∀ bytes s t, W.returns name bytes s t →
    (∀ r ∈ calleeSaved, t.regs r = s.regs r) ∧
    ∀ a : Word, s.top ≤ a.toNat → a.toNat < W.base → t.mem a = s.mem a
  malloc : ∀ bytes s t, W.returns "malloc" bytes s t → W.Clear (t.regs .r0) (s.regs .r0).toNat

/-- What evaluation at depth `d` keeps: the registers of smaller depths, the stack pointer, and the
stack from the stack pointer up. -/
structure Intact (W : World) (d : Depth) (s t : State) : Prop where
  sp : t.regs .sp = s.regs .sp
  live : ∀ r ∈ d.live, t.regs r = s.regs r
  mem : ∀ a : Word, s.top ≤ a.toNat → a.toNat < W.base → t.mem a = s.mem a

namespace Intact

variable {W : World} {d : Depth} {s t u : State}

theorem top_eq (h : W.Intact d s t) : t.top = s.top := by rw [State.top, State.top, h.sp]

theorem refl (W : World) (d : Depth) (s : State) : W.Intact d s s :=
  ⟨rfl, fun _ _ => rfl, fun _ _ _ => rfl⟩

/-- What is intact after each of two runs is intact after both. -/
theorem trans (h : W.Intact d s t) (h' : W.Intact d t u) : W.Intact d s u where
  sp := h'.sp.trans h.sp
  live r hr := (h'.live r hr).trans (h.live r hr)
  mem a hle hlt := (h'.mem a (h.top_eq ▸ hle) hlt).trans (h.mem a hle hlt)

/-- A deeper evaluation keeps at least as much. -/
theorem of_next (h : W.Intact d.next s t) : W.Intact d s t :=
  ⟨h.sp, fun r hr => h.live r (d.live_subset_next hr), h.mem⟩

/-- Memory outside the stack does not count. -/
theorem of_regs (h : ∀ r, r = .sp ∨ r ∈ d.live → t.regs r = s.regs r)
    (hmem : ∀ a : Word, s.top ≤ a.toNat → a.toNat < W.base → t.mem a = s.mem a) : W.Intact d s t :=
  ⟨h .sp (.inl rfl), fun r hr => h r (.inr hr), hmem⟩

end Intact

/-- What evaluation at depth `d` keeps while it leaves `bytes` on the stack. -/
structure Lowered (W : World) (d : Depth) (bytes : Nat) (s t : State) : Prop where
  top : t.top + bytes = s.top
  live : ∀ r ∈ d.live, t.regs r = s.regs r
  mem : ∀ a : Word, s.top ≤ a.toNat → a.toNat < W.base → t.mem a = s.mem a

end World

namespace Machine

/-- A run of straight code from its first line to the line after it, where `rest` is the code from
there on. Literals are words, and the stack pointer stays on the stack. -/
inductive Runs (M : Machine) (W : World) (rest : List Instr) : List Instr → State → State → Prop
  | nil (s : State) : M.Runs W rest [] s s
  | skip {i is s t} (hcond : i.cond.holds s.flags = false) (h : M.Runs W rest is s.next t) :
    M.Runs W rest (i :: is) s t
  | exec {i is s u t} (hcond : i.cond.holds s.flags = true) (hop : i.opcode ≠ .bl)
    (hword : i.WordLiterals) (hroom : W.Room s i)
    (hexec : M.exec s i = some u) (hnext : u.pc = s.pc + 1) (h : M.Runs W rest is u t) :
    M.Runs W rest (i :: is) s t
  | call {cond name is s u t} (hcond : cond.holds s.flags = true)
    (hreturns : W.returns name (Instr.released (is ++ rest)) (s.set .lr (M.place (s.pc + 1))) u)
    (h : M.Runs W rest is { u with pc := s.pc + 1 } t) :
    M.Runs W rest ((Instr.bl name).when cond :: is) s t

variable {M : Machine} {W : World} {rest is is' : List Instr} {i : Instr} {s t u : State}

/-- Code in two parts runs one after the other. -/
theorem Runs.split (h : M.Runs W rest (is ++ is') s t) :
    ∃ u, M.Runs W (is' ++ rest) is s u ∧ M.Runs W rest is' u t := by
  induction is generalizing s with
  | nil => exact ⟨s, .nil s, h⟩
  | cons i is ih =>
    rw [List.cons_append] at h
    cases h with
    | skip hcond h =>
      obtain ⟨u, hfirst, hsecond⟩ := ih h
      exact ⟨u, .skip hcond hfirst, hsecond⟩
    | exec hcond hop hword hroom hexec hnext h =>
      obtain ⟨u, hfirst, hsecond⟩ := ih h
      exact ⟨u, .exec hcond hop hword hroom hexec hnext hfirst, hsecond⟩
    | call hcond hreturns h =>
      obtain ⟨u, hfirst, hsecond⟩ := ih h
      rw [List.append_assoc] at hreturns
      exact ⟨u, .call hcond hreturns hfirst, hsecond⟩

/-- Runs of code that stands together are one run. -/
theorem Runs.append (h : M.Runs W (is' ++ rest) is s u) (h' : M.Runs W rest is' u t) :
    M.Runs W rest (is ++ is') s t := by
  induction h with
  | nil => exact h'
  | skip hcond _ ih => exact .skip hcond (ih h')
  | exec hcond hop hword hroom hexec hnext _ ih => exact .exec hcond hop hword hroom hexec hnext (ih h')
  | call hcond hreturns _ ih =>
    rw [← List.append_assoc] at hreturns
    exact .call hcond hreturns (ih h')

/-- A run that starts with an instruction. -/
theorem exists_runs_exec {P : State → Prop} (hcond : i.cond.holds s.flags = true)
    (hop : i.opcode ≠ .bl) (hword : i.WordLiterals) (hroom : W.Room s i) (hexec : M.exec s i = some u)
    (hnext : u.pc = s.pc + 1) (h : ∃ t, M.Runs W rest is u t ∧ P t) :
    ∃ t, M.Runs W rest (i :: is) s t ∧ P t := by
  obtain ⟨t, hrun, hend⟩ := h
  exact ⟨t, .exec hcond hop hword hroom hexec hnext hrun, hend⟩

/-- A run that starts with a call that returns. -/
theorem exists_runs_call {P : State → Prop} {name : String}
    (hreturns : W.returns name (Instr.released (is ++ rest)) (s.set .lr (M.place (s.pc + 1))) u)
    (h : ∃ t, M.Runs W rest is { u with pc := s.pc + 1 } t ∧ P t) :
    ∃ t, M.Runs W rest (.bl name :: is) s t ∧ P t := by
  obtain ⟨t, hrun, hend⟩ := h
  exact ⟨t, .call rfl hreturns hrun, hend⟩

theorem Runs.eq_of_nil (h : M.Runs W rest [] s t) : t = s := by
  cases h
  rfl

/-- An instruction without a condition is executed. -/
theorem Runs.executed (h : M.Runs W rest (i :: is) s t) (hcond : i.cond = .always)
    (hop : i.opcode ≠ .bl) :
    ∃ u, M.exec s i = some u ∧ i.WordLiterals ∧ W.Room s i ∧ M.Runs W rest is u t := by
  cases h with
  | skip hskip _ =>
    rw [hcond] at hskip
    exact absurd hskip (by simp [Cond.holds])
  | exec _ _ hword hroom hexec _ h => exact ⟨_, hexec, hword, hroom, h⟩
  | call => exact absurd rfl hop

/-- A call without a condition comes back. -/
theorem Runs.called {name : String} (h : M.Runs W rest (.bl name :: is) s t) :
    ∃ u, W.returns name (Instr.released (is ++ rest)) (s.set .lr (M.place (s.pc + 1))) u ∧
      M.Runs W rest is { u with pc := s.pc + 1 } t := by
  cases h with
  | skip hskip _ => exact absurd hskip (by simp [Instr.bl, Cond.holds])
  | exec _ hop => exact absurd rfl hop
  | call _ hreturns h => exact ⟨_, hreturns, h⟩

/-- An instruction that neither stores nor goes to the stack changes the register that it writes. -/
theorem exec_calm (h : M.exec s i = some u) (hop : i.opcode ∉ [.str, .strb, .push, .pop, .bl]) :
    u.mem = s.mem ∧ ∀ r, r ∉ i.writes → u.regs r = s.regs r := by
  obtain ⟨opcode, cond, operands⟩ := i
  unfold exec at h
  split at h
  case h_24 => nomatch h
  all_goals
    rename_i hopcode hoperands
    obtain rfl : opcode = _ := hopcode
    obtain rfl : operands = _ := hoperands
    first
    | cases h
      simp +contextual [Instr.writes]
      done
    | obtain ⟨_, _, rfl⟩ := Option.map_eq_some_iff.1 h
      simp +contextual [Instr.writes, setBoth]
      done
    | simp at hop

/-- What calm instructions and calls of routines leave alone. -/
theorem Runs.intact {d : Depth} (h : M.Runs W rest is s t) (hW : W.Conventional)
    (hspares : ∀ i ∈ is, i.Spares d) : W.Intact d s t := by
  induction h with
  | nil s => exact .refl W d s
  | skip _ _ ih =>
    have hpassed := ih fun i hi => hspares i (List.mem_cons_of_mem _ hi)
    exact ⟨hpassed.sp, hpassed.live, hpassed.mem⟩
  | @exec i is s u t _ hop _ _ hexec _ _ ih =>
    refine .trans ?_ (ih fun i hi => hspares i (List.mem_cons_of_mem _ hi))
    rcases hspares i List.mem_cons_self with ⟨name, _, cond, rfl⟩ | ⟨hcalm, hwrites⟩
    · exact absurd rfl hop
    · obtain ⟨hmem, hregs⟩ := exec_calm hexec hcalm
      refine .of_regs (fun r hr => hregs r fun hwritten => ?_) fun a _ _ => by rw [hmem]
      exact (hwrites r hwritten).elim fun hsp hlive => hr.elim hsp hlive
  | @call cond name is s u t _ hreturns _ ih =>
    refine .trans ?_ (ih fun i hi => hspares i (List.mem_cons_of_mem _ hi))
    rcases hspares _ List.mem_cons_self with ⟨name', hname, cond', heq⟩ | ⟨hcalm, _⟩
    · obtain ⟨rfl⟩ : name = name' := by simpa [Instr.bl, Instr.when] using congrArg Instr.operands heq
      obtain ⟨hregs, hmem⟩ := hW.routine name hname _ _ _ hreturns
      refine .of_regs (fun r hr => ?_) hmem
      have hsaved : r ∈ calleeSaved := by
        rcases hr with rfl | hr
        · decide
        · exact (Depth.ne_of_mem_pool (d.live_subset_pool hr)).1
      have hlr : r ≠ .lr := (Depth.ne_of_kept hr).2.2.2.1
      simpa [hlr] using hregs r hsaved
    · exact absurd (by simp [Instr.bl, Instr.when]) hcalm

/-- What is stored outside the stack. -/
theorem Runs.stored {d : Depth} {size : Nat} {src : Register} {dst : Operand} {a : Word}
    (h : M.Runs W rest (.store size src dst :: is) s t) (haddress : s.address? dst = some a)
    (hsize : size = 1 ∨ size = 4) (hclear : W.Clear a size) :
    ∃ u, W.Intact d s u ∧ u.regs = s.regs ∧ M.Runs W rest is u t := by
  have hplain : ∀ base offset, dst ≠ .preIndexed base offset := by
    rintro base offset rfl
    exact nomatch haddress
  have hop : (Instr.store size src dst).opcode ≠ .bl := by
    unfold Instr.store Opcode.store
    split <;> nofun
  obtain ⟨u, hexec, _, hroom, h⟩ := h.executed rfl hop
  obtain ⟨hend, hapart⟩ := hclear
  have hlimit := hroom.2 0 (Instr.steady_store hplain).lowers?
  rw [exec_store haddress] at hexec
  cases hexec
  refine ⟨_, ?_, ?_, h⟩
  · refine .of_regs (fun _ _ => rfl) fun b hle hlt => ?_
    exact Memory.store_of_outside _ _ hsize hend (by omega)
  · rfl

/-- Registers that go on the stack. -/
theorem Runs.pushed {rs : List Register} (h : M.Runs W rest [.push rs] s t) :
    t.top + 4 * rs.length = s.top ∧ s.top ≤ W.base ∧ (∀ r, r ≠ .sp → t.regs r = s.regs r) ∧
      t.mem = Memory.storeAll s.regs rs (t.regs .sp) s.mem := by
  obtain ⟨u, hexec, _, hroom, h⟩ := h.executed rfl nofun
  obtain rfl := h.eq_of_nil
  cases hexec
  have hlimit := hroom.2 _ rfl
  have hlt := s.top_lt
  have htop : (s.push rs).next.top + 4 * rs.length = s.top := by
    simp only [State.top, State.push, State.next_regs, State.set_regs, if_true] at hlimit hlt ⊢
    bv_omega
  exact ⟨htop, hroom.1, fun r hr => by simp [State.push, hr], by simp [State.push]⟩

/-- A push leaves the stack above it. -/
theorem Runs.mem_pushed {rs : List Register} (h : M.Runs W rest [.push rs] s t) {a : Word}
    (ha : s.top ≤ a.toNat) : t.mem a = s.mem a := by
  obtain ⟨htop, -, -, hmem⟩ := h.pushed
  have hlt := s.top_lt
  rw [State.top] at htop
  rw [hmem]
  exact Memory.storeAll_of_outside _ _ (by omega) (.inr (by omega))

/-- Registers that come off the stack. -/
theorem Runs.popped {rs : List Register} (h : M.Runs W rest [.pop rs] s t) (hpc : .pc ∉ rs) :
    t.regs .sp = s.regs .sp + BitVec.ofNat 32 (4 * rs.length) ∧ t.mem = s.mem ∧
      ∀ r, r ≠ .sp → t.regs r = s.mem.loadAll rs (s.regs .sp) s.regs r := by
  obtain ⟨u, hexec, _, _, h⟩ := h.executed rfl nofun
  obtain rfl := h.eq_of_nil
  cases hexec
  simp +contextual [Machine.pop, hpc, State.pop]

theorem exec_store_preIndexed (size : Nat) (src base : Register) (offset : Int) :
    M.exec s (.store size src (.preIndexed base offset)) =
      some { s.set base (s.regs base + BitVec.ofInt 32 offset) with
        mem := s.mem.store size (s.regs base + BitVec.ofInt 32 offset) (s.regs src) }.next := by
  by_cases hsize : size = 1 <;> simp [exec, Instr.store, Opcode.store, Memory.store, hsize]

/-- A value that goes on the stack by itself. -/
theorem Runs.pushed_value {size : Nat} {src : Register}
    (h : M.Runs W rest [.store size src (.preIndexed .sp (-size))] s t) :
    t.top + size = s.top ∧ s.top ≤ W.base ∧ (∀ r, r ≠ .sp → t.regs r = s.regs r) ∧
      t.mem = s.mem.store size (t.regs .sp) (s.regs src) := by
  have hinstr : (Instr.store size src (.preIndexed .sp (-size))).opcode ≠ .bl ∧
      (Instr.store size src (.preIndexed .sp (-size))).lowers? = some (size : Int) := by
    unfold Instr.store Opcode.store
    split <;> simp [Instr.lowers?]
  obtain ⟨u, hexec, _, hroom, h⟩ := h.executed rfl hinstr.1
  obtain rfl := h.eq_of_nil
  rw [exec_store_preIndexed] at hexec
  cases hexec
  have hlimit := hroom.2 _ hinstr.2
  have hlt := s.top_lt
  refine ⟨?_, hroom.1, fun r hr => by simp [hr], by simp⟩
  simp only [State.top, State.next_regs, State.set_regs, if_true, BitVec.ofInt_neg,
    BitVec.ofInt_natCast] at hlimit hlt ⊢
  bv_omega

/-- Taking bytes off the stack. -/
theorem Runs.raised {bytes : Nat} (h : M.Runs W rest (Stack.adjust .add bytes) s t) :
    t.regs .sp = s.regs .sp + BitVec.ofNat 32 bytes ∧ t.mem = s.mem := by
  suffices hsteps : ∀ (steps : List Nat) (s : State),
      M.Runs W rest (steps.map fun n => .binary .add .sp .sp (.imm (n : Nat))) s t →
        t.regs .sp = s.regs .sp + BitVec.ofNat 32 steps.sum ∧ t.mem = s.mem by
    have hsum := hsteps _ s h
    rwa [Stack.sum_steps] at hsum
  intro steps
  induction steps with
  | nil =>
    intro s h
    rw [h.eq_of_nil]
    simp
  | cons n steps ih =>
    intro s h
    obtain ⟨u, hexec, _, _, h⟩ := h.executed rfl nofun
    cases hexec
    obtain ⟨hsp, hmem⟩ := ih _ h
    refine ⟨?_, hmem⟩
    rw [hsp, List.sum_cons, BitVec.ofNat_add, ← BitVec.add_assoc]
    simp

/-- What goes on the stack after code that keeps the stack. -/
theorem Runs.lowered {d : Depth} {bytes size : Nat} {src : Register} {v : State}
    (hsize : size = 1 ∨ size = 4) (hlow : W.Lowered d bytes s u) (hintact : W.Intact d u v)
    (hsrc : .sp ∉ d.live) (h : M.Runs W rest [.store size src (.preIndexed .sp (-size))] v t) :
    W.Lowered d (size + bytes) s t := by
  obtain ⟨htop, -, hregs, hmem⟩ := h.pushed_value
  have htop' := hlow.top
  have hsame := hintact.top_eq
  have hlt := v.top_lt
  refine ⟨by omega, fun r hr => ?_, fun a hle ha => ?_⟩
  · rw [hregs r (ne_of_mem_of_not_mem hr hsrc), hintact.live r hr, hlow.live r hr]
  · rw [State.top] at htop
    rw [hmem, Memory.store_of_outside _ _ hsize (by omega) (.inr (by omega)),
      hintact.mem a (by omega) ha, hlow.mem a hle ha]

/-- Around code that keeps the stack, registers go on the stack and come off it, maybe to others. -/
theorem Runs.restored {rs rs' : List Register} {rest' : List Instr} {v : State}
    (hpush : M.Runs W rest [.push rs] s u) (hsp : v.regs .sp = u.regs .sp)
    (hmem : ∀ a : Word, u.top ≤ a.toNat → a.toNat < W.base → v.mem a = u.mem a)
    (hpop : M.Runs W rest' [.pop rs'] v t) (hlen : rs'.length = rs.length) (hpc : .pc ∉ rs') :
    t.regs .sp = s.regs .sp ∧
      (∀ a : Word, s.top ≤ a.toNat → a.toNat < W.base → t.mem a = s.mem a) ∧
      (∀ r, r ≠ .sp → t.regs r = v.mem.loadAll rs' (u.regs .sp) v.regs r) ∧
      ∀ (regs : Register → Word) (r : Register), rs.Nodup →
        v.mem.loadAll rs (u.regs .sp) regs r = if r ∈ rs then s.regs r else regs r := by
  obtain ⟨htop, hbase, _, hstored⟩ := hpush.pushed
  obtain ⟨hback, hsame, hloaded⟩ := hpop.popped hpc
  have hlt := s.top_lt
  simp only [State.top] at htop hmem hlt hbase ⊢
  refine ⟨?_, fun a hle ha => ?_, fun r hr => ?_, fun regs r hnodup => ?_⟩
  · rw [hback, hsp, hlen]
    bv_omega
  · rw [hsame, hmem a (by omega) ha, hpush.mem_pushed hle]
  · rw [hloaded r hr, hsp]
  · refine Memory.loadAll_of_stored s.mem hnodup (by omega) (fun b hle hb => ?_) r
    rw [hmem b hle (by omega), hstored]

end Machine

end WaccArm
