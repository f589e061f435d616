import WaccArm.Proofs.Machine.Stack
import WaccArm.Proofs.Scalar.Layout

namespace WaccArm

open Scalar Emission

namespace Machine

/-- How the machine, started in `s` on code made in the context `ctx`, shows the outcome of a
statement: it gets to line `stop` with the variables in their places in the context `ctx'`, or to a
call of `exit`, or to the instruction that takes the saved link register off the stack and goes there,
or to the routine that reports a trap. -/
def Ends (M : Machine) (ctx ctx' : Context) (link : Word) (s : State) (stop : Nat) : Outcome → Prop
  | .normal env => ∃ t, M.Reaches s t ∧ t.pc = stop ∧ t.regs .sp = s.regs .sp ∧
      Stands ctx' env link t
  | .exited v => ∃ t, M.Reaches s t ∧ M.text[t.pc]? = some (.instr (.bl "exit")) ∧
      (t.regs .r0).toInt = v
  | .returned v => ∃ t, M.Reaches s t ∧ M.text[t.pc]? = some (.instr (.pop [.pc])) ∧
      (t.regs .r0).toInt = v ∧ (t.top : Int) = entry ctx s ∧ t.mem.readWord (t.regs .sp) = link ∧
      (M.step t).map State.pc = some (M.lineAt link)
  | .trapped trap => M.Raises s trap

/-- What the machine and its state have to offer to code that was made in the context `ctx` and uses
`room` bytes of the stack. -/
structure Ready (M : Machine) (em : Emitter) (ctx : Context) (env : Env) (link : Word) (room : Nat)
    (s : State) : Prop where
  divides : M.Divides
  provides : M.ProvidesAll em
  stands : Stands ctx env link s
  room_le : room ≤ s.top
  frame_lt : ctx.frame.displacement + room < 2 ^ 31

variable {M : Machine} {em em' : Emitter} {ctx ctx' : Context} {env : Env} {link : Word} {n m : Nat}
  {s t u : State} {stop : Nat} {o : Outcome}

theorem Reaches.of_step (h : M.Reaches s u) (hstep : M.step s = some t) :
    u = s ∨ M.Reaches t u := by
  rcases Relation.ReflTransGen.cases_head h with heq | ⟨v, hv, hrest⟩
  · exact .inl heq.symm
  · rw [hstep] at hv
    cases hv
    exact .inr hrest

/-- What comes before a statement can be put in front. -/
theorem Ends.of_reaches (h : M.Ends ctx ctx' link t stop o) (hreach : M.Reaches s t)
    (hsp : t.regs .sp = s.regs .sp) : M.Ends ctx ctx' link s stop o := by
  cases o with
  | normal env =>
    obtain ⟨u, hreach', hpc, hsp', hstands⟩ := h
    exact ⟨u, hreach.trans hreach', hpc, hsp'.trans hsp, hstands⟩
  | exited v =>
    obtain ⟨u, hreach', hrest⟩ := h
    exact ⟨u, hreach.trans hreach', hrest⟩
  | returned v =>
    obtain ⟨u, hreach', hline, hvalue, htop, hlink⟩ := h
    refine ⟨u, hreach.trans hreach', hline, hvalue, ?_, hlink⟩
    rw [htop, entry, entry, State.top, State.top, hsp]
  | trapped trap => exact .of_reaches hreach h

theorem Ends.of_displacement {ctx₁ : Context} (h : M.Ends ctx₁ ctx' link s stop o)
    (hdisp : ctx₁.frame.displacement = ctx.frame.displacement) : M.Ends ctx ctx' link s stop o := by
  cases o with
  | normal | exited | trapped => exact h
  | returned v =>
    obtain ⟨u, hreach, hline, hvalue, htop, hlink⟩ := h
    rw [entry, hdisp] at htop
    exact ⟨u, hreach, hline, hvalue, htop, hlink⟩

/-- Where a statement stops early, the machine does not get to the end of its code. -/
theorem Ends.of_stop {ctx'' : Context} {stop' : Nat} (h : M.Ends ctx ctx' link s stop o)
    (hstop : o.isNormal = false) : M.Ends ctx ctx'' link s stop' o := by
  cases o with
  | normal => cases hstop
  | exited | returned | trapped => exact h

/-- A branch is not where a statement ends, so what comes after it ends the same way. -/
theorem Ends.of_branch (h : M.Ends ctx ctx' link s stop o) {name : String}
    (hline : M.text[s.pc]? = some (.instr (.b name))) (hpc : s.pc ≠ stop)
    (hstep : M.step s = some t) (hsp : t.regs .sp = s.regs .sp) : M.Ends ctx ctx' link t stop o := by
  cases o with
  | normal env =>
    obtain ⟨u, hreach, hpc', hsp', hstands⟩ := h
    rcases hreach.of_step hstep with rfl | hreach'
    · exact absurd hpc' hpc
    · exact ⟨u, hreach', hpc', hsp'.trans hsp.symm, hstands⟩
  | exited v =>
    obtain ⟨u, hreach, hline', hvalue⟩ := h
    rcases hreach.of_step hstep with rfl | hreach'
    · rw [hline] at hline'
      cases hline'
    · exact ⟨u, hreach', hline', hvalue⟩
  | returned v =>
    obtain ⟨u, hreach, hline', hvalue, htop, hlink⟩ := h
    rcases hreach.of_step hstep with rfl | hreach'
    · rw [hline] at hline'
      cases hline'
    · refine ⟨u, hreach', hline', hvalue, ?_, hlink⟩
      rw [htop, entry, entry, State.top, State.top, hsp]
  | trapped trap =>
    obtain ⟨r, message, e, u, hreport, hreach, hat, hrest⟩ := h
    rcases hreach.of_step hstep with rfl | hreach'
    · rw [At, hline] at hat
      cases hat
    · exact ⟨r, message, e, u, hreport, hreach', hat, hrest⟩

theorem Ready.weaken (h : M.Ready em' ctx env link n s) (hgrows : em.Grows em') (hm : m ≤ n) :
    M.Ready em ctx env link m s where
  divides := h.divides
  provides := h.provides.of_grows hgrows
  stands := h.stands
  room_le := Nat.le_trans hm h.room_le
  frame_lt := by
    have := h.frame_lt
    omega

/-- An evaluation leaves a state ready. -/
theorem Ready.of_kept {d : Depth} (h : M.Ready em ctx env link n s) (hkept : Kept d s t) :
    M.Ready em ctx env link n t where
  divides := h.divides
  provides := h.provides
  stands := h.stands.of_kept hkept
  room_le := by
    rw [hkept.top_eq]
    exact h.room_le
  frame_lt := h.frame_lt

theorem Ready.of_eq (h : M.Ready em ctx env link n s) (hregs : t.regs = s.regs) (hmem : t.mem = s.mem) :
    M.Ready em ctx env link n t :=
  h.of_kept (Kept.of_regs (d := .top) hmem fun r _ => by rw [hregs])

theorem Ready.after {env' : Env} (h : M.Ready em ctx env link n s)
    (hdisp : ctx'.frame.displacement = ctx.frame.displacement) (hstands : Stands ctx' env' link t)
    (htop : t.top = s.top) (hm : m ≤ n) : M.Ready em ctx' env' link m t where
  divides := h.divides
  provides := h.provides
  stands := hstands
  room_le := by
    rw [htop]
    exact Nat.le_trans hm h.room_le
  frame_lt := by
    have := h.frame_lt
    omega

/-- A state that is ready has room to evaluate. -/
theorem Ready.computes {e : Checked.Expr} {type : Ty} {items : List Item} {em₀ : Emitter}
    (h : M.Ready em ctx env link n s) (htyped : Typed (typeOf env.types) e type)
    (hemitted : Emitted (.expr e) ctx .top em₀ items em) (hcode : M.Holds s.pc (Item.code items))
    (hroom : room e .top ≤ n) :
    M.Computes .top s (s.pc + (Item.code items).length) (eval env.values e) :=
  htyped.computes h.stands.covers hemitted h.divides hcode h.provides h.stands.represents
    (Nat.le_trans hroom h.room_le)

/-- A statement that starts with an evaluation. -/
theorem Computes.ends {result : Except Trap Int} {next : Int → Outcome} {k : Nat}
    (h : M.Computes .top s k result)
    (hnext : ∀ v t, result = .ok v → t.pc = k → (t.regs Depth.top.reg).toInt = v → Kept .top s t →
      M.Ends ctx ctx' link t stop (next v)) :
    M.Ends ctx ctx' link s stop (.after result next) := by
  cases result with
  | error trap => exact h
  | ok v =>
    obtain ⟨t, hreach, hpc, hvalue, hkept⟩ := h
    exact (hnext v t rfl hpc hvalue hkept).of_reaches hreach hkept.sp

/-- Storing into a slot. One that is out of reach is addressed through the scratch register. -/
theorem reaches_stored {slot : Slot} {size : Nat} {r : Register} (hr : r ≠ .r12)
    (hcode : M.Holds s.pc (Code.ofInstrs (ctx.store size r slot))) :
    ∃ t, M.Reaches s t ∧ t.pc = s.pc + (ctx.store size r slot).length ∧
      t.regs .sp = s.regs .sp ∧
      t.mem = s.mem.store size (BitVec.ofInt 32 (entry ctx s - slot.depth)) (s.regs r) := by
  have haddress : s.regs .sp + BitVec.ofInt 32 (ctx.frame.offset slot) =
      BitVec.ofInt 32 (entry ctx s - slot.depth) := by
    rw [address_eq, entry, Int.add_sub_assoc]
  simp only [Context.store, Context.stackOperand] at hcode ⊢
  split at hcode
  · rename_i hreach
    rw [if_pos hreach]
    have hexec : M.exec s (.store size r (.mem .sp (ctx.frame.offset slot))) = _ :=
      exec_store rfl size r
    rw [haddress] at hexec
    exact ⟨_, .exec hcode rfl hexec, rfl, rfl, rfl⟩
  · rename_i hreach
    rw [if_neg hreach]
    let far : State := (s.set .r12 (BitVec.ofInt 32 (ctx.frame.offset slot))).next
    have hfar : M.Reaches s far := .exec hcode rfl rfl
    have hfar' : far.address? (.indexed .sp scratch) =
        some (BitVec.ofInt 32 (entry ctx s - slot.depth)) := congrArg some haddress
    have hreg : far.regs r = s.regs r := by simp [far, hr]
    have hexec := exec_store (M := M) hfar' size r
    rw [hreg] at hexec
    exact ⟨_, hfar.trans (.exec hcode.2.2 rfl hexec), rfl, rfl, rfl⟩

theorem top_reg_ne : Depth.top.reg ≠ .r12 ∧ Depth.top.reg ≠ .sp := by decide

/-- The value of a boolean is stored as it is. -/
theorem truth_stored {e : Checked.Expr} {type : Ty} {v : Int} (hstands : Stands ctx env link s)
    (htyped : Typed (typeOf env.types) e type) (hv : eval env.values e = .ok v)
    (hbool : type = .bool) : Truth (stored type v) := by
  have htruth := htyped.truth (hstands.represents.truth hstands.covers) hbool hv
  subst hbool
  rcases htruth with rfl | rfl
  · exact .inl rfl
  · exact .inr rfl

/-- A declaration stores the value of its initial expression. -/
theorem ends_declare {type : Ty} {name : String} {init : Checked.Expr} {items : List Item}
    {em₀ : Emitter} (hready : M.Ready em ctx env link n s) (hscalar : isScalar type)
    (htyped : Typed (typeOf env.types) init type)
    (hemitted : Emitted (.expr init) ctx .top em₀ items em) (hroom : room init .top ≤ n)
    (hblock : ctx.frame.floor + type.size ≤ ctx.frame.displacement)
    (hcode : M.Holds s.pc (Item.code items ++
      Code.ofInstrs ((ctx.declare name type.size).store (ctx.frame.declare type.size).1.size
        Depth.top.reg (ctx.frame.declare type.size).1))) :
    M.Ends ctx (ctx.declare name type.size) link s
      (s.pc + (Item.code items ++
        Code.ofInstrs ((ctx.declare name type.size).store (ctx.frame.declare type.size).1.size
          Depth.top.reg (ctx.frame.declare type.size).1)).length)
      (.after (eval env.values init) fun v => .normal ((name, ⟨type, stored type v⟩) :: env)) := by
  refine (hready.computes htyped hemitted hcode.left hroom).ends fun v t hv hpc hvalue hkept => ?_
  have hsize := size_eq type
  have hstore := hcode.right
  rw [← hpc] at hstore
  obtain ⟨u, hreach, hpc', hsp, hmem⟩ := reaches_stored top_reg_ne.1 hstore
  have hstands := hready.stands.of_kept hkept
  have hentry : entry (ctx.declare name type.size) t = entry ctx t := by
    rw [entry, entry, ctx.frame_declare, Frame.displacement_advance]
  rw [hentry, Frame.declare_fst (by omega) hblock] at hmem
  refine ⟨u, hreach, ?_, hsp, ?_⟩
  · rw [hpc', hpc, List.length_append, Code.ofInstrs, List.length_map, Nat.add_assoc]
  · have htruth := truth_stored hready.stands htyped hv
    rw [← hvalue] at htruth ⊢
    exact hstands.declare name hscalar hblock htruth (by rw [State.top, State.top, hsp]) hmem

/-- An assignment stores the value of its source. -/
theorem ends_assign {type : Ty} {name : String} {src : Checked.Expr} {items : List Item}
    {em₀ : Emitter} {slot : Slot} (hready : M.Ready em ctx env link n s)
    (hdst : Typed (typeOf env.types) (.var type name) type)
    (htyped : Typed (typeOf env.types) src type)
    (hemitted : Emitted (.expr src) ctx .top em₀ items em) (hroom : room src .top ≤ n)
    (hslot : ctx.slots.lookup? name (fun _ => true) = some slot)
    (hcode : M.Holds s.pc
      (Item.code items ++ Code.ofInstrs (ctx.store type.size Depth.top.reg slot))) :
    M.Ends ctx ctx link s
      (s.pc + (Item.code items ++ Code.ofInstrs (ctx.store type.size Depth.top.reg slot)).length)
      (.after (eval env.values src) fun v => .normal (env.update name (stored type v))) := by
  refine (hready.computes htyped hemitted hcode.left hroom).ends fun v t hv hpc hvalue hkept => ?_
  have hstore := hcode.right
  rw [← hpc] at hstore
  obtain ⟨u, hreach, hpc', hsp, hmem⟩ := reaches_stored top_reg_ne.1 hstore
  have hstands := hready.stands.of_kept hkept
  cases hdst with
  | var hname _ =>
    rw [typeOf, env.lookup_types] at hname
    obtain ⟨x, hx, rfl⟩ := Option.map_eq_some_iff.1 hname
    rw [Chain.lookup?_eq_lookup] at hslot
    have hsize : slot.size = x.type.size := (stored_of_lookup hstands.vars hslot hx).2.size_eq
    refine ⟨u, hreach, ?_, hsp, ?_⟩
    · rw [hpc', hpc, List.length_append, Code.ofInstrs, List.length_map, Nat.add_assoc]
    · have htruth := truth_stored hready.stands htyped hv
      rw [← hsize] at hmem
      rw [← hvalue] at htruth ⊢
      exact hstands.assign hslot hx htruth (by rw [State.top, State.top, hsp]) hmem

/-- The program ends with the value of the expression. -/
theorem ends_exit {e : Checked.Expr} {type : Ty} {items : List Item} {em₀ : Emitter}
    (hready : M.Ready em ctx env link n s) (htyped : Typed (typeOf env.types) e type)
    (hemitted : Emitted (.expr e) ctx .top em₀ items em) (hroom : room e .top ≤ n)
    (hcode : M.Holds s.pc
      (Item.code items ++ Code.ofInstrs [.movReg .r0 Depth.top.reg, .bl "exit"])) :
    M.Ends ctx ctx' link s stop (.after (eval env.values e) .exited) := by
  refine (hready.computes htyped hemitted hcode.left hroom).ends fun v t _ hpc hvalue _ => ?_
  have hexit := hcode.right
  rw [← hpc] at hexit
  exact ⟨(t.set .r0 (t.regs Depth.top.reg)).next, .exec hexit rfl rfl, hexit.2.2.1, hvalue⟩

/-- The function returns with the value of the expression. -/
theorem ends_return {e : Checked.Expr} {type : Ty} {items : List Item} {em₀ : Emitter}
    (hready : M.Ready em ctx env link n s) (htyped : Typed (typeOf env.types) e type)
    (hemitted : Emitted (.expr e) ctx .top em₀ items em) (hroom : room e .top ≤ n)
    (hcode : M.Holds s.pc (Item.code items ++
      (Code.ofInstrs (.movReg .r0 Depth.top.reg :: ctx.frame.unwind) ++
        Code.ofInstrs [.pop [.pc]]))) :
    M.Ends ctx ctx' link s stop (.after (eval env.values e) .returned) := by
  refine (hready.computes htyped hemitted hcode.left hroom).ends fun v t _ hpc hvalue hkept => ?_
  have hstands := hready.stands.of_kept hkept
  have hfloor := hstands.layout.floor_le
  have hnonneg := hstands.layout.floor_nonneg
  have hlimit := hready.frame_lt
  have hend := hstands.layout.entry_le
  have hbytes : (ctx.frame.displacement32.toNat : Int) = ctx.frame.displacement := by
    rw [Frame.displacement32, Word.signed_eq_self (by omega) (by omega)]
    omega
  have hreturn := hcode.right
  rw [← hpc] at hreturn
  let moved : State := (t.set .r0 (t.regs Depth.top.reg)).next
  have hmove : M.Reaches t moved := .exec hreturn.left rfl rfl
  have htop : moved.top = t.top := rfl
  have hdef : entry ctx t = t.top + ctx.frame.displacement := rfl
  obtain ⟨u, hreach, hmoved, hutop⟩ := reaches_raised (s := moved) (by omega) hreturn.left.2.2
  have hline : M.text[u.pc]? = some (.instr (.pop [.pc])) := by
    have := hreturn.right.1
    rw [hmoved.pc]
    simp only [List.length_cons, Code.ofInstrs, List.length_map] at this
    rw [show moved.pc = t.pc + 1 from rfl, Nat.add_right_comm, Nat.add_assoc]
    exact this
  have hentry : (u.top : Int) = entry ctx t := by omega
  have hlink : u.mem.readWord (u.regs .sp) = link := by
    have hsp : u.regs .sp = BitVec.ofInt 32 (entry ctx t) := by
      rw [← hentry, BitVec.ofInt_natCast, State.top, BitVec.ofNat_toNat, BitVec.setWidth_eq]
    rw [hsp, hmoved.mem]
    exact hstands.link_eq
  refine ⟨u, hmove.trans hreach, hline, ?_, hentry, hlink, ?_⟩
  · rw [hmoved.regs .r0 (by decide)]
    exact hvalue
  · have hcond : (Instr.pop [.pc]).cond.holds u.flags = true := rfl
    rw [step, hline]
    simp only [hcond, if_true]
    rw [← hlink]
    rfl

/-- A block lowers the stack pointer, runs its body, and raises the stack pointer again. -/
theorem ends_block {body : Checked.Stmt} {inner : Context} {items : List Item} {em₀ : Emitter}
    (hready : M.Ready em ctx env link (blockSize body + n) s)
    (hemitted : StmtEmitted body (ctx.inside (blockSize body)) em₀ items inner em)
    (hcode : M.Holds s.pc (Item.code (blockItems ctx (blockSize body) items inner)))
    (hbody : ∀ t, M.Ready em (ctx.inside (blockSize body)) env link n t →
      M.Holds t.pc (Item.code items) →
      M.Ends (ctx.inside (blockSize body)) inner link t (t.pc + (Item.code items).length) o) :
    M.Ends ctx ctx link s
      (s.pc + (Item.code (blockItems ctx (blockSize body) items inner)).length)
      (o.leave env.length) := by
  obtain ⟨hexit, hdisp⟩ := hemitted.exit_inside
  have hopening : (ctx.frame.enter (blockSize body)).1 = Stack.adjust .sub (blockSize body) := rfl
  simp only [blockItems, Item.code_append, Item.code_instrs, hexit, hopening] at hcode ⊢
  have hroom := hready.room_le
  have hlimit := hready.frame_lt
  obtain ⟨t, hlower, hmoved, htop⟩ := reaches_lowered (by omega) hcode.left.left
  have hstands := hready.stands.inside htop hmoved.mem
  have hready' : M.Ready em (ctx.inside (blockSize body)) env link n t := by
    refine ⟨hready.divides, hready.provides, hstands, by omega, ?_⟩
    simp only [Context.inside, Frame.enter]
    omega
  have hholds : M.Holds t.pc (Item.code items) := by
    rw [hmoved.pc]
    simpa [Code.ofInstrs] using hcode.left.right
  have hentry : entry (ctx.inside (blockSize body)) t = entry ctx s := by
    simp only [entry, Context.inside, Frame.enter]
    omega
  have hrun := hbody t hready' hholds
  cases o with
  | normal env' =>
    obtain ⟨u, hreach, hpc, hsp, hinner⟩ := hrun
    have hutop : u.top = t.top := by rw [State.top, State.top, hsp]
    have hraise : M.Holds u.pc (Code.ofInstrs (Stack.adjust .add (blockSize body))) := by
      have := hcode.right
      rw [hpc, hmoved.pc]
      simpa [Code.ofInstrs, Nat.add_assoc] using this
    have hlt := s.top_lt
    obtain ⟨v, hreach', hmoved', hvtop⟩ := reaches_raised (by omega) hraise
    obtain ⟨added, hslots⟩ := hemitted.slots
    have hvs : v.top = s.top := by omega
    have hentry' : entry ctx v = entry ctx s := by rw [entry, entry, hvs]
    have hentry'' : entry inner u = entry ctx s := by
      simp only [entry, hdisp]
      omega
    refine ⟨v, (hlower.trans hreach).trans hreach', ?_, BitVec.eq_of_toNat_eq hvs, ?_⟩
    · rw [hmoved'.pc, hpc, hmoved.pc]
      simp [Code.ofInstrs, Nat.add_assoc]
    · rw [← hready.stands.vars.length_eq]
      exact hinner.leave hslots (hentry' ▸ hready.stands.layout) (hentry'.trans hentry''.symm)
        hmoved'.mem
  | exited v =>
    obtain ⟨u, hreach, hrest⟩ := hrun
    exact ⟨u, hlower.trans hreach, hrest⟩
  | returned v =>
    obtain ⟨u, hreach, hline, hvalue, hutop, hlink⟩ := hrun
    exact ⟨u, hlower.trans hreach, hline, hvalue, hutop.trans hentry, hlink⟩
  | trapped trap => exact Raises.of_reaches hlower hrun

/-- Jumps after the end of a statement change nothing but the line. -/
theorem Ends.jump {k : Nat} (h : M.Ends ctx ctx' link s k o)
    (hjump : ∀ u : State, u.pc = k → M.Reaches u { u with pc := stop }) :
    M.Ends ctx ctx' link s stop o := by
  cases o with
  | normal env =>
    obtain ⟨u, hreach, hpc, hsp, hstands⟩ := h
    exact ⟨{ u with pc := stop }, hreach.trans (hjump u hpc), rfl, hsp,
      hstands.layout, hstands.link_eq, hstands.vars⟩
  | exited v | returned v | trapped trap => exact h

/-- Comparing a register with a number, after which a branch is taken if they are equal. -/
theorem reaches_tested {r : Register} {value : Int} {name : String} {k : Nat} {code : Code}
    (hcode : M.Holds s.pc (.instr (.cmp r (.imm value)) :: .instr ((Instr.b name).when .eq) :: code))
    (hline : M.line? name = some k) (hfits : Word.Fits value) :
    ∃ t, M.Reaches s t ∧ t.pc = (if (s.regs r).toInt = value then k else s.pc + 2) ∧
      t.regs = s.regs ∧ t.mem = s.mem := by
  let compared : State := { s with flags := (Word.subtract (s.regs r) (BitVec.ofInt 32 value)).2 }.next
  have hcompare : M.Reaches s compared := .exec hcode rfl rfl
  have hzero : Cond.eq.holds compared.flags = decide ((s.regs r).toInt = value) := by
    refine (Word.subtract_zero _ _).trans (decide_eq_decide.2 ?_)
    rw [← BitVec.toInt_inj, Word.toInt_ofInt_of_fits hfits]
  by_cases hvalue : (s.regs r).toInt = value
  · have hbranch : M.Reaches compared { compared with pc := k } :=
      .exec hcode.2.2 (hzero.trans (by simp [hvalue])) (exec_b hline .eq)
    exact ⟨_, hcompare.trans hbranch, by rw [if_pos hvalue], rfl, rfl⟩
  · have hskip : M.Reaches compared compared.next :=
      .skip hcode.2.2 (hzero.trans (by simp [hvalue]))
    exact ⟨_, hcompare.trans hskip, by rw [if_neg hvalue]; rfl, rfl, rfl⟩

/-- The code of a conditional statement around that of its parts. -/
def branchCode (test yes no : Code) (otherwise done : String) : Code :=
  test ++ (.instr (.cmp Depth.top.reg (.imm 0)) :: .instr ((Instr.b otherwise).when .eq) ::
    (yes ++ (.instr (.b done) :: .label otherwise :: (no ++ [.label done]))))

theorem length_branchCode (test yes no : Code) (otherwise done : String) :
    (branchCode test yes no otherwise done).length =
      test.length + 2 + yes.length + 1 + 1 + no.length + 1 := by
  simp only [branchCode, List.length_append, List.length_cons, List.length_nil]
  omega

/-- The code of a conditional statement runs the code of the side that the condition selects. -/
theorem ends_branch {cond : Checked.Expr} {test : List Item} {em₀ em₁ : Emitter} {v : Int}
    {yes no : Code} {otherwise done : String} (hready : M.Ready em ctx env link n s)
    (htyped : Typed (typeOf env.types) cond .bool)
    (hemitted : Emitted (.expr cond) ctx .top em₀ test em₁) (hgrows : em₁.Grows em)
    (hroom : room cond .top ≤ n) (hv : eval env.values cond = .ok v)
    (hcode : M.Holds s.pc (branchCode (Item.code test) yes no otherwise done))
    (hyes : v ≠ 0 → ∀ t, M.Ready em ctx env link n t → M.Holds t.pc yes →
      M.Ends ctx ctx link t (t.pc + yes.length) o)
    (hno : v = 0 → ∀ t, M.Ready em ctx env link n t → M.Holds t.pc no →
      M.Ends ctx ctx link t (t.pc + no.length) o) :
    M.Ends ctx ctx link s (s.pc + (branchCode (Item.code test) yes no otherwise done).length) o := by
  have hcomputes := (hready.weaken hgrows (Nat.le_refl _)).computes htyped hemitted hcode.left hroom
  rw [hv] at hcomputes
  obtain ⟨t, hreach, hpc, hvalue, hkept⟩ := hcomputes
  have htest := hcode.right
  rw [← hpc] at htest
  have hyescode : M.Holds (t.pc + 2) yes := htest.2.2.2.2.left
  have hmiddle := htest.2.2.2.2.right
  have hnocode := hmiddle.2.2.2.2.left
  have hlast := hmiddle.2.2.2.2.right
  have hstop : s.pc + (branchCode (Item.code test) yes no otherwise done).length =
      t.pc + 2 + yes.length + 1 + 1 + no.length + 1 := by
    rw [length_branchCode, hpc]
    omega
  have hdone (w : State) (hw : w.pc = t.pc + 2 + yes.length + 1 + 1 + no.length) :
      M.Reaches w { w with pc := t.pc + 2 + yes.length + 1 + 1 + no.length + 1 } := by
    have hat : M.At w done := by
      rw [At, hw]
      exact hlast.1
    rw [← hw]
    exact Reaches.label hat
  obtain ⟨u, hreach', hupc, huregs, humem⟩ := reaches_tested htest (hmiddle.2.2.2.1 otherwise rfl)
    (by decide)
  have hready' : M.Ready em ctx env link n u := (hready.of_kept hkept).of_eq huregs humem
  refine Ends.of_reaches ?_ (hreach.trans hreach') (by rw [huregs, hkept.sp])
  rw [hvalue] at hupc
  rw [hstop]
  by_cases hzero : v = 0
  · rw [if_pos hzero] at hupc
    have hat : M.At u otherwise := by
      rw [At, hupc]
      exact hmiddle.2.2.1
    have hinside : M.Holds u.next.pc no := by
      rw [State.next_pc, hupc]
      exact hnocode
    have hrun := hno hzero u.next (hready'.of_eq rfl rfl) hinside
    refine Ends.of_reaches (hrun.jump fun w hw => hdone w ?_) (Reaches.label hat) rfl
    rw [hw, State.next_pc, hupc]
  · rw [if_neg hzero] at hupc
    have hinside : M.Holds u.pc yes := by
      rw [hupc]
      exact hyescode
    refine (hyes hzero u hready' hinside).jump fun w hw => ?_
    rw [hupc] at hw
    have hjump : M.Reaches w { w with pc := t.pc + 2 + yes.length + 1 + 1 + no.length } := by
      have hholds := hmiddle
      rw [← hw] at hholds
      exact .exec hholds rfl (exec_b (hlast.2.1 done rfl) .always)
    exact hjump.trans (hdone _ rfl)

/-- The code of a loop around that of its parts: the test comes last, and the loop starts with it. -/
def loopCode (body test : Code) (check start : String) : Code :=
  .instr (.b check) :: .label start :: (body ++ (.label check :: (test ++
    [.instr (.cmp Depth.top.reg (.imm 1)), .instr ((Instr.b start).when .eq)])))

theorem length_loopCode (body test : Code) (check start : String) :
    (loopCode body test check start).length = body.length + 2 + 1 + test.length + 2 := by
  simp only [loopCode, List.length_append, List.length_cons, List.length_nil]
  omega

/-- The branch at the start of a loop goes to the test. -/
theorem step_loop {k : Nat} {body test : Code} {check start : String}
    (hcode : M.Holds k (loopCode body test check start)) (hpc : s.pc = k) :
    M.step s = some { s with pc := k + 2 + body.length } := by
  have hline : M.text[s.pc]? = some (.instr (.b check)) := hpc ▸ hcode.1
  have hcheck := hcode.2.2.2.2.right.2.1 check rfl
  have hcond : (Instr.b check).cond.holds s.flags = true := rfl
  simp only [step, hline, hcond, if_true]
  exact exec_b hcheck .always

/-- A loop whose condition is false goes to its end, and one whose condition is true to its body. -/
theorem reaches_loop {cond : Checked.Expr} {test : List Item} {em₀ : Emitter} {body : Code}
    {check start : String} (hready : M.Ready em ctx env link n s)
    (htyped : Typed (typeOf env.types) cond .bool)
    (hemitted : Emitted (.expr cond) ctx .top em₀ test em) (hroom : room cond .top ≤ n)
    (hcode : M.Holds s.pc (loopCode body (Item.code test) check start)) :
    match eval env.values cond with
    | .error trap => M.Raises s trap
    | .ok v => ∃ t, M.Reaches s t ∧ Kept .top s t ∧ t.pc =
        if v = 0 then s.pc + (loopCode body (Item.code test) check start).length else s.pc + 2 := by
  let checked : State := { s with pc := s.pc + 2 + body.length }
  have hstart : M.Reaches s checked := .single (step_loop hcode rfl)
  have hlast := hcode.2.2.2.2.right
  have hat : M.At checked check := hlast.1
  have htest : M.Holds checked.next.pc (Item.code test) := hlast.2.2.left
  have hready' : M.Ready em ctx env link n checked.next := hready.of_eq rfl rfl
  have hcomputes := hready'.computes htyped hemitted htest hroom
  have hbefore := hstart.trans (.label hat)
  cases hv : eval env.values cond with
  | error trap =>
    rw [hv] at hcomputes
    exact Raises.of_reaches hbefore hcomputes
  | ok v =>
    rw [hv] at hcomputes
    obtain ⟨t, hreach, htpc, hvalue, hkept⟩ := hcomputes
    have hcompare := hlast.2.2.right
    rw [show s.pc + 1 + 1 + body.length + 1 + (Item.code test).length = t.pc from htpc.symm] at hcompare
    obtain ⟨u, hreach', hupc, huregs, humem⟩ :=
      reaches_tested hcompare (hcode.2.2.2.1 start rfl) (by decide)
    have hkept' : Kept .top s u :=
      Kept.trans (t := t) ⟨hkept.sp, hkept.live, hkept.mem⟩ (.of_regs humem fun r _ => by rw [huregs])
    have hafter := (hbefore.trans hreach).trans hreach'
    have hstands := hready.stands
    have htruth := htyped.truth (hstands.represents.truth hstands.covers) rfl hv
    rw [hvalue] at hupc
    rcases htruth with rfl | rfl
    · refine ⟨u, hafter, hkept', ?_⟩
      rw [hupc, htpc, if_neg (by decide), if_pos rfl, length_loopCode]
      simp only [checked, State.next_pc]
      omega
    · rw [if_pos rfl] at hupc
      have hat' : M.At u start := by
        rw [At, hupc]
        exact hcode.2.2.1
      have hlabel : Kept .top u u.next := .of_regs rfl fun _ _ => rfl
      refine ⟨u.next, hafter.trans (.label hat'), hkept'.trans hlabel, ?_⟩
      rw [if_neg (by decide), State.next_pc, hupc]

/-- A loop whose condition is true comes to its body. -/
theorem reaches_round {cond : Checked.Expr} {test : List Item} {em₀ : Emitter} {body : Code}
    {check start : String} {v : Int} (hready : M.Ready em ctx env link (max (room cond .top) n) s)
    (htyped : Typed (typeOf env.types) cond .bool)
    (hemitted : Emitted (.expr cond) ctx .top em₀ test em) (hv : eval env.values cond = .ok v)
    (htrue : v ≠ 0) (hcode : M.Holds s.pc (loopCode body (Item.code test) check start)) :
    ∃ t, M.Reaches s t ∧ Kept .top s t ∧ t.pc = s.pc + 2 ∧ M.Ready em₀ ctx env link n t ∧
      M.Holds t.pc body := by
  have h := reaches_loop hready htyped hemitted (Nat.le_max_left _ _) hcode
  rw [hv] at h
  obtain ⟨t, hreach, hkept, hpc⟩ := h
  rw [if_neg htrue] at hpc
  refine ⟨t, hreach, hkept, hpc, ?_, ?_⟩
  · exact (hready.of_kept hkept).weaken hemitted.grows (Nat.le_max_right _ _)
  · rw [hpc]
    exact hcode.2.2.2.2.left

end Machine

namespace Scalar

open Machine

/-- Where the parts of a branch stand in its code. -/
theorem code_branch (ctx : Context) (test yes no : List Item) (otherwise done : String) :
    Item.code (ctx.mark :: test
        ++ Item.instrs [.cmp Depth.top.reg (.imm 0), (Instr.b otherwise).when .eq] ++ yes
        ++ [.line (.instr (.b done)), .line (.label otherwise)] ++ no ++ [.line (.label done)]) =
      branchCode (Item.code test) (Item.code yes) (Item.code no) otherwise done := by
  simp [branchCode]

/-- The items of a loop are its code. -/
theorem code_loop (ctx : Context) (body test : List Item) (check start : String) :
    Item.code ([ctx.mark, .line (.instr (.b check)), .line (.label start)] ++ body
        ++ [.line (.label check)] ++ test
        ++ Item.instrs [.cmp Depth.top.reg (.imm 1), (Instr.b start).when .eq]) =
      loopCode (Item.code body) (Item.code test) check start := by
  simp [loopCode]

theorem floor_inside (ctx : Context) (size : Nat) :
    (ctx.inside size).frame.floor + size ≤ (ctx.inside size).frame.displacement := by
  simp only [Context.inside, Frame.enter, Frame.floor]
  omega

/-- The code of a well-typed statement shows the outcome of its execution. -/
theorem Exec.ends {env : Env} {s : Checked.Stmt} {o : Outcome} (h : Exec env s o) {types' : Scopes}
    {ctx ctx' : Context} {em em' : Emitter} {items : List Item} {M : Machine} {st : State}
    {link : Word} (htyped : StmtTyped env.types s types')
    (hemitted : StmtEmitted s ctx em items ctx' em')
    (hready : M.Ready em' ctx env link (stmtRoom s) st)
    (hblock : ctx.frame.floor + blockSize s ≤ ctx.frame.displacement)
    (hcode : M.Holds st.pc (Item.code items)) :
    M.Ends ctx ctx' link st (st.pc + (Item.code items).length) o := by
  induction h generalizing types' ctx ctx' em em' items st with
  | skip =>
    cases hemitted
    exact ⟨st, .refl st, rfl, rfl, hready.stands⟩
  | declare =>
    cases hemitted with
    | declare hinit =>
      cases htyped with
      | declare hscalar hinit' =>
        simp only [List.cons_append, Context.code_mark, Item.code_append, Context.code_access]
          at hcode ⊢
        exact ends_declare hready hscalar hinit' hinit (Nat.le_refl _) hblock hcode
  | assign =>
    cases htyped with
    | assign hdst hsrc' =>
      cases hemitted with
      | assignVar hsrc hslot =>
        simp only [List.cons_append, Context.code_mark, Item.code_append, Context.code_access]
          at hcode ⊢
        exact ends_assign hready hdst hsrc' hsrc (Nat.le_refl _) hslot hcode
      | assignPlace hvar => exact absurd rfl (hvar _ _)
  | exit =>
    cases hemitted with
    | exit he =>
      cases htyped with
      | exit he' =>
        simp only [List.cons_append, Context.code_mark, Item.code_append, Item.code_instrs] at hcode
        exact ends_exit hready he' he (Nat.le_refl _) hcode
  | ret =>
    cases hemitted with
    | ret he =>
      cases htyped with
      | ret he' =>
        simp only [List.cons_append, Context.code_mark, Item.code_append, Item.code_instrs,
          List.append_assoc] at hcode
        exact ends_return hready he' he (Nat.le_refl _) hcode
  | branchTrap hcond =>
    cases hemitted with
    | branch hcond' hyes hno =>
      cases htyped with
      | branch hcond'' =>
        rw [code_branch] at hcode
        rw [stmtRoom] at hready
        have h := (hready.weaken (hyes.grows.trans hno.grows) (Nat.le_max_left _ _)).computes hcond''
          hcond' hcode.left (Nat.le_refl _)
        rw [hcond] at h
        exact h
  | @branch env m cond yes no v o hcond _ ih =>
    cases hemitted with
    | branch hcond' hyes hno =>
      cases htyped with
      | branch hcond'' hyes' hno' =>
        rw [code_branch] at hcode ⊢
        rw [stmtRoom] at hready
        refine ends_branch hready hcond'' hcond' (hyes.grows.trans hno.grows) (Nat.le_max_left _ _)
          hcond hcode (fun hv t ht htcode => ?_) fun hv t ht htcode => ?_
        · simp only [if_neg hv] at ih
          have ht' := ht.weaken hno.grows (Nat.le_trans (Nat.le_max_left _ _) (Nat.le_max_right _ _))
          exact ends_block ht' hyes htcode fun u hu hucode => ih hyes' hyes hu (floor_inside _ _) hucode
        · simp only [if_pos hv] at ih
          have ht' := ht.weaken (.refl _) (Nat.le_trans (Nat.le_max_right _ _) (Nat.le_max_right _ _))
          exact ends_block ht' hno htcode fun u hu hucode => ih hno' hno hu (floor_inside _ _) hucode
  | loopTrap hcond =>
    cases hemitted with
    | loop hbody hcond' =>
      cases htyped with
      | loop hcond'' =>
        rw [code_loop] at hcode
        rw [stmtRoom] at hready
        have h := reaches_loop hready hcond'' hcond' (Nat.le_max_left _ _) hcode
        rw [hcond] at h
        exact h
  | loopDone hcond =>
    cases hemitted with
    | loop hbody hcond' =>
      cases htyped with
      | loop hcond'' =>
        rw [code_loop] at hcode ⊢
        rw [stmtRoom] at hready
        have h := reaches_loop hready hcond'' hcond' (Nat.le_max_left _ _) hcode
        rw [hcond] at h
        obtain ⟨t, hreach, hkept, hpc⟩ := h
        exact ⟨t, hreach, hpc, hkept.sp, hready.stands.of_kept hkept⟩
  | @loopStop env m cond body v o hcond hv _ hstop ih =>
    cases hemitted with
    | loop hbody hcond' =>
      cases htyped with
      | loop hcond'' hbody' =>
        rw [code_loop] at hcode ⊢
        rw [stmtRoom] at hready
        obtain ⟨t, hreach, hkept, -, hready', htcode⟩ :=
          reaches_round hready hcond'' hcond' hcond hv hcode
        have hrun := ends_block hready' hbody htcode fun u hu hucode =>
          ih hbody' hbody hu (floor_inside _ _) hucode
        rw [Outcome.leave_of_stop hstop] at hrun
        exact (hrun.of_stop hstop).of_reaches hreach hkept.sp
  | @loopNext env m cond body v env' o hcond hv hexec _ ih iho =>
    cases hemitted with
    | loop hbody hcond' =>
      cases htyped with
      | loop hcond'' hbody' =>
        have hloop := StmtEmitted.loop (m := m) hbody hcond'
        rw [code_loop] at hcode ⊢
        have hready₀ := hready
        rw [stmtRoom] at hready
        obtain ⟨t, hreach, hkept, hpc, hready', htcode⟩ :=
          reaches_round hready hcond'' hcond' hcond hv hcode
        obtain ⟨u, hreach', hupc, husp, hustands⟩ := ends_block hready' hbody htcode
          fun u hu hucode => ih hbody' hbody hu (floor_inside _ _) hucode
        -- the body ends at the test, one step after the start of the loop with the same state
        let again : State := { u with pc := st.pc }
        have hutop : u.top = st.top := by rw [State.top, State.top, husp, hkept.sp]
        have hagain := hready₀.after (t := again) rfl
          ⟨hustands.layout, hustands.link_eq, hustands.vars⟩ hutop (Nat.le_refl _)
        have htypes : (env'.leave env.length).types = env.types :=
          Env.types_leave ((hexec.types_eq hbody' rfl).symm ▸ hbody'.suffix)
        rw [← htypes] at hcond'' hbody'
        have hrun := iho (.loop hcond'' hbody') hloop hagain hblock (by
          rw [code_loop]
          exact hcode)
        rw [code_loop] at hrun
        have hstep : M.step again = some u := by
          rw [step_loop (s := again) hcode rfl]
          obtain ⟨regs, flags, mem, pc⟩ := u
          simp only [again, Option.some.injEq, State.mk.injEq, true_and]
          rw [hpc] at hupc
          exact hupc.symm
        refine Ends.of_reaches ?_ (hreach.trans hreach') (husp.trans hkept.sp)
        refine hrun.of_branch hcode.1 ?_ hstep rfl
        rw [length_loopCode]
        simp only [again]
        omega
  | scope _ ih =>
    cases hemitted with
    | scope hbody =>
      cases htyped with
      | scope hbody' =>
        simp only [Context.code_mark] at hcode ⊢
        exact ends_block hready hbody hcode fun u hu hucode =>
          ih hbody' hbody hu (floor_inside _ _) hucode
  | seqNil =>
    cases hemitted
    exact ⟨st, .refl st, rfl, rfl, hready.stands⟩
  | @seqStop env m s ss o _ hstop ih =>
    cases hemitted with
    | seqCons hfirst hothers =>
      cases htyped with
      | seqCons hfirst' hothers' =>
        rw [Item.code_append] at hcode
        rw [stmtRoom, stmtRoomAll] at hready
        simp only [blockSize, blockSizeAll] at hblock
        have hrun := ih hfirst' hfirst (hready.weaken hothers.grows (Nat.le_max_left _ _)) (by omega)
          hcode.left
        exact hrun.of_stop hstop
  | @seqNext env m s ss env' o hexec _ ih iho =>
    cases hemitted with
    | seqCons hfirst hothers =>
      cases htyped with
      | seqCons hfirst' hothers' =>
        rw [Item.code_append] at hcode ⊢
        rw [stmtRoom, stmtRoomAll] at hready
        simp only [blockSize, blockSizeAll] at hblock
        have hframe := hfirst.frame
        obtain ⟨t, hreach, hpc, hsp, hstands⟩ := ih hfirst' hfirst
          (hready.weaken hothers.grows (Nat.le_max_left _ _)) (by omega) hcode.left
        have htop : t.top = st.top := by rw [State.top, State.top, hsp]
        have hdisp := hfirst.displacement_eq
        have hready' := hready.after hdisp hstands htop (Nat.le_max_right _ _)
        have hcode' := hcode.right
        rw [← hpc] at hcode'
        rw [← hexec.types_eq hfirst' rfl] at hothers'
        have hrun := iho hothers' hothers hready' (by
          rw [hframe, Frame.floor_advance (by omega), Frame.displacement_advance, blockSize]
          omega) hcode'
        rw [hpc, Nat.add_assoc, ← List.length_append] at hrun
        exact (hrun.of_displacement hdisp).of_reaches hreach hsp

end Scalar

end WaccArm
