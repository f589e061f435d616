import WaccArm.Proofs.Encoding.Expr

namespace WaccArm

namespace Emission

open Variables (Placed Room)

mutual

/-- How far down a statement takes the stack pointer, the block that it stands in not counted. -/
def stmtReach : Checked.Stmt → Nat
  | .skip _ => 0
  | .declare _ _ _ e | .read _ e | .free _ e | .ret _ e | .exit _ e | .print _ e _ => exprReach e .top
  | .assign _ dst src => max (exprReach src .top) (exprReach dst Depth.top.next)
  | .branch _ cond yes no =>
    max (exprReach cond .top) (max (blockSize yes + stmtReach yes) (blockSize no + stmtReach no))
  | .loop _ cond body => max (exprReach cond .top) (blockSize body + stmtReach body)
  | .scope _ body => blockSize body + stmtReach body
  | .seq _ items => stmtsReach items

def stmtsReach : List Checked.Stmt → Nat
  | [] => 0
  | s :: ss => max (stmtReach s) (stmtsReach ss)

end

/-- The bytes of the frame of a body at its largest: parameters, the link register, the blocks, and what
is on the stack while expressions are evaluated. -/
def frameSize (params : List Checked.Param) (body : Checked.Stmt) : Nat :=
  (params.map fun param => param.type.size).sum + 4 + blockSize body + stmtReach body

/-- The slots of a context are in their blocks or above the entry point, at most `above` bytes. -/
structure Framed (above : Nat) (outer : Chain Slot) (ctx : Context) : Prop where
  placed : Placed outer ctx
  low : ∀ x ∈ ctx.slots.flatten, -(above : Int) ≤ x.2.depth

section

variable {above : Nat} {outer : Chain Slot} {ctx ctx' : Context} {em em' : Emitter} {items : List Item}

/-- With room for them all slots are above the stack pointer. -/
theorem Framed.spans (h : Framed above outer ctx) (hroom : Room ctx 0) : Spans above ctx := by
  intro x hx
  have hdepth := h.placed.packed.depth_le x.2 (List.mem_append_left _ (List.mem_map_of_mem hx))
  refine ⟨h.low x hx, Int.le_trans hdepth ?_⟩
  simpa [Room] using hroom

theorem Framed.floor_nonneg (h : Framed above outer ctx) : 0 ≤ ctx.frame.floor :=
  h.placed.packed.depth_le Variables.link (List.mem_append_right _ List.mem_cons_self)

/-- A block makes room below the slots around it. -/
theorem Framed.inside (h : Framed above outer ctx) (hroom : Room ctx 0) (size : Nat) :
    Framed above outer (ctx.inside size) :=
  ⟨h.placed.enter hroom size, h.low⟩

/-- A declaration takes a slot in the room of its block. -/
theorem Framed.declare (h : Framed above outer ctx) {size : Nat} (hsize : 0 < size)
    (hroom : Room ctx size) (name : String) : Framed above outer (ctx.declare name size) := by
  refine ⟨h.placed.declare hroom name, ?_⟩
  rw [ctx.slots_declare name hsize hroom]
  refine List.forall_mem_cons.2 ⟨?_, h.low⟩
  have hfloor := h.floor_nonneg
  simp only
  omega

/-- A statement leaves its slots above the stack pointer. -/
theorem Framed.stmt {s : Checked.Stmt} (h : Framed above outer ctx)
    (hs : StmtEmitted s ctx em items ctx' em') (hroom : Room ctx (blockSize s)) :
    Framed above outer ctx' := by
  induction hs with
  | @declare _ _ _ type =>
    have hpos : 0 < type.size := by
      have hsize := Scalar.size_eq type
      omega
    exact h.declare hpos hroom _
  | seqCons hfirst _ ih iho =>
    have hroom' : Room _ (blockSize _ + blockSizeAll _) := hroom
    exact iho (ih h (hroom'.mono (Nat.le_add_right ..))) (hroom'.after hfirst.frame)
  | _ => exact h

/-- The address of a place. -/
theorem Located.encoded {e : Checked.Expr} {d : Depth} (h : Located e ctx d em items em')
    (hspans : Spans above ctx) (hlt : ctx.frame.displacement + exprReach e d + above < 2 ^ 31) :
    Encoded items := by
  cases h with
  | var type hslot =>
    have hoffset := hspans.offset_nonneg (by omega) (Chain.mem_of_lookup? hslot)
    exact .mark (.access (address_encodes hoffset))
  | elem hslot hindices =>
    have hoffset := hspans.offset_nonneg (by omega) (Chain.mem_of_lookup? hslot)
    exact .mark (.append (.access (address_encodes hoffset)) (hindices.encoded hspans hlt))
  | side hpair hcheck =>
    exact .mark (.append (.append (hpair.encoded hspans hlt) (.instrs (nullCheck_encodes hcheck)))
      (.instrs (side_encodes _ _)))
  | other _ he => exact he.encoded hspans hlt

/-- The steps of a block can be encoded. -/
theorem encoded_blockItems {s : Checked.Stmt} {inner : Context} {size : Nat}
    (h : StmtEmitted s (ctx.inside size) em items inner em') (hitems : Encoded items) :
    Encoded (blockItems ctx size items inner) := by
  rw [blockItems, h.exit_inside.1]
  exact .append (.append (.instrs (adjust_encodes _)) hitems) (.instrs (adjust_encodes _))

/-- The code of a statement can be encoded if the frame around it is not too large. -/
theorem StmtEmitted.encoded {s : Checked.Stmt} (h : StmtEmitted s ctx em items ctx' em')
    (hframed : Framed above outer ctx) (hroom : Room ctx (blockSize s))
    (hlt : ctx.frame.displacement + stmtReach s + above < 2 ^ 31) : Encoded items := by
  induction h with
  | skip | seqNil => exact .mark .nil
  | @declare ctx _ m type name init _ _ hinit =>
    have hspans := hframed.spans (hroom.mono (Nat.zero_le _))
    have hstmt : StmtEmitted (.declare m type name init) ctx _ _ (ctx.declare name type.size) _ :=
      .declare hinit
    have hspans' : Spans above (ctx.declare name type.size) :=
      (hframed.stmt hstmt hroom).spans (Room.after hroom hstmt.frame)
    have hslot : (name, (ctx.frame.declare type.size).1) ∈ (ctx.declare name type.size).slots.flatten := by
      rw [Context.declare, Chain.flatten_bind]
      exact List.mem_cons_self
    have hoffset := hspans'.offset_nonneg (by rw [hstmt.displacement_eq]; omega) hslot
    exact .mark (.append (hinit.encoded hspans hlt) (.access (store_encodes hoffset)))
  | assignVar hsrc hslot =>
    have hspans := hframed.spans hroom
    simp only [stmtReach] at hlt
    have hoffset := hspans.offset_nonneg (by omega) (Chain.mem_of_lookup? hslot)
    exact .mark (.append (hsrc.encoded hspans (by simp only [Part.reach]; omega))
      (.access (store_encodes hoffset)))
  | assignPlace hdst hsrc hplace =>
    have hspans := hframed.spans hroom
    simp only [stmtReach] at hlt
    refine .mark (.append (.append (hsrc.encoded hspans (by simp only [Part.reach]; omega))
      (hplace.encoded hspans (by omega))) (.instrs ?_))
    exact List.forall_mem_singleton.2 (Instr.encodes_store _ (by decide) (by decide) (by decide))
  | read hplace =>
    have hspans := hframed.spans hroom
    refine .mark (.append (hplace.encoded hspans hlt) (.instrs ?_))
    simp [Instr.encodes_movReg, Instr.encodes_bl]
  | ret he =>
    have hspans := hframed.spans hroom
    refine .mark (.append (.append (he.encoded hspans hlt) (.instrs ?_)) (.instrs ?_))
    · exact List.forall_mem_cons.2 ⟨Instr.encodes_movReg, adjust_encodes _⟩
    · exact List.forall_mem_singleton.2 (Instr.encodes_pop (Operand.fits_single _ _))
  | free he | exit he | print he | println he =>
    have hspans := hframed.spans hroom
    refine .mark (.append (he.encoded hspans hlt) (.instrs ?_))
    simp [Instr.encodes_movReg, Instr.encodes_bl]
  | @branch ctx em m cond yes no test em₁ yitems yinner em₂ nitems ninner em₃ hcond hyes hno ihy ihn =>
    simp only [stmtReach] at hlt
    have htest : Encoded test := hcond.encoded (hframed.spans hroom) (by simp only [Part.reach]; omega)
    have hcmp : ∀ i ∈ [Instr.cmp Depth.top.reg (.imm 0), (Instr.b em.fresh.1).when .eq], i.Encodes := by
      simp [Instr.encodes_cmp, Instr.encodes_when, Instr.encodes_b]
    have hy : Encoded yitems := by
      refine ihy (hframed.inside hroom _) (Variables.room_inside _ _) ?_
      rw [Context.displacement_inside]
      omega
    have hn : Encoded nitems := by
      refine ihn (hframed.inside hroom _) (Variables.room_inside _ _) ?_
      rw [Context.displacement_inside]
      omega
    exact .mark (.append (.append (.append (.append (.append htest (.instrs hcmp))
      (encoded_blockItems hyes hy)) (.instr (Instr.encodes_b _) (.label .nil)))
      (encoded_blockItems hno hn)) (.label .nil))
  | @loop ctx em m cond body items inner em₁ test em₂ hbody hcond ih =>
    simp only [stmtReach] at hlt
    have htest : Encoded test := hcond.encoded (hframed.spans hroom) (by simp only [Part.reach]; omega)
    have hcmp : ∀ i ∈ [Instr.cmp Depth.top.reg (.imm 1), (Instr.b em.fresh.2.fresh.1).when .eq],
        i.Encodes := by
      simp [Instr.encodes_cmp, Instr.encodes_when, Instr.encodes_b]
    have hitems : Encoded items := by
      refine ih (hframed.inside hroom _) (Variables.room_inside _ _) ?_
      rw [Context.displacement_inside]
      omega
    exact .append (.append (.append (.append (.mark (.instr (Instr.encodes_b _) (.label .nil)))
      (encoded_blockItems hbody hitems)) (.label .nil)) htest) (.instrs hcmp)
  | scope hbody ih =>
    refine .mark (encoded_blockItems hbody (ih (hframed.inside hroom _) (Variables.room_inside _ _) ?_))
    simp only [stmtReach, Context.displacement_inside] at hlt ⊢
    omega
  | seqCons hfirst hothers ih iho =>
    have hroom' : Room _ (blockSize _ + blockSizeAll _) := hroom
    have hfits := hroom'.mono (Nat.le_add_right ..)
    simp only [stmtReach, stmtsReach] at hlt iho
    refine .append (ih hframed hfits (by omega)) ?_
    refine iho (hframed.stmt hfirst hfits) (hroom'.after hfirst.frame) ?_
    rw [hfirst.displacement_eq]
    omega

/-- The code of a body can be encoded if its ending can. -/
theorem BodyEmitted.encoded {s : Checked.Stmt} {slots : Chain Slot} {ending : List Instr}
    {body : List Item} (h : BodyEmitted s slots ending em body em')
    (hpacked : Variables.Packed (slots.flatten.map Prod.snd ++ [Variables.link]) 0)
    (hlow : ∀ x ∈ slots.flatten, -(above : Int) ≤ x.2.depth)
    (hlt : blockSize s + stmtReach s + above < 2 ^ 31) (hending : ∀ i ∈ ending, i.Encodes) :
    Encoded body := by
  cases h with
  | block hitems =>
    have hframed : Framed above slots (Context.inside { slots } (blockSize s)) :=
      ⟨Variables.placed_body hpacked _, hlow⟩
    have hencoded := hitems.encoded hframed (Variables.room_inside _ _) (by
      rw [Context.displacement_inside]
      simp only [Int.zero_add]
      omega)
    refine .append (.append (encoded_blockItems hitems hencoded) (.instrs hending)) ?_
    nofun

end

/-- Parameters are above the entry point. -/
theorem paramVariablesFrom_low (i : Nat) (above : Int) (params : List Checked.Param) :
    ∀ v ∈ Variables.paramVariablesFrom i above params,
      -(above + ((params.map fun param => param.type.size).sum : Nat)) ≤ v.slot.depth := by
  induction params generalizing i above with
  | nil => exact nofun
  | cons param params ih =>
    rw [List.map_cons, List.sum_cons]
    refine List.forall_mem_cons.2 ⟨?_, fun v hv => ?_⟩
    · simp only
      omega
    · have hdepth := ih _ _ v hv
      omega

/-- The slots of parameters are at most their own bytes and the link register above the entry point. -/
theorem paramSlots_low (params : List Checked.Param) : ∀ x ∈ (paramSlots params).flatten,
    -(((params.map fun param => param.type.size).sum + 4 : Nat) : Int) ≤ x.2.depth := by
  rw [Variables.flatten_paramSlots, List.forall_mem_map]
  intro v hv
  have hdepth := paramVariablesFrom_low 0 4 params v (List.mem_reverse.1 hv)
  simp only
  omega

/-- Functions with frames that are not too large can be encoded. -/
theorem FuncsEmitted.encoded {fs : List Checked.Func} {em em' : Emitter}
    {procedures : List Procedure} (h : FuncsEmitted fs em procedures em')
    (hframes : ∀ f ∈ fs, frameSize f.params f.body < 2 ^ 31) :
    ∀ q ∈ procedures, Encoded q.body := by
  induction h with
  | nil => exact nofun
  | @cons _ f _ _ _ _ _ hbody _ ih =>
    rw [List.forall_mem_cons] at hframes ⊢
    refine ⟨hbody.encoded ?_ (paramSlots_low f.params) ?_ ?_, ih hframes.2⟩
    · rw [Variables.flatten_paramSlots, List.map_map]
      exact Variables.packed_params f.params
    · have hframe := hframes.1
      rw [frameSize] at hframe
      omega
    · exact List.forall_mem_singleton.2 (Instr.encodes_pop (Operand.fits_single _ _))

end Emission

open Emission

namespace Far

/-- `char first = 'a'; int other = 0; … ; print first`, with so many variables in between that the first
one is too far away for the offset of its load. -/
def program : Checked.Program where
  funcs := []
  body := .seq () (.declare () .char "first" (.char .char 97) ::
    (List.replicate 80 (.declare () .int "other" (.int .int 0)) ++
      [.print () (.var .char "first") false]))

end Far

end WaccArm
