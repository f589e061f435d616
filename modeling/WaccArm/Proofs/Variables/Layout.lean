import WaccArm.Proofs.Variables.Points

namespace WaccArm

theorem Slot.Apart.symm {x y : Slot} (h : x.Apart y) : y.Apart x := Or.symm h

namespace Variables

open Emission

/-- Slots that do not overlap and lie above a depth. -/
structure Packed (slots : List Slot) (bound : Int) : Prop where
  depth_le : ∀ slot ∈ slots, slot.depth ≤ bound
  apart : slots.Pairwise Slot.Apart

variable {slots : List Slot} {bound bound' : Int}

theorem Packed.mono (h : Packed slots bound) (hle : bound ≤ bound') : Packed slots bound' := by
  refine ⟨fun slot hslot => ?_, h.apart⟩
  have hdepth := h.depth_le slot hslot
  omega

/-- The next bytes below the bound are apart from all others. -/
theorem Packed.cons (h : Packed slots bound) (size : Nat) :
    Packed (⟨bound + size, size⟩ :: slots) (bound + size) := by
  constructor
  · rw [List.forall_mem_cons]
    exact ⟨Int.le_refl _, (h.mono (by omega)).depth_le⟩
  · refine List.pairwise_cons.2 ⟨fun slot hslot => ?_, h.apart⟩
    have hdepth := h.depth_le slot hslot
    exact .inl (by simp only; omega)

theorem packed_link : Packed [link] 0 where
  depth_le := List.forall_mem_singleton.2 (Int.le_refl 0)
  apart := List.pairwise_singleton ..

section

variable {i : Nat} {above : Int} {params : List Checked.Param}

theorem paramVariablesFrom_map (i : Nat) (above : Int) (params : List Checked.Param) :
    ((paramVariablesFrom i above params).map fun v => (v.name, v.type)) =
      params.map fun param => (param.name, param.type) := by
  induction params generalizing i above with
  | nil => rfl
  | cons param params ih => exact congrArg (_ :: ·) (ih ..)

theorem paramVariablesFrom_slots (i : Nat) (above : Int) (params : List Checked.Param) :
    (paramVariablesFrom i above params).map (fun v => (v.name, v.slot)) =
      (params.zip (Frame.paramsFrom above (params.map Checked.Param.type))).map
        fun (param, slot) => (param.name, slot) := by
  induction params generalizing i above with
  | nil => rfl
  | cons param params ih => exact congrArg (_ :: ·) (ih ..)

theorem paramVariablesFrom_size : ∀ v ∈ paramVariablesFrom i above params, v.slot.size = v.type.size := by
  induction params generalizing i above with
  | nil => exact nofun
  | cons param params ih => exact List.forall_mem_cons.2 ⟨rfl, ih⟩

/-- Parameters lie above the entry point. -/
theorem paramVariablesFrom_depth_le :
    ∀ v ∈ paramVariablesFrom i above params, v.slot.depth ≤ -above := by
  induction params generalizing i above with
  | nil => exact nofun
  | cons param params ih =>
    refine List.forall_mem_cons.2 ⟨Int.le_refl _, fun v hv => ?_⟩
    have hdepth := ih v hv
    omega

/-- A parameter lies below those behind it. -/
theorem paramVariablesFrom_apart :
    ((paramVariablesFrom i above params).map Variable.slot).Pairwise Slot.Apart := by
  induction params generalizing i above with
  | nil => exact .nil
  | cons param params ih =>
    refine List.pairwise_cons.2 ⟨?_, ih⟩
    rw [List.forall_mem_map]
    intro v hv
    have hdepth := paramVariablesFrom_depth_le v hv
    exact .inl (by simp only; omega)

/-- The parameters lie above the link register. -/
theorem packed_params (params : List Checked.Param) :
    Packed ((paramVariables params).map Variable.slot ++ [link]) 0 := by
  have hdepth : ∀ slot ∈ (paramVariables params).map Variable.slot, slot.depth ≤ -4 := by
    rw [List.forall_mem_map]
    intro v hv
    exact paramVariablesFrom_depth_le v (List.mem_reverse.1 hv)
  constructor
  · rw [List.forall_mem_append, List.forall_mem_singleton]
    refine ⟨fun slot hslot => ?_, Int.le_refl 0⟩
    have hslot := hdepth slot hslot
    omega
  · rw [List.pairwise_append]
    refine ⟨?_, List.pairwise_singleton .., fun slot hslot other hother => ?_⟩
    · rw [paramVariables, List.map_reverse, List.pairwise_reverse]
      exact paramVariablesFrom_apart.imp Slot.Apart.symm
    · obtain rfl := List.mem_singleton.1 hother
      have hslot := hdepth slot hslot
      exact .inr (by simp only [link]; omega)

/-- Parameters are bound one after the other, so the last one is the newest. -/
theorem flatten_paramSlots (params : List Checked.Param) :
    (paramSlots params).flatten = (paramVariables params).map fun v => (v.name, v.slot) := by
  have hfold : ∀ (pairs : List (Checked.Param × Slot)) (chain : Chain Slot),
      (pairs.foldl (fun slots (param, slot) => slots.bind param.name slot) chain).flatten =
        (pairs.map fun (param, slot) => (param.name, slot)).reverse ++ chain.flatten := by
    intro pairs
    induction pairs with
    | nil => exact fun _ => rfl
    | cons pair pairs ih =>
      intro chain
      rw [List.foldl_cons, ih, Chain.flatten_bind, List.map_cons, List.reverse_cons, List.append_assoc]
      rfl
  rw [paramSlots, hfold, paramVariables, List.map_reverse, paramVariablesFrom_slots]
  exact List.append_nil _

end

/-- The slots of a context are packed above its floor and are where their blocks are. `outer` has the
slots from outside of all blocks. -/
structure Placed (outer : Chain Slot) (ctx : Context) : Prop where
  packed : Packed (ctx.slots.flatten.map Prod.snd ++ [link]) ctx.frame.floor
  inside : Inside outer ctx.slots ctx.frame
  /-- There is a block, and the stack pointer is at its end. -/
  ends : ∃ block blocks, ctx.frame.blocks = block :: blocks ∧
    block.start + block.size = ctx.frame.displacement

/-- The innermost block has at least so many bytes left. -/
def Room (ctx : Context) (bytes : Nat) : Prop := ctx.frame.floor + bytes ≤ ctx.frame.displacement

variable {outer : Chain Slot} {ctx ctx' : Context} {em em' : Emitter} {items : List Item}

theorem Room.mono {m n : Nat} (h : Room ctx n) (hle : m ≤ n) : Room ctx m := by
  unfold Room at h ⊢
  omega

/-- A block has room for its variables. -/
theorem room_inside (ctx : Context) (size : Nat) : Room (ctx.inside size) size := by
  change ctx.frame.displacement + ((0 : Nat) : Int) + size ≤ ctx.frame.displacement + size
  omega

/-- A new block begins at the stack pointer, below all variables. -/
theorem Placed.enter (h : Placed outer ctx) (hroom : Room ctx 0) (size : Nat) :
    Placed outer (ctx.inside size) where
  packed := by
    refine h.packed.mono ?_
    change ctx.frame.floor ≤ ctx.frame.displacement + ((0 : Nat) : Int)
    unfold Room at hroom
    omega
  inside := by
    obtain ⟨scopes, hslots, hscopes⟩ := h.inside
    refine ⟨[] :: scopes, ?_, .cons nofun hscopes⟩
    rw [Context.inside, Chain.enter, hslots]
    rfl
  ends := ⟨_, _, rfl, rfl⟩

/-- The block of a body begins at the entry point. -/
theorem placed_body {outer : Chain Slot} (h : Packed (outer.flatten.map Prod.snd ++ [link]) 0)
    (size : Nat) : Placed outer (Context.inside { slots := outer } size) where
  packed := h
  inside := ⟨[[]], rfl, .cons nofun .nil⟩
  ends := ⟨_, _, rfl, rfl⟩

/-- A declaration takes the next bytes of its block. -/
theorem Placed.declare (h : Placed outer ctx) {size : Nat} (hroom : Room ctx size) (name : String) :
    Placed outer (ctx.declare name size) := by
  obtain ⟨hpacked, ⟨scopes, hslots, hscopes⟩, block, blocks, hblocks, hend⟩ := h
  obtain ⟨slots, displacement, _⟩ := ctx
  obtain rfl : _ = block :: blocks := hblocks
  obtain rfl : slots = scopes ++ outer := hslots
  cases hscopes with
  | @cons scope _ scopes _ hscope hscopes =>
    have hfloor : block.start + (block.used + size : Nat) = block.start + block.used + size := by omega
    have hbytes : block.start + block.used + size ≤ block.start + block.size := by
      rw [hend]
      exact hroom
    refine ⟨?_, ⟨((name, ⟨block.start + (block.used + size : Nat), size⟩) :: scope) :: scopes, rfl, ?_⟩,
      _, _, rfl, hend⟩
    · change Packed (⟨block.start + (block.used + size : Nat), size⟩ :: _)
        (block.start + (block.used + size : Nat))
      rw [hfloor]
      exact hpacked.cons size
    · refine .cons (List.forall_mem_cons.2 ⟨⟨?_, ?_⟩, hscope⟩) hscopes
      · simp only
        omega
      · simp only
        omega

theorem Room.after {s : Checked.Stmt} {bytes : Nat} (hroom : Room ctx (blockSize s + bytes))
    (hframe : ctx'.frame = ctx.frame.advance (blockSize s)) : Room ctx' bytes := by
  have hfloor : (ctx.frame.advance (blockSize s)).floor = ctx.frame.floor + blockSize s :=
    Frame.floor_advance (hroom.mono (Nat.le_add_right ..))
  rw [Room, hframe, hfloor, Frame.displacement_advance]
  unfold Room at hroom
  omega

/-- A statement for whose declarations there is room leaves all variables in their places. -/
theorem Placed.stmt {s : Checked.Stmt} (h : Placed outer ctx) (hs : StmtEmitted s ctx em items ctx' em')
    (hroom : Room ctx (blockSize s)) : Placed outer ctx' := by
  induction hs with
  | declare => exact h.declare hroom _
  | seqCons hfirst _ ih iho =>
    have hroom' : Room _ (blockSize _ + blockSizeAll _) := hroom
    exact iho (ih h (hroom'.mono (Nat.le_add_right ..))) (hroom'.after hfirst.frame)
  | _ => exact h

/-- The variables that a statement opens get the slots that its code uses. -/
theorem slots_opened {s : Checked.Stmt} (hs : StmtEmitted s ctx em items ctx' em') (way : List Turn) :
    ctx'.slots.flatten =
      ((opened way ctx.frame s).map fun v => (v.name, v.slot)) ++ ctx.slots.flatten := by
  induction hs generalizing way with
  | declare => exact Chain.flatten_bind ..
  | @seqCons ctx _ m s ss _ _ _ _ _ _ hfirst _ ih iho =>
    have hopened : opened way ctx.frame (.seq m (s :: ss)) =
        opened (way ++ [.rest]) (ctx.frame.advance (blockSize s)) (.seq m ss) ++
          opened (way ++ [.first]) ctx.frame s := rfl
    rw [iho, ih, hopened, hfirst.frame, List.map_append, List.append_assoc]
  | _ => rfl

theorem blocks_advance (frame : Frame) (bytes : Nat) :
    (frame.advance bytes).blocks.map Block.size = frame.blocks.map Block.size := by
  obtain ⟨displacement, blocks⟩ := frame
  cases blocks <;> rfl

/-- Arguments on the stack lie below the variables. -/
theorem packed_pushedArgs (h : Packed slots ctx.frame.displacement) (args : List Checked.Expr) :
    Packed (pushedArgs ctx args ++ slots) (ctx.push (argBytes args)).frame.displacement := by
  induction args with
  | nil => exact h.mono (Int.le_add_of_nonneg_right (Int.natCast_nonneg _))
  | cons arg args ih =>
    have hsum : (ctx.push (argBytes (arg :: args))).frame.displacement =
        (ctx.push (argBytes args)).frame.displacement + arg.note.size := by
      simp only [Context.push, Frame.push, argBytes]
      omega
    rw [hsum]
    exact ih.cons arg.note.size

/-- While an expression is evaluated the variables stay, and what waits is packed below them. -/
structure Moment.Kept (ctx : Context) (m : Moment) : Prop where
  slots : m.ctx.slots = ctx.slots
  blocks : m.ctx.frame.blocks = ctx.frame.blocks
  packed : Packed (m.waiting ++ (ctx.slots.flatten.map Prod.snd ++ [link])) m.ctx.frame.displacement

theorem Moment.Inner.kept {m m' : Moment} (hinner : m.Inner m') (h : m.Kept ctx) : m'.Kept ctx := by
  obtain ⟨hslots, hblocks, hpacked⟩ := h
  cases hinner with
  | call | spilled => exact ⟨hslots, hblocks, hpacked.cons _⟩
  | arg | called =>
    refine ⟨hslots, hblocks, ?_⟩
    rw [List.append_assoc]
    exact packed_pushedArgs hpacked _
  | _ => exact ⟨hslots, hblocks, hpacked⟩

/-- Nothing moves while an expression is evaluated. -/
theorem Placed.kept (h : Placed outer ctx) (hroom : Room ctx 0) {part : Part} {d : Depth} {m : Moment}
    (hm : Relation.ReflTransGen Moment.Inner ⟨part, ctx, d, []⟩ m) : m.Kept ctx := by
  induction hm with
  | refl =>
    refine ⟨rfl, rfl, h.packed.mono ?_⟩
    unfold Room at hroom
    simp only
    omega
  | tail _ hinner ih => exact hinner.kept ih

/-- What is evaluated on the way is part of the expression. -/
theorem Moment.Inner.parts {m m' : Moment} (hinner : m.Inner m') : m'.part.parts ⊆ m.part.parts := by
  cases hinner with
  | elem | side | unary | call | array => exact List.subset_cons_self _ _
  | left | fst => exact List.subset_cons_of_subset _ (List.subset_append_left _ _)
  | right | snd => exact List.subset_cons_of_subset _ (List.subset_append_right _ _)
  | spilled | next => exact List.Subset.refl _
  | index | arg | element => exact List.subset_append_left _ _
  | indices | laterArgs | elements => exact List.subset_append_right _ _
  | called => exact List.nil_subset _

theorem Moment.parts_of_reached {m m' : Moment} (hm : Relation.ReflTransGen Moment.Inner m m') :
    m'.part.parts ⊆ m.part.parts := by
  induction hm with
  | refl => exact List.Subset.refl _
  | tail _ hinner ih => exact fun _ he => ih (hinner.parts he)

theorem Moment.mem_names_of_use {m : Moment} {name : String} (huse : m.use? = some name) :
    name ∈ Expr.names m.part.parts := by
  obtain ⟨part, ctx, d, waiting⟩ := m
  cases part with
  | expr e =>
    refine Expr.mem_names.2 ⟨e, ?_, huse⟩
    cases e <;> exact List.mem_cons_self
  | operand | selections | args | elements => cases huse

end Variables

end WaccArm
