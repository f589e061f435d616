import Mathlib.Data.List.Forall2
import WaccArm.Proofs.Emission.Statement
import WaccArm.Proofs.Scalar.Exec
import WaccArm.Proofs.Scalar.Expr

namespace WaccArm

/-- Whether two slots have no byte in common. -/
def Slot.Apart (x y : Slot) : Prop := y.depth + x.size ≤ x.depth ∨ x.depth + y.size ≤ y.depth

/-- The bytes of a slot are addresses, for a stack whose entry point is at `entry`. -/
def Slot.Addressed (slot : Slot) (entry : Int) : Prop :=
  0 ≤ entry - slot.depth ∧ entry - slot.depth + slot.size ≤ 2 ^ 32

theorem Word.toNat_ofInt {n : Int} (hlow : 0 ≤ n) (hhigh : n < 2 ^ 32) :
    ((BitVec.ofInt 32 n).toNat : Int) = n := by
  rw [BitVec.toNat_ofInt, Int.toNat_of_nonneg (Int.emod_nonneg _ (by decide))]
  exact Int.emod_eq_of_lt hlow hhigh

theorem Slot.Addressed.toNat_eq {entry : Int} {slot : Slot} (h : slot.Addressed entry)
    (hsize : 0 < slot.size) :
    ((BitVec.ofInt 32 (entry - slot.depth)).toNat : Int) = entry - slot.depth := by
  obtain ⟨hlow, hhigh⟩ := h
  exact Word.toNat_ofInt hlow (by omega)

namespace Frame

/-- Where the next declaration finds its bytes: all that is given out lies above. -/
def floor (f : Frame) : Int :=
  match f.blocks with
  | [] => f.displacement
  | block :: _ => block.start + block.used

/-- A declaration uses bytes above the floor. -/
theorem floor_advance {f : Frame} {bytes : Nat} (hroom : f.floor + bytes ≤ f.displacement) :
    (f.advance bytes).floor = f.floor + bytes := by
  obtain ⟨displacement, blocks⟩ := f
  cases blocks with
  | nil =>
    simp only [floor] at hroom
    simp only [advance, floor]
    omega
  | cons block outer =>
    simp only [advance, floor]
    omega

/-- A new slot is right above the floor. -/
theorem declare_fst {f : Frame} {size : Nat} (hsize : 0 < size)
    (hroom : f.floor + size ≤ f.displacement) : (f.declare size).1 = ⟨f.floor + size, size⟩ := by
  obtain ⟨displacement, blocks⟩ := f
  cases blocks with
  | nil =>
    simp only [floor] at hroom
    omega
  | cons block outer =>
    simp only [declare, floor, Slot.mk.injEq, and_true]
    omega

end Frame

namespace Emission.Context

theorem frame_declare (ctx : Context) (name : String) (size : Nat) :
    (ctx.declare name size).frame = ctx.frame.advance size :=
  Frame.declare_snd _ _

/-- A declaration adds a slot that takes the bytes below the floor. -/
theorem slots_declare (ctx : Context) (name : String) {size : Nat} (hsize : 0 < size)
    (hroom : ctx.frame.floor + size ≤ ctx.frame.displacement) :
    (ctx.declare name size).slots.flatten =
      (name, ⟨ctx.frame.floor + size, size⟩) :: ctx.slots.flatten := by
  rw [declare, Chain.flatten_bind, Frame.declare_fst hsize hroom]

end Emission.Context

namespace Scalar

open Emission

/-- The slots of a context are in their places, for a stack whose entry point is at `entry`. -/
structure Layout (ctx : Context) (entry : Int) : Prop where
  floor_nonneg : 0 ≤ ctx.frame.floor
  floor_le : ctx.frame.floor ≤ ctx.frame.displacement
  entry_le : entry + 4 ≤ 2 ^ 32
  depth_le : ∀ x ∈ ctx.slots.flatten, x.2.depth ≤ ctx.frame.floor
  clear : ∀ x ∈ ctx.slots.flatten, x.2.size ≤ x.2.depth ∨ x.2.depth ≤ -4
  end_le : ∀ x ∈ ctx.slots.flatten, entry - x.2.depth + x.2.size ≤ 2 ^ 32
  apart : ctx.slots.flatten.Pairwise fun x y => x.2.Apart y.2

/-- A slot holds the value of a variable. -/
structure Stored (entry : Int) (mem : Memory) (x : String × Slot) (y : String × Variable) :
    Prop where
  name_eq : x.1 = y.1
  scalar : isScalar y.2.type
  size_eq : x.2.size = y.2.type.size
  truth : y.2.type = .bool → Truth y.2.value
  load_eq : (mem.load x.2.size (BitVec.ofInt 32 (entry - x.2.depth))).toInt = y.2.value

/-- The address of the entry point, which is that of the saved link register. -/
def entry (ctx : Context) (s : State) : Int := s.top + ctx.frame.displacement

/-- The frame represents the variables: each has a slot that holds its value, and the link register
is saved at the entry point. -/
structure Stands (ctx : Context) (env : Env) (link : Word) (s : State) : Prop where
  layout : Layout ctx (entry ctx s)
  link_eq : s.mem.readWord (BitVec.ofInt 32 (entry ctx s)) = link
  vars : List.Forall₂ (Stored (entry ctx s) s.mem) ctx.slots.flatten env

variable {ctx ctx' : Context} {env : Env} {link : Word} {s t : State}

/-- Slots and variables of a name are found together. -/
theorem lookup_forall₂ {entry : Int} {mem : Memory} {xs : List (String × Slot)} {ys : Env}
    (h : List.Forall₂ (Stored entry mem) xs ys) (name : String) :
    xs.lookup name = none ∧ ys.lookup name = none ∨
      ∃ slot x, xs.lookup name = some slot ∧ ys.lookup name = some x ∧ (name, slot) ∈ xs ∧
        Stored entry mem (name, slot) (name, x) := by
  induction h with
  | nil => exact .inl ⟨rfl, rfl⟩
  | @cons x y xs ys hxy _ ih =>
    obtain ⟨xname, slot⟩ := x
    obtain ⟨yname, var⟩ := y
    obtain rfl : xname = yname := hxy.name_eq
    rw [List.lookup_cons, List.lookup_cons]
    cases hname : name == xname with
    | true =>
      obtain rfl := beq_iff_eq.1 hname
      exact .inr ⟨slot, var, rfl, rfl, List.mem_cons_self, hxy⟩
    | false =>
      rcases ih with hnone | ⟨slot, x, hslot, hx, hmem, hstored⟩
      · exact .inl hnone
      · exact .inr ⟨slot, x, hslot, hx, List.mem_cons_of_mem _ hmem, hstored⟩

/-- A variable that has a slot is stored there. -/
theorem stored_of_lookup {entry : Int} {mem : Memory} {xs : List (String × Slot)} {env : Env}
    (h : List.Forall₂ (Stored entry mem) xs env) {name : String} {slot : Slot} {x : Variable}
    (hslot : xs.lookup name = some slot) (hx : env.lookup name = some x) :
    (name, slot) ∈ xs ∧ Stored entry mem (name, slot) (name, x) := by
  rcases lookup_forall₂ h name with ⟨hnone, _⟩ | ⟨slot', x', hslot', hx', hfound⟩
  · rw [hslot] at hnone
    cases hnone
  · rw [hslot] at hslot'
    rw [hx] at hx'
    cases hslot'
    cases hx'
    exact hfound

theorem Env.lookup_types (env : Env) (name : String) :
    env.types.lookup name = (env.lookup name).map Variable.type := by
  induction env with
  | nil => rfl
  | cons x env ih =>
    obtain ⟨other, var⟩ := x
    simp only [types, List.map_cons, List.lookup_cons] at ih ⊢
    cases name == other with
    | true => rfl
    | false => exact ih

/-- Every variable has a slot. -/
theorem Stands.covers (h : Stands ctx env link s) : Covers ctx (typeOf env.types) := by
  intro name type hname _
  rw [typeOf, env.lookup_types] at hname
  obtain ⟨x, hx, rfl⟩ := Option.map_eq_some_iff.1 hname
  rcases lookup_forall₂ h.vars name with ⟨_, hnone⟩ | ⟨slot, x', hslot, hx', _, hstored⟩
  · rw [hx] at hnone
    cases hnone
  · rw [hx] at hx'
    cases hx'
    refine ⟨slot, ?_, hstored.size_eq⟩
    rw [Chain.lookup?_eq_lookup, hslot]

theorem Layout.addressed (h : Layout ctx (entry ctx s)) {x : String × Slot}
    (hx : x ∈ ctx.slots.flatten) : x.2.Addressed (entry ctx s) := by
  have hdepth := h.depth_le x hx
  have hfloor := h.floor_le
  refine ⟨?_, h.end_le x hx⟩
  rw [entry]
  omega

theorem Stored.size {entry : Int} {mem : Memory} {x : String × Slot} {y : String × Variable}
    (h : Stored entry mem x y) : x.2.size = 1 ∨ x.2.size = 4 := by
  rw [h.size_eq]
  exact Scalar.size_eq _

/-- A slot keeps its value if its bytes do. -/
theorem Stored.congr {entry : Int} {mem mem' : Memory} {x : String × Slot} {y : String × Variable}
    (h : Stored entry mem x y) (hx : x.2.Addressed entry)
    (hmem : ∀ a : Word, entry - x.2.depth ≤ a.toNat →
      (a.toNat : Int) < entry - x.2.depth + x.2.size → mem' a = mem a) :
    Stored entry mem' x y := by
  refine ⟨h.name_eq, h.scalar, h.size_eq, h.truth, ?_⟩
  have hsize := h.size
  have haddress := hx.toNat_eq (by omega)
  have hend := hx.2
  rw [← h.load_eq]
  congr 1
  exact Memory.load_congr h.size (by omega) fun a hlow hhigh => hmem a (by omega) (by omega)

theorem stored_congr {entry : Int} {mem mem' : Memory} {xs : List (String × Slot)} {env : Env}
    (h : List.Forall₂ (Stored entry mem) xs env) (hxs : ∀ x ∈ xs, x.2.Addressed entry ∧
      ∀ a : Word, entry - x.2.depth ≤ a.toNat → (a.toNat : Int) < entry - x.2.depth + x.2.size →
        mem' a = mem a) :
    List.Forall₂ (Stored entry mem') xs env :=
  ((List.forall₂_and_left xs env).2 ⟨hxs, h⟩).imp fun _ _ hxy => hxy.2.congr hxy.1.1 hxy.1.2

theorem Layout.entry_lt (h : Layout ctx (entry ctx s)) :
    ((BitVec.ofInt 32 (entry ctx s)).toNat : Int) = entry ctx s := by
  have hfloor := h.floor_le
  have hnonneg := h.floor_nonneg
  have hend := h.entry_le
  refine Word.toNat_ofInt ?_ (by omega)
  rw [entry]
  omega

/-- What a frame represents does not change with the memory below the stack pointer, and the stack
pointer may move if the frame moves with it. -/
theorem Stands.transfer (h : Stands ctx env link s)
    (hslots : ctx'.slots.flatten = ctx.slots.flatten) (hlayout : Layout ctx' (entry ctx' t))
    (hentry : entry ctx' t = entry ctx s) (hmem : ∀ a : Word, s.top ≤ a.toNat → t.mem a = s.mem a) :
    Stands ctx' env link t := by
  have hdef : entry ctx s = s.top + ctx.frame.displacement := rfl
  have hfloor := h.layout.floor_le
  have hnonneg := h.layout.floor_nonneg
  refine ⟨hlayout, ?_, ?_⟩
  · have hend := h.layout.entry_le
    have haddress := h.layout.entry_lt
    rw [hentry, ← h.link_eq]
    exact Memory.readWord_congr (by omega) fun a hlow _ => hmem a (by omega)
  · rw [hslots, hentry]
    refine stored_congr h.vars fun x hx => ⟨h.layout.addressed hx, fun a hlow _ => hmem a ?_⟩
    have hdepth := h.layout.depth_le x hx
    omega

/-- Variables stand as they did after an evaluation. -/
theorem Stands.of_kept {d : Depth} (h : Stands ctx env link s) (hkept : Kept d s t) :
    Stands ctx env link t := by
  have hentry : entry ctx t = entry ctx s := by rw [entry, entry, hkept.top_eq]
  exact h.transfer rfl (hentry ▸ h.layout) hentry hkept.mem

/-- Expressions find the variables where they are looked for. -/
theorem Stands.represents (h : Stands ctx env link s) :
    Represents ctx (typeOf env.types) env.values s := by
  intro name type slot hname hscalar hslot
  rw [typeOf, env.lookup_types] at hname
  rw [Chain.lookup?_eq_lookup] at hslot
  obtain ⟨x, hx, rfl⟩ := Option.map_eq_some_iff.1 hname
  obtain ⟨hmem, hstored⟩ := stored_of_lookup h.vars hslot hx
  have hsize : slot.size = 1 ∨ slot.size = 4 := hstored.size
  have hsize' : slot.size = x.type.size := hstored.size_eq
  have haddressed : slot.Addressed (entry ctx s) := h.layout.addressed hmem
  have haddress := haddressed.toNat_eq (by omega)
  have hend := haddressed.2
  have hdepth : slot.depth ≤ ctx.frame.floor := h.layout.depth_le _ hmem
  have hfloor := h.layout.floor_le
  have hdef : entry ctx s = s.top + ctx.frame.displacement := rfl
  refine ⟨x.value, (BitVec.ofInt 32 (entry ctx s - slot.depth)).toNat, ?_, hstored.truth, ?_, ?_, ?_, ?_⟩
  · rw [Env.values, hx]
    rfl
  · omega
  · omega
  · omega
  · rw [BitVec.ofNat_toNat, BitVec.setWidth_eq, ← hsize']
    exact hstored.load_eq

section

variable {slot : Slot} {w : Word}

/-- Writing a slot changes its own bytes only. -/
theorem store_outside {entry : Int} (haddressed : slot.Addressed entry)
    (hsize : slot.size = 1 ∨ slot.size = 4) (mem : Memory) (w : Word) {a : Word}
    (ha : (a.toNat : Int) < entry - slot.depth ∨ entry - slot.depth + slot.size ≤ a.toNat) :
    mem.store slot.size (BitVec.ofInt 32 (entry - slot.depth)) w a = mem a := by
  have haddress := haddressed.toNat_eq (by omega)
  have hend := haddressed.2
  exact Memory.store_of_outside mem w hsize (by omega) (by omega)

/-- Storing a variable changes no other. -/
theorem stored_store_apart {entry : Int} {mem : Memory} {xs : List (String × Slot)} {env : Env}
    (h : List.Forall₂ (Stored entry mem) xs env) (hxs : ∀ x ∈ xs, x.2.Addressed entry)
    (haddressed : slot.Addressed entry) (hsize : slot.size = 1 ∨ slot.size = 4)
    (hapart : ∀ x ∈ xs, slot.Apart x.2) (w : Word) :
    List.Forall₂ (Stored entry (mem.store slot.size (BitVec.ofInt 32 (entry - slot.depth)) w)) xs
      env := by
  refine stored_congr h fun x hx => ⟨hxs x hx, fun a hlow hhigh => ?_⟩
  refine store_outside haddressed hsize mem w ?_
  rcases hapart x hx with hbelow | habove
  · exact .inr (by omega)
  · exact .inl (by omega)

/-- What was stored is loaded, cut to its size. -/
theorem load_stored {type : Ty} (mem : Memory) (a w : Word) :
    ((mem.store type.size a w).load type.size a).toInt = stored type w.toInt :=
  Memory.load_store mem a w (size_eq type)

/-- Writing the slot of a variable gives that variable its new value, and no other one. -/
theorem stored_update {entry : Int} {mem : Memory} {xs : List (String × Slot)} {env : Env}
    {name : String} {x : Variable} (h : List.Forall₂ (Stored entry mem) xs env)
    (hxs : ∀ x ∈ xs, x.2.Addressed entry) (hapart : xs.Pairwise fun x y => x.2.Apart y.2)
    (hslot : xs.lookup name = some slot) (hx : env.lookup name = some x)
    (htruth : x.type = .bool → Truth (stored x.type w.toInt)) :
    List.Forall₂ (Stored entry (mem.store slot.size (BitVec.ofInt 32 (entry - slot.depth)) w)) xs
      (env.update name (stored x.type w.toInt)) := by
  induction h with
  | nil => cases hslot
  | @cons p q xs env hpq htail ih =>
    obtain ⟨other, first⟩ := p
    obtain ⟨other', var⟩ := q
    obtain rfl : other = other' := hpq.name_eq
    have haddressed : first.Addressed entry := hxs _ List.mem_cons_self
    have hrest := fun x hx => hxs x (List.mem_cons_of_mem _ hx)
    obtain ⟨hfirst, hothers⟩ := List.pairwise_cons.1 hapart
    rw [List.lookup_cons] at hslot hx
    by_cases hname : other = name
    · subst hname
      rw [beq_self_eq_true] at hslot hx
      obtain rfl : first = slot := Option.some.inj hslot
      obtain rfl : var = x := Option.some.inj hx
      rw [Env.update, if_pos rfl]
      refine .cons ⟨rfl, hpq.scalar, hpq.size_eq, htruth, ?_⟩ ?_
      · have hsize : first.size = var.type.size := hpq.size_eq
        simp only [hsize]
        exact load_stored mem _ w
      · exact stored_store_apart htail hrest haddressed hpq.size hfirst w
    · simp only [beq_eq_false_iff_ne.2 (Ne.symm hname)] at hslot hx
      rw [Env.update, if_neg hname]
      obtain ⟨hmem, hstored⟩ := stored_of_lookup htail hslot hx
      refine .cons ?_ (ih hrest hothers hslot hx)
      refine hpq.congr haddressed fun a hlow hhigh => ?_
      refine store_outside (hrest _ hmem) hstored.size mem w ?_
      rcases hfirst _ hmem with hbelow | habove
      · exact .inl (by omega)
      · exact .inr (by omega)

/-- The saved link register is not part of any slot. -/
theorem link_store {entry : Int} {mem : Memory} (haddressed : slot.Addressed entry)
    (hsize : slot.size = 1 ∨ slot.size = 4) (hclear : slot.size ≤ slot.depth ∨ slot.depth ≤ -4)
    (hentry : ((BitVec.ofInt 32 entry).toNat : Int) = entry) (hend : entry + 4 ≤ 2 ^ 32) (w : Word) :
    (mem.store slot.size (BitVec.ofInt 32 (entry - slot.depth)) w).readWord (BitVec.ofInt 32 entry) =
      mem.readWord (BitVec.ofInt 32 entry) := by
  refine Memory.readWord_congr (by omega) fun a hlow hhigh => ?_
  refine store_outside haddressed hsize mem w ?_
  rcases hclear with hbelow | habove
  · exact .inr (by omega)
  · exact .inl (by omega)

/-- An assignment changes one variable. -/
theorem Stands.assign (h : Stands ctx env link s) {name : String} {x : Variable}
    (hslot : ctx.slots.flatten.lookup name = some slot) (hx : env.lookup name = some x)
    (htruth : x.type = .bool → Truth (stored x.type w.toInt)) (htop : t.top = s.top)
    (hmem : t.mem = s.mem.store slot.size (BitVec.ofInt 32 (entry ctx s - slot.depth)) w) :
    Stands ctx (env.update name (stored x.type w.toInt)) link t := by
  have hentry : entry ctx t = entry ctx s := by rw [entry, entry, htop]
  obtain ⟨hin, hstored⟩ := stored_of_lookup h.vars hslot hx
  have haddressed : slot.Addressed (entry ctx s) := h.layout.addressed hin
  refine ⟨hentry ▸ h.layout, ?_, ?_⟩
  · rw [hentry, hmem, ← h.link_eq]
    exact link_store haddressed hstored.size (h.layout.clear _ hin) h.layout.entry_lt
      h.layout.entry_le w
  · rw [hentry, hmem]
    exact stored_update h.vars (fun x hx => h.layout.addressed hx) h.layout.apart hslot hx htruth

/-- The slot of a declaration is in its place, apart from the others. -/
theorem Layout.declare (h : Layout ctx (entry ctx s)) (name : String) {size : Nat} (hsize : 0 < size)
    (hroom : ctx.frame.floor + size ≤ ctx.frame.displacement) :
    Layout (ctx.declare name size) (entry ctx s) := by
  have hslots := ctx.slots_declare name hsize hroom
  have hframe := ctx.frame_declare name size
  have hnonneg := h.floor_nonneg
  have hend := h.entry_le
  refine ⟨?_, ?_, hend, ?_, ?_, ?_, ?_⟩
  · rw [hframe, Frame.floor_advance hroom]
    omega
  · rw [hframe, Frame.floor_advance hroom, Frame.displacement_advance]
    exact hroom
  · rw [hslots, hframe, Frame.floor_advance hroom]
    rintro x (_ | ⟨_, hx⟩)
    · exact Int.le_refl _
    · have := h.depth_le x hx
      omega
  · rw [hslots]
    rintro x (_ | ⟨_, hx⟩)
    · left
      change (size : Int) ≤ ctx.frame.floor + size
      omega
    · exact h.clear x hx
  · rw [hslots]
    rintro x (_ | ⟨_, hx⟩)
    · change entry ctx s - (ctx.frame.floor + size) + size ≤ 2 ^ 32
      omega
    · exact h.end_le x hx
  · rw [hslots]
    refine List.pairwise_cons.2 ⟨fun x hx => ?_, h.apart⟩
    left
    change x.2.depth + size ≤ ctx.frame.floor + size
    have := h.depth_le x hx
    omega

/-- A declaration adds a variable. -/
theorem Stands.declare (h : Stands ctx env link s) (name : String) {type : Ty}
    (hscalar : isScalar type) (hroom : ctx.frame.floor + type.size ≤ ctx.frame.displacement)
    (htruth : type = .bool → Truth (stored type w.toInt)) (htop : t.top = s.top)
    (hmem : t.mem = s.mem.store type.size
      (BitVec.ofInt 32 (entry ctx s - (ctx.frame.floor + type.size))) w) :
    Stands (ctx.declare name type.size) ((name, ⟨type, stored type w.toInt⟩) :: env) link t := by
  have hsize := size_eq type
  have hlayout := h.layout.declare name (by omega) hroom
  have hentry : entry (ctx.declare name type.size) t = entry ctx s := by
    rw [entry, entry, htop, ctx.frame_declare, Frame.displacement_advance]
  have hslots := ctx.slots_declare name (by omega) hroom
  let slot : Slot := ⟨ctx.frame.floor + type.size, type.size⟩
  have hin : (name, slot) ∈ (ctx.declare name type.size).slots.flatten := by
    rw [hslots]
    exact List.mem_cons_self
  have haddressed : slot.Addressed (entry ctx s) := by
    rw [← hentry] at hlayout ⊢
    exact hlayout.addressed hin
  refine ⟨hentry ▸ hlayout, ?_, ?_⟩
  · rw [hentry, hmem, ← h.link_eq]
    exact link_store haddressed hsize (hlayout.clear _ hin) h.layout.entry_lt h.layout.entry_le w
  · rw [hentry, hmem, hslots]
    refine .cons ⟨rfl, hscalar, rfl, htruth, load_stored s.mem _ w⟩ ?_
    refine stored_store_apart h.vars (fun x hx => h.layout.addressed hx) haddressed hsize ?_ w
    have hapart := hlayout.apart
    rw [hslots] at hapart
    exact (List.pairwise_cons.1 hapart).1

end

theorem Layout.inside {entry : Int} (h : Layout ctx entry) (size : Nat) :
    Layout (ctx.inside size) entry := by
  have hfloor : (ctx.inside size).frame.floor = ctx.frame.displacement := by
    simp [Context.inside, Frame.enter, Frame.floor]
  have hnonneg := h.floor_nonneg
  have hle := h.floor_le
  refine ⟨?_, ?_, h.entry_le, fun x hx => ?_, h.clear, h.end_le, h.apart⟩
  · rw [hfloor]
    omega
  · rw [hfloor]
    simp only [Context.inside, Frame.enter]
    omega
  · have := h.depth_le x hx
    rw [hfloor]
    omega

/-- A block starts with the variables around it. -/
theorem Stands.inside (h : Stands ctx env link s) {size : Nat} (htop : t.top + size = s.top)
    (hmem : t.mem = s.mem) : Stands (ctx.inside size) env link t := by
  have hentry : entry (ctx.inside size) t = entry ctx s := by
    simp only [entry, Context.inside, Frame.enter]
    omega
  exact h.transfer rfl (hentry ▸ h.layout.inside size) hentry fun a _ => by rw [hmem]

/-- Outside a block, the variables that were there before it are left. -/
theorem Stands.leave {inner : Context} {env' : Env} {added : List (String × Slot)}
    (h : Stands inner env' link s) (hslots : inner.slots.flatten = added ++ ctx.slots.flatten)
    (hlayout : Layout ctx (entry ctx t)) (hentry : entry ctx t = entry inner s)
    (hmem : t.mem = s.mem) : Stands ctx (env'.leave ctx.slots.flatten.length) link t := by
  refine ⟨hlayout, ?_, ?_⟩
  · rw [hentry, hmem]
    exact h.link_eq
  · have hlength : env'.length = added.length + ctx.slots.flatten.length := by
      rw [← h.vars.length_eq, hslots, List.length_append]
    have hdrop := List.forall₂_drop added.length h.vars
    rw [hslots, List.drop_left] at hdrop
    rw [hentry, hmem, Env.leave, hlength, Nat.add_sub_cancel]
    exact hdrop

end Scalar

end WaccArm
