import WaccArm.Layout.Depth
import WaccArm.Proofs.Machine.State

namespace WaccArm

/-- The registers that every routine gives back as it found them. -/
def calleeSaved : List Register := [.r4, .r5, .r6, .r7, .r8, .r9, .r10, .r11, .sp]

namespace Depth

/-- Without registers the left operand waits in the scratch register. -/
theorem left_of_exhausted {d : Depth} (h : d.exhausted = true) : d.left = .r12 := by
  simp [left, h, scratch]

theorem right_of_exhausted {d : Depth} (h : d.exhausted = true) : d.right = d.reg := by
  simp [right, next, h]

theorem left_of_not_exhausted {d : Depth} (h : d.exhausted = false) : d.left = d.reg := by
  simp [left, h]

theorem reg_mem_pool (d : Depth) : d.reg ∈ pool := List.get_mem _ _

/-- A register of the pool is none of those that calls and the stack use. -/
theorem ne_of_mem_pool {r : Register} (h : r ∈ pool) :
    r ∈ calleeSaved ∧ r ≠ .sp ∧ r ≠ .lr ∧ r ≠ .pc ∧ r ≠ .r0 ∧ r ≠ .r1 ∧ r ≠ .r12 := by
  revert r
  decide

/-- Values are not kept in registers of calls. -/
theorem reg_ne (d : Depth) : d.reg ≠ .sp ∧ d.reg ≠ .lr ∧ d.reg ≠ .pc ∧ d.reg ≠ .r0 ∧ d.reg ≠ .r1 :=
  have h := (ne_of_mem_pool d.reg_mem_pool).2
  ⟨h.1, h.2.1, h.2.2.1, h.2.2.2.1, h.2.2.2.2.1⟩

theorem left_ne (d : Depth) :
    d.left ≠ .sp ∧ d.left ≠ .lr ∧ d.left ≠ .pc ∧ d.left ≠ .r0 ∧ d.left ≠ .r1 := by
  cases h : d.exhausted with
  | true => simp [left_of_exhausted h]
  | false =>
    rw [left_of_not_exhausted h]
    exact d.reg_ne

theorem right_ne (d : Depth) :
    d.right ≠ .sp ∧ d.right ≠ .lr ∧ d.right ≠ .pc ∧ d.right ≠ .r0 ∧ d.right ≠ .r1 :=
  d.next.reg_ne

/-- Both operands can be there at once. -/
theorem left_ne_right (d : Depth) : d.left ≠ d.right := by
  obtain ⟨level⟩ := d
  revert level
  decide

/-- While a right operand is evaluated, the left one is in a register that is kept. -/
theorem reg_mem_live_next {d : Depth} (h : d.exhausted = false) : d.reg ∈ d.next.live := by
  obtain ⟨level⟩ := d
  revert level
  decide

/-- A right operand keeps the registers of the left one. -/
theorem live_subset_next (d : Depth) : d.live ⊆ d.next.live := by
  have hall : ∀ level : Fin 7, ∀ r ∈ (Depth.mk level).live, r ∈ (Depth.mk level).next.live := by
    decide
  exact hall d.level

theorem live_subset_pool (d : Depth) : d.live ⊆ pool := List.take_subset _ _

/-- The registers of smaller depths hold neither operand. -/
theorem ne_of_mem_live {d : Depth} {r : Register} (h : r ∈ d.live) :
    r ≠ d.reg ∧ r ≠ d.left ∧ r ≠ d.right := by
  have hall : ∀ level : Fin 7, ∀ r ∈ (Depth.mk level).live,
      r ≠ (Depth.mk level).reg ∧ r ≠ (Depth.mk level).left ∧ r ≠ (Depth.mk level).right := by
    decide
  exact hall d.level r h

/-- What is kept at a depth is in none of the registers that are written there. -/
theorem ne_of_kept {d : Depth} {r : Register} (h : r = .sp ∨ r ∈ d.live) :
    r ≠ d.reg ∧ r ≠ d.left ∧ r ≠ d.right ∧ r ≠ .lr ∧ r ≠ .pc ∧ r ≠ .r0 ∧ r ≠ .r1 ∧ r ≠ .r12 := by
  rcases h with rfl | h
  · have hreg := d.reg_ne.1
    have hleft := d.left_ne.1
    have hright := d.right_ne.1
    simp [Ne.symm hreg, Ne.symm hleft, Ne.symm hright]
  · have hvalue := ne_of_mem_live h
    have hpool := (ne_of_mem_pool (d.live_subset_pool h)).2
    exact ⟨hvalue.1, hvalue.2.1, hvalue.2.2, hpool.2⟩

end Depth

/-- What evaluation at depth `d` keeps. -/
structure Kept (d : Depth) (s t : State) : Prop where
  sp : t.regs .sp = s.regs .sp
  live : ∀ r ∈ d.live, t.regs r = s.regs r
  mem : ∀ a : Word, s.top ≤ a.toNat → t.mem a = s.mem a

namespace Kept

variable {d : Depth} {s t u : State}

theorem top_eq (h : Kept d s t) : t.top = s.top := by rw [State.top, State.top, h.sp]

theorem refl (d : Depth) (s : State) : Kept d s s := ⟨rfl, fun _ _ => rfl, fun _ _ => rfl⟩

/-- What two evaluations keep, both together keep. -/
theorem trans (h : Kept d s t) (h' : Kept d t u) : Kept d s u where
  sp := h'.sp.trans h.sp
  live r hr := (h'.live r hr).trans (h.live r hr)
  mem a ha := (h'.mem a (h.top_eq ▸ ha)).trans (h.mem a ha)

/-- A deeper evaluation keeps at least as much. -/
theorem of_next (h : Kept d.next s t) : Kept d s t :=
  ⟨h.sp, fun r hr => h.live r (d.live_subset_next hr), h.mem⟩

/-- Registers that are written but hold no value of a smaller depth do not count. -/
theorem of_regs (hmem : t.mem = s.mem) (h : ∀ r, r = .sp ∨ r ∈ d.live → t.regs r = s.regs r) :
    Kept d s t :=
  ⟨h .sp (.inl rfl), fun r hr => h r (.inr hr), fun a _ => by rw [hmem]⟩

end Kept

end WaccArm
