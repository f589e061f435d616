import Mathlib.Data.Set.Lattice
import WaccArm.Proofs.Machine.Access
import WaccArm.Proofs.Scalar.Eval

namespace WaccArm.Arrays

open Scalar

/-- An array with `n` dimensions and all that it leads to. A cell has no dimension. -/
inductive Nest : Nat → Type
  | cell : Nest 0
  | array {n : Nat} (address : Word) (length : Nat) (row : Fin length → Nest n) : Nest (n + 1)

/-- Why an element has no address: an index has no value, or is out of range. -/
inductive Fault where
  | trap (trap : Trap)
  | negativeIndex
  | largeIndex
deriving DecidableEq, Repr

/-- The index that an evaluation gives for an array of the given length. -/
def inRange (length : Nat) : Except Trap Int → Except Fault (Fin length)
  | .error trap => .error (.trap trap)
  | .ok v =>
    if v < 0 then .error .negativeIndex
    else if h : v.toNat < length then .ok ⟨v.toNat, h⟩
    else .error .largeIndex

/-- The routine tells an index below zero from a large one. -/
theorem inRange_of_neg {length : Nat} {v : Int} (hneg : v < 0) :
    inRange length (.ok v) = .error .negativeIndex :=
  if_pos hneg

theorem inRange_of_lt {length : Nat} {v : Int} (hpos : 0 ≤ v) (hlt : v.toNat < length) :
    inRange length (.ok v) = .ok ⟨v.toNat, hlt⟩ := by
  rw [inRange, if_neg (by omega), dif_pos hlt]

theorem inRange_of_le {length : Nat} {v : Int} (hpos : 0 ≤ v) (hle : length ≤ v.toNat) :
    inRange length (.ok v) = .error .largeIndex := by
  rw [inRange, if_neg (by omega), dif_neg (by omega)]

/-- The address of an element of the array at `address`, the elements of which take `width` bytes. -/
def elementAt (address : Word) (width i : Nat) : Word := address + 4 + BitVec.ofNat 32 (width * i)

/-- The bytes of something with `n` dimensions in an array. Only cells are not references. -/
def width (size n : Nat) : Nat := if n = 0 then size else 4

namespace Nest

/-- The address of the element that indices select, given the address `slot` of the reference to the
outermost array and the size of a cell. The first index that faults decides. -/
def locate (size : Nat) : {n : Nat} → Nest n → Word → List (Except Trap Int) → Except Fault Word
  | _, _, slot, [] => .ok slot
  | _, cell, _, _ :: _ => .error (.trap .stuck)
  | _, array (n := n) address length row, _, index :: indices =>
    match inRange length index with
    | .error fault => .error fault
    | .ok i => (row i).locate size (elementAt address (width size n) i) indices

/-- Whether memory holds a nest, with the reference to it at `slot`. -/
def Held (size : Nat) (mem : Memory) : {n : Nat} → Nest n → Word → Prop
  | _, cell, _ => True
  | _, array (n := n) address length row, slot =>
    mem.readWord slot = address ∧ (mem.readWord address).toNat = length ∧
      ∀ i, (row i).Held size mem (elementAt address (width size n) i)

/-- The addresses of all references and lengths of a nest. -/
def words (size : Nat) : {n : Nat} → Nest n → Word → Set Word
  | _, cell, _ => ∅
  | _, array (n := n) address _ row, slot =>
    Word.span slot 4 ∪ Word.span address 4 ∪
      ⋃ i, (row i).words size (elementAt address (width size n) i)

/-- The addresses of the references and lengths that have to be known to select an element. An index
without a value needs no array. A negative one needs the reference to the array but nothing of the array
itself, and one that is too large needs its length but nothing that it leads to. -/
def needed (size : Nat) : {n : Nat} → Nest n → Word → List (Except Trap Int) → Set Word
  | _, _, _, [] => ∅
  | _, cell, _, _ :: _ => ∅
  | _, array (n := n) address length row, slot, index :: indices =>
    match inRange length index with
    | .error (.trap _) => ∅
    | .error .negativeIndex => Word.span slot 4
    | .error .largeIndex => Word.span slot 4 ∪ Word.span address 4
    | .ok i => Word.span slot 4 ∪ Word.span address 4 ∪
        (row i).needed size (elementAt address (width size n) i) indices

section

variable {size n length : Nat} {row : Fin length → Nest n} {slot address : Word} {v : Int}
  {indices : List (Except Trap Int)}

/-- The reference itself is looked at. -/
theorem span_slot_subset_needed (v : Int) :
    Word.span slot 4 ⊆ (array address length row).needed size slot (.ok v :: indices) := by
  rw [needed]
  rcases Int.lt_or_le v 0 with hneg | hpos
  · rw [inRange_of_neg hneg]
  rcases Nat.lt_or_ge v.toNat length with hlt | hle
  · rw [inRange_of_lt hpos hlt]
    exact Set.subset_union_left.trans Set.subset_union_left
  · rw [inRange_of_le hpos hle]
    exact Set.subset_union_left

/-- The length is looked at once the index is not below zero. -/
theorem span_address_subset_needed (hpos : 0 ≤ v) :
    Word.span address 4 ⊆ (array address length row).needed size slot (.ok v :: indices) := by
  rw [needed]
  rcases Nat.lt_or_ge v.toNat length with hlt | hle
  · rw [inRange_of_lt hpos hlt]
    exact Set.subset_union_right.trans Set.subset_union_left
  · rw [inRange_of_le hpos hle]
    exact Set.subset_union_right

/-- Only the row that is selected is looked at. -/
theorem row_subset_needed {index : Except Trap Int} {i : Fin length}
    (hindex : inRange length index = .ok i) :
    (row i).needed size (elementAt address (width size n) i) indices ⊆
      (array address length row).needed size slot (index :: indices) := by
  rw [needed, hindex]
  exact Set.subset_union_right

end

variable {size n : Nat} {nest : Nest n} {slot : Word} {mem mem' : Memory}

@[simp] theorem locate_nil (nest : Nest n) (slot : Word) : nest.locate size slot [] = .ok slot := by
  cases nest <;> rfl

/-- A nest is held as long as its references and lengths stay. -/
theorem Held.of_words (h : nest.Held size mem slot)
    (hsame : ∀ a ∈ nest.words size slot, mem' a = mem a) : nest.Held size mem' slot := by
  induction nest generalizing slot with
  | cell => trivial
  | array address length row ih =>
    obtain ⟨hreference, hlength, hrows⟩ := h
    have hslot : mem'.readWord slot = mem.readWord slot :=
      Memory.readWord_of_span fun a ha => hsame a (.inl (.inl ha))
    have haddress : mem'.readWord address = mem.readWord address :=
      Memory.readWord_of_span fun a ha => hsame a (.inl (.inr ha))
    refine ⟨hslot.trans hreference, by rw [haddress, hlength], fun i => ih i (hrows i) fun a ha => ?_⟩
    exact hsame a (.inr (Set.mem_iUnion.2 ⟨i, ha⟩))

end Nest

end WaccArm.Arrays
