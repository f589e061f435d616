import Mathlib.Data.Set.Basic
import WaccArm.Proofs.Machine.Step

namespace WaccArm

/-- The `n` addresses from `a` on. -/
def Word.span (a : Word) (n : Nat) : Set Word := {b | (b - a).toNat < n}

theorem Word.mem_span {a b : Word} {n : Nat} : b ∈ Word.span a n ↔ (b - a).toNat < n := Iff.rfl

/-- A word depends on its four bytes. -/
theorem Memory.readWord_of_span {mem mem' : Memory} {a : Word}
    (h : ∀ b ∈ Word.span a 4, mem b = mem' b) : mem.readWord a = mem'.readWord a := by
  have hbyte : ∀ k : Word, k.toNat < 4 → mem (a + k) = mem' (a + k) := by
    intro k hk
    refine h (a + k) ?_
    rw [Word.mem_span]
    bv_omega
  have hzero : mem a = mem' a := h a (by rw [Word.mem_span, BitVec.sub_self]; decide)
  rw [readWord, readWord, hbyte 3 (by decide), hbyte 2 (by decide), hbyte 1 (by decide), hzero]

/-- The addresses that an instruction loads from. -/
def Instr.loads (i : Instr) (s : State) : Set Word :=
  match i.opcode, i.operands with
  | .ldr, [.reg _, src] => (s.address? src).elim ∅ (Word.span · 4)
  | .ldrsb, [.reg _, src] => (s.address? src).elim ∅ (Word.span · 1)
  | .pop, [.regList rs] => Word.span (s.regs .sp) (4 * rs.length)
  | _, _ => ∅

/-- A load reads the bytes at its address. -/
theorem Instr.loads_load {s : State} {src : Operand} {a : Word} (haddress : s.address? src = some a)
    {size : Nat} (hsize : size = 1 ∨ size = 4) (dst : Register) :
    (Instr.load size dst src).loads s = Word.span a size := by
  rcases hsize with rfl | rfl <;> simp [loads, load, Opcode.load, haddress]

/-- The `n` bytes below the stack pointer. -/
def State.below (s : State) (n : Nat) : Set Word := {a | a.toNat < s.top ∧ s.top ≤ a.toNat + n}

theorem State.mem_below {s : State} {n : Nat} {a : Word} :
    a ∈ s.below n ↔ a.toNat < s.top ∧ s.top ≤ a.toNat + n :=
  Iff.rfl

/-- The four bytes that a push uses. -/
theorem State.below_four {s : State} (hroom : 4 ≤ s.top) :
    s.below 4 = Word.span (s.regs .sp - 4) 4 := by
  ext a
  rw [mem_below, Word.mem_span]
  rw [top] at hroom ⊢
  bv_omega

theorem State.push_top {s : State} (hroom : 4 ≤ s.top) (r : Register) :
    (s.push [r]).top + 4 = s.top := by
  change (s.regs .sp - 4).toNat + 4 = s.top
  rw [top] at hroom ⊢
  bv_omega

/-- Putting a word on the stack changes nothing but the four bytes below the stack pointer. -/
theorem State.push_mem {s : State} (hroom : 4 ≤ s.top) (r : Register) {a : Word} (ha : a ∉ s.below 4) :
    (s.push [r]).mem a = s.mem a := by
  rw [mem_below] at ha
  have htop : (s.regs .sp - 4).toNat + 4 = s.top := push_top hroom r
  have := s.top_lt
  rw [push_single]
  exact Memory.writeWord_of_outside _ _ (by omega) (by omega)

/-- The memory that a run may load from, and the memory that it may change. -/
structure Access where
  loads : Set Word
  stores : Set Word

/-- An access to all of memory. -/
def Access.all : Access := ⟨Set.univ, Set.univ⟩

/-- Whether there are `n` bytes below the stack pointer that may be used. -/
structure Access.Stack (A : Access) (s : State) (n : Nat) : Prop where
  room : n ≤ s.top
  loads : s.below n ⊆ A.loads
  stores : s.below n ⊆ A.stores

namespace Access.Stack

variable {A : Access} {s t : State} {m n : Nat}

theorem all (hroom : n ≤ s.top) : Access.all.Stack s n := ⟨hroom, Set.subset_univ _, Set.subset_univ _⟩

theorem mono (h : A.Stack s n) (hle : m ≤ n) : A.Stack s m := by
  have hsub : s.below m ⊆ s.below n := by
    intro a ha
    rw [State.mem_below] at ha ⊢
    omega
  exact ⟨hle.trans h.room, hsub.trans h.loads, hsub.trans h.stores⟩

/-- Where the stack pointer is decides what may be used. -/
theorem of_top_eq (h : A.Stack s n) (htop : t.top = s.top) : A.Stack t n := by
  have hbelow : t.below n = s.below n := by rw [State.below, State.below, htop]
  refine ⟨by rw [htop]; exact h.room, ?_, ?_⟩ <;> rw [hbelow]
  · exact h.loads
  · exact h.stores

/-- Below a pushed value there is still room. -/
theorem push (h : A.Stack s (4 + n)) (r : Register) : A.Stack (s.push [r]).next n := by
  have htop : (s.push [r]).next.top + 4 = s.top := State.push_top (by have := h.room; omega) r
  have hsub : (s.push [r]).next.below n ⊆ s.below (4 + n) := by
    intro a ha
    rw [State.mem_below] at ha ⊢
    omega
  refine ⟨?_, hsub.trans h.loads, hsub.trans h.stores⟩
  have := h.room
  omega

end Access.Stack

namespace Machine

/-- The addresses that the next step loads from. -/
def loads (M : Machine) (s : State) : Set Word :=
  match M.text[s.pc]? with
  | some (.instr i) => if i.cond.holds s.flags then i.loads s else ∅
  | _ => ∅

/-- A step that keeps to an access. -/
structure StepsWithin (M : Machine) (A : Access) (s t : State) : Prop where
  step : M.step s = some t
  loads : M.loads s ⊆ A.loads
  stores : ∀ a ∉ A.stores, t.mem a = s.mem a

/-- Whether the machine gets from one state to the other and keeps to an access. -/
def ReachesWithin (M : Machine) (A : Access) : State → State → Prop :=
  Relation.ReflTransGen (M.StepsWithin A)

namespace ReachesWithin

variable {M : Machine} {A : Access} {s t u : State}

theorem refl (s : State) : M.ReachesWithin A s s := Relation.ReflTransGen.refl

/-- Runs within an access can be put together. -/
theorem trans (h : M.ReachesWithin A s t) (h' : M.ReachesWithin A t u) : M.ReachesWithin A s u :=
  Relation.ReflTransGen.trans h h'

/-- A run within an access is a run. -/
theorem reaches (h : M.ReachesWithin A s t) : M.Reaches s t := by
  refine Relation.ReflTransGen.mono ?_ s t h
  intro u v hstep
  exact hstep.step

/-- Memory that may not be stored to is as it was. -/
theorem mem_eq (h : M.ReachesWithin A s t) {a : Word} (ha : a ∉ A.stores) : t.mem a = s.mem a := by
  induction h with
  | refl => rfl
  | tail _ hstep ih => rw [hstep.stores a ha, ih]

/-- An instruction whose condition holds is executed. -/
theorem exec {i : Instr} {code : Code} (hcode : M.Holds s.pc (.instr i :: code))
    (hcond : i.cond.holds s.flags = true) (hexec : M.exec s i = some t) (hloads : i.loads s ⊆ A.loads)
    (hstores : ∀ a ∉ A.stores, t.mem a = s.mem a) : M.ReachesWithin A s t := by
  refine Relation.ReflTransGen.single ⟨?_, ?_, hstores⟩
  · simp only [step, hcode.1, hcond, if_true, hexec]
  · simpa only [loads, hcode.1, hcond, if_true] using hloads

/-- An instruction that has nothing to do with memory. -/
theorem quiet {i : Instr} {code : Code} (hcode : M.Holds s.pc (.instr i :: code))
    (hcond : i.cond.holds s.flags = true) (hexec : M.exec s i = some t) (hloads : i.loads s = ∅)
    (hmem : t.mem = s.mem) : M.ReachesWithin A s t := by
  refine exec hcode hcond hexec ?_ fun a _ => by rw [hmem]
  rw [hloads]
  exact Set.empty_subset _

/-- An instruction whose condition does not hold is passed over. -/
theorem skip {i : Instr} {code : Code} (hcode : M.Holds s.pc (.instr i :: code))
    (hcond : i.cond.holds s.flags = false) : M.ReachesWithin A s s.next := by
  refine Relation.ReflTransGen.single ⟨?_, ?_, fun _ _ => rfl⟩
  · simp [step, hcode.1, hcond]
  · simp [loads, hcode.1, hcond]

/-- A label is passed. -/
theorem label {name : String} (h : M.At s name) : M.ReachesWithin A s s.next := by
  have hline : M.text[s.pc]? = some (.label name) := h
  refine Relation.ReflTransGen.single ⟨?_, ?_, fun _ _ => rfl⟩
  · simp only [step, hline]
  · simp only [loads, hline, Set.empty_subset]

/-- A push stores below the stack pointer. -/
theorem push (r : Register) {code : Code} (hcode : M.Holds s.pc (.instr (.push [r]) :: code))
    (hstack : A.Stack s 4) : M.ReachesWithin A s (s.push [r]).next :=
  .exec hcode rfl rfl (Set.empty_subset _) fun _ ha =>
    State.push_mem hstack.room r fun hmem => ha (hstack.stores hmem)

end ReachesWithin

end Machine

end WaccArm
