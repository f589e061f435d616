import WaccArm.Proofs.Machine.Arith

namespace WaccArm

abbrev Memory := Word → BitVec 8

namespace Memory

/-- The word whose bytes stand at `a` and the three addresses after it. -/
def readWord (mem : Memory) (a : Word) : Word := mem (a + 3) ++ mem (a + 2) ++ mem (a + 1) ++ mem a

def writeByte (mem : Memory) (a : Word) (byte : BitVec 8) : Memory :=
  fun b => if b = a then byte else mem b

def writeWord (mem : Memory) (a w : Word) : Memory := fun b =>
  if b = a then w.extractLsb' 0 8
  else if b = a + 1 then w.extractLsb' 8 8
  else if b = a + 2 then w.extractLsb' 16 8
  else if b = a + 3 then w.extractLsb' 24 8
  else mem b

@[simp] theorem writeByte_self (mem : Memory) (a : Word) (byte : BitVec 8) :
    mem.writeByte a byte a = byte := by
  simp [writeByte]

theorem writeByte_of_ne (mem : Memory) {a b : Word} (byte : BitVec 8) (h : b ≠ a) :
    mem.writeByte a byte b = mem b := by
  simp [writeByte, h]

/-- A word that was written is read back. -/
@[simp] theorem readWord_writeWord (mem : Memory) (a w : Word) :
    (mem.writeWord a w).readWord a = w := by
  have h1 : a + 1 ≠ a := by bv_omega
  have h2 : a + 2 ≠ a ∧ a + 2 ≠ a + 1 := by bv_omega
  have h3 : a + 3 ≠ a ∧ a + 3 ≠ a + 1 ∧ a + 3 ≠ a + 2 := by bv_omega
  simp only [readWord, writeWord, h1, h2, h3, if_true, if_false]
  rw [BitVec.extractLsb'_append_extractLsb'_eq_extractLsb' (by rfl),
    BitVec.extractLsb'_append_extractLsb'_eq_extractLsb' (by rfl),
    BitVec.extractLsb'_append_extractLsb'_eq_extractLsb' (by rfl)]
  exact BitVec.extractLsb'_eq_self

/-- A word that does not run over the end of memory only changes its own four bytes. -/
theorem writeWord_of_outside (mem : Memory) {a b : Word} (w : Word) (hend : a.toNat + 4 ≤ 2 ^ 32)
    (h : b.toNat < a.toNat ∨ a.toNat + 4 ≤ b.toNat) : mem.writeWord a w b = mem b := by
  have hne : b ≠ a ∧ b ≠ a + 1 ∧ b ≠ a + 2 ∧ b ≠ a + 3 := by bv_omega
  simp only [writeWord, hne, if_false]

/-- A word is made of its own four bytes only. -/
theorem readWord_congr {mem mem' : Memory} {a : Word} (hend : a.toNat + 4 ≤ 2 ^ 32)
    (h : ∀ b : Word, a.toNat ≤ b.toNat → b.toNat < a.toNat + 4 → mem b = mem' b) :
    mem.readWord a = mem'.readWord a := by
  rw [readWord, readWord, h (a + 3) (by bv_omega) (by bv_omega), h (a + 2) (by bv_omega) (by bv_omega),
    h (a + 1) (by bv_omega) (by bv_omega), h a (by omega) (by omega)]

/-- The value of `size` bytes at an address, as a register holds it. -/
def load (mem : Memory) (size : Nat) (a : Word) : Word :=
  if size = 1 then (mem a).signExtend 32 else mem.readWord a

/-- Puts the value of a register into `size` bytes at an address. -/
def store (mem : Memory) (size : Nat) (a w : Word) : Memory :=
  if size = 1 then mem.writeByte a (w.setWidth 8) else mem.writeWord a w

/-- A load depends on the bytes that it reads. -/
theorem load_congr {mem mem' : Memory} {size : Nat} {a : Word} (hsize : size = 1 ∨ size = 4)
    (hend : a.toNat + size ≤ 2 ^ 32)
    (h : ∀ b : Word, a.toNat ≤ b.toNat → b.toNat < a.toNat + size → mem b = mem' b) :
    mem.load size a = mem'.load size a := by
  rcases hsize with rfl | rfl
  · simp only [load, if_true, h a (by omega) (by omega)]
  · exact readWord_congr hend h

/-- A store changes its own bytes only. -/
theorem store_of_outside (mem : Memory) {size : Nat} {a b : Word} (w : Word)
    (hsize : size = 1 ∨ size = 4) (hend : a.toNat + size ≤ 2 ^ 32)
    (h : b.toNat < a.toNat ∨ a.toNat + size ≤ b.toNat) : mem.store size a w b = mem b := by
  rcases hsize with rfl | rfl
  · exact writeByte_of_ne _ _ (by rintro rfl; omega)
  · exact writeWord_of_outside _ _ hend h

/-- A byte is read back with its sign, a word as it is. -/
theorem load_store (mem : Memory) {size : Nat} (a w : Word) (hsize : size = 1 ∨ size = 4) :
    ((mem.store size a w).load size a).toInt = if size = 1 then w.toInt.bmod 256 else w.toInt := by
  rcases hsize with rfl | rfl
  · have hbyte : (w.setWidth 8).toInt = w.toInt.bmod 256 := by
      rw [BitVec.toInt_setWidth, BitVec.toInt_eq_toNat_bmod]
      exact (Int.bmod_bmod_of_dvd (by decide)).symm
    simp only [load, store, if_true, writeByte_self]
    rw [BitVec.toInt_signExtend, hbyte]
    exact Int.bmod_bmod
  · simp [load, store]

/-- Stores registers one after the other, from `a` upwards. -/
def storeAll (regs : Register → Word) : List Register → Word → Memory → Memory
  | [], _, mem => mem
  | r :: rs, a, mem => storeAll regs rs (a + 4) (mem.writeWord a (regs r))

/-- Loads registers one after the other, from `a` upwards. -/
def loadAll (mem : Memory) : List Register → Word → (Register → Word) → Register → Word
  | [], _, regs => regs
  | r :: rs, a, regs =>
    mem.loadAll rs (a + 4) fun q => if q = r then mem.readWord a else regs q

end Memory

/-- A state of the machine. The program counter is the number of a line of text. -/
structure State where
  regs : Register → Word
  flags : Flags
  mem : Memory
  pc : Nat

namespace State

/-- Puts a word into a register. -/
def set (s : State) (r : Register) (w : Word) : State :=
  { s with regs := fun q => if q = r then w else s.regs q }

/-- Goes on to the next line. -/
def next (s : State) : State := { s with pc := s.pc + 1 }

/-- The number of the address that the stack pointer holds. -/
def top (s : State) : Nat := (s.regs .sp).toNat

section

variable (s : State) (r q : Register) (w : Word)

@[simp] theorem set_regs : (s.set r w).regs q = if q = r then w else s.regs q := rfl

@[simp] theorem set_flags : (s.set r w).flags = s.flags := rfl

@[simp] theorem set_mem : (s.set r w).mem = s.mem := rfl

@[simp] theorem set_pc : (s.set r w).pc = s.pc := rfl

@[simp] theorem next_regs : s.next.regs = s.regs := rfl

@[simp] theorem next_flags : s.next.flags = s.flags := rfl

@[simp] theorem next_mem : s.next.mem = s.mem := rfl

@[simp] theorem next_pc : s.next.pc = s.pc + 1 := rfl

end

/-- The value of an operand that is not in memory. -/
def operand? (s : State) : Operand → Option Word
  | .reg r => some (s.regs r)
  | .imm value => some (BitVec.ofInt 32 value)
  | .shifted r (.lsl bits) => some (s.regs r <<< bits)
  | .shifted r (.asr bits) => some ((s.regs r).sshiftRight bits)
  | _ => none

/-- The address that a memory operand stands for. -/
def address? (s : State) : Operand → Option Word
  | .mem base offset => some (s.regs base + BitVec.ofInt 32 offset)
  | .indexed base index => some (s.regs base + s.regs index)
  | _ => none

/-- Puts registers on the stack, the first one lowest. -/
def push (s : State) (rs : List Register) : State :=
  let a := s.regs .sp - BitVec.ofNat 32 (4 * rs.length)
  { s.set .sp a with mem := Memory.storeAll s.regs rs a s.mem }

/-- Takes registers off the stack, the first one lowest. -/
def pop (s : State) (rs : List Register) : State :=
  { s with regs := s.mem.loadAll rs (s.regs .sp) s.regs }.set .sp
    (s.regs .sp + BitVec.ofNat 32 (4 * rs.length))

theorem push_single (s : State) (r : Register) :
    s.push [r] = { s.set .sp (s.regs .sp - 4) with
      mem := s.mem.writeWord (s.regs .sp - 4) (s.regs r) } := rfl

theorem pop_single (s : State) (r : Register) :
    s.pop [r] = (s.set r (s.mem.readWord (s.regs .sp))).set .sp (s.regs .sp + 4) := rfl

theorem top_lt (s : State) : s.top < 2 ^ 32 := (s.regs .sp).isLt

end State

end WaccArm
