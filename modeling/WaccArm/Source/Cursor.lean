import WaccArm.Source.Pos

namespace WaccArm

/-- What is left of a source text, and the place of its first byte. -/
structure Cursor where
  rest : List UInt8
  pos : Pos
deriving DecidableEq, Repr

namespace Cursor

/-- The cursor at the start of a text. -/
def ofBytes (bytes : List UInt8) : Cursor := ⟨bytes, .start⟩

def peek? (c : Cursor) : Option UInt8 := c.rest.head?

/-- The first byte, and the cursor past it. -/
def next? (c : Cursor) : Option (UInt8 × Cursor) :=
  match c.rest with
  | [] => none
  | byte :: rest => some (byte, ⟨rest, c.pos.after byte⟩)

/-- Moves past the first byte if `accept` gives a value for it, and gives that value. -/
def nextMap? {α : Type} (c : Cursor) (accept : UInt8 → Option α) : Option (α × Cursor) :=
  match c.next? with
  | none => none
  | some (byte, next) => (accept byte).map (·, next)

/-- Moves past the first byte if `accept` holds of it. -/
def nextIf? (c : Cursor) (accept : UInt8 → Bool) : Option (UInt8 × Cursor) :=
  c.nextMap? fun byte => if accept byte then some byte else none

/-- Moves past `n` bytes, or past all of them if there are fewer. -/
def advance (c : Cursor) (n : Nat) : Cursor :=
  ⟨c.rest.drop n, c.pos.afterAll (c.rest.take n)⟩

end Cursor

end WaccArm
