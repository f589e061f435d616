namespace WaccArm

/-- A place in a source text: `line` counts from one and `col` counts bytes from zero. -/
structure Pos where
  line : Nat
  col : Nat
deriving DecidableEq, Repr

namespace Pos

/-- The place of the first byte of a text. -/
def start : Pos := ⟨1, 0⟩

/-- The place reported when there is no token to point at. -/
def nowhere : Pos := ⟨0, 0⟩

/-- The place just after `byte`, when `byte` stands at `p`. -/
def after (p : Pos) (byte : UInt8) : Pos :=
  if byte = '\n'.toUInt8 then ⟨p.line + 1, 0⟩ else ⟨p.line, p.col + 1⟩

/-- The place just after all of `bytes`, when the first of them stands at `p`. -/
def afterAll (p : Pos) (bytes : List UInt8) : Pos := bytes.foldl after p

/-- The written form, `line:col`. -/
def text (p : Pos) : String := toString p.line ++ ":" ++ toString p.col

end Pos

/-- A value together with the place it was found at or is to be blamed on. -/
structure Located (α : Type) where
  val : α
  pos : Pos
deriving DecidableEq, Repr

end WaccArm
