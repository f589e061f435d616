import WaccArm.Token.Stream
import WaccArm.Tree.TypeExpr

namespace WaccArm.Parser

/-- Counts the pairs of brackets at the front, which stand for the dimensions of an array. -/
def brackets (s : Stream) : Trailing Nat s :=
  match _h : s.tokens with
  | ⟨.symbol .openBracket, _⟩ :: ⟨.symbol .closeBracket, _⟩ :: tokens =>
    let ⟨dims, rest, bound⟩ := brackets { s with tokens }
    ⟨dims + 1, rest, by simp only [_h, List.length_cons] at bound ⊢; omega⟩
  | _ => ⟨0, s, Nat.le_refl _⟩
termination_by s.tokens.length
decreasing_by simp only [_h, List.length_cons]; omega

/-- The array of `elem` with `dims` dimensions, or `elem` itself if there are none. -/
def arrayOf (elem : TypeExpr) (dims : Nat) : TypeExpr :=
  if dims = 0 then elem else .array elem dims

/-- A type named by one word. -/
def baseType? : Token → Option TypeExpr
  | .keyword .int => some .int
  | .keyword .bool => some .bool
  | .keyword .char => some .char
  | .keyword .string => some .string
  | _ => none

mutual

/-- A type: a base type or a pair type, then any number of bracket pairs. -/
def typeExpr (s : Stream) : Parse TypeExpr s := do
  let ⟨t, r, h⟩ ← s.next
  match baseType? t.val with
  | some base =>
    let ⟨dims, r', h'⟩ := brackets r
    return ⟨arrayOf base dims, r', by omega⟩
  | none =>
    if t.val = .keyword .pair then
      let ⟨_, r₁, h₁⟩ ← r.symbol .openParen
      let ⟨fst, r₂, h₂⟩ ← pairSide r₁
      let ⟨_, r₃, h₃⟩ ← r₂.symbol .comma
      let ⟨snd, r₄, h₄⟩ ← pairSide r₃
      let ⟨_, r₅, h₅⟩ ← r₄.symbol .closeParen
      let ⟨dims, r₆, h₆⟩ := brackets r₅
      return ⟨arrayOf (.pair fst snd) dims, r₆, by omega⟩
    else throw ⟨.type t.val, t.pos⟩
termination_by 2 * s.tokens.length

/-- The type of a side of a pair. The word `pair` by itself leaves the sides of the inner pair
open, and they may not be written out. -/
def pairSide (s : Stream) : Parse (Option TypeExpr) s :=
  match s.nextIf? (.keyword .pair) with
  | none => do
    let ⟨type, r, h⟩ ← typeExpr s
    return ⟨some type, r, h⟩
  | some ⟨_, r, h⟩ =>
    if r.peek? = some (.symbol .openParen) then
      throw (r.unexpected (.token (.symbol .comma)))
    else
      let ⟨dims, r', h'⟩ := brackets r
      return ⟨if dims = 0 then none else some (.array (.pair none none) dims), r', by omega⟩
termination_by 2 * s.tokens.length + 1

end

end WaccArm.Parser
