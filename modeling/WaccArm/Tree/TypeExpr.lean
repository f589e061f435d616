namespace WaccArm

/-- A written type. The parser collects all the brackets after an element type in one `array`, so
there its element is no array. A missing side of a pair is the bare word `pair`. -/
inductive TypeExpr where
  | int | bool | char | string
  | array (elem : TypeExpr) (dims : Nat)
  | pair (fst snd : Option TypeExpr)
deriving Repr

end WaccArm
