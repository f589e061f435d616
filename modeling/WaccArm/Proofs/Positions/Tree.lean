import WaccArm.Checker.Termination

namespace WaccArm

namespace Located

variable {α : Type}

/-- The value at another place. -/
def moved (move : Pos → Pos) (t : Located α) : Located α := ⟨t.val, move t.pos⟩

@[simp] theorem val_moved (move : Pos → Pos) (t : Located α) : (t.moved move).val = t.val := rfl

@[simp] theorem pos_moved (move : Pos → Pos) (t : Located α) : (t.moved move).pos = move t.pos := rfl

end Located

namespace Expr

variable {α β : Type} (f : α → β)

mutual

/-- The expression with each note replaced. -/
def map : Expr α → Expr β
  | int note value => .int (f note) value
  | bool note value => .bool (f note) value
  | char note value => .char (f note) value
  | str note value => .str (f note) value
  | null note => .null (f note)
  | var note name => .var (f note) name
  | elem note name indices => .elem (f note) name (mapAll indices)
  | side note which pair => .side (f note) which (map pair)
  | unary note op operand => .unary (f note) op (map operand)
  | binary note op left right => .binary (f note) op (map left) (map right)
  | call note callee args => .call (f note) callee (mapAll args)
  | newPair note fst snd => .newPair (f note) (map fst) (map snd)
  | array note elems => .array (f note) (mapAll elems)

def mapAll : List (Expr α) → List (Expr β)
  | [] => []
  | e :: es => map e :: mapAll es

end

@[simp] theorem mapAll_eq_map (es : List (Expr α)) : mapAll f es = es.map (map f) := by
  induction es with
  | nil => rfl
  | cons e es ih => rw [mapAll, ih, List.map_cons]

/-- The note of an expression is moved. -/
@[simp] theorem note_map (e : Expr α) : (e.map f).note = f e.note := by
  cases e <;> rfl

@[simp] theorem isBinary_map (e : Expr α) : (e.map f).isBinary = e.isBinary := by
  cases e <;> rfl

mutual

/-- The text of an expression does not depend on its notes. -/
theorem render_map (e : Expr α) : (e.map f).render = e.render := by
  cases e with
  | int | bool | char | str | null | var => rfl
  | elem note name indices => rw [map, render, render, renderAll_map indices]
  | side note which pair => rw [map, render, render, render_map pair]
  | unary note op operand => rw [map, render, render, render_map operand]
  | binary note op left right =>
    rw [map, render, render, render_map left, render_map right, isBinary_map, isBinary_map]
  | call note callee args => rw [map, render, render, renderAll_map args]
  | newPair note fst snd => rw [map, render, render, render_map fst, render_map snd]
  | array note elems => rw [map, render, render, renderAll_map elems]

theorem renderAll_map (es : List (Expr α)) : renderAll (mapAll f es) = renderAll es := by
  cases es with
  | nil => rfl
  | cons e es => rw [mapAll, renderAll, renderAll, render_map e, renderAll_map es]

end

end Expr

namespace Stmt

variable {α β σ ρ τ : Type} (f : α → β) (g : σ → ρ)

mutual

/-- The statement with each note and each mark replaced. -/
def map : Stmt α σ τ → Stmt β ρ τ
  | skip mark => .skip (g mark)
  | declare mark type name init => .declare (g mark) type name (init.map f)
  | assign mark dst src => .assign (g mark) (dst.map f) (src.map f)
  | read mark target => .read (g mark) (target.map f)
  | free mark e => .free (g mark) (e.map f)
  | ret mark e => .ret (g mark) (e.map f)
  | exit mark e => .exit (g mark) (e.map f)
  | print mark e newline => .print (g mark) (e.map f) newline
  | branch mark cond yes no => .branch (g mark) (cond.map f) (map yes) (map no)
  | loop mark cond body => .loop (g mark) (cond.map f) (map body)
  | scope mark body => .scope (g mark) (map body)
  | seq mark items => .seq (g mark) (mapAll items)

def mapAll : List (Stmt α σ τ) → List (Stmt β ρ τ)
  | [] => []
  | s :: ss => map s :: mapAll ss

end

@[simp] theorem mapAll_eq_map (ss : List (Stmt α σ τ)) : mapAll f g ss = ss.map (map f g) := by
  induction ss with
  | nil => rfl
  | cons s ss ih => rw [mapAll, ih, List.map_cons]

@[simp] theorem mark_map (s : Stmt α σ τ) : (s.map f g).mark = g s.mark := by
  cases s <;> rfl

mutual

/-- Whether a statement terminates does not depend on its notes. -/
theorem terminates_map (s : Stmt α σ τ) : (s.map f g).terminates = s.terminates := by
  cases s with
  | skip | declare | assign | read | free | ret | exit | print => rfl
  | branch mark cond yes no => rw [map, terminates, terminates, terminates_map yes, terminates_map no]
  | loop mark cond body => rw [map, terminates, terminates, terminates_map body]
  | scope mark body => rw [map, terminates, terminates, terminates_map body]
  | seq mark items => rw [map, terminates, terminates, lastTerminates_map items]

theorem lastTerminates_map (ss : List (Stmt α σ τ)) :
    lastTerminates (mapAll f g ss) = lastTerminates ss := by
  match ss with
  | [] => rfl
  | [s] => exact terminates_map s
  | s :: s' :: ss => exact lastTerminates_map (s' :: ss)

end

end Stmt

namespace Source

variable (move : Pos → Pos)

/-- The parameter at another place. -/
def Param.moved (param : Param) : Param := { param with pos := move param.pos }

/-- The function with all its places moved. -/
def Func.moved (f : Func) : Func where
  name := f.name
  ret := f.ret
  params := f.params.map (Param.moved move)
  body := f.body.map move move
  pos := move f.pos

/-- The program with all its places moved. -/
def Program.moved (p : Program) : Program := ⟨p.funcs.map (Func.moved move), p.body.map move move⟩

end Source

end WaccArm
