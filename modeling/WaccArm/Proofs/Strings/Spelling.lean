import WaccArm.Proofs.Positions.Tree
import WaccArm.Proofs.Types.Expansion

namespace WaccArm

/-- The written type with `char[]` for `string`. A string inside an array adds its dimension to those of the
array. -/
def TypeExpr.respelled : TypeExpr → TypeExpr
  | .string => .array .char 1
  | .array .string dims => .array .char (dims + 1)
  | .array elem dims => .array elem.respelled dims
  | .pair none none => .pair none none
  | .pair (some fst) none => .pair (some fst.respelled) none
  | .pair none (some snd) => .pair none (some snd.respelled)
  | .pair (some fst) (some snd) => .pair (some fst.respelled) (some snd.respelled)
  | t => t

namespace Ty

/-- Only the string type is a string before it is spelled out. -/
theorem ofExpr_eq_str {t : TypeExpr} : ofExpr t = .str ↔ t = .string := by
  constructor
  · intro h
    cases t with
    | pair fst snd => cases fst <;> cases snd <;> cases h
    | string => rfl
    | _ => cases h
  · rintro rfl
    rfl

/-- Rewriting a written type spells out the type that it stands for. -/
theorem ofExpr_respelled (t : TypeExpr) : ofExpr t.respelled = (ofExpr t).expand := by
  fun_induction TypeExpr.respelled t with
  | case3 elem dims hne ih =>
    rw [ofExpr, ofExpr, ih, expand_array]
    exact fun h => hne (ofExpr_eq_str.1 h)
  | case8 t =>
    cases t with
    | pair fst snd => cases fst <;> cases snd <;> simp_all
    | array elem dims => cases elem <;> simp_all
    | string => simp_all
    | _ => rfl
  | _ => simp_all [ofExpr, expand, expandSide]

theorem ret?_expand (t : Ty) : t.expand.ret? = t.ret?.map expand := by
  unfold expand
  split
  case h_7 hfunction =>
    cases t with
    | function ret params => exact absurd rfl (hfunction ret params)
    | _ => rfl
  all_goals rfl

theorem params?_expand (t : Ty) : t.expand.params? = t.params?.map expandAll := by
  unfold expand
  split
  case h_7 hfunction =>
    cases t with
    | function ret params => exact absurd rfl (hfunction ret params)
    | _ => rfl
  all_goals rfl

/-- Two types of one expression, the second after strings were rewritten to arrays of characters in the
types around it. -/
inductive Respelled : Ty → Ty → Prop
  | refl (t : Ty) : Respelled t t
  | str : Respelled .str (.array (some .char) 1)
  | strings (dims : Nat) : Respelled (.array (some .str) dims) (.array (some .char) (dims + 1))
  | array {elem elem' : Ty} (hne : elem ≠ .str) (h : Respelled elem elem') (dims : Nat) :
    Respelled (.array (some elem) dims) (.array (some elem') dims)
  | pair {fst fst' snd snd' : Option Ty} (hfst : fst.isSome = fst'.isSome) (hsnd : snd.isSome = snd'.isSome)
    (hf : ∀ t t', fst = some t → fst' = some t' → Respelled t t')
    (hs : ∀ t t', snd = some t → snd' = some t' → Respelled t t') :
    Respelled (.pair fst snd) (.pair fst' snd')
  | function {ret ret' : Ty} {params params' : List Ty} (hret : ret.expand = ret'.expand)
    (hparams : expandAll params = expandAll params') :
    Respelled (.function ret params) (.function ret' params')

/-- Two sides of pairs, or what an operation that may fail gives. -/
inductive RespelledSide : Option Ty → Option Ty → Prop
  | unknown : RespelledSide none none
  | known {t t' : Ty} (h : Respelled t t') : RespelledSide (some t) (some t')

theorem RespelledSide.refl (side : Option Ty) : RespelledSide side side := by
  cases side with
  | none => exact .unknown
  | some t => exact .known (.refl t)

theorem RespelledSide.of_isSome {side side' : Option Ty} (hsome : side.isSome = side'.isSome)
    (h : ∀ t t', side = some t → side' = some t' → Respelled t t') : RespelledSide side side' := by
  cases side with
  | none =>
    cases side' with
    | none => exact .unknown
    | some => cases hsome
  | some t =>
    cases side' with
    | none => cases hsome
    | some t' => exact .known (h t t' rfl rfl)

theorem RespelledSide.isSome_eq {side side' : Option Ty} (h : RespelledSide side side') :
    side.isSome = side'.isSome := by
  cases h <;> rfl

theorem RespelledSide.respelled {side side' : Option Ty} (h : RespelledSide side side') (t t' : Ty)
    (ht : side = some t) (ht' : side' = some t') : Respelled t t' := by
  cases h with
  | unknown => cases ht
  | known h =>
    cases ht
    cases ht'
    exact h

theorem Respelled.of_sides {fst fst' snd snd' : Option Ty} (hfst : RespelledSide fst fst')
    (hsnd : RespelledSide snd snd') : Respelled (.pair fst snd) (.pair fst' snd') :=
  .pair hfst.isSome_eq hsnd.isSome_eq hfst.respelled hsnd.respelled

namespace Respelled

variable {t t' : Ty}

/-- Spelling out makes no string. -/
theorem eq_str (h : Respelled t .str) : t = .str := by
  cases h
  rfl

theorem expandSide_eq {side side' : Option Ty} (hsome : side.isSome = side'.isSome)
    (h : ∀ t t', side = some t → side' = some t' → t.expand = t'.expand) :
    expandSide side = expandSide side' := by
  cases side with
  | none =>
    cases side' with
    | none => rfl
    | some => cases hsome
  | some t =>
    cases side' with
    | none => cases hsome
    | some t' => rw [expandSide, expandSide, h t t' rfl rfl]

/-- They spell out to the same type. -/
theorem expand_eq (h : Respelled t t') : t.expand = t'.expand := by
  induction h with
  | refl | str | strings => rfl
  | @array elem elem' hne h dims ih =>
    have hne' : elem' ≠ .str := by
      rintro rfl
      exact hne h.eq_str
    rw [expand_array hne, expand_array hne', ih]
  | pair hfst hsnd hf hs ihf ihs => rw [expand, expand, expandSide_eq hfst ihf, expandSide_eq hsnd ihs]
  | function hret hparams => rw [expand, expand, hret, hparams]

theorem isPair_eq (h : Respelled t t') : t.isPair = t'.isPair := by
  rw [← isPair_expand t, h.expand_eq, isPair_expand]

theorem isArray_eq (h : Respelled t t') : t.isArray = t'.isArray := by
  cases h <;> rfl

theorem arrayOf (h : Respelled t t') : Respelled t.arrayOf t'.arrayOf := by
  cases h with
  | refl => exact .refl _
  | str => exact .strings 1
  | strings dims => exact .strings (dims + 1)
  | array hne h dims => exact .array hne h (dims + 1)
  | pair hfst hsnd hf hs => exact .array (by simp) (.pair hfst hsnd hf hs) 1
  | function hret hparams => exact .array (by simp) (.function hret hparams) 1

theorem erased (h : Respelled t t') : RespelledSide t.erased t'.erased := by
  rw [Ty.erased, Ty.erased, h.isPair_eq]
  split
  · exact .unknown
  · exact .known h

theorem getD {side side' : Option Ty} (h : RespelledSide side side') :
    Respelled (side.getD anyPair) (side'.getD anyPair) := by
  cases h with
  | unknown => exact .refl _
  | known h => exact h

/-- Sides of respelled pairs are respelled. -/
theorem side? (h : Respelled t t') (which : Side) : RespelledSide (t.side? which) (t'.side? which) := by
  cases h with
  | refl => exact .refl _
  | pair hfst hsnd hf hs =>
    cases which with
    | fst => exact .known (getD (.of_isSome hfst hf))
    | snd => exact .known (getD (.of_isSome hsnd hs))
  | _ => exact .unknown

/-- Elements of respelled arrays are respelled. -/
theorem index? (h : Respelled t t') (n : Nat) : RespelledSide (t.index? n) (t'.index? n) := by
  cases h with
  | @array elem elem' hne h dims =>
    have hne' : elem' ≠ .str := by
      rintro rfl
      exact hne h.eq_str
    simp only [Ty.index?, spelled_array hne, spelled_array hne', Option.getD_some]
    split
    · exact .known (.array hne h _)
    · split
      · exact .known h
      · exact .unknown
  | _ => exact .refl _

end Respelled

mutual

/-- A type may be spelled out. -/
theorem respelled_expand : ∀ t : Ty, Respelled t t.expand
  | .int | .bool | .char => .refl _
  | .str => .str
  | .array none _ => .refl _
  | .array (some elem) dims => by
    by_cases h : elem = .str
    · subst h
      exact .strings dims
    · rw [expand_array h]
      exact .array h (respelled_expand elem) dims
  | .pair fst snd => .of_sides (respelledSide_expandSide fst) (respelledSide_expandSide snd)
  | .function ret params => .function (expand_expand ret).symm (expandAll_expandAll params).symm

theorem respelledSide_expandSide : ∀ side : Option Ty, RespelledSide side (expandSide side)
  | none => .unknown
  | some t => .known (respelled_expand t)

end

end Ty

namespace Stmt

variable {α β σ τ ρ : Type} (f : Expr α → Expr β) (g : τ → ρ)

mutual

/-- The statement with each expression and each declared type replaced. -/
def retype : Stmt α σ τ → Stmt β σ ρ
  | skip mark => .skip mark
  | declare mark type name init => .declare mark (g type) name (f init)
  | assign mark dst src => .assign mark (f dst) (f src)
  | read mark target => .read mark (f target)
  | free mark e => .free mark (f e)
  | ret mark e => .ret mark (f e)
  | exit mark e => .exit mark (f e)
  | print mark e newline => .print mark (f e) newline
  | branch mark cond yes no => .branch mark (f cond) (retype yes) (retype no)
  | loop mark cond body => .loop mark (f cond) (retype body)
  | scope mark body => .scope mark (retype body)
  | seq mark items => .seq mark (retypeAll items)

def retypeAll : List (Stmt α σ τ) → List (Stmt β σ ρ)
  | [] => []
  | s :: ss => retype s :: retypeAll ss

end

mutual

theorem terminates_retype (s : Stmt α σ τ) : (s.retype f g).terminates = s.terminates := by
  cases s with
  | skip | declare | assign | read | free | ret | exit | print => rfl
  | branch mark cond yes no =>
    rw [retype, terminates, terminates, terminates_retype yes, terminates_retype no]
  | loop mark cond body => rw [retype, terminates, terminates, terminates_retype body]
  | scope mark body => rw [retype, terminates, terminates, terminates_retype body]
  | seq mark items => rw [retype, terminates, terminates, lastTerminates_retype items]

theorem lastTerminates_retype (ss : List (Stmt α σ τ)) :
    lastTerminates (retypeAll f g ss) = lastTerminates ss := by
  match ss with
  | [] => rfl
  | [s] => exact terminates_retype s
  | s :: s' :: ss => exact lastTerminates_retype (s' :: ss)

end

end Stmt

namespace Source

/-- The parameter with its type rewritten. -/
def Param.respelled (param : Param) : Param := { param with type := param.type.respelled }

/-- The statement with `char[]` for `string` in its declarations. -/
def Stmt.respelled (s : Stmt) : Stmt := s.retype id TypeExpr.respelled

/-- The function with `char[]` for `string` in its header and its body. -/
def Func.respelled (f : Func) : Func :=
  { f with ret := f.ret.respelled, params := f.params.map Param.respelled, body := Stmt.respelled f.body }

/-- The program with every `string` written as `char[]`. -/
def Program.respelled (p : Program) : Program :=
  ⟨p.funcs.map Func.respelled, Stmt.respelled p.body⟩

end Source

namespace Checked

/-- The expression with the types on it spelled out. -/
def Expr.expanded (e : Expr) : Expr := e.map Ty.expand

/-- The statement with all its types spelled out. -/
def Stmt.expanded (s : Stmt) : Stmt := s.retype Expr.expanded Ty.expand

/-- The parameter with its type spelled out. -/
def Param.expanded (param : Param) : Param := { param with type := param.type.expand }

/-- The function with all its types spelled out. -/
def Func.expanded (f : Func) : Func :=
  { f with params := f.params.map Param.expanded, ret := f.ret.expand, body := Stmt.expanded f.body }

/-- The program with all its types spelled out. -/
def Program.expanded (p : Program) : Program := ⟨p.funcs.map Func.expanded, Stmt.expanded p.body⟩

end Checked

end WaccArm
