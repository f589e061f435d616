import WaccArm.Proofs.Parser.Program
import WaccArm.Proofs.Rendering.Ambiguity
import WaccArm.Proofs.Types.Normal

namespace WaccArm

open Grammar

namespace Expr

variable {α : Type} {e : Expr α}

def isEmptyArray : Expr α → Bool
  | array _ [] => true
  | _ => false

/-- No empty array literal is right below the expression. -/
def Filled (e : Expr α) : Prop := ∀ child ∈ e.children, child.isEmptyArray = false

/-- The expression and its parts are no empty array literals. -/
def Full (e : Expr α) : Prop := e.isEmptyArray = false ∧ ∀ part ∈ e.parts, part.Filled

/-- Only the expression itself may be an empty literal. -/
theorem filled_parts_iff : (∀ part ∈ e.parts, part.Filled) ↔ ∀ child ∈ e.children, child.Full := by
  rw [parts_eq, List.forall_mem_cons, List.forall_mem_flatMap]
  exact forall₂_and.symm

theorem full_iff : e.Full ↔ e.isEmptyArray = false ∧ ∀ child ∈ e.children, child.Full := by
  rw [Full, filled_parts_iff]

theorem Full.child {operand : Expr α} (h : e.Full) (hchildren : e.children = [operand]) : operand.Full := by
  have hall := (full_iff.1 h).2
  rw [hchildren] at hall
  exact List.forall_mem_singleton.1 hall

theorem Full.both {l r : Expr α} (h : e.Full) (hchildren : e.children = [l, r]) : l.Full ∧ r.Full := by
  have hall := (full_iff.1 h).2
  rw [hchildren, List.forall_mem_cons, List.forall_mem_singleton] at hall
  exact hall

theorem mem_parts (e : Expr α) : e ∈ e.parts := by
  rw [parts_eq]
  exact List.mem_cons_self

theorem mem_partsAll {es : List (Expr α)} (h : e ∈ es) : e ∈ partsAll es := by
  rw [partsAll_eq]
  exact List.mem_flatMap.2 ⟨e, h, e.mem_parts⟩

/-- A type in normal form, or the type of an empty array literal at such a literal. -/
def Formed (e : Expr Ty) : Prop := e.note.Normal ∨ e.isEmptyArray ∧ e.note = .emptyArray

end Expr

namespace Stmt

variable {α σ τ : Type}

mutual

/-- The types of the variables that a statement declares, those of inner blocks too. -/
def types : Stmt α σ τ → List τ
  | declare _ type _ _ => [type]
  | branch _ _ yes no => types yes ++ types no
  | loop _ _ body | scope _ body => types body
  | seq _ items => typesAll items
  | skip _ | assign .. | read .. | free .. | ret .. | exit .. | print .. => []

def typesAll : List (Stmt α σ τ) → List τ
  | [] => []
  | s :: ss => types s ++ typesAll ss

end

end Stmt

namespace Grammar

/-- What a phrase inside an expression is read as has no empty array literals. -/
def ExprTree.Full : ExprTree → Prop
  | .expr _ e | .named e => e.Full
  | .indices es => ∀ e ∈ es, e.Full

/-- No empty literal stands inside an expression. -/
theorem ExprSpelled.full {tree : ExprTree} {ts : Phrase} (h : ExprSpelled tree ts) : tree.Full := by
  induction h with
  | int | plusInt | minusInt | true | false | char | str | null | var =>
    exact Expr.full_iff.2 ⟨rfl, by simp [Expr.children]⟩
  | binary _ _ _ ihl ihr =>
    exact Expr.full_iff.2 ⟨rfl, List.forall_mem_cons.2 ⟨ihl, List.forall_mem_singleton.2 ihr⟩⟩
  | unary _ _ ih => exact Expr.full_iff.2 ⟨rfl, List.forall_mem_singleton.2 ih⟩
  | elem _ ih => exact Expr.full_iff.2 ⟨rfl, ih⟩
  | higher _ _ ih | named _ ih | parens _ ih => exact ih
  | noIndex => simp [ExprTree.Full]
  | index _ _ ihe ihes => exact List.forall_mem_cons.2 ⟨ihe, ihes⟩

theorem PlaceSpelled.full {e : Source.Expr} {ts : Phrase} (h : PlaceSpelled e ts) : e.Full := by
  induction h with
  | named h => exact h.full
  | side _ ih => exact Expr.full_iff.2 ⟨rfl, List.forall_mem_singleton.2 ih⟩

theorem ListSpelled.full {es : List Source.Expr} {ts : Phrase} (h : ListSpelled es ts) : ∀ e ∈ es, e.Full := by
  induction h with
  | one h => exact List.forall_mem_singleton.2 h.full
  | cons h _ ih => exact List.forall_mem_cons.2 ⟨h.full, ih⟩

theorem ArgsSpelled.full {es : List Source.Expr} {ts : Phrase} (h : ArgsSpelled es ts) : ∀ e ∈ es, e.Full := by
  cases h with
  | none => simp
  | some h => exact h.full

/-- Behind an equals sign an empty array literal can stand, but not inside what stands there. -/
theorem RightSpelled.filled {e : Source.Expr} {ts : Phrase} (h : RightSpelled e ts) :
    ∀ part ∈ e.parts, part.Filled := by
  rw [Expr.filled_parts_iff]
  cases h with
  | expr h => exact (Expr.full_iff.1 h.full).2
  | side h => exact List.forall_mem_singleton.2 h.full
  | array h => exact h.full
  | newPair hfst hsnd => exact List.forall_mem_cons.2 ⟨hfst.full, List.forall_mem_singleton.2 hsnd.full⟩
  | call h => exact h.full

/-- The types that are declared have the normal form, and empty array literals are inside no others of the
expressions. -/
structure Tidy (types : List TypeExpr) (exprs : List Source.Expr) : Prop where
  normal : ∀ w ∈ types, (Ty.ofExpr w).Normal
  filled : ∀ e ∈ exprs, e.Filled

theorem tidy_append {types types' : List TypeExpr} {exprs exprs' : List Source.Expr} :
    Tidy (types ++ types') (exprs ++ exprs') ↔ Tidy types exprs ∧ Tidy types' exprs' := by
  constructor
  · rintro ⟨hnormal, hfilled⟩
    rw [List.forall_mem_append] at hnormal hfilled
    exact ⟨⟨hnormal.1, hfilled.1⟩, hnormal.2, hfilled.2⟩
  · rintro ⟨⟨hnormal, hfilled⟩, hnormal', hfilled'⟩
    exact ⟨List.forall_mem_append.2 ⟨hnormal, hnormal'⟩, List.forall_mem_append.2 ⟨hfilled, hfilled'⟩⟩

/-- An expression that declares nothing, beside what follows it. -/
theorem tidy_parts {types : List TypeExpr} {e : Source.Expr} {exprs : List Source.Expr} :
    Tidy types (e.parts ++ exprs) ↔ (∀ part ∈ e.parts, part.Filled) ∧ Tidy types exprs := by
  constructor
  · rintro ⟨hnormal, hfilled⟩
    rw [List.forall_mem_append] at hfilled
    exact ⟨hfilled.1, hnormal, hfilled.2⟩
  · rintro ⟨hparts, hnormal, hfilled⟩
    exact ⟨hnormal, List.forall_mem_append.2 ⟨hparts, hfilled⟩⟩

def StmtTree.Tidy : StmtTree → Prop
  | .statement s | .body s => Grammar.Tidy s.types s.exprs
  | .list ss => Grammar.Tidy (Stmt.typesAll ss) (Stmt.exprsAll ss)

/-- A statement is written tidily. -/
theorem StmtSpelled.tidy {tree : StmtTree} {ts : Phrase} (h : StmtSpelled tree ts) : tree.Tidy := by
  induction h with
  | skip => exact ⟨by simp [Stmt.types], by simp [Stmt.exprs]⟩
  | declare htype _ hinit =>
    exact ⟨List.forall_mem_singleton.2 (Ty.normal_of_spelled htype), hinit.filled⟩
  | assign hdst _ hsrc => exact tidy_parts.2 ⟨hdst.full.2, by simp [Stmt.types], hsrc.filled⟩
  | read h => exact ⟨by simp [Stmt.types], h.full.2⟩
  | free h | ret h | exit h | print h | println h => exact ⟨by simp [Stmt.types], h.full.2⟩
  | branch hcond _ _ ihy ihn => exact tidy_parts.2 ⟨hcond.full.2, tidy_append.2 ⟨ihy, ihn⟩⟩
  | loop hcond _ ih => exact tidy_parts.2 ⟨hcond.full.2, ih⟩
  | scope _ ih => exact ih
  | one _ ih => exact tidy_append.2 ⟨ih, by simp [Stmt.typesAll], by simp [Stmt.exprsAll]⟩
  | cons _ _ ih iho => exact tidy_append.2 ⟨ih, iho⟩
  | single _ ih => simpa [StmtTree.Tidy, Stmt.typesAll, Stmt.exprsAll] using ih
  | several _ ih => exact ih

end Grammar

namespace Typing

variable {Φ : List Header} {Γ Γ' : Scopes}

/-- All variables that can be seen have types in normal form. -/
def Scopes.Normal (Γ : Scopes) : Prop := ∀ vars ∈ Γ, ∀ var ∈ vars, var.2.Normal

theorem Scopes.Normal.find? (h : Γ.Normal) {name : String} {type : Ty} (hname : Γ.find? name = some type) :
    type.Normal := by
  obtain ⟨vars, hvars, hlookup⟩ := List.exists_of_findSome?_eq_some hname
  obtain ⟨before, after, rfl, -⟩ := List.lookup_eq_some_iff.1 hlookup
  exact h _ hvars (name, type) (by simp)

theorem Scopes.Normal.enter (h : Γ.Normal) : Scopes.Normal ([] :: Γ) :=
  List.forall_mem_cons.2 ⟨by simp, h⟩

/-- The types of a function have the normal form. -/
structure Header.Normal (f : Header) : Prop where
  ret : f.ret.Normal
  params : ∀ t ∈ f.params, t.Normal

theorem Chosen.mem {name : String} {types : List Ty} {f : Header} (h : Chosen Φ name types f) : f ∈ Φ := by
  obtain ⟨before, after, rfl, -⟩ := h
  exact List.mem_append_right before List.mem_cons_self

/-- If no empty array literal is in the expressions, all their types have the normal form. -/
def Phrase.Normal : Phrase → Prop
  | .expr e c => e.Full → ∀ part ∈ c.parts, part.note.Normal
  | .exprs es cs => (∀ e ∈ es, e.Full) → ∀ part ∈ Expr.partsAll cs, part.note.Normal

/-- An expression without empty literals has a normal type. -/
theorem ExprTyped.normal (hΦ : ∀ f ∈ Φ, f.Normal) (hΓ : Γ.Normal) {phrase : Phrase}
    (h : ExprTyped Φ Γ phrase) : phrase.Normal := by
  induction h with
  | int => exact fun _ => List.forall_mem_singleton.2 .int
  | bool => exact fun _ => List.forall_mem_singleton.2 .bool
  | char => exact fun _ => List.forall_mem_singleton.2 .char
  | str => exact fun _ => List.forall_mem_singleton.2 .str
  | null => exact fun _ => List.forall_mem_singleton.2 .anyPair
  | var _ hname => exact fun _ => List.forall_mem_singleton.2 (hΓ.find? hname)
  -- Only variables are indexed, and their types were declared.
  | slice _ hname _ _ harray hlt ih =>
    intro hfull
    have hindex := Ty.index?_eq_some.2 ⟨_, _, harray, .inl ⟨hlt, rfl⟩⟩
    exact List.forall_mem_cons.2 ⟨(hΓ.find? hname).index? hindex, ih (Expr.full_iff.1 hfull).2⟩
  | elem _ hname _ _ harray ih | unknownElem _ hname _ _ harray ih =>
    intro hfull
    have hindex := Ty.index?_eq_some.2 ⟨_, _, harray, .inr ⟨rfl, rfl⟩⟩
    exact List.forall_mem_cons.2 ⟨(hΓ.find? hname).index? hindex, ih (Expr.full_iff.1 hfull).2⟩
  | @fst _ _ c _ _ _ htype ih =>
    intro hfull
    have hparts := ih (hfull.child rfl)
    have hside : c.note.side? .fst = some _ := Ty.side?_eq_some.2 ⟨_, _, htype, rfl⟩
    exact List.forall_mem_cons.2 ⟨(hparts c c.mem_parts).side? hside, hparts⟩
  | @snd _ _ c _ _ _ htype ih =>
    intro hfull
    have hparts := ih (hfull.child rfl)
    have hside : c.note.side? .snd = some _ := Ty.side?_eq_some.2 ⟨_, _, htype, rfl⟩
    exact List.forall_mem_cons.2 ⟨(hparts c c.mem_parts).side? hside, hparts⟩
  | not _ _ _ ih => exact fun hfull => List.forall_mem_cons.2 ⟨.bool, ih (hfull.child rfl)⟩
  | negate _ _ _ ih | len _ _ _ ih | ord _ _ _ ih =>
    exact fun hfull => List.forall_mem_cons.2 ⟨.int, ih (hfull.child rfl)⟩
  | chr _ _ _ ih => exact fun hfull => List.forall_mem_cons.2 ⟨.char, ih (hfull.child rfl)⟩
  | arithmetic _ _ _ _ _ _ ihl ihr =>
    intro hfull
    obtain ⟨hl, hr⟩ := hfull.both rfl
    exact List.forall_mem_cons.2 ⟨.int, List.forall_mem_append.2 ⟨ihl hl, ihr hr⟩⟩
  | ordering _ _ _ _ _ _ ihl ihr | equality _ _ _ _ _ ihl ihr | logical _ _ _ _ _ _ ihl ihr =>
    intro hfull
    obtain ⟨hl, hr⟩ := hfull.both rfl
    exact List.forall_mem_cons.2 ⟨.bool, List.forall_mem_append.2 ⟨ihl hl, ihr hr⟩⟩
  | call _ _ hchosen ih =>
    intro hfull
    exact List.forall_mem_cons.2 ⟨(hΦ _ (Chosen.mem hchosen)).ret, ih (Expr.full_iff.1 hfull).2⟩
  -- The types that new pairs and literals are made of are those of their parts, which are no empty literals.
  | @newPair _ _ _ cf cs _ _ ihf ihs =>
    intro hfull
    obtain ⟨hf, hs⟩ := hfull.both rfl
    have hfst := ihf hf
    have hsnd := ihs hs
    refine List.forall_mem_cons.2 ⟨?_, ?_⟩
    · exact (hfst cf cf.mem_parts).newPair (hsnd cs cs.mem_parts)
    · exact List.forall_mem_append.2 ⟨hfst, hsnd⟩
  | emptyArray =>
    intro hfull
    cases hfull.1
  | @array _ _ _ c _ _ _ _ ihf iho =>
    intro hfull
    obtain ⟨hf, ho⟩ := List.forall_mem_cons.1 (Expr.full_iff.1 hfull).2
    have hfirst := ihf hf
    refine List.forall_mem_cons.2 ⟨?_, ?_⟩
    · exact (hfirst c c.mem_parts).arrayOf
    · exact List.forall_mem_append.2 ⟨hfirst, iho ho⟩
  | nil => simp [Phrase.Normal, Expr.partsAll]
  | cons _ _ ihe ihes =>
    intro hfull
    obtain ⟨he, hes⟩ := List.forall_mem_cons.1 hfull
    exact List.forall_mem_append.2 ⟨ihe he, ihes hes⟩

/-- The type of an expression that stands for itself: an empty literal has its own, and no other expression
has a part of that type. -/
theorem ExprTyped.formed (hΦ : ∀ f ∈ Φ, f.Normal) (hΓ : Γ.Normal) {e : Source.Expr} {c : Checked.Expr}
    (h : ExprTyped Φ Γ (.expr e c)) (hfilled : ∀ part ∈ e.parts, part.Filled) :
    ∀ part ∈ c.parts, part.Formed := by
  by_cases hempty : e.isEmptyArray
  · cases h with
    | emptyArray => exact List.forall_mem_singleton.2 (.inr ⟨rfl, rfl⟩)
    | _ => cases hempty
  · have hfull : e.Full := ⟨by simpa using hempty, hfilled⟩
    exact fun part hpart => .inl (h.normal hΦ hΓ hfull part hpart)

/-- The types that are declared stay as they are written. -/
theorem StmtTyped.types_eq {ret : Option Ty} {s : Source.Stmt} {c : Checked.Stmt}
    (h : StmtTyped Φ ret Γ s c Γ') : c.types = s.types.map Ty.ofExpr := by
  induction h with
  | skip | assign | read | freePair | freeArray | ret | exit | print | seqNil | declare => rfl
  | branch _ _ _ _ _ ihy ihn => rw [Stmt.types, Stmt.types, ihy, ihn, List.map_append]
  | loop _ _ _ _ ih | scope _ _ ih => exact ih
  | seqCons _ _ _ ihf iho =>
    rw [Stmt.types, Stmt.typesAll, Stmt.types, Stmt.typesAll, List.map_append, ihf]
    exact congrArg _ iho

/-- The expressions of a statement have types of their form. -/
theorem StmtTyped.formed (hΦ : ∀ f ∈ Φ, f.Normal) {ret : Option Ty} {s : Source.Stmt} {c : Checked.Stmt}
    (h : StmtTyped Φ ret Γ s c Γ') (hΓ : Γ.Normal) (htidy : Tidy s.types s.exprs) :
    Γ'.Normal ∧ ∀ e ∈ c.exprs, e.Formed := by
  induction h with
  | skip | seqNil => exact ⟨hΓ, by simp [Stmt.exprs, Stmt.exprsAll]⟩
  | @declare _ _ _ written _ _ _ hinit =>
    obtain ⟨hnormal, hfilled⟩ := htidy
    have hwritten := hnormal written List.mem_cons_self
    obtain ⟨hscope, houter⟩ := List.forall_mem_cons.1 hΓ
    refine ⟨?_, hinit.formed hΦ hΓ hfilled⟩
    exact List.forall_mem_cons.2 ⟨List.forall_mem_cons.2 ⟨hwritten, hscope⟩, houter⟩
  | assign _ hdst hsrc =>
    obtain ⟨hd, -, hs⟩ := tidy_parts.1 htidy
    exact ⟨hΓ, List.forall_mem_append.2 ⟨hdst.formed hΦ hΓ hd, hsrc.formed hΦ hΓ hs⟩⟩
  | read _ he | freePair _ he | freeArray _ he | ret _ _ he | exit _ he | print _ he =>
    exact ⟨hΓ, he.formed hΦ hΓ htidy.filled⟩
  | branch _ hcond _ _ _ ihy ihn =>
    obtain ⟨hc, hbranches⟩ := tidy_parts.1 htidy
    obtain ⟨hy, hn⟩ := tidy_append.1 hbranches
    obtain ⟨-, hyes⟩ := ihy hΓ.enter hy
    obtain ⟨-, hno⟩ := ihn hΓ.enter hn
    exact ⟨hΓ, List.forall_mem_append.2 ⟨hcond.formed hΦ hΓ hc, List.forall_mem_append.2 ⟨hyes, hno⟩⟩⟩
  | loop _ hcond _ _ ih =>
    obtain ⟨hc, hb⟩ := tidy_parts.1 htidy
    obtain ⟨-, hbody⟩ := ih hΓ.enter hb
    exact ⟨hΓ, List.forall_mem_append.2 ⟨hcond.formed hΦ hΓ hc, hbody⟩⟩
  | scope _ _ ih =>
    obtain ⟨-, hbody⟩ := ih hΓ.enter htidy
    exact ⟨hΓ, hbody⟩
  | seqCons _ _ _ ihf iho =>
    obtain ⟨hf, ho⟩ := tidy_append.1 htidy
    obtain ⟨hΓ₁, hfirst⟩ := ihf hΓ hf
    obtain ⟨hΓ₂, hothers⟩ := iho hΓ₁ ho
    exact ⟨hΓ₂, List.forall_mem_append.2 ⟨hfirst, hothers⟩⟩

/-- Each function of a checked program is one of the program with its types. -/
theorem ProgramTyped.func_of_mem {p : Source.Program} {c : Checked.Program} (h : ProgramTyped p c)
    {cf : Checked.Func} (hcf : cf ∈ c.funcs) : ∃ f ∈ p.funcs, ∃ label, FuncTyped (headers p) f label cf := by
  obtain ⟨hlength, htyped⟩ := List.forall₂_iff_get.1 h.funcs
  obtain ⟨i, hi, rfl⟩ := List.getElem_of_mem hcf
  have hi' : i < (p.funcs.zip (Checker.labels p.funcs)).length := by omega
  have hmem := List.getElem_mem hi'
  exact ⟨_, (List.of_mem_zip hmem).1, _, htyped i hi' hi⟩

end Typing

namespace Source

/-- The types that a function declares: its result, its parameters and its variables. -/
def Func.types (f : Func) : List TypeExpr := f.ret :: (f.params.map Param.type ++ f.body.types)

end Source

namespace Checked

def Func.types (f : Func) : List Ty := f.ret :: (f.params.map Param.type ++ f.body.types)

/-- The types that a program declares. -/
def Program.types (c : Program) : List Ty := c.funcs.flatMap Func.types ++ c.body.types

end Checked

namespace Grammar

theorem ParamsSpelled.normal {params : List Source.Param} {ts : Phrase} (h : ParamsSpelled params ts) :
    ∀ w ∈ params.map Source.Param.type, (Ty.ofExpr w).Normal := by
  have hparam : ∀ {param : Source.Param} {ts : Phrase}, ParamSpelled param ts → (Ty.ofExpr param.type).Normal := by
    rintro _ _ ⟨htype, -⟩
    exact Ty.normal_of_spelled htype
  induction h with
  | none => simp
  | one h => exact List.forall_mem_singleton.2 (hparam h)
  | cons h _ ih => exact List.forall_mem_cons.2 ⟨hparam h, ih⟩

/-- A function is written tidily. -/
theorem FuncSpelled.tidy {f : Source.Func} {ts : Phrase} (h : FuncSpelled f ts) : Tidy f.types f.body.exprs := by
  cases h with
  | mk hret _ hparams hbody =>
    obtain ⟨hnormal, hfilled⟩ := hbody.tidy
    refine ⟨?_, hfilled⟩
    exact List.forall_mem_cons.2
      ⟨Ty.normal_of_spelled hret, List.forall_mem_append.2 ⟨hparams.normal, hnormal⟩⟩

theorem FuncsSpelled.tidy {fs : List Source.Func} {ts : Phrase} (h : FuncsSpelled fs ts) :
    ∀ f ∈ fs, Tidy f.types f.body.exprs := by
  induction h with
  | nil => simp
  | cons h _ ih => exact List.forall_mem_cons.2 ⟨h.tidy, ih⟩

end Grammar

/-- In a program that was parsed, what is written is tidy. -/
theorem tidy_of_parse {tokens : List (Located Token)} {p : Source.Program} (h : parse tokens = .ok p) :
    (∀ f ∈ p.funcs, Tidy f.types f.body.exprs) ∧ Tidy p.body.types p.body.exprs := by
  cases spelled_of_parse h with
  | mk hfuncs hbody => exact ⟨hfuncs.tidy, hbody.tidy⟩

namespace Typing

/-- What a function declares apart from its body, and what its body declares. -/
theorem tidy_func {f : Source.Func} (h : Tidy f.types f.body.exprs) :
    (Ty.ofExpr f.ret).Normal ∧ (∀ param ∈ typedParams f, param.type.Normal) ∧
      Tidy f.body.types f.body.exprs := by
  obtain ⟨hnormal, hfilled⟩ := h
  obtain ⟨hret, hnormal⟩ := List.forall_mem_cons.1 hnormal
  obtain ⟨hparams, hvars⟩ := List.forall_mem_append.1 hnormal
  rw [List.forall_mem_map] at hparams
  exact ⟨hret, List.forall_mem_map.2 hparams, hvars, hfilled⟩

theorem Scopes.normal_params {params : List Checked.Param} (h : ∀ param ∈ params, param.type.Normal) :
    Scopes.Normal [paramVars params] := by
  rw [Scopes.Normal, List.forall_mem_singleton]
  intro var hvar
  obtain ⟨param, hparam, rfl⟩ := List.mem_map.1 (List.mem_reverse.1 hvar)
  exact h param hparam

/-- Headers have types in normal form. -/
theorem headers_normal {p : Source.Program} (h : ∀ f ∈ p.funcs, Tidy f.types f.body.exprs) :
    ∀ f ∈ headers p, f.Normal := by
  rw [headers, List.forall_mem_map]
  intro f hf
  obtain ⟨hret, hparams, -⟩ := tidy_func (h f.1 (List.of_mem_zip hf).1)
  refine ⟨hret, ?_⟩
  rw [typedParams, List.forall_mem_map] at hparams
  exact List.forall_mem_map.2 hparams

/-- A function of a program that was parsed. -/
theorem FuncTyped.formed {Φ : List Header} (hΦ : ∀ f ∈ Φ, f.Normal) {f : Source.Func} {label : String}
    {cf : Checked.Func} (h : FuncTyped Φ f label cf) (htidy : Tidy f.types f.body.exprs) :
    (∀ t ∈ cf.types, t.Normal) ∧ ∀ e ∈ cf.body.exprs, e.Formed := by
  obtain ⟨hret, hparams, htidy⟩ := tidy_func htidy
  cases h with
  | mk _ hbody =>
    obtain ⟨-, hexprs⟩ := hbody.formed hΦ (Scopes.normal_params hparams) htidy
    refine ⟨List.forall_mem_cons.2 ⟨hret, List.forall_mem_append.2 ⟨List.forall_mem_map.2 hparams, ?_⟩⟩, hexprs⟩
    rw [hbody.types_eq]
    exact List.forall_mem_map.2 htidy.normal

end Typing

/-- All types of a program that was parsed and checked have the normal form, but for the type of empty array
literals where these stand. Among such types it does not matter which of two is compared with the other, and
those that are compatible take the same number of bytes. -/
theorem checked_types_normal {tokens : List (Located Token)} {p : Source.Program} {c : Checked.Program}
    (hparse : parse tokens = .ok p) (hcheck : Checker.program p = .ok c) :
    (∀ t ∈ c.types, t.Normal) ∧ (∀ e, Typing.Occurs c e → e.Formed) ∧
    ∀ a b : Ty, a.Formed → b.Formed →
      a.compatible b = b.compatible a ∧ (a.compatible b → a.size = b.size) := by
  have htyped := Typing.program_eq_ok.1 hcheck
  obtain ⟨hfuncs, hbody⟩ := tidy_of_parse hparse
  have hheaders := Typing.headers_normal hfuncs
  -- the results of all functions are known before any body is looked at, as calls may go forward
  have hfunc : ∀ cf ∈ c.funcs, (∀ t ∈ cf.types, t.Normal) ∧ ∀ e ∈ cf.body.exprs, e.Formed := by
    intro cf hcf
    obtain ⟨f, hf, label, hfunc⟩ := htyped.func_of_mem hcf
    exact hfunc.formed hheaders (hfuncs f hf)
  obtain ⟨Γ, hmain⟩ := htyped.body
  obtain ⟨-, hexprs⟩ := hmain.formed hheaders (by simp [Typing.Scopes.Normal]) hbody
  refine ⟨?_, ?_, fun a b ha hb => ⟨ha.compatible_comm hb, Ty.size_eq_of_compatible⟩⟩
  · rw [Checked.Program.types, List.forall_mem_append]
    constructor
    · exact List.forall_mem_flatMap.2 fun cf hcf => (hfunc cf hcf).1
    · rw [hmain.types_eq]
      exact List.forall_mem_map.2 hbody.normal
  · rintro e (he | ⟨cf, hcf, he⟩)
    · exact hexprs e he
    · exact (hfunc cf hcf).2 e he

namespace Forgetting

/-- `int[] a = []` -/
def arrayTokens : Phrase :=
  [word .int ⟨1, 7⟩, mark .openBracket ⟨1, 10⟩, mark .closeBracket ⟨1, 11⟩, ident "a" ⟨1, 13⟩, mark .assign ⟨1, 15⟩,
    mark .openBracket ⟨1, 17⟩, mark .closeBracket ⟨1, 18⟩]

def array : Source.Stmt := .declare ⟨1, 7⟩ (.array .int 1) "a" (.array ⟨1, 17⟩ [])

/-- `pair(int, pair) p = newpair(1, null)` -/
def innerTokens : Phrase :=
  [word .pair ⟨2, 1⟩, mark .openParen ⟨2, 5⟩, word .int ⟨2, 6⟩, mark .comma ⟨2, 9⟩, word .pair ⟨2, 11⟩,
    mark .closeParen ⟨2, 15⟩, ident "p" ⟨2, 17⟩, mark .assign ⟨2, 19⟩, word .newpair ⟨2, 21⟩,
    mark .openParen ⟨2, 28⟩, ⟨.int 1, ⟨2, 29⟩⟩, mark .comma ⟨2, 30⟩, word .null ⟨2, 32⟩, mark .closeParen ⟨2, 36⟩]

def inner : Source.Stmt :=
  .declare ⟨2, 1⟩ (.pair (some .int) none) "p" (.newPair ⟨2, 21⟩ (.int ⟨2, 29⟩ 1) (.null ⟨2, 32⟩))

/-- `pair(pair, int[]) q = newpair(p, a)` -/
def outerTokens : Phrase :=
  [word .pair ⟨3, 1⟩, mark .openParen ⟨3, 5⟩, word .pair ⟨3, 6⟩, mark .comma ⟨3, 10⟩, word .int ⟨3, 12⟩,
    mark .openBracket ⟨3, 15⟩, mark .closeBracket ⟨3, 16⟩, mark .closeParen ⟨3, 17⟩, ident "q" ⟨3, 19⟩,
    mark .assign ⟨3, 21⟩, word .newpair ⟨3, 23⟩, mark .openParen ⟨3, 30⟩, ident "p" ⟨3, 31⟩, mark .comma ⟨3, 32⟩,
    ident "a" ⟨3, 34⟩, mark .closeParen ⟨3, 35⟩]

def outer : Source.Stmt :=
  .declare ⟨3, 1⟩ (.pair none (some (.array .int 1))) "q"
    (.newPair ⟨3, 23⟩ (.var ⟨3, 31⟩ "p") (.var ⟨3, 34⟩ "a"))

def tokens : Phrase :=
  [word .begin ⟨1, 1⟩] ++ arrayTokens ++ [mark .semicolon ⟨1, 19⟩] ++ innerTokens ++
    [mark .semicolon ⟨2, 37⟩] ++ outerTokens ++ [word .end_ ⟨3, 37⟩]

def program : Source.Program where
  funcs := []
  body := .seq ⟨1, 7⟩ [array, inner, outer]

theorem array_spelled : StmtSpelled (.statement array) arrayTokens := by
  have hempty := RightSpelled.array (p := ⟨1, 17⟩) (q := ⟨1, 18⟩) .none
  exact .declare (.array (.base .int) (.succ .zero)) rfl hempty

theorem inner_spelled : StmtSpelled (.statement inner) innerTokens := by
  have hone : ExprSpelled (.expr operandLevel (.int ⟨2, 29⟩ 1)) [⟨.int 1, ⟨2, 29⟩⟩] := .int rfl
  have hnull : ExprSpelled (.expr operandLevel (.null ⟨2, 32⟩)) [word .null ⟨2, 32⟩] := .null
  have htype : TypeSpelled (.pair (some .int) none) (innerTokens.take 6) := .element (.pair (.base .int) .pair)
  exact .declare htype rfl (.newPair (hone.lower (Nat.zero_le _)) (hnull.lower (Nat.zero_le _)))

theorem outer_spelled : StmtSpelled (.statement outer) outerTokens := by
  have hfst : ExprSpelled (.expr operandLevel (.var ⟨3, 31⟩ "p")) [ident "p" ⟨3, 31⟩] := .named .var
  have hsnd : ExprSpelled (.expr operandLevel (.var ⟨3, 34⟩ "a")) [ident "a" ⟨3, 34⟩] := .named .var
  have htype : TypeSpelled (.pair none (some (.array .int 1))) (outerTokens.take 8) :=
    .element (.pair .pair (.baseArray .int (.succ .zero)))
  exact .declare htype rfl (.newPair (hfst.lower (Nat.zero_le _)) (hsnd.lower (Nat.zero_le _)))

/-- The tokens are those of the program. -/
theorem parse_tokens : parse tokens = .ok program :=
  parse_of_spelled (.mk .nil (.several (.cons array_spelled (.cons inner_spelled (.one outer_spelled)))))

/-- The pair `q` knows that `p` is a pair, but not of what. -/
def checked : Checked.Program where
  funcs := []
  body := .seq () [
    .declare () (.array (some .int) 1) "a" (.array .emptyArray []),
    .declare () (.pair (some .int) none) "p" (.newPair (.pair (some .int) none) (.int .int 1) (.null .anyPair)),
    .declare () (.pair none (some (.array (some .int) 1))) "q"
      (.newPair (.pair none (some (.array (some .int) 1))) (.var (.pair (some .int) none) "p")
        (.var (.array (some .int) 1) "a"))]

end Forgetting

theorem forgotten_pair_types_normal : parse Forgetting.tokens = .ok Forgetting.program ∧
    Checker.program Forgetting.program = .ok Forgetting.checked ∧
    (∀ t ∈ Forgetting.checked.types, t.Normal) ∧ ∀ e, Typing.Occurs Forgetting.checked e → e.Formed := by
  have hcheck : Checker.program Forgetting.program = .ok Forgetting.checked := rfl
  obtain ⟨htypes, hexprs, -⟩ := checked_types_normal Forgetting.parse_tokens hcheck
  exact ⟨Forgetting.parse_tokens, hcheck, htypes, hexprs⟩

end WaccArm
