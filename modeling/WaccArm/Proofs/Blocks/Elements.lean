import WaccArm.Proofs.Scalar.Expr
import WaccArm.Proofs.Types.Expansion
import WaccArm.Proofs.Types.Normal

namespace WaccArm

open Scalar Emission

namespace Ty

/-- The types that variables can be declared with. -/
def Declarable (t : Ty) : Prop := ∃ w ts, Grammar.TypeSpelled w ts ∧ t = ofExpr w

/-- Numbers can be declared. -/
theorem declarable_of_isScalar {t : Ty} (h : isScalar t) : Declarable t := by
  cases t with
  | int => exact ⟨.int, [Grammar.word .int ⟨1, 0⟩], .element (.base .int), rfl⟩
  | bool => exact ⟨.bool, [Grammar.word .bool ⟨1, 0⟩], .element (.base .bool), rfl⟩
  | char => exact ⟨.char, [Grammar.word .char ⟨1, 0⟩], .element (.base .char), rfl⟩
  | str | array | pair | function => cases h

theorem Declarable.normal {t : Ty} (h : Declarable t) : Normal t := by
  obtain ⟨w, ts, hspelled, rfl⟩ := h
  exact normal_of_spelled hspelled

/-- An array that is declared has a dimension, and its elements are known. -/
theorem Declarable.array_dims {elem : Option Ty} {dims : Nat} (h : Declarable (.array elem dims)) :
    ∃ e n, elem = some e ∧ dims = n + 1 := by
  cases h.normal with
  | array _ _ hdims =>
    obtain ⟨n, rfl⟩ := Nat.exists_eq_add_one.2 hdims
    exact ⟨_, n, rfl, rfl⟩

theorem Declarable.not_function {ret : Ty} {params : List Ty} : ¬ Declarable (.function ret params) := by
  intro h
  cases h.normal

/-- The type of a literal has one dimension more than its first element. With a single one, the elements
are of the size of that element, and with more they are references, as that element is. -/
theorem Declarable.expand_arrayOf {first : Ty} (h : Declarable first) :
    ∃ elem dims, first.arrayOf.expand = .array (some elem) dims ∧
      (dims = 1 ∧ elem.size = first.size ∨ 2 ≤ dims ∧ first.size = 4) := by
  cases first with
  | int | bool | char => exact ⟨_, 1, rfl, .inl ⟨rfl, rfl⟩⟩
  | pair fst snd => exact ⟨_, 1, rfl, .inl ⟨rfl, rfl⟩⟩
  | str => exact ⟨.char, 2, rfl, .inr ⟨Nat.le_refl 2, rfl⟩⟩
  | function => exact absurd h not_function
  | array elem dims =>
    obtain ⟨e, n, rfl, rfl⟩ := h.array_dims
    by_cases hstr : e = .str
    · subst hstr
      exact ⟨.char, n + 1 + 1 + 1, rfl, .inr ⟨by omega, rfl⟩⟩
    · exact ⟨e.expand, n + 1 + 1, expand_array hstr _, .inr ⟨by omega, rfl⟩⟩

/-- An element read through a declared type takes as many bytes as the first element of the literal. -/
theorem size_of_index_one {first type : Ty} (hfirst : Declarable first) (htype : Written type)
    (h : first.arrayOf.compatible type) : ∃ elem, type.index? 1 = some elem ∧ elem.size = first.size := by
  obtain ⟨l, n, hliteral, hsize⟩ := hfirst.expand_arrayOf
  rw [compatible, hliteral] at h
  have hindex := type.index?_expand 1
  have hknown := htype.expand
  -- a declared type knows its elements, so both sides have the same dimensions
  generalize type.expand = t at h hindex hknown
  cases hknown with
  | @array r m helem =>
    rw [agree, Bool.and_eq_true, beq_iff_eq] at h
    obtain ⟨rfl, hagree⟩ := h
    have hne : r ≠ .str := by
      rintro rfl
      cases l <;> simp [agree] at hagree
    rw [index?, spelled_array hne] at hindex
    rcases hsize with ⟨rfl, hsize⟩ | ⟨hdims, hsize⟩
    · obtain ⟨elem, helem, heq⟩ := Option.map_eq_some_iff.1 hindex.symm
      refine ⟨elem, helem, ?_⟩
      rw [← size_expand, heq, ← hsize]
      exact (size_eq_of_agree hagree).symm
    · simp only [if_pos (show 1 < n by omega)] at hindex
      obtain ⟨elem, helem, heq⟩ := Option.map_eq_some_iff.1 hindex.symm
      refine ⟨elem, helem, ?_⟩
      rw [← size_expand, heq, hsize]
      rfl
  | int | bool | char | str | pair => cases h

/-- Every array can take the empty literal, and elements can be read from it. -/
theorem index_one_of_emptyArray {type : Ty} (h : emptyArray.compatible type) :
    ∃ elem, type.index? 1 = some elem := by
  have hsome : ∀ elem dims, 1 ≤ dims → type.spelled = .array elem dims →
      ∃ elem, type.index? 1 = some elem := by
    intro elem dims hdims hspelled
    by_cases hlt : 1 < dims
    · exact ⟨_, index?_eq_some.2 ⟨elem, dims, hspelled, .inl ⟨hlt, rfl⟩⟩⟩
    · exact ⟨_, index?_eq_some.2 ⟨elem, dims, hspelled, .inr ⟨by omega, rfl⟩⟩⟩
  rw [compatible, ← expand_spelled type] at h
  cases hspelled : type.spelled with
  | array elem dims =>
    refine hsome elem dims ?_ hspelled
    rw [hspelled] at h
    cases elem with
    | none => simpa [emptyArray, expand, agree] using h
    | some elem =>
      rw [expand_array (ne_str_of_spelled hspelled)] at h
      simpa [emptyArray, expand, agree] using h
  | str => exact absurd hspelled type.spelled_ne_str
  | int | bool | char | pair | function =>
    rw [hspelled] at h
    simp [emptyArray, expand, agree] at h

/-- What a side of a pair type says of a value: its type, or that it is a pair. -/
def SideFits (type : Ty) : Option Ty → Prop
  | some side => type.compatible side
  | none => type.isPair

/-- A side takes the bytes of what was put there, known or not. -/
theorem size_of_sideFits {type : Ty} {side : Option Ty} (h : SideFits type side) :
    (side.getD anyPair).size = type.size := by
  cases side with
  | some side => exact (size_eq_of_compatible h).symm
  | none =>
    cases type with
    | pair => rfl
    | int | bool | char | str | array | function => cases h

end Ty

namespace Checker

/-- The types of the variables that can be seen. -/
def variableTypes (env : Env) : Types := fun name =>
  match env.lookup? name Decl.isVariable with
  | some (.variable type) => some type
  | _ => none

theorem variableTypes_of_ok {env : Env} {name : String} {pos : Pos} {type : Ty}
    (h : variableType env name pos = .ok type) : variableTypes env name = some type := by
  rw [variableType] at h
  rw [variableTypes]
  generalize env.lookup? name Decl.isVariable = found at h ⊢
  split at h
  · cases h
    rfl
  · cases h

/-- Whether an expression has nothing but literals, variables of the types `int`, `bool` and `char`, and
operators on them. -/
def isPlain (types : Types) : Source.Expr → Bool
  | .int .. | .bool .. | .char .. => true
  | .var _ name => (types name).any isScalar
  | .unary _ op e => op != .len && isPlain types e
  | .binary _ _ l r => isPlain types l && isPlain types r
  | _ => false

/-- Whether an expression is a variable or plain. -/
def isElement (types : Types) : Source.Expr → Bool
  | .var .. => true
  | e => isPlain types e

end Checker

namespace Scalar

/-- The part of a literal: an expression over integers, booleans and characters, or a variable. -/
inductive Element (types : Types) : Checked.Expr → Prop
  | scalar {e : Checked.Expr} (h : Typed types e e.note) : Element types e
  | var {name : String} {type : Ty} (h : types name = some type) : Element types (.var type name)

variable {types : Types} {e : Checked.Expr} {type : Ty}

theorem Typed.isScalar (h : Typed types e type) : isScalar type := by
  cases h with
  | var _ hscalar => exact hscalar
  | _ => rfl

/-- What a literal is made of could be declared. -/
theorem Element.declarable (htypes : ∀ name type, types name = some type → type.Declarable)
    (h : Element types e) : e.note.Declarable := by
  cases h with
  | scalar h => exact Ty.declarable_of_isScalar h.isScalar
  | var h => exact htypes _ _ h

/-- Compatible types of numbers are the same. -/
theorem eq_of_compatible {a b : Ty} (ha : isScalar a) (hb : isScalar b) (h : a.compatible b) : a = b := by
  cases a <;> cases ha <;> cases b <;> cases hb <;> simp [Ty.compatible, Ty.expand, Ty.agree] at h ⊢

end Scalar

namespace Checker

variable {env : Env}

/-- What the checker says of an operator is what its evaluation asks for. -/
theorem typed_unary {op : UnaryOp} {e : Source.Expr} {c : Checked.Expr} {types : Types} {type : Ty}
    (hop : op ≠ .len) (hc : Typed types c c.note) (h : unaryType op e c.note = .ok type) :
    Typed types (.unary type op c) type := by
  have hnote {want : Ty} (hwant : isScalar want) (hsame : c.note.compatible want) : Typed types c want :=
    eq_of_compatible hc.isScalar hwant hsame ▸ hc
  cases op with
  | len => exact absurd rfl hop
  | not =>
    obtain ⟨hsame, h⟩ := expect_then.1 h
    cases h
    exact .not (hnote rfl hsame)
  | negate =>
    obtain ⟨hsame, h⟩ := expect_then.1 h
    cases h
    exact .negate (hnote rfl hsame)
  | ord =>
    obtain ⟨hsame, h⟩ := expect_then.1 h
    cases h
    exact .ord (hnote rfl hsame)
  | chr =>
    obtain ⟨hsame, h⟩ := expect_then.1 h
    cases h
    exact .chr (hnote rfl hsame)

/-- What the checker says of two operands is what their evaluation asks for. -/
theorem typed_binary {op : BinaryOp} {l r : Source.Expr} {cl cr : Checked.Expr} {types : Types} {type : Ty}
    (hl : Typed types cl cl.note) (hr : Typed types cr cr.note)
    (h : binaryType op l r cl.note cr.note = .ok type) : Typed types (.binary type op cl cr) type := by
  have hnote {c : Checked.Expr} {want : Ty} (hc : Typed types c c.note) (hwant : isScalar want)
      (hsame : c.note.compatible want) : Typed types c want :=
    eq_of_compatible hc.isScalar hwant hsame ▸ hc
  rw [binaryType] at h
  split at h
  case h_1 hkind =>
    obtain ⟨hsame, h⟩ := expect_then.1 h
    obtain ⟨hsame', h⟩ := expect_then.1 h
    cases h
    exact .arithmetic hkind (hnote hl rfl hsame) (hnote hr rfl hsame')
  case h_2 hkind =>
    obtain ⟨_, htype, h⟩ := except_bind_eq_ok.1 h
    obtain ⟨hsame, h⟩ := expect_then.1 h
    cases h
    exact .ordering hkind (expectIntOrChar_eq_ok.1 htype) hl (hnote hr hl.isScalar hsame)
  case h_3 hkind =>
    obtain ⟨hsame, h⟩ := expect_then.1 h
    cases h
    exact .equality hkind hl (hnote hr hl.isScalar hsame)
  case h_4 hkind =>
    obtain ⟨hsame, h⟩ := expect_then.1 h
    obtain ⟨hsame', h⟩ := expect_then.1 h
    cases h
    exact .logical hkind (hnote hl rfl hsame) (hnote hr rfl hsame')

/-- Plain expressions that are accepted are well typed. -/
theorem typed_of_plain (e : Source.Expr) {c : Checked.Expr} (hok : expr env e = .ok c)
    (hplain : isPlain (variableTypes env) e) : Typed (variableTypes env) c c.note := by
  cases e with
  | int pos value =>
    rw [expr] at hok
    cases hok
    exact .int value
  | bool pos value =>
    rw [expr] at hok
    cases hok
    exact .bool value
  | char pos value =>
    rw [expr] at hok
    cases hok
    exact .char value
  | var pos name =>
    rw [expr] at hok
    obtain ⟨type, htype, hok⟩ := except_bind_eq_ok.1 hok
    cases hok
    have hname := variableTypes_of_ok htype
    rw [isPlain, hname] at hplain
    exact .var hname hplain
  | unary pos op operand =>
    rw [isPlain, Bool.and_eq_true, bne_iff_ne] at hplain
    rw [expr] at hok
    obtain ⟨coperand, hoperand, hok⟩ := except_bind_eq_ok.1 hok
    obtain ⟨type, htype, hok⟩ := except_bind_eq_ok.1 hok
    cases hok
    exact typed_unary hplain.1 (typed_of_plain operand hoperand hplain.2) htype
  | binary pos op left right =>
    rw [isPlain, Bool.and_eq_true] at hplain
    rw [expr] at hok
    obtain ⟨cleft, hleft, hok⟩ := except_bind_eq_ok.1 hok
    obtain ⟨cright, hright, hok⟩ := except_bind_eq_ok.1 hok
    obtain ⟨type, htype, hok⟩ := except_bind_eq_ok.1 hok
    cases hok
    exact typed_binary (typed_of_plain left hleft hplain.1) (typed_of_plain right hright hplain.2) htype
  | str | null | elem | side | call | newPair | array => cases hplain

/-- A part of a literal that passes the check is an element. -/
theorem element_of_expr {e : Source.Expr} {c : Checked.Expr} (hok : expr env e = .ok c)
    (helement : isElement (variableTypes env) e) : Element (variableTypes env) c := by
  cases e with
  | var pos name =>
    rw [expr] at hok
    obtain ⟨type, htype, hok⟩ := except_bind_eq_ok.1 hok
    cases hok
    exact .var (variableTypes_of_ok htype)
  | int | bool | char | unary | binary => exact .scalar (typed_of_plain _ hok helement)
  | str | null | elem | side | call | newPair | array => cases helement

/-- Parts of a literal that pass the check are elements. -/
theorem elements_of_forall₂ {es : List Source.Expr} {cs : List Checked.Expr}
    (h : List.Forall₂ (expr env · = .ok ·) es cs) (hes : ∀ e ∈ es, isElement (variableTypes env) e) :
    ∀ c ∈ cs, Element (variableTypes env) c := by
  induction h with
  | nil => simp
  | cons hok _ ih =>
    obtain ⟨hfirst, hothers⟩ := List.forall_mem_cons.1 hes
    exact List.forall_mem_cons.2 ⟨element_of_expr hok hfirst, ih hothers⟩

/-- An array literal that is accepted: each element is, and the type comes from the first one. -/
theorem array_of_ok {pos : Pos} {elems : List Source.Expr} {type : Ty} {cs : List Checked.Expr}
    (hok : expr env (.array pos elems) = .ok (.array type cs)) :
    List.Forall₂ (expr env · = .ok ·) elems cs ∧
      (cs = [] ∧ type = .emptyArray ∨ ∃ first others, cs = first :: others ∧ type = first.note.arrayOf) := by
  cases elems with
  | nil =>
    rw [expr] at hok
    cases hok
    exact ⟨.nil, .inl ⟨rfl, rfl⟩⟩
  | cons e es =>
    rw [expr] at hok
    obtain ⟨first, hfirst, hok⟩ := except_bind_eq_ok.1 hok
    obtain ⟨others, hothers, hok⟩ := except_bind_eq_ok.1 hok
    cases hok
    exact ⟨.cons hfirst (elementList_eq_ok.1 hothers).1, .inr ⟨first, others, rfl, rfl⟩⟩

end Checker

namespace Scalar

/-- The types of variables, with references taken for the words that they are. -/
def asWords (types : Types) : Types := fun name =>
  (types name).map fun type => if isScalar type then type else .int

variable {types : Types} {e : Checked.Expr} {type : Ty} {ctx : Context}

theorem asWords_of_isScalar {name : String} (h : types name = some type) (hscalar : isScalar type) :
    asWords types name = some type := by
  rw [asWords, h, Option.map_some, if_pos hscalar]

/-- Expressions over numbers use no references. -/
theorem Typed.asWords (h : Typed types e type) : Typed (asWords types) e type := by
  induction h with
  | int value => exact .int value
  | bool value => exact .bool value
  | char value => exact .char value
  | var hname hscalar => exact .var (asWords_of_isScalar hname hscalar) hscalar
  | not _ ih => exact .not ih
  | negate _ ih => exact .negate ih
  | ord _ ih => exact .ord ih
  | chr _ ih => exact .chr ih
  | arithmetic hop _ _ ihl ihr => exact .arithmetic hop ihl ihr
  | ordering hop htype _ _ ihl ihr => exact .ordering hop htype ihl ihr
  | equality hop _ _ ihl ihr => exact .equality hop ihl ihr
  | logical hop _ _ ihl ihr => exact .logical hop ihl ihr

/-- The code of a variable does not depend on its type, so a reference is loaded as a word is. -/
theorem Element.runsWithin (h : Element types e) (hcovers : Covers ctx (Scalar.asWords types)) (d : Depth)
    (em : Emitter) : ExprRunsWithin (Scalar.asWords types) e ctx d em := by
  cases h with
  | scalar h => exact h.asWords.runsWithin hcovers d em
  | @var name type hname =>
    by_cases hscalar : Scalar.isScalar type
    · exact exprRuns_var hcovers (asWords_of_isScalar hname hscalar) hscalar
    · have hword : Scalar.asWords types name = some .int := by
        rw [Scalar.asWords, hname, Option.map_some, if_neg hscalar]
      have hruns : ExprRunsWithin (Scalar.asWords types) (.var .int name) ctx d em :=
        exprRuns_var hcovers hword rfl
      obtain ⟨code, em', hcode, hrest⟩ := hruns
      refine ⟨code, em', ?_, hrest⟩
      -- the type is a note on the tree that the code does not look at
      rw [Emission.expr] at hcode ⊢
      exact hcode

end Scalar

end WaccArm
