import WaccArm.Proofs.References.Operations
import WaccArm.Proofs.Types.Program

namespace WaccArm

namespace Ty

theorem forall₂_of_compatibleAll {as bs : List Ty} (h : compatibleAll as bs) :
    List.Forall₂ (fun a b => a.compatible b) as bs := by
  induction as generalizing bs with
  | nil =>
    cases bs with
    | nil => exact .nil
    | cons => cases h
  | cons a as ih =>
    cases bs with
    | nil => cases h
    | cons b bs =>
      rw [compatibleAll, expandAll, expandAll, agreeAll, Bool.and_eq_true] at h
      exact .cons h.1 (ih h.2)

theorem spelled_succ {elem e : Option Ty} {dims d : Nat} (h : spelled (.array elem dims) = .array e d) :
    spelled (.array elem (dims + 1)) = .array e (d + 1) := by
  cases elem with
  | none =>
    cases h
    rfl
  | some elem =>
    by_cases hstr : elem = .str
    · subst hstr
      cases h
      rfl
    · rw [spelled_array hstr] at h ⊢
      cases h
      rfl

/-- The elements of an array literal have the type of the first one. -/
theorem Normal.index?_arrayOf {t : Ty} (h : t.Normal) :
    ∃ known, t.arrayOf.index? 1 = some known ∧ known.expand = t.expand := by
  cases t with
  | array elem dims =>
    obtain ⟨e, d, hspelled, hdims, -⟩ := h.exists_spelled rfl
    refine ⟨.array (some e) d, index?_eq_some.2 ⟨_, d + 1, spelled_succ hspelled, .inl ⟨by omega, rfl⟩⟩, ?_⟩
    rw [← hspelled, expand_spelled]
  | int | bool | char | str | pair | function => exact ⟨_, rfl, rfl⟩

/-- Indexing a type in normal form follows its dimensions. -/
theorem Normal.reaches {t type : Ty} (h : t.Normal) {n : Nat} (hindex : t.index? n = some type) :
    t.Reaches n type := by
  cases n with
  | succ => exact reaches_of_index? hindex
  | zero =>
    obtain ⟨e, d, hspelled, hdims, -⟩ := h.exists_spelled (isArray_of_index? hindex)
    obtain ⟨_, _, hspelled', ⟨-, rfl⟩ | ⟨rfl, -⟩⟩ := index?_eq_some.1 hindex
    · rw [Reaches, Nat.sub_zero, ← hspelled', expand_spelled]
    · cases hspelled.symm.trans hspelled'
      exact absurd hdims (Nat.lt_irrefl 0)

/-- Pairs may be forgotten, and nothing else changes when a value is put into a pair. -/
theorem Normal.passes_erased {t : Ty} (h : t.Normal) : t.Passes (t.erased.getD .anyPair) := by
  have hfst : (Ty.pair t.erased t.erased).side? .fst = some (t.erased.getD .anyPair) := rfl
  refine ⟨.inl h, (h.newPair h).side? hfst, ?_⟩
  rw [erased]
  split
  · rename_i hpair
    cases t with
    | pair fst snd => cases fst <;> cases snd <;> rfl
    | _ => cases hpair
  · exact agree_expand_self t

end Ty

namespace Typing

theorem ExprTyped.length_eq {Φ : List Header} {Γ : Scopes} {es : List Source.Expr}
    {cs : List Checked.Expr} (h : ExprTyped Φ Γ (.exprs es cs)) : es.length = cs.length := by
  induction cs generalizing es with
  | nil =>
    cases h
    rfl
  | cons c cs ih =>
    cases h with
    | cons _ hes => exact congrArg (· + 1) (ih hes)

/-- Arguments may go where the function that was chosen for them has its parameters. -/
theorem Chosen.passes {Φ : List Header} (hΦ : ∀ f ∈ Φ, f.Normal) {name : String} {f : Header}
    {cs : List Checked.Expr} (h : Chosen Φ name (cs.map Expr.note) f) (hcs : ∀ c ∈ cs, c.note.Normal) :
    List.Forall₂ (fun c type => c.note.Passes type) cs f.params := by
  have hf := h.mem
  obtain ⟨_, _, -, ⟨-, hparams⟩, -⟩ := h
  have hcompatible := List.forall₂_map_right_iff.1 (Ty.forall₂_of_compatibleAll hparams)
  have hnormal := (List.forall₂_and_left _ _).2 ⟨(hΦ f hf).params, hcompatible⟩
  refine List.Forall₂.imp ?_ ((List.forall₂_and_left _ _).2 ⟨hcs, hnormal.flip⟩)
  rintro c type ⟨hc, htype, hsame⟩
  refine ⟨.inl hc, htype, ?_⟩
  rw [Ty.Formed.compatible_comm (.inl hc) (.inl htype)]
  exact hsame

end Typing

namespace References

open Typing

/-- The arguments may go to parameters of these types. -/
def ArgsOk (s : Store) (args : List (Ty × Value)) (types : List Ty) : Prop :=
  List.Forall₂ (fun x type => x.1.Passes type ∧ Conforms s x.2 x.1) args types

theorem stable_args (args : List (Ty × Value)) (types : List Ty) : Stable fun s => ArgsOk s args types :=
  fun _ _ hlater h => List.Forall₂.imp (fun _ _ hx => ⟨hx.1, hx.2.mono hlater⟩) h

/-- Calls are safe for arguments that may go to the parameters. -/
def Serves (Φ : List Header) (call : Callees) : Prop :=
  ∀ f ∈ Φ, ∀ ⦃ret : Option Ty⦄ ⦃s : Store⦄ ⦃args : List (Ty × Value)⦄,
    Given s (fun s => ArgsOk s args f.params) →
    Safe ret (call f.label args) s fun v s => Conforms s v f.ret

/-- The evaluation of an expression is safe and gives a value of its type. -/
def Evaluates (call : Callees) (Γ : Scopes) (c : Checked.Expr) : Prop :=
  ∀ ⦃ret : Option Ty⦄ ⦃s : Store⦄ ⦃env : Env⦄, Given s (fun s => EnvOk s env Γ) →
    Safe ret (eval call env c) s fun v s => Conforms s v c.note

variable {Φ : List Header} {Γ : Scopes} {call : Callees} {ret : Option Ty} {s : Store} {env : Env}
  {cs : List Checked.Expr}

/-- A variable has its declared type. -/
theorem typeOf_safe {name : String} {type : Ty} (hname : Γ.find? name = some type)
    (h : Given s fun s => EnvOk s env Γ) :
    Safe ret (typeOf env name) s fun declared s => declared = type ∧ EnvOk s env Γ := by
  rw [typeOf]
  cases hlookup : env.lookup name with
  | none =>
    refine .throw (h.imp fun _ henv => ?_)
    obtain ⟨v, hv, -⟩ := henv.lookup hname
    cases hlookup.symm.trans hv
  | some x =>
    refine .pure (h.imp fun _ henv => ⟨?_, henv⟩)
    obtain ⟨v, hv, -⟩ := henv.lookup hname
    cases hlookup.symm.trans hv
    rfl

/-- Indices lead to a place of the element type. -/
theorem follow_safe (hindices : ∀ c ∈ cs, Evaluates call Γ c) (hints : ∀ c ∈ cs, c.note.compatible .int)
    {t type : Ty} {place : Place}
    (h : Given s fun s => PlaceOk s Γ t place ∧ EnvOk s env Γ ∧ t.Reaches cs.length type) :
    Safe ret (follow call env cs t place) s fun place s => PlaceOk s Γ type place ∧ EnvOk s env Γ := by
  induction cs generalizing s t place with
  | nil =>
    rw [follow]
    exact .pure (h.imp fun _ h => ⟨h.1.congr h.2.2, h.2.1⟩)
  | cons index indices ih =>
    rw [List.forall_mem_cons] at hindices hints
    have hkept := (stable_env env Γ).and (stable_const (t.Reaches (indices.length + 1) type))
    have hstable := (stable_place Γ t place).and hkept
    rw [follow]
    refine ((hindices.1 (h.imp fun _ h => h.2.1)).frame h hstable).bind fun v s₁ h₁ => ?_
    have hscalar : Scalar.isScalar index.note := (Ty.isScalar_eq_of_compatible hints.1).trans rfl
    refine ((number_safe (h₁.imp fun _ h => h.1) hscalar).frame (h₁.imp fun _ h => h.2) hstable).bind
      fun i s₂ h₂ => ?_
    refine ((load_safe (h₂.imp fun _ h => ⟨h.2.1, h.2.2.1⟩)).frame (h₂.imp fun _ h => h.2.2) hkept).bind
      fun x s₃ h₃ => ?_
    refine ((seen_safe (h₃.imp fun _ h => h.1)).frame (h₃.imp fun _ h => h.2) hkept).bind fun array s₄ h₄ => ?_
    have harray : Given s₄ fun s => t.isArray ∧ Conforms s array t := by
      refine h₄.imp fun _ h => ⟨?_, h.1⟩
      obtain ⟨elem, helem, -⟩ := h.2.2
      exact Ty.isArray_of_index? helem
    refine ((openArray_safe harray).frame (h₄.imp fun _ h => h.2) hkept).bind fun y s₅ h₅ => ?_
    obtain ⟨address, length⟩ := y
    dsimp only
    cases helem : t.index? 1 with
    | none =>
      refine .throw (h₅.imp fun _ h => ?_)
      obtain ⟨elem, helem', -⟩ := h.2.2
      cases helem.symm.trans helem'
    | some elem =>
      dsimp only
      split
      · rename_i hbounds
        refine ih hindices.2 hints.2 (h₅.imp fun _ h => ?_)
        obtain ⟨⟨⟨width, hshape⟩, hagrees⟩, henv, _, helem', hreach⟩ := h
        cases helem.symm.trans helem'
        exact ⟨⟨width, length, hshape, by omega, hagrees elem helem⟩, henv, hreach⟩
      · exact .throw (h₅.imp fun _ _ => trivial)

/-- The place that a variable and its indices lead to has the type that the rules give it. -/
theorem elem_safe (hindices : ∀ c ∈ cs, Evaluates call Γ c) (hints : ∀ c ∈ cs, c.note.compatible .int)
    {name : String} {array declared type : Ty} (hname : Γ.find? name = some array)
    (hreach : array.Reaches cs.length type) (h : Given s fun s => declared = array ∧ EnvOk s env Γ) :
    Safe ret (follow call env cs declared (.var name)) s fun place s =>
      PlaceOk s Γ type place ∧ EnvOk s env Γ := by
  refine follow_safe hindices hints (h.imp fun _ h => ?_)
  obtain ⟨rfl, henv⟩ := h
  exact ⟨⟨declared, hname, rfl⟩, henv, hreach⟩

/-- Arguments conform to the parameters. -/
theorem evalArgs_safe {types : List Ty} (hpasses : List.Forall₂ (fun c type => c.note.Passes type) cs types)
    (hargs : ∀ c ∈ cs, Evaluates call Γ c) (h : Given s fun s => EnvOk s env Γ) :
    Safe ret (evalArgs call env cs) s fun args s => ArgsOk s args types := by
  induction hpasses with
  | nil =>
    rw [evalArgs]
    exact .pure (h.imp fun _ _ => .nil)
  | @cons arg type args types harg _ ih =>
    rw [List.forall_mem_cons] at hargs
    rw [evalArgs]
    refine ((ih hargs.2).frame h (stable_env env Γ)).bind fun others s₁ h₁ => ?_
    refine ((hargs.1 (h₁.imp fun _ h => h.2)).frame (h₁.imp fun _ h => h.1) (stable_args others types)).bind
      fun v s₂ h₂ => ?_
    exact .pure (h₂.imp fun _ h => .cons ⟨harg, h.1⟩ h.2)

/-- Elements are kept with the element type. -/
theorem evalElems_safe {type elem : Ty} (helem : type.index? 1 = some elem)
    (hpasses : ∀ c ∈ cs, c.note.Passes elem) (helems : ∀ c ∈ cs, Evaluates call Γ c)
    (h : Given s fun s => EnvOk s env Γ) :
    Safe ret (evalElems call env type cs) s fun xs s =>
      ∀ x ∈ xs, x.type = elem ∧ Conforms s x.value x.type := by
  induction cs generalizing s with
  | nil =>
    rw [evalElems]
    exact .pure (h.imp fun _ _ => by simp)
  | cons first others ih =>
    rw [List.forall_mem_cons] at hpasses helems
    rw [evalElems]
    refine ((helems.1 h).frame h (stable_env env Γ)).bind fun v s₁ h₁ => ?_
    have hkeep : Safe ret (keep type .elements first.note v) s₁ fun x s =>
        x.type = elem ∧ Conforms s x.value x.type := keep_safe helem hpasses.1 (h₁.imp fun _ h => h.1)
    refine (hkeep.frame (h₁.imp fun _ h => h.2) (stable_env env Γ)).bind fun x s₂ h₂ => ?_
    have hstable := (stable_const (x.type = elem)).and (stable_conforms x.value x.type)
    refine ((ih hpasses.2 helems.2 (h₂.imp fun _ h => h.2)).frame (h₂.imp fun _ h => h.1) hstable).bind
      fun xs s₃ h₃ => ?_
    exact .pure (h₃.imp fun _ h => List.forall_mem_cons.2 ⟨h.2, h.1⟩)

/-- The evaluation of the expressions of a phrase without empty array literals is safe. -/
def PhraseEvaluates (call : Callees) (Γ : Scopes) : Phrase → Prop
  | .expr e c => e.Full → Evaluates call Γ c
  | .exprs es cs => (∀ e ∈ es, e.Full) → ∀ c ∈ cs, Evaluates call Γ c

/-- An element has the type that its indices reach. -/
theorem evaluates_elem {name : String} {array type : Ty} (hindices : ∀ c ∈ cs, Evaluates call Γ c)
    (hints : ∀ c ∈ cs, c.note.compatible .int) (hname : Γ.find? name = some array)
    (hreach : array.Reaches cs.length type) : Evaluates call Γ (.elem type name cs) := by
  intro ret s env h
  -- `eval` computes here and below to the binds that the steps go through.
  refine (typeOf_safe hname h).bind fun declared s₁ h₁ => ?_
  refine (elem_safe hindices hints hname hreach h₁).bind fun place s₂ h₂ => ?_
  exact (load_safe h₂).bind fun x s₃ h₃ => seen_safe h₃

/-- A side has the type that its pair gives it. -/
theorem evaluates_side {which : Side} {pair : Checked.Expr} {type : Ty} (hpair : Evaluates call Γ pair)
    (hside : pair.note.side? which = some type) : Evaluates call Γ (.side type which pair) := by
  intro ret s env h
  refine ((hpair h).frame h (stable_env env Γ)).bind fun v s₁ h₁ => ?_
  refine ((openSide_safe Γ (h₁.imp fun _ h => h.1) hside).frame (h₁.imp fun _ h => h.2)
    (stable_env env Γ)).bind fun place s₂ h₂ => ?_
  exact (load_safe h₂).bind fun x s₃ h₃ => seen_safe h₃

theorem evaluates_unary {op : UnaryOp} {c : Checked.Expr} {wanted type : Ty} (hop : op ≠ .len)
    (hc : Evaluates call Γ c) (hwanted : c.note.compatible wanted) (hscalar : Scalar.isScalar wanted)
    (htype : Scalar.isScalar type) : Evaluates call Γ (.unary type op c) := by
  intro ret s env h
  refine (hc h).bind fun v s₁ h₁ => ?_
  exact (applyUnary_safe hop h₁ ((Ty.isScalar_eq_of_compatible hwanted).trans hscalar) htype).bind
    fun v s₂ h₂ => seen_safe h₂

theorem evaluates_binary (type : Ty) {op : BinaryOp} {l r : Checked.Expr} (hop : op.kind ≠ .equality)
    (hl : Evaluates call Γ l) (hr : Evaluates call Γ r) (hleft : Scalar.isScalar l.note)
    (hright : Scalar.isScalar r.note) (htype : Scalar.isScalar type) :
    Evaluates call Γ (.binary type op l r) := by
  intro ret s env h
  refine ((hl h).frame h (stable_env env Γ)).bind fun v s₁ h₁ => ?_
  refine ((hr (h₁.imp fun _ h => h.2)).frame (h₁.imp fun _ h => h.1) (stable_conforms v l.note)).bind
    fun w s₂ h₂ => ?_
  exact (applyBinary_safe hop (h₂.imp fun _ h => h.symm) hleft hright htype).bind
    fun v s₃ h₃ => seen_safe h₃

/-- A call has the type of its function's result. -/
theorem evaluates_call (hserves : Serves Φ call) {f : Header} (hf : f ∈ Φ)
    (hpasses : List.Forall₂ (fun c type => c.note.Passes type) cs f.params)
    (hargs : ∀ c ∈ cs, Evaluates call Γ c) : Evaluates call Γ (.call f.ret f.label cs) := by
  intro ret s env h
  refine (evalArgs_safe hpasses hargs h).bind fun args s₁ h₁ => ?_
  exact (hserves f hf h₁).bind fun v s₂ h₂ => seen_safe h₂

/-- A reference to a pair has every type of pairs that says what was put there. -/
theorem conforms_pair {type : Ty} {address : Nat} {live : Bool} {sides : Side → Kept}
    (hobj : s.heap[address]? = some (.pair live sides)) (htype : type.isPair)
    (hsides : ∀ which, type.side? which = some (sides which).type) : Conforms s (.ref address) type := by
  constructor
  · rw [Heap.shape, Heap.shapeAt_of_some hobj]
    exact htype
  · rintro _ ⟨rfl⟩ detail part - x hx
    rw [Heap.keptAt_of_some hobj] at hx
    cases part with
    | elements => cases hx
    | side which =>
      obtain rfl := List.mem_singleton.1 hx
      exact ⟨_, hsides which, .refl _ _⟩

/-- A reference to an array has the type that its elements were put there with. -/
theorem conforms_array {type elem : Ty} {address : Nat} {live : Bool} {width : Nat} {elems : List Kept}
    (hobj : s.heap[address]? = some (.array live width elems)) (helem : type.index? 1 = some elem)
    (hwidth : 0 < elems.length → width = elem.size ∧ type ≠ .emptyArray)
    (helems : ∀ x ∈ elems, x.type = elem) : Conforms s (.ref address) type := by
  constructor
  · rw [Heap.shape, Heap.shapeAt_of_some hobj]
    exact ⟨elem, helem, hwidth⟩
  · rintro _ ⟨rfl⟩ detail part - x hx
    rw [Heap.keptAt_of_some hobj] at hx
    cases part with
    | side => cases hx
    | elements => exact ⟨elem, helem, helems x hx ▸ .refl _ _⟩

/-- A new pair is filled with its sides. -/
theorem evaluates_newPair {f c : Checked.Expr} (hf : Evaluates call Γ f) (hc : Evaluates call Γ c)
    (hfst : f.note.Normal) (hsnd : c.note.Normal) :
    Evaluates call Γ (.newPair (.pair f.note.erased c.note.erased) f c) := by
  intro ret s env h
  refine ((hf h).frame h (stable_env env Γ)).bind fun v s₁ h₁ => ?_
  refine ((hc (h₁.imp fun _ h => h.2)).frame (h₁.imp fun _ h => h.1) (stable_conforms v f.note)).bind
    fun w s₂ h₂ => ?_
  have hkeepFst : Safe ret (keep (.pair f.note.erased c.note.erased) (.side .fst) f.note v) s₂ fun x s =>
      x.type = f.note.erased.getD .anyPair ∧ Conforms s x.value x.type :=
    keep_safe rfl hfst.passes_erased (h₂.imp fun _ h => h.2)
  refine (hkeepFst.frame (h₂.imp fun _ h => h.1) (stable_conforms w c.note)).bind fun x s₃ h₃ => ?_
  have hkeepSnd : Safe ret (keep (.pair f.note.erased c.note.erased) (.side .snd) c.note w) s₃ fun y s =>
      y.type = c.note.erased.getD .anyPair ∧ Conforms s y.value y.type :=
    keep_safe rfl hsnd.passes_erased (h₃.imp fun _ h => h.2)
  have hstable := (stable_const (x.type = f.note.erased.getD .anyPair)).and (stable_conforms x.value x.type)
  refine (hkeepSnd.frame (h₃.imp fun _ h => h.1) hstable).bind fun y s₄ h₄ => ?_
  have htypes : Given s₄ fun _ => y.type = c.note.erased.getD .anyPair ∧ x.type = f.note.erased.getD .anyPair :=
    h₄.imp fun _ h => ⟨h.1.1, h.2.1⟩
  refine ((allocate_safe (h₄.imp fun _ h => ?_)).frame htypes (stable_const _)).bind fun address s₅ h₅ =>
    seen_safe (h₅.imp fun _ h => ?_)
  · rintro (which | _) z hz
    · obtain rfl := List.mem_singleton.1 hz
      cases which with
      | fst => exact h.2.2
      | snd => exact h.1.2
    · cases hz
  · refine conforms_pair h.1 rfl ?_
    rintro (_ | _)
    · exact congrArg some h.2.2.symm
    · exact congrArg some h.2.1.symm

/-- A literal is filled with its elements. -/
theorem evaluates_array {first : Checked.Expr} (helems : ∀ c ∈ first :: cs, Evaluates call Γ c)
    (hnormal : ∀ c ∈ first :: cs, c.note.Normal) (hsame : ∀ c ∈ cs, c.note.compatible first.note) :
    Evaluates call Γ (.array (.arrayOf first.note) (first :: cs)) := by
  intro ret s env h
  have hfirst := hnormal first List.mem_cons_self
  obtain ⟨elem, helem, hexpand⟩ := hfirst.index?_arrayOf
  have hpasses : ∀ c ∈ first :: cs, c.note.Passes elem := by
    intro c hc
    refine ⟨.inl (hnormal c hc), hfirst.arrayOf.index? helem, ?_⟩
    rw [Ty.compatible, hexpand]
    rcases List.mem_cons.1 hc with rfl | hc
    · exact Ty.agree_expand_self _
    · exact hsame c hc
  refine (evalElems_safe helem hpasses helems h).bind fun xs s₁ h₁ => ?_
  have htypes : Given s₁ fun _ => ∀ x ∈ xs, x.type = elem := h₁.imp fun _ h x hx => (h x hx).1
  refine ((allocate_safe (h₁.imp fun _ h => ?_)).frame htypes (stable_const _)).bind fun address s₂ h₂ =>
    seen_safe (h₂.imp fun _ h => ?_)
  · rintro (_ | _) x hx
    · cases hx
    · exact (h x hx).2
  · refine conforms_array h.1 helem (fun _ => ⟨?_, hfirst.arrayOf.ne_emptyArray⟩) h.2
    rw [Emission.elemSize, ← Ty.size_expand, ← hexpand, Ty.size_expand]

/-- The array of an empty literal has no elements. -/
theorem evaluates_emptyArray : Evaluates call Γ (.array .emptyArray []) := by
  intro ret s env h
  rw [eval, evalElems]
  refine (allocate_safe (h.imp fun _ _ => ?_)).bind fun address s₁ h₁ => seen_safe (h₁.imp fun _ hobj => ?_)
  · rintro (_ | _) x hx <;> cases hx
  · have helem : Ty.emptyArray.index? 1 = some .anyPair := rfl
    exact conforms_array hobj helem (by simp) (by simp)

/-- Well-typed expressions without empty array literals have values of their types. -/
theorem evaluates_of_full (hserves : Serves Φ call) (hΦ : ∀ f ∈ Φ, f.Normal) (hΓ : Γ.Normal)
    {phrase : Phrase} (h : ExprTyped Φ Γ phrase) : PhraseEvaluates call Γ phrase := by
  have hnormal {e : Source.Expr} {c : Checked.Expr} (h : ExprTyped Φ Γ (.expr e c)) (hfull : e.Full) :
      c.note.Normal := h.normal hΦ hΓ hfull c c.mem_parts
  have hnormals {es : List Source.Expr} {cs : List Checked.Expr} (h : ExprTyped Φ Γ (.exprs es cs))
      (hfull : ∀ e ∈ es, e.Full) : ∀ c ∈ cs, c.note.Normal := fun c hc =>
    h.normal hΦ hΓ hfull c (Expr.mem_partsAll hc)
  induction h with
  | int | bool | char | null =>
    intro _ ret s env h
    rw [eval]
    exact seen_safe (h.imp fun _ _ => .of_suits rfl (by simp))
  | str =>
    intro _ ret s env h
    rw [eval]
    exact (literal_safe _ (h.imp fun _ _ => trivial)).bind fun v s₁ h₁ => seen_safe h₁
  | @var _ name type hname =>
    intro _ ret s env h
    rw [eval]
    have hplace : Given s fun s => PlaceOk s Γ type (.var name) ∧ EnvOk s env Γ :=
      h.imp fun _ henv => ⟨⟨type, hname, rfl⟩, henv⟩
    exact (load_safe hplace).bind fun x s₁ h₁ => seen_safe h₁
  | slice _ hname hindices hints harray hlt ih =>
    intro hfull
    rw [hindices.length_eq] at hlt ⊢
    have hindex := Ty.index?_eq_some.2 ⟨_, _, harray, .inl ⟨hlt, rfl⟩⟩
    exact evaluates_elem (ih (Expr.full_iff.1 hfull).2) hints hname ((hΓ.find? hname).reaches hindex)
  | elem _ hname hindices hints harray ih | unknownElem _ hname hindices hints harray ih =>
    intro hfull
    have hindex := Ty.index?_eq_some.2 ⟨_, _, harray, .inr ⟨hindices.length_eq.symm, rfl⟩⟩
    exact evaluates_elem (ih (Expr.full_iff.1 hfull).2) hints hname ((hΓ.find? hname).reaches hindex)
  | fst _ _ htype ih | snd _ _ htype ih =>
    intro hfull
    exact evaluates_side (ih (hfull.child rfl)) (Ty.side?_eq_some.2 ⟨_, _, htype, rfl⟩)
  | not _ _ htype ih | negate _ _ htype ih | ord _ _ htype ih | chr _ _ htype ih =>
    intro hfull
    exact evaluates_unary (by decide) (ih (hfull.child rfl)) htype rfl rfl
  | len _ _ htype ih =>
    intro hfull ret s env h
    rw [eval]
    refine (ih (hfull.child rfl) h).bind fun v s₁ h₁ => ?_
    exact (length_safe h₁ (Ty.isArray_iff.2 ⟨_, _, htype⟩)).bind fun v s₂ h₂ => seen_safe h₂
  | arithmetic _ hop _ _ hltype hrtype ihl ihr | logical _ hop _ _ hltype hrtype ihl ihr =>
    intro hfull
    obtain ⟨hl, hr⟩ := hfull.both rfl
    refine evaluates_binary _ (by rw [mem_operators.1 hop]; decide) (ihl hl) (ihr hr) ?_ ?_ rfl
    · exact (Ty.isScalar_eq_of_compatible hltype).trans rfl
    · exact (Ty.isScalar_eq_of_compatible hrtype).trans rfl
  | @ordering _ _ _ _ cl _ hop _ _ hltype hrtype ihl ihr =>
    intro hfull
    obtain ⟨hl, hr⟩ := hfull.both rfl
    have hleft : Scalar.isScalar cl.note := by rcases hltype with h | h <;> rw [h] <;> rfl
    refine evaluates_binary .bool (by rw [mem_operators.1 hop]; decide) (ihl hl) (ihr hr) hleft ?_ rfl
    exact (Ty.isScalar_eq_of_compatible hrtype).trans hleft
  | equality _ hop _ _ _ ihl ihr =>
    intro hfull ret s env h
    obtain ⟨hl, hr⟩ := hfull.both rfl
    rw [eval]
    refine ((ihl hl h).frame h (stable_env env Γ)).bind fun v s₁ h₁ => ?_
    refine (ihr hr (h₁.imp fun _ h => h.2)).bind fun w s₂ h₂ => ?_
    exact (compare_safe (mem_operators.1 hop) (h₂.imp fun _ _ => trivial)).bind
      fun v s₃ h₃ => seen_safe h₃
  | call _ hargs hchosen ih =>
    intro hfull
    have hfulls := (Expr.full_iff.1 hfull).2
    have hpasses := Chosen.passes hΦ hchosen (hnormals hargs hfulls)
    exact evaluates_call hserves (Chosen.mem hchosen) hpasses (ih hfulls)
  | newPair _ hf hs ihf ihs =>
    intro hfull
    obtain ⟨hfst, hsnd⟩ := hfull.both rfl
    exact evaluates_newPair (ihf hfst) (ihs hsnd) (hnormal hf hfst) (hnormal hs hsnd)
  | emptyArray =>
    intro hfull
    cases hfull.1
  | array _ hfirst hothers hsame ihf iho =>
    intro hfull
    obtain ⟨hf, ho⟩ := List.forall_mem_cons.1 (Expr.full_iff.1 hfull).2
    refine evaluates_array (List.forall_mem_cons.2 ⟨ihf hf, iho ho⟩) ?_ hsame
    exact List.forall_mem_cons.2 ⟨hnormal hfirst hf, hnormals hothers ho⟩
  | nil =>
    intro _ c hc
    cases hc
  | cons _ _ ihe ihes =>
    intro hfull
    obtain ⟨he, hes⟩ := List.forall_mem_cons.1 hfull
    exact List.forall_mem_cons.2 ⟨ihe he, ihes hes⟩

/-- Well-typed expressions have values of their types. -/
theorem evaluates_of_typed (hserves : Serves Φ call) (hΦ : ∀ f ∈ Φ, f.Normal) (hΓ : Γ.Normal)
    {e : Source.Expr} {c : Checked.Expr} (h : ExprTyped Φ Γ (.expr e c))
    (hfilled : ∀ part ∈ e.parts, part.Filled) : Evaluates call Γ c := by
  by_cases hempty : e.isEmptyArray
  · cases h with
    | emptyArray => exact evaluates_emptyArray
    | _ => cases hempty
  · exact evaluates_of_full hserves hΦ hΓ h ⟨by simpa using hempty, hfilled⟩

end References

end WaccArm
