import WaccArm.Proofs.Emission.Overloads

namespace WaccArm

namespace Ty

/-- Spelling out keeps sizes. -/
theorem size_expand (t : Ty) : t.expand.size = t.size := by
  unfold expand
  split <;> rfl

/-- Types that agree have one size. -/
theorem size_eq_of_agree {a b : Ty} (h : agree a b) : a.size = b.size := by
  unfold agree at h
  split at h <;> first | rfl | cases h

/-- Compatible types have the same size. -/
theorem size_eq_of_compatible {a b : Ty} (h : compatible a b) : a.size = b.size := by
  have hsize := size_eq_of_agree h
  rwa [size_expand, size_expand] at hsize

theorem sizes_eq_of_compatibleAll {as bs : List Ty} (h : compatibleAll as bs) :
    as.map size = bs.map size := by
  induction as generalizing bs with
  | nil =>
    cases bs with
    | nil => rfl
    | cons => cases h
  | cons a as ih =>
    cases bs with
    | nil => cases h
    | cons b bs =>
      rw [compatibleAll, expandAll, expandAll, agreeAll, Bool.and_eq_true] at h
      rw [List.map_cons, List.map_cons, size_eq_of_compatible h.1, ih h.2]

end Ty

namespace Typing

variable {Φ : List Header}

/-- If an expression is a call, it was resolved to the function whose label it carries. -/
def Resolved (Φ : List Header) (e : Checked.Expr) : Prop :=
  ∀ type label args, e = .call type label args →
    ∃ name f, Chosen Φ name (args.map Expr.note) f ∧ f.label = label ∧ f.ret = type

/-- The calls of a phrase are resolved. -/
def Phrase.Resolved (Φ : List Header) : Phrase → Prop
  | .expr _ c => ∀ part ∈ c.parts, Typing.Resolved Φ part
  | .exprs _ cs => ∀ part ∈ Expr.partsAll cs, Typing.Resolved Φ part

/-- Calls in a typed expression are resolved. -/
theorem ExprTyped.resolved {Γ : Scopes} {phrase : Phrase} (h : ExprTyped Φ Γ phrase) :
    phrase.Resolved Φ := by
  induction h with
  | int | bool | char | str | null | var => exact List.forall_mem_singleton.2 nofun
  | emptyArray => exact List.forall_mem_singleton.2 nofun
  | nil => nofun
  | slice _ _ _ _ _ _ ih | elem _ _ _ _ _ ih | unknownElem _ _ _ _ _ ih
  | fst _ _ _ ih | snd _ _ _ ih | not _ _ _ ih | negate _ _ _ ih | len _ _ _ ih | ord _ _ _ ih
  | chr _ _ _ ih => exact List.forall_mem_cons.2 ⟨nofun, ih⟩
  | arithmetic _ _ _ _ _ _ ihl ihr | ordering _ _ _ _ _ _ ihl ihr | equality _ _ _ _ _ ihl ihr
  | logical _ _ _ _ _ _ ihl ihr | newPair _ _ _ ihl ihr =>
    exact List.forall_mem_cons.2 ⟨nofun, List.forall_mem_append.2 ⟨ihl, ihr⟩⟩
  | @call _ name _ _ f _ hchosen ih =>
    refine List.forall_mem_cons.2 ⟨?_, ih⟩
    rintro _ _ _ ⟨⟩
    exact ⟨name, f, hchosen, rfl, rfl⟩
  | array _ _ _ _ ihf iho =>
    exact List.forall_mem_cons.2 ⟨nofun, List.forall_mem_append.2 ⟨ihf, iho⟩⟩
  | cons _ _ ihe ihes => exact List.forall_mem_append.2 ⟨ihe, ihes⟩

/-- Calls in a typed statement are resolved. -/
theorem StmtTyped.resolved {ret : Option Ty} {Γ Γ' : Scopes} {s : Source.Stmt} {c : Checked.Stmt}
    (h : StmtTyped Φ ret Γ s c Γ') : ∀ e ∈ c.exprs, Resolved Φ e := by
  induction h with
  | skip | seqNil => nofun
  | declare _ he | read _ he | freePair _ he | freeArray _ he | ret _ _ he | exit _ he | print _ he =>
    exact he.resolved
  | assign _ hdst hsrc =>
    exact List.forall_mem_append.2 ⟨hdst.resolved, hsrc.resolved⟩
  | branch _ hcond _ _ _ ihy ihn =>
    exact List.forall_mem_append.2 ⟨hcond.resolved, List.forall_mem_append.2 ⟨ihy, ihn⟩⟩
  | loop _ hcond _ _ ih => exact List.forall_mem_append.2 ⟨hcond.resolved, ih⟩
  | scope _ _ ih => exact ih
  | seqCons _ _ _ ihf iho => exact List.forall_mem_append.2 ⟨ihf, iho⟩

/-- What is accepted is well typed. -/
theorem typed_of_check {p : Source.Program} {c : Checked.Program} (h : check p = .ok c) :
    ProgramTyped p c :=
  (check_eq_ok.1 h).1

/-- Each function of a checked program was checked under its own header. -/
theorem ProgramTyped.func {p : Source.Program} {c : Checked.Program} (h : ProgramTyped p c) {i : Nat}
    {cf : Checked.Func} (hcf : c.funcs[i]? = some cf) :
    ∃ f label, (headers p)[i]? = some (.of f label) ∧ FuncTyped (headers p) f label cf := by
  obtain ⟨hlength, htyped⟩ := List.forall₂_iff_get.1 h.funcs
  obtain ⟨hi, rfl⟩ := List.getElem?_eq_some_iff.1 hcf
  have hi' : i < (p.funcs.zip (Checker.labels p.funcs)).length := by omega
  refine ⟨_, _, ?_, htyped i hi' hi⟩
  rw [headers, List.getElem?_map, List.getElem?_eq_getElem hi']
  rfl

/-- A function has the types of its header. -/
theorem ProgramTyped.header {p : Source.Program} {c : Checked.Program} (h : ProgramTyped p c)
    {i : Nat} {f : Header} {cf : Checked.Func} (hf : (headers p)[i]? = some f)
    (hcf : c.funcs[i]? = some cf) :
    cf.label = f.label ∧ cf.params.map Checked.Param.type = f.params ∧ cf.ret = f.ret := by
  obtain ⟨f', label, hheader, htyped⟩ := h.func hcf
  obtain rfl := Option.some.inj (hf.symm.trans hheader)
  cases htyped
  refine ⟨rfl, ?_, rfl⟩
  rw [typedParams, List.map_map]
  rfl

/-- Whether an expression stands somewhere in a checked program. -/
def Occurs (c : Checked.Program) (e : Checked.Expr) : Prop :=
  e ∈ c.body.exprs ∨ ∃ f ∈ c.funcs, e ∈ f.body.exprs

theorem ProgramTyped.resolved {p : Source.Program} {c : Checked.Program} (h : ProgramTyped p c)
    {e : Checked.Expr} (he : Occurs c e) : Resolved (headers p) e := by
  rcases he with he | ⟨cf, hcf, he⟩
  · obtain ⟨Γ, hbody⟩ := h.body
    exact hbody.resolved e he
  · obtain ⟨i, hi⟩ := List.mem_iff_getElem?.1 hcf
    obtain ⟨f, label, -, htyped⟩ := h.func hi
    cases htyped with
    | mk _ hbody => exact hbody.resolved e he

/-- A call goes to a function of the program whose parameters have the sizes of the arguments. -/
theorem ProgramTyped.callee {p : Source.Program} {c : Checked.Program} (h : ProgramTyped p c)
    {type : Ty} {label : String} {args : List Checked.Expr} (hcall : Occurs c (.call type label args)) :
    ∃ (name : String) (i : Nat) (f : Header) (cf : Checked.Func),
      Chosen (headers p) name (args.map Expr.note) f ∧ (headers p)[i]? = some f ∧
      c.funcs[i]? = some cf ∧ cf.label = label ∧ cf.ret = type ∧
      cf.params.map (fun param => param.type.size) = args.map fun arg => arg.note.size := by
  obtain ⟨name, f, hchosen, rfl, rfl⟩ := h.resolved hcall type label args rfl
  obtain ⟨i, cf, hf, hcf, -⟩ := h.chosen hchosen
  obtain ⟨hlabel, hparams, hret⟩ := h.header hf hcf
  have haccepts : Ty.compatibleAll f.params (args.map Expr.note) := by
    obtain ⟨_, _, -, haccepts, -⟩ := hchosen
    exact haccepts.2
  refine ⟨name, i, f, cf, hchosen, hf, hcf, hlabel, hret, ?_⟩
  have hsizes := Ty.sizes_eq_of_compatibleAll haccepts
  rw [← hparams, List.map_map, List.map_map] at hsizes
  exact hsizes

end Typing

end WaccArm
