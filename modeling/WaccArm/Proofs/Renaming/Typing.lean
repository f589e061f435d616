import WaccArm.Proofs.Renaming.Tree
import WaccArm.Proofs.Typing.Calls

namespace WaccArm.Typing

variable {v : String → String} (l : String → String)

/-- The header with another label. -/
def Header.relabel (f : Header) : Header := { f with label := l f.label }

theorem Header.relabel_id : Header.relabel id = id := rfl

/-- Labels do not decide which function is called. -/
theorem Chosen.relabel {Φ : List Header} {name : String} {types : List Ty} {f : Header}
    (h : Chosen Φ name types f) : Chosen (Φ.map (.relabel l)) name types (f.relabel l) := by
  obtain ⟨before, after, rfl, haccepts, hothers⟩ := h
  refine ⟨before.map (.relabel l), after.map (.relabel l), ?_, haccepts, ?_⟩
  · rw [List.map_append, List.map_cons]
  · rw [← List.map_append, List.forall_mem_map]
    exact hothers

theorem lookup_rename (hv : v.Injective) (vars : Vars) (name : String) :
    (Scope.rename v vars).lookup (v name) = vars.lookup name := by
  induction vars with
  | nil => rfl
  | cons var vars ih =>
    obtain ⟨other, type⟩ := var
    have hsame : (v name == v other) = (name == other) := by simp [hv.eq_iff]
    change List.lookup (v name) ((v other, type) :: Scope.rename v vars) = _
    rw [List.lookup_cons, List.lookup_cons, hsame, ih]

/-- A variable has its type under any name. -/
theorem find?_rename (hv : v.Injective) (Γ : Scopes) (name : String) :
    Scopes.find? (Chain.rename v Γ) (v name) = Γ.find? name := by
  rw [Scopes.find?, Chain.rename, List.findSome?_map]
  exact congrArg Γ.findSome? (funext fun vars => lookup_rename hv vars name)

/-- A name that is new stays new. -/
theorem not_mem_rename (hv : v.Injective) {vars : Vars} {name : String}
    (hnew : ∀ type, (name, type) ∉ vars) (type : Ty) : (v name, type) ∉ Scope.rename v vars := by
  intro hmem
  obtain ⟨⟨other, found⟩, hother, hsame⟩ := List.mem_map.1 hmem
  obtain ⟨hname, rfl⟩ := Prod.mk.inj hsame
  rw [hv hname] at hother
  exact hnew found hother

/-- The phrase with its variables renamed on both sides, and relabelled calls where it has types. -/
def Phrase.rename (v l : String → String) : Phrase → Phrase
  | expr e c => .expr (e.rename v id) (c.rename v l)
  | exprs es cs => .exprs (es.map (Expr.rename v id)) (cs.map (Expr.rename v l))

theorem compatible_rename {cs : List Checked.Expr} {type : Ty} :
    (∀ c ∈ cs.map (Expr.rename v l), c.note.compatible type) ↔ ∀ c ∈ cs, c.note.compatible type := by
  simp only [List.forall_mem_map, Expr.note_rename]

/-- An expression has its type under other names. -/
theorem ExprTyped.rename (hv : v.Injective) {Φ : List Header} {Γ : Scopes} {phrase : Phrase}
    (h : ExprTyped Φ Γ phrase) :
    ExprTyped (Φ.map (.relabel l)) (Chain.rename v Γ) (phrase.rename v l) := by
  induction h with
  | int pos value => exact .int pos value
  | bool pos value => exact .bool pos value
  | char pos value => exact .char pos value
  | str pos value => exact .str pos value
  | null pos => exact .null pos
  | var pos hname => exact .var pos ((find?_rename hv _ _).trans hname)
  | slice pos hname hindices hints harray hlt ih =>
    rw [Phrase.rename, Expr.rename, Expr.rename, Expr.renameAll_eq_map, Expr.renameAll_eq_map,
      ← List.length_map (Expr.rename v id)]
    refine .slice pos ((find?_rename hv _ _).trans hname) ih ((compatible_rename l).2 hints) harray ?_
    rw [List.length_map]
    exact hlt
  | elem pos hname hindices hints harray ih =>
    rw [Phrase.rename, Expr.rename, Expr.rename, Expr.renameAll_eq_map, Expr.renameAll_eq_map]
    refine .elem pos ((find?_rename hv _ _).trans hname) ih ((compatible_rename l).2 hints) ?_
    rw [List.length_map]
    exact harray
  | unknownElem pos hname hindices hints harray ih =>
    rw [Phrase.rename, Expr.rename, Expr.rename, Expr.renameAll_eq_map, Expr.renameAll_eq_map]
    refine .unknownElem pos ((find?_rename hv _ _).trans hname) ih ((compatible_rename l).2 hints) ?_
    rw [List.length_map]
    exact harray
  | fst pos hpair htype ih => exact .fst pos ih ((Expr.note_rename v l _).trans htype)
  | snd pos hpair htype ih => exact .snd pos ih ((Expr.note_rename v l _).trans htype)
  | not pos he htype ih => exact .not pos ih (by rwa [Expr.note_rename])
  | negate pos he htype ih => exact .negate pos ih (by rwa [Expr.note_rename])
  | len pos he htype ih => exact .len pos ih (by rwa [Expr.note_rename])
  | ord pos he htype ih => exact .ord pos ih (by rwa [Expr.note_rename])
  | chr pos he htype ih => exact .chr pos ih (by rwa [Expr.note_rename])
  | arithmetic pos hop hl hr hltype hrtype ihl ihr =>
    exact .arithmetic pos hop ihl ihr (by rwa [Expr.note_rename]) (by rwa [Expr.note_rename])
  | ordering pos hop hl hr hltype hrtype ihl ihr =>
    exact .ordering pos hop ihl ihr (by rwa [Expr.note_rename])
      (by rwa [Expr.note_rename, Expr.note_rename])
  | equality pos hop hl hr htype ihl ihr =>
    exact .equality pos hop ihl ihr (by rwa [Expr.note_rename, Expr.note_rename])
  | logical pos hop hl hr hltype hrtype ihl ihr =>
    exact .logical pos hop ihl ihr (by rwa [Expr.note_rename]) (by rwa [Expr.note_rename])
  | @call pos name args cs f hargs hchosen ih =>
    rw [Phrase.rename, Expr.rename, Expr.rename, Expr.renameAll_eq_map, Expr.renameAll_eq_map]
    have hchosen' := hchosen.relabel l
    rw [← Expr.map_note_rename v l cs] at hchosen'
    exact .call pos ih hchosen'
  | @newPair pos fst snd cf cs hfst hsnd ihf ihs =>
    have hpair := ExprTyped.newPair pos ihf ihs
    rwa [Expr.note_rename, Expr.note_rename] at hpair
  | emptyArray pos => exact .emptyArray pos
  | @array pos first others c cs hfirst hothers hsame ihf iho =>
    rw [Phrase.rename, Expr.rename, Expr.rename, Expr.renameAll_eq_map, Expr.renameAll_eq_map,
      ← Expr.note_rename v l c]
    rw [← Expr.note_rename v l c] at hsame
    exact .array pos ihf iho ((compatible_rename l).2 hsame)
  | nil => exact .nil
  | cons he hes ih ihs => exact .cons ih ihs

/-- A statement is typed under other names. -/
theorem StmtTyped.rename (hv : v.Injective) {Φ : List Header} {ret : Option Ty} {Γ Γ' : Scopes}
    {s : Source.Stmt} {c : Checked.Stmt} (h : StmtTyped Φ ret Γ s c Γ') :
    StmtTyped (Φ.map (.relabel l)) ret (Chain.rename v Γ) (s.rename v id) (c.rename v l) (Chain.rename v Γ') := by
  induction h with
  | skip pos => exact .skip pos
  | declare pos hinit htype hnew =>
    exact .declare pos (hinit.rename l hv) (by rwa [Expr.note_rename]) (not_mem_rename hv hnew)
  | assign pos hdst hsrc htype =>
    exact .assign pos (hdst.rename l hv) (hsrc.rename l hv)
      (by rwa [Expr.note_rename, Expr.note_rename])
  | read pos htarget htype => exact .read pos (htarget.rename l hv) (by rwa [Expr.note_rename])
  | freePair pos he htype => exact .freePair pos (he.rename l hv) (by rwa [Expr.note_rename])
  | freeArray pos he htype => exact .freeArray pos (he.rename l hv) (by rwa [Expr.note_rename])
  | ret pos hret he htype => exact .ret pos hret (he.rename l hv) (by rwa [Expr.note_rename])
  | exit pos he htype => exact .exit pos (he.rename l hv) (by rwa [Expr.note_rename])
  | print pos he => exact .print pos (he.rename l hv)
  | branch pos hcond htype hyes hno ihy ihn =>
    exact .branch pos (hcond.rename l hv) (by rwa [Expr.note_rename]) ihy ihn
  | loop pos hcond htype hbody ih =>
    exact .loop pos (hcond.rename l hv) (by rwa [Expr.note_rename]) ih
  | scope pos hbody ih => exact .scope pos ih
  | seqNil pos => exact .seqNil pos
  | seqCons pos hfirst hothers ihf iho => exact .seqCons pos ihf iho

theorem typedParams_rename (f : Source.Func) :
    typedParams (f.rename v) = (typedParams f).map (.rename v) := by
  rw [typedParams, typedParams, Source.Func.rename, List.map_map, List.map_map]
  rfl

theorem paramVars_rename (params : List Checked.Param) :
    paramVars (params.map (.rename v)) = Scope.rename v (paramVars params) := by
  rw [paramVars, paramVars, Scope.rename, List.map_reverse, List.map_map, List.map_map]
  rfl

/-- A function is typed under other names. -/
theorem FuncTyped.rename (hv : v.Injective) {Φ : List Header} {f : Source.Func} {label : String}
    {c : Checked.Func} (h : FuncTyped Φ f label c) :
    FuncTyped (Φ.map (.relabel l)) (f.rename v) (l label) (c.rename v l) := by
  obtain ⟨hparams, hbody⟩ := h
  rw [Checked.Func.rename, ← typedParams_rename]
  have hparams' : ((f.rename v).params.map Source.Param.name).Nodup := by
    rw [Source.Func.rename, List.map_map]
    have hmap := hparams.map hv
    rwa [List.map_map] at hmap
  have hbody' := hbody.rename l hv
  rw [Chain.rename, List.map_singleton, ← paramVars_rename, ← typedParams_rename] at hbody'
  exact .mk hparams' hbody'

/-- Labels are made from names of functions. -/
theorem labels_rename (p : Source.Program) : Checker.labels (p.rename v).funcs = Checker.labels p.funcs :=
  Checker.labels_map (Source.Func.rename v) (fun _ => rfl) p.funcs

theorem headers_rename (p : Source.Program) : headers (p.rename v) = headers p := by
  rw [headers, headers, labels_rename, Source.Program.rename, List.zip_map_left, List.map_map]
  refine List.map_congr_left fun f _ => ?_
  have hparams : (f.1.params.map (Source.Param.rename v)).map (fun param => Ty.ofExpr param.type) =
      f.1.params.map fun param => .ofExpr param.type := by
    rw [List.map_map]
    rfl
  exact congrArg (fun params => Header.mk f.1.name f.2 params (.ofExpr f.1.ret)) hparams

/-- A program is typed under other names. -/
theorem ProgramTyped.rename (hv : v.Injective) {p : Source.Program} {c : Checked.Program}
    (h : ProgramTyped p c) : ProgramTyped (p.rename v) (c.rename v id) := by
  obtain ⟨hdistinct, hfuncs, Γ, hbody⟩ := h
  have hheaders : (headers p).map (.relabel id) = headers (p.rename v) := by
    rw [Header.relabel_id, List.map_id, headers_rename]
  refine ⟨?_, ?_, Chain.rename v Γ, ?_⟩
  · rwa [headers_rename]
  · rw [labels_rename, Source.Program.rename, Checked.Program.rename, List.zip_map_left,
      List.forall₂_map_left_iff, List.forall₂_map_right_iff]
    refine hfuncs.imp fun f c hf => ?_
    have hrenamed := hf.rename id hv
    rw [hheaders] at hrenamed
    exact hrenamed
  · have hrenamed := hbody.rename id hv
    rw [hheaders] at hrenamed
    exact hrenamed

end WaccArm.Typing

namespace WaccArm

open Typing

theorem checkTermination_rename (v : String → String) (p : Source.Program) :
    (p.rename v).checkTermination = p.checkTermination := by
  have hterminates : (fun f : Source.Func => !f.body.terminates) ∘ Source.Func.rename v =
      fun f => !f.body.terminates := by
    funext f
    rw [Function.comp_apply, Source.Func.rename, Stmt.terminates_rename]
  rw [Source.Program.checkTermination, Source.Program.checkTermination, Source.Program.rename,
    List.find?_map, hterminates]
  cases p.funcs.find? fun f => !f.body.terminates <;> rfl

/-- A program that is accepted is accepted under other names, with the same types. -/
theorem check_rename {v : String → String} (hv : v.Injective) {p : Source.Program} {c : Checked.Program}
    (h : check p = .ok c) : check (p.rename v) = .ok (c.rename v id) := by
  obtain ⟨htyped, hends⟩ := check_eq_ok.1 h
  refine check_eq_ok.2 ⟨htyped.rename hv, ?_⟩
  rw [checkTermination_rename]
  exact hends

end WaccArm
