import WaccArm.Proofs.Reordering.Headers

namespace WaccArm

namespace Typing

variable {l : String → String} {Φ Φ' : List Header} {Γ : Scopes}

/-- The phrase comes from one that is derivable under other labels. -/
def Phrase.Unlabelled (l : String → String) (Φ : List Header) (Γ : Scopes) : Phrase → Prop
  | expr e c => ∃ c₀, ExprTyped Φ Γ (.expr e c₀) ∧ c₀.rename id l = c
  | exprs es cs => ∃ cs₀, ExprTyped Φ Γ (.exprs es cs₀) ∧ cs₀.map (Expr.rename id l) = cs

/-- Labels can be taken back from an expression. -/
theorem ExprTyped.unlabel (hperm : Φ'.Perm (Φ.map (.relabel l))) {phrase : Phrase}
    (h : ExprTyped Φ' Γ phrase) : phrase.Unlabelled l Φ Γ := by
  induction h with
  | int pos value => exact ⟨_, .int pos value, rfl⟩
  | bool pos value => exact ⟨_, .bool pos value, rfl⟩
  | char pos value => exact ⟨_, .char pos value, rfl⟩
  | str pos value => exact ⟨_, .str pos value, rfl⟩
  | null pos => exact ⟨_, .null pos, rfl⟩
  | var pos hname => exact ⟨_, .var pos hname, rfl⟩
  | slice pos hname _ hints harray hlt ih =>
    obtain ⟨cs, hcs, rfl⟩ := ih
    refine ⟨_, .slice pos hname hcs ((compatible_rename l).1 hints) harray hlt, ?_⟩
    rw [Expr.rename, Expr.renameAll_eq_map, id]
  | elem pos hname _ hints harray ih =>
    obtain ⟨cs, hcs, rfl⟩ := ih
    refine ⟨_, .elem pos hname hcs ((compatible_rename l).1 hints) harray, ?_⟩
    rw [Expr.rename, Expr.renameAll_eq_map, id]
  | unknownElem pos hname _ hints harray ih =>
    obtain ⟨cs, hcs, rfl⟩ := ih
    refine ⟨_, .unknownElem pos hname hcs ((compatible_rename l).1 hints) harray, ?_⟩
    rw [Expr.rename, Expr.renameAll_eq_map, id]
  | fst pos _ htype ih =>
    obtain ⟨c, hc, rfl⟩ := ih
    rw [Expr.note_rename] at htype
    exact ⟨_, .fst pos hc htype, rfl⟩
  | snd pos _ htype ih =>
    obtain ⟨c, hc, rfl⟩ := ih
    rw [Expr.note_rename] at htype
    exact ⟨_, .snd pos hc htype, rfl⟩
  | not pos _ htype ih =>
    obtain ⟨c, hc, rfl⟩ := ih
    rw [Expr.note_rename] at htype
    exact ⟨_, .not pos hc htype, rfl⟩
  | negate pos _ htype ih =>
    obtain ⟨c, hc, rfl⟩ := ih
    rw [Expr.note_rename] at htype
    exact ⟨_, .negate pos hc htype, rfl⟩
  | len pos _ htype ih =>
    obtain ⟨c, hc, rfl⟩ := ih
    rw [Expr.note_rename] at htype
    exact ⟨_, .len pos hc htype, rfl⟩
  | ord pos _ htype ih =>
    obtain ⟨c, hc, rfl⟩ := ih
    rw [Expr.note_rename] at htype
    exact ⟨_, .ord pos hc htype, rfl⟩
  | chr pos _ htype ih =>
    obtain ⟨c, hc, rfl⟩ := ih
    rw [Expr.note_rename] at htype
    exact ⟨_, .chr pos hc htype, rfl⟩
  | arithmetic pos hop _ _ hltype hrtype ihl ihr =>
    obtain ⟨cl, hcl, rfl⟩ := ihl
    obtain ⟨cr, hcr, rfl⟩ := ihr
    rw [Expr.note_rename] at hltype hrtype
    exact ⟨_, .arithmetic pos hop hcl hcr hltype hrtype, rfl⟩
  | ordering pos hop _ _ hltype hrtype ihl ihr =>
    obtain ⟨cl, hcl, rfl⟩ := ihl
    obtain ⟨cr, hcr, rfl⟩ := ihr
    rw [Expr.note_rename] at hltype
    rw [Expr.note_rename, Expr.note_rename] at hrtype
    exact ⟨_, .ordering pos hop hcl hcr hltype hrtype, rfl⟩
  | equality pos hop _ _ htype ihl ihr =>
    obtain ⟨cl, hcl, rfl⟩ := ihl
    obtain ⟨cr, hcr, rfl⟩ := ihr
    rw [Expr.note_rename, Expr.note_rename] at htype
    exact ⟨_, .equality pos hop hcl hcr htype, rfl⟩
  | logical pos hop _ _ hltype hrtype ihl ihr =>
    obtain ⟨cl, hcl, rfl⟩ := ihl
    obtain ⟨cr, hcr, rfl⟩ := ihr
    rw [Expr.note_rename] at hltype hrtype
    exact ⟨_, .logical pos hop hcl hcr hltype hrtype, rfl⟩
  | call pos _ hchosen ih =>
    obtain ⟨cs, hcs, rfl⟩ := ih
    rw [Expr.map_note_rename] at hchosen
    obtain ⟨f, hf, rfl⟩ := hchosen.unlabel hperm
    refine ⟨_, .call pos hcs hf, ?_⟩
    rw [Expr.rename, Expr.renameAll_eq_map]
    rfl
  | newPair pos _ _ ihf ihs =>
    obtain ⟨cf, hcf, rfl⟩ := ihf
    obtain ⟨cs, hcs, rfl⟩ := ihs
    rw [Expr.note_rename, Expr.note_rename]
    exact ⟨_, .newPair pos hcf hcs, rfl⟩
  | emptyArray pos => exact ⟨_, .emptyArray pos, rfl⟩
  | array pos _ _ hsame ihf iho =>
    obtain ⟨c, hc, rfl⟩ := ihf
    obtain ⟨cs, hcs, rfl⟩ := iho
    rw [Expr.note_rename] at hsame ⊢
    refine ⟨_, .array pos hc hcs ((compatible_rename l).1 hsame), ?_⟩
    rw [Expr.rename, Expr.renameAll_eq_map, List.map_cons]
  | nil => exact ⟨_, .nil, rfl⟩
  | cons _ _ ih ihs =>
    obtain ⟨c, hc, rfl⟩ := ih
    obtain ⟨cs, hcs, rfl⟩ := ihs
    exact ⟨_, .cons hc hcs, rfl⟩

/-- Labels can be taken back from a statement. -/
theorem StmtTyped.unlabel (hperm : Φ'.Perm (Φ.map (.relabel l))) {ret : Option Ty} {Γ Γ' : Scopes}
    {s : Source.Stmt} {c : Checked.Stmt} (h : StmtTyped Φ' ret Γ s c Γ') :
    ∃ c₀, StmtTyped Φ ret Γ s c₀ Γ' ∧ c₀.rename id l = c := by
  induction h with
  | skip pos => exact ⟨_, .skip pos, rfl⟩
  | declare pos hinit htype hnew =>
    obtain ⟨c, hc, rfl⟩ := hinit.unlabel hperm
    rw [Expr.note_rename] at htype
    exact ⟨_, .declare pos hc htype hnew, rfl⟩
  | assign pos hdst hsrc htype =>
    obtain ⟨cd, hcd, rfl⟩ := hdst.unlabel hperm
    obtain ⟨cs, hcs, rfl⟩ := hsrc.unlabel hperm
    rw [Expr.note_rename, Expr.note_rename] at htype
    exact ⟨_, .assign pos hcd hcs htype, rfl⟩
  | read pos htarget htype =>
    obtain ⟨c, hc, rfl⟩ := htarget.unlabel hperm
    rw [Expr.note_rename] at htype
    exact ⟨_, .read pos hc htype, rfl⟩
  | freePair pos he htype =>
    obtain ⟨c, hc, rfl⟩ := he.unlabel hperm
    rw [Expr.note_rename] at htype
    exact ⟨_, .freePair pos hc htype, rfl⟩
  | freeArray pos he htype =>
    obtain ⟨c, hc, rfl⟩ := he.unlabel hperm
    rw [Expr.note_rename] at htype
    exact ⟨_, .freeArray pos hc htype, rfl⟩
  | ret pos hret he htype =>
    obtain ⟨c, hc, rfl⟩ := he.unlabel hperm
    rw [Expr.note_rename] at htype
    exact ⟨_, .ret pos hret hc htype, rfl⟩
  | exit pos he htype =>
    obtain ⟨c, hc, rfl⟩ := he.unlabel hperm
    rw [Expr.note_rename] at htype
    exact ⟨_, .exit pos hc htype, rfl⟩
  | print pos he =>
    obtain ⟨c, hc, rfl⟩ := he.unlabel hperm
    exact ⟨_, .print pos hc, rfl⟩
  | branch pos hcond htype _ _ ihy ihn =>
    obtain ⟨c, hc, rfl⟩ := hcond.unlabel hperm
    obtain ⟨cy, hcy, rfl⟩ := ihy
    obtain ⟨cn, hcn, rfl⟩ := ihn
    rw [Expr.note_rename] at htype
    exact ⟨_, .branch pos hc htype hcy hcn, rfl⟩
  | loop pos hcond htype _ ih =>
    obtain ⟨c, hc, rfl⟩ := hcond.unlabel hperm
    obtain ⟨cb, hcb, rfl⟩ := ih
    rw [Expr.note_rename] at htype
    exact ⟨_, .loop pos hc htype hcb, rfl⟩
  | scope pos _ ih =>
    obtain ⟨cb, hcb, rfl⟩ := ih
    exact ⟨_, .scope pos hcb, rfl⟩
  | seqNil pos => exact ⟨_, .seqNil pos, rfl⟩
  | seqCons pos _ _ ihf iho =>
    obtain ⟨c, hc, rfl⟩ := ihf
    obtain ⟨others, hothers, heq⟩ := iho
    -- Renaming keeps the form of a statement, so the rest comes from a sequence.
    cases others with
    | seq mark cs =>
      obtain ⟨-, rfl⟩ := Stmt.seq.inj heq
      exact ⟨_, .seqCons pos hc hothers, rfl⟩
    | _ => cases heq

/-- Labels can be taken back from a function. -/
theorem FuncTyped.unlabel (hperm : Φ'.Perm (Φ.map (.relabel l))) {f : Source.Func} {label : String}
    {c : Checked.Func} (h : FuncTyped Φ' f (l label) c) :
    ∃ c₀, FuncTyped Φ f label c₀ ∧ c₀.rename id l = c := by
  obtain ⟨hparams, hbody⟩ := h
  obtain ⟨c, hc, rfl⟩ := hbody.unlabel hperm
  refine ⟨_, .mk hparams hc, ?_⟩
  rw [Checked.Func.rename, Checked.map_param_rename_id]

/-- A function is typed under other labels. -/
theorem FuncTyped.relabel {f : Source.Func} {label : String} {c : Checked.Func} (h : FuncTyped Φ f label c) :
    FuncTyped (Φ.map (.relabel l)) f (l label) (c.rename id l) := by
  obtain ⟨hparams, hbody⟩ := h
  have hrelabelled := hbody.rename l Function.injective_id
  rw [Chain.rename_id, Stmt.rename_id] at hrelabelled
  rw [Checked.Func.rename, Checked.map_param_rename_id]
  exact .mk hparams hrelabelled

/-- The headers of functions with the labels that are given to them. -/
def headersOf (fs : List (Source.Func × String)) : List Header := fs.map fun f => .of f.1 f.2

/-- A program is well typed if its functions have the labels that stand beside them. -/
structure Labelled (fs : List (Source.Func × String)) (body : Source.Stmt) (c : Checked.Program) : Prop where
  distinct : DistinctHeaders (headersOf fs)
  funcs : List.Forall₂ (fun f cf => FuncTyped (headersOf fs) f.1 f.2 cf) fs c.funcs
  body : ∃ Γ, StmtTyped (headersOf fs) none [[]] body c.body Γ

/-- The labels of the checker stand beside the functions. -/
theorem programTyped_iff {p : Source.Program} {c : Checked.Program} :
    ProgramTyped p c ↔ Labelled (p.funcs.zip (Checker.labels p.funcs)) p.body c :=
  ⟨fun ⟨hdistinct, hfuncs, hbody⟩ => ⟨hdistinct, hfuncs, hbody⟩,
    fun ⟨hdistinct, hfuncs, hbody⟩ => ⟨hdistinct, hfuncs, hbody⟩⟩

variable {fs fs' : List (Source.Func × String)} {body : Source.Stmt}

theorem headersOf_relabel (l : String → String) (fs : List (Source.Func × String)) :
    headersOf (fs.map (Prod.map id l)) = (headersOf fs).map (.relabel l) := by
  rw [headersOf, headersOf, List.map_map, List.map_map]
  rfl

/-- Labels do not make headers distinct. -/
theorem distinct_relabel {l : String → String} :
    DistinctHeaders (Φ.map (.relabel l)) ↔ DistinctHeaders Φ :=
  List.pairwise_map

theorem funcTyped_of_mem {cs : List Checked.Func} (h : List.Forall₂ (fun f cf => FuncTyped Φ f.1 f.2 cf) fs cs)
    {cf : Checked.Func} (hcf : cf ∈ cs) : ∃ f label, FuncTyped Φ f label cf := by
  obtain ⟨i, hi, rfl⟩ := List.mem_iff_getElem.1 hcf
  obtain ⟨hlength, htyped⟩ := List.forall₂_iff_get.1 h
  exact ⟨_, _, htyped i (hlength ▸ hi) hi⟩

/-- Calls carry labels of functions of the program. -/
theorem Labelled.known {q : Checked.Program} (h : Labelled fs body q) {e : Checked.Expr} (he : Occurs q e)
    {label : String} (hlabel : e.callee? = some label) : label ∈ q.funcs.map Checked.Func.label := by
  have hresolved : Resolved (headersOf fs) e := by
    rcases he with he | ⟨cf, hcf, he⟩
    · obtain ⟨Γ, hbody⟩ := h.body
      exact hbody.resolved e he
    · obtain ⟨f, _, hbody⟩ := funcTyped_of_mem h.funcs hcf
      cases hbody with
      | mk _ hbody => exact hbody.resolved e he
  cases e with
  | call type callee args =>
    obtain rfl := Option.some.inj hlabel
    obtain ⟨name, f, ⟨before, after, hsplit, -⟩, rfl, -⟩ := hresolved type _ args rfl
    have hmem : f ∈ headersOf fs := by
      rw [hsplit]
      exact List.mem_append_right _ (List.mem_cons_self ..)
    obtain ⟨labelled, hfs, rfl⟩ := List.mem_map.1 hmem
    rw [map_label_typed h.funcs]
    exact List.mem_map_of_mem hfs
  | _ => cases hlabel

/-- Other labels may be put in. -/
theorem Labelled.relabel {q : Checked.Program} (h : Labelled fs body q) (l : String → String) :
    Labelled (fs.map (Prod.map id l)) body (q.rename id l) := by
  obtain ⟨hdistinct, hfuncs, Γ, hbody⟩ := h
  have hrelabelled := hbody.rename l Function.injective_id
  rw [Chain.rename_id, Chain.rename_id, Stmt.rename_id] at hrelabelled
  refine ⟨?_, ?_, Γ, ?_⟩
  · rwa [headersOf_relabel, distinct_relabel]
  · rw [headersOf_relabel, Checked.Program.rename, List.forall₂_map_left_iff, List.forall₂_map_right_iff]
    exact hfuncs.imp fun f c hf => hf.relabel
  · rw [headersOf_relabel]
    exact hrelabelled

theorem funcs_unlabel {fs' : List (Source.Func × String)} {cs : List Checked.Func}
    (hperm : Φ'.Perm (Φ.map (.relabel l)))
    (h : List.Forall₂ (fun f cf => FuncTyped Φ' f.1 (l f.2) cf) fs' cs) :
    ∃ qs, List.Forall₂ (fun f cf => FuncTyped Φ f.1 f.2 cf) fs' qs ∧ qs.map (.rename id l) = cs := by
  induction h with
  | nil => exact ⟨[], .nil, rfl⟩
  | cons hfirst _ ih =>
    obtain ⟨q, hq, rfl⟩ := hfirst.unlabel hperm
    obtain ⟨qs, hqs, rfl⟩ := ih
    exact ⟨q :: qs, .cons hq hqs, rfl⟩

/-- Labels that were put in may be taken back. -/
theorem Labelled.unlabel {l : String → String} {c : Checked.Program}
    (h : Labelled (fs.map (Prod.map id l)) body c) : ∃ q, Labelled fs body q ∧ q.rename id l = c := by
  obtain ⟨hdistinct, hfuncs, Γ, hbody⟩ := h
  have hperm : (headersOf (fs.map (Prod.map id l))).Perm ((headersOf fs).map (.relabel l)) := by
    rw [headersOf_relabel]
  rw [List.forall₂_map_left_iff] at hfuncs
  obtain ⟨qs, hqs, hfs⟩ := funcs_unlabel hperm hfuncs
  obtain ⟨qbody, hq, hc⟩ := hbody.unlabel hperm
  rw [headersOf_relabel, distinct_relabel] at hdistinct
  refine ⟨⟨qs, qbody⟩, ⟨hdistinct, hqs, Γ, hq⟩, ?_⟩
  rw [Checked.Program.rename, hfs, hc]

/-- Functions may be reordered with their labels. -/
theorem Labelled.perm {q : Checked.Program} (h : Labelled fs body q) (hperm : fs.Perm fs') :
    ∃ qs, qs.Perm q.funcs ∧ Labelled fs' body ⟨qs, q.body⟩ := by
  obtain ⟨hdistinct, hfuncs, Γ, hbody⟩ := h
  have hheaders : (headersOf fs).Perm (headersOf fs') := hperm.map _
  have hid : (headersOf fs).Perm ((headersOf fs').map (.relabel id)) := by
    rwa [Header.relabel_id, List.map_id]
  have hwritten : ∀ f ∈ headersOf fs, ∀ t ∈ f.params, t.Written := by
    rw [headersOf, List.forall_mem_map]
    exact fun f _ => Header.written_of f.1 f.2
  obtain ⟨qs', hqs', hperm'⟩ := List.perm_comp_forall₂ hperm.symm hfuncs
  obtain ⟨qs, hqs, hsame⟩ := funcs_unlabel hid hqs'
  obtain ⟨qbody, hq, hc⟩ := hbody.unlabel hid
  rw [funext Checked.Func.rename_id, List.map_id'] at hsame
  rw [Stmt.rename_id] at hc
  subst hsame hc
  exact ⟨qs, hperm', hdistinct.perm hheaders hwritten, hqs, Γ, hq⟩

end Typing

end WaccArm
