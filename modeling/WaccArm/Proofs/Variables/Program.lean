import WaccArm.Proofs.Variables.Agreement

namespace WaccArm

namespace Variables

open Emission Typing

variable {Φ : List Header} {b : Body}

theorem names_ownExprs {c : Checked.Stmt} {e : Checked.Expr} {d : Depth} (hown : (e, d) ∈ ownExprs c) :
    Expr.names e.parts ⊆ c.freeNames := by
  cases c with
  | assign m dst src =>
    simp only [ownExprs, List.mem_cons, List.not_mem_nil, or_false, Prod.mk.injEq] at hown
    rcases hown with ⟨rfl, -⟩ | ⟨rfl, -⟩
    · exact List.subset_append_left _ _
    · exact List.subset_append_right _ _
  | skip | scope | seq => cases hown
  | declare | read | free | ret | exit | print =>
    obtain ⟨rfl, -⟩ := Prod.mk.inj (List.mem_singleton.1 hown)
    exact List.Subset.refl _
  | branch =>
    obtain ⟨rfl, -⟩ := Prod.mk.inj (List.mem_singleton.1 hown)
    exact List.subset_append_left _ _
  | loop =>
    obtain ⟨rfl, -⟩ := Prod.mk.inj (List.mem_singleton.1 hown)
    exact List.subset_append_right _ _

/-- Uses in a statement are resolved and apart. -/
theorem Spot.Agrees.clear {spot : Spot} (h : spot.Agrees Φ b) {scene : Scene}
    (hshows : spot.Shows b.ret scene) : scene.Clear b spot.blocks := by
  have hplaced := h.placed
  have hslots := h.matched.slots
  cases hshows with
  | before =>
    refine ⟨h.matched, ?_, ?_, hplaced.inside, h.reserved⟩
    · intro name huse
      cases huse
    · rw [List.nil_append, ← hslots]
      exact hplaced.packed.apart
  | @during e d m hown hinner =>
    obtain ⟨hmslots, hmblocks, hmpacked⟩ := hplaced.kept (h.room.mono (Nat.zero_le _)) hinner
    have hmatched : Matched b spot.env m.ctx.slots spot.vars := hmslots ▸ h.matched
    refine ⟨hmatched, fun name huse => ?_, ?_, ?_, ?_⟩
    · obtain ⟨Γ, Γ', henv, -⟩ := h.typed
      obtain ⟨part, hpart, hnamed⟩ := Expr.mem_names.1 (Moment.mem_names_of_use huse)
      have hname : name ∈ Expr.names e.parts :=
        Expr.mem_names.2 ⟨part, Moment.parts_of_reached hinner hpart, hnamed⟩
      have hbinds : m.ctx.Binds name := by
        rw [Context.Binds, hmslots]
        exact h.bound name (names_ownExprs hown hname)
      change ∃ v, spot.vars.find? (·.name == name) = some v ∧ _
      simp only [henv] at hmatched ⊢
      exact hmatched.use hbinds
    · rw [hslots] at hmpacked
      exact hmpacked.apart
    · rw [Inside, hmslots, hmblocks]
      exact hplaced.inside
    · rw [hmblocks]
      exact h.reserved
  | after hcheck hemit =>
    obtain ⟨items, hemitted⟩ := stmtEmitted_of_ok hemit
    have hmatched := h.after hcheck hemitted
    have hplaced' := hplaced.stmt hemitted h.room
    refine ⟨hmatched, ?_, ?_, hplaced'.inside, ?_⟩
    · intro name huse
      cases huse
    · rw [List.nil_append, ← hmatched.slots]
      exact hplaced'.packed.apart
    · rw [hemitted.frame, blocks_advance]
      exact h.reserved

/-- A body agrees at its start if its parameters do. -/
theorem agrees_body {Γ Γ' : Scopes} (henv : b.env = env Φ Γ)
    (htyped : StmtTyped Φ b.ret Γ b.source b.checked Γ')
    (hbound : ∀ name ∈ b.checked.freeNames, Context.Binds { slots := b.slots } name)
    (hmatched : Matched b b.env b.slots b.vars) (hparams : ∀ v ∈ b.vars, ∃ i, v.site = .param i)
    (hpacked : Packed (b.vars.map Variable.slot ++ [link]) 0) : b.spot.Agrees Φ b where
  stands := rfl
  typed := ⟨Γ, Γ', henv, htyped⟩
  bound := hbound
  matched := ⟨hmatched.declared, hmatched.sites, hmatched.checker, hmatched.generator, hmatched.size⟩
  fresh v hv path hpath := by
    obtain ⟨i, hi⟩ := hparams v hv
    rw [hi] at hpath
    cases hpath
  placed := by
    rw [← hmatched.slots] at hpacked
    exact placed_body hpacked _
  room := room_inside ..
  reserved := rfl

/-- A variable of a parameter stands where the parameter does. -/
theorem getElem?_of_mem_paramVariablesFrom {i : Nat} {above : Int} {params : List Checked.Param}
    {v : Variable} (hv : v ∈ paramVariablesFrom i above params) :
    ∃ j, v.site = .param (i + j) ∧ params[j]? = some ⟨v.name, v.type⟩ := by
  induction params generalizing i above with
  | nil => cases hv
  | cons param params ih =>
    rcases List.mem_cons.1 hv with rfl | hv
    · exact ⟨0, rfl, rfl⟩
    · obtain ⟨j, hsite, hparam⟩ := ih hv
      refine ⟨j + 1, ?_, hparam⟩
      rw [hsite, Nat.add_assoc, Nat.add_comm 1 j]

/-- Parameters have sites of their own. -/
theorem nodup_paramVariablesFrom (i : Nat) (above : Int) (params : List Checked.Param) :
    ((paramVariablesFrom i above params).map Variable.site).Nodup := by
  induction params generalizing i above with
  | nil => exact .nil
  | cons param params ih =>
    refine List.nodup_cons.2 ⟨fun hmem => ?_, ih ..⟩
    obtain ⟨v, hv, hsite⟩ := List.mem_map.1 hmem
    obtain ⟨j, hj, -⟩ := getElem?_of_mem_paramVariablesFrom hv
    have hindex := Site.param.inj (hsite.symm.trans hj)
    omega

/-- What the checker and code generation know of the parameters of a function. -/
theorem matched_params {f : Source.Func} (hparams : b.params = f.params) :
    Matched b (env Φ [paramVars (typedParams f)]) (paramSlots (typedParams f))
      (paramVariables (typedParams f)) where
  declared v hv := by
    obtain ⟨j, hsite, hparam⟩ := getElem?_of_mem_paramVariablesFrom (List.mem_reverse.1 hv)
    rw [typedParams, List.getElem?_map, Option.map_eq_some_iff] at hparam
    obtain ⟨param, hparam, heq⟩ := hparam
    obtain ⟨hname, htype⟩ := Checked.Param.mk.inj heq
    rw [Variable.DeclaredIn, hsite, hparams, Nat.zero_add]
    exact ⟨param, hparam, hname, htype⟩
  sites := by
    rw [paramVariables, List.map_reverse, List.nodup_reverse]
    exact nodup_paramVariablesFrom ..
  checker := by
    rw [variablesOf_env, List.flatten_singleton, paramVars, paramVariables, List.map_reverse,
      paramVariablesFrom_map]
  generator := flatten_paramSlots _
  size v hv := paramVariablesFrom_size v (List.mem_reverse.1 hv)

section

variable {p : Source.Program} {checked : Checked.Program}

/-- The scope of all functions. -/
theorem globals_of_declareAll {scope : Scope Decl} (h : Checker.declareAll (Checker.signatures p) [] = .ok scope) :
    scope = globals (headers p) := by
  have hglobals := (@declareAll_globals [] _ _ List.Pairwise.nil).1 h
  rw [headers_eq]
  exact hglobals.2

/-- Each function was checked, and its signature is that of the source. -/
theorem typed_of_mem_zip (h : ProgramTyped p checked) {s : Checker.Signature} {cf : Checked.Func}
    (hmem : (s, cf) ∈ (Checker.signatures p).zip checked.funcs) :
    ∃ f label, s = signature f label ∧ FuncTyped (headers p) f label cf := by
  have hfuncs : List.Forall₂ (fun s cf => ∃ f label, s = signature f label ∧ FuncTyped (headers p) f label cf)
      (Checker.signatures p) checked.funcs := by
    rw [signatures_eq, List.forall₂_map_left_iff]
    exact h.funcs.imp fun f cf hf => ⟨f.1, f.2, rfl, hf⟩
  exact List.forall₂_zip hfuncs hmem

theorem declareParams_signature {f : Source.Func} {label : String} {env' : Env} :
    Checker.declareParams (Chain.enter [globals Φ])
        ((signature f label).func.params.zip (signature f label).params) = .ok env' ↔
      (f.params.map Source.Param.name).Nodup ∧ env' = env Φ [paramVars (typedParams f)] := by
  have hzip : f.params.zip (f.params.map fun param => Ty.ofExpr param.type) =
      f.params.map fun param => (param, .ofExpr param.type) := (List.map_prod_left_eq_zip ..).symm
  have hparams := @declareParams_env Φ [] [] f.params env'
  simp only [List.not_mem_nil, not_false_eq_true, implies_true, and_true, List.append_nil] at hparams
  rw [paramVars_typedParams, ← hparams, ← hzip]
  rfl

/-- Both sides agree where a body begins. -/
theorem Begins.agrees {b : Body} (hok : Checker.program p = .ok checked) (h : Begins p checked b) :
    b.spot.Agrees (headers p) b := by
  have htyped := program_eq_ok.1 hok
  have hscoped := Checker.program_scoped hok
  cases h with
  | @func scope start s cf hglobals hfunc hstart =>
    obtain rfl := globals_of_declareAll hglobals
    obtain ⟨f, label, rfl, hf⟩ := typed_of_mem_zip htyped hfunc
    obtain ⟨-, rfl⟩ := declareParams_signature.1 hstart
    have hnames := hscoped.params cf (List.of_mem_zip hfunc).2
    cases hf with
    | mk _ hbody =>
      refine agrees_body rfl hbody ?_ (matched_params rfl) ?_ (packed_params _)
      · intro name hname
        exact (binds_paramSlots _ _).2 (hnames name hname)
      · intro v hv
        obtain ⟨j, hsite, -⟩ := getElem?_of_mem_paramVariablesFrom (List.mem_reverse.1 hv)
        exact ⟨_, hsite⟩
  | main hglobals =>
    obtain rfl := globals_of_declareAll hglobals
    obtain ⟨Γ, hbody⟩ := htyped.body
    refine agrees_body (enter_globals _) hbody ?_ ?_ nofun packed_link
    · intro name hname
      exact absurd hname (hscoped.closed name)
    · refine ⟨nofun, .nil, ?_, rfl, nofun⟩
      rw [enter_globals, variablesOf_env]
      rfl

/-- Every body of an accepted program is walked through. -/
theorem begins_of_program (hok : Checker.program p = .ok checked) :
    (∀ cf ∈ checked.funcs, ∃ b, Begins p checked b ∧ b.checked = cf.body ∧ b.slots = paramSlots cf.params) ∧
      ∃ b, Begins p checked b ∧ b.checked = checked.body ∧ b.slots = [] := by
  have htyped := program_eq_ok.1 hok
  have hglobals : Checker.declareAll (Checker.signatures p) [] = .ok (globals (headers p)) := by
    refine (@declareAll_globals [] _ _ List.Pairwise.nil).2 ?_
    rw [List.nil_append, ← headers_eq]
    exact ⟨htyped.distinct, rfl⟩
  refine ⟨fun cf hcf => ?_, _, .main hglobals, rfl, rfl⟩
  have hlength : checked.funcs.length ≤ (Checker.signatures p).length := by
    rw [signatures_eq, List.length_map]
    exact Nat.le_of_eq htyped.funcs.length_eq.symm
  rw [← List.map_snd_zip hlength] at hcf
  obtain ⟨⟨s, cf⟩, hmem, rfl⟩ := List.mem_map.1 hcf
  obtain ⟨f, label, rfl, hf⟩ := typed_of_mem_zip htyped hmem
  cases hf with
  | mk hnodup hbody =>
    exact ⟨_, .func hglobals hmem (declareParams_signature.2 ⟨hnodup, rfl⟩), rfl, rfl⟩

end

/-- At the end of a block its declarations have taken all that was reserved for it. -/
theorem reserved_taken {c : Checked.Stmt} {ctx inner : Context} {em em' : Emitter} {code : Code}
    (h : stmt c (ctx.inside (blockSize c)) em = .ok ((code, inner), em')) :
    inner.frame.blocks = ⟨ctx.frame.displacement, blockSize c, blockSize c⟩ :: ctx.frame.blocks := by
  obtain ⟨items, hemitted⟩ := stmtEmitted_of_ok h
  rw [hemitted.frame]
  change ({ start := _, size := _, used := 0 + blockSize c } : Block) :: _ = _
  rw [Nat.zero_add]

end Variables

open Variables in
/-- Wherever code is made for an accepted program, the checker and code generation know the same
declarations, a name is the same variable for both, and no two slots overlap each other, the saved link
register or what waits on the stack. A block gives out exactly the bytes that it has reserved. -/
theorem variables_resolved_and_apart {p : Source.Program} {checked : Checked.Program}
    (hok : check p = .ok checked) :
    ((∀ cf ∈ checked.funcs, ∃ b, Begins p checked b ∧ b.checked = cf.body ∧
        b.slots = Emission.paramSlots cf.params) ∧
      ∃ b, Begins p checked b ∧ b.checked = checked.body ∧ b.slots = []) ∧
    (∀ b, Begins p checked b → ∀ spot, Relation.ReflTransGen (Spot.Inner b.ret) b.spot spot →
      spot.Visited b.ret ∧ ∀ scene, spot.Shows b.ret scene → scene.Clear b spot.blocks) ∧
    ∀ (c : Checked.Stmt) (ctx inner : Emission.Context) (em em' : Emitter) (code : Code),
      Emission.stmt c (ctx.inside (blockSize c)) em = .ok ((code, inner), em') →
      inner.frame.blocks = ⟨ctx.frame.displacement, blockSize c, blockSize c⟩ :: ctx.frame.blocks := by
  rw [check] at hok
  obtain ⟨q, hq, hok⟩ := except_bind_eq_ok.1 hok
  obtain ⟨-, -, hok⟩ := except_bind_eq_ok.1 hok
  cases hok
  refine ⟨begins_of_program hq, fun b hb spot hreached => ?_, fun c ctx inner em em' code => reserved_taken⟩
  have hagrees := Spot.agrees_of_reached hreached (hb.agrees hq)
  exact ⟨hagrees.visited, fun scene hshows => hagrees.clear hshows⟩

open Variables in
theorem overloaded_variables_apart : ∃ checked, check Overloaded.program = .ok checked ∧
    ∃ b, Begins Overloaded.program checked b ∧ b.checked = checked.body ∧
      ∀ spot, Relation.ReflTransGen (Spot.Inner b.ret) b.spot spot →
        spot.Visited b.ret ∧ ∀ scene, spot.Shows b.ret scene → scene.Clear b spot.blocks := by
  obtain ⟨checked, hok⟩ := Overloaded.accepted
  obtain ⟨⟨-, b, hbegins, hbody, -⟩, hclear, -⟩ := variables_resolved_and_apart hok
  exact ⟨checked, hok, b, hbegins, hbody, hclear b hbegins⟩

end WaccArm
