import WaccArm.Proofs.Emission.Labels

namespace WaccArm

namespace Assembly

/-- The labels that can be used in a file. -/
def Known (a : Assembly) (name : String) : Prop :=
  name ∈ defined a.code ∨ name ∈ a.constants.labels ∨ name ∈ externals

theorem distinct_eq_nil {names : List String} : distinct names = [] ↔ names = [] := by
  cases names <;> simp [distinct]

/-- Nothing is missing if all that is needed is known. -/
theorem unresolved_eq_nil {a : Assembly} (h : ∀ name ∈ needed a.code, a.Known name) :
    a.unresolved = [] := by
  rw [unresolved, distinct_eq_nil, List.filter_eq_nil_iff]
  intro name hname
  have hmem : name ∈ defined a.code ++ a.constants.labels ++ externals := by
    rw [List.mem_append, List.mem_append, or_assoc]
    exact h name hname
  rw [List.contains_iff_mem.2 hmem]
  nofun

/-- What is needed is needed by an instruction. -/
theorem mem_needed {name : String} {code : Code} :
    name ∈ needed code ↔ ∃ i, .instr i ∈ code ∧ i.needs? = some name := by
  rw [needed, List.mem_filterMap]
  constructor
  · rintro ⟨_ | i | _, hmem, hneeds⟩
    · cases hneeds
    · exact ⟨i, hmem, hneeds⟩
    · cases hneeds
  · exact fun ⟨i, hmem, hneeds⟩ => ⟨.instr i, hmem, hneeds⟩

theorem needed_append (code code' : Code) : needed (code ++ code') = needed code ++ needed code' :=
  List.filterMap_append

end Assembly

/-- A routine needs those that it leads to, its own texts, and names from outside the file. -/
theorem Routine.needed_code (r : Routine) (labelOf : String → String) :
    ∀ name ∈ Assembly.needed (r.code labelOf), name ∈ externals ∨
      (∃ q ∈ r.dependencies, name = q.label) ∨ ∃ text ∈ r.texts, name = labelOf text := by
  cases r <;> simp [Assembly.needed, code, body, printing, reading, guarded, Code.ofInstrs, Instr.needs?,
    Instr.target?, Instr.push, Instr.pop, Instr.bl, Instr.b, Instr.ldr, Instr.movReg, Instr.mov, Instr.cmp,
    Instr.binary, Instr.when, dependencies, texts, externals]

namespace Emission

/-- Every variable of a program is used where it is known, and every function that is called is one of
the program. -/
structure Scoped (p : Checked.Program) : Prop where
  params : ∀ f ∈ p.funcs, ∀ name ∈ f.body.freeNames, name ∈ f.params.map Checked.Param.name
  closed : ∀ name, name ∉ p.body.freeNames
  calls : ∀ f ∈ p.funcs, Expr.CallsKnown (· ∈ p.funcs.map Checked.Func.label) f.body.exprs
  mainCalls : Expr.CallsKnown (· ∈ p.funcs.map Checked.Func.label) p.body.exprs

/-- Procedures have the labels of their functions. -/
theorem FuncsEmitted.labels {fs : List Checked.Func} {em em' : Emitter} {procedures : List Procedure}
    (h : FuncsEmitted fs em procedures em') :
    procedures.map Procedure.label = fs.map Checked.Func.label := by
  induction h with
  | nil => rfl
  | cons _ _ ih => exact congrArg (_ :: ·) ih

/-- What a procedure needs is known if its code is closed. -/
theorem needed_procedure {q : Procedure} {known : String → Prop} {labels : List String}
    (h : Closed known labels q.body) (hlabels : ∀ name ∈ labels, known name) :
    ∀ name ∈ Assembly.needed q.code, known name := by
  intro name hname
  obtain ⟨i, hi, hneeds⟩ := Assembly.mem_needed.1 hname
  simp only [Procedure.code, List.mem_cons, Line.instr.injEq, reduceCtorEq, false_or] at hi
  rcases hi with rfl | hi
  · cases hneeds
  · rcases h i hi with hserved | ⟨other, cond, rfl, hother⟩
    · exact hserved.2 name hneeds
    · cases hneeds
      exact hlabels _ hother

/-- Functions need labels of their own and what is known. -/
theorem FuncsEmitted.closed {fs : List Checked.Func} {em em' : Emitter} {procedures : List Procedure}
    {known : String → Prop} (h : FuncsEmitted fs em procedures em') (hcovered : em'.Covered known)
    (hcalls : ∀ f ∈ fs, Expr.CallsKnown known f.body.exprs) :
    ∀ q ∈ procedures, Closed known (Assembly.defined (Item.code q.body)) q.body := by
  induction h with
  | nil => exact nofun
  | cons hbody hothers ih =>
    rw [List.forall_mem_cons] at hcalls ⊢
    refine ⟨hbody.closed (hcovered.of_grows hothers.grows) hcalls.1 ?_, ih hcovered hcalls.2⟩
    exact List.forall_mem_singleton.2 Instr.served_pop

/-- All procedures need labels of their own and what is known. -/
theorem ProgramEmitted.closed {p : Checked.Program} {em em' : Emitter} {procedures : List Procedure}
    {known : String → Prop} (h : ProgramEmitted p em procedures em') (hcovered : em'.Covered known)
    (hcalls : ∀ f ∈ p.funcs, Expr.CallsKnown known f.body.exprs)
    (hmainCalls : Expr.CallsKnown known p.body.exprs) :
    ∀ q ∈ procedures, Closed known (Assembly.defined (Item.code q.body)) q.body := by
  obtain ⟨hfuncs, hmain⟩ := h
  have hcovered' := (hcovered.of_grows hmain.grows).of_grows (Emitter.grows_record _ _)
  rw [List.forall_mem_append, List.forall_mem_singleton]
  refine ⟨hfuncs.closed hcovered' hcalls, hmain.closed hcovered hmainCalls ?_⟩
  simp [Instr.served_ldr, Instr.served_pop]

section

variable {p : Checked.Program} {em : Emitter} {procedures : List Procedure}

/-- The file defines what the code of the program asked for. -/
theorem ProgramEmitted.covered (h : ProgramEmitted p {} procedures em) :
    em.Covered (fileOf procedures em).file.Known where
  externals name hname := .inr (.inr hname)
  routines r hr := by
    refine .inl (Assembly.mem_defined.2 ?_)
    rw [h.code_fileOf]
    exact List.mem_append_right _ (List.mem_flatMap.2 ⟨r, hr, List.mem_cons_self ..⟩)
  constants name hname := by
    have htexts := (Emitter.foldl_emitRoutine em.routines
      (em.extend (procedures.map Procedure.code).flatten)).2.1
    exact .inr (.inl (Constants.labels_subset htexts hname))

/-- The file defines the labels that stand in its procedures. -/
theorem ProgramEmitted.known_of_mem (h : ProgramEmitted p {} procedures em) {q : Procedure}
    (hq : q ∈ procedures) {name : String} (hname : .label name ∈ q.code) :
    (fileOf procedures em).file.Known name := by
  refine .inl (Assembly.mem_defined.2 ?_)
  rw [h.code_fileOf]
  exact List.mem_append_left _ (List.mem_flatten.2 ⟨q.code, List.mem_map_of_mem hq, hname⟩)

/-- The file defines every function. -/
theorem ProgramEmitted.known_label (h : ProgramEmitted p {} procedures em) {label : String}
    (hlabel : label ∈ p.funcs.map Checked.Func.label) : (fileOf procedures em).file.Known label := by
  obtain ⟨q, hq, rfl⟩ : ∃ q ∈ procedures, q.label = label := by
    obtain ⟨hfuncs, hmain⟩ := h
    rw [← hfuncs.labels] at hlabel
    obtain ⟨q, hq, hlabel⟩ := List.mem_map.1 hlabel
    exact ⟨q, List.mem_append_left _ hq, hlabel⟩
  exact h.known_of_mem hq (List.mem_cons_self ..)

/-- The file defines all that it needs. -/
theorem ProgramEmitted.known_needed (h : ProgramEmitted p {} procedures em)
    (hcalls : ∀ f ∈ p.funcs, Expr.CallsKnown (fileOf procedures em).file.Known f.body.exprs)
    (hmainCalls : Expr.CallsKnown (fileOf procedures em).file.Known p.body.exprs) :
    ∀ name ∈ Assembly.needed (fileOf procedures em).file.code,
      (fileOf procedures em).file.Known name := by
  intro name hname
  have hcovered := h.covered
  have hclosed := h.closed hcovered hcalls hmainCalls
  rw [h.code_fileOf, Assembly.needed_append, List.mem_append] at hname
  rcases hname with hname | hname
  · obtain ⟨i, hi, hneeds⟩ := Assembly.mem_needed.1 hname
    obtain ⟨code, hcode, hi⟩ := List.mem_flatten.1 hi
    obtain ⟨q, hq, rfl⟩ := List.mem_map.1 hcode
    refine needed_procedure (hclosed q hq) ?_ name (Assembly.mem_needed.2 ⟨i, hi, hneeds⟩)
    intro other hother
    refine h.known_of_mem hq (List.mem_cons_of_mem _ (List.mem_cons_of_mem _ ?_))
    exact Assembly.mem_defined.1 hother
  · obtain ⟨i, hi, hneeds⟩ := Assembly.mem_needed.1 hname
    obtain ⟨r, hr, hi⟩ := List.mem_flatMap.1 hi
    have hcomplete : Routine.Complete em.routines := h.grows.complete nofun
    have htexts := (Emitter.foldl_emitRoutine em.routines
      (em.extend (procedures.map Procedure.code).flatten)).2.2 r hr
    rcases r.needed_code _ name (Assembly.mem_needed.2 ⟨i, hi, hneeds⟩) with
      hname | ⟨q, hq, rfl⟩ | ⟨text, htext, rfl⟩
    · exact hcovered.externals name hname
    · exact hcovered.routines q (hcomplete r hr hq)
    · exact .inr (.inl (Emitter.labelOf_mem (htexts htext)))

end

end Emission

/-- A file is generated for every program with known names. -/
theorem generate_of_scoped {p : Checked.Program} (h : Emission.Scoped p) :
    ∃ file, generate p = .ok file := by
  cases Emission.program_makes p {} with
  | unbound hname _ =>
    rcases hname with ⟨f, hf, hfree, hparam⟩ | hfree
    · exact absurd (h.params f hf _ hfree) hparam
    · exact absurd hfree (h.closed _)
  | ok hok htraced =>
    obtain ⟨procedures, rfl, hemitted⟩ := htraced
    refine ⟨_, generate_eq_ok.2 ⟨_, _, hok, rfl, Assembly.unresolved_eq_nil ?_⟩⟩
    refine hemitted.known_needed (fun f hf => ?_) ?_
    · exact (h.calls f hf).imp fun _ => hemitted.known_label
    · exact h.mainCalls.imp fun _ => hemitted.known_label

end WaccArm
