import WaccArm.Emission.Program
import WaccArm.Proofs.Emission.Routines
import WaccArm.Proofs.Emission.Statement

namespace WaccArm

theorem Frame.length_params (types : List Ty) : (Frame.params types).length = types.length := by
  suffices h : ∀ above, (Frame.paramsFrom above types).length = types.length from h 4
  induction types with
  | nil => exact fun _ => rfl
  | cons type types ih => exact fun above => congrArg (· + 1) (ih _)

namespace Emission

open Emit (Makes)

/-- A label and the code under it, from the line after the one that saves the link register. -/
structure Procedure where
  label : String
  body : List Item

def Procedure.code (p : Procedure) : Code :=
  .label p.label :: .instr (.push [.lr]) :: Item.code p.body

/-- The code of a body, which is a block at the entry point with an ending behind it. -/
inductive BodyEmitted (s : Checked.Stmt) (slots : Chain Slot) (ending : List Instr) (em : Emitter) :
    List Item → Emitter → Prop
  | block {items inner em'}
    (h : StmtEmitted s (Context.inside { slots } (blockSize s)) em items inner em') :
    BodyEmitted s slots ending em
      (blockItems { slots } (blockSize s) items inner ++ Item.instrs ending ++ [.line .literalPool]) em'

inductive FuncsEmitted : List Checked.Func → Emitter → List Procedure → Emitter → Prop
  | nil {em} : FuncsEmitted [] em [] em
  | cons {em f fs body em₁ others em₂}
    (hbody : BodyEmitted f.body (paramSlots f.params) [.pop [.pc]]
      (em.record (.function f.label f.params.length (blockSize f.body))) body em₁)
    (hothers : FuncsEmitted fs em₁ others em₂) :
    FuncsEmitted (f :: fs) em (⟨f.label, body⟩ :: others) em₂

/-- The procedures of a program, those of its functions first. -/
inductive ProgramEmitted (p : Checked.Program) (em : Emitter) : List Procedure → Emitter → Prop
  | mk {funcs em₁ body em₂} (hfuncs : FuncsEmitted p.funcs em funcs em₁)
    (hmain : BodyEmitted p.body [] [.ldr .r0 (.literal 0), .pop [.pc]]
      (em₁.record (.main (blockSize p.body))) body em₂) :
    ProgramEmitted p em (funcs ++ [⟨"main", body⟩]) em₂

theorem BodyEmitted.grows {s : Checked.Stmt} {slots : Chain Slot} {ending : List Instr}
    {em em' : Emitter} {body : List Item} (h : BodyEmitted s slots ending em body em') :
    em.Grows em' := by
  cases h with
  | block h => exact h.grows

/-- Each function goes on from the state that the one before it leaves. -/
theorem FuncsEmitted.grows {fs : List Checked.Func} {em em' : Emitter} {procedures : List Procedure}
    (h : FuncsEmitted fs em procedures em') : em.Grows em' := by
  induction h with
  | nil => exact .refl _
  | cons hbody _ ih => exact ((Emitter.grows_record _ _).trans hbody.grows).trans ih

theorem ProgramEmitted.grows {p : Checked.Program} {em em' : Emitter} {procedures : List Procedure}
    (h : ProgramEmitted p em procedures em') : em.Grows em' := by
  cases h with
  | mk hfuncs hmain => exact (hfuncs.grows.trans (Emitter.grows_record _ _)).trans hmain.grows

/-- The parameters of a function have slots, and nothing else has one. -/
theorem binds_paramSlots (params : List Checked.Param) (name : String) :
    Context.Binds { slots := paramSlots params } name ↔ name ∈ params.map Checked.Param.name := by
  have hbound : ∀ (bound : List (Checked.Param × Slot)) (slots : Chain Slot),
      Context.Binds { slots := bound.foldl (fun slots x => slots.bind x.1.name x.2) slots }
        name ↔ name ∈ bound.map (·.1.name) ∨ Context.Binds { slots } name := by
    intro bound
    induction bound with
    | nil => simp
    | cons first bound ih =>
      intro slots
      rw [List.foldl_cons, ih, Context.binds_bind, List.map_cons, List.mem_cons, or_left_comm, or_assoc]
  have hlength : params.length ≤ (Frame.params (params.map Checked.Param.type)).length :=
    Nat.le_of_eq (by rw [Frame.length_params, List.length_map])
  have hnames := congrArg (List.map Checked.Param.name) (List.map_fst_zip hlength)
  rw [List.map_map] at hnames
  have hnone : ¬ Context.Binds { slots := Chain.enter [] } name := nofun
  refine (hbound _ _).trans ?_
  rw [or_iff_left hnone, ← hnames]
  rfl

theorem record_makes {faulty : String → Prop} (event : Event) (em : Emitter) :
    Makes faulty (Emit.record event) em fun _ em' => em' = em.record event :=
  .ok rfl rfl

/-- The code of a body is that of its block and the way out. -/
theorem body_makes {s : Checked.Stmt} {slots : Chain Slot} {em : Emitter} (ending : List Instr) :
    Makes (Context.Misses { slots } s.freeNames) (block (blockSize s) (stmt s) { slots }) em
      fun code em' => ∃ body, Item.code body = code ++ Code.ofInstrs ending ++ [.literalPool] ∧
        BodyEmitted s slots ending em body em' := by
  refine (block_makes (stmt_makes s _ em)).imp (fun _ h => h) ?_
  rintro code em' ⟨items, inner, hitems, h⟩
  exact ⟨_, by simp [hitems], .block h⟩

/-- A variable of a function that is used where it is not known. -/
def Unknown (f : Checked.Func) (name : String) : Prop :=
  name ∈ f.body.freeNames ∧ name ∉ f.params.map Checked.Param.name

/-- The code of a function fails only for a name without a slot. -/
theorem func_makes (f : Checked.Func) (em : Emitter) :
    Makes (Unknown f) (func f) em fun code em' => ∃ body, Procedure.code ⟨f.label, body⟩ = code ∧
      BodyEmitted f.body (paramSlots f.params) [.pop [.pc]]
        (em.record (.function f.label f.params.length (blockSize f.body))) body em' := by
  refine (record_makes _ em).bind ?_
  rintro _ _ rfl
  refine Makes.bind (Makes.imp (body_makes [.pop [.pc]]) (fun name hname => ?_) fun _ _ h => h) ?_
  · exact ⟨hname.1, mt (binds_paramSlots _ _).2 hname.2⟩
  · rintro code em' ⟨body, hbody, hemitted⟩
    exact .pure ⟨body, by simp [Procedure.code, hbody], hemitted⟩

/-- The code of functions is that of one after the other. -/
theorem funcs_makes (fs : List Checked.Func) (em : Emitter) :
    Makes (fun name => ∃ f ∈ fs, Unknown f name) (funcs fs) em fun code em' =>
      ∃ procedures, (procedures.map Procedure.code).flatten = code ∧
        FuncsEmitted fs em procedures em' := by
  induction fs generalizing em with
  | nil => exact .pure ⟨[], rfl, .nil⟩
  | cons f fs ih =>
    rw [funcs]
    refine Makes.bind (Makes.imp (func_makes f em) ?_ fun _ _ h => h) ?_
    · exact fun name hname => ⟨f, List.mem_cons_self .., hname⟩
    rintro code em₁ ⟨body, hcode, hemitted⟩
    refine Makes.bind (Makes.imp (ih em₁) ?_ fun _ _ h => h) ?_
    · exact fun name ⟨f', hmem, hname⟩ => ⟨f', List.mem_cons_of_mem _ hmem, hname⟩
    · rintro codes em₂ ⟨procedures, hcodes, hothers⟩
      exact .pure ⟨⟨f.label, body⟩ :: procedures, by simp [hcode, hcodes], .cons hemitted hothers⟩

/-- Code is made for every program, unless a variable is used where it is not known. -/
theorem program_makes (p : Checked.Program) (em : Emitter) :
    Makes (fun name => (∃ f ∈ p.funcs, Unknown f name) ∨ name ∈ p.body.freeNames) (program p) em
      fun code em' => ∃ procedures, (procedures.map Procedure.code).flatten = code ∧
        ProgramEmitted p em procedures em' := by
  rw [program]
  refine Makes.bind ((funcs_makes p.funcs em).imp (fun _ => .inl) fun _ _ h => h) ?_
  rintro code em₁ ⟨procedures, hcode, hfuncs⟩
  have hmain : Makes (fun name => (∃ f ∈ p.funcs, Unknown f name) ∨ name ∈ p.body.freeNames)
      (main p.body) em₁ fun code em' => ∃ body, Procedure.code ⟨"main", body⟩ = code ∧
        BodyEmitted p.body [] [.ldr .r0 (.literal 0), .pop [.pc]]
          (em₁.record (.main (blockSize p.body))) body em' := by
    refine (record_makes _ em₁).bind ?_
    rintro _ _ rfl
    refine Makes.bind (Makes.imp (body_makes [.ldr .r0 (.literal 0), .pop [.pc]])
      (fun name hname => .inr hname.1) fun _ _ h => h) ?_
    rintro code em' ⟨body, hbody, hemitted⟩
    exact .pure ⟨body, by simp [Procedure.code, hbody], hemitted⟩
  refine hmain.bind fun code' em₂ ⟨body, hcode', hemitted⟩ => ?_
  exact .pure ⟨procedures ++ [⟨"main", body⟩], by simp [hcode, hcode'], .mk hfuncs hemitted⟩

end Emission

/-- A file is made if code is made for the program and no label is missing. -/
theorem generate_eq_ok {p : Checked.Program} {file : Assembly} :
    generate p = .ok file ↔ ∃ code em, Emission.program p {} = .ok (code, em) ∧
      (em.extend code).emitRoutines.file = file ∧ file.unresolved = [] := by
  have hrun : (Emission.program p).run {} = Emission.program p {} := rfl
  rw [generate, generateLogged, hrun]
  cases h : Emission.program p {} with
  | error fault => simp [bind, Except.bind, Except.map]
  | ok result =>
    obtain ⟨code, em⟩ := result
    have hiff : (∃ code' em', (.ok (code, em) : Except EmitFault (Code × Emitter)) = .ok (code', em') ∧
        (em'.extend code').emitRoutines.file = file ∧ file.unresolved = []) ↔
        (em.extend code).emitRoutines.file = file ∧ file.unresolved = [] := by
      refine ⟨?_, fun h => ⟨code, em, rfl, h⟩⟩
      rintro ⟨_, _, ⟨⟩, h⟩
      exact h
    rw [hiff]
    simp only [bind, Except.bind]
    split
    · rename_i hempty
      simp only [pure, Except.pure, Except.map, Except.ok.injEq]
      refine ⟨fun h => ⟨h, ?_⟩, And.left⟩
      rw [← h]
      exact List.isEmpty_iff.1 hempty
    · rename_i hsome
      refine ⟨nofun, ?_⟩
      rintro ⟨rfl, hnone⟩
      exact absurd (List.isEmpty_iff.2 hnone) hsome

namespace Emission

/-- The file for a program whose code was made. -/
def fileOf (procedures : List Procedure) (em : Emitter) : Emitter :=
  (em.extend (procedures.map Procedure.code).flatten).emitRoutines

/-- The file has the procedures and then the routines. -/
theorem ProgramEmitted.code_fileOf {p : Checked.Program} {em : Emitter} {procedures : List Procedure}
    (h : ProgramEmitted p {} procedures em) :
    (fileOf procedures em).file.code = (procedures.map Procedure.code).flatten ++
      em.routines.flatMap (·.code (fileOf procedures em).labelOf) := by
  have hempty : em.file.code = [] := h.grows.code
  have hextend : (em.extend (procedures.map Procedure.code).flatten).file.code =
      (procedures.map Procedure.code).flatten := by
    rw [Emitter.extend, Assembly.extend, hempty, List.nil_append]
  have hcode := (Emitter.foldl_emitRoutine em.routines
    (em.extend (procedures.map Procedure.code).flatten)).1
  rw [hextend] at hcode
  exact hcode

end Emission

/-- A file that is generated is the one for the procedures of the program. -/
theorem generate_fileOf {p : Checked.Program} {file : Assembly} (hok : generate p = .ok file) :
    ∃ procedures em, Emission.ProgramEmitted p {} procedures em ∧
      (Emission.fileOf procedures em).file = file := by
  obtain ⟨code, em, hprogram, rfl, -⟩ := generate_eq_ok.1 hok
  cases Emission.program_makes p {} with
  | unbound _ hfail =>
    rw [hfail] at hprogram
    cases hprogram
  | ok hmade htraced =>
    rw [hmade] at hprogram
    cases hprogram
    obtain ⟨procedures, rfl, hemitted⟩ := htraced
    exact ⟨procedures, em, hemitted, rfl⟩

/-- A file that is generated has the procedures of the program, and then the routines. -/
theorem generate_code {p : Checked.Program} {file : Assembly} (hok : generate p = .ok file) :
    ∃ procedures em labelOf, Emission.ProgramEmitted p {} procedures em ∧
      file.code = (procedures.map Emission.Procedure.code).flatten ++
        em.routines.flatMap (·.code labelOf) := by
  obtain ⟨procedures, em, hemitted, rfl⟩ := generate_fileOf hok
  exact ⟨procedures, em, _, hemitted, hemitted.code_fileOf⟩

end WaccArm
