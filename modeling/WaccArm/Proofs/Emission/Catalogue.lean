import Mathlib.Logic.Relation
import WaccArm.Proofs.Emission.Unique

namespace WaccArm

namespace Instr

/-- If the instruction branches, it has a target among the given ones, and the addresses that it loads are
among the given ones. -/
def Needs (targets addresses : String → Prop) (i : Instr) : Prop :=
  (i.opcode = .b ∨ i.opcode = .bl → ∃ name, i.target? = some name ∧ targets name) ∧
    ∀ name, .address name ∈ i.operands → addresses name

variable {targets addresses : String → Prop}

@[simp] theorem needs_when {i : Instr} {cond : Cond} :
    (i.when cond).Needs targets addresses ↔ i.Needs targets addresses := Iff.rfl

/-- A call needs its target. -/
@[simp] theorem needs_bl {name : String} : (bl name).Needs targets addresses ↔ targets name := by
  simp [Needs, bl, target?]

@[simp] theorem needs_b {name : String} : (b name).Needs targets addresses ↔ targets name := by
  simp [Needs, b, target?]

/-- A load can need the address of a constant. -/
@[simp] theorem needs_ldr {dst : Register} {source : Operand} :
    (ldr dst source).Needs targets addresses ↔ ∀ name, source = .address name → addresses name := by
  simp [Needs, ldr, eq_comm]

@[simp] theorem needs_mov {dst : Register} {source : Operand} :
    (mov dst source).Needs targets addresses ↔ ∀ name, source = .address name → addresses name := by
  simp [Needs, mov, eq_comm]

@[simp] theorem needs_movReg {dst src : Register} : (movReg dst src).Needs targets addresses := by
  simp [movReg]

@[simp] theorem needs_cmp {left : Register} {right : Operand} :
    (cmp left right).Needs targets addresses ↔ ∀ name, right = .address name → addresses name := by
  simp [Needs, cmp, eq_comm]

@[simp] theorem needs_add {dst left : Register} {value : Int} :
    (binary .add dst left (.imm value)).Needs targets addresses := by
  simp [Needs, binary]

@[simp] theorem needs_push {rs : List Register} : (push rs).Needs targets addresses := by
  simp [Needs, push]

@[simp] theorem needs_pop {rs : List Register} : (pop rs).Needs targets addresses := by
  simp [Needs, pop]

end Instr

namespace Routine

/-- The routine with the given label. -/
def ofLabel? (name : String) : Option Routine := all.find? (·.label == name)

/-- The routines that the body of a routine branches to, one for each branch. -/
def callees (labelOf : String → String) (r : Routine) : List Routine :=
  (r.body labelOf).filterMap fun i => i.target?.bind ofLabel?

/-- The body of the first routine has a branch to the second one. -/
def Branches (labelOf : String → String) (r q : Routine) : Prop :=
  ∃ i ∈ r.body labelOf, i.target? = some q.label

variable {labelOf : String → String} {r q : Routine} {used : List Routine}

/-- Routines have distinct labels. -/
theorem ofLabel?_eq_some {name : String} : ofLabel? name = some r ↔ name = r.label := by
  constructor
  · intro h
    have hlabel := List.find?_some h
    exact (beq_iff_eq.1 hlabel).symm
  · rintro rfl
    cases r <;> decide

/-- Branches to a label and the routines they lead to are the same. -/
theorem branches_iff : Branches labelOf r q ↔ q ∈ r.callees labelOf := by
  simp only [Branches, callees, List.mem_filterMap, Option.bind_eq_some_iff, ofLabel?_eq_some]
  simp

/-- A routine branches to no other routine, or to one, once or more often, and the table says so. -/
theorem callees_cases (labelOf : String → String) (r : Routine) :
    r.callees labelOf = [] ∧ r.dependencies = [] ∨
      ∃ q n, r.callees labelOf = List.replicate (n + 1) q ∧ r.dependencies = [q] := by
  cases r with
  | printInt | printBool | printChar | printString | printReference | printLn | readInt | readChar =>
    exact .inl ⟨rfl, rfl⟩
  | throwRuntimeError => exact .inr ⟨printString, 0, rfl, rfl⟩
  | checkArrayBounds => exact .inr ⟨throwRuntimeError, 1, rfl, rfl⟩
  | checkDivideByZero | checkNullPointer | throwOverflowError | freePair | freeArray =>
    exact .inr ⟨throwRuntimeError, 0, rfl, rfl⟩

/-- The table names the routines that the body of a routine branches to. -/
theorem mem_dependencies : q ∈ r.dependencies ↔ Branches labelOf r q := by
  rw [branches_iff]
  rcases callees_cases labelOf r with ⟨hcallees, hnone⟩ | ⟨p, n, hcallees, hdependencies⟩
  · simp [hcallees, hnone]
  · simp [hcallees, hdependencies]

/-- The rows of the table lead where branches lead. -/
theorem leads_iff (labelOf : String → String) : Leads r q ↔ Relation.ReflTransGen (Branches labelOf) r q := by
  have hrows : (fun r q => q ∈ r.dependencies) = Branches labelOf := by
    funext r q
    exact propext mem_dependencies
  rw [Leads, hrows]

/-- Asking again changes nothing. -/
theorem foldl_require_replicate (n : Nat) (q : Routine) (used : List Routine) :
    (List.replicate (n + 1) q).foldl require used = q.require used := by
  induction n with
  | zero => rfl
  | succ n ih =>
    rw [List.replicate_succ', List.foldl_append, ih]
    exact require_of_mem (mem_require_self used q)

/-- Asking for a routine follows the branches of its body, past what was asked for before. -/
theorem require_eq_walk (used : List Routine) (labelOf : String → String) (r : Routine) :
    r.require used = if r ∈ used then used else (r.callees labelOf).foldl require (used ++ [r]) := by
  rw [require_eq]
  rcases callees_cases labelOf r with ⟨hcallees, hnone⟩ | ⟨q, n, hcallees, hdependencies⟩
  · rw [hcallees, hnone]
  · rw [hcallees, hdependencies, foldl_require_replicate]
    rfl

section

variable {rs : List Routine}

/-- The routines in use always have what they need. -/
theorem complete_foldl_require (h : Complete used) : Complete (rs.foldl require used) := by
  intro q hq
  rcases (follows_foldl_require used rs).closed q hq with hused | hdeps
  · exact List.Subset.trans (h q hused) (follows_foldl_require used rs).subset
  · exact hdeps

/-- What is in use after asking is what was before, and all that the table leads to from what was asked
for. -/
theorem mem_foldl_require (h : Complete used) :
    q ∈ rs.foldl require used ↔ q ∈ used ∨ ∃ r ∈ rs, Leads r q := by
  have hfollows := follows_foldl_require used rs
  constructor
  · exact hfollows.reached q
  · rintro (hq | ⟨r, hr, hlead⟩)
    · exact hfollows.subset hq
    · exact (complete_foldl_require h).mem_of_leads (hfollows.asked hr) hlead

end

/-- The branches of a body go to routines and out of the file, and the addresses there are those of the
texts of the routine. -/
theorem body_needs (labelOf : String → String) (r : Routine) :
    ∀ i ∈ r.body labelOf, i.Needs (fun name => (∃ q : Routine, name = q.label) ∨ name ∈ externals)
      fun name => ∃ text ∈ r.texts, name = labelOf text := by
  cases r <;> simp [body, printing, reading, guarded, texts, externals]

/-- A branch of a body that stays in the file goes to a routine that the table names. -/
theorem target_known {i : Instr} (hi : i ∈ r.body labelOf) (hbranch : i.opcode = .b ∨ i.opcode = .bl) :
    ∃ name, i.target? = some name ∧ ((∃ q ∈ r.dependencies, name = q.label) ∨ name ∈ externals) := by
  obtain ⟨name, htarget, ⟨q, rfl⟩ | hexternal⟩ := (r.body_needs labelOf i hi).1 hbranch
  · have hbranches : Branches labelOf r q := ⟨i, hi, htarget⟩
    exact ⟨q.label, htarget, .inl ⟨q, mem_dependencies.2 hbranches, rfl⟩⟩
  · exact ⟨name, htarget, .inr hexternal⟩

end Routine

namespace Emitter

/-- What the code of a program asks for while it is made, and what is done to the file in between. -/
inductive Request where
  | require (r : Routine)
  | call (r : Routine)
  | intern (text : String)
  | write (code : Code)

/-- The routine that is asked for. -/
def Request.routine? : Request → Option Routine
  | require r | call r => some r
  | intern _ | write _ => none

/-- The state after a request. The instruction that a call gives is for the caller to write. -/
def serve (em : Emitter) : Request → Emitter
  | .require r => em.require r
  | .call r =>
    match (Emit.call r).run em with
    | .ok (_, em') => em'
    | .error _ => em
  | .intern text => (em.intern text).2
  | .write code => em.extend code

/-- The state after requests, with a file to start from and no routine asked for before. -/
def serveAll (file : Assembly) (requests : List Request) : Emitter := requests.foldl serve { file }

/-- A request asks for at most one routine. -/
theorem routines_serve (em : Emitter) (request : Request) :
    (em.serve request).routines = request.routine?.toList.foldl Routine.require em.routines := by
  cases request with
  | require r => exact em.require_routines r
  | call r => exact em.require_routines r
  | intern text =>
    by_cases h : text ∈ em.file.constants.texts
    · rw [serve, intern_of_mem h]
      rfl
    · exact (intern_of_not_mem h).1
  | write code => rfl

/-- Whatever is done to the file in between, routines come from asking for routines. -/
theorem routines_serveAll (file : Assembly) (requests : List Request) :
    (serveAll file requests).routines =
      (requests.filterMap Request.routine?).foldl Routine.require [] := by
  have hfold : ∀ em : Emitter, (requests.foldl serve em).routines =
      (requests.filterMap Request.routine?).foldl Routine.require em.routines := by
    induction requests with
    | nil => exact fun em => rfl
    | cons request requests ih =>
      intro em
      rw [List.foldl_cons, ih, routines_serve, List.filterMap_cons]
      cases request.routine? <;> rfl
  exact hfold { file }

section

variable {file : Assembly} {requests : List Request}

/-- Whatever is requested, no routine is in use twice. -/
theorem nodup_serveAll : (serveAll file requests).routines.Nodup := by
  rw [routines_serveAll]
  exact (Routine.follows_foldl_require [] _).nodup List.nodup_nil

/-- Whatever is requested, the routines in use have what they need. -/
theorem complete_serveAll : Routine.Complete (serveAll file requests).routines := by
  rw [routines_serveAll]
  exact Routine.complete_foldl_require Routine.complete_nil

end

section

variable (em : Emitter)

/-- The routines are written behind the rest of the file. -/
theorem code_emitRoutines : em.emitRoutines.file.code =
    em.file.code ++ em.routines.flatMap (·.code em.emitRoutines.labelOf) :=
  (foldl_emitRoutine em.routines em).1

/-- The texts of a routine in use are constants of the file. -/
theorem texts_emitRoutines {r : Routine} (hr : r ∈ em.routines) :
    r.texts ⊆ em.emitRoutines.file.constants.texts :=
  (foldl_emitRoutine em.routines em).2.2 r hr

/-- A label that was not defined before is defined once. -/
theorem count_defined_emitRoutines (hnodup : em.routines.Nodup) {r : Routine} (hr : r ∈ em.routines)
    (hnew : r.label ∉ Assembly.defined em.file.code) :
    (Assembly.defined em.emitRoutines.file.code).count r.label = 1 := by
  rw [code_emitRoutines, Assembly.defined_append, Routine.defined_code, List.count_append,
    List.count_eq_zero_of_not_mem hnew, Nat.zero_add]
  exact List.count_eq_one_of_mem (hnodup.map Routine.label_injective) (List.mem_map_of_mem hr)

end

end Emitter

/-- Whatever is asked for, in which order and with which texts and lines in between: no routine is in
use twice; those in use are the ones that were asked for and all that branches of bodies lead to from
there; the table that is followed names the routines that bodies branch to and no others; and asking for
another one walks over the branches of its body. Written at the end of the file, each routine has its
label defined once unless the file defined it before, every branch in its body goes to a routine in use or
out of the file, and every address there is the one of a constant of the file that holds a text of the
routine. -/
theorem catalogue_closed (file : Assembly) (requests : List Emitter.Request) :
    let em := Emitter.serveAll file requests
    let em' := em.emitRoutines
    em.routines.Nodup ∧
    (∀ labelOf q, q ∈ em.routines ↔ ∃ r ∈ requests.filterMap Emitter.Request.routine?,
      Relation.ReflTransGen (Routine.Branches labelOf) r q) ∧
    (∀ labelOf r q, q ∈ r.dependencies ↔ Routine.Branches labelOf r q) ∧
    (∀ labelOf r, (em.require r).routines = if r ∈ em.routines then em.routines
      else (r.callees labelOf).foldl Routine.require (em.routines ++ [r])) ∧
    em'.file.code = em.file.code ++ em.routines.flatMap (·.code em'.labelOf) ∧
    ∀ r ∈ em.routines,
      (r.label ∉ Assembly.defined em.file.code → (Assembly.defined em'.file.code).count r.label = 1) ∧
      ∀ i ∈ r.body em'.labelOf,
        (i.opcode = .b ∨ i.opcode = .bl →
          ∃ name, i.target? = some name ∧ ((∃ q ∈ em.routines, name = q.label) ∨ name ∈ externals)) ∧
        ∀ name, .address name ∈ i.operands →
          name ∈ em'.file.constants.labels ∧ ∃ text ∈ r.texts, name = em'.labelOf text := by
  intro em em'
  have hnodup : em.routines.Nodup := Emitter.nodup_serveAll
  have hcomplete : Routine.Complete em.routines := Emitter.complete_serveAll
  refine ⟨hnodup, ?_, fun labelOf r q => Routine.mem_dependencies, ?_, em.code_emitRoutines, ?_⟩
  · intro labelOf q
    rw [Emitter.routines_serveAll, Routine.mem_foldl_require Routine.complete_nil]
    simp only [Routine.leads_iff labelOf, List.not_mem_nil, false_or]
  · intro labelOf r
    rw [em.require_routines]
    exact Routine.require_eq_walk em.routines labelOf r
  · intro r hr
    refine ⟨em.count_defined_emitRoutines hnodup hr, fun i hi => ⟨fun hbranch => ?_, fun name hname => ?_⟩⟩
    · obtain ⟨name, htarget, ⟨q, hq, rfl⟩ | hexternal⟩ := Routine.target_known hi hbranch
      · exact ⟨q.label, htarget, .inl ⟨q, hcomplete r hr hq, rfl⟩⟩
      · exact ⟨name, htarget, .inr hexternal⟩
    · obtain ⟨text, htext, rfl⟩ := (r.body_needs em'.labelOf i hi).2 name hname
      exact ⟨Emitter.labelOf_mem (em.texts_emitRoutines hr htext), text, htext, rfl⟩

namespace Division

/-- A check for a zero divisor is asked for between two texts. -/
def em : Emitter :=
  Emitter.serveAll {} [.intern "a", .call .checkDivideByZero, .intern "b", .require .printInt]

/-- The instruction of the check that loads its message. -/
def loading : Instr :=
  (Instr.ldr .r0 (.address (em.emitRoutines.labelOf Routine.divideByZeroMessage))).when .eq

end Division

/-- The routine that throws errors comes with the check for a zero divisor and is defined once. It branches
to a routine that is there as well, and the message that the check loads is a constant of the file. -/
theorem division_catalogue_closed :
    .throwRuntimeError ∈ Division.em.routines ∧
      (Assembly.defined Division.em.emitRoutines.file.code).count Routine.throwRuntimeError.label = 1 ∧
      Instr.bl Routine.printString.label ∈ Routine.throwRuntimeError.body Division.em.emitRoutines.labelOf ∧
      (∃ name, (Instr.bl Routine.printString.label).target? = some name ∧
        ((∃ q ∈ Division.em.routines, name = q.label) ∨ name ∈ externals)) ∧
      Division.loading ∈ Routine.checkDivideByZero.body Division.em.emitRoutines.labelOf ∧
      Division.em.emitRoutines.labelOf Routine.divideByZeroMessage ∈
        Division.em.emitRoutines.file.constants.labels := by
  have hthrow : .throwRuntimeError ∈ Division.em.routines := by decide +kernel
  have hcheck : .checkDivideByZero ∈ Division.em.routines := by decide +kernel
  have hnew : Routine.throwRuntimeError.label ∉ Assembly.defined Division.em.file.code := by decide +kernel
  have hbranch : Instr.bl Routine.printString.label ∈
      Routine.throwRuntimeError.body Division.em.emitRoutines.labelOf := List.mem_cons_self ..
  have hload : Division.loading ∈ Routine.checkDivideByZero.body Division.em.emitRoutines.labelOf := by
    simp [Routine.body, Routine.guarded, Division.loading]
  obtain ⟨-, -, -, -, -, hroutines⟩ :=
    catalogue_closed {} [.intern "a", .call .checkDivideByZero, .intern "b", .require .printInt]
  obtain ⟨honce, hthrows⟩ := hroutines _ hthrow
  refine ⟨hthrow, honce hnew, hbranch, (hthrows _ hbranch).1 (.inr rfl), hload, ?_⟩
  exact ((hroutines _ hcheck).2 _ hload |>.2 _ (.tail _ (.head _))).1

end WaccArm
