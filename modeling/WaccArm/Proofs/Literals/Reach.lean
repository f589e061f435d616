import Mathlib.Data.List.TakeWhile
import WaccArm.Proofs.Checker.Scoping
import WaccArm.Proofs.Emission.Unique
import WaccArm.Proofs.Literals.Size
import WaccArm.Proofs.Typing.Program

namespace WaccArm

/-- Whether an instruction loads a word that the assembler puts into a literal pool. -/
def Instr.loadsLiteral (i : Instr) : Bool :=
  i.opcode == .ldr && i.operands.any fun
    | .literal _ | .address _ => true
    | _ => false

def Line.loadsLiteral : Line → Bool
  | .instr i => i.loadsLiteral
  | _ => false

namespace Code

/-- The instructions in front of the next literal pool, or of the end if there is no pool. -/
def untilPool (code : Code) : List Instr := instrs (code.takeWhile (· ≠ .literalPool))

/-- Behind each line that loads a literal there are at most `limit` instructions up to the next literal pool or
the end. -/
def InReach (limit : Nat) (code : Code) : Prop :=
  ∀ before l after, code = before ++ l :: after → l.loadsLiteral → (untilPool after).length ≤ limit

variable {limit : Nat} {code : Code}

theorem inReach_nil : InReach limit [] := by
  intro before l after h
  cases before <;> cases h

/-- Each line that loads a literal has its pool in reach. -/
theorem inReach_cons {l : Line} : InReach limit (l :: code) ↔
    (l.loadsLiteral → (untilPool code).length ≤ limit) ∧ InReach limit code := by
  constructor
  · intro h
    exact ⟨h [] l code rfl, fun before l' after hcode => h (l :: before) l' after (hcode ▸ rfl)⟩
  · rintro ⟨hfirst, hothers⟩ before l' after hcode
    cases before with
    | nil =>
      cases hcode
      exact hfirst
    | cons _ before =>
      cases hcode
      exact hothers before l' after rfl

instance decidableInReach (limit : Nat) : (code : Code) → Decidable (InReach limit code)
  | [] => .isTrue inReach_nil
  | _ :: code =>
    have := decidableInReach limit code
    decidable_of_iff _ inReach_cons.symm

/-- A pool ends the search. -/
theorem untilPool_append_pool (code rest : Code) : untilPool (code ++ .literalPool :: rest) = untilPool code := by
  induction code with
  | nil => rfl
  | cons l code ih => cases l <;> simp_all [untilPool]

/-- A pool divides the text: what is in front of it does not look behind it. -/
theorem inReach_append_pool {rest : Code} :
    InReach limit (code ++ .literalPool :: rest) ↔ InReach limit code ∧ InReach limit rest := by
  induction code with
  | nil => simp [inReach_cons, inReach_nil, Line.loadsLiteral]
  | cons l code ih => rw [List.cons_append, inReach_cons, inReach_cons, untilPool_append_pool, ih, and_assoc]

/-- The pool is no farther than the end. -/
theorem length_untilPool_le (code : Code) : (untilPool code).length ≤ code.instrs.length :=
  ((List.takeWhile_sublist _).filterMap _).length_le

/-- Short code needs no pool. -/
theorem inReach_of_length (h : code.instrs.length ≤ limit + 1) : InReach limit code := by
  rintro before l after rfl hload
  have huntil := length_untilPool_le after
  cases l with
  | instr i =>
    simp only [instrs_append, instrs_cons_instr, List.length_append, List.length_cons] at h
    omega
  | label | literalPool => cases hload

/-- Each instruction that loads a literal has at most `limit` instructions behind it. -/
def NearEnd (limit : Nat) (is : List Instr) : Prop :=
  ∀ before i after, is = before ++ i :: after → i.loadsLiteral → after.length ≤ limit

theorem nearEnd_nil : NearEnd limit [] := by
  intro before i after h
  cases before <;> cases h

theorem nearEnd_cons {i : Instr} {is : List Instr} :
    NearEnd limit (i :: is) ↔ (i.loadsLiteral → is.length ≤ limit) ∧ NearEnd limit is := by
  constructor
  · intro h
    exact ⟨h [] i is rfl, fun before j after his => h (i :: before) j after (his ▸ rfl)⟩
  · rintro ⟨hfirst, hothers⟩ before j after his
    cases before with
    | nil =>
      cases his
      exact hfirst
    | cons j' before =>
      cases his
      exact hothers before j after rfl

theorem untilPool_of_not_mem (h : .literalPool ∉ code) : untilPool code = code.instrs := by
  have hall : ∀ l ∈ code, decide (l ≠ .literalPool) = true := by
    intro l hl
    rw [decide_eq_true_eq]
    rintro rfl
    exact h hl
  rw [untilPool, List.takeWhile_eq_self_iff.2 hall]

/-- Without a pool literals lie at the end. -/
theorem inReach_iff_nearEnd (h : .literalPool ∉ code) : InReach limit code ↔ NearEnd limit code.instrs := by
  induction code with
  | nil => exact iff_of_true inReach_nil nearEnd_nil
  | cons l code ih =>
    obtain ⟨hl, hcode⟩ := not_or.1 (mt List.mem_cons.2 h)
    rw [inReach_cons, ih hcode, untilPool_of_not_mem hcode]
    cases l with
    | label name => simp [Line.loadsLiteral]
    | instr i => rw [instrs_cons_instr, nearEnd_cons, Line.loadsLiteral]
    | literalPool => exact absurd rfl hl

end Code

namespace Emission

theorem Plain.not_mem_pool {known : String → Prop} {items : List Item} (h : Plain known items) :
    .literalPool ∉ Item.code items := by
  intro hmem
  obtain ⟨i, hi, -⟩ := h _ hmem
  cases hi

/-- Expressions have no pool. -/
theorem Emitted.not_mem_pool {part : Part} {ctx : Context} {d : Depth} {em em' : Emitter} {items : List Item}
    (h : Emitted part ctx d em items em') : .literalPool ∉ Item.code items :=
  (h.plain (covered_trivial em') fun _ _ _ _ => trivial).not_mem_pool

theorem Located.not_mem_pool {e : Checked.Expr} {ctx : Context} {d : Depth} {em em' : Emitter}
    {items : List Item} (h : Located e ctx d em items em') : .literalPool ∉ Item.code items :=
  (h.plain (covered_trivial em') fun _ _ _ _ => trivial).not_mem_pool

theorem not_mem_pool_ofInstrs (is : List Instr) : .literalPool ∉ Code.ofInstrs is := by
  simp [Code.ofInstrs]

/-- The code of a statement has no pool. -/
theorem StmtEmitted.not_mem_pool {s : Checked.Stmt} {ctx ctx' : Context} {em em' : Emitter}
    {items : List Item} (h : StmtEmitted s ctx em items ctx' em') : .literalPool ∉ Item.code items := by
  induction h with
  | skip | seqNil => simp
  | declare he | assignVar he | free he | ret he | exit he | print he | println he =>
    simp [he.not_mem_pool, not_mem_pool_ofInstrs]
  | assignPlace _ hsrc hplace => simp [hsrc.not_mem_pool, hplace.not_mem_pool]
  | read hplace => simp [hplace.not_mem_pool]
  | branch hcond _ _ ihy ihn => simp [blockItems, hcond.not_mem_pool, not_mem_pool_ofInstrs, ihy, ihn]
  | loop _ hcond ih => simp [blockItems, hcond.not_mem_pool, not_mem_pool_ofInstrs, ih]
  | scope _ ih => simp [blockItems, not_mem_pool_ofInstrs, ih]
  | seqCons _ _ ih iho => simp [ih, iho]

/-- A procedure with its one pool, which is at its end. -/
def Procedure.Pooled (q : Procedure) : Prop :=
  ∃ body, q.code = body ++ [.literalPool] ∧ .literalPool ∉ body

/-- A procedure has its pool at its end. -/
theorem BodyEmitted.pooled {s : Checked.Stmt} {slots : Chain Slot} {ending : List Instr} {em em' : Emitter}
    {body : List Item} (h : BodyEmitted s slots ending em body em') (label : String) :
    Procedure.Pooled ⟨label, body⟩ := by
  cases h with
  | @block items inner em' h =>
    refine ⟨.label label :: .instr (.push [.lr]) :: Item.code (blockItems { slots } (blockSize s) items inner)
      ++ Code.ofInstrs ending, by simp [Procedure.code], ?_⟩
    simp [blockItems, not_mem_pool_ofInstrs, h.not_mem_pool]

/-- A procedure is as long as its body allows. -/
theorem BodyEmitted.length_le {s : Checked.Stmt} {slots : Chain Slot} {ending : List Instr} {em em' : Emitter}
    {body : List Item} (h : BodyEmitted s slots ending em body em') (hending : ending.length ≤ 2)
    (label : String) : (Procedure.code ⟨label, body⟩).instrs.length ≤ procedureLines s := by
  cases h with
  | block h =>
    have hcount := h.count_blockItems h.count_le
    rw [Context.displacement_inside, count] at hcount
    simp [Procedure.code, procedureLines] at hcount ⊢
    omega

section

variable {em em' : Emitter} {procedures : List Procedure}

theorem FuncsEmitted.pooled {fs : List Checked.Func} (h : FuncsEmitted fs em procedures em') :
    ∀ q ∈ procedures, q.Pooled := by
  induction h with
  | nil => simp
  | cons hbody _ ih => exact List.forall_mem_cons.2 ⟨hbody.pooled _, ih⟩

/-- Every procedure has its pool at its end. -/
theorem ProgramEmitted.pooled {p : Checked.Program} (h : ProgramEmitted p em procedures em') :
    ∀ q ∈ procedures, q.Pooled := by
  cases h with
  | mk hfuncs hmain => exact List.forall_mem_append.2 ⟨hfuncs.pooled, by simpa using hmain.pooled _⟩

theorem FuncsEmitted.length_le {fs : List Checked.Func} {bound : Nat}
    (h : FuncsEmitted fs em procedures em') (hfs : ∀ f ∈ fs, procedureLines f.body ≤ bound) :
    ∀ q ∈ procedures, q.code.instrs.length ≤ bound := by
  induction h with
  | nil => simp
  | cons hbody _ ih =>
    obtain ⟨hf, hothers⟩ := List.forall_mem_cons.1 hfs
    refine List.forall_mem_cons.2 ⟨?_, ih hothers⟩
    exact Nat.le_trans (hbody.length_le (by simp) _) hf

/-- No procedure is longer than its bound. -/
theorem ProgramEmitted.length_le {p : Checked.Program} {bound : Nat} (h : ProgramEmitted p em procedures em')
    (hfuncs : ∀ f ∈ p.funcs, procedureLines f.body ≤ bound) (hbody : procedureLines p.body ≤ bound) :
    ∀ q ∈ procedures, q.code.instrs.length ≤ bound := by
  cases h with
  | mk hemitted hmain =>
    refine List.forall_mem_append.2 ⟨hemitted.length_le hfuncs, ?_⟩
    have hlength := Nat.le_trans (hmain.length_le (by simp) "main") hbody
    simpa using hlength

end

/-- Each procedure takes its literals from its own pool. -/
theorem inReach_flatten {limit : Nat} {procedures : List Procedure} (h : ∀ q ∈ procedures, q.Pooled)
    (rest : Code) : Code.InReach limit ((procedures.map Procedure.code).flatten ++ rest) ↔
      (∀ q ∈ procedures, q.code.InReach limit) ∧ rest.InReach limit := by
  induction procedures with
  | nil => simp
  | cons q procedures ih =>
    obtain ⟨⟨body, hcode, -⟩, hothers⟩ := List.forall_mem_cons.1 h
    have hfirst : q.code.InReach limit ↔ Code.InReach limit body := by
      rw [hcode, Code.inReach_append_pool, and_iff_left Code.inReach_nil]
    rw [List.forall_mem_cons, hfirst, and_assoc, ← ih hothers, List.map_cons, List.flatten_cons, hcode,
      List.append_assoc, List.append_assoc, List.singleton_append, Code.inReach_append_pool]

/-- In a procedure only the instructions behind a load count. -/
theorem Procedure.Pooled.inReach_iff {limit : Nat} {q : Procedure} (h : q.Pooled) :
    q.code.InReach limit ↔ Code.NearEnd limit q.code.instrs := by
  obtain ⟨body, hcode, hpool⟩ := h
  rw [hcode, Code.inReach_append_pool, and_iff_left Code.inReach_nil, Code.inReach_iff_nearEnd hpool]
  simp

end Emission

/-- Routines are short. -/
theorem Routine.length_code_le (r : Routine) (labelOf : String → String) :
    (Code.instrs (r.code labelOf)).length ≤ 9 := by
  cases r <;> simp [code, body, printing, reading, guarded]

/-- All routines together are short. -/
theorem Routine.length_flatMap_le {rs : List Routine} (h : rs.Nodup) (labelOf : String → String) :
    (Code.instrs (rs.flatMap (·.code labelOf))).length ≤ 135 := by
  have hcount : rs.length ≤ 15 := (List.subperm_of_subset h fun r _ => r.mem_all).length_le
  have hlength : (Code.instrs (rs.flatMap (·.code labelOf))).length ≤ 9 * rs.length := by
    clear hcount h
    induction rs with
    | nil => simp
    | cons r rs ih =>
      have hfirst := r.length_code_le labelOf
      rw [List.flatMap_cons, Code.instrs_append, List.length_append, List.length_cons]
      omega
  omega

open Emission

/-- Literals are in reach exactly as far as procedures are short. A file has the procedures of the functions
and the body, each with one pool at its end, and then the routines. Each literal is in reach if in each
procedure no load of a literal has more than 1024 instructions behind it, and only then; bodies for which a
bound of 1025 instructions can be read off are never too long. -/
theorem literals_in_reach_iff {p : Source.Program} {c : Checked.Program} (hok : check p = .ok c) :
    ∃ (file : Assembly) (procedures : List Procedure) (routines : Code), generate c = .ok file ∧
      file.code = (procedures.map Procedure.code).flatten ++ routines ∧
      procedures.map Procedure.label = c.funcs.map Checked.Func.label ++ ["main"] ∧
      (∀ q ∈ procedures, q.Pooled) ∧
      (file.code.InReach 1024 ↔ ∀ q ∈ procedures, Code.NearEnd 1024 q.code.instrs) ∧
      ((∀ f ∈ c.funcs, procedureLines f.body ≤ 1025) → procedureLines c.body ≤ 1025 →
        file.code.InReach 1024) := by
  have hscoped := Checker.program_scoped (Typing.program_eq_ok.2 (Typing.check_eq_ok.1 hok).1)
  obtain ⟨file, hfile⟩ := generate_of_scoped hscoped
  obtain ⟨procedures, em, labelOf, hemitted, hcode⟩ := generate_code hfile
  have hpooled := hemitted.pooled
  have hroutines : Code.InReach 1024 (em.routines.flatMap (·.code labelOf)) := by
    have hnodup : em.routines.Nodup := hemitted.grows.nodup List.nodup_nil
    have hlength := Routine.length_flatMap_le hnodup labelOf
    exact Code.inReach_of_length (by omega)
  have hreach : file.code.InReach 1024 ↔ ∀ q ∈ procedures, q.code.InReach 1024 := by
    rw [hcode, inReach_flatten hpooled, and_iff_left hroutines]
  refine ⟨file, procedures, _, hfile, hcode, ?_, hpooled, ?_, fun hfuncs hbody => ?_⟩
  · cases hemitted with
    | mk hfuncs hmain => rw [List.map_append, hfuncs.labels]; rfl
  · exact hreach.trans (forall₂_congr fun q hq => (hpooled q hq).inReach_iff)
  · rw [hreach]
    intro q hq
    exact Code.inReach_of_length (hemitted.length_le hfuncs hbody q hq)

/-- `exit 305419896; … ; exit 305419896`. The number does not fit an immediate field, so that it has to be
in a pool. -/
def exits (n : Nat) : Source.Program where
  funcs := []
  body := .seq .start (List.replicate n (.exit .start (.int .start 305419896)))

/-- A long body whose literals are just in reach. -/
theorem exits_in_reach : ∃ c file, check (exits 340) = .ok c ∧ generate c = .ok file ∧
    file.code.InReach 1024 := by
  obtain ⟨c, hok, hshort⟩ := except_eq_ok_of_any (x := check (exits 340))
    (p := fun c => c.funcs.isEmpty && procedureLines c.body ≤ 1025) (by decide +kernel)
  obtain ⟨hfuncs, hbody⟩ := Bool.and_eq_true_iff.1 hshort
  obtain ⟨file, procedures, routines, hfile, -, -, -, -, hreach⟩ := literals_in_reach_iff hok
  refine ⟨c, file, hok, hfile, hreach ?_ (of_decide_eq_true hbody)⟩
  simp [List.isEmpty_iff.1 hfuncs]

/-- In a body of 342 exits the first literal is out of reach. -/
theorem distant_literal : ∃ c file, check (exits 342) = .ok c ∧ generate c = .ok file ∧
    ¬ file.code.InReach 1024 := by
  have hfar : (check (exits 342)).toOption.any (fun c =>
      (generate c).toOption.any fun file => !decide (file.code.InReach 1024)) = true := by
    decide +kernel
  obtain ⟨c, hok, hfar⟩ := except_eq_ok_of_any hfar
  obtain ⟨file, hfile, hfar⟩ := except_eq_ok_of_any hfar
  exact ⟨c, file, hok, hfile, by simpa using hfar⟩

end WaccArm
