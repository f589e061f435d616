import WaccArm.Proofs.Emission.Unique
import WaccArm.Proofs.Machine.Linked
import WaccArm.Proofs.Typing.Program

namespace WaccArm

open Assembly (defined)

namespace Emission

/-- The line on which the code of a procedure starts. -/
def startOf (procedures : List Procedure) (i : Nat) : Nat :=
  ((procedures.take i).map Procedure.code).flatten.length

/-- A procedure starts where the one before it ends. -/
theorem startOf_succ {procedures : List Procedure} {i : Nat} {q : Procedure}
    (hq : procedures[i]? = some q) : startOf procedures (i + 1) = startOf procedures i + q.code.length := by
  rw [startOf, startOf, List.take_add_one, hq]
  simp

/-- Procedures start one behind the other. -/
theorem startOf_lt {procedures : List Procedure} {i j : Nat} (hij : i < j)
    (hj : j ≤ procedures.length) : startOf procedures i < startOf procedures j := by
  induction hij with
  | refl =>
    rw [startOf_succ (List.getElem?_eq_getElem (by omega)), Procedure.code]
    simp
  | @step j _ ih =>
    have hlt := ih (by omega)
    rw [startOf_succ (List.getElem?_eq_getElem (by omega))]
    omega

/-- The code of a procedure stands behind that of the procedures before it. -/
theorem code_split {procedures : List Procedure} {i : Nat} {q : Procedure}
    (hq : procedures[i]? = some q) :
    ∃ before after, (procedures.map Procedure.code).flatten = before ++ q.code ++ after ∧
      before.length = startOf procedures i := by
  have hparts := congrArg (fun qs => (qs.map Procedure.code).flatten) (take_append_cons_drop hq)
  refine ⟨_, ((procedures.drop (i + 1)).map Procedure.code).flatten, ?_, rfl⟩
  rw [← hparts, List.map_append, List.flatten_append, List.map_cons, List.flatten_cons,
    List.append_assoc]

/-- Each function has its procedure. -/
theorem FuncsEmitted.procedure {fs : List Checked.Func} {em em' : Emitter}
    {procedures : List Procedure} (h : FuncsEmitted fs em procedures em') {i : Nat} {f : Checked.Func}
    (hf : fs[i]? = some f) : ∃ body em₁ em₂, procedures[i]? = some ⟨f.label, body⟩ ∧
      BodyEmitted f.body (paramSlots f.params) [.pop [.pc]] em₁ body em₂ := by
  induction h generalizing i with
  | nil => simp at hf
  | cons hbody _ ih =>
    cases i with
    | zero =>
      cases hf
      exact ⟨_, _, _, rfl, hbody⟩
    | succ i => exact ih (by simpa using hf)

theorem FuncsEmitted.length_eq {fs : List Checked.Func} {em em' : Emitter}
    {procedures : List Procedure} (h : FuncsEmitted fs em procedures em') :
    procedures.length = fs.length := by
  simpa using congrArg List.length h.labels

/-- The code has each function of a program from a line of its own on. -/
structure Laid (p : Checked.Program) (code : Code) (starts : Nat → Nat) : Prop where
  body : ∀ i f, p.funcs[i]? = some f → ∃ body em em',
    BodyEmitted f.body (paramSlots f.params) [.pop [.pc]] em body em' ∧
      ∃ before after, code = before ++ Procedure.code ⟨f.label, body⟩ ++ after ∧ before.length = starts i
  increasing : ∀ i j, i < j → j < p.funcs.length → starts i < starts j

/-- The procedures stand in the order of the functions. -/
theorem ProgramEmitted.laid {p : Checked.Program} {em : Emitter} {procedures : List Procedure}
    (h : ProgramEmitted p {} procedures em) :
    Laid p (fileOf procedures em).file.code (startOf procedures) := by
  have hcode := h.code_fileOf
  obtain ⟨hfuncs, hmain⟩ := h
  have hlength := hfuncs.length_eq
  refine ⟨fun i f hf => ?_, fun i j hij hj => startOf_lt hij ?_⟩
  · obtain ⟨body, em₁, em₂, hprocedure, hbody⟩ := hfuncs.procedure hf
    have hi : i < p.funcs.length := (List.getElem?_eq_some_iff.1 hf).1
    obtain ⟨before, after, hsplit, hstart⟩ :=
      code_split ((List.getElem?_append_left (by omega)).trans hprocedure)
    rw [hsplit, List.append_assoc] at hcode
    exact ⟨body, em₁, em₂, hbody, before, _, hcode, hstart⟩
  · rw [List.length_append]
    omega

/-- The label of each function leads to its own line exactly if the labels are distinct. -/
theorem Laid.leads_iff {p : Checked.Program} {M : Machine} {starts : Nat → Nat}
    (h : Laid p M.text starts)
    (hnodup : (p.funcs.map Checked.Func.label).Nodup → (defined M.text).Nodup) :
    (∀ i f, p.funcs[i]? = some f → M.line? f.label = some (starts i)) ↔
      (p.funcs.map Checked.Func.label).Nodup := by
  constructor
  · intro hleads
    rw [List.nodup_iff_getElem?_ne_getElem?]
    intro i j hij hj heq
    rw [List.length_map] at hj
    have hi : i < p.funcs.length := by omega
    rw [List.getElem?_map, List.getElem?_map, List.getElem?_eq_getElem hi, List.getElem?_eq_getElem hj,
      Option.map_some, Option.map_some, Option.some.injEq] at heq
    have hfirst := hleads i _ (List.getElem?_eq_getElem hi)
    have hsecond := hleads j _ (List.getElem?_eq_getElem hj)
    rw [heq, hsecond, Option.some.injEq] at hfirst
    have hlt := h.increasing i j hij hj
    omega
  · intro hlabels i f hf
    obtain ⟨body, -, -, -, before, after, hcode, hstart⟩ := h.body i f hf
    refine Machine.line?_of_nodup (hnodup hlabels) ?_
    rw [hcode, ← hstart]
    simp [Procedure.code]

end Emission

/-- The labels of functions start with `f_`. -/
theorem Checker.initials_labels {funcs : List Source.Func} {label : String} (h : label ∈ labels funcs) :
    initials label = ['f', '_'] := by
  obtain ⟨i, hi⟩ := List.mem_iff_getElem?.1 h
  have hlt : i < funcs.length := by
    rw [← length_labels funcs]
    exact (List.getElem?_eq_some_iff.1 hi).1
  rw [getElem?_labels (List.getElem?_eq_getElem hlt), Option.some.injEq] at hi
  rw [← hi]
  split
  · exact initials_function _
  · exact initials_function _

namespace Typing

theorem map_label_typed {Φ : List Header} {fs : List (Source.Func × String)} {cs : List Checked.Func}
    (h : List.Forall₂ (fun f cf => FuncTyped Φ f.1 f.2 cf) fs cs) :
    cs.map Checked.Func.label = fs.map Prod.snd := by
  induction h with
  | nil => rfl
  | cons hfirst _ ih =>
    cases hfirst
    rw [List.map_cons, List.map_cons, ih]

/-- The functions of a checked program have the labels that its calls were given. -/
theorem ProgramTyped.labels {p : Source.Program} {c : Checked.Program} (h : ProgramTyped p c) :
    c.funcs.map Checked.Func.label = Checker.labels p.funcs := by
  rw [map_label_typed h.funcs, List.map_snd_zip]
  exact Nat.le_of_eq (Checker.length_labels p.funcs)

/-- A header has the label of its function. -/
theorem map_label_headers (p : Source.Program) :
    (headers p).map Header.label = Checker.labels p.funcs := by
  rw [headers, List.map_map]
  exact List.map_snd_zip (Nat.le_of_eq (Checker.length_labels p.funcs))

/-- A call was resolved to one function of the program, and carries the label of that function. -/
theorem ProgramTyped.chosen {p : Source.Program} {c : Checked.Program} (h : ProgramTyped p c)
    {name : String} {types : List Ty} {f : Header} (hchosen : Chosen (headers p) name types f) :
    ∃ (i : Nat) (cf : Checked.Func), (headers p)[i]? = some f ∧ c.funcs[i]? = some cf ∧ cf.label = f.label := by
  obtain ⟨before, after, hsplit, -, -⟩ := hchosen
  have hheader : (headers p)[before.length]? = some f := by rw [hsplit]; simp
  have hlabel := congrArg (·[before.length]?) (h.labels.trans (map_label_headers p).symm)
  simp only [List.getElem?_map, hheader, Option.map_some] at hlabel
  obtain ⟨cf, hcf, heq⟩ := Option.map_eq_some_iff.1 hlabel
  exact ⟨before.length, cf, hheader, hcf, heq⟩

/-- The file of a checked program defines each label once if the labels of its functions are distinct. -/
theorem ProgramTyped.file {p : Source.Program} {c : Checked.Program} (h : ProgramTyped p c) :
    ∃ file starts, generate c = .ok file ∧ Emission.Laid c file.code starts ∧
      ((defined file.code ++ file.constants.labels).Nodup ↔ (Checker.labels p.funcs).Nodup) := by
  obtain ⟨file, hfile⟩ := generate_of_scoped (Checker.program_scoped (program_eq_ok.2 h))
  obtain ⟨procedures, em, hemitted, rfl⟩ := generate_fileOf hfile
  refine ⟨_, _, hfile, hemitted.laid, ?_⟩
  rw [hemitted.nodup_defined_iff, h.labels]
  intro f hf
  have hmem : f.label ∈ Checker.labels p.funcs := h.labels ▸ List.mem_map_of_mem hf
  exact Checker.initials_labels hmem

end Typing

/-- The labels of a checked program are unique, and its calls reach the functions they were resolved to,
exactly if no names clash. -/
theorem calls_reach_own_code_iff {p : Source.Program} {checked : Checked.Program}
    (hok : check p = .ok checked) :
    ((Checker.labels p.funcs).Nodup ↔ ¬ Checker.Clash p.funcs) ∧
      ∃ file starts, generate checked = .ok file ∧ Emission.Laid checked file.code starts ∧
        ((defined file.code ++ file.constants.labels).Nodup ↔ ¬ Checker.Clash p.funcs) ∧
        (∀ M : Machine, M.text = file.code →
          ((∀ i f, checked.funcs[i]? = some f → M.line? f.label = some (starts i)) ↔
            ¬ Checker.Clash p.funcs)) ∧
        ∀ name types f, Typing.Chosen (Typing.headers p) name types f →
          ∃ (i : Nat) (cf : Checked.Func), (Typing.headers p)[i]? = some f ∧
            checked.funcs[i]? = some cf ∧ cf.label = f.label := by
  rw [check] at hok
  obtain ⟨q, hq, hok⟩ := except_bind_eq_ok.1 hok
  obtain ⟨-, -, hok⟩ := except_bind_eq_ok.1 hok
  cases hok
  have htyped := Typing.program_eq_ok.1 hq
  have hclash := Checker.nodup_labels_iff p.funcs
  obtain ⟨file, starts, hfile, hlaid, hnodup⟩ := htyped.file
  refine ⟨hclash, file, starts, hfile, hlaid, hnodup.trans hclash, fun M hM => ?_, ?_⟩
  · rw [← hM] at hlaid
    rw [hlaid.leads_iff, htyped.labels, hclash]
    intro hlabels
    rw [htyped.labels] at hlabels
    rw [hM]
    exact (List.nodup_append.1 (hnodup.2 hlabels)).1
  · exact fun name types f hchosen => htyped.chosen hchosen

/-- The labels of two functions of one name are distinct. -/
theorem overloaded_calls_reach_own_code : ∃ checked file, check Overloaded.program = .ok checked ∧
    generate checked = .ok file ∧ (defined file.code ++ file.constants.labels).Nodup := by
  have hclash : ¬ Checker.Clash Overloaded.program.funcs :=
    (Checker.nodup_labels_iff _).1 (by decide +kernel)
  obtain ⟨checked, hok⟩ := Overloaded.accepted
  obtain ⟨-, file, -, hfile, -, hnodup, -⟩ := calls_reach_own_code_iff hok
  exact ⟨checked, file, hok, hfile, hnodup.2 hclash⟩

namespace Clashing

/-- A function that returns a number. -/
def returning (name : String) (params : List Source.Param) (value : Int32) : Source.Func where
  name := name
  ret := .int
  params := params
  body := .ret .start (.int .start value)
  pos := .start

/-- `int f(int a)`, `int f(char c)`, `int f_0()` and the body `int x = call f_0()` -/
def program : Source.Program where
  funcs := [returning "f" [⟨.int, "a", .start⟩] 1, returning "f" [⟨.char, "c", .start⟩] 2,
    returning "f_0" [] 3]
  body := .declare .start .int "x" (.call .start "f_0" [])

end Clashing

/-- A program that passes the check and whose file defines a label twice. -/
theorem clashing_label_defined_twice : ∃ checked file, check Clashing.program = .ok checked ∧
    Checker.labels Clashing.program.funcs = ["f_f_0", "f_f_1", "f_f_0"] ∧
    generate checked = .ok file ∧ ¬ (defined file.code ++ file.constants.labels).Nodup := by
  have hlabels : Checker.labels Clashing.program.funcs = ["f_f_0", "f_f_1", "f_f_0"] := by decide +kernel
  obtain ⟨checked, hok⟩ := except_eq_ok_of_isOk (x := check Clashing.program) (by decide +kernel)
  have hchecked := hok
  rw [check] at hok
  obtain ⟨q, hq, hok⟩ := except_bind_eq_ok.1 hok
  obtain ⟨-, -, hok⟩ := except_bind_eq_ok.1 hok
  cases hok
  obtain ⟨file, -, hfile, -, hnodup⟩ := (Typing.program_eq_ok.1 hq).file
  refine ⟨checked, file, hchecked, hlabels, hfile, ?_⟩
  rw [hnodup, hlabels]
  decide

end WaccArm
