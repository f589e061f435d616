import Mathlib.Data.List.Perm.Basic
import WaccArm.Proofs.Checker.Labels
import WaccArm.Proofs.Emission.Success

namespace WaccArm

namespace Assembly

@[simp] theorem defined_nil : defined [] = [] := rfl

@[simp] theorem defined_append (code code' : Code) : defined (code ++ code') = defined code ++ defined code' :=
  List.filterMap_append

@[simp] theorem defined_cons_label (name : String) (code : Code) :
    defined (.label name :: code) = name :: defined code := rfl

@[simp] theorem defined_cons_instr (i : Instr) (code : Code) : defined (.instr i :: code) = defined code := rfl

@[simp] theorem defined_cons_literalPool (code : Code) : defined (.literalPool :: code) = defined code := rfl

/-- Instructions define no labels. -/
@[simp] theorem defined_ofInstrs (is : List Instr) : defined (Code.ofInstrs is) = [] := by
  induction is with
  | nil => rfl
  | cons i is ih => exact ih

end Assembly

@[simp] theorem Emitter.fresh_fst (em : Emitter) : em.fresh.1 = freshLabel em.file.labels := rfl

@[simp] theorem Emitter.labels_fresh (em : Emitter) : em.fresh.2.file.labels = em.file.labels + 1 := rfl

open Assembly (defined)

namespace Emission

/-- Labels that were made on demand, with numbers from `low` on and below `high`, each of them once. -/
structure Numbered (low high : Nat) (names : List String) : Prop where
  nodup : names.Nodup
  number : ∀ name ∈ names, ∃ k, low ≤ k ∧ k < high ∧ name = freshLabel k

section

variable {low mid high : Nat} {names names' : List String}

theorem Numbered.nil : Numbered low high [] := ⟨List.nodup_nil, nofun⟩

/-- Labels may be counted among more. -/
theorem Numbered.mono {low' high' : Nat} (h : Numbered low high names) (hlow : low' ≤ low)
    (hhigh : high ≤ high') : Numbered low' high' names := by
  refine ⟨h.nodup, fun name hname => ?_⟩
  obtain ⟨k, hlo, hhi, rfl⟩ := h.number name hname
  exact ⟨k, Nat.le_trans hlow hlo, Nat.lt_of_lt_of_le hhi hhigh, rfl⟩

/-- The order of labels does not matter. -/
theorem Numbered.perm (h : Numbered low high names) (hperm : names'.Perm names) :
    Numbered low high names' :=
  ⟨hperm.nodup_iff.2 h.nodup, fun name hname => h.number name (hperm.mem_iff.1 hname)⟩

/-- Labels that were made later are different. -/
theorem Numbered.append (h : Numbered low mid names) (h' : Numbered mid high names')
    (hlow : low ≤ mid) (hhigh : mid ≤ high) : Numbered low high (names ++ names') := by
  refine ⟨List.nodup_append.2 ⟨h.nodup, h'.nodup, fun name hname name' hname' heq => ?_⟩, ?_⟩
  · obtain ⟨j, -, hj, rfl⟩ := h.number name hname
    obtain ⟨k, hk, -, rfl⟩ := h'.number name' hname'
    have hjk : j = k := freshLabel_injective heq
    omega
  · have hleft := (h.mono (Nat.le_refl low) hhigh).number
    have hright := (h'.mono hlow (Nat.le_refl high)).number
    exact List.forall_mem_append.2 ⟨hleft, hright⟩

/-- A fresh label comes before those given out later. -/
theorem Numbered.cons (h : Numbered (low + 1) high names) (hlow : low < high) :
    Numbered low high (freshLabel low :: names) := by
  have hfirst : Numbered low (low + 1) [freshLabel low] := by
    refine ⟨List.nodup_singleton _, List.forall_mem_singleton.2 ?_⟩
    exact ⟨low, Nat.le_refl low, Nat.lt_succ_self low, rfl⟩
  exact hfirst.append h (Nat.le_succ low) hlow

end

/-- Code without jumps defines no labels. -/
theorem Plain.defined_eq {known : String → Prop} {items : List Item} (h : Plain known items) :
    defined (Item.code items) = [] := by
  refine List.filterMap_eq_nil_iff.2 fun l hl => ?_
  obtain ⟨i, rfl, -⟩ := h l hl
  rfl

theorem covered_trivial (em : Emitter) : em.Covered fun _ => True :=
  ⟨fun _ _ => trivial, fun _ _ => trivial, fun _ _ => trivial⟩

/-- The code of an expression defines no label. -/
theorem Emitted.defined_eq {part : Part} {ctx : Context} {d : Depth} {em em' : Emitter}
    {items : List Item} (h : Emitted part ctx d em items em') : defined (Item.code items) = [] :=
  (h.plain (covered_trivial em') fun _ _ _ _ => trivial).defined_eq

theorem Located.defined_eq {e : Checked.Expr} {ctx : Context} {d : Depth} {em em' : Emitter}
    {items : List Item} (h : Located e ctx d em items em') : defined (Item.code items) = [] :=
  (h.plain (covered_trivial em') fun _ _ _ _ => trivial).defined_eq

/-- The steps of a block define no labels. -/
@[simp] theorem defined_blockItems (ctx inner : Context) (size : Nat) (items : List Item) :
    defined (Item.code (blockItems ctx size items inner)) = defined (Item.code items) := by
  simp [blockItems]

/-- The code of a statement defines the labels that were made for it. -/
theorem StmtEmitted.numbered {s : Checked.Stmt} {ctx ctx' : Context} {em em' : Emitter}
    {items : List Item} (h : StmtEmitted s ctx em items ctx' em') :
    Numbered em.file.labels em'.file.labels (defined (Item.code items)) := by
  induction h with
  | skip | seqNil => exact .nil
  | declare he | assignVar he | free he | ret he | exit he | print he | println he =>
    simpa [he.defined_eq] using Numbered.nil
  | assignPlace _ hsrc hplace => simpa [hsrc.defined_eq, hplace.defined_eq] using Numbered.nil
  | read hplace => simpa [hplace.defined_eq] using Numbered.nil
  | @branch ctx em _ _ _ _ _ em₁ yitems _ em₂ nitems _ em₃ hcond hyes hno ihy ihn =>
    have hlow : em.file.labels + 1 + 1 ≤ em₁.file.labels := hcond.grows.labels
    have hmid : em₁.file.labels ≤ em₂.file.labels := hyes.grows.labels
    have hhigh : em₂.file.labels ≤ em₃.file.labels := hno.grows.labels
    have hboth := (ihy.append ihn hmid hhigh).mono hlow (Nat.le_refl _)
    have hall := (hboth.cons (by omega)).cons (by omega)
    refine hall.perm ?_
    have hdefined : (defined (Item.code yitems) ++ freshLabel em.file.labels ::
        (defined (Item.code nitems) ++ [freshLabel (em.file.labels + 1)])).Perm
          (freshLabel em.file.labels :: freshLabel (em.file.labels + 1) ::
            (defined (Item.code yitems) ++ defined (Item.code nitems))) := by
      refine List.perm_middle.trans (List.Perm.cons _ ?_)
      rw [← List.append_assoc]
      exact List.perm_append_singleton _ _
    simpa [hcond.defined_eq] using hdefined
  | @loop ctx em _ _ _ items _ em₁ _ em₂ hbody hcond ih =>
    have hmid : em.file.labels + 1 + 1 ≤ em₁.file.labels := hbody.grows.labels
    have hhigh : em₁.file.labels ≤ em₂.file.labels := hcond.grows.labels
    have hbelow := ih.mono (Nat.le_refl (em.file.labels + 1 + 1)) hhigh
    have hall := (hbelow.cons (by omega)).cons (by omega)
    refine hall.perm ?_
    have hdefined : (freshLabel (em.file.labels + 1) ::
        (defined (Item.code items) ++ [freshLabel em.file.labels])).Perm
          (freshLabel em.file.labels :: freshLabel (em.file.labels + 1) :: defined (Item.code items)) :=
      (List.Perm.cons _ (List.perm_append_singleton _ _)).trans (List.Perm.swap _ _ _)
    simpa [hcond.defined_eq] using hdefined
  | scope _ ih =>
    rw [Context.code_mark, defined_blockItems]
    exact ih
  | seqCons hfirst hothers ih iho =>
    rw [Item.code_append, Assembly.defined_append]
    exact ih.append iho hfirst.grows.labels hothers.grows.labels

/-- A procedure defines the labels given out for its body. -/
theorem BodyEmitted.numbered {s : Checked.Stmt} {slots : Chain Slot} {ending : List Instr}
    {em em' : Emitter} {body : List Item} (h : BodyEmitted s slots ending em body em') :
    Numbered em.file.labels em'.file.labels (defined (Item.code body)) := by
  cases h with
  | block h => simpa using h.numbered

theorem defined_procedure (q : Procedure) : defined q.code = q.label :: defined (Item.code q.body) := rfl

/-- The procedures of functions define their own labels and those that were made for their bodies. -/
theorem FuncsEmitted.defined_perm {fs : List Checked.Func} {em em' : Emitter}
    {procedures : List Procedure} (h : FuncsEmitted fs em procedures em') :
    ∃ names, Numbered em.file.labels em'.file.labels names ∧
      (defined (procedures.map Procedure.code).flatten).Perm (fs.map Checked.Func.label ++ names) := by
  induction h with
  | nil => exact ⟨[], .nil, List.Perm.refl _⟩
  | @cons em f fs body em₁ others em₂ hbody hothers ih =>
    obtain ⟨names, hnames, hperm⟩ := ih
    refine ⟨defined (Item.code body) ++ names, ?_, ?_⟩
    · exact hbody.numbered.append hnames hbody.grows.labels hothers.grows.labels
    · rw [List.map_cons, List.flatten_cons, Assembly.defined_append, defined_procedure, List.map_cons,
        List.cons_append, List.cons_append]
      refine List.Perm.cons _ ((List.Perm.append_left _ hperm).trans ?_)
      rw [← List.append_assoc, ← List.append_assoc]
      exact List.Perm.append_right _ List.perm_append_comm

/-- Procedures define their own labels and those that were given out. -/
theorem ProgramEmitted.defined_perm {p : Checked.Program} {em em' : Emitter}
    {procedures : List Procedure} (h : ProgramEmitted p em procedures em') :
    ∃ names, Numbered em.file.labels em'.file.labels names ∧
      (defined (procedures.map Procedure.code).flatten).Perm
        (p.funcs.map Checked.Func.label ++ "main" :: names) := by
  cases h with
  | @mk funcs em₁ body em₂ hfuncs hmain =>
    obtain ⟨names, hnames, hperm⟩ := hfuncs.defined_perm
    refine ⟨names ++ defined (Item.code body), ?_, ?_⟩
    · exact hnames.append hmain.numbered hfuncs.grows.labels hmain.grows.labels
    · rw [List.map_append, List.flatten_append, Assembly.defined_append]
      refine (List.Perm.append_right _ hperm).trans ?_
      simp only [List.map_cons, List.map_nil, List.flatten_cons, List.flatten_nil, List.append_nil,
        defined_procedure, List.append_assoc]
      exact List.Perm.append_left _ List.perm_middle

end Emission

/-- Routines have distinct labels. -/
theorem Routine.label_injective : Function.Injective Routine.label := by
  have hall : ∀ r : Routine, r ∈ all := by
    intro r
    cases r <;> decide
  have hnodup : (all.map label).Nodup := by decide
  exact fun r q h => List.inj_on_of_nodup_map hnodup (hall r) (hall q) h

theorem Routine.defined_code (labelOf : String → String) (rs : List Routine) :
    defined (rs.flatMap (·.code labelOf)) = rs.map label := by
  induction rs with
  | nil => rfl
  | cons r rs ih =>
    rw [List.flatMap_cons, Assembly.defined_append, ih]
    simp [code]

/-- Constants have distinct labels. -/
theorem Constants.nodup_labels (c : Constants) : c.labels.Nodup := by
  rw [labels_eq]
  refine List.Nodup.map (fun j k h => ?_) List.nodup_range
  exact toString_injective ((String.append_right_inj "msg_").1 h)

/-- The first two letters of a label, which tell the kinds of labels apart. -/
def initials (label : String) : List Char := label.toList.take 2

theorem initials_function (name : String) : initials ("f_" ++ name) = ['f', '_'] := by
  simp [initials]

theorem initials_freshLabel (k : Nat) : ∃ rest, initials (freshLabel k) = 'L' :: rest := by
  simp [initials, freshLabel]

theorem initials_routine (r : Routine) : initials r.label = ['p', '_'] := by
  cases r <;> rfl

theorem initials_constant {c : Constants} {name : String} (h : name ∈ c.labels) :
    initials name = ['m', 's'] := by
  rw [Constants.labels_eq] at h
  obtain ⟨k, -, rfl⟩ := List.mem_map.1 h
  simp [initials, Constants.labelAt]

/-- Labels of different kinds are different. -/
theorem nodup_append_of_initials {names names' : List String}
    (h : ∀ name ∈ names, ∀ name' ∈ names', initials name ≠ initials name') :
    (names ++ names').Nodup ↔ names.Nodup ∧ names'.Nodup := by
  rw [List.nodup_append]
  refine ⟨fun ⟨hleft, hright, _⟩ => ⟨hleft, hright⟩, fun ⟨hleft, hright⟩ => ⟨hleft, hright, ?_⟩⟩
  intro name hname name' hname' heq
  exact h name hname name' hname' (congrArg initials heq)

namespace Emission

/-- The labels of the file but for those of functions. -/
def otherLabels (names : List String) (routines : List Routine) (c : Constants) : List String :=
  "main" :: (names ++ (routines.map Routine.label ++ c.labels))

section

variable {low high : Nat} {names : List String} {routines : List Routine} {c : Constants}

theorem Numbered.initials_eq (h : Numbered low high names) {name : String} (hname : name ∈ names) :
    ∃ rest, initials name = 'L' :: rest := by
  obtain ⟨k, -, -, rfl⟩ := h.number name hname
  exact initials_freshLabel k

/-- The start of a label says of what kind it is. -/
theorem initials_cases (hnames : Numbered low high names) {name : String}
    (hname : name ∈ names ++ (routines.map Routine.label ++ c.labels)) :
    (∃ rest, initials name = 'L' :: rest) ∨ initials name = ['p', '_'] ∨ initials name = ['m', 's'] := by
  rcases List.mem_append.1 hname with hname | hname
  · exact .inl (hnames.initials_eq hname)
  · rcases List.mem_append.1 hname with hname | hname
    · obtain ⟨r, -, rfl⟩ := List.mem_map.1 hname
      exact .inr (.inl (initials_routine r))
    · exact .inr (.inr (initials_constant hname))

/-- Labels of different kinds are distinct. -/
theorem nodup_otherLabels (hnames : Numbered low high names) (hroutines : routines.Nodup) :
    (otherLabels names routines c).Nodup := by
  have hconstants : (routines.map Routine.label ++ c.labels).Nodup := by
    refine (nodup_append_of_initials fun name hname name' hname' => ?_).2
      ⟨hroutines.map Routine.label_injective, c.nodup_labels⟩
    obtain ⟨r, -, rfl⟩ := List.mem_map.1 hname
    simp [initials_routine, initials_constant hname']
  have hbelow : (names ++ (routines.map Routine.label ++ c.labels)).Nodup := by
    refine (nodup_append_of_initials fun name hname name' hname' => ?_).2 ⟨hnames.nodup, hconstants⟩
    obtain ⟨rest, hrest⟩ := hnames.initials_eq hname
    rcases List.mem_append.1 hname' with hname' | hname'
    · obtain ⟨r, -, rfl⟩ := List.mem_map.1 hname'
      simp [hrest, initials_routine]
    · simp [hrest, initials_constant hname']
  refine List.nodup_cons.2 ⟨fun hmain => ?_, hbelow⟩
  have hinitials : initials "main" = ['m', 'a'] := rfl
  rcases initials_cases hnames hmain with ⟨rest, h⟩ | h | h <;> simp [hinitials] at h

/-- The labels of functions differ from all others. -/
theorem nodup_append_otherLabels (hnames : Numbered low high names) (hroutines : routines.Nodup)
    {functions : List String} (hfunctions : ∀ name ∈ functions, initials name = ['f', '_']) :
    (functions ++ otherLabels names routines c).Nodup ↔ functions.Nodup := by
  rw [nodup_append_of_initials, and_iff_left (nodup_otherLabels hnames hroutines)]
  intro name hname name' hname'
  rw [hfunctions name hname]
  rcases List.mem_cons.1 hname' with rfl | hname'
  · decide
  · rcases initials_cases hnames hname' with ⟨rest, h⟩ | h | h <;> simp [h]

end

/-- What a file defines: the labels of the functions, and the other ones. -/
theorem ProgramEmitted.file_defined_perm {p : Checked.Program} {em : Emitter}
    {procedures : List Procedure} (h : ProgramEmitted p {} procedures em) :
    ∃ names, Numbered 0 em.file.labels names ∧
      (defined (fileOf procedures em).file.code ++ (fileOf procedures em).file.constants.labels).Perm
        (p.funcs.map Checked.Func.label ++
          otherLabels names em.routines (fileOf procedures em).file.constants) := by
  obtain ⟨names, hnames, hperm⟩ := h.defined_perm
  refine ⟨names, hnames, ?_⟩
  rw [h.code_fileOf, Assembly.defined_append, Routine.defined_code, List.append_assoc]
  refine (List.Perm.append_right _ hperm).trans ?_
  rw [otherLabels, List.append_assoc, List.cons_append]

/-- Every label of a file is defined once if no two functions have one label. -/
theorem ProgramEmitted.nodup_defined_iff {p : Checked.Program} {em : Emitter}
    {procedures : List Procedure} (h : ProgramEmitted p {} procedures em)
    (hlabels : ∀ f ∈ p.funcs, initials f.label = ['f', '_']) :
    (defined (fileOf procedures em).file.code ++ (fileOf procedures em).file.constants.labels).Nodup ↔
      (p.funcs.map Checked.Func.label).Nodup := by
  obtain ⟨names, hnames, hperm⟩ := h.file_defined_perm
  have hroutines : em.routines.Nodup := h.grows.nodup List.nodup_nil
  rw [hperm.nodup_iff, nodup_append_otherLabels hnames hroutines]
  exact List.forall_mem_map.2 hlabels

end Emission

end WaccArm
