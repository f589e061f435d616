import Mathlib.Data.List.Nodup
import WaccArm.Checker.Program
import WaccArm.Proofs.Emission.Run

namespace WaccArm

/-- A list cut in front of and behind one of its members. -/
theorem take_append_cons_drop {α : Type} {l : List α} {i : Nat} {a : α} (h : l[i]? = some a) :
    l.take i ++ a :: l.drop (i + 1) = l := by
  obtain ⟨hi, rfl⟩ := List.getElem?_eq_some_iff.1 h
  rw [← List.drop_eq_getElem_cons hi, List.take_append_drop]

namespace Checker

/-- How many functions have a name. -/
def namesakes (funcs : List Source.Func) (name : String) : Nat := funcs.countP (·.name == name)

/-- A name with a number behind it. -/
def numbered (name : String) (k : Nat) : String := name ++ "_" ++ toString k

/-- Some functions share a name, and the only function of another name is called as one of them is
numbered. -/
def Clash (funcs : List Source.Func) : Prop :=
  ∃ f ∈ funcs, ∃ g ∈ funcs, ∃ k, 1 < namesakes funcs f.name ∧ k < namesakes funcs f.name ∧
    namesakes funcs g.name = 1 ∧ g.name = numbered f.name k

theorem underscore_not_mem_toString (k : Nat) : '_' ∉ (toString k).toList := by
  intro hmem
  rw [Nat.toString_eq_ofList_toDigits, String.toList_ofList] at hmem
  have hdigit := Nat.isDigit_of_mem_toDigits (by decide) (by decide) hmem
  revert hdigit
  decide

/-- Two lists are cut at one place if what follows the cut is free of the sign that marks it. -/
theorem append_cons_inj {α : Type} {sign : α} {as bs cs ds : List α} (hbs : sign ∉ bs) (hds : sign ∉ ds)
    (h : as ++ sign :: bs = cs ++ sign :: ds) : as = cs ∧ bs = ds := by
  rcases List.append_eq_append_iff.1 h with ⟨middle, rfl, hrest⟩ | ⟨middle, rfl, hrest⟩
  · cases middle with
    | nil => simpa using hrest
    | cons first middle =>
      obtain ⟨rfl, rfl⟩ := List.cons.inj hrest
      simp at hbs
  · cases middle with
    | nil => simpa [eq_comm] using hrest
    | cons first middle =>
      obtain ⟨rfl, rfl⟩ := List.cons.inj hrest
      simp at hds

/-- A number and the name before it can be told apart. -/
theorem numbered_inj {a b : String} {j k : Nat} (h : numbered a j = numbered b k) : a = b ∧ j = k := by
  have hlist := congrArg String.toList h
  simp only [numbered, String.toList_append, List.append_assoc] at hlist
  obtain ⟨hname, hnumber⟩ := append_cons_inj (underscore_not_mem_toString j)
    (underscore_not_mem_toString k) hlist
  exact ⟨String.toList_inj.1 hname, toString_injective (String.toList_inj.1 hnumber)⟩

theorem length_labelsFrom (before funcs : List Source.Func) :
    (labelsFrom before funcs).length = funcs.length := by
  induction funcs generalizing before with
  | nil => rfl
  | cons f funcs ih => exact congrArg (· + 1) (ih _)

@[simp] theorem length_labels (funcs : List Source.Func) : (labels funcs).length = funcs.length :=
  length_labelsFrom [] funcs

/-- Each label depends on the functions before and behind its own. -/
theorem getElem?_labelsFrom (before funcs : List Source.Func) (i : Nat) :
    (labelsFrom before funcs)[i]? =
      funcs[i]?.map fun f => label (before ++ funcs.take i) f (funcs.drop (i + 1)) := by
  induction funcs generalizing before i with
  | nil => rfl
  | cons f funcs ih =>
    cases i with
    | zero => simp [labelsFrom]
    | succ i =>
      rw [labelsFrom, List.getElem?_cons_succ, ih]
      simp

/-- Functions of one name stand before a function, at it and behind it. -/
theorem namesakes_split {funcs : List Source.Func} {i : Nat} {f : Source.Func}
    (hf : funcs[i]? = some f) :
    namesakes funcs f.name =
      namesakes (funcs.take i) f.name + 1 + namesakes (funcs.drop (i + 1)) f.name := by
  have hcount := congrArg (namesakes · f.name) (take_append_cons_drop hf)
  simp only [namesakes, List.countP_append, List.countP_cons, beq_self_eq_true, if_true] at hcount ⊢
  omega

/-- A function alone with its name has no number. -/
theorem label_eq (before : List Source.Func) (f : Source.Func) (after : List Source.Func) :
    label before f after = if namesakes before f.name + namesakes after f.name = 0 then "f_" ++ f.name
      else "f_" ++ numbered f.name (namesakes before f.name) := by
  rw [numbered, ← String.append_assoc, ← String.append_assoc]
  rfl

theorem namesakes_map {g : Source.Func → Source.Func} (hg : ∀ f, (g f).name = f.name)
    (funcs : List Source.Func) (name : String) : namesakes (funcs.map g) name = namesakes funcs name := by
  rw [namesakes, namesakes, List.countP_map]
  exact List.countP_congr fun f _ => by rw [Function.comp_apply, hg]

/-- Labels depend on names only. -/
theorem labelsFrom_map {g : Source.Func → Source.Func} (hg : ∀ f, (g f).name = f.name)
    (before funcs : List Source.Func) : labelsFrom (before.map g) (funcs.map g) = labelsFrom before funcs := by
  induction funcs generalizing before with
  | nil => rfl
  | cons f funcs ih =>
    have hothers := ih (before ++ [f])
    rw [List.map_append, List.map_singleton] at hothers
    rw [List.map_cons, labelsFrom, labelsFrom, label_eq, label_eq, namesakes_map hg, namesakes_map hg, hg,
      hothers]

/-- Labels are made of names only. -/
theorem labels_map (g : Source.Func → Source.Func) (hg : ∀ f, (g f).name = f.name)
    (funcs : List Source.Func) : labels (funcs.map g) = labels funcs :=
  labelsFrom_map hg [] funcs

/-- The label of a function by its name, alone or with a number. -/
theorem getElem?_labels {funcs : List Source.Func} {i : Nat} {f : Source.Func}
    (hf : funcs[i]? = some f) :
    (labels funcs)[i]? = some (if namesakes funcs f.name = 1 then "f_" ++ f.name
      else "f_" ++ numbered f.name (namesakes (funcs.take i) f.name)) := by
  have hsplit := namesakes_split hf
  rw [labels, getElem?_labelsFrom, hf, Option.map_some, List.nil_append, label_eq]
  by_cases hone : namesakes funcs f.name = 1
  · rw [if_pos hone, if_pos (by omega)]
  · rw [if_neg hone, if_neg (by omega)]

/-- Functions of one name have different numbers. -/
theorem namesakes_take_lt {funcs : List Source.Func} {i j : Nat} {f : Source.Func}
    (hf : funcs[i]? = some f) (hij : i < j) :
    namesakes (funcs.take i) f.name < namesakes (funcs.take j) f.name := by
  have hf' : (funcs.take j)[i]? = some f := by rw [List.getElem?_take_of_lt hij, hf]
  have hsplit := namesakes_split hf'
  rw [List.take_take, Nat.min_eq_left (Nat.le_of_lt hij)] at hsplit
  omega

/-- A function is not among those before it. -/
theorem namesakes_pos {funcs : List Source.Func} {i : Nat} {f : Source.Func}
    (hf : funcs[i]? = some f) : namesakes (funcs.take i) f.name < namesakes funcs f.name := by
  have hsplit := namesakes_split hf
  omega

/-- Each number below the count of a name is given to a function. -/
theorem exists_numbered {funcs : List Source.Func} {name : String} {k : Nat}
    (hk : k < namesakes funcs name) :
    ∃ (j : Nat) (h : Source.Func),
      funcs[j]? = some h ∧ h.name = name ∧ namesakes (funcs.take j) name = k := by
  induction funcs generalizing k with
  | nil => simp [namesakes] at hk
  | cons f funcs ih =>
    by_cases hname : f.name = name
    · cases k with
      | zero => exact ⟨0, f, rfl, hname, rfl⟩
      | succ k =>
        obtain ⟨j, h, hj, hh, hcount⟩ := @ih k (by simpa [namesakes, hname] using hk)
        refine ⟨j + 1, h, by simpa using hj, hh, ?_⟩
        rw [← hcount]
        simp [namesakes, hname]
    · obtain ⟨j, h, hj, hh, hcount⟩ := @ih k (by simpa [namesakes, hname] using hk)
      refine ⟨j + 1, h, by simpa using hj, hh, ?_⟩
      rw [← hcount]
      simp [namesakes, hname]

/-- Two functions with one label: the only one of its name is called as the other one is numbered. -/
theorem clash_of_getElem?_labels {funcs : List Source.Func} {i j : Nat} {f g : Source.Func}
    (hf : funcs[i]? = some f) (hg : funcs[j]? = some g) (hij : i < j)
    (heq : (labels funcs)[i]? = (labels funcs)[j]?) : Clash funcs := by
  have hfmem := List.mem_of_getElem? hf
  have hgmem := List.mem_of_getElem? hg
  have hflt := namesakes_pos hf
  have hglt := namesakes_pos hg
  rw [getElem?_labels hf, getElem?_labels hg, Option.some.injEq] at heq
  by_cases hfone : namesakes funcs f.name = 1
  · by_cases hgone : namesakes funcs g.name = 1
    · rw [if_pos hfone, if_pos hgone] at heq
      have hname : f.name = g.name := (String.append_right_inj "f_").1 heq
      have hlt := namesakes_take_lt hf hij
      rw [hname] at hlt
      omega
    · rw [if_pos hfone, if_neg hgone] at heq
      have hname := (String.append_right_inj "f_").1 heq
      exact ⟨g, hgmem, f, hfmem, _, by omega, hglt, hfone, hname⟩
  · by_cases hgone : namesakes funcs g.name = 1
    · rw [if_neg hfone, if_pos hgone] at heq
      have hname := (String.append_right_inj "f_").1 heq
      exact ⟨f, hfmem, g, hgmem, _, by omega, hflt, hgone, hname.symm⟩
    · rw [if_neg hfone, if_neg hgone] at heq
      obtain ⟨hname, hnumber⟩ := numbered_inj ((String.append_right_inj "f_").1 heq)
      have hlt := namesakes_take_lt hf hij
      rw [hname] at hlt hnumber
      omega

/-- The labels of functions are distinct exactly if no names clash. -/
theorem nodup_labels_iff (funcs : List Source.Func) : (labels funcs).Nodup ↔ ¬ Clash funcs := by
  constructor
  · rintro hnodup ⟨f, -, g, hg, k, hmany, hk, hone, hname⟩
    obtain ⟨i, hi⟩ := List.mem_iff_getElem?.1 hg
    obtain ⟨j, h, hj, hh, hcount⟩ := exists_numbered hk
    have hlabel : (labels funcs)[i]? = (labels funcs)[j]? := by
      rw [getElem?_labels hi, getElem?_labels hj, if_pos hone, hh, if_neg (by omega), hcount, hname]
    have hlt : i < (labels funcs).length := by
      rw [length_labels]
      exact (List.getElem?_eq_some_iff.1 hi).1
    have hij : i = j := (List.getElem?_inj hlt hnodup).1 hlabel
    -- The two positions are one, but one function shares its name and the other does not.
    rw [hij, hj, Option.some.injEq] at hi
    rw [← hi, hh] at hone
    omega
  · intro hclash
    rw [List.nodup_iff_getElem?_ne_getElem?]
    intro i j hij hj heq
    rw [length_labels] at hj
    have hi := Nat.lt_trans hij hj
    exact hclash (clash_of_getElem?_labels (List.getElem?_eq_getElem hi) (List.getElem?_eq_getElem hj) hij heq)

end Checker

end WaccArm
