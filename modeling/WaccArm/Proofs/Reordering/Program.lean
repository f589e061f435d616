import WaccArm.Proofs.Reordering.Labelling

namespace WaccArm

/-- `c'` is `c` with other labels, and with its functions in any order. -/
def Checked.Program.Relabels (l : String → String) (c c' : Checked.Program) : Prop :=
  c'.body = c.body.rename id l ∧ c'.funcs.Perm (c.funcs.map (.rename id l))

/-- The functions of a program have labels of their own, and its calls carry these labels. -/
structure Checked.Program.Resolved (q : Checked.Program) : Prop where
  distinct : (q.funcs.map Checked.Func.label).Nodup
  known : ∀ e, Typing.Occurs q e → ∀ label, e.callee? = some label → label ∈ q.funcs.map Checked.Func.label

theorem Checker.Clash.perm {funcs funcs' : List Source.Func} (h : Clash funcs) (hperm : funcs.Perm funcs') :
    Clash funcs' := by
  obtain ⟨f, hf, g, hg, k, hmany, hk, hone, hname⟩ := h
  have hcount : ∀ name, namesakes funcs name = namesakes funcs' name := fun name => hperm.countP_eq _
  rw [hcount] at hmany hk hone
  exact ⟨f, hperm.subset hf, g, hperm.subset hg, k, hmany, hk, hone, hname⟩

/-- The order does not decide whether functions return. -/
theorem checkTermination_eq_ok {p : Source.Program} :
    p.checkTermination = .ok () ↔ ∀ f ∈ p.funcs, f.body.terminates := by
  rw [Source.Program.checkTermination]
  constructor
  · intro h
    split at h
    · cases h
    · rename_i hnone
      simpa using List.find?_eq_none.1 hnone
  · intro h
    rw [List.find?_eq_none.2 (by simpa using h)]

/-- Names that are all different can be mapped to any others, one by one. -/
theorem exists_map_eq {names others : List String} (hnodup : names.Nodup)
    (hlength : names.length = others.length) : ∃ l : String → String, names.map l = others := by
  induction names generalizing others with
  | nil =>
    rw [List.length_nil, eq_comm, List.length_eq_zero_iff] at hlength
    exact ⟨id, hlength.symm⟩
  | cons name names ih =>
    obtain ⟨hnew, hnodup⟩ := List.nodup_cons.1 hnodup
    cases others with
    | nil => cases hlength
    | cons other others =>
      obtain ⟨l, rfl⟩ := ih hnodup (Nat.succ.inj hlength)
      refine ⟨Function.update l name other, ?_⟩
      rw [List.map_cons, Function.update_self, List.map_congr_left fun x hx => ?_]
      rw [Function.update_of_ne]
      rintro rfl
      exact hnew hx

/-- A reordering of what members are mapped to comes from one of the members. -/
theorem exists_perm_of_map {α β : Type} {f : α → β} {xs : List α} {ys : List β} (hperm : (xs.map f).Perm ys) :
    ∃ xs', xs.Perm xs' ∧ xs'.map f = ys := by
  have hmap : List.Forall₂ (fun y x => y = f x) (xs.map f) xs :=
    List.forall₂_map_left_iff.2 (List.forall₂_same.2 fun _ _ => rfl)
  obtain ⟨xs', hxs', hback⟩ := List.perm_comp_forall₂ hperm.symm hmap
  rw [← List.forall₂_map_right_iff, List.forall₂_eq_eq_eq] at hxs'
  exact ⟨xs', hback.symm, hxs'.symm⟩

namespace Typing

/-- The labels that functions get in one order, put in for those that stand beside them. -/
theorem map_eq_zip {fs : List (Source.Func × String)} {l : String → String} {funcs : List Source.Func}
    (hfuncs : fs.map Prod.fst = funcs) (hlabels : (fs.map Prod.snd).map l = Checker.labels funcs) :
    fs.map (Prod.map id l) = funcs.zip (Checker.labels funcs) := by
  rw [← hlabels, ← hfuncs, List.map_map, List.zip_map']
  rfl

variable {p : Source.Program} {funcs : List Source.Func} {c : Checked.Program}

/-- The functions and names that stand beside them, in both orders. -/
theorem exists_beside (hfuncs : p.funcs.Perm funcs) {names : List String} (hnodup : names.Nodup)
    (hlength : p.funcs.length = names.length) :
    ∃ fs fs' : List (Source.Func × String), fs.Perm fs' ∧ fs.map Prod.fst = p.funcs ∧
      fs.map Prod.snd = names ∧ fs'.map Prod.fst = funcs ∧ (fs'.map Prod.snd).Nodup ∧
      (fs'.map Prod.snd).length = (Checker.labels funcs).length := by
  have hfst : (p.funcs.zip names).map Prod.fst = p.funcs := List.map_fst_zip (Nat.le_of_eq hlength)
  have hsnd : (p.funcs.zip names).map Prod.snd = names := List.map_snd_zip (Nat.le_of_eq hlength.symm)
  rw [← hfst] at hfuncs
  obtain ⟨fs', hperm, rfl⟩ := exists_perm_of_map hfuncs
  refine ⟨_, fs', hperm, hfst, hsnd, rfl, ?_, ?_⟩
  · rw [← (hperm.map Prod.snd).nodup_iff, hsnd]
    exact hnodup
  · rw [Checker.length_labels, List.length_map, List.length_map]

/-- A program that is accepted is accepted with its functions in another order, and the checked program is
the same but for the labels. -/
theorem check_reordered (hfuncs : p.funcs.Perm funcs) {fs fs' : List (Source.Func × String)}
    (hperm : fs.Perm fs') {l l' : String → String}
    (hfs : fs.map (Prod.map id l) = p.funcs.zip (Checker.labels p.funcs))
    (hfs' : fs'.map (Prod.map id l') = funcs.zip (Checker.labels funcs)) (h : check p = .ok c) :
    ∃ q c', Labelled fs p.body q ∧ q.rename id l = c ∧ check { p with funcs } = .ok c' ∧ q.Relabels l' c' := by
  obtain ⟨htyped, hends⟩ := check_eq_ok.1 h
  rw [programTyped_iff, ← hfs] at htyped
  obtain ⟨q, hq, hc⟩ := htyped.unlabel
  obtain ⟨qs, hqs, hreordered⟩ := hq.perm hperm
  have htyped' := hreordered.relabel l'
  rw [hfs'] at htyped'
  have hends' : ({ p with funcs } : Source.Program).checkTermination = .ok () := by
    rw [checkTermination_eq_ok] at hends ⊢
    exact fun f hf => hends f (hfuncs.symm.subset hf)
  exact ⟨q, _, hq, hc, check_eq_ok.2 ⟨programTyped_iff.2 htyped', hends'⟩, rfl, hqs.map _⟩

/-- Both orders come from one program whose functions have labels of their own. -/
theorem exists_common (hfuncs : p.funcs.Perm funcs) (h : check p = .ok c) :
    ∃ (q : Checked.Program) (l l' : String → String) (c' : Checked.Program),
      q.Resolved ∧ q.Relabels l c ∧ check { p with funcs } = .ok c' ∧ q.Relabels l' c' := by
  have hnodup : ((List.range p.funcs.length).map (toString : Nat → String)).Nodup :=
    List.nodup_range.map toString_injective
  obtain ⟨fs, fs', hperm, hfst, hsnd, hfst', hnodup', hlength'⟩ := exists_beside hfuncs hnodup (by simp)
  have hlength : (fs.map Prod.snd).length = (Checker.labels p.funcs).length := by
    rw [Checker.length_labels, ← hfst, List.length_map, List.length_map]
  rw [← hsnd] at hnodup
  obtain ⟨l, hl⟩ := exists_map_eq hnodup hlength
  obtain ⟨l', hl'⟩ := exists_map_eq hnodup' hlength'
  obtain ⟨q, c', hq, rfl, hc', hrelabels⟩ :=
    check_reordered hfuncs hperm (map_eq_zip hfst hl) (map_eq_zip hfst' hl') h
  rw [← map_label_typed hq.funcs] at hnodup
  have hresolved : q.Resolved := ⟨hnodup, fun e he label hlabel => hq.known he hlabel⟩
  exact ⟨q, l, l', c', hresolved, ⟨rfl, .refl _⟩, hc', hrelabels⟩

/-- If no names clash, one order is the other one with its labels renamed. -/
theorem exists_relabelling (hfuncs : p.funcs.Perm funcs) (hclash : ¬ Checker.Clash p.funcs)
    (h : check p = .ok c) :
    ∃ (σ : Equiv.Perm String) (c' : Checked.Program), check { p with funcs } = .ok c' ∧ c.Relabels σ c' := by
  have hnodup := (Checker.nodup_labels_iff p.funcs).2 hclash
  have hclash' : ¬ Checker.Clash funcs := fun hclash' => hclash (hclash'.perm hfuncs.symm)
  obtain ⟨fs, fs', hperm, hfst, hsnd, hfst', hnodup', hlength'⟩ :=
    exists_beside hfuncs hnodup (Checker.length_labels p.funcs).symm
  obtain ⟨l', hl'⟩ := exists_map_eq hnodup' hlength'
  have hinjOn : Set.InjOn l' {name | name ∈ fs'.map Prod.snd} := by
    have hlabels := (Checker.nodup_labels_iff funcs).2 hclash'
    rw [← hl'] at hlabels
    exact fun a ha b hb => List.inj_on_of_nodup_map hlabels ha hb
  obtain ⟨σ, hσ⟩ := exists_perm_of_injOn hinjOn
  rw [← List.map_congr_left hσ] at hl'
  -- The labels of the program itself stand beside its functions, so nothing is put in on this side.
  have hid : (fs.map Prod.snd).map id = Checker.labels p.funcs := by rw [List.map_id, hsnd]
  obtain ⟨q, c', -, rfl, hc', hrelabels⟩ :=
    check_reordered hfuncs hperm (map_eq_zip hfst hid) (map_eq_zip hfst' hl') h
  rw [q.rename_id]
  exact ⟨σ, c', hc', hrelabels⟩

end Typing

/-- The order of functions does not matter to what is accepted. The checked programs of two orders come from
one program in which each function has a label of its own, so that each call goes to the same function in
both; and if no names clash then one of them is the other one with its labels renamed. -/
theorem check_of_reordered_functions (p : Source.Program) {funcs : List Source.Func}
    (hfuncs : p.funcs.Perm funcs) :
    ((∃ c, check { p with funcs } = .ok c) ↔ ∃ c, check p = .ok c) ∧
      ∀ c c', check p = .ok c → check { p with funcs } = .ok c' →
        (∃ (q : Checked.Program) (l l' : String → String),
          q.Resolved ∧ q.Relabels l c ∧ q.Relabels l' c') ∧
        (¬ Checker.Clash p.funcs → ∃ σ : Equiv.Perm String, c.Relabels σ c') := by
  refine ⟨⟨?_, ?_⟩, ?_⟩
  · rintro ⟨c', hc'⟩
    obtain ⟨-, -, -, c, -, -, hc, -⟩ := Typing.exists_common hfuncs.symm hc'
    exact ⟨c, hc⟩
  · rintro ⟨c, hc⟩
    obtain ⟨-, -, -, c', -, -, hc', -⟩ := Typing.exists_common hfuncs hc
    exact ⟨c', hc'⟩
  · intro c c' hc hc'
    constructor
    · obtain ⟨q, l, l', found, hresolved, hrelabels, hfound, hrelabels'⟩ := Typing.exists_common hfuncs hc
      obtain rfl : found = c' := Except.ok.inj (hfound.symm.trans hc')
      exact ⟨q, l, l', hresolved, hrelabels, hrelabels'⟩
    · intro hclash
      obtain ⟨σ, found, hfound, hrelabels⟩ := Typing.exists_relabelling hfuncs hclash hc
      obtain rfl : found = c' := Except.ok.inj (hfound.symm.trans hc')
      exact ⟨σ, hrelabels⟩

/-- With its overloads the other way round, a program has their labels the other way round. -/
theorem check_overloaded_reordered : ∃ c c' : Checked.Program, ∃ σ : Equiv.Perm String,
    check Overloaded.program = .ok c ∧
      check { Overloaded.program with funcs := [Overloaded.onChar, Overloaded.onInt] } = .ok c' ∧
      c.Relabels σ c' := by
  have hfuncs : Overloaded.program.funcs.Perm [Overloaded.onChar, Overloaded.onInt] := .swap ..
  have hclash : ¬ Checker.Clash Overloaded.program.funcs :=
    (Checker.nodup_labels_iff _).1 (by decide +kernel)
  obtain ⟨haccepted, hrelabels⟩ := check_of_reordered_functions Overloaded.program hfuncs
  obtain ⟨c, hc⟩ := Overloaded.accepted
  obtain ⟨c', hc'⟩ := haccepted.2 ⟨c, hc⟩
  obtain ⟨σ, hσ⟩ := (hrelabels c c' hc hc').2 hclash
  exact ⟨c, c', σ, hc, hc', hσ⟩

theorem Expr.callee?_rename {α : Type} (v l : String → String) (e : Expr α) :
    (e.rename v l).callee? = e.callee?.map l := by
  cases e <;> rfl

/-- The functions that a statement calls, in the order in which the calls are written. -/
def Stmt.callees {α σ τ : Type} (s : Stmt α σ τ) : List String := s.exprs.filterMap Expr.callee?

theorem Stmt.callees_rename {α σ τ : Type} (v l : String → String) (s : Stmt α σ τ) :
    (s.rename v l).callees = s.callees.map l := by
  rw [callees, callees, exprs_rename, List.filterMap_map, List.map_filterMap]
  exact congrArg s.exprs.filterMap (funext (Expr.callee?_rename v l))

namespace Clashing

/-- The functions with the overloads the other way round: `int f(char c)`, `int f(int a)`, `int f_0()` -/
def swapped : List Source.Func :=
  [returning "f" [⟨.char, "c", .start⟩] 2, returning "f" [⟨.int, "a", .start⟩] 1, returning "f_0" [] 3]

/-- A program that calls each of the functions once: `int x = call f(1); int y = call f('a');
int z = call f_0()` -/
def calling (funcs : List Source.Func) : Source.Program where
  funcs := funcs
  body := .seq .start [.declare .start .int "x" (.call .start "f" [.int .start 1]),
    .declare .start .int "y" (.call .start "f" [.char .start 97]),
    .declare .start .int "z" (.call .start "f_0" [])]

/-- Reads the called labels off the checked program. -/
theorem callees_of_check {p : Source.Program} {labels : List String}
    (h : (check p).toOption.any (fun c => c.body.callees = labels) = true) :
    ∃ c, check p = .ok c ∧ c.body.callees = labels := by
  obtain ⟨c, hc, hlabels⟩ := except_eq_ok_of_any h
  exact ⟨c, hc, of_decide_eq_true hlabels⟩

end Clashing

/-- Two orders of the same functions of which neither is the other one with its labels renamed: the function
that is alone with its name shares the label of one overload in one order and of the other one in the
other. -/
theorem clashing_orders_not_relabelled : Clashing.program.funcs.Perm Clashing.swapped ∧
    ∃ c c', check (Clashing.calling Clashing.program.funcs) = .ok c ∧
      check (Clashing.calling Clashing.swapped) = .ok c' ∧
      (¬ ∃ l, c'.body = c.body.rename id l) ∧ ¬ ∃ l, c.body = c'.body.rename id l := by
  obtain ⟨c, hc, hcallees⟩ : ∃ c, check (Clashing.calling Clashing.program.funcs) = .ok c ∧
      c.body.callees = ["f_f_0", "f_f_1", "f_f_0"] := Clashing.callees_of_check (by decide +kernel)
  obtain ⟨c', hc', hcallees'⟩ : ∃ c', check (Clashing.calling Clashing.swapped) = .ok c' ∧
      c'.body.callees = ["f_f_1", "f_f_0", "f_f_0"] := Clashing.callees_of_check (by decide +kernel)
  refine ⟨.swap .., c, c', hc, hc', ?_, ?_⟩
  · rintro ⟨l, hl⟩
    rw [hl, Stmt.callees_rename, hcallees] at hcallees'
    obtain ⟨hfirst, -, hlast⟩ : l "f_f_0" = "f_f_1" ∧ l "f_f_1" = "f_f_0" ∧ l "f_f_0" = "f_f_0" := by
      simpa using hcallees'
    exact absurd (hfirst.symm.trans hlast) (by decide)
  · rintro ⟨l, hl⟩
    rw [hl, Stmt.callees_rename, hcallees'] at hcallees
    obtain ⟨-, hsecond, hlast⟩ : l "f_f_1" = "f_f_0" ∧ l "f_f_0" = "f_f_1" ∧ l "f_f_0" = "f_f_0" := by
      simpa using hcallees
    exact absurd (hsecond.symm.trans hlast) (by decide)

end WaccArm
