import WaccArm.Proofs.Reordering.Headers

namespace WaccArm

namespace Ty

/-- A type of which nothing is unknown. -/
inductive Resolved : Ty → Prop
  | int : Resolved .int
  | bool : Resolved .bool
  | char : Resolved .char
  | str : Resolved .str
  | array {elem dims} (helem : Resolved elem) : Resolved (.array (some elem) dims)
  | pair {fst snd} (hfst : Resolved fst) (hsnd : Resolved snd) : Resolved (.pair (some fst) (some snd))
  | function {ret params} (hret : Resolved ret) (hparams : ∀ t ∈ params, Resolved t) :
    Resolved (.function ret params)

theorem Resolved.expandAll {ts : List Ty} (h : ∀ t ∈ ts, Resolved t.expand) :
    ∀ t ∈ expandAll ts, Resolved t := by
  induction ts with
  | nil => simp [Ty.expandAll]
  | cons t ts ih =>
    rw [List.forall_mem_cons] at h
    rw [Ty.expandAll, List.forall_mem_cons]
    exact ⟨h.1, ih h.2⟩

/-- Spelling out forgets nothing. -/
theorem Resolved.expand {t : Ty} (h : Resolved t) : Resolved t.expand := by
  induction h with
  | int => exact .int
  | bool => exact .bool
  | char => exact .char
  | str => exact .array .char
  | @array elem dims _ ih =>
    cases elem with
    | str => exact .array .char
    | _ => exact .array ih
  | pair _ _ ihf ihs => exact .pair ihf ihs
  | function _ _ ihr ihp => exact .function ihr (Resolved.expandAll ihp)

/-- Two sides that agree with a known one agree with each other. -/
theorem agreeSide_of_known {t : Ty} {side side' : Option Ty}
    (ht : ∀ p q, p ∈ side → agree p t → agree q t → agree p q)
    (h : agreeSide side (some t)) (h' : agreeSide side' (some t)) : agreeSide side side' := by
  cases side with
  | none => simp [agreeSide]
  | some p =>
    cases side' with
    | none => simp [agreeSide]
    | some q => exact ht p q rfl h h'

/-- Two types that agree with a known one agree with each other, if one of them can be written. -/
theorem Resolved.agree_of_agree {t p q : Ty} (ht : Resolved t) (hp : Written p) (hpt : agree p t)
    (hqt : agree q t) : agree p q := by
  induction ht generalizing p q with
  | int | bool | char | str => cases p <;> cases q <;> simp_all [agree]
  | @array elem dims _ ih =>
    cases hp with
    | @array l n hl =>
      rw [agree, Bool.and_eq_true, beq_iff_eq] at hpt
      obtain ⟨rfl, hlelem⟩ := hpt
      cases q with
      | array r m =>
        cases r with
        | none => simpa [agree] using hqt
        | some r =>
          rw [agree, Bool.and_eq_true, beq_iff_eq] at hqt
          obtain ⟨rfl, hrelem⟩ := hqt
          rw [agree, Bool.and_eq_true, beq_iff_eq]
          exact ⟨rfl, ih hl hlelem hrelem⟩
      | _ => simp [agree] at hqt
    | int | bool | char | str | pair => simp [agree] at hpt
  | @pair fst snd _ _ ihf ihs =>
    cases hp with
    | @pair pf ps hpf hps =>
      cases q with
      | pair qf qs =>
        rw [agree, Bool.and_eq_true] at hpt hqt ⊢
        constructor
        · apply agreeSide_of_known _ hpt.1 hqt.1
          intro p q hp
          exact ihf (hpf p hp)
        · apply agreeSide_of_known _ hpt.2 hqt.2
          intro p q hp
          exact ihs (hps p hp)
      | _ => simp [agree] at hqt
    | int | bool | char | str | array => simp [agree] at hpt
  | function => cases hp <;> simp [agree] at hpt

/-- Two lists of parameters that arguments of known types fit are compatible. -/
theorem compatibleAll_of_known {ps qs ts : List Ty} (hts : ∀ t ∈ ts, Resolved t) (hps : ∀ p ∈ ps, Written p)
    (hp : compatibleAll ps ts) (hq : compatibleAll qs ts) : compatibleAll ps qs := by
  rw [compatibleAll] at hp hq ⊢
  induction ts generalizing ps qs with
  | nil =>
    cases ps with
    | nil => cases qs <;> simp_all [expandAll, agreeAll]
    | cons => simp [expandAll, agreeAll] at hp
  | cons t ts ih =>
    rw [List.forall_mem_cons] at hts
    cases ps with
    | nil => simp [expandAll, agreeAll] at hp
    | cons p ps =>
      rw [List.forall_mem_cons] at hps
      cases qs with
      | nil => simp [expandAll, agreeAll] at hq
      | cons q qs =>
        rw [expandAll, expandAll, agreeAll, Bool.and_eq_true] at hp hq ⊢
        exact ⟨hts.1.expand.agree_of_agree hps.1.expand hp.1 hq.1, ih hts.2 hps.2 hp.2 hq.2⟩

end Ty

namespace Typing

/-- Labels do not matter to whether headers are distinct. -/
theorem distinctHeaders_iff_unlabelled (p : Source.Program) :
    DistinctHeaders (headers p) ↔ DistinctHeaders (p.funcs.map (.of · "")) := by
  have hfuncs : (p.funcs.zip (Checker.labels p.funcs)).map Prod.fst = p.funcs :=
    List.map_fst_zip (Nat.le_of_eq (Checker.length_labels p.funcs).symm)
  conv_rhs => rw [← hfuncs]
  rw [DistinctHeaders, DistinctHeaders, headers, List.map_map, List.pairwise_map, List.pairwise_map]
  exact Iff.rfl

theorem written_headers (p : Source.Program) : ∀ f ∈ headers p, ∀ t ∈ f.params, t.Written := by
  rw [headers, List.forall_mem_map]
  exact fun f _ => Header.written_of f.1 f.2

/-- Functions that can be declared together can be declared together in every order. -/
theorem DistinctHeaders.reorder {p : Source.Program} (h : DistinctHeaders (headers p))
    {funcs : List Source.Func} (hfuncs : p.funcs.Perm funcs) : DistinctHeaders (headers { p with funcs }) := by
  rw [distinctHeaders_iff_unlabelled] at h ⊢
  apply h.perm (hfuncs.map _)
  rw [List.forall_mem_map]
  exact fun f _ => Header.written_of f ""

variable {Φ : List Header} {name : String} {types : List Ty}

/-- Of distinct functions at most one takes arguments of known types. -/
theorem DistinctHeaders.accepts_unique (h : DistinctHeaders Φ) (hwritten : ∀ f ∈ Φ, ∀ t ∈ f.params, t.Written)
    (htypes : ∀ t ∈ types, t.Resolved) : (Φ.filter (·.Accepts name types)).length ≤ 1 := by
  have hnone : (Φ.filter (·.Accepts name types)).Pairwise fun _ _ => False := by
    apply List.Pairwise.imp_of_mem _ (h.filter _)
    intro f g hf hg hfg
    rw [List.mem_filter, decide_eq_true_eq] at hf hg
    obtain ⟨hfmem, hfname, hfparams⟩ := hf
    obtain ⟨-, hgname, hgparams⟩ := hg
    apply hfg
    exact ⟨hfname.trans hgname.symm, Ty.compatibleAll_of_known htypes (hwritten f hfmem) hfparams hgparams⟩
  cases hfilter : Φ.filter (·.Accepts name types) with
  | nil => simp
  | cons f fs =>
    cases fs with
    | nil => simp
    | cons g fs =>
      rw [hfilter, List.pairwise_cons] at hnone
      exact (hnone.1 g (List.mem_cons_self ..)).elim

/-- A call with arguments of known types finds the function that takes them. -/
theorem DistinctHeaders.resolve_found (h : DistinctHeaders Φ) (hwritten : ∀ f ∈ Φ, ∀ t ∈ f.params, t.Written)
    (htypes : ∀ t ∈ types, t.Resolved) {f : Header} (hf : f ∈ Φ) (haccepts : f.Accepts name types)
    (Γ : Scopes) :
    (env Φ Γ).resolve name Decl.isFunction (Decl.takes types) = .found f.decl := by
  have hmem : f ∈ Φ.filter (·.Accepts name types) := List.mem_filter.2 ⟨hf, decide_eq_true haccepts⟩
  have hone : Φ.filter (·.Accepts name types) = [f] := by
    obtain ⟨g, hg⟩ := List.length_eq_one_iff.1
      (Nat.le_antisymm (h.accepts_unique hwritten htypes) (List.length_pos_of_mem hmem))
    rw [hg, List.mem_singleton] at hmem
    rw [hg, hmem]
  rw [resolve_env, Chain.resolve_singleton, fitting_globals, hone]
  rfl

end Typing

/-- Functions that are declared without a clash are never ambiguous for arguments of known types: at most one
function of a name takes them, the functions can be declared in every order, and in each order a call from any
scopes of variables finds the function that takes its arguments. -/
theorem overloads_unambiguous {p : Source.Program} {scope : Scope Decl}
    (hscope : Checker.declareAll (Checker.signatures p) [] = .ok scope) (name : String) {types : List Ty}
    (htypes : ∀ t ∈ types, t.Resolved) :
    ((Typing.headers p).filter (·.Accepts name types)).length ≤ 1 ∧
      ∀ funcs, p.funcs.Perm funcs →
        ∃ scope', Checker.declareAll (Checker.signatures { p with funcs }) [] = .ok scope' ∧
          ∀ f ∈ Typing.headers { p with funcs }, f.Accepts name types → ∀ Γ : Typing.Scopes,
            Chain.resolve (Γ.map Typing.declared ++ [scope']) name Decl.isFunction (Decl.takes types) =
              .found f.decl := by
  obtain ⟨hdistinct, -⟩ := Typing.declareAll_signatures.1 hscope
  refine ⟨hdistinct.accepts_unique (Typing.written_headers p) htypes, ?_⟩
  intro funcs hfuncs
  have hreordered := hdistinct.reorder hfuncs
  refine ⟨_, Typing.declareAll_signatures.2 ⟨hreordered, rfl⟩, ?_⟩
  intro f hf haccepts Γ
  exact hreordered.resolve_found (Typing.written_headers _) htypes hf haccepts Γ

namespace PairOverloads

/-- A function `f` whose parameter is a pair of any pair and a value of the given type. -/
def taking (type : TypeExpr) : Source.Func where
  name := "f"
  ret := .int
  params := [⟨.pair none (some type), "p", .start⟩]
  body := .ret .start (.int .start 0)
  pos := .start

def program : Source.Program := ⟨[taking .int, taking .char], .skip .start⟩

end PairOverloads

/-- A pair of a string and a character goes to the second of the functions, as the first side is open in both. -/
theorem pair_overloads_unambiguous :
    ∃ scope, Checker.declareAll (Checker.signatures PairOverloads.program) [] = .ok scope ∧
      (∀ t ∈ [Ty.pair (some .str) (some .char)], t.Resolved) ∧
      Chain.resolve [scope] "f" Decl.isFunction (Decl.takes [.pair (some .str) (some .char)]) =
        .found (.function "f_f_1" (.function .int [.pair none (some .char)])) := by
  have hdistinct : Typing.DistinctHeaders (Typing.headers PairOverloads.program) := by
    unfold Typing.DistinctHeaders
    decide +kernel
  have hscope := Typing.declareAll_signatures.2 ⟨hdistinct, rfl⟩
  have htypes : ∀ t ∈ [Ty.pair (some .str) (some .char)], t.Resolved :=
    List.forall_mem_singleton.2 (.pair .str .char)
  obtain ⟨scope, hagain, hfound⟩ := (overloads_unambiguous hscope "f" htypes).2 _ (.refl _)
  refine ⟨scope, hagain, htypes, ?_⟩
  exact hfound ⟨"f", "f_f_1", [.pair none (some .char)], .int⟩ (.tail _ (.head _)) ⟨rfl, rfl⟩ []

end WaccArm
