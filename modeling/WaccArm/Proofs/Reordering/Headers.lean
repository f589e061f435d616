import WaccArm.Proofs.Renaming.Typing

namespace WaccArm

namespace Ty

/-- A type in which the elements of all arrays are known. -/
inductive Written : Ty → Prop
  | int : Written .int
  | bool : Written .bool
  | char : Written .char
  | str : Written .str
  | array {elem dims} (helem : Written elem) : Written (.array (some elem) dims)
  | pair {fst snd} (hfst : ∀ t ∈ fst, Written t) (hsnd : ∀ t ∈ snd, Written t) : Written (.pair fst snd)

/-- Types that are written have known elements. -/
theorem written_ofExpr : ∀ t : TypeExpr, Written (ofExpr t)
  | .int => .int
  | .bool => .bool
  | .char => .char
  | .string => .str
  | .array elem dims => .array (written_ofExpr elem)
  | .pair none none => .pair nofun nofun
  | .pair (some fst) none => .pair (by rintro _ ⟨⟩; exact written_ofExpr fst) nofun
  | .pair none (some snd) => .pair nofun (by rintro _ ⟨⟩; exact written_ofExpr snd)
  | .pair (some fst) (some snd) =>
    .pair (by rintro _ ⟨⟩; exact written_ofExpr fst) (by rintro _ ⟨⟩; exact written_ofExpr snd)

theorem Written.expandSide {side : Option Ty} (h : ∀ t ∈ side, Written t.expand) :
    ∀ t ∈ expandSide side, Written t := by
  cases side with
  | none => nofun
  | some t =>
    rintro _ ⟨⟩
    exact h t rfl

theorem Written.expand {t : Ty} (h : Written t) : Written t.expand := by
  induction h with
  | int => exact .int
  | bool => exact .bool
  | char => exact .char
  | str => exact .array .char
  | @array elem dims _ ih =>
    cases elem with
    | str => exact .array .char
    | _ => exact .array ih
  | pair _ _ ihf ihs => exact .pair (Written.expandSide ihf) (Written.expandSide ihs)

theorem agreeSide_comm {side : Option Ty} (h : ∀ t ∈ side, ∀ t', agree t t' = agree t' t)
    (side' : Option Ty) : agreeSide side side' = agreeSide side' side := by
  cases side with
  | none => cases side' <;> rfl
  | some t =>
    cases side' with
    | none => rfl
    | some t' => exact h t rfl t'

/-- From which side a written type is compared does not matter. -/
theorem Written.agree_comm {a : Ty} (h : Written a) (b : Ty) : agree a b = agree b a := by
  induction h generalizing b with
  | int | bool | char | str => cases b <;> simp [agree]
  | array _ ih =>
    cases b with
    | array elem dims =>
      cases elem with
      | none => simp [agree]
      | some elem => rw [agree, agree, ih elem, Bool.beq_comm]
    | _ => simp [agree]
  | pair _ _ ihf ihs =>
    cases b with
    | pair fst snd => rw [agree, agree, agreeSide_comm ihf, agreeSide_comm ihs]
    | _ => simp [agree]

/-- Which of two lists of types stands first does not matter if one of them can be written. -/
theorem compatibleAll_comm {as : List Ty} (h : ∀ t ∈ as, Written t) (bs : List Ty) :
    compatibleAll as bs = compatibleAll bs as := by
  rw [compatibleAll, compatibleAll]
  induction as generalizing bs with
  | nil => cases bs <;> rfl
  | cons a as ih =>
    rw [List.forall_mem_cons] at h
    cases bs with
    | nil => rfl
    | cons b bs => rw [expandAll, expandAll, agreeAll, agreeAll, h.1.expand.agree_comm, ih h.2]

end Ty

namespace Typing

/-- Two functions clash in both orders or in neither. -/
theorem Header.accepts_comm {f g : Header} (hf : ∀ t ∈ f.params, t.Written) :
    f.Accepts g.name g.params ↔ g.Accepts f.name f.params := by
  rw [Header.Accepts, Header.Accepts, Ty.compatibleAll_comm hf, eq_comm]

theorem Header.written_of (f : Source.Func) (label : String) : ∀ t ∈ (Header.of f label).params, t.Written := by
  rw [Header.of, List.forall_mem_map]
  exact fun param _ => Ty.written_ofExpr param.type

/-- Distinct headers are so in every order. -/
theorem DistinctHeaders.perm {Φ Φ' : List Header} (h : DistinctHeaders Φ) (hperm : Φ.Perm Φ')
    (hwritten : ∀ f ∈ Φ, ∀ t ∈ f.params, t.Written) : DistinctHeaders Φ' := by
  have hboth : Φ.Pairwise fun f g => ¬ f.Accepts g.name g.params ∧ ¬ g.Accepts f.name f.params := by
    refine List.Pairwise.imp_of_mem (fun hf _ hfg => ⟨hfg, ?_⟩) h
    rwa [← Header.accepts_comm (hwritten _ hf)]
  exact (hperm.pairwise hboth And.symm).imp And.left

/-- A call goes to the same function in another order and under other labels. -/
theorem Chosen.unlabel {l : String → String} {Φ Φ' : List Header} (hperm : Φ'.Perm (Φ.map (.relabel l)))
    {name : String} {types : List Ty} {g : Header} (h : Chosen Φ' name types g) :
    ∃ f, Chosen Φ name types f ∧ f.relabel l = g := by
  have hfilter := hperm.filter (·.Accepts name types)
  rw [chosen_iff_filter.1 h, List.filter_map] at hfilter
  obtain ⟨f, hf, hrelabel⟩ := List.map_eq_singleton_iff.1 (List.perm_singleton.1 hfilter.symm)
  exact ⟨f, chosen_iff_filter.2 hf, hrelabel⟩

end Typing

end WaccArm
