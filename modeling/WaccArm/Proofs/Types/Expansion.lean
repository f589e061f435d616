import WaccArm.Proofs.Types.Overloads
import WaccArm.Proofs.Types.Symmetry
import WaccArm.Proofs.Typing.Calls

namespace WaccArm

namespace Ty

/-- No string is left. -/
theorem expand_ne_str (t : Ty) : t.expand ≠ .str := by
  unfold expand
  split <;> simp_all

/-- Elements are spelled out. -/
theorem expand_array {elem : Ty} (h : elem ≠ .str) (dims : Nat) :
    expand (.array (some elem) dims) = .array (some elem.expand) dims := by
  cases elem with
  | str => exact absurd rfl h
  | _ => rfl

theorem spelled_array {elem : Ty} (h : elem ≠ .str) (dims : Nat) :
    spelled (.array (some elem) dims) = .array (some elem) dims := by
  cases elem with
  | str => exact absurd rfl h
  | _ => rfl

theorem ne_str_of_spelled {t elem : Ty} {dims : Nat} (h : t.spelled = .array (some elem) dims) :
    elem ≠ .str := by
  rintro rfl
  unfold spelled at h
  split at h <;> simp_all

theorem spelled_ne_str (t : Ty) : t.spelled ≠ .str := by
  unfold spelled
  split <;> simp_all

mutual

/-- Strings are spelled out once and for all. -/
theorem expand_expand : ∀ t : Ty, t.expand.expand = t.expand
  | .int | .bool | .char | .str => rfl
  | .array none _ => rfl
  | .array (some elem) dims => by
    by_cases h : elem = .str
    · subst h
      rfl
    · rw [expand_array h, expand_array (expand_ne_str elem), expand_expand elem]
  | .pair fst snd => by rw [expand, expand, expandSide_expandSide fst, expandSide_expandSide snd]
  | .function ret params => by rw [expand, expand, expand_expand ret, expandAll_expandAll params]

theorem expandSide_expandSide : ∀ side : Option Ty, expandSide (expandSide side) = expandSide side
  | none => rfl
  | some t => congrArg some (expand_expand t)

theorem expandAll_expandAll : ∀ ts : List Ty, expandAll (expandAll ts) = expandAll ts
  | [] => rfl
  | t :: ts => congrArg₂ List.cons (expand_expand t) (expandAll_expandAll ts)

end

theorem isPair_expand (t : Ty) : t.expand.isPair = t.isPair := by
  unfold expand
  split <;> rfl

theorem isScalar_expand (t : Ty) : Scalar.isScalar t.expand = Scalar.isScalar t := by
  unfold expand
  split <;> rfl

theorem expand_eq_emptyArray {t : Ty} (h : t.expand = emptyArray) : t = emptyArray := by
  unfold expand at h
  split at h <;> first | exact h | cases h

theorem expand_spelled (t : Ty) : t.spelled.expand = t.expand := by
  unfold spelled
  split <;> rfl

theorem spelled_expand (t : Ty) : t.expand.spelled = t.spelled.expand := by
  cases t with
  | array elem dims =>
    cases elem with
    | none => rfl
    | some elem =>
      by_cases h : elem = .str
      · subst h
        rfl
      · rw [spelled_array h, expand_array h, spelled_array (expand_ne_str elem)]
  | _ => rfl

/-- An index does the same to a type and to its spelled out form. -/
theorem index?_expand (t : Ty) (n : Nat) : t.expand.index? n = (t.index? n).map expand := by
  rw [index?, index?, spelled_expand]
  cases hspelled : t.spelled with
  | array elem dims =>
    cases elem with
    | none => cases Nat.decLt n dims <;> cases Nat.decEq n dims <;> simp [expand, anyPair, expandSide, *]
    | some elem =>
      have hne := ne_str_of_spelled hspelled
      cases Nat.decLt n dims <;> cases Nat.decEq n dims <;> simp [expand_array hne, *]
  | str => exact absurd hspelled (spelled_ne_str t)
  | _ => rfl

/-- A side is the same of a type and of its spelled out form. -/
theorem side?_expand (t : Ty) (which : Side) : t.expand.side? which = (t.side? which).map expand := by
  have hside : ∀ side : Option Ty, (expandSide side).getD anyPair = (side.getD anyPair).expand := by
    rintro (_ | t) <;> rfl
  cases t with
  | pair fst snd => cases which <;> simp [expand, side?, hside]
  | array elem dims =>
    cases elem with
    | none => rfl
    | some elem =>
      by_cases h : elem = .str
      · subst h
        rfl
      · rw [expand_array h]
        rfl
  | _ => rfl

/-- The type that is left after `n` indices, one at a time. -/
def Reaches : Ty → Nat → Ty → Prop
  | t, 0, type => t.expand = type.expand
  | t, n + 1, type => ∃ elem, t.index? 1 = some elem ∧ Reaches elem n type

/-- Indexing follows the dimensions. -/
theorem reaches_of_index? {t type : Ty} {n : Nat} (h : t.index? (n + 1) = some type) :
    t.Reaches (n + 1) type := by
  induction n generalizing t with
  | zero => exact ⟨type, h, rfl⟩
  | succ n ih =>
    obtain ⟨elem, dims, hspelled, hdims⟩ := index?_eq_some.1 h
    have hlt : 1 < dims := by omega
    refine ⟨.array elem (dims - 1), index?_eq_some.2 ⟨elem, dims, hspelled, .inl ⟨hlt, rfl⟩⟩,
      ih (index?_eq_some.2 ⟨elem, dims - 1, ?_, ?_⟩)⟩
    · cases elem with
      | none => rfl
      | some elem => exact spelled_array (ne_str_of_spelled hspelled) _
    · rcases hdims with ⟨hn, rfl⟩ | ⟨rfl, rfl⟩
      · exact .inl ⟨by omega, by rw [Nat.sub_sub, Nat.add_comm 1]⟩
      · exact .inr ⟨rfl, rfl⟩

theorem isArray_of_index? {t elem : Ty} {n : Nat} (h : t.index? n = some elem) : t.isArray := by
  obtain ⟨elem, dims, hspelled, -⟩ := index?_eq_some.1 h
  exact isArray_iff.2 ⟨elem, dims, hspelled⟩

/-- Pairs are compatible with pairs only. -/
theorem isPair_eq_of_compatible {a b : Ty} (h : a.compatible b) : a.isPair = b.isPair := by
  rw [compatible] at h
  rw [← isPair_expand a, ← isPair_expand b]
  cases ha : a.expand <;> cases hb : b.expand <;> simp_all [agree, isPair]

/-- Arrays are compatible with arrays only. -/
theorem isArray_eq_of_compatible {a b : Ty} (h : a.compatible b) : a.isArray = b.isArray := by
  have hexpand : ∀ t : Ty, t.expand.isArray = t.isArray := by
    intro t
    unfold expand
    split <;> rfl
  rw [compatible] at h
  rw [← hexpand a, ← hexpand b]
  cases ha : a.expand <;> cases hb : b.expand <;> simp_all [agree, isArray]

/-- Scalars are compatible with scalars only. -/
theorem isScalar_eq_of_compatible {a b : Ty} (h : a.compatible b) :
    Scalar.isScalar a = Scalar.isScalar b := by
  rw [compatible] at h
  rw [← isScalar_expand a, ← isScalar_expand b]
  cases ha : a.expand <;> cases hb : b.expand <;> simp_all [agree, Scalar.isScalar]

theorem eq_of_agreeAll {ts us : List Ty} (hts : ∀ t ∈ ts, ∀ u : Ty, u.Resolved → agree t u → t = u)
    (hus : ∀ u ∈ us, u.Resolved) (h : agreeAll ts us) : ts = us := by
  induction ts generalizing us with
  | nil => cases us <;> simp_all [agreeAll]
  | cons t ts ih =>
    cases us with
    | nil => simp [agreeAll] at h
    | cons u us =>
      rw [List.forall_mem_cons] at hts hus
      rw [agreeAll, Bool.and_eq_true] at h
      rw [hts.1 u hus.1 h.1, ih hts.2 hus.2 h.2]

/-- Types of which everything is known agree only if they are the same. -/
theorem Resolved.eq_of_agree {a b : Ty} (ha : a.Resolved) (hb : b.Resolved) (h : agree a b) : a = b := by
  induction ha generalizing b with
  | int | bool | char | str => cases hb <;> simp_all [agree]
  | array _ ih =>
    cases hb with
    | array hb =>
      simp only [agree, Bool.and_eq_true, beq_iff_eq] at h
      rw [h.1, ih hb h.2]
    | _ => simp [agree] at h
  | pair _ _ ihf ihs =>
    cases hb with
    | pair hf hs =>
      simp only [agree, agreeSide, Bool.and_eq_true] at h
      rw [ihf hf h.1, ihs hs h.2]
    | _ => simp [agree] at h
  | function _ _ ihr ihp =>
    cases hb with
    | function hr hp =>
      simp only [agree, Bool.and_eq_true] at h
      rw [ihr hr h.1, eq_of_agreeAll (fun t ht u => ihp t ht) hp h.2]
    | _ => simp [agree] at h

/-- So do compatible types, up to the spelling of strings. -/
theorem Resolved.expand_eq_of_compatible {a b : Ty} (ha : a.Resolved) (hb : b.Resolved)
    (h : a.compatible b) : a.expand = b.expand :=
  ha.expand.eq_of_agree hb.expand h

/-- Known sides that agree are the same. -/
theorem expand_eq_of_agreeSide {side side' : Option Ty} (h : agreeSide (expandSide side) (expandSide side'))
    (hside : (side.getD anyPair).Resolved) (hside' : (side'.getD anyPair).Resolved) :
    (side.getD anyPair).expand = (side'.getD anyPair).expand := by
  cases side with
  | none => cases hside
  | some t =>
    cases side' with
    | none => cases hside'
    | some u => exact hside.expand_eq_of_compatible hside' h

/-- A side that two compatible pairs know in full is the same in both. -/
theorem side?_of_compatible {a b t : Ty} {which : Side} (h : a.compatible b)
    (hside : a.side? which = some t) :
    ∃ u, b.side? which = some u ∧ (t.Resolved → u.Resolved → t.expand = u.expand) := by
  obtain ⟨fst, snd, rfl, rfl⟩ := side?_eq_some.1 hside
  have hpair := isPair_eq_of_compatible h
  cases b with
  | pair fst' snd' =>
    rw [compatible, expand, expand, agree, Bool.and_eq_true] at h
    cases which with
    | fst => exact ⟨_, rfl, expand_eq_of_agreeSide h.1⟩
    | snd => exact ⟨_, rfl, expand_eq_of_agreeSide h.2⟩
  | _ => cases hpair

theorem side?_eq_none_of_compatible {a b : Ty} {which : Side} (h : a.compatible b)
    (hside : a.side? which = none) : b.side? which = none := by
  by_contra hsome
  obtain ⟨t, ht⟩ := Option.ne_none_iff_exists'.1 hsome
  obtain ⟨fst, snd, rfl, -⟩ := side?_eq_some.1 ht
  have hpair := isPair_eq_of_compatible h
  cases a with
  | pair => cases which <;> cases hside
  | _ => cases hpair

end Ty

end WaccArm
