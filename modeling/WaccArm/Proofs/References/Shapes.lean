import WaccArm.Proofs.References.Semantics
import WaccArm.Proofs.Types.Expansion
import WaccArm.Proofs.Types.Normal

namespace WaccArm

namespace Ty

/-- An array in normal form has elements that are known. -/
theorem Normal.exists_spelled {t : Ty} (h : t.Normal) (harray : t.isArray) :
    ∃ elem dims, t.spelled = .array (some elem) dims ∧ 0 < dims ∧ elem ≠ .str := by
  obtain ⟨elem, dims, hspelled⟩ := isArray_iff.1 harray
  have hnormal := h.spelled
  rw [hspelled] at hnormal
  cases hnormal with
  | @array elem _ _ _ hdims => exact ⟨elem, dims, hspelled, hdims, ne_str_of_spelled hspelled⟩

theorem Normal.ne_emptyArray {t : Ty} (h : t.Normal) : t ≠ .emptyArray := by
  rintro rfl
  cases h

/-- Spelling out goes on in the elements. -/
theorem expand_of_spelled {t elem : Ty} {dims : Nat} (h : t.spelled = .array (some elem) dims) :
    t.expand = .array (some elem.expand) dims := by
  rw [← expand_spelled, h, expand_array (ne_str_of_spelled h)]

/-- Elements of compatible arrays are compatible. -/
theorem Normal.index?_of_compatible {a b elem : Ty} (ha : a.Normal) (hb : b.Normal)
    (h : a.compatible b) (hindex : a.index? 1 = some elem) :
    ∃ elem', b.index? 1 = some elem' ∧ elem.compatible elem' := by
  have harray := isArray_of_index? hindex
  obtain ⟨x, n, hx, hn, -⟩ := ha.exists_spelled harray
  obtain ⟨y, m, hy, hm, -⟩ := hb.exists_spelled (isArray_eq_of_compatible h ▸ harray)
  rw [compatible, expand_of_spelled hx, expand_of_spelled hy, agree, Bool.and_eq_true, beq_iff_eq] at h
  obtain ⟨rfl, hagree⟩ := h
  obtain ⟨_, _, hspelled, hdims⟩ := index?_eq_some.1 hindex
  cases hx.symm.trans hspelled
  rcases hdims with ⟨hlt, rfl⟩ | ⟨hone, rfl⟩
  · refine ⟨.array (some y) (n - 1), index?_eq_some.2 ⟨_, _, hy, .inl ⟨hlt, rfl⟩⟩, ?_⟩
    rw [compatible, expand_array (ne_str_of_spelled hx), expand_array (ne_str_of_spelled hy), agree,
      Bool.and_eq_true, beq_iff_eq]
    exact ⟨rfl, hagree⟩
  · exact ⟨y, index?_eq_some.2 ⟨_, _, hy, .inr ⟨hone, rfl⟩⟩, hagree⟩

/-- An array in normal form can be indexed. -/
theorem Normal.exists_index? {t : Ty} (h : t.Normal) (harray : t.isArray) :
    ∃ elem, t.index? 1 = some elem := by
  obtain ⟨elem, dims, hspelled, hdims, -⟩ := h.exists_spelled harray
  by_cases hone : 1 < dims
  · exact ⟨_, index?_eq_some.2 ⟨_, _, hspelled, .inl ⟨hone, rfl⟩⟩⟩
  · exact ⟨_, index?_eq_some.2 ⟨_, _, hspelled, .inr ⟨by omega, rfl⟩⟩⟩

theorem Normal.index?_eq_none_of_compatible {a b : Ty} (ha : a.Normal) (h : a.compatible b)
    (hindex : a.index? 1 = none) : b.index? 1 = none := by
  by_contra hsome
  obtain ⟨elem, helem⟩ := Option.ne_none_iff_exists'.1 hsome
  have harray := isArray_of_index? helem
  rw [← isArray_eq_of_compatible h] at harray
  obtain ⟨elem', helem'⟩ := ha.exists_index? harray
  cases hindex.symm.trans helem'

/-- A value of the type `found` may go where `wanted` is asked for. -/
structure Passes (found wanted : Ty) : Prop where
  formed : found.Formed
  normal : wanted.Normal
  compatible : found.compatible wanted

/-- Nothing is known of a pair of which neither side is known. -/
theorem not_resolved_anyPair : ¬ anyPair.Resolved := by
  intro h
  cases h

end Ty

namespace References

/-- A value of this shape may be what an expression of the type has. An array of unknown elements has
none. -/
def Shape.Suits (type : Ty) : Shape → Prop
  | scalar => Scalar.isScalar type
  | null | pair => type.isPair
  | array width length =>
    ∃ elem, type.index? 1 = some elem ∧ (0 < length → width = elem.size ∧ type ≠ .emptyArray)
  | nothing => False

section

variable {shape : Shape} {type a b : Ty}

/-- It does not matter how the strings in a type are spelled. -/
theorem Shape.Suits.congr (h : shape.Suits a) (heq : a.expand = b.expand) : shape.Suits b := by
  have hpair : a.isPair = b.isPair := by rw [← a.isPair_expand, heq, b.isPair_expand]
  cases shape with
  | scalar =>
    rw [Suits, ← a.isScalar_expand, heq, b.isScalar_expand] at h
    exact h
  | null | pair => exact hpair.symm.trans h
  | array width length =>
    obtain ⟨elem, helem, hwidth⟩ := h
    have hindex := b.index?_expand 1
    rw [← heq, a.index?_expand, helem, Option.map_some] at hindex
    obtain ⟨elem', helem', hsame⟩ := Option.map_eq_some_iff.1 hindex.symm
    refine ⟨elem', helem', fun hpos => ?_⟩
    obtain ⟨rfl, hne⟩ := hwidth hpos
    refine ⟨by rw [← elem.size_expand, ← hsame, elem'.size_expand], ?_⟩
    rintro rfl
    exact hne (Ty.expand_eq_emptyArray heq)
  | nothing => exact h

/-- Only scalars suit a scalar type. -/
theorem Shape.Suits.eq_scalar (h : shape.Suits type) (htype : Scalar.isScalar type) :
    shape = .scalar := by
  cases type <;> cases shape <;> simp_all [Suits, Scalar.isScalar, Ty.isPair, Ty.index?, Ty.spelled]

/-- Only pairs and null suit a pair type. -/
theorem Shape.Suits.eq_null_or_pair (h : shape.Suits type) (htype : type.isPair) :
    shape = .null ∨ shape = .pair := by
  cases type <;> cases shape <;> simp_all [Suits, Scalar.isScalar, Ty.isPair, Ty.index?, Ty.spelled]

/-- Only arrays suit an array type. -/
theorem Shape.Suits.eq_array (h : shape.Suits type) (htype : type.isArray) :
    ∃ width length, shape = .array width length := by
  cases type <;> cases shape <;> simp_all [Suits, Scalar.isScalar, Ty.isPair, Ty.isArray]

/-- A value suits every type that it may go to. -/
theorem Shape.Suits.pass (h : shape.Suits a) (hpasses : a.Passes b) : shape.Suits b := by
  obtain ⟨ha, hb, hcompatible⟩ := hpasses
  cases shape with
  | scalar => exact (Ty.isScalar_eq_of_compatible hcompatible).symm.trans h
  | null | pair => exact (Ty.isPair_eq_of_compatible hcompatible).symm.trans h
  | array width length =>
    obtain ⟨elem, helem, hwidth⟩ := h
    rcases ha with ha | rfl
    · obtain ⟨elem', helem', hsame⟩ := ha.index?_of_compatible hb hcompatible helem
      refine ⟨elem', helem', fun hpos => ⟨?_, hb.ne_emptyArray⟩⟩
      rw [(hwidth hpos).1, Ty.size_eq_of_compatible hsame]
    · -- the array of an empty literal has no elements that could be too wide
      obtain ⟨elem', helem'⟩ := hb.exists_index? (Ty.isArray_eq_of_compatible hcompatible ▸ rfl)
      exact ⟨elem', helem', fun hpos => absurd rfl (hwidth hpos).2⟩
  | nothing => exact h

end

/-- How closely types are compared. -/
inductive Detail where
  /-- Only what their values are. -/
  | kind
  | full

/-- The types do not differ in this detail. -/
def Alike : Detail → Ty → Ty → Prop
  | .kind, a, b => ∀ shape : Shape, shape.Suits a ↔ shape.Suits b
  | .full, a, b => a.expand = b.expand

/-- The types give the part types that do not differ in this detail. -/
def AlikeParts (detail : Detail) (a b : Ty) (part : Part) : Prop :=
  Option.Rel (Alike detail) (partType? a part) (partType? b part)

section

variable {detail : Detail} {part : Part} {a b c : Ty}

/-- Types that are spelled out to the same differ in nothing. -/
theorem Alike.of_expand (heq : a.expand = b.expand) (detail : Detail) : Alike detail a b := by
  cases detail with
  | kind => exact fun _ => ⟨fun h => h.congr heq, fun h => h.congr heq.symm⟩
  | full => exact heq

theorem Alike.refl (detail : Detail) (a : Ty) : Alike detail a a := .of_expand rfl detail

theorem Alike.symm (h : Alike detail a b) : Alike detail b a := by
  cases detail with
  | kind => exact fun shape => (h shape).symm
  | full => exact Eq.symm h

theorem Alike.trans (h : Alike detail a b) (h' : Alike detail b c) : Alike detail a c := by
  cases detail with
  | kind => exact fun shape => (h shape).trans (h' shape)
  | full => exact Eq.trans h h'

theorem AlikeParts.of_map (h : (partType? a part).map Ty.expand = (partType? b part).map Ty.expand)
    (detail : Detail) : AlikeParts detail a b part := by
  rw [AlikeParts]
  generalize partType? a part = x at h ⊢
  generalize partType? b part = y at h ⊢
  cases x <;> cases y
  · exact .none
  · cases h
  · cases h
  · exact .some (.of_expand (Option.some.inj h) detail)

/-- It does not matter how the strings in a type are spelled. -/
theorem AlikeParts.of_expand (heq : a.expand = b.expand) (detail : Detail) (part : Part) :
    AlikeParts detail a b part := by
  refine .of_map ?_ detail
  cases part with
  | side which => rw [partType?, partType?, ← a.side?_expand, heq, b.side?_expand]
  | elements => rw [partType?, partType?, ← a.index?_expand, heq, b.index?_expand]

/-- Where one type has the part, so has the other. -/
theorem AlikeParts.exists_alike {t : Ty} (h : AlikeParts detail a b part) (ht : partType? a part = some t) :
    ∃ u, partType? b part = some u ∧ Alike detail t u := by
  rw [AlikeParts, ht] at h
  cases hu : partType? b part with
  | none =>
    rw [hu] at h
    cases h
  | some u =>
    rw [hu] at h
    cases h with
    | some h => exact ⟨u, rfl, h⟩

/-- Compatible types give a part different types only where one of these is not known in full. -/
theorem exists_not_resolved (hpasses : a.Passes b) (hne : ¬ AlikeParts detail a b part) :
    ∃ t, (partType? a part = some t ∨ partType? b part = some t) ∧ ¬ t.Resolved := by
  obtain ⟨ha, hb, hcompatible⟩ := hpasses
  by_contra hall
  have hresolved : ∀ t, partType? a part = some t ∨ partType? b part = some t → t.Resolved :=
    fun t ht => Classical.not_not.1 fun h => hall ⟨t, ht, h⟩
  refine hne (.of_map ?_ detail)
  cases part with
  | side which =>
    cases ha' : a.side? which with
    | some t =>
      obtain ⟨u, hb', hsame⟩ := Ty.side?_of_compatible hcompatible ha'
      have heq := hsame (hresolved t (.inl ha')) (hresolved u (.inr hb'))
      rw [partType?, partType?, ha', hb', Option.map_some, Option.map_some, heq]
    | none => rw [partType?, partType?, ha', Ty.side?_eq_none_of_compatible hcompatible ha']
  | elements =>
    rcases ha with ha | rfl
    · cases ha' : a.index? 1 with
      | some elem =>
        obtain ⟨elem', hb', hsame⟩ := ha.index?_of_compatible hb hcompatible ha'
        have heq := (hresolved elem (.inl ha')).expand_eq_of_compatible (hresolved elem' (.inr hb')) hsame
        rw [partType?, partType?, ha', hb', Option.map_some, Option.map_some, heq]
      | none => rw [partType?, partType?, ha', ha.index?_eq_none_of_compatible hcompatible ha']
    · exact absurd (hresolved .anyPair (.inl rfl)) Ty.not_resolved_anyPair

end

end References

end WaccArm
