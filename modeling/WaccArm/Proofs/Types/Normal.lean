import WaccArm.Proofs.Parser.Grammar
import WaccArm.Proofs.Reordering.Headers

namespace WaccArm.Ty

open Grammar

/-- Every array has a dimension and elements that are known and no arrays, no side of a pair is a pair, and
there is no function. -/
inductive Normal : Ty → Prop
  | int : Normal .int
  | bool : Normal .bool
  | char : Normal .char
  | str : Normal .str
  | array {elem dims} (helem : Normal elem) (hflat : ∀ inner n, elem ≠ .array inner n) (hdims : 0 < dims) :
    Normal (.array (some elem) dims)
  | pair {fst snd} (hfst : ∀ t ∈ fst, Normal t) (hsnd : ∀ t ∈ snd, Normal t)
    (hflat : ∀ t, t ∈ fst ∨ t ∈ snd → t.isPair = false) : Normal (.pair fst snd)

theorem Normal.anyPair : Normal .anyPair := by
  apply Normal.pair
  · simp
  · simp
  · simp

/-- Types in normal form can be written. -/
theorem Normal.written {t : Ty} (h : Normal t) : Written t := by
  induction h with
  | int => exact .int
  | bool => exact .bool
  | char => exact .char
  | str => exact .str
  | array _ _ _ ih => exact .array ih
  | pair _ _ _ ihf ihs => exact .pair ihf ihs

theorem ofExpr_pair (fst snd : Option TypeExpr) :
    ofExpr (.pair fst snd) = .pair (fst.map ofExpr) (snd.map ofExpr) := by
  cases fst <;> cases snd <;> rfl

/-- Base types are in normal form. -/
theorem normal_of_base {word : Keyword} {w : TypeExpr} (h : BaseType word w) :
    (ofExpr w).Normal ∧ (∀ inner n, ofExpr w ≠ .array inner n) ∧ (ofExpr w).isPair = false := by
  cases h with
  | int => exact ⟨.int, by simp [ofExpr], rfl⟩
  | bool => exact ⟨.bool, by simp [ofExpr], rfl⟩
  | char => exact ⟨.char, by simp [ofExpr], rfl⟩
  | string => exact ⟨.str, by simp [ofExpr], rfl⟩

/-- Sides are written in normal form. -/
theorem normal_of_side {side : Option TypeExpr} {ts : Phrase} (h : SideSpelled side ts) :
    ∀ t ∈ side.map ofExpr, t.Normal ∧ t.isPair = false := by
  cases h with
  | base hbase =>
    rintro _ ⟨⟩
    obtain ⟨hnormal, -, hpair⟩ := normal_of_base hbase
    exact ⟨hnormal, hpair⟩
  | @baseArray _ _ n _ _ hbase =>
    rintro _ ⟨⟩
    obtain ⟨hnormal, hflat, -⟩ := normal_of_base hbase
    exact ⟨.array hnormal hflat n.succ_pos, rfl⟩
  | pair => simp
  | @pairArray n =>
    rintro _ ⟨⟩
    exact ⟨.array .anyPair (by simp [ofExpr]) n.succ_pos, rfl⟩

/-- Elements are written in normal form. -/
theorem normal_of_element {w : TypeExpr} {ts : Phrase} (h : ElementSpelled w ts) :
    (ofExpr w).Normal ∧ ∀ inner n, ofExpr w ≠ .array inner n := by
  cases h with
  | base hbase =>
    obtain ⟨hnormal, hflat, -⟩ := normal_of_base hbase
    exact ⟨hnormal, hflat⟩
  | pair hfst hsnd =>
    have hf := normal_of_side hfst
    have hs := normal_of_side hsnd
    rw [ofExpr_pair]
    constructor
    · apply Normal.pair
      · exact fun t ht => (hf t ht).1
      · exact fun t ht => (hs t ht).1
      · rintro t (ht | ht)
        · exact (hf t ht).2
        · exact (hs t ht).2
    · simp

/-- Every type is written in normal form. -/
theorem normal_of_spelled {w : TypeExpr} {ts : Phrase} (h : TypeSpelled w ts) : (ofExpr w).Normal := by
  cases h with
  | element helem => exact (normal_of_element helem).1
  | @array _ n _ _ helem =>
    obtain ⟨hnormal, hflat⟩ := normal_of_element helem
    exact .array hnormal hflat n.succ_pos

theorem Normal.spelled {t : Ty} (h : Normal t) : Normal t.spelled := by
  cases h with
  | int => exact .int
  | bool => exact .bool
  | char => exact .char
  | str => exact .array .char (by simp) Nat.one_pos
  | @array elem dims helem hflat hdims =>
    cases elem with
    | str => exact .array .char (by simp) dims.succ_pos
    | _ => exact .array helem hflat hdims
  | pair hfst hsnd hflat => exact .pair hfst hsnd hflat

/-- What indices select from an array has the form. -/
theorem Normal.index? {t u : Ty} {n : Nat} (h : Normal t) (hindex : t.index? n = some u) : Normal u := by
  obtain ⟨elem, dims, hspelled, hselected⟩ := index?_eq_some.1 hindex
  have harray := h.spelled
  rw [hspelled] at harray
  cases harray with
  | array helem hflat hdims =>
    obtain ⟨hlt, rfl⟩ | ⟨-, rfl⟩ := hselected
    · exact .array helem hflat (Nat.sub_pos_of_lt hlt)
    · exact helem

/-- A side of a pair has the form, and so has the pair that stands for a side that is not known. -/
theorem Normal.side? {t u : Ty} {side : Side} (h : Normal t) (hside : t.side? side = some u) : Normal u := by
  obtain ⟨fst, snd, rfl, rfl⟩ := side?_eq_some.1 hside
  have hgetD : ∀ {side : Option Ty}, (∀ t ∈ side, Normal t) → Normal (side.getD .anyPair) := by
    intro side hall
    cases side with
    | none => exact .anyPair
    | some t => exact hall t rfl
  cases h with
  | pair hfst hsnd =>
    cases side with
    | fst => exact hgetD hfst
    | snd => exact hgetD hsnd

/-- What a new pair keeps of its sides. -/
theorem Normal.newPair {t u : Ty} (ht : Normal t) (hu : Normal u) : Normal (.pair t.erased u.erased) := by
  have herased : ∀ {t : Ty}, Normal t → ∀ s ∈ t.erased, Normal s ∧ s.isPair = false := by
    intro t ht s hs
    by_cases hpair : t.isPair
    · simp [erased, hpair] at hs
    · simp only [erased, hpair, Bool.false_eq_true, if_false, Option.mem_def, Option.some.injEq] at hs
      subst hs
      exact ⟨ht, by simpa using hpair⟩
  apply Normal.pair
  · exact fun s hs => (herased ht s hs).1
  · exact fun s hs => (herased hu s hs).1
  · rintro s (hs | hs)
    · exact (herased ht s hs).2
    · exact (herased hu s hs).2

/-- An array of a normal type has one more dimension. -/
theorem Normal.arrayOf {t : Ty} (h : Normal t) : Normal t.arrayOf := by
  cases h with
  | int => exact .array .int (by simp) Nat.one_pos
  | bool => exact .array .bool (by simp) Nat.one_pos
  | char => exact .array .char (by simp) Nat.one_pos
  | str => exact .array .str (by simp) Nat.one_pos
  | @array elem dims helem hflat => exact .array helem hflat dims.succ_pos
  | pair hfst hsnd hflat => exact .array (.pair hfst hsnd hflat) (by simp) Nat.one_pos

/-- A type in this form, or the type of an empty array literal. -/
def Formed (t : Ty) : Prop := Normal t ∨ t = .emptyArray

/-- Types of expressions are compatible from both sides. -/
theorem Formed.compatible_comm {a b : Ty} (ha : Formed a) (hb : Formed b) : a.compatible b = b.compatible a := by
  rw [compatible, compatible]
  rcases ha with ha | rfl
  · exact ha.written.expand.agree_comm _
  · rcases hb with hb | rfl
    · exact (hb.written.expand.agree_comm _).symm
    · rfl

end WaccArm.Ty
