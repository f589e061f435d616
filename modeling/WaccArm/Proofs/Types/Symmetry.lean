import Mathlib.Logic.Basic
import WaccArm.Types.Compatible

namespace WaccArm.Ty

mutual

/-- Whether two types without strings agree wherever both are known. Two arrays without an element type
always do. -/
def overlap : Ty → Ty → Bool
  | .int, .int | .bool, .bool | .char, .char => true
  | .array none _, .array none _ => true
  | .array none n, .array (some _) m => n ≤ m
  | .array (some _) n, .array none m => m ≤ n
  | .array (some l) n, .array (some r) m => n == m && overlap l r
  | .pair f s, .pair f' s' => overlapSide f f' && overlapSide s s'
  | .function r ps, .function r' ps' => overlap r r' && overlapAll ps ps'
  | _, _ => false

def overlapSide : Option Ty → Option Ty → Bool
  | some l, some r => overlap l r
  | _, _ => true

def overlapAll : List Ty → List Ty → Bool
  | [], [] => true
  | l :: ls, r :: rs => overlap l r && overlapAll ls rs
  | _, _ => false

end

mutual

/-- The places where both types have an array without an element type, each with the dimensions of both. -/
def blanks : Ty → Ty → List (Nat × Nat)
  | .array none n, .array none m => [(n, m)]
  | .array (some l) _, .array (some r) _ => blanks l r
  | .pair f s, .pair f' s' => blanksSide f f' ++ blanksSide s s'
  | .function r ps, .function r' ps' => blanks r r' ++ blanksAll ps ps'
  | _, _ => []

def blanksSide : Option Ty → Option Ty → List (Nat × Nat)
  | some l, some r => blanks l r
  | _, _ => []

def blanksAll : List Ty → List Ty → List (Nat × Nat)
  | l :: ls, r :: rs => blanks l r ++ blanksAll ls rs
  | _, _ => []

end

mutual

/-- Both ways round, types agree if they overlap and no blank of the first is longer than the one it meets. -/
theorem agree_both : ∀ a b : Ty, (agree a b ↔ overlap a b ∧ ∀ m ∈ blanks a b, m.1 ≤ m.2) ∧
    (agree b a ↔ overlap a b ∧ ∀ m ∈ blanks a b, m.2 ≤ m.1)
  | .array none n, b => by
    cases b with
    | array elem m => cases elem <;> simp [agree, overlap, blanks]
    | _ => simp [agree, overlap]
  | .array (some l) n, b => by
    cases b with
    | array elem m =>
      cases elem with
      | none => simp [agree, overlap, blanks]
      | some r =>
        obtain ⟨helem, helem'⟩ := agree_both l r
        have hdims : (m == n) = (n == m) := Bool.beq_comm
        simp only [agree, overlap, blanks, hdims, Bool.and_eq_true, helem, helem']
        exact ⟨and_assoc.symm, and_assoc.symm⟩
    | _ => simp [agree, overlap]
  | .pair f s, b => by
    cases b with
    | pair f' s' =>
      obtain ⟨hfst, hfst'⟩ := agreeSide_both f f'
      obtain ⟨hsnd, hsnd'⟩ := agreeSide_both s s'
      simp only [agree, overlap, blanks, Bool.and_eq_true, List.forall_mem_append, hfst, hfst', hsnd, hsnd']
      exact ⟨and_and_and_comm, and_and_and_comm⟩
    | _ => simp [agree, overlap]
  | .function r ps, b => by
    cases b with
    | function r' ps' =>
      obtain ⟨hret, hret'⟩ := agree_both r r'
      obtain ⟨hparams, hparams'⟩ := agreeAll_both ps ps'
      simp only [agree, overlap, blanks, Bool.and_eq_true, List.forall_mem_append, hret, hret', hparams, hparams']
      exact ⟨and_and_and_comm, and_and_and_comm⟩
    | _ => simp [agree, overlap]
  | .int, b | .bool, b | .char, b | .str, b => by cases b <;> simp [agree, overlap, blanks]

theorem agreeSide_both : ∀ f g : Option Ty,
    (agreeSide f g ↔ overlapSide f g ∧ ∀ m ∈ blanksSide f g, m.1 ≤ m.2) ∧
      (agreeSide g f ↔ overlapSide f g ∧ ∀ m ∈ blanksSide f g, m.2 ≤ m.1)
  | some l, some r => by simpa only [agreeSide, overlapSide, blanksSide] using agree_both l r
  | some l, none => by simp [agreeSide, overlapSide, blanksSide]
  | none, g => by cases g <;> simp [agreeSide, overlapSide, blanksSide]

theorem agreeAll_both : ∀ as bs : List Ty,
    (agreeAll as bs ↔ overlapAll as bs ∧ ∀ m ∈ blanksAll as bs, m.1 ≤ m.2) ∧
      (agreeAll bs as ↔ overlapAll as bs ∧ ∀ m ∈ blanksAll as bs, m.2 ≤ m.1)
  | a :: as, b :: bs => by
    obtain ⟨hfirst, hfirst'⟩ := agree_both a b
    obtain ⟨hothers, hothers'⟩ := agreeAll_both as bs
    simp only [agreeAll, overlapAll, blanksAll, Bool.and_eq_true, List.forall_mem_append, hfirst, hfirst', hothers,
      hothers']
    exact ⟨and_and_and_comm, and_and_and_comm⟩
  | a :: as, [] => by simp [agreeAll, overlapAll]
  | [], bs => by cases bs <;> simp [agreeAll, overlapAll, blanksAll]

end

mutual

/-- A type that is spelled out agrees with itself. -/
theorem agree_expand_self : ∀ t : Ty, agree t.expand t.expand
  | .array (some elem) dims => by
    have helem := agree_expand_self elem
    cases elem <;> simp_all [expand, agree]
  | .array none dims => by simp [expand, agree]
  | .pair fst snd => by
    rw [expand, agree, Bool.and_eq_true]
    exact ⟨agreeSide_expandSide_self fst, agreeSide_expandSide_self snd⟩
  | .function ret params => by
    rw [expand, agree, Bool.and_eq_true]
    exact ⟨agree_expand_self ret, agreeAll_expandAll_self params⟩
  | .int | .bool | .char | .str => by simp [expand, agree]

theorem agreeSide_expandSide_self : ∀ side : Option Ty, agreeSide (expandSide side) (expandSide side)
  | none => by simp [expandSide, agreeSide]
  | some t => by
    rw [expandSide, agreeSide]
    exact agree_expand_self t

theorem agreeAll_expandAll_self : ∀ ts : List Ty, agreeAll (expandAll ts) (expandAll ts)
  | [] => by simp [expandAll, agreeAll]
  | t :: ts => by
    rw [expandAll, agreeAll, Bool.and_eq_true]
    exact ⟨agree_expand_self t, agreeAll_expandAll_self ts⟩

end

end WaccArm.Ty
