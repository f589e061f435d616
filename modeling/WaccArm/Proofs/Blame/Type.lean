import WaccArm.Proofs.Blame.Tracked
import WaccArm.Proofs.Parser.Type

namespace WaccArm

namespace Grammar.Lang

/-- Any number of bracket pairs. -/
def dims : Lang := fun ts => ∃ n, Brackets n ts

/-- A side of a pair type. -/
def pairSide : Lang := fun ts => ∃ side, SideSpelled side ts

def type : Lang := fun ts => ∃ type, TypeSpelled type ts

theorem possible_dims : dims.Possible := ⟨[], 0, .zero⟩

theorem possible_pairSide : pairSide.Possible := ⟨[word .int .nowhere], _, .base .int⟩

theorem possible_type : type.Possible := ⟨[word .int .nowhere], _, .element (.base .int)⟩

/-- What follows the word `pair` in a type that starts with it. -/
def pairTail : Lang :=
  (token (.symbol .openParen)).followedBy <| pairSide.followedBy <| (token (.symbol .comma)).followedBy <|
    pairSide.followedBy <| (token (.symbol .closeParen)).followedBy dims

/-- A pair type is its word and what follows it. -/
theorem type_of_pairTail {ts : Phrase} {p : Pos} (h : pairTail ts) : type (word .pair p :: ts) := by
  obtain ⟨_, _, rfl, ⟨q, rfl⟩, us, _, rfl, ⟨fst, hfst⟩, _, _, rfl, ⟨r, rfl⟩, vs, _, rfl, ⟨snd, hsnd⟩, _, ws, rfl,
    ⟨t, rfl⟩, n, hdims⟩ := h
  have hspelled := TypeSpelled.arrayOf (.pair (p := p) (q := q) (r := r) (t := t) hfst hsnd) hdims
  exact ⟨_, by simpa using hspelled⟩

end Grammar.Lang

namespace Parser

open Grammar

variable {s : Stream}

/-- The dimensions of a type. -/
def dims : Reader := fun s => .ok (brackets s).rest

/-- Two brackets are a dimension. -/
theorem dims_brackets (p q : Pos) (ts : Phrase) (last : Pos) :
    dims ⟨mark .openBracket p :: mark .closeBracket q :: ts, last⟩ = dims ⟨ts, last⟩ := by
  unfold dims
  fun_cases brackets ⟨mark .openBracket p :: mark .closeBracket q :: ts, last⟩ with
  | case1 p' q' tokens hs dims rest bound heq =>
    obtain rfl : ts = tokens := (List.cons.inj (List.cons.inj hs).2).2
    rw [heq]
  | case2 h => exact absurd rfl (h p q ts)

/-- A bracket that is not closed at once is left. -/
theorem dims_none (h : s.peekAt? 0 = some (.symbol .openBracket) → s.peekAt? 1 ≠ some (.symbol .closeBracket)) :
    dims s = .ok s := by
  unfold dims
  fun_cases brackets s with
  | case1 p q tokens hs =>
    rw [Stream.peekAt?, Stream.peekAt?, hs] at h
    exact absurd rfl (h rfl)
  | case2 => rfl

/-- Whether there are further brackets shows in the next two tokens. -/
theorem tracked_dims (s : Stream) : Tracked .dims dims s := by
  fun_induction brackets s with
  | case1 s p q tokens hs n rest bound heq ih =>
    obtain ⟨all, last⟩ := s
    obtain rfl : all = _ := hs
    refine .after (n := 2) (R := dims) (by simp) (fun s' hs' => ?_) ?_
    · obtain ⟨p', ts', last', rfl, hts'⟩ := hs'.cons
      obtain ⟨q', us', last', heq', -⟩ := hts'.cons
      cases heq'
      exact dims_brackets p' q' us' last'
    · refine ih.mono fun ts hts => ?_
      obtain ⟨m, hm⟩ := hts
      exact ⟨m + 1, .succ hm⟩
  | case2 s hs =>
    have hstop : s.peekAt? 0 = some (.symbol .openBracket) → s.peekAt? 1 ≠ some (.symbol .closeBracket) := by
      intro hopen hclose
      obtain ⟨tokens, last⟩ := s
      obtain ⟨⟨_, p⟩, hfirst, rfl⟩ := Option.map_eq_some_iff.1 hopen
      obtain ⟨⟨_, q⟩, hsecond, rfl⟩ := Option.map_eq_some_iff.1 hclose
      cases tokens with
      | nil => cases hfirst
      | cons first rest =>
        cases hfirst
        cases rest with
        | nil => cases hsecond
        | cons second ts =>
          cases hsecond
          exact hs p q ts rfl
    refine tracked_nothing ⟨0, .zero⟩ fun s' hs' => dims_none ?_
    rw [← hs' 0 (by decide), ← hs' 1 (by decide)]
    exact hstop

theorem typeExpr_base_cons {token : Token} {base : TypeExpr} (h : baseType? token = some base) (p : Pos)
    (ts : Phrase) (last : Pos) : reader typeExpr ⟨⟨token, p⟩ :: ts, last⟩ = dims ⟨ts, last⟩ := by
  rw [reader, typeExpr, next_bind]
  simp only [h]
  rfl

/-- A pair type names both its sides. -/
theorem typeExpr_pair_cons (p : Pos) (ts : Phrase) (last : Pos) :
    reader typeExpr ⟨word .pair p :: ts, last⟩ =
      (reader (Stream.symbol · .openParen)).andThen ((reader pairSide).andThen
        ((reader (Stream.symbol · .comma)).andThen ((reader pairSide).andThen
          ((reader (Stream.symbol · .closeParen)).andThen dims)))) ⟨ts, last⟩ := by
  rw [reader, typeExpr, next_bind]
  simp only [baseType?, if_true]
  refine map_bind ?_
  rintro ⟨q, r₁, h₁⟩
  refine map_bind ?_
  rintro ⟨fst, r₂, h₂⟩
  refine map_bind ?_
  rintro ⟨r, r₃, h₃⟩
  refine map_bind ?_
  rintro ⟨snd, r₄, h₄⟩
  refine map_bind ?_
  rintro ⟨t, r₅, h₅⟩
  rfl

/-- A token that starts no type is blamed. -/
theorem typeExpr_other_cons {token : Token} (hbase : baseType? token = none) (hpair : token ≠ .keyword .pair)
    (p : Pos) (ts : Phrase) (last : Pos) :
    reader typeExpr ⟨⟨token, p⟩ :: ts, last⟩ = .error ⟨.type token, p⟩ := by
  rw [reader, typeExpr, next_bind]
  simp only [hbase, if_neg hpair]
  rfl

/-- What follows the word `pair` as a side of a pair: brackets, and no parenthesis. -/
def barePair : Reader := fun s =>
  if s.peek? = some (.symbol .openParen) then .error (s.unexpected (.token (.symbol .comma))) else dims s

theorem pairSide_pair_cons (p : Pos) (ts : Phrase) (last : Pos) :
    reader pairSide ⟨word .pair p :: ts, last⟩ = barePair ⟨ts, last⟩ := by
  obtain ⟨hlt, hsome⟩ := nextIf?_of_eq ⟨ts, last⟩ (.keyword .pair) p []
  change Stream.nextIf? ⟨word .pair p :: ts, last⟩ _ = some ⟨(), ⟨ts, last⟩, hlt⟩ at hsome
  rw [reader, pairSide, hsome, barePair]
  simp only
  split <;> rfl

/-- Other sides are types like any other. -/
theorem pairSide_type (h : s.peek? ≠ some (.keyword .pair)) : reader pairSide s = reader typeExpr s := by
  rw [reader, pairSide, nextIf?_eq_none.2 h]
  simp only [reader]
  cases typeExpr s <;> rfl

/-- A pair inside a pair has no sides, or it is an array. -/
theorem tracked_barePair (s : Stream) {p : Pos} :
    Tracked (fun ts => Lang.pairSide (word .pair p :: ts)) barePair s := by
  have hdims : ∀ ts, Lang.dims ts → Lang.pairSide (word .pair p :: ts) :=
    fun ts ⟨n, hn⟩ => ⟨_, .pairSideOf hn⟩
  by_cases hopen : s.peek? = some (.symbol .openParen)
  · obtain ⟨tokens, last⟩ := s
    cases tokens with
    | nil => cases hopen
    | cons t ts =>
      obtain ⟨token, q⟩ := t
      obtain rfl : token = .symbol .openParen := Option.some.inj hopen
      exact tracked_blamed (.token (.symbol .comma) (.symbol .openParen)) (by simp) ⟨[], _, .pair⟩
        fun _ _ _ _ => rfl
  · refine ((tracked_dims s).mono hdims).congr fun s' hs' => ?_
    rw [barePair, hs'.peek?, if_neg hopen]

/-- A word that names a type, with its brackets. -/
theorem tracked_base {token : Token} {base : TypeExpr} (h : baseType? token = some base) {L : Lang} {p : Pos}
    (hL : ∀ keyword n ts, token = .keyword keyword → BaseType keyword base → Brackets n ts →
      L (word keyword p :: ts)) (ts : Phrase) (last : Pos) :
    Tracked L (reader typeExpr) ⟨⟨token, p⟩ :: ts, last⟩ := by
  obtain ⟨keyword, rfl, hbase⟩ := baseType?_eq_some.1 h
  refine tracked_next (fun p' ts' last' _ => typeExpr_base_cons h p' ts' last') ?_
  refine (tracked_dims _).mono fun ts hts => ?_
  obtain ⟨n, hn⟩ := hts
  exact hL keyword n ts rfl hbase hn

/-- Reading a side blames the first token that no side goes on with. -/
theorem tracked_pairSide (s : Stream) : Tracked .pairSide (reader pairSide) s := by
  obtain ⟨tokens, last⟩ := s
  cases tokens with
  | nil =>
    refine tracked_end Lang.possible_pairSide ?_
    rw [pairSide_type (by simp [Stream.peek?, Stream.peekAt?]), reader, typeExpr]
    rfl
  | cons t ts =>
    obtain ⟨token, p⟩ := t
    by_cases hpair : token = .keyword .pair
    · subst hpair
      exact tracked_next (fun p' ts' last' _ => pairSide_pair_cons p' ts' last') (tracked_barePair _)
    · have htype : Tracked .pairSide (reader typeExpr) ⟨⟨token, p⟩ :: ts, last⟩ := by
        cases hbase : baseType? token with
        | some base => exact tracked_base hbase (fun _ _ _ _ hword hn => ⟨_, .arrayOf hword hn⟩) ts last
        | none =>
          exact tracked_blamed (.type token) (by simp) Lang.possible_pairSide
            fun p' ts' last' _ => typeExpr_other_cons hbase hpair p' ts' last'
      refine htype.congr fun s' hs' => pairSide_type ?_
      rw [hs'.peek?]
      exact fun h => hpair (Option.some.inj h)

/-- Reading a type blames the first token that no type goes on with. -/
theorem tracked_typeExpr (s : Stream) : Tracked .type (reader typeExpr) s := by
  obtain ⟨tokens, last⟩ := s
  cases tokens with
  | nil =>
    refine tracked_end Lang.possible_type ?_
    rw [reader, typeExpr]
    rfl
  | cons t ts =>
    obtain ⟨token, p⟩ := t
    by_cases hpair : token = .keyword .pair
    · subst hpair
      refine tracked_next (fun p' ts' last' _ => typeExpr_pair_cons p' ts' last') ?_
      refine Tracked.mono ?_ fun ts => Lang.type_of_pairTail
      have hclose := (Lang.possible_token (.symbol .closeParen)).followedBy Lang.possible_dims
      have hsnd := Lang.possible_pairSide.followedBy hclose
      have hcomma := (Lang.possible_token (.symbol .comma)).followedBy hsnd
      have hfst := Lang.possible_pairSide.followedBy hcomma
      refine (tracked_symbol _ _).andThen hfst fun r₁ _ => ?_
      refine (tracked_pairSide _).andThen hcomma fun r₂ _ => ?_
      refine (tracked_symbol _ _).andThen hsnd fun r₃ _ => ?_
      refine (tracked_pairSide _).andThen hclose fun r₄ _ => ?_
      exact (tracked_symbol _ _).andThen Lang.possible_dims fun r₅ _ => tracked_dims r₅
    · cases hbase : baseType? token with
      | some base => exact tracked_base hbase (fun _ _ _ _ hword hn => ⟨_, .arrayOf (.base hword) hn⟩) ts last
      | none =>
        exact tracked_blamed (.type token) (by simp) Lang.possible_type
          fun p' ts' last' _ => typeExpr_other_cons hbase hpair p' ts' last'

end Parser

end WaccArm
