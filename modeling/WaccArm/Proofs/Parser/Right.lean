import WaccArm.Proofs.Parser.Expr

namespace WaccArm

namespace Grammar

variable {e : Source.Expr} {ts : Phrase}

/-- The tokens that a place can start with. -/
def startsPlace : Token → Bool
  | .ident _ | .keyword .fst | .keyword .snd => true
  | _ => false

theorem startsPlace_side (side : Side) : startsPlace (.keyword (sideWord side)) := by
  cases side <;> rfl

/-- A place starts with a side or a name. -/
theorem PlaceSpelled.starts (h : PlaceSpelled e ts) : Starts startsPlace ts := by
  cases h with
  | named h =>
    cases h with
    | var | elem => exact ⟨_, _, rfl, rfl⟩
  | side => exact ⟨_, _, rfl, startsPlace_side _⟩

theorem ListSpelled.starts {es : List Source.Expr} (h : ListSpelled es ts) : Starts startsExpr ts := by
  cases h with
  | one h => exact h.starts
  | cons h _ => exact Starts.append h.starts _

end Grammar

namespace Parser

open Grammar

variable {r s : Stream}

theorem side?_eq_some {token : Token} {side : Side} :
    side? token = some side ↔ token = .keyword (sideWord side) := by
  constructor
  · intro h
    unfold side? at h
    split at h <;> cases h <;> rfl
  · rintro rfl
    cases side <;> rfl

/-- What is read as a place is spelled like one. -/
theorem place_sound (s : Stream) {e : Source.Expr} {r : Stream} {h : r.tokens.length < s.tokens.length}
    (hok : place s = .ok ⟨e, r, h⟩) : ∃ ts, s = r.prepend ts ∧ PlaceSpelled e ts := by
  rw [place] at hok
  obtain ⟨⟨⟨token, p⟩, r₁, h₁⟩, hnext, hok⟩ := except_bind_eq_ok.1 hok
  have hs := next_eq_ok hnext
  simp only at hok
  split at hok
  · rename_i side hside
    obtain ⟨⟨pair, r₂, h₂⟩, hplace, hok⟩ := except_bind_eq_ok.1 hok
    cases hok
    obtain ⟨ts, hr₁, hpair⟩ := place_sound r₁ hplace
    rw [side?_eq_some.1 hside] at hs
    exact ⟨_, Stream.prepend_trans hs hr₁, .side hpair⟩
  · obtain ⟨⟨es, r₂, h₂⟩, hindices, hok⟩ := except_bind_eq_ok.1 hok
    cases hok
    obtain ⟨ts, hr₁, hes⟩ := indices_sound r₁ hindices
    exact ⟨_, Stream.prepend_trans hs hr₁, .named (named_spelled hes)⟩
  · cases hok
termination_by s.tokens.length

theorem expression_spelled {e : Source.Expr} {h : r.tokens.length < s.tokens.length}
    (hok : expression 0 s = .ok ⟨e, r, h⟩) : ∃ ts, s = r.prepend ts ∧ ExprSpelled (.expr 0 e) ts := by
  obtain ⟨ts, hs, he, -⟩ := expression_sound 0 s hok (Nat.zero_le _)
  exact ⟨ts, hs, he⟩

/-- What is read as a list is spelled like one. -/
theorem commaSeparated_sound (close : Symbol) (s : Stream) {es : List Source.Expr} {r : Stream}
    {h : r.tokens.length < s.tokens.length} (hok : commaSeparated close s = .ok ⟨es, r, h⟩) :
    ∃ ts p, s = r.prepend (ts ++ [mark close p]) ∧ ListSpelled es ts := by
  rw [commaSeparated] at hok
  obtain ⟨⟨e, r₁, h₁⟩, hexpression, hok⟩ := except_bind_eq_ok.1 hok
  obtain ⟨⟨⟨token, p⟩, r₂, h₂⟩, hnext, hok⟩ := except_bind_eq_ok.1 hok
  obtain ⟨ts, hs, he⟩ := expression_spelled hexpression
  have hr₁ := next_eq_ok hnext
  simp only at hok
  split at hok
  · rename_i hcomma
    obtain rfl : token = .symbol .comma := hcomma
    obtain ⟨⟨es', r₃, h₃⟩, hothers, hok⟩ := except_bind_eq_ok.1 hok
    cases hok
    obtain ⟨us, q, hr₂, hes⟩ := commaSeparated_sound close r₂ hothers
    refine ⟨ts ++ mark .comma p :: us, q, ?_, .cons he hes⟩
    rw [Stream.prepend_trans hs (Stream.prepend_trans hr₁ hr₂), List.append_assoc]
    rfl
  · split at hok
    · rename_i hclose
      obtain rfl : token = .symbol close := hclose
      cases hok
      exact ⟨ts, p, Stream.prepend_trans hs hr₁, .one he⟩
    · cases hok
termination_by s.tokens.length

/-- A list may be empty. -/
theorem commaList_sound {close : Symbol} {es : List Source.Expr} {h : r.tokens.length < s.tokens.length}
    (hok : commaList close s = .ok ⟨es, r, h⟩) :
    ∃ ts p, s = r.prepend (ts ++ [mark close p]) ∧ ArgsSpelled es ts := by
  rw [commaList] at hok
  split at hok
  · rename_i r₁ h₁ hsome
    cases hok
    obtain ⟨p, hs⟩ := nextIf?_eq_some hsome
    exact ⟨[], p, hs, .none⟩
  · obtain ⟨ts, p, hs, hes⟩ := commaSeparated_sound close s hok
    exact ⟨ts, p, hs, .some hes⟩

theorem peek_eq_ok {token : Token} : s.peek = .ok token ↔ s.peek? = some token := by
  rw [Stream.peek]
  cases s.peek? <;> simp

/-- A token that was looked at is the next one. -/
theorem next_of_peek {token : Token} {t : Located Token} {h : r.tokens.length < s.tokens.length}
    (hpeek : s.peek? = some token) (hnext : s.next = .ok ⟨t, r, h⟩) : s = r.prepend [⟨token, s.pos⟩] := by
  have hs := next_eq_ok hnext
  rw [hs] at hpeek
  rw [← Option.some.inj hpeek, hs]
  rfl

/-- What is read as a right-hand side is spelled like one. -/
theorem rightSide_sound {e : Source.Expr} {h : r.tokens.length < s.tokens.length}
    (hok : rightSide s = .ok ⟨e, r, h⟩) : ∃ ts, s = r.prepend ts ∧ RightSpelled e ts := by
  rw [rightSide] at hok
  obtain ⟨token, hpeek, hok⟩ := except_bind_eq_ok.1 hok
  have hpeek := peek_eq_ok.1 hpeek
  split at hok
  · rename_i side hside
    obtain ⟨ts, hs, hplace⟩ := place_sound s hok
    refine ⟨ts, hs, ?_⟩
    cases hplace with
    | side h => exact .side h
    | named h =>
      -- A name starts with no word.
      rw [hs, side?_eq_some.1 hside] at hpeek
      cases h <;> cases hpeek
  · obtain ⟨⟨t, r₁, h₁⟩, hnext, hok⟩ := except_bind_eq_ok.1 hok
    obtain ⟨⟨es, r₂, h₂⟩, hlist, hok⟩ := except_bind_eq_ok.1 hok
    cases hok
    obtain ⟨ts, q, hr₁, hes⟩ := commaList_sound hlist
    exact ⟨_, Stream.prepend_trans (next_of_peek hpeek hnext) hr₁, .array hes⟩
  · obtain ⟨⟨t, r₁, h₁⟩, hnext, hok⟩ := except_bind_eq_ok.1 hok
    obtain ⟨⟨q, r₂, h₂⟩, hopen, hok⟩ := except_bind_eq_ok.1 hok
    obtain ⟨⟨fst, r₃, h₃⟩, hfst, hok⟩ := except_bind_eq_ok.1 hok
    obtain ⟨⟨u, r₄, h₄⟩, hcomma, hok⟩ := except_bind_eq_ok.1 hok
    obtain ⟨⟨snd, r₅, h₅⟩, hsnd, hok⟩ := except_bind_eq_ok.1 hok
    obtain ⟨⟨v, r₆, h₆⟩, hclose, hok⟩ := except_bind_eq_ok.1 hok
    cases hok
    obtain ⟨ts, hr₂, hfst⟩ := expression_spelled hfst
    obtain ⟨us, hr₄, hsnd⟩ := expression_spelled hsnd
    have hr₄ := Stream.prepend_trans hr₄ (consume_eq_ok hclose)
    have hr₂ := Stream.prepend_trans hr₂ (Stream.prepend_trans (consume_eq_ok hcomma) hr₄)
    have hr₁ := Stream.prepend_trans (consume_eq_ok hopen) hr₂
    exact ⟨_, Stream.prepend_trans (next_of_peek hpeek hnext) hr₁, .newPair hfst hsnd⟩
  · obtain ⟨⟨t, r₁, h₁⟩, hnext, hok⟩ := except_bind_eq_ok.1 hok
    obtain ⟨⟨name, r₂, h₂⟩, hname, hok⟩ := except_bind_eq_ok.1 hok
    obtain ⟨⟨q, r₃, h₃⟩, hopen, hok⟩ := except_bind_eq_ok.1 hok
    obtain ⟨⟨args, r₄, h₄⟩, hargs, hok⟩ := except_bind_eq_ok.1 hok
    cases hok
    obtain ⟨u, hr₁⟩ := identifier_eq_ok hname
    obtain ⟨ts, v, hr₃, hargs⟩ := commaList_sound hargs
    have hr₁ := Stream.prepend_trans hr₁ (Stream.prepend_trans (consume_eq_ok hopen) hr₃)
    exact ⟨_, Stream.prepend_trans (next_of_peek hpeek hnext) hr₁, .call hargs⟩
  · obtain ⟨ts, hs, he⟩ := expression_spelled hok
    exact ⟨ts, hs, .expr he⟩

/-- What is spelled like a place is read as it. -/
theorem reads_place {e : Source.Expr} {ts us : Phrase} (h : PlaceSpelled e ts)
    (hus : (r.prepend us).peek? ≠ some (.symbol .openBracket)) :
    Reads (place (r.prepend (ts ++ us))) e (r.prepend us) := by
  induction h with
  | named h =>
    obtain ⟨name, p, es, ts', rfl, rfl, hindices⟩ := read_of_spelled h
    rw [List.cons_append, place]
    refine Reads.bind (reads_next ..) fun h₁ => ?_
    exact Trails.bind (hindices us hus) fun _ => ⟨_, rfl⟩
  | @side side _ _ _ _ ih =>
    rw [List.cons_append, place]
    refine Reads.bind (reads_next ..) fun h₁ => ?_
    simp only [side?_eq_some.2 rfl]
    exact Reads.bind ih fun _ => ⟨_, rfl⟩

theorem reads_expression {e : Source.Expr} {ts us : Phrase} (h : ExprSpelled (.expr 0 e) ts)
    (hus : Ends (r.prepend us)) : Reads (expression 0 (r.prepend (ts ++ us))) e (r.prepend us) :=
  (read_of_spelled h).expression hus

/-- What can close a list of expressions. -/
def Closes (close : Symbol) : Prop := close = .closeParen ∨ close = .closeBracket

/-- A list is read up to its closing mark. -/
theorem reads_commaSeparated {close : Symbol} (hclose : Closes close) {es : List Source.Expr}
    {ts us : Phrase} {p : Pos} (h : ListSpelled es ts) :
    Reads (commaSeparated close (r.prepend (ts ++ mark close p :: us))) es (r.prepend us) := by
  induction h with
  | one h =>
    have hends : Ends (r.prepend (mark close p :: us)) := by
      rcases hclose with rfl | rfl <;> exact ends_cons nofun rfl
    have hne : Token.symbol close ≠ .symbol .comma := by
      rcases hclose with rfl | rfl <;> nofun
    rw [commaSeparated]
    refine Reads.bind (reads_expression h hends) fun h₁ => ?_
    refine Reads.bind (reads_next ..) fun h₂ => ?_
    simp only [if_neg hne, if_true]
    exact ⟨_, rfl⟩
  | @cons e es ts vs q h _ ih =>
    rw [List.append_assoc, List.cons_append, commaSeparated]
    refine Reads.bind (reads_expression h (ends_cons nofun rfl)) fun h₁ => ?_
    refine Reads.bind (reads_next ..) fun h₂ => ?_
    simp only [if_true]
    exact Reads.bind ih fun _ => ⟨_, rfl⟩

theorem reads_commaList {close : Symbol} (hclose : Closes close) {es : List Source.Expr}
    {ts us : Phrase} {p : Pos} (h : ArgsSpelled es ts) :
    Reads (commaList close (r.prepend (ts ++ mark close p :: us))) es (r.prepend us) := by
  cases h with
  | none =>
    obtain ⟨hlt, hsome⟩ := nextIf?_of_eq r (.symbol close) p us
    rw [List.nil_append, commaList, hsome]
    exact ⟨_, rfl⟩
  | some h =>
    have hnone : (r.prepend (ts ++ mark close p :: us)).nextIf? (.symbol close) = none := by
      refine nextIf?_eq_none.2 fun heq => ?_
      obtain ⟨⟨token, q⟩, ts', rfl, hstarts⟩ := h.starts
      obtain rfl : token = .symbol close := Option.some.inj heq
      rcases hclose with rfl | rfl <;> cases hstarts
    rw [commaList, hnone]
    exact reads_commaSeparated hclose h

theorem reads_peek {α : Type} {token : Token} {f : Token → Parse α s} {a : α} (hpeek : s.peek? = some token)
    (hf : Reads (f token) a r) : Reads (s.peek >>= f) a r := by
  rw [peek_eq_ok.2 hpeek]
  exact hf

/-- All other right-hand sides are expressions. -/
theorem rightSide_of_peek {token : Token} (hpeek : s.peek? = some token) (hstarts : startsExpr token) :
    rightSide s = expression 0 s := by
  rw [rightSide, peek_eq_ok.2 hpeek]
  cases token with
  | symbol symbol =>
    cases symbol with
    | openBracket => cases hstarts
    | _ => rfl
  | keyword keyword =>
    cases keyword with
    | fst | snd | newpair | call => cases hstarts
    | _ => rfl
  | _ => rfl

/-- What is spelled like a right-hand side is read as it. -/
theorem reads_rightSide {e : Source.Expr} {ts us : Phrase} (h : RightSpelled e ts)
    (hus : Ends (r.prepend us)) : Reads (rightSide (r.prepend (ts ++ us))) e (r.prepend us) := by
  cases h with
  | expr h =>
    obtain ⟨t, ts', rfl, hstarts⟩ := h.starts
    rw [rightSide_of_peek rfl hstarts]
    exact reads_expression h hus
  | @side side pair ts p h =>
    have hplace : Reads (place (r.prepend (word (sideWord side) p :: ts ++ us))) (.side p side pair)
        (r.prepend us) := reads_place (.side h) hus.bracket
    rw [rightSide]
    refine reads_peek rfl ?_
    simp only [side?_eq_some.2 rfl]
    exact hplace
  | array h =>
    rw [List.cons_append, List.append_assoc, rightSide]
    refine reads_peek rfl ?_
    simp only [side?]
    refine Reads.bind (reads_next ..) fun h₁ => ?_
    exact Reads.bind (reads_commaList (.inr rfl) h) fun _ => ⟨_, rfl⟩
  | @newPair fst snd ts ts' p q t u hfst hsnd =>
    have hphrase : word .newpair p :: mark .openParen q ::
        (ts ++ mark .comma t :: (ts' ++ [mark .closeParen u])) ++ us =
      word .newpair p :: mark .openParen q ::
        (ts ++ mark .comma t :: (ts' ++ mark .closeParen u :: us)) := by simp
    rw [hphrase, rightSide]
    refine reads_peek rfl ?_
    simp only [side?]
    refine Reads.bind (reads_next ..) fun h₁ => ?_
    refine Reads.bind (reads_symbol ..) fun h₂ => ?_
    refine Reads.bind (reads_expression hfst (ends_cons nofun rfl)) fun h₃ => ?_
    refine Reads.bind (reads_symbol ..) fun h₄ => ?_
    refine Reads.bind (reads_expression hsnd (ends_cons nofun rfl)) fun h₅ => ?_
    exact Reads.bind (reads_symbol ..) fun _ => ⟨_, rfl⟩
  | @call name args ts p q t u h =>
    have hphrase : word .call p :: ident name q :: mark .openParen t :: (ts ++ [mark .closeParen u]) ++ us =
      word .call p :: ident name q :: mark .openParen t :: (ts ++ mark .closeParen u :: us) := by simp
    rw [hphrase, rightSide]
    refine reads_peek rfl ?_
    simp only [side?]
    refine Reads.bind (reads_next ..) fun h₁ => ?_
    refine Reads.bind (reads_identifier ..) fun h₂ => ?_
    refine Reads.bind (reads_symbol ..) fun h₃ => ?_
    exact Reads.bind (reads_commaList (.inl rfl) h) fun _ => ⟨_, rfl⟩

end Parser

end WaccArm
