import WaccArm.Proofs.Emission.Run
import WaccArm.Proofs.Parser.Grammar
import WaccArm.Token.Stream

namespace WaccArm

namespace Grammar

/-- The phrase starts with an accepted token. -/
def Starts (accept : Token → Bool) (ts : Phrase) : Prop := ∃ t us, ts = t :: us ∧ accept t.val

theorem Starts.append {accept : Token → Bool} {ts : Phrase} (h : Starts accept ts) (us : Phrase) :
    Starts accept (ts ++ us) := by
  obtain ⟨t, ts, rfl, ht⟩ := h
  exact ⟨t, ts ++ us, rfl, ht⟩

end Grammar

namespace Stream

/-- The stream with a phrase put in front. -/
def prepend (r : Stream) (ts : Grammar.Phrase) : Stream := ⟨ts ++ r.tokens, r.last⟩

@[simp] theorem prepend_nil (r : Stream) : r.prepend [] = r := rfl

@[simp] theorem prepend_prepend (r : Stream) (ts us : Grammar.Phrase) :
    (r.prepend us).prepend ts = r.prepend (ts ++ us) := by
  simp [prepend]

/-- Phrases read one after the other are one phrase. -/
theorem prepend_trans {s t r : Stream} {ts us : Grammar.Phrase} (hs : s = t.prepend ts)
    (ht : t = r.prepend us) : s = r.prepend (ts ++ us) := by
  rw [hs, ht, prepend_prepend]

/-- A phrase starts where the stream does. -/
theorem startsAt_pos {s r : Stream} {accept : Token → Bool} {ts : Grammar.Phrase} (hs : s = r.prepend ts)
    (hstarts : Grammar.Starts accept ts) : Grammar.StartsAt ts s.pos := by
  obtain ⟨t, us, rfl, -⟩ := hstarts
  rw [hs]
  rfl

/-- A phrase starts at the place of its first token. -/
theorem pos_of_startsAt {r : Stream} {ts us : Grammar.Phrase} {pos : Pos} (h : Grammar.StartsAt ts pos) :
    (r.prepend (ts ++ us)).pos = pos := by
  cases ts with
  | nil => cases h
  | cons t ts => exact Option.some.inj h

end Stream

namespace Parser

open Grammar (Phrase)

variable {α β : Type} {s s' r t : Stream} {a : α} {v : β}

/-- A value is read, and `r` is left. -/
def Reads (x : Parse α s) (a : α) (r : Stream) : Prop := ∃ h, x = .ok ⟨a, r, h⟩

/-- A value is read, maybe without taking a token, and `r` is left. -/
def Trails (x : Except SyntaxError (Trailing α s)) (a : α) (r : Stream) : Prop := ∃ h, x = .ok ⟨a, r, h⟩

/-- Phrases are read one after the other. -/
theorem Reads.bind {x : Parse α s} {f : Parsed α s → Parse β s'} (hx : Reads x a t)
    (hf : ∀ h, Reads (f ⟨a, t, h⟩) v r) : Reads (x >>= f) v r := by
  obtain ⟨h, rfl⟩ := hx
  exact hf h

theorem Trails.bind {x : Except SyntaxError (Trailing α s)} {f : Trailing α s → Parse β s'}
    (hx : Trails x a t) (hf : ∀ h, Reads (f ⟨a, t, h⟩) v r) : Reads (x >>= f) v r := by
  obtain ⟨h, rfl⟩ := hx
  exact hf h

theorem Reads.bindTrails {x : Parse α s} {f : Parsed α s → Except SyntaxError (Trailing β s')}
    (hx : Reads x a t) (hf : ∀ h, Trails (f ⟨a, t, h⟩) v r) : Trails (x >>= f) v r := by
  obtain ⟨h, rfl⟩ := hx
  exact hf h

/-- Phrases that may be empty are read one after the other. -/
theorem Trails.bindTrails {x : Except SyntaxError (Trailing α s)}
    {f : Trailing α s → Except SyntaxError (Trailing β s')}
    (hx : Trails x a t) (hf : ∀ h, Trails (f ⟨a, t, h⟩) v r) : Trails (x >>= f) v r := by
  obtain ⟨h, rfl⟩ := hx
  exact hf h

theorem reads_next (r : Stream) (t : Located Token) (ts : Phrase) :
    Reads (r.prepend (t :: ts)).next t (r.prepend ts) := ⟨_, rfl⟩

/-- The next token was in front. -/
theorem next_eq_ok {t : Located Token} {h : r.tokens.length < s.tokens.length}
    (hnext : s.next = .ok ⟨t, r, h⟩) : s = r.prepend [t] := by
  obtain ⟨tokens, last⟩ := s
  cases tokens with
  | nil => cases hnext
  | cons t' tokens =>
    cases hnext
    rfl

/-- A token that is asked for is taken. -/
theorem reads_consume (r : Stream) (token : Token) (p : Pos) (ts : Phrase) :
    Reads ((r.prepend (⟨token, p⟩ :: ts)).consume token) p (r.prepend ts) := by
  refine Reads.bind (reads_next ..) fun h => ?_
  simp only [if_true]
  exact ⟨_, rfl⟩

/-- What was taken is what was asked for. -/
theorem consume_eq_ok {token : Token} {p : Pos} {h : r.tokens.length < s.tokens.length}
    (hok : s.consume token = .ok ⟨p, r, h⟩) : s = r.prepend [⟨token, p⟩] := by
  rw [Stream.consume] at hok
  obtain ⟨⟨⟨val, pos⟩, rest, _⟩, hnext, hok⟩ := except_bind_eq_ok.1 hok
  simp only at hok
  split at hok
  · rename_i hval
    cases hok
    rw [next_eq_ok hnext, hval]
  · cases hok

theorem reads_symbol (r : Stream) (symbol : Symbol) (p : Pos) (ts : Phrase) :
    Reads ((r.prepend (Grammar.mark symbol p :: ts)).symbol symbol) p (r.prepend ts) :=
  reads_consume ..

theorem reads_keyword (r : Stream) (keyword : Keyword) (p : Pos) (ts : Phrase) :
    Reads ((r.prepend (Grammar.word keyword p :: ts)).keyword keyword) p (r.prepend ts) :=
  reads_consume ..

theorem reads_identifier (r : Stream) (name : String) (p : Pos) (ts : Phrase) :
    Reads (r.prepend (Grammar.ident name p :: ts)).identifier name (r.prepend ts) :=
  Reads.bind (reads_next ..) fun _ => ⟨_, rfl⟩

theorem identifier_eq_ok {name : String} {h : r.tokens.length < s.tokens.length}
    (hok : s.identifier = .ok ⟨name, r, h⟩) : ∃ p, s = r.prepend [Grammar.ident name p] := by
  rw [Stream.identifier] at hok
  obtain ⟨⟨⟨val, pos⟩, rest, _⟩, hnext, hok⟩ := except_bind_eq_ok.1 hok
  simp only at hok
  split at hok
  · cases hok
    exact ⟨pos, next_eq_ok hnext⟩
  · cases hok

section

variable {accept : Token → Option α}

theorem nextMap?_of_accept {t : Located Token} (r : Stream) (ts : Phrase) (h : accept t.val = some a) :
    ∃ hlt, (r.prepend (t :: ts)).nextMap? accept = some ⟨a, r.prepend ts, hlt⟩ := by
  refine ⟨Nat.lt_succ_self _, ?_⟩
  change (accept t.val).map _ = _
  rw [h]
  rfl

/-- A token is taken only if it is accepted. -/
theorem nextMap?_eq_some {h : r.tokens.length < s.tokens.length}
    (hsome : s.nextMap? accept = some ⟨a, r, h⟩) :
    ∃ t : Located Token, s = r.prepend [t] ∧ accept t.val = some a := by
  obtain ⟨tokens, last⟩ := s
  cases tokens with
  | nil => cases hsome
  | cons t tokens =>
    obtain ⟨value, hvalue, heq⟩ := Option.map_eq_some_iff.1 hsome
    cases heq
    exact ⟨t, rfl, hvalue⟩

/-- A token that is not accepted is left. -/
theorem nextMap?_eq_none : s.nextMap? accept = none ↔ ∀ token, s.peek? = some token → accept token = none := by
  obtain ⟨tokens, last⟩ := s
  cases tokens with
  | nil =>
    constructor
    · intro _ token htoken
      cases htoken
    · exact fun _ => rfl
  | cons t tokens =>
    change (accept t.val).map _ = none ↔ ∀ token, some t.val = some token → accept token = none
    rw [Option.map_eq_none_iff]
    exact ⟨fun h token htoken => Option.some.inj htoken ▸ h, fun h => h _ rfl⟩

end

theorem nextIf?_of_eq (r : Stream) (token : Token) (p : Pos) (ts : Phrase) :
    ∃ hlt, (r.prepend (⟨token, p⟩ :: ts)).nextIf? token = some ⟨(), r.prepend ts, hlt⟩ :=
  nextMap?_of_accept r ts (if_pos rfl)

theorem nextIf?_eq_some {token : Token} {h : r.tokens.length < s.tokens.length}
    (hsome : s.nextIf? token = some ⟨(), r, h⟩) : ∃ p, s = r.prepend [⟨token, p⟩] := by
  obtain ⟨⟨val, pos⟩, rfl, haccept⟩ := nextMap?_eq_some hsome
  by_cases hval : val = token
  · exact ⟨pos, by rw [hval]⟩
  · rw [if_neg hval] at haccept
    cases haccept

/-- Another token than the one asked for is left. -/
theorem nextIf?_eq_none {token : Token} : s.nextIf? token = none ↔ s.peek? ≠ some token := by
  rw [Stream.nextIf?, nextMap?_eq_none]
  constructor
  · intro h hpeek
    have hnone := h token hpeek
    rw [if_pos rfl] at hnone
    cases hnone
  · intro h other hother
    refine if_neg fun heq => h ?_
    rw [hother, heq]

end Parser

end WaccArm
