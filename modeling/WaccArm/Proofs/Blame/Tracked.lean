import WaccArm.Proofs.Parser.Stream

namespace WaccArm

namespace Stream

/-- The next `n` tokens of the streams are the same, wherever they stand. -/
def Agrees (n : Nat) (s s' : Stream) : Prop := ∀ k < n, s.peekAt? k = s'.peekAt? k

variable {s s' : Stream} {m n : Nat}

theorem Agrees.refl (n : Nat) (s : Stream) : s.Agrees n s := fun _ _ => rfl

theorem Agrees.mono (h : s.Agrees m s') (hle : n ≤ m) : s.Agrees n s' :=
  fun k hk => h k (Nat.lt_of_lt_of_le hk hle)

theorem peekAt?_drop (s : Stream) (n k : Nat) : (s.drop n).peekAt? k = s.peekAt? (n + k) := by
  simp [peekAt?, drop]

/-- Streams that agree do so behind the tokens that are dropped. -/
theorem Agrees.drop (h : s.Agrees (n + m) s') : (s.drop n).Agrees m (s'.drop n) := by
  intro k hk
  rw [peekAt?_drop, peekAt?_drop]
  exact h (n + k) (by omega)

theorem drop_drop (s : Stream) (m n : Nat) : (s.drop m).drop n = s.drop (m + n) := by
  simp [drop]

theorem Agrees.peek? (h : s.Agrees (n + 1) s') : s'.peek? = s.peek? := (h 0 (Nat.succ_pos n)).symm

/-- A token of one stream has its like in the other. -/
theorem Agrees.token (h : s.Agrees n s') {k : Nat} (hk : k < n) {t : Located Token}
    (ht : s.tokens[k]? = some t) : ∃ p, s'.tokens[k]? = some ⟨t.val, p⟩ := by
  have hpeek := h k hk
  rw [peekAt?, peekAt?, ht] at hpeek
  obtain ⟨⟨token, p⟩, ht', hval⟩ := Option.map_eq_some_iff.1 hpeek.symm
  obtain rfl : token = t.val := hval
  exact ⟨p, ht'⟩

/-- A stream that agrees with another starts with the same token. -/
theorem Agrees.cons {t : Located Token} {ts : Grammar.Phrase} {last : Pos}
    (h : (⟨t :: ts, last⟩ : Stream).Agrees (n + 1) s') :
    ∃ p ts' last', s' = ⟨⟨t.val, p⟩ :: ts', last'⟩ ∧ (⟨ts, last⟩ : Stream).Agrees n ⟨ts', last'⟩ := by
  obtain ⟨p, hp⟩ := h.token (Nat.succ_pos n) rfl
  obtain ⟨tokens, last'⟩ := s'
  cases tokens with
  | nil => cases hp
  | cons t' ts' =>
    cases hp
    refine ⟨p, ts', last', rfl, ?_⟩
    intro k hk
    exact h (k + 1) (Nat.succ_lt_succ hk)

/-- A stream that agrees with an empty one is empty. -/
theorem Agrees.nil {last : Pos} (h : (⟨[], last⟩ : Stream).Agrees (n + 1) s') : ∃ last', s' = ⟨[], last'⟩ := by
  have hpeek := h 0 (Nat.succ_pos n)
  obtain ⟨tokens, last'⟩ := s'
  cases tokens with
  | nil => exact ⟨last', rfl⟩
  | cons t ts => cases hpeek

end Stream

namespace Grammar

/-- A set of phrases. -/
abbrev Lang := Phrase → Prop

namespace Lang

/-- One token. -/
def token (t : Token) : Lang := fun ts => ∃ p, ts = [⟨t, p⟩]

/-- One name. -/
def name : Lang := fun ts => ∃ name p, ts = [ident name p]

/-- A phrase of `L`, and one of `M` behind it. -/
def followedBy (L M : Lang) : Lang := fun ts => ∃ us vs, ts = us ++ vs ∧ L us ∧ M vs

/-- There is a phrase. -/
def Possible (L : Lang) : Prop := ∃ ts, L ts

theorem possible_token (t : Token) : (token t).Possible := ⟨[⟨t, .nowhere⟩], .nowhere, rfl⟩

theorem possible_name : name.Possible := ⟨[ident "x" .nowhere], "x", .nowhere, rfl⟩

/-- Phrases can be put one after the other. -/
theorem Possible.followedBy {L M : Lang} (hL : L.Possible) (hM : M.Possible) : (L.followedBy M).Possible := by
  obtain ⟨us, hus⟩ := hL
  obtain ⟨vs, hvs⟩ := hM
  exact ⟨us ++ vs, us, vs, rfl, hus, hvs⟩

end Lang

end Grammar

namespace Parser

open Grammar

/-- A reader without its values. -/
abbrev Reader := Stream → Except SyntaxError Stream

variable {α β : Type}

def reader (f : (s : Stream) → Parse α s) : Reader := fun s => (f s).map Parsed.rest

def trailer (f : (s : Stream) → Except SyntaxError (Trailing α s)) : Reader := fun s => (f s).map Trailing.rest

/-- First one reader, then the other. -/
def Reader.andThen (R T : Reader) : Reader := fun s => R s >>= T

theorem Reader.andThen_ok {R T : Reader} {s r : Stream} (h : R s = .ok r) : R.andThen T s = T r := by
  rw [andThen, h]
  rfl

theorem Reader.andThen_error {R T : Reader} {s : Stream} {e : SyntaxError} (h : R s = .error e) :
    R.andThen T s = .error e := by
  rw [andThen, h]
  rfl

theorem Reader.andThen_assoc (R S T : Reader) : (R.andThen S).andThen T = R.andThen (S.andThen T) := by
  funext s
  cases h : R s with
  | error e => rw [andThen_error (andThen_error h), andThen_error h]
  | ok r => rw [andThen_ok h, andThen, andThen_ok h, andThen]

/-- What a reader does at `s`, if `L` are the phrases that it looks for. -/
inductive Tracked (L : Lang) (R : Reader) (s : Stream) : Prop
  | read {n : Nat} (hn : n ≤ s.tokens.length) (hread : L (s.tokens.take n))
    (h : ∀ s', s.Agrees (n + 2) s' → R s' = .ok (s'.drop n))
  | ended {p : Pos} (hmore : ∃ more, L (s.tokens ++ more)) (h : R s = .error ⟨.endOfInput, p⟩)
  | blamed {fault : SyntaxFault} {k : Nat} {t : Located Token} (hfault : fault ≠ .endOfInput)
    (ht : s.tokens[k]? = some t) (hmore : ∃ more, L (s.tokens.take k ++ more))
    (h : ∀ s', s.Agrees (k + 2) s' → ∃ t', s'.tokens[k]? = some t' ∧ R s' = .error ⟨fault, t'.pos⟩)

variable {L M : Lang} {R T : Reader} {s : Stream}

/-- A reader of one language is a reader of a larger one. -/
theorem Tracked.mono (h : Tracked L R s) (hL : ∀ ts, L ts → M ts) : Tracked M R s := by
  cases h with
  | read hn hread h => exact .read hn (hL _ hread) h
  | ended hmore h => exact .ended (hmore.imp fun _ => hL _) h
  | blamed hfault ht hmore h => exact .blamed hfault ht (hmore.imp fun _ => hL _) h

/-- Two readers that do the same wherever the next two tokens are these. -/
theorem Tracked.congr (h : Tracked L R s) (heq : ∀ s', s.Agrees 2 s' → T s' = R s') : Tracked L T s := by
  cases h with
  | read hn hread h =>
    refine .read hn hread fun s' hs' => ?_
    rw [heq s' (hs'.mono (by omega)), h s' hs']
  | ended hmore h => exact .ended hmore ((heq s (.refl 2 s)).trans h)
  | blamed hfault ht hmore h =>
    refine .blamed hfault ht hmore fun s' hs' => ?_
    rw [heq s' (hs'.mono (by omega))]
    exact h s' hs'

/-- A reader that goes on behind `n` tokens as another one does. -/
theorem Tracked.after {n : Nat} (hn : n ≤ s.tokens.length)
    (heq : ∀ s', s.Agrees (n + 2) s' → T s' = R (s'.drop n))
    (h : Tracked (fun ts => L (s.tokens.take n ++ ts)) R (s.drop n)) : Tracked L T s := by
  have htokens : (s.drop n).tokens = s.tokens.drop n := rfl
  cases h with
  | @read m hm hread h =>
    rw [htokens, List.length_drop] at hm
    refine .read (n := n + m) (by omega) ?_ fun s' hs' => ?_
    · rw [List.take_add]
      exact hread
    · rw [heq s' (hs'.mono (by omega)), h _ (Stream.Agrees.drop (by rwa [Nat.add_assoc] at hs')),
        Stream.drop_drop]
  | ended hmore h =>
    refine .ended (hmore.imp fun more hmore => ?_) ((heq s (.refl _ s)).trans h)
    rwa [htokens, ← List.append_assoc, List.take_append_drop] at hmore
  | @blamed fault k t hfault ht hmore h =>
    rw [htokens, List.getElem?_drop] at ht
    refine .blamed (k := n + k) hfault ht (hmore.imp fun more hmore => ?_) fun s' hs' => ?_
    · rwa [htokens, ← List.append_assoc, ← List.take_add] at hmore
    · rw [heq s' (hs'.mono (by omega))]
      obtain ⟨t', ht', hfail⟩ := h _ (Stream.Agrees.drop (by rwa [Nat.add_assoc] at hs'))
      refine ⟨t', ?_, hfail⟩
      simpa [Stream.drop] using ht'

/-- First one reader, then another one: what the first one takes has to be the start of a phrase, and the other
one is tracked behind it. -/
theorem Tracked.bind (hR : Tracked M R s) (hmore : ∀ us, M us → ∃ vs, L (us ++ vs))
    (hT : ∀ r us, R s = .ok r → s = r.prepend us → M us → Tracked (fun vs => L (us ++ vs)) T r) :
    Tracked L (R.andThen T) s := by
  cases hR with
  | @read n hn hread h =>
    have hs : s = (s.drop n).prepend (s.tokens.take n) := by
      rw [Stream.prepend, Stream.drop, List.take_append_drop]
    exact .after hn (fun s' hs' => Reader.andThen_ok (h s' hs')) (hT _ _ (h s (.refl _ s)) hs hread)
  | ended hend h =>
    refine .ended ?_ (Reader.andThen_error h)
    obtain ⟨vs, hvs⟩ := hend
    obtain ⟨ws, hws⟩ := hmore _ hvs
    exact ⟨vs ++ ws, by rwa [← List.append_assoc]⟩
  | @blamed fault k t hfault ht hend h =>
    refine .blamed hfault ht ?_ fun s' hs' => ?_
    · obtain ⟨vs, hvs⟩ := hend
      obtain ⟨ws, hws⟩ := hmore _ hvs
      exact ⟨vs ++ ws, by rwa [← List.append_assoc]⟩
    · obtain ⟨t', ht', hfail⟩ := h s' hs'
      exact ⟨t', ht', Reader.andThen_error hfail⟩

/-- The same for phrases that follow each other. -/
theorem Tracked.andThen (hR : Tracked L R s) (hM : M.Possible) (hT : ∀ r, R s = .ok r → Tracked M T r) :
    Tracked (L.followedBy M) (R.andThen T) s := by
  refine hR.bind (fun us hus => ?_) fun r us hr _ hus => ?_
  · obtain ⟨vs, hvs⟩ := hM
    exact ⟨vs, us, vs, rfl, hus, hvs⟩
  · exact (hT r hr).mono fun vs hvs => ⟨us, vs, rfl, hus, hvs⟩

variable {token : Token} {p last : Pos} {ts : Phrase}

theorem tracked_end (hL : L.Possible) (h : R ⟨[], last⟩ = .error ⟨.endOfInput, last⟩) :
    Tracked L R ⟨[], last⟩ := .ended hL h

/-- The next token is taken, and another reader goes on. -/
theorem tracked_next
    (heq : ∀ p' ts' last', (⟨ts, last⟩ : Stream).Agrees 2 ⟨ts', last'⟩ →
      R ⟨⟨token, p'⟩ :: ts', last'⟩ = T ⟨ts', last'⟩)
    (h : Tracked (fun us => L (⟨token, p⟩ :: us)) T ⟨ts, last⟩) : Tracked L R ⟨⟨token, p⟩ :: ts, last⟩ := by
  refine .after (n := 1) (by simp) (fun s' hs' => ?_) h
  obtain ⟨p', ts', last', rfl, hts⟩ := hs'.cons
  exact heq p' ts' last' hts

/-- A reader that takes one token goes on as another does behind it. -/
theorem tracked_step {r : Stream} (hs : s = r.prepend [⟨token, p⟩])
    (heq : ∀ p' ts' last', r.Agrees 2 ⟨ts', last'⟩ → R ⟨⟨token, p'⟩ :: ts', last'⟩ = T ⟨ts', last'⟩)
    (h : Tracked (fun us => L (⟨token, p⟩ :: us)) T r) : Tracked L R s := by
  subst hs
  exact tracked_next heq h

/-- The next token is taken, and that is all. -/
theorem tracked_only (hL : L [⟨token, p⟩])
    (h : ∀ p' ts' last', R ⟨⟨token, p'⟩ :: ts', last'⟩ = .ok ⟨ts', last'⟩) :
    Tracked L R ⟨⟨token, p⟩ :: ts, last⟩ := by
  refine .read (n := 1) (by simp) hL fun s' hs' => ?_
  obtain ⟨p', ts', last', rfl, -⟩ := hs'.cons
  exact h p' ts' last'

/-- Nothing is taken, because of the next token or the one behind it. -/
theorem tracked_nothing (hL : L []) (h : ∀ s', s.Agrees 2 s' → R s' = .ok s') : Tracked L R s :=
  .read (Nat.zero_le _) hL h

/-- The next token is blamed, because of itself or of the one behind it. -/
theorem tracked_blamed (fault : SyntaxFault) (hfault : fault ≠ .endOfInput) (hL : L.Possible)
    (h : ∀ p' ts' last', (⟨ts, last⟩ : Stream).Agrees 1 ⟨ts', last'⟩ →
      R ⟨⟨token, p'⟩ :: ts', last'⟩ = .error ⟨fault, p'⟩) : Tracked L R ⟨⟨token, p⟩ :: ts, last⟩ := by
  refine .blamed (k := 0) (t := ⟨token, p⟩) hfault rfl hL fun s' hs' => ?_
  obtain ⟨p', ts', last', rfl, hts⟩ := hs'.cons
  exact ⟨⟨token, p'⟩, rfl, h p' ts' last' hts⟩

theorem consume_cons (expected : Token) (t : Located Token) (ts : Phrase) (last : Pos) :
    reader (Stream.consume · expected) ⟨t :: ts, last⟩ =
      if t.val = expected then .ok ⟨ts, last⟩ else .error ⟨.token expected t.val, t.pos⟩ := by
  change Except.map Parsed.rest (if t.val = expected then _ else _) = _
  split <;> rfl

/-- A token that is asked for is taken, or the one in its place is blamed. -/
theorem tracked_consume (expected : Token) (s : Stream) :
    Tracked (.token expected) (reader (Stream.consume · expected)) s := by
  obtain ⟨tokens, last⟩ := s
  cases tokens with
  | nil => exact tracked_end (Lang.possible_token expected) rfl
  | cons t ts =>
    obtain ⟨token, p⟩ := t
    by_cases htoken : token = expected
    · subst htoken
      refine tracked_only ⟨p, rfl⟩ fun p' ts' last' => ?_
      rw [consume_cons, if_pos rfl]
    · refine tracked_blamed (.token expected token) (by simp) (Lang.possible_token expected)
        fun p' ts' last' _ => ?_
      rw [consume_cons, if_neg htoken]

theorem tracked_symbol (mark : Symbol) (s : Stream) :
    Tracked (.token (.symbol mark)) (reader (Stream.symbol · mark)) s := tracked_consume _ s

theorem tracked_keyword (word : Keyword) (s : Stream) :
    Tracked (.token (.keyword word)) (reader (Stream.keyword · word)) s := tracked_consume _ s

/-- A name is taken, or what stands in its place is blamed. -/
theorem tracked_identifier (s : Stream) : Tracked .name (reader Stream.identifier) s := by
  obtain ⟨tokens, last⟩ := s
  cases tokens with
  | nil => exact tracked_end Lang.possible_name rfl
  | cons t ts =>
    obtain ⟨token, p⟩ := t
    cases token with
    | ident name => exact tracked_only ⟨name, p, rfl⟩ fun _ _ _ => rfl
    | _ => exact tracked_blamed (.identifier _) (by simp) Lang.possible_name fun _ _ _ _ => rfl

/-- What follows an item of a list: a comma and more of the list, or the mark that closes it. -/
def separator (close : Symbol) (more : Reader) : Reader := fun s =>
  match s.tokens with
  | [] => .error ⟨.endOfInput, s.last⟩
  | t :: ts =>
    if t.val = .symbol .comma then more ⟨ts, s.last⟩
    else if t.val = .symbol close then .ok ⟨ts, s.last⟩
    else .error ⟨.token (.symbol close) t.val, t.pos⟩

theorem separator_cons (close : Symbol) (more : Reader) (t : Located Token) (ts : Phrase) (last : Pos) :
    separator close more ⟨t :: ts, last⟩ =
      if t.val = .symbol .comma then more ⟨ts, last⟩
      else if t.val = .symbol close then .ok ⟨ts, last⟩
      else .error ⟨.token (.symbol close) t.val, t.pos⟩ := rfl

/-- Behind an item stands a comma and more, or the closing mark. -/
theorem tracked_separator {close : Symbol} {more : Reader} (hclose : ∀ p, L [mark close p])
    (hmore : ∀ r p, r.tokens.length < s.tokens.length → Tracked (fun ts => L (mark .comma p :: ts)) more r) :
    Tracked L (separator close more) s := by
  obtain ⟨tokens, last⟩ := s
  cases tokens with
  | nil => exact tracked_end ⟨_, hclose .nowhere⟩ rfl
  | cons t ts =>
    obtain ⟨token, p⟩ := t
    by_cases hcomma : token = .symbol .comma
    · subst hcomma
      refine tracked_next (fun p' ts' last' _ => ?_) (hmore ⟨ts, last⟩ p (Nat.lt_succ_self _))
      rw [separator_cons, if_pos rfl]
    · by_cases htoken : token = .symbol close
      · subst htoken
        refine tracked_only (hclose p) fun p' ts' last' => ?_
        rw [separator_cons, if_neg hcomma, if_pos rfl]
      · refine tracked_blamed (.token (.symbol close) token) (by simp) ⟨_, hclose .nowhere⟩ fun p' ts' last' _ => ?_
        rw [separator_cons, if_neg hcomma, if_neg htoken]

/-- The next token is there. -/
theorem next_bind (t : Located Token) (ts : Phrase) (last : Pos)
    (k : Parsed (Located Token) ⟨t :: ts, last⟩ → Except SyntaxError β) :
    ((⟨t :: ts, last⟩ : Stream).next >>= k) = k ⟨t, ⟨ts, last⟩, Nat.lt_succ_self _⟩ := rfl

/-- A reader that goes on with another one, whatever the value that was read. -/
theorem map_bind {ε γ δ : Type} {x : Except ε α} {k : α → Except ε β} {f : α → γ} {g : β → δ}
    {next : γ → Except ε δ} (hk : ∀ a, (k a).map g = next (f a)) : (x >>= k).map g = x.map f >>= next := by
  cases x with
  | error e => rfl
  | ok a => exact hk a

/-- A reader that ends with another one. -/
theorem map_bind_ok {ε γ : Type} {x : Except ε α} {k : α → Except ε β} {f : α → γ} {g : β → γ}
    (hk : ∀ a, (k a).map g = .ok (f a)) : (x >>= k).map g = x.map f := by
  cases x with
  | error e => rfl
  | ok a => exact hk a

/-- What a reader builds does not matter for what it leaves. -/
theorem map_bind_congr {ε δ : Type} {x : Except ε α} {k k' : α → Except ε β} {g : β → δ}
    (hk : ∀ a, (k a).map g = (k' a).map g) : (x >>= k).map g = (x >>= k').map g := by
  cases x with
  | error e => rfl
  | ok a => exact hk a

/-- A reader that succeeds has built something. -/
theorem reader_eq_ok {f : (s : Stream) → Parse α s} {r : Stream} (h : reader f s = .ok r) :
    ∃ a hlt, f s = .ok ⟨a, r, hlt⟩ := by
  unfold reader at h
  cases hf : f s with
  | error e =>
    rw [hf] at h
    cases h
  | ok parsed =>
    rw [hf] at h
    obtain ⟨a, r', hlt⟩ := parsed
    cases h
    exact ⟨a, hlt, rfl⟩

/-- A reader takes at least one token. -/
theorem reader_shorter {f : (s : Stream) → Parse α s} {r : Stream} (h : reader f s = .ok r) :
    r.tokens.length < s.tokens.length := by
  obtain ⟨a, hlt, -⟩ := reader_eq_ok h
  exact hlt

end Parser

end WaccArm
