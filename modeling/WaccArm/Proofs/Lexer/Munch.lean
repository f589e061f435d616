import WaccArm.Proofs.Lexer.Lexeme

namespace WaccArm

namespace Pos

/-- The place behind a text: its line is one more than the newlines there, and its column the number of bytes
behind the last of them. -/
def behind (text : List UInt8) : Pos :=
  ⟨1 + text.count '\n'.toUInt8, (text.reverse.takeWhile (· != '\n'.toUInt8)).length⟩

/-- The order of places in a text. -/
def Before (p q : Pos) : Prop := p.line < q.line ∨ p.line = q.line ∧ p.col < q.col

theorem Before.trans {p q r : Pos} (h : p.Before q) (h' : q.Before r) : p.Before r := by
  unfold Before at h h' ⊢
  omega

/-- The place behind a text is moved by each byte. -/
theorem behind_concat (text : List UInt8) (byte : UInt8) : behind (text ++ [byte]) = (behind text).after byte := by
  rw [behind, after, List.count_append, List.reverse_append]
  by_cases hline : byte = '\n'.toUInt8
  · simp [hline, behind, Nat.add_assoc]
  · simp [hline, behind]

/-- Keeping track byte by byte gives the place behind all the bytes. -/
theorem afterAll_behind (text bytes : List UInt8) : (behind text).afterAll bytes = behind (text ++ bytes) := by
  induction bytes generalizing text with
  | nil => simp [afterAll]
  | cons byte bytes ih =>
    change ((behind text).after byte).afterAll bytes = _
    rw [← behind_concat, ih, List.append_assoc, List.singleton_append]

/-- A byte moves the place forward. -/
theorem before_after (p : Pos) (byte : UInt8) : p.Before (p.after byte) := by
  unfold after
  split
  · exact .inl (Nat.lt_succ_self _)
  · exact .inr ⟨rfl, Nat.lt_succ_self _⟩

/-- The place behind a text moves on with every byte. -/
theorem behind_before_append (text : List UInt8) {more : List UInt8} (hmore : more ≠ []) :
    (behind text).Before (behind (text ++ more)) := by
  induction more generalizing text with
  | nil => exact absurd rfl hmore
  | cons byte more ih =>
    have hfirst := before_after (behind text) byte
    rw [← behind_concat] at hfirst
    rw [← List.singleton_append, ← List.append_assoc]
    by_cases hmore : more = []
    · simpa [hmore] using hfirst
    · exact hfirst.trans (ih (text ++ [byte]) hmore)

end Pos

namespace Lexer

open Text

/-- Trivia in front of `rest`. A comment runs up to a newline or to the end of the text. -/
inductive Trivia : List UInt8 → List UInt8 → Prop
  | nil {rest} : Trivia [] rest
  | space {byte g rest} (hbyte : byte ∈ [0x20, 0x09, 0x0a, 0x0c, 0x0d]) (h : Trivia g rest) :
    Trivia (byte :: g) rest
  | comment {body g rest} (hbody : '\n'.toUInt8 ∉ body)
    (hend : ∀ b ∈ (g ++ rest).head?, b = '\n'.toUInt8) (h : Trivia g rest) :
    Trivia ('#'.toUInt8 :: (body ++ g)) rest

/-- Nothing in front of the text is trivia. -/
def Bare (text : List UInt8) : Prop := ∀ b ∈ text.head?, startsTrivia b = false

theorem triviaLength_space {byte : UInt8} (h : isSpace byte) (rest : List UInt8) :
    triviaLength false (byte :: rest) = triviaLength false rest + 1 := by
  rw [triviaLength, if_pos h]

theorem triviaLength_hash (rest : List UInt8) :
    triviaLength false ('#'.toUInt8 :: rest) = triviaLength true rest + 1 := by
  rw [triviaLength, if_neg (by decide), if_pos rfl]

/-- A lexeme is not trivia. -/
theorem triviaLength_bare {text : List UInt8} (h : Bare text) : triviaLength false text = 0 := by
  cases text with
  | nil => rfl
  | cons byte rest =>
    have hbyte := h byte rfl
    simp only [startsTrivia, Bool.or_eq_false_iff, beq_eq_false_iff_ne] at hbyte
    rw [triviaLength, if_neg (by simp [hbyte.1]), if_neg hbyte.2]

/-- A comment ends in front of the newline, which is trivia by itself. -/
theorem triviaLength_comment {body rest : List UInt8} (hbody : '\n'.toUInt8 ∉ body)
    (hend : ∀ b ∈ rest.head?, b = '\n'.toUInt8) :
    triviaLength true (body ++ rest) = body.length + triviaLength false rest := by
  induction body with
  | nil =>
    cases rest with
    | nil => rfl
    | cons byte rest =>
      rw [hend byte rfl, triviaLength_space (by decide)]
      simp [triviaLength]
  | cons byte body ih =>
    rw [List.mem_cons, not_or] at hbody
    have hbyte : (byte != '\n'.toUInt8) = true := by simpa using Ne.symm hbody.1
    rw [List.cons_append, triviaLength, hbyte, ih hbody.2, List.length_cons]
    omega

/-- All trivia in front of a lexeme are skipped. -/
theorem triviaLength_of_trivia {g rest : List UInt8} (h : Trivia g rest) (hrest : Bare rest) :
    triviaLength false (g ++ rest) = g.length := by
  induction h with
  | nil => exact triviaLength_bare hrest
  | space hbyte _ ih =>
    rw [List.cons_append, triviaLength_space (decide_eq_true hbyte), ih hrest, List.length_cons]
  | comment hbody hend _ ih =>
    rw [List.cons_append, triviaLength_hash, List.append_assoc, triviaLength_comment hbody hend, ih hrest,
      List.length_cons, List.length_append]

/-- The rest of a line, without its newline. -/
theorem line_split (text : List UInt8) : ∃ body rest, text = body ++ rest ∧ '\n'.toUInt8 ∉ body ∧
    ∀ b ∈ rest.head?, b = '\n'.toUInt8 := by
  refine ⟨text.takeWhile (· != '\n'.toUInt8), text.dropWhile (· != '\n'.toUInt8),
    List.takeWhile_append_dropWhile.symm, ?_, ?_⟩
  · intro hmem
    have hline := List.all_eq_true.1 List.all_takeWhile _ hmem
    simp at hline
  · intro b hb
    simpa using head_dropWhile text b hb

/-- What is skipped is trivia, and nothing behind it is. -/
theorem trivia_of_triviaLength (text : List UInt8) :
    ∃ g rest, text = g ++ rest ∧ g.length = triviaLength false text ∧ Trivia g rest ∧ Bare rest := by
  cases text with
  | nil => exact ⟨[], [], rfl, rfl, .nil, by simp [Bare]⟩
  | cons byte text =>
    by_cases hspace : isSpace byte
    · obtain ⟨g, rest, rfl, hlength, htrivia, hbare⟩ := trivia_of_triviaLength text
      refine ⟨byte :: g, rest, rfl, ?_, .space (of_decide_eq_true hspace) htrivia, hbare⟩
      rw [triviaLength_space hspace, List.length_cons, hlength]
    by_cases hhash : byte = '#'.toUInt8
    · obtain ⟨body, others, htext, hbody, hend⟩ := line_split text
      have hlt : others.length < (byte :: text).length := by
        rw [htext, List.length_cons, List.length_append]
        omega
      obtain ⟨g, rest, rfl, hlength, htrivia, hbare⟩ := trivia_of_triviaLength others
      rw [hhash, htext]
      refine ⟨'#'.toUInt8 :: (body ++ g), rest, by simp, ?_, .comment hbody hend htrivia, hbare⟩
      rw [triviaLength_hash, triviaLength_comment hbody hend, ← hlength, List.length_cons, List.length_append]
    · have hbare : Bare (byte :: text) := by
        intro b hb
        cases hb
        simp [startsTrivia, hspace, hhash]
      exact ⟨[], byte :: text, rfl, (triviaLength_bare hbare).symm, .nil, hbare⟩
termination_by text.length

/-- A token, its lexeme and the trivia in front of the lexeme. -/
structure Piece where
  gap : List UInt8
  lexeme : List UInt8
  token : Token
deriving DecidableEq

/-- The pieces of a text. Behind the last one there is trivia only. -/
inductive Splits : List UInt8 → List Piece → Prop
  | last {g} (hgap : Trivia g []) : Splits g []
  | cons {g w rest t pieces} (hgap : Trivia g (w ++ rest)) (hlexeme : Munched t w rest)
    (hrest : Splits rest pieces) : Splits (g ++ (w ++ rest)) (⟨g, w, t⟩ :: pieces)

/-- The tokens of the pieces that stand behind `text`, each at the place of its lexeme. -/
def placed (text : List UInt8) : List Piece → List (Located Token)
  | [] => []
  | piece :: pieces =>
    ⟨piece.token, .behind (text ++ piece.gap)⟩ :: placed (text ++ (piece.gap ++ piece.lexeme)) pieces

/-- No lexeme starts like trivia. -/
theorem bare_lexeme {t : Token} {w rest : List UInt8} (h : Munched t w rest) : Bare (w ++ rest) := by
  obtain ⟨first, tail, rfl, hfirst, -⟩ := scan_of_munched h
  intro b hb
  cases hb
  exact hfirst

theorem lexeme_ne_nil {t : Token} {w rest : List UInt8} (h : Munched t w rest) : w ≠ [] := by
  obtain ⟨first, tail, rfl, -⟩ := scan_of_munched h
  simp

/-- The lexeme at the front of a text is determined by the text. -/
theorem Munched.unique {t t' : Token} {w w' rest rest' : List UInt8} (h : Munched t w rest)
    (h' : Munched t' w' rest') (heq : w ++ rest = w' ++ rest') : t = t' ∧ w = w' ∧ rest = rest' := by
  obtain ⟨first, tail, rfl, -, hscan⟩ := scan_of_munched h
  obtain ⟨first', tail', rfl, -, hscan'⟩ := scan_of_munched h'
  rw [List.cons_append, List.cons_append, List.cons.injEq] at heq
  obtain ⟨rfl, htails⟩ := heq
  rw [htails, hscan', Except.ok.injEq, Lexeme.mk.injEq] at hscan
  obtain ⟨hvalue, hlength⟩ := hscan
  obtain ⟨htail, hrest⟩ := List.append_inj htails hlength.symm
  exact ⟨hvalue.symm, by rw [htail], hrest⟩

/-- Trivia is skipped up to the place where no more follows. -/
theorem gap_unique {g g' rest rest' : List UInt8} (h : Trivia g rest) (hrest : Bare rest) (h' : Trivia g' rest')
    (hrest' : Bare rest') (heq : g ++ rest = g' ++ rest') : g = g' ∧ rest = rest' := by
  have hlength := triviaLength_of_trivia h hrest
  rw [heq, triviaLength_of_trivia h' hrest'] at hlength
  exact List.append_inj heq hlength.symm

theorem bare_nil : Bare [] := by simp [Bare]

/-- A text has at most one split. -/
theorem Splits.unique {text : List UInt8} {pieces pieces' : List Piece} (h : Splits text pieces)
    (h' : Splits text pieces') : pieces = pieces' := by
  induction h generalizing pieces' with
  | @last g hgap =>
    generalize htext : g = text at h'
    cases h' with
    | last => rfl
    | @cons g' w rest t pieces hgap' hlexeme _ =>
      have hend := (gap_unique hgap bare_nil hgap' (bare_lexeme hlexeme) (by simpa using htext)).2
      exact absurd (List.append_eq_nil_iff.1 hend.symm).1 (lexeme_ne_nil hlexeme)
  | @cons g w rest t pieces hgap hlexeme _ ih =>
    generalize htext : g ++ (w ++ rest) = text at h'
    cases h' with
    | last hgap' =>
      have hend := (gap_unique hgap (bare_lexeme hlexeme) hgap' bare_nil (by simpa using htext)).2
      exact absurd (List.append_eq_nil_iff.1 hend).1 (lexeme_ne_nil hlexeme)
    | @cons g' w' rest' t' pieces' hgap' hlexeme' hrest' =>
      obtain ⟨rfl, hbehind⟩ := gap_unique hgap (bare_lexeme hlexeme) hgap' (bare_lexeme hlexeme') htext
      obtain ⟨rfl, rfl, rfl⟩ := hlexeme.unique hlexeme' hbehind
      rw [ih hrest']

/-- Skipping trivia leads to the place behind them. -/
theorem skipTrivia_of_trivia (text : List UInt8) {g rest : List UInt8} (h : Trivia g rest) (hrest : Bare rest) :
    (⟨g ++ rest, .behind text⟩ : Cursor).skipTrivia = ⟨rest, .behind (text ++ g)⟩ := by
  rw [Cursor.skipTrivia, triviaLength_of_trivia h hrest, Cursor.advance]
  simp [Pos.afterAll_behind]

/-- A lexeme is taken as a whole. -/
theorem advance_lexeme (text w rest : List UInt8) :
    (⟨w ++ rest, .behind text⟩ : Cursor).advance w.length = ⟨rest, .behind (text ++ w)⟩ := by
  simp [Cursor.advance, Pos.afterAll_behind]

/-- There are no tokens behind the last trivia. -/
theorem tokens_of_end {c : Cursor} {pos : Pos} (hskip : c.skipTrivia = ⟨[], pos⟩) : c.tokens = .ok [] := by
  rw [Cursor.tokens]
  split
  next => rfl
  next first src hrest =>
    rw [hskip] at hrest
    cases hrest

/-- A token stands where its lexeme starts. -/
theorem tokens_of_scan {c : Cursor} {pos : Pos} {first : UInt8} {src : List UInt8}
    (hskip : c.skipTrivia = ⟨first :: src, pos⟩) {lexeme : Lexeme} (hscan : scan first src = .ok lexeme) :
    c.tokens = (do
      let others ← ((⟨first :: src, pos⟩ : Cursor).advance (lexeme.more + 1)).tokens
      return ⟨lexeme.token, pos⟩ :: others) := by
  rw [Cursor.tokens]
  split
  next hrest =>
    rw [hskip] at hrest
    cases hrest
  next first' src' hrest =>
    rw [hskip] at hrest
    cases hrest
    simp only [hscan, hskip]

/-- A fault is reported where the lexeme starts. -/
theorem tokens_of_fault {c : Cursor} {pos : Pos} {first : UInt8} {src : List UInt8}
    (hskip : c.skipTrivia = ⟨first :: src, pos⟩) {fault : LexFault} (hscan : scan first src = .error fault) :
    c.tokens = .error ⟨fault, pos⟩ := by
  rw [Cursor.tokens]
  split
  next hrest =>
    rw [hskip] at hrest
    cases hrest
  next first' src' hrest =>
    rw [hskip] at hrest
    cases hrest
    simp only [hscan, hskip]

/-- The tokens of a text that consists of trivia, a lexeme and more. -/
theorem tokens_cons (text : List UInt8) {g w rest : List UInt8} {t : Token} (hgap : Trivia g (w ++ rest))
    (hlexeme : Munched t w rest) :
    (⟨g ++ (w ++ rest), .behind text⟩ : Cursor).tokens = (do
      let others ← (⟨rest, .behind (text ++ (g ++ w))⟩ : Cursor).tokens
      return ⟨t, .behind (text ++ g)⟩ :: others) := by
  have hskip := skipTrivia_of_trivia text hgap (bare_lexeme hlexeme)
  obtain ⟨first, tail, rfl, -, hscan⟩ := scan_of_munched hlexeme
  have hadvance := advance_lexeme (text ++ g) (first :: tail) rest
  rw [List.append_assoc, List.cons_append, List.length_cons] at hadvance
  rw [List.cons_append] at hskip ⊢
  simp only [tokens_of_scan hskip hscan, hadvance]

/-- The pieces of a text give its tokens. -/
theorem tokens_of_splits {source : List UInt8} {pieces : List Piece} (h : Splits source pieces)
    (text : List UInt8) : (⟨source, .behind text⟩ : Cursor).tokens = .ok (placed text pieces) := by
  induction h generalizing text with
  | last hgap =>
    have hskip := skipTrivia_of_trivia text hgap bare_nil
    rw [List.append_nil] at hskip
    exact tokens_of_end hskip
  | cons hgap hlexeme _ ih =>
    rw [tokens_cons text hgap hlexeme, ih]
    rfl

/-- A text whose tokens can be read splits into pieces. -/
theorem splits_of_tokens (text : List UInt8) {source : List UInt8} {tokens : List (Located Token)}
    (h : (⟨source, .behind text⟩ : Cursor).tokens = .ok tokens) : ∃ pieces, Splits source pieces := by
  obtain ⟨g, rest, rfl, -, hgap, hbare⟩ := trivia_of_triviaLength source
  cases rest with
  | nil =>
    rw [List.append_nil]
    exact ⟨[], .last hgap⟩
  | cons first src =>
    cases hscan : scan first src with
    | error fault =>
      rw [tokens_of_fault (skipTrivia_of_trivia text hgap hbare) hscan] at h
      cases h
    | ok lexeme =>
      obtain ⟨tail, rest, rfl, -, hlexeme⟩ := munched_of_scan hscan
      rw [← List.cons_append, tokens_cons text hgap hlexeme] at h
      obtain ⟨others, hothers, -⟩ := except_bind_eq_ok.1 h
      obtain ⟨pieces, hpieces⟩ := splits_of_tokens _ hothers
      exact ⟨_, .cons hgap hlexeme hpieces⟩
termination_by source.length

/-- No token of the pieces stands before them. -/
theorem not_before_placed {source : List UInt8} {pieces : List Piece} (h : Splits source pieces)
    (text : List UInt8) :
    ∀ t ∈ placed text pieces, (Pos.behind text).Before t.pos ∨ t.pos = .behind text := by
  induction h generalizing text with
  | last => simp [placed]
  | @cons g w rest t pieces hgap hlexeme _ ih =>
    intro t' ht'
    rcases List.mem_cons.1 ht' with rfl | ht'
    · by_cases hgap : g = []
      · exact .inr (by simp [hgap])
      · exact .inl (Pos.behind_before_append text hgap)
    · have hlexeme : g ++ w ≠ [] := by simp [lexeme_ne_nil hlexeme]
      have hbefore := Pos.behind_before_append text hlexeme
      rcases ih _ t' ht' with hlater | hsame
      · exact .inl (hbefore.trans hlater)
      · exact .inl (hsame ▸ hbefore)

/-- Tokens stand in the order of their places. -/
theorem placed_increasing {source : List UInt8} {pieces : List Piece} (h : Splits source pieces)
    (text : List UInt8) : (placed text pieces).Pairwise fun t t' => t.pos.Before t'.pos := by
  induction h generalizing text with
  | last => exact .nil
  | @cons g w rest t pieces hgap hlexeme hrest ih =>
    refine .cons ?_ (ih _)
    intro t' ht'
    have hbefore := Pos.behind_before_append (text ++ g) (lexeme_ne_nil hlexeme)
    rw [List.append_assoc] at hbefore
    rcases not_before_placed hrest _ t' ht' with hlater | hsame
    · exact hbefore.trans hlater
    · exact hsame ▸ hbefore

end Lexer

open Lexer Text

/-- The tokens of a text are those of the lexemes that it splits into, in one way only, each with the place
that the newlines and bytes before its lexeme give, and the places increase. -/
theorem tokenize_eq_ok_iff_splits (source : List UInt8) (tokens : List (Located Token)) :
    (tokenize source = .ok tokens ↔ ∃ pieces, Splits source pieces ∧ tokens = placed [] pieces) ∧
    (∀ pieces pieces', Splits source pieces → Splits source pieces' → pieces = pieces') ∧
    (tokenize source = .ok tokens → tokens.Pairwise fun t t' => t.pos.Before t'.pos) := by
  have hsplit : tokenize source = .ok tokens → ∃ pieces, Splits source pieces ∧ tokens = placed [] pieces := by
    intro h
    obtain ⟨pieces, hpieces⟩ := splits_of_tokens [] h
    have htokens := tokens_of_splits hpieces []
    exact ⟨pieces, hpieces, Except.ok.inj (h.symm.trans htokens)⟩
  refine ⟨⟨hsplit, ?_⟩, fun _ _ => Splits.unique, ?_⟩
  · rintro ⟨pieces, hpieces, rfl⟩
    exact tokens_of_splits hpieces []
  · intro h
    obtain ⟨pieces, hpieces, rfl⟩ := hsplit h
    exact placed_increasing hpieces []

/-- A comment hides a quote, the longer symbol is taken, and a newline stands for itself between quotes. -/
theorem tokenize_hidden_quote :
    Splits (bytes "a<=b#\"\n'\n'")
      [⟨[], bytes "a", .ident "a"⟩, ⟨[], bytes "<=", .symbol .le⟩, ⟨[], bytes "b", .ident "b"⟩,
        ⟨bytes "#\"\n", bytes "'\n'", .char 0x0a⟩] ∧
    tokenize (bytes "a<=b#\"\n'\n'") =
      .ok [⟨.ident "a", ⟨1, 0⟩⟩, ⟨.symbol .le, ⟨1, 1⟩⟩, ⟨.ident "b", ⟨1, 3⟩⟩, ⟨.char 0x0a, ⟨2, 0⟩⟩] := by
  have hchar : Splits (bytes "#\"\n'\n'") [⟨bytes "#\"\n", bytes "'\n'", .char 0x0a⟩] := by
    refine @Splits.cons (bytes "#\"\n") (bytes "'\n'") [] _ _ ?_ ?_ (.last .nil)
    · exact @Trivia.comment [0x22] [0x0a] _ (by decide) (by simp; rfl) (.space (by decide) .nil)
    · exact munched_quoted (@Spelled.char 0x0a [0x0a] (.plain (by decide) (by decide))) rfl []
  have hsplits : Splits (bytes "a<=b#\"\n'\n'")
      [⟨[], bytes "a", .ident "a"⟩, ⟨[], bytes "<=", .symbol .le⟩, ⟨[], bytes "b", .ident "b"⟩,
        ⟨bytes "#\"\n", bytes "'\n'", .char 0x0a⟩] :=
    .cons .nil (@munched_word 0x61 [] _ (by decide) (by simp) (by simp; decide))
      (.cons .nil (@munched_double 0x3c 0x3d .le _ rfl)
        (.cons .nil (@munched_word 0x62 [] _ (by decide) (by simp) (by simp; decide)) hchar))
  refine ⟨hsplits, ?_⟩
  exact (tokenize_eq_ok_iff_splits _ _).1.2 ⟨_, hsplits, by decide⟩

end WaccArm
