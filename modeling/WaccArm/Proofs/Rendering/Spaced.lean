import Mathlib.Data.List.Forall2
import WaccArm.Proofs.Rendering.RoundTrip

namespace WaccArm

open Lexer Text

namespace Token

/-- The texts of tokens with single spaces between them. -/
def spaced (ts : List Token) : String := String.intercalate " " (ts.map text)

/-- The bytes that a literal stands for. No other token has any. -/
def content : Token → List UInt8
  | .char value => [value]
  | .str value => bytes value
  | .keyword _ | .symbol _ | .int _ | .ident _ => []

/-- A token is readable if its bytes are. -/
theorem readable_iff_content {t : Token} (ht : t.WellFormed) :
    t.Readable ↔ ∀ b ∈ t.content, ¬ Unprintable b := by
  cases t with
  | char value =>
    rw [content, List.forall_mem_singleton]
    exact isReadable_iff ht
  | str value => exact Expr.readable_str_iff ht
  | keyword | symbol | int | ident => simp [Readable, content]

theorem bytes_spaced_cons (t u : Token) (ts : List Token) :
    bytes (spaced (t :: u :: ts)) = bytes t.text ++ ' '.toUInt8 :: bytes (spaced (u :: ts)) := by
  simp only [spaced, List.map_cons, String.intercalate_cons_cons, bytes_append, List.append_assoc]
  rfl

/-- Each text is read on its own. -/
theorem values_spaced {ts : List Token} (hwell : ∀ t ∈ ts, t.WellFormed) :
    values (bytes (spaced ts)) = resume ts (some []) := by
  induction ts with
  | nil => exact values_end rfl
  | cons t ts ih =>
    rw [List.forall_mem_cons] at hwell
    obtain ⟨ht, hwell⟩ := hwell
    cases ts with
    | nil =>
      have hend : values [] = some [] := values_end rfl
      have hlast := values_text ht (Delimited.nil.apart t)
      rw [List.append_nil, hend] at hlast
      rw [spaced, List.map_singleton, String.intercalate_singleton]
      exact hlast
    | cons u ts =>
      have hspace : Delimited (' '.toUInt8 :: bytes (spaced (u :: ts))) := Delimited.cons rfl _
      rw [bytes_spaced_cons, values_text ht (hspace.apart t), values_space rfl, ih hwell]
      exact (resume_cons t (u :: ts) (some [])).symm

/-- Tokens are read as themselves exactly if each of them is readable. -/
theorem resume_eq_self_iff {ts : List Token} (hwell : ∀ t ∈ ts, t.WellFormed) :
    resume ts (some []) = some ts ↔ ∀ t ∈ ts, t.Readable := by
  constructor
  · intro h t ht
    have hsame := List.forall₂_same.1 (forall₂_of_resume h) t ht
    obtain ⟨hreadable, -⟩ | ⟨s, s', rfl, hs, hne⟩ := reread_eq_ok (hwell t ht) hsame
    · exact hreadable
    · cases hs
      exact absurd rfl hne
  · exact resume_of_readable hwell

end Token

/-- The tokens of a text, written with single spaces between them, are read as the same tokens if and only if
no character or string literal among them has a byte without a readable form. -/
theorem spaced_read_back_iff {source : List UInt8} {tokens : List (Located Token)}
    (h : tokenize source = .ok tokens) :
    (∃ again, tokenize (bytes (Token.spaced (tokens.map Located.val))) = .ok again ∧
        again.map Located.val = tokens.map Located.val) ↔
      ∀ t ∈ tokens, ∀ b ∈ t.val.content, ¬ Unprintable b := by
  have hwell := Token.values_wellFormed (values_eq_some.2 ⟨tokens, h, rfl⟩)
  rw [← values_eq_some, Token.values_spaced hwell, Token.resume_eq_self_iff hwell]
  rw [List.forall_mem_map] at hwell ⊢
  exact forall₂_congr fun t ht => Token.readable_iff_content (hwell t ht)

/-- The bell in `x<="\007"` is written with three digits, and the string comes back with three bytes. -/
theorem bell_not_read_back :
    ∃ tokens, tokenize (bytes "x<=\"\x07\"") = .ok tokens ∧
      tokens.map Located.val = [.ident "x", .symbol .le, .str "\x07"] ∧
      Token.spaced (tokens.map Located.val) = "x <= \"\\007\"" ∧
      ¬ ∃ again, tokenize (bytes (Token.spaced (tokens.map Located.val))) = .ok again ∧
        again.map Located.val = tokens.map Located.val := by
  have hvalues : values (bytes "x<=\"\x07\"") = some [.ident "x", .symbol .le, .str "\x07"] := by
    repeat apply values_lexeme rfl rfl
    exact values_end rfl
  obtain ⟨tokens, htokens, hvals⟩ := values_eq_some.1 hvalues
  refine ⟨tokens, htokens, hvals, ?_, ?_⟩
  · rw [hvals]
    decide
  · rw [spaced_read_back_iff htokens]
    intro hprintable
    have hmem : Token.str "\x07" ∈ tokens.map Located.val := by simp [hvals]
    obtain ⟨t, ht, hval⟩ := List.mem_map.1 hmem
    apply hprintable t ht 7
    · rw [hval]
      decide
    · exact .inl (by decide)

end WaccArm
