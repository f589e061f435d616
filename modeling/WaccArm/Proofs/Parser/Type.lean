import WaccArm.Parser.Type
import WaccArm.Proofs.Parser.Stream

namespace WaccArm

namespace Grammar

/-- Brackets behind a type make it an array. -/
theorem TypeSpelled.arrayOf {elem : TypeExpr} {n : Nat} {ts us : Phrase} (helem : ElementSpelled elem ts)
    (hdims : Brackets n us) : TypeSpelled (Parser.arrayOf elem n) (ts ++ us) := by
  cases hdims with
  | zero =>
    rw [List.append_nil]
    exact .element helem
  | succ h => exact .array helem (.succ h)

theorem SideSpelled.arrayOf {keyword : Keyword} {type : TypeExpr} {n : Nat} {ts : Phrase} {p : Pos}
    (hbase : BaseType keyword type) (hdims : Brackets n ts) :
    SideSpelled (some (Parser.arrayOf type n)) (word keyword p :: ts) := by
  cases hdims with
  | zero => exact .base hbase
  | succ h => exact .baseArray hbase (.succ h)

/-- The type that the word `pair` with brackets behind it stands for, as a side of a pair. -/
def pairSideOf (n : Nat) : Option TypeExpr := if n = 0 then none else some (.array (.pair none none) n)

/-- A pair that is a side has no sides of its own. -/
theorem SideSpelled.pairSideOf {n : Nat} {ts : Phrase} {p : Pos} (hdims : Brackets n ts) :
    SideSpelled (pairSideOf n) (word .pair p :: ts) := by
  cases hdims with
  | zero => exact .pair
  | succ h => exact .pairArray (.succ h)

/-- The tokens that a type can start with. -/
def startsType : Token → Bool
  | .keyword .int | .keyword .bool | .keyword .char | .keyword .string | .keyword .pair => true
  | _ => false

theorem BaseType.starts {keyword : Keyword} {type : TypeExpr} (h : BaseType keyword type) :
    startsType (.keyword keyword) := by
  cases h <;> rfl

theorem ElementSpelled.starts {type : TypeExpr} {ts : Phrase} (h : ElementSpelled type ts) :
    Starts startsType ts := by
  cases h with
  | base hbase => exact ⟨_, _, rfl, hbase.starts⟩
  | pair => exact ⟨_, _, rfl, rfl⟩

/-- A type starts with a keyword of types. -/
theorem TypeSpelled.starts {type : TypeExpr} {ts : Phrase} (h : TypeSpelled type ts) : Starts startsType ts := by
  cases h with
  | element h => exact h.starts
  | array helem _ => exact helem.starts.append _

end Grammar

namespace Parser

open Grammar

variable {r s : Stream}

/-- Base types are single keywords. -/
theorem baseType?_eq_some {token : Token} {type : TypeExpr} :
    baseType? token = some type ↔ ∃ keyword, token = .keyword keyword ∧ BaseType keyword type := by
  constructor
  · intro h
    unfold baseType? at h
    split at h
    · cases h; exact ⟨_, rfl, .int⟩
    · cases h; exact ⟨_, rfl, .bool⟩
    · cases h; exact ⟨_, rfl, .char⟩
    · cases h; exact ⟨_, rfl, .string⟩
    · cases h
  · rintro ⟨keyword, rfl, hbase⟩
    cases hbase <;> rfl

theorem baseType_ne_pair {type : TypeExpr} : ¬ BaseType .pair type := nofun

/-- What is read as dimensions are pairs of brackets. -/
theorem brackets_spelled (s : Stream) :
    ∃ ts, s = (brackets s).rest.prepend ts ∧ Brackets (brackets s).value ts := by
  fun_induction brackets s with
  | case1 s p q tokens hs dims rest bound heq ih =>
    obtain ⟨ts, hts, hdims⟩ := ih
    rw [heq] at hts hdims
    refine ⟨mark .openBracket p :: mark .closeBracket q :: ts, ?_, .succ hdims⟩
    obtain ⟨all, last⟩ := s
    obtain rfl : all = _ := hs
    exact congrArg (Stream.prepend · [mark .openBracket p, mark .closeBracket q]) hts
  | case2 s hs => exact ⟨[], rfl, .zero⟩

/-- Dimensions end where no bracket is. -/
theorem brackets_of_not_open (hr : r.peek? ≠ some (.symbol .openBracket)) :
    brackets r = ⟨0, r, Nat.le_refl _⟩ := by
  fun_cases brackets r with
  | case1 p q tokens hs => exact absurd (by rw [Stream.peek?, Stream.peekAt?, hs]; rfl) hr
  | case2 => rfl

/-- All brackets are taken if no further ones follow. -/
theorem brackets_of_spelled {n : Nat} {ts us : Phrase} (h : Brackets n ts)
    (hus : (r.prepend us).peek? ≠ some (.symbol .openBracket)) :
    ∃ hle, brackets (r.prepend (ts ++ us)) = ⟨n, r.prepend us, hle⟩ := by
  induction h with
  | zero => exact ⟨Nat.le_refl _, brackets_of_not_open hus⟩
  | @succ n ts p q _ ih =>
    obtain ⟨hle, ih⟩ := ih
    have hlength : (r.prepend (mark .openBracket p :: mark .closeBracket q :: ts ++ us)).tokens.length =
        (r.prepend (ts ++ us)).tokens.length + 2 := rfl
    fun_cases brackets (r.prepend (mark .openBracket p :: mark .closeBracket q :: ts ++ us)) with
    | case1 _ _ tokens hs dims rest bound heq =>
      obtain rfl : ts ++ us ++ r.tokens = tokens := (List.cons.inj (List.cons.inj hs).2).2
      obtain ⟨rfl, rfl⟩ := Trailing.mk.inj (heq.symm.trans ih)
      exact ⟨by omega, rfl⟩
    | case2 h => exact absurd rfl (h p q (ts ++ us ++ r.tokens))

section

variable {type : TypeExpr} {h : r.tokens.length < s.tokens.length}

/-- A type is a word with brackets, unless it starts with the word `pair`. -/
theorem typeExpr_base (hok : typeExpr s = .ok ⟨type, r, h⟩) (hs : s.peek? ≠ some (.keyword .pair)) :
    ∃ keyword base p n ts, BaseType keyword base ∧ Brackets n ts ∧ type = arrayOf base n ∧
      s = r.prepend (word keyword p :: ts) := by
  rw [typeExpr] at hok
  obtain ⟨⟨⟨token, p⟩, r₁, h₁⟩, hnext, hok⟩ := except_bind_eq_ok.1 hok
  obtain rfl := next_eq_ok hnext
  simp only at hok
  split at hok
  · rename_i base hbase
    obtain ⟨keyword, rfl, hword⟩ := baseType?_eq_some.1 hbase
    obtain ⟨ts, hts, hdims⟩ := brackets_spelled r₁
    cases hok
    exact ⟨keyword, base, p, _, ts, hword, hdims, rfl, congrArg (Stream.prepend · [word keyword p]) hts⟩
  · split at hok
    · rename_i hpair
      exact absurd (congrArg some hpair) hs
    · cases hok

/-- What is read as a side is spelled like one. -/
theorem pairSide_sound {side : Option TypeExpr} (hok : pairSide s = .ok ⟨side, r, h⟩) :
    ∃ ts, s = r.prepend ts ∧ SideSpelled side ts := by
  rw [pairSide] at hok
  split at hok
  · rename_i hnone
    obtain ⟨⟨type, r', h'⟩, htype, hok⟩ := except_bind_eq_ok.1 hok
    cases hok
    obtain ⟨keyword, base, p, n, ts, hbase, hdims, rfl, hs⟩ := typeExpr_base htype (nextIf?_eq_none.1 hnone)
    exact ⟨_, hs, .arrayOf hbase hdims⟩
  · rename_i r' h' hsome
    obtain ⟨p, rfl⟩ := nextIf?_eq_some hsome
    split at hok
    · cases hok
    · obtain ⟨ts, hts, hdims⟩ := brackets_spelled r'
      cases hok
      exact ⟨word .pair p :: ts, congrArg (Stream.prepend · [word .pair p]) hts, .pairSideOf hdims⟩

/-- What is read as a type is spelled like one. -/
theorem typeExpr_sound (hok : typeExpr s = .ok ⟨type, r, h⟩) : ∃ ts, s = r.prepend ts ∧ TypeSpelled type ts := by
  by_cases hs : s.peek? = some (.keyword .pair)
  · rw [typeExpr] at hok
    obtain ⟨⟨⟨token, p⟩, r₁, h₁⟩, hnext, hok⟩ := except_bind_eq_ok.1 hok
    obtain rfl := next_eq_ok hnext
    obtain rfl : token = .keyword .pair := Option.some.inj hs
    obtain ⟨⟨q, r₂, h₂⟩, hopen, hok⟩ := except_bind_eq_ok.1 hok
    obtain ⟨⟨fst, r₃, h₃⟩, hfst, hok⟩ := except_bind_eq_ok.1 hok
    obtain ⟨⟨t, r₄, h₄⟩, hcomma, hok⟩ := except_bind_eq_ok.1 hok
    obtain ⟨⟨snd, r₅, h₅⟩, hsnd, hok⟩ := except_bind_eq_ok.1 hok
    obtain ⟨⟨u, r₆, h₆⟩, hclose, hok⟩ := except_bind_eq_ok.1 hok
    cases hok
    obtain ⟨ts, hts, hfst⟩ := pairSide_sound hfst
    obtain ⟨us, hus, hsnd⟩ := pairSide_sound hsnd
    obtain ⟨vs, hvs, hdims⟩ := brackets_spelled r₆
    refine ⟨word .pair p :: mark .openParen q :: (ts ++ mark .comma t :: (us ++ [mark .closeParen u])) ++ vs,
      ?_, .arrayOf (.pair hfst hsnd) hdims⟩
    have hlast := Stream.prepend_trans (consume_eq_ok hclose) hvs
    have hinner := Stream.prepend_trans (consume_eq_ok hcomma) (Stream.prepend_trans hus hlast)
    rw [Stream.prepend_trans (consume_eq_ok hopen) (Stream.prepend_trans hts hinner)]
    simp
  · obtain ⟨keyword, base, p, n, ts, hbase, hdims, rfl, rfl⟩ := typeExpr_base hok hs
    exact ⟨_, rfl, .arrayOf (.base hbase) hdims⟩

end

/-- A base type and its dimensions are read to the end. -/
theorem reads_base {keyword : Keyword} {base : TypeExpr} {n : Nat} {ts us : Phrase} {p : Pos}
    (hbase : BaseType keyword base) (hdims : Brackets n ts)
    (hus : (r.prepend us).peek? ≠ some (.symbol .openBracket)) :
    Reads (typeExpr (r.prepend (word keyword p :: (ts ++ us)))) (arrayOf base n) (r.prepend us) := by
  obtain ⟨hle, hbrackets⟩ := brackets_of_spelled hdims hus
  rw [typeExpr]
  refine Reads.bind (reads_next ..) fun h => ?_
  simp only [baseType?_eq_some.2 ⟨keyword, rfl, hbase⟩, hbrackets]
  exact ⟨_, rfl⟩

/-- What is spelled like a side is read as it. -/
theorem reads_pairSide {side : Option TypeExpr} {ts us : Phrase} (h : SideSpelled side ts)
    (hus : (r.prepend us).peek? ≠ some (.symbol .openBracket))
    (hus' : (r.prepend us).peek? ≠ some (.symbol .openParen)) :
    Reads (pairSide (r.prepend (ts ++ us))) side (r.prepend us) := by
  have hbase : ∀ {keyword type n ts p}, BaseType keyword type → Brackets n ts →
      Reads (pairSide (r.prepend (word keyword p :: (ts ++ us)))) (some (arrayOf type n)) (r.prepend us) := by
    intro keyword type n ts p hbase hdims
    have hnone : (r.prepend (word keyword p :: (ts ++ us))).nextIf? (.keyword .pair) = none := by
      refine nextIf?_eq_none.2 fun heq => ?_
      cases heq
      exact baseType_ne_pair hbase
    rw [pairSide, hnone]
    exact Reads.bind (reads_base hbase hdims hus) fun _ => ⟨_, rfl⟩
  have hpair : ∀ {n ts p}, Brackets n ts →
      Reads (pairSide (r.prepend (word .pair p :: (ts ++ us)))) (pairSideOf n) (r.prepend us) := by
    intro n ts p hdims
    obtain ⟨hle, hbrackets⟩ := brackets_of_spelled hdims hus
    obtain ⟨hlt, hsome⟩ := nextIf?_of_eq r (.keyword .pair) p (ts ++ us)
    have hopen : (r.prepend (ts ++ us)).peek? ≠ some (.symbol .openParen) := by
      cases hdims with
      | zero => exact hus'
      | succ => nofun
    rw [pairSide, hsome]
    simp only [if_neg hopen, hbrackets]
    exact ⟨_, rfl⟩
  cases h with
  | base h => exact hbase h .zero
  | baseArray h hdims => exact hbase h hdims
  | pair => exact hpair .zero
  | pairArray hdims => exact hpair hdims

theorem reads_element {elem : TypeExpr} {n : Nat} {ts us vs : Phrase} (h : ElementSpelled elem ts)
    (hdims : Brackets n us) (hvs : (r.prepend vs).peek? ≠ some (.symbol .openBracket)) :
    Reads (typeExpr (r.prepend (ts ++ (us ++ vs)))) (arrayOf elem n) (r.prepend vs) := by
  cases h with
  | base hbase => exact reads_base hbase hdims hvs
  | @pair fst snd ts ts' p q t u hfst hsnd =>
    obtain ⟨hle, hbrackets⟩ := brackets_of_spelled hdims hvs
    have hphrase : word .pair p :: mark .openParen q ::
        (ts ++ mark .comma t :: (ts' ++ [mark .closeParen u])) ++ (us ++ vs) =
      word .pair p :: mark .openParen q ::
        (ts ++ mark .comma t :: (ts' ++ mark .closeParen u :: (us ++ vs))) := by simp
    rw [hphrase, typeExpr]
    refine Reads.bind (reads_next ..) fun h₁ => ?_
    simp only [baseType?, if_true]
    refine Reads.bind (reads_symbol ..) fun h₂ => ?_
    refine Reads.bind (reads_pairSide hfst nofun nofun) fun h₃ => ?_
    refine Reads.bind (reads_symbol ..) fun h₄ => ?_
    refine Reads.bind (reads_pairSide hsnd nofun nofun) fun h₅ => ?_
    refine Reads.bind (reads_symbol ..) fun h₆ => ?_
    simp only [hbrackets]
    exact ⟨_, rfl⟩

/-- What is spelled like a type is read as it. -/
theorem reads_type {type : TypeExpr} {ts us : Phrase} (h : TypeSpelled type ts)
    (hus : (r.prepend us).peek? ≠ some (.symbol .openBracket)) :
    Reads (typeExpr (r.prepend (ts ++ us))) type (r.prepend us) := by
  cases h with
  | element h => exact reads_element h .zero hus
  | array helem hdims =>
    rw [List.append_assoc]
    exact reads_element helem hdims hus

end Parser

end WaccArm
