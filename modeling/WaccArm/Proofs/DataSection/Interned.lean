import WaccArm.Proofs.DataSection.Reader
import WaccArm.Proofs.Emission.Run

namespace WaccArm

namespace Constants

open Text (bytes)

/-- The labels of texts that are asked for one after the other, and the constants after that. -/
def internAll (c : Constants) : List String → List String × Constants
  | [] => ([], c)
  | text :: texts =>
    let (label, c) := c.intern text
    let (labels, c) := c.internAll texts
    (label :: labels, c)

/-- A text is a constant once it was asked for, and its label is its place. -/
theorem intern_spec (c : Constants) (text : String) :
    text ∈ (c.intern text).2.texts ∧ c.texts <+: (c.intern text).2.texts ∧
      (c.intern text).1 = labelAt ((c.intern text).2.texts.idxOf text) := by
  by_cases h : text ∈ c.texts
  · rw [intern_of_mem h]
    exact ⟨h, List.prefix_refl _, rfl⟩
  · rw [intern_of_not_mem h, texts_push]
    refine ⟨by simp, List.prefix_append _ _, ?_⟩
    rw [List.idxOf_append_of_notMem h]
    simp

/-- Of the texts that are asked for, those are added that were not constants before, each of them once. -/
theorem texts_internAll (c : Constants) (texts : List String) :
    (c.internAll texts).2.texts = c.texts ++ (texts.removeAll c.texts).eraseDups := by
  induction texts generalizing c with
  | nil => simp [internAll]
  | cons text texts ih =>
    rw [internAll]
    by_cases h : text ∈ c.texts
    · have hskip : (text :: texts).removeAll c.texts = texts.removeAll c.texts := by
        simp [List.removeAll, h]
      rw [intern_of_mem h, hskip]
      exact ih c
    · have hkeep : (text :: texts).removeAll c.texts = text :: texts.removeAll c.texts := by
        simp [List.removeAll, h]
      have hothers : (texts.removeAll c.texts).filter (fun other => !other == text) =
          texts.removeAll (c.texts ++ [text]) := by
        rw [List.removeAll, List.removeAll, List.filter_filter]
        apply List.filter_congr
        intro other _
        by_cases hsame : other = text <;> simp [hsame]
      rw [intern_of_not_mem h, hkeep, List.eraseDups_cons, hothers]
      simp [ih]

/-- Texts keep their places. -/
theorem prefix_internAll (c : Constants) (texts : List String) : c.texts <+: (c.internAll texts).2.texts := by
  rw [texts_internAll]
  exact List.prefix_append _ _

/-- The label of each text is its place among the constants in the end. -/
theorem labels_internAll (c : Constants) (texts : List String) :
    (c.internAll texts).1 = texts.map fun text => labelAt ((c.internAll texts).2.texts.idxOf text) := by
  induction texts generalizing c with
  | nil => rfl
  | cons text texts ih =>
    obtain ⟨hmem, -, hlabel⟩ := c.intern_spec text
    obtain ⟨others, hothers⟩ := prefix_internAll (c.intern text).2 texts
    -- The texts that are asked for later stand behind this one, so it keeps its place.
    have hplace : ((c.intern text).2.internAll texts).2.texts.idxOf text =
        (c.intern text).2.texts.idxOf text := by
      rw [← hothers, List.idxOf_append_of_mem hmem]
    simp only [internAll, List.map_cons, hplace, ← hlabel, ← ih]

/-- No label is given out twice. -/
theorem labelAt_injective : Function.Injective labelAt :=
  fun _ _ h => toString_injective ((String.append_right_inj "msg_").1 h)

/-- The first constants are the texts that are asked for. -/
theorem texts_internAll_first (texts : List String) : (internAll {} texts).2.texts = texts.eraseDups := by
  have hempty : ({} : Constants).texts = [] := rfl
  rw [texts_internAll, hempty]
  simp [List.removeAll]

/-- Labels tell texts apart. -/
theorem labels_getElem?_inj (texts : List String) (i j : Nat) :
    ((internAll {} texts).1)[i]? = ((internAll {} texts).1)[j]? ↔ texts[i]? = texts[j]? := by
  rw [labels_internAll, List.getElem?_map, List.getElem?_map]
  generalize hall : (internAll {} texts).2.texts = all
  have hmem : ∀ text ∈ texts, text ∈ all := by
    intro text htext
    rw [← hall, texts_internAll_first]
    exact List.mem_eraseDups.2 htext
  constructor
  · intro h
    cases hi : texts[i]? with
    | none =>
      rw [hi, Option.map_none] at h
      exact (Option.map_eq_none_iff.1 h.symm).symm
    | some text =>
      rw [hi, Option.map_some] at h
      obtain ⟨other, hj, hlabel⟩ := Option.map_eq_some_iff.1 h.symm
      have hplace := labelAt_injective hlabel
      rw [hj, (List.idxOf_inj (hmem other (List.mem_of_getElem? hj))).1 hplace]
  · intro h
    rw [h]

/-- The lines of an entry. -/
def entryLines (k : Nat) (text : String) : List (List UInt8) :=
  [bytes (labelAt k) ++ [':'.toUInt8],
   bytes "\t.word " ++ bytes (toString (bytes text).length),
   bytes "\t.ascii \"" ++ ((bytes text).flatMap (fun b => bytes (escape b)) ++ ['"'.toUInt8])]

/-- The entries are the texts with the labels of their places. -/
theorem entries_eq (c : Constants) :
    c.entries = c.texts.zipIdx.map fun entry => (labelAt entry.2, entry.1) := by
  apply List.ext_getElem?
  intro k
  have hlabel := congrArg (·[k]?) c.labelled
  simp only [List.getElem?_map] at hlabel
  rw [texts, List.getElem?_map, List.getElem?_zipIdx, List.getElem?_map]
  cases hentry : c.entries[k]? with
  | none => rfl
  | some entry =>
    have hk := (List.getElem?_eq_some_iff.1 hentry).1
    simp only [hentry, List.getElem?_range hk, Option.map_some, Option.some.injEq] at hlabel
    simp [← hlabel]

/-- The data section is made of three lines for each text. -/
theorem bytes_text (c : Constants) :
    bytes c.text = (c.texts.zipIdx.flatMap fun entry => entryLines entry.2 entry.1).flatMap
      (· ++ ['\n'.toUInt8]) := by
  have htext : c.text = String.join (c.entries.map fun entry => entry.1 ++ ":\n\t.word " ++
      toString (bytes entry.2).length ++ "\n\t.ascii \"" ++ String.join ((bytes entry.2).map escape) ++
      "\"\n") := rfl
  rw [htext, Text.bytes_join, entries_eq, List.map_map, List.flatMap_map, List.flatMap_assoc]
  congr 1
  funext entry
  have hcolon : bytes ":\n\t.word " = ':'.toUInt8 :: '\n'.toUInt8 :: bytes "\t.word " := rfl
  have hfeed : bytes "\n\t.ascii \"" = '\n'.toUInt8 :: bytes "\t.ascii \"" := rfl
  have hclose : bytes "\"\n" = ['"'.toUInt8, '\n'.toUInt8] := rfl
  simp only [Function.comp_apply, Text.bytes_append, Text.bytes_join, List.flatMap_map, hcolon, hfeed,
    hclose, entryLines, List.flatMap_cons, List.flatMap_nil, List.append_assoc, List.cons_append,
    List.nil_append]

/-- A label is one word. -/
theorem isWordByte_labelAt (k : Nat) : ∀ b ∈ bytes (labelAt k), Lexer.isWordByte b := by
  rw [labelAt, Text.bytes_append, List.forall_mem_append]
  constructor
  · have hall : (bytes "msg_").all Lexer.isWordByte := by decide
    exact List.all_eq_true.1 hall
  · intro b hb
    simp [Lexer.isWordByte, Lexer.isDigit_bytes_toString k b hb]

theorem bytes_labelAt_ne_nil (k : Nat) : bytes (labelAt k) ≠ [] := by
  rw [labelAt, Text.bytes_append]
  exact List.append_ne_nil_of_right_ne_nil _ (Lexer.bytes_toString_ne_nil k)

/-- A line whose bytes are all of a kind has no end in it. -/
theorem feed_not_mem {p : UInt8 → Bool} {line : List UInt8} (hline : ∀ b ∈ line, p b)
    (hfeed : p '\n'.toUInt8 = false) : '\n'.toUInt8 ∉ line := by
  intro hmem
  have hp := hline _ hmem
  rw [hfeed] at hp
  cases hp

/-- An entry has as many lines as were written: no line feed stands in a label, a number or a text. -/
theorem feed_not_mem_entryLines (k : Nat) (text : String) :
    ∀ line ∈ entryLines k text, '\n'.toUInt8 ∉ line := by
  have hprintable : ∀ b ∈ (bytes text).flatMap (fun b => bytes (escape b)), Text.isPrintable b := by
    intro b hb
    obtain ⟨byte, -, hbyte⟩ := List.mem_flatMap.1 hb
    exact (DataSection.written_escape byte).printable b hbyte
  simp only [entryLines, List.forall_mem_cons, List.mem_append, not_or]
  refine ⟨⟨?_, by decide⟩, ⟨by decide, ?_⟩, ⟨by decide, ?_, by decide⟩, by simp⟩
  · exact feed_not_mem (isWordByte_labelAt k) (by decide)
  · exact feed_not_mem (Lexer.isDigit_bytes_toString _) (by decide)
  · exact feed_not_mem hprintable (by decide)

/-- The three statements of an entry. -/
def entryStatements (k : Nat) (text : String) : List DataSection.Statement :=
  [.label (bytes (labelAt k)), .word (bytes text).length, .ascii (bytes text)]

/-- The three lines of an entry are read as what they say. -/
theorem mapM_entryLines (k : Nat) (text : String) :
    (entryLines k text).mapM DataSection.statement? = some (entryStatements k text) := by
  have hlabel := DataSection.statement?_label (bytes_labelAt_ne_nil k) (isWordByte_labelAt k)
  have hword := DataSection.statement?_word (bytes text).length
  have hascii := DataSection.statement?_ascii (bytes text)
  rw [entryLines, List.mapM_cons, hlabel, List.mapM_cons, hword, List.mapM_cons, hascii, List.mapM_nil]
  rfl

/-- The whole section is read entry by entry. -/
theorem read_text (c : Constants) : DataSection.read (bytes c.text) =
    some (c.texts.zipIdx.flatMap fun entry => entryStatements entry.2 entry.1) := by
  have hlines : ∀ line ∈ c.texts.zipIdx.flatMap (fun entry => entryLines entry.2 entry.1),
      '\n'.toUInt8 ∉ line := by
    intro line hline
    obtain ⟨entry, -, hentry⟩ := List.mem_flatMap.1 hline
    exact feed_not_mem_entryLines entry.2 entry.1 line hentry
  rw [DataSection.read, bytes_text, DataSection.lines_flatMap hlines]
  generalize c.texts.zipIdx = entries
  induction entries with
  | nil => rfl
  | cons entry entries ih =>
    rw [List.flatMap_cons, List.mapM_append, mapM_entryLines, ih]
    rfl

end Constants

/-- Whatever texts are asked for: the label of each is given by its place among the texts without
repetition, so two of them have one label exactly if they are equal; and an assembler reads these texts
from the data section in order, each under its label, with its number of bytes, and byte for byte. -/
theorem data_section_read_back (texts : List String) :
    let labels := (Constants.internAll {} texts).1
    let constants := (Constants.internAll {} texts).2
    labels = texts.map (fun text => "msg_" ++ toString (texts.eraseDups.idxOf text)) ∧
    (∀ i j : Nat, labels[i]? = labels[j]? ↔ texts[i]? = texts[j]?) ∧
    DataSection.read (Text.bytes constants.text) =
      some (texts.eraseDups.zipIdx.flatMap fun entry =>
        [.label (Text.bytes ("msg_" ++ toString entry.2)), .word (Text.bytes entry.1).length,
          .ascii (Text.bytes entry.1)]) := by
  have htexts := Constants.texts_internAll_first texts
  refine ⟨?_, Constants.labels_getElem?_inj texts, ?_⟩
  · rw [Constants.labels_internAll, htexts]
    rfl
  · rw [Constants.read_text, htexts]
    rfl

end WaccArm
