import WaccArm.Text.Escape

namespace WaccArm

/-- The label of the text at place `k`. -/
def Constants.labelAt (k : Nat) : String := "msg_" ++ toString k

/-- Texts without repetition, in the order they were first asked for. -/
structure Constants where
  /-- The label and the text of each constant. -/
  entries : List (String × String) := []
  /-- The label of each text. -/
  lookup : List (String × String) := []
  labelled : entries.map Prod.fst = (List.range entries.length).map Constants.labelAt := by rfl
  agrees : ∀ text, lookup.lookup text = (entries.find? fun entry => entry.2 == text).map Prod.fst := by
    exact fun _ => rfl
deriving DecidableEq, Repr

namespace Constants

def empty : Constants := {}

/-- The texts, in order. -/
def texts (c : Constants) : List String := c.entries.map Prod.snd

/-- Adds a text that is not there. -/
def push (c : Constants) (text : String) (h : c.lookup.lookup text = none) : Constants where
  entries := c.entries ++ [(labelAt c.entries.length, text)]
  lookup := (text, labelAt c.entries.length) :: c.lookup
  labelled := by
    rw [List.map_append, c.labelled, List.length_append, List.length_singleton, List.range_succ,
      List.map_append]
    rfl
  agrees := by
    intro other
    rw [List.lookup_cons, List.find?_append, Option.map_or, ← c.agrees]
    by_cases heq : other = text
    · subst heq
      simp [h]
    · simp [beq_eq_false_iff_ne.2 heq, Ne.symm heq]

/-- The label of a text, and the constants with that text in them. -/
def intern (c : Constants) (text : String) : String × Constants :=
  match h : c.lookup.lookup text with
  | some label => (label, c)
  | none => (labelAt c.entries.length, c.push text h)

def size (c : Constants) : Nat := c.entries.length

def isEmpty (c : Constants) : Bool := c.entries.isEmpty

/-- The labels of all texts. -/
def labels (c : Constants) : List String := c.entries.map Prod.fst

/-- A byte in the quoted text of a directive. A single quote stands for itself there, and a zero
byte takes three digits so that a digit after it is not read as part of it. -/
def escape (byte : UInt8) : String :=
  if byte = 0x27 then "'" else if byte = 0 then "\\000" else Text.escape byte

private def entryText (label text : String) : String :=
  let bytes := Text.bytes text
  label ++ ":\n\t.word " ++ toString bytes.length ++ "\n\t.ascii \""
    ++ String.join (bytes.map escape) ++ "\"\n"

/-- The entries of the data section: label, length in bytes, and content of each text. -/
def text (c : Constants) : String :=
  String.join (c.entries.map fun (label, text) => entryText label text)

end Constants

end WaccArm
