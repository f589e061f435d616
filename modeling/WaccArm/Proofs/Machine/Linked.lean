import Mathlib.Data.List.Nodup
import WaccArm.Proofs.Machine.Routines

namespace WaccArm.Machine

/-- What the division routines outside the text do. -/
def divide (name : String) (s : State) : Option State :=
  if name = "__aeabi_idiv" then
    some (s.set .r0 (BitVec.ofInt 32 ((s.regs .r0).toInt.tdiv (s.regs .r1).toInt)))
  else if name = "__aeabi_idivmod" then
    some (s.set .r1 (BitVec.ofInt 32 ((s.regs .r0).toInt.tmod (s.regs .r1).toInt)))
  else none

/-- The text of a file: some code, then the routines. A message is its own label. -/
def linkedText (code : Code) (routines : List Routine) : Code := code ++ routines.flatMap (·.code id)

/-- The machine for code and routines, in which the address of a line is its number. -/
def linked (code : Code) (routines : List Routine)
    (hsize : (linkedText code routines).length < 2 ^ 32) : Machine where
  text := linkedText code routines
  labelOf := id
  address name := BitVec.ofNat 32 name.length
  place := BitVec.ofNat 32
  lineAt := BitVec.toNat
  lineAt_place k hk := by
    rw [BitVec.toNat_ofNat]
    exact Nat.mod_eq_of_lt (by omega)
  external := divide

variable {M : Machine}

/-- A label that is defined once leads to the line it stands on. -/
theorem line?_of_nodup (hnodup : (Assembly.defined M.text).Nodup) {k : Nat} {name : String}
    (hk : M.text[k]? = some (.label name)) : M.line? name = some k := by
  rw [line?]
  generalize M.text = text at hnodup hk
  induction text generalizing k with
  | nil => simp at hk
  | cons l rest ih =>
    rw [List.idxOf?_cons]
    cases k with
    | zero =>
      cases hk
      simp
    | succ k =>
      have hrest : rest[k]? = some (.label name) := by simpa using hk
      have hmem : Line.label name ∈ rest := List.mem_of_getElem? hrest
      have hne : l ≠ .label name := by
        rintro rfl
        have hin : name ∈ Assembly.defined rest := List.mem_filterMap.2 ⟨_, hmem, rfl⟩
        exact (List.nodup_cons.1 hnodup).1 hin
      have htail : (Assembly.defined rest).Nodup :=
        hnodup.sublist ((List.sublist_cons_self l rest).filterMap _)
      simp [beq_eq_false_iff_ne.2 hne, ih htail hrest]

/-- Every stretch of a text without a repeated label stands where it is. -/
theorem holds_of_nodup (hnodup : (Assembly.defined M.text).Nodup) (before after : Code) {code : Code}
    (htext : M.text = before ++ code ++ after) : M.Holds before.length code := by
  induction code generalizing before with
  | nil => trivial
  | cons l code ih =>
    have hline : M.text[before.length]? = some l := by simp [htext]
    refine ⟨hline, fun name hname => ?_, ?_⟩
    · subst hname
      exact line?_of_nodup hnodup hline
    · have h := ih (before ++ [l]) (by simp [htext])
      rw [List.length_append] at h
      exact h

variable {code : Code} {routines : List Routine}
  {hsize : (linkedText code routines).length < 2 ^ 32}

/-- The code stands at the start of the text. -/
theorem holds_of_text (htext : M.text = linkedText code routines)
    (hnodup : (Assembly.defined M.text).Nodup) : M.Holds 0 code :=
  holds_of_nodup hnodup [] _ htext

/-- Each routine stands behind the code. -/
theorem provides_of_text (htext : M.text = linkedText code routines) (hlabel : M.labelOf = id)
    (hnodup : (Assembly.defined M.text).Nodup) {r : Routine} (hr : r ∈ routines) : M.Provides r := by
  obtain ⟨first, last, rfl⟩ := List.append_of_mem hr
  refine ⟨_, holds_of_nodup hnodup (code ++ first.flatMap (·.code id)) (last.flatMap (·.code id)) ?_⟩
  rw [htext, hlabel]
  simp [linkedText]

theorem linked_holds (hnodup : (Assembly.defined (linkedText code routines)).Nodup) :
    (linked code routines hsize).Holds 0 code :=
  holds_of_text rfl hnodup

/-- Division comes from outside the text. -/
theorem linked_divides (hquotient : "__aeabi_idiv" ∉ Assembly.defined (linkedText code routines))
    (hremainder : "__aeabi_idivmod" ∉ Assembly.defined (linkedText code routines)) :
    (linked code routines hsize).Divides := by
  have houtside {name : String} (hname : name ∉ Assembly.defined (linkedText code routines)) :
      (linked code routines hsize).line? name = none := by
    refine List.idxOf?_eq_none_iff.2 fun hmem => hname ?_
    exact List.mem_filterMap.2 ⟨_, hmem, rfl⟩
  refine ⟨houtside hquotient, houtside hremainder, fun s _ => ⟨_, rfl, rfl, ?_⟩,
    fun s _ => ⟨_, rfl, rfl, ?_⟩⟩
  all_goals
    refine ⟨fun r hr => ?_, fun a _ => rfl⟩
    revert r
    simp [calleeSaved]

/-- Division changes no memory. -/
theorem linked_divisionWithin (stores : Set Word) :
    (linked code routines hsize).DivisionWithin stores := by
  intro name s t hname hdivide a _
  change divide name s = some t at hdivide
  rcases hname with rfl | rfl <;> cases hdivide <;> rfl

end WaccArm.Machine
