import Mathlib.Data.List.Basic
import Mathlib.Logic.Relation
import WaccArm.Emission.Emitter

namespace WaccArm

namespace Routine

variable {used : List Routine} {r q : Routine}

/-- The first routine leads to the second one, through any number of rows of the table. -/
def Leads : Routine → Routine → Prop := Relation.ReflTransGen fun r q => q ∈ r.dependencies

theorem askAll_val (used rs : List Routine) : (askAll used rs).val = rs.foldl require used := by
  induction rs generalizing used with
  | nil => rw [askAll, List.foldl_nil]
  | cons r rs ih =>
    rw [askAll, List.foldl_cons, require]
    exact ih _

/-- A routine that was asked for before is passed over. Any other one comes after those before it, and is
followed by the routines that it branches to. -/
theorem require_eq (used : List Routine) (r : Routine) :
    r.require used = if r ∈ used then used else r.dependencies.foldl require (used ++ [r]) := by
  rw [require, ask]
  split
  · rfl
  · exact askAll_val _ _

/-- A routine in use is not asked for again. -/
theorem require_of_mem (h : r ∈ used) : r.require used = used := by rw [require_eq, if_pos h]

theorem subset_require (used : List Routine) (r : Routine) : used ⊆ r.require used := (ask used r).property

/-- What comes of asking for some routines. -/
structure Follows (used rs later : List Routine) : Prop where
  subset : used ⊆ later
  asked : rs ⊆ later
  /-- What is new comes with the routines that it branches to. -/
  closed : ∀ q ∈ later, q ∈ used ∨ q.dependencies ⊆ later
  reached : ∀ q ∈ later, q ∈ used ∨ ∃ r ∈ rs, Leads r q
  nodup : used.Nodup → later.Nodup

theorem Follows.nil (used : List Routine) : Follows used [] used where
  subset := List.Subset.refl used
  asked := List.nil_subset used
  closed _ hq := .inl hq
  reached _ hq := .inl hq
  nodup := id

/-- Asking for a routine that is new, given what comes of asking for those that it branches to. -/
theorem Follows.of_dependencies {later : List Routine} (hr : r ∉ used)
    (h : Follows (used ++ [r]) r.dependencies later) : Follows used [r] later where
  subset _ hq := h.subset (List.mem_append_left [r] hq)
  asked := List.cons_subset.2
    ⟨h.subset (List.mem_append_right used List.mem_cons_self), List.nil_subset later⟩
  closed q hq := by
    rcases h.closed q hq with hq | hq
    · refine (List.mem_append.1 hq).imp id fun hself => ?_
      rw [List.mem_singleton.1 hself]
      exact h.asked
    · exact .inr hq
  reached q hq := by
    rcases h.reached q hq with hq | ⟨p, hp, hlead⟩
    · refine (List.mem_append.1 hq).imp id fun hself => ⟨r, List.mem_cons_self, ?_⟩
      rw [List.mem_singleton.1 hself]
      exact .refl
    · exact .inr ⟨r, List.mem_cons_self, .head hp hlead⟩
  nodup hused := by
    refine h.nodup (List.nodup_append.2 ⟨hused, List.pairwise_singleton .., fun q hq p hp => ?_⟩)
    rw [List.mem_singleton.1 hp]
    rintro rfl
    exact hr hq

/-- Routines are asked for one after the other. -/
theorem Follows.trans {next later rs : List Routine} (h : Follows used [r] next)
    (h' : Follows next rs later) : Follows used (r :: rs) later where
  subset := List.Subset.trans h.subset h'.subset
  asked := List.cons_subset.2 ⟨h'.subset (h.asked List.mem_cons_self), h'.asked⟩
  closed q hq := by
    rcases h'.closed q hq with hq | hq
    · exact (h.closed q hq).imp_right fun hdeps => List.Subset.trans hdeps h'.subset
    · exact .inr hq
  reached q hq := by
    rcases h'.reached q hq with hq | ⟨p, hp, hlead⟩
    · refine (h.reached q hq).imp_right fun ⟨p, hp, hlead⟩ => ⟨p, ?_, hlead⟩
      rw [List.mem_singleton.1 hp]
      exact List.mem_cons_self
    · exact .inr ⟨p, List.mem_cons_of_mem r hp, hlead⟩
  nodup := h'.nodup ∘ h.nodup

/-- Asking ends because each new routine leaves fewer that are not in use, and nothing else is followed. -/
theorem follows_foldl_require (used rs : List Routine) : Follows used rs (rs.foldl require used) := by
  obtain ⟨n, hn⟩ : ∃ n, (unused used).length < n := ⟨_, Nat.lt_succ_self _⟩
  induction n generalizing used rs with
  | zero => exact absurd hn (Nat.not_lt_zero _)
  | succ n ih =>
    induction rs generalizing used with
    | nil => exact .nil used
    | cons r rs ihrs =>
      have hfirst : Follows used [r] (r.require used) := by
        rw [require_eq]
        split
        · rename_i hr
          exact { Follows.nil used with
            asked := List.cons_subset.2 ⟨hr, List.nil_subset used⟩
            reached := fun _ hq => .inl hq }
        · rename_i hr
          have hfewer := length_unused_append_lt hr
          exact .of_dependencies hr (ih _ _ (by omega))
      have hrest := length_unused_le (subset_require used r)
      exact hfirst.trans (ihrs _ (by omega))

/-- Asking for one routine. -/
theorem follows_require (used : List Routine) (r : Routine) : Follows used [r] (r.require used) :=
  follows_foldl_require used [r]

theorem mem_require_self (used : List Routine) (r : Routine) : r ∈ r.require used :=
  (follows_require used r).asked List.mem_cons_self

/-- With each routine, those that it branches to are there. -/
def Complete (used : List Routine) : Prop := ∀ r ∈ used, r.dependencies ⊆ used

instance : DecidablePred Complete := fun used =>
  inferInstanceAs (Decidable (∀ r ∈ used, r.dependencies ⊆ used))

theorem complete_nil : Complete [] := fun _ hr => nomatch hr

/-- With each routine, all that it leads to is there. -/
theorem Complete.mem_of_leads (h : Complete used) (hr : r ∈ used) (hlead : Leads r q) : q ∈ used := by
  induction hlead with
  | refl => exact hr
  | tail _ hq ih => exact h _ ih hq

/-- Asking for a routine brings what it needs. -/
theorem complete_require (h : Complete used) (r : Routine) : Complete (r.require used) := by
  intro q hq
  rcases (follows_require used r).closed q hq with hused | hdeps
  · exact List.Subset.trans (h q hused) (subset_require used r)
  · exact hdeps

/-- No routine is asked for twice. -/
theorem nodup_require (h : used.Nodup) (r : Routine) : (r.require used).Nodup :=
  (follows_require used r).nodup h

end Routine

namespace Constants

variable {c : Constants} {text : String}

theorem length_texts (c : Constants) : c.texts.length = c.entries.length := List.length_map _

/-- Labels tell places. -/
theorem labels_eq (c : Constants) : c.labels = (List.range c.texts.length).map labelAt := by
  rw [labels, c.labelled, length_texts]

theorem lookup_eq_none_iff : c.lookup.lookup text = none ↔ text ∉ c.texts := by
  rw [c.agrees, Option.map_eq_none_iff, List.find?_eq_none, texts, List.mem_map, not_exists]
  exact forall_congr' fun entry => by simp

/-- The label that is looked up is the one of the first entry with the text. -/
theorem lookup_of_mem (h : text ∈ c.texts) :
    c.lookup.lookup text = some (labelAt (c.texts.idxOf text)) := by
  obtain ⟨label, hlabel⟩ : ∃ label, c.lookup.lookup text = some label := by
    rw [← Option.isSome_iff_exists, Option.isSome_iff_ne_none, Ne, lookup_eq_none_iff, not_not]
    exact h
  have hfind := hlabel
  rw [c.agrees, Option.map_eq_some_iff] at hfind
  obtain ⟨entry, hentry, rfl⟩ := hfind
  obtain ⟨htext, before, after, hsplit, hbefore⟩ := List.find?_eq_some_iff_append.1 hentry
  have hnew : text ∉ before.map Prod.snd := by
    intro hmem
    obtain ⟨other, hother, rfl⟩ := List.mem_map.1 hmem
    simpa using hbefore other hother
  have hplace : c.texts.idxOf text = before.length := by
    rw [texts, hsplit, List.map_append, List.idxOf_append_of_notMem hnew, List.map_cons, List.length_map,
      beq_iff_eq.1 htext, List.idxOf_cons_self, Nat.add_zero]
  have hfirst := congrArg (·[before.length]?) c.labelled
  simp only [hsplit] at hfirst
  simp at hfirst
  rw [hlabel, hplace, hfirst]

/-- A text that is a constant already keeps the label of its place. -/
theorem intern_of_mem (h : text ∈ c.texts) : c.intern text = (labelAt (c.texts.idxOf text), c) := by
  rw [intern]
  split
  · rename_i label hlabel
    rw [Option.some.inj ((lookup_of_mem h).symm.trans hlabel)]
  · rename_i hnone
    exact absurd h (lookup_eq_none_iff.1 hnone)

/-- A new text gets the next label. -/
theorem intern_of_not_mem (h : text ∉ c.texts) :
    c.intern text = (labelAt c.texts.length, c.push text (lookup_eq_none_iff.2 h)) := by
  rw [intern]
  split
  · rename_i label hlabel
    rw [lookup_eq_none_iff.2 h] at hlabel
    cases hlabel
  · rw [length_texts]

@[simp] theorem texts_push (h : c.lookup.lookup text = none) : (c.push text h).texts = c.texts ++ [text] :=
  List.map_append

end Constants

namespace Emitter

/-- Events leave the file as it is. -/
theorem foldl_record (rs : List Routine) (em : Emitter) :
    (rs.foldl (fun s r => s.record (.requested r.label)) em).file = em.file ∧
      (rs.foldl (fun s r => s.record (.requested r.label)) em).routines = em.routines := by
  induction rs generalizing em with
  | nil => exact ⟨rfl, rfl⟩
  | cons r rs ih => exact ih _

@[simp] theorem require_file (em : Emitter) (r : Routine) : (em.require r).file = em.file :=
  (foldl_record _ _).1

@[simp] theorem require_routines (em : Emitter) (r : Routine) :
    (em.require r).routines = r.require em.routines :=
  (foldl_record _ _).2

/-- A text that is a constant already changes nothing. -/
theorem intern_of_mem {em : Emitter} {text : String} (h : text ∈ em.file.constants.texts) :
    (em.intern text).2 = em := by
  simp only [intern, if_pos h]

/-- A text that is new becomes the last constant. -/
theorem intern_of_not_mem {em : Emitter} {text : String} (h : text ∉ em.file.constants.texts) :
    (em.intern text).2.routines = em.routines ∧
      (em.intern text).2.file =
        { em.file with constants := em.file.constants.push text (Constants.lookup_eq_none_iff.2 h) } := by
  simp only [intern, if_neg h, record, Assembly.intern, Constants.intern_of_not_mem h, and_self]

/-- One state of a file comes after another: what was there before is still there, and no lines were
added. -/
structure Grows (em em' : Emitter) : Prop where
  routines : em.routines ⊆ em'.routines
  texts : em.file.constants.texts <+: em'.file.constants.texts
  labels : em.file.labels ≤ em'.file.labels
  code : em'.file.code = em.file.code
  complete : Routine.Complete em.routines → Routine.Complete em'.routines
  nodup : em.routines.Nodup → em'.routines.Nodup

theorem Grows.refl (em : Emitter) : Grows em em :=
  ⟨List.Subset.refl _, List.prefix_refl _, Nat.le_refl _, rfl, id, id⟩

/-- Nothing is ever taken back. -/
theorem Grows.trans {em em' em'' : Emitter} (h : Grows em em') (h' : Grows em' em'') :
    Grows em em'' :=
  ⟨List.Subset.trans h.routines h'.routines, h.texts.trans h'.texts, Nat.le_trans h.labels h'.labels,
    h'.code.trans h.code, fun hem => h'.complete (h.complete hem), fun hem => h'.nodup (h.nodup hem)⟩

theorem grows_require (em : Emitter) (r : Routine) : Grows em (em.require r) := by
  refine ⟨fun q hq => ?_, by simp, by simp, by simp, fun h => ?_, fun h => ?_⟩
  · rw [require_routines]
    exact Routine.subset_require _ _ hq
  · rw [require_routines]
    exact Routine.complete_require h r
  · rw [require_routines]
    exact Routine.nodup_require h r

theorem grows_fresh (em : Emitter) : Grows em em.fresh.2 :=
  ⟨List.Subset.refl _, List.prefix_refl _, Nat.le_succ _, rfl, id, id⟩

theorem grows_fresh_twice (em : Emitter) : Grows em em.fresh.2.fresh.2 :=
  em.grows_fresh.trans em.fresh.2.grows_fresh

theorem grows_record (em : Emitter) (event : Event) : Grows em (em.record event) :=
  ⟨List.Subset.refl _, List.prefix_refl _, Nat.le_refl _, rfl, id, id⟩

/-- A text that becomes a constant adds to those before. -/
theorem grows_intern (em : Emitter) (text : String) : Grows em (em.intern text).2 := by
  by_cases h : text ∈ em.file.constants.texts
  · rw [intern_of_mem h]
    exact Grows.refl em
  · obtain ⟨hroutines, hfile⟩ := intern_of_not_mem h
    refine ⟨?_, ?_, ?_, ?_, ?_, ?_⟩
    · rw [hroutines]
      exact List.Subset.refl _
    · rw [hfile, Constants.texts_push]
      exact List.prefix_append _ _
    · exact Nat.le_of_eq (by rw [hfile])
    · rw [hfile]
    · rw [hroutines]
      exact id
    · rw [hroutines]
      exact id

end Emitter

theorem toString_injective : Function.Injective (toString : Nat → String) := by
  intro j k h
  rw [Nat.toString_eq_ofList_toDigits, Nat.toString_eq_ofList_toDigits, String.ofList_inj] at h
  have hvalue := congrArg (Nat.ofDigitChars 10 · 0) h
  simpa only [Nat.ofDigitChars_toDigits (b := 10) (by decide) (by decide)] using hvalue

/-- No label is fresh twice. -/
theorem freshLabel_injective : Function.Injective freshLabel :=
  fun _ _ h => toString_injective ((String.append_right_inj "L").1 h)

/-- Both steps succeed if the whole does. -/
theorem except_bind_eq_ok {ε α β : Type} {x : Except ε α} {f : α → Except ε β} {b : β} :
    (x >>= f) = .ok b ↔ ∃ a, x = .ok a ∧ f a = .ok b := by
  cases x <;> simp [bind, Except.bind]

theorem except_eq_ok_of_isOk {ε α : Type} {x : Except ε α} (h : x.isOk = true) : ∃ a, x = .ok a := by
  cases x with
  | error e => cases h
  | ok a => exact ⟨a, rfl⟩

/-- A result that passes a test is there. -/
theorem except_eq_ok_of_any {ε α : Type} {x : Except ε α} {p : α → Bool}
    (h : x.toOption.any p = true) : ∃ a, x = .ok a ∧ p a = true := by
  cases x with
  | error e => cases h
  | ok a => exact ⟨a, rfl, h⟩

namespace Emit

variable {α β : Type} {x : Emit α} {f : α → Emit β} {em em₁ : Emitter} {a : α}

theorem bind_of_ok (h : x em = .ok (a, em₁)) : (x >>= f) em = f a em₁ := by
  change (x em >>= fun p => f p.1 p.2) = _
  rw [h]
  rfl

end Emit

end WaccArm
