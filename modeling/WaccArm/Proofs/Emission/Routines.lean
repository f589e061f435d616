import WaccArm.Proofs.Emission.Run

namespace WaccArm

/-- The lines of a routine depend on the labels of its own texts and no others. -/
theorem Routine.code_congr (r : Routine) {f g : String → String}
    (h : ∀ text ∈ r.texts, f text = g text) : r.code f = r.code g := by
  cases r <;> simp_all [code, body, texts]

namespace Emitter

/-- The label that a text has in the file, or would get. -/
def labelOf (em : Emitter) (text : String) : String := (em.file.intern text).1

/-- The label of a text says in which place it is. -/
theorem labelOf_eq {em : Emitter} {text : String} (hmem : text ∈ em.file.constants.texts) :
    em.labelOf text = Constants.labelAt (em.file.constants.texts.idxOf text) := by
  rw [labelOf, Assembly.intern, Constants.intern_of_mem hmem]

/-- A text keeps its label when others are added. -/
theorem labelOf_of_texts {em em' : Emitter}
    (h : em.file.constants.texts <+: em'.file.constants.texts) {text : String}
    (hmem : text ∈ em.file.constants.texts) : em'.labelOf text = em.labelOf text := by
  obtain ⟨others, hothers⟩ := h
  rw [labelOf_eq hmem, labelOf_eq (hothers ▸ List.mem_append_left _ hmem), ← hothers,
    List.idxOf_append_of_mem hmem]

/-- The label of a constant is one of the labels of the file. -/
theorem labelOf_mem {em : Emitter} {text : String} (hmem : text ∈ em.file.constants.texts) :
    em.labelOf text ∈ em.file.constants.labels := by
  rw [labelOf_eq hmem, Constants.labels_eq]
  exact List.mem_map_of_mem (List.mem_range.2 (List.idxOf_lt_length_of_mem hmem))

theorem mem_texts_intern (em : Emitter) (text : String) :
    text ∈ (em.intern text).2.file.constants.texts := by
  by_cases h : text ∈ em.file.constants.texts
  · rw [intern_of_mem h]
    exact h
  · rw [(intern_of_not_mem h).2, Constants.texts_push]
    exact List.mem_append_right _ (List.mem_singleton_self text)

/-- A text that becomes a constant gets the label that it has then. -/
theorem intern_fst (em : Emitter) (text : String) :
    (em.intern text).1 = (em.intern text).2.labelOf text := by
  by_cases h : text ∈ em.file.constants.texts
  · rw [intern_of_mem h]
    simp only [intern, if_pos h, labelOf]
  · rw [labelOf_eq (em.mem_texts_intern text), (intern_of_not_mem h).2, Constants.texts_push,
      List.idxOf_append_of_notMem h]
    simp [intern, if_neg h, Assembly.intern, Constants.intern_of_not_mem h]

/-- Texts are added one by one, and none is lost. -/
theorem grows_interns (em : Emitter) (texts : List String) :
    em.Grows (texts.foldl (fun s text => (s.intern text).2) em) ∧
      texts ⊆ (texts.foldl (fun s text => (s.intern text).2) em).file.constants.texts := by
  induction texts generalizing em with
  | nil => exact ⟨.refl em, List.nil_subset _⟩
  | cons text texts ih =>
    obtain ⟨hgrows, hsubset⟩ := ih (em.intern text).2
    refine ⟨(em.grows_intern text).trans hgrows, List.cons_subset.2 ⟨?_, hsubset⟩⟩
    exact hgrows.texts.subset (em.mem_texts_intern text)

/-- A routine is written with its texts as constants. -/
theorem emitRoutine_file (em : Emitter) (r : Routine) :
    (em.emitRoutine r).file.code = em.file.code ++ r.code (em.emitRoutine r).labelOf ∧
      em.file.constants.texts <+: (em.emitRoutine r).file.constants.texts ∧
      r.texts ⊆ (em.emitRoutine r).file.constants.texts := by
  obtain ⟨hgrows, hsubset⟩ := em.grows_interns r.texts
  refine ⟨?_, hgrows.texts, hsubset⟩
  rw [← hgrows.code]
  rfl

/-- The file with the routines is the file before them, with more constants, and then each routine. -/
theorem foldl_emitRoutine (rs : List Routine) (em : Emitter) :
    (rs.foldl emitRoutine em).file.code =
        em.file.code ++ rs.flatMap (·.code (rs.foldl emitRoutine em).labelOf) ∧
      em.file.constants.texts <+: (rs.foldl emitRoutine em).file.constants.texts ∧
      ∀ r ∈ rs, r.texts ⊆ (rs.foldl emitRoutine em).file.constants.texts := by
  induction rs generalizing em with
  | nil => exact ⟨by simp, List.prefix_refl _, nofun⟩
  | cons r rs ih =>
    obtain ⟨hfirst, hprefix, htexts⟩ := em.emitRoutine_file r
    obtain ⟨hcode, hprefix', htexts'⟩ := ih (em.emitRoutine r)
    refine ⟨?_, hprefix.trans hprefix', ?_⟩
    · rw [List.foldl_cons, hcode, hfirst, List.append_assoc, List.flatMap_cons]
      congr 2
      exact r.code_congr fun text htext => (labelOf_of_texts hprefix' (htexts htext)).symm
    · rintro q (_ | ⟨_, hq⟩)
      · exact List.Subset.trans htexts hprefix'.subset
      · exact htexts' q hq

end Emitter

end WaccArm
