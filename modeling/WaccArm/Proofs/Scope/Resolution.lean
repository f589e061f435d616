import WaccArm.Proofs.Scope.History

namespace WaccArm

variable {δ : Type}

namespace Table

/-- Among the candidates, those that fit. -/
def fitting (candidate fits : δ → Bool) (decl : δ) : Bool := candidate decl && fits decl

namespace History

/-- Something that was added under the name in the scope is accepted. -/
def Holds (history : History δ) (name : String) (accept : δ → Bool) (scope : Nat) : Prop :=
  ∃ decl, .added scope name decl ∈ history ∧ accept decl = true

/-- Of all that was added under the name in the scope, this declaration and no other is accepted. It
was added once. -/
def Sole (history : History δ) (name : String) (accept : δ → Bool) (scope : Nat) (decl : δ) : Prop :=
  ∃ after before, history = after ++ .added scope name decl :: before ∧ accept decl = true ∧
    Lacks after name accept scope ∧ Lacks before name accept scope

/-- Accepted declarations were added under the name in the scope at least twice. -/
def Several (history : History δ) (name : String) (accept : δ → Bool) (scope : Nat) : Prop :=
  ∃ after newer between older before,
    history = after ++ .added scope name newer :: (between ++ .added scope name older :: before) ∧
      accept newer = true ∧ accept older = true

/-- The scope is the first one along the path that holds something accepted. -/
def Nearest (history : History δ) (path : List Nat) (name : String) (accept : δ → Bool) (scope : Nat) :
    Prop :=
  ∃ inner outer, path = inner ++ scope :: outer ∧ history.Holds name accept scope ∧
    ∀ s ∈ inner, history.Lacks name accept s

/-- What a use of the name is resolved to along a path. -/
def Resolves (history : History δ) (path : List Nat) (name : String) (candidate fits : δ → Bool) :
    Resolution δ → Prop
  | .found decl => ∃ scope, history.Nearest path name (fitting candidate fits) scope ∧
      history.Sole name (fitting candidate fits) scope decl
  | .ambiguous =>
      (∃ scope, history.Nearest path name (fitting candidate fits) scope ∧
        history.Several name (fitting candidate fits) scope) ∨
      (∀ s ∈ path, history.Lacks name (fitting candidate fits) s) ∧
        ∃ s ∈ path, history.Holds name candidate s
  | .notFound => ∀ s ∈ path, ¬ history.Holds name candidate s

variable {history : History δ} {name : String} {accept : δ → Bool} {scope : Nat}

theorem not_holds : ¬ history.Holds name accept scope ↔ history.Lacks name accept scope := by
  simp [Holds, Lacks]

theorem filter_decls_eq_nil :
    (history.decls scope name).filter accept = [] ↔ history.Lacks name accept scope := by
  simp [List.filter_eq_nil_iff, mem_decls, Lacks]

/-- The first accepted declaration of a scope stands before the others in the history. -/
theorem filter_decls_eq_cons {decl : δ} {others : List δ} :
    (history.decls scope name).filter accept = decl :: others ↔
      ∃ after before, history = after ++ .added scope name decl :: before ∧ accept decl = true ∧
        Lacks after name accept scope ∧ (decls before scope name).filter accept = others := by
  constructor
  · intro h
    obtain ⟨newer, older, hsplit, hnewer, haccept, holder⟩ := List.filter_eq_cons_iff.1 h
    have hfind : (history.decls scope name).find? accept = some decl := by
      rw [List.find?_eq_some_iff_append]
      exact ⟨haccept, newer, older, hsplit, fun d hd => by simpa using hnewer d hd⟩
    obtain ⟨after, before, rfl, -, hafter⟩ := find?_decls_eq_some.1 hfind
    refine ⟨after, before, rfl, haccept, hafter, ?_⟩
    have hnone := filter_decls_eq_nil.2 hafter
    rw [decls, List.filterMap_append, List.filter_append, ← decls, hnone] at h
    simpa [Change.decl?, haccept, decls] using h
  · rintro ⟨after, before, rfl, haccept, hafter, rfl⟩
    have hnone := filter_decls_eq_nil.2 hafter
    rw [decls, List.filterMap_append, List.filter_append, ← decls, hnone]
    simp [Change.decl?, haccept, decls]

/-- One declaration is left if the history has one. -/
theorem filter_decls_eq_singleton {decl : δ} :
    (history.decls scope name).filter accept = [decl] ↔ history.Sole name accept scope decl := by
  simp only [filter_decls_eq_cons, filter_decls_eq_nil, Sole]

/-- More are left if the history has several. -/
theorem two_le_length_filter_decls :
    2 ≤ ((history.decls scope name).filter accept).length ↔ history.Several name accept scope := by
  constructor
  · intro hlength
    cases hfilter : (history.decls scope name).filter accept with
    | nil => simp [hfilter] at hlength
    | cons newer others =>
      obtain ⟨after, rest, rfl, hnewer, -, hrest⟩ := filter_decls_eq_cons.1 hfilter
      cases others with
      | nil => simp [hfilter] at hlength
      | cons older others =>
        obtain ⟨between, before, rfl, holder, -⟩ := filter_decls_eq_cons.1 hrest
        exact ⟨after, newer, between, older, before, rfl, hnewer, holder⟩
  · rintro ⟨after, newer, between, older, before, rfl, hnewer, holder⟩
    simp only [decls, List.filterMap_append, Change.decl?, and_self, ↓reduceIte, Option.some.injEq,
      List.filterMap_cons_some, List.filter_append, hnewer, List.filter_cons_of_pos, holder, List.length_append,
      List.length_cons]
    omega

theorem Sole.holds {decl : δ} (h : history.Sole name accept scope decl) :
    history.Holds name accept scope := by
  obtain ⟨after, before, rfl, haccept, -⟩ := h
  exact ⟨decl, by simp, haccept⟩

theorem Several.holds (h : history.Several name accept scope) : history.Holds name accept scope := by
  obtain ⟨after, newer, between, older, before, rfl, hnewer, -⟩ := h
  exact ⟨newer, by simp, hnewer⟩

/-- There is at most one sole declaration. -/
theorem Sole.unique {decl other : δ} (h : history.Sole name accept scope decl)
    (h' : history.Sole name accept scope other) : decl = other := by
  rw [← filter_decls_eq_singleton] at h h'
  rw [h] at h'
  exact (List.cons.inj h').1

/-- One is not several. -/
theorem Sole.not_several {decl : δ} (h : history.Sole name accept scope decl) :
    ¬ history.Several name accept scope := by
  rw [← two_le_length_filter_decls, filter_decls_eq_singleton.2 h]
  simp

variable {path : List Nat} {candidate fits : δ → Bool}

/-- The first scope of the path is the nearest. -/
theorem Nearest.head (h : history.Holds name accept scope) (outer : List Nat) :
    history.Nearest (scope :: outer) name accept scope :=
  ⟨[], outer, rfl, h, by simp⟩

/-- A scope in which nothing is accepted is passed over. -/
theorem Nearest.inner (h : history.Nearest path name accept scope) {s : Nat}
    (hs : history.Lacks name accept s) : history.Nearest (s :: path) name accept scope := by
  obtain ⟨inner, outer, rfl, hholds, hinner⟩ := h
  exact ⟨s :: inner, outer, rfl, hholds, List.forall_mem_cons.2 ⟨hs, hinner⟩⟩

theorem Nearest.not_lacks (h : history.Nearest path name accept scope) :
    ¬ ∀ s ∈ path, history.Lacks name accept s := by
  obtain ⟨inner, outer, rfl, hholds, -⟩ := h
  intro hlacks
  exact not_holds.2 (hlacks scope (by simp)) hholds

/-- There is at most one nearest scope. -/
theorem Nearest.unique {other : Nat} (h : history.Nearest path name accept scope)
    (h' : history.Nearest path name accept other) : scope = other := by
  obtain ⟨inner, outer, rfl, hholds, hinner⟩ := h
  obtain ⟨inner', outer', hsplit, hholds', hinner'⟩ := h'
  induction inner generalizing inner' with
  | nil =>
    cases inner' with
    | nil => exact (List.cons.inj hsplit).1
    | cons s inner' =>
      obtain ⟨rfl, -⟩ := List.cons.inj hsplit
      exact absurd hholds (not_holds.2 (hinner' _ (List.mem_cons_self ..)))
  | cons s inner ih =>
    cases inner' with
    | nil =>
      obtain ⟨rfl, -⟩ := List.cons.inj hsplit
      exact absurd hholds' (not_holds.2 (hinner _ (List.mem_cons_self ..)))
    | cons s' inner' =>
      rw [List.forall_mem_cons] at hinner hinner'
      exact ih hinner.2 inner' (List.cons.inj hsplit).2 hinner'.2

/-- What fits is a candidate. -/
theorem Nearest.holds_candidate
    (h : history.Nearest path name (fitting candidate fits) scope) :
    ∃ s ∈ path, history.Holds name candidate s := by
  obtain ⟨inner, outer, rfl, ⟨decl, hadded, haccept⟩, -⟩ := h
  rw [fitting, Bool.and_eq_true] at haccept
  exact ⟨scope, by simp, decl, hadded, haccept.1⟩

namespace Resolves

variable {resolution other : Resolution δ}

/-- A use that is resolved has a candidate. -/
theorem holds_candidate (h : history.Resolves path name candidate fits resolution)
    (hfound : resolution ≠ .notFound) : ∃ s ∈ path, history.Holds name candidate s := by
  cases resolution with
  | found decl =>
    obtain ⟨scope, hnearest, -⟩ := h
    exact hnearest.holds_candidate
  | ambiguous =>
    rcases h with ⟨scope, hnearest, -⟩ | ⟨-, hcandidate⟩
    · exact hnearest.holds_candidate
    · exact hcandidate
  | notFound => exact absurd rfl hfound

theorem eq_found {decl : δ} (h : history.Resolves path name candidate fits (.found decl))
    (hother : history.Resolves path name candidate fits other) : other = .found decl := by
  obtain ⟨scope, hnearest, hsole⟩ := h
  cases other with
  | found decl' =>
    obtain ⟨scope', hnearest', hsole'⟩ := hother
    obtain rfl := hnearest.unique hnearest'
    rw [hsole.unique hsole']
  | ambiguous =>
    rcases hother with ⟨scope', hnearest', hseveral⟩ | ⟨hlacks, -⟩
    · obtain rfl := hnearest.unique hnearest'
      exact absurd hseveral hsole.not_several
    · exact absurd hlacks hnearest.not_lacks
  | notFound =>
    obtain ⟨s, hs, hholds⟩ := hnearest.holds_candidate
    exact absurd hholds (hother s hs)

/-- A use is resolved in one way only. -/
theorem unique (h : history.Resolves path name candidate fits resolution)
    (hother : history.Resolves path name candidate fits other) : resolution = other := by
  cases resolution with
  | found decl => exact (h.eq_found hother).symm
  | ambiguous =>
    cases other with
    | found decl => exact hother.eq_found h
    | ambiguous => rfl
    | notFound =>
      obtain ⟨s, hs, hholds⟩ := h.holds_candidate (by simp)
      exact absurd hholds (hother s hs)
  | notFound =>
    cases other with
    | notFound => rfl
    | found | ambiguous =>
      obtain ⟨s, hs, hholds⟩ := hother.holds_candidate (by simp)
      exact absurd hholds (h s hs)

variable {s : Nat} {outer : List Nat}

/-- A sole declaration in the first scope is taken. -/
theorem of_sole {decl : δ} (hs : history.Sole name (fitting candidate fits) s decl) :
    history.Resolves (s :: outer) name candidate fits (.found decl) :=
  ⟨s, .head hs.holds outer, hs⟩

/-- Several in the first scope are ambiguous. -/
theorem of_several (hs : history.Several name (fitting candidate fits) s) :
    history.Resolves (s :: outer) name candidate fits .ambiguous :=
  .inl ⟨s, .head hs.holds outer, hs⟩

/-- Where nothing fits, candidates do not hide what is found farther out. -/
theorem inner (hs : history.Lacks name (fitting candidate fits) s)
    (h : history.Resolves outer name candidate fits resolution) (hfound : resolution ≠ .notFound) :
    history.Resolves (s :: outer) name candidate fits resolution := by
  cases resolution with
  | found decl =>
    obtain ⟨scope, hnearest, hsole⟩ := h
    exact ⟨scope, hnearest.inner hs, hsole⟩
  | ambiguous =>
    rcases h with ⟨scope, hnearest, hseveral⟩ | ⟨hlacks, t, ht, hholds⟩
    · exact .inl ⟨scope, hnearest.inner hs, hseveral⟩
    · exact .inr ⟨List.forall_mem_cons.2 ⟨hs, hlacks⟩, t, List.mem_cons_of_mem s ht, hholds⟩
  | notFound => exact absurd rfl hfound

/-- What has no candidates farther out either is not found. -/
theorem inner_notFound (hs : ¬ history.Holds name candidate s)
    (h : history.Resolves outer name candidate fits .notFound) :
    history.Resolves (s :: outer) name candidate fits .notFound :=
  List.forall_mem_cons.2 ⟨hs, h⟩

/-- Candidates of which none fits, here or farther out, are reported. -/
theorem inner_ambiguous (hs : history.Lacks name (fitting candidate fits) s)
    (hholds : history.Holds name candidate s)
    (h : history.Resolves outer name candidate fits .notFound) :
    history.Resolves (s :: outer) name candidate fits .ambiguous := by
  refine .inr ⟨List.forall_mem_cons.2 ⟨hs, fun t ht decl hadded => ?_⟩, s, List.mem_cons_self .., hholds⟩
  have hcandidate := not_holds.1 (h t ht) decl hadded
  rw [fitting, hcandidate, Bool.false_and]

end Resolves

end History

namespace Follows

variable {table : Table δ} {history : History δ}

/-- Scope by scope, the outcome is the one of the history. -/
theorem resolves_chain (h : Follows table history) (path : List Nat) (name : String)
    (candidate fits : δ → Bool) :
    history.Resolves path name candidate fits
      (.among (path.map (table.decls · name)) candidate fits) := by
  induction path with
  | nil => simp [Resolution.among, History.Resolves]
  | cons s outer ih =>
    have hfitting : ((history.decls s name).filter candidate).filter fits =
        (history.decls s name).filter (fitting candidate fits) := by
      rw [List.filter_filter]
      exact List.filter_congr fun decl _ => Bool.and_comm ..
    rw [List.map_cons, Resolution.among]
    simp only [h.decls, hfitting] at ih ⊢
    split
    · rename_i decl hone
      exact .of_sole (History.filter_decls_eq_singleton.1 hone)
    · rename_i newer older others hmore
      apply History.Resolves.of_several
      rw [← History.two_le_length_filter_decls, hmore]
      simp
    · rename_i hnone
      have hlacks := History.filter_decls_eq_nil.1 hnone
      -- Nothing fits here, so the scopes around decide. Only if they have no candidates at all do those
      -- of this scope matter.
      split
      · rename_i hnotFound
        rw [hnotFound] at ih
        by_cases hcandidate : history.Holds name candidate s
        · have hnonempty : (history.decls s name).filter candidate ≠ [] := by
            rw [Ne, History.filter_decls_eq_nil, ← History.not_holds, Classical.not_not]
            exact hcandidate
          rw [if_neg (by simpa using hnonempty)]
          exact ih.inner_ambiguous hlacks hcandidate
        · have hempty := History.filter_decls_eq_nil.2 (History.not_holds.1 hcandidate)
          rw [hempty, if_pos List.isEmpty_nil]
          exact ih.inner_notFound hcandidate
      · rename_i hfound
        exact ih.inner hlacks hfound

/-- A table that follows a history resolves as it says. -/
theorem resolve_eq_iff (h : Follows table history) {s : Nat} {path : List Nat}
    (hpath : history.Path s path) (name : String) (candidate fits : δ → Bool) (resolution : Resolution δ) :
    table.resolve s name candidate fits = resolution ↔
      history.Resolves path name candidate fits resolution := by
  have houtcome := h.resolves_chain path name candidate fits
  rw [resolve, h.chain_eq hpath]
  constructor
  · rintro rfl
    exact houtcome
  · intro hresolves
    exact houtcome.unique hresolves

end Follows

/-- A table that is built by operations resolves the uses of names as its history says. From every scope
a path leads to scope zero, and the first scope along it with a fitting declaration decides: a use is
resolved to the one that fits there, and is ambiguous if several fit. If none fits along the whole path,
it is ambiguous if there are candidates, and not found otherwise. -/
theorem resolve_refines_history [Binding δ] (ops : List (Op δ)) (hknown : History.Knows [] ops) {s : Nat}
    (hs : s < (run ops).size) :
    (∃ path, (History.of ops).Path s path) ∧
      ∀ path, (History.of ops).Path s path → ∀ name candidate fits resolution,
        (run ops).resolve s name candidate fits = resolution ↔
          (History.of ops).Resolves path name candidate fits resolution := by
  have h : Follows (run ops) (History.of ops) := Follows.new.foldl hknown
  refine ⟨h.exists_path hs, ?_⟩
  intro path hpath name candidate fits resolution
  exact h.resolve_eq_iff hpath name candidate fits resolution

namespace Overlaid

/-- A function `f` that takes one argument. -/
def taking (label : String) (type : Ty) : Decl := .function label (.function .int [type])

/-- Two functions `f` around two scopes, of which the outer one has two functions `f` that both take a
boolean. -/
def ops : List (Op Decl) :=
  [.declare 0 "f" (taking "a" .int), .declare 0 "f" (taking "b" .bool), .child 0,
    .bind 1 "f" (taking "c" .bool), .bind 1 "f" (taking "d" .bool), .child 1]

def history : History Decl :=
  [.made 2 1, .added 1 "f" (taking "d" .bool), .added 1 "f" (taking "c" .bool), .made 1 0,
    .added 0 "f" (taking "b" .bool), .added 0 "f" (taking "a" .int)]

theorem history_of_ops : History.of ops = history := rfl

theorem knows : History.Knows [] ops := by
  refine ⟨?_, ?_, ?_, ?_, ?_, ?_, trivial⟩ <;> decide

theorem path_inner : history.Path 2 [2, 1, 0] := by
  have houter : .made 1 0 ∈ history := by simp [history]
  have hinner : .made 2 1 ∈ history := by simp [history]
  exact .inner hinner (.inner houter .root)

end Overlaid

/-- From the inner scope an integer goes out to the function that takes it, past those that do not. A
boolean is ambiguous, although one function farther out takes it, and a character has candidates
only. -/
theorem overlaid_resolve_refines_history : History.Knows [] Overlaid.ops ∧
    2 < (run Overlaid.ops).size ∧ (History.of Overlaid.ops).Path 2 [2, 1, 0] ∧
    (run Overlaid.ops).resolve 2 "f" Decl.isFunction (Decl.takes [.int]) =
      .found (Overlaid.taking "a" .int) ∧
    (run Overlaid.ops).resolve 2 "f" Decl.isFunction (Decl.takes [.bool]) = .ambiguous ∧
    (run Overlaid.ops).resolve 2 "f" Decl.isFunction (Decl.takes [.char]) = .ambiguous ∧
    (run Overlaid.ops).resolve 2 "f" Decl.isVariable (Decl.takes [.int]) = .notFound := by
  have hsize : 2 < (run Overlaid.ops).size := by decide
  have hpath : (History.of Overlaid.ops).Path 2 [2, 1, 0] := Overlaid.path_inner
  have houtcome := (resolve_refines_history Overlaid.ops Overlaid.knows hsize).2 _ hpath
  rw [Overlaid.history_of_ops] at houtcome
  refine ⟨Overlaid.knows, hsize, hpath, ?_, ?_, ?_, ?_⟩
  · rw [houtcome]
    have houter : Overlaid.history.Resolves [0] "f" Decl.isFunction (Decl.takes [.int])
        (.found (Overlaid.taking "a" .int)) := .of_sole (History.filter_decls_eq_singleton.1 rfl)
    have hmiddle := houter.inner (s := 1) (History.filter_decls_eq_nil.1 rfl) (by simp)
    exact hmiddle.inner (History.filter_decls_eq_nil.1 rfl) (by simp)
  · rw [houtcome]
    have hmiddle : Overlaid.history.Resolves [1, 0] "f" Decl.isFunction (Decl.takes [.bool])
        .ambiguous := .of_several (History.two_le_length_filter_decls.1 (by decide))
    exact hmiddle.inner (History.filter_decls_eq_nil.1 rfl) (by simp)
  · rw [houtcome]
    refine .inr ⟨?_, 1, by simp, Overlaid.taking "c" .bool, by simp [Overlaid.history], rfl⟩
    simp only [List.forall_mem_cons, ← History.filter_decls_eq_nil]
    exact ⟨rfl, rfl, rfl, by simp⟩
  · rw [houtcome]
    simp only [History.Resolves, List.forall_mem_cons, History.not_holds,
      ← History.filter_decls_eq_nil]
    exact ⟨rfl, rfl, rfl, by simp⟩

end Table

end WaccArm
