import WaccArm.Scope.Chain

namespace WaccArm

variable {δ : Type}

/-- The newest binding of a name counts. -/
theorem Scope.lookup?_eq_lookup (scope : Scope δ) (name : String) :
    scope.lookup? name (fun _ => true) = List.lookup name scope := by
  induction scope with
  | nil => rfl
  | cons binding scope ih =>
    obtain ⟨other, decl⟩ := binding
    have hcomm : (name == other) = (other == name) := BEq.comm
    simp only [lookup?, decls] at ih ⊢
    cases h : other == name with
    | true => simp [List.lookup_cons, hcomm, h]
    | false =>
      simp only [List.filter_cons, List.lookup_cons, hcomm, h, Bool.false_eq_true, if_false]
      exact ih

theorem Scope.mem_of_mem_decls {scope : Scope δ} {name : String} {decl : δ}
    (h : decl ∈ scope.decls name) : (name, decl) ∈ scope := by
  obtain ⟨⟨other, decl⟩, hmem, rfl⟩ := List.mem_map.1 h
  obtain ⟨hmem, hname⟩ := List.mem_filter.1 hmem
  rw [← beq_iff_eq.1 hname]
  exact hmem

namespace Chain

/-- The first binding of a name in the chain is the first one in the list of all bindings. -/
theorem lookup?_eq_lookup (chain : Chain δ) (name : String) :
    chain.lookup? name (fun _ => true) = List.lookup name chain.flatten := by
  induction chain with
  | nil => rfl
  | cons scope outer ih =>
    simp only [lookup?, List.findSome?_cons, Scope.lookup?_eq_lookup] at ih ⊢
    rw [List.flatten_cons, List.lookup_append, ← ih]
    cases List.lookup name scope <;> rfl

/-- A binding comes before all others. -/
@[simp] theorem flatten_bind (chain : Chain δ) (name : String) (decl : δ) :
    (chain.bind name decl).flatten = (name, decl) :: chain.flatten := by
  cases chain <;> rfl

/-- What is found was bound. -/
theorem mem_of_lookup? {chain : Chain δ} {name : String} {accept : δ → Bool} {decl : δ}
    (h : chain.lookup? name accept = some decl) : (name, decl) ∈ chain.flatten := by
  obtain ⟨before, scope, after, rfl, hscope, -⟩ := List.findSome?_eq_some_iff.1 h
  have hmem := Scope.mem_of_mem_decls (List.mem_of_find?_eq_some hscope)
  simp [hmem]

theorem mem_of_resolve {chain : Chain δ} {name : String} {candidate fits : δ → Bool} {decl : δ}
    (h : chain.resolve name candidate fits = .found decl) : (name, decl) ∈ chain.flatten := by
  induction chain with
  | nil => cases h
  | cons scope outer ih =>
    rw [List.flatten_cons, List.mem_append]
    rw [resolve, List.map_cons, Resolution.among] at h
    split at h
    · rename_i fitting hfitting
      cases h
      have hmem : decl ∈ ((scope.decls name).filter candidate).filter fits := by
        rw [hfitting]
        exact List.mem_singleton_self decl
      have hcandidate := (List.mem_filter.1 hmem).1
      exact .inl (Scope.mem_of_mem_decls (List.mem_filter.1 hcandidate).1)
    · cases h
    · split at h
      · split at h <;> cases h
      · exact .inr (ih h)

/-- A declaration adds one binding. -/
theorem mem_of_declare? [Binding δ] {chain chain' : Chain δ} {name : String} {decl : δ}
    (h : chain.declare? name decl = some chain') {binding : String × δ}
    (hbinding : binding ∈ chain'.flatten) : binding = (name, decl) ∨ binding ∈ chain.flatten := by
  cases chain with
  | nil =>
    cases h
    simpa [Scope.bind] using hbinding
  | cons scope outer =>
    obtain ⟨scope', hscope, rfl⟩ := Option.map_eq_some_iff.1 h
    rw [Scope.declare?] at hscope
    split at hscope
    · cases hscope
    · cases hscope
      simpa [Scope.bind, or_assoc] using hbinding

end Chain

end WaccArm
