import Mathlib.Data.List.Induction
import WaccArm.Proofs.Scope.History

namespace WaccArm

namespace Decl

/-- Functions collide only if they take the same parameters. -/
theorem collides_iff {old decl : Decl} : old.collides decl = true ↔
    old.isVariable = true ∨ decl.isVariable = true ∨ sameParams old.params? decl.params? = true := by
  cases old <;> cases decl <;> simp [collides, isVariable]

/-- The declarations, the newest first, are a single variable, or functions none of which has the
parameters of one declared after it. -/
def Together (decls : List Decl) : Prop :=
  (∃ type, decls = [.variable type]) ∨
    (∀ decl ∈ decls, decl.isFunction = true) ∧
      decls.Pairwise fun newer older => ¬ sameParams older.params? newer.params? = true

theorem together_nil : Together [] := .inr (by simp)

/-- What collides with none of the declarations joins them. -/
theorem Together.cons {decls : List Decl} (h : Together decls) {decl : Decl}
    (hapart : ∀ old ∈ decls, ¬ old.collides decl = true) : Together (decl :: decls) := by
  simp only [collides_iff, not_or] at hapart
  rcases h with ⟨type, rfl⟩ | ⟨hfunctions, hdistinct⟩
  · exact absurd rfl (hapart (.variable type) (List.mem_singleton_self _)).1
  · cases decl with
    | «variable» type =>
      cases decls with
      | nil => exact .inl ⟨type, rfl⟩
      | cons old decls => exact absurd rfl (hapart old (List.mem_cons_self ..)).2.1
    | function label type =>
      refine .inr ⟨List.forall_mem_cons.2 ⟨rfl, hfunctions⟩, List.pairwise_cons.2 ⟨?_, hdistinct⟩⟩
      intro old hold
      exact (hapart old hold).2.2

end Decl

namespace Table

variable {δ : Type}

section

variable [Binding δ]

/-- A declaration that collides with one of its name and scope is refused, and leaves the table that was
there before. Any other one is added. -/
theorem declare_cases (table : Table δ) (scope : Nat) (name : String) (decl : δ) :
    (∃ old ∈ table.decls scope name, Binding.collides old decl = true) ∧
        table.declare scope name decl = (.error ⟨name⟩, table) ∨
      (∀ old ∈ table.decls scope name, ¬ Binding.collides old decl = true) ∧
        table.declare scope name decl = (.ok (), table.bind scope name decl) := by
  rw [declare_eq]
  split
  · rename_i hcollides
    exact .inl ⟨List.any_eq_true.1 hcollides, rfl⟩
  · rename_i hapart
    rw [List.any_eq_true, not_exists] at hapart
    exact .inr ⟨fun old hold hcollides => hapart old ⟨hold, hcollides⟩, rfl⟩

end

section

variable [Binding δ]

theorem run_append (ops ops' : List (Op δ)) : run (ops ++ ops') = ops'.foldl apply (run ops) :=
  List.foldl_append

theorem run_concat (ops : List (Op δ)) (op : Op δ) : run (ops ++ [op]) = (run ops).apply op :=
  run_append ops [op]

/-- The operation makes a scope or declares something. -/
def Op.Declaring : Op δ → Prop
  | .bind .. => False
  | .child .. | .declare .. => True

/-- One of the operations asks for the declaration, and it is not refused. -/
def Accepted (ops : List (Op δ)) (scope : Nat) (name : String) (decl : δ) : Prop :=
  ∃ before later, ops = before ++ .declare scope name decl :: later ∧
    ((run before).declare scope name decl).1 = .ok ()

/-- What was accepted before or is accepted last. -/
theorem accepted_concat {ops : List (Op δ)} {op : Op δ} {scope : Nat} {name : String} {decl : δ} :
    Accepted (ops ++ [op]) scope name decl ↔ Accepted ops scope name decl ∨
      op = .declare scope name decl ∧ ((run ops).declare scope name decl).1 = .ok () := by
  constructor
  · rintro ⟨before, later, hsplit, haccepted⟩
    rcases List.eq_nil_or_concat later with rfl | ⟨later, last, rfl⟩
    · obtain ⟨rfl, hop⟩ := List.append_inj' hsplit rfl
      exact .inr ⟨(List.cons.inj hop).1, haccepted⟩
    · rw [List.concat_eq_append, ← List.cons_append, ← List.append_assoc] at hsplit
      obtain ⟨rfl, -⟩ := List.append_inj' hsplit rfl
      exact .inl ⟨before, later, rfl, haccepted⟩
  · rintro (⟨before, later, rfl, haccepted⟩ | ⟨rfl, haccepted⟩)
    · exact ⟨before, later ++ [op], by simp, haccepted⟩
    · exact ⟨ops, [], rfl, haccepted⟩

/-- The first operations are known before the others. -/
theorem History.Knows.append {history : History δ} {ops ops' : List (Op δ)}
    (h : history.Knows (ops ++ ops')) : history.Knows ops ∧ Knows (ops.foldl History.record history) ops' := by
  induction ops generalizing history with
  | nil => exact ⟨trivial, h⟩
  | cons op ops ih =>
    obtain ⟨hops, hops'⟩ := ih h.2
    exact ⟨⟨h.1, hops⟩, hops'⟩

/-- Of operations that name scopes which are there, the last one names a scope of the table before it. -/
theorem knows_concat {ops : List (Op δ)} {op : Op δ} (h : History.Knows [] (ops ++ [op])) :
    History.Knows [] ops ∧ op.scope < (run ops).size := by
  obtain ⟨hops, hop⟩ := h.append
  have hfollows : Follows (run ops) (History.of ops) := Follows.new.foldl hops
  rw [hfollows.size]
  exact ⟨hops, hop.1⟩

end

section

variable [Binding δ] {ops : List (Op δ)}

/-- A step adds nothing, or the declaration that it asks for, in its place. -/
theorem apply_cases {table : Table δ} {op : Op δ} (hop : op.Declaring) (hscope : op.scope < table.size) :
    ((∀ s other, (table.apply op).decls s other = table.decls s other) ∧
      ∀ scope name decl, op = .declare scope name decl → (table.declare scope name decl).1 ≠ .ok ()) ∨
    ∃ scope name decl, op = .declare scope name decl ∧ (table.declare scope name decl).1 = .ok () ∧
      (∀ old ∈ table.decls scope name, ¬ Binding.collides old decl = true) ∧
      ∀ s other, (table.apply op).decls s other =
        if scope = s ∧ name = other then decl :: table.decls s other else table.decls s other := by
  cases op with
  | bind => exact hop.elim
  | child parent =>
    have hparent : parent < table.size := hscope
    left
    constructor
    · intro s other
      exact decls_child table hparent s other
    · intro scope name decl h
      cases h
  | declare scope name decl =>
    rcases declare_cases table scope name decl with ⟨-, hdeclare⟩ | ⟨hapart, hdeclare⟩
    · left
      constructor
      · intro s other
        rw [apply, hdeclare]
      · rintro _ _ _ ⟨⟩
        rw [hdeclare]
        intro h
        cases h
    · right
      refine ⟨scope, name, decl, rfl, by rw [hdeclare], hapart, ?_⟩
      intro s other
      rw [apply, hdeclare]
      exact decls_bind hscope name decl s other

theorem decls_run_nil (s : Nat) (other : String) :
    (run ([] : List (Op δ))).decls s other = [] := by
  have hnew : Follows (new : Table δ) [] := .new
  exact hnew.decls s other

/-- What stands under a name in a scope was accepted there, and all that was accepted stands there still. -/
theorem mem_decls_iff_accepted (hknown : History.Knows [] ops) (hops : ∀ op ∈ ops, op.Declaring)
    {s : Nat} {other : String} {old : δ} :
    old ∈ (run ops).decls s other ↔ Accepted ops s other old := by
  induction ops using List.reverseRecOn with
  | nil =>
    rw [decls_run_nil]
    simp [Accepted]
  | append_singleton ops op ih =>
    obtain ⟨hbefore, hscope⟩ := knows_concat hknown
    rw [List.forall_mem_append, List.forall_mem_singleton] at hops
    rw [run_concat, accepted_concat, ← ih hbefore hops.1]
    -- The last operation adds to both sides or to none of them.
    rcases apply_cases hops.2 hscope with ⟨hsame, hrefused⟩ | ⟨scope, name, decl, rfl, haccepted, -, hadded⟩
    · rw [hsame]
      grind
    · rw [hadded]
      grind

end

/-- However scopes are made and declarations asked for, those of one name in one scope stand together. -/
theorem together_decls {ops : List (Op Decl)} (hknown : History.Knows [] ops)
    (hops : ∀ op ∈ ops, op.Declaring) (s : Nat) (other : String) :
    Decl.Together ((run ops).decls s other) := by
  induction ops using List.reverseRecOn with
  | nil =>
    rw [decls_run_nil]
    exact Decl.together_nil
  | append_singleton ops op ih =>
    obtain ⟨hbefore, hscope⟩ := knows_concat hknown
    rw [List.forall_mem_append, List.forall_mem_singleton] at hops
    have htogether := ih hbefore hops.1
    rw [run_concat]
    rcases apply_cases hops.2 hscope with ⟨hsame, -⟩ | ⟨scope, name, decl, -, -, hapart, hadded⟩
    · rw [hsame]
      exact htogether
    · rw [hadded]
      split
      · rename_i hplace
        obtain ⟨rfl, rfl⟩ := hplace
        exact htogether.cons hapart
      · exact htogether

/-- However scopes are made and declarations asked for: under one name in one scope stand exactly the
declarations that were accepted there, and they are a single variable or functions none of which has
the parameters of a later one. A further declaration is refused exactly if it collides with one of
them. The error then tells its name, the table is left as it was, and all that comes later is as if it
had not been asked for. Otherwise it joins them, and no other scope or name is changed. -/
theorem declarations_atomic (ops : List (Op Decl)) (hknown : History.Knows [] ops)
    (hops : ∀ op ∈ ops, op.Declaring) :
    (∀ s other, Decl.Together ((run ops).decls s other) ∧
      ∀ old, old ∈ (run ops).decls s other ↔ Accepted ops s other old) ∧
    ∀ scope < (run ops).size, ∀ name decl,
      (((run ops).declare scope name decl).1 = .error ⟨name⟩ ↔
        ∃ old, Accepted ops scope name old ∧ (old.isVariable = true ∨ decl.isVariable = true ∨
          Decl.sameParams old.params? decl.params? = true)) ∧
      (∀ error table, (run ops).declare scope name decl = (.error error, table) →
        error = ⟨name⟩ ∧ table = run ops ∧
          ∀ later, run (ops ++ .declare scope name decl :: later) = run (ops ++ later)) ∧
      ∀ table, (run ops).declare scope name decl = (.ok (), table) →
        ∀ s other, table.decls s other =
          if scope = s ∧ name = other then decl :: (run ops).decls s other
          else (run ops).decls s other := by
  refine ⟨fun s other => ⟨together_decls hknown hops s other, fun old => ?_⟩, ?_⟩
  · exact mem_decls_iff_accepted hknown hops
  · intro scope hscope name decl
    simp only [← mem_decls_iff_accepted hknown hops, ← Decl.collides_iff]
    rcases declare_cases (run ops) scope name decl with ⟨hcollides, hdeclare⟩ | ⟨hapart, hdeclare⟩
    · refine ⟨⟨fun _ => hcollides, fun _ => by rw [hdeclare]⟩, ?_, ?_⟩
      · intro error table h
        cases hdeclare.symm.trans h
        refine ⟨rfl, rfl, fun later => ?_⟩
        rw [run_append, run_append, List.foldl_cons, apply, hdeclare]
      · intro table h
        cases hdeclare.symm.trans h
    · refine ⟨⟨fun h => ?_, fun hcollides => ?_⟩, ?_, ?_⟩
      · rw [hdeclare] at h
        cases h
      · obtain ⟨old, hold, hcollides⟩ := hcollides
        exact absurd hcollides (hapart old hold)
      · intro error table h
        cases hdeclare.symm.trans h
      · intro table h
        cases hdeclare.symm.trans h
        exact decls_bind hscope name decl

namespace Repeated

/-- A function `f` of an integer and one of a character, and a variable `f` in a scope inside. -/
def ops : List (Op Decl) :=
  [.declare 0 "f" (.function "f_f_0" (.function .int [.int])),
    .declare 0 "f" (.function "f_f_1" (.function .int [.char])), .child 0,
    .declare 1 "f" (.variable .int)]

theorem knows : History.Knows [] ops := by
  refine ⟨?_, ?_, ?_, ?_, trivial⟩ <;> decide

theorem declaring : ∀ op ∈ ops, op.Declaring := by
  simp [ops, Op.Declaring]

/-- A second function `f` of an integer. -/
def again : Decl := .function "g" (.function .bool [.int])

/-- The first function is accepted. -/
theorem accepted : Accepted ops 0 "f" (.function "f_f_0" (.function .int [.int])) :=
  ⟨[], _, rfl, by simp [declare_eq, decls_run_nil]⟩

end Repeated

/-- A second function of an integer is refused beside the first one. The table is left as it was, and a
scope that is made then is made as if nothing had been asked for. -/
theorem repeated_declarations_atomic : History.Knows [] Repeated.ops ∧
    (∀ op ∈ Repeated.ops, op.Declaring) ∧ 0 < (run Repeated.ops).size ∧
    (run Repeated.ops).declare 0 "f" Repeated.again = (.error ⟨"f"⟩, run Repeated.ops) ∧
    run (Repeated.ops ++ [.declare 0 "f" Repeated.again, .child 1]) = run (Repeated.ops ++ [.child 1]) := by
  have hsize : 0 < (run Repeated.ops).size := by decide
  obtain ⟨hrefused_iff, hunchanged, -⟩ :=
    (declarations_atomic Repeated.ops Repeated.knows Repeated.declaring).2 0 hsize "f" Repeated.again
  have hrefused := hrefused_iff.2 ⟨_, Repeated.accepted, .inr (.inr rfl)⟩
  obtain ⟨-, htable, hlater⟩ := hunchanged _ _ (Prod.ext hrefused rfl)
  exact ⟨Repeated.knows, Repeated.declaring, hsize, Prod.ext hrefused htable, hlater [.child 1]⟩

end Table

end WaccArm
