import WaccArm.Scope.Chain

namespace WaccArm

/-- What each name of a scope is bound to, the oldest first. A name may have an entry that is empty. -/
abbrev Names (δ : Type) := String → Option (List δ)

namespace Names

variable {δ : Type}

/-- Makes an empty entry for a name that has none. -/
def touch (names : Names δ) (name : String) : Names δ := fun other =>
  if other = name then some ((names name).getD []) else names other

/-- Adds to the entry of a name, if there is one. -/
def push (names : Names δ) (name : String) (decl : δ) : Names δ := fun other =>
  if other = name then (names name).map (· ++ [decl]) else names other

end Names

namespace Scope

/-- A scope and the number of the scope around it. -/
structure Entry (δ : Type) where
  parent : Option Nat
  names : Names δ

end Scope

/-- A name that is bound in the scope already, to something that excludes the new binding. -/
structure Redeclared where
  name : String
deriving DecidableEq, Repr

/-- Scopes by number, in the order they were made. A parent has a smaller number. -/
structure Table (δ : Type) where
  entries : List (Scope.Entry δ)
  parent_lt : ∀ (scope : Nat) (entry : Scope.Entry δ) (parent : Nat),
    entries[scope]? = some entry → entry.parent = some parent → parent < scope

namespace Table

variable {δ : Type}

/-- A table with scope zero only. -/
def new : Table δ where
  entries := [⟨none, fun _ => none⟩]
  parent_lt := by
    intro scope entry parent hentry hparent
    match scope with
    | 0 => simp at hentry; subst hentry; cases hparent
    | _ + 1 => simp at hentry

/-- The number of scopes. -/
def size (table : Table δ) : Nat := table.entries.length

/-- The number of the scope around `scope`. -/
def parent? (table : Table δ) (scope : Nat) : Option Nat :=
  table.entries[scope]?.bind Scope.Entry.parent

/-- Makes a scope inside `parent` and gives its number. A parent that does not exist counts as
none. -/
def child (table : Table δ) (parent : Nat) : Nat × Table δ :=
  (table.size,
    { entries := table.entries ++ [⟨if parent < table.size then some parent else none, fun _ => none⟩]
      parent_lt := by
        intro scope entry outer hentry hparent
        rw [List.getElem?_append] at hentry
        split at hentry
        · exact table.parent_lt scope entry outer hentry hparent
        · rename_i hscope
          have hentry := List.mem_of_getElem? hentry
          simp only [List.mem_singleton] at hentry
          subst hentry
          by_cases hlt : parent < table.size
          · rw [if_pos hlt] at hparent
            injection hparent with hparent
            simp only [size] at hlt
            omega
          · rw [if_neg hlt] at hparent
            cases hparent })

/-- Changes what the names of `scope` are bound to. -/
def update (table : Table δ) (scope : Nat) (f : Names δ → Names δ) : Table δ where
  entries := table.entries.modify scope fun entry => { entry with names := f entry.names }
  parent_lt := by
    intro number entry outer hentry hparent
    rw [List.getElem?_modify] at hentry
    obtain ⟨old, hold, hentry⟩ := Option.map_eq_some_iff.1 hentry
    refine table.parent_lt number old outer hold ?_
    split at hentry <;> subst hentry <;> exact hparent

/-- What the names of `scope` are bound to. -/
def names (table : Table δ) (scope : Nat) : Names δ := fun name =>
  table.entries[scope]?.bind fun entry => entry.names name

/-- What `name` is bound to in `scope`, the newest first. -/
def decls (table : Table δ) (scope : Nat) (name : String) : List δ :=
  ((table.names scope name).getD []).reverse

/-- The scopes that can be seen from `scope`, the innermost first. -/
def chain (table : Table δ) (scope : Nat) : List Nat :=
  match hentry : table.entries[scope]? with
  | none => []
  | some entry =>
    match hparent : entry.parent with
    | none => [scope]
    | some outer =>
      have := table.parent_lt scope entry outer hentry hparent
      scope :: table.chain outer
termination_by scope

/-- Adds a binding to `scope`, whatever the name is bound to already. -/
def bind (table : Table δ) (scope : Nat) (name : String) (decl : δ) : Table δ :=
  table.update scope fun names => (names.touch name).push name decl

/-- Adds a binding to `scope`, unless one of the same name there collides with it. The entry of the name
is made before this is known, and stays in the table that is left. -/
def declare [Binding δ] (table : Table δ) (scope : Nat) (name : String) (decl : δ) :
    Except Redeclared Unit × Table δ :=
  let table := table.update scope (Names.touch · name)
  if ((table.names scope name).getD []).any fun old => Binding.collides old decl then
    (.error ⟨name⟩, table)
  else (.ok (), table.update scope (Names.push · name decl))

/-- The table after a declaration that is accepted. -/
def declare? [Binding δ] (table : Table δ) (scope : Nat) (name : String) (decl : δ) :
    Option (Table δ) :=
  match table.declare scope name decl with
  | (.ok _, table) => some table
  | (.error _, _) => none

/-- The newest binding of `name` in `scope` itself that `accept` holds of. -/
def lookupLocal? (table : Table δ) (scope : Nat) (name : String) (accept : δ → Bool) : Option δ :=
  (table.names scope name).bind fun decls => decls.reverse.find? accept

/-- The newest binding of `name` that `accept` holds of, in the innermost scope that has one. -/
def lookup? (table : Table δ) (scope : Nat) (name : String) (accept : δ → Bool) : Option δ :=
  (table.chain scope).findSome? fun s => table.lookupLocal? s name accept

/-- The one binding of `name` that fits, seen from `scope`. -/
def resolve (table : Table δ) (scope : Nat) (name : String) (candidate fits : δ → Bool) :
    Resolution δ :=
  .among ((table.chain scope).map (table.decls · name)) candidate fits

end Table

end WaccArm
