namespace WaccArm

/-- What a name can be bound to. -/
class Binding (δ : Type) where
  /-- Whether both may not be bound to one name in one scope. -/
  collides : δ → δ → Bool

/-- The bindings of one scope, the newest first. -/
abbrev Scope (δ : Type) := List (String × δ)

/-- The scopes that can be seen from a point, the innermost first. -/
abbrev Chain (δ : Type) := List (Scope δ)

/-- The outcome of asking for the one binding that fits a use. -/
inductive Resolution (δ : Type) where
  | found (decl : δ)
  | notFound
  /-- There are candidates, but none of them or more than one fits. -/
  | ambiguous
deriving DecidableEq, Repr

variable {δ : Type}

/-- The one binding that fits, among those that are candidates, in scopes that are given by what a name is
bound to in each, the innermost first. The innermost scope that has a fitting one decides. -/
def Resolution.among (scopes : List (List δ)) (candidate fits : δ → Bool) : Resolution δ :=
  match scopes with
  | [] => .notFound
  | decls :: outer =>
    let candidates := decls.filter candidate
    match candidates.filter fits with
    | [decl] => .found decl
    | _ :: _ :: _ => .ambiguous
    | [] =>
      match among outer candidate fits with
      | .notFound => if candidates.isEmpty then .notFound else .ambiguous
      | resolution => resolution

namespace Scope

/-- What `name` is bound to, the newest first. -/
def decls (scope : Scope δ) (name : String) : List δ :=
  (scope.filter fun binding => binding.1 == name).map Prod.snd

/-- The newest binding of `name` that `accept` holds of. -/
def lookup? (scope : Scope δ) (name : String) (accept : δ → Bool) : Option δ :=
  (scope.decls name).find? accept

/-- Adds a binding, whatever the name is bound to already. -/
def bind (scope : Scope δ) (name : String) (decl : δ) : Scope δ := (name, decl) :: scope

/-- Adds a binding, unless one of the same name collides with it. -/
def declare? [Binding δ] (scope : Scope δ) (name : String) (decl : δ) : Option (Scope δ) :=
  if (scope.decls name).any fun old => Binding.collides old decl then none
  else some (scope.bind name decl)

end Scope

namespace Chain

/-- A new scope inside the others. -/
def enter (chain : Chain δ) : Chain δ := [] :: chain

/-- Adds a binding to the innermost scope. -/
def bind (chain : Chain δ) (name : String) (decl : δ) : Chain δ :=
  match chain with
  | [] => [Scope.bind [] name decl]
  | scope :: outer => scope.bind name decl :: outer

/-- Adds a binding to the innermost scope, unless one there collides with it. -/
def declare? [Binding δ] (chain : Chain δ) (name : String) (decl : δ) : Option (Chain δ) :=
  match chain with
  | [] => some [Scope.bind [] name decl]
  | scope :: outer => (scope.declare? name decl).map (· :: outer)

/-- The newest binding of `name` that `accept` holds of, in the innermost scope that has one. -/
def lookup? (chain : Chain δ) (name : String) (accept : δ → Bool) : Option δ :=
  chain.findSome? fun scope => scope.lookup? name accept

/-- The one binding of `name` that fits, among those that are candidates. -/
def resolve (chain : Chain δ) (name : String) (candidate fits : δ → Bool) : Resolution δ :=
  .among (chain.map (Scope.decls · name)) candidate fits

end Chain

end WaccArm
