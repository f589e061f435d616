import WaccArm.Checker.Decl
import WaccArm.Scope.Table

namespace WaccArm

variable {δ : Type}

namespace Names

variable {names : Names δ} {name : String}

/-- A name that has an entry keeps it. -/
theorem touch_of_isSome (h : (names name).isSome) : names.touch name = names := by
  funext other
  rw [touch]
  split
  · rename_i heq
    obtain ⟨decls, hdecls⟩ := Option.isSome_iff_exists.1 h
    rw [heq, hdecls, Option.getD_some]
  · rfl

/-- An entry that is made is empty, so nothing is bound by it. -/
theorem getD_touch (other : String) : (names.touch name other).getD [] = (names other).getD [] := by
  rw [touch]
  split
  · rename_i heq
    rw [heq, Option.getD_some]
  · rfl

/-- A declaration goes in front of those of its name. -/
theorem getD_push_touch (decl : δ) (other : String) : ((names.touch name).push name decl other).getD [] =
    if other = name then (names other).getD [] ++ [decl] else (names other).getD [] := by
  rw [push]
  split
  · rename_i heq
    rw [heq, touch, if_pos rfl, Option.map_some, Option.getD_some]
  · exact getD_touch other

end Names

namespace Table

/-- What can be asked of a table. -/
inductive Op (δ : Type) where
  | child (parent : Nat)
  | bind (scope : Nat) (name : String) (decl : δ)
  | declare (scope : Nat) (name : String) (decl : δ)

/-- The scope that an operation names. -/
def Op.scope : Op δ → Nat
  | child parent => parent
  | bind scope _ _ | declare scope _ _ => scope

/-- What happened to a table. -/
inductive Change (δ : Type) where
  | made (scope parent : Nat)
  | added (scope : Nat) (name : String) (decl : δ)

/-- The declaration that was added under a name in a scope. -/
def Change.decl? (scope : Nat) (name : String) : Change δ → Option δ
  | added scope' name' decl => if scope' = scope ∧ name' = name then some decl else none
  | made .. => none

theorem Change.decl?_eq_some {change : Change δ} {scope : Nat} {name : String} {decl : δ} :
    change.decl? scope name = some decl ↔ change = .added scope name decl := by
  cases change <;> simp [decl?, and_assoc]

/-- What happened to a table, the newest first. -/
abbrev History (δ : Type) := List (Change δ)

namespace History

/-- The number of scopes. Scope zero is there from the start. -/
def scopes : History δ → Nat
  | [] => 1
  | .made .. :: before => scopes before + 1
  | .added .. :: before => scopes before

/-- What was added under a name in a scope, the newest first. -/
def decls (history : History δ) (scope : Nat) (name : String) : List δ :=
  history.filterMap (Change.decl? scope name)

/-- Nothing that was added under the name in the scope is accepted. -/
def Lacks (history : History δ) (name : String) (accept : δ → Bool) (scope : Nat) : Prop :=
  ∀ decl, .added scope name decl ∈ history → accept decl = false

/-- The declaration is the newest accepted one that was added under the name in the scope. -/
def Newest (history : History δ) (name : String) (accept : δ → Bool) (scope : Nat) (decl : δ) : Prop :=
  ∃ after before, history = after ++ .added scope name decl :: before ∧ accept decl = true ∧
    Lacks after name accept scope

/-- The scopes from a scope to scope zero, each one made in the next. -/
inductive Path (history : History δ) : Nat → List Nat → Prop
  | root : Path history 0 [0]
  | inner {scope parent : Nat} {outer : List Nat} (hmade : .made scope parent ∈ history)
    (houter : Path history parent outer) : Path history scope (scope :: outer)

/-- What is found along a path: the newest accepted declaration of the first scope that has one. -/
def Finds (history : History δ) (path : List Nat) (name : String) (accept : δ → Bool) : Option δ → Prop
  | some decl => ∃ inner scope outer, path = inner ++ scope :: outer ∧
      history.Newest name accept scope decl ∧ ∀ s ∈ inner, history.Lacks name accept s
  | none => ∀ s ∈ path, history.Lacks name accept s

end History

section

variable [Binding δ]

/-- The table after an operation. -/
def apply (table : Table δ) : Op δ → Table δ
  | .child parent => (table.child parent).2
  | .bind scope name decl => table.bind scope name decl
  | .declare scope name decl => (table.declare scope name decl).2

/-- A new table after operations. -/
def run (ops : List (Op δ)) : Table δ := ops.foldl apply new

/-- The history after an operation. A declaration is refused if an earlier one collides with it. -/
def History.record (history : History δ) : Op δ → History δ
  | .child parent => .made history.scopes parent :: history
  | .bind scope name decl => .added scope name decl :: history
  | .declare scope name decl =>
    if (history.decls scope name).any fun old => Binding.collides old decl then history
    else .added scope name decl :: history

/-- The history of operations on a new table. -/
def History.of (ops : List (Op δ)) : History δ := ops.foldl History.record []

/-- Every operation names a scope that is there at that time. -/
def History.Knows : History δ → List (Op δ) → Prop
  | _, [] => True
  | history, op :: ops => op.scope < history.scopes ∧ (history.record op).Knows ops

end

theorem size_update (table : Table δ) (scope : Nat) (f : Names δ → Names δ) :
    (table.update scope f).size = table.size := by
  simp [update, size]

theorem parent?_update (table : Table δ) (scope : Nat) (f : Names δ → Names δ) (s : Nat) :
    (table.update scope f).parent? s = table.parent? s := by
  rw [parent?, parent?, update, List.getElem?_modify]
  cases table.entries[s]? with
  | none => rfl
  | some entry => by_cases hs : scope = s <;> simp [hs]

theorem update_update (table : Table δ) (scope : Nat) (f g : Names δ → Names δ) :
    (table.update scope f).update scope g = table.update scope (g ∘ f) := by
  simp only [update, List.modify_modify_eq]
  rfl

theorem names_of_entry {table : Table δ} {scope : Nat} {entry : Scope.Entry δ}
    (h : table.entries[scope]? = some entry) : table.names scope = entry.names := by
  funext name
  rw [names, h, Option.bind_some]

/-- A change concerns one scope. -/
theorem names_update (table : Table δ) {scope : Nat} (hscope : scope < table.size)
    (f : Names δ → Names δ) (s : Nat) :
    (table.update scope f).names s = if scope = s then f (table.names s) else table.names s := by
  by_cases hs : scope = s
  · subst hs
    obtain ⟨entry, hentry⟩ : ∃ entry, table.entries[scope]? = some entry :=
      ⟨_, List.getElem?_eq_getElem hscope⟩
    have hupdated : (table.update scope f).entries[scope]? = some { entry with names := f entry.names } := by
      simp [update, hentry]
    rw [if_pos rfl, names_of_entry hentry, names_of_entry hupdated]
  · funext name
    rw [if_neg hs, names, names, update, List.getElem?_modify]
    simp [hs]

/-- A change that a scope does not show leaves the whole table as it was. -/
theorem update_of_names_eq {table : Table δ} {scope : Nat} {f : Names δ → Names δ}
    (h : f (table.names scope) = table.names scope) : table.update scope f = table := by
  have hentries : table.entries.modify scope (fun entry => { entry with names := f entry.names }) =
      table.entries := by
    apply List.ext_getElem?
    intro s
    rw [List.getElem?_modify]
    by_cases hs : scope = s
    · subst hs
      cases hentry : table.entries[scope]? with
      | none => rfl
      | some entry =>
        rw [names_of_entry hentry] at h
        simp [h]
    · simp [hs]
  simp only [update, hentries]

/-- A declaration is the newest of its name in its scope. -/
theorem decls_bind {table : Table δ} {scope : Nat} (hscope : scope < table.size) (name : String) (decl : δ)
    (s : Nat) (other : String) :
    (table.bind scope name decl).decls s other =
      if scope = s ∧ name = other then decl :: table.decls s other else table.decls s other := by
  rw [decls, bind, names_update table hscope]
  by_cases hs : scope = s
  · rw [if_pos hs, Names.getD_push_touch]
    by_cases hname : other = name
    · rw [if_pos hname, if_pos ⟨hs, hname.symm⟩, List.reverse_append, List.reverse_singleton,
        List.singleton_append, ← decls]
    · rw [if_neg hname, if_neg fun h => hname h.2.symm, ← decls]
  · rw [if_neg hs, if_neg fun h => hs h.1, ← decls]

/-- Making the entry of a name changes nothing that the name is bound to. -/
theorem getD_names_touch (table : Table δ) (scope : Nat) (name : String) :
    ((table.update scope (Names.touch · name)).names scope name).getD [] =
      (table.decls scope name).reverse := by
  rw [decls, List.reverse_reverse]
  by_cases hscope : scope < table.size
  · rw [names_update table hscope, if_pos rfl, Names.getD_touch]
  · have hnone : table.entries[scope]? = none := List.getElem?_eq_none (Nat.not_lt.1 hscope)
    simp [names, update, hnone]

/-- A name that is bound to something has an entry already. -/
theorem update_touch_of_mem {table : Table δ} {scope : Nat} {name : String} {old : δ}
    (h : old ∈ table.decls scope name) : table.update scope (Names.touch · name) = table := by
  refine update_of_names_eq (Names.touch_of_isSome ?_)
  rw [decls, List.mem_reverse] at h
  cases hentry : table.names scope name with
  | none =>
    rw [hentry] at h
    cases h
  | some decls => rfl

section

variable [Binding δ]

/-- A declaration is refused if one of the same name in the scope collides with it. Then the entry that was
made for it was there before, and the table is the one that it was. -/
theorem declare_eq (table : Table δ) (scope : Nat) (name : String) (decl : δ) :
    table.declare scope name decl =
      if (table.decls scope name).any fun old => Binding.collides old decl then (.error ⟨name⟩, table)
      else (.ok (), table.bind scope name decl) := by
  simp only [declare, getD_names_touch, List.any_reverse]
  split
  · rename_i hcollides
    obtain ⟨old, hold, -⟩ := List.any_eq_true.1 hcollides
    rw [update_touch_of_mem hold]
  · rw [update_update]
    rfl

/-- A declaration is added unless one collides with it. -/
theorem declare?_eq (table : Table δ) (scope : Nat) (name : String) (decl : δ) :
    table.declare? scope name decl =
      if (table.decls scope name).any fun old => Binding.collides old decl then none
      else some (table.bind scope name decl) := by
  rw [declare?, declare_eq]
  cases (table.decls scope name).any fun old => Binding.collides old decl <;> rfl

end

theorem size_child (table : Table δ) (parent : Nat) : (table.child parent).2.size = table.size + 1 := by
  simp [child, size]

/-- A new scope is the last one. -/
theorem getElem?_child (table : Table δ) {parent : Nat} (hparent : parent < table.size) (s : Nat) :
    (table.child parent).2.entries[s]? =
      if s = table.size then some ⟨some parent, fun _ => none⟩ else table.entries[s]? := by
  have hentries : (table.child parent).2.entries = table.entries ++ [⟨some parent, fun _ => none⟩] := by
    simp [child, hparent]
  rw [hentries, List.getElem?_append, size]
  split
  · rename_i hlt
    rw [if_neg (by omega)]
  · rename_i hge
    by_cases hs : s = table.entries.length
    · simp [hs]
    · rw [if_neg hs, List.getElem?_eq_none (l := table.entries) (by omega)]
      exact List.getElem?_eq_none (by rw [List.length_singleton]; omega)

/-- A new scope has the parent that was named. -/
theorem parent?_child (table : Table δ) {parent : Nat} (hparent : parent < table.size) (s : Nat) :
    (table.child parent).2.parent? s = if s = table.size then some parent else table.parent? s := by
  rw [parent?, parent?, getElem?_child table hparent]
  split <;> rfl

/-- A new scope is empty. -/
theorem decls_child (table : Table δ) {parent : Nat} (hparent : parent < table.size) (s : Nat)
    (name : String) : (table.child parent).2.decls s name = table.decls s name := by
  rw [decls, decls, names, names, getElem?_child table hparent]
  split
  · rename_i hs
    rw [hs, size, List.getElem?_eq_none (Nat.le_refl _)]
    rfl
  · rfl

/-- The chain goes on with that of the parent. -/
theorem chain_of_parent? {table : Table δ} {s outer : Nat} (h : table.parent? s = some outer) :
    table.chain s = s :: table.chain outer := by
  obtain ⟨entry, hentry, hparent⟩ := Option.bind_eq_some_iff.1 h
  rw [chain]
  split
  · rename_i hnone
    rw [hentry] at hnone
    cases hnone
  · rename_i entry' hentry'
    obtain rfl : entry = entry' := by simpa [hentry] using hentry'
    split
    · rename_i hnone
      rw [hparent] at hnone
      cases hnone
    · rename_i outer' houter'
      obtain rfl : outer = outer' := by simpa [hparent] using houter'
      rfl

theorem chain_of_root {table : Table δ} {s : Nat} (hs : s < table.size) (h : table.parent? s = none) :
    table.chain s = [s] := by
  have hentry : table.entries[s]? = some table.entries[s] := List.getElem?_eq_getElem hs
  rw [parent?, hentry, Option.bind_some] at h
  rw [chain]
  split
  · rename_i hnone
    rw [hentry] at hnone
    cases hnone
  · rename_i entry hsome
    obtain rfl : table.entries[s] = entry := by simpa [hentry] using hsome
    split
    · rfl
    · rename_i outer houter
      rw [h] at houter
      cases houter

/-- The table has the scopes and the declarations of the history. -/
structure Follows (table : Table δ) (history : History δ) : Prop where
  size : table.size = history.scopes
  parent : ∀ s p, table.parent? s = some p ↔ .made s p ∈ history
  made : ∀ s, 0 < s → s < history.scopes → ∃ p, .made s p ∈ history
  decls : ∀ s name, table.decls s name = history.decls s name

namespace Follows

variable {table : Table δ} {history : History δ}

theorem new : Follows (Table.new : Table δ) [] where
  size := rfl
  parent s p := by
    match s with
    | 0 => simp [parent?, Table.new]
    | _ + 1 => simp [parent?, Table.new]
  made s hpos hlt := absurd hlt (Nat.not_lt.2 hpos)
  decls s name := by
    match s with
    | 0 => rfl
    | _ + 1 => rfl

/-- Making a scope is followed. -/
theorem child (h : Follows table history) {parent : Nat} (hparent : parent < history.scopes) :
    Follows (table.child parent).2 (.made history.scopes parent :: history) where
  size := by rw [size_child, h.size, History.scopes]
  parent s p := by
    rw [← h.size] at hparent ⊢
    rw [parent?_child table hparent, List.mem_cons, Change.made.injEq]
    by_cases hs : s = table.size
    · subst hs
      have hnone : table.parent? table.size = none := by simp [parent?, Table.size]
      simp [← h.parent, hnone, eq_comm]
    · simp [hs, h.parent]
  made s hpos hlt := by
    rw [History.scopes] at hlt
    by_cases hs : s = history.scopes
    · exact ⟨parent, hs ▸ List.mem_cons_self⟩
    · obtain ⟨p, hp⟩ := h.made s hpos (by omega)
      exact ⟨p, List.mem_cons_of_mem _ hp⟩
  decls s name := by
    rw [← h.size] at hparent
    rw [decls_child table hparent, h.decls]
    rfl

/-- Adding a declaration is followed. -/
theorem added (h : Follows table history) {scope : Nat} (hscope : scope < history.scopes)
    (name : String) (decl : δ) : Follows (table.bind scope name decl) (.added scope name decl :: history) where
  size := by rw [bind, size_update, h.size, History.scopes]
  parent s p := by
    rw [bind, parent?_update, h.parent]
    simp
  made s hpos hlt := by
    obtain ⟨p, hp⟩ := h.made s hpos hlt
    exact ⟨p, List.mem_cons_of_mem _ hp⟩
  decls s other := by
    rw [← h.size] at hscope
    rw [decls_bind hscope, h.decls]
    by_cases hplace : scope = s ∧ name = other <;> simp [History.decls, Change.decl?, hplace]

/-- A declaration is followed, be it accepted or not. -/
theorem declared [Binding δ] (h : Follows table history) {scope : Nat} (hscope : scope < history.scopes)
    (name : String) (decl : δ) :
    Follows (table.apply (.declare scope name decl)) (history.record (.declare scope name decl)) := by
  rw [apply, History.record, declare_eq, h.decls]
  split
  · exact h
  · exact h.added hscope name decl

/-- Each operation is followed. -/
theorem apply [Binding δ] (h : Follows table history) {op : Op δ} (hscope : op.scope < history.scopes) :
    Follows (table.apply op) (history.record op) := by
  cases op with
  | child parent => exact h.child hscope
  | bind scope name decl => exact h.added hscope name decl
  | declare scope name decl => exact h.declared hscope name decl

end Follows

/-- All operations are followed. -/
theorem Follows.foldl [Binding δ] {table : Table δ} {history : History δ} (h : Follows table history)
    {ops : List (Op δ)} (hknown : history.Knows ops) :
    Follows (ops.foldl Table.apply table) (ops.foldl History.record history) := by
  induction ops generalizing table history with
  | nil => exact h
  | cons op ops ih => exact ih (h.apply hknown.1) hknown.2

namespace History

variable {history : History δ} {name : String} {accept : δ → Bool} {scope : Nat}

theorem mem_decls {decl : δ} : decl ∈ history.decls scope name ↔ .added scope name decl ∈ history := by
  simp [decls, Change.decl?_eq_some]

/-- None is found if the history has none. -/
theorem find?_decls_eq_none :
    (history.decls scope name).find? accept = none ↔ history.Lacks name accept scope := by
  simp [List.find?_eq_none, mem_decls, Lacks]

/-- The newest of the history is found. -/
theorem find?_decls_eq_some {decl : δ} :
    (history.decls scope name).find? accept = some decl ↔ history.Newest name accept scope decl := by
  rw [List.find?_eq_some_iff_append]
  constructor
  · rintro ⟨haccept, newer, older, hsplit, hnewer⟩
    obtain ⟨after, rest, rfl, hafter, hrest⟩ := List.filterMap_eq_append_iff.1 hsplit
    obtain ⟨between, change, before, rfl, hbetween, hchange, -⟩ := List.filterMap_eq_cons_iff.1 hrest
    obtain rfl := Change.decl?_eq_some.1 hchange
    refine ⟨after ++ between, before, by simp, haccept, fun d hd => ?_⟩
    rcases List.mem_append.1 hd with hd | hd
    · have hmem : d ∈ newer := hafter ▸ mem_decls.2 hd
      simpa using hnewer d hmem
    · have hnone := hbetween _ hd
      rw [Change.decl?_eq_some.2 rfl] at hnone
      cases hnone
  · rintro ⟨after, before, rfl, haccept, hafter⟩
    refine ⟨haccept, decls after scope name, decls before scope name, ?_, fun d hd => ?_⟩
    · simp [decls, Change.decl?]
    · simp [hafter d (mem_decls.1 hd)]

/-- What is found along a path is found scope by scope. -/
theorem finds_findSome? (path : List Nat) :
    history.Finds path name accept (path.findSome? fun s => (history.decls s name).find? accept) := by
  cases hfound : path.findSome? fun s => (history.decls s name).find? accept with
  | none => exact fun s hs => find?_decls_eq_none.1 (List.findSome?_eq_none_iff.1 hfound s hs)
  | some decl =>
    obtain ⟨inner, s, outer, rfl, hs, hinner⟩ := List.findSome?_eq_some_iff.1 hfound
    exact ⟨inner, s, outer, rfl, find?_decls_eq_some.1 hs,
      fun t ht => find?_decls_eq_none.1 (hinner t ht)⟩

end History

namespace Follows

variable {table : Table δ} {history : History δ}

/-- Parents are older than their scopes. -/
theorem parent_lt (h : Follows table history) {s p : Nat} (hmade : .made s p ∈ history) :
    p < s ∧ s < table.size := by
  obtain ⟨entry, hentry, hparent⟩ := Option.bind_eq_some_iff.1 ((h.parent s p).2 hmade)
  exact ⟨table.parent_lt s entry p hentry hparent, (List.getElem?_eq_some_iff.1 hentry).1⟩

/-- Scope zero was not made in any other. -/
theorem parent?_zero (h : Follows table history) : table.parent? 0 = none := by
  cases hparent : table.parent? 0 with
  | none => rfl
  | some p => exact absurd (h.parent_lt ((h.parent 0 p).1 hparent)).1 (Nat.not_lt_zero p)

theorem size_pos (h : Follows table history) : 0 < table.size := by
  rw [h.size]
  generalize history = changes
  induction changes with
  | nil => exact Nat.one_pos
  | cons change changes ih =>
    cases change with
    | made => exact Nat.succ_pos _
    | added => exact ih

/-- The numbers along a path go down, so it ends. -/
theorem path_decreasing (h : Follows table history) {s : Nat} {path : List Nat}
    (hpath : history.Path s path) : path.Pairwise (· > ·) ∧ ∀ t ∈ path, t ≤ s := by
  induction hpath with
  | root => simp
  | @inner s p outer hmade houter ih =>
    have hlt := (h.parent_lt hmade).1
    refine ⟨List.pairwise_cons.2 ⟨fun t ht => ?_, ih.1⟩,
      List.forall_mem_cons.2 ⟨Nat.le_refl s, fun t ht => ?_⟩⟩
    · exact Nat.lt_of_le_of_lt (ih.2 t ht) hlt
    · exact Nat.le_trans (ih.2 t ht) (Nat.le_of_lt hlt)

/-- Every scope has a path. -/
theorem exists_path (h : Follows table history) {s : Nat} (hs : s < table.size) :
    ∃ path, history.Path s path := by
  induction s using Nat.strongRecOn with
  | ind s ih =>
    rcases Nat.eq_zero_or_pos s with rfl | hpos
    · exact ⟨[0], .root⟩
    · obtain ⟨p, hmade⟩ := h.made s hpos (h.size ▸ hs)
      have hlt := (h.parent_lt hmade).1
      obtain ⟨outer, houter⟩ := ih p hlt (Nat.lt_trans hlt hs)
      exact ⟨s :: outer, .inner hmade houter⟩

/-- The scopes that can be seen from a scope are those along its path. -/
theorem chain_eq (h : Follows table history) {s : Nat} {path : List Nat}
    (hpath : history.Path s path) : table.chain s = path := by
  induction hpath with
  | root => exact chain_of_root h.size_pos h.parent?_zero
  | inner hmade _ ih => rw [chain_of_parent? ((h.parent _ _).2 hmade), ih]

/-- Looking up goes along the path. -/
theorem lookup?_eq (h : Follows table history) {s : Nat} {path : List Nat}
    (hpath : history.Path s path) (name : String) (accept : δ → Bool) :
    table.lookup? s name accept = path.findSome? fun t => (history.decls t name).find? accept := by
  rw [lookup?, h.chain_eq hpath]
  congr 1
  funext t
  rw [lookupLocal?, ← h.decls, Table.decls]
  cases table.names t name <;> rfl

end Follows

/-- A declaration neither makes nor moves a scope. -/
theorem History.Path.added {history : History δ} {s : Nat} {path : List Nat} (hpath : history.Path s path)
    (scope : Nat) (name : String) (decl : δ) : Path (.added scope name decl :: history) s path := by
  induction hpath with
  | root => exact .root
  | inner hmade _ ih => exact .inner (List.mem_cons_of_mem _ hmade) ih

/-- A declaration is seen under its own name only, and only from scopes whose path leads through its
scope. -/
theorem Follows.lookup?_bind {table : Table δ} {history : History δ} (h : Follows table history)
    {scope : Nat} (hscope : scope < table.size) {s : Nat} {path : List Nat}
    (hpath : history.Path s path) {name other : String} (decl : δ)
    (happart : name ≠ other ∨ scope ∉ path) (accept : δ → Bool) :
    (table.bind scope name decl).lookup? s other accept = table.lookup? s other accept := by
  have hbind := h.added (h.size ▸ hscope) name decl
  rw [h.lookup?_eq hpath, hbind.lookup?_eq (hpath.added scope name decl)]
  have hsame : ∀ t ∈ path, (History.decls (.added scope name decl :: history) t other).find? accept =
      (history.decls t other).find? accept := by
    intro t ht
    rw [History.decls, List.filterMap_cons, Change.decl?, if_neg]
    · rfl
    · rintro ⟨rfl, rfl⟩
      exact happart.elim (absurd rfl) (absurd ht)
  have hfound := congrArg (List.findSome? id) (List.map_congr_left hsame)
  rw [List.findSome?_map, List.findSome?_map] at hfound
  exact hfound

/-- A table that is built by operations gives what its history says. A new scope gets the next number and
parents have smaller ones, so from every scope a path leads down to scope zero; a look-up finds the
newest accepted declaration in the first scope along the path that has one, and nothing if there is
none. A declaration that is added changes no look-up of another name and none from a scope whose path
does not lead through its scope. -/
theorem lookup_refines_history [Binding δ] (ops : List (Op δ)) (hknown : History.Knows [] ops) :
    (∀ parent, ((run ops).child parent).1 = (History.of ops).scopes) ∧
    (∀ s p, (run ops).parent? s = some p ↔ .made s p ∈ History.of ops) ∧
    (∀ s p, (run ops).parent? s = some p → p < s) ∧
    ∀ s < (run ops).size, (∃ path, (History.of ops).Path s path) ∧
      ∀ path, (History.of ops).Path s path → path.Pairwise (· > ·) ∧
        (∀ name accept, (History.of ops).Finds path name accept ((run ops).lookup? s name accept)) ∧
        ∀ scope < (run ops).size, ∀ name decl (table : Table δ),
          table = (run ops).bind scope name decl ∨ (run ops).declare? scope name decl = some table →
          ∀ other accept, name ≠ other ∨ scope ∉ path →
            table.lookup? s other accept = (run ops).lookup? s other accept := by
  have h : Follows (run ops) (History.of ops) := Follows.new.foldl hknown
  refine ⟨fun _ => h.size, h.parent, fun s p hp => (h.parent_lt ((h.parent s p).1 hp)).1, fun s hs => ?_⟩
  refine ⟨h.exists_path hs, fun path hpath => ⟨(h.path_decreasing hpath).1, fun name accept => ?_, ?_⟩⟩
  · rw [h.lookup?_eq hpath]
    exact History.finds_findSome? path
  · intro scope hscope name decl table htable other accept happart
    obtain rfl : table = (run ops).bind scope name decl := by
      rcases htable with htable | htable
      · exact htable
      · rw [declare?_eq] at htable
        split at htable
        · cases htable
        · exact (Option.some.inj htable).symm
    exact h.lookup?_bind hscope hpath decl happart accept

namespace Shadowed

/-- An integer `x` around two scopes, of which the inner one is followed by a character `x` in the outer
one, and beside them a scope with a function `x`. -/
def ops : List (Op Decl) :=
  [.declare 0 "x" (.variable .int), .child 0, .child 1, .declare 1 "x" (.variable .char), .child 0,
    .bind 3 "x" (.function "f_x" (.function .int []))]

def history : History Decl :=
  [.added 3 "x" (.function "f_x" (.function .int [])), .made 3 0, .added 1 "x" (.variable .char),
    .made 2 1, .made 1 0, .added 0 "x" (.variable .int)]

theorem history_of_ops : History.of ops = history := rfl

theorem knows : History.Knows [] ops := by
  refine ⟨?_, ?_, ?_, ?_, ?_, ?_, trivial⟩ <;> decide

theorem path_inner : history.Path 2 [2, 1, 0] := by
  have houter : .made 1 0 ∈ history := by simp [history]
  have hinner : .made 2 1 ∈ history := by simp [history]
  exact .inner hinner (.inner houter .root)

theorem path_beside : history.Path 3 [3, 0] := by
  have hbeside : .made 3 0 ∈ history := by simp [history]
  exact .inner hbeside .root

end Shadowed

/-- From the inner scope the character is found, and from beside it, where `x` is a function, the
integer. -/
theorem shadowed_lookup_refines_history : History.Knows [] Shadowed.ops ∧
    Shadowed.history.Finds [2, 1, 0] "x" Decl.isVariable (some (.variable .char)) ∧
    Shadowed.history.Finds [3, 0] "x" Decl.isVariable (some (.variable .int)) := by
  obtain ⟨-, -, -, hscopes⟩ := lookup_refines_history Shadowed.ops Shadowed.knows
  rw [Shadowed.history_of_ops] at hscopes
  have h : Follows (run Shadowed.ops) Shadowed.history := Follows.new.foldl Shadowed.knows
  have hinner := ((hscopes 2 (by decide)).2 _ Shadowed.path_inner).2.1 "x" Decl.isVariable
  have hbeside := ((hscopes 3 (by decide)).2 _ Shadowed.path_beside).2.1 "x" Decl.isVariable
  rw [h.lookup?_eq Shadowed.path_inner] at hinner
  rw [h.lookup?_eq Shadowed.path_beside] at hbeside
  exact ⟨Shadowed.knows, hinner, hbeside⟩

end Table

end WaccArm
