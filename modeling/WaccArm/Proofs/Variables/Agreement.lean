import WaccArm.Proofs.Typing.Program
import WaccArm.Proofs.Variables.Layout

namespace WaccArm

namespace Variables

open Emission Typing

variable {Φ : List Header} {Γ Γ' : Scopes} {b : Body} {ret : Option Ty} {way : List Turn}

/-- The checker knows the variables of the scopes. -/
theorem variablesOf_env (Φ : List Header) (Γ : Scopes) : variablesOf (env Φ Γ) = Γ.flatten := by
  have hdeclared : ∀ vars : Vars, variablesOf [declared vars] = vars := by
    intro vars
    simp [variablesOf, declared, List.filterMap_map]
  have hglobals : variablesOf [globals Φ] = [] := by
    simp [variablesOf, globals, Header.decl]
  simp only [variablesOf, List.flatten_singleton] at hdeclared hglobals
  rw [variablesOf, env, List.flatten_append, List.filterMap_append, List.flatten_singleton, hglobals,
    List.append_nil]
  induction Γ with
  | nil => rfl
  | cons vars outer ih =>
    rw [List.map_cons, List.flatten_cons, List.filterMap_append, hdeclared, ih, List.flatten_cons]

theorem lookup_map {β : Type} (vars : List Variable) (f : Variable → β) (name : String) :
    (vars.map fun v => (v.name, f v)).lookup name = (vars.find? (·.name == name)).map f := by
  induction vars with
  | nil => rfl
  | cons v vars ih =>
    have hcomm : (name == v.name) = (v.name == name) := BEq.comm
    rw [List.map_cons, List.lookup_cons, List.find?_cons, hcomm]
    cases v.name == name with
    | true => rfl
    | false => exact ih

/-- The variables that a statement opens have declarations behind the way to the statement, each at a
place of its own, and the checker declares the same variables in the same order. -/
structure Opens (b : Body) (way : List Turn) (Γ : Scopes) (vars : List Variable) (Γ' : Scopes) : Prop where
  types : Γ'.flatten = (vars.map fun v => (v.name, v.type)) ++ Γ.flatten
  declared : ∀ v ∈ vars, v.DeclaredIn b.params b.source
  size : ∀ v ∈ vars, v.slot.size = v.type.size
  behind : ∀ v ∈ vars, ∃ path, v.site = .decl path ∧ way <+: path
  sites : (vars.map Variable.site).Nodup

theorem Opens.none : Opens b way Γ [] Γ := ⟨rfl, nofun, nofun, nofun, .nil⟩

/-- Nothing is behind two turns from one place. -/
theorem not_behind_both {path : List Turn} {turn turn' : Turn} (hne : turn ≠ turn')
    (h : way ++ [turn] <+: path) : ¬ way ++ [turn'] <+: path := by
  obtain ⟨rest, rfl⟩ := h
  rintro ⟨rest', h⟩
  rw [List.append_assoc, List.append_assoc, List.append_cancel_left_eq] at h
  exact hne (List.cons.inj h).1.symm

/-- Variables of both parts are opened. -/
theorem Opens.append {Γ₁ : Scopes} {firsts others : List Variable}
    (hfirst : Opens b (way ++ [.first]) Γ firsts Γ₁) (hothers : Opens b (way ++ [.rest]) Γ₁ others Γ') :
    Opens b way Γ (others ++ firsts) Γ' where
  types := by rw [hothers.types, hfirst.types, List.map_append, List.append_assoc]
  declared := List.forall_mem_append.2 ⟨hothers.declared, hfirst.declared⟩
  size := List.forall_mem_append.2 ⟨hothers.size, hfirst.size⟩
  behind := by
    rw [List.forall_mem_append]
    refine ⟨fun v hv => ?_, fun v hv => ?_⟩
    · obtain ⟨path, hpath, hbehind⟩ := hothers.behind v hv
      exact ⟨path, hpath, (List.prefix_append ..).trans hbehind⟩
    · obtain ⟨path, hpath, hbehind⟩ := hfirst.behind v hv
      exact ⟨path, hpath, (List.prefix_append ..).trans hbehind⟩
  sites := by
    rw [List.map_append, List.nodup_append]
    refine ⟨hothers.sites, hfirst.sites, ?_⟩
    rw [List.forall_mem_map]
    intro v hv
    rw [List.forall_mem_map]
    intro w hw heq
    obtain ⟨path, hpath, hbehind⟩ := hothers.behind v hv
    obtain ⟨path', hpath', hbehind'⟩ := hfirst.behind w hw
    obtain rfl : path = path' := Site.decl.inj (hpath.symm.trans (heq.trans hpath'))
    exact not_behind_both (by decide) hbehind hbehind'

theorem declare_size (frame : Frame) (size : Nat) : (frame.declare size).1.size = size := by
  rw [Frame.declare]
  split <;> rfl

/-- A statement opens the variables that the rules declare. -/
theorem opens_of_typed {s : Source.Stmt} {c : Checked.Stmt} (h : StmtTyped Φ ret Γ s c Γ')
    (hat : b.source.at? way = some s) (frame : Frame) : Opens b way Γ (opened way frame c) Γ' := by
  induction h generalizing way frame with
  | declare pos =>
    exact
      { types := rfl
        declared := List.forall_mem_singleton.2 ⟨_, _, _, hat, rfl⟩
        size := List.forall_mem_singleton.2 (declare_size ..)
        behind := List.forall_mem_singleton.2 ⟨way, rfl, List.prefix_rfl⟩
        sites := List.nodup_singleton _ }
  | seqCons pos _ _ ihf iho =>
    have hatFirst : b.source.at? (way ++ [.first]) = some _ := Stmt.at?_concat hat rfl
    have hatRest : b.source.at? (way ++ [.rest]) = some _ := Stmt.at?_concat hat rfl
    exact (ihf hatFirst frame).append (iho hatRest _)
  | _ => exact .none

/-- A new block changes no variable. -/
theorem Matched.enter {env : Env} {slots : Chain Slot} {vars : List Variable} (h : Matched b env slots vars) :
    Matched b env.enter slots.enter vars :=
  ⟨h.declared, h.sites, h.checker, h.generator, h.size⟩

theorem Matched.slots {env : Env} {slots : Chain Slot} {vars : List Variable}
    (h : Matched b env slots vars) : slots.flatten.map Prod.snd = vars.map Variable.slot := by
  rw [h.generator, List.map_map]
  rfl

/-- A variable that has a slot is the same one for the checker. -/
theorem Matched.use {ctx : Context} {vars : List Variable} (h : Matched b (env Φ Γ) ctx.slots vars)
    {name : String} (hbinds : ctx.Binds name) :
    ∃ v, vars.find? (·.name == name) = some v ∧
      (env Φ Γ).lookup? name Decl.isVariable = some (.variable v.type) ∧
      ∀ em, ctx.slot name em = .ok (v.slot, em) := by
  have hslot : ctx.slots.lookup? name (fun _ => true) = (vars.find? (·.name == name)).map Variable.slot := by
    rw [Chain.lookup?_eq_lookup, h.generator, lookup_map]
  have htype : Γ.find? name = (vars.find? (·.name == name)).map Variable.type := by
    rw [Scopes.find?_eq_lookup, ← variablesOf_env Φ, h.checker, lookup_map]
  rw [Context.Binds, hslot, Option.isSome_map] at hbinds
  obtain ⟨v, hv⟩ := Option.isSome_iff_exists.1 hbinds
  rw [hv] at hslot htype
  refine ⟨v, hv, ?_, slot_of_lookup hslot⟩
  rw [lookup?_env, htype]
  rfl

/-- The walks of the checker and of code generation go in step. -/
structure Spot.Agrees (Φ : List Header) (b : Body) (spot : Spot) : Prop where
  stands : b.source.at? spot.way = some spot.source
  typed : ∃ Γ Γ', spot.env = Typing.env Φ Γ ∧ StmtTyped Φ b.ret Γ spot.source spot.checked Γ'
  bound : ∀ name ∈ spot.checked.freeNames, spot.ctx.Binds name
  matched : Matched b spot.env spot.ctx.slots spot.vars
  fresh : ∀ v ∈ spot.vars, ∀ path, v.site = .decl path → ¬ spot.way <+: path
  placed : Placed b.slots spot.ctx
  room : Room spot.ctx (blockSize spot.checked)
  reserved : spot.ctx.frame.blocks.map Block.size = spot.blocks.map blockSize

theorem stmtEmitted_of_ok {c : Checked.Stmt} {ctx ctx' : Context} {em em' : Emitter} {code : Code}
    (h : stmt c ctx em = .ok ((code, ctx'), em')) : ∃ items, StmtEmitted c ctx em items ctx' em' := by
  cases stmt_makes c ctx em with
  | ok hok htraced =>
    rw [h] at hok
    cases hok
    obtain ⟨items, -, hemitted⟩ := htraced
    exact ⟨items, hemitted⟩
  | unbound _ hfail =>
    rw [h] at hfail
    cases hfail

namespace Spot.Agrees

variable {spot : Spot}

theorem visited (h : spot.Agrees Φ b) : spot.Visited b.ret := by
  obtain ⟨Γ, Γ', henv, htyped⟩ := h.typed
  constructor
  · rw [henv]
    exact ⟨_, htyped.accepted⟩
  · intro em
    cases stmt_makes spot.checked spot.ctx em with
    | ok hok _ => exact ⟨_, _, _, hok⟩
    | unbound hname _ => exact absurd (h.bound _ hname.1) hname.2

/-- Behind a statement, the variables that it opens are known to both. -/
theorem after (h : spot.Agrees Φ b) {env' : Env} {ctx' : Context} {em em' : Emitter} {items : List Item}
    (hcheck : Checker.stmt b.ret spot.source spot.env = .ok (spot.checked, env'))
    (hemit : StmtEmitted spot.checked spot.ctx em items ctx' em') :
    Matched b env' ctx'.slots (opened spot.way spot.ctx.frame spot.checked ++ spot.vars) := by
  obtain ⟨Γ, Γ', henv, htyped⟩ := h.typed
  have hopens := opens_of_typed htyped h.stands spot.ctx.frame
  obtain rfl : env' = Typing.env Φ Γ' := by
    rw [henv, htyped.accepted] at hcheck
    exact (Prod.mk.inj (Except.ok.inj hcheck)).2.symm
  have htypes := h.matched.checker
  rw [henv, variablesOf_env] at htypes
  refine ⟨List.forall_mem_append.2 ⟨hopens.declared, h.matched.declared⟩, ?_, ?_, ?_,
    List.forall_mem_append.2 ⟨hopens.size, h.matched.size⟩⟩
  · rw [List.map_append, List.nodup_append]
    refine ⟨hopens.sites, h.matched.sites, ?_⟩
    rw [List.forall_mem_map]
    intro v hv
    rw [List.forall_mem_map]
    intro w hw heq
    obtain ⟨path, hpath, hbehind⟩ := hopens.behind v hv
    exact h.fresh w hw path (heq.symm.trans hpath) hbehind
  · rw [variablesOf_env, hopens.types, htypes, List.map_append]
  · rw [slots_opened hemit spot.way, h.matched.generator, List.map_append]

/-- A block inside the statement. -/
theorem block (h : spot.Agrees Φ b) {turn : Turn} {s : Source.Stmt} {c : Checked.Stmt} {Γ'' : Scopes}
    (hturn : spot.source.turn? turn = some s) (henv : spot.env = Typing.env Φ Γ)
    (htyped : StmtTyped Φ b.ret ([] :: Γ) s c Γ'') (hfree : c.freeNames ⊆ spot.checked.freeNames) :
    Spot.Agrees Φ b ⟨spot.way ++ [turn], s, c, spot.env.enter, spot.ctx.inside (blockSize c), spot.vars,
      c :: spot.blocks⟩ where
  stands := Stmt.at?_concat h.stands hturn
  typed := ⟨[] :: Γ, Γ'', by rw [henv, env_enter], htyped⟩
  bound name hname := h.bound name (hfree hname)
  matched := h.matched.enter
  fresh v hv path hpath hbehind := h.fresh v hv path hpath ((List.prefix_append ..).trans hbehind)
  placed := h.placed.enter (h.room.mono (Nat.zero_le _)) _
  room := room_inside ..
  reserved := congrArg (_ :: ·) h.reserved

variable {pos : Pos} {s : Source.Stmt} {ss : List Source.Stmt} {c : Checked.Stmt} {cs : List Checked.Stmt}
  {start : Env} {ctx : Context} {vars : List Variable} {blocks : List Checked.Stmt}

theorem first (h : Spot.Agrees Φ b ⟨way, .seq pos (s :: ss), .seq () (c :: cs), start, ctx, vars, blocks⟩) :
    Spot.Agrees Φ b ⟨way ++ [.first], s, c, start, ctx, vars, blocks⟩ where
  stands := Stmt.at?_concat h.stands rfl
  typed := by
    obtain ⟨Γ, Γ', henv, htyped⟩ := h.typed
    cases htyped with
    | seqCons _ hfirst _ => exact ⟨Γ, _, henv, hfirst⟩
  bound name hname := h.bound name (List.mem_append_left _ hname)
  matched := h.matched
  fresh v hv path hpath hbehind := h.fresh v hv path hpath ((List.prefix_append ..).trans hbehind)
  placed := h.placed
  room := h.room.mono (Nat.le_add_right ..)
  reserved := h.reserved

theorem rest (h : Spot.Agrees Φ b ⟨way, .seq pos (s :: ss), .seq () (c :: cs), start, ctx, vars, blocks⟩)
    {env' : Env} {ctx' : Context} {em em' : Emitter} {items : List Item}
    (hcheck : Checker.stmt b.ret s start = .ok (c, env'))
    (hemit : StmtEmitted c ctx em items ctx' em') :
    Spot.Agrees Φ b ⟨way ++ [.rest], .seq pos ss, .seq () cs, env', ctx',
      opened (way ++ [.first]) ctx.frame c ++ vars, blocks⟩ := by
  obtain ⟨Γ, Γ', henv, htyped⟩ := h.typed
  obtain rfl : start = Typing.env Φ Γ := henv
  cases htyped with
  | @seqCons _ _ _ _ _ _ Γ₁ _ hfirst hothers =>
    have hat : b.source.at? (way ++ [.first]) = some s := h.first.stands
    refine ⟨Stmt.at?_concat h.stands rfl, ⟨Γ₁, Γ', ?_, hothers⟩, fun name hname => ?_,
      h.first.after hcheck hemit, ?_, h.placed.stmt hemit h.first.room, h.room.after hemit.frame, ?_⟩
    · rw [hfirst.accepted] at hcheck
      exact (Prod.mk.inj (Except.ok.inj hcheck)).2.symm
    · refine (hemit.binds name).2 ?_
      by_cases hdeclared : name ∈ c.declared
      · exact .inl hdeclared
      · refine .inr (h.bound name (List.mem_append_right _ ?_))
        exact List.mem_filter.2 ⟨hname, decide_eq_true hdeclared⟩
    · rw [List.forall_mem_append]
      refine ⟨fun v hv path hpath hbehind => ?_, fun v hv path hpath hbehind => ?_⟩
      · obtain ⟨path', hpath', hbehind'⟩ := (opens_of_typed hfirst hat ctx.frame).behind v hv
        obtain rfl : path = path' := Site.decl.inj (hpath.symm.trans hpath')
        exact not_behind_both (by decide) hbehind hbehind'
      · exact h.fresh v hv path hpath ((List.prefix_append ..).trans hbehind)
    · rw [hemit.frame, blocks_advance]
      exact h.reserved

end Spot.Agrees

/-- A step to a statement inside keeps the walks in step. -/
theorem Spot.Inner.agrees {spot spot' : Spot} (hinner : spot.Inner b.ret spot') (h : spot.Agrees Φ b) :
    spot'.Agrees Φ b := by
  obtain ⟨Γ, Γ', henv, htyped⟩ := h.typed
  cases hinner with
  | yes =>
    cases htyped with
    | branch _ _ _ hyes _ =>
      refine h.block rfl henv hyes ?_
      exact List.subset_append_of_subset_right _ (List.subset_append_left _ _)
  | no =>
    cases htyped with
    | branch _ _ _ _ hno =>
      refine h.block rfl henv hno ?_
      exact List.subset_append_of_subset_right _ (List.subset_append_right _ _)
  | loop =>
    cases htyped with
    | loop _ _ _ hbody => exact h.block rfl henv hbody (List.subset_append_left _ _)
  | scope =>
    cases htyped with
    | scope _ hbody => exact h.block rfl henv hbody (List.Subset.refl _)
  | first => exact h.first
  | rest hcheck hemit =>
    obtain ⟨items, hemitted⟩ := stmtEmitted_of_ok hemit
    exact h.rest hcheck hemitted

/-- Both sides agree at every spot. -/
theorem Spot.agrees_of_reached {spot spot' : Spot} (hreached : Relation.ReflTransGen (Spot.Inner b.ret) spot spot')
    (h : spot.Agrees Φ b) : spot'.Agrees Φ b := by
  induction hreached with
  | refl => exact h
  | tail _ hinner ih => exact hinner.agrees ih

end Variables

end WaccArm
