import WaccArm.Proofs.Scalar.Run

namespace WaccArm

namespace Scalar

open Emission

/-- A well-typed expression only names variables that have a type. -/
theorem Typed.names {types : Types} {e : Checked.Expr} {type : Ty} (h : Typed types e type) :
    ∀ name ∈ Expr.names e.parts, (types name).isSome := by
  induction h with
  | int | bool | char =>
    intro name hname
    simp [Expr.parts, Expr.named?] at hname
  | var hname _ =>
    intro name h
    simp only [Expr.parts, Expr.mem_names, List.mem_singleton, exists_eq_left, Expr.named?,
      Option.some.injEq] at h
    rw [← h, hname]
    rfl
  | not _ ih | negate _ ih | ord _ ih | chr _ ih =>
    intro name hname
    refine ih name ?_
    simpa [Expr.parts, Expr.named?] using hname
  | arithmetic _ _ _ ihl ihr | ordering _ _ _ _ ihl ihr | equality _ _ _ ihl ihr
  | logical _ _ _ ihl ihr =>
    intro name hname
    rw [Expr.parts, Expr.names, List.filterMap_cons_none rfl, List.filterMap_append,
      List.mem_append] at hname
    exact hname.elim (ihl name) (ihr name)

/-- A variable was declared here or before. -/
theorem StmtTyped.lookup {types types' : Scopes} {s : Checked.Stmt} (h : StmtTyped types s types')
    {name : String} (hname : (types'.lookup name).isSome) :
    name ∈ s.declared ∨ (types.lookup name).isSome := by
  induction h with
  | @declare types m type other init _ _ =>
    rw [List.lookup_cons] at hname
    cases heq : name == other with
    | true => exact .inl (by simpa [Stmt.declared] using heq)
    | false =>
      rw [heq] at hname
      exact .inr hname
  | seqNil => exact .inr hname
  | seqCons _ _ ih iho =>
    rw [Stmt.declared, Stmt.declaredAll, List.mem_append]
    rcases iho hname with hin | hname
    · exact .inl (.inr hin)
    · exact (ih hname).elim (fun hin => .inl (.inl hin)) .inr
  | _ => exact .inr hname

/-- A well-typed statement only uses variables that have a type before it. -/
theorem StmtTyped.freeNames {types types' : Scopes} {s : Checked.Stmt} (h : StmtTyped types s types') :
    ∀ name ∈ s.freeNames, (types.lookup name).isSome := by
  induction h with
  | skip =>
    intro name hname
    simp [Stmt.freeNames] at hname
  | seqNil =>
    intro name hname
    simp [Stmt.freeNames, Stmt.freeNamesAll] at hname
  | declare _ he | exit he | ret he => exact he.names
  | assign hdst hsrc =>
    intro name hname
    rw [Stmt.freeNames, List.mem_append] at hname
    exact hname.elim (hsrc.names name) (hdst.names name)
  | branch hcond _ _ ihy ihn =>
    intro name hname
    rw [Stmt.freeNames, List.mem_append, List.mem_append] at hname
    exact hname.elim (hcond.names name) fun h => h.elim (ihy name) (ihn name)
  | loop hcond _ ih =>
    intro name hname
    rw [Stmt.freeNames, List.mem_append] at hname
    exact hname.elim (ih name) (hcond.names name)
  | scope _ ih => exact ih
  | seqCons hfirst _ ih iho =>
    intro name hname
    rw [Stmt.freeNames, Stmt.freeNamesAll, List.mem_append, List.mem_filter] at hname
    rcases hname with hname | ⟨hname, hnot⟩
    · exact ih name hname
    · exact (hfirst.lookup (iho name hname)).resolve_left (of_decide_eq_true hnot)

/-- Code is made for a well-typed statement whose variables have slots. -/
theorem StmtTyped.emitted {types types' : Scopes} {s : Checked.Stmt} {ctx : Context}
    (h : StmtTyped types s types') (hbinds : ∀ name, (types.lookup name).isSome → ctx.Binds name)
    (em : Emitter) : ∃ items ctx' em', stmt s ctx em = .ok ((Item.code items, ctx'), em') ∧
      StmtEmitted s ctx em items ctx' em' := by
  cases stmt_makes s ctx em with
  | ok hok htraced =>
    obtain ⟨items, hitems, hemitted⟩ := htraced
    exact ⟨items, _, _, by rw [hok, hitems], hemitted⟩
  | unbound hname _ => exact absurd (hbinds _ (h.freeNames _ hname.1)) hname.2

/-- Code is made for every well-typed statement, alone or as the body of a block. When the execution of
the statement ends, the machine shows its outcome: it gets to the end of the code with the stack
pointer where it was and every variable in its slot, or to the call of `exit` or the return with the
value in `r0`, or to the report of the trap. -/
theorem statement_shows_outcome {types types' : Scopes} {s : Checked.Stmt} {ctx : Context}
    (htyped : StmtTyped types s types')
    (hbinds : ∀ name, (types.lookup name).isSome → ctx.Binds name) (em : Emitter) :
    (∃ code ctx' em', stmt s ctx em = .ok ((code, ctx'), em') ∧
      ∀ (M : Machine) (st : State) (env : Env) (link : Word) (o : Outcome), env.types = types →
        Exec env s o → M.Ready em' ctx env link (stmtRoom s) st →
        ctx.frame.floor + blockSize s ≤ ctx.frame.displacement → M.Holds st.pc code →
        M.Ends ctx ctx' link st (st.pc + code.length) o) ∧
    ∃ code em', block (blockSize s) (stmt s) ctx em = .ok (code, em') ∧
      ∀ (M : Machine) (st : State) (env : Env) (link : Word) (o : Outcome), env.types = types →
        Exec env s o → M.Ready em' ctx env link (blockSize s + stmtRoom s) st →
        M.Holds st.pc code → M.Ends ctx ctx link st (st.pc + code.length) (o.leave env.length) := by
  constructor
  · obtain ⟨items, ctx', em', hok, hemitted⟩ := htyped.emitted hbinds em
    refine ⟨Item.code items, ctx', em', hok, ?_⟩
    rintro M st env link o rfl hexec hready hblock hcode
    exact hexec.ends htyped hemitted hready hblock hcode
  · have hinside : ∀ name, (types.lookup name).isSome → (ctx.inside (blockSize s)).Binds name := hbinds
    obtain ⟨items, inner, em', hok, hemitted⟩ := htyped.emitted hinside em
    refine ⟨Item.code (blockItems ctx (blockSize s) items inner), em', ?_, ?_⟩
    · refine (Emit.bind_of_ok hok).trans ?_
      simp only [blockItems, Item.code_append, Item.code_instrs]
      rfl
    · rintro M st env link o rfl hexec hready hcode
      exact Machine.ends_block hready hemitted hcode fun t ht htcode =>
        hexec.ends htyped hemitted ht (floor_inside _ _) htcode

namespace Counting

def i : Checked.Expr := .var .int "i"

/-- `i < 1` -/
def condition : Checked.Expr := .binary .bool .lt i (.int .int 1)

/-- `char c = chr 1; i = i + ord c` -/
def round : Checked.Stmt :=
  .seq () [.declare () .char "c" (.unary .char .chr (.int .int 1)),
    .assign () i (.binary .int .add i (.unary .int .ord (.var .char "c")))]

/-- `int i = 0; while i < 1 do … done; return i` -/
def body : Checked.Stmt :=
  .seq () [.declare () .int "i" (.int .int 0), .loop () condition round, .ret () i]

def code : Code :=
  match block (blockSize body) (stmt body) {} {} with
  | .ok (code, _) => code
  | .error _ => []

def machine : Machine :=
  .linked code [.throwOverflowError, .throwRuntimeError, .printString] (by decide +kernel)

def state : State where
  regs r := if r = .sp then 0x1000 else 0
  flags := ⟨false, false, false, false⟩
  mem a := if a = 0x1000 then 42 else 0
  pc := 0

theorem typed : StmtTyped [] body [("i", .int)] :=
  .seqCons (.declare rfl (.int 0)) (.seqCons
    (.loop (.ordering rfl (.inl rfl) (.var rfl rfl) (.int 1)) (.seqCons (.declare rfl (.chr (.int 1)))
      (.seqCons (.assign (.var rfl rfl) (.arithmetic rfl (.var rfl rfl) (.ord (.var rfl rfl))))
        .seqNil))) (.seqCons (.ret (.var rfl rfl)) .seqNil))

theorem exec : Exec [] body (.returned 1) := by
  have hround : Exec [("i", ⟨.int, 0⟩)] round (.normal [("c", ⟨.char, 1⟩), ("i", ⟨.int, 1⟩)]) :=
    .seqNext .declare (.seqNext .assign .seqNil)
  have hloop : Exec [("i", ⟨.int, 0⟩)] (.loop () condition round) (.normal [("i", ⟨.int, 1⟩)]) :=
    .loopNext (v := 1) rfl (by decide) hround (.loopDone rfl)
  exact .seqNext .declare (.seqNext hloop (.seqStop .ret rfl))

end Counting

/-- A loop that runs once, in which a character is declared, and a return from behind it. -/
theorem counting_shows_outcome :
    Counting.machine.Ends {} {} 42 Counting.state Counting.code.length (.returned 1) := by
  have hbinds : ∀ name, (List.lookup name ([] : Scopes)).isSome → Context.Binds {} name :=
    fun name hname => nomatch hname
  obtain ⟨-, code, em, hok, hrun⟩ := statement_shows_outcome Counting.typed hbinds {}
  cases hok
  have hnodup : (Assembly.defined Counting.machine.text).Nodup := by decide +kernel
  have hlayout : Layout {} (entry {} Counting.state) :=
    ⟨by decide, by decide, by decide, nofun, nofun, nofun, .nil⟩
  have h := hrun Counting.machine Counting.state [] 42 (.returned 1) rfl Counting.exec
    ⟨Machine.linked_divides (by decide +kernel) (by decide +kernel),
      Machine.providesAll_of_text rfl rfl hnodup (by decide) (by decide +kernel),
      ⟨hlayout, by decide, .nil⟩, by decide, by decide⟩
    (Machine.linked_holds hnodup)
  rw [show Counting.state.pc = 0 from rfl, Nat.zero_add] at h
  exact h

end Scalar

end WaccArm
