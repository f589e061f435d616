import WaccArm.Proofs.Registers.Expr
import WaccArm.Proofs.Typing.Calls

namespace WaccArm

/-- The slots of parameters lie above each other, and each has the size of its type. -/
theorem Frame.getElem?_paramsFrom (above : Int) (types : List Ty) (i : Nat) :
    (paramsFrom above types)[i]? =
      types[i]?.map fun type => ⟨-(above + ((types.take i).map Ty.size).sum), type.size⟩ := by
  induction types generalizing above i with
  | nil => rfl
  | cons type types ih =>
    cases i with
    | zero => simp [paramsFrom]
    | succ i =>
      have hsum : above + type.size + ((types.take i).map Ty.size).sum =
          above + (((type :: types).take (i + 1)).map Ty.size).sum := by
        rw [List.take_succ_cons, List.map_cons, List.sum_cons]
        omega
      rw [paramsFrom, List.getElem?_cons_succ, List.getElem?_cons_succ, ih, hsum]

theorem Frame.length_paramsFrom (above : Int) (types : List Ty) :
    (paramsFrom above types).length = types.length := by
  induction types generalizing above with
  | nil => rfl
  | cons type types ih => rw [paramsFrom, List.length_cons, List.length_cons, ih]

namespace Emission

variable {M : Machine} {W : World} {d : Depth}

theorem argBytes_eq (args : List Checked.Expr) :
    argBytes args = (args.map fun arg => arg.note.size).sum := by
  induction args with
  | nil => rfl
  | cons arg args ih => rw [argBytes, ih, List.map_cons, List.sum_cons]

/-- Each argument lies within the bytes of all. -/
theorem argBytes_take_le {args : List Checked.Expr} {i : Nat} {arg : Checked.Expr}
    (h : args[i]? = some arg) : argBytes (args.take i) + arg.note.size ≤ argBytes args := by
  induction args generalizing i with
  | nil => cases h
  | cons first args ih =>
    cases i with
    | zero =>
      obtain rfl := Option.some.inj h
      simp [argBytes]
    | succ i =>
      have hothers := ih h
      rw [List.take_succ_cons, argBytes, argBytes]
      omega

/-- Parameters of the sizes of arguments have slots above each other like these, one for each. -/
theorem exists_paramSlot {params : List Checked.Param} {args : List Checked.Expr} {j : Nat}
    {arg : Checked.Expr}
    (hsizes : params.map (fun param => param.type.size) = args.map fun arg => arg.note.size)
    (hj : args[j]? = some arg) :
    ∃ slot, (Frame.params (params.map Checked.Param.type))[j]? = some slot ∧
      slot.depth = -(4 + argBytes (args.take j)) ∧ slot.size = arg.note.size := by
  have hmap : (params.map Checked.Param.type).map Ty.size = args.map fun arg => arg.note.size := by
    rw [List.map_map]
    exact hsizes
  have hsize := congrArg (·[j]?) hmap
  simp only [List.getElem?_map, hj, Option.map_some] at hsize
  obtain ⟨type, htype, hsize⟩ := Option.map_eq_some_iff.1 hsize
  refine ⟨⟨-(4 + argBytes (args.take j)), type.size⟩, ?_, rfl, hsize⟩
  rw [Frame.params, Frame.getElem?_paramsFrom, List.getElem?_map, htype, List.map_take, hmap,
    ← List.map_take, ← argBytes_eq]
  rfl

/-- Puts the value of an argument on the stack. -/
def pushArg (arg : Checked.Expr) (d : Depth) : Instr :=
  .store arg.note.size d.reg (.preIndexed .sp (-arg.note.size))

/-- In a run of code that puts arguments on the stack, an argument is evaluated at depth `d` and put
there with the size of its own type, and memory still has its bytes, from `place` on. -/
inductive Passed (M : Machine) (W : World) (d : Depth) (rest pushes : List Instr) (s t : State)
    (mem : Memory) (arg : Checked.Expr) (place : Int) : Prop
  | mk {ctx em code em' before after u v w}
    (hpushes : pushes = before ++ (code ++ (pushArg arg d :: after)))
    (hcode : expr arg ctx d em = .ok (code, em'))
    (hbefore : M.Runs W (code ++ (pushArg arg d :: (after ++ rest))) before s u)
    (hvalue : M.Runs W (pushArg arg d :: (after ++ rest)) code u v)
    (hpush : M.Runs W (after ++ rest) [pushArg arg d] v w) (hafter : M.Runs W rest after w t)
    (hplace : w.top = place)
    (hkept : ∀ a : Word, w.top ≤ a.toNat → a.toNat < w.top + arg.note.size → mem a = w.mem a) :
    Passed M W d rest pushes s t mem arg place

namespace Passed

variable {rest pushes : List Instr} {s t : State} {mem mem' : Memory} {arg : Checked.Expr} {place : Int}

/-- An argument stays where it is while the stack does from an address below it on. -/
theorem kept (h : Passed M W d rest pushes s t mem arg place) {low : Nat} (hlow : low ≤ place)
    (hmem : ∀ a : Word, low ≤ a.toNat → a.toNat < place + arg.note.size → mem' a = mem a) :
    Passed M W d rest pushes s t mem' arg place := by
  obtain ⟨hpushes, hcode, hbefore, hvalue, hpush, hafter, hplace, hkept⟩ := h
  refine ⟨hpushes, hcode, hbefore, hvalue, hpush, hafter, hplace, fun a hle hlt => ?_⟩
  rw [hmem a (by omega) (by omega), hkept a hle hlt]

/-- What comes after the arguments may be more of them. -/
theorem append {more : List Instr} {u : State} (h : Passed M W d (more ++ rest) pushes s t mem arg place)
    (hmore : M.Runs W rest more t u) : Passed M W d rest (pushes ++ more) s u mem arg place := by
  cases h with
  | @mk _ _ _ _ _ after _ _ _ hpushes hcode hbefore hvalue hpush hafter hplace hkept =>
    rw [← List.append_assoc after] at hbefore hvalue hpush
    refine ⟨?_, hcode, hbefore, hvalue, hpush, hafter.append hmore, hplace, hkept⟩
    simp [hpushes]

end Passed

/-- After arguments have been put on the stack, each of them is above those before it. -/
theorem Emitted.passes {args : List Checked.Expr} {ctx : Context} {em em' : Emitter}
    {items : List Item} (h : Emitted (.args args) ctx d em items em') (hW : W.Conventional)
    {rest : List Instr} {s t : State} (hrun : M.Runs W rest (Item.steps items) s t) :
    (args ≠ [] → s.top ≤ W.base) ∧ ∀ (i : Nat) (arg : Checked.Expr), args[i]? = some arg →
      Passed M W d rest (Item.steps items) s t t.mem arg (t.top + argBytes (args.take i)) := by
  induction args generalizing em' items rest t with
  | nil => exact ⟨fun hne => absurd rfl hne, fun i arg harg => by simp at harg⟩
  | cons arg args ih =>
    cases h with
    | arg hothers harg =>
      simp only [Item.steps_append, Item.steps_instrs, List.append_assoc] at hrun ⊢
      obtain ⟨v, hpush, hrest⟩ := hrun.split
      obtain ⟨u, hvalue, hstore⟩ := hrest.split
      have hlow : W.Lowered d (argBytes args) s v := hothers.keeps hW hpush
      have hintact : W.Intact d v u := harg.keeps hW hvalue
      obtain ⟨hbase, hpassed⟩ := ih hothers hpush
      obtain ⟨htop, hbase', -, hmem⟩ := hstore.pushed_value
      have hle : s.top ≤ W.base := by
        cases args with
        | nil => exact (hlow.top.symm.trans hintact.top_eq.symm).trans_le hbase'
        | cons => exact hbase nofun
      refine ⟨fun _ => hle, fun i arg' hi => ?_⟩
      cases i with
      | zero =>
        obtain rfl := Option.some.inj hi
        obtain ⟨code, hcode, hitems⟩ := harg.emit_eq
        rw [Item.steps_of_code hitems] at hvalue hpush ⊢
        rw [List.append_assoc] at hpush
        refine ⟨rfl, hcode, hpush, hvalue, hstore, .nil t, ?_, fun _ _ _ => rfl⟩
        simp [argBytes]
      | succ i =>
        have hfits : argBytes (args.take i) + arg'.note.size ≤ argBytes args := argBytes_take_le hi
        have hplace : (t.top : Int) + argBytes ((arg :: args).take (i + 1)) =
            v.top + argBytes (args.take i) := by
          rw [List.take_succ_cons, argBytes, ← hintact.top_eq, ← htop]
          omega
        have htop' := hlow.top
        have hsame := hintact.top_eq
        have hlt := u.top_lt
        rw [State.top] at htop
        rw [hplace]
        refine ((hpassed i arg' hi).append hrest).kept (Int.le_add_of_nonneg_right (by omega))
          fun a hle' ha => ?_
        rw [hmem, Memory.store_of_outside _ _ (Scalar.size_eq _) (by omega) (.inr (by omega)),
          hintact.mem a hle' (by omega)]

end Emission

open Emission

/-- Each argument of a call is, when the function has saved its link register, in exactly the bytes that
the frame gives to the parameter, and what was put on the stack for the call is taken off after it. -/
theorem arguments_meet_parameters {p : Source.Program} {checked : Checked.Program}
    (hok : check p = .ok checked) {type : Ty} {label : String} {args : List Checked.Expr}
    (hcall : Typing.Occurs checked (.call type label args)) :
    ∃ (name : String) (i : Nat) (f : Typing.Header) (cf : Checked.Func),
      Typing.Chosen (Typing.headers p) name (args.map Expr.note) f ∧
      (Typing.headers p)[i]? = some f ∧ checked.funcs[i]? = some cf ∧
      cf.label = label ∧ cf.ret = type ∧
      (Frame.params (cf.params.map Checked.Param.type)).length = cf.params.length ∧
      args.length = cf.params.length ∧
      ∀ {ctx : Context} {d : Depth} {em em' : Emitter} {code : List Instr},
        expr (.call type label args) ctx d em = .ok (code, em') →
        ∃ before pushes after, code = before ++ (pushes ++ .bl label :: after) ∧
          pushArgs args (ctx.push (4 * d.live.length)) d em = .ok (pushes, em') ∧
          ∀ {M : Machine} {W : World} {rest rest' : List Instr} {s t entry : State} {lr : Word},
            W.Conventional → M.Runs W (.bl label :: after ++ rest) pushes s t →
            M.Runs W rest' [.push [.lr]] (t.set .lr lr) entry →
            t.top + Instr.released after = s.top ∧
            ∀ (j : Nat) (arg : Checked.Expr), args[j]? = some arg →
              ∃ slot, (Frame.params (cf.params.map Checked.Param.type))[j]? = some slot ∧
                slot.size = arg.note.size ∧
                Passed M W d (.bl label :: after ++ rest) pushes s t entry.mem arg
                  (entry.top - slot.depth) := by
  have htyped := Typing.typed_of_check hok
  obtain ⟨name, i, f, cf, hchosen, hf, hcf, hlabel, hret, hsizes⟩ := htyped.callee hcall
  have hlength : args.length = cf.params.length := by
    simpa using (congrArg List.length hsizes).symm
  refine ⟨name, i, f, cf, hchosen, hf, hcf, hlabel, hret, ?_, hlength, fun {ctx d em em' code} hcode => ?_⟩
  · rw [Frame.params, Frame.length_paramsFrom, List.length_map]
  obtain ⟨items, rfl, hemitted⟩ := emitted_of_ok hcode
  cases hemitted with
  | @call _ _ _ _ _ items _ _ hargs =>
    obtain ⟨pushes, hpushes, hitems⟩ := hargs.emit_eq
    have hsteps := Item.steps_of_code hitems
    refine ⟨if d.live.isEmpty then [] else [.push d.live], pushes, Stack.adjust .add (argBytes args) ++
      .movReg d.reg .r0 :: (if d.live.isEmpty then [] else [.pop d.live]), ?_, hpushes, ?_⟩
    · simp [hsteps]
    · intro M W rest rest' s t entry lr hW hrun hentry
      rw [← hsteps] at hrun ⊢
      have hlow : W.Lowered d (argBytes args) s t := hargs.keeps hW hrun
      obtain ⟨-, hpassed⟩ := hargs.passes hW hrun
      obtain ⟨htop, -, -, -⟩ := hentry.pushed
      refine ⟨by rw [Instr.released_adjust, hlow.top], fun j arg hj => ?_⟩
      obtain ⟨slot, hslot, hdepth, hsize⟩ := exists_paramSlot hsizes hj
      have hplace : (entry.top : Int) - slot.depth = t.top + argBytes (args.take j) := by
        have hlr : (t.set .lr lr).top = t.top := rfl
        rw [hlr] at htop
        rw [hdepth, ← htop]
        simp
        omega
      refine ⟨slot, hslot, hsize, ?_⟩
      rw [hplace]
      refine (hpassed j arg hj).kept (Int.le_add_of_nonneg_right (by omega)) ?_
      exact fun a hle _ => hentry.mem_pushed hle

namespace Mixed

/-- `int f(bool b, char[] s, pair(int, pair) q, char c) is return 0 end` and the body
`int x = call f(true, "ab", null, 'c')`, where the second and the third argument have other types than
the parameters. -/
def program : Source.Program where
  funcs := [{
    name := "f"
    ret := .int
    params := [⟨.bool, "b", .start⟩, ⟨.array .char 1, "s", .start⟩, ⟨.pair (some .int) none, "q", .start⟩,
      ⟨.char, "c", .start⟩]
    body := .ret .start (.int .start 0)
    pos := .start }]
  body := .declare .start .int "x"
    (.call .start "f" [.bool .start true, .str .start "ab", .null .start, .char .start 99])

def args : List Checked.Expr := [.bool .bool true, .str .str "ab", .null .anyPair, .char .char 99]

def params : List Checked.Param :=
  [⟨"b", .bool⟩, ⟨"s", .array (some .char) 1⟩, ⟨"q", .pair (some .int) none⟩, ⟨"c", .char⟩]

def checked : Checked.Program where
  funcs := [⟨"f", "f_f", params, .int, .ret () (.int .int 0)⟩]
  body := .declare () .int "x" (.call .int "f_f" args)

/-- The call is accepted with the types of its arguments. -/
theorem checked_eq : check program = .ok checked := rfl

/-- The code of the arguments while the left operand of an operator waits in `r4`. -/
def pushes : List Instr :=
  [.mov .r5 (.imm 99), .store 1 .r5 (.preIndexed .sp (-1)),
    .ldr .r5 (.literal 0), .store 4 .r5 (.preIndexed .sp (-4)),
    .ldr .r5 (.address "msg_0"), .store 4 .r5 (.preIndexed .sp (-4)),
    .mov .r5 (.imm 1), .store 1 .r5 (.preIndexed .sp (-1))]

def machine : Machine := .bare fun _ => 0x3000

/-- Nothing that is called comes back. -/
def world : World where
  limit := 0x1000
  base := 0x2000
  returns _ _ _ _ := False

theorem conventional : world.Conventional where
  base_le := by decide
  function _ _ _ _ h := h.elim
  routine _ _ _ _ _ h := h.elim
  malloc _ _ _ h := h.elim

def start : State where
  regs r := if r = .sp then 0x1800 else 7
  flags := ⟨false, false, false, false⟩
  mem _ := 9
  pc := 0

theorem emits : ∃ result, expr (.call .int "f_f" args) {} ⟨1⟩ {} = .ok result :=
  except_eq_ok_of_isOk (by decide +kernel)

theorem emits_pushes : ∃ em, pushArgs args (Context.push {} 4) ⟨1⟩ {} = .ok (pushes, em) := by
  obtain ⟨⟨found, em⟩, hpushes, hfound⟩ := except_eq_ok_of_any
    (x := pushArgs args (Context.push {} 4) ⟨1⟩ {}) (p := fun result => result.1 = pushes) (by decide +kernel)
  obtain rfl : found = pushes := of_decide_eq_true hfound
  exact ⟨em, hpushes⟩

/-- The arguments go on the stack, and then the link register does. -/
theorem runs (rest rest' : List Instr) : ∃ t, machine.Runs world rest pushes start t ∧
    ∃ entry, machine.Runs world rest' [.push [.lr]] (t.set .lr 0x50) entry ∧ entry.top = 0x17f2 ∧
      entry.mem.load 1 0x17f6 = 1 ∧ entry.mem.load 4 0x17f7 = 0x3000 ∧
      entry.mem.load 4 0x17fb = 0 ∧ entry.mem.load 1 0x17ff = 99 := by
  unfold pushes
  repeat
    first
    | refine ⟨_, .nil _, ?_⟩
    | refine Machine.exists_runs_exec rfl (by decide) ?_ ⟨by decide, ?_⟩ rfl rfl ?_
      · simp [Instr.WordLiterals, Instr.ldr, Instr.store, Instr.mov, Instr.push]
      · rintro n ⟨rfl⟩
        decide
  decide

end Mixed

/-- A word stands between two bytes on both sides of the call. -/
theorem mixed_arguments_meet_parameters : check Mixed.program = .ok Mixed.checked ∧
    Typing.Occurs Mixed.checked (.call .int "f_f" Mixed.args) ∧
    Frame.params (Mixed.params.map Checked.Param.type) = [⟨-4, 1⟩, ⟨-5, 4⟩, ⟨-9, 4⟩, ⟨-13, 1⟩] ∧
    ∃ code em before after t entry, expr (.call .int "f_f" Mixed.args) {} ⟨1⟩ {} = .ok (code, em) ∧
      code = before ++ (Mixed.pushes ++ .bl "f_f" :: after) ∧
      Mixed.machine.Runs Mixed.world (.bl "f_f" :: after ++ []) Mixed.pushes Mixed.start t ∧
      Mixed.machine.Runs Mixed.world [] [.push [.lr]] (t.set .lr 0x50) entry ∧
      t.top + Instr.released after = Mixed.start.top ∧ entry.top = 0x17f2 ∧
      (entry.mem.load 1 0x17f6 = 1 ∧ entry.mem.load 4 0x17f7 = 0x3000 ∧
        entry.mem.load 4 0x17fb = 0 ∧ entry.mem.load 1 0x17ff = 99) ∧
      ∀ (j : Nat) (arg : Checked.Expr), Mixed.args[j]? = some arg →
        ∃ slot, (Frame.params (Mixed.params.map Checked.Param.type))[j]? = some slot ∧
          slot.size = arg.note.size ∧
          Passed Mixed.machine Mixed.world ⟨1⟩ (.bl "f_f" :: after ++ []) Mixed.pushes Mixed.start t
            entry.mem arg (entry.top - slot.depth) := by
  have hoccurs : Typing.Occurs Mixed.checked (.call .int "f_f" Mixed.args) :=
    .inl (by simp [Mixed.checked, Stmt.exprs, Expr.parts])
  obtain ⟨⟨code, em⟩, hcode⟩ := Mixed.emits
  obtain ⟨_, hpushes⟩ := Mixed.emits_pushes
  obtain ⟨-, i, -, cf, -, -, hcf, -, -, -, -, hmeet⟩ := arguments_meet_parameters Mixed.checked_eq hoccurs
  obtain rfl := List.mem_singleton.1 (List.mem_of_getElem? hcf)
  obtain ⟨before, pushes, after, hsplit, hpushes', hmeet⟩ := hmeet hcode
  obtain ⟨rfl, -⟩ := Prod.mk.inj (Except.ok.inj (hpushes.symm.trans hpushes'))
  obtain ⟨t, hrun, entry, hentry, htop, hbytes⟩ := Mixed.runs (.bl "f_f" :: after ++ []) []
  obtain ⟨hreleased, hslots⟩ := hmeet Mixed.conventional hrun hentry
  exact ⟨Mixed.checked_eq, hoccurs, rfl, code, em, before, after, t, entry, hcode, hsplit, hrun, hentry,
    hreleased, htop, hbytes, hslots⟩

end WaccArm
