import WaccArm.Proofs.Checker.Scoping
import WaccArm.Proofs.Strings.Checker
import WaccArm.Proofs.Typing.Program

namespace WaccArm

theorem Ty.isString_expand (t : Ty) : t.expand.isString = t.isString := by
  rw [isString, isString, spelled_expand]
  cases hspelled : t.spelled with
  | array elem dims =>
    cases elem with
    | none => rfl
    | some elem =>
      rw [expand_array (ne_str_of_spelled hspelled)]
      cases elem with
      | array elem => cases elem with
        | none => rfl
        | some elem => cases elem <;> rfl
      | _ => rfl
  | str => exact absurd hspelled (spelled_ne_str t)
  | _ => rfl

namespace Emission

/-- A string is printed as one under both spellings. -/
theorem printRoutine_expand (t : Ty) : printRoutine t.expand = printRoutine t := by
  cases t with
  | array elem dims =>
    have hstring := Ty.isString_expand (.array elem dims)
    cases elem with
    | none => rfl
    | some elem =>
      by_cases h : elem = .str
      · subst h
        rfl
      · rw [Ty.expand_array h] at hstring ⊢
        exact congrArg (fun string : Bool => if string then Routine.printString else .printReference) hstring
  | _ => rfl

theorem readRoutine_expand (t : Ty) : readRoutine t.expand = readRoutine t := by
  unfold Ty.expand
  split <;> rfl

theorem freeRoutine_expand (t : Ty) : freeRoutine t.expand = freeRoutine t := by
  rw [freeRoutine, freeRoutine, Ty.isPair_expand]

theorem argBytes_expanded (es : List Checked.Expr) : argBytes (Expr.mapAll Ty.expand es) = argBytes es := by
  induction es with
  | nil => rfl
  | cons e es ih => rw [Expr.mapAll, argBytes, argBytes, ih, Expr.note_map, Ty.size_expand]

theorem elemSize_expanded (es : List Checked.Expr) : elemSize (Expr.mapAll Ty.expand es) = elemSize es := by
  cases es with
  | nil => rfl
  | cons e es => rw [Expr.mapAll, elemSize, elemSize, Expr.note_map, Ty.size_expand]

theorem isEmpty_expanded (es : List Checked.Expr) : (Expr.mapAll Ty.expand es).isEmpty = es.isEmpty := by
  cases es <;> rfl

mutual

/-- An expression has the same code. -/
theorem expr_expanded (e : Checked.Expr) : expr (e.map Ty.expand) = expr e := by
  funext ctx d
  cases e with
  | int | bool | char | str | null | var => rfl
  | elem type name indices => rw [Expr.map, expr, expr, Ty.size_expand, selections_expanded type.size indices]
  | side type which pair => rw [Expr.map, expr, expr, Ty.size_expand, expr_expanded pair]
  | unary type op operand => rw [Expr.map, expr, expr, expr_expanded operand]
  | binary type op left right => rw [Expr.map, expr, expr, expr_expanded left, expr_expanded right]
  | call type label args => rw [Expr.map, expr, expr, argBytes_expanded, pushArgs_expanded args]
  | newPair type fst snd =>
    rw [Expr.map, expr, expr, Expr.note_map, Expr.note_map, Ty.size_expand, Ty.size_expand, expr_expanded fst,
      expr_expanded snd]
  | array type elems =>
    have hlength : (Expr.mapAll Ty.expand elems).length = elems.length := by simp
    rw [Expr.map, expr, expr, elemSize_expanded, hlength, elements_expanded (elemSize elems) 4 elems]

theorem selections_expanded (size : Nat) (indices : List Checked.Expr) :
    selections size (Expr.mapAll Ty.expand indices) = selections size indices := by
  funext ctx d
  cases indices with
  | nil => rfl
  | cons index indices =>
    rw [Expr.mapAll, selections, selections, isEmpty_expanded, expr_expanded index,
      selections_expanded size indices]

theorem pushArgs_expanded (args : List Checked.Expr) :
    pushArgs (Expr.mapAll Ty.expand args) = pushArgs args := by
  funext ctx d
  cases args with
  | nil => rfl
  | cons arg args =>
    rw [Expr.mapAll, pushArgs, pushArgs, argBytes_expanded, Expr.note_map, Ty.size_expand, expr_expanded arg,
      pushArgs_expanded args]

theorem elements_expanded (size offset : Nat) (elems : List Checked.Expr) :
    elements size offset (Expr.mapAll Ty.expand elems) = elements size offset elems := by
  funext ctx d
  cases elems with
  | nil => rfl
  | cons elem elems =>
    rw [Expr.mapAll, elements, elements, expr_expanded elem, elements_expanded size (offset + size) elems]

end

theorem address_expanded (target : Checked.Expr) : address target.expanded = address target := by
  funext ctx d
  cases target with
  | elem type name indices =>
    rw [Checked.Expr.expanded, Expr.map, address, address, Ty.size_expand, selections_expanded]
  | side type which pair => rw [Checked.Expr.expanded, Expr.map, address, address, expr_expanded]
  | var => rfl
  | _ => exact congrFun (congrFun (expr_expanded _) ctx) d

theorem assign_expanded (dst : Checked.Expr) : assign dst.expanded = assign dst := by
  funext ctx d
  have hplace : ∀ place : Checked.Expr,
      (do return (← address place.expanded ctx d.next)
            ++ [.store place.expanded.note.size d.reg (.mem d.next.reg 0)] : Emit (List Instr)) =
        do return (← address place ctx d.next) ++ [.store place.note.size d.reg (.mem d.next.reg 0)] := by
    intro place
    rw [address_expanded, Checked.Expr.expanded, Expr.note_map, Ty.size_expand]
  cases dst with
  | var type name => rw [Checked.Expr.expanded, Expr.map, assign, assign, Ty.size_expand]
  | _ => exact hplace _

theorem argument_expanded (e : Checked.Expr) : argument e.expanded = argument e := by
  funext ctx
  rw [argument, argument, Checked.Expr.expanded, expr_expanded]

mutual

/-- The variables of a block take the same bytes. -/
theorem blockSize_expanded (s : Checked.Stmt) : blockSize (Checked.Stmt.expanded s) = blockSize s := by
  cases s with
  | declare mark type name init => exact Ty.size_expand type
  | seq mark items => exact blockSizeAll_expanded items
  | _ => rfl

theorem blockSizeAll_expanded (ss : List Checked.Stmt) :
    blockSizeAll (Stmt.retypeAll Checked.Expr.expanded Ty.expand ss) = blockSizeAll ss := by
  cases ss with
  | nil => rfl
  | cons s ss => exact congrArg₂ (· + ·) (blockSize_expanded s) (blockSizeAll_expanded ss)

end

mutual

/-- A statement has the same code. -/
theorem stmt_expanded (s : Checked.Stmt) : stmt (Checked.Stmt.expanded s) = stmt s := by
  funext ctx
  cases s with
  | skip => rfl
  | declare mark type name init =>
    rw [Checked.Stmt.expanded, Stmt.retype, stmt, stmt, Checked.Expr.expanded, expr_expanded, Ty.size_expand]
  | assign mark dst src =>
    rw [Checked.Stmt.expanded, Stmt.retype, stmt, stmt, assign_expanded, Checked.Expr.expanded, expr_expanded]
  | read mark target =>
    rw [Checked.Stmt.expanded, Stmt.retype, stmt, stmt, address_expanded, Checked.Expr.expanded, Expr.note_map,
      readRoutine_expand]
  | free mark e =>
    rw [Checked.Stmt.expanded, Stmt.retype, stmt, stmt, argument_expanded, Checked.Expr.expanded, Expr.note_map,
      freeRoutine_expand]
  | ret mark e | exit mark e => rw [Checked.Stmt.expanded, Stmt.retype, stmt, stmt, argument_expanded]
  | print mark e newline =>
    rw [Checked.Stmt.expanded, Stmt.retype, stmt, stmt, argument_expanded, Checked.Expr.expanded, Expr.note_map,
      printRoutine_expand]
  | branch mark cond yes no =>
    have hyes := blockSize_expanded yes
    have hno := blockSize_expanded no
    have hyes' := stmt_expanded yes
    have hno' := stmt_expanded no
    rw [Checked.Stmt.expanded] at hyes hno hyes' hno' ⊢
    rw [Stmt.retype, stmt, stmt, hyes, hno, hyes', hno', Checked.Expr.expanded, expr_expanded]
  | loop mark cond body =>
    have hsize := blockSize_expanded body
    have hbody := stmt_expanded body
    rw [Checked.Stmt.expanded] at hsize hbody ⊢
    rw [Stmt.retype, stmt, stmt, hsize, hbody, Checked.Expr.expanded, expr_expanded]
  | scope mark body =>
    have hsize := blockSize_expanded body
    have hbody := stmt_expanded body
    rw [Checked.Stmt.expanded] at hsize hbody ⊢
    rw [Stmt.retype, stmt, stmt, hsize, hbody]
  | seq mark items => exact congrFun (stmtList_expanded items) ctx

theorem stmtList_expanded (ss : List Checked.Stmt) :
    stmtList (Stmt.retypeAll Checked.Expr.expanded Ty.expand ss) = stmtList ss := by
  funext ctx
  cases ss with
  | nil => rfl
  | cons s ss =>
    have hs := stmt_expanded s
    rw [Checked.Stmt.expanded] at hs
    rw [Stmt.retypeAll, stmtList, stmtList, hs, stmtList_expanded ss]

end

theorem paramsFrom_expanded (above : Int) (types : List Ty) :
    Frame.paramsFrom above (types.map Ty.expand) = Frame.paramsFrom above types := by
  induction types generalizing above with
  | nil => rfl
  | cons type types ih => rw [List.map_cons, Frame.paramsFrom, Frame.paramsFrom, Ty.size_expand, ih]

theorem paramSlots_expanded (params : List Checked.Param) :
    paramSlots (params.map Checked.Param.expanded) = paramSlots params := by
  have htypes : (params.map Checked.Param.expanded).map Checked.Param.type =
      (params.map Checked.Param.type).map Ty.expand := by
    rw [List.map_map, List.map_map]
    rfl
  rw [paramSlots, paramSlots, htypes, Frame.params, paramsFrom_expanded, List.zip_map_left, List.foldl_map]
  rfl

theorem func_expanded (f : Checked.Func) : func f.expanded = func f := by
  rw [Checked.Func.expanded, func, func, blockSize_expanded, stmt_expanded, paramSlots_expanded, List.length_map]

theorem funcs_expanded (fs : List Checked.Func) : funcs (fs.map Checked.Func.expanded) = funcs fs := by
  induction fs with
  | nil => rfl
  | cons f fs ih => rw [List.map_cons, funcs, funcs, func_expanded, ih]

theorem main_expanded (body : Checked.Stmt) : main (Checked.Stmt.expanded body) = main body := by
  rw [main, main, blockSize_expanded, stmt_expanded]

/-- A program has the same code. -/
theorem program_expanded (p : Checked.Program) : program p.expanded = program p := by
  rw [Checked.Program.expanded, program, program, funcs_expanded, main_expanded]

end Emission

/-- The file for a program does not depend on how strings are spelled in its types. -/
theorem generate_expanded (p : Checked.Program) : generate p.expanded = generate p := by
  rw [generate, generate, generateLogged, generateLogged, Emission.program_expanded]

/-- Strings are arrays of characters, except where they are freed. A program in which no string is freed is
accepted with `char[]` for `string` if it was accepted before and only then, and the same file is made for
it. -/
theorem generate_of_respelled_strings (p : Source.Program) (hfree : ¬ p.FreesString) :
    ((∃ c, check p = .ok c) ↔ ∃ c, check p.respelled = .ok c) ∧
      ∀ c c', check p = .ok c → check p.respelled = .ok c' →
        ∃ file, generate c = .ok file ∧ generate c' = .ok file := by
  have halike := check_alike p
  cases hcheck : check p with
  | error e =>
    rw [hcheck] at halike
    generalize hresult : check p.respelled = result at halike
    cases halike with
    | error e' =>
      refine ⟨⟨?_, ?_⟩, ?_⟩
      · rintro ⟨c, hc⟩
        cases hc
      · rintro ⟨c, hc⟩
        cases hc
      · intro c c' hc
        cases hc
    | freesString he => exact absurd ⟨e, hcheck, he⟩ hfree
  | ok c =>
    rw [hcheck] at halike
    generalize hresult : check p.respelled = result at halike
    cases halike with
    | @ok _ c' hsame =>
      refine ⟨⟨fun _ => ⟨c', rfl⟩, fun _ => ⟨c, rfl⟩⟩, ?_⟩
      rintro _ _ ⟨⟩ ⟨⟩
      have hscoped := Checker.program_scoped (Typing.program_eq_ok.2 (Typing.check_eq_ok.1 hcheck).1)
      obtain ⟨file, hfile⟩ := generate_of_scoped hscoped
      refine ⟨file, hfile, ?_⟩
      calc generate c'
        _ = generate c'.expanded := (generate_expanded c').symm
        _ = generate c.expanded := by rw [hsame]
        _ = generate c := generate_expanded c
        _ = .ok file := hfile

namespace Words

def start : Pos := .start

/-- `string pick(string[] words, pair(string, char[]) names) is string s = fst names; words[0] = s; return s
end` -/
def pick : Source.Func where
  name := "pick"
  ret := .string
  params := [⟨.array .string 1, "words", start⟩, ⟨.pair (some .string) (some (.array .char 1)), "names", start⟩]
  body := .seq start [
    .declare start .string "s" (.side start .fst (.var start "names")),
    .assign start (.elem start "words" [.int start 0]) (.var start "s"),
    .ret start (.var start "s")]
  pos := start

/-- Strings in arrays, in pairs, as arguments and as results, one of them with its characters in a literal,
and an array of strings that is freed. -/
def program : Source.Program where
  funcs := [pick]
  body := .seq start [
    .declare start (.array .string 1) "words" (.array start [.str start "a", .array start [.char start 98]]),
    .declare start (.pair (some .string) (some .string)) "names"
      (.newPair start (.str start "c") (.elem start "words" [.int start 1])),
    .declare start .string "s" (.call start "pick" [.var start "words", .var start "names"]),
    .print start (.elem start "words" [.int start 0]) true,
    .print start (.elem start "s" [.int start 0]) true,
    .free start (.var start "words")]

end Words

/-- The theorem above at a function on strings. -/
theorem generate_words_respelled : ∃ c c' file, check Words.program = .ok c ∧
    check Words.program.respelled = .ok c' ∧ generate c = .ok file ∧ generate c' = .ok file := by
  obtain ⟨c, hc⟩ := except_eq_ok_of_isOk (x := check Words.program) (by decide +kernel)
  have hfree : ¬ Words.program.FreesString := by
    rintro ⟨e, he, -⟩
    cases hc.symm.trans he
  obtain ⟨haccepted, hfiles⟩ := generate_of_respelled_strings Words.program hfree
  obtain ⟨c', hc'⟩ := haccepted.1 ⟨c, hc⟩
  obtain ⟨file, hfile, hfile'⟩ := hfiles c c' hc hc'
  exact ⟨c, c', file, hc, hc', hfile, hfile'⟩

end WaccArm
