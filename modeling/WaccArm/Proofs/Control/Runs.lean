import WaccArm.Proofs.Reordering.Program

namespace WaccArm

/-- The value of a condition: of a branch, or of a loop, when control comes to it or after a round. -/
inductive Test where
  | branch (value : Bool)
  | loop (first value : Bool)
deriving DecidableEq, Repr

/-- How an execution ends: behind the statement, or with a return or an exit. -/
inductive Finish where
  | through
  | returned
  | exited
deriving DecidableEq, Repr

namespace Stmt

variable {α σ τ : Type}

/-- What control passes without a test. -/
def isStep : Stmt α σ τ → Bool
  | skip _ | declare .. | assign .. | read .. | free .. | print .. => true
  | _ => false

/-- The executions of a statement that end, with the conditions that are evaluated. A loop goes on after a round as
one that is not reached for the first time. -/
inductive RunsFrom : Bool → Stmt α σ τ → List Test → Finish → Prop
  | step {first s} (h : s.isStep = true) : RunsFrom first s [] .through
  | ret {first m e} : RunsFrom first (.ret m e) [] .returned
  | exit {first m e} : RunsFrom first (.exit m e) [] .exited
  | branch {first m cond yes no tests finish} (value : Bool)
    (hside : RunsFrom true (if value then yes else no) tests finish) :
    RunsFrom first (.branch m cond yes no) (.branch value :: tests) finish
  | loopDone {first m cond body} : RunsFrom first (.loop m cond body) [.loop first false] .through
  | loopStop {first m cond body tests finish} (hbody : RunsFrom true body tests finish)
    (hfinish : finish ≠ .through) : RunsFrom first (.loop m cond body) (.loop first true :: tests) finish
  | loopNext {first m cond body tests tests' finish} (hbody : RunsFrom true body tests .through)
    (hnext : RunsFrom false (.loop m cond body) tests' finish) :
    RunsFrom first (.loop m cond body) (.loop first true :: (tests ++ tests')) finish
  | scope {first m body tests finish} (hbody : RunsFrom true body tests finish) :
    RunsFrom first (.scope m body) tests finish
  | seqNil {first m} : RunsFrom first (.seq m []) [] .through
  | seqStop {first m s ss tests finish} (hfirst : RunsFrom true s tests finish)
    (hfinish : finish ≠ .through) : RunsFrom first (.seq m (s :: ss)) tests finish
  | seqNext {first m s ss tests tests' finish} (hfirst : RunsFrom true s tests .through)
    (hothers : RunsFrom true (.seq m ss) tests' finish) :
    RunsFrom first (.seq m (s :: ss)) (tests ++ tests') finish

/-- An execution of a statement that control comes to. -/
abbrev Runs (s : Stmt α σ τ) (tests : List Test) (finish : Finish) : Prop := RunsFrom true s tests finish

end Stmt

/-- The last loop that control came to was passed over, and after that only loops around it were left. -/
def PassedOver (tests : List Test) : Prop :=
  ∃ earlier n, tests = earlier ++ .loop true false :: List.replicate n (.loop false false)

namespace PassedOver

variable {tests tests' : List Test}

/-- What is passed over later is passed over. -/
theorem prepend (h : PassedOver tests') (tests : List Test) : PassedOver (tests ++ tests') := by
  obtain ⟨earlier, n, rfl⟩ := h
  exact ⟨tests ++ earlier, n, by rw [List.append_assoc]⟩

/-- A loop that is left was passed over. -/
theorem left (h : PassedOver tests) : PassedOver (tests ++ [.loop false false]) := by
  obtain ⟨earlier, n, rfl⟩ := h
  refine ⟨earlier, n + 1, ?_⟩
  rw [List.replicate_succ', List.append_assoc, List.cons_append]

end PassedOver

namespace Stmt

variable {α σ τ : Type} {s : Stmt α σ τ} {first : Bool} {tests : List Test} {finish : Finish}

theorem not_terminates_of_isStep (h : s.isStep = true) : s.terminates = false := by
  cases s <;> first | rfl | cases h

/-- A terminating statement is left through its end only by way of a loop that is passed over. -/
theorem RunsFrom.passedOver (h : RunsFrom first s tests finish) (hends : s.terminates = true)
    (hfinish : finish = .through) : PassedOver tests ∨ first = false ∧ tests = [.loop false false] := by
  induction h with
  | step h =>
    rw [not_terminates_of_isStep h] at hends
    cases hends
  | ret | exit => cases hfinish
  | @branch first m cond yes no tests finish value hside ih =>
    rw [terminates, Bool.and_eq_true] at hends
    have hside : (if value then yes else no).terminates = true := by
      cases value with
      | true => exact hends.1
      | false => exact hends.2
    rcases ih hside hfinish with hpassed | ⟨⟨⟩, -⟩
    exact .inl (hpassed.prepend [.branch value])
  | @loopDone first m cond body =>
    cases first with
    | true => exact .inl ⟨[], 0, rfl⟩
    | false => exact .inr ⟨rfl, rfl⟩
  | loopStop _ hne | seqStop _ hne => exact absurd hfinish hne
  | @loopNext first m cond body tests tests' finish _ _ ihb ihn =>
    -- The last round passed a loop over; then there is either one more round or none.
    rcases ihb hends rfl with hbody | ⟨⟨⟩, -⟩
    rcases ihn hends hfinish with hnext | ⟨-, rfl⟩
    · exact .inl ((hnext.prepend tests).prepend [.loop first true])
    · exact .inl (hbody.left.prepend [.loop first true])
  | scope _ ih =>
    rcases ih hends hfinish with hpassed | ⟨⟨⟩, -⟩
    exact .inl hpassed
  | seqNil => cases hends
  | @seqNext first m s ss tests tests' finish _ hothers ihf iho =>
    cases ss with
    | nil =>
      cases hothers with
      | step h => cases h
      | seqNil =>
        rw [List.append_nil]
        rcases ihf hends rfl with hpassed | ⟨⟨⟩, -⟩
        exact .inl hpassed
    | cons s' ss =>
      rcases iho hends hfinish with hpassed | ⟨⟨⟩, -⟩
      exact .inl (hpassed.prepend tests)

/-- A statement that counts as terminating returns, exits, or passes a loop over. -/
theorem RunsFrom.finish_cases (h : s.Runs tests finish) (hends : s.terminates = true) :
    finish = .returned ∨ finish = .exited ∨ finish = .through ∧ PassedOver tests := by
  cases finish with
  | through =>
    rcases h.passedOver hends rfl with hpassed | ⟨⟨⟩, -⟩
    exact .inr (.inr ⟨rfl, hpassed⟩)
  | returned => exact .inl rfl
  | exited => exact .inr (.inl rfl)

mutual

/-- Whether control can get through to the end of the statement. -/
def falls : Stmt α σ τ → Bool
  | .ret .. | .exit .. => false
  | .branch _ _ yes no => yes.falls || no.falls
  | .scope _ body => body.falls
  | .seq _ items => allFall items
  | _ => true

def allFall : List (Stmt α σ τ) → Bool
  | [] => true
  | s :: ss => s.falls && allFall ss

end

/-- What gets through to its end counts as such. -/
theorem RunsFrom.falls (h : RunsFrom first s tests finish) (hfinish : finish = .through) : s.falls = true := by
  induction h with
  | @step _ s h => cases s <;> first | rfl | cases h
  | ret | exit => cases hfinish
  | @branch _ _ _ yes no _ _ value _ ih =>
    have hside := ih hfinish
    rw [Stmt.falls, Bool.or_eq_true]
    cases value with
    | true => exact .inl hside
    | false => exact .inr hside
  | loopDone | loopNext | seqNil => rfl
  | loopStop _ hne | seqStop _ hne => exact absurd hfinish hne
  | scope _ ih => exact ih hfinish
  | seqNext _ _ ihf iho =>
    rw [Stmt.falls, allFall, Bool.and_eq_true]
    exact ⟨ihf rfl, iho hfinish⟩

mutual

/-- Conditions can be chosen so that control gets through. -/
theorem exists_runs (s : Stmt α σ τ) (h : s.falls = true) : ∃ tests, s.Runs tests .through := by
  cases s with
  | skip | declare | assign | read | free | print => exact ⟨[], .step rfl⟩
  | ret | exit => cases h
  | branch m cond yes no =>
    rw [falls, Bool.or_eq_true] at h
    rcases h with h | h
    · obtain ⟨tests, hyes⟩ := exists_runs yes h
      exact ⟨_, .branch true hyes⟩
    · obtain ⟨tests, hno⟩ := exists_runs no h
      exact ⟨_, .branch false hno⟩
  | loop m cond body => exact ⟨_, .loopDone⟩
  | scope m body =>
    obtain ⟨tests, hbody⟩ := exists_runs body h
    exact ⟨tests, .scope hbody⟩
  | seq m items => exact exists_runs_all m items h

theorem exists_runs_all (m : σ) (items : List (Stmt α σ τ)) (h : allFall items = true) :
    ∃ tests, Runs (.seq m items) tests .through := by
  cases items with
  | nil => exact ⟨[], .seqNil⟩
  | cons s ss =>
    rw [allFall, Bool.and_eq_true] at h
    obtain ⟨tests, hfirst⟩ := exists_runs s h.1
    obtain ⟨tests', hothers⟩ := exists_runs_all m ss h.2
    exact ⟨_, .seqNext hfirst hothers⟩

end

/-- The count says exactly whether some execution gets through. -/
theorem falls_iff (s : Stmt α σ τ) : s.falls = true ↔ ∃ tests, s.Runs tests .through :=
  ⟨exists_runs s, fun ⟨_, h⟩ => h.falls rfl⟩

mutual

/-- Types and places do not matter for whether a statement terminates. -/
theorem terminates_bare (type : τ → Ty) (s : Stmt α σ τ) : (s.bare type).terminates = s.terminates := by
  cases s with
  | branch m cond yes no => rw [bare, terminates, terminates, terminates_bare type yes, terminates_bare type no]
  | loop m cond body => rw [bare, terminates, terminates, terminates_bare type body]
  | scope m body => rw [bare, terminates, terminates, terminates_bare type body]
  | seq m items => rw [bare, terminates, terminates, lastTerminates_bare type items]
  | _ => rfl

theorem lastTerminates_bare (type : τ → Ty) (items : List (Stmt α σ τ)) :
    lastTerminates (bareAll type items) = lastTerminates items := by
  match items with
  | [] => rfl
  | [s] => exact terminates_bare type s
  | _ :: s :: ss => exact lastTerminates_bare type (s :: ss)

end

end Stmt

/-- Every function of an accepted program counts as terminating. -/
theorem terminates_of_check {p : Source.Program} {q : Checked.Program} (h : check p = .ok q) :
    ∀ f ∈ q.funcs, f.body.terminates = true := by
  obtain ⟨htyped, hends⟩ := Typing.check_eq_ok.1 h
  have hkept : q.funcs.map Checked.Func.outline = p.funcs.map Source.Func.outline :=
    congrArg Outline.funcs htyped.kept
  intro f hf
  have houtline : f.outline ∈ p.funcs.map Source.Func.outline := by
    rw [← hkept]
    exact List.mem_map_of_mem hf
  obtain ⟨g, hg, hsame⟩ := List.mem_map.1 houtline
  have hbody : g.body.bare .ofExpr = f.body.bare id := congrArg FuncOutline.body hsame
  rw [← Stmt.terminates_bare id, ← hbody, Stmt.terminates_bare]
  exact checkTermination_eq_ok.1 hends g hg

end WaccArm
