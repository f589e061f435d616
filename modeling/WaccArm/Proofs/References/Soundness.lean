import WaccArm.Compiler
import WaccArm.Proofs.Emission.Run
import WaccArm.Proofs.References.Stmt

namespace WaccArm

/-- With distinct labels, the label of a header leads to its function. -/
theorem Typing.ProgramTyped.find_label {p : Source.Program} {c : Checked.Program} (h : ProgramTyped p c)
    (hlabels : (Checker.labels p.funcs).Nodup) {f : Header} (hf : f ∈ headers p) :
    ∃ source ∈ p.funcs, ∃ label cf, c.funcs.find? (fun g => g.label = f.label) = some cf ∧
      FuncTyped (headers p) source label cf ∧ cf.params.map Checked.Param.type = f.params ∧
      cf.ret = f.ret := by
  obtain ⟨i, hi⟩ := List.mem_iff_getElem?.1 hf
  have hlabel := congrArg (·[i]?) (h.labels.trans (map_label_headers p).symm)
  simp only [List.getElem?_map, hi, Option.map_some] at hlabel
  obtain ⟨cf, hcf, heq⟩ := Option.map_eq_some_iff.1 hlabel
  obtain ⟨source, hsource, label, htyped⟩ := h.func_of_mem (List.mem_of_getElem? hcf)
  obtain ⟨-, hparams, hret⟩ := h.header hi hcf
  refine ⟨source, hsource, label, cf, ?_, htyped, hparams, hret⟩
  -- The function that is found has the label of this one, so it is this one.
  have hmem := List.mem_of_getElem? hcf
  obtain ⟨found, hfound⟩ := Option.isSome_iff_exists.1
    (List.find?_isSome.2 ⟨cf, hmem, decide_eq_true heq⟩ : (c.funcs.find? fun g => g.label = f.label).isSome)
  have hlabel := List.find?_some hfound
  have hsame : found.label = cf.label := (of_decide_eq_true hlabel).trans heq.symm
  rw [hfound, List.inj_on_of_nodup_map (h.labels ▸ hlabels) (List.mem_of_find?_eq_some hfound) hmem hsame]

namespace References

open Typing

variable {ret : Option Ty} {s : Store}

/-- Parameters are bound to arguments of their types. -/
theorem enter_safe {params : List Checked.Param} {args : List (Ty × Value)} {env : Env} {vars : Vars}
    (h : Given s fun s => ArgsOk s args (params.map Checked.Param.type) ∧ EnvOk s env [vars]) :
    Safe ret (enter params args env) s fun env s => EnvOk s env [paramVars params ++ vars] := by
  induction params generalizing args env vars s with
  | nil =>
    cases args with
    | nil => exact .pure (h.imp fun _ h => h.2)
    | cons => exact .throw (h.imp fun _ h => by cases h.1)
  | cons param params ih =>
    cases args with
    | nil => exact .throw (h.imp fun _ h => by cases h.1)
    | cons arg args =>
      obtain ⟨type, v⟩ := arg
      have hstable := (stable_args args (params.map Checked.Param.type)).and (stable_env env [vars])
      have hrest : Given s fun s => ArgsOk s args (params.map Checked.Param.type) ∧ EnvOk s env [vars] :=
        h.imp fun _ h => ⟨(List.forall₂_cons.1 h.1).2, h.2⟩
      have hvalue : Given s fun s => type.Passes param.type ∧ Conforms s v type :=
        h.imp fun _ h => (List.forall₂_cons.1 h.1).1
      rw [enter]
      refine ((pass_safe hvalue).frame hrest hstable).bind fun _ s₁ h₁ => ?_
      have hentered : Given s₁ fun s => ArgsOk s args (params.map Checked.Param.type) ∧
          EnvOk s ((param.name, param.type, v) :: env) [(param.name, param.type) :: vars] :=
        h₁.imp fun _ h => ⟨h.2.1, .cons ⟨rfl, rfl, h.1⟩ h.2.2⟩
      have hvars : paramVars (param :: params) ++ vars =
          paramVars params ++ (param.name, param.type) :: vars := by simp [paramVars]
      rw [hvars]
      exact ih hentered

/-- A function gives a value of its result type to its caller, whatever that returns. -/
theorem result_safe {body : Run Env} {type : Ty} {post : Env → Store → Prop}
    (h : Safe (some type) body s post) : Safe ret (result body) s fun v s => Conforms s v type := by
  have hstore : (result body s).2 = (body s).2 := by
    rw [result]
    split <;> simp_all
  refine ⟨?_, ?_, ?_⟩
  · rw [hstore]
    exact h.extends_log
  · rw [hstore]
    exact h.told
  · rw [hstore]
    intro hsound
    obtain ⟨hok, hlater, hends⟩ := h.ends hsound
    refine ⟨hok, hlater, ?_⟩
    rw [result]
    rcases hrun : body s with ⟨stop | env, s'⟩ <;> rw [hrun] at hends
    · cases stop with
      | returned v =>
        obtain ⟨type, heq, hv⟩ := hends
        cases heq
        exact hv
      | wrong => exact hends
      | _ => trivial
    · trivial

/-- Calls nested at most `n` deep are safe. -/
theorem serves_invoke {p : Source.Program} {c : Checked.Program} (h : ProgramTyped p c)
    (htidy : ∀ f ∈ p.funcs, Grammar.Tidy f.types f.body.exprs) (hlabels : (Checker.labels p.funcs).Nodup)
    (n : Nat) : Serves (headers p) (invoke c n) := by
  have hΦ := headers_normal htidy
  induction n with
  | zero =>
    intro f hf ret s args hargs
    exact .throw (hargs.imp fun _ _ => trivial)
  | succ n ih =>
    intro f hf ret s args hargs
    obtain ⟨source, hsource, label, cf, hfind, htyped, hparams, hret⟩ := h.find_label hlabels hf
    rw [invoke, hfind, ← hret]
    rw [← hparams] at hargs
    have hentered : Given s fun s => ArgsOk s args (cf.params.map Checked.Param.type) ∧ EnvOk s [] [[]] :=
      hargs.imp fun _ h => ⟨h, .nil⟩
    refine (enter_safe hentered).bind fun env s₁ h₁ => ?_
    rw [List.append_nil] at h₁
    obtain ⟨hresult, hnormal, hbodyTidy⟩ := tidy_func (htidy source hsource)
    cases htyped with
    | mk _ hbody =>
      have hresults : ∀ type ∈ some (Ty.ofExpr source.ret), type.Normal := by
        rintro _ ⟨⟩
        exact hresult
      exact result_safe (executes_of_typed ih hΦ hresults hbody (Scopes.normal_params hnormal) hbodyTidy h₁)

theorem Observation.Accounted.mono {log log' : List Observation} {o : Observation} (h : o.Accounted log)
    (hsub : log ⊆ log') : o.Accounted log' := by
  refine ⟨fun hsound => ?_, fun detail address part hrecasts => ?_⟩
  · obtain ⟨origin, hmisreads, hrecast⟩ := h.1 hsound
    exact ⟨origin, hmisreads, hrecast.mono hsub⟩
  · rcases h.2 detail address part hrecasts with hopen | ⟨origin, horigin, hrecast⟩
    · exact .inl hopen
    · exact .inr ⟨origin, horigin, hrecast.mono hsub⟩

/-- In a log that is told well, everything is accounted for up to the first observation that is not sound. -/
theorem Told.accounted {log before after : List Observation} {o : Observation} (h : Told log)
    (hlog : log.reverse = before ++ o :: after) (hbefore : AllSound before) : o.Accounted before := by
  have hsplit : log = after.reverse ++ o :: before.reverse := by
    rw [← log.reverse_reverse, hlog, List.reverse_append, List.reverse_cons, List.append_assoc,
      List.singleton_append]
  subst hsplit
  have hrest : Told (o :: before.reverse) := by
    clear hlog
    generalize after.reverse = later at h
    induction later with
    | nil => exact h
    | cons _ _ ih => exact ih h.1
  have haccounted := hrest.2 fun o ho => hbefore o (List.mem_reverse.1 ho)
  exact haccounted.mono fun _ => List.mem_reverse.1

/-- Every evaluation of a run has a value of the kind that its type says: a pair type null or a pair, an array
type an array with elements of the right width, other types no reference. The first that has not reads a part
of a pair or an array where a value of the type of that part was put, and a reference to the object had got a
type before in which the part is of another kind. Parts get other types only where a reference is put
somewhere with types that leave the part open, and where a reference is read from such a part. A run goes
wrong only after an evaluation that is not as its type says. -/
theorem references_sound_unless_recast {tokens : List (Located Token)} {p : Source.Program}
    {checked : Checked.Program} (hparse : parse tokens = .ok p) (hok : check p = .ok checked)
    (hlabels : (Checker.labels p.funcs).Nodup) (fuel : Nat) (input : List Int) :
    (∀ before o after, (run checked fuel input).2 = before ++ o :: after → (∀ r ∈ before, r.Sound) →
      (¬ o.Sound → ∃ origin, o.Misreads origin ∧ Recast before .kind origin.address origin.part) ∧
      ∀ detail address part, o.Recasts detail address part →
        o.LeftOpen part ∨
        ∃ origin, o.origin? = some origin ∧ Recast before .full origin.address origin.part) ∧
    ((run checked fuel input).1 = some .wrong → ∃ o ∈ (run checked fuel input).2, ¬ o.Sound) := by
  have htyped := typed_of_check hok
  obtain ⟨hfuncs, hmain⟩ := tidy_of_parse hparse
  obtain ⟨Γ, hbody⟩ := htyped.body
  have hstart : Given { input } fun s => EnvOk s [] [[]] := fun _ => ⟨⟨by simp, by simp⟩, .nil⟩
  have hserves := serves_invoke htyped hfuncs hlabels fuel
  have hsafe := executes_of_typed (n := fuel) hserves (headers_normal hfuncs) (by simp) hbody
    (by simp [Scopes.Normal]) hmain hstart
  obtain ⟨-, htold, hends⟩ := hsafe
  rw [run]
  rcases hrun : exec (invoke checked fuel) fuel none checked.body [] { input } with ⟨stop | env, s⟩
  all_goals
    rw [hrun] at htold hends
    refine ⟨fun before o after hlog hbefore => (htold trivial).accounted hlog hbefore, fun hwrong => ?_⟩
  · by_contra hsound
    have hall : AllSound s.log := by
      intro o ho
      by_contra hunsound
      exact hsound ⟨o, List.mem_reverse.2 ho, hunsound⟩
    obtain ⟨-, -, hallowed⟩ := hends hall
    cases hwrong
    exact hallowed
  · cases hwrong

namespace Summed

/-- A list of numbers is a pair that forgets what its rest is, and an array is filled with no lists at
first. -/
def source : List UInt8 :=
  ("begin int sum(pair(int, pair) l) is if l == null then return 0 else pair(int, pair) rest = snd l; " ++
    "int n = call sum(rest); int x = fst l; return x + n fi end " ++
    "pair(int, pair)[] a = [null, null]; a[0] = newpair(2, null); a[1] = newpair(1, a[0]); " ++
    "int s = call sum(a[1]) end").toUTF8.toList

/-- Whether the functions have distinct labels and a run comes to its end. -/
def ends (p : Source.Program) : Bool :=
  (Checker.labels p.funcs).Nodup ∧ (check p).toOption.any fun checked => (run checked 4 []).1 = none

end Summed

/-- The rest of a list is a side that the list has forgotten, and gets its type back. -/
theorem summed_references_sound : ∃ tokens p checked, tokenize Summed.source = .ok tokens ∧
    parse tokens = .ok p ∧ check p = .ok checked ∧ (Checker.labels p.funcs).Nodup ∧
    (run checked 4 []).1 = none ∧
    ∀ before o after, (run checked 4 []).2 = before ++ o :: after → (∀ r ∈ before, r.Sound) →
      ¬ o.Sound → ∃ origin, o.Misreads origin ∧ Recast before .kind origin.address origin.part := by
  have hends : ((tokenize Summed.source).toOption.any fun tokens =>
      (parse tokens).toOption.any Summed.ends) = true := by decide +kernel
  obtain ⟨tokens, htokens, hends⟩ := except_eq_ok_of_any hends
  obtain ⟨p, hparse, hends⟩ := except_eq_ok_of_any hends
  obtain ⟨hlabels, hends⟩ := of_decide_eq_true hends
  obtain ⟨checked, hcheck, hends⟩ := except_eq_ok_of_any hends
  obtain ⟨hsound, -⟩ := references_sound_unless_recast hparse hcheck hlabels 4 []
  exact ⟨tokens, p, checked, htokens, hparse, hcheck, hlabels, of_decide_eq_true hends,
    fun before o after hlog hbefore => (hsound before o after hlog hbefore).1⟩

/-- Runs a source text, if it is accepted. -/
def interpret (source : List UInt8) (fuel : Nat) (input : List Int) :
    Except CompileError (Option Stop × List Observation) := do
  let tokens ← (tokenize source).mapError .lexing
  let parsed ← (parse tokens).mapError .parsing
  let checked ← (check parsed).mapError .checking
  return run checked fuel input

namespace Forgotten

def source : List UInt8 :=
  "begin pair(pair, int) q = newpair(5, 6); pair(int, int) r = fst q; int y = fst r end".toUTF8.toList

/-- `fst q` has a pair type and the value 5, which was put there as a number. -/
def observed : Observation := .evaluated .anyPair (.scalar 5) .scalar (some ⟨0, .side .fst, .int⟩)

def isObserved : Observation → Bool
  | .evaluated (.pair none none) (.scalar 5) .scalar (some ⟨0, .side .fst, .int⟩) => true
  | _ => false

theorem eq_of_isObserved {o : Observation} (h : isObserved o) : o = observed := by
  rw [isObserved.eq_def] at h
  split at h
  · rfl
  · cases h

end Forgotten

/-- A program is accepted in which an expression of a pair type has the value 5, and `fst` is applied to
it. -/
theorem forgotten_side_holds_number : ∃ log, interpret Forgotten.source 0 [] = .ok (some .wrong, log) ∧
    Forgotten.observed ∈ log ∧ ¬ Forgotten.observed.Sound := by
  have hmisled : ((interpret Forgotten.source 0 []).toOption.any fun result =>
      decide (result.1 = some .wrong) && result.2.any Forgotten.isObserved) = true := by decide +kernel
  obtain ⟨⟨stop, log⟩, hresult, hmisled⟩ := except_eq_ok_of_any hmisled
  rw [Bool.and_eq_true, decide_eq_true_eq] at hmisled
  obtain ⟨rfl, hany⟩ := hmisled
  obtain ⟨o, ho, hobserved⟩ := List.any_eq_true.1 hany
  refine ⟨log, hresult, Forgotten.eq_of_isObserved hobserved ▸ ho, fun hsound => ?_⟩
  cases hsound

end References

end WaccArm
