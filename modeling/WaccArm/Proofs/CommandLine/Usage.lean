import Mathlib.Tactic.MkIffOfInductiveProp
import WaccArm.CommandLine.Options

namespace WaccArm.Options

/-- What is read at a time. -/
inductive Entry where
  | single (arg : String)
  | output (file : String)
deriving DecidableEq, Repr

namespace Entry

/-- The arguments of an entry. -/
def args : Entry → List String
  | single arg => [arg]
  | output file => ["-o", file]

/-- An `-o` with nothing behind it. -/
def incomplete : Entry := single "-o"

def verbose : Entry := single "-v"

/-- The source file that an entry names. -/
def file? : Entry → Option String
  | single arg => if arg.startsWith "-" then none else some arg
  | output _ => none

/-- The stage that an entry asks for. -/
def stage? : Entry → Option Stage
  | single "--lex" => some .lex
  | single "--parse" => some .parse
  | single "--validate" => some .validate
  | _ => none

/-- The output file that an entry names. -/
def output? : Entry → Option String
  | single _ => none
  | output file => some file

/-- Whether an entry is one that the usage names. -/
def Known (e : Entry) : Prop := e.file?.isSome ∨ e.stage?.isSome ∨ e.output?.isSome ∨ e = verbose

/-- Three arguments choose a stage. -/
theorem stage?_of_ne {arg : String} (hlex : arg ≠ "--lex") (hparse : arg ≠ "--parse")
    (hvalidate : arg ≠ "--validate") : (single arg).stage? = none := by
  unfold stage?
  split
  · rename_i heq
    exact absurd (single.inj heq) hlex
  · rename_i heq
    exact absurd (single.inj heq) hparse
  · rename_i heq
    exact absurd (single.inj heq) hvalidate
  · rfl

/-- The name of a source file is nothing else. -/
theorem of_file? {e : Entry} {file : String} (h : e.file? = some file) :
    e.stage? = none ∧ e.output? = none ∧ e ≠ verbose := by
  cases e with
  | output => cases h
  | single arg =>
    have hdash : arg.startsWith "-" = false := by
      cases hdash : arg.startsWith "-" with
      | false => rfl
      | true => simp [file?, hdash] at h
    have hne {flag : String} (hflag : flag.startsWith "-" = true) : arg ≠ flag := by
      rintro rfl
      rw [hflag] at hdash
      cases hdash
    refine ⟨stage?_of_ne (hne (by simp)) (hne (by simp)) (hne (by simp)), rfl, ?_⟩
    intro hverbose
    exact hne (by simp) (single.inj hverbose)

/-- The name of a stage is nothing else. -/
theorem of_stage? {e : Entry} {stage : Stage} (h : e.stage? = some stage) :
    e.file? = none ∧ e.output? = none ∧ e ≠ verbose := by
  unfold stage? at h
  split at h
  · simp [file?, output?, verbose]
  · simp [file?, output?, verbose]
  · simp [file?, output?, verbose]
  · cases h

/-- Other arguments that start with a dash are not known. -/
theorem not_known_of_dash {arg : String} (hdash : arg.startsWith "-" = true) (hlex : arg ≠ "--lex")
    (hparse : arg ≠ "--parse") (hvalidate : arg ≠ "--validate") (hverbose : arg ≠ "-v") :
    ¬ (single arg).Known := by
  have hfile : (single arg).file? = none := if_pos hdash
  have hstage := stage?_of_ne hlex hparse hvalidate
  simp [Known, hfile, hstage, output?, verbose, hverbose]

/-- The output flag does not stand alone. -/
theorem not_known_incomplete : ¬ incomplete.Known :=
  not_known_of_dash (by simp) (by decide) (by decide) (by decide) (by decide)

end Entry

/-- The entries of a command line, from left to right. -/
def entries : List String → List Entry
  | [] => []
  | "-o" :: file :: args => .output file :: entries args
  | arg :: args => .single arg :: entries args

/-- An argument stands by itself unless it is an `-o` with another argument behind it. -/
theorem entries_single {arg : String} {args : List String}
    (h : ∀ file others, arg = "-o" → args = file :: others → False) :
    entries (arg :: args) = .single arg :: entries args := by
  rw [entries]
  exact h

section

variable {α : Type} {a b : Option α}

/-- What may be set only once is set where nothing was set before. -/
theorem once_bind_eq_some {β : Type} {f : Option α → β} {x : α} {y : β} :
    ((once b x).bind fun c => some (f c)) = some y ↔ b = none ∧ y = f (some x) := by
  cases b with
  | none => exact ⟨fun h => ⟨rfl, (Option.some.inj h).symm⟩, fun h => congrArg some h.2.symm⟩
  | some z => exact ⟨fun h => (by cases h), fun h => (by cases h.1)⟩

theorem toList_inj : a.toList = b.toList ↔ a = b := by
  cases a <;> cases b <;> simp

theorem toList_eq_append_singleton {x : α} : a.toList = b.toList ++ [x] ↔ b = none ∧ a = some x := by
  cases a <;> cases b <;> simp

theorem exists_toList {xs : List α} (h : xs.length ≤ 1) : ∃ a : Option α, a.toList = xs := by
  cases xs with
  | nil => exact ⟨none, rfl⟩
  | cons x xs =>
    obtain rfl : xs = [] := List.length_eq_zero_iff.1 (Nat.le_zero.1 (Nat.le_of_succ_le_succ h))
    exact ⟨some x, rfl⟩

/-- What fills an option can fill it in two goes. -/
theorem exists_toList_of_append {xs ys : List α} (h : a.toList = xs ++ ys) : ∃ b : Option α, b.toList = xs := by
  have hlength := a.length_toList_le
  rw [h, List.length_append] at hlength
  exact exists_toList (Nat.le_trans (Nat.le_add_right _ _) hlength)

/-- One entry can be ordered in one way. -/
theorem toList_of_perm {xs : List α} (h : a.toList.Perm xs) : xs = a.toList := by
  cases a with
  | none => exact h.symm.eq_nil
  | some x => exact List.perm_singleton.1 h.symm

end

namespace Partial

variable {o o' : Partial}

/-- Reading some entries takes the options from `o` to `o'`: each file, stage and output is added to what was
there before, and there is room for one of each. -/
@[mk_iff]
structure Adds (o : Partial) (es : List Entry) (o' : Partial) : Prop where
  known : ∀ e ∈ es, e.Known
  file : o'.file.toList = o.file.toList ++ es.filterMap Entry.file?
  stage : o'.stage.toList = o.stage.toList ++ es.filterMap Entry.stage?
  output : o'.output.toList = o.output.toList ++ es.filterMap Entry.output?
  verbose : o'.verbose = (o.verbose || decide (Entry.verbose ∈ es))

theorem adds_nil : Adds o [] o' ↔ o' = o := by
  obtain ⟨file, stage, output, verbose⟩ := o
  obtain ⟨file', stage', output', verbose'⟩ := o'
  simp [adds_iff, toList_inj]

/-- Entries are added one by one. -/
theorem adds_cons {e : Entry} {es : List Entry} :
    Adds o (e :: es) o' ↔ ∃ a, Adds o [e] a ∧ Adds a es o' := by
  have happend {β : Type} (f : Entry → Option β) :
      (e :: es).filterMap f = [e].filterMap f ++ es.filterMap f := List.filterMap_append (l := [e])
  constructor
  · rintro ⟨hknown, hfile, hstage, houtput, hverbose⟩
    rw [happend, ← List.append_assoc] at hfile hstage houtput
    -- The options in between: an option holds one value at most, so what comes first fits one as well.
    obtain ⟨file, hfile'⟩ := exists_toList_of_append hfile
    obtain ⟨stage, hstage'⟩ := exists_toList_of_append hstage
    obtain ⟨output, houtput'⟩ := exists_toList_of_append houtput
    rw [List.forall_mem_cons] at hknown
    refine ⟨⟨file, stage, output, o.verbose || decide (Entry.verbose ∈ [e])⟩, ?_, ?_⟩
    · exact ⟨by simpa using hknown.1, hfile', hstage', houtput', rfl⟩
    · rw [← hfile'] at hfile
      rw [← hstage'] at hstage
      rw [← houtput'] at houtput
      exact ⟨hknown.2, hfile, hstage, houtput, by simp [hverbose, Bool.or_assoc]⟩
  · rintro ⟨a, hfirst, hrest⟩
    refine ⟨?_, ?_, ?_, ?_, ?_⟩
    · exact List.forall_mem_cons.2 ⟨hfirst.known e (by simp), hrest.known⟩
    · rw [hrest.file, hfirst.file, happend, List.append_assoc]
    · rw [hrest.stage, hfirst.stage, happend, List.append_assoc]
    · rw [hrest.output, hfirst.output, happend, List.append_assoc]
    · simp [hrest.verbose, hfirst.verbose, Bool.or_assoc]

/-- A second file is refused. -/
theorem setFile_adds {e : Entry} {file : String} (h : e.file? = some file) :
    o.setFile file = some o' ↔ Adds o [e] o' := by
  obtain ⟨hstage, houtput, hverbose⟩ := e.of_file? h
  obtain ⟨file, stage, output, verbose⟩ := o
  obtain ⟨file', stage', output', verbose'⟩ := o'
  simp [setFile, once_bind_eq_some, adds_iff, Entry.Known, h, hstage, houtput, hverbose.symm, toList_inj,
    toList_eq_append_singleton, and_assoc]

/-- A second stage is refused. -/
theorem setStage_adds {e : Entry} {stage : Stage} (h : e.stage? = some stage) :
    o.setStage stage = some o' ↔ Adds o [e] o' := by
  obtain ⟨hfile, houtput, hverbose⟩ := e.of_stage? h
  obtain ⟨file, stage, output, verbose⟩ := o
  obtain ⟨file', stage', output', verbose'⟩ := o'
  simp [setStage, once_bind_eq_some, adds_iff, Entry.Known, h, hfile, houtput, hverbose.symm, toList_inj,
    toList_eq_append_singleton, and_assoc, and_left_comm]

/-- A second output is refused. -/
theorem setOutput_adds (output : String) : o.setOutput output = some o' ↔ Adds o [.output output] o' := by
  have hfile : (Entry.output output).file? = none := rfl
  have hstage : (Entry.output output).stage? = none := rfl
  have houtput : (Entry.output output).output? = some output := rfl
  obtain ⟨file, stage, output, verbose⟩ := o
  obtain ⟨file', stage', output', verbose'⟩ := o'
  simp [setOutput, once_bind_eq_some, adds_iff, Entry.Known, Entry.verbose, hfile, hstage, houtput, toList_inj,
    toList_eq_append_singleton, and_assoc, and_left_comm]

/-- The verbose flag may be repeated. -/
theorem verbose_adds : o' = { o with verbose := true } ↔ Adds o [.verbose] o' := by
  have hfile : Entry.verbose.file? = none := by simp [Entry.verbose, Entry.file?]
  have hstage : Entry.verbose.stage? = none := by simp [Entry.verbose, Entry.stage?]
  have houtput : Entry.verbose.output? = none := rfl
  obtain ⟨file, stage, output, verbose⟩ := o
  obtain ⟨file', stage', output', verbose'⟩ := o'
  simp [adds_iff, Entry.Known, hfile, hstage, houtput, toList_inj]

/-- One entry is read, and then the others. -/
theorem bind_adds {x : Option Partial} {e : Entry} {args : List String}
    (hfirst : ∀ a, x = some a ↔ Adds o [e] a)
    (hrest : ∀ a : Partial, a.read args = some o' ↔ Adds a (entries args) o') :
    (do (← x).read args) = some o' ↔ Adds o (e :: entries args) o' := by
  rw [adds_cons, Option.bind_eq_bind, Option.bind_eq_some_iff]
  exact exists_congr fun a => and_congr (hfirst a) (hrest a)

/-- Arguments are read entry by entry. -/
theorem read_eq_some_iff (o : Partial) (args : List String) :
    o.read args = some o' ↔ Adds o (entries args) o' := by
  fun_induction read o args with
  | case1 o => rw [entries, adds_nil, Option.some.injEq, eq_comm]
  | case2 o args ih | case3 o args ih | case4 o args ih =>
    rw [entries_single (by simp)]
    exact bind_adds (fun a => setStage_adds rfl) ih
  | case5 o output args ih => exact bind_adds (fun a => setOutput_adds output) ih
  | case6 o args ih =>
    rw [entries_single (by simp), adds_cons, ih]
    constructor
    · exact fun h => ⟨_, verbose_adds.1 rfl, h⟩
    · rintro ⟨a, hfirst, hrest⟩
      rwa [verbose_adds.2 hfirst] at hrest
  | case7 o arg args hlex hparse hvalidate houtput hverbose hdash =>
    -- An unknown flag ends the reading, and no further entry can make up for it.
    rw [entries_single houtput]
    constructor
    · intro h
      cases h
    · intro h
      have hunknown : ¬ (Entry.single arg).Known :=
        Entry.not_known_of_dash hdash hlex hparse hvalidate hverbose
      exact absurd (h.known _ (by simp)) hunknown
  | case8 o arg args hlex hparse hvalidate houtput hverbose hdash ih =>
    have hfile : (Entry.single arg).file? = some arg := if_neg hdash
    rw [entries_single houtput]
    exact bind_adds (fun a => setFile_adds hfile) ih

end Partial

/-- The entries are those of the usage: one source file, at most one stage, at most one output file with its
`-o`, and beyond these only `-v`. -/
structure Usable (es : List Entry) : Prop where
  file : (es.filterMap Entry.file?).length = 1
  stage : (es.filterMap Entry.stage?).length ≤ 1
  output : (es.filterMap Entry.output?).length ≤ 1
  complete : Entry.incomplete ∉ es
  others : ∀ e ∈ es, e.file? = none → e.stage? = none → e.output? = none → e = .verbose

/-- The options say what the entries do. -/
structure Given (o : Options) (es : List Entry) : Prop where
  file : es.filterMap Entry.file? = [o.file]
  stage : es.filterMap Entry.stage? = o.stage.toList
  output : es.filterMap Entry.output? = o.output.toList
  verbose : o.verbose = true ↔ Entry.verbose ∈ es

/-- Options are read from entries that are all known. -/
theorem parse_eq_some_iff {args : List String} {o : Options} :
    parse args = some o ↔ (∀ e ∈ entries args, e.Known) ∧ Given o (entries args) := by
  constructor
  · intro h
    obtain ⟨p, hread, h⟩ := Option.bind_eq_some_iff.1 h
    obtain ⟨file, hfile, h⟩ := Option.bind_eq_some_iff.1 h
    cases h
    obtain ⟨hknown, hfiles, hstages, houtputs, hverbose⟩ := (Partial.read_eq_some_iff {} args).1 hread
    rw [hfile] at hfiles
    exact ⟨hknown, hfiles.symm, hstages.symm, houtputs.symm, by simp [hverbose]⟩
  · rintro ⟨hknown, hfile, hstage, houtput, hverbose⟩
    have hadds : Partial.Adds {} (entries args) ⟨some o.file, o.stage, o.output, o.verbose⟩ :=
      ⟨hknown, hfile.symm, hstage.symm, houtput.symm, by simp [← hverbose]⟩
    exact Option.bind_eq_some_iff.2 ⟨_, (Partial.read_eq_some_iff {} args).2 hadds, rfl⟩

/-- A command line can be used if its entries give options. -/
theorem usable_iff {es : List Entry} : Usable es ↔ (∀ e ∈ es, e.Known) ∧ ∃ o, Given o es := by
  constructor
  · rintro ⟨hfile, hstage, houtput, -, hothers⟩
    refine ⟨fun e he => ?_, ?_⟩
    · by_cases hsome : e.file?.isSome ∨ e.stage?.isSome ∨ e.output?.isSome
      · rcases hsome with h | h | h
        · exact .inl h
        · exact .inr (.inl h)
        · exact .inr (.inr (.inl h))
      · simp only [not_or, Option.not_isSome_iff_eq_none] at hsome
        exact .inr (.inr (.inr (hothers e he hsome.1 hsome.2.1 hsome.2.2)))
    · obtain ⟨file, hfile⟩ := List.length_eq_one_iff.1 hfile
      obtain ⟨stage, hstage⟩ := exists_toList hstage
      obtain ⟨output, houtput⟩ := exists_toList houtput
      exact ⟨⟨file, stage, output, decide (Entry.verbose ∈ es)⟩, hfile, hstage.symm, houtput.symm, by simp⟩
  · rintro ⟨hknown, o, hfile, hstage, houtput, -⟩
    refine ⟨by rw [hfile]; rfl, ?_, ?_, fun h => Entry.not_known_incomplete (hknown _ h), ?_⟩
    · rw [hstage]
      exact Option.length_toList_le
    · rw [houtput]
      exact Option.length_toList_le
    · intro e he hfile hstage houtput
      simpa [Entry.Known, hfile, hstage, houtput] using hknown e he

/-- What entries give does not depend on their order. -/
theorem Given.perm {o : Options} {es es' : List Entry} (h : Given o es) (hperm : es.Perm es') : Given o es' := by
  obtain ⟨hfile, hstage, houtput, hverbose⟩ := h
  refine ⟨?_, ?_, ?_, hverbose.trans hperm.mem_iff⟩
  · exact List.perm_singleton.1 (hfile ▸ (hperm.filterMap _).symm)
  · exact toList_of_perm (hstage ▸ hperm.filterMap _)
  · exact toList_of_perm (houtput ▸ hperm.filterMap _)

/-- Entries that are written out are read again. -/
theorem entries_flatMap {es : List Entry} (h : Entry.incomplete ∉ es) : entries (es.flatMap Entry.args) = es := by
  induction es with
  | nil => rfl
  | cons e es ih =>
    rw [List.mem_cons, not_or] at h
    cases e with
    | output file => exact congrArg (Entry.output file :: ·) (ih h.2)
    | single arg =>
      have harg : arg ≠ "-o" := fun heq => h.1 (congrArg Entry.single heq.symm)
      rw [List.flatMap_cons]
      change entries (arg :: es.flatMap Entry.args) = _
      rw [entries_single fun _ _ heq => absurd heq harg, ih h.2]

/-- A command line is accepted exactly if its entries are those of the usage; the options are what they say, and
their order does not matter. -/
theorem parse_accepts_usage (args : List String) :
    ((∃ o, parse args = some o) ↔ Usable (entries args)) ∧
    (∀ o, parse args = some o → Given o (entries args)) ∧
    (∀ es, Entry.incomplete ∉ entries args → (entries args).Perm es →
      parse (es.flatMap Entry.args) = parse args) := by
  refine ⟨?_, fun o h => (parse_eq_some_iff.1 h).2, ?_⟩
  · simp only [parse_eq_some_iff, usable_iff, exists_and_left]
  · intro es hcomplete hperm
    have hcomplete' : Entry.incomplete ∉ es := fun h => hcomplete (hperm.mem_iff.2 h)
    ext o
    rw [parse_eq_some_iff, parse_eq_some_iff, entries_flatMap hcomplete']
    constructor
    · rintro ⟨hknown, hgiven⟩
      exact ⟨fun e he => hknown e (hperm.mem_iff.1 he), hgiven.perm hperm.symm⟩
    · rintro ⟨hknown, hgiven⟩
      exact ⟨fun e he => hknown e (hperm.mem_iff.2 he), hgiven.perm hperm⟩

/-- The argument behind `-o` is a file, whatever it looks like, also when the stage comes first. -/
theorem parse_accepts_flag_as_output :
    Given ⟨"a.wacc", some .lex, some "-v", false⟩ [.output "-v", .single "a.wacc", .single "--lex"] ∧
    parse ["--lex", "-o", "-v", "a.wacc"] = some ⟨"a.wacc", some .lex, some "-v", false⟩ := by
  have hentries : entries ["-o", "-v", "a.wacc", "--lex"] =
      [.output "-v", .single "a.wacc", .single "--lex"] := rfl
  have hparse : parse ["-o", "-v", "a.wacc", "--lex"] = some ⟨"a.wacc", some .lex, some "-v", false⟩ := by
    decide +kernel
  obtain ⟨-, hgiven, hperm⟩ := parse_accepts_usage ["-o", "-v", "a.wacc", "--lex"]
  rw [hentries] at hgiven hperm
  refine ⟨hgiven _ hparse, ?_⟩
  rw [← hparse]
  exact hperm [.single "--lex", .output "-v", .single "a.wacc"] (by decide) (by decide)

end WaccArm.Options
