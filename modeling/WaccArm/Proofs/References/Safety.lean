import WaccArm.Proofs.References.Stores

namespace WaccArm.References

open Typing (Scopes)

/-- Every expression so far has had a value of its kind. -/
def AllSound (log : List Observation) : Prop := ∀ o ∈ log, o.Sound

theorem allSound_cons {o : Observation} {log : List Observation} :
    AllSound (o :: log) ↔ o.Sound ∧ AllSound log := List.forall_mem_cons

/-- An observation that is not sound reads a part of the heap with another type than it was filled with, and
the part was recast to another kind before. What recasts a part puts the reference somewhere, with types that
leave the part open, or reads it from a part that was itself recast before. -/
def Observation.Accounted (before : List Observation) (o : Observation) : Prop :=
  (¬ o.Sound → ∃ origin, o.Misreads origin ∧ Recast before .kind origin.address origin.part) ∧
  ∀ detail address part, o.Recasts detail address part →
    o.LeftOpen part ∨ ∃ origin, o.origin? = some origin ∧ Recast before .full origin.address origin.part

/-- As long as all observations are sound, the next one is accounted for. -/
def Told : List Observation → Prop
  | [] => True
  | o :: log => Told log ∧ (AllSound log → o.Accounted log)

/-- If everything was sound so far, the store is in order and as described. -/
def Given (s : Store) (P : Store → Prop) : Prop := AllSound s.log → s.Ok ∧ P s

theorem Given.imp {s : Store} {P Q : Store → Prop} (h : Given s P) (hPQ : s.Ok → P s → Q s) : Given s Q :=
  fun hsound => ⟨(h hsound).1, hPQ (h hsound).1 (h hsound).2⟩

/-- What stays true as the run goes on. -/
def Stable (P : Store → Prop) : Prop := ∀ s t : Store, s.Later t → P s → P t

theorem Stable.and {P Q : Store → Prop} (hP : Stable P) (hQ : Stable Q) : Stable fun s => P s ∧ Q s :=
  fun _ _ hlater h => ⟨hP _ _ hlater h.1, hQ _ _ hlater h.2⟩

theorem stable_const (p : Prop) : Stable fun _ => p := fun _ _ _ h => h

theorem stable_conforms (v : Value) (type : Ty) : Stable fun s => Conforms s v type :=
  fun _ _ hlater h => h.mono hlater

theorem stable_env (env : Env) (Γ : Scopes) : Stable fun s => EnvOk s env Γ :=
  fun _ _ hlater h => h.mono hlater

theorem stable_place (Γ : Scopes) (type : Ty) (place : Place) : Stable fun s => PlaceOk s Γ type place :=
  fun _ _ hlater h => h.mono hlater

/-- A store in order stays so as long as only the log changes. -/
theorem Store.Ok.of_log {s t : Store} (h : s.Ok) (hheap : t.heap = s.heap)
    (hconstants : t.constants = s.constants) (hlog : s.log <:+ t.log) : t.Ok where
  heap obj hobj part x hx := (h.heap obj (hheap ▸ hobj) part x hx).mono (.of_log hheap hlog)
  constants x hx := (h.constants x (hconstants ▸ hx)).mono (.of_log hheap hlog)

/-- The ways in which a computation may end early in a function with result type `ret`. -/
def Stop.Allowed (ret : Option Ty) (s : Store) : Stop → Prop
  | wrong => False
  | returned v => ∃ type, ret = some type ∧ Conforms s v type
  | _ => True

def Ends {α : Type} (ret : Option Ty) (post : α → Store → Prop) : Except Stop α × Store → Prop
  | (.ok a, s) => post a s
  | (.error stop, s) => stop.Allowed ret s

/-- A computation accounts for what it observes. If everything is sound at its end, it has not gone wrong, the
store is in order and objects have kept their kinds. -/
structure Safe {α : Type} (ret : Option Ty) (m : Run α) (s : Store) (post : α → Store → Prop) : Prop where
  extends_log : s.log <:+ (m s).2.log
  told : Told s.log → Told (m s).2.log
  ends : AllSound (m s).2.log → (m s).2.Ok ∧ s.Later (m s).2 ∧ Ends ret post (m s)

namespace Safe

variable {α β : Type} {ret : Option Ty} {m : Run α} {f : α → Run β} {s : Store}
  {post : α → Store → Prop} {post' : β → Store → Prop} {P : Store → Prop}

theorem run_bind_ok {a : α} {s' : Store} (h : m s = (.ok a, s')) : (m >>= f) s = f a s' := by
  simp only [Bind.bind, ExceptT.bind, ExceptT.mk, StateT.bind, h, ExceptT.bindCont]

theorem run_bind_error {stop : Stop} {s' : Store} (h : m s = (.error stop, s')) :
    (m >>= f) s = (.error stop, s') := by
  simp only [Bind.bind, ExceptT.bind, ExceptT.mk, StateT.bind, h, ExceptT.bindCont]
  rfl

theorem pure {a : α} (h : Given s (post a)) : Safe ret (Pure.pure a) s post where
  extends_log := List.suffix_refl _
  told := id
  ends hsound := ⟨(h hsound).1, .refl _, (h hsound).2⟩

theorem throw {stop : Stop} (h : Given s fun s => stop.Allowed ret s) : Safe ret (throw stop) s post where
  extends_log := List.suffix_refl _
  told := id
  ends hsound := ⟨(h hsound).1, .refl _, (h hsound).2⟩

/-- Safe computations one after the other. The second one starts from what the first one promised. -/
theorem bind (hm : Safe ret m s post) (hf : ∀ a s', Given s' (post a) → Safe ret (f a) s' post') :
    Safe ret (m >>= f) s post' := by
  obtain ⟨hlog, htold, hends⟩ := hm
  rcases hrun : m s with ⟨stop | a, s'⟩
  · have hbind := run_bind_error (f := f) hrun
    rw [hrun] at hlog htold hends
    refine ⟨?_, ?_, ?_⟩ <;> rw [hbind]
    · exact hlog
    · exact htold
    · exact hends
  · have hbind := run_bind_ok (f := f) hrun
    rw [hrun] at hlog htold hends
    obtain ⟨hlog', htold', hends'⟩ := hf a s' fun hsound => ⟨(hends hsound).1, (hends hsound).2.2⟩
    refine ⟨?_, ?_, ?_⟩ <;> rw [hbind]
    · exact hlog.trans hlog'
    · exact htold' ∘ htold
    · intro hsound
      obtain ⟨hok, hlater, hpost⟩ := hends' hsound
      have hlater' := (hends fun o ho => hsound o (hlog'.subset ho)).2.1
      exact ⟨hok, hlater'.trans hlater, hpost⟩

/-- A computation may promise less. -/
theorem imp {post' : α → Store → Prop} (hm : Safe ret m s post)
    (h : ∀ a s', s'.Ok → post a s' → post' a s') : Safe ret m s post' := by
  refine ⟨hm.extends_log, hm.told, fun hsound => ?_⟩
  obtain ⟨hok, hlater, hends⟩ := hm.ends hsound
  refine ⟨hok, hlater, ?_⟩
  rcases hrun : m s with ⟨stop | a, s'⟩ <;> rw [hrun] at hok hends
  · exact hends
  · exact h a s' hok hends

/-- What was true before and is stable is true after. -/
theorem frame (hm : Safe ret m s post) (h : Given s P) (hP : Stable P) :
    Safe ret m s fun a s => post a s ∧ P s := by
  refine ⟨hm.extends_log, hm.told, fun hsound => ?_⟩
  obtain ⟨hok, hlater, hends⟩ := hm.ends hsound
  have hsound' : AllSound s.log := fun o ho => hsound o (hm.extends_log.subset ho)
  refine ⟨hok, hlater, ?_⟩
  rcases hrun : m s with ⟨stop | a, s'⟩ <;> rw [hrun] at hlater hends
  · exact hends
  · exact ⟨hends, hP _ _ hlater (h hsound').2⟩

/-- The store is looked at. -/
theorem get_bind {f : Store → Run β} (h : Safe ret (f s) s post') : Safe ret (get >>= f) s post' := by
  have hbind : (get >>= f) s = f s s := run_bind_ok rfl
  refine ⟨?_, ?_, ?_⟩ <;> rw [hbind]
  · exact h.extends_log
  · exact h.told
  · exact h.ends

/-- A change of the store that observes nothing. -/
theorem modify {f : Store → Store} {P Q : Store → Prop} (h : Given s P) (hlog : (f s).log = s.log)
    (hok : s.Ok → P s → (f s).Ok ∧ s.Later (f s) ∧ Q (f s)) :
    Safe ret (modify f) s fun _ s => Q s where
  extends_log := hlog ▸ List.suffix_refl _
  told htold := hlog.symm ▸ htold
  ends hsound := by
    have hsound' : AllSound s.log := hlog ▸ hsound
    exact hok (h hsound').1 (h hsound').2

end Safe

end WaccArm.References
