import WaccArm.Proofs.References.Expr

namespace WaccArm

theorem Ty.isArray_of_isString {t : Ty} (h : t.isString) : t.isArray := by
  rw [Ty.isString] at h
  split at h
  · exact Ty.isArray_iff.2 ⟨_, _, ‹_›⟩
  · cases h

/-- A statement only adds variables. -/
theorem Typing.StmtTyped.flatten_eq {Φ : List Header} {ret : Option Ty} {Γ Γ' : Scopes} {s : Source.Stmt}
    {c : Checked.Stmt} (h : StmtTyped Φ ret Γ s c Γ') : ∃ added, Γ'.flatten = added ++ Γ.flatten := by
  induction h with
  | declare => exact ⟨[_], rfl⟩
  | seqCons _ _ _ ihf iho =>
    obtain ⟨added, hadded⟩ := ihf
    obtain ⟨added', hadded'⟩ := iho
    exact ⟨added' ++ added, by rw [hadded', hadded, List.append_assoc]⟩
  | _ => exact ⟨[], rfl⟩

namespace References

open Typing

variable {Φ : List Header} {Γ : Scopes} {call : Callees} {ret : Option Ty} {s : Store} {env : Env}

/-- If there is a place, it has the type, and the type has the normal form. -/
def PlaceOk? (Γ : Scopes) (type : Ty) (place? : Option Place) (s : Store) : Prop :=
  ∀ place, place? = some place → PlaceOk s Γ type place ∧ type.Normal

theorem PlaceOk.toOption {type : Ty} {place : Place} (h : PlaceOk s Γ type place) (htype : type.Normal) :
    PlaceOk? Γ type (some place) s := by
  rintro _ ⟨rfl⟩
  exact ⟨h, htype⟩

/-- An element is a place of its type. -/
theorem locate_elem_safe {cs : List Checked.Expr} (hindices : ∀ c ∈ cs, Evaluates call Γ c)
    (hints : ∀ c ∈ cs, c.note.compatible .int) {name : String} {array type : Ty}
    (hname : Γ.find? name = some array) (harray : array.Normal) (hindex : array.index? cs.length = some type)
    (h : Given s fun s => EnvOk s env Γ) :
    Safe ret (locate call env (.elem type name cs)) s (PlaceOk? Γ type) := by
  refine (typeOf_safe hname h).bind fun declared s₁ h₁ => ?_
  refine (elem_safe hindices hints hname (harray.reaches hindex) h₁).bind fun _ _ h₂ => ?_
  exact .pure (h₂.imp fun _ h => h.1.toOption (harray.index? hindex))

/-- A side is a place of its type. -/
theorem locate_side_safe {which : Side} {pair : Checked.Expr} {type : Ty} (hpair : Evaluates call Γ pair)
    (hnormal : pair.note.Normal) (hside : pair.note.side? which = some type)
    (h : Given s fun s => EnvOk s env Γ) :
    Safe ret (locate call env (.side type which pair)) s (PlaceOk? Γ type) :=
  (hpair h).bind fun _ _ h₁ => (openSide_safe Γ h₁ hside).bind fun _ _ h₂ =>
    .pure (h₂.imp fun _ h => h.toOption (hnormal.side? hside))

/-- A target is a place of its type. -/
theorem locate_safe (hserves : Serves Φ call) (hΦ : ∀ f ∈ Φ, f.Normal) (hΓ : Γ.Normal) {e : Source.Expr}
    {c : Checked.Expr} (htyped : ExprTyped Φ Γ (.expr e c)) (hfilled : ∀ part ∈ e.parts, part.Filled)
    (h : Given s fun s => EnvOk s env Γ) : Safe ret (locate call env c) s (PlaceOk? Γ c.note) := by
  have heval : Evaluates call Γ c := evaluates_of_typed hserves hΦ hΓ htyped hfilled
  have hfull := Expr.filled_parts_iff.1 hfilled
  cases htyped with
  | var _ hname => exact .pure (h.imp fun _ _ => PlaceOk.toOption ⟨_, hname, rfl⟩ (hΓ.find? hname))
  | slice _ hname hindices hints harray hlt =>
    have helems := evaluates_of_full hserves hΦ hΓ hindices hfull
    rw [hindices.length_eq] at hlt ⊢
    have hindex := Ty.index?_eq_some.2 ⟨_, _, harray, .inl ⟨hlt, rfl⟩⟩
    exact locate_elem_safe helems hints hname (hΓ.find? hname) hindex h
  | elem _ hname hindices hints harray | unknownElem _ hname hindices hints harray =>
    have helems := evaluates_of_full hserves hΦ hΓ hindices hfull
    have hindex := Ty.index?_eq_some.2 ⟨_, _, harray, .inr ⟨hindices.length_eq.symm, rfl⟩⟩
    exact locate_elem_safe helems hints hname (hΓ.find? hname) hindex h
  | fst _ hpair htype | snd _ hpair htype =>
    have hpairFull := List.forall_mem_singleton.1 hfull
    have hnormal := hpair.normal hΦ hΓ hpairFull _ (Expr.mem_parts _)
    exact locate_side_safe (evaluates_of_full hserves hΦ hΓ hpair hpairFull) hnormal
      (Ty.side?_eq_some.2 ⟨_, _, htype, rfl⟩) h
  | _ =>
    refine (heval h).bind fun v s₁ h₁ => .pure (h₁.imp fun _ _ => ?_)
    rintro _ ⟨⟩

/-- The execution of a statement is safe, and gives the variables after it values of their types. -/
def Executes (call : Callees) (n : Nat) (ret : Option Ty) (Γ : Scopes) (c : Checked.Stmt) (Γ' : Scopes) :
    Prop :=
  ∀ ⦃s : Store⦄ ⦃env : Env⦄, Given s (fun s => EnvOk s env Γ) →
    Safe ret (exec call n ret c env) s fun env s => EnvOk s env Γ'

/-- A block leaves the variables around it. -/
theorem block_safe {body : Run Env} {Γ' : Scopes} {added : Vars} (hadded : Γ'.flatten = added ++ Γ.flatten)
    (hbody : Safe ret body s fun env s => EnvOk s env Γ') (h : Given s fun s => EnvOk s env Γ) :
    Safe ret (block env body) s fun env s => EnvOk s env Γ := by
  refine (hbody.frame h (stable_env env Γ)).bind fun inner s₁ h₁ => .pure (h₁.imp fun _ h => ?_)
  have hinner := List.Forall₂.length_eq h.1
  have houter := List.Forall₂.length_eq h.2
  have hdrop : inner.length - env.length = added.length := by
    rw [hinner, houter, hadded, List.length_append, Nat.add_sub_cancel]
  have hrest := List.forall₂_drop added.length h.1
  rw [hadded, List.drop_left] at hrest
  rw [hdrop]
  exact hrest

/-- A loop is safe if each round is. -/
theorem iterate_safe {test : Env → Run Int} {body : Env → Run Env}
    (htest : ∀ {s env}, Given s (fun s => EnvOk s env Γ) → Safe ret (test env) s fun _ _ => True)
    (hbody : ∀ {s env}, Given s (fun s => EnvOk s env Γ) →
      Safe ret (body env) s fun env s => EnvOk s env Γ) (n : Nat)
    (h : Given s fun s => EnvOk s env Γ) :
    Safe ret (iterate test body n env) s fun env s => EnvOk s env Γ := by
  induction n generalizing s env with
  | zero => exact .throw (h.imp fun _ _ => trivial)
  | succ n ih =>
    rw [iterate]
    refine ((htest h).frame h (stable_env env Γ)).bind fun i s₁ h₁ => ?_
    split
    · exact (hbody (h₁.imp fun _ h => h.2)).bind fun env' s₂ h₂ => ih h₂
    · exact .pure (h₁.imp fun _ h => h.2)

theorem input_safe {P : Store → Prop} (h : Given s P) (hP : Stable P) :
    Safe ret input s fun _ s => P s := by
  have hlater : s.Later { s with input := s.input.tail } := .of_log rfl (List.suffix_refl _)
  refine .get_bind (Safe.bind (.modify h rfl fun hok hPs => ?_) fun _ _ h' => .pure h')
  exact ⟨hok.of_log rfl rfl (List.suffix_refl _), hlater, hP _ _ hlater hPs⟩

/-- Pairs and arrays may be freed. -/
theorem executes_free {n : Nat} {c : Checked.Expr} (hc : Evaluates call Γ c)
    (htype : c.note.isPair ∨ c.note.isArray) : Executes call n ret Γ (.free () c) Γ := by
  intro s env h
  rw [exec]
  refine ((hc h).frame h (stable_env env Γ)).bind fun v s₁ h₁ => ?_
  refine ((release_safe (h₁.imp fun _ h => h.1) htype).frame (h₁.imp fun _ h => h.2)
    (stable_env env Γ)).bind fun _ s₂ h₂ => ?_
  exact .pure (h₂.imp fun _ h => h.2)

/-- The type of an expression that may be passed on. -/
theorem passes_of_typed (hΦ : ∀ f ∈ Φ, f.Normal) (hΓ : Γ.Normal) {e : Source.Expr} {c : Checked.Expr}
    (h : ExprTyped Φ Γ (.expr e c)) (hfilled : ∀ part ∈ e.parts, part.Filled) {wanted : Ty}
    (hwanted : wanted.Normal) (hcompatible : c.note.compatible wanted) : c.note.Passes wanted := by
  refine ⟨?_, hwanted, hcompatible⟩
  rcases h.formed hΦ hΓ hfilled c c.mem_parts with hnormal | ⟨-, hempty⟩
  · exact .inl hnormal
  · exact .inr hempty

/-- Well-typed statements are safe. -/
theorem executes_of_typed (hserves : Serves Φ call) (hΦ : ∀ f ∈ Φ, f.Normal) (hret : ∀ type ∈ ret, type.Normal)
    {n : Nat} {Γ' : Scopes} {stmt : Source.Stmt} {c : Checked.Stmt} (h : StmtTyped Φ ret Γ stmt c Γ')
    (hΓ : Γ.Normal) (htidy : Grammar.Tidy stmt.types stmt.exprs) : Executes call n ret Γ c Γ' := by
  induction h with
  | skip =>
    intro s env h
    rw [exec]
    exact .pure h
  | @declare _ scope outer written name init c hinit hcompatible =>
    intro s env h
    rw [exec]
    obtain ⟨hnormal, hfilled⟩ := htidy
    have hpasses := passes_of_typed hΦ hΓ hinit hfilled (hnormal written List.mem_cons_self) hcompatible
    have hvalue := evaluates_of_typed hserves hΦ hΓ hinit hfilled
    refine ((hvalue h).frame h (stable_env _ _)).bind fun v s₁ h₁ => ?_
    refine ((pass_safe (h₁.imp fun _ h => ⟨hpasses, h.1⟩)).frame (h₁.imp fun _ h => h.2) (stable_env _ _)).bind
      fun _ s₂ h₂ => ?_
    exact .pure (h₂.imp fun _ h => .cons ⟨rfl, rfl, h.1⟩ h.2)
  | @assign _ Γ _ _ cd cs hdst hsrc hcompatible =>
    intro s env h
    rw [exec]
    obtain ⟨hd, -, hs⟩ := Grammar.tidy_parts.1 htidy
    have hvalue := evaluates_of_typed hserves hΦ hΓ hsrc hs
    refine ((hvalue h).frame h (stable_env env Γ)).bind fun v s₁ h₁ => ?_
    have hstable := (stable_conforms v cs.note).and (stable_env env Γ)
    refine ((locate_safe hserves hΦ hΓ hdst hd (h₁.imp fun _ h => h.2)).frame h₁ hstable).bind
      fun place? s₂ h₂ => ?_
    cases place? with
    | none => exact .pure (h₂.imp fun _ h => h.2.2)
    | some place =>
      have hvalue : Given s₂ fun s => cs.note.Passes cd.note ∧ Conforms s v cs.note :=
        h₂.imp fun _ h => ⟨passes_of_typed hΦ hΓ hsrc hs (h.1 place rfl).2 hcompatible, h.2.1⟩
      have hframe : Given s₂ fun s => PlaceOk s Γ cd.note place ∧ EnvOk s env Γ :=
        h₂.imp fun _ h => ⟨(h.1 place rfl).1, h.2.2⟩
      refine ((pass_safe hvalue).frame hframe ((stable_place Γ cd.note place).and (stable_env env Γ))).bind
        fun _ s₃ h₃ => ?_
      exact store_safe (h₃.imp fun _ h => ⟨h.2.1, h.2.2, h.1⟩)
  | @read _ Γ _ c htarget htype =>
    intro s env h
    rw [exec]
    refine ((locate_safe hserves hΦ hΓ htarget htidy.filled h).frame h (stable_env env Γ)).bind
      fun place? s₁ h₁ => ?_
    have hstable : Stable fun s => PlaceOk? Γ c.note place? s ∧ EnvOk s env Γ :=
      fun _ _ hlater h => ⟨fun place hp => ⟨(h.1 place hp).1.mono hlater, (h.1 place hp).2⟩, h.2.mono hlater⟩
    refine (input_safe h₁ hstable).bind fun n? s₂ h₂ => ?_
    cases place? with
    | none => exact .pure (h₂.imp fun _ h => h.2)
    | some place =>
      cases n? with
      | none => exact .pure (h₂.imp fun _ h => h.2)
      | some n =>
        refine store_safe (h₂.imp fun _ h => ⟨(h.1 place rfl).1, h.2, conforms_scalar _ _ ?_⟩)
        rcases htype with htype | htype <;> rw [htype] <;> rfl
  | freePair _ he htype =>
    exact executes_free (evaluates_of_typed hserves hΦ hΓ he htidy.filled) (.inl (htype ▸ rfl))
  | freeArray _ he htype =>
    exact executes_free (evaluates_of_typed hserves hΦ hΓ he htidy.filled) (.inr (htype ▸ rfl))
  | @ret _ _ _ _ type htype he hcompatible =>
    intro s env h
    subst htype
    rw [exec]
    have hpasses := passes_of_typed hΦ hΓ he htidy.filled (hret type rfl) hcompatible
    have hvalue := evaluates_of_typed hserves hΦ hΓ he htidy.filled
    refine (hvalue h).bind fun v s₁ h₁ => (pass_safe (h₁.imp fun _ h => ⟨hpasses, h⟩)).bind fun _ s₂ h₂ => ?_
    exact .throw (h₂.imp fun _ hv => ⟨type, rfl, hv⟩)
  | exit _ he htype =>
    intro s env h
    rw [exec]
    have hvalue := evaluates_of_typed hserves hΦ hΓ he htidy.filled
    refine (hvalue h).bind fun v s₁ h₁ => ?_
    refine (number_safe h₁ ((Ty.isScalar_eq_of_compatible htype).trans rfl)).bind fun code s₂ h₂ => ?_
    exact .throw (h₂.imp fun _ _ => trivial)
  | @print _ Γ _ c _ he =>
    intro s env h
    rw [exec]
    have hvalue := evaluates_of_typed hserves hΦ hΓ he htidy.filled
    refine ((hvalue h).frame h (stable_env env Γ)).bind fun v s₁ h₁ => ?_
    split
    · rename_i hstring
      have harray : Given s₁ fun s => c.note.isArray ∧ Conforms s v c.note :=
        h₁.imp fun _ h => ⟨Ty.isArray_of_isString hstring, h.1⟩
      exact ((openArray_safe harray).frame (h₁.imp fun _ h => h.2) (stable_env env Γ)).bind
        fun _ s₂ h₂ => .pure (h₂.imp fun _ h => h.2)
    · exact .pure (h₁.imp fun _ h => h.2)
  | @branch _ Γ _ _ _ _ _ _ _ _ hcond htype hyes hno ihy ihn =>
    intro s env h
    rw [exec]
    obtain ⟨hc, hbranches⟩ := Grammar.tidy_parts.1 htidy
    obtain ⟨hy, hn⟩ := Grammar.tidy_append.1 hbranches
    have hvalue := evaluates_of_typed hserves hΦ hΓ hcond hc
    have hscalar := (Ty.isScalar_eq_of_compatible htype).trans rfl
    refine ((hvalue h).frame h (stable_env env Γ)).bind fun v s₁ h₁ => ?_
    refine ((number_safe (h₁.imp fun _ h => h.1) hscalar).frame (h₁.imp fun _ h => h.2)
      (stable_env env Γ)).bind fun i s₂ h₂ => ?_
    have henv : Given s₂ fun s => EnvOk s env Γ := h₂.imp fun _ h => h.2
    obtain ⟨addedYes, hyes⟩ := hyes.flatten_eq
    obtain ⟨addedNo, hno⟩ := hno.flatten_eq
    split
    · exact block_safe hno (ihn hΓ.enter hn henv) henv
    · exact block_safe hyes (ihy hΓ.enter hy henv) henv
  | @loop _ Γ _ _ _ _ _ hcond htype hbody ih =>
    intro s env h
    rw [exec]
    obtain ⟨hc, hb⟩ := Grammar.tidy_parts.1 htidy
    have hvalue := evaluates_of_typed hserves hΦ hΓ hcond hc
    obtain ⟨added, hadded⟩ := hbody.flatten_eq
    refine iterate_safe (fun h => ?_) (fun h => block_safe hadded (ih hΓ.enter hb h) h) n h
    exact (hvalue h).bind fun v s₁ h₁ => number_safe h₁ ((Ty.isScalar_eq_of_compatible htype).trans rfl)
  | scope _ hbody ih =>
    intro s env h
    rw [exec]
    obtain ⟨added, hadded⟩ := hbody.flatten_eq
    exact block_safe hadded (ih hΓ.enter htidy h) h
  | seqNil =>
    intro s env h
    rw [exec, execAll]
    exact .pure h
  | seqCons _ hfirst _ ihf iho =>
    intro s env h
    rw [exec, execAll]
    obtain ⟨hf, ho⟩ := Grammar.tidy_append.1 htidy
    obtain ⟨hΓ₁, -⟩ := hfirst.formed hΦ hΓ hf
    refine (ihf hΓ hf h).bind fun env' s₁ h₁ => ?_
    have hrest := iho hΓ₁ ho h₁
    rwa [exec] at hrest

end References

end WaccArm
