import WaccArm.Proofs.References.Safety

namespace WaccArm.References

open Typing (Scopes)

variable {ret : Option Ty} {s : Store} {v : Value} {type : Ty} {env : Env} {Γ : Scopes}

/-- An observation that is accounted for may be noted. -/
theorem tell_safe {o : Observation} {P : Store → Prop} (h : Given s P) (hP : Stable P)
    (ho : s.Ok → P s → o.Accounted s.log) :
    Safe ret (tell o) s fun _ t => o.Sound ∧ o ∈ t.log ∧ t.heap = s.heap ∧ P t where
  extends_log := List.suffix_cons _ _
  told htold := ⟨htold, fun hsound => ho (h hsound).1 (h hsound).2⟩
  ends hsound := by
    obtain ⟨ho, hsound⟩ := allSound_cons.1 hsound
    obtain ⟨hok, hPs⟩ := h hsound
    have hlater : s.Later { s with log := o :: s.log } := .of_log rfl (List.suffix_cons _ _)
    exact ⟨hok.of_log rfl rfl (List.suffix_cons _ _), hlater, ho, List.mem_cons_self, rfl, hP _ _ hlater hPs⟩

/-- A value that was computed has its type. One that was read from the heap has the type with which it was
put there, and that is the same if the part was not recast. -/
def Held (s : Store) (type : Ty) (v : Value) : Option Origin → Prop
  | none => Conforms s v type
  | some origin => Conforms s v origin.type ∧ ∀ detail,
    ¬ Recast s.log detail origin.address origin.part → Alike detail origin.type type

theorem stable_held (type : Ty) (v : Value) (origin : Option Origin) :
    Stable fun s => Held s type v origin := by
  intro s t hlater h
  cases origin with
  | none => exact Conforms.mono h hlater
  | some origin =>
    exact ⟨h.1.mono hlater, fun detail hr => h.2 detail fun hr' => hr (hr'.mono hlater.log.subset)⟩

/-- What a value shows that was read with another type than it was put there. -/
theorem Held.accounted {origin : Option Origin} (h : Held s type v origin) :
    (Observation.evaluated type v (s.heap.shape v) origin).Accounted s.log := by
  cases origin with
  | none =>
    refine ⟨fun hsound => absurd (Conforms.suits h) hsound, ?_⟩
    rintro detail address part ⟨-, source, hnone, -⟩
    cases hnone
  | some origin =>
    obtain ⟨hconforms, hsame⟩ := h
    refine ⟨fun hsound => ⟨origin, ⟨rfl, hconforms.suits⟩, ?_⟩, ?_⟩
    · by_contra hrecast
      exact hsound ((hsame .kind hrecast _).1 hconforms.suits)
    · rintro detail address part ⟨-, source, hsource, hne⟩
      cases hsource
      refine .inr ⟨origin, rfl, ?_⟩
      by_contra hrecast
      exact hne (.of_expand (hsame .full hrecast) detail part)

/-- A value that is seen to be of its kind has its type, and if it was read with another type than it was put
there, then the parts that differ are recast by this. -/
theorem Held.conforms {origin : Option Origin} {shape : Shape} (h : Held s type v origin)
    (hshape : shape = s.heap.shape v) (hsound : (Observation.evaluated type v shape origin).Sound)
    (hmem : .evaluated type v shape origin ∈ s.log) : Conforms s v type := by
  cases origin with
  | none => exact h
  | some origin =>
    refine h.1.of_parts (hshape ▸ hsound) fun address hv detail part hrecast => ?_
    by_contra hne
    exact hrecast ⟨_, hmem, hv, origin, rfl, hne⟩

/-- A value that is held may be observed. -/
theorem seen_safe {origin : Option Origin} (h : Given s fun s => Held s type v origin) :
    Safe ret (seen type v origin) s fun v s => Conforms s v type := by
  refine .get_bind ((tell_safe h (stable_held type v origin) fun _ h => h.accounted).bind fun _ t h' => ?_)
  refine .pure (h'.imp fun _ ht => ?_)
  obtain ⟨hsound, hmem, hheap, hheld⟩ := ht
  exact hheld.conforms (by rw [hheap]) hsound hmem

/-- A value may be passed where its type passes. -/
theorem pass_safe {found wanted : Ty} (h : Given s fun s => found.Passes wanted ∧ Conforms s v found) :
    Safe ret (pass found wanted v) s fun _ s => Conforms s v wanted := by
  have hstable := (stable_const (found.Passes wanted)).and (stable_conforms v found)
  have haccounted (hpasses : found.Passes wanted) : (Observation.passed found wanted v).Accounted s.log := by
    refine ⟨fun hsound => absurd trivial hsound, ?_⟩
    rintro detail address part ⟨-, hne⟩
    exact .inl (exists_not_resolved hpasses hne)
  refine (tell_safe h hstable fun _ h => haccounted h.1).imp ?_
  rintro _ t - ⟨-, hmem, -, hpasses, hv⟩
  refine hv.of_parts (hv.suits.pass hpasses) fun address href detail part hrecast => ?_
  by_contra hne
  exact hrecast ⟨_, hmem, href, hne⟩

/-- A value may be kept in a part where its type passes. -/
theorem keep_safe {part : Part} {found wanted : Ty} (hpart : partType? type part = some wanted)
    (hpasses : found.Passes wanted) (h : Given s fun s => Conforms s v found) :
    Safe ret (keep type part found v) s fun x s => x.type = wanted ∧ Conforms s x.value x.type := by
  rw [keep, hpart]
  exact (pass_safe (h.imp fun _ h => ⟨hpasses, h⟩)).bind fun _ s' h' => .pure (h'.imp fun _ hv => ⟨rfl, hv⟩)

/-- A new object changes none. -/
theorem later_append (s : Store) (obj : Obj) : s.Later { s with heap := s.heap ++ [obj] } where
  log := List.suffix_refl _
  shape address hne := by
    rw [Heap.shapeAt, Heap.shapeAt, Heap.getElem?_append_of_shapeAt hne]
  kept _ address part hne _ x hx := by
    rw [Heap.keptAt, Heap.getElem?_append_of_shapeAt hne] at hx
    exact ⟨x, hx, .refl _ _⟩

/-- A new object may hold values of the types with which they are put there. -/
theorem allocate_safe {obj : Obj}
    (h : Given s fun s => ∀ part, ∀ x ∈ obj.kept part, Conforms s x.value x.type) :
    Safe ret (allocate obj) s fun address s => s.heap[address]? = some obj := by
  have hadded : Safe ret (modify fun s => { s with heap := s.heap ++ [obj] }) s fun _ t =>
      t.heap[s.heap.length]? = some obj := by
    refine .modify h rfl fun hok hobj => ?_
    have hlater := later_append s obj
    refine ⟨⟨fun other hother part x hx => ?_, fun x hx => (hok.constants x hx).mono hlater⟩, hlater, ?_⟩
    · rcases List.mem_append.1 hother with hother | hother
      · exact (hok.heap other hother part x hx).mono hlater
      · rw [List.mem_singleton.1 hother] at hx
        exact (hobj part x hx).mono hlater
    · exact List.getElem?_concat_length
  exact .get_bind (hadded.bind fun _ s' h' => .pure h')

/-- An object that exists is found. -/
theorem fetch_safe {address : Nat} {P : Store → Prop} (h : Given s P)
    (hP : P s → s.heap.shapeAt address ≠ .nothing) :
    Safe ret (fetch address) s fun obj s => s.heap[address]? = some obj ∧ P s := by
  refine .get_bind ?_
  cases hobj : s.heap[address]? with
  | none => exact .throw (h.imp fun _ h => hP h (by rw [Heap.shapeAt, hobj, Option.elim_none]))
  | some obj =>
    cases hlive : obj.live with
    | true =>
      simp only [hlive]
      exact .pure (h.imp fun _ h => ⟨hobj, h⟩)
    | false =>
      simp only [hlive]
      exact .throw (h.imp fun _ _ => trivial)

/-- An object may be replaced by one of the same kind and size, if its values have their types and parts that
were not recast keep theirs. -/
structure Replaces (s : Store) (address : Nat) (old obj : Obj) : Prop where
  here : s.heap[address]? = some old
  shape : obj.shape = old.shape
  conforms : ∀ part, ∀ x ∈ obj.kept part, Conforms s x.value x.type
  kept : ∀ detail part, ¬ Recast s.log detail address part → ∀ x ∈ obj.kept part,
    ∃ y ∈ old.kept part, Alike detail x.type y.type

/-- A replaced object keeps what is said of it. -/
theorem Replaces.later {address : Nat} {old obj : Obj} (h : Replaces s address old obj) :
    s.Later { s with heap := s.heap.set address obj } := by
  have hset (other : Nat) : (s.heap.set address obj)[other]? =
      if address = other then some obj else s.heap[other]? := by
    rw [List.getElem?_set]
    split
    · rw [if_pos (List.getElem?_eq_some_iff.1 h.here).1]
    · rfl
  refine ⟨List.suffix_refl _, fun other hne => ?_, fun detail other part hne hrecast x hx => ?_⟩
  · rw [Heap.shapeAt, hset]
    split
    · rename_i heq
      subst heq
      rw [Heap.shapeAt_of_some h.here, Option.elim_some, h.shape]
    · rfl
  · rw [Heap.keptAt, hset] at hx
    split at hx
    · rename_i heq
      subst heq
      rw [Heap.keptAt_of_some h.here]
      exact h.kept detail part hrecast x hx
    · exact ⟨x, hx, .refl _ _⟩

/-- An object may be replaced. -/
theorem update_safe {address : Nat} {old obj : Obj} (h : Given s fun s => Replaces s address old obj) :
    Safe ret (update address obj) s fun _ _ => True := by
  refine .modify h rfl fun hok hobj => ?_
  have hlater := hobj.later
  refine ⟨⟨fun other hother part x hx => ?_, fun x hx => (hok.constants x hx).mono hlater⟩, hlater, trivial⟩
  rcases List.mem_or_eq_of_mem_set hother with hother | rfl
  · exact (hok.heap other hother part x hx).mono hlater
  · exact (hobj.conforms part x hx).mono hlater

/-- A scalar is a number. -/
theorem number_safe (h : Given s fun s => Conforms s v type) (htype : Scalar.isScalar type) :
    Safe ret (number v) s fun _ _ => True := by
  cases v with
  | scalar n => exact .pure (h.imp fun _ _ => trivial)
  | null | ref =>
    refine .throw (h.imp fun _ hv => ?_)
    obtain ⟨n, hn⟩ := hv.eq_scalar htype
    cases hn

/-- A number has every type of numbers. -/
theorem conforms_scalar (s : Store) (n : Int) (htype : Scalar.isScalar type) :
    Conforms s (.scalar n) type :=
  .of_suits htype (by simp)

/-- What is computed is a scalar. -/
theorem computed_safe {result : Except Scalar.Trap Int} (hresult : result ≠ .error .stuck)
    (h : Given s fun _ => True) (htype : Scalar.isScalar type) :
    Safe ret (computed result) s fun v s => Conforms s v type := by
  cases result with
  | ok n => exact .pure (h.imp fun _ _ => conforms_scalar s n htype)
  | error trap =>
    cases trap with
    | overflow | divideByZero => exact .throw (h.imp fun _ _ => trivial)
    | stuck => exact absurd rfl hresult

/-- An array of characters is a string. -/
theorem conforms_str {address : Nat} {live : Bool} {elems : List Kept}
    (hobj : s.heap[address]? = some (.array live 1 elems)) (hchars : ∀ x ∈ elems, x.type = .char) :
    Conforms s (.ref address) .str := by
  constructor
  · rw [Heap.shape, Heap.shapeAt_of_some hobj]
    exact ⟨.char, rfl, fun _ => ⟨rfl, by simp [Ty.emptyArray]⟩⟩
  · rintro _ ⟨rfl⟩ detail part - x hx
    rw [Heap.keptAt_of_some hobj] at hx
    cases part with
    | side => cases hx
    | elements => exact ⟨.char, rfl, hchars x hx ▸ .refl _ _⟩

/-- The array of a string literal is made when it is first used. -/
theorem literal_safe (text : String) (h : Given s fun _ => True) :
    Safe ret (literal text) s fun v s => Conforms s v .str := by
  refine .get_bind ?_
  cases hlookup : s.constants.lookup text with
  | some address =>
    refine .pure fun hsound => ⟨(h hsound).1, ?_⟩
    have hmem : (text, address) ∈ s.constants := by
      obtain ⟨before, after, heq, -⟩ := List.lookup_eq_some_iff.1 hlookup
      simp [heq]
    exact (h hsound).1.constants _ hmem
  | none =>
    let chars : List Kept := text.toList.map fun c => ⟨.char, .scalar c.toNat⟩
    have hchars : ∀ x ∈ chars, x.type = .char ∧ ∃ n, x.value = .scalar n := by
      intro x hx
      obtain ⟨c, -, rfl⟩ := List.mem_map.1 hx
      exact ⟨rfl, _, rfl⟩
    have hobj : Given s fun s => ∀ part, ∀ x ∈ (Obj.array true 1 chars).kept part,
        Conforms s x.value x.type := by
      refine h.imp fun _ _ part x hx => ?_
      cases part with
      | side => cases hx
      | elements =>
        obtain ⟨htype, n, hvalue⟩ := hchars x hx
        rw [htype, hvalue]
        exact conforms_scalar s n rfl
    refine (allocate_safe hobj).bind fun address s' h' => ?_
    have hinterned : Safe ret (modify fun s => { s with constants := (text, address) :: s.constants }) s'
        fun _ s => Conforms s (.ref address) .str := by
      refine .modify h' rfl fun hok hhere => ?_
      have hlater : s'.Later { s' with constants := (text, address) :: s'.constants } :=
        .of_log rfl (List.suffix_refl _)
      have hstr : Conforms s' (.ref address) .str := conforms_str hhere fun x hx => (hchars x hx).1
      refine ⟨⟨fun obj hobj part x hx => (hok.heap obj hobj part x hx).mono hlater, ?_⟩, hlater,
        hstr.mono hlater⟩
      exact List.forall_mem_cons.2 ⟨hstr.mono hlater, fun x hx => (hok.constants x hx).mono hlater⟩
    exact hinterned.bind fun _ s'' h'' => .pure h''

theorem fetch_ref_safe {address : Nat} (h : Given s fun s => Conforms s (.ref address) type) :
    Safe ret (fetch address) s fun obj s => s.heap[address]? = some obj ∧ Conforms s (.ref address) type :=
  fetch_safe h Conforms.shapeAt_ne_nothing

/-- A value of an array type is an array. -/
theorem openArray_safe (h : Given s fun s => type.isArray ∧ Conforms s v type) :
    Safe ret (openArray v) s fun x s => (∃ width, s.heap.shapeAt x.1 = .array width x.2) ∧
      ∀ elem, type.index? 1 = some elem → s.Agrees x.1 .elements elem := by
  cases v with
  | scalar | null =>
    refine .throw (h.imp fun _ hP => ?_)
    obtain ⟨_, _, _, _, ⟨⟩, -⟩ := hP.2.eq_ref hP.1
  | ref address =>
    refine (fetch_safe h fun hP => hP.2.shapeAt_ne_nothing).bind fun obj s' h' => ?_
    cases obj with
    | pair =>
      refine .throw (h'.imp fun _ hP => ?_)
      obtain ⟨hobj, htype, hv⟩ := hP
      obtain ⟨_, _, _, _, ⟨⟩, harray⟩ := hv.eq_ref htype
      cases hobj.symm.trans harray
    | array live width elems =>
      refine .pure (h'.imp fun _ hP => ⟨⟨width, Heap.shapeAt_of_some hP.1⟩, fun elem helem => ?_⟩)
      exact hP.2.2.part .elements helem

/-- The side that is reached has the type that it has in the type of the pair. -/
theorem openSide_safe (Γ : Scopes) {which : Side} {side : Ty} (h : Given s fun s => Conforms s v type)
    (hside : type.side? which = some side) :
    Safe ret (openSide which v) s fun place s => PlaceOk s Γ side place := by
  have htype : type.isPair := by
    obtain ⟨fst, snd, rfl, -⟩ := Ty.side?_eq_some.1 hside
    rfl
  cases v with
  | scalar =>
    refine .throw (h.imp fun _ hv => ?_)
    obtain ⟨⟨⟩⟩ | ⟨_, _, _, ⟨⟩, -⟩ := hv.eq_null_or_ref htype
  | null => exact .throw (h.imp fun _ _ => trivial)
  | ref address =>
    refine (fetch_ref_safe h).bind fun obj s' h' => ?_
    cases obj with
    | array =>
      refine .throw (h'.imp fun _ hv => ?_)
      obtain ⟨⟨⟩⟩ | ⟨_, _, _, ⟨⟩, hpair⟩ := hv.2.eq_null_or_ref htype
      cases hv.1.symm.trans hpair
    | pair live sides =>
      exact .pure (h'.imp fun _ hv => ⟨Heap.shapeAt_of_some hv.1, hv.2.part (.side which) hside⟩)

/-- What is loaded from a place is held by it. -/
theorem load_safe {place : Place} (h : Given s fun s => PlaceOk s Γ type place ∧ EnvOk s env Γ) :
    Safe ret (load env place) s fun x s => Held s type x.1 x.2 := by
  cases place with
  | var name =>
    rw [load]
    cases hlookup : env.lookup name with
    | none =>
      refine .throw (h.imp fun _ hP => ?_)
      obtain ⟨⟨known, hname, -⟩, henv⟩ := hP
      obtain ⟨v, hv, -⟩ := henv.lookup hname
      cases hlookup.symm.trans hv
    | some x =>
      refine .pure (h.imp fun _ hP => ?_)
      obtain ⟨⟨known, hname, hknown⟩, henv⟩ := hP
      obtain ⟨v, hv, hconforms⟩ := henv.lookup hname
      cases hlookup.symm.trans hv
      exact hconforms.congr hknown
  | elem address index =>
    refine (fetch_safe h fun hP => hP.1.elem_ne_nothing).bind fun obj s' h' => ?_
    cases obj with
    | pair =>
      refine .throw (h'.imp fun _ hP => ?_)
      obtain ⟨_, _, _, ⟨⟩, -⟩ := hP.2.1.elem_object hP.1
    | array live width elems =>
      cases hget : elems[index]? with
      | none =>
        simp only [hget]
        refine .throw (h'.imp fun _ hP => ?_)
        obtain ⟨_, _, _, ⟨⟩, hindex, -⟩ := hP.2.1.elem_object hP.1
        exact absurd hindex (Nat.not_lt.2 (List.getElem?_eq_none_iff.1 hget))
      | some x =>
        simp only [hget]
        refine .pure (h'.imp fun hok hP => ?_)
        obtain ⟨_, _, _, ⟨⟩, -, hsame⟩ := hP.2.1.elem_object hP.1
        have hmem := List.mem_of_getElem? hget
        exact ⟨hok.get hP.1 .elements hmem, fun detail hrecast => hsame detail hrecast x hmem⟩
  | side address which =>
    refine (fetch_safe h fun hP => hP.1.side_ne_nothing).bind fun obj s' h' => ?_
    cases obj with
    | array =>
      refine .throw (h'.imp fun _ hP => ?_)
      obtain ⟨_, _, ⟨⟩, -⟩ := hP.2.1.side_object hP.1
    | pair live sides =>
      refine .pure (h'.imp fun hok hP => ?_)
      obtain ⟨_, _, ⟨⟩, hsame⟩ := hP.2.1.side_object hP.1
      exact ⟨hok.get hP.1 (.side which) List.mem_cons_self, hsame⟩

/-- An element is replaced by a value of the type that the place has. -/
theorem replaces_elem {address index : Nat} {live : Bool} {width : Nat} {elems : List Kept} (hok : s.Ok)
    (hobj : s.heap[address]? = some (.array live width elems))
    (hplace : PlaceOk s Γ type (.elem address index)) (hv : Conforms s v type) :
    Replaces s address (.array live width elems) (.array live width (elems.set index ⟨type, v⟩)) := by
  obtain ⟨_, _, _, ⟨⟩, hindex, hsame⟩ := hplace.elem_object hobj
  refine ⟨hobj, by rw [Obj.shape, Obj.shape, List.length_set], fun part x hx => ?_,
    fun detail part hrecast x hx => ?_⟩
  · cases part with
    | side => cases hx
    | elements =>
      rcases List.mem_or_eq_of_mem_set hx with hx | rfl
      · exact hok.get hobj .elements hx
      · exact hv
  · cases part with
    | side => cases hx
    | elements =>
      rcases List.mem_or_eq_of_mem_set hx with hx | rfl
      · exact ⟨x, hx, .refl _ _⟩
      · have hmem := List.getElem_mem hindex
        exact ⟨elems[index], hmem, (hsame detail hrecast _ hmem).symm⟩

/-- A side is replaced by a value of the type that the place has. -/
theorem replaces_side {address : Nat} {which : Side} {live : Bool} {sides : Side → Kept} (hok : s.Ok)
    (hobj : s.heap[address]? = some (.pair live sides))
    (hplace : PlaceOk s Γ type (.side address which)) (hv : Conforms s v type) :
    Replaces s address (.pair live sides)
      (.pair live fun side => if side = which then ⟨type, v⟩ else sides side) := by
  obtain ⟨_, _, ⟨⟩, hsame⟩ := hplace.side_object hobj
  refine ⟨hobj, rfl, fun part x hx => ?_, fun detail part hrecast x hx => ?_⟩
  · cases part with
    | elements => cases hx
    | side side =>
      obtain rfl := List.mem_singleton.1 hx
      dsimp only
      split
      · exact hv
      · exact hok.get hobj (.side side) List.mem_cons_self
  · cases part with
    | elements => cases hx
    | side side =>
      obtain rfl := List.mem_singleton.1 hx
      refine ⟨sides side, List.mem_cons_self, ?_⟩
      dsimp only
      split
      · rename_i heq
        subst heq
        exact (hsame detail hrecast).symm
      · exact .refl _ _

/-- A place may be given a value of its type. -/
theorem store_safe {place : Place}
    (h : Given s fun s => PlaceOk s Γ type place ∧ EnvOk s env Γ ∧ Conforms s v type) :
    Safe ret (store env type v place) s fun env s => EnvOk s env Γ := by
  cases place with
  | var name =>
    rw [store]
    cases hset : env.set? name v with
    | none =>
      refine .throw (h.imp fun _ hP => ?_)
      obtain ⟨⟨known, hname, hknown⟩, henv, hv⟩ := hP
      obtain ⟨env', henv', -⟩ := henv.set? hname (hv.congr hknown.symm)
      cases hset.symm.trans henv'
    | some env' =>
      refine .pure (h.imp fun _ hP => ?_)
      obtain ⟨⟨known, hname, hknown⟩, henv, hv⟩ := hP
      obtain ⟨env', henv', hok⟩ := henv.set? hname (hv.congr hknown.symm)
      cases hset.symm.trans henv'
      exact hok
  | elem address index =>
    refine (fetch_safe h fun hP => hP.1.elem_ne_nothing).bind fun obj s' h' => ?_
    cases obj with
    | pair =>
      refine .throw (h'.imp fun _ hP => ?_)
      obtain ⟨_, _, _, ⟨⟩, -⟩ := hP.2.1.elem_object hP.1
    | array live width elems =>
      have henv : Given s' fun s => EnvOk s env Γ := h'.imp fun _ hP => hP.2.2.1
      have hupdate : Safe ret (update address _) s' fun _ _ => True :=
        update_safe (h'.imp fun hok hP => replaces_elem hok hP.1 hP.2.1 hP.2.2.2)
      exact (hupdate.frame henv (stable_env env Γ)).bind fun _ s'' h'' =>
        .pure (h''.imp fun _ hP => hP.2)
  | side address which =>
    refine (fetch_safe h fun hP => hP.1.side_ne_nothing).bind fun obj s' h' => ?_
    cases obj with
    | array =>
      refine .throw (h'.imp fun _ hP => ?_)
      obtain ⟨_, _, ⟨⟩, -⟩ := hP.2.1.side_object hP.1
    | pair live sides =>
      have henv : Given s' fun s => EnvOk s env Γ := h'.imp fun _ hP => hP.2.2.1
      have hupdate : Safe ret (update address _) s' fun _ _ => True :=
        update_safe (h'.imp fun hok hP => replaces_side hok hP.1 hP.2.1 hP.2.2.2)
      exact (hupdate.frame henv (stable_env env Γ)).bind fun _ s'' h'' =>
        .pure (h''.imp fun _ hP => hP.2)

theorem replaces_freed {address : Nat} {obj : Obj} (hok : s.Ok) (hobj : s.heap[address]? = some obj) :
    Replaces s address obj obj.freed := by
  refine ⟨hobj, obj.shape_freed, fun part x hx => ?_, fun _ part _ x hx => ?_⟩
  · rw [Obj.kept_freed] at hx
    exact hok.get hobj part hx
  · rw [Obj.kept_freed] at hx
    exact ⟨x, hx, .refl _ _⟩

/-- A pair or an array may be freed. -/
theorem release_safe (h : Given s fun s => Conforms s v type) (htype : type.isPair ∨ type.isArray) :
    Safe ret (release type v) s fun _ _ => True := by
  cases v with
  | scalar =>
    refine .throw (h.imp fun _ hv => ?_)
    rcases htype with htype | htype
    · obtain ⟨⟨⟩⟩ | ⟨_, _, _, ⟨⟩, -⟩ := hv.eq_null_or_ref htype
    · obtain ⟨_, _, _, _, ⟨⟩, -⟩ := hv.eq_ref htype
  | null =>
    rw [release]
    split
    · exact .throw (h.imp fun _ _ => trivial)
    · rename_i hpair
      refine .throw (h.imp fun _ hv => ?_)
      obtain ⟨_, _, _, _, ⟨⟩, -⟩ := hv.eq_ref (htype.resolve_left hpair)
  | ref address =>
    refine (fetch_ref_safe h).bind fun obj s' h' => ?_
    split
    · exact update_safe (h'.imp fun hok hP => replaces_freed hok hP.1)
    · rename_i hkind
      refine .throw (h'.imp fun _ hP => hkind ?_)
      rcases htype with htype | htype
      · obtain ⟨⟨⟩⟩ | ⟨_, _, _, ⟨⟩, hpair⟩ := hP.2.eq_null_or_ref htype
        cases hP.1.symm.trans hpair
        exact htype.symm
      · obtain ⟨_, _, _, _, ⟨⟩, harray⟩ := hP.2.eq_ref htype
        cases hP.1.symm.trans harray
        cases type <;> first | rfl | cases htype

/-- Operators on numbers. -/
theorem applyUnary_safe {op : UnaryOp} (hop : op ≠ .len) (h : Given s fun s => Conforms s v type)
    (htype : Scalar.isScalar type) {result : Ty} (hresult : Scalar.isScalar result) :
    Safe ret (applyUnary op v) s fun v s => Conforms s v result := by
  have hstuck (n : Int) : Scalar.evalUnary op n ≠ .error .stuck := by
    cases op with
    | len => exact absurd rfl hop
    | negate =>
      rw [Scalar.evalUnary, Scalar.checked]
      split <;> simp
    | not | ord | chr => simp [Scalar.evalUnary]
  have happly : applyUnary op v = number v >>= fun n => computed (Scalar.evalUnary op n) := by
    cases op with
    | len => exact absurd rfl hop
    | not | negate | ord | chr => rfl
  rw [happly]
  exact (number_safe h htype).bind fun n s' h' => computed_safe (hstuck n) h' hresult

/-- An array has a length. -/
theorem length_safe (h : Given s fun s => Conforms s v type) (htype : type.isArray) :
    Safe ret (applyUnary .len v) s fun v s => Conforms s v .int :=
  (openArray_safe (h.imp fun _ h => ⟨htype, h⟩)).bind fun _ _ h' =>
    .pure (h'.imp fun _ _ => conforms_scalar _ _ rfl)

/-- All values can be compared. -/
theorem compare_safe {op : BinaryOp} (hop : op.kind = .equality) {l r : Value}
    (h : Given s fun _ => True) :
    Safe ret (applyBinary op l r) s fun v s => Conforms s v .bool := by
  cases op <;> cases hop <;> exact .pure (h.imp fun _ _ => conforms_scalar _ _ rfl)

/-- Operators take and give scalars. -/
theorem applyBinary_safe {op : BinaryOp} (hop : op.kind ≠ .equality) {l r : Value} {left right : Ty}
    (h : Given s fun s => Conforms s l left ∧ Conforms s r right)
    (hleft : Scalar.isScalar left) (hright : Scalar.isScalar right) (htype : Scalar.isScalar type) :
    Safe ret (applyBinary op l r) s fun v s => Conforms s v type := by
  have hstuck (n m : Int) : Scalar.evalBinary op n m ≠ .error .stuck := by
    cases op <;> simp only [Scalar.evalBinary, Scalar.checked] <;> (try split) <;> simp
  have happly : applyBinary op l r =
      number l >>= fun n => number r >>= fun m => computed (Scalar.evalBinary op n m) := by
    cases op with
    | eq | ne => exact absurd rfl hop
    | mul | div | rem | add | sub | gt | ge | lt | le | and | or => rfl
  rw [happly]
  have hr : Given s fun s => Conforms s r right := h.imp fun _ h => h.2
  refine ((number_safe (h.imp fun _ h => h.1) hleft).frame hr (stable_conforms r right)).bind
    fun n s₁ h₁ => ?_
  exact (number_safe (h₁.imp fun _ h => h.2) hright).bind fun m s₂ h₂ =>
    computed_safe (hstuck n m) h₂ htype

end WaccArm.References
