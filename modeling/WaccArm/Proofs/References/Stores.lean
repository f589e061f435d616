import WaccArm.Proofs.References.Shapes

namespace WaccArm.References

open Typing (Scopes)

namespace Observation

/-- The value of an expression is of the kind that its type says: null or a pair, an array with elements of
the width of the type, or no reference. -/
def Sound : Observation → Prop
  | evaluated type _ shape _ => shape.Suits type
  | passed .. => True

/-- Where in the heap the value was read. -/
def origin? : Observation → Option Origin
  | evaluated _ _ _ origin => origin
  | passed .. => none

/-- A reference to the object goes from one type to another that gives the part another type. This can
happen when the reference is put somewhere, and when it is read with another type than it was put there. -/
def Recasts (detail : Detail) (address : Nat) (part : Part) : Observation → Prop
  | evaluated type value _ origin => value = .ref address ∧
    ∃ source, origin = some source ∧ ¬ AlikeParts detail source.type type part
  | passed found wanted value => value = .ref address ∧ ¬ AlikeParts detail found wanted part

/-- A value was read where it had been put with a type that it suits. -/
def Misreads (origin : Origin) : Observation → Prop
  | evaluated _ _ shape source => source = some origin ∧ shape.Suits origin.type
  | passed .. => False

/-- The value was put somewhere, and the part has a type that is not known in full on the way. -/
def LeftOpen (part : Part) : Observation → Prop
  | evaluated .. => False
  | passed found wanted _ =>
    ∃ t, (partType? found part = some t ∨ partType? wanted part = some t) ∧ ¬ t.Resolved

end Observation

/-- A reference to the object has been given a type with another type for the part. -/
def Recast (log : List Observation) (detail : Detail) (address : Nat) (part : Part) : Prop :=
  ∃ o ∈ log, o.Recasts detail address part

/-- What was recast stays so. -/
theorem Recast.mono {log log' : List Observation} {detail : Detail} {address : Nat} {part : Part}
    (h : Recast log detail address part) (hsub : log ⊆ log') : Recast log' detail address part := by
  obtain ⟨o, ho, hrecasts⟩ := h
  exact ⟨o, hsub ho, hrecasts⟩

/-- The values in a part of an object. -/
def Obj.kept : Obj → Part → List Kept
  | pair _ sides, .side which => [sides which]
  | array _ _ elems, .elements => elems
  | _, _ => []

@[simp] theorem Obj.kept_freed (obj : Obj) (part : Part) : obj.freed.kept part = obj.kept part := by
  cases obj <;> cases part <;> rfl

@[simp] theorem Obj.shape_freed (obj : Obj) : obj.freed.shape = obj.shape := by cases obj <;> rfl

namespace Heap

variable {heap : Heap} {address : Nat} {obj : Obj}

def keptAt (heap : Heap) (address : Nat) (part : Part) : List Kept :=
  (heap[address]?).elim [] fun obj => obj.kept part

theorem shapeAt_of_some (h : heap[address]? = some obj) : heap.shapeAt address = obj.shape := by
  rw [shapeAt, h, Option.elim_some]

theorem keptAt_of_some (h : heap[address]? = some obj) : heap.keptAt address = obj.kept := by
  funext part
  rw [keptAt, h, Option.elim_some]

/-- There is an object where something has a shape. -/
theorem exists_of_shapeAt (h : heap.shapeAt address ≠ .nothing) :
    ∃ obj, heap[address]? = some obj ∧ obj.shape = heap.shapeAt address := by
  cases hobj : heap[address]? with
  | none => exact absurd (by rw [shapeAt, hobj, Option.elim_none]) h
  | some obj => exact ⟨obj, rfl, (shapeAt_of_some hobj).symm⟩

theorem getElem?_append_of_shapeAt (h : heap.shapeAt address ≠ .nothing) (obj : Obj) :
    (heap ++ [obj])[address]? = heap[address]? := by
  obtain ⟨old, hold, -⟩ := exists_of_shapeAt h
  exact List.getElem?_append_left (List.getElem?_eq_some_iff.1 hold).1

end Heap

namespace Store

/-- The store `t` comes later in a run: its log is longer, and every object is still there, of the same kind
and size. Parts that were not recast keep the types of their values. -/
structure Later (s t : Store) : Prop where
  log : s.log <:+ t.log
  shape : ∀ address, s.heap.shapeAt address ≠ .nothing →
    t.heap.shapeAt address = s.heap.shapeAt address
  kept : ∀ detail address part, s.heap.shapeAt address ≠ .nothing → ¬ Recast t.log detail address part →
    ∀ x ∈ t.heap.keptAt address part, ∃ y ∈ s.heap.keptAt address part, Alike detail x.type y.type

variable {s t u : Store} {address : Nat} {part : Part} {type : Ty}

/-- Nothing but the log has changed. -/
theorem Later.of_log (hheap : t.heap = s.heap) (hlog : s.log <:+ t.log) : s.Later t where
  log := hlog
  shape _ _ := by rw [hheap]
  kept _ _ _ _ _ x hx := ⟨x, by rwa [← hheap], .refl _ _⟩

theorem Later.refl (s : Store) : s.Later s := .of_log rfl (List.suffix_refl _)

/-- Later than later is later. -/
theorem Later.trans (h : s.Later t) (h' : t.Later u) : s.Later u where
  log := h.log.trans h'.log
  shape address hne := by
    rw [h'.shape address (h.shape address hne ▸ hne), h.shape address hne]
  kept detail address part hne hrecast x hx := by
    obtain ⟨y, hy, hxy⟩ := h'.kept detail address part (h.shape address hne ▸ hne) hrecast x hx
    obtain ⟨z, hz, hyz⟩ := h.kept detail address part hne (fun hr => hrecast (hr.mono h'.log.subset)) y hy
    exact ⟨z, hz, hxy.trans hyz⟩

/-- The values in the part have been put there with the given type, unless the part was recast. -/
def Agrees (s : Store) (address : Nat) (part : Part) (type : Ty) : Prop :=
  ∀ detail, ¬ Recast s.log detail address part →
    ∀ x ∈ s.heap.keptAt address part, Alike detail x.type type

/-- Objects go on to agree with a type. -/
theorem Agrees.mono (h : s.Agrees address part type) (hne : s.heap.shapeAt address ≠ .nothing)
    (hlater : s.Later t) : t.Agrees address part type := by
  intro detail hrecast x hx
  obtain ⟨y, hy, hxy⟩ := hlater.kept detail address part hne hrecast x hx
  exact hxy.trans (h detail (fun hr => hrecast (hr.mono hlater.log.subset)) y hy)

end Store

/-- The value has the type: it is of the kind that the type says, and the parts of what it refers to have
the types that they have in the type, unless they were recast. -/
structure Conforms (s : Store) (v : Value) (type : Ty) : Prop where
  suits : (s.heap.shape v).Suits type
  agrees : ∀ address, v = .ref address → ∀ detail part, ¬ Recast s.log detail address part →
    ∀ x ∈ s.heap.keptAt address part, ∃ known, partType? type part = some known ∧ Alike detail x.type known

section

variable {s t : Store} {v : Value} {type : Ty} {address : Nat}

/-- A number or the null reference has no parts. -/
theorem Conforms.of_suits (hsuits : (s.heap.shape v).Suits type) (hv : ∀ address, v ≠ .ref address) :
    Conforms s v type :=
  ⟨hsuits, fun address h => absurd h (hv address)⟩

/-- A value of one type has another if that says the same of its parts, unless these were recast. -/
theorem Conforms.of_parts {a b : Ty} (h : Conforms s v a) (hsuits : (s.heap.shape v).Suits b)
    (hparts : ∀ address, v = .ref address → ∀ detail part, ¬ Recast s.log detail address part →
      AlikeParts detail a b part) : Conforms s v b := by
  refine ⟨hsuits, fun address hv detail part hrecast x hx => ?_⟩
  obtain ⟨known, hknown, halike⟩ := h.agrees address hv detail part hrecast x hx
  obtain ⟨known', hknown', halike'⟩ := (hparts address hv detail part hrecast).exists_alike hknown
  exact ⟨known', hknown', halike.trans halike'⟩

/-- It does not matter how strings are spelled. -/
theorem Conforms.congr {a b : Ty} (h : Conforms s v a) (heq : a.expand = b.expand) : Conforms s v b :=
  h.of_parts (h.suits.congr heq) fun _ _ detail part _ => .of_expand heq detail part

/-- A reference that conforms leads to an object. -/
theorem Conforms.shapeAt_ne_nothing (h : Conforms s (.ref address) type) :
    s.heap.shapeAt address ≠ .nothing := by
  intro hnothing
  have hsuits := h.suits
  rw [Heap.shape, hnothing] at hsuits
  exact hsuits

/-- A value keeps its type as the run goes on. -/
theorem Conforms.mono (h : Conforms s v type) (hlater : s.Later t) : Conforms t v type := by
  cases v with
  | scalar n => exact .of_suits h.suits (by simp)
  | null => exact .of_suits h.suits (by simp)
  | ref address =>
    have hne := h.shapeAt_ne_nothing
    constructor
    · rw [Heap.shape, hlater.shape address hne]
      exact h.suits
    · rintro _ ⟨rfl⟩ detail part hrecast x hx
      obtain ⟨y, hy, hxy⟩ := hlater.kept detail address part hne hrecast x hx
      have hrecast' : ¬ Recast s.log detail address part := fun hr => hrecast (hr.mono hlater.log.subset)
      obtain ⟨known, hknown, halike⟩ := h.agrees address rfl detail part hrecast' y hy
      exact ⟨known, hknown, hxy.trans halike⟩

/-- What is in a part of an object has the type that the part has for the one who looks. -/
theorem Conforms.part (h : Conforms s (.ref address) type) (part : Part) {known : Ty}
    (hpart : partType? type part = some known) : s.Agrees address part known := by
  intro detail hrecast x hx
  obtain ⟨_, hknown, halike⟩ := h.agrees address rfl detail part hrecast x hx
  cases hpart.symm.trans hknown
  exact halike

theorem Conforms.eq_scalar (h : Conforms s v type) (htype : Scalar.isScalar type) :
    ∃ n, v = .scalar n := by
  have hshape := h.suits.eq_scalar htype
  cases v with
  | scalar n => exact ⟨n, rfl⟩
  | null => cases hshape
  | ref address =>
    obtain ⟨obj, -, hobj⟩ := Heap.exists_of_shapeAt h.shapeAt_ne_nothing
    cases obj <;> cases hobj.trans hshape

/-- A value of a pair type is null or refers to a pair. -/
theorem Conforms.eq_null_or_ref (h : Conforms s v type) (htype : type.isPair) :
    v = .null ∨ ∃ address live sides, v = .ref address ∧
      s.heap[address]? = some (.pair live sides) := by
  have hshape := h.suits.eq_null_or_pair htype
  cases v with
  | scalar => rcases hshape with hshape | hshape <;> cases hshape
  | null => exact .inl rfl
  | ref address =>
    obtain ⟨obj, hobj, hobjShape⟩ := Heap.exists_of_shapeAt h.shapeAt_ne_nothing
    cases obj with
    | pair live sides => exact .inr ⟨address, live, sides, rfl, hobj⟩
    | array => rcases hshape with hshape | hshape <;> cases hobjShape.trans hshape

/-- A value of an array type refers to an array. -/
theorem Conforms.eq_ref (h : Conforms s v type) (htype : type.isArray) :
    ∃ address live width elems, v = .ref address ∧ s.heap[address]? = some (.array live width elems) := by
  obtain ⟨width, length, hshape⟩ := h.suits.eq_array htype
  cases v with
  | scalar | null => cases hshape
  | ref address =>
    obtain ⟨obj, hobj, hobjShape⟩ := Heap.exists_of_shapeAt h.shapeAt_ne_nothing
    cases obj with
    | pair => cases hobjShape.trans hshape
    | array live width elems => exact ⟨address, live, width, elems, rfl, hobj⟩

end

/-- Every value has the type with which it was put where it is. -/
structure Store.Ok (s : Store) : Prop where
  heap : ∀ obj ∈ s.heap, ∀ part, ∀ x ∈ obj.kept part, Conforms s x.value x.type
  constants : ∀ x ∈ s.constants, Conforms s (.ref x.2) .str

/-- Variables have values of their types. -/
def EnvOk (s : Store) (env : Env) (Γ : Scopes) : Prop :=
  List.Forall₂ (fun x y => x.1 = y.1 ∧ x.2.1 = y.2 ∧ Conforms s x.2.2 y.2) env Γ.flatten

section

variable {s t : Store} {env : Env} {Γ : Scopes} {name : String} {type : Ty}

/-- What is kept in an object conforms to the type that it is kept with. -/
theorem Store.Ok.get (h : s.Ok) {address : Nat} {obj : Obj} (hobj : s.heap[address]? = some obj)
    (part : Part) {x : Kept} (hx : x ∈ obj.kept part) : Conforms s x.value x.type :=
  h.heap obj (List.mem_of_getElem? hobj) part x hx

/-- Variables go on to conform to their types. -/
theorem EnvOk.mono (h : EnvOk s env Γ) (hlater : s.Later t) : EnvOk t env Γ :=
  List.Forall₂.imp (fun _ _ hxy => ⟨hxy.1, hxy.2.1, hxy.2.2.mono hlater⟩) h

/-- A variable has a value of its type. -/
theorem EnvOk.lookup (h : EnvOk s env Γ) (hname : Γ.find? name = some type) :
    ∃ v, env.lookup name = some (type, v) ∧ Conforms s v type := by
  rw [Γ.find?_eq_lookup] at hname
  rw [EnvOk] at h
  generalize Γ.flatten = vars at h hname
  induction h with
  | nil => cases hname
  | @cons x y _ _ hxy _ ih =>
    obtain ⟨x, t, v⟩ := x
    obtain ⟨y, t'⟩ := y
    obtain ⟨rfl, rfl, hv⟩ := hxy
    rw [List.lookup_cons] at hname ⊢
    cases hx : name == x with
    | true =>
      rw [hx] at hname
      cases hname
      exact ⟨v, rfl, hv⟩
    | false =>
      rw [hx] at hname
      exact ih hname

/-- A variable can be given a value of its type. -/
theorem EnvOk.set? (h : EnvOk s env Γ) (hname : Γ.find? name = some type) {v : Value}
    (hv : Conforms s v type) : ∃ env', env.set? name v = some env' ∧ EnvOk s env' Γ := by
  rw [Γ.find?_eq_lookup] at hname
  rw [EnvOk] at h
  simp only [EnvOk]
  generalize Γ.flatten = vars at h hname ⊢
  induction h with
  | nil => cases hname
  | @cons x y env _ hxy hrest ih =>
    obtain ⟨x, t, w⟩ := x
    obtain ⟨y, t'⟩ := y
    obtain ⟨rfl, rfl, hw⟩ := hxy
    rw [List.lookup_cons] at hname
    rw [Env.set?]
    split at hname
    · rename_i heq
      cases hname
      rw [if_pos (eq_of_beq heq).symm]
      exact ⟨_, rfl, .cons ⟨rfl, rfl, hv⟩ hrest⟩
    · rename_i hne
      obtain ⟨env', henv', hok⟩ := ih hname
      rw [if_neg fun heq => by simp [heq] at hne, henv']
      exact ⟨_, rfl, .cons ⟨rfl, rfl, hw⟩ hok⟩

/-- What is put into the place has to have this type. -/
def PlaceOk (s : Store) (Γ : Scopes) (type : Ty) : Place → Prop
  | .var name => ∃ known, Γ.find? name = some known ∧ known.expand = type.expand
  | .elem address index => ∃ width length, s.heap.shapeAt address = .array width length ∧
    index < length ∧ s.Agrees address .elements type
  | .side address which => s.heap.shapeAt address = .pair ∧ s.Agrees address (.side which) type

theorem PlaceOk.elem_ne_nothing {address index : Nat} (h : PlaceOk s Γ type (.elem address index)) :
    s.heap.shapeAt address ≠ .nothing := by
  obtain ⟨width, length, hshape, -⟩ := h
  exact hshape ▸ Shape.noConfusion

theorem PlaceOk.side_ne_nothing {address : Nat} {which : Side}
    (h : PlaceOk s Γ type (.side address which)) : s.heap.shapeAt address ≠ .nothing :=
  h.1 ▸ Shape.noConfusion

/-- The place of an element is inside an array. -/
theorem PlaceOk.elem_object {address index : Nat} {obj : Obj}
    (h : PlaceOk s Γ type (.elem address index)) (hobj : s.heap[address]? = some obj) :
    ∃ live width elems, obj = .array live width elems ∧ index < elems.length ∧
      ∀ detail, ¬ Recast s.log detail address .elements → ∀ x ∈ elems, Alike detail x.type type := by
  obtain ⟨width, length, hshape, hindex, hagrees⟩ := h
  rw [Heap.shapeAt_of_some hobj] at hshape
  rw [Store.Agrees, Heap.keptAt_of_some hobj] at hagrees
  cases obj with
  | pair => cases hshape
  | array live =>
    cases hshape
    exact ⟨live, _, _, rfl, hindex, hagrees⟩

/-- The place of a side is inside a pair. -/
theorem PlaceOk.side_object {address : Nat} {which : Side} {obj : Obj}
    (h : PlaceOk s Γ type (.side address which)) (hobj : s.heap[address]? = some obj) :
    ∃ live sides, obj = .pair live sides ∧ ∀ detail, ¬ Recast s.log detail address (.side which) →
      Alike detail (sides which).type type := by
  obtain ⟨hshape, hagrees⟩ := h
  rw [Heap.shapeAt_of_some hobj] at hshape
  rw [Store.Agrees, Heap.keptAt_of_some hobj] at hagrees
  cases obj with
  | array => cases hshape
  | pair live sides => exact ⟨live, sides, rfl, fun detail h => hagrees detail h _ List.mem_cons_self⟩

/-- A place stays in order. -/
theorem PlaceOk.mono {place : Place} (h : PlaceOk s Γ type place) (hlater : s.Later t) :
    PlaceOk t Γ type place := by
  cases place with
  | var => exact h
  | elem address index =>
    have hne := h.elem_ne_nothing
    obtain ⟨width, length, hshape, hindex, hagrees⟩ := h
    exact ⟨width, length, (hlater.shape address hne).trans hshape, hindex, hagrees.mono hne hlater⟩
  | side address which =>
    have hne := h.side_ne_nothing
    exact ⟨(hlater.shape address hne).trans h.1, h.2.mono hne hlater⟩

theorem PlaceOk.congr {a b : Ty} {place : Place} (h : PlaceOk s Γ a place) (heq : a.expand = b.expand) :
    PlaceOk s Γ b place := by
  have hagrees {address : Nat} {part : Part} (hs : s.Agrees address part a) : s.Agrees address part b :=
    fun detail hrecast x hx => (hs detail hrecast x hx).trans (.of_expand heq detail)
  cases place with
  | var =>
    obtain ⟨known, hname, hknown⟩ := h
    exact ⟨known, hname, hknown.trans heq⟩
  | elem =>
    obtain ⟨width, length, hshape, hindex, helems⟩ := h
    exact ⟨width, length, hshape, hindex, hagrees helems⟩
  | side => exact ⟨h.1, hagrees h.2⟩

end

end WaccArm.References
