import WaccArm.Emission.Expr
import WaccArm.Proofs.Scalar.Eval
import WaccArm.Types.Compatible

namespace WaccArm.References

inductive Value where
  | scalar (n : Int)
  | null
  | ref (address : Nat)
deriving DecidableEq, Repr

/-- What an object is made of: a pair of two sides, and an array of its elements. -/
inductive Part where
  | side (which : Side)
  | elements
deriving DecidableEq, Repr

/-- The type of a part of an object of the given type. -/
def partType? (type : Ty) : Part → Option Ty
  | .side which => type.side? which
  | .elements => type.index? 1

/-- A value in an object, with the type that the part had for the one who put it there. -/
structure Kept where
  type : Ty
  value : Value

/-- A pair cell or an array. An object that was freed is not live, and its address is not used again. -/
inductive Obj where
  | pair (live : Bool) (sides : Side → Kept)
  | array (live : Bool) (width : Nat) (elems : List Kept)

def Obj.live : Obj → Bool
  | pair live _ | array live _ _ => live

def Obj.isPair : Obj → Bool
  | pair .. => true
  | array .. => false

def Obj.freed : Obj → Obj
  | pair _ sides => pair false sides
  | array _ width elems => array false width elems

/-- What a value is, with what it refers to. -/
inductive Shape where
  | scalar
  | null
  | pair
  | array (width length : Nat)
  /-- An address that nothing was allocated at. -/
  | nothing
deriving DecidableEq, Repr

def Obj.shape : Obj → Shape
  | pair .. => .pair
  | array _ width elems => .array width elems.length

abbrev Heap := List Obj

namespace Heap

def shapeAt (heap : Heap) (address : Nat) : Shape := (heap[address]?).elim .nothing Obj.shape

def shape (heap : Heap) : Value → Shape
  | .scalar _ => .scalar
  | .null => .null
  | .ref address => heap.shapeAt address

end Heap

/-- Where in the heap a value was read, and the type with which it had been put there. -/
structure Origin where
  address : Nat
  part : Part
  type : Ty

inductive Observation where
  /-- An expression of the given type had a value, which may have been read from the heap. -/
  | evaluated (type : Ty) (value : Value) (shape : Shape) (origin : Option Origin)
  /-- The value of an expression of type `found` was put where type `wanted` was asked for. -/
  | passed (found wanted : Ty) (value : Value)

/-- Why a run ends early. -/
inductive Stop where
  | outOfFuel
  | trapped (trap : Scalar.Trap)
  | nullReference
  | outOfBounds
  | dangling
  | exited (code : Int)
  | returned (v : Value)
  /-- Control reached the end of a function, which has no value to give. -/
  | fellOff
  /-- A number was used as a reference, a reference as a number, a pair as an array, an array as a pair,
  or a name that means nothing. -/
  | wrong
deriving DecidableEq, Repr

structure Store where
  heap : Heap := []
  /-- The addresses of string literals: equal ones share an array. -/
  constants : List (String × Nat) := []
  input : List Int := []
  /-- The newest observation is first. -/
  log : List Observation := []

abbrev Run := ExceptT Stop (StateM Store)

/-- Local variables with their types, the newest first. -/
abbrev Env := List (String × Ty × Value)

/-- The variables after an assignment to one that exists. -/
def Env.set? (name : String) (v : Value) : Env → Option Env
  | [] => none
  | (x, type, w) :: env =>
    if x = name then some ((x, type, v) :: env) else (set? name v env).map ((x, type, w) :: ·)

inductive Place where
  | var (name : String)
  | elem (address index : Nat)
  | side (address : Nat) (which : Side)

def tell (o : Observation) : Run Unit := modify fun s => { s with log := o :: s.log }

/-- Keeps in the log that an expression of the given type has this value. -/
def seen (type : Ty) (v : Value) (origin : Option Origin := none) : Run Value := do
  tell (.evaluated type v ((← get).heap.shape v) origin)
  return v

/-- Keeps in the log that a value goes from one type to another. -/
def pass (found wanted : Ty) (v : Value) : Run Unit := tell (.passed found wanted v)

/-- A value of type `found` on its way into a part of an object of the given type. -/
def keep (type : Ty) (part : Part) (found : Ty) (v : Value) : Run Kept := do
  match partType? type part with
  | some wanted =>
    pass found wanted v
    return ⟨wanted, v⟩
  | none => throw .wrong

/-- Puts a new object on the heap and gives its address. -/
def allocate (obj : Obj) : Run Nat := do
  let s ← get
  modify fun s => { s with heap := s.heap ++ [obj] }
  return s.heap.length

/-- The object at an address. -/
def fetch (address : Nat) : Run Obj := do
  match (← get).heap[address]? with
  | none => throw .wrong
  | some obj => if obj.live then return obj else throw .dangling

def update (address : Nat) (obj : Obj) : Run Unit :=
  modify fun s => { s with heap := s.heap.set address obj }

def number : Value → Run Int
  | .scalar n => return n
  | _ => throw .wrong

def computed : Except Scalar.Trap Int → Run Value
  | .ok n => return .scalar n
  | .error .stuck => throw .wrong
  | .error trap => throw (.trapped trap)

/-- The array of a string literal. -/
def literal (text : String) : Run Value := do
  match (← get).constants.lookup text with
  | some address => return .ref address
  | none =>
    let address ← allocate (.array true 1 (text.toList.map fun c => ⟨.char, .scalar c.toNat⟩))
    modify fun s => { s with constants := (text, address) :: s.constants }
    return .ref address

/-- The address and the length of the array that a value refers to. -/
def openArray : Value → Run (Nat × Nat)
  | .ref address => do
    match ← fetch address with
    | .array _ _ elems => return (address, elems.length)
    | .pair .. => throw .wrong
  | _ => throw .wrong

/-- A side of the pair that a value refers to. -/
def openSide (which : Side) : Value → Run Place
  | .ref address => do
    match ← fetch address with
    | .pair .. => return .side address which
    | .array .. => throw .wrong
  | .null => throw .nullReference
  | .scalar _ => throw .wrong

/-- The type of a variable. -/
def typeOf (env : Env) (name : String) : Run Ty :=
  match env.lookup name with
  | some (type, _) => return type
  | none => throw .wrong

/-- The value in a place, and where in the heap that is. -/
def load (env : Env) : Place → Run (Value × Option Origin)
  | .var name =>
    match env.lookup name with
    | some (_, v) => return (v, none)
    | none => throw .wrong
  | .elem address index => do
    match ← fetch address with
    | .array _ _ elems =>
      match elems[index]? with
      | some x => return (x.value, some ⟨address, .elements, x.type⟩)
      | none => throw .wrong
    | .pair .. => throw .wrong
  | .side address which => do
    match ← fetch address with
    | .pair _ sides => return ((sides which).value, some ⟨address, .side which, (sides which).type⟩)
    | .array .. => throw .wrong

/-- Puts a value of the given type into a place, and gives the variables after that. -/
def store (env : Env) (type : Ty) (v : Value) : Place → Run Env
  | .var name =>
    match env.set? name v with
    | some env => return env
    | none => throw .wrong
  | .elem address index => do
    match ← fetch address with
    | .array live width elems =>
      update address (.array live width (elems.set index ⟨type, v⟩))
      return env
    | .pair .. => throw .wrong
  | .side address which => do
    match ← fetch address with
    | .pair live sides =>
      update address (.pair live fun side => if side = which then ⟨type, v⟩ else sides side)
      return env
    | .array .. => throw .wrong

/-- Frees what a value of the given type refers to. -/
def release (type : Ty) : Value → Run Unit
  | .ref address => do
    let obj ← fetch address
    if obj.isPair = type.isPair then update address obj.freed else throw .wrong
  | .null => if type.isPair then throw .nullReference else throw .wrong
  | .scalar _ => throw .wrong

def applyUnary (op : UnaryOp) (v : Value) : Run Value :=
  match op with
  | .len => do
    let (_, length) ← openArray v
    return .scalar length
  | op => do computed (Scalar.evalUnary op (← number v))

def applyBinary (op : BinaryOp) (l r : Value) : Run Value :=
  match op with
  | .eq => return .scalar (l == r).toInt
  | .ne => return .scalar (l != r).toInt
  | op => do computed (Scalar.evalBinary op (← number l) (← number r))

/-- What a call does: it takes a label and arguments with their types. -/
abbrev Callees := String → List (Ty × Value) → Run Value

mutual

def eval (call : Callees) (env : Env) : Checked.Expr → Run Value
  | .int type value => seen type (.scalar value.toInt)
  | .bool type value => seen type (.scalar value.toInt)
  | .char type value => seen type (.scalar value.toNat)
  | .str type value => do seen type (← literal value)
  | .null type => seen type .null
  | .var type name => do
    let (v, origin) ← load env (.var name)
    seen type v origin
  | .elem type name indices => do
    let declared ← typeOf env name
    let place ← follow call env indices declared (.var name)
    let (v, origin) ← load env place
    seen type v origin
  | .side type which pair => do
    let v ← eval call env pair
    let place ← openSide which v
    let (v, origin) ← load env place
    seen type v origin
  | .unary type op operand => do
    let v ← eval call env operand
    seen type (← applyUnary op v)
  | .binary type op left right => do
    let l ← eval call env left
    let r ← eval call env right
    seen type (← applyBinary op l r)
  | .call type label args => do
    let values ← evalArgs call env args
    seen type (← call label values)
  | .newPair type fst snd => do
    let f ← eval call env fst
    let s ← eval call env snd
    let f ← keep type (.side .fst) fst.note f
    let s ← keep type (.side .snd) snd.note s
    let address ← allocate (.pair true fun
      | .fst => f
      | .snd => s)
    seen type (.ref address)
  | .array type elems => do
    let kept ← evalElems call env type elems
    let address ← allocate (.array true (Emission.elemSize elems) kept)
    seen type (.ref address)

/-- Follows indices from a place that holds an array of the given type. The array is read after its index
is known. -/
def follow (call : Callees) (env : Env) : List Checked.Expr → Ty → Place → Run Place
  | [], _, place => return place
  | index :: indices, type, place => do
    let i ← number (← eval call env index)
    let (v, origin) ← load env place
    let (address, length) ← openArray (← seen type v origin)
    match type.index? 1 with
    | some elem =>
      if 0 ≤ i ∧ i < length then follow call env indices elem (.elem address i.toNat)
      else throw .outOfBounds
    | none => throw .wrong

/-- Evaluates arguments, the last one first. -/
def evalArgs (call : Callees) (env : Env) : List Checked.Expr → Run (List (Ty × Value))
  | [] => return []
  | arg :: args => do
    let others ← evalArgs call env args
    let v ← eval call env arg
    return (arg.note, v) :: others

/-- Evaluates the elements of an array of the given type. -/
def evalElems (call : Callees) (env : Env) (type : Ty) : List Checked.Expr → Run (List Kept)
  | [] => return []
  | elem :: elems => do
    let v ← eval call env elem
    let x ← keep type .elements elem.note v
    let others ← evalElems call env type elems
    return x :: others

end

/-- The place that an expression names. What is no place is evaluated. -/
def locate (call : Callees) (env : Env) : Checked.Expr → Run (Option Place)
  | .var _ name => return some (.var name)
  | .elem _ name indices => do
    let declared ← typeOf env name
    return some (← follow call env indices declared (.var name))
  | .side _ which pair => do
    let v ← eval call env pair
    return some (← openSide which v)
  | other => do
    let _ ← eval call env other
    return none

/-- Takes a number from the input. -/
def input : Run (Option Int) := do
  let s ← get
  modify fun s => { s with input := s.input.tail }
  return s.input.head?

/-- Runs a body in a scope of its own: variables that it declares are gone after it. -/
def block (env : Env) (body : Run Env) : Run Env := do
  let inner ← body
  return inner.drop (inner.length - env.length)

/-- Repeats a body as long as the test gives one, at most `n` times. -/
def iterate (test : Env → Run Int) (body : Env → Run Env) : Nat → Env → Run Env
  | 0, _ => throw .outOfFuel
  | n + 1, env => do
    if (← test env) = 1 then iterate test body n (← body env) else return env

mutual

/-- Executes a statement in a function with result type `ret`, or in the body of the program if there is
none, and gives the variables after it. A loop may take `n` rounds. -/
def exec (call : Callees) (n : Nat) (ret : Option Ty) : Checked.Stmt → Env → Run Env
  | .skip _, env => return env
  | .declare _ type name init, env => do
    let v ← eval call env init
    pass init.note type v
    return (name, type, v) :: env
  | .assign _ dst src, env => do
    let v ← eval call env src
    match ← locate call env dst with
    | some place =>
      pass src.note dst.note v
      store env dst.note v place
    | none => return env
  | .read _ target, env => do
    match ← locate call env target, ← input with
    | some place, some n => store env target.note (.scalar n) place
    | _, _ => return env
  | .free _ e, env => do
    let v ← eval call env e
    release e.note v
    return env
  | .ret _ e, env => do
    let v ← eval call env e
    match ret with
    | some type =>
      pass e.note type v
      throw (.returned v)
    | none => throw .wrong
  | .exit _ e, env => do
    let v ← eval call env e
    throw (.exited (← number v))
  | .print _ e _, env => do
    let v ← eval call env e
    if e.note.isString then
      let _ ← openArray v
    return env
  | .branch _ cond yes no, env => do
    let v ← eval call env cond
    if (← number v) = 0 then block env (exec call n ret no env)
    else block env (exec call n ret yes env)
  | .loop _ cond body, env =>
    iterate (fun env => do number (← eval call env cond))
      (fun env => block env (exec call n ret body env)) n env
  | .scope _ body, env => block env (exec call n ret body env)
  | .seq _ items, env => execAll call n ret items env

def execAll (call : Callees) (n : Nat) (ret : Option Ty) : List Checked.Stmt → Env → Run Env
  | [], env => return env
  | s :: ss, env => do execAll call n ret ss (← exec call n ret s env)

end

/-- The variables that a body starts with: its parameters, the last one first. -/
def enter : List Checked.Param → List (Ty × Value) → Env → Run Env
  | [], [], env => return env
  | param :: params, (type, v) :: args, env => do
    pass type param.type v
    enter params args ((param.name, param.type, v) :: env)
  | _, _, _ => throw .wrong

/-- The value that a body returns. -/
def result (body : Run Env) : Run Value := fun s =>
  match body s with
  | (.error (.returned v), s) => (.ok v, s)
  | (.error stop, s) => (.error stop, s)
  | (.ok _, s) => (.error .fellOff, s)

/-- Calls a function of the program by its label. Calls may be nested `n` deep. -/
def invoke (p : Checked.Program) : Nat → Callees
  | 0, _, _ => throw .outOfFuel
  | n + 1, label, args =>
    match p.funcs.find? fun f => f.label = label with
    | none => throw .wrong
    | some f => do
      let env ← enter f.params args []
      result (exec (invoke p n) n (some f.ret) f.body env)

/-- Runs a program on some input: how it ends, if not by its last statement, and the observations of the run
in the order in which they were made. More fuel carries the run further. -/
def run (p : Checked.Program) (fuel : Nat) (input : List Int) : Option Stop × List Observation :=
  match exec (invoke p fuel) fuel none p.body [] { input } with
  | (.ok _, s) => (none, s.log.reverse)
  | (.error stop, s) => (some stop, s.log.reverse)

end WaccArm.References
