import WaccArm.Assembly.Routine
import WaccArm.Log

namespace WaccArm

/-- What can be wrong with a checked program when code is made for it. -/
inductive EmitFault where
  | unbound (name : String)
  | unresolved (labels : List String)
deriving DecidableEq, Repr

def EmitFault.message : EmitFault → String
  | unbound name => "no stack slot for \"" ++ name ++ "\""
  | unresolved labels => "undefined labels in output: " ++ String.intercalate ", " labels

/-- A file in the making, the routines asked for so far, and the log with the newest event first. -/
structure Emitter where
  file : Assembly := {}
  routines : List Routine := []
  log : List Event := []
deriving DecidableEq, Repr

namespace Emitter

/-- Takes note of an event. -/
def record (s : Emitter) (event : Event) : Emitter := { s with log := event :: s.log }

/-- The label of a text, which becomes a constant. A text that is new is taken note of. -/
def intern (s : Emitter) (text : String) : String × Emitter :=
  let (label, file) := s.file.intern text
  if text ∈ s.file.constants.texts then (label, s)
  else (label, { s with file }.record (.interned label text))

/-- A label that was not given out before. -/
def fresh (s : Emitter) : String × Emitter :=
  let (label, file) := s.file.fresh
  (label, { s with file })

/-- Asks for a routine and for all that it leads to. Those that are new are taken note of. -/
def require (s : Emitter) (r : Routine) : Emitter :=
  let routines := r.require s.routines
  (routines.drop s.routines.length).foldl (fun s r => s.record (.requested r.label))
    { s with routines }

/-- Adds lines at the end of the file. -/
def extend (s : Emitter) (code : Code) : Emitter := { s with file := s.file.extend code }

/-- Adds a routine at the end of the file. Its texts become constants. -/
def emitRoutine (s : Emitter) (r : Routine) : Emitter :=
  let s := r.texts.foldl (fun s text => (s.intern text).2) s
  s.extend (r.code fun text => (s.file.intern text).1)

/-- Adds all the routines that were asked for. -/
def emitRoutines (s : Emitter) : Emitter := s.routines.foldl emitRoutine s

end Emitter

/-- Making code, which may fail. -/
abbrev Emit := StateT Emitter (Except EmitFault)

namespace Emit

def fail {α : Type} (fault : EmitFault) : Emit α := fun _ => .error fault

def record (event : Event) : Emit Unit := modify (·.record event)

/-- The label of a text, which becomes a constant. -/
def intern (text : String) : Emit String := modifyGet (·.intern text)

/-- A label that was not given out before. -/
def fresh : Emit String := modifyGet (·.fresh)

/-- The instruction that calls a routine, which is asked for. -/
def call (r : Routine) : Emit Instr := modifyGet fun s => (.bl r.label, s.require r)

end Emit

end WaccArm
