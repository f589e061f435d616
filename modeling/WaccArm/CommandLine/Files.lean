namespace WaccArm

inductive FileError where
  | notFound
  | notDirectory
  | isDirectory
  | nameTooLong
  | zeroInName
  | other (message : String)
deriving DecidableEq, Repr

def FileError.message : FileError → String
  | notFound => "No such file or directory (os error 2)"
  | notDirectory => "Not a directory (os error 20)"
  | isDirectory => "Is a directory (os error 21)"
  | nameTooLong => "File name too long (os error 36)"
  | zeroInName => "file name contained an unexpected NUL byte"
  | other message => message

/-- Reading and writing whole files. -/
structure FileAccess (m : Type → Type) where
  read : String → m (Except FileError (List UInt8))
  write : String → List UInt8 → m (Except FileError Unit)

/-- The path with the extension of the file name, if it has one, replaced by `s`. A dot at the
front of the name does not start an extension. A name of which `..` is left without its extension
leads to a directory, and a directory takes none. -/
def assemblyPath (path : String) : String :=
  let reversed := path.toList.reverse
  let name := reversed.takeWhile (· != '/')
  let directory := reversed.dropWhile (· != '/')
  let target :=
    match name.dropWhile (· != '.') with
    | [] | [_] => 's' :: '.' :: name
    | ['.', '.'] => ['.', '.']
    | _ :: stem => 's' :: '.' :: stem
  String.ofList (target ++ directory).reverse

namespace Path

/-- The longest name, in bytes. -/
def maxName : Nat := 255

/-- The longest path, in bytes. -/
def maxLength : Nat := 4095

/-- The names in a path. -/
def names (path : String) : List String := (path.splitOn "/").filter (· != "")

/-- Whether a path asks for a directory. -/
def asksDirectory (path : String) : Bool := path.endsWith "/"

/-- Refuses what is no path at all. -/
def validate (path : String) : Except FileError Unit :=
  if path.contains '\x00' then .error .zeroInName
  else if path.isEmpty then .error .notFound
  else if path.utf8ByteSize > maxLength then .error .nameTooLong
  else .ok ()

end Path

/-- Files by the names on the way to them. -/
structure FileTree where
  files : List (List String × List UInt8) := []
deriving DecidableEq, Repr

namespace FileTree

/-- A directory: one of the tree, or one around it. -/
inductive Place where
  | inside (names : List String)
  | outside
deriving DecidableEq, Repr

/-- What a path leads to. -/
inductive Target where
  | file (names : List String) (content : List UInt8)
  | directory (place : Place)
  | missing (names : List String)
  /-- A name outside the tree, where there are only the directories around it. -/
  | foreign
deriving DecidableEq, Repr

/-- The directory around a directory. -/
def Place.parent : Place → Place
  | inside [] | outside => outside
  | inside names => inside names.dropLast

/-- Replaces a file or adds it. -/
def put (t : FileTree) (names : List String) (content : List UInt8) : FileTree :=
  if t.files.any fun entry => entry.1 == names then
    ⟨t.files.map fun entry => if entry.1 == names then (names, content) else entry⟩
  else ⟨t.files ++ [(names, content)]⟩

/-- The tree of the files at some paths. The last one at a path counts. -/
def ofFiles (files : List (String × List UInt8)) : FileTree :=
  files.foldl (fun t (path, content) => t.put ((Path.names path).filter (· != ".")) content) {}

/-- What is at the end of a list of names. -/
def contentAt (t : FileTree) (names : List String) : Target :=
  match t.files.find? fun entry => entry.1 == names with
  | some (names, content) => .file names content
  | none =>
    if t.files.any fun entry => names.isPrefixOf entry.1 then .directory (.inside names)
    else .missing names

/-- What a name leads to from the directory `here`. -/
def lookup (t : FileTree) (here : Place) (name : String) : Except FileError Target :=
  if name = "." then .ok (.directory here)
  else if name = ".." then .ok (.directory here.parent)
  else if name.utf8ByteSize > Path.maxName then .error .nameTooLong
  else
    match here with
    | .inside names => .ok (t.contentAt (names ++ [name]))
    | .outside => .ok .foreign

/-- Follows names from the directory `here`. All but the last have to be directories. -/
def follow (t : FileTree) (here : Place) : List String → Except FileError Target
  | [] => .ok (.directory here)
  | [name] => t.lookup here name
  | name :: names => do
    match ← t.lookup here name with
    | .directory place => t.follow place names
    | .file .. => throw .notDirectory
    | .missing _ | .foreign => throw .notFound

/-- The directory where a path starts. -/
def start (path : String) : Place := if path.startsWith "/" then .outside else .inside []

def read (t : FileTree) (path : String) : Except FileError (List UInt8) := do
  Path.validate path
  let names := Path.names path
  match ← t.follow (start path) (if Path.asksDirectory path then names ++ ["."] else names) with
  | .file _ content => return content
  | .directory _ => throw .isDirectory
  | .missing _ | .foreign => throw .notFound

/-- Replaces a file or adds it to its directory. The last name of a path that asks for a directory
is not looked at: no file is written there. What is written outside is not kept. -/
def write (t : FileTree) (path : String) (content : List UInt8) : Except FileError FileTree := do
  Path.validate path
  let names := Path.names path
  match ← t.follow (start path)
    (if Path.asksDirectory path then names.dropLast ++ ["."] else names) with
  | .file names _ | .missing names => return t.put names content
  | .directory _ => throw .isDirectory
  | .foreign => return t

/-- Access to a tree that is kept as state. -/
def access : FileAccess (StateM FileTree) where
  read path := do return (← get).read path
  write path content := do
    match (← get).write path content with
    | .ok t => do set t; return .ok ()
    | .error e => return .error e

end FileTree

end WaccArm
