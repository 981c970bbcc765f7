import Mathlib.Logic.Function.Basic

namespace Trieste
set_option autoImplicit true

/-- The elements of a path. Separators in a row are one, and one at the end is an empty last
name. -/
structure Path where
  absolute : Bool := false
  names : List (List Char) := []
  deriving DecidableEq

namespace Path

def parse (text : List Char) : Path :=
  let names := (text.splitOn '/').filter (· ≠ [])
  { absolute := text.head? = some '/'
    names := if names ≠ [] ∧ text.getLast? = some '/' then names ++ [[]] else names }

/-- The path without a separator at its end. -/
def base (p : Path) : Path :=
  if p.names.getLast? = some [] then { p with names := p.names.dropLast } else p

/-- `operator/` -/
def join (p q : Path) : Path :=
  if q.absolute then q
  else if q.names = [] then
    { p with names := if p.base.names = [] then [] else p.base.names ++ [[]] }
  else { p with names := p.base.names ++ q.names }

/-- `parent_path` -/
def parent (p : Path) : Path := { p with names := p.names.dropLast }

/-- `empty` -/
def isEmpty (p : Path) : Bool := !p.absolute && p.names.isEmpty

end Path

/-- The requests that a file system grants. -/
structure FileSystem where
  createDirectories : Path → Bool
  openFile : Path → Bool

inductive Mode
  | fileSystem
  | console
  | synthetic
  deriving DecidableEq

/-- A destination. What it has stored is in `files_`, or in the files of the file system. -/
structure DestinationDef where
  mode : Mode
  path : Path
  isOpen : Bool := false
  fstream : Option Path := none
  sstream : String := ""
  files : Path → Option String := fun _ => none

namespace DestinationDef

def dir (path : String) (disk : Path → Option String) : DestinationDef :=
  { mode := .fileSystem, path := .parse path.toList, files := disk }

def console : DestinationDef := { mode := .console, path := .parse ['.'] }

def synthetic : DestinationDef := { mode := .synthetic, path := .parse ['.'] }

def close (d : DestinationDef) : DestinationDef :=
  if d.isOpen then
    let d := match d.mode with
      | .fileSystem => { d with fstream := none }
      | .console => d
      | .synthetic =>
        if d.sstream = "" then d
        else { d with files := Function.update d.files d.path (some d.sstream), sstream := "" }
    { d with path := d.path.parent, isOpen := false }
  else d

/-- `open`, with whether it is open then or what was thrown. -/
def openAt (fs : FileSystem) (d : DestinationDef) (path : Path) :
    DestinationDef × Except String Bool :=
  let d := d.close
  let d := { d with path := d.path.join path }
  match d.mode with
  | .fileSystem =>
    if !d.path.parent.isEmpty && !fs.createDirectories d.path.parent then
      (d, .error "filesystem error: cannot create directories")
    else if fs.openFile d.path then
      ({ d with isOpen := true, fstream := some d.path,
                files := Function.update d.files d.path (some "") }, .ok true)
    else ({ d with isOpen := false }, .ok false)
  | .console | .synthetic => ({ d with isOpen := true }, .ok true)

/-- Writes a text to the stream. A stream of a file that is not open takes nothing. -/
def write (d : DestinationDef) (text : String) : DestinationDef :=
  match d.mode with
  | .fileSystem =>
    match d.fstream with
    | none => d
    | some path =>
      { d with files := Function.update d.files path (some ((d.files path).getD "" ++ text)) }
  | .console => d
  | .synthetic => { d with sstream := d.sstream ++ text }

end DestinationDef

/-- A `File` node. -/
structure OutputFile (C : Type) where
  path : String
  contents : C

/-- The part of a tree that the writer walks over. -/
inductive OutputNode (C : Type)
  | file (file : OutputFile C)
  | directory (path : String) (files : List (OutputNode C))
  | top (children : List (OutputNode C))

mutual

/-- The files in the order in which they are taken from the stack. -/
def OutputNode.visits : OutputNode C → List (OutputFile C)
  | .file f => [f]
  | .directory _ files => visitsStack files
  | .top children => visitsStack children

def visitsStack : List (OutputNode C) → List (OutputFile C)
  | [] => []
  | n :: rest => visitsStack rest ++ n.visits

end

/-- What a `WriteFile` writes, and its result or what it throws. -/
abbrev WriteFile (C : Type) := C → String × Except String Bool

/-- An `Error` with its message and its node. -/
structure WriteError (C : Type) where
  message : String
  ast : OutputFile C

structure ProcessResult (C : Type) where
  ok : Bool
  errors : List (WriteError C)

namespace Writer
variable {C : Type}

/-- The writing of one file, with the message of an exception. -/
def writeFile (fs : FileSystem) (render : WriteFile C) (d : DestinationDef) (f : OutputFile C) :
    DestinationDef × Option String :=
  match d.openAt fs (.parse f.path.toList) with
  | (d, .error message) => (d, some message)
  | (d, .ok _) =>
    match render f.contents with
    | (text, .error message) => (d.write text, some message)
    | (text, .ok _) => ((d.write text).close, none)

/-- The destination after the files are written one after the other. -/
def writeFiles (fs : FileSystem) (render : WriteFile C) (d : DestinationDef)
    (files : List (OutputFile C)) : DestinationDef :=
  files.foldl (fun d f => (writeFile fs render d f).1) d

/-- `write`, after its passes. -/
def write (fs : FileSystem) (render : WriteFile C) (d : DestinationDef) (ast : OutputNode C) :
    DestinationDef := writeFiles fs render d ast.visits

/-- The errors of the files, one for each exception. -/
def errors (fs : FileSystem) (render : WriteFile C) :
    DestinationDef → List (OutputFile C) → List (WriteError C)
  | _, [] => []
  | d, f :: files =>
    match writeFile fs render d f with
    | (d, some message) => ⟨message, f⟩ :: errors fs render d files
    | (d, none) => errors fs render d files

/-- The result of `write`. -/
def result (fs : FileSystem) (render : WriteFile C) (d : DestinationDef) (ast : OutputNode C) :
    ProcessResult C :=
  let errors := errors fs render d ast.visits
  { ok := errors.isEmpty, errors }

end Writer

end Trieste
