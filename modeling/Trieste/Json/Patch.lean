import Trieste.Json.Operation

namespace Trieste.Json
set_option autoImplicit true

/-- `get_string`, the location between the quotes. -/
def getString (h : Heap) (n : Node) : Option Location :=
  if (h.get n).type = .jsonString then
    let result := (h.get n).location
    some { result with pos := result.pos + 1, len := result.len - 2 }
  else none

namespace Patch

inductive OpType
  | error
  | test
  | add
  | remove
  | replace
  | copy
  | move
  deriving DecidableEq

def opKey : String := "/op"
def pathKey : String := "/path"
def valueKey : String := "/value"
def fromKey : String := "/from"
def missingOp : String := "missing `op`"
def invalidOp : String := "invalid `op` value"
def missingPath : String := "missing `path`"
def missingValue : String := "missing `value`"
def missingFrom : String := "missing `from`"

def typeLookup (name : String) : Option OpType :=
  if name = "test" then some .test
  else if name = "add" then some .add
  else if name = "remove" then some .remove
  else if name = "replace" then some .replace
  else if name = "copy" then some .copy
  else if name = "move" then some .move
  else none

/-- An operation. One that is an error has its message for a path. -/
structure Op where
  node : Node
  type : OpType
  path : Location
  value : Option Node := none
  «from» : Location := {}

def Op.error (node : Node) (msg : String) : Op := { node, type := .error, path := .ofString msg }

section Patch
variable [BEq α] (std : StdLib α)

def select (s : Store) (document : Node) (path : String) : Option (Store × Node) :=
  { path := .ofString path, action := .read : Operation }.run std s document

def selectString (s : Store) (document : Node) (path : String) :
    Option (Store × Option Location) := do
  let (s, node) ← select std s document path
  return (s, if s.isError node then none else getString s.heap node)

namespace Op

/-- The rest of `from_node` for a known type and path. -/
def ofType (s : Store) (node : Node) (type : OpType) (path : Location) : Option (Store × Op) :=
  match type with
  | .remove => some (s, { node, type, path })
  | .add | .replace | .test => do
    let (s, value) ← select std s node valueKey
    return (s, if s.isError value then .error node missingValue
      else { node, type, path, value := some value })
  | .copy | .move => do
    match ← selectString std s node fromKey with
    | (s, none) => return (s, .error node missingFrom)
    | (s, some «from») => return (s, { node, type, path, «from» })
  | .error => some (s, .error node "Unknown error")

def fromNode (s : Store) (node : Node) : Option (Store × Op) := do
  match ← selectString std s node opKey with
  | (s, none) => return (s, .error node missingOp)
  | (s, some name) =>
    match typeLookup name.view with
    | none => return (s, .error node invalidOp)
    | some type =>
      match ← selectString std s node pathKey with
      | (s, none) => return (s, .error node missingPath)
      | (s, some path) => ofType std s node type path

/-- Runs an operation on the document, which is the result unless there is an error. -/
def runOn (s : Store) (document : Node) (operation : Operation) : Option (Store × Node) := do
  let (s, result) ← operation.run std s document
  return (s, if s.isError result then result else document)

def test (op : Op) (s : Store) (document : Node) : Option (Store × Node) :=
  runOn std s document { path := op.path, action := .compare, value := op.value }

def add (op : Op) (s : Store) (document : Node) : Option (Store × Node) :=
  if op.path.len = 0 then op.value.bind s.clone
  else runOn std s document { path := op.path, action := .insert, value := op.value }

def remove (op : Op) (s : Store) (document : Node) : Option (Store × Node) :=
  runOn std s document { path := op.path, action := .remove }

def replace (op : Op) (s : Store) (document : Node) : Option (Store × Node) :=
  if op.path.len = 0 then op.value.bind s.clone
  else runOn std s document { path := op.path, action := .replace, value := op.value }

/-- `move` removes and `copy` reads what is then inserted. -/
def transfer (op : Op) (take : Action) (s : Store) (document : Node) : Option (Store × Node) :=
  if op.path.view = op.from.view then some (s, document)
  else do
    let (s, existing) ← { path := op.from, action := take : Operation }.run std s document
    if s.isError existing then return (s, existing)
    else runOn std s document { path := op.path, action := .insert, value := some existing }

def move (op : Op) : Store → Node → Option (Store × Node) := op.transfer std .remove

def copy (op : Op) : Store → Node → Option (Store × Node) := op.transfer std .read

def apply (op : Op) (s : Store) (document : Node) : Option (Store × Node) :=
  match op.type with
  | .test => op.test std s document
  | .add => op.add std s document
  | .remove => op.remove std s document
  | .replace => op.replace std s document
  | .move => op.move std s document
  | .copy => op.copy std s document
  | .error => s.err op.node "Unsupported operation"

end Op

/-- The first loop, which runs the tests: an error, or the other operations. -/
def readOps (s : Store) (document : Node) : List Node → Option (Store × Except Node (List Op))
  | [] => some (s, .ok [])
  | node :: rest => do
    let (s, op) ← Op.fromNode std s node
    if op.type = .error then
      let (s, e) ← s.err op.node op.path.view
      return (s, .error e)
    else if op.type = .test then
      let (s, result) ← op.apply std s document
      if s.isError result then return (s, .error result) else readOps s document rest
    else
      let (s, ops) ← readOps s document rest
      return (s, ops.map (op :: ·))

/-- The second loop, which edits the copy. -/
def applyOps (s : Store) (patched : Node) : List Op → Option (Store × Node)
  | [] => some (s, patched)
  | op :: rest => do
    let (s, patched) ← op.apply std s patched
    if s.isError patched then return (s, patched)
    else
      let s ← s.buildSt patched
      applyOps s patched rest

end Patch

end Patch

open Patch in
/-- `patch`. It throws where nothing is returned. -/
def patch [BEq α] (std : StdLib α) (s : Store) (document patch : Node) :
    Option (Store × Node) :=
  if (s.heap.get patch).type ≠ .jsonArray then s.err patch "Not a JSON array"
  else if (s.heap.get patch).children = [] then some (s, document)
  else do
    match ← readOps std s document (s.heap.get patch).children with
    | (s, .error e) => return (s, e)
    | (s, .ok ops) =>
      let (s, patched) ← s.clone document
      let s ← s.buildSt patched
      applyOps std s patched ops

end Trieste.Json
