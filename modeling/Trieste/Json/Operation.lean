import Trieste.Json.Document
import Trieste.Json.Pointer

namespace Trieste.Json
set_option autoImplicit true

namespace Store

def create (s : Store) (type : Token) (location : Location) : Store × Node :=
  let (heap, n) := s.heap.create type location
  ({ s with heap }, n)

def pushBack (s : Store) (p n : Node) : Store := { s with heap := s.heap.pushBack p (some n) }

def insert (s : Store) (p : Node) (pos : Nat) (n : Node) : Store :=
  { s with heap := s.heap.insert p pos (some n) }

def clone (s : Store) (n : Node) : Option (Store × Node) :=
  (s.heap.clone (s.heap.nodes.length + 1) n).map fun (heap, copy) => ({ s with heap }, copy)

def replace (s : Store) (p n₁ : Node) (n₂ : Option Node) : Option Store :=
  (s.heap.replace p n₁ n₂).map fun heap => { s with heap }

/-- `replace_at`, which throws beyond the children. -/
def replaceAt (s : Store) (p : Node) (index : Nat) (n : Node) : Option Store := do
  let child ← (s.heap.get p).children[index]?
  s.replace p child (some n)

/-- `member / Value = n`, which goes through the parent of the value. -/
def assignValue (s : Store) (member n : Node) : Option Store := do
  let value ← memberValue s.heap member
  let p ← (s.heap.get value).parent
  s.replaceAt p 1 n

def err (s : Store) (node : Node) (msg : String) : Option (Store × Node) :=
  (Json.err s.heap node msg).map fun (heap, e) => ({ s with heap }, e)

def errAt (s : Store) (type : Token) (location : Location) (msg : String) :
    Option (Store × Node) :=
  (Json.errAt s.heap type location msg).map fun (heap, e) => ({ s with heap }, e)

def isError (s : Store) (n : Node) : Bool := (s.heap.get n).type = .error

end Store

inductive Action
  | insert
  | read
  | replace
  | remove
  | compare
  deriving DecidableEq

structure Operation where
  path : Location
  action : Action
  value : Option Node := none

section Operation
variable [BEq α] (std : StdLib α)

def compare (s : Store) (actual expected : Node) : Option (Store × Node) :=
  if s.isError actual then some (s, actual)
  else do
    if ← equal std s.heap actual expected then return (s, actual)
    else
      let settings : WriteSettings := { prettyprint := false, sortKeys := true, indent := "  " }
      let actualJson ← toString s settings actual
      let expectedJson ← toString s settings expected
      s.err actual (actualJson ++ " != " ++ expectedJson)

namespace Operation

/-- Adds a member with a copy of the value. -/
def addMember (s : Store) (object : Node) (key : Location) (value : Node) : Option Store := do
  let (s, member) := s.create .jsonMember {}
  let (s, keyNode) := s.create .jsonKey key
  let s := s.pushBack member keyNode
  let (s, copy) ← s.clone value
  let s := s.pushBack member copy
  return s.pushBack object member

/-- `member / Value = value->clone()` -/
def assignCopy (s : Store) (member value : Node) : Option Store := do
  let (s, copy) ← s.clone value
  s.assignValue member copy

def objectAction (op : Operation) (s : Store) (object : Node) (key : Location) :
    Option (Store × Node) :=
  match s.lookdown object key with
  | [] =>
    match op.action with
    | .insert => do
      let value ← op.value
      let s ← addMember s object key value
      return (s, value)
    | _ => s.err object ("Member does not exist with key: " ++ key.view)
  | member :: _ => do
    let existing ← Store.memberValue s.heap member
    match op.action with
    | .compare =>
      let value ← op.value
      compare std s existing value
    | .insert | .replace =>
      let value ← op.value
      let s ← assignCopy s member value
      return (s, existing)
    | .read => return (s, existing)
    | .remove =>
      let s ← s.replace object member none
      return (s, existing)

/-- The actions on an element that was found. -/
def elementAction (op : Operation) (s : Store) (array element : Node) (index : Nat) :
    Option (Store × Node) :=
  match op.action with
  | .compare => do
    let value ← op.value
    let (s, copy) ← s.clone value
    compare std s element copy
  | .insert => do
    let value ← op.value
    let (s, copy) ← s.clone value
    return (s.insert array index copy, value)
  | .read => return (s, element)
  | .remove => do
    let s ← s.replace array element none
    return (s, element)
  | .replace => do
    let value ← op.value
    let (s, copy) ← s.clone value
    let s ← s.replaceAt array index copy
    return (s, element)

def arrayAction (op : Operation) (s : Store) (array : Node) (key : Location) :
    Option (Store × Node) := do
  let (heap, element, index) ← arrayLookup s.heap array key 0
  let s := { s with heap }
  if op.action = .insert ∧ index = (s.heap.get array).children.length then
    let value ← op.value
    let (s, copy) ← s.clone value
    return (s.pushBack array copy, value)
  else if s.isError element then return (s, element)
  else op.elementAction std s array element index

/-- One key before the last: an error to return, or the node to go on with. -/
def follow (s : Store) (current : Node) (key : Location) : Option (Store × Except Node Node) :=
  if (s.heap.get current).type = .jsonObject then
    match s.lookdown current key with
    | [] => do
      let (s, e) ← s.err current ("No child at path: " ++ key.view)
      return (s, .error e)
    | member :: _ => do
      let value ← Store.memberValue s.heap member
      return (s, .ok value)
  else if (s.heap.get current).type = .jsonArray then do
    let (heap, element, _) ← arrayLookup s.heap current key 0
    let s := { s with heap }
    return (s, if s.isError element then .error element else .ok element)
  else do
    let (s, e) ← s.err current "Cannot index into value"
    return (s, .error e)

def act (op : Operation) (s : Store) (current : Node) (key : Location) : Option (Store × Node) :=
  if (s.heap.get current).type = .jsonObject then op.objectAction std s current key
  else if (s.heap.get current).type = .jsonArray then op.arrayAction std s current key
  else s.err current "Cannot index into value"

/-- Follows all keys but the last one, at which it acts. -/
def walk (op : Operation) (s : Store) (current : Node) : List Location → Option (Store × Node)
  | [] => none
  | [key] => op.act std s current key
  | key :: keys => do
    match ← follow s current key with
    | (s, .error e) => return (s, e)
    | (s, .ok next) => op.walk s next keys

def rootAction (op : Operation) (s : Store) (document : Node) : Option (Store × Node) :=
  match op.action with
  | .read => some (s, document)
  | .replace | .insert => op.value.map (s, ·)
  | .remove => s.errAt .jsonString op.path "Cannot remove the root node"
  | .compare => do
    let value ← op.value
    compare std s document value

def run (op : Operation) (s : Store) (document : Node) : Option (Store × Node) :=
  match pointer op.path with
  | none => s.errAt .jsonString op.path "Invalid pointer"
  | some [] => op.rootAction std s document
  | some keys => op.walk std s document keys

end Operation

end Operation

end Trieste.Json
