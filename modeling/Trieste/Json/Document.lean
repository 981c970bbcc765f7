import Mathlib.Data.String.Basic
import Trieste.Json
import Trieste.Library.Sorting

namespace Trieste.Json
set_option autoImplicit true
open Library

/-- A node that is bound to a name in the symbol table of a scope. -/
structure Binding where
  scope : Node
  name : String
  node : Node
  deriving DecidableEq

/-- The nodes with the entries of all symbol tables, in the order in which they were bound. -/
structure Store where
  heap : Heap := {}
  symbols : List Binding := []
  deriving DecidableEq

namespace Store

def clearSymbols (s : Store) (n : Node) : Store :=
  { s with symbols := s.symbols.filter fun b => b.scope ≠ n }

def lookdown (s : Store) (n : Node) (key : Location) : List Node :=
  (s.symbols.filter fun b => b.scope = n ∧ b.name = key.view ∧
    (s.heap.get b.node).type.has Flag.lookdown).map Binding.node

/-- The loop of `scope`, over the ancestors. -/
def scopeFrom (h : Heap) : Nat → Option Node → Option Node
  | 0, _ => none
  | _, none => none
  | fuel + 1, some p =>
    if (h.get p).type.has Flag.symtab then some p else scopeFrom h fuel (h.get p).parent

def scope (h : Heap) (n : Node) : Option Node :=
  scopeFrom h (h.nodes.length + 1) (h.get n).parent

/-- `bind`, which throws where there is no scope. -/
def bind (s : Store) (n : Node) (name : Location) : Option Store :=
  (scope s.heap n).map fun st =>
    { s with symbols := s.symbols ++ [{ scope := st, name := name.view, node := n }] }

/-- The shape of a member is the one that binds a name. -/
def bindShape (s : Store) (n : Node) : Option Store :=
  if (s.heap.get n).type = .jsonMember then
    match (s.heap.get n).children with
    | [] => some s
    | key :: _ => s.bind n (s.heap.get key).location
  else some s

/-- `build_st`. Nothing is returned where the tree is deeper than the fuel. -/
def buildStFrom : Nat → Store → Node → Option Store
  | 0, _, _ => none
  | fuel + 1, s, n =>
    if (s.heap.get n).type = .error then some s
    else do
      let s ← (s.clearSymbols n).bindShape n
      (s.heap.get n).children.foldlM (buildStFrom fuel) s

def buildSt (s : Store) (n : Node) : Option Store := s.buildStFrom (s.heap.nodes.length + 1) n

/-- `node / field` for a field of a member, at its index in the shape. -/
def memberField (h : Heap) (index : Nat) (n : Node) : Option Node :=
  if (h.get n).type = .jsonMember then (h.get n).children[index]? else none

def memberKey (h : Heap) : Node → Option Node := memberField h 0

def memberValue (h : Heap) : Node → Option Node := memberField h 1

end Store

def viewOf (h : Heap) (n : Node) : String := (h.get n).location.view

/-- The first children of the members, which are their keys, with the last ones. -/
def keysAndValues (h : Heap) (members : List Node) : Option (List (String × Node)) :=
  members.mapM fun member => do
    let key ← (h.get member).children.head?
    let value ← (h.get member).children.getLast?
    return (viewOf h key, value)

/-- The parts of the C++ library that a comparison uses: what `stod` makes of a text, where it does
not throw, and how `sort` orders the members. -/
structure StdLib (α : Type) where
  stod : String → Option α
  sort : Sorting String

def StdLib.stable (stod : String → Option α) : StdLib α := { stod, sort := .stable String }

def stdInt : StdLib Int := .stable String.toInt?

def sortByKey (std : StdLib α) (members : List (String × Node)) : List (String × Node) :=
  std.sort.sortBy Prod.fst members

/-- The loop of `array_equal`. -/
def elementsEqual (equal : Node → Node → Option Bool) : List (Node × Node) → Option Bool
  | [] => some true
  | (x, y) :: rest => do
    if ← equal x y then elementsEqual equal rest else return false

/-- The last loop of `object_equal`. -/
def membersEqual (equal : Node → Node → Option Bool) :
    List ((String × Node) × (String × Node)) → Option Bool
  | [] => some true
  | ((key, x), (key', y)) :: rest => do
    if key ≠ key' then return false
    else if ← equal x y then membersEqual equal rest
    else return false

/-- `value_equal`. It throws where `stod` does. -/
def valueEqual [BEq α] (std : StdLib α) (h : Heap) : Nat → Node → Node → Option Bool
  | 0, _, _ => none
  | fuel + 1, lhs, rhs =>
    let children := (h.get lhs).children
    let children' := (h.get rhs).children
    let type := (h.get lhs).type
    if type ≠ (h.get rhs).type then some false
    else if type = .jsonObject then
      if children.length ≠ children'.length then some false
      else do
        let members ← keysAndValues h children
        let members' ← keysAndValues h children'
        membersEqual (valueEqual std h fuel) ((sortByKey std members).zip (sortByKey std members'))
    else if type = .jsonArray ∨ type = .top then
      if children.length ≠ children'.length then some false
      else elementsEqual (valueEqual std h fuel) (children.zip children')
    else if type = .jsonNumber then do
      let value ← std.stod (viewOf h lhs)
      let value' ← std.stod (viewOf h rhs)
      return value == value'
    else some (viewOf h lhs == viewOf h rhs)

def equal [BEq α] (std : StdLib α) (h : Heap) (lhs rhs : Node) : Option Bool :=
  valueEqual std h (h.nodes.length + 1) lhs rhs

structure WriteSettings where
  prettyprint : Bool
  sortKeys : Bool
  indent : String

namespace WriteSettings

def newline (settings : WriteSettings) : String := if settings.prettyprint then "\n" else ""

def lead (settings : WriteSettings) (indent : String) : String :=
  if settings.prettyprint then indent else ""

end WriteSettings

/-- The loop over what a container of the given size holds, from the given index on. -/
def writeItems (settings : WriteSettings) (newIndent : String) (size : Nat)
    (write : Node → Option String) : Nat → List Node → Option String
  | _, [] => some ""
  | i, item :: rest => do
    let text ← write item
    let following ← writeItems settings newIndent size write (i + 1) rest
    let comma := if i < size - 1 then "," else ""
    return settings.lead newIndent ++ text ++ comma ++ settings.newline ++ following

/-- The members of an object in the order in which they are written. -/
def membersToWrite (s : Store) (settings : WriteSettings) (object : Node) : Option (List Node) :=
  let members := (s.heap.get object).children
  if settings.sortKeys then do
    let keys ← members.mapM (Store.memberKey s.heap)
    let keys := (keys.map fun key => (s.heap.get key).location).mergeSort
      fun x y => !decide (y.view < x.view)
    return keys.flatMap (s.lookdown object)
  else some members

def writeContainer (settings : WriteSettings) (indent : String) (size : Nat)
    (write : String → Node → Option String) (items : List Node) : Option String := do
  let newIndent := indent ++ settings.indent
  let text ← writeItems settings newIndent size (write newIndent) 0 items
  return settings.newline ++ text ++ settings.lead indent

/-- `write_value`. It throws for a node of another type. -/
def writeValue (s : Store) (settings : WriteSettings) : Nat → String → Node → Option String
  | 0, _, _ => none
  | fuel + 1, indent, value =>
    let type := (s.heap.get value).type
    let children := (s.heap.get value).children
    if type ∈ [.jsonNumber, .jsonString, .jsonTrue, .jsonFalse, .jsonNull] then
      some (viewOf s.heap value)
    else if type = .jsonKey then some ("\"" ++ viewOf s.heap value ++ "\"")
    else if type = .jsonObject then
      if children = [] then some "\x7b\x7d"
      else do
        let members ← membersToWrite s settings value
        let text ← writeContainer settings indent children.length
          (fun newIndent member => do
            let key ← Store.memberKey s.heap member
            let value ← Store.memberValue s.heap member
            let key ← writeValue s settings fuel newIndent key
            let value ← writeValue s settings fuel newIndent value
            return key ++ ":" ++ settings.lead " " ++ value) members
        return "\x7b" ++ text ++ "\x7d"
    else if type = .jsonArray then
      if children = [] then some "[]"
      else do
        let text ← writeContainer settings indent children.length (writeValue s settings fuel)
          children
        return "[" ++ text ++ "]"
    else if type = .top then do
      let first ← children.head?
      writeValue s settings fuel indent first
    else none

def toString (s : Store) (settings : WriteSettings) (value : Node) : Option String :=
  writeValue s settings (s.heap.nodes.length + 1) "" value

end Trieste.Json
