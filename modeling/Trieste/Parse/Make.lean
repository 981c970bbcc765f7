import Trieste.Ast

namespace Trieste
set_option autoImplicit true

namespace Heap

/-- `NodeDef::extend`. -/
def extendLocation (h : Heap) (n : Node) (loc : Location) : Heap :=
  h.modify n fun d => { d with location := d.location.join loc }

end Heap

/-- How an operation of `Make` ends without a result: a null node is dereferenced, an exception is
thrown, or a loop goes on for more rounds than there are nodes. -/
inductive Fault
  | nullNode
  | thrown (what : String)
  | diverged
  deriving DecidableEq

/-- `Make`, without what it reads the source with. The node is null after the root was left. -/
structure Make where
  heap : Heap
  top : Node
  node : Option Node
  errorCount : Nat

namespace Make

/-- The constructor, given the location of the whole source. -/
def create (token : Token) (location : Location) : Make :=
  let (heap, node) := Heap.create {} token location
  { heap, top := node, node := some node, errorCount := 0 }

def deref (m : Make) : Except Fault Node :=
  match m.node with
  | none => .error .nullNode
  | some n => .ok n

/-- `in`. -/
def isIn (m : Make) (type : Token) : Except Fault Bool := do
  let n ← m.deref
  return (m.heap.get n).type == type

/-- The private `extend`, by the location of the last child. -/
def extendBack (m : Make) : Except Fault Make := do
  let n ← m.deref
  match (m.heap.get n).children.getLast? with
  | none => return m
  | some back => return { m with heap := m.heap.extendLocation n (m.heap.get back).location }

def tryPop (m : Make) (type : Token) : Except Fault (Make × Bool) := do
  if ← m.isIn type then
    let m ← m.extendBack
    let n ← m.deref
    return ({ m with node := (m.heap.get n).parent }, true)
  else return (m, false)

/-- A new node becomes the last child of the node. -/
def append (m : Make) (type : Token) (loc : Location) : Except Fault Make := do
  let n ← m.deref
  let (heap, child) := m.heap.create type loc
  return { m with heap := heap.pushBack n (some child) }

/-- `node = node->back()`. -/
def enter (m : Make) : Except Fault Make := do
  let n ← m.deref
  return { m with node := (m.heap.get n).children.getLast? }

/-- `push(Group)` unless the node is a group. -/
def openGroup (m : Make) (reMatch : Nat → Location) : Except Fault Make := do
  if ← m.isIn .group then return m
  else
    let m ← m.append .group (reMatch 0)
    m.enter

def add (m : Make) (reMatch : Nat → Location) (type : Token) (index : Nat) :
    Except Fault Make := do
  let m ← if type = .group then pure m else m.openGroup reMatch
  let m := if type = .error then { m with errorCount := m.errorCount + 1 } else m
  m.append type (reMatch index)

def push (m : Make) (reMatch : Nat → Location) (type : Token) (index : Nat) :
    Except Fault Make := do
  let m ← m.add reMatch type index
  m.enter

/-- `make_error`, pushed back on the node. -/
def appendError (m : Make) (loc : Location) (msg : String) : Except Fault Make := do
  let n ← m.deref
  let (heap, error) := m.heap.create .error loc
  let (heap, errorMsg) := heap.create .errorMsg (.ofString msg)
  let heap := heap.pushBack error (some errorMsg)
  let (heap, errorAst) := heap.create .errorAst loc
  let heap := heap.pushBack error (some errorAst)
  return { m with heap := heap.pushBack n (some error) }

/-- `error`, at a location that may be that of a match. -/
def error (m : Make) (reMatch : Nat → Location) (msg : String) (location : Location) :
    Except Fault Make := do
  let m ← m.openGroup reMatch
  { m with errorCount := m.errorCount + 1 }.appendError location msg

/-- `extend`, by the location of a match. -/
def extend (m : Make) (reMatch : Nat → Location) (type : Token) (index : Nat) :
    Except Fault Make := do
  let n ← m.deref
  match (m.heap.get n).children.getLast? with
  | none => m.add reMatch type index
  | some back =>
    if (m.heap.get back).type = type then
      return { m with heap := m.heap.extendLocation back (reMatch index) }
    else m.add reMatch type index

def extendBefore (m : Make) (reMatch : Nat → Location) (type : Token) : Except Fault Make := do
  let n ← m.deref
  match (m.heap.get n).children.head? with
  | none => return m
  | some front =>
    if (m.heap.get front).type = type then
      return { m with heap := m.heap.extendLocation front { reMatch 0 with len := 0 } }
    else return m

def invalid (m : Make) (reMatch : Nat → Location) : Except Fault Make :=
  { m with errorCount := m.errorCount + 1 }.extend reMatch .invalid 0

/-- `pop` of a type. -/
def popType (m : Make) (reMatch : Nat → Location) (type : Token) : Except Fault Make := do
  let (m, popped) ← m.tryPop type
  if popped then return m else m.invalid reMatch

/-- `pop` of whatever type the node has. -/
def pop (m : Make) (reMatch : Nat → Location) : Except Fault Make := do
  if ← m.isIn .top then throw (.thrown "cannot pop top node")
  let n ← m.deref
  m.popType reMatch (m.heap.get n).type

def tryPopAll (m : Make) : List Token → Except Fault Make
  | [] => .ok m
  | type :: types => do
    let (m, _) ← m.tryPop type
    m.tryPopAll types

def term (m : Make) (types : List Token) : Except Fault Make := m.tryPopAll (.group :: types)

/-- The loop of `seq`, which leaves nodes whose parents are to be skipped. -/
def leave (skip : List Token) : Nat → Make → Except Fault Make
  | 0, _ => .error .diverged
  | fuel + 1, m => do
    let n ← m.deref
    match (m.heap.get n).parent with
    | none => .error .nullNode
    | some p =>
      if (m.heap.get p).type ∈ skip then
        let m ← m.extendBack
        leave skip fuel { m with node := some p }
      else return m

/-- The end of `seq`, at a parent of the type or at a new node that takes the place of the node. -/
def enterSeq (m : Make) (reMatch : Nat → Location) (type : Token) : Except Fault Make := do
  let m ← m.extendBack
  let n ← m.deref
  match (m.heap.get n).parent with
  | none => .error .nullNode
  | some p =>
    if (m.heap.get p).type = type then return { m with node := some p }
    else
      match m.heap.popBack p with
      | (_, none) => .error .nullNode
      | (heap, some group) =>
        let (heap, seq) := heap.create type ((reMatch 0).join (heap.get group).location)
        let heap := heap.pushBack p (some seq)
        return { m with heap := heap.pushBack seq (some group), node := some seq }

def seq (m : Make) (reMatch : Nat → Location) (type : Token) (skip : List Token) :
    Except Fault Make := do
  let m ← m.openGroup reMatch
  let m ← leave skip m.heap.nodes.length m
  m.enterSeq reMatch type

/-- The loop of `done`. -/
def closeNodes : Nat → Make → Except Fault Make
  | 0, _ => .error .diverged
  | fuel + 1, m => do
    let n ← m.deref
    match (m.heap.get n).parent with
    | none => return m
    | some _ =>
      let m ← m.appendError (m.heap.get n).location "this is unclosed"
      let m ← m.term []
      let n ← m.deref
      let m ← { m with node := (m.heap.get n).parent }.term []
      closeNodes fuel m

/-- `done`, with the state that it leaves. -/
def done (m : Make) : Except Fault (Make × Node) := do
  let m ← m.term []
  let m ← closeNodes m.heap.nodes.length m
  if m.node ≠ some m.top then throw (.thrown "malformed AST")
  return (m, m.top)

end Make

/-- An operation that a rule issues, with the locations of its match. -/
inductive MakeOp
  | error (msg : String) (location : Location)
  | add (type : Token) (index : Nat)
  | seq (type : Token) (skip : List Token)
  | push (type : Token) (index : Nat)
  | pop
  | popType (type : Token)
  | term (types : List Token)
  | extendBefore (type : Token)
  | extend (type : Token) (index : Nat)
  | invalid

namespace MakeOp

def perform (reMatch : Nat → Location) (m : Make) : MakeOp → Except Fault Make
  | error msg location => m.error reMatch msg location
  | add type index => m.add reMatch type index
  | seq type skip => m.seq reMatch type skip
  | push type index => m.push reMatch type index
  | pop => m.pop reMatch
  | popType type => m.popType reMatch type
  | term types => m.term types
  | extendBefore type => m.extendBefore reMatch type
  | extend type index => m.extend reMatch type index
  | invalid => m.invalid reMatch

end MakeOp

end Trieste
