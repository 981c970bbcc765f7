import Trieste.Source
import Trieste.Token

namespace Trieste
set_option autoImplicit true

/-- A bit of `Flags`. -/
inductive FlagBit
  | error
  | lift
  deriving DecidableEq

structure Flags where
  containsError : Bool := false
  containsLift : Bool := false
  deriving DecidableEq

namespace Flags

def get (f : Flags) : FlagBit → Bool
  | .error => f.containsError
  | .lift => f.containsLift

def put (f : Flags) (value : Bool) : FlagBit → Flags
  | .error => { f with containsError := value }
  | .lift => { f with containsLift := value }

end Flags

abbrev Node := Nat

structure NodeDef where
  type : Token := .invalid
  location : Location := {}
  parent : Option Node := none
  flags : Flags := {}
  children : List Node := []
  deriving DecidableEq

/-- The nodes in the order in which they were created. -/
structure Heap where
  nodes : List NodeDef := []
  deriving DecidableEq

namespace Heap

def get (h : Heap) (n : Node) : NodeDef := h.nodes.getD n {}

def modify (h : Heap) (n : Node) (f : NodeDef → NodeDef) : Heap := ⟨h.nodes.modify n f⟩

def setParent (h : Heap) (n : Node) (p : Option Node) : Heap :=
  h.modify n fun d => { d with parent := p }

def setChildren (h : Heap) (n : Node) (children : List Node) : Heap :=
  h.modify n fun d => { d with children }

def setFlag (h : Heap) (n : Node) (bit : FlagBit) (value : Bool) : Heap :=
  h.modify n fun d => { d with flags := d.flags.put value bit }

def flag (h : Heap) (n : Node) (bit : FlagBit) : Bool := (h.get n).flags.get bit

def create (h : Heap) (type : Token) (location : Location) : Heap × Node :=
  (⟨h.nodes ++ [{ type := type, location := location }]⟩, h.nodes.length)

/-- A loop of `add_flags`, which stops at an ancestor that has the flag. -/
def mark (bit : FlagBit) : Nat → Heap → Option Node → Heap
  | 0, h, _ => h
  | _, h, none => h
  | fuel + 1, h, some curr =>
    if h.flag curr bit then h
    else mark bit fuel (h.setFlag curr bit true) (h.get curr).parent

/-- Each round of a loop sets the flag of another node, up to a last one. -/
def addFlags (h : Heap) (n : Node) : Heap :=
  let fuel := h.nodes.length + 1
  let d := h.get n
  if d.type = .error ∨ h.flag n .error then h.mark .error fuel d.parent
  else if d.type = .lift ∨ h.flag n .lift then h.mark .lift fuel d.parent
  else h

/-- What attaching a node to a parent does besides the list of children. -/
def adopt (h : Heap) (p n : Node) : Heap := (h.setParent n (some p)).addFlags n

def pushFront (h : Heap) (p : Node) : Option Node → Heap
  | none => h
  | some n => (h.setChildren p (n :: (h.get p).children)).adopt p n

def pushBack (h : Heap) (p : Node) : Option Node → Heap
  | none => h
  | some n => (h.setChildren p ((h.get p).children ++ [n])).adopt p n

def insertAt (children : List Node) (pos : Nat) (nodes : List Node) : List Node :=
  children.take pos ++ nodes ++ children.drop pos

def insert (h : Heap) (p : Node) (pos : Nat) : Option Node → Heap
  | none => h
  | some n => (h.adopt p n).setChildren p (insertAt (h.get p).children pos [n])

/-- `insert` of a range of nodes. -/
def insertRange (h : Heap) (p : Node) (pos : Nat) (nodes : List Node) : Heap :=
  if nodes = [] then h
  else (nodes.foldl (·.adopt p) h).setChildren p (insertAt (h.get p).children pos nodes)

/-- `insert` of a token, whose one node is inserted as often as the count says. -/
def insertCopies (h : Heap) (p : Node) (pos count : Nat) (type : Token) : Heap :=
  if count = 0 then h
  else
    let (h, n) := h.create type {}
    h.insertRange p pos (List.replicate count n)

/-- Clears the parent of a node unless the node is shared. -/
def orphan (h : Heap) (p n : Node) : Heap :=
  if (h.get n).parent = some p then h.setParent n none else h

def popBack (h : Heap) (p : Node) : Heap × Option Node :=
  match (h.get p).children.getLast? with
  | none => (h, none)
  | some n => ((h.setChildren p (h.get p).children.dropLast).orphan p n, some n)

def erase (h : Heap) (p : Node) (first last : Nat) : Heap :=
  let erased := ((h.get p).children.take last).drop first
  (erased.foldl (·.orphan p) h).setChildren p
    ((h.get p).children.take first ++ (h.get p).children.drop last)

/-- Nothing is returned where the node is not found. -/
def replace (h : Heap) (p n₁ : Node) (n₂ : Option Node) : Option Heap :=
  let children := (h.get p).children
  let it := children.idxOf n₁
  if it = children.length then none
  else match n₂ with
    | some n₂ => some (((h.orphan p n₁).adopt p n₂).setChildren p (children.set it n₂))
    | none => some (h.setChildren p (children.eraseIdx it))

/-- Nothing is returned where the tree is deeper than the fuel. -/
def clone : Nat → Heap → Node → Option (Heap × Node)
  | 0, _, _ => none
  | fuel + 1, h, n =>
    let (h', node) := h.create (h.get n).type (h.get n).location
    (h.get n).children.foldlM (fun h child => do
      let (h, copy) ← clone fuel h child
      return h.pushBack node (some copy)) h' |>.map (·, node)

end Heap

end Trieste
