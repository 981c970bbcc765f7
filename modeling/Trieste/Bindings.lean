import Trieste.Json.Document
import Trieste.Wf

namespace Trieste.Bindings
set_option autoImplicit true

/-- The nodes with the symbol tables of the scopes, and what the scopes include. -/
structure Scopes extends Json.Store where
  includes : List (Node × Node) := []
  deriving DecidableEq

def includeToken : Token := ⟨"include", Flag.internal⟩

namespace Scopes

def scope (s : Scopes) (n : Node) : Option Node := Json.Store.scope s.heap n

def clearSymbols (s : Scopes) (n : Node) : Scopes :=
  { s with
    symbols := s.symbols.filter fun b => b.scope ≠ n
    includes := s.includes.filter fun i => i.1 ≠ n }

/-- The nodes that are bound to a name in the symbol table of a scope. -/
def look (s : Scopes) (scope : Node) (name : Location) : List Node :=
  (s.symbols.filter fun b => b.scope = scope ∧ b.name = name.view).map Json.Binding.node

/-- `bind`, and whether no definition of the name conflicts. It throws where there is no scope. -/
def bind (s : Scopes) (n : Node) (name : Location) : Option (Scopes × Bool) :=
  (s.scope n).map fun st =>
    let symbols := s.symbols ++ [{ scope := st, name := name.view, node := n }]
    let entry := { s with symbols }.look st name
    ({ s with symbols }, entry.length = 1 ∨
      ¬ entry.any fun m => (s.heap.get m).type.has Flag.shadowing)

/-- `include`, which throws where there is no scope. -/
def addInclude (s : Scopes) (n : Node) : Option Scopes :=
  (s.scope n).map fun st => { s with includes := s.includes ++ [(st, n)] }

end Scopes

/-- A field, with the mark of a name that was written out. -/
structure Field extends Wf.Field where
  explicitName : Bool := true
  deriving DecidableEq

/-- The fields that `check_collision` throws on. -/
def Collide (lhs rhs : Field) : Prop :=
  lhs.name = rhs.name ∧ (lhs.explicitName = true ∨ rhs.explicitName = true)

instance : Decidable (Collide lhs rhs) := inferInstanceAs (Decidable (_ ∧ _))

structure Fields where
  fields : List Field
  binding : Token := .invalid
  apart : fields.Pairwise fun lhs rhs => ¬ Collide lhs rhs

inductive Shape
  | sequence (s : Wf.Sequence)
  | fields (f : Fields)

/-- The shapes of a map, each under its own token. -/
structure Wellformed where
  shapes : List (Token × Shape)
  distinct : (shapes.map Prod.fst).Nodup

def Wellformed.find (wf : Wellformed) (token : Token) : Option Shape := wf.shapes.lookup token

namespace Fields

/-- `index`, with nothing for the greatest `size_t`. -/
def index (f : Fields) (name : Token) : Option Nat := f.fields.findIdx? fun field => field.name = name

def buildSt (f : Fields) (s : Scopes) (n : Node) : Option (Scopes × Bool) :=
  if f.binding = .invalid then some (s, true)
  else if f.binding = includeToken then (s.addInclude n).map fun s => (s, true)
  else
    match f.index f.binding with
    | none => some (s, false)
    | some index =>
      match (s.heap.get n).children[index]? with
      | none => some (s, true)
      | some key => s.bind n (s.heap.get key).location

end Fields

namespace Wellformed

/-- A sequence binds nothing, and neither does a token without a shape. -/
def bindShape (wf : Wellformed) (s : Scopes) (n : Node) : Option (Scopes × Bool) :=
  match wf.find (s.heap.get n).type with
  | some (.fields f) => f.buildSt s n
  | _ => some (s, true)

/-- The children one after the other, whose results are put together. -/
def buildChildren (build : Scopes → Node → Option (Scopes × Bool)) :
    List Node → Scopes × Bool → Option (Scopes × Bool)
  | [], result => some result
  | child :: children, (s, ok) => do
    let (s, built) ← build s child
    buildChildren build children (s, built && ok)

/-- `build_st`. Nothing is returned where it throws or the tree is deeper than the fuel. -/
def buildStFrom (wf : Wellformed) : Nat → Scopes → Node → Option (Scopes × Bool)
  | 0, _, _ => none
  | fuel + 1, s, n =>
    if (s.heap.get n).type = .error then some (s, true)
    else do
      let result ← wf.bindShape (s.clearSymbols n) n
      buildChildren (wf.buildStFrom fuel) (s.heap.get n).children result

def buildSt (wf : Wellformed) (s : Scopes) (root : Node) : Option (Scopes × Bool) :=
  wf.buildStFrom (s.heap.nodes.length + 1) s root

end Wellformed

/-- What the check reports of a node. -/
inductive Report
  | unexpected (child : Node)
  | missingBinding (node child : Node)
  | children (node : Node)
  | severalTimes (child : Node)
  deriving DecidableEq

/-- `check` of a choice. -/
def checkChoice (h : Heap) (c : Wf.Choice) (child : Node) : List Report :=
  if (h.get child).type = .error ∨ (h.get child).type ∈ c.types then []
  else [.unexpected child]

def checkSequence (h : Heap) (q : Wf.Sequence) (n : Node) : List Report :=
  let children := (h.get n).children
  let hasErr := children.any fun child => (h.get child).type = .error
  children.flatMap (checkChoice h q.choice) ++
    (if ¬ hasErr ∧ children.length < q.minLen then [.children n] else []) ++
    (if ¬ hasErr ∧ q.maxLen < children.length then [.children n] else [])

namespace Fields

/-- The binding of one field. There is nothing to look in where there is no scope. -/
def checkBinding (f : Fields) (s : Scopes) (n : Node) (field : Field) (child : Node) :
    Option (List Report) :=
  if f.binding ≠ .invalid ∧ field.name = f.binding then
    (s.scope n).map fun st =>
      if n ∈ s.look st (s.heap.get child).location then [] else [.missingBinding n child]
  else some []

def checkFrom (f : Fields) (s : Scopes) (n : Node) :
    List Field → List Node → Option (List Report)
  | _, [] => some []
  | [], _ => some []
  | field :: fields, child :: children =>
    if (s.heap.get child).type = .error then some []
    else do
      let missing ← f.checkBinding s n field child
      let reports ← f.checkFrom s n fields children
      return checkChoice s.heap field.choice child ++ missing ++ reports

/-- The loop meets an error where it looks at one before the fields have run out. -/
def check (f : Fields) (s : Scopes) (n : Node) : Option (List Report) := do
  let children := (s.heap.get n).children
  let hasError := (children.take (f.fields.length + 1)).any fun child =>
    (s.heap.get child).type = .error
  let reports ← f.checkFrom s n f.fields children
  return reports ++
    if ¬ hasError ∧ children.length ≠ f.fields.length then [.children n] else []

end Fields

def checkShape (s : Scopes) (n : Node) : Shape → Option (List Report)
  | .sequence q => some (checkSequence s.heap q n)
  | .fields f => f.check s n

def checkParents (h : Heap) (n : Node) : List Report :=
  ((h.get n).children.filter fun child => (h.get child).parent ≠ some n).map .severalTimes

namespace Wellformed

def checkChildren (check : Node → Option (List Report)) : List Node → Option (List Report)
  | [] => some []
  | child :: children => do
    let reports ← check child
    return reports ++ (← checkChildren check children)

/-- `check`, with all that it reports. The nodes above an error are passed over. -/
def checkFrom (wf : Wellformed) (s : Scopes) : Nat → Node → Option (List Report)
  | 0, _ => none
  | fuel + 1, n =>
    let children := (s.heap.get n).children
    if (s.heap.get n).type = .error then some []
    else if s.heap.flag n .error then checkChildren (wf.checkFrom s fuel) children
    else
      match wf.find (s.heap.get n).type with
      | none => some (if children = [] then [] else [.children n])
      | some shape => do
        let reports ← checkShape s n shape
        let below ← checkChildren (wf.checkFrom s fuel) children
        return reports ++ checkParents s.heap n ++ below

def check (wf : Wellformed) (s : Scopes) (root : Node) : Option (List Report) :=
  if wf.shapes = [] then some [] else wf.checkFrom s (s.heap.nodes.length + 1) root

end Wellformed

end Trieste.Bindings
