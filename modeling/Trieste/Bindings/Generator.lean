import Trieste.Bindings
import Trieste.Wf.Gen
import Trieste.Xoroshiro

namespace Trieste.Bindings
set_option autoImplicit true
open Wf

/-- What the generation throws. -/
inductive Failure
  | choice (e : GenError)
  | outside
  | noSymbolTable
  deriving DecidableEq

/-- The types of the key of a definition, with the index of the key. -/
abbrev SymtabKeys := List Token × Nat

/-- A generator with the keys of the bindings. -/
structure Generator extends Wf.Gen where
  bindingKeys : List (Token × SymtabKeys)
  genBoundVars : Bool

namespace Wellformed

/-- The keys of the shapes. It throws where a binding is not the name of a field. -/
def keysOf : List (Token × Shape) → Except Failure (List (Token × SymtabKeys))
  | [] => .ok []
  | (_, .sequence _) :: shapes => keysOf shapes
  | (type, .fields f) :: shapes =>
    if f.binding = .invalid then keysOf shapes
    else
      match f.index f.binding with
      | none => .error .outside
      | some index =>
        match f.fields[index]? with
        | none => .error .outside
        | some field => do return (type, (field.choice.types, index)) :: (← keysOf shapes)

def populateBindingKeys (wf : Wellformed) : Except Failure (List (Token × SymtabKeys)) :=
  keysOf wf.shapes

/-- The generator of a definition with `gen_bound`. -/
def generator (wf : Wellformed) (g : Wf.Gen) : Except Failure Generator := do
  return { g with bindingKeys := ← wf.populateBindingKeys, genBoundVars := true }

end Wellformed

/-- `set_location` -/
def setLocation (h : Heap) (n : Node) (location : Location) : Heap :=
  h.modify n fun d => { d with location }

namespace Generator

/-- `binding_keys[type].second`. A missing entry is added with no types and the index zero. -/
def keyIndex (g : Generator) (type : Token) : Nat :=
  ((g.bindingKeys.lookup type).map Prod.snd).getD 0

/-- A binding key of the type admits the child's type. -/
def admits (g : Generator) (type childType : Token) : Bool :=
  match g.bindingKeys.lookup type with
  | some keys => keys.1.contains childType
  | none => false

/-- The symbols of a scope in the order of their names, and of one name in the order in which they
were bound. -/
def getSymbols (g : Generator) (s : Scopes) (childType : Token) : Option Node → List Node
  | none => []
  | some st =>
    let symbols := s.symbols.filter fun b => b.scope = st ∧
      (s.heap.get b.node).type.has Flag.lookup ∧ g.admits (s.heap.get b.node).type childType
    (symbols.mergeSort fun x y => !decide (y.name < x.name)).map Json.Binding.node

def shouldGenBound (g : Generator) (h : Heap) (parent : Node) (childType : Token) : Bool :=
  if ¬ g.genBoundVars then false
  else
    let boundNodes := (g.bindingKeys.filter fun keys => keys.2.1.contains childType).map Prod.fst
    let type := (h.get parent).type
    if boundNodes = [] then false
    else if type ∉ boundNodes then true
    else
      let childIndex := ((h.get parent).children.length + UInt64.size - 1) % UInt64.size
      g.keyIndex type ≠ childIndex ∨ ¬ type.has Flag.shadowing

/-- The symbol that a result selects, where its location is taken. -/
def selected (g : Generator) (s : Scopes) (parent child : Node) (result : UInt32) : Option Node :=
  let type := (s.heap.get child).type
  let symbols := g.getSymbols s type (s.scope parent)
  if g.shouldGenBound s.heap parent type then symbols[result.toNat % (symbols.length + 1)]?
  else none

/-- `location`, given the fresh location of the child. -/
def location (g : Generator) (s : Scopes) (fresh : Location) (parent child : Node)
    (result : UInt32) : Except Failure Location :=
  match g.selected s parent child result with
  | none => .ok fresh
  | some symbol =>
    match (s.heap.get symbol).children[g.keyIndex (s.heap.get child).type]? with
    | none => .error .outside
    | some key => .ok (s.heap.get key).location

/-- The fresh locations of `gloc`, with the number of results that are used up. -/
abbrev FreshLocations := Heap → Node → Draws → Nat → Location × Nat

variable (g : Generator) (gloc : FreshLocations) (draws : Draws)

/-- `gen` of a choice. A result decides about the location after the type is chosen. -/
def genChoice (c : Wf.Choice) (depth : Nat) (node : Node) (s : Scopes) (i : Nat) :
    Except Failure (Scopes × Nat) := do
  let (type, i) ← (g.choose c.types depth (s.heap.get node).type draws i).mapError .choice
  let (heap, child) := s.heap.create type {}
  let s : Scopes := { s with heap := heap.pushBack node (some child) }
  let (fresh, after) := gloc s.heap child draws (i + 1)
  let location ← g.location s fresh node child (draws i)
  let i := if (g.selected s node child (draws i)).isSome then i + 1 else after
  return ({ s with heap := setLocation s.heap child location }, i)

/-- `gen` of fields. The node is bound to the child of each field with the name of the binding. -/
def genFields (f : Fields) (depth : Nat) (node : Node) :
    List Field → Scopes × Nat → Except Failure (Scopes × Nat)
  | [], result => .ok result
  | field :: fields, (s, i) => do
    let (s, i) ← g.genChoice gloc draws field.choice depth node s i
    if f.binding = field.name then
      let back := (s.heap.get node).children.getLastD 0
      match s.bind node (s.heap.get back).location with
      | none => .error .noSymbolTable
      | some (s, _) => genFields f depth node fields (s, i)
    else genFields f depth node fields (s, i)

def genCount (c : Wf.Choice) (depth : Nat) (node : Node) :
    Nat → Scopes × Nat → Except Failure (Scopes × Nat)
  | 0, result => .ok result
  | count + 1, (s, i) => do
    genCount c depth node count (← g.genChoice gloc draws c depth node s i)

/-- As many children as are left of the greatest length, while the results are odd. -/
def genMore (c : Wf.Choice) (depth : Nat) (node : Node) :
    Nat → Scopes × Nat → Except Failure (Scopes × Nat)
  | 0, result => .ok result
  | left + 1, (s, i) =>
    if (draws i).toNat % 2 = 1 then do
      genMore c depth node left (← g.genChoice gloc draws c depth node s (i + 1))
    else .ok (s, i + 1)

def genShape (depth : Nat) (node : Node) (s : Scopes) (i : Nat) :
    Shape → Except Failure (Scopes × Nat)
  | .fields f => g.genFields gloc draws f depth node f.fields (s, i)
  | .sequence q => do
    let (s, i) ← g.genCount gloc draws q.choice depth node q.minLen (s, i)
    if g.targetDepth ≤ depth ∨ (q.choice.types.map g.weightFor).sum % UInt64.size = 0 then return (s, i)
    else g.genMore gloc draws q.choice depth node (q.maxLen - q.minLen) (s, i)

end Generator

/-- `gen_node` for the pending nodes with their depths, the next one first. -/
def Wellformed.genNodes (wf : Wellformed) (g : Generator) (gloc : Generator.FreshLocations)
    (draws : Draws) : Nat → List (Nat × Node) → Scopes → Nat →
      Option (Except Failure (Scopes × Nat))
  | 0, _, _, _ => none
  | _ + 1, [], s, i => some (.ok (s, i))
  | fuel + 1, (depth, node) :: pending, s, i =>
    match wf.find (s.heap.get node).type with
    | none => wf.genNodes g gloc draws fuel pending s i
    | some shape =>
      match g.genShape gloc draws depth node s i shape with
      | .error e => some (.error e)
      | .ok (s, i) =>
        let children := (s.heap.get node).children
        wf.genNodes g gloc draws fuel (children.map (depth + 1, ·) ++ pending) s i

end Trieste.Bindings

namespace Trieste

namespace Rand

/-- The results of a generator one after the other. -/
def results (r : Rand) : Wf.Draws := fun i => result (next^[i] r)

end Rand

namespace Bindings
set_option autoImplicit true

def Shape.plain : Shape → Wf.Shape
  | .sequence s => .sequence s
  | .fields f => .fields ⟨f.fields.map Field.toField⟩

namespace Wellformed

def plain (wf : Wellformed) : Trieste.Wellformed where
  shapes := wf.shapes.map fun entry => (entry.1, entry.2.plain)
  distinct := by
    rw [List.map_map]
    exact wf.distinct

end Wellformed

/-- What a call of the generation ends with. -/
inductive Generated (A : Type)
  | tree (tree : A)
  | thrown (failure : Failure)
  | aborted

/-- A tree of nodes that is a `Top` alone. -/
def topOnly : Scopes where heap := (Heap.create {} .top {}).1

namespace Wellformed

def genKeys (wf : Wellformed) (genBound : Bool) : Except Failure (List (Token × SymtabKeys)) :=
  if genBound then wf.populateBindingKeys else .ok []

/-- `gen`, with the nodes of the tree below node 0. The generator is warmed up with ten results. -/
def gen (wf : Wellformed) (gloc : Generator.FreshLocations) (seed : UInt64) (targetDepth : Nat)
    (genBound : Bool) (tokenWeights : List (Token × Nat)) (fuel : Nat) :
    Option (Generated Scopes) :=
  match wf.genKeys genBound with
  | .error e => some (.thrown e)
  | .ok bindingKeys =>
    match wf.plain.computeMinimumDistanceToTerminal targetDepth with
    | none => none
    | some tokenTerminalDistance =>
      match Rand.state seed 10 with
      | none => some .aborted
      | some rand =>
        let g : Generator := { tokenTerminalDistance, targetDepth, tokenWeights, bindingKeys,
                               genBoundVars := genBound }
        (wf.genNodes g gloc rand.results fuel [(0, 0)] topOnly 0).map fun
          | .ok (tree, _) => .tree tree
          | .error e => .thrown e

/-- `gen` with the results of any generator of random numbers in the place of a seed. -/
def genWith (wf : Wellformed) (gloc : Generator.FreshLocations) (draws : Wf.Draws)
    (targetDepth : Nat) (genBound : Bool) (tokenWeights : List (Token × Nat)) (fuel : Nat) :
    Option (Generated Scopes) :=
  match wf.genKeys genBound with
  | .error e => some (.thrown e)
  | .ok bindingKeys =>
    match wf.plain.computeMinimumDistanceToTerminal targetDepth with
    | none => none
    | some tokenTerminalDistance =>
      let g : Generator := { tokenTerminalDistance, targetDepth, tokenWeights, bindingKeys,
                             genBoundVars := genBound }
      (wf.genNodes g gloc draws fuel [(0, 0)] topOnly 0).map fun
        | .ok (tree, _) => .tree tree
        | .error e => .thrown e

theorem gen_genWith (wf : Wellformed) (h : Rand.state seed 10 = some rand) :
    wf.gen gloc seed targetDepth genBound tokenWeights fuel =
      wf.genWith gloc rand.results targetDepth genBound tokenWeights fuel := by
  rw [gen, genWith, h]

theorem gen_aborted {wf : Wellformed}
    (h : wf.gen gloc seed targetDepth genBound tokenWeights fuel = some .aborted) : seed = 0 := by
  by_contra hseed
  obtain ⟨hstate, -⟩ := Rand.state_eq hseed 10
  unfold gen at h
  cases hkeys : wf.genKeys genBound with
  | error e => simp only [hkeys, Option.some.injEq, reduceCtorEq] at h
  | ok keys =>
    cases hdistance : wf.plain.computeMinimumDistanceToTerminal targetDepth with
    | none => simp only [hkeys, hdistance, reduceCtorEq] at h
    | some distance =>
      simp only [hkeys, hdistance, hstate, Option.map_eq_some_iff] at h
      obtain ⟨result, -, hresult⟩ := h
      cases result with
      | ok tree => cases hresult
      | error e => cases hresult

end Wellformed

end Bindings

end Trieste
