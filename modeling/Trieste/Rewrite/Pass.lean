import Trieste.Library.Traversal
import Trieste.Rewrite.Dispatch
import Trieste.Rewrite.Splice

namespace Trieste
set_option autoImplicit true
open Library

/-- What an effect returns: `NoChange`, whose node is dropped with the answer, or another result,
with the nodes that it has built or edited. -/
inductive Answer
  | noChange
  | built (heap : Heap) (result : Option Node)

/-- An effect. It returns nothing where it throws or does not end. -/
structure Effect where
  run : Match Node → Heap → Option Answer
  built_ne : ∀ {m heap heap' n}, run m heap = some (.built heap' (some n)) →
    (heap'.get n).type ≠ .noChange

/-- A function of a pass on a node, which returns how many changes it has made. -/
abbrev Hook := Heap → Node → Option (Heap × Nat)

namespace Heap

/-- What a pattern reads of a tree, with the full match of the regex library. -/
def nodeView (h : Heap) (fullMatch : String → String → Bool) : NodeView Node where
  type n := (h.get n).type
  view n := (h.get n).location.view
  children n := (h.get n).children
  parent n := (h.get n).parent
  fullMatch := fullMatch

/-- `range_contains_error` for the children from `start` up to `it`. -/
def rangeContainsError (h : Heap) (node : Node) (start it : Nat) : Bool :=
  (((h.get node).children.take it).drop start).any fun n =>
    decide ((h.get n).type = .error) || h.flag n .error

/-- The loop of `lift` over the lifted nodes of a child. -/
def liftNodes (node : Node) (h : Heap) (it : Nat) (uplift : List Node) (advance : Bool) :
    List Node → Option (Heap × Nat × List Node × Bool)
  | [] => some (h, it, uplift, advance)
  | lnode :: lifted =>
    (h.get lnode).children.head?.bind fun front =>
      if (h.get front).type = (h.get node).type then
        let nodes := (h.get lnode).children.tail
        liftNodes node (h.insertRange node it nodes) (it + nodes.length) uplift false lifted
      else liftNodes node h it (uplift ++ [lnode]) advance lifted

mutual

/-- The function `lift` of a pass: the `Lift` nodes for which there is no destination below the
node. Nothing is returned where a `Lift` node without children is read. -/
def liftNode : Nat → Heap → Node → Option (Heap × List Node)
  | 0, _, _ => none
  | fuel + 1, h, node =>
    if h.flag node .lift then liftLoop fuel (h.setFlag node .lift false) node 0 []
    else some (h, [])

/-- The loop of `lift` over the children of a node. -/
def liftLoop : Nat → Heap → Node → Nat → List Node → Option (Heap × List Node)
  | 0, _, _, _, _ => none
  | fuel + 1, h, node, it, uplift =>
    match (h.get node).children[it]? with
    | none => some (h, uplift)
    | some child =>
      (liftNode fuel h child).bind fun (h, lifted) =>
        let isLift := decide ((h.get child).type = .lift)
        let h := if isLift then h.erase node it (it + 1) else h
        (liftNodes node h it uplift (!isLift) (if isLift then child :: lifted else lifted)).bind
          fun (h, it, uplift, advance) =>
            liftLoop fuel h node (if advance then it + 1 else it) uplift

end

end Heap

/-- What the runs of a pass work on. -/
structure PassState where
  heap : Heap
  captures : Match Node
  changes : Nat

/-- A pass with its rule table. -/
structure PassDef where
  hash : DefaultMapHash
  order : SetOrder
  rules : List (Rule Node Effect)
  fullMatch : String → String → Bool
  topdown : Bool
  once : Bool
  cond : Option (Heap → Node → Bool) := none
  preOnce : Option Hook := none
  postOnce : Option Hook := none
  pre : Token → Option Hook := fun _ => none
  post : Token → Option Hook := fun _ => none

namespace PassDef

/-- The rules that are tried for a child of this type under a node of this type. -/
def specificRules (pass : PassDef) (parent start : Token) : List (Rule Node Effect) :=
  (compileRules pass.hash pass.order pass.rules).select pass.hash parent start

section Run
variable (pass : PassDef) (fuel : Nat)

/-- The rules one after the other at a child, up to one that makes a change, with what it made and
where that is. -/
def tryRules (node : Node) (start : Nat) : List (Rule Node Effect) → Heap → Match Node →
    Option (Heap × Match Node × Option (Replaced × Nat))
  | [], h, m => some (h, m, none)
  | (pattern, effect) :: rules, h, m =>
    (pattern.pattern.matchAt (h.nodeView pass.fullMatch) fuel start node m.reset).bind
      fun (matched, it, m) =>
        if matched && !h.rangeContainsError node start it then
          (effect.run m h).bind fun
            | .noChange => tryRules node start rules h m
            | .built h' result =>
              (PassDef.replace h' fuel node start it result).bind fun (h', replaced, pos) =>
                some (h', m, some (replaced, pos))
        else tryRules node start rules h m

/-- The loop of `match_children`. The nodes that a node's type has no rules for are passed over. -/
def matchLoop (node : Node) : Nat → PassState → Nat → Option PassState
  | 0, _, _ => none
  | bound + 1, s, it =>
    match (s.heap.get node).children[it]? with
    | none => some s
    | some start =>
      (pass.tryRules fuel node it
        (pass.specificRules (s.heap.get node).type (s.heap.get start).type) s.heap s.captures).bind
        fun
          | (heap, captures, none) => matchLoop node bound { s with heap, captures } (it + 1)
          | (heap, captures, some (replaced, pos)) =>
            let s := ⟨heap, captures, s.changes + 1⟩
            match replaced with
            | .noChange => none
            | .reapply => matchLoop node bound s pos
            | .replaced count => matchLoop node bound s (if pass.once then pos + count else 0)

/-- `match_children` -/
def matchChildren (s : PassState) (node : Node) : Option PassState :=
  pass.matchLoop fuel node fuel s 0

def runHook (hook : Option Hook) (s : PassState) (node : Node) : Option PassState :=
  match hook with
  | none => some s
  | some hook => (hook s.heap node).map fun (heap, changes) =>
      { s with heap, changes := s.changes + changes }

/-- The walk of `apply_special`. -/
def walk : TreeWalk PassState Node where
  children s n := (s.heap.get n).children
  pre s n :=
    if (s.heap.get n).type.has Flag.internal then some (false, s)
    else
      (runHook (pass.pre (s.heap.get n).type) s n).bind fun s =>
        (if pass.topdown then pass.matchChildren fuel s n else some s).map fun s => (true, s)
  post s n :=
    (if pass.topdown then some s else pass.matchChildren fuel s n).bind fun s =>
      runHook (pass.post (s.heap.get n).type) s n

/-- `apply`, with the number of changes from zero on. -/
def apply (h : Heap) (m : Match Node) (root : Node) : Option PassState :=
  (pass.walk fuel).traverse fuel ⟨h, m, 0⟩ root

/-- The loop of `run`, with the number of its rounds; nothing where a node that is lifted finds no
destination. -/
def rounds (node : Node) : Nat → Heap → Match Node → Nat → Nat → Option (Heap × Nat × Nat)
  | 0, _, _, _, _ => none
  | bound + 1, h, m, count, sum =>
    (pass.apply fuel h m node).bind fun s =>
      (s.heap.liftNode fuel node).bind fun (h, lifted) =>
        if lifted ≠ [] then none
        else if pass.once || s.changes == 0 then some (h, count + 1, sum + s.changes)
        else rounds node bound h s.captures (count + 1) (sum + s.changes)

/-- `run`, with the number of rounds and of changes. -/
def run (h : Heap) (m : Match Node) (node : Node) : Option (Heap × Nat × Nat) :=
  if pass.cond.any fun cond => !cond h node then some (h, 0, 0)
  else
    (runHook pass.preOnce ⟨h, m, 0⟩ node).bind fun s =>
      (pass.rounds fuel node fuel s.heap s.captures 0 s.changes).bind fun (h, count, sum) =>
        (runHook pass.postOnce ⟨h, m, sum⟩ node).map fun s => (s.heap, count, s.changes)

end Run

end PassDef

end Trieste
