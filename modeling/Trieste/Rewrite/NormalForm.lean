import Mathlib.Data.Finset.Dedup
import Trieste.Rewrite.Pass

namespace Trieste
set_option autoImplicit true
open Library Relation

/-- Only the flags for lifted nodes may differ. -/
structure Heap.SameTree (h h' : Heap) : Prop where
  length : h'.nodes.length = h.nodes.length
  type : ∀ n, (h'.get n).type = (h.get n).type
  location : ∀ n, (h'.get n).location = (h.get n).location
  parent : ∀ n, (h'.get n).parent = (h.get n).parent
  children : ∀ n, (h'.get n).children = (h.get n).children
  error : ∀ n, h'.flag n .error = h.flag n .error

namespace Heap.SameTree

theorem refl (h : Heap) : SameTree h h :=
  ⟨rfl, fun _ => rfl, fun _ => rfl, fun _ => rfl, fun _ => rfl, fun _ => rfl⟩

theorem trans (h : SameTree heap heap₁) (h' : SameTree heap₁ heap₂) : SameTree heap heap₂ where
  length := h'.length.trans h.length
  type n := (h'.type n).trans (h.type n)
  location n := (h'.location n).trans (h.location n)
  parent n := (h'.parent n).trans (h.parent n)
  children n := (h'.children n).trans (h.children n)
  error n := (h'.error n).trans (h.error n)

end Heap.SameTree

namespace Heap

def NoLift (h : Heap) (root : Node) : Prop := ∀ n, h.InTree root n → (h.get n).type ≠ .lift

theorem NoLift.child (h : NoLift heap n) (hc : heap.HasChild n c) : NoLift heap c :=
  fun m hm => h m (hm.head hc)

end Heap

namespace PassDef

/-- A rule changes nothing at a child: it does not match there, or it matches nodes with an error
in them, or its effect says so. -/
def Idle (pass : PassDef) (h : Heap) (node : Node) (start : Nat) (rule : Rule Node Effect) : Prop :=
  ∀ e : PatternExpr Node, e.build = .ok rule.1 →
    e.parse (h.nodeView pass.fullMatch) node start = none ∨
    ∃ it captures, e.parse (h.nodeView pass.fullMatch) node start = some (it, captures) ∧
      (h.rangeContainsError node start it = true ∨
        ∃ m m', rule.1.Matches (h.nodeView pass.fullMatch) node start m true it m' ∧
          rule.2.run m' h = some .noChange)

def Settled (pass : PassDef) (h : Heap) (node : Node) : Prop :=
  ∀ start c, (h.get node).children[start]? = some c →
    ∀ rule ∈ pass.specificRules (h.get node).type (h.get c).type, pass.Idle h node start rule

def Quiet (hook : Hook) : Prop := ∀ h n h', hook h n = some (h', 0) → h' = h

section Run
variable {pass : PassDef} {fuel : Nat}

/-- A round of `run`: a sweep, and the lift behind it. -/
def Round (pass : PassDef) (fuel : Nat) (node : Node) (x y : Heap × Match Node) : Prop :=
  ∃ s, pass.apply fuel x.1 x.2 node = some s ∧ s.captures = y.2 ∧
    s.heap.liftNode fuel node = some (y.1, [])

end Run

end PassDef

end Trieste
