import Mathlib.Data.List.Basic
import Mathlib.Logic.Relation
import Mathlib.Order.Nat

namespace Trieste.Library
set_option autoImplicit true
open Relation

/-- The children of a node in a state, what is done before them, which says whether to go down to
them, and what is done behind them. Nothing is returned where an action fails. -/
structure TreeWalk (σ N : Type) where
  children : σ → N → List N
  pre : σ → N → Option (Bool × σ)
  post : σ → N → Option σ

namespace TreeWalk

/-- The loop of a walk, with the path of the nodes above and a position among the children of each;
nothing where it does not end within the fuel. -/
def loop (w : TreeWalk σ N) : Nat → σ → List (N × Nat) → Option σ
  | 0, _, _ => none
  | _ + 1, s, [] => some s
  | fuel + 1, s, (node, it) :: path =>
    match (w.children s node)[it]? with
    | none => (w.post s node).bind fun s => w.loop fuel s path
    | some curr => (w.pre s curr).bind fun (down, s) =>
        w.loop fuel s (if down then (curr, 0) :: (node, it + 1) :: path
          else (node, it + 1) :: path)

def traverse (w : TreeWalk σ N) (fuel : Nat) (s : σ) (root : N) : Option σ :=
  (w.pre s root).bind fun (down, s) => if down then w.loop fuel s [(root, 0)] else some s

/-- Where a walk is: at a node, or at a position among its children. -/
inductive Stage
  | enter
  | child (it : Nat)

/-- The walk by recursion, from a node down or over its children from a position on, with what is
done behind them. -/
inductive Visits (w : TreeWalk σ N) : σ → N → Stage → σ → Prop
  | skip (hpre : w.pre s n = some (false, s')) : Visits w s n .enter s'
  | down (hpre : w.pre s n = some (true, s₁)) (hrest : Visits w s₁ n (.child 0) s') :
      Visits w s n .enter s'
  | done (hend : (w.children s n)[it]? = none) (hpost : w.post s n = some s') :
      Visits w s n (.child it) s'
  | next (hchild : (w.children s n)[it]? = some c) (hbelow : Visits w s c .enter s₁)
      (hrest : Visits w s₁ n (.child (it + 1)) s') : Visits w s n (.child it) s'

variable {w : TreeWalk σ N}

def resume (w : TreeWalk σ N) (fuel : Nat) (s : σ) (n : N) (path : List (N × Nat)) :
    Stage → Option σ
  | .enter => (w.pre s n).bind fun (down, s) =>
      w.loop fuel s (if down then (n, 0) :: path else path)
  | .child it => w.loop fuel s ((n, it) :: path)

theorem Visits.resume (hv : w.Visits s n stage s') {fuel : Nat} {path : List (N × Nat)}
    (hpath : w.loop fuel s' path = some t) : ∃ fuel', w.resume fuel' s n path stage = some t := by
  induction hv generalizing fuel path with
  | skip hpre =>
    refine ⟨fuel, ?_⟩
    rw [TreeWalk.resume, hpre]
    exact hpath
  | down hpre _ ih =>
    obtain ⟨fuel', hloop⟩ := ih hpath
    refine ⟨fuel', ?_⟩
    rw [TreeWalk.resume, hpre]
    exact hloop
  | done hend hpost =>
    refine ⟨fuel + 1, ?_⟩
    rw [TreeWalk.resume, loop, hend]
    dsimp only
    rw [hpost]
    exact hpath
  | next hchild _ _ ihbelow ihrest =>
    obtain ⟨fuel₁, hnext⟩ := ihrest hpath
    obtain ⟨fuel₂, hloop⟩ := ihbelow hnext
    refine ⟨fuel₂ + 1, ?_⟩
    rw [TreeWalk.resume, loop, hchild]
    exact hloop

/-- A count that never falls; where it stands still, so does what the walk depends on, and the node
at hand has been found as it should be. -/
structure Counts (w : TreeWalk σ N) (count : σ → Nat) (tree : σ → δ) (kids : δ → N → List N)
    (goes : δ → N → Prop) (before behind : δ → N → Prop) : Prop where
  children : ∀ s n, w.children s n = kids (tree s) n
  pre : ∀ s n down s', w.pre s n = some (down, s') → count s ≤ count s' ∧ (count s' = count s →
    tree s' = tree s ∧ (down = true ↔ goes (tree s) n) ∧ before (tree s) n)
  post : ∀ s n s', w.post s n = some s' → count s ≤ count s' ∧ (count s' = count s →
    tree s' = tree s ∧ behind (tree s) n)

section Counts
variable {δ : Type} {count : σ → Nat} {tree : σ → δ} {kids : δ → N → List N}
  {goes before behind : δ → N → Prop}

/-- A node below another one, on a way that the walk takes. -/
def Reached (kids : δ → N → List N) (goes : δ → N → Prop) (d : δ) : N → N → Prop :=
  ReflTransGen fun p c => goes d p ∧ c ∈ kids d p

/-- What a walk that has counted nothing has found, from a stage on. -/
def Found (kids : δ → N → List N) (goes before behind : δ → N → Prop) (d : δ) (n : N) :
    Stage → Prop
  | .enter => ∀ m, Reached kids goes d n m → before d m ∧ (goes d m → behind d m)
  | .child it => behind d n ∧ ∀ i, it ≤ i → ∀ c, (kids d n)[i]? = some c →
      ∀ m, Reached kids goes d c m → before d m ∧ (goes d m → behind d m)

end Counts

end TreeWalk

end Trieste.Library
