import Mathlib.Data.List.Basic

namespace Trieste.Library
set_option autoImplicit true

/-- A tree with a label for the start of each inner node and one for its end. -/
inductive EventTree (α β γ : Type) where
  | leaf (a : α)
  | node (b : β) (c : γ) (children : List (EventTree α β γ))

inductive TreeEvent (α β γ : Type) where
  | leaf (a : α)
  | enter (b : β)
  | leave (c : γ)

namespace EventTree
variable {α β γ : Type}

mutual

def events : EventTree α β γ → List (TreeEvent α β γ)
  | leaf a => [.leaf a]
  | node b c children => .enter b :: (eventsAll children ++ [.leave c])

def eventsAll : List (EventTree α β γ) → List (TreeEvent α β γ)
  | [] => []
  | t :: ts => t.events ++ eventsAll ts

end

mutual

def Fits (fits : β → γ → Bool) : EventTree α β γ → Prop
  | leaf _ => True
  | node b c children => fits b c = true ∧ FitsAll fits children

def FitsAll (fits : β → γ → Bool) : List (EventTree α β γ) → Prop
  | [] => True
  | t :: ts => t.Fits fits ∧ FitsAll fits ts

end

end EventTree

/-- The trees that have been read on the level at hand, and the nodes that are open, each with the
trees before it. -/
structure EventReader (α β γ : Type) where
  trees : List (EventTree α β γ) := []
  above : List (β × List (EventTree α β γ)) := []

namespace EventReader
variable {α β γ : Type} (fits : β → γ → Bool)

def read (r : EventReader α β γ) : TreeEvent α β γ → Option (EventReader α β γ)
  | .leaf a => some { r with trees := r.trees ++ [.leaf a] }
  | .enter b => some ⟨[], (b, r.trees) :: r.above⟩
  | .leave c =>
    match r.above with
    | [] => none
    | (b, trees) :: above =>
      if fits b c then some ⟨trees ++ [.node b c r.trees], above⟩ else none

def readAll (r : EventReader α β γ) (es : List (TreeEvent α β γ)) : Option (EventReader α β γ) :=
  es.foldlM (read fits) r

variable {fits}

theorem readAll_append (r : EventReader α β γ) (es fs : List (TreeEvent α β γ)) :
    r.readAll fits (es ++ fs) = (r.readAll fits es).bind fun r => r.readAll fits fs :=
  List.foldlM_append

mutual

theorem readAll_events (r : EventReader α β γ) : ∀ t : EventTree α β γ, t.Fits fits →
    r.readAll fits t.events = some { r with trees := r.trees ++ [t] }
  | .leaf a, _ => rfl
  | .node b c children, h => by
    have hchildren := readAll_eventsAll ⟨[], (b, r.trees) :: r.above⟩ children h.2
    rw [EventTree.events, ← List.singleton_append, readAll_append]
    show readAll fits ⟨[], (b, r.trees) :: r.above⟩ _ = _
    rw [readAll_append, hchildren, Option.bind_some, List.nil_append]
    show read fits ⟨children, (b, r.trees) :: r.above⟩ (.leave c) >>= pure = _
    rw [read, bind_pure]
    exact if_pos h.1

theorem readAll_eventsAll (r : EventReader α β γ) : ∀ ts : List (EventTree α β γ),
    EventTree.FitsAll fits ts →
      r.readAll fits (EventTree.eventsAll ts) = some { r with trees := r.trees ++ ts }
  | [], _ => by
    rw [List.append_nil]
    rfl
  | t :: ts, h => by
    rw [EventTree.eventsAll, readAll_append, readAll_events r t h.1, Option.bind_some,
      readAll_eventsAll _ ts h.2, List.append_assoc]
    rfl

end

end EventReader

end Trieste.Library
