import Mathlib.Data.Set.Finite.Basic
import Mathlib.Order.WellFounded
import Mathlib.Data.Fintype.Card
import Mathlib.Logic.Relation

namespace Trieste.Library
set_option autoImplicit true
open Relation

/-- Some path from `a` leads into a cycle. -/
def CycleFrom (r : α → α → Prop) (a : α) : Prop :=
  ∃ x, ReflTransGen r a x ∧ TransGen r x x

theorem acc_irrefl {r : α → α → Prop} (h : Acc r a) : ¬ r a a := by
  induction h with
  | intro a _ ih => exact fun hr => ih a hr hr

theorem acc_reaches {r : α → α → Prop} (h : Acc (fun x y => r y x) a)
    (hr : ReflTransGen r a b) : Acc (fun x y => r y x) b := by
  induction hr with
  | refl => exact h
  | tail _ hs ih => exact ih.inv hs

theorem not_cycleFrom_of_acc {r : α → α → Prop} (h : Acc (fun x y => r y x) a) :
    ¬ CycleFrom r a := by
  rintro ⟨x, hr, hc⟩
  have hx := (acc_reaches h hr).transGen
  exact acc_irrefl hx (transGen_swap.2 hc)

/-- Where only finitely many elements can be reached, the absence of cycles is well-foundedness. -/
theorem acc_of_not_cycleFrom {r : α → α → Prop} (hfin : {x | ReflTransGen r a x}.Finite)
    (hc : ¬ CycleFrom r a) : Acc (fun x y => r y x) a := by
  let below (x y : {x | ReflTransGen r a x}) : Prop := TransGen r y.1 x.1
  have hfin' : Finite {x | ReflTransGen r a x} := hfin
  have htrans : IsTrans _ below := ⟨fun x y z hxy hyz => hyz.trans hxy⟩
  have hirrefl : Std.Irrefl below := ⟨fun x hx => hc ⟨x.1, x.2, hx⟩⟩
  have hwf : WellFounded below := Finite.wellFounded_of_trans_of_irrefl below
  have hacc (x : {x | ReflTransGen r a x}) : Acc (fun x y => r y x) x.1 := by
    induction x using hwf.induction with
    | _ x ih => exact .intro _ fun y hy => ih ⟨y, x.2.tail hy⟩ (.single hy)
  exact hacc ⟨a, .refl⟩

section Forests

variable {α : Type u} {r : α → α → Prop}

def Forest (r : α → α → Prop) : Prop := ∀ p q c, r p c → r q c → p = q

/-- An element from which no path goes on for ever is on no cycle. -/
theorem acyclic_of_acc (h : Acc (fun c p => r p c) a) : ¬ TransGen r a a := by
  induction h with
  | intro a _ ih =>
    intro hcycle
    obtain ⟨b, hb, hba⟩ := TransGen.head'_iff.1 hcycle
    exact ih b hb (TransGen.tail' hba hb)

theorem acc_of_reaches (h : Acc (fun c p => r p c) a)
    (hab : ReflTransGen r a b) : Acc (fun c p => r p c) b := by
  induction hab with
  | refl => exact h
  | tail _ hbc ih => exact ih.inv hbc

namespace Forest

/-- Of two elements above a third one, one is above the other. -/
theorem total (h : Forest r) (ha : ReflTransGen r a c) (hb : ReflTransGen r b c) :
    ReflTransGen r a b ∨ ReflTransGen r b a := by
  induction ha with
  | refl => exact .inr hb
  | @tail c d hac hcd ih =>
    rcases hb.cases_tail with rfl | ⟨e, hbe, hed⟩
    · exact .inl (hac.tail hcd)
    · rw [h e c d hed hcd] at hbe
      exact ih hbe

/-- What is below two children of one element shows a cycle unless they are one. -/
theorem siblings (h : Forest r) (hacc : Acc (fun c p => r p c) p) (ha : r p a) (hb : r p b)
    (hac : ReflTransGen r a c) (hbc : ReflTransGen r b c) : a = b := by
  have habove : ∀ a b, r p a → r p b → ReflTransGen r a b → a = b := by
    intro a b ha hb hab
    rcases hab.cases_tail with rfl | ⟨q, haq, hqb⟩
    · rfl
    · rw [h q p b hqb hb] at haq
      exact absurd (TransGen.head' ha haq) (acyclic_of_acc hacc)
  rcases h.total hac hbc with hab | hba
  · exact habove a b ha hb hab
  · exact (habove b a hb ha hba).symm

end Forest

end Forests

section Stacks

/-- The node on top of a stack is replaced. -/
inductive StackStep (expands : α → List α → Prop) : List α → List α → Prop
  | pop (h : expands a succs) (rest : List α) : StackStep expands (a :: rest) (succs ++ rest)

def Expansion (expands : α → List α → Prop) (a b : α) : Prop :=
  ∃ succs, expands a succs ∧ b ∈ succs

def StackEnds (expands : α → List α → Prop) (stack : List α) : Prop :=
  Acc (fun s t => StackStep expands t s) stack

variable {expands : α → List α → Prop}

theorem StackEnds.nil : StackEnds expands [] :=
  .intro _ nofun

theorem StackEnds.append {front rest : List α} (h : ∀ a ∈ front, ∀ rest, StackEnds expands rest →
    StackEnds expands (a :: rest)) (hrest : StackEnds expands rest) :
    StackEnds expands (front ++ rest) := by
  induction front with
  | nil => exact hrest
  | cons a front ih =>
    rw [List.forall_mem_cons] at h
    exact h.1 _ (ih h.2)

theorem StackEnds.cons (h : Acc (fun x y => Expansion expands y x) a)
    (hrest : StackEnds expands rest) : StackEnds expands (a :: rest) := by
  induction h generalizing rest with
  | intro a _ ih =>
    refine .intro _ fun stack hs => ?_
    cases hs with
    | pop hs => exact StackEnds.append (fun b hb rest hr => ih b ⟨_, hs, hb⟩ hr) hrest

theorem StackEnds.acc (htotal : ∀ a, ∃ succs, expands a succs) (h : StackEnds expands stack) :
    ∀ a ∈ stack, Acc (fun x y => Expansion expands y x) a := by
  induction h with
  | intro stack _ ih =>
    intro a ha
    cases stack with
    | nil => exact absurd ha List.not_mem_nil
    | cons b rest =>
      rcases List.mem_cons.1 ha with rfl | ha
      · refine .intro _ fun c hc => ?_
        obtain ⟨succs, hs, hc⟩ := hc
        exact ih _ (.pop hs rest) c (List.mem_append_left _ hc)
      · obtain ⟨succs, hs⟩ := htotal b
        exact ih _ (.pop hs rest) a (List.mem_append_right _ ha)

/-- Every run from one node ends exactly where its expansions are well founded. -/
theorem stackEnds_singleton (htotal : ∀ a, ∃ succs, expands a succs) (a : α) :
    StackEnds expands [a] ↔ Acc (fun x y => Expansion expands y x) a :=
  ⟨fun h => h.acc htotal a (List.mem_singleton_self a), fun h => .cons h .nil⟩

end Stacks

end Trieste.Library
