import Mathlib.Data.Set.Basic
import Mathlib.Logic.Relation

namespace Trieste.Library
set_option autoImplicit true
open Relation

/-- Paths of a given length. -/
inductive Steps (step : α → α → Prop) : Nat → α → α → Prop
  | refl (a : α) : Steps step 0 a a
  | head (h : step a b) (hs : Steps step n b c) : Steps step (n + 1) a c

theorem Steps.of_reaches {step : α → α → Prop} (h : ReflTransGen step a b) :
    ∃ n, Steps step n a b := by
  induction h using ReflTransGen.head_induction_on with
  | refl => exact ⟨0, .refl _⟩
  | head hs _ ih =>
    obtain ⟨n, hn⟩ := ih
    exact ⟨n + 1, .head hs hn⟩

/-- From `start`, the machine can reach `exit` exactly by the pairs of positions in `R`: every
path that leaves the states of the fragment comes through `exit`. -/
structure Fragment (step : σ × ι → σ × ι → Prop) (states : Set σ) (start exit : σ)
    (R : ι → ι → Prop) : Prop where
  complete : ∀ i j, R i j → ReflTransGen step (start, i) (exit, j)
  sound : ∀ n i t k, Steps step n (start, i) (t, k) → t ∉ states →
    ∃ j m, m ≤ n ∧ R i j ∧ Steps step m (exit, j) (t, k)

namespace Fragment
variable {step : σ × ι → σ × ι → Prop} {states states' : Set σ} {R R' : ι → ι → Prop}

theorem mono (h : Fragment step states start exit R) (hs : states ⊆ states') :
    Fragment step states' start exit R :=
  ⟨h.complete, fun n i t k hp ht => h.sound n i t k hp fun hm => ht (hs hm)⟩

theorem congr (h : Fragment step states start exit R) (hR : ∀ i j, R i j ↔ R' i j) :
    Fragment step states start exit R' := by
  refine ⟨fun i j hij => h.complete i j ((hR i j).2 hij), fun n i t k hp ht => ?_⟩
  obtain ⟨j, m, hm, hij, hs⟩ := h.sound n i t k hp ht
  exact ⟨j, m, hm, (hR i j).1 hij, hs⟩

theorem skip (states : Set σ) (s : σ) : Fragment step states s s fun i j => j = i := by
  refine ⟨fun i j hij => ?_, fun n i t k hp _ => ⟨i, n, Nat.le_refl n, rfl, hp⟩⟩
  rw [hij]

/-- A single state with all its steps to the exit. -/
theorem atom (hq : q ∈ states) (hstep : ∀ i t j, step (q, i) (t, j) ↔ t = exit ∧ R i j) :
    Fragment step states q exit R := by
  refine ⟨fun i j hij => .single ((hstep i exit j).2 ⟨rfl, hij⟩), fun n i t k hp ht => ?_⟩
  cases hp with
  | refl => exact absurd hq ht
  | @head _ c n _ hs hp =>
    obtain ⟨t', j⟩ := c
    obtain ⟨rfl, hij⟩ := (hstep i t' j).1 hs
    exact ⟨j, n, Nat.le_succ n, hij, hp⟩

theorem seq (h : Fragment step states start mid R) (h' : Fragment step states mid exit R') :
    Fragment step states start exit (Comp R R') := by
  constructor
  · rintro i k ⟨j, hij, hjk⟩
    exact (h.complete i j hij).trans (h'.complete j k hjk)
  · intro n i t k hp ht
    obtain ⟨j, m, hm, hij, hs⟩ := h.sound n i t k hp ht
    obtain ⟨l, m', hm', hjl, hs'⟩ := h'.sound m j t k hs ht
    exact ⟨l, m', hm'.trans hm, ⟨j, hij, hjl⟩, hs'⟩

/-- A state with two ways on, both of which lead to the exit. -/
theorem branch (hq : q ∈ states)
    (hstep : ∀ i t j, step (q, i) (t, j) ↔ (t = left ∨ t = right) ∧ j = i)
    (h : Fragment step states left exit R) (h' : Fragment step states right exit R') :
    Fragment step states q exit fun i j => R i j ∨ R' i j := by
  constructor
  · rintro i j (hij | hij)
    · exact .head ((hstep i left i).2 ⟨.inl rfl, rfl⟩) (h.complete i j hij)
    · exact .head ((hstep i right i).2 ⟨.inr rfl, rfl⟩) (h'.complete i j hij)
  · intro n i t k hp ht
    cases hp with
    | refl => exact absurd hq ht
    | @head _ c n _ hs hp =>
      obtain ⟨t', j'⟩ := c
      obtain ⟨rfl | rfl, rfl⟩ := (hstep i t' j').1 hs
      · obtain ⟨j, m, hm, hij, hs'⟩ := h.sound n _ t k hp ht
        exact ⟨j, m, Nat.le_succ_of_le hm, .inl hij, hs'⟩
      · obtain ⟨j, m, hm, hij, hs'⟩ := h'.sound n _ t k hp ht
        exact ⟨j, m, Nat.le_succ_of_le hm, .inr hij, hs'⟩

/-- A state that enters a body, which comes back to it, or goes to the exit. -/
theorem loop (hq : q ∈ states)
    (hstep : ∀ i t j, step (q, i) (t, j) ↔ (t = body ∨ t = exit) ∧ j = i)
    (h : Fragment step states body q R) : Fragment step states q exit (ReflTransGen R) := by
  constructor
  · intro i j hij
    induction hij using ReflTransGen.head_induction_on with
    | refl => exact .single ((hstep j exit j).2 ⟨.inr rfl, rfl⟩)
    | head hR _ ih =>
      exact .head ((hstep _ body _).2 ⟨.inl rfl, rfl⟩) ((h.complete _ _ hR).trans ih)
  · intro n
    induction n using Nat.strong_induction_on with
    | _ n ih =>
      intro i t k hp ht
      cases hp with
      | refl => exact absurd hq ht
      | @head _ c n _ hs hp =>
        obtain ⟨t', j'⟩ := c
        obtain ⟨rfl | rfl, rfl⟩ := (hstep i t' j').1 hs
        · obtain ⟨j, m, hm, hij, hs'⟩ := h.sound n _ t k hp ht
          obtain ⟨l, m', hm', hjl, hs''⟩ := ih m (Nat.lt_succ_of_le hm) j t k hs' ht
          exact ⟨l, m', hm'.trans (Nat.le_succ_of_le hm), .head hij hjl, hs''⟩
        · exact ⟨_, n, Nat.le_succ n, .refl, hp⟩

/-- A body followed by a state that enters it again or goes to the exit. -/
theorem repeated (hq : q ∈ states)
    (hstep : ∀ i t j, step (q, i) (t, j) ↔ (t = body ∨ t = exit) ∧ j = i)
    (h : Fragment step states body q R) : Fragment step states body exit (TransGen R) := by
  refine (h.seq (h.loop hq hstep)).congr fun i j => ?_
  rw [TransGen.head'_iff]
  rfl

/-- Between two states outside the fragment and without steps of their own, paths are exactly the
relation. -/
theorem reaches_iff (h : Fragment step states start exit R) (hx : exit ∉ states)
    (hend : ∀ i c, ¬ step (exit, i) c) (i j : ι) :
    ReflTransGen step (start, i) (exit, j) ↔ R i j := by
  constructor
  · intro hp
    obtain ⟨n, hn⟩ := Steps.of_reaches hp
    obtain ⟨k, m, _, hik, hs⟩ := h.sound n i exit j hn hx
    cases hs with
    | refl => exact hik
    | head hs _ => exact absurd hs (hend k _)
  · exact h.complete i j

end Fragment

end Trieste.Library
