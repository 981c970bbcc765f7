import Mathlib.Data.List.Sort
import Mathlib.Data.List.Nodup

namespace Trieste.Library
set_option autoImplicit true

/-- An algorithm that sorts by comparing keys: the indices of the keys in the order in which it puts
them. What it does with equal keys is left open. -/
structure Sorting (κ : Type) [LinearOrder κ] where
  order : List κ → List Nat
  perm : ∀ keys, (order keys).Perm (List.range keys.length)
  sorted : ∀ keys, ((order keys).filterMap (keys[·]?)).Pairwise (· ≤ ·)

namespace Sorting

section Keys
variable {κ α β : Type} [LinearOrder κ] (sorting : Sorting κ)

def sortBy (key : α → κ) (l : List α) : List α := (sorting.order (l.map key)).filterMap (l[·]?)

theorem filterMap_range (l : List α) : (List.range l.length).filterMap (l[·]?) = l := by
  induction l with
  | nil => rfl
  | cons x l ih =>
    rw [List.length_cons, List.range_succ_eq_map, List.filterMap_cons, List.filterMap_map]
    exact congrArg (x :: ·) ih

theorem sortBy_perm (key : α → κ) (l : List α) : (sorting.sortBy key l).Perm l := by
  have hperm := (sorting.perm (l.map key)).filterMap (l[·]?)
  rwa [List.length_map, filterMap_range] at hperm

theorem map_sortBy (key : α → κ) (l : List α) :
    (sorting.sortBy key l).map key = (sorting.order (l.map key)).filterMap ((l.map key)[·]?) := by
  rw [sortBy, List.map_filterMap]
  exact congrArg (List.filterMap · _) (funext fun i => (List.getElem?_map).symm)

theorem sortBy_sorted (key : α → κ) (l : List α) :
    ((sorting.sortBy key l).map key).Pairwise (· ≤ ·) := by
  rw [map_sortBy]
  exact sorting.sorted _

theorem forall₂_sortBy {R : α → β → Prop} {key : α → κ} {key' : β → κ} {xs : List α} {ys : List β}
    (h : List.Forall₂ R xs ys) (hkey : ∀ x y, R x y → key x = key' y) :
    List.Forall₂ R (sorting.sortBy key xs) (sorting.sortBy key' ys) := by
  have hkeys : xs.map key = ys.map key' := by
    rw [← List.forall₂_eq_eq_eq, List.forall₂_map_left_iff, List.forall₂_map_right_iff]
    exact h.imp hkey
  rw [sortBy, sortBy, hkeys]
  obtain ⟨hlen, hget⟩ := List.forall₂_iff_get.1 h
  induction sorting.order (ys.map key') with
  | nil => exact .nil
  | cons i order ih =>
    by_cases hi : i < xs.length
    · rw [List.filterMap_cons, List.filterMap_cons, List.getElem?_eq_getElem hi,
        List.getElem?_eq_getElem (hlen ▸ hi)]
      exact .cons (hget i hi (hlen ▸ hi)) ih
    · rw [List.filterMap_cons, List.filterMap_cons, List.getElem?_eq_none (not_lt.1 hi),
        List.getElem?_eq_none (hlen ▸ not_lt.1 hi)]
      exact ih

end Keys

/-- A sort that keeps equal keys in their order. -/
def stable (κ : Type) [LinearOrder κ] : Sorting κ where
  order keys := (keys.zipIdx.insertionSort fun p q => p.1 ≤ q.1).map Prod.snd
  perm keys := by
    have hperm := (keys.zipIdx.perm_insertionSort fun p q => p.1 ≤ q.1).map Prod.snd
    rwa [List.zipIdx_map_snd, ← List.range_eq_range'] at hperm
  sorted keys := by
    have hfst : ∀ l : List (κ × Nat), (∀ p ∈ l, keys[p.2]? = some p.1) →
        (l.map Prod.snd).filterMap (keys[·]?) = l.map Prod.fst := by
      intro l hl
      rw [List.filterMap_map, ← List.filterMap_eq_map]
      exact List.filterMap_congr hl
    rw [hfst, List.pairwise_map]
    · exact List.pairwise_insertionSort _ _
    · intro p hp
      rw [List.mem_insertionSort] at hp
      exact List.mk_mem_zipIdx_iff_getElem?.1 hp

end Sorting

end Trieste.Library
