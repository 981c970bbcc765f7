import Mathlib.Data.List.Basic
import Mathlib.Order.Basic
import Mathlib.Order.Nat

namespace Trieste.Library
set_option autoImplicit true

/-- A parser reads from a position and yields the next position with its captures. -/
def Peg (β : Type) := Nat → Option (Nat × List β)

namespace Peg

def skip : Peg β := fun i => some (i, [])

open Classical in
/-- Succeeds where the test holds and consumes nothing. -/
noncomputable def test (c : Nat → Prop) : Peg β := fun i => if c i then some (i, []) else none

def item (xs : List α) (ok : α → Bool) : Peg β := fun i =>
  (xs[i]?).bind fun x => if ok x then some (i + 1, []) else none

def seq (p q : Peg β) : Peg β := fun i =>
  (p i).bind fun (j, a) => (q j).map fun (k, b) => (k, a ++ b)

/-- Ordered choice: the second parser is tried only where the first one fails. -/
def choice (p q : Peg β) : Peg β := fun i => (p i).or (q i)

def opt (p : Peg β) : Peg β := p.choice skip

/-- Succeeds where the parser does, but consumes and captures nothing. -/
def look (p : Peg β) : Peg β := fun i => (p i).map fun _ => (i, [])

def notLook (p : Peg β) : Peg β := fun i => if (p i).isSome then none else some (i, [])

/-- Repeats while the parser succeeds and consumes something. -/
def greedy (p : Peg β) : Nat → Nat → Nat
  | 0, i => i
  | n + 1, i =>
    match p i with
    | none => i
    | some (j, _) => if i < j then p.greedy n j else i

/-- Greedy repetition up to the last position, which never gives back what it consumed. -/
def star (p : Peg β) (last : Nat) : Peg β := fun i => some (p.greedy (last - i) i, [])

/-- The parser moves forward and not past the last position. -/
def Bounded (p : Peg β) (last : Nat) : Prop :=
  ∀ i j a, i ≤ last → p i = some (j, a) → i ≤ j ∧ j ≤ last

variable {p q r : Peg β} {last : Nat}

theorem greedy_le (n : Nat) (i : Nat) : i ≤ p.greedy n i := by
  induction n generalizing i with
  | zero => exact Nat.le_refl i
  | succ n ih =>
    simp only [greedy]
    split
    · exact Nat.le_refl i
    · split
      · rename_i hlt
        exact hlt.le.trans (ih _)
      · exact Nat.le_refl i

theorem star_of_none (hp : p i = none) : p.star last i = some (i, []) := by
  cases hn : last - i <;> simp [star, greedy, hn, hp]

theorem star_of_stuck (hp : p i = some (i, a)) : p.star last i = some (i, []) := by
  cases hn : last - i <;> simp [star, greedy, hn, hp]

namespace Bounded

theorem greedy_le (h : p.Bounded last) (n : Nat) (hi : i ≤ last) : p.greedy n i ≤ last := by
  induction n generalizing i with
  | zero => exact hi
  | succ n ih =>
    simp only [greedy]
    split
    · exact hi
    · rename_i j a hp
      split
      · exact ih (h i j a hi hp).2
      · exact hi

theorem greedy_last (h : p.Bounded last) (n : Nat) : p.greedy n last = last := by
  exact Nat.le_antisymm (h.greedy_le n (Nat.le_refl last)) (Peg.greedy_le n last)

theorem greedy_more (h : p.Bounded last) (hi : i ≤ last) (hn : last - i ≤ n)
    (hm : last - i ≤ m) : p.greedy n i = p.greedy m i := by
  induction n generalizing i m with
  | zero =>
    obtain rfl : i = last := by omega
    rw [h.greedy_last, h.greedy_last]
  | succ n ih =>
    cases m with
    | zero =>
      obtain rfl : i = last := by omega
      rw [h.greedy_last, h.greedy_last]
    | succ m =>
      simp only [greedy]
      rcases hp : p i with _ | ⟨j, a⟩
      · rfl
      · obtain ⟨hij, hj⟩ := h i j a hi hp
        by_cases hlt : i < j
        · simp only [if_pos hlt]
          exact ih hj (by omega) (by omega)
        · simp only [if_neg hlt]

theorem star_of_some (h : p.Bounded last) (hi : i ≤ last) (hp : p i = some (j, a)) :
    p.star last i = p.star last j := by
  obtain ⟨hij, hj⟩ := h i j a hi hp
  rcases hij.eq_or_lt with rfl | hlt
  · rfl
  · obtain ⟨n, hn⟩ : ∃ n, last - i = n + 1 := ⟨last - i - 1, by omega⟩
    simp only [star, hn, greedy, hp, if_pos hlt]
    rw [h.greedy_more hj (by omega : last - j ≤ n) (Nat.le_refl _)]

theorem skip (last : Nat) : (Peg.skip : Peg β).Bounded last := by
  rintro i j a hi ⟨⟩
  exact ⟨Nat.le_refl i, hi⟩

theorem test (c : Nat → Prop) (last : Nat) : (Peg.test c : Peg β).Bounded last := by
  intro i j a hi hp
  simp only [Peg.test] at hp
  split at hp
  · cases hp
    exact ⟨Nat.le_refl i, hi⟩
  · cases hp

theorem item (xs : List α) (ok : α → Bool) : (Peg.item xs ok : Peg β).Bounded xs.length := by
  intro i j a _ hp
  obtain ⟨x, hx, hp⟩ := Option.bind_eq_some_iff.1 hp
  have hlt := (List.getElem?_eq_some_iff.1 hx).1
  split at hp
  · cases hp
    exact ⟨Nat.le_succ i, hlt⟩
  · cases hp

theorem seq (hp : p.Bounded last) (hq : q.Bounded last) : (p.seq q).Bounded last := by
  intro i j a hi h
  obtain ⟨⟨k, b⟩, hk, h⟩ := Option.bind_eq_some_iff.1 h
  obtain ⟨⟨l, c⟩, hl, h⟩ := Option.map_eq_some_iff.1 h
  cases h
  obtain ⟨hik, hkl⟩ := hp i k b hi hk
  obtain ⟨hkj, hj⟩ := hq k _ c hkl hl
  exact ⟨hik.trans hkj, hj⟩

theorem choice (hp : p.Bounded last) (hq : q.Bounded last) : (p.choice q).Bounded last := by
  intro i j a hi h
  rcases Option.or_eq_some_iff.1 h with h | ⟨_, h⟩
  · exact hp i j a hi h
  · exact hq i j a hi h

theorem opt (hp : p.Bounded last) : p.opt.Bounded last :=
  hp.choice (skip last)

theorem star (hp : p.Bounded last) : (p.star last).Bounded last := by
  rintro i j a hi ⟨⟩
  exact ⟨Peg.greedy_le _ i, hp.greedy_le _ hi⟩

theorem look (p : Peg β) (last : Nat) : p.look.Bounded last := by
  intro i j a hi h
  obtain ⟨_, _, h⟩ := Option.map_eq_some_iff.1 h
  cases h
  exact ⟨Nat.le_refl i, hi⟩

theorem notLook (p : Peg β) (last : Nat) : p.notLook.Bounded last := by
  intro i j a hi h
  simp only [Peg.notLook] at h
  split at h
  · cases h
  · cases h
    exact ⟨Nat.le_refl i, hi⟩

end Bounded

end Peg

end Trieste.Library
