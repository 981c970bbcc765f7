import Mathlib.Algebra.Ring.Nat
import Mathlib.Data.Finset.Card
import Mathlib.Data.Finset.Range

namespace Trieste.Library
set_option autoImplicit true

/-- An index is in the set when its mark is the current epoch. -/
structure EpochSet where
  marks : List Nat := []
  epoch : Nat := 0

namespace EpochSet

/-- Empties the set. The marks are cleared when the 64-bit counter wraps around. -/
def advance (s : EpochSet) : EpochSet :=
  let epoch := (s.epoch + 1) % 2 ^ 64
  if epoch = 0 then { marks := s.marks.map fun _ => 0, epoch := 1 }
  else { s with epoch }

def contains (s : EpochSet) (i : Nat) : Bool := s.marks[i]? == some s.epoch

def insert (s : EpochSet) (i : Nat) : EpochSet := { s with marks := s.marks.set i s.epoch }

/-- No mark lies beyond the current epoch. -/
structure Valid (s : EpochSet) : Prop where
  marks : ∀ m ∈ s.marks, m ≤ s.epoch
  epoch : s.epoch < 2 ^ 64

theorem Valid.fresh (n : Nat) : Valid ⟨List.replicate n 0, 0⟩ :=
  ⟨fun _ hm => (List.eq_of_mem_replicate hm).le, (by decide : 0 < 2 ^ 64)⟩

theorem Valid.insert {s : EpochSet} (h : s.Valid) (i : Nat) : (s.insert i).Valid := by
  refine ⟨fun m hm => ?_, h.epoch⟩
  rcases List.mem_or_eq_of_mem_set hm with hm | rfl
  · exact h.marks m hm
  · exact Nat.le_refl _

theorem Valid.advance {s : EpochSet} (h : s.Valid) : s.advance.Valid := by
  have he := h.epoch
  simp only [EpochSet.advance]
  split
  · refine ⟨fun m hm => ?_, (by decide : 1 < 2 ^ 64)⟩
    obtain ⟨_, _, rfl⟩ := List.mem_map.1 hm
    exact Nat.zero_le 1
  · refine ⟨fun m hm => ?_, Nat.mod_lt _ (by decide)⟩
    have hm' := h.marks m hm
    show m ≤ (s.epoch + 1) % 2 ^ 64
    omega

/-- After an advance the set is empty, whatever marks it was left with. -/
theorem Valid.contains_advance {s : EpochSet} (h : s.Valid) (i : Nat) :
    s.advance.contains i = false := by
  have he := h.epoch
  simp only [EpochSet.advance]
  split
  · simp only [contains, List.getElem?_map]
    cases s.marks[i]? <;> simp
  · simp only [contains]
    rcases hi : s.marks[i]? with _ | m
    · rfl
    · have hm := h.marks m (List.mem_of_getElem? hi)
      have hne : m ≠ (s.epoch + 1) % 2 ^ 64 := by omega
      simpa using hne

theorem contains_insert (s : EpochSet) (i j : Nat) :
    (s.insert i).contains j = (decide (i = j ∧ i < s.marks.length) || s.contains j) := by
  simp only [insert, contains, List.getElem?_set]
  by_cases hij : i = j
  · subst j
    by_cases hi : i < s.marks.length <;> simp [hi]
  · simp [hij]

@[simp] theorem length_marks_insert (s : EpochSet) (i : Nat) :
    (s.insert i).marks.length = s.marks.length := by
  simp [insert]

@[simp] theorem length_marks_advance (s : EpochSet) :
    s.advance.marks.length = s.marks.length := by
  simp only [advance]
  split <;> simp

/-- Two sets of the same indices, which may have been emptied a different number of times. -/
structure Same (s s' : EpochSet) : Prop where
  contains : ∀ i, s.contains i = s'.contains i
  length : s.marks.length = s'.marks.length
  valid : s.Valid
  valid' : s'.Valid

theorem Same.insert {s s' : EpochSet} (h : s.Same s') (i : Nat) :
    (s.insert i).Same (s'.insert i) := by
  refine ⟨fun j => ?_, ?_, h.valid.insert i, h.valid'.insert i⟩
  · rw [contains_insert, contains_insert, h.contains, h.length]
  · rw [length_marks_insert, length_marks_insert, h.length]

theorem Valid.same_advance {s s' : EpochSet} (h : s.Valid) (h' : s'.Valid)
    (hlength : s.marks.length = s'.marks.length) : s.advance.Same s'.advance := by
  refine ⟨fun j => ?_, ?_, h.advance, h'.advance⟩
  · rw [h.contains_advance, h'.contains_advance]
  · rw [length_marks_advance, length_marks_advance, hlength]

/-- The number of indices that are not in the set. -/
def free (s : EpochSet) : Nat :=
  ((Finset.range s.marks.length).filter fun i => s.contains i = false).card

theorem free_le (s : EpochSet) : s.free ≤ s.marks.length :=
  (Finset.card_filter_le _ _).trans (Finset.card_range _).le

theorem free_insert {s : EpochSet} (hi : i < s.marks.length) (hs : s.contains i = false) :
    (s.insert i).free + 1 = s.free := by
  have hmem : i ∈ (Finset.range s.marks.length).filter fun j => s.contains j = false :=
    Finset.mem_filter.2 ⟨Finset.mem_range.2 hi, hs⟩
  have herase : ((Finset.range (s.insert i).marks.length).filter fun j =>
        (s.insert i).contains j = false) =
      ((Finset.range s.marks.length).filter fun j => s.contains j = false).erase i := by
    ext j
    simp only [length_marks_insert, Finset.mem_filter, Finset.mem_range, contains_insert,
      Finset.mem_erase]
    grind
  rw [free, free, herase, Finset.card_erase_add_one hmem]

end EpochSet

end Trieste.Library
