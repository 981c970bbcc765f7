import Mathlib.Order.Nat
import Trieste.Rewrite.Pattern

namespace Trieste
set_option autoImplicit true

variable {N : Type}

namespace Match
variable {m m' m₁ m₂ : Match N}

def Sees (m : Match N) (t : Token) (r : NodeRange N) : Prop :=
  ∃ i, i ≤ m.index ∧ (m.frame i).find t = some r

theorem sees_of_findFrom (h : m.findFrom t n = some r) :
    ∃ i, i ≤ n ∧ (m.frame i).find t = some r := by
  induction n with
  | zero => exact ⟨0, Nat.le_refl 0, h⟩
  | succ n ih =>
    rcases Option.or_eq_some_iff.1 h with h | ⟨_, h⟩
    · exact ⟨n + 1, Nat.le_refl _, h⟩
    · obtain ⟨i, hi, hf⟩ := ih h
      exact ⟨i, Nat.le_succ_of_le hi, hf⟩

theorem sees_of_find (h : m.find t = some r) : m.Sees t r :=
  sees_of_findFrom h

theorem findFrom_congr (h : ∀ i, i ≤ n → (m.frame i).find t = (m'.frame i).find t) :
    m.findFrom t n = m'.findFrom t n := by
  induction n with
  | zero => exact h 0 (Nat.le_refl 0)
  | succ n ih =>
    rw [findFrom, findFrom, h (n + 1) (Nat.le_refl _), ih fun i hi => h i (Nat.le_succ_of_le hi)]

theorem frontFrom_eq (m : Match N) (t : Token) (n : Nat) :
    m.frontFrom t n = (m.findFrom t n).elim (some none) fun r => r.front.map some := by
  induction n with
  | zero => rfl
  | succ n ih =>
    rw [frontFrom, findFrom, ih]
    cases (m.frame (n + 1)).find t <;> rfl

/-- Both accessors stop at the same frame. -/
theorem front_eq (m : Match N) (t : Token) :
    m.front t = (m.find t).elim (some none) fun r => r.front.map some :=
  frontFrom_eq m t m.index

theorem frame_modify (fs : List (Frame N)) (k : Nat) (f : Frame N → Frame N) (i index : Nat) :
    (Match.mk index (fs.modify k f)).frame i =
      if k = i ∧ i < fs.length then f (fs.getD i {}) else fs.getD i {} := by
  simp only [frame, List.getD_eq_getElem?_getD, List.getElem?_modify]
  by_cases hi : i < fs.length
  · by_cases hk : k = i <;> simp [hi, hk]
  · simp [hi]

theorem frame_set (m : Match N) (t : Token) (r : NodeRange N) (h : i ≠ m.index) :
    (m.set t r).frame i = m.frame i := by
  simp only [set, frame_modify]
  rw [if_neg fun hk => h hk.1.symm, frame]

theorem index_addFrame (m : Match N) : m.addFrame.index = m.index + 1 := by
  simp only [addFrame]
  split <;> rfl

theorem frame_addFrame (m : Match N) (h : i ≤ m.index) : m.addFrame.frame i = m.frame i := by
  simp only [addFrame]
  split
  · have hi : i < m.captures.length := by omega
    simp [frame, List.getElem?_append_left hi]
  · rw [frame_modify, if_neg (by omega), frame]

theorem find_addFrame (m : Match N) (t : Token) :
    (m.addFrame.frame (m.index + 1)).find t = none := by
  simp only [addFrame]
  split
  · rename_i hl
    have hle : m.captures.length ≤ m.index + 1 := by omega
    simp only [frame, List.getD_eq_getElem?_getD, List.getElem?_append_right hle,
      List.getElem?_replicate]
    split <;> rfl
  · rw [frame_modify]
    split
    · rfl
    · rename_i hk
      have hlen : m.captures.length ≤ m.index + 1 := by omega
      simp [List.getElem?_eq_none hlen, Frame.find]

theorem find_set (m : Match N) (h : m.index < m.captures.length) (t u : Token) (r : NodeRange N) :
    ((m.set t r).frame m.index).find u = if u = t then some r else (m.frame m.index).find u := by
  simp only [set, frame_modify, h, and_true, if_true, Frame.find]
  by_cases hu : u = t
  · subst u
    simp
  · rw [Function.update_of_ne hu, if_neg hu, frame]
    split <;> rfl

theorem length_set (m : Match N) (t : Token) (r : NodeRange N) :
    (m.set t r).captures.length = m.captures.length := by
  simp [set]

theorem bound_addFrame (h : m.index < m.captures.length) :
    m.addFrame.index < m.addFrame.captures.length := by
  simp only [addFrame]
  split
  · simp only [List.length_append, List.length_replicate]
    omega
  · simp only [List.length_modify]
    omega

theorem sees_set (h : (m.set t r).Sees t' r') : m.Sees t' r' ∨ (t', r') = (t, r) := by
  obtain ⟨i, hi, hf⟩ := h
  by_cases hidx : i = m.index
  · subst i
    simp only [set, frame_modify] at hf
    split at hf
    · simp only [Frame.find, if_true] at hf
      by_cases ht : t' = t
      · subst t'
        rw [Function.update_self] at hf
        cases hf
        exact .inr rfl
      · rw [Function.update_of_ne ht] at hf
        refine .inl ⟨m.index, Nat.le_refl _, ?_⟩
        rw [Frame.find, frame]
        split at hf
        · rename_i hv
          rw [if_pos hv]
          exact hf
        · cases hf
    · exact .inl ⟨m.index, Nat.le_refl _, hf⟩
  · rw [frame_set m t r hidx] at hf
    exact .inl ⟨i, hi, hf⟩

theorem sees_addFrame (h : m.addFrame.Sees t r) : m.Sees t r := by
  obtain ⟨i, hi, hf⟩ := h
  rw [index_addFrame] at hi
  rcases Nat.le_succ_iff.1 hi with hi | rfl
  · rw [frame_addFrame m hi] at hf
    exact ⟨i, hi, hf⟩
  · rw [find_addFrame] at hf
    cases hf

theorem not_sees_reset (m : Match N) (t : Token) (r : NodeRange N) : ¬ m.reset.Sees t r := by
  rintro ⟨i, hi, hf⟩
  obtain rfl : i = 0 := Nat.le_zero.1 hi
  simp only [reset, frame_modify] at hf
  cases hc : m.captures <;> simp [hc, Frame.find] at hf

/-- The frames below the one in use are kept. -/
structure Above (m m' : Match N) : Prop where
  index : m.index ≤ m'.index
  frames : ∀ i, i < m.index → m'.frame i = m.frame i

namespace Above

theorem refl (m : Match N) : Above m m :=
  ⟨Nat.le_refl _, fun _ _ => rfl⟩

theorem trans (h : Above m m₁) (h' : Above m₁ m₂) : Above m m₂ :=
  ⟨h.index.trans h'.index, fun i hi =>
    (h'.frames i (hi.trans_le h.index)).trans (h.frames i hi)⟩

theorem set (m : Match N) (t : Token) (r : NodeRange N) : Above m (m.set t r) :=
  ⟨Nat.le_refl _, fun _ hi => frame_set m t r hi.ne⟩

theorem addFrame (h : Above m.addFrame m') : Above m m' := by
  have hidx := index_addFrame m
  refine ⟨by have := h.index; omega, fun i hi => ?_⟩
  rw [h.frames i (by omega), frame_addFrame m hi.le]

theorem returned (h : Above m.addFrame m') : Above m (m'.returnToFrame m.index) :=
  ⟨Nat.le_refl _, h.addFrame.frames⟩

/-- Returning to a frame forgets what was captured since it was left. -/
theorem sees_returned (h : Above m.addFrame m') (hs : (m'.returnToFrame m.index).Sees t r) :
    m.Sees t r := by
  obtain ⟨i, hi, hf⟩ := hs
  have hidx := index_addFrame m
  have hi' : i ≤ m.index := hi
  refine ⟨i, hi', ?_⟩
  rw [← frame_addFrame m hi', ← h.frames i (by omega)]
  exact hf

end Above

end Match

end Trieste
