import Mathlib.Data.List.Basic

namespace Trieste.Library
set_option autoImplicit true

section
variable (p : α → Bool) (text : List α)

/-- Where a part stops: at its separator, and the last one at the end. -/
def partStop (k : Nat) : Nat := ((text.findIdxs p)[k]?).getD text.length

def partStart : Nat → Nat
  | 0 => 0
  | k + 1 => partStop p text k + 1

/-- The part after the first `k` separators. -/
def part (k : Nat) : List α := (text.take (partStop p text k)).drop (partStart p text k)

end

variable {p : α → Bool} {text : List α}

theorem partStop_eq (h : k < (text.findIdxs p).length) : partStop p text k = (text.findIdxs p)[k] := by
  rw [partStop, List.getElem?_eq_getElem h, Option.getD_some]

theorem partStop_last (h : (text.findIdxs p).length ≤ k) : partStop p text k = text.length := by
  rw [partStop, List.getElem?_eq_none h, Option.getD_none]

theorem partStop_lt (h : k < (text.findIdxs p).length) : partStop p text k < text.length := by
  rw [partStop_eq h]
  exact List.getElem_findIdxs_lt h

theorem partStop_le (k : Nat) : partStop p text k ≤ text.length := by
  by_cases h : k < (text.findIdxs p).length
  · exact Nat.le_of_lt (partStop_lt h)
  · exact Nat.le_of_eq (partStop_last (Nat.le_of_not_lt h))

theorem partStop_separator (h : k < (text.findIdxs p).length) :
    ∃ x, text[partStop p text k]? = some x ∧ p x = true := by
  refine ⟨text.get ⟨partStop p text k, partStop_lt h⟩, List.getElem?_eq_getElem _, ?_⟩
  simp only [partStop_eq h]
  exact List.getElem_getElem_findIdxs h

theorem partStop_mono (hjk : j < k) (h : k < (text.findIdxs p).length) :
    partStop p text j < partStop p text k := by
  rw [partStop_eq h, partStop_eq (Nat.lt_trans hjk h)]
  exact List.pairwise_iff_getElem.1 List.pairwise_findIdxs j k _ h hjk

theorem partStart_le_stop (h : k ≤ (text.findIdxs p).length) :
    partStart p text k ≤ partStop p text k := by
  cases k with
  | zero => exact Nat.zero_le _
  | succ k =>
    by_cases hk : k + 1 < (text.findIdxs p).length
    · exact partStop_mono (Nat.lt_succ_self k) hk
    · rw [partStop_last (Nat.le_of_not_lt hk)]
      exact partStop_lt h

theorem partStart_le (h : k ≤ (text.findIdxs p).length) : partStart p text k ≤ text.length :=
  Nat.le_trans (partStart_le_stop h) (partStop_le k)

theorem exists_partStop (hi : text[i]? = some x) (hx : p x = true) :
    ∃ k, k < (text.findIdxs p).length ∧ partStop p text k = i := by
  obtain ⟨hlt, rfl⟩ := List.getElem?_eq_some_iff.1 hi
  obtain ⟨k, hk, hki⟩ := List.getElem_of_mem (List.mem_findIdxs_iff_exists_getElem_pos.2 ⟨hlt, hx⟩)
  exact ⟨k, hk, (partStop_eq hk).trans hki⟩

theorem part_free (h : k ≤ (text.findIdxs p).length) : ∀ x ∈ part p text k, p x = false := by
  intro x hx
  obtain ⟨i, hi⟩ := List.mem_iff_getElem?.1 hx
  rw [part, List.getElem?_drop, List.getElem?_take] at hi
  split at hi
  · rename_i hstop
    apply Bool.of_not_eq_true
    intro hp
    obtain ⟨j, hj, hij⟩ := exists_partStop hi hp
    rcases Nat.lt_or_ge j k with hjk | hkj
    · cases k with
      | zero => exact Nat.not_lt_zero _ hjk
      | succ k =>
        have hle : partStop p text j ≤ partStop p text k := by
          rcases Nat.lt_or_eq_of_le (Nat.le_of_lt_succ hjk) with hlt | rfl
          · exact Nat.le_of_lt (partStop_mono hlt h)
          · exact Nat.le_refl _
        rw [partStart] at hij
        omega
    · rcases Nat.lt_or_eq_of_le hkj with hlt | rfl
      · have := partStop_mono hlt hj
        omega
      · omega
  · cases hi

theorem findIdx_congr {f g : α → Bool} {xs : List α} (h : ∀ x ∈ xs, f x = g x) :
    xs.findIdx f = xs.findIdx g := by
  induction xs with
  | nil => rfl
  | cons x xs ih =>
    rw [List.findIdx_cons, List.findIdx_cons, h x List.mem_cons_self,
      ih fun y hy => h y (List.mem_cons_of_mem x hy)]

/-- The first separator that does not stand before a position comes after as many as do. -/
theorem findIdx_eq_countP (h : pos ≤ text.length) :
    (text.findIdxs p).findIdx (fun i => decide (pos ≤ i)) = (text.take pos).countP p := by
  have hsplit : text.findIdxs p = (text.take pos).findIdxs p ++
      (text.drop pos).findIdxs p (0 + (text.take pos).length) := by
    rw [← List.findIdxs_append, List.take_append_drop]
  have hbefore : ∀ i ∈ (text.take pos).findIdxs p, decide (pos ≤ i) = false := by
    intro i hi
    have hlt := List.lt_add_of_mem_findIdxs i hi
    rw [List.length_take] at hlt
    exact decide_eq_false (by omega)
  have hafter : ∀ i ∈ (text.drop pos).findIdxs p (0 + (text.take pos).length),
      decide (pos ≤ i) = true := by
    intro i hi
    have hle := List.ge_of_mem_findIdxs i hi
    rw [List.length_take, Nat.min_eq_left h, Nat.zero_add] at hle
    exact decide_eq_true hle
  rw [hsplit, List.findIdx_append, if_neg, ← List.length_findIdxs]
  · cases hd : (text.drop pos).findIdxs p (0 + (text.take pos).length) with
    | nil => rw [List.findIdx_nil, Nat.zero_add]
    | cons i rest =>
      rw [List.findIdx_cons, hafter i (hd ▸ List.mem_cons_self), cond_true, Nat.zero_add]
  · rw [List.findIdx_lt_length]
    rintro ⟨i, hi, hle⟩
    rw [hbefore i hi] at hle
    cases hle

/-- A position is in the part that comes after the separators before it. -/
theorem part_of_position (h : pos ≤ text.length) : (text.take pos).countP p ≤
    (text.findIdxs p).length ∧ partStart p text ((text.take pos).countP p) ≤ pos ∧
      pos ≤ partStop p text ((text.take pos).countP p) := by
  have hk := findIdx_eq_countP (p := p) h
  have hle : (text.take pos).countP p ≤ (text.findIdxs p).length := hk ▸ List.findIdx_le_length
  refine ⟨hle, ?_, ?_⟩
  · cases hc : (text.take pos).countP p with
    | zero => exact Nat.zero_le _
    | succ k =>
      rw [hc] at hk hle
      have hbefore : k < (text.findIdxs p).findIdx (fun i => decide (pos ≤ i)) := by omega
      have hnot := List.not_of_lt_findIdx hbefore
      rw [partStart, partStop_eq hle]
      exact Nat.lt_of_not_le (of_decide_eq_false hnot)
  · rcases Nat.lt_or_eq_of_le hle with hlt | heq
    · have hat := List.findIdx_getElem (w := hk.symm ▸ hlt)
      rw [partStop_eq hlt]
      simpa [hk] using hat
    · rw [partStop_last (Nat.le_of_eq heq.symm)]
      exact h

theorem countP_partStart (h : k ≤ (text.findIdxs p).length) :
    (text.take (partStart p text k)).countP p = k := by
  obtain ⟨hle, hstart, hstop⟩ := part_of_position (p := p) (partStart_le h)
  generalize (text.take (partStart p text k)).countP p = j at hle hstart hstop
  rcases Nat.lt_trichotomy j k with hlt | heq | hlt
  · cases k with
    | zero => exact absurd hlt (Nat.not_lt_zero j)
    | succ k =>
      rw [partStart] at hstop
      rcases Nat.lt_or_eq_of_le (Nat.le_of_lt_succ hlt) with hlt | rfl
      · have := partStop_mono hlt h
        omega
      · omega
  · exact heq
  · cases j with
    | zero => exact absurd hlt (Nat.not_lt_zero k)
    | succ j =>
      have hstarts := partStart_le_stop h
      rw [partStart] at hstart
      rcases Nat.lt_or_eq_of_le (Nat.le_of_lt_succ hlt) with hlt | rfl
      · have := partStop_mono hlt hle
        omega
      · omega

theorem intercalate_concat (seps : List α) {parts : List (List α)} (h : parts ≠ [])
    (last : List α) : List.intercalate seps (parts ++ [last]) =
      List.intercalate seps parts ++ seps ++ last := by
  induction parts with
  | nil => exact absurd rfl h
  | cons first rest ih =>
    cases rest with
    | nil => simp
    | cons second rest =>
      have ih := ih (List.cons_ne_nil second rest)
      rw [List.cons_append] at ih
      rw [List.cons_append, List.cons_append, List.intercalate_cons_cons, ih,
        List.intercalate_cons_cons]
      simp only [List.append_assoc]

theorem intercalate_take {sep : α} (hp : ∀ x, p x = true → x = sep)
    (h : k ≤ (text.findIdxs p).length) : List.intercalate [sep]
      ((List.range (k + 1)).map (part p text)) = text.take (partStop p text k) := by
  induction k with
  | zero => simp [part, partStart]
  | succ k ih =>
    obtain ⟨x, hx, hpx⟩ := partStop_separator h
    obtain rfl := hp x hpx
    have hstart := partStart_le_stop h
    have hsep : text.take (partStart p text (k + 1)) = text.take (partStop p text k) ++ [x] := by
      rw [partStart, List.take_add_one, hx]
      rfl
    rw [List.range_succ, List.map_append, List.map_singleton, intercalate_concat _ (by simp),
      ih (Nat.le_of_succ_le h), ← hsep, part]
    conv_rhs => rw [← List.take_append_drop (partStart p text (k + 1))
      (text.take (partStop p text (k + 1)))]
    rw [List.take_take, Nat.min_eq_left hstart]

theorem intercalate_parts {sep : α} (hp : ∀ x, p x = true → x = sep) (text : List α) :
    List.intercalate [sep] ((List.range ((text.findIdxs p).length + 1)).map (part p text)) =
      text := by
  rw [intercalate_take hp (Nat.le_refl _), partStop_last (Nat.le_refl _), List.take_length]

end Trieste.Library
