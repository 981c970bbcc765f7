import Mathlib.Algebra.Ring.Nat
import Trieste.Regex.Syntax
import Trieste.Utf8.Hex

namespace Trieste.Regex
set_option autoImplicit true

def nextRune (s : List UInt8) (pos : Nat) : Option (Nat × Nat) :=
  if pos < s.length then some (decodeRune s pos) else none

/-- The runes of the text from a position on, with the bytes that each takes. -/
def decodeFrom (s : List UInt8) : Nat → Nat → List (Nat × Nat)
  | 0, _ => []
  | fuel + 1, pos =>
    match nextRune s pos with
    | none => []
    | some (rune, bytes) => (rune, bytes) :: decodeFrom s fuel (pos + bytes)

/-- The text rune by rune. Every rune takes a byte at least. -/
def decoded (s : List UInt8) : List (Nat × Nat) := decodeFrom s s.length 0

def runes (s : List UInt8) : List Nat := (decoded s).map Prod.fst

/-- The byte offset of the rune with the given number. -/
def offset (s : List UInt8) (k : Nat) : Nat := (((decoded s).take k).map Prod.snd).sum

def Input.ofText (classes : List RuneClass) (s : List UInt8) (atStart : Bool) : Input :=
  { classes, runes := Regex.runes s, atStart }

theorem decodeRune_pos (s : List UInt8) (pos : Nat) : 0 < (decodeRune s pos).2 := by
  unfold decodeRune
  split
  · exact Nat.one_pos
  · split
    · exact Nat.one_pos
    · exact Utf8.utf8ToRune_pos _

theorem nextRune_pos (h : nextRune s pos = some (rune, bytes)) : pos < s.length ∧ 0 < bytes := by
  unfold nextRune at h
  split at h
  · next hlt =>
    have hd : (decodeRune s pos).2 = bytes := congrArg Prod.snd (Option.some.inj h)
    exact ⟨hlt, hd ▸ decodeRune_pos s pos⟩
  · cases h

theorem nextRune_eq_none_iff : nextRune s pos = none ↔ s.length ≤ pos := by
  unfold nextRune
  split <;> simp <;> omega

theorem getElem?_decodeFrom (s : List UInt8) (hfuel : s.length ≤ pos + fuel) (k : Nat) :
    (decodeFrom s fuel pos)[k]? =
      nextRune s (pos + (((decodeFrom s fuel pos).take k).map Prod.snd).sum) := by
  induction fuel generalizing pos k with
  | zero =>
    have hnone : nextRune s pos = none := nextRune_eq_none_iff.2 hfuel
    simp [decodeFrom, hnone]
  | succ fuel ih =>
    cases hnext : nextRune s pos with
    | none => simp [decodeFrom, hnext]
    | some next =>
      obtain ⟨rune, bytes⟩ := next
      obtain ⟨_, hbytes⟩ := nextRune_pos hnext
      simp only [decodeFrom, hnext]
      cases k with
      | zero => simp [hnext]
      | succ k =>
        rw [List.getElem?_cons_succ, ih (by omega) k]
        simp [Nat.add_assoc]

theorem getElem?_decoded (s : List UInt8) (k : Nat) : (decoded s)[k]? = nextRune s (offset s k) := by
  have hfuel : s.length ≤ 0 + s.length := by omega
  have h := getElem?_decodeFrom s hfuel k
  rwa [Nat.zero_add] at h

theorem getElem?_runes (s : List UInt8) (k : Nat) :
    (runes s)[k]? = (nextRune s (offset s k)).map Prod.fst := by
  rw [runes, List.getElem?_map, getElem?_decoded]

theorem offset_succ (h : nextRune s (offset s k) = some (rune, bytes)) :
    offset s (k + 1) = offset s k + bytes := by
  rw [← getElem?_decoded] at h
  simp [offset, List.take_add_one, h]

theorem nextRune_le (h : nextRune s pos = some (rune, bytes)) : pos + bytes ≤ s.length := by
  unfold nextRune at h
  split at h
  · next hlt =>
    have hd : (decodeRune s pos).2 = bytes := congrArg Prod.snd (Option.some.inj h)
    rw [← hd]
    simp only [decodeRune, List.getElem?_eq_getElem hlt]
    split
    · exact hlt
    · have hne : s.drop pos ≠ [] := by simpa using hlt
      have hle := Utf8.utf8ToRune_le hne
      rw [List.length_drop] at hle
      omega
  · cases h

/-- No rune reaches beyond the end of the text. -/
theorem offset_le (s : List UInt8) (k : Nat) : offset s k ≤ s.length := by
  induction k with
  | zero => exact Nat.zero_le _
  | succ k ih =>
    cases hnext : nextRune s (offset s k) with
    | none =>
      have hd : (decoded s)[k]? = none := (getElem?_decoded s k).trans hnext
      rw [offset, List.take_add_one, hd, Option.toList_none, List.append_nil]
      exact ih
    | some next =>
      obtain ⟨rune, bytes⟩ := next
      rw [offset_succ hnext]
      exact nextRune_le hnext

theorem nextRune_drop (s : List UInt8) (start pos : Nat) :
    nextRune (s.drop start) pos = nextRune s (start + pos) := by
  have hlt : pos < (s.drop start).length ↔ start + pos < s.length := by
    rw [List.length_drop]
    omega
  have hdecode : decodeRune (s.drop start) pos = decodeRune s (start + pos) := by
    simp only [decodeRune, List.getElem?_drop, List.drop_drop]
  simp only [nextRune, hlt, hdecode]

theorem offset_mono (s : List UInt8) (h : k ≤ k') : offset s k ≤ offset s k' := by
  induction k', h using Nat.le_induction with
  | base => exact Nat.le_refl _
  | succ k' _ ih =>
    refine Nat.le_trans ih ?_
    simp only [offset, List.take_add_one, List.map_append, List.sum_append]
    exact Nat.le_add_right _ _

/-- The end of the text is reached with the last rune. -/
theorem length_le_offset_iff (s : List UInt8) (k : Nat) :
    s.length ≤ offset s k ↔ (runes s).length ≤ k := by
  rw [← nextRune_eq_none_iff, ← List.getElem?_eq_none_iff, getElem?_runes, Option.map_eq_none_iff]

theorem utf8ToRune_take (s : List UInt8) (hn : (Utf8.utf8ToRune s).2 ≤ n) :
    Utf8.utf8ToRune (s.take n) = Utf8.utf8ToRune s := by
  rcases s with _ | ⟨c0, rest⟩
  · rw [List.take_nil]
  cases n with
  | zero => exact absurd (Utf8.utf8ToRune_pos (c0 :: rest)) (Nat.not_lt.2 hn)
  | succ n =>
    rw [List.take_succ_cons]
    rcases rest with _ | ⟨c1, rest⟩
    · rw [List.take_nil]
    rcases n with _ | n
    · unfold Utf8.utf8ToRune at hn ⊢
      grind
    rcases rest with _ | ⟨c2, rest⟩
    · rw [List.take_succ_cons, List.take_nil]
    rcases n with _ | n
    · unfold Utf8.utf8ToRune at hn ⊢
      grind
    rcases rest with _ | ⟨c3, rest⟩
    · rw [List.take_succ_cons, List.take_succ_cons, List.take_nil]
    rcases n with _ | n
    · unfold Utf8.utf8ToRune at hn ⊢
      grind
    · simp [Utf8.utf8ToRune]

theorem nextRune_take (h : nextRune s pos = some (rune, bytes)) (hn : pos + bytes ≤ n) :
    nextRune (s.take n) pos = some (rune, bytes) := by
  obtain ⟨hlt, hbytes⟩ := nextRune_pos h
  have hpos : pos < n := by omega
  have hlt' : pos < (s.take n).length := by
    rw [List.length_take]
    omega
  have hdecode : decodeRune s pos = (rune, bytes) := by
    rw [nextRune, if_pos hlt] at h
    exact Option.some.inj h
  rw [nextRune, if_pos hlt', ← hdecode]
  unfold decodeRune at hdecode ⊢
  rw [List.getElem?_take_of_lt hpos]
  rw [List.getElem?_eq_getElem hlt] at hdecode ⊢
  dsimp only at hdecode ⊢
  split
  · rfl
  · next hascii =>
    rw [if_neg hascii] at hdecode
    rw [List.drop_take, utf8ToRune_take]
    rw [hdecode]
    dsimp only
    omega

theorem exists_nextRune (hk : k < (runes s).length) :
    ∃ rune bytes, nextRune s (offset s k) = some (rune, bytes) := by
  have hlt : k < (decoded s).length := by
    have hlen : (runes s).length = (decoded s).length := List.length_map ..
    rwa [hlen] at hk
  exact ⟨_, _, (getElem?_decoded s k).symm.trans (List.getElem?_eq_getElem hlt)⟩

theorem offset_take (hk : k ≤ k') (hk' : k' ≤ (runes s).length) :
    offset (s.take (offset s k')) k = offset s k := by
  induction k with
  | zero => rfl
  | succ k ih =>
    have ih := ih (Nat.le_of_succ_le hk)
    obtain ⟨rune, bytes, hnext⟩ := exists_nextRune (s := s) (k := k) (by omega)
    have hsucc := offset_succ hnext
    have hle := offset_mono s hk
    have htake := nextRune_take hnext (n := offset s k') (by omega)
    rw [← ih] at htake
    rw [offset_succ htake, ih, hsucc]

theorem runes_take (hk : k ≤ (runes s).length) : runes (s.take (offset s k)) = (runes s).take k := by
  apply List.ext_getElem?
  intro i
  rw [getElem?_runes]
  by_cases hi : i < k
  · rw [offset_take (Nat.le_of_lt hi) hk, List.getElem?_take_of_lt hi, getElem?_runes]
    obtain ⟨rune, bytes, hnext⟩ := exists_nextRune (s := s) (k := i) (by omega)
    have hle : offset s (i + 1) ≤ offset s k := offset_mono s hi
    rw [offset_succ hnext] at hle
    rw [nextRune_take hnext hle, hnext]
  · have hle : k ≤ i := Nat.le_of_not_lt hi
    have hend : (s.take (offset s k)).length ≤ offset (s.take (offset s k)) i := by
      have hmono := offset_mono (s.take (offset s k)) hle
      rw [offset_take (Nat.le_refl k) hk] at hmono
      exact Nat.le_trans (List.length_take_le _ _) hmono
    rw [nextRune_eq_none_iff.2 hend, Option.map_none]
    exact (List.getElem?_eq_none (Nat.le_trans (List.length_take_le _ _) hle)).symm

theorem offset_drop (s : List UInt8) (k i : Nat) :
    offset s k + offset (s.drop (offset s k)) i = offset s (k + i) := by
  induction i with
  | zero => rfl
  | succ i ih =>
    cases hnext : nextRune s (offset s (k + i)) with
    | none =>
      have hnone : nextRune (s.drop (offset s k)) (offset (s.drop (offset s k)) i) = none := by
        rw [nextRune_drop, ih, hnext]
      have hstay : ∀ t j, nextRune t (offset t j) = none → offset t (j + 1) = offset t j := by
        intro t j hnone
        have hd : (decoded t)[j]? = none := (getElem?_decoded t j).trans hnone
        rw [offset, List.take_add_one, hd, Option.toList_none, List.append_nil, offset]
      rw [hstay _ _ hnone, ih, ← Nat.add_assoc, hstay _ _ hnext]
    | some next =>
      obtain ⟨rune, bytes⟩ := next
      have hsome : nextRune (s.drop (offset s k)) (offset (s.drop (offset s k)) i) =
          some (rune, bytes) := by
        rw [nextRune_drop, ih, hnext]
      rw [offset_succ hsome, ← Nat.add_assoc, ih, ← Nat.add_assoc, offset_succ hnext]

theorem runes_drop (s : List UInt8) (k : Nat) : runes (s.drop (offset s k)) = (runes s).drop k := by
  apply List.ext_getElem?
  intro i
  rw [getElem?_runes, nextRune_drop, offset_drop, List.getElem?_drop, getElem?_runes]

/-- The runes of the bytes between two runes. -/
theorem runes_slice (hu : u ≤ v) (hv : v ≤ (runes s).length) :
    runes ((s.drop (offset s u)).take (offset s v - offset s u)) = ((runes s).drop u).take (v - u) := by
  have hoffset : offset s v - offset s u = offset (s.drop (offset s u)) (v - u) := by
    have := offset_drop s u (v - u)
    rw [Nat.add_sub_cancel' hu] at this
    omega
  have hlen : v - u ≤ (runes (s.drop (offset s u))).length := by
    rw [runes_drop, List.length_drop]
    exact Nat.sub_le_sub_right hv u
  rw [hoffset, runes_take hlen, runes_drop]

theorem isContinuation_high : ∀ c : UInt8, Utf8.isContinuation c = true → 128 ≤ c.toNat :=
  Utf8.forall_byte (by decide +kernel)

theorem getLast?_of_length {s : List UInt8} (h : s.getLast? = some b) (hlen : n + 1 = s.length)
    (hc : s[n]? = some c) : b = c := by
  rw [List.getLast?_eq_getElem?, ← hlen, Nat.add_sub_cancel, hc] at h
  exact (Option.some.inj h).symm

theorem utf8ToRune_last (hlead : 128 ≤ c0.toNat)
    (hn : (Utf8.utf8ToRune (c0 :: rest)).2 = (c0 :: rest).length)
    (h : (c0 :: rest).getLast? = some b) : 128 ≤ b.toNat := by
  have hone : 1 = (c0 :: rest).length → 128 ≤ b.toNat := by
    intro hlen
    exact getLast?_of_length h hlen rfl ▸ hlead
  unfold Utf8.utf8ToRune at hn
  dsimp only at hn
  split at hn
  · exact hone hn
  split at hn
  · split at hn
    · next c1 _ _ =>
      split at hn
      · next hc => exact getLast?_of_length h (n := 1) (c := c1) hn rfl ▸ isContinuation_high c1 hc
      · exact hone hn
    · exact hone hn
  split at hn
  · split at hn
    · next c1 c2 _ _ _ =>
      split at hn
      · next hc =>
        exact getLast?_of_length h (n := 2) (c := c2) hn rfl ▸
          isContinuation_high c2 (Bool.and_eq_true_iff.1 hc).2
      · exact hone hn
    · exact hone hn
  split at hn
  · split at hn
    · next c1 c2 c3 _ _ _ _ =>
      split at hn
      · next hc =>
        exact getLast?_of_length h (n := 3) (c := c3) hn rfl ▸
          isContinuation_high c3 (Bool.and_eq_true_iff.1 hc).2
      · exact hone hn
    · exact hone hn
  · exact hone hn

theorem getLast?_runes {s : List UInt8} (h : s.getLast? = some b) (hb : b.toNat < 128) :
    (runes s).getLast? = some b.toNat := by
  have hne : 0 < (runes s).length := by
    apply Nat.pos_of_ne_zero
    intro hzero
    have hle := (length_le_offset_iff s 0).2 (Nat.le_of_eq hzero)
    obtain rfl : s = [] := List.length_eq_zero_iff.1 (Nat.le_zero.1 hle)
    cases h
  rw [List.getLast?_eq_getElem?]
  obtain ⟨n, hn⟩ : ∃ n, (runes s).length = n + 1 := ⟨_, (Nat.succ_pred_eq_of_pos hne).symm⟩
  rw [hn, Nat.add_sub_cancel]
  obtain ⟨rune, bytes, hnext⟩ := exists_nextRune (s := s) (k := n) (by omega)
  rw [getElem?_runes, hnext]
  have hend : offset s n + bytes = s.length := by
    rw [← offset_succ hnext, ← hn]
    exact Nat.le_antisymm (offset_le s _) ((length_le_offset_iff s _).2 (Nat.le_refl _))
  obtain ⟨hlt, -⟩ := nextRune_pos hnext
  have hdrop : s.drop (offset s n) = s[offset s n] :: s.drop (offset s n + 1) :=
    List.drop_eq_getElem_cons hlt
  rw [nextRune, if_pos hlt, decodeRune, List.getElem?_eq_getElem hlt] at hnext
  dsimp only at hnext
  cases hascii : isAscii s[offset s n].toNat with
  | true =>
    rw [hascii, if_pos rfl] at hnext
    cases hnext
    exact congrArg some (congrArg UInt8.toNat (getLast?_of_length h hend (List.getElem?_eq_getElem hlt)).symm)
  | false =>
    rw [hascii, if_neg Bool.false_ne_true, hdrop] at hnext
    have hlead : 128 ≤ s[offset s n].toNat := Nat.not_lt.1 (of_decide_eq_false hascii)
    have hlast : (s[offset s n] :: s.drop (offset s n + 1)).getLast? = some b := by
      rw [← hdrop, List.getLast?_drop, if_neg (Nat.not_le.2 hlt), h]
    have hbytes := congrArg Prod.snd (Option.some.inj hnext)
    have := utf8ToRune_last hlead (by rw [hbytes, ← hdrop, List.length_drop]; omega) hlast
    omega

end Trieste.Regex
