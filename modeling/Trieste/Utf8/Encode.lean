import Mathlib.Algebra.Ring.Nat
import Trieste.Utf8
import Trieste.Utf8.Unescape

namespace Trieste.Utf8
set_option autoImplicit true

def encode (text : List Char) : List UInt8 := text.flatMap String.utf8EncodeChar

theorem lead_ascii : ∀ x, x < 128 → UInt8.ofNat x &&& mask1 = mark1 ∧
    (UInt8.ofNat x &&& value1).toNat = x := by
  decide_cbv

theorem lead_two : ∀ x, x < 32 → UInt8.ofNat (x + 0xC0) &&& mask1 ≠ mark1 ∧
    UInt8.ofNat (x + 0xC0) &&& mask2 = mark2 ∧ (UInt8.ofNat (x + 0xC0) &&& value2).toNat = x := by
  decide_cbv

theorem lead_three : ∀ x, x < 16 → UInt8.ofNat (x + 0xE0) &&& mask1 ≠ mark1 ∧
    UInt8.ofNat (x + 0xE0) &&& mask2 ≠ mark2 ∧ UInt8.ofNat (x + 0xE0) &&& mask3 = mark3 ∧
    (UInt8.ofNat (x + 0xE0) &&& value3).toNat = x := by
  decide_cbv

theorem lead_four : ∀ x, x < 8 → UInt8.ofNat (x + 0xF0) &&& mask1 ≠ mark1 ∧
    UInt8.ofNat (x + 0xF0) &&& mask2 ≠ mark2 ∧ UInt8.ofNat (x + 0xF0) &&& mask3 ≠ mark3 ∧
    UInt8.ofNat (x + 0xF0) &&& mask4 = mark4 ∧ (UInt8.ofNat (x + 0xF0) &&& value4).toNat = x := by
  decide_cbv

theorem continuationByte : ∀ x, x < 64 → isContinuation (UInt8.ofNat (x + 0x80)) = true ∧
    (UInt8.ofNat (x + 0x80) &&& valueX).toNat = x := by
  decide_cbv

theorem extend_continuation (value : Nat) (h : x < 64) :
    extend value (UInt8.ofNat (x + 0x80)) = value * 64 + x := by
  rw [extend, (continuationByte x h).2, shiftX, ← Nat.shiftLeft_add_eq_or_of_lt h, Nat.shiftLeft_eq]

theorem utf8ToRune_one (hx : x < 128) (rest : List UInt8) :
    utf8ToRune (UInt8.ofNat x :: rest) = (x, 1) := by
  obtain ⟨hmark, hvalue⟩ := lead_ascii x hx
  generalize UInt8.ofNat x = c0 at hmark hvalue ⊢
  unfold utf8ToRune
  dsimp only
  rw [hmark, beq_self_eq_true, if_pos rfl, hvalue]

theorem utf8ToRune_two (hx : x < 32) (hy : y < 64) (rest : List UInt8) :
    utf8ToRune (UInt8.ofNat (x + 0xC0) :: UInt8.ofNat (y + 0x80) :: rest) = (x * 64 + y, 2) := by
  obtain ⟨hone, htwo, hvalue⟩ := lead_two x hx
  have hy₁ := (continuationByte y hy).1
  have hy₂ := fun value => extend_continuation value hy
  generalize UInt8.ofNat (x + 0xC0) = c0 at *
  generalize UInt8.ofNat (y + 0x80) = c1 at *
  simp [utf8ToRune, hone, htwo, hvalue, hy₁, hy₂]

theorem utf8ToRune_three (hx : x < 16) (hy : y < 64) (hz : z < 64) (rest : List UInt8) :
    utf8ToRune (UInt8.ofNat (x + 0xE0) :: UInt8.ofNat (y + 0x80) :: UInt8.ofNat (z + 0x80) :: rest) =
      ((x * 64 + y) * 64 + z, 3) := by
  obtain ⟨hone, htwo, hthree, hvalue⟩ := lead_three x hx
  have hy₁ := (continuationByte y hy).1
  have hy₂ := fun value => extend_continuation value hy
  have hz₁ := (continuationByte z hz).1
  have hz₂ := fun value => extend_continuation value hz
  generalize UInt8.ofNat (x + 0xE0) = c0 at *
  generalize UInt8.ofNat (y + 0x80) = c1 at *
  generalize UInt8.ofNat (z + 0x80) = c2 at *
  simp [utf8ToRune, hone, htwo, hthree, hvalue, hy₁, hy₂, hz₁, hz₂]

theorem utf8ToRune_four (hx : x < 8) (hy : y < 64) (hz : z < 64) (hw : w < 64)
    (rest : List UInt8) :
    utf8ToRune (UInt8.ofNat (x + 0xF0) :: UInt8.ofNat (y + 0x80) :: UInt8.ofNat (z + 0x80) ::
      UInt8.ofNat (w + 0x80) :: rest) = (((x * 64 + y) * 64 + z) * 64 + w, 4) := by
  obtain ⟨hone, htwo, hthree, hfour, hvalue⟩ := lead_four x hx
  have hy₁ := (continuationByte y hy).1
  have hy₂ := fun value => extend_continuation value hy
  have hz₁ := (continuationByte z hz).1
  have hz₂ := fun value => extend_continuation value hz
  have hw₁ := (continuationByte w hw).1
  have hw₂ := fun value => extend_continuation value hw
  generalize UInt8.ofNat (x + 0xF0) = c0 at *
  generalize UInt8.ofNat (y + 0x80) = c1 at *
  generalize UInt8.ofNat (z + 0x80) = c2 at *
  generalize UInt8.ofNat (w + 0x80) = c3 at *
  simp [utf8ToRune, hone, htwo, hthree, hfour, hvalue, hy₁, hy₂, hz₁, hz₂, hw₁, hw₂]

theorem toNat_lt (c : Char) : c.toNat < 0x110000 := by
  have hval : c.toNat = c.val.toNat := rfl
  rw [hval]
  rcases c.valid with h | h
  · exact Nat.lt_trans h (by decide)
  · exact h.2

/-- An encoded character is decoded again, whatever follows it. -/
theorem utf8ToRune_encode (c : Char) (rest : List UInt8) :
    utf8ToRune (String.utf8EncodeChar c ++ rest) =
      (c.toNat, (String.utf8EncodeChar c).length) := by
  have hvalid : c.val.toNat < 0x110000 := toNat_lt c
  have hval : c.toNat = c.val.toNat := rfl
  have hmod : ∀ n, n % 64 < 64 := fun n => Nat.mod_lt n (by decide)
  rw [hval, String.utf8EncodeChar]
  generalize c.val.toNat = v at hvalid
  split
  · next h => exact utf8ToRune_one (Nat.lt_succ_of_le h) rest
  · split
    · have hx : v / 64 % 32 < 32 := Nat.mod_lt _ (by decide)
      have hsum : v / 64 % 32 * 64 + v % 64 = v := by omega
      exact (utf8ToRune_two hx (hmod v) rest).trans (by rw [hsum]; rfl)
    · split
      · have hx : v / 4096 % 16 < 16 := Nat.mod_lt _ (by decide)
        have hsum : (v / 4096 % 16 * 64 + v / 64 % 64) * 64 + v % 64 = v := by omega
        exact (utf8ToRune_three hx (hmod (v / 64)) (hmod v) rest).trans (by rw [hsum]; rfl)
      · have hx : v / 262144 % 8 < 8 := Nat.mod_lt _ (by decide)
        have hsum : ((v / 262144 % 8 * 64 + v / 4096 % 64) * 64 + v / 64 % 64) * 64 + v % 64 = v := by
          omega
        exact (utf8ToRune_four hx (hmod (v / 4096)) (hmod (v / 64)) (hmod v) rest).trans
          (by rw [hsum]; rfl)

/-- The first byte of a character is its rune, or not an ASCII character either. -/
theorem encode_cons (c : Char) (text : List Char) : ∃ first rest,
    encode (c :: text) = first :: rest ∧
      (c.toNat < 128 → first.toNat = c.toNat) ∧ (128 ≤ c.toNat → 128 ≤ first.toNat) := by
  have hbyte : ∀ n, n < 256 → (UInt8.ofNat n).toNat = n := fun n hn => UInt8.toNat_ofNat_of_lt' hn
  have hval : c.toNat = c.val.toNat := rfl
  rw [hval, encode, List.flatMap_cons, String.utf8EncodeChar]
  generalize c.val.toNat = v
  split
  · next h =>
    have hv := hbyte v (by omega)
    exact ⟨_, _, rfl, fun _ => hv, fun hge => hv.symm ▸ hge⟩
  · next h =>
    have hge : ∀ n mark, 128 ≤ mark → n + mark < 256 → 128 ≤ (UInt8.ofNat (n + mark)).toNat := by
      intro n mark hmark hlt
      rw [hbyte _ hlt]
      omega
    split
    · exact ⟨_, _, rfl, fun hlt => by omega, fun _ => hge _ _ (by decide) (by omega)⟩
    · split
      · exact ⟨_, _, rfl, fun hlt => by omega, fun _ => hge _ _ (by decide) (by omega)⟩
      · exact ⟨_, _, rfl, fun hlt => by omega, fun _ => hge _ _ (by decide) (by omega)⟩

theorem continuation_eq (value : Nat) : continuation value = UInt8.ofNat (value % 64 + 0x80) := by
  have hmod : value % 64 < 2 ^ 6 := Nat.mod_lt _ (by decide)
  have hand : value &&& valueX.toNat = value % 64 := Nat.and_two_pow_sub_one_eq_mod value 6
  have hor : (2 <<< 6 ||| value % 64) = 2 <<< 6 + value % 64 :=
    (Nat.shiftLeft_add_eq_or_of_lt hmod 2).symm
  rw [continuation, hand, Nat.or_comm, Nat.add_comm]
  exact congrArg UInt8.ofNat hor

/-- A mark is added to the payload in its low bits. -/
theorem mark_or (h : payload < 2 ^ i) (high : Nat) :
    (high <<< i) ||| payload = payload + high <<< i := by
  rw [← Nat.shiftLeft_add_eq_or_of_lt h, Nat.add_comm]

theorem shift_one (value : Nat) : value >>> shiftX = value / 64 :=
  Nat.shiftRight_eq_div_pow value 6

theorem shift_two (value : Nat) : value >>> shiftX >>> shiftX = value / 4096 := by
  rw [shift_one, shift_one, Nat.div_div_eq_div_mul]

theorem shift_three (value : Nat) : value >>> shiftX >>> shiftX >>> shiftX = value / 262144 := by
  rw [shift_two, shift_one, Nat.div_div_eq_div_mul]

theorem writeRune3_eq (h : value < 0x10000) : writeRune3 value =
    [UInt8.ofNat (value / 4096 + 0xE0), UInt8.ofNat (value / 64 % 64 + 0x80),
      UInt8.ofNat (value % 64 + 0x80)] := by
  have hlead : value / 4096 < 2 ^ 5 := by omega
  have hmark := mark_or hlead 7
  rw [writeRune3, shift_two, shift_one, continuation_eq, continuation_eq]
  exact congrArg (fun first => UInt8.ofNat first :: _) hmark

/-- The rune of a character is written as the character is encoded. -/
theorem writeRune_toNat (c : Char) : writeRune c.toNat = String.utf8EncodeChar c := by
  have hval : c.toNat = c.val.toNat := rfl
  have hlt : c.val.toNat < 0x110000 := toNat_lt c
  rw [hval, String.utf8EncodeChar]
  generalize c.val.toNat = v at hlt
  rw [writeRune]
  by_cases h1 : v ≤ max1
  · have h1' : v ≤ 0x7F := h1
    rw [if_pos h1, if_pos h1']
    exact congrArg (fun first => [UInt8.ofNat first]) (Nat.zero_or v)
  have h1' : ¬ v ≤ 0x7F := h1
  rw [if_neg h1, if_neg h1']
  by_cases h2 : v ≤ max2
  · have h2' : v ≤ 0x7FF := h2
    have hlead : v / 64 < 2 ^ 5 := by omega
    have hmod : v / 64 % 32 = v / 64 := Nat.mod_eq_of_lt hlead
    have hmark := mark_or hlead 6
    rw [if_pos h2, if_pos h2', shift_one, continuation_eq, hmod]
    exact congrArg (fun first => [UInt8.ofNat first, _]) hmark
  have h2' : ¬ v ≤ 0x7FF := h2
  rw [if_neg h2, if_neg h2']
  by_cases h3 : v ≤ max3
  · have h3' : v ≤ 0xFFFF := h3
    have hlead : v / 4096 % 16 = v / 4096 := Nat.mod_eq_of_lt (by omega)
    rw [if_pos h3, if_pos h3', writeRune3_eq (Nat.lt_succ_of_le h3), hlead]
  · have h3' : ¬ v ≤ 0xFFFF := h3
    have h4 : v ≤ max4 := Nat.le_of_lt_succ hlt
    have hlead : v / 262144 < 2 ^ 3 := by omega
    have hmod : v / 262144 % 8 = v / 262144 := Nat.mod_eq_of_lt hlead
    have hmark := mark_or hlead 30
    rw [if_neg h3, if_neg h3', if_pos h4, shift_three, shift_two, shift_one, continuation_eq,
      continuation_eq, continuation_eq, hmod]
    exact congrArg (fun first => [UInt8.ofNat first, _, _, _]) hmark

theorem length_writeRune_three (hlow : max2 < value) (hhigh : value ≤ max3) :
    (writeRune value).length = 3 := by
  have h1 : ¬ value ≤ max1 := Nat.not_le.2 (Nat.lt_trans (by decide) hlow)
  rw [writeRune, if_neg h1, if_neg (Nat.not_le.2 hlow), if_pos hhigh, writeRune3]
  rfl

theorem length_writeRune_four (hlow : max3 < value) (hhigh : value ≤ max4) :
    (writeRune value).length = 4 := by
  have h1 : ¬ value ≤ max1 := Nat.not_le.2 (Nat.lt_trans (by decide) hlow)
  have h2 : ¬ value ≤ max2 := Nat.not_le.2 (Nat.lt_trans (by decide) hlow)
  rw [writeRune, if_neg h1, if_neg h2, if_neg (Nat.not_le.2 hlow), if_pos hhigh]
  rfl

end Trieste.Utf8
