import Mathlib.Data.List.Induction
import Trieste.Utf8.Unescape

namespace Trieste.Utf8
set_option autoImplicit true

/-- A hexadecimal digit with its value. -/
structure Hex where
  byte : UInt8
  digit : Nat
  read : hexDigit byte = some digit

/-- A property of every byte is checked on all of them. -/
theorem forall_byte {p : UInt8 → Prop} (h : ∀ n < 256, p (UInt8.ofNat n)) (c : UInt8) : p c := by
  have hc := h c.toNat c.toNat_lt
  rwa [UInt8.ofNat_toNat] at hc

theorem hexDigit_isSome_plain : ∀ c, (hexDigit c).isSome →
    c < 0x80 ∧ isSpace c = false ∧ c ≠ 0x2D ∧ c ≠ 0x2B ∧ c ≠ 0x78 ∧ c ≠ 0x58 :=
  forall_byte (by decide +kernel)

namespace Hex

theorem plain (d : Hex) : d.byte < 0x80 ∧ isSpace d.byte = false ∧ d.byte ≠ 0x2D ∧
    d.byte ≠ 0x2B ∧ d.byte ≠ 0x78 ∧ d.byte ≠ 0x58 := by
  apply hexDigit_isSome_plain
  rw [d.read]
  rfl

theorem digit_lt (d : Hex) : d.digit < 16 := hexDigit_lt d.read

theorem ne_backslash (d : Hex) : d.byte ≠ backslash := ne_backslash_of_hexDigit d.read

end Hex

theorem hexDigits_hexes (ds : List Hex) (s : List UInt8) :
    hexDigits (ds.map Hex.byte ++ s) = ds.map Hex.digit ++ hexDigits s := by
  induction ds with
  | nil => rfl
  | cons d ds ih =>
    rw [List.map_cons, List.cons_append, hexDigits, d.read]
    simp only [ih, List.map_cons, List.cons_append]

theorem ofDigits_append (ds : List Nat) (d : Nat) :
    ofDigits (ds ++ [d]) = 16 * ofDigits ds + d := by
  rw [ofDigits, List.foldl_append]
  rfl

theorem ofDigits_lt (ds : List Nat) (h : ∀ d ∈ ds, d < 16) : ofDigits ds < 16 ^ ds.length := by
  induction ds using List.reverseRecOn with
  | nil => exact Nat.one_pos
  | append_singleton ds d ih =>
    have hd : d < 16 := h d (by simp)
    have hds := ih fun e he => h e (by simp [he])
    rw [ofDigits_append, List.length_append, List.length_singleton, Nat.pow_succ]
    omega

theorem dropHexMark_eq (h : ∀ x ∈ s.head?, x ≠ 0x78 ∧ x ≠ 0x58) (c : UInt8) :
    dropHexMark (c :: s) = c :: s := by
  rcases s with _ | ⟨x, _ | ⟨d, s⟩⟩
  · rfl
  · rfl
  · obtain ⟨hx, hx'⟩ := h x rfl
    rw [dropHexMark, if_neg]
    intro hmark
    rcases hmark.2.1 with rfl | rfl
    · exact hx rfl
    · exact hx' rfl

/-- Digits up to a character that is no digit and no hexadecimal mark are read as their number. -/
theorem stoul_hexes (d : Hex) (ds : List Hex) (hlen : ds.length < 16) (hs : hexDigits s = [])
    (hmark : ∀ x ∈ s.head?, x ≠ 0x78 ∧ x ≠ 0x58) :
    stoul ((d :: ds).map Hex.byte ++ s) = .ok (ofDigits ((d :: ds).map Hex.digit)) := by
  obtain ⟨-, hspace, hminus, hplus, -, -⟩ := d.plain
  have hrest : dropHexMark ((d :: ds).map Hex.byte ++ s) = (d :: ds).map Hex.byte ++ s := by
    apply dropHexMark_eq
    cases ds with
    | nil => exact hmark
    | cons e ds =>
      intro x hx
      cases hx
      exact e.plain.2.2.2.2
  have hlt : ofDigits ((d :: ds).map Hex.digit) < 2 ^ 64 := by
    have hvalue := ofDigits_lt ((d :: ds).map Hex.digit) (by
      intro e he
      obtain ⟨e', -, rfl⟩ := List.mem_map.1 he
      exact e'.digit_lt)
    rw [List.length_map] at hvalue
    exact Nat.lt_of_lt_of_le hvalue (Nat.pow_le_pow_right (by decide) hlen : _ ≤ 16 ^ 16)
  have hsign : takeSign (((d :: ds).map Hex.byte ++ s).dropWhile isSpace) =
      (false, (d :: ds).map Hex.byte ++ s) := by
    simp [takeSign, hspace, hminus, hplus]
  rw [stoul, hsign]
  simp only [hrest, hexDigits_hexes, hs, List.append_nil]
  rw [if_neg (by simp), if_neg (Nat.not_le.2 hlt)]
  rfl

end Trieste.Utf8
