import Mathlib.Algebra.Ring.Nat
import Mathlib.Data.List.Basic

namespace Trieste.Library
set_option autoImplicit true

/-- A stream for text, with the base, the case, the fill and the width of the next field. -/
structure Stream where
  text : List UInt8 := []
  hex : Bool := false
  uppercase : Bool := false
  fill : UInt8 := 0x20
  width : Nat := 0

/-- The digits of a number, with zeros in front up to the width. -/
def hexText : Nat → Nat → List UInt8
  | 0, _ => []
  | width + 1, value => hexText width (value / 16) ++ [(value % 16).digitChar.toUpper.toUInt8]

namespace Stream

/-- What is written fills the width, which holds for one field only. -/
def put (os : Stream) (field : List UInt8) : Stream :=
  { os with
    text := os.text ++ (List.replicate (os.width - field.length) os.fill ++ field)
    width := 0 }

def numberText (os : Stream) (value : Nat) : List UInt8 :=
  let digits := Nat.toDigits (if os.hex then 16 else 10) value
  (if os.uppercase then digits.map Char.toUpper else digits).map Char.toUInt8

def putNumber (os : Stream) (value : Nat) : Stream := os.put (os.numberText value)

/-- The next number is written in hexadecimal, with capitals and with zeros up to the width. -/
def setHex (os : Stream) (width : Nat) : Stream :=
  { os with hex := true, uppercase := true, fill := 0x30, width := width }

theorem width_put (os : Stream) (field : List UInt8) : (os.put field).width = 0 := rfl

theorem text_put {os : Stream} (h : os.width = 0) (field : List UInt8) :
    (os.put field).text = os.text ++ field := by
  rw [put, h, Nat.zero_sub]
  rfl

end Stream

theorem hexText_zero (width : Nat) : hexText width 0 = List.replicate width 0x30 := by
  induction width with
  | zero => rfl
  | succ width ih =>
    rw [hexText, Nat.zero_div, ih, List.replicate_succ']
    rfl

theorem hexText_eq (hwidth : width ≠ 0) (h : value < 16 ^ width) :
    List.replicate (width - (Nat.toDigits 16 value).length) 0x30 ++
      ((Nat.toDigits 16 value).map Char.toUpper).map Char.toUInt8 = hexText width value := by
  induction width generalizing value with
  | zero => exact absurd rfl hwidth
  | succ width ih =>
    by_cases hlt : value < 16
    · rw [Nat.toDigits_of_lt_base hlt, hexText, Nat.div_eq_of_lt hlt, Nat.mod_eq_of_lt hlt,
        hexText_zero]
      rfl
    · have hle : 16 ≤ value := Nat.le_of_not_lt hlt
      have hdiv : value / 16 < 16 ^ width := by
        apply Nat.div_lt_of_lt_mul
        rwa [Nat.pow_succ, Nat.mul_comm] at h
      have hne : width ≠ 0 := by
        intro hzero
        rw [hzero] at hdiv
        omega
      rw [Nat.toDigits_of_base_le (by decide) hle, hexText, ← ih hne hdiv, List.map_append,
        List.map_append, List.length_append, List.length_singleton, Nat.add_sub_add_right,
        List.append_assoc]
      rfl

namespace Stream

/-- A number below the limit of the width is written with as many digits. -/
theorem text_putNumber (os : Stream) {digits : Nat} (hdigits : digits ≠ 0)
    (h : value < 16 ^ digits) :
    ((os.setHex digits).putNumber value).text = os.text ++ hexText digits value := by
  rw [← hexText_eq hdigits h, putNumber, put, numberText, List.length_map]
  simp only [setHex, if_true, List.length_map]

end Stream

end Trieste.Library
