namespace Trieste.Utf8
set_option autoImplicit true

def maskX : UInt8 := 0b11000000
def mask1 : UInt8 := 0b10000000
def mask2 : UInt8 := 0b11100000
def mask3 : UInt8 := 0b11110000
def mask4 : UInt8 := 0b11111000

def markX : UInt8 := 0b10000000
def mark1 : UInt8 := 0b00000000
def mark2 : UInt8 := 0b11000000
def mark3 : UInt8 := 0b11100000
def mark4 : UInt8 := 0b11110000

def valueX : UInt8 := 0b00111111
def value1 : UInt8 := 0b01111111
def value2 : UInt8 := 0b00011111
def value3 : UInt8 := 0b00001111
def value4 : UInt8 := 0b00000111

def shiftX : Nat := 6

def bad : Nat := 0xFFFD

def isContinuation (c : UInt8) : Bool := c &&& maskX == markX

/-- Appends the payload of a continuation byte. -/
def extend (value : Nat) (c : UInt8) : Nat := (value <<< shiftX) ||| (c &&& valueX).toNat

/-- `utf8_to_rune` without unescaping: the rune and the number of bytes it takes. -/
def utf8ToRune : List UInt8 → Nat × Nat
  | [] => (bad, 1)
  | c0 :: rest =>
    if c0 &&& mask1 == mark1 then ((c0 &&& value1).toNat, 1)
    else if c0 &&& mask2 == mark2 && 1 ≤ rest.length then
      match rest with
      | c1 :: _ =>
        if isContinuation c1 then (extend (c0 &&& value2).toNat c1, 2) else (bad, 1)
      | _ => (bad, 1)
    else if c0 &&& mask3 == mark3 && 2 ≤ rest.length then
      match rest with
      | c1 :: c2 :: _ =>
        if isContinuation c1 && isContinuation c2 then
          (extend (extend (c0 &&& value3).toNat c1) c2, 3)
        else (bad, 1)
      | _ => (bad, 1)
    else if c0 &&& mask4 == mark4 && 3 ≤ rest.length then
      match rest with
      | c1 :: c2 :: c3 :: _ =>
        if isContinuation c1 && isContinuation c2 && isContinuation c3 then
          (extend (extend (extend (c0 &&& value4).toNat c1) c2) c3, 4)
        else (bad, 1)
      | _ => (bad, 1)
    else (bad, 1)

theorem utf8ToRune_pos (utf8 : List UInt8) : 0 < (utf8ToRune utf8).2 := by
  unfold utf8ToRune
  repeat' split
  all_goals exact Nat.succ_pos _

theorem utf8ToRune_le (h : utf8 ≠ []) : (utf8ToRune utf8).2 ≤ utf8.length := by
  cases utf8 with
  | nil => exact absurd rfl h
  | cons c0 rest =>
    unfold utf8ToRune
    repeat' split
    all_goals grind

end Trieste.Utf8
