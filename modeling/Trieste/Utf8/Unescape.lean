import Mathlib.Algebra.Ring.Nat
import Trieste.Utf8

namespace Trieste.Utf8
set_option autoImplicit true

def max1 : Nat := 0x007F
def max2 : Nat := 0x07FF
def max3 : Nat := 0xFFFF
def max4 : Nat := 0x10FFFF

/-- A continuation byte with the lowest payload bits of a value. -/
def continuation (value : Nat) : UInt8 := UInt8.ofNat ((value &&& valueX.toNat) ||| markX.toNat)

/-- The form of `write_rune` with three bytes. -/
def writeRune3 (value : Nat) : List UInt8 :=
  [UInt8.ofNat (mark3.toNat ||| (value >>> shiftX >>> shiftX)),
    continuation (value >>> shiftX), continuation value]

/-- `write_rune`. -/
def writeRune (value : Nat) : List UInt8 :=
  if value ≤ max1 then [UInt8.ofNat (mark1.toNat ||| value)]
  else if value ≤ max2 then
    [UInt8.ofNat (mark2.toNat ||| (value >>> shiftX)), continuation value]
  else if value ≤ max3 then writeRune3 value
  else if value ≤ max4 then
    [UInt8.ofNat (mark4.toNat ||| (value >>> shiftX >>> shiftX >>> shiftX)),
      continuation (value >>> shiftX >>> shiftX), continuation (value >>> shiftX),
      continuation value]
  else writeRune3 bad

/-- What the library functions and the unescaping functions throw. -/
inductive Exception where
  | invalidArgument
  | outOfRange
  | runtimeError (what : String)
  deriving DecidableEq, Repr

def isSpace (c : UInt8) : Bool := c == 0x20 || (0x09 ≤ c && c ≤ 0x0D)

def hexDigit (c : UInt8) : Option Nat :=
  if 0x30 ≤ c ∧ c ≤ 0x39 then some (c.toNat - 0x30)
  else if 0x41 ≤ c ∧ c ≤ 0x46 then some (c.toNat - 0x41 + 10)
  else if 0x61 ≤ c ∧ c ≤ 0x66 then some (c.toNat - 0x61 + 10)
  else none

/-- The values of the digits at the front. -/
def hexDigits : List UInt8 → List Nat
  | [] => []
  | c :: s =>
    match hexDigit c with
    | some d => d :: hexDigits s
    | none => []

/-- An optional sign, and whether it is a minus. -/
def takeSign : List UInt8 → Bool × List UInt8
  | [] => (false, [])
  | c :: s => if c = 0x2D then (true, s) else if c = 0x2B then (false, s) else (false, c :: s)

/-- An optional `0x` or `0X` in front of a digit is skipped. -/
def dropHexMark : List UInt8 → List UInt8
  | zero :: x :: d :: s =>
    if zero = 0x30 ∧ (x = 0x78 ∨ x = 0x58) ∧ (hexDigit d).isSome then d :: s
    else zero :: x :: d :: s
  | s => s

def ofDigits (digits : List Nat) : Nat := digits.foldl (fun value d => 16 * value + d) 0

/-- `std::stoul(s, nullptr, 16)`, where a minus negates in 64 bits. -/
def stoul (s : List UInt8) : Except Exception Nat :=
  let (negative, s) := takeSign (s.dropWhile isSpace)
  let digits := hexDigits (dropHexMark s)
  if digits = [] then .error .invalidArgument
  else if 2 ^ 64 ≤ ofDigits digits then .error .outOfRange
  else .ok (if negative then (2 ^ 64 - ofDigits digits) % 2 ^ 64 else ofDigits digits)

def backslash : UInt8 := 0x5C

/-- How many characters follow `\x`, `\u` and `\U` as digits. -/
def escapeDigits (kind : UInt8) : Option Nat :=
  if kind = 0x78 then some 2
  else if kind = 0x75 then some 4
  else if kind = 0x55 then some 8
  else none

/-- `utf8_to_rune` with unescaping, on the text after a backslash. An escape may end one
character early, at the end of the text. -/
def escapeToRune (rest : List UInt8) : Except Exception (Nat × Nat) :=
  match rest with
  | [] => .ok (backslash.toNat, 1)
  | kind :: digits =>
    match escapeDigits kind with
    | none => .ok (backslash.toNat, 1)
    | some n =>
      if n + 1 ≤ digits.length + 2 then
        (stoul (digits.take n)).map fun value =>
          (value % 2 ^ 32, min (n + 2) (digits.length + 2))
      else .ok (backslash.toNat, 1)

/-- `unescape_hexunicode`. -/
def unescapeHexunicode : List UInt8 → Except Exception (List UInt8)
  | [] => .ok []
  | c :: rest =>
    if c = backslash then do
      let (r, size) ← escapeToRune rest
      -- the backslash is one of the bytes that the escape takes
      let out ← unescapeHexunicode (rest.drop (size - 1))
      return writeRune r ++ out
    else do
      let out ← unescapeHexunicode rest
      return c :: out
termination_by input => input.length

theorem unescapeHexunicode_cons (h : c ≠ backslash) (rest : List UInt8) :
    unescapeHexunicode (c :: rest) = (unescapeHexunicode rest).map (c :: ·) := by
  rw [unescapeHexunicode, if_neg h]
  cases unescapeHexunicode rest <;> rfl

theorem unescapeHexunicode_backslash (rest : List UInt8) :
    unescapeHexunicode (backslash :: rest) = (escapeToRune rest).bind fun (r, size) =>
      (unescapeHexunicode (rest.drop (size - 1))).map (writeRune r ++ ·) := by
  rw [unescapeHexunicode, if_pos rfl]
  rcases escapeToRune rest with e | ⟨r, size⟩
  · rfl
  · show (unescapeHexunicode (rest.drop (size - 1))).bind _ =
      (unescapeHexunicode (rest.drop (size - 1))).map _
    cases unescapeHexunicode (rest.drop (size - 1)) <;> rfl

/-- A backslash before this text starts an escape with the digits in the first part. -/
def StartsEscape (rest digits : List UInt8) (n : Nat) : Prop :=
  ∃ kind, rest = kind :: digits ∧ escapeDigits kind = some n ∧ n ≤ digits.length + 1

theorem escapeToRune_of_starts (h : StartsEscape rest digits n) :
    escapeToRune rest = (stoul (digits.take n)).map fun value =>
      (value % 2 ^ 32, min (n + 2) (digits.length + 2)) := by
  obtain ⟨kind, rfl, hn, hlen⟩ := h
  simp only [escapeToRune, hn]
  rw [if_pos (by omega)]

theorem escapeToRune_of_not_starts (h : ∀ digits n, ¬ StartsEscape rest digits n) :
    escapeToRune rest = .ok (backslash.toNat, 1) := by
  cases rest with
  | nil => rfl
  | cons kind digits =>
    rw [escapeToRune]
    split
    · rfl
    · split
      · exact absurd ⟨kind, rfl, ‹_›, by omega⟩ (h digits _)
      · rfl

theorem drop_escape (kind : UInt8) (digits : List UInt8) (n : Nat) :
    (kind :: digits).drop (min (n + 2) (digits.length + 2) - 1) = digits.drop n := by
  have hsize : min (n + 2) (digits.length + 2) - 1 = min n digits.length + 1 := by omega
  rw [hsize, List.drop_succ_cons]
  rcases Nat.le_total n digits.length with h | h
  · rw [Nat.min_eq_left h]
  · rw [Nat.min_eq_right h, List.drop_of_length_le (Nat.le_refl _), List.drop_of_length_le h]

theorem unescapeHexunicode_of_starts (h : StartsEscape rest digits n) :
    unescapeHexunicode (backslash :: rest) = (stoul (digits.take n)).bind fun value =>
      (unescapeHexunicode (digits.drop n)).map (writeRune (value % 2 ^ 32) ++ ·) := by
  rw [unescapeHexunicode_backslash, escapeToRune_of_starts h]
  obtain ⟨kind, rfl, -, -⟩ := h
  cases stoul (digits.take n) with
  | error e => rfl
  | ok value =>
    show (unescapeHexunicode ((kind :: digits).drop _)).map _ = _
    rw [drop_escape]
    rfl

theorem unescapeHexunicode_of_not_starts (h : ∀ digits n, ¬ StartsEscape rest digits n) :
    unescapeHexunicode (backslash :: rest) =
      (unescapeHexunicode rest).map (backslash :: ·) := by
  rw [unescapeHexunicode_backslash, escapeToRune_of_not_starts h]
  rfl

theorem high_of_mark {mark : Nat} (h : mark.testBit 7 = true) (payload : Nat) :
    0x80 ≤ UInt8.ofNat (mark ||| payload) := by
  rw [UInt8.le_iff_toNat_le, UInt8.toNat_ofNat']
  apply Nat.le_of_not_lt
  intro hlt
  have hbit : ((mark ||| payload) % 2 ^ 8).testBit 7 = false := Nat.testBit_lt_two_pow hlt
  rw [Nat.testBit_mod_two_pow, Nat.testBit_or, h] at hbit
  simp at hbit

theorem continuation_high (value : Nat) : 0x80 ≤ continuation value := by
  rw [continuation, Nat.or_comm]
  exact high_of_mark rfl _

theorem writeRune3_high (value : Nat) : ∀ c ∈ writeRune3 value, 0x80 ≤ c := by
  intro c hc
  simp only [writeRune3, List.mem_cons, List.not_mem_nil, or_false] at hc
  rcases hc with rfl | rfl | rfl
  · exact high_of_mark rfl _
  · exact continuation_high _
  · exact continuation_high _

theorem writeRune_ascii (h : value ≤ max1) : writeRune value = [UInt8.ofNat value] := by
  simp [writeRune, h, mark1]

/-- Beyond ASCII a rune is written without ASCII bytes. -/
theorem writeRune_high (h : ¬ value ≤ max1) : ∀ c ∈ writeRune value, 0x80 ≤ c := by
  intro c hc
  rw [writeRune, if_neg h] at hc
  split at hc
  · simp only [List.mem_cons, List.not_mem_nil, or_false] at hc
    rcases hc with rfl | rfl
    · exact high_of_mark rfl _
    · exact continuation_high _
  split at hc
  · exact writeRune3_high _ c hc
  split at hc
  · simp only [List.mem_cons, List.not_mem_nil, or_false] at hc
    rcases hc with rfl | rfl | rfl | rfl
    · exact high_of_mark rfl _
    all_goals exact continuation_high _
  · exact writeRune3_high _ c hc

theorem writeRune_ne_nil (value : Nat) : writeRune value ≠ [] := by
  unfold writeRune
  repeat' split
  all_goals exact List.cons_ne_nil _ _

theorem length_writeRune_le (value : Nat) : (writeRune value).length ≤ 4 := by
  unfold writeRune
  repeat' split
  all_goals simp [writeRune3]

theorem length_writeRune_le_two (value : Nat) (h : value ≤ max2) : (writeRune value).length ≤ 2 := by
  unfold writeRune
  split
  · simp
  · simp

theorem length_writeRune_bad (value : Nat) (h : max4 < value) : (writeRune value).length = 3 := by
  have h1 : ¬ value ≤ max1 := fun hle => by simp [max1, max4] at *; omega
  have h2 : ¬ value ≤ max2 := fun hle => by simp [max2, max4] at *; omega
  have h3 : ¬ value ≤ max3 := fun hle => by simp [max3, max4] at *; omega
  rw [writeRune, if_neg h1, if_neg h2, if_neg h3, if_neg (Nat.not_le.2 h)]
  rfl

/-- The number of characters before the first backslash. -/
def plainLength : List UInt8 → Nat
  | [] => 0
  | c :: s => if c = backslash then 0 else plainLength s + 1

theorem plainLength_cons (h : c ≠ backslash) (s : List UInt8) :
    plainLength (c :: s) = plainLength s + 1 := if_neg h

theorem ne_backslash_of_hexDigit (h : hexDigit c = some d) : c ≠ backslash := by
  rintro rfl
  cases h

theorem hexDigit_lt (h : hexDigit c = some d) : d < 16 := by
  simp only [hexDigit, UInt8.le_iff_toNat_le] at h
  split at h
  · cases h
    have := c.toNat_lt
    simp at *
    omega
  split at h
  · cases h
    simp at *
    omega
  split at h
  · cases h
    simp at *
    omega
  · cases h

theorem plainLength_dropSpace (s : List UInt8) :
    plainLength (s.dropWhile isSpace) ≤ plainLength s := by
  induction s with
  | nil => exact Nat.le_refl _
  | cons c s ih =>
    rw [List.dropWhile_cons]
    split
    · have hc : c ≠ backslash := by
        rintro rfl
        contradiction
      rw [plainLength_cons hc]
      omega
    · exact Nat.le_refl _

theorem plainLength_takeSign (s : List UInt8) :
    plainLength (takeSign s).2 + (if (takeSign s).1 then 1 else 0) ≤ plainLength s := by
  cases s with
  | nil => simp [takeSign]
  | cons c s =>
    rw [takeSign]
    split
    · have hc : c ≠ backslash := by
        subst c
        decide
      simp [plainLength_cons hc]
    split
    · have hc : c ≠ backslash := by
        subst c
        decide
      simp [plainLength_cons hc]
    · simp

theorem plainLength_dropHexMark (s : List UInt8) :
    plainLength (dropHexMark s) ≤ plainLength s := by
  unfold dropHexMark
  split
  · split
    · rename_i zero x d s h
      obtain ⟨rfl, hx, hd⟩ := h
      have hx : x ≠ backslash := by
        rcases hx with rfl | rfl <;> decide
      rw [plainLength_cons (by decide) (x :: d :: s), plainLength_cons hx]
      omega
    · exact Nat.le_refl _
  · exact Nat.le_refl _

theorem length_hexDigits_le (s : List UInt8) : (hexDigits s).length ≤ plainLength s := by
  induction s with
  | nil => exact Nat.le_refl _
  | cons c s ih =>
    rw [hexDigits]
    split
    · rw [plainLength_cons (ne_backslash_of_hexDigit ‹_›)]
      exact Nat.succ_le_succ ih
    · exact Nat.zero_le _

theorem hexDigits_lt (s : List UInt8) : ∀ d ∈ hexDigits s, d < 16 := by
  induction s with
  | nil => simp [hexDigits]
  | cons c s ih =>
    intro d hd
    rw [hexDigits] at hd
    split at hd
    · rcases List.mem_cons.1 hd with rfl | hd
      · exact hexDigit_lt ‹_›
      · exact ih d hd
    · cases hd

/-- The rune that a number stands for takes at most one byte more than its characters. -/
theorem length_writeRune_stoul (h : stoul s = .ok value) :
    (writeRune (value % 2 ^ 32)).length ≤ plainLength s + 1 := by
  have hspace := plainLength_dropSpace s
  have hsign := plainLength_takeSign (s.dropWhile isSpace)
  rw [stoul] at h
  rcases hs : takeSign (s.dropWhile isSpace) with ⟨negative, r⟩
  have hmark := plainLength_dropHexMark r
  have hdigits := length_hexDigits_le (dropHexMark r)
  have hlt := hexDigits_lt (dropHexMark r)
  simp only [hs] at h hsign
  -- three digits or more can stand for any rune, fewer only for a short one
  rcases hd : hexDigits (dropHexMark r) with _ | ⟨d₁, _ | ⟨d₂, _ | ⟨d₃, ds⟩⟩⟩
  · simp [hd] at h
  · have h1 := hlt d₁ (by simp [hd])
    have h64 : ¬ 2 ^ 64 ≤ ofDigits [d₁] := by simp [ofDigits]; omega
    simp only [hd, List.cons_ne_nil, if_false, h64, Except.ok.injEq] at h
    subst h
    cases negative with
    | false =>
      have hascii : ofDigits [d₁] % 2 ^ 32 ≤ max1 := by simp [ofDigits, max1]; omega
      simp only [Bool.false_eq_true, if_false, writeRune_ascii hascii, List.length_singleton]
      omega
    | true =>
      simp only [if_true, hd, List.length_singleton] at hsign hdigits ⊢
      rcases Nat.eq_zero_or_pos d₁ with rfl | hpos
      · have := length_writeRune_le_two 0 (Nat.zero_le max2)
        simp [ofDigits] at this ⊢
        omega
      · have := length_writeRune_bad ((2 ^ 64 - ofDigits [d₁]) % 2 ^ 64 % 2 ^ 32)
          (by simp [ofDigits, max4]; omega)
        omega
  · have h1 := hlt d₁ (by simp [hd])
    have h2 := hlt d₂ (by simp [hd])
    have h64 : ¬ 2 ^ 64 ≤ ofDigits [d₁, d₂] := by simp [ofDigits]; omega
    simp only [hd, List.cons_ne_nil, if_false, h64, Except.ok.injEq] at h
    subst h
    simp only [hd, List.length_cons, List.length_nil] at hdigits
    cases negative with
    | false =>
      have := length_writeRune_le_two (ofDigits [d₁, d₂] % 2 ^ 32)
        (by simp [ofDigits, max2]; omega)
      simp only [Bool.false_eq_true, if_false]
      omega
    | true =>
      have := length_writeRune_le ((2 ^ 64 - ofDigits [d₁, d₂]) % 2 ^ 64 % 2 ^ 32)
      simp only [if_true] at hsign ⊢
      omega
  · have := length_writeRune_le (value % 2 ^ 32)
    simp only [hd, List.length_cons] at hdigits
    omega

end Trieste.Utf8
