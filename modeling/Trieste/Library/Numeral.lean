import Mathlib.Data.Rat.Defs
import Mathlib.Algebra.Field.Rat
import Mathlib.Data.List.Basic
import Mathlib.Data.List.Induction

namespace Trieste.Library
set_option autoImplicit true

/-- Digits, with no zero in front of others. -/
structure IsNumeral (text : List Char) : Prop where
  ne_nil : text ≠ []
  digits : ∀ c ∈ text, c.isDigit = true
  zero : text.head? = some '0' → text.length ≤ 1

theorem toNat_sub_lt_ten {c : Char} (h : c.isDigit = true) : c.toNat - '0'.toNat < 10 := by
  have := Char.isDigit_iff_toNat.1 h
  simp at *
  omega

theorem digitChar_toNat_sub {c : Char} (h : c.isDigit = true) :
    (c.toNat - '0'.toNat).digitChar = c := by
  have hle := Char.isDigit_iff_toNat.1 h
  rw [← Char.toNat_inj, Nat.toNat_digitChar_of_lt_ten (toNat_sub_lt_ten h)]
  simp at *
  omega

namespace IsNumeral

theorem of_concat (h : IsNumeral (text ++ [c])) (hne : text ≠ []) : IsNumeral text where
  ne_nil := hne
  digits d hd := h.digits d (List.mem_append_left _ hd)
  zero hz := by
    have hhead : (text ++ [c]).head? = some '0' := by
      rw [List.head?_append, hz]
      rfl
    have hlen := h.zero hhead
    rw [List.length_append, List.length_singleton] at hlen
    exact Nat.le_trans (Nat.le_of_succ_le_succ hlen) (Nat.zero_le 1)

/-- A numeral is the one of its value. -/
theorem toDigits (h : IsNumeral text) : Nat.toDigits 10 (Nat.ofDigitChars 10 text 0) = text := by
  induction text using List.reverseRecOn with
  | nil => exact absurd rfl h.ne_nil
  | append_singleton text c ih =>
    have hc := h.digits c (by simp)
    have hlt := toNat_sub_lt_ten hc
    rw [Nat.ofDigitChars_append, Nat.ofDigitChars_cons, Nat.ofDigitChars_nil]
    by_cases hne : text = []
    · subst text
      rw [Nat.ofDigitChars_nil, Nat.mul_zero, Nat.zero_add, Nat.toDigits_of_lt_base hlt,
        digitChar_toNat_sub hc]
      rfl
    · have htext := ih (h.of_concat hne)
      have hpos : 0 < Nat.ofDigitChars 10 text 0 := by
        apply Nat.pos_of_ne_zero
        intro hzero
        -- the digits before the last one would be a single zero
        rw [hzero, Nat.toDigits_zero] at htext
        subst htext
        exact absurd (h.zero rfl) (by simp)
      rw [← Nat.toDigits_append_toDigits (by decide) hpos hlt, htext,
        Nat.toDigits_of_lt_base hlt, digitChar_toNat_sub hc]

theorem of_toDigits (k : Nat) : IsNumeral (Nat.toDigits 10 k) where
  ne_nil := Nat.toDigits_ne_nil
  digits _ hc := Nat.isDigit_of_mem_toDigits (by decide) (by decide) hc
  zero := by
    induction k using Nat.strongRecOn with
    | ind k ih =>
      intro hz
      by_cases hk : k < 10
      · rw [Nat.toDigits_of_lt_base hk]
        exact Nat.le_refl 1
      · rw [Nat.toDigits_of_base_le (by decide) (Nat.le_of_not_lt hk), List.head?_append] at hz
        have hlt : k / 10 < k := Nat.div_lt_self (by omega) (by decide)
        have hdigits := Nat.ofDigitChars_ten_toDigits (n := k / 10)
        rcases hd : Nat.toDigits 10 (k / 10) with _ | ⟨c, cs⟩
        · exact absurd hd Nat.toDigits_ne_nil
        · rw [hd] at hz
          cases hz
          have hlen := ih (k / 10) hlt (by rw [hd]; rfl)
          rw [hd, List.length_cons] at hlen
          obtain rfl : cs = [] := List.eq_nil_of_length_eq_zero (by omega)
          -- the leading zero is all there is before the last digit, but the rest is at least one
          rw [hd] at hdigits
          simp [Nat.ofDigitChars_cons] at hdigits
          omega

end IsNumeral

def IsDigit (c : Nat) : Prop := 0x30 ≤ c ∧ c ≤ 0x39

instance : DecidablePred IsDigit := fun _ => inferInstanceAs (Decidable (_ ∧ _))

def Digits (l : List Nat) : Prop := l ≠ [] ∧ ∀ c ∈ l, IsDigit c

def digitsValue (l : List Nat) : Nat := l.foldl (fun value c => 10 * value + (c - 0x30)) 0

def dropMinus : List Nat → List Nat
  | [] => []
  | c :: text => if c = 0x2D then text else c :: text

def LeadingZero (text : List Nat) : Prop :=
  ∃ c rest, dropMinus text = 0x30 :: c :: rest ∧ IsDigit c

/-- A number in scientific notation, with the characters of its digits. -/
structure Decimal where
  negative : Bool
  whole : List Nat
  fraction : Option (List Nat)
  /-- The letter, the sign and the digits. -/
  exponent : Option (Nat × List Nat × List Nat)

namespace Decimal

def signText (d : Decimal) : List Nat := if d.negative then [0x2D] else []

def fractionText (d : Decimal) : List Nat := (d.fraction.map (0x2E :: ·)).getD []

def exponentText (d : Decimal) : List Nat :=
  match d.exponent with
  | none => []
  | some (letter, sign, digits) => letter :: (sign ++ digits)

def text (d : Decimal) : List Nat := d.signText ++ (d.whole ++ (d.fractionText ++ d.exponentText))

def power (d : Decimal) : Int :=
  match d.exponent with
  | none => 0
  | some (_, sign, digits) => if sign = [0x2D] then -digitsValue digits else digitsValue digits

def value (d : Decimal) : Rat :=
  let fraction := d.fraction.getD []
  let magnitude : Rat := digitsValue d.whole + digitsValue fraction / 10 ^ fraction.length
  (if d.negative then -magnitude else magnitude) * 10 ^ d.power

/-- There are digits on both sides of a point and in an exponent. -/
structure Proper (d : Decimal) : Prop where
  whole : Digits d.whole
  fraction : ∀ digits, d.fraction = some digits → Digits digits
  exponent : ∀ letter sign digits, d.exponent = some (letter, sign, digits) →
    letter ∈ [0x45, 0x65] ∧ sign ∈ [[], [0x2B], [0x2D]] ∧ Digits digits

theorem Proper.integer {l : List Nat} (h : Digits l) (negative : Bool) :
    (Decimal.mk negative l none none).Proper where
  whole := h
  fraction _ h := by cases h
  exponent _ _ _ h := by cases h

def NoLeadingZero (d : Decimal) : Prop := d.whole = [0x30] ∨ d.whole.head? ≠ some 0x30

variable {d d' : Decimal}

theorem exponentText_head (h : d.Proper) : ∀ c ∈ d.exponentText.head?, c ∈ [0x45, 0x65] := by
  intro c hc
  rw [exponentText] at hc
  cases he : d.exponent with
  | none =>
    rw [he] at hc
    cases hc
  | some e =>
    rw [he] at hc
    cases hc
    exact (h.exponent _ _ _ he).1

theorem fractionText_head : ∀ c ∈ d.fractionText.head?, c = 0x2E := by
  intro c hc
  rw [fractionText] at hc
  cases hf : d.fraction with
  | none =>
    rw [hf] at hc
    cases hc
  | some digits =>
    rw [hf] at hc
    cases hc
    rfl

theorem letter_not : ∀ c ∈ [0x45, 0x65], ¬ IsDigit c ∧ c ≠ 0x2E := by
  decide

theorem tail_head (h : d.Proper) : ∀ c ∈ (d.fractionText ++ d.exponentText).head?, ¬ IsDigit c := by
  intro c hc
  cases hf : d.fractionText with
  | nil =>
    rw [hf, List.nil_append] at hc
    exact (letter_not c (exponentText_head h c hc)).1
  | cons point digits =>
    rw [hf] at hc
    have hpoint : c = 0x2E := fractionText_head c (by rw [hf]; exact hc)
    rw [hpoint]
    decide

theorem unsigned_head (h : d.Proper) :
    ∃ c rest, d.whole ++ (d.fractionText ++ d.exponentText) = c :: rest ∧ IsDigit c := by
  obtain ⟨hne, hdigits⟩ := h.whole
  obtain ⟨c, rest, hc⟩ := List.exists_cons_of_ne_nil hne
  rw [hc] at hdigits ⊢
  exact ⟨c, _, rfl, hdigits c (.head _)⟩

theorem text_ascii (h : d.Proper) : ∀ c ∈ d.text, c < 0x80 := by
  have hdigits : ∀ {l : List Nat}, (∀ c ∈ l, IsDigit c) → ∀ c ∈ l, c < 0x80 :=
    fun hl c hc => Nat.lt_of_le_of_lt (hl c hc).2 (by decide)
  intro c hc
  rw [text, signText, fractionText, exponentText] at hc
  rcases List.mem_append.1 hc with hc | hc
  · split at hc
    · rw [List.mem_singleton.1 hc]
      decide
    · cases hc
  rcases List.mem_append.1 hc with hc | hc
  · exact hdigits h.whole.2 c hc
  rcases List.mem_append.1 hc with hc | hc
  · cases hf : d.fraction with
    | none =>
      rw [hf] at hc
      cases hc
    | some digits =>
      rw [hf] at hc
      rcases List.mem_cons.1 hc with rfl | hc
      · decide
      · exact hdigits (h.fraction digits hf).2 c hc
  · cases he : d.exponent with
    | none =>
      rw [he] at hc
      cases hc
    | some e =>
      obtain ⟨letter, sign, digits⟩ := e
      obtain ⟨hletter, hsign, hds⟩ := h.exponent letter sign digits he
      have hletters : ∀ c ∈ [0x45, 0x65], c < 0x80 := by decide
      have hsigns : ∀ s ∈ [[], [0x2B], [0x2D]], ∀ c ∈ s, c < 0x80 := by decide
      rw [he] at hc
      rcases List.mem_cons.1 hc with rfl | hc
      · exact hletters c hletter
      rcases List.mem_append.1 hc with hc | hc
      · exact hsigns sign hsign c hc
      · exact hdigits hds.2 c hc

theorem dropMinus_text (h : d.Proper) :
    dropMinus d.text = d.whole ++ (d.fractionText ++ d.exponentText) := by
  rw [text, signText]
  split
  · rfl
  · obtain ⟨c, rest, hc, hdigit⟩ := unsigned_head h
    have hminus : c ≠ 0x2D := by
      rintro rfl
      exact absurd hdigit (by decide)
    rw [hc, List.nil_append, dropMinus, if_neg hminus]

theorem leadingZero_iff (h : d.Proper) : LeadingZero d.text ↔ ¬ d.NoLeadingZero := by
  obtain ⟨hne, hdigits⟩ := h.whole
  obtain ⟨c, rest, hc⟩ := List.exists_cons_of_ne_nil hne
  rw [LeadingZero, dropMinus_text h, NoLeadingZero, hc]
  constructor
  · rintro ⟨c', rest', htext, hdigit⟩ hno
    rw [List.cons_append, List.cons.injEq] at htext
    obtain ⟨rfl, htext⟩ := htext
    have hrest : rest = [] := by
      rcases hno with hzero | hhead
      · exact (List.cons.inj hzero).2
      · exact absurd rfl hhead
    rw [hrest, List.nil_append] at htext
    exact tail_head h c' (by rw [htext]; rfl) hdigit
  · intro hno
    obtain ⟨hzero, hhead⟩ := not_or.1 hno
    have hc0 : c = 0x30 := by
      by_contra hne
      exact hhead fun h => hne (Option.some.inj h)
    subst hc0
    cases rest with
    | nil => exact absurd rfl hzero
    | cons c' rest' =>
      exact ⟨c', _, rfl, hdigits c' (by rw [hc]; exact .tail _ (.head _))⟩

end Decimal

end Trieste.Library
