import Trieste.Library.Stream
import Trieste.Utf8.Decode
import Trieste.Utf8.Hex

namespace Trieste.Utf8
set_option autoImplicit true
open Library

/-- The loop of `escape_unicode`, where `put` writes a rune. -/
def streamRunes (put : Stream → Nat → Stream) (os : Stream) (input : List UInt8) : Stream :=
  if input = [] then os
  else streamRunes put (put os (utf8ToRune input).1) (input.drop (utf8ToRune input).2)
termination_by input.length
decreasing_by
  have hpos := utf8ToRune_pos input
  have hne : 0 < input.length := List.length_pos_iff.2 ‹_›
  rw [List.length_drop]
  exact Nat.sub_lt hne hpos

/-- Where each rune gives up the width that it sets, the texts of the runes are written. -/
theorem text_streamRunes {put : Stream → Nat → Stream} {written : Nat → List UInt8}
    (hput : ∀ r ∈ utf8ToRunestring input, ∀ os : Stream, os.width = 0 →
      (put os r).width = 0 ∧ (put os r).text = os.text ++ written r) {os : Stream}
    (hos : os.width = 0) :
    (streamRunes put os input).text = os.text ++ (utf8ToRunestring input).flatMap written := by
  induction input using consumed_induction generalizing os with
  | hnil =>
    rw [streamRunes, if_pos rfl, utf8ToRunestring_nil, List.flatMap_nil, List.append_nil]
  | hstep input hne ih =>
    rw [utf8ToRunestring_cons hne, List.forall_mem_cons] at hput
    obtain ⟨hwidth, htext⟩ := hput.1 os hos
    rw [streamRunes, if_neg hne, ih hput.2 hwidth, htext, utf8ToRunestring_cons hne,
      List.flatMap_cons, List.append_assoc]

theorem runestring_encode (text : List Char) :
    utf8ToRunestring (encode text) = text.map Char.toNat := by
  have hwrite : (text.map Char.toNat).flatMap writeRune = encode text := by
    rw [List.flatMap_map, encode]
    exact congrArg (text.flatMap ·) (funext writeRune_toNat)
  rw [← hwrite, runestring_writeRune]
  intro value hvalue
  obtain ⟨c, -, rfl⟩ := List.mem_map.1 hvalue
  exact le_max4.2 (toNat_lt c)

theorem encode_injective (h : encode text = encode text') : text = text' := by
  have hrunes := congrArg utf8ToRunestring h
  rw [runestring_encode, runestring_encode] at hrunes
  exact List.map_injective_iff.2 (fun c d hcd => Char.toNat_inj.1 hcd) hrunes

def hexOf (value : Nat) : Hex where
  byte := (value % 16).digitChar.toUpper.toUInt8
  digit := value % 16
  read := by
    have hread : ∀ d < 16, hexDigit d.digitChar.toUpper.toUInt8 = some d := by decide
    exact hread _ (Nat.mod_lt _ (by decide))

theorem hexText_four (value : Nat) : hexText 4 value =
    [(hexOf (value / 16 / 16 / 16)).byte, (hexOf (value / 16 / 16)).byte,
      (hexOf (value / 16)).byte, (hexOf value).byte] := rfl

theorem hexOf_four (h : value < 0x10000) :
    ofDigits [(hexOf (value / 16 / 16 / 16)).digit, (hexOf (value / 16 / 16)).digit,
      (hexOf (value / 16)).digit, (hexOf value).digit] = value := by
  simp only [hexOf, ofDigits, List.foldl_cons, List.foldl_nil]
  omega

/-- The string is written as the runes; a continuation byte without its lead byte is bad. -/
inductive Sequences : List UInt8 → List Nat → Prop
  | nil : Sequences [] []
  | rune (h : value ≤ max4) (rest : Sequences s runes) :
      Sequences (writeRune value ++ s) (value :: runes)
  | stray (h : isContinuation c = true) (rest : Sequences s runes) :
      Sequences (c :: s) (bad :: runes)

theorem utf8ToRune_stray (h : isContinuation c = true) (rest : List UInt8) :
    utf8ToRune (c :: rest) = (bad, 1) := by
  have hmarks : ∀ c, isContinuation c = true → (c &&& mask1 == mark1) = false ∧
      (c &&& mask2 == mark2) = false ∧ (c &&& mask3 == mark3) = false ∧
      (c &&& mask4 == mark4) = false := forall_byte (by decide +kernel)
  obtain ⟨h1, h2, h3, h4⟩ := hmarks c h
  simp only [utf8ToRune, h1, h2, h3, h4, Bool.false_and, Bool.false_eq_true, if_false]

theorem writeRune_tail (h : value ≤ max4) : ∃ lead rest, writeRune value = lead :: rest ∧
    rest.length ≤ 3 ∧ ∀ c ∈ rest, isContinuation c = true := by
  have hcont : ∀ n, isContinuation (UInt8.ofNat (n % 64 + 0x80)) = true :=
    fun n => (continuationByte _ (Nat.mod_lt n (by decide))).1
  rw [writeRune_eq h]
  split
  · exact ⟨_, [], rfl, by decide, List.forall_mem_nil _⟩
  split
  · refine ⟨_, _, rfl, Nat.le_of_ble_eq_true rfl, ?_⟩
    exact List.forall_mem_singleton.2 (hcont _)
  split
  · refine ⟨_, _, rfl, Nat.le_of_ble_eq_true rfl, ?_⟩
    exact List.forall_mem_cons.2 ⟨hcont _, List.forall_mem_singleton.2 (hcont _)⟩
  · refine ⟨_, _, rfl, Nat.le_of_ble_eq_true rfl, ?_⟩
    rw [List.forall_mem_cons, List.forall_mem_cons, List.forall_mem_singleton]
    exact ⟨hcont _, hcont _, hcont _⟩

namespace Sequences

theorem runes (h : Sequences s ts) : utf8ToRunestring s = ts := by
  induction h with
  | nil => exact utf8ToRunestring_nil
  | @rune value s ts hvalue rest ih =>
    have hne : writeRune value ++ s ≠ [] := by
      intro hnil
      exact writeRune_ne_nil value (List.append_eq_nil_iff.1 hnil).1
    rw [utf8ToRunestring_cons hne, utf8ToRune_writeRune hvalue, ← length_writeRune, List.drop_left,
      ih]
  | stray hc rest ih =>
    rw [utf8ToRunestring_cons (List.cons_ne_nil _ _), utf8ToRune_stray hc, List.drop_one,
      List.tail_cons, ih]

theorem unique (h : Sequences s ts) (h' : Sequences s ts') : ts = ts' :=
  h.runes.symm.trans h'.runes

theorem le (h : Sequences s ts) : ∀ t ∈ ts, t ≤ max4 := by
  induction h with
  | nil => exact List.forall_mem_nil _
  | rune hvalue rest ih => exact List.forall_mem_cons.2 ⟨hvalue, ih⟩
  | stray hc rest ih => exact List.forall_mem_cons.2 ⟨by decide, ih⟩

theorem of_runes (h : ∀ t ∈ ts, t ≤ max4) : Sequences (ts.flatMap writeRune) ts := by
  induction ts with
  | nil => exact .nil
  | cons t ts ih =>
    rw [List.forall_mem_cons] at h
    exact .rune h.1 (ih h.2)

theorem of_encode (text : List Char) : Sequences (Utf8.encode text) (text.map Char.toNat) := by
  induction text with
  | nil => exact .nil
  | cons c text ih =>
    have hcons : Utf8.encode (c :: text) = writeRune c.toNat ++ Utf8.encode text := by
      rw [writeRune_toNat]
      exact List.flatMap_cons
    rw [hcons]
    exact .rune (le_max4.2 (toNat_lt c)) ih

theorem append (h : Sequences s ts) (h' : Sequences s' ts') : Sequences (s ++ s') (ts ++ ts') := by
  induction h with
  | nil => exact h'
  | rune hvalue rest ih =>
    rw [List.append_assoc]
    exact .rune hvalue ih
  | stray hc rest ih => exact .stray hc ih

theorem strays (h : ∀ c ∈ front, isContinuation c = true) (hs : Sequences s ts) :
    Sequences (front ++ s) (List.replicate front.length bad ++ ts) := by
  induction front with
  | nil => exact hs
  | cons c front ih =>
    rw [List.forall_mem_cons] at h
    exact .stray h.1 (ih h.2)

/-- What is left behind some bytes is a suffix of the runes, behind the rest of one of them. -/
theorem drop (h : Sequences s ts) (n : Nat) : ∃ m rest, rest <:+ ts ∧
    m + rest.length ≤ ts.length + 2 ∧ Sequences (s.drop n) (List.replicate m bad ++ rest) := by
  induction h generalizing n with
  | nil =>
    rw [List.drop_nil]
    exact ⟨0, [], List.suffix_rfl, by decide, .nil⟩
  | @rune value s ts hvalue rest ih =>
    obtain ⟨lead, tail, hwrite, hlen, hcont⟩ := writeRune_tail hvalue
    cases n with
    | zero =>
      refine ⟨0, value :: ts, List.suffix_rfl, ?_, .rune hvalue rest⟩
      rw [Nat.zero_add]
      exact Nat.le_add_right _ 2
    | succ n =>
      rw [hwrite, List.cons_append, List.drop_succ_cons]
      by_cases hn : n ≤ tail.length
      · refine ⟨(tail.drop n).length, ts, List.suffix_cons _ _, ?_, ?_⟩
        · rw [List.length_drop, List.length_cons]
          omega
        · rw [List.drop_append_of_le_length hn]
          exact rest.strays fun c hc => hcont c (List.mem_of_mem_drop hc)
      · obtain ⟨m, left, hsuffix, hle, hleft⟩ := ih (n - tail.length)
        refine ⟨m, left, hsuffix.trans (List.suffix_cons _ _), ?_, ?_⟩
        · rw [List.length_cons]
          omega
        · rw [List.drop_append, List.drop_of_length_le (Nat.le_of_not_le hn), List.nil_append]
          exact hleft
  | stray hc rest ih =>
    cases n with
    | zero =>
      refine ⟨0, _, List.suffix_rfl, ?_, .stray hc rest⟩
      rw [Nat.zero_add]
      exact Nat.le_add_right _ 2
    | succ n =>
      obtain ⟨m, left, hsuffix, hle, hleft⟩ := ih n
      refine ⟨m, left, hsuffix.trans (List.suffix_cons _ _), ?_, hleft⟩
      rw [List.length_cons]
      omega

theorem ascii_cons (h : Sequences (c :: s) ts) (hc : c.toNat < 0x80) :
    ∃ ts', ts = c.toNat :: ts' ∧ Sequences s ts' := by
  generalize hs : c :: s = s' at h
  cases h with
  | nil => cases hs
  | @rune value s'' ts hvalue rest =>
    by_cases hascii : value ≤ max1
    · rw [writeRune_ascii hascii, List.singleton_append, List.cons.injEq] at hs
      obtain ⟨rfl, rfl⟩ := hs
      have hlt : value < 256 := Nat.lt_of_le_of_lt hascii (by decide)
      rw [UInt8.toNat_ofNat_of_lt' hlt]
      exact ⟨ts, rfl, rest⟩
    · obtain ⟨lead, tail, hwrite, -, -⟩ := writeRune_tail hvalue
      have hhigh := writeRune_high hascii lead (hwrite ▸ List.mem_cons_self)
      rw [hwrite, List.cons_append, List.cons.injEq] at hs
      rw [← hs.1, UInt8.le_iff_toNat_le] at hhigh
      exact absurd hhigh (Nat.not_le.2 hc)
  | stray hcont rest =>
    obtain ⟨rfl, rfl⟩ := List.cons.inj hs
    have hhigh : ∀ c, isContinuation c = true → 0x80 ≤ c.toNat := forall_byte (by decide +kernel)
    exact absurd (hhigh c hcont) (Nat.not_le.2 hc)

theorem of_ascii (h : Sequences s (front.map UInt8.toNat ++ ts))
    (hfront : ∀ c ∈ front, c.toNat < 0x80) : ∃ rest, s = front ++ rest ∧ Sequences rest ts := by
  induction front generalizing s with
  | nil => exact ⟨s, rfl, h⟩
  | cons c front ih =>
    rw [List.forall_mem_cons] at hfront
    rw [List.map_cons, List.cons_append] at h
    generalize hruns : c.toNat :: (front.map UInt8.toNat ++ ts) = runes at h
    cases h with
    | nil => cases hruns
    | rune hvalue rest =>
      obtain ⟨rfl, rfl⟩ := List.cons.inj hruns
      obtain ⟨left, rfl, hleft⟩ := ih rest hfront.2
      refine ⟨left, ?_, hleft⟩
      rw [writeRune_ascii (Nat.le_of_lt_succ hfront.1), UInt8.ofNat_toNat]
      rfl
    | stray hcont rest =>
      have hbad := (List.cons.inj hruns).1
      have hc := hfront.1
      rw [hbad] at hc
      exact absurd hc (by decide)

end Sequences

/-- What the loop of `escape_unicode` writes for a rune. -/
def putRune (os : Stream) (r : Nat) : Stream :=
  if 0x7FFF < r then ((os.put [backslash, 0x55]).setHex 8).putNumber r
  else if 0x7F < r then ((os.put [backslash, 0x75]).setHex 4).putNumber r
  else os.put [.ofNat r]

/-- `escape_unicode` -/
def escapeUnicode (input : List UInt8) : List UInt8 := (streamRunes putRune {} input).text

/-- The digits of a number, from the first of so many on. -/
def hexesOf : Nat → Nat → List Hex
  | 0, _ => []
  | width + 1, value => hexesOf width (value / 16) ++ [hexOf value]

theorem hexText_hexes (width value : Nat) :
    hexText width value = (hexesOf width value).map Hex.byte := by
  induction width generalizing value with
  | zero => rfl
  | succ width ih =>
    rw [hexText, hexesOf, ih, List.map_append]
    rfl

theorem length_hexesOf (width value : Nat) : (hexesOf width value).length = width := by
  induction width generalizing value with
  | zero => rfl
  | succ width ih => rw [hexesOf, List.length_append, ih, List.length_singleton]

theorem ofDigits_hexesOf (h : value < 16 ^ width) :
    ofDigits ((hexesOf width value).map Hex.digit) = value := by
  induction width generalizing value with
  | zero => exact (Nat.lt_one_iff.1 h).symm
  | succ width ih =>
    have hdiv : value / 16 < 16 ^ width := by
      apply Nat.div_lt_of_lt_mul
      rwa [Nat.pow_succ, Nat.mul_comm] at h
    have hlast : (hexOf value).digit = value % 16 := rfl
    rw [hexesOf, List.map_append, List.map_singleton, ofDigits_append, ih hdiv, hlast]
    exact Nat.div_add_mod value 16

/-- How a rune is introduced that is no ASCII character, and in how many digits it is written. -/
def unicodeForm (r : Nat) : UInt8 × Nat := if 0x7FFF < r then (0x55, 8) else (0x75, 4)

def unicodeText (r : Nat) : List UInt8 :=
  if 0x7F < r then
    backslash :: (unicodeForm r).1 :: (hexesOf (unicodeForm r).2 r).map Hex.byte
  else [.ofNat r]

theorem escapeDigits_unicodeForm (r : Nat) :
    escapeDigits (unicodeForm r).1 = some (unicodeForm r).2 := by
  rw [unicodeForm]
  split <;> rfl

theorem lt_unicodeForm (hr : r ≤ max4) : r < 16 ^ (unicodeForm r).2 := by
  rw [unicodeForm]
  split
  · exact Nat.lt_of_le_of_lt hr (by decide)
  · exact Nat.lt_of_le_of_lt (Nat.le_of_not_lt ‹_›) (by decide)

theorem putRune_text (os : Stream) (hr : r ≤ max4) (hos : os.width = 0) :
    (putRune os r).width = 0 ∧ (putRune os r).text = os.text ++ unicodeText r := by
  have hlt := lt_unicodeForm hr
  rw [unicodeForm] at hlt
  rw [putRune, unicodeText, unicodeForm]
  split
  · next hhigh =>
    rw [if_pos hhigh] at hlt
    refine ⟨rfl, ?_⟩
    rw [Stream.text_putNumber _ (by decide) hlt, Stream.text_put hos, List.append_assoc,
      if_pos (Nat.lt_trans (by decide) hhigh), hexText_hexes]
    rfl
  · next hhigh =>
    rw [if_neg hhigh] at hlt
    split
    · refine ⟨rfl, ?_⟩
      rw [Stream.text_putNumber _ (by decide) hlt, Stream.text_put hos, List.append_assoc,
        hexText_hexes]
      rfl
    · exact ⟨rfl, Stream.text_put hos _⟩

theorem Sequences.escapeUnicode (h : Sequences s ts) :
    escapeUnicode s = ts.flatMap unicodeText := by
  have hput : ∀ r ∈ utf8ToRunestring s, ∀ os : Stream, os.width = 0 →
      (putRune os r).width = 0 ∧ (putRune os r).text = os.text ++ unicodeText r := by
    intro r hr os hos
    rw [h.runes] at hr
    exact putRune_text os (h.le r hr) hos
  rw [Utf8.escapeUnicode, text_streamRunes hput rfl, h.runes]
  rfl

end Trieste.Utf8
