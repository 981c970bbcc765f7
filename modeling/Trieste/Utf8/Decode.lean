import Trieste.Utf8.ReadToEnd

namespace Trieste.Utf8
set_option autoImplicit true

/-- `rune::size` -/
def runeSize (value : Nat) : Nat :=
  if value ≤ max1 then 1
  else if value ≤ max2 then 2
  else if value ≤ max3 then 3
  else if value ≤ max4 then 4
  else 3

/-- The runes of `utf8_to_runestring` with the bytes that each of them takes. -/
def consumed (input : List UInt8) : List (Nat × List UInt8) :=
  if input = [] then []
  else ((utf8ToRune input).1, input.take (utf8ToRune input).2) ::
    consumed (input.drop (utf8ToRune input).2)
termination_by input.length
decreasing_by
  have hpos := utf8ToRune_pos input
  have hne : 0 < input.length := List.length_pos_iff.2 ‹_›
  rw [List.length_drop]
  exact Nat.sub_lt hne hpos

/-- Inputs are decoded one sequence after the other. -/
theorem consumed_induction {P : List UInt8 → Prop} (hnil : P [])
    (hstep : ∀ input, input ≠ [] → P (input.drop (utf8ToRune input).2) → P input)
    (input : List UInt8) : P input := by
  induction hlen : input.length using Nat.strongRecOn generalizing input with
  | ind n ih =>
    by_cases hne : input = []
    · rw [hne]
      exact hnil
    · apply hstep input hne
      have hpos := utf8ToRune_pos input
      have hinput : 0 < input.length := List.length_pos_iff.2 hne
      have hlt : (input.drop (utf8ToRune input).2).length < n := by
        rw [List.length_drop, ← hlen]
        exact Nat.sub_lt hinput hpos
      exact ih _ hlt _ rfl

theorem utf8ToRunestring_cons (h : input ≠ []) : utf8ToRunestring input =
    (utf8ToRune input).1 :: utf8ToRunestring (input.drop (utf8ToRune input).2) := by
  rw [utf8ToRunestring, if_neg h]

theorem consumed_cons (h : input ≠ []) : consumed input =
    ((utf8ToRune input).1, input.take (utf8ToRune input).2) ::
      consumed (input.drop (utf8ToRune input).2) := by
  rw [consumed, if_neg h]

theorem utf8ToRunestring_nil : utf8ToRunestring [] = [] := by
  rw [utf8ToRunestring, if_pos rfl]

theorem consumed_nil : consumed [] = [] := by
  rw [consumed, if_pos rfl]

theorem consumed_runes (input : List UInt8) :
    (consumed input).map Prod.fst = utf8ToRunestring input := by
  induction input using consumed_induction with
  | hnil => rw [consumed_nil, utf8ToRunestring_nil, List.map_nil]
  | hstep input hne ih => rw [consumed_cons hne, utf8ToRunestring_cons hne, List.map_cons, ih]

theorem consumed_flatten (input : List UInt8) :
    ((consumed input).map Prod.snd).flatten = input := by
  induction input using consumed_induction with
  | hnil => rw [consumed_nil, List.map_nil, List.flatten_nil]
  | hstep input hne ih =>
    rw [consumed_cons hne, List.map_cons, List.flatten_cons, ih, List.take_append_drop]

theorem consumed_ne_nil (input : List UInt8) : ∀ piece ∈ consumed input, piece.2 ≠ [] := by
  induction input using consumed_induction with
  | hnil =>
    rw [consumed_nil]
    exact List.forall_mem_nil _
  | hstep input hne ih =>
    rw [consumed_cons hne]
    intro piece hpiece
    rcases List.mem_cons.1 hpiece with rfl | hpiece
    · intro hnil
      rcases List.take_eq_nil_iff.1 hnil with hzero | hnil
      · exact absurd hzero (Nat.ne_of_gt (utf8ToRune_pos input))
      · exact hne hnil
    · exact ih piece hpiece

theorem le_max1 : value ≤ max1 ↔ value < 0x80 := Nat.lt_add_one_iff.symm

theorem le_max2 : value ≤ max2 ↔ value < 0x800 := Nat.lt_add_one_iff.symm

theorem le_max3 : value ≤ max3 ↔ value < 0x10000 := Nat.lt_add_one_iff.symm

theorem le_max4 : value ≤ max4 ↔ value < 0x110000 := Nat.lt_add_one_iff.symm

theorem writeRune_eq (h : value ≤ max4) : writeRune value =
    if value < 0x80 then [UInt8.ofNat value]
    else if value < 0x800 then [UInt8.ofNat (value / 64 + 0xC0), UInt8.ofNat (value % 64 + 0x80)]
    else if value < 0x10000 then
      [UInt8.ofNat (value / 4096 + 0xE0), UInt8.ofNat (value / 64 % 64 + 0x80),
        UInt8.ofNat (value % 64 + 0x80)]
    else [UInt8.ofNat (value / 262144 + 0xF0), UInt8.ofNat (value / 4096 % 64 + 0x80),
      UInt8.ofNat (value / 64 % 64 + 0x80), UInt8.ofNat (value % 64 + 0x80)] := by
  have hmax : value < 0x110000 := le_max4.1 h
  unfold writeRune
  simp only [le_max1, le_max2, le_max3, le_max4]
  by_cases h1 : value < 0x80
  · rw [if_pos h1, if_pos h1]
    exact congrArg (fun first => [UInt8.ofNat first]) (Nat.zero_or value)
  rw [if_neg h1, if_neg h1]
  by_cases h2 : value < 0x800
  · have hlead : value / 64 < 2 ^ 5 := by omega
    have hmark := mark_or hlead 6
    rw [if_pos h2, if_pos h2, shift_one, continuation_eq]
    exact congrArg (fun first => [UInt8.ofNat first, _]) hmark
  rw [if_neg h2, if_neg h2]
  by_cases h3 : value < 0x10000
  · rw [if_pos h3, if_pos h3, writeRune3_eq h3]
  · have hlead : value / 262144 < 2 ^ 3 := by omega
    have hmark := mark_or hlead 30
    rw [if_neg h3, if_neg h3, if_pos hmax, shift_three, shift_two, shift_one, continuation_eq,
      continuation_eq, continuation_eq]
    exact congrArg (fun first => [UInt8.ofNat first, _, _, _]) hmark

theorem runeSize_eq (value : Nat) : runeSize value = if value < 0x80 then 1
    else if value < 0x800 then 2 else if value < 0x10000 then 3
    else if value < 0x110000 then 4 else 3 := by
  simp only [runeSize, le_max1, le_max2, le_max3, le_max4]

theorem length_writeRune (value : Nat) : (writeRune value).length = runeSize value := by
  rw [runeSize_eq]
  by_cases h : value ≤ max4
  · have hlt : value < 0x110000 := le_max4.1 h
    rw [writeRune_eq h, if_pos hlt]
    split
    · rfl
    split
    · rfl
    split
    · rfl
    · rfl
  · have hge : 0x110000 ≤ value := Nat.le_of_not_lt fun hlt => h (le_max4.2 hlt)
    rw [length_writeRune_bad value (Nat.lt_of_not_le h), if_neg (by omega), if_neg (by omega),
      if_neg (by omega), if_neg (Nat.not_lt.2 hge)]

theorem utf8ToRune_writeRune (h : value ≤ max4) (rest : List UInt8) :
    utf8ToRune (writeRune value ++ rest) = (value, runeSize value) := by
  have hmax : value < 0x110000 := le_max4.1 h
  have hmod : ∀ n, n % 64 < 64 := fun n => Nat.mod_lt n (by decide)
  rw [writeRune_eq h, runeSize_eq]
  by_cases h1 : value < 0x80
  · rw [if_pos h1, if_pos h1]
    exact utf8ToRune_one h1 rest
  rw [if_neg h1, if_neg h1]
  by_cases h2 : value < 0x800
  · have hx : value / 64 < 32 := by omega
    have hsum : value / 64 * 64 + value % 64 = value := by omega
    rw [if_pos h2, if_pos h2]
    exact (utf8ToRune_two hx (hmod value) rest).trans (by rw [hsum])
  rw [if_neg h2, if_neg h2]
  by_cases h3 : value < 0x10000
  · have hx : value / 4096 < 16 := by omega
    have hsum : (value / 4096 * 64 + value / 64 % 64) * 64 + value % 64 = value := by omega
    rw [if_pos h3, if_pos h3]
    exact (utf8ToRune_three hx (hmod (value / 64)) (hmod value) rest).trans (by rw [hsum])
  · have hx : value / 262144 < 8 := by omega
    have hsum : ((value / 262144 * 64 + value / 4096 % 64) * 64 + value / 64 % 64) * 64 +
        value % 64 = value := by omega
    rw [if_neg h3, if_neg h3, if_pos hmax]
    exact (utf8ToRune_four hx (hmod (value / 4096)) (hmod (value / 64)) (hmod value) rest).trans
      (by rw [hsum])

theorem consumed_writeRune (values : List Nat) (h : ∀ value ∈ values, value ≤ max4) :
    consumed (values.flatMap writeRune) = values.map fun value => (value, writeRune value) := by
  induction values with
  | nil => exact consumed_nil
  | cons value values ih =>
    obtain ⟨hvalue, hvalues⟩ := List.forall_mem_cons.1 h
    have hne : writeRune value ++ values.flatMap writeRune ≠ [] := by
      intro hnil
      exact writeRune_ne_nil value (List.append_eq_nil_iff.1 hnil).1
    rw [List.flatMap_cons, consumed_cons hne, utf8ToRune_writeRune hvalue, ← length_writeRune,
      List.take_left, List.drop_left, ih hvalues]
    rfl

/-- A rune as it is written, where those beyond the last code point are not. -/
theorem writeRune_clamp (value : Nat) : ∃ value' ≤ max4, writeRune value = writeRune value' := by
  by_cases h : value ≤ max4
  · exact ⟨value, h, rfl⟩
  · refine ⟨bad, by decide, ?_⟩
    have h1 : ¬ value ≤ max1 := fun hle => h (Nat.le_trans hle (by decide))
    have h2 : ¬ value ≤ max2 := fun hle => h (Nat.le_trans hle (by decide))
    have h3 : ¬ value ≤ max3 := fun hle => h (Nat.le_trans hle (by decide))
    rw [writeRune, if_neg h1, if_neg h2, if_neg h3, if_neg h]
    rfl

theorem flatMap_clamp (values : List Nat) : ∃ values' : List Nat,
    (∀ value ∈ values', value ≤ max4) ∧ values.flatMap writeRune = values'.flatMap writeRune := by
  induction values with
  | nil => exact ⟨[], List.forall_mem_nil _, rfl⟩
  | cons value values ih =>
    obtain ⟨values', hle, hvalues⟩ := ih
    obtain ⟨value', hvalue, hwrite⟩ := writeRune_clamp value
    refine ⟨value' :: values', List.forall_mem_cons.2 ⟨hvalue, hle⟩, ?_⟩
    rw [List.flatMap_cons, List.flatMap_cons, hwrite, hvalues]

theorem runestring_writeRune (values : List Nat) (h : ∀ value ∈ values, value ≤ max4) :
    utf8ToRunestring (values.flatMap writeRune) = values := by
  rw [← consumed_runes, consumed_writeRune values h, List.map_map]
  exact List.map_id values

theorem sanitizeUtf8_idem (input : List UInt8) :
    sanitizeUtf8 (sanitizeUtf8 input) = sanitizeUtf8 input := by
  obtain ⟨values, hle, hvalues⟩ := flatMap_clamp (utf8ToRunestring input)
  rw [sanitizeUtf8, sanitizeUtf8, hvalues, runestring_writeRune values hle]

/-- Code points are read again as they were written, each from its own bytes, and any bytes are
consumed from the first to the last. -/
theorem runestring_round_trip (values : List Nat) (h : ∀ value ∈ values, value ≤ max4)
    (input : List UInt8) :
    (utf8ToRunestring (values.flatMap writeRune) = values ∧
      consumed (values.flatMap writeRune) = (values.map fun value => (value, writeRune value)) ∧
      ∀ value ∈ values, (writeRune value).length = runeSize value) ∧
    (consumed input).map Prod.fst = utf8ToRunestring input ∧
    ((consumed input).map Prod.snd).flatten = input ∧
    (∀ piece ∈ consumed input, piece.2 ≠ []) ∧
    sanitizeUtf8 (sanitizeUtf8 input) = sanitizeUtf8 input :=
  ⟨⟨runestring_writeRune values h, consumed_writeRune values h, fun value _ => length_writeRune value⟩,
    consumed_runes input, consumed_flatten input, consumed_ne_nil input, sanitizeUtf8_idem input⟩

/-- A surrogate is a code point as well. -/
theorem runestring_round_trip_surrogate :
    utf8ToRunestring ([0x61, 0xD800, 0x10FFFF].flatMap writeRune) = [0x61, 0xD800, 0x10FFFF] :=
  (runestring_round_trip [0x61, 0xD800, 0x10FFFF] (by decide) []).1.1

end Trieste.Utf8
