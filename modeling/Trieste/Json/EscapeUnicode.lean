import Trieste.Json.EscapedText
import Trieste.Json.StringBody
import Trieste.Utf8.EscapeUnicode

namespace Trieste.Json
set_option autoImplicit true
open Utf8 Library

/-- What the loop of `escape_unicode` writes for a rune. -/
def putRune (os : Stream) (r : Nat) : Stream :=
  if 0x7FFF < r then os.put [backslash, 0x75, 0x46, 0x46, 0x46, 0x44]
  else if 0x7F < r then ((os.put [backslash, 0x75]).setHex 4).putNumber r
  else
    match escapeLetter (.ofNat r) with
    | some letter => (os.put [backslash]).put [letter]
    | none => os.put [.ofNat r]

/-- `escape_unicode` -/
def escapeUnicode (string : List UInt8) : List UInt8 := (streamRunes putRune {} string).text

/-- The string in ASCII denotes the text, where supplementary characters may be replaced. -/
structure Faithful (text : List Char) (escaped : List UInt8) : Prop where
  ascii : ∀ b ∈ escaped, b < 0x80
  replaced : ∃ items text', escaped = body items ∧ assigned items = encode text' ∧
    List.Forall₂ (fun c c' => c.toNat < 0x10000 → c' = c) text text'
  denotes : (∀ c ∈ text, c.toNat < 0x10000) →
    ∃ items, escaped = body items ∧ assigned items = encode text

def escapedRune (r : Nat) : List UInt8 :=
  if 0x7FFF < r then [backslash, 0x75, 0x46, 0x46, 0x46, 0x44]
  else if 0x7F < r then backslash :: 0x75 :: hexText 4 r
  else
    match escapeLetter (.ofNat r) with
    | some letter => [backslash, letter]
    | none => [.ofNat r]

def escapedAs (c : Char) : Char := if 0x7FFF < c.toNat then Char.ofNat 0xFFFD else c

theorem putRune_text (os : Stream) (r : Nat) (hos : os.width = 0) :
    (putRune os r).width = 0 ∧ (putRune os r).text = os.text ++ escapedRune r := by
  rw [putRune, escapedRune]
  split
  · exact ⟨rfl, Stream.text_put hos _⟩
  · split
    · have hlt : r < 16 ^ 4 := Nat.lt_of_le_of_lt (Nat.le_of_not_lt ‹_›) (by decide)
      refine ⟨rfl, ?_⟩
      rw [Stream.text_putNumber _ (by decide) hlt, Stream.text_put hos, List.append_assoc]
      rfl
    · split
      · refine ⟨rfl, ?_⟩
        rw [Stream.text_put (Stream.width_put _ _), Stream.text_put hos, List.append_assoc]
        rfl
      · exact ⟨rfl, Stream.text_put hos _⟩

theorem escapeUnicode_encode (text : List Char) :
    escapeUnicode (encode text) = text.flatMap fun c => escapedRune c.toNat := by
  rw [escapeUnicode, text_streamRunes (fun r _ os => putRune_text os r) rfl, runestring_encode,
    List.flatMap_map]
  rfl

theorem escapeLetter_denotes (h : escapeLetter b = some letter) :
    ∃ escaped : Letter, escaped.byte = letter ∧ escaped.denotes = b := by
  unfold escapeLetter at h
  repeat' split at h
  all_goals cases h
  all_goals subst b
  · exact ⟨.b, rfl, rfl⟩
  · exact ⟨.f, rfl, rfl⟩
  · exact ⟨.n, rfl, rfl⟩
  · exact ⟨.r, rfl, rfl⟩
  · exact ⟨.t, rfl, rfl⟩
  · exact ⟨.backslash, rfl, rfl⟩
  · exact ⟨.quote, rfl, rfl⟩

theorem needsEscape_control : ∀ r < 0x20,
    needsEscape (.ofNat r) = true ↔ r ∈ [0x08, 0x09, 0x0A, 0x0C, 0x0D] := by
  decide +kernel

theorem escapedRune_ascii (r : Nat) : ∀ b ∈ escapedRune r, b < 0x80 := by
  rw [escapedRune]
  split
  · decide +kernel
  · split
    · rw [hexText_four]
      intro b hb
      simp only [List.mem_cons, List.not_mem_nil, or_false] at hb
      rcases hb with rfl | rfl | rfl | rfl | rfl | rfl
      · decide
      · decide
      all_goals exact (Hex.plain _).1
    · next hlow =>
      split
      · next letter h =>
        obtain ⟨escaped, rfl, -⟩ := escapeLetter_denotes h
        rw [List.forall_mem_cons, List.forall_mem_singleton]
        exact ⟨by decide, by cases escaped <;> decide⟩
      · have hlt : r < 0x80 := Nat.lt_succ_of_le (Nat.le_of_not_lt hlow)
        have hbyte : (UInt8.ofNat r).toNat = r :=
          UInt8.toNat_ofNat_of_lt' (Nat.lt_trans hlt (by decide))
        rw [List.forall_mem_singleton, UInt8.lt_iff_toNat_lt, hbyte]
        exact hlt

/-- The text of a character is an item of a body, unless it is a control character. -/
theorem escapedRune_item (hc : c.toNat < 0x20 → needsEscape (.ofNat c.toNat) = true) :
    ∃ item : Item, item.text = escapedRune c.toNat ∧
      item.denotes = String.utf8EncodeChar (escapedAs c) ∧ item.high? = none := by
  rw [escapedRune, escapedAs]
  split
  · exact ⟨.code (hexOf 0xF) (hexOf 0xF) (hexOf 0xF) (hexOf 0xD), by decide, by decide, by decide⟩
  · next hhigh =>
    have hlt : c.toNat < 0x8000 := Nat.lt_succ_of_le (Nat.le_of_not_lt hhigh)
    split
    · have hunit := hexOf_four (Nat.lt_trans hlt (by decide))
      refine ⟨.code (hexOf (c.toNat / 16 / 16 / 16)) (hexOf (c.toNat / 16 / 16))
        (hexOf (c.toNat / 16)) (hexOf c.toNat), rfl, ?_, ?_⟩
      · rw [Item.denotes, codeUnit, hunit, encodeUtf8_eq, writeRune_toNat]
      · simp only [Item.high?, codeUnit, hunit]
        rw [if_neg]
        omega
    · next hlow =>
      have hone : String.utf8EncodeChar c = [UInt8.ofNat c.toNat] :=
        if_pos (Nat.le_of_not_lt hlow)
      have hbyte : (UInt8.ofNat c.toNat).toNat = c.toNat :=
        UInt8.toNat_ofNat_of_lt' (Nat.lt_of_le_of_lt (Nat.le_of_not_lt hlow) (by decide))
      rw [hone]
      split
      · next letter h =>
        obtain ⟨escaped, rfl, hdenotes⟩ := escapeLetter_denotes h
        refine ⟨.escape escaped, rfl, ?_, rfl⟩
        rw [Item.denotes, hdenotes]
      · next h =>
        refine ⟨.plain (.ofNat c.toNat) ⟨?_, ?_, ?_⟩, rfl, rfl, rfl⟩
        · rw [UInt8.le_iff_toNat_le, hbyte]
          apply Nat.le_of_not_lt
          intro hlt
          have hneeds := hc hlt
          rw [needsEscape, h] at hneeds
          cases hneeds
        · intro hquote
          rw [hquote] at h
          cases h
        · intro hbackslash
          rw [hbackslash] at h
          cases h

theorem escapeUnicode_items (text : List Char)
    (h : ∀ c ∈ text, c.toNat < 0x20 → needsEscape (.ofNat c.toNat) = true) :
    ∃ items, escapeUnicode (encode text) = body items ∧
      assigned items = encode (text.map escapedAs) := by
  rw [escapeUnicode_encode]
  induction text with
  | nil => exact ⟨[], rfl, rfl⟩
  | cons c text ih =>
    rw [List.forall_mem_cons] at h
    obtain ⟨item, htext, hdenotes, hhigh⟩ := escapedRune_item h.1
    obtain ⟨items, hbody, hassigned⟩ := ih h.2
    refine ⟨item :: items, ?_, ?_⟩
    · rw [List.flatMap_cons, body_cons, htext, hbody]
    · rw [assigned_cons (startsPair_eq_false hhigh items), hdenotes, hassigned, encode, encode,
        List.map_cons, List.flatMap_cons]

theorem escapedRune_control (hr : r < 0x20) (h : needsEscape (.ofNat r) = false) :
    escapedRune r = [.ofNat r] := by
  rw [needsEscape, Option.isSome_eq_false_iff, Option.isNone_iff_eq_none] at h
  rw [escapedRune, if_neg (by omega), if_neg (by omega), h]

theorem escaped_of_body (hbody : escapeUnicode (encode text) = body items) :
    ∀ c ∈ text, c.toNat < 0x20 → needsEscape (.ofNat c.toNat) = true := by
  intro c hc hlt
  cases hneeds : needsEscape (.ofNat c.toNat) with
  | true => rfl
  | false =>
    have hmem : UInt8.ofNat c.toNat ∈ body items := by
      rw [← hbody, escapeUnicode_encode]
      apply List.mem_flatMap_of_mem hc
      rw [escapedRune_control hlt hneeds]
      exact List.mem_singleton_self _
    have hge := body_ge items _ hmem
    rw [UInt8.le_iff_toNat_le, UInt8.toNat_ofNat_of_lt' (hlt.trans (by decide))] at hge
    exact absurd hge (Nat.not_le.2 hlt)

theorem assigned_escapeUnicode (hbody : escapeUnicode (encode text) = body items) :
    assigned items = encode (text.map escapedAs) := by
  obtain ⟨items', hbody', hassigned⟩ := escapeUnicode_items text (escaped_of_body hbody)
  rwa [body_injective items items' (hbody.symm.trans hbody')]

def Spared (c : Char) : Prop := c.toNat < 0x10000 → escapedAs c = c

theorem spared_iff (c : Char) :
    Spared c ↔ (0x8000 ≤ c.toNat → c.toNat < 0x10000 → c = Char.ofNat 0xFFFD) := by
  rw [Spared, escapedAs]
  split
  · constructor
    · intro h _ hlt
      exact (h hlt).symm
    · intro h hlt
      exact (h ‹_› hlt).symm
  · constructor
    · intro _ hle
      exact absurd hle ‹_›
    · intro _ _
      rfl

theorem forall₂_spared (text : List Char) :
    List.Forall₂ (fun c c' => c.toNat < 0x10000 → c' = c) text (text.map escapedAs) ↔
      ∀ c ∈ text, Spared c := by
  rw [List.forall₂_map_right_iff, List.forall₂_same]
  rfl

/-- The string is written faithfully exactly where its control characters have an escape of two
characters, and no character from U+8000 to U+FFFF is in it but the one that replaces them. -/
theorem escapeUnicode_faithful_iff (text : List Char) :
    Faithful text (escapeUnicode (encode text)) ↔
      ∀ c ∈ text, (c.toNat < 0x20 → c.toNat ∈ [0x08, 0x09, 0x0A, 0x0C, 0x0D]) ∧
        (0x8000 ≤ c.toNat → c.toNat < 0x10000 → c = Char.ofNat 0xFFFD) := by
  constructor
  · intro h c hc
    obtain ⟨items, text', hbody, hassigned, hall⟩ := h.replaced
    rw [assigned_escapeUnicode hbody] at hassigned
    obtain rfl := encode_injective hassigned
    refine ⟨?_, (spared_iff c).1 ((forall₂_spared text).1 hall c hc)⟩
    intro hlt
    exact (needsEscape_control _ hlt).1 (escaped_of_body hbody c hc hlt)
  · intro h
    have hneeds : ∀ c ∈ text, c.toNat < 0x20 → needsEscape (.ofNat c.toNat) = true :=
      fun c hc hlt => (needsEscape_control _ hlt).2 ((h c hc).1 hlt)
    have hspared : ∀ c ∈ text, Spared c := fun c hc => (spared_iff c).2 (h c hc).2
    obtain ⟨items, hbody, hassigned⟩ := escapeUnicode_items text hneeds
    refine ⟨?_, ⟨items, _, hbody, hassigned, (forall₂_spared text).2 hspared⟩, ?_⟩
    · rw [escapeUnicode_encode]
      intro b hb
      obtain ⟨c, -, hb⟩ := List.mem_flatMap.1 hb
      exact escapedRune_ascii c.toNat b hb
    · intro hbasic
      have hsame : text.map escapedAs = text := by
        rw [List.map_congr_left fun c hc => hspared c hc (hbasic c hc), List.map_id']
      rw [hsame] at hassigned
      exact ⟨items, hbody, hassigned⟩

/-- U+8000 is replaced, and U+0001 is written as it is. -/
theorem escapeUnicode_replaces :
    escapeUnicode (encode [Char.ofNat 0x8000]) = [backslash, 0x75, 0x46, 0x46, 0x46, 0x44] ∧
      ¬ Faithful [Char.ofNat 0x8000] (escapeUnicode (encode [Char.ofNat 0x8000])) ∧
      escapeUnicode (encode [Char.ofNat 0x01]) = [0x01] ∧
      ¬ Faithful [Char.ofNat 0x01] (escapeUnicode (encode [Char.ofNat 0x01])) := by
  refine ⟨?_, ?_, ?_, ?_⟩
  · rw [escapeUnicode_encode]
    decide +kernel
  · intro h
    obtain ⟨items, hbody, hassigned⟩ := h.denotes (List.forall_mem_singleton.2 (by decide))
    rw [assigned_escapeUnicode hbody] at hassigned
    exact absurd (encode_injective hassigned) (by decide +kernel)
  · rw [escapeUnicode_encode]
    decide +kernel
  · intro h
    obtain ⟨items, hbody, -⟩ := h.denotes (List.forall_mem_singleton.2 (by decide))
    have hneeds := escaped_of_body hbody (Char.ofNat 0x01) (List.mem_singleton_self _)
    exact absurd hneeds (by decide +kernel)

end Trieste.Json
