import Trieste.Utf8.EscapeUnicode
import Trieste.Utf8.WellFormed
import Trieste.Yaml.DoubleQuoted

namespace Trieste.Yaml
set_option autoImplicit true
open Utf8 Json

/-- The escapes of two characters in YAML. -/
inductive DoubleEscape where
  | known (e : QuotedEscape)
  | null
  | escape
  | nextLine
  | noBreakSpace
  | lineSeparator
  | paragraphSeparator
  deriving DecidableEq

namespace DoubleEscape

def byte : DoubleEscape → UInt8
  | known e => e.byte
  | null => 0x30
  | escape => 0x65
  | nextLine => 0x4E
  | noBreakSpace => 0x5F
  | lineSeparator => 0x4C
  | paragraphSeparator => 0x50

/-- The code point of the character that the escape stands for. -/
def value : DoubleEscape → Nat
  | known e => e.denotes.toNat
  | null => 0
  | escape => 0x1B
  | nextLine => 0x85
  | noBreakSpace => 0xA0
  | lineSeparator => 0x2028
  | paragraphSeparator => 0x2029

end DoubleEscape

/-- A byte of a character that stands for itself, an escape of two characters, or the code of a
character in as many digits as its letter demands. -/
inductive DoubleChar where
  | plain (c : UInt8) (h : (0x20 ≤ c ∨ c = tab) ∧ c ≠ quote ∧ c ≠ backslash)
  | escape (e : DoubleEscape)
  | code (kind : UInt8) (digits : List Hex) (hkind : escapeDigits kind = some digits.length)
      (hvalid : (codeOf digits).isValidChar)

namespace DoubleChar

def text : DoubleChar → Text
  | plain c _ => [c]
  | escape e => [backslash, e.byte]
  | code kind digits _ _ => backslash :: kind :: digits.map Hex.byte

def denotes : DoubleChar → Text
  | plain c _ => [c]
  | escape e => encodeUtf8 e.value
  | code _ digits _ _ => encodeUtf8 (codeOf digits)

end DoubleChar

/-- The text is a double-quoted scalar on one line that denotes the string. -/
def DoubleQuoted (text string : Text) : Prop :=
  ∃ items : List DoubleChar, text = quoted (items.flatMap DoubleChar.text) ∧
    string = items.flatMap DoubleChar.denotes

theorem DoubleEscape.byte_spec (e : DoubleEscape) : e.byte ≠ 0x75 ∧ e.byte ≠ 0x55 ∧
    e.byte.toNat < 0x80 ∧ e.value ≤ max4 ∧ (e.byte = backslash ↔ e.value = 0x5C) := by
  cases e with
  | known e => cases e <;> decide
  | null | escape | nextLine | noBreakSpace | lineSeparator | paragraphSeparator => decide

def IsPlain (t : Nat) : Prop := (0x20 ≤ t ∨ t = 0x09) ∧ t ≠ 0x22

/-- What is written for a rune beyond ASCII, behind the backslash. -/
def unicodeTail (t : Nat) : Text :=
  (unicodeForm t).1 :: (hexesOf (unicodeForm t).2 t).map Hex.byte

/-- The runes that a scalar denotes for the runes of its text, where each one beyond ASCII is written
as a code. A backslash in front of such a code hides it. -/
inductive Denoted : List Nat → List Nat → Prop
  | nil : Denoted [] []
  | char (h : t ≠ 0x5C) (hplain : t < 0x80 → IsPlain t) (rest : Denoted ts ds) :
      Denoted (t :: ts) (t :: ds)
  | hidden (h : 0x7F < t) (rest : Denoted ((unicodeTail t).map UInt8.toNat ++ ts) ds) :
      Denoted (0x5C :: t :: ts) (0x5C :: ds)
  | letter (h : c < 0x80) (hvalue : c ≠ 0x5C → value ≠ 0x5C) (rest : Denoted ts ds) :
      Denoted (0x5C :: c :: ts) (value :: ds)
  | code {digits : List Hex} (hkind : escapeDigits kind = some digits.length)
      (rest : Denoted ts ds) :
      Denoted (0x5C :: kind.toNat :: ((digits.map Hex.byte).map UInt8.toNat ++ ts)) (value :: ds)

theorem unicodeText_high (h : 0x7F < t) : unicodeText t = backslash :: unicodeTail t := if_pos h

theorem unicodeText_low (h : ¬ 0x7F < t) : unicodeText t = [.ofNat t] := if_neg h

theorem unicodeText_ne_nil (t : Nat) : unicodeText t ≠ [] := by
  rw [unicodeText]
  split <;> exact List.cons_ne_nil _ _

theorem toNat_low (h : ¬ 0x7F < t) : (UInt8.ofNat t).toNat = t :=
  UInt8.toNat_ofNat_of_lt' (Nat.lt_of_le_of_lt (Nat.le_of_not_lt h) (by decide))

theorem unicodeForm_cases (t : Nat) : (unicodeForm t).1 = 0x75 ∨ (unicodeForm t).1 = 0x55 := by
  rw [unicodeForm]
  split
  · exact .inr rfl
  · exact .inl rfl

/-- Behind the backslash, a code is written in ASCII without another one. -/
theorem unicodeTail_plain (t : Nat) : ∀ c ∈ unicodeTail t, c.toNat < 0x80 ∧ c ≠ backslash := by
  rw [unicodeTail, List.forall_mem_cons]
  constructor
  · rcases unicodeForm_cases t with h | h
    · rw [h]
      decide
    · rw [h]
      decide
  · intro c hc
    obtain ⟨d, -, rfl⟩ := List.mem_map.1 hc
    exact ⟨UInt8.lt_iff_toNat_lt.1 d.plain.1, d.ne_backslash⟩

theorem flatMap_ascii (h : ∀ c ∈ front, c.toNat < 0x80) (ts : List Nat) :
    (front.map UInt8.toNat ++ ts).flatMap unicodeText = front ++ ts.flatMap unicodeText := by
  induction front with
  | nil => rfl
  | cons c front ih =>
    rw [List.forall_mem_cons] at h
    have hlow : ¬ 0x7F < c.toNat := Nat.not_lt.2 (Nat.le_of_lt_succ h.1)
    rw [List.map_cons, List.cons_append, List.flatMap_cons, ih h.2, unicodeText_low hlow,
      UInt8.ofNat_toNat]
    rfl

theorem ascii_front {front rest : Text} {ts : List Nat} (h : front ++ rest = ts.flatMap unicodeText)
    (hfront : ∀ c ∈ front, c ≠ backslash) :
    ∃ ts', ts = front.map UInt8.toNat ++ ts' ∧ rest = ts'.flatMap unicodeText := by
  induction front generalizing ts with
  | nil => exact ⟨ts, rfl, h⟩
  | cons c front ih =>
    rw [List.forall_mem_cons] at hfront
    cases ts with
    | nil => cases h
    | cons t ts =>
      rw [List.flatMap_cons] at h
      by_cases hhigh : 0x7F < t
      · rw [unicodeText_high hhigh] at h
        exact absurd (List.cons.inj h).1 hfront.1
      · rw [unicodeText_low hhigh] at h
        obtain ⟨rfl, hrest⟩ := List.cons.inj h
        obtain ⟨ts', rfl, hts⟩ := ih hrest hfront.2
        refine ⟨ts', ?_, hts⟩
        rw [List.map_cons, toNat_low hhigh, List.cons_append]

theorem code_unicodeTail {digits : List Hex} (hkind : escapeDigits kind = some digits.length)
    (ht : t ≤ max4) (h : kind :: (digits.map Hex.byte ++ rest) = unicodeTail t ++ rest') :
    codeOf digits = t ∧ rest = rest' := by
  obtain ⟨rfl, hrest⟩ := List.cons.inj h
  rw [escapeDigits_unicodeForm, Option.some.injEq] at hkind
  have hlen : (digits.map Hex.byte).length = ((hexesOf (unicodeForm t).2 t).map Hex.byte).length := by
    rw [List.length_map, List.length_map, length_hexesOf, hkind]
  obtain ⟨hdigits, hrest⟩ := List.append_inj hrest hlen
  have hsame : digits = hexesOf (unicodeForm t).2 t :=
    List.map_injective_iff.2 (fun d e hde => hex_ext hde) hdigits
  rw [hsame]
  exact ⟨ofDigits_hexesOf (lt_unicodeForm ht), hrest⟩

theorem denoted_escape {e : DoubleEscape} (ht : ∀ t ∈ ts, t ≤ max4)
    (h : e.byte :: rest = ts.flatMap unicodeText)
    (ih : ∀ ts', (∀ t ∈ ts', t ≤ max4) → rest = ts'.flatMap unicodeText →
      ∃ ds, Denoted ts' ds ∧ (∀ d ∈ ds, d ≤ max4) ∧ string = ds.flatMap writeRune) :
    ∃ ds, Denoted (0x5C :: ts) ds ∧ (∀ d ∈ ds, d ≤ max4) ∧
      encodeUtf8 e.value ++ string = ds.flatMap writeRune := by
  obtain ⟨-, -, hbyte, hvalue, hiff⟩ := e.byte_spec
  cases ts with
  | nil => cases h
  | cons t ts =>
    rw [List.forall_mem_cons] at ht
    rw [List.flatMap_cons] at h
    rw [encodeUtf8_eq]
    by_cases hhigh : 0x7F < t
    · rw [unicodeText_high hhigh, List.cons_append] at h
      obtain ⟨hbackslash, hrest⟩ := List.cons.inj h
      have hascii : ∀ c ∈ unicodeTail t, c.toNat < 0x80 := fun c hc => (unicodeTail_plain t c hc).1
      rw [← flatMap_ascii hascii] at hrest
      have hmax : ∀ t' ∈ (unicodeTail t).map UInt8.toNat ++ ts, t' ≤ max4 := by
        intro t' ht'
        rcases List.mem_append.1 ht' with ht' | ht'
        · obtain ⟨c, hc, rfl⟩ := List.mem_map.1 ht'
          exact Nat.le_of_lt (Nat.lt_trans (hascii c hc) (by decide))
        · exact ht.2 t' ht'
      obtain ⟨ds, hds, hle, hstring⟩ := ih _ hmax hrest
      rw [hiff.1 hbackslash, hstring]
      exact ⟨0x5C :: ds, .hidden hhigh hds, List.forall_mem_cons.2 ⟨by decide, hle⟩, rfl⟩
    · rw [unicodeText_low hhigh] at h
      obtain ⟨hbyte', hrest⟩ := List.cons.inj h
      obtain ⟨ds, hds, hle, hstring⟩ := ih ts ht.2 hrest
      have ht' : t = e.byte.toNat := by rw [hbyte', toNat_low hhigh]
      refine ⟨e.value :: ds, .letter (ht' ▸ hbyte) ?_ hds, List.forall_mem_cons.2 ⟨hvalue, hle⟩, ?_⟩
      · intro hne hval
        rw [ht', hiff.2 hval] at hne
        exact hne rfl
      · rw [hstring]
        rfl

/-- The items of a text with the codes of its runes denote what the runes do. -/
theorem denoted_of_items (items : List DoubleChar) (ht : ∀ t ∈ ts, t ≤ max4)
    (h : items.flatMap DoubleChar.text = ts.flatMap unicodeText) :
    ∃ ds, Denoted ts ds ∧ (∀ d ∈ ds, d ≤ max4) ∧
      items.flatMap DoubleChar.denotes = ds.flatMap writeRune := by
  induction items generalizing ts with
  | nil =>
    cases ts with
    | nil => exact ⟨[], .nil, List.forall_mem_nil _, rfl⟩
    | cons t ts => exact absurd (List.append_eq_nil_iff.1 h.symm).1 (unicodeText_ne_nil t)
  | cons item items ih =>
    cases ts with
    | nil => cases item <;> cases h
    | cons t ts =>
      rw [List.flatMap_cons, List.flatMap_cons] at h
      rw [List.forall_mem_cons] at ht
      rw [List.flatMap_cons]
      by_cases hhigh : 0x7F < t
      · rw [unicodeText_high hhigh] at h
        cases item with
        | plain c hc => exact absurd (List.cons.inj h).1 hc.2.2
        | escape e =>
          obtain ⟨hu, hU, -⟩ := e.byte_spec
          have hform := (List.cons.inj (List.cons.inj h).2).1
          rcases unicodeForm_cases t with hcase | hcase
          · exact absurd (hform.trans hcase) hu
          · exact absurd (hform.trans hcase) hU
        | code kind digits hkind hvalid =>
          obtain ⟨hcode, hrest⟩ := code_unicodeTail hkind ht.1 (List.cons.inj h).2
          obtain ⟨ds, hds, hle, hstring⟩ := ih ht.2 hrest
          refine ⟨t :: ds, .char (fun heq => absurd hhigh (by rw [heq]; decide)) (fun hlt => ?_) hds,
            List.forall_mem_cons.2 ⟨ht.1, hle⟩, ?_⟩
          · exact absurd hhigh (Nat.not_lt.2 (Nat.le_of_lt_succ hlt))
          · rw [DoubleChar.denotes, hcode, encodeUtf8_eq, hstring]
            rfl
      · rw [unicodeText_low hhigh] at h
        have hlow := toNat_low hhigh
        cases item with
        | plain c hc =>
          obtain ⟨rfl, hrest⟩ := List.cons.inj h
          obtain ⟨ds, hds, hle, hstring⟩ := ih ht.2 hrest
          refine ⟨t :: ds, .char ?_ (fun _ => ?_) hds, List.forall_mem_cons.2 ⟨ht.1, hle⟩, ?_⟩
          · rintro rfl
            exact hc.2.2 rfl
          · refine ⟨hc.1.imp (fun hge => ?_) (fun htab => ?_), ?_⟩
            · rw [UInt8.le_iff_toNat_le, hlow] at hge
              exact hge
            · rw [← hlow, htab]
              rfl
            · rintro rfl
              exact hc.2.1 rfl
          · have hmax : t ≤ max1 := Nat.le_of_not_lt hhigh
            rw [DoubleChar.denotes, List.flatMap_cons, writeRune_ascii hmax, hstring]
        | escape e =>
          obtain ⟨hbackslash, hrest⟩ := List.cons.inj h
          obtain rfl : t = 0x5C := by rw [← hlow, ← hbackslash]; rfl
          exact denoted_escape ht.2 hrest fun ts' ht' h' => ih ht' h'
        | code kind digits hkind hvalid =>
          obtain ⟨hbackslash, hrest⟩ := List.cons.inj h
          obtain rfl : t = 0x5C := by rw [← hlow, ← hbackslash]; rfl
          have hfront : ∀ c ∈ kind :: digits.map Hex.byte, c ≠ backslash := by
            rw [List.forall_mem_cons]
            refine ⟨?_, fun c hc => ?_⟩
            · rintro rfl
              cases hkind
            · obtain ⟨d, -, rfl⟩ := List.mem_map.1 hc
              exact d.ne_backslash
          obtain ⟨ts', rfl, hrest'⟩ := ascii_front hrest hfront
          obtain ⟨ds, hds, hle, hstring⟩ := ih (fun t ht' => ht.2 t (List.mem_append_right _ ht')) hrest'
          have hmax : codeOf digits ≤ max4 := le_max4_of_valid hvalid
          refine ⟨codeOf digits :: ds, .code hkind hds, List.forall_mem_cons.2 ⟨hmax, hle⟩, ?_⟩
          rw [DoubleChar.denotes, encodeUtf8_eq, hstring]
          rfl

end Trieste.Yaml
