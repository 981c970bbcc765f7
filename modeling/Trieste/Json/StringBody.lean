import Trieste.Json.Escape
import Trieste.Utf8.Hex
import Trieste.Utf8.Encode

namespace Trieste.Json
set_option autoImplicit true
open Utf8

/-- The characters that stand behind a backslash on their own. -/
inductive Letter where
  | quote
  | backslash
  | slash
  | b
  | f
  | n
  | r
  | t
  deriving DecidableEq

namespace Letter

def byte : Letter → UInt8
  | quote => 0x22
  | backslash => 0x5C
  | slash => 0x2F
  | b => 0x62
  | f => 0x66
  | n => 0x6E
  | r => 0x72
  | t => 0x74

/-- The character that the escape stands for. -/
def denotes : Letter → UInt8
  | quote => 0x22
  | backslash => 0x5C
  | slash => 0x2F
  | b => 0x08
  | f => 0x0C
  | n => 0x0A
  | r => 0x0D
  | t => 0x09

end Letter

/-- An alternative of the rule for strings: a byte of an ordinary character, an escape of two
characters, or four hexadecimal digits behind `\u`. -/
inductive Item where
  | plain (c : UInt8) (h : 0x20 ≤ c ∧ c ≠ 0x22 ∧ c ≠ backslash)
  | escape (letter : Letter)
  | code (d₁ d₂ d₃ d₄ : Hex)

def codeUnit (d₁ d₂ d₃ d₄ : Hex) : Nat :=
  ofDigits [d₁.digit, d₂.digit, d₃.digit, d₄.digit]

/-- UTF-8. A surrogate without its partner, which has none, is written like any other rune. -/
def encodeUtf8 (value : Nat) : List UInt8 :=
  if value.isValidChar then String.utf8EncodeChar (Char.ofNat value) else writeRune value

namespace Item

def text : Item → List UInt8
  | plain c _ => [c]
  | escape letter => [backslash, letter.byte]
  | code d₁ d₂ d₃ d₄ => [backslash, 0x75, d₁.byte, d₂.byte, d₃.byte, d₄.byte]

def denotes : Item → List UInt8
  | plain c _ => [c]
  | escape letter => [letter.denotes]
  | code d₁ d₂ d₃ d₄ => encodeUtf8 (codeUnit d₁ d₂ d₃ d₄)

def high? : Item → Option Nat
  | code d₁ d₂ d₃ d₄ =>
    let unit := codeUnit d₁ d₂ d₃ d₄
    if 0xD800 ≤ unit ∧ unit ≤ 0xDBFF then some unit else none
  | _ => none

def low? : Item → Option Nat
  | code d₁ d₂ d₃ d₄ =>
    let unit := codeUnit d₁ d₂ d₃ d₄
    if 0xDC00 ≤ unit ∧ unit ≤ 0xDFFF then some unit else none
  | _ => none

def pair? (item next : Item) : Option Nat :=
  item.high?.bind fun high => next.low?.map fun low =>
    0x10000 + (high - 0xD800) * 0x400 + (low - 0xDC00)

end Item

def body (items : List Item) : List UInt8 := items.flatMap Item.text

/-- The string that RFC 8259 assigns to a body, in UTF-8. -/
def assigned : List Item → List UInt8
  | [] => []
  | [item] => item.denotes
  | item :: next :: rest =>
    match item.pair? next with
    | some value => encodeUtf8 value ++ assigned rest
    | none => item.denotes ++ assigned (next :: rest)

def startsPair : List Item → Bool
  | item :: next :: _ => (item.pair? next).isSome
  | _ => false

/-- An escape starts behind a backslash before this text. -/
def startsEscape : List UInt8 → Bool
  | [] => false
  | kind :: digits =>
    match escapeDigits kind with
    | some n => decide (n ≤ digits.length + 1)
    | none => false

/-- Escaped backslashes with an escaped quote or slash behind them. -/
def closesBackslash : List Item → Bool
  | .escape .backslash :: rest => closesBackslash rest
  | .escape .quote :: _ | .escape .slash :: _ => true
  | _ => false

/-- The item and what follows it are read alike by both decoders. -/
def Item.readOnce : Item → List Item → Bool
  | plain _ _, _ => true
  | escape letter, rest => letter ≠ .backslash || !startsEscape (body rest)
  | code d₁ d₂ d₃ d₄, rest => !startsPair (code d₁ d₂ d₃ d₄ :: rest) &&
      (codeUnit d₁ d₂ d₃ d₄ ≠ 0x5C || closesBackslash rest)

/-- No item makes the decoders take another one for something else. -/
def decodesOnce : List Item → Bool
  | [] => true
  | item :: rest => item.readOnce rest && decodesOnce rest

theorem body_cons (item : Item) (rest : List Item) :
    body (item :: rest) = item.text ++ body rest := List.flatMap_cons

/-- UTF-8 is what the code writes. -/
theorem encodeUtf8_eq (value : Nat) : encodeUtf8 value = writeRune value := by
  rw [encodeUtf8]
  split
  · next h =>
    have hc : Char.ofNat value = Char.ofNatAux value h := dif_pos h
    rw [← writeRune_toNat, hc]
    rfl
  · rfl

theorem assigned_cons (h : startsPair (item :: rest) = false) :
    assigned (item :: rest) = item.denotes ++ assigned rest := by
  cases rest with
  | nil => simp [assigned]
  | cons next rest =>
    rw [startsPair, Option.isSome_eq_false_iff, Option.isNone_iff_eq_none] at h
    rw [assigned, h]

theorem startsPair_eq_false {item : Item} (h : item.high? = none) (rest : List Item) :
    startsPair (item :: rest) = false := by
  cases rest with
  | nil => rfl
  | cons next rest => rw [startsPair, Item.pair?, h, Option.bind_none, Option.isSome_none]

theorem high?_eq_some {item : Item} (h : item.high? = some unit) : 0xD800 ≤ unit ∧ unit ≤ 0xDBFF ∧
    ∃ d₁ d₂ d₃ d₄, item = .code d₁ d₂ d₃ d₄ ∧ codeUnit d₁ d₂ d₃ d₄ = unit := by
  cases item with
  | plain => cases h
  | escape => cases h
  | code d₁ d₂ d₃ d₄ =>
    simp only [Item.high?] at h
    split at h
    · next hrange =>
      cases h
      exact ⟨hrange.1, hrange.2, d₁, d₂, d₃, d₄, rfl, rfl⟩
    · cases h

theorem low?_eq_some {item : Item} (h : item.low? = some unit) : 0xDC00 ≤ unit ∧ unit ≤ 0xDFFF ∧
    ∃ d₁ d₂ d₃ d₄, item = .code d₁ d₂ d₃ d₄ ∧ codeUnit d₁ d₂ d₃ d₄ = unit := by
  cases item with
  | plain => cases h
  | escape => cases h
  | code d₁ d₂ d₃ d₄ =>
    simp only [Item.low?] at h
    split at h
    · next hrange =>
      cases h
      exact ⟨hrange.1, hrange.2, d₁, d₂, d₃, d₄, rfl, rfl⟩
    · cases h

theorem pair?_eq_some {item next : Item} (h : item.pair? next = some value) :
    0x10000 ≤ value ∧ value ≤ max4 ∧ ∃ high low, item.high? = some high ∧ next.low? = some low := by
  obtain ⟨high, hh, h⟩ := Option.bind_eq_some_iff.1 h
  obtain ⟨low, hl, rfl⟩ := Option.map_eq_some_iff.1 h
  obtain ⟨h1, h2, -⟩ := high?_eq_some hh
  obtain ⟨h3, h4, -⟩ := low?_eq_some hl
  refine ⟨by omega, ?_, high, low, hh, hl⟩
  simp only [max4]
  omega

theorem startsPair_eq_true (h : startsPair (item :: rest) = true) :
    ∃ value next rest', rest = next :: rest' ∧ item.pair? next = some value ∧
      assigned (item :: rest) = encodeUtf8 value ++ assigned rest' := by
  cases rest with
  | nil => cases h
  | cons next rest =>
    obtain ⟨value, hv⟩ := Option.isSome_iff_exists.1 h
    refine ⟨value, next, rest, rfl, hv, ?_⟩
    rw [assigned, hv]

theorem startsEscape_iff : startsEscape text = true ↔ ∃ digits n, StartsEscape text digits n := by
  cases text with
  | nil =>
    constructor
    · intro h
      cases h
    · intro h
      obtain ⟨digits, n, kind, h, -⟩ := h
      cases h
  | cons kind digits =>
    rw [startsEscape]
    constructor
    · intro h
      split at h
      · exact ⟨digits, _, kind, rfl, ‹_›, of_decide_eq_true h⟩
      · cases h
    · intro h
      obtain ⟨digits', n, kind', h, hn, hlen⟩ := h
      cases h
      simp only [hn, decide_eq_true_eq]
      exact hlen

theorem not_starts (h : startsEscape text = false) (digits : List UInt8) (n : Nat) :
    ¬ StartsEscape text digits n := by
  intro hs
  cases h.symm.trans (startsEscape_iff.2 ⟨digits, n, hs⟩)

theorem startsEscape_of_none (h : escapeDigits kind = none) (rest : List UInt8) :
    startsEscape (kind :: rest) = false := by
  simp only [startsEscape, h]

theorem escapeDigits_letter (letter : Letter) : escapeDigits letter.byte = none := by
  cases letter <;> rfl

theorem unescapeLetter_byte (letter : Letter) :
    unescapeLetter letter.byte = some letter.denotes := by
  cases letter <;> rfl

theorem stoul_code (d₁ d₂ d₃ d₄ : Hex) :
    stoul [d₁.byte, d₂.byte, d₃.byte, d₄.byte] = .ok (codeUnit d₁ d₂ d₃ d₄) :=
  stoul_hexes d₁ [d₂, d₃, d₄] (Nat.lt_of_sub_eq_succ rfl) (s := []) rfl (by simp)

theorem codeUnit_lt (d₁ d₂ d₃ d₄ : Hex) : codeUnit d₁ d₂ d₃ d₄ < 0x10000 := by
  have hlt : codeUnit d₁ d₂ d₃ d₄ < 16 ^ 4 := by
    apply ofDigits_lt ([d₁, d₂, d₃, d₄].map Hex.digit)
    intro d hd
    obtain ⟨e, -, rfl⟩ := List.mem_map.1 hd
    exact e.digit_lt
  exact Nat.lt_of_lt_of_eq hlt (by decide)

theorem item_text_ge (item : Item) : ∀ c ∈ item.text, 0x20 ≤ c := by
  have hhex : ∀ c, (hexDigit c).isSome → 0x20 ≤ c := forall_byte (by decide +kernel)
  intro c hc
  cases item with
  | plain d h =>
    obtain rfl := List.mem_singleton.1 hc
    exact h.1
  | escape letter =>
    rcases List.mem_cons.1 hc with rfl | hc
    · decide
    · obtain rfl := List.mem_singleton.1 hc
      cases letter <;> decide
  | code d₁ d₂ d₃ d₄ =>
    have hmem : c ∈ [backslash, 0x75] ∨ c ∈ [d₁, d₂, d₃, d₄].map Hex.byte :=
      List.mem_append.1 hc
    rcases hmem with hc | hc
    · simp only [List.mem_cons, List.not_mem_nil, or_false] at hc
      rcases hc with rfl | rfl <;> decide
    · obtain ⟨d, -, rfl⟩ := List.mem_map.1 hc
      exact hhex _ (by rw [d.read]; rfl)

theorem body_ge (items : List Item) : ∀ c ∈ body items, 0x20 ≤ c := by
  intro c hc
  obtain ⟨item, -, hc⟩ := List.mem_flatMap.1 hc
  exact item_text_ge item c hc

theorem hex_ext {d e : Hex} (h : d.byte = e.byte) : d = e := by
  cases d with
  | mk byte digit hread =>
    cases e with
    | mk byte' digit' hread' =>
      obtain rfl : byte = byte' := h
      rw [hread] at hread'
      cases hread'
      rfl

theorem letter_byte_inj {letter letter' : Letter} (h : letter.byte = letter'.byte) :
    letter = letter' := by
  cases letter <;> cases letter' <;> first | rfl | cases h

theorem letter_byte_ne_u (letter : Letter) : letter.byte ≠ 0x75 := by
  cases letter <;> decide

theorem text_append_inj {item item' : Item} {s s' : List UInt8}
    (h : item.text ++ s = item'.text ++ s') : item = item' ∧ s = s' := by
  cases item with
  | plain c hc =>
    cases item' with
    | plain c' hc' =>
      obtain ⟨rfl, rfl⟩ := List.cons.inj h
      exact ⟨rfl, rfl⟩
    | escape | code => exact absurd (List.cons.inj h).1 hc.2.2
  | escape letter =>
    cases item' with
    | plain c' hc' => exact absurd (List.cons.inj h).1.symm hc'.2.2
    | escape letter' =>
      obtain ⟨hl, rfl⟩ := List.cons.inj (List.cons.inj h).2
      rw [letter_byte_inj hl]
      exact ⟨rfl, rfl⟩
    | code => exact absurd (List.cons.inj (List.cons.inj h).2).1 (letter_byte_ne_u letter)
  | code d₁ d₂ d₃ d₄ =>
    cases item' with
    | plain c' hc' => exact absurd (List.cons.inj h).1.symm hc'.2.2
    | escape letter' =>
      exact absurd (List.cons.inj (List.cons.inj h).2).1.symm (letter_byte_ne_u letter')
    | code e₁ e₂ e₃ e₄ =>
      simp only [Item.text, List.cons_append, List.nil_append, List.cons.injEq, true_and] at h
      obtain ⟨h₁, h₂, h₃, h₄, rfl⟩ := h
      rw [hex_ext h₁, hex_ext h₂, hex_ext h₃, hex_ext h₄]
      exact ⟨rfl, rfl⟩

theorem text_ne_nil (item : Item) (s : List UInt8) : item.text ++ s ≠ [] := by
  cases item <;> exact List.cons_ne_nil _ _

/-- A body is read in one way only. -/
theorem body_injective (items items' : List Item) (h : body items = body items') :
    items = items' := by
  induction items generalizing items' with
  | nil =>
    cases items' with
    | nil => rfl
    | cons item rest => exact absurd ((body_cons item rest).symm.trans h.symm) (text_ne_nil item _)
  | cons item rest ih =>
    cases items' with
    | nil => exact absurd ((body_cons item rest).symm.trans h) (text_ne_nil item _)
    | cons item' rest' =>
      rw [body_cons, body_cons] at h
      obtain ⟨rfl, hrest⟩ := text_append_inj h
      rw [ih rest' hrest]

end Trieste.Json
