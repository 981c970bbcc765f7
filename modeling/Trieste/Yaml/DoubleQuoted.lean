import Trieste.Json.StringDecode
import Trieste.Yaml.Folding

namespace Trieste.Yaml
set_option autoImplicit true
open Utf8 Json Library

def knownEscapes : Text :=
  [quote, 0x61, 0x07, 0x62, 0x08, 0x66, 0x0C, 0x6E, newline, 0x72, carriageReturn, 0x74, tab, 0x76,
    0x0B, 0x2F, 0x78, 0x75, 0x55, 0x20]

/-- The loop of `contains_invalid_elements` over a line, which ends before the last character. -/
def hasInvalidElement : Text → Bool
  | c :: d :: rest =>
    if c = backslash then
      if d = backslash then hasInvalidElement rest
      else if d ∈ knownEscapes then hasInvalidElement (d :: rest)
      else true
    else hasInvalidElement (d :: rest)
  | _ => false

/-- `contains_invalid_elements` -/
def containsInvalidElements (lines : List QuoteLine) : String :=
  if lines.any fun line => hasInvalidElement line.view then "Invalid escape sequence" else ""

/-- The rule of `quotes` for double-quoted scalars. -/
def doubleQuote (text : Text) (minIndent : Nat) (l : Location) : Except String (List QuoteLine) :=
  let lines := toLines text minIndent l
  let message := containsInvalidElements lines
  if message ≠ "" then .error message else .ok lines

/-- A scalar that is read from the left has an escape with this character, before this text. -/
inductive EscapeAt : Text → UInt8 → Text → Prop
  | here : EscapeAt (backslash :: c :: rest) c rest
  | escape : EscapeAt rest c' rest' → EscapeAt (backslash :: c :: rest) c' rest'
  | plain : c ≠ backslash → EscapeAt rest c' rest' → EscapeAt (c :: rest) c' rest'

/-- An escape lacks some of its hexadecimal digits. -/
def Truncated (inner : Text) : Prop :=
  ∃ kind rest n, EscapeAt inner kind rest ∧ escapeDigits kind = some n ∧
    ¬ (n ≤ rest.length ∧ ∀ c ∈ rest.take n, (hexDigit c).isSome)

/-- The escapes of two characters that the reader knows and YAML has. -/
inductive QuotedEscape where
  | quote
  | backslash
  | slash
  | space
  | tab
  | a
  | b
  | f
  | n
  | r
  | t
  | v
  deriving DecidableEq

def QuotedEscape.byte : QuotedEscape → UInt8
  | quote => 0x22
  | backslash => 0x5C
  | slash => 0x2F
  | space => 0x20
  | tab => 0x09
  | a => 0x61
  | b => 0x62
  | f => 0x66
  | n => 0x6E
  | r => 0x72
  | t => 0x74
  | v => 0x76

/-- The character that the escape stands for. -/
def QuotedEscape.denotes : QuotedEscape → UInt8
  | quote => 0x22
  | backslash => 0x5C
  | slash => 0x2F
  | space => 0x20
  | tab => 0x09
  | a => 0x07
  | b => 0x08
  | f => 0x0C
  | n => 0x0A
  | r => 0x0D
  | t => 0x09
  | v => 0x0B

def codeOf (digits : List Hex) : Nat := ofDigits (digits.map Hex.digit)

/-- A byte of a character that stands for itself, an escape of two characters, or the code of a
character in as many digits as its letter demands. -/
inductive QuotedChar where
  | plain (c : UInt8) (h : (0x20 ≤ c ∨ c = tab) ∧ c ≠ quote ∧ c ≠ backslash)
  | escape (escape : QuotedEscape)
  | code (kind : UInt8) (digits : List Hex) (hkind : escapeDigits kind = some digits.length)
      (hvalid : (codeOf digits).isValidChar)

namespace QuotedChar

def text : QuotedChar → Text
  | plain c _ => [c]
  | escape e => [backslash, e.byte]
  | code kind digits _ _ => backslash :: kind :: digits.map Hex.byte

/-- What YAML says that it stands for, in UTF-8. -/
def denotes : QuotedChar → Text
  | plain c _ => [c]
  | escape e => [e.denotes]
  | code _ digits _ _ => encodeUtf8 (codeOf digits)

end QuotedChar

def scalarText (items : List QuotedChar) : Text := items.flatMap QuotedChar.text

def scalarString (items : List QuotedChar) : Text := items.flatMap QuotedChar.denotes

theorem scalarText_cons (item : QuotedChar) (rest : List QuotedChar) :
    scalarText (item :: rest) = item.text ++ scalarText rest := List.flatMap_cons

theorem scalarString_cons (item : QuotedChar) (rest : List QuotedChar) :
    scalarString (item :: rest) = item.denotes ++ scalarString rest := List.flatMap_cons

/-- Whether an escape of two characters is decoded to what it stands for, by itself and behind a
hexadecimal escape of a backslash. -/
def QuotedEscape.isKept (pending : Bool) (e : QuotedEscape) : Bool :=
  if pending then e ∈ [quote, slash, space, tab] else e ∉ [a, v]

/-- Each character is decoded to what it stands for; where `pending`, a backslash of a hexadecimal
escape is in front of the characters. -/
def escapesKept : Bool → List QuotedChar → Bool
  | false, [] => true
  | true, [] => false
  | false, .plain _ _ :: rest => escapesKept false rest
  | true, .plain _ _ :: _ => false
  | pending, .escape e :: rest =>
    if e = .backslash then !startsEscape (scalarText rest) && escapesKept pending rest
    else e.isKept pending && escapesKept false rest
  | false, .code _ digits _ _ :: rest =>
    if codeOf digits = 0x5C then escapesKept true rest
    else (0x20 ≤ codeOf digits || codeOf digits ∈ [0x09, 0x0A, 0x0D]) && escapesKept false rest
  | true, .code _ _ _ _ :: _ => false

/-- The text of a JSON string, without its quotes, for a string. -/
def Denotes (text string : Text) : Prop := ∃ items, text = body items ∧ assigned items = string

theorem isLiteral_quoted : IsLiteral (quoted text) string ↔ Denotes text string := by
  constructor
  · intro h
    obtain ⟨items, hquoted, hassigned⟩ := h
    exact ⟨items, List.append_cancel_right (List.cons.inj hquoted).2, hassigned⟩
  · intro h
    obtain ⟨items, rfl, hassigned⟩ := h
    exact ⟨items, rfl, hassigned⟩

theorem denotes_head {item : Item} (h : item.high? = none)
    (hd : Denotes (item.text ++ text) string) :
    ∃ string', string = item.denotes ++ string' ∧ Denotes text string' := by
  obtain ⟨items, hbody, rfl⟩ := hd
  cases items with
  | nil => exact absurd hbody (text_ne_nil item text)
  | cons item' rest =>
    rw [body_cons] at hbody
    obtain ⟨rfl, rfl⟩ := text_append_inj hbody
    exact ⟨assigned rest, assigned_cons (startsPair_eq_false h rest), rest, rfl, rfl⟩

theorem denotes_append {item : Item} (h : item.high? = none) :
    Denotes (item.text ++ text) (item.denotes ++ string) ↔ Denotes text string := by
  constructor
  · intro hd
    obtain ⟨string', heq, hd⟩ := denotes_head h hd
    rwa [List.append_cancel_left heq]
  · intro hd
    obtain ⟨rest, rfl, rfl⟩ := hd
    exact ⟨item :: rest, (body_cons item rest).symm, assigned_cons (startsPair_eq_false h rest)⟩

theorem denotes_nil : Denotes [] string ↔ string = [] := by
  constructor
  · intro h
    obtain ⟨items, hbody, rfl⟩ := h
    cases items with
    | nil => rfl
    | cons item rest => exact absurd (hbody.trans (body_cons item rest)).symm (text_ne_nil item _)
  · rintro rfl
    exact ⟨[], rfl, rfl⟩

theorem not_denotes_control (hc : c ∈ text) (h : ¬ 0x20 ≤ c) : ¬ Denotes text string := by
  intro hd
  obtain ⟨items, rfl, -⟩ := hd
  exact h (body_ge items c hc)

theorem not_denotes_escape (hletter : ∀ letter : Letter, letter.byte ≠ c)
    (hcode : c = 0x75 → ∀ d ∈ text.head?, hexDigit d = none) :
    ¬ Denotes (backslash :: c :: text) string := by
  intro hd
  obtain ⟨items, hbody, -⟩ := hd
  cases items with
  | nil => cases hbody
  | cons item rest =>
    rw [body_cons] at hbody
    cases item with
    | plain c' h => exact h.2.2 (List.cons.inj hbody).1.symm
    | escape letter => exact hletter letter (List.cons.inj (List.cons.inj hbody).2).1.symm
    | code d₁ d₂ d₃ d₄ =>
      obtain ⟨rfl, htext⟩ := List.cons.inj (List.cons.inj hbody).2
      have hd := hcode rfl d₁.byte (congrArg List.head? htext)
      rw [d₁.read] at hd
      cases hd

def toEscape : Text := quoteEscape .double false

/-- What `escape_chars` makes of a text is a JSON string, with a backslash before the text where
one is `pending`. -/
def Decodes (pending : Bool) (text string : Text) : Prop :=
  ∃ input, unescapeHexunicode text = .ok input ∧
    Denotes (escapeLoop toEscape pending input) string

theorem decodes_of_map {f : Text → Text}
    (h : unescapeHexunicode text = (unescapeHexunicode text').map f)
    (heq : ∀ input, unescapeHexunicode text' = .ok input →
      (Denotes (escapeLoop toEscape pending (f input)) string ↔
        Denotes (escapeLoop toEscape pending' input) string')) :
    Decodes pending text string ↔ Decodes pending' text' string' := by
  constructor
  · intro hd
    obtain ⟨out, hout, hd⟩ := hd
    rw [h] at hout
    obtain ⟨input, hinput, rfl⟩ := map_eq_ok.1 hout
    exact ⟨input, hinput, (heq input hinput).1 hd⟩
  · intro hd
    obtain ⟨input, hinput, hd⟩ := hd
    refine ⟨f input, ?_, (heq input hinput).2 hd⟩
    rw [h, hinput]
    rfl

theorem denoted_toEscape (c : UInt8) : denoted toEscape c = c := by
  have h := List.map_eq_map_iff.1 ((readAs_double [c]).trans (List.map_id' _).symm) c
    List.mem_cons_self
  exact h

theorem denotes_char (h : c ≠ backslash) (hw : isWritable c) (input : Text) :
    Denotes (escapeLoop toEscape false (c :: input)) string ↔
      ∃ string', string = c :: string' ∧ Denotes (escapeLoop toEscape false input) string' := by
  obtain ⟨item, htext, hdenotes, hhigh⟩ := piece_item (sound_quoteEscape .double) hw
  obtain ⟨hpiece, hdenoted⟩ := piece_cons h toEscape
  have hloop : escapeLoop toEscape false (c :: input) =
      item.text ++ escapeLoop toEscape false input := by
    rw [htext.trans hpiece, escapeLoop, piece, if_neg h]
    split
    · rfl
    · split <;> rfl
  have hone : item.denotes = [c] :=
    hdenotes.trans (congrArg (fun d => [d]) (hdenoted.trans (denoted_toEscape c)))
  rw [hloop]
  constructor
  · intro hd
    obtain ⟨string', heq, hd⟩ := denotes_head hhigh hd
    rw [hone] at heq
    exact ⟨string', heq, hd⟩
  · intro hd
    obtain ⟨string', rfl, hd⟩ := hd
    rw [← List.singleton_append, ← hone]
    exact (denotes_append hhigh).2 hd

theorem denotes_plain (h : c ≠ backslash) (hw : isWritable c) (input : Text) :
    Denotes (escapeLoop toEscape false (c :: input)) (d :: string) ↔
      d = c ∧ Denotes (escapeLoop toEscape false input) string := by
  rw [denotes_char h hw]
  constructor
  · intro hd
    obtain ⟨string', heq, hd⟩ := hd
    obtain ⟨rfl, rfl⟩ := List.cons.inj heq
    exact ⟨rfl, hd⟩
  · intro hd
    obtain ⟨rfl, hd⟩ := hd
    exact ⟨string, rfl, hd⟩

theorem denotes_plain_head (h : c ≠ backslash) (input : Text)
    (hd : Denotes (escapeLoop toEscape false (c :: input)) (d :: string)) : d = c := by
  by_cases hw : isWritable c
  · exact ((denotes_plain h hw input).1 hd).1
  · refine absurd hd (not_denotes_control (c := c) ?_ fun hge => hw (.inl hge))
    have hmem : c ∉ toEscape := fun hmem => hw (writable_of_mem (sound_quoteEscape .double)
      (List.mem_cons_of_mem _ hmem))
    have hspace : isSpaceChar c ≠ true := fun hspace => hw (.inr hspace)
    rw [escapeLoop, if_neg hmem, if_neg h, if_neg hspace]
    exact List.mem_cons_self

theorem denotes_bytes {bytes : Text} (h : ∀ c ∈ bytes, c ≠ backslash ∧ isWritable c)
    (input : Text) : Denotes (escapeLoop toEscape false (bytes ++ input)) (bytes ++ string) ↔
      Denotes (escapeLoop toEscape false input) string := by
  induction bytes with
  | nil => exact Iff.rfl
  | cons c bytes ih =>
    obtain ⟨hc, hw⟩ := h c List.mem_cons_self
    rw [List.cons_append, List.cons_append, denotes_plain hc hw, and_iff_right rfl,
      ih fun d hd => h d (List.mem_cons_of_mem _ hd)]

theorem denotes_bytes_head {bytes : Text} (h : ∀ c ∈ bytes, c ≠ backslash ∧ isWritable c)
    (input : Text) (hd : Denotes (escapeLoop toEscape false (bytes ++ input)) string) :
    ∃ string', string = bytes ++ string' := by
  induction bytes generalizing string with
  | nil => exact ⟨string, rfl⟩
  | cons c bytes ih =>
    obtain ⟨hc, hw⟩ := h c List.mem_cons_self
    obtain ⟨string', rfl, hrest⟩ := (denotes_char hc hw (bytes ++ input)).1 hd
    obtain ⟨string'', rfl⟩ := ih (fun d hd => h d (List.mem_cons_of_mem _ hd)) hrest
    exact ⟨string'', rfl⟩

theorem escapeLoop_backslash (input : Text) :
    escapeLoop toEscape false (backslash :: input) = escapeLoop toEscape true input := by
  rw [escapeLoop, if_neg (by decide), if_pos rfl]

theorem escapeLoop_pending (c : UInt8) (input : Text) :
    escapeLoop toEscape true (c :: input) = escapeChar c ++ escapeLoop toEscape false input := by
  rw [escapeLoop]

theorem denotes_backslash :
    Denotes (escapeChar backslash ++ text) (backslash :: string) ↔ Denotes text string := by
  have hhigh : (Item.escape .backslash).high? = none := rfl
  exact denotes_append hhigh

theorem decodes_plain (h : c ≠ backslash) (hw : isWritable c) (text : Text) :
    Decodes false (c :: text) (c :: string) ↔ Decodes false text string :=
  decodes_of_map (unescapeHexunicode_cons h text) fun input _ =>
    (denotes_plain h hw input).trans (and_iff_right rfl)

def QuotedEscape.item? : QuotedEscape → Option Item
  | quote => some (.escape .quote)
  | backslash => some (.escape .backslash)
  | slash => some (.plain 0x2F (by decide))
  | space => some (.plain 0x20 (by decide))
  | b => some (.escape .b)
  | f => some (.escape .f)
  | n => some (.escape .n)
  | r => some (.escape .r)
  | tab | t => some (.escape .t)
  | a | v => none

theorem item_of_escape {e : QuotedEscape} (h : e.item? = some item) :
    escapeChar e.byte = item.text ∧ item.denotes = [e.denotes] ∧ item.high? = none ∧
      e.isKept false = true := by
  cases e <;> cases h <;> exact ⟨rfl, rfl, rfl, rfl⟩

theorem no_item_of_escape {e : QuotedEscape} (h : e.item? = none) :
    escapeChar e.byte = [backslash, e.byte] ∧ (∀ letter : Letter, letter.byte ≠ e.byte) ∧
      e.byte ≠ 0x75 ∧ e.isKept false = false := by
  have hletter : ∀ c : UInt8, c ∈ [0x61, 0x76] → ∀ letter : Letter, letter.byte ≠ c := by
    intro c hc letter
    cases letter <;> rintro rfl <;> revert hc <;> decide
  cases e
  case a => exact ⟨rfl, hletter _ (by decide), by decide, rfl⟩
  case v => exact ⟨rfl, hletter _ (by decide), by decide, rfl⟩
  all_goals cases h

theorem escape_byte {e : QuotedEscape} (h : e ≠ .backslash) :
    e.byte ≠ backslash ∧ escapeDigits e.byte = none ∧ isWritable e.byte := by
  cases e
  case backslash => exact absurd rfl h
  case tab => exact ⟨by decide, rfl, .inr rfl⟩
  all_goals exact ⟨by decide, rfl, .inl (by decide)⟩

theorem isKept_pending (e : QuotedEscape) (h : e ≠ .backslash) :
    e.isKept true = true ↔ e.denotes = e.byte := by
  cases e
  case backslash => exact absurd rfl h
  all_goals decide

theorem unescape_quoted {e : QuotedEscape} (h : e ≠ .backslash) (text : Text) :
    unescapeHexunicode (backslash :: e.byte :: text) =
      (unescapeHexunicode text).map fun input => backslash :: e.byte :: input := by
  obtain ⟨hbyte, hdigits, -⟩ := escape_byte h
  rw [unescapeHexunicode_of_not_starts (not_starts (startsEscape_of_none hdigits text)),
    unescapeHexunicode_cons hbyte]
  cases unescapeHexunicode text <;> rfl

theorem unescape_backslash (h : startsEscape text = false) :
    unescapeHexunicode (backslash :: backslash :: text) =
      (unescapeHexunicode text).map fun input => backslash :: backslash :: input := by
  rw [unescapeHexunicode_of_not_starts (not_starts (startsEscape_of_none rfl text)),
    unescapeHexunicode_of_not_starts (not_starts h)]
  cases unescapeHexunicode text <;> rfl

theorem decodes_escape {e : QuotedEscape} (h : e ≠ .backslash) (text : Text) :
    Decodes false (backslash :: e.byte :: text) (e.denotes :: string) ↔
      e.isKept false = true ∧ Decodes false text string := by
  cases hitem : e.item? with
  | some item =>
    obtain ⟨htext, hdenotes, hhigh, hkept⟩ := item_of_escape hitem
    rw [and_iff_right hkept]
    refine decodes_of_map (unescape_quoted h text) fun input _ => ?_
    rw [escapeLoop_backslash, escapeLoop_pending, htext, ← List.singleton_append, ← hdenotes]
    exact denotes_append hhigh
  | none =>
    obtain ⟨htext, hletter, hu, hkept⟩ := no_item_of_escape hitem
    refine iff_of_false (fun hd => ?_) fun hboth => Bool.false_ne_true (hkept ▸ hboth.1)
    obtain ⟨out, hout, hd⟩ := hd
    rw [unescape_quoted h] at hout
    obtain ⟨input, -, rfl⟩ := map_eq_ok.1 hout
    rw [escapeLoop_backslash, escapeLoop_pending, htext] at hd
    exact not_denotes_escape hletter (fun heq => absurd heq hu) hd

theorem decodes_escape_pending {e : QuotedEscape} (h : e ≠ .backslash) (text : Text) :
    Decodes true (backslash :: e.byte :: text) (backslash :: e.denotes :: string) ↔
      e.isKept true = true ∧ Decodes false text string := by
  obtain ⟨hbyte, -, hw⟩ := escape_byte h
  have hpending : ∀ input, Denotes (escapeLoop toEscape true (backslash :: e.byte :: input))
      (backslash :: e.denotes :: string) ↔
        e.isKept true = true ∧ Denotes (escapeLoop toEscape false input) string := by
    intro input
    rw [escapeLoop_pending, isKept_pending e h]
    exact denotes_backslash.trans (denotes_plain hbyte hw input)
  by_cases hkept : e.isKept true = true
  · rw [and_iff_right hkept]
    exact decodes_of_map (unescape_quoted h text) fun input _ =>
      (hpending input).trans (and_iff_right hkept)
  · refine iff_of_false (fun hd => ?_) fun hboth => hkept hboth.1
    obtain ⟨out, hout, hd⟩ := hd
    rw [unescape_quoted h] at hout
    obtain ⟨input, -, rfl⟩ := map_eq_ok.1 hout
    exact hkept ((hpending input).1 hd).1

theorem decodes_backslash (h : startsEscape text = false) (pending : Bool) :
    Decodes pending (backslash :: backslash :: text) (backslash :: string) ↔
      Decodes pending text string := by
  refine decodes_of_map (unescape_backslash h) fun input _ => ?_
  cases pending with
  | false =>
    rw [escapeLoop_backslash, escapeLoop_pending]
    exact denotes_backslash
  | true =>
    rw [escapeLoop_pending, escapeLoop_backslash]
    exact denotes_backslash

theorem kind_digits (h : escapeDigits kind = some n) : 2 ≤ n ∧ n ≤ 8 := by
  rw [escapeDigits] at h
  split at h
  · cases h
    decide
  · split at h
    · cases h
      decide
    · split at h
      · cases h
        decide
      · cases h

theorem stoul_digits {digits : List Hex} (hkind : escapeDigits kind = some digits.length) :
    stoul (digits.map Hex.byte) = .ok (codeOf digits) := by
  obtain ⟨hlow, hhigh⟩ := kind_digits hkind
  cases digits with
  | nil => exact absurd hlow (by decide)
  | cons d ds =>
    rw [← List.append_nil ((d :: ds).map Hex.byte)]
    refine stoul_hexes d ds ?_ rfl (by simp)
    rw [List.length_cons] at hhigh
    omega

theorem unescape_code {digits : List Hex} (hkind : escapeDigits kind = some digits.length)
    (hvalid : (codeOf digits).isValidChar) (text : Text) :
    unescapeHexunicode (backslash :: kind :: (digits.map Hex.byte ++ text)) =
      (unescapeHexunicode text).map (writeRune (codeOf digits) ++ ·) := by
  have hlen : (digits.map Hex.byte).length = digits.length := List.length_map _
  have hstarts : StartsEscape (kind :: (digits.map Hex.byte ++ text))
      (digits.map Hex.byte ++ text) digits.length :=
    ⟨kind, rfl, hkind, by rw [List.length_append, hlen]; omega⟩
  have hmod : codeOf digits % 2 ^ 32 = codeOf digits := by
    apply Nat.mod_eq_of_lt
    rcases hvalid with h | h <;> omega
  rw [unescapeHexunicode_of_starts hstarts, List.take_left' hlen, List.drop_left' hlen,
    stoul_digits hkind]
  show (unescapeHexunicode text).map (writeRune (codeOf digits % 2 ^ 32) ++ ·) = _
  rw [hmod]

theorem writeRune_writable (h : value ≠ 0x5C) (hw : 0x20 ≤ value ∨ value ∈ [0x09, 0x0A, 0x0D]) :
    ∀ c ∈ writeRune value, c ≠ backslash ∧ isWritable c := by
  by_cases hv : value ≤ max1
  · intro c hc
    rw [writeRune_ascii hv] at hc
    obtain rfl := List.mem_singleton.1 hc
    refine ⟨ofNat_ne_backslash hv h, ?_⟩
    rcases hw with hw | hw
    · left
      rw [UInt8.le_iff_toNat_le, UInt8.toNat_ofNat', Nat.mod_eq_of_lt (Nat.lt_of_le_of_lt hv (by decide))]
      exact hw
    · right
      simp only [List.mem_cons, List.not_mem_nil, or_false] at hw
      rcases hw with rfl | rfl | rfl <;> rfl
  · intro c hc
    have hhigh := writeRune_high hv c hc
    refine ⟨?_, .inl (UInt8.le_trans (by decide) hhigh)⟩
    rintro rfl
    exact absurd hhigh (by decide)

theorem decodes_code {digits : List Hex} (hkind : escapeDigits kind = some digits.length)
    (hvalid : (codeOf digits).isValidChar) (h : codeOf digits ≠ 0x5C) (text : Text) :
    Decodes false (backslash :: kind :: (digits.map Hex.byte ++ text))
        (encodeUtf8 (codeOf digits) ++ string) ↔
      (0x20 ≤ codeOf digits ∨ codeOf digits ∈ [0x09, 0x0A, 0x0D]) ∧ Decodes false text string := by
  rw [encodeUtf8_eq]
  by_cases hw : 0x20 ≤ codeOf digits ∨ codeOf digits ∈ [0x09, 0x0A, 0x0D]
  · rw [and_iff_right hw]
    exact decodes_of_map (unescape_code hkind hvalid text) fun input _ =>
      denotes_bytes (writeRune_writable h hw) input
  · refine iff_of_false (fun hd => ?_) fun hboth => hw hboth.1
    obtain ⟨out, hout, hd⟩ := hd
    rw [unescape_code hkind hvalid] at hout
    obtain ⟨input, -, rfl⟩ := map_eq_ok.1 hout
    rw [not_or] at hw
    have hlt : codeOf digits < 0x20 := Nat.lt_of_not_le hw.1
    have hv : codeOf digits ≤ max1 := Nat.le_trans (Nat.le_of_lt hlt) (by decide)
    rw [writeRune_ascii hv, List.singleton_append] at hd
    have hne := ofNat_ne_backslash hv h
    have hcontrol : ¬ isWritable (UInt8.ofNat (codeOf digits)) := by
      have hall : ∀ value < 0x20, value ∉ [0x09, 0x0A, 0x0D] →
          ¬ 0x20 ≤ UInt8.ofNat value ∧ isSpaceChar (UInt8.ofNat value) = false := by decide
      obtain ⟨hge, hspace⟩ := hall _ hlt hw.2
      intro hwritable
      exact hwritable.elim hge fun htrue => Bool.false_ne_true (hspace ▸ htrue)
    have hmem : UInt8.ofNat (codeOf digits) ∉ toEscape := fun hmem =>
      hcontrol (writable_of_mem (sound_quoteEscape .double) (List.mem_cons_of_mem _ hmem))
    rw [escapeLoop, if_neg hmem, if_neg hne, if_neg fun hspace => hcontrol (.inr hspace)] at hd
    exact not_denotes_control List.mem_cons_self (fun hge => hcontrol (.inl hge)) hd

theorem decodes_code_backslash {digits : List Hex}
    (hkind : escapeDigits kind = some digits.length) (hvalid : (codeOf digits).isValidChar)
    (h : codeOf digits = 0x5C) (text : Text) :
    Decodes false (backslash :: kind :: (digits.map Hex.byte ++ text)) string ↔
      Decodes true text string := by
  refine decodes_of_map (unescape_code hkind hvalid text) fun input _ => ?_
  rw [h]
  exact Iff.of_eq (congrArg (Denotes · string) (escapeLoop_backslash input))

end Trieste.Yaml
