import Mathlib.Data.List.Basic
import Trieste.Library.ShortCircuit
import Trieste.Utf8.Unescape

namespace Trieste.Json
set_option autoImplicit true
open Utf8 Library

/-- The letter that stands for a character behind a backslash, where `escape` writes one. -/
def escapeLetter (c : UInt8) : Option UInt8 :=
  if c = 0x08 then some 0x62
  else if c = 0x0C then some 0x66
  else if c = 0x0A then some 0x6E
  else if c = 0x0D then some 0x72
  else if c = 0x09 then some 0x74
  else if c = backslash then some backslash
  else if c = 0x22 then some 0x22
  else none

/-- `escape` -/
def escape : List UInt8 → List UInt8
  | [] => []
  | c :: string =>
    match escapeLetter c with
    | some letter => backslash :: letter :: escape string
    | none => c :: escape string

/-- The character that a letter behind a backslash stands for. -/
def unescapeLetter (letter : UInt8) : Option UInt8 :=
  if letter = 0x62 then some 0x08
  else if letter = 0x66 then some 0x0C
  else if letter = 0x6E then some 0x0A
  else if letter = 0x72 then some 0x0D
  else if letter = 0x74 then some 0x09
  else if letter = backslash ∨ letter = 0x2F ∨ letter = 0x22 then some letter
  else none

def invalidEscape : Exception := .runtimeError "Invalid escape sequence"

/-- The loop of `unescape` over the decoded text. Behind a backslash at the end it reads the
terminating zero of the string. -/
def unescapeLetters : List UInt8 → Except Exception (List UInt8)
  | [] => .ok []
  | [c] => if c = backslash then .error invalidEscape else .ok [c]
  | c :: letter :: rest =>
    if c = backslash then
      match unescapeLetter letter with
      | some value => (unescapeLetters rest).map (value :: ·)
      | none => .error invalidEscape
    else (unescapeLetters (letter :: rest)).map (c :: ·)

/-- `unescape` -/
def unescape (string : List UInt8) : Except Exception (List UInt8) :=
  (unescapeHexunicode string).bind unescapeLetters

theorem unescapeLetters_cons (h : c ≠ backslash) (rest : List UInt8) :
    unescapeLetters (c :: rest) = (unescapeLetters rest).map (c :: ·) := by
  cases rest with
  | nil => simp [unescapeLetters, h, Except.map]
  | cons letter rest => rw [unescapeLetters, if_neg h]

theorem unescapeLetters_backslash (letter : UInt8) (rest : List UInt8) :
    unescapeLetters (backslash :: letter :: rest) =
      match unescapeLetter letter with
      | some value => (unescapeLetters rest).map (value :: ·)
      | none => .error invalidEscape := by
  rw [unescapeLetters, if_pos rfl]

theorem unescapeLetter_escapeLetter (h : escapeLetter c = some letter) :
    unescapeLetter letter = some c := by
  unfold escapeLetter at h
  repeat' split at h
  all_goals cases h
  all_goals subst c; rfl

theorem escapeLetter_eq_none (h : escapeLetter c = none) : c ≠ backslash := by
  rintro rfl
  cases h

theorem escapeLetter_eq_backslash (h : escapeLetter c = some backslash) : c = backslash := by
  have := unescapeLetter_escapeLetter h
  cases this
  rfl

theorem escapeDigits_escapeLetter (h : escapeLetter c = some letter) :
    escapeDigits letter = none := by
  unfold escapeLetter at h
  repeat' split at h
  all_goals cases h
  all_goals rfl

/-- The bytes that `escape` writes with a backslash. -/
def needsEscape (c : UInt8) : Bool := (escapeLetter c).isSome

theorem length_escape (string : List UInt8) :
    (escape string).length = string.length + string.countP needsEscape := by
  induction string with
  | nil => rfl
  | cons c string ih =>
    cases hc : escapeLetter c with
    | some letter => simp [escape, needsEscape, hc, ih]; omega
    | none => simp [escape, needsEscape, hc, ih]; omega

/-- The number of characters, where a backslash and its letter count once. -/
def unescapedLength : List UInt8 → Nat
  | [] => 0
  | [_] => 1
  | c :: letter :: rest =>
    if c = backslash then unescapedLength rest + 1 else unescapedLength (letter :: rest) + 1

theorem unescapedLength_cons (h : c ≠ backslash) (rest : List UInt8) :
    unescapedLength (c :: rest) = unescapedLength rest + 1 := by
  cases rest with
  | nil => rfl
  | cons letter rest => exact if_neg h

theorem unescapedLength_backslash (letter : UInt8) (rest : List UInt8) :
    unescapedLength (backslash :: letter :: rest) = unescapedLength rest + 1 := rfl

theorem unescapedLength_cons_le (c : UInt8) (rest : List UInt8) :
    unescapedLength rest ≤ unescapedLength (c :: rest) ∧
      unescapedLength (c :: rest) ≤ unescapedLength rest + 1 := by
  induction rest generalizing c with
  | nil => exact ⟨Nat.zero_le _, Nat.le_refl _⟩
  | cons letter rest ih =>
    by_cases h : c = backslash
    · subst c
      rw [unescapedLength_backslash]
      have := ih letter
      omega
    · rw [unescapedLength_cons h]
      omega

theorem unescapedLength_drop_le (text : List UInt8) (n : Nat) :
    unescapedLength (text.drop n) ≤ unescapedLength text := by
  induction n generalizing text with
  | zero => exact Nat.le_refl _
  | succ n ih =>
    cases text with
    | nil => exact Nat.le_refl _
    | cons c text => exact Nat.le_trans (ih text) (unescapedLength_cons_le c text).1

theorem plainLength_add_le (text : List UInt8) (n : Nat) :
    plainLength (text.take n) + unescapedLength (text.drop n) ≤ unescapedLength text := by
  induction n generalizing text with
  | zero => simp [plainLength]
  | succ n ih =>
    cases text with
    | nil => simp [plainLength]
    | cons c text =>
      rw [List.take_succ_cons, List.drop_succ_cons]
      by_cases h : c = backslash
      · subst c
        have hle := unescapedLength_drop_le text n
        have hc := unescapedLength_cons_le backslash text
        simp only [plainLength, if_true]
        omega
      · rw [plainLength_cons h, unescapedLength_cons h]
        have := ih text
        omega

theorem unescapedLength_escape (string : List UInt8) :
    unescapedLength (escape string) = string.length := by
  induction string with
  | nil => rfl
  | cons c string ih =>
    rw [escape]
    split
    · rw [unescapedLength_backslash, ih]
      rfl
    · rw [unescapedLength_cons (escapeLetter_eq_none ‹_›), ih]
      rfl

theorem unescapeLetter_high (h : 0x80 ≤ c) : unescapeLetter c = none := by
  have hne : ∀ d : UInt8, ¬ 0x80 ≤ d → c ≠ d := by
    intro d hd hc
    exact hd (hc ▸ h)
  rw [unescapeLetter, if_neg (hne _ (by decide)), if_neg (hne _ (by decide)),
    if_neg (hne _ (by decide)), if_neg (hne _ (by decide)), if_neg (hne _ (by decide)), if_neg]
  intro hc
  rcases hc with hc | hc | hc
  all_goals exact hne _ (by decide) hc

theorem unescapeLetters_high {bytes : List UInt8} (h : ∀ c ∈ bytes, 0x80 ≤ c)
    (rest : List UInt8) :
    unescapeLetters (bytes ++ rest) = (unescapeLetters rest).map (bytes ++ ·) := by
  induction bytes with
  | nil =>
    rw [List.nil_append]
    cases unescapeLetters rest <;> rfl
  | cons c bytes ih =>
    have hc : c ≠ backslash := by
      rintro rfl
      exact absurd (h backslash (.head _)) (by decide)
    rw [List.cons_append, unescapeLetters_cons hc, ih fun d hd => h d (.tail _ hd)]
    cases unescapeLetters rest <;> rfl

theorem unescapeLetters_backslash_rune
    (h : unescapeLetters (backslash :: (writeRune value ++ v)) = .ok out) :
    ∃ c out', unescapeLetters v = .ok out' ∧ out = c :: out' := by
  have hletter : ∃ letter bytes, writeRune value = letter :: bytes ∧
      (bytes = [] ∨ 0x80 ≤ letter) := by
    by_cases hv : value ≤ max1
    · exact ⟨_, _, writeRune_ascii hv, .inl rfl⟩
    · rcases hw : writeRune value with _ | ⟨letter, bytes⟩
      · exact absurd hw (writeRune_ne_nil value)
      · exact ⟨letter, bytes, rfl, .inr (writeRune_high hv letter (by simp [hw]))⟩
  obtain ⟨letter, bytes, hw, hb⟩ := hletter
  rw [hw, List.cons_append, unescapeLetters_backslash] at h
  split at h
  · obtain rfl : bytes = [] := by
      rcases hb with hb | hb
      · exact hb
      · simp [unescapeLetter_high hb] at *
    obtain ⟨out', hout, rfl⟩ := map_eq_ok.1 h
    exact ⟨_, out', hout, rfl⟩
  · cases h

theorem length_unescape_le (text : List UInt8) : ∀ v, unescapeHexunicode text = .ok v →
    (∀ out, unescapeLetters v = .ok out → out.length ≤ unescapedLength text) ∧
    (∀ out, unescapeLetters (backslash :: v) = .ok out →
      out.length ≤ unescapedLength (backslash :: text)) := by
  induction text using unescapeHexunicode.induct with
  | case1 =>
    intro v hv
    rw [unescapeHexunicode] at hv
    cases hv
    constructor
    · intro out hout
      cases hout
      exact Nat.le_refl _
    · intro out hout
      cases hout
  | case2 rest ih =>
    intro v hv
    by_cases hs : ∃ digits n, StartsEscape rest digits n
    · obtain ⟨digits, n, hs⟩ := hs
      rw [unescapeHexunicode_of_starts hs] at hv
      obtain ⟨value, hstoul, hv⟩ := bind_eq_ok.1 hv
      obtain ⟨v', hv', rfl⟩ := map_eq_ok.1 hv
      obtain ⟨kind, rfl, -, -⟩ := hs
      have ih := ih (min (n + 2) (digits.length + 2))
      rw [drop_escape] at ih
      obtain ⟨ihplain, ihletter⟩ := ih v' hv'
      have hsize := length_writeRune_stoul hstoul
      have hplain := plainLength_add_le digits n
      rw [unescapedLength_backslash]
      constructor
      · intro out hout
        by_cases hascii : value % 2 ^ 32 ≤ max1
        · rw [writeRune_ascii hascii, List.singleton_append] at hout
          by_cases hb : UInt8.ofNat (value % 2 ^ 32) = backslash
          · rw [hb] at hout
            have hout := ihletter out hout
            have := (unescapedLength_cons_le backslash (digits.drop n)).2
            omega
          · rw [unescapeLetters_cons hb] at hout
            obtain ⟨out', hout', rfl⟩ := map_eq_ok.1 hout
            have := ihplain out' hout'
            rw [List.length_cons]
            omega
        · rw [unescapeLetters_high (writeRune_high hascii)] at hout
          obtain ⟨out', hout', rfl⟩ := map_eq_ok.1 hout
          have := ihplain out' hout'
          rw [List.length_append]
          omega
      · intro out hout
        obtain ⟨c, out', hout', rfl⟩ := unescapeLetters_backslash_rune hout
        have := ihplain out' hout'
        have := (unescapedLength_cons_le kind digits).1
        rw [unescapedLength_backslash, List.length_cons]
        omega
    · have hs : ∀ digits n, ¬ StartsEscape rest digits n := fun digits n h => hs ⟨digits, n, h⟩
      rw [unescapeHexunicode_of_not_starts hs] at hv
      obtain ⟨v', hv', rfl⟩ := map_eq_ok.1 hv
      obtain ⟨ihplain, ihletter⟩ := ih 1 v' hv'
      constructor
      · exact ihletter
      · intro out hout
        rw [unescapeLetters_backslash] at hout
        obtain ⟨out', hout', rfl⟩ := map_eq_ok.1 hout
        exact Nat.succ_le_succ (ihplain out' hout')
  | case3 c rest hc ih =>
    intro v hv
    rw [unescapeHexunicode_cons hc] at hv
    obtain ⟨v', hv', rfl⟩ := map_eq_ok.1 hv
    have ih := (ih v' hv').1
    constructor
    · intro out hout
      rw [unescapeLetters_cons hc] at hout
      obtain ⟨out', hout', rfl⟩ := map_eq_ok.1 hout
      rw [unescapedLength_cons hc]
      exact Nat.succ_le_succ (ih out' hout')
    · intro out hout
      rw [unescapeLetters_backslash] at hout
      split at hout
      · obtain ⟨out', hout', rfl⟩ := map_eq_ok.1 hout
        exact Nat.succ_le_succ (ih out' hout')
      · cases hout

theorem length_unescape_lt (hs : StartsEscape rest digits n)
    (hv : unescapeHexunicode (backslash :: rest) = .ok v)
    (hout : unescapeLetters (backslash :: v) = .ok out) :
    out.length < unescapedLength rest + 1 := by
  rw [unescapeHexunicode_of_starts hs] at hv
  obtain ⟨value, -, hv⟩ := bind_eq_ok.1 hv
  obtain ⟨v', hv', rfl⟩ := map_eq_ok.1 hv
  obtain ⟨c, out', hout', rfl⟩ := unescapeLetters_backslash_rune hout
  obtain ⟨kind, rfl, hkind, -⟩ := hs
  have hle := (length_unescape_le _ v' hv').1 out' hout'
  have hdrop := unescapedLength_drop_le digits n
  have hne : kind ≠ backslash := by
    rintro rfl
    cases hkind
  rw [unescapedLength_cons hne, List.length_cons]
  omega

/-- Behind a backslash this text is read as an escape once it is escaped itself: it starts with
`x`, `u` or `U`, and enough characters follow when the escaped ones count twice. -/
def hidesEscape : List UInt8 → Bool
  | [] => false
  | kind :: digits =>
    match escapeDigits kind with
    | some n => decide (n ≤ digits.length + digits.countP needsEscape + 1)
    | none => false

theorem not_startsEscape_of_none (h : escapeDigits kind = none) :
    ¬ StartsEscape (kind :: rest) digits n := by
  intro hs
  obtain ⟨kind', he, hn, -⟩ := hs
  cases he
  cases h.symm.trans hn

theorem not_escapeDigits_of_escapeLetter (h : escapeLetter c = some letter) :
    escapeDigits c = none := by
  unfold escapeLetter at h
  repeat' split at h
  all_goals first | cases h; done | (subst c; rfl)

theorem hidesEscape_iff (string : List UInt8) :
    hidesEscape string = true ↔ ∃ digits n, StartsEscape (escape string) digits n := by
  cases string with
  | nil =>
    constructor
    · intro h
      cases h
    · intro h
      obtain ⟨digits, n, kind, h, -⟩ := h
      cases h
  | cons kind digits =>
    cases hk : escapeLetter kind with
    | some letter =>
      constructor
      · intro h
        simp [hidesEscape, not_escapeDigits_of_escapeLetter hk] at h
      · intro h
        obtain ⟨digits', n, h⟩ := h
        simp only [escape, hk] at h
        exact absurd h (not_startsEscape_of_none rfl)
    | none =>
      simp only [escape, hk, hidesEscape]
      constructor
      · intro h
        split at h
        · have hlen := length_escape digits
          exact ⟨escape digits, _, kind, rfl, ‹_›, by simp at h; omega⟩
        · cases h
      · intro h
        obtain ⟨digits', n, kind', he, hn, hlen⟩ := h
        cases he
        rw [length_escape] at hlen
        simp only [hn, decide_eq_true_eq]
        exact hlen

theorem unescape_cons (h : c ≠ backslash) (rest : List UInt8) :
    unescape (c :: rest) = (unescape rest).map (c :: ·) := by
  rw [unescape, unescapeHexunicode_cons h, unescape]
  rcases unescapeHexunicode rest with e | v
  · rfl
  · exact unescapeLetters_cons h v

theorem unescape_letter (h : unescapeLetter letter = some c) (hne : letter ≠ backslash)
    (hkind : escapeDigits letter = none) (rest : List UInt8) :
    unescape (backslash :: letter :: rest) = (unescape rest).map (c :: ·) := by
  rw [unescape, unescapeHexunicode_of_not_starts fun _ _ => not_startsEscape_of_none hkind,
    unescapeHexunicode_cons hne, unescape]
  rcases unescapeHexunicode rest with e | v
  · rfl
  · show unescapeLetters (backslash :: letter :: v) = _
    rw [unescapeLetters_backslash, h]
    rfl

theorem unescape_backslashes (h : ∀ digits n, ¬ StartsEscape rest digits n) :
    unescape (backslash :: backslash :: rest) = (unescape rest).map (backslash :: ·) := by
  rw [unescape, unescapeHexunicode_of_not_starts fun _ _ => not_startsEscape_of_none rfl,
    unescapeHexunicode_of_not_starts h, unescape]
  cases unescapeHexunicode rest <;> rfl

/-- One character survives, unless it is a backslash that hides an escape. -/
theorem unescape_escape_cons (h : c = backslash → hidesEscape string = false) :
    unescape (escape (c :: string)) = (unescape (escape string)).map (c :: ·) := by
  rw [escape]
  split
  · rename_i letter hletter
    by_cases hc : c = backslash
    · subst c
      cases hletter
      apply unescape_backslashes
      intro digits n hs
      have hhides := (hidesEscape_iff string).2 ⟨digits, n, hs⟩
      cases hhides.symm.trans (h rfl)
    · apply unescape_letter (unescapeLetter_escapeLetter hletter)
      · rintro rfl
        exact hc (escapeLetter_eq_backslash hletter)
      · exact escapeDigits_escapeLetter hletter
  · exact unescape_cons (escapeLetter_eq_none ‹_›) _

theorem unescape_escape_ne (h : hidesEscape string = true) :
    unescape (escape (backslash :: string)) ≠ .ok (backslash :: string) := by
  intro hout
  obtain ⟨digits, n, hs⟩ := (hidesEscape_iff string).1 h
  change unescape (backslash :: backslash :: escape string) = _ at hout
  rw [unescape, unescapeHexunicode_of_not_starts fun _ _ => not_startsEscape_of_none rfl] at hout
  obtain ⟨w, hw, hout⟩ := bind_eq_ok.1 hout
  obtain ⟨v, hv, rfl⟩ := map_eq_ok.1 hw
  have hlt := length_unescape_lt hs hv hout
  rw [unescapedLength_escape, List.length_cons] at hlt
  exact Nat.lt_irrefl _ hlt

/-- Unescaping an escaped string gives it back exactly when no backslash in it hides an escape. -/
theorem unescape_escape (string : List UInt8) :
    unescape (escape string) = .ok string ↔
      ∀ rest, (backslash :: rest) <:+ string → hidesEscape rest = false := by
  induction string with
  | nil =>
    constructor
    · intro _ rest h
      cases List.suffix_nil.1 h
    · intro _
      rw [escape, unescape, unescapeHexunicode]
      rfl
  | cons c string ih =>
    by_cases hc : c = backslash ∧ hidesEscape string = true
    · obtain ⟨rfl, hhides⟩ := hc
      constructor
      · intro h
        exact absurd h (unescape_escape_ne hhides)
      · intro h
        cases hhides.symm.trans (h string List.suffix_rfl)
    · rw [unescape_escape_cons fun h => Bool.not_eq_true _ ▸ fun hs => hc ⟨h, hs⟩]
      constructor
      · intro h rest hrest
        obtain ⟨string', hs, he⟩ := map_eq_ok.1 h
        cases he
        rcases List.suffix_cons_iff.1 hrest with he | hrest
        · cases he
          exact Bool.not_eq_true _ ▸ fun hs => hc ⟨rfl, hs⟩
        · exact ih.1 hs rest hrest
      · intro h
        rw [ih.2 fun rest hrest => h rest (hrest.trans (List.suffix_cons _ _))]
        rfl

/-- The text `\u0041`. -/
def escapedLetterA : List UInt8 := [0x5C, 0x75, 0x30, 0x30, 0x34, 0x31]

theorem unescape_escape_throws :
    (∀ c ∈ escapedLetterA, c < 0x80) ∧
      unescape (escape escapedLetterA) = .error invalidEscape := by
  constructor
  · intro c hc
    simp only [escapedLetterA, List.mem_cons, List.not_mem_nil, or_false] at hc
    rcases hc with rfl | rfl | rfl | rfl | rfl | rfl <;> decide
  · have hescape : escape escapedLetterA = backslash :: backslash :: escapedLetterA.tail := rfl
    have hfirst : ∀ digits n, ¬ StartsEscape (backslash :: escapedLetterA.tail) digits n :=
      fun _ _ => not_startsEscape_of_none rfl
    have hstarts : StartsEscape escapedLetterA.tail [0x30, 0x30, 0x34, 0x31] 4 :=
      ⟨0x75, rfl, rfl, by decide⟩
    have hnil : unescapeHexunicode (List.drop 4 [0x30, 0x30, 0x34, 0x31]) = .ok [] := by
      rw [unescapeHexunicode.eq_def]
      rfl
    rw [hescape, unescape, unescapeHexunicode_of_not_starts hfirst,
      unescapeHexunicode_of_starts hstarts, hnil]
    rfl

end Trieste.Json
