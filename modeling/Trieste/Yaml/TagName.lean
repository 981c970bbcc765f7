import Mathlib.Algebra.Group.Int.Defs
import Trieste.Utf8.Hex

namespace Trieste.Yaml
set_option autoImplicit true
open Utf8

def percent : UInt8 := 0x25

/-- A rule of the lexer for the name of a tag, which is one or more characters or percent signs
with digits. -/
structure TagRule where
  /-- The name stands between `<` and `>`. -/
  verbatim : Bool
  /-- The characters other than `\w`. -/
  marks : String
  /-- A percent sign has exactly two digits, and otherwise one or more. -/
  twoDigits : Bool

namespace TagRule

def documentVerbatim : TagRule := ⟨true, "#;/?:@&=+$,_.!~*'()[]\x7b\x7d", false⟩

def documentShorthand : TagRule := ⟨false, "#;/?:@&=+$,_.!~*'()[]\x7b\x7d", false⟩

def flowVerbatim : TagRule := ⟨true, "#;/?:@&=+$,_.!~*'()", false⟩

def flowShorthand : TagRule := ⟨false, "#;/?:@&=+$_.~*'()", true⟩

def all : List TagRule := [documentVerbatim, documentShorthand, flowVerbatim, flowShorthand]

end TagRule

def isDigit (c : UInt8) : Bool := 0x30 ≤ c && c ≤ 0x39

/-- `\w` -/
def isWord (c : UInt8) : Bool :=
  isDigit c || (0x41 ≤ c && c ≤ 0x5A) || (0x61 ≤ c && c ≤ 0x7A) || c == 0x5F

namespace TagRule

def isChar (r : TagRule) (c : UInt8) : Bool := isWord c || r.marks.toUTF8.toList.contains c

/-- What the alternatives of the rule match. -/
inductive IsItem (r : TagRule) : List UInt8 → Prop
  | char (h : r.isChar c = true) : IsItem r [c]
  | escape (hdigits : ∀ d ∈ digits, isDigit d = true)
      (hlen : if r.twoDigits then digits.length = 2 else digits ≠ []) : IsItem r (percent :: digits)

def IsName (r : TagRule) (name : List UInt8) : Prop :=
  ∃ items, items ≠ [] ∧ (∀ item ∈ items, r.IsItem item) ∧
    name = if r.verbatim then 0x3C :: items.flatten ++ [0x3E] else items.flatten

end TagRule

/-- `std::stoi(s, 0, 16)` -/
def stoi (s : List UInt8) : Except Exception Int :=
  let (negative, s) := takeSign (s.dropWhile isSpace)
  let digits := hexDigits (dropHexMark s)
  if digits = [] then .error .invalidArgument
  else
    let value : Int := if negative then -ofDigits digits else ofDigits digits
    if value < -2 ^ 31 ∨ 2 ^ 31 ≤ value then .error .outOfRange else .ok value

/-- Why the unescaping gives no text: it reads characters after its argument, or throws. -/
inductive UrlFault
  | pastEnd
  | throws (e : Exception)
  deriving DecidableEq

/-- `unescape_url_chars` -/
def unescapeUrlChars : List UInt8 → Except UrlFault (List UInt8)
  | [] => .ok []
  | c :: rest =>
    if c = percent then
      match rest with
      | high :: low :: rest =>
        ((stoi [high, low]).mapError .throws).bind fun code =>
          (unescapeUrlChars rest).map (UInt8.ofInt code :: ·)
      | _ => .error .pastEnd
    else (unescapeUrlChars rest).map (c :: ·)

/-- The text with each percent sign that two hexadecimal digits follow replaced by their byte. -/
def percentDecoded : List UInt8 → List UInt8
  | c :: high :: low :: rest =>
    if c = percent ∧ (hexDigit high).isSome ∧ (hexDigit low).isSome then
      UInt8.ofNat (ofDigits (hexDigits [high, low])) :: percentDecoded rest
    else c :: percentDecoded (high :: low :: rest)
  | s => s

def PercentsFollowed (p : List UInt8 → Prop) (s : List UInt8) : Prop :=
  ∀ before after, s = before ++ percent :: after → p after

def HexPair (s : List UInt8) : Prop :=
  ∃ high low rest, s = high :: low :: rest ∧ (hexDigit high).isSome ∧ (hexDigit low).isSome

/-- Each percent sign is followed by two hexadecimal digits. -/
def Escapes (s : List UInt8) : Prop := PercentsFollowed HexPair s

theorem isDigit_hex : ∀ c, isDigit c = true →
    hexDigit c = some (c.toNat - 0x30) ∧ c.toNat - 0x30 < 10 :=
  forall_byte (by decide +kernel)

theorem not_percent_hex (h : (hexDigit c).isSome) : c ≠ percent := by
  rintro rfl
  cases h

theorem hexDigits_pair (high : Hex) (c : UInt8) : hexDigits (dropHexMark [high.byte, c]) =
    high.digit :: (hexDigit c).toList := by
  have hmark : dropHexMark [high.byte, c] = [high.byte, c] := rfl
  rw [hmark, hexDigits, high.read]
  simp only [hexDigits]
  cases hexDigit c <;> rfl

theorem ofDigits_pair_lt (high : Hex) (c : UInt8) :
    ofDigits (high.digit :: (hexDigit c).toList) < 256 := by
  have hhigh := high.digit_lt
  cases hc : hexDigit c with
  | none =>
    simp only [ofDigits, Option.toList_none, List.foldl_cons, List.foldl_nil]
    omega
  | some low =>
    have hlow := hexDigit_lt hc
    simp only [ofDigits, Option.toList_some, List.foldl_cons, List.foldl_nil]
    omega

theorem stoi_pair (high : Hex) (c : UInt8) :
    stoi [high.byte, c] = .ok (ofDigits (high.digit :: (hexDigit c).toList) : Nat) := by
  obtain ⟨-, hspace, hminus, hplus, -, -⟩ := high.plain
  have hlt := ofDigits_pair_lt high c
  have hsign : takeSign ([high.byte, c].dropWhile isSpace) = (false, [high.byte, c]) := by
    rw [List.dropWhile_cons_of_neg (by rw [hspace]; exact Bool.false_ne_true), takeSign,
      if_neg hminus, if_neg hplus]
  simp only [stoi, hsign, hexDigits_pair, reduceCtorEq, if_false, Bool.false_eq_true]
  rw [if_neg]
  omega

theorem ofInt_natCast (h : n < 256) : UInt8.ofInt (n : Nat) = UInt8.ofNat n := by
  rw [UInt8.ofInt]
  congr 1
  omega

theorem percentDecoded_cons (h : c ≠ percent) (rest : List UInt8) :
    percentDecoded (c :: rest) = c :: percentDecoded rest := by
  match rest with
  | [] | [_] => rfl
  | high :: low :: rest =>
    rw [percentDecoded, if_neg]
    exact fun hc => h hc.1

namespace PercentsFollowed
variable {p : List UInt8 → Prop}

theorem nil : PercentsFollowed p [] := by
  intro before after h
  cases before <;> cases h

theorem cons_iff : PercentsFollowed p (c :: s) ↔ (c = percent → p s) ∧ PercentsFollowed p s := by
  constructor
  · intro h
    refine ⟨?_, ?_⟩
    · rintro rfl
      exact h [] s rfl
    · intro before after hs
      apply h (c :: before) after
      rw [hs, List.cons_append]
  · intro h before after hs
    obtain ⟨hc, h⟩ := h
    cases before with
    | nil =>
      obtain ⟨rfl, rfl⟩ := List.cons.inj hs
      exact hc rfl
    | cons b before => exact h before after (List.cons.inj hs).2

theorem cons_plain (h : c ≠ percent) : PercentsFollowed p (c :: s) ↔ PercentsFollowed p s := by
  rw [cons_iff, and_iff_right]
  exact fun hc => absurd hc h

theorem append (h : ∀ c ∈ s, c ≠ percent) : PercentsFollowed p (s ++ t) ↔ PercentsFollowed p t := by
  induction s with
  | nil => exact Iff.rfl
  | cons c s ih =>
    rw [List.cons_append, cons_plain (h c List.mem_cons_self)]
    exact ih fun b hb => h b (List.mem_cons_of_mem c hb)

end PercentsFollowed

def DigitFirst (s : List UInt8) : Prop := ∃ d rest, s = d :: rest ∧ isDigit d = true

theorem unescape_plain (h : c ≠ percent) (rest : List UInt8) :
    unescapeUrlChars (c :: rest) = (unescapeUrlChars rest).map (c :: ·) := by
  conv_lhs => unfold unescapeUrlChars
  rw [if_neg h]

theorem unescape_pair (high : Hex) (low : UInt8) (rest : List UInt8) :
    unescapeUrlChars (percent :: high.byte :: low :: rest) = (unescapeUrlChars rest).map
      (UInt8.ofNat (ofDigits (high.digit :: (hexDigit low).toList)) :: ·) := by
  rw [unescapeUrlChars, if_pos rfl, stoi_pair, ← ofInt_natCast (ofDigits_pair_lt high low)]
  rfl

theorem map_cons_ok {x : Except UrlFault (List UInt8)} {a b : UInt8} {s : List UInt8} :
    x.map (a :: ·) = .ok (b :: s) ↔ a = b ∧ x = .ok s := by
  cases x with
  | error e => exact ⟨nofun, nofun⟩
  | ok t =>
    constructor
    · intro h
      cases h
      exact ⟨rfl, rfl⟩
    · rintro ⟨rfl, h⟩
      cases h
      rfl

theorem ofNat_ne_percent (h : n < 10) : UInt8.ofNat n ≠ percent := by
  intro hn
  have hnat := congrArg UInt8.toNat hn
  rw [UInt8.toNat_ofNat_of_lt' (Nat.lt_trans h (by decide))] at hnat
  exact absurd (hnat ▸ h) (by decide)

theorem unescape_broken (hhigh : isDigit high = true) (hlow : hexDigit low = none)
    (rest : List UInt8) :
    unescapeUrlChars (percent :: high :: low :: rest) ≠
      .ok (percentDecoded (percent :: high :: low :: rest)) := by
  obtain ⟨hread, hlt⟩ := isDigit_hex high hhigh
  have hkept : percentDecoded (percent :: high :: low :: rest) =
      percent :: percentDecoded (high :: low :: rest) := by
    rw [percentDecoded, if_neg]
    simp [hlow]
  rw [unescape_pair ⟨high, _, hread⟩, hkept, hlow]
  intro h
  have hbyte := (map_cons_ok.1 h).1
  apply ofNat_ne_percent hlt
  simpa [ofDigits] using hbyte

theorem unescape_hexPair (high low : Hex) (rest : List UInt8) :
    unescapeUrlChars (percent :: high.byte :: low.byte :: rest) =
        .ok (percentDecoded (percent :: high.byte :: low.byte :: rest)) ↔
      unescapeUrlChars rest = .ok (percentDecoded rest) := by
  have hdecoded : percentDecoded (percent :: high.byte :: low.byte :: rest) =
      UInt8.ofNat (ofDigits [high.digit, low.digit]) :: percentDecoded rest := by
    simp only [percentDecoded, hexDigits, high.read, low.read, Option.isSome_some, and_self,
      if_true]
  rw [unescape_pair, hdecoded, low.read]
  exact map_cons_ok.trans (and_iff_right rfl)

/-- Up to a percent sign without two hexadecimal digits the name is unescaped as it should be, and
there a digit is written for the percent sign. -/
theorem unescape_iff (s : List UInt8) (h : PercentsFollowed DigitFirst s) :
    unescapeUrlChars s = .ok (percentDecoded s) ↔ Escapes s := by
  induction s using unescapeUrlChars.induct with
  | case1 => exact ⟨fun _ => .nil, fun _ => rfl⟩
  | case2 high low rest ih =>
    obtain ⟨hfirst, h⟩ := PercentsFollowed.cons_iff.1 h
    obtain ⟨d, rest', heq, hd⟩ := hfirst rfl
    obtain ⟨rfl, rfl⟩ := List.cons.inj heq
    have hread := (isDigit_hex high hd).1
    have hhigh : (hexDigit high).isSome := hread ▸ rfl
    rw [PercentsFollowed.cons_plain (not_percent_hex hhigh)] at h
    cases hlow : hexDigit low with
    | none =>
      refine ⟨fun heq => absurd heq (unescape_broken hd hlow rest), fun hesc => ?_⟩
      obtain ⟨_, low', _, heq, _, hsome⟩ := hesc [] _ rfl
      cases heq
      rw [hlow] at hsome
      cases hsome
    | some b =>
      have hsome : (hexDigit low).isSome := hlow ▸ rfl
      have hplain := not_percent_hex hsome
      rw [PercentsFollowed.cons_plain hplain] at h
      rw [unescape_hexPair ⟨high, _, hread⟩ ⟨low, b, hlow⟩, ih h, Escapes, Escapes,
        PercentsFollowed.cons_iff, PercentsFollowed.cons_plain (not_percent_hex hhigh),
        PercentsFollowed.cons_plain hplain, and_iff_right]
      exact fun _ => ⟨high, low, rest, rfl, hhigh, hsome⟩
  | case3 rest hshort =>
    have herror : unescapeUrlChars (percent :: rest) = .error .pastEnd := by
      unfold unescapeUrlChars
      rw [if_pos rfl]
      split
      · exact absurd rfl (hshort _ _ _)
      · rfl
    rw [herror]
    refine ⟨nofun, fun hesc => ?_⟩
    obtain ⟨high, low, rest', rfl, _⟩ := hesc [] rest rfl
    exact absurd rfl (hshort high low rest')
  | case4 c rest hc ih =>
    rw [PercentsFollowed.cons_plain hc] at h
    rw [unescape_plain hc, percentDecoded_cons hc, Escapes, PercentsFollowed.cons_plain hc]
    exact (map_cons_ok.trans (and_iff_right rfl)).trans (ih h)

theorem unescape_escapes (h : Escapes s) : unescapeUrlChars s = .ok (percentDecoded s) := by
  induction s using unescapeUrlChars.induct with
  | case1 => rfl
  | case2 high low rest ih =>
    obtain ⟨_, _, _, heq, hhigh, hlow⟩ := h [] _ rfl
    cases heq
    obtain ⟨a, ha⟩ := Option.isSome_iff_exists.1 hhigh
    obtain ⟨b, hb⟩ := Option.isSome_iff_exists.1 hlow
    rw [Escapes, PercentsFollowed.cons_iff, PercentsFollowed.cons_plain (not_percent_hex hhigh),
      PercentsFollowed.cons_plain (not_percent_hex hlow)] at h
    exact (unescape_hexPair ⟨high, a, ha⟩ ⟨low, b, hb⟩ rest).2 (ih h.2)
  | case3 rest hshort =>
    obtain ⟨high, low, _, rfl, _⟩ := h [] _ rfl
    exact absurd rfl (hshort high low _)
  | case4 c rest hc ih =>
    rw [Escapes, PercentsFollowed.cons_plain hc] at h
    rw [unescape_plain hc, percentDecoded_cons hc]
    exact map_cons_ok.2 ⟨rfl, ih h⟩

namespace TagRule

theorem percent_not_char : ∀ r ∈ all, r.isChar percent = false := by decide +kernel

theorem IsItem.followed {r : TagRule} (hr : r ∈ all) (h : r.IsItem item)
    (hs : PercentsFollowed DigitFirst s) : PercentsFollowed DigitFirst (item ++ s) := by
  have hplain : ∀ c, isDigit c = true → c ≠ percent := by
    rintro _ h rfl
    exact absurd h (by decide)
  cases h with
  | char hc =>
    apply (PercentsFollowed.cons_plain _).2 hs
    rintro rfl
    rw [percent_not_char r hr] at hc
    cases hc
  | @escape digits hdigits hlen =>
    cases digits with
    | nil => split at hlen <;> simp at hlen
    | cons d digits =>
      rw [List.cons_append, PercentsFollowed.cons_iff, PercentsFollowed.append]
      · exact ⟨fun _ => ⟨d, _, rfl, hdigits d List.mem_cons_self⟩, hs⟩
      · exact fun c hc => hplain c (hdigits c hc)

theorem IsName.followed {r : TagRule} (hr : r ∈ all) (h : r.IsName name) :
    PercentsFollowed DigitFirst name := by
  obtain ⟨items, -, hitems, rfl⟩ := h
  have hflat {s} (hs : PercentsFollowed DigitFirst s) :
      PercentsFollowed DigitFirst (items.flatten ++ s) := by
    induction items with
    | nil => exact hs
    | cons item items ih =>
      rw [List.flatten_cons, List.append_assoc]
      exact (hitems item List.mem_cons_self).followed hr
        (ih fun i hi => hitems i (List.mem_cons_of_mem item hi))
  split
  · rw [List.cons_append, PercentsFollowed.cons_plain (by decide)]
    apply hflat
    exact (PercentsFollowed.cons_plain (by decide)).2 .nil
  · have h := hflat PercentsFollowed.nil
    rwa [List.append_nil] at h

end TagRule

/-- A name is unescaped without reading past it or throwing, and each escape gives its byte,
exactly when each of its percent signs starts an escape. -/
theorem tag_decoded_iff (r : TagRule) (hr : r ∈ TagRule.all) (name : List UInt8)
    (h : r.IsName name) :
    unescapeUrlChars name = .ok (percentDecoded name) ↔ Escapes name :=
  unescape_iff name (h.followed hr)

theorem isName_short : TagRule.documentShorthand.IsName [0x61, 0x25, 0x31] := by
  refine ⟨[[0x61], [0x25, 0x31]], List.cons_ne_nil _ _, ?_, rfl⟩
  simp only [List.forall_mem_cons, List.not_mem_nil, false_imp_iff, implies_true, and_true]
  exact ⟨.char rfl, .escape (by decide +kernel) (List.cons_ne_nil _ _)⟩

/-- The name `%41` of a flow tag. -/
theorem tag_decoded_flow :
    unescapeUrlChars [0x25, 0x34, 0x31] = .ok (percentDecoded [0x25, 0x34, 0x31]) ↔
      Escapes [0x25, 0x34, 0x31] := by
  apply tag_decoded_iff TagRule.flowShorthand (by simp [TagRule.all])
  refine ⟨[[0x25, 0x34, 0x31]], List.cons_ne_nil _ _, ?_, rfl⟩
  simp only [List.forall_mem_cons, List.not_mem_nil, false_imp_iff, implies_true, and_true]
  exact .escape (by decide +kernel) rfl

/-- The unescaping of the name `a%1` reads past its end. -/
theorem tag_read_past : unescapeUrlChars [0x61, 0x25, 0x31] = .error .pastEnd ∧
    ¬ ∀ r ∈ TagRule.all, ∀ name, r.IsName name →
      unescapeUrlChars name = .ok (percentDecoded name) := by
  refine ⟨rfl, fun h => ?_⟩
  have hok := h TagRule.documentShorthand (by simp [TagRule.all]) _ isName_short
  cases hok

end Trieste.Yaml
