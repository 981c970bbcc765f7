import Trieste.Json
import Trieste.Json.EscapedText
import Trieste.Library.Numeral
import Trieste.Regex.Spans
import Trieste.Yaml.Effect

namespace Trieste
set_option autoImplicit true
open Library Regex Relation

namespace Token

def yamlInt : Token := ⟨"yaml-int", Flag.print⟩
def yamlHex : Token := ⟨"yaml-hex", Flag.print⟩
def yamlFloat : Token := ⟨"yaml-float", Flag.print⟩
def yamlNull : Token := ⟨"yaml-null", 0⟩
def yamlTrue : Token := ⟨"yaml-true", 0⟩
def yamlFalse : Token := ⟨"yaml-false", 0⟩

end Token

namespace Yaml

structure ValuePattern where
  pattern : String
  type : Token

/-- The patterns of the pass `values`. -/
def valuePatterns : List ValuePattern :=
  [⟨"\\-?[[:digit:]]+\\.[[:digit:]]+(?:e[+-]?[[:digit:]]+)?", .yamlFloat⟩,
    ⟨"\\-?[[:digit:]]+", .yamlInt⟩,
    ⟨"0x[[:xdigit:]]+", .yamlHex⟩,
    ⟨"true", .yamlTrue⟩,
    ⟨"false", .yamlFalse⟩,
    ⟨"null", .yamlNull⟩]

def patternEngine (pattern : String) : RegexEngine :=
  .ofPattern (fun _ => none) (pattern.toList.map Char.toUInt8)

def ValuePattern.regex (p : ValuePattern) : TRegex := .init (patternEngine p.pattern)

def classify (self : ValuePattern → Nat) (text : List UInt8) :
    List ValuePattern → MatchContext → Option Token × MatchContext
  | [], ctx => (none, ctx)
  | p :: patterns, ctx =>
    let (found, ctx) := p.regex.fullMatch (self p) text ctx
    if found then (some p.type, ctx) else classify self text patterns ctx

theorem classify_some (hctx : MatchContext.LeftOver ctx)
    (h : (classify self text patterns ctx).1 = some type) :
    ∃ p ∈ patterns, p.type = type ∧
      ∃ ctx, MatchContext.LeftOver ctx ∧ (p.regex.fullMatch (self p) text ctx).1 = true := by
  induction patterns generalizing ctx with
  | nil => cases h
  | cons p patterns ih =>
    rw [classify] at h
    dsimp only at h
    split at h
    · next hfound =>
      cases h
      exact ⟨p, .head _, rfl, ctx, hctx, hfound⟩
    · have hleft := TRegex.fullMatch_leftOver p.regex (self p) text hctx
      obtain ⟨p', hp', hrest⟩ := ih hleft h
      exact ⟨p', .tail _ hp', hrest⟩

/-- The rules of `convert` for scalars, and the node that stands for each. -/
def convertScalar (type : Token) (text : List UInt8) :
    Except Utf8.Exception (Option (Token × List UInt8)) :=
  if type = .yamlInt ∨ type = .yamlFloat then .ok (some (.jsonNumber, text))
  else if type = .yamlTrue then .ok (some (.jsonTrue, text))
  else if type = .yamlFalse then .ok (some (.jsonFalse, text))
  else if type = .yamlNull then .ok (some (.jsonNull, text))
  else if type = .yamlHex then do
    let value ← Utf8.stoul text
    return some (.jsonNumber, (Nat.toDigits 10 value).map Char.toUInt8)
  else if type = .yamlValue then .ok (some (.jsonString, text))
  else .ok none

def digit : RuneClass := .finalize { ranges := [(0x30, 0x39)] }
def oneToNine : RuneClass := .finalize { ranges := [(0x31, 0x39)] }
def xdigit : RuneClass := .finalize { ranges := [(0x30, 0x39), (0x41, 0x46), (0x61, 0x66)] }
def plusMinus : RuneClass := .finalize { ranges := [(0x2B, 0x2B), (0x2D, 0x2D)] }
def expLetter : RuneClass := .finalize { ranges := [(0x45, 0x45), (0x65, 0x65)] }

def signTree : Regexp := .zeroOrOne false (.literal 0x2D)

def intTree : Regexp := .cat signTree (.oneOrMore false (.classRef 0))

def floatTree : Regexp :=
  .cat (.cat (.cat intTree (.literal 0x2E)) (.oneOrMore false (.classRef 1)))
    (.zeroOrOne false (.cat (.cat (.literal 0x65) (.zeroOrOne false (.classRef 2)))
      (.oneOrMore false (.classRef 3))))

def hexTree : Regexp := .cat (.cat (.literal 0x30) (.literal 0x78)) (.oneOrMore false (.classRef 0))

/-- The tree of the rule for numbers in `parse.cc` of JSON. -/
def numberTree : Regexp :=
  .cat
    (.cat
      (.cat signTree (.alt (.literal 0x30) (.cat (.classRef 0) (.zeroOrMore false (.classRef 1)))))
      (.zeroOrOne false (.cat (.literal 0x2E) (.oneOrMore false (.classRef 2)))))
    (.zeroOrOne false (.cat (.cat (.classRef 3) (.zeroOrOne false (.classRef 4)))
      (.oneOrMore false (.classRef 5))))

def numberPattern : String := "-?(?:0|[1-9][0-9]*)(?:\\.[0-9]+)?(?:[eE][-+]?[0-9]+)?"

/-- How a pattern is read. -/
structure PatternReads (pattern : String) (tree : Regexp) (classes : List RuneClass) : Prop where
  parse : PatternTree.parse (fun _ => none) (pattern.toList.map Char.toUInt8) =
    some ⟨tree, classes, 0⟩
  wellFormed : tree.WellFormed classes
  ok : (RegexEngine.compile tree.toPostfix classes 0).ok = true
  assertionFree : tree.assertionFree = true

theorem PatternReads.fullMatch_iff (h : PatternReads pattern tree classes) (hctx : MatchContext.LeftOver ctx)
    (self : Nat) (text : List UInt8) :
    ((TRegex.init (patternEngine pattern)).fullMatch self text ctx).1 = true ↔
      runes text ∈ tree.language classes :=
  TRegex.fullMatch_iff h.parse h.wellFormed h.ok h.assertionFree hctx self text

theorem patterns_read :
    PatternReads "\\-?[[:digit:]]+" intTree [digit] ∧
    PatternReads "\\-?[[:digit:]]+\\.[[:digit:]]+(?:e[+-]?[[:digit:]]+)?" floatTree
      [digit, digit, plusMinus, digit] ∧
    PatternReads "0x[[:xdigit:]]+" hexTree [xdigit] ∧
    PatternReads numberPattern numberTree
      [oneToNine, digit, digit, expLetter, plusMinus, digit] := by
  refine ⟨⟨?_, ?_, ?_, rfl⟩, ⟨?_, ?_, ?_, rfl⟩, ⟨?_, ?_, ?_, rfl⟩, ⟨?_, ?_, ?_, rfl⟩⟩
  case refine_2 | refine_5 | refine_8 | refine_11 =>
    simp only [intTree, floatTree, hexTree, numberTree, signTree, Regexp.WellFormed]
    decide
  all_goals decide +kernel

theorem int_reads : PatternReads "\\-?[[:digit:]]+" intTree [digit] := patterns_read.1

theorem float_reads : PatternReads "\\-?[[:digit:]]+\\.[[:digit:]]+(?:e[+-]?[[:digit:]]+)?" floatTree
    [digit, digit, plusMinus, digit] := patterns_read.2.1

theorem hex_reads : PatternReads "0x[[:xdigit:]]+" hexTree [xdigit] := patterns_read.2.2.1

theorem number_reads : PatternReads numberPattern numberTree
    [oneToNine, digit, digit, expLetter, plusMinus, digit] := patterns_read.2.2.2

theorem contains_single {c : RuneClass} (hranges : c.ranges = [(a, b)])
    (hbitmap : c.asciiBitmap = asciiBitmapOf c.ranges) (r : Nat) :
    c.contains r = true ↔ a ≤ r ∧ r ≤ b := by
  have hsep : Separated c.ranges := by
    rw [hranges]
    exact List.pairwise_singleton _ _
  rw [contains_iff hbitmap hsep, hranges, inRanges_cons, or_iff_left not_inRanges_nil, Range.Has]

theorem contains_pair {c : RuneClass} (hranges : c.ranges = [(a, a), (b, b)]) (hlt : a < b)
    (hbitmap : c.asciiBitmap = asciiBitmapOf c.ranges) (r : Nat) :
    c.contains r = true ↔ r = a ∨ r = b := by
  have hsep : Separated c.ranges := by
    rw [hranges]
    exact List.pairwise_pair.2 ⟨Nat.le_of_lt hlt, hlt⟩
  rw [contains_iff hbitmap hsep, hranges, inRanges_cons, inRanges_cons,
    or_iff_left not_inRanges_nil, Range.Has, Range.Has]
  omega

theorem digit_contains (r : Nat) : digit.contains r = true ↔ IsDigit r := contains_single rfl rfl r

theorem oneToNine_contains (r : Nat) : oneToNine.contains r = true ↔ IsDigit r ∧ r ≠ 0x30 := by
  rw [contains_single rfl rfl, IsDigit]
  omega

theorem plusMinus_contains (r : Nat) : plusMinus.contains r = true ↔ r = 0x2B ∨ r = 0x2D :=
  contains_pair rfl (by decide) rfl r

theorem expLetter_contains (r : Nat) : expLetter.contains r = true ↔ r = 0x45 ∨ r = 0x65 :=
  contains_pair rfl (by decide) rfl r

theorem xdigit_contains (b : UInt8) :
    xdigit.contains b.toNat = true ↔ (Utf8.hexDigit b).isSome = true := by
  have hranges : xdigit.ranges = [(0x30, 0x39), (0x41, 0x46), (0x61, 0x66)] := rfl
  have hsep : Separated xdigit.ranges := by
    rw [hranges, Separated, List.pairwise_cons, List.pairwise_pair]
    decide
  rw [contains_iff rfl hsep, hranges, inRanges_cons, inRanges_cons, inRanges_cons,
    or_iff_left not_inRanges_nil, Range.Has, Range.Has, Range.Has, Utf8.hexDigit]
  simp only [UInt8.le_iff_toNat_le]
  split
  · next h => exact iff_of_true (.inl h) rfl
  split
  · next h => exact iff_of_true (.inr (.inl h)) rfl
  split
  · next h => exact iff_of_true (.inr (.inr h)) rfl
  · next h h' h'' =>
    apply iff_of_false
    · intro hr
      rcases hr with hr | hr | hr
      · exact h hr
      · exact h' hr
      · exact h'' hr
    · exact Bool.false_ne_true

theorem mem_sign : w ∈ signTree.language classes ↔
    ∃ negative, (if negative = true then [0x2D] else []) = w := by
  rw [signTree, Regexp.mem_zeroOrOne]
  constructor
  · rintro (rfl | h)
    · exact ⟨false, rfl⟩
    · exact ⟨true, (Set.mem_singleton_iff.1 h).symm⟩
  · rintro ⟨negative, rfl⟩
    cases negative with
    | false => exact .inl rfl
    | true => exact .inr rfl

theorem mem_digits (hc : classes[index]? = some digit) :
    w ∈ (Regexp.oneOrMore isLazy (.classRef index)).language classes ↔ Digits w := by
  rw [Regexp.mem_plus_classRef hc]
  exact and_congr_right fun _ => forall₂_congr fun r _ => digit_contains r

theorem decimal_of_int (hc : classes[0]? = some digit) (h : w ∈ intTree.language classes) :
    ∃ d : Decimal, d.Proper ∧ d.fraction = none ∧ d.exponent = none ∧ d.text = w := by
  rw [intTree, Regexp.mem_cat] at h
  obtain ⟨sign, hsign, whole, hwhole, rfl⟩ := h
  obtain ⟨negative, rfl⟩ := mem_sign.1 hsign
  refine ⟨⟨negative, whole, none, none⟩, .integer ((mem_digits hc).1 hwhole) _, rfl, rfl, ?_⟩
  rw [Decimal.text, Decimal.signText, Decimal.fractionText, Decimal.exponentText]
  exact congrArg _ (List.append_nil whole)

theorem mem_exponentSign (hc : classes[index]? = some plusMinus) :
    w ∈ (Regexp.zeroOrOne isLazy (.classRef index)).language classes ↔
      w ∈ [[], [0x2B], [0x2D]] := by
  rw [Regexp.mem_zeroOrOne, Regexp.mem_classRef hc]
  simp only [plusMinus_contains, List.mem_cons, List.not_mem_nil, or_false]
  constructor
  · rintro (rfl | ⟨r, rfl | rfl, rfl⟩)
    · exact .inl rfl
    · exact .inr (.inl rfl)
    · exact .inr (.inr rfl)
  · rintro (rfl | rfl | rfl)
    · exact .inl rfl
    · exact .inr ⟨_, .inl rfl, rfl⟩
    · exact .inr ⟨_, .inr rfl, rfl⟩

theorem decimal_of_float (h : w ∈ floatTree.language [digit, digit, plusMinus, digit]) :
    ∃ d : Decimal, d.Proper ∧ d.text = w := by
  rw [floatTree, Regexp.mem_cat] at h
  obtain ⟨front, hfront, exponent, hexponent, rfl⟩ := h
  obtain ⟨int, hint, fraction, hfraction, rfl⟩ := Regexp.mem_cat.1 hfront
  obtain ⟨whole, hwhole, point, hpoint, rfl⟩ := Regexp.mem_cat.1 hint
  obtain ⟨d, hd, hnone, hnone', rfl⟩ := decimal_of_int rfl hwhole
  have hfraction := (mem_digits rfl).1 hfraction
  rw [Set.mem_singleton_iff.1 hpoint]
  have hpartial : ∀ e, (∀ letter sign digits, e = some (letter, sign, digits) →
      letter ∈ [0x45, 0x65] ∧ sign ∈ [[], [0x2B], [0x2D]] ∧ Digits digits) →
      (Decimal.mk d.negative d.whole (some fraction) e).Proper := by
    intro e he
    exact { whole := hd.whole, fraction := fun _ h => by cases h; exact hfraction, exponent := he }
  have htext : ∀ e, (Decimal.mk d.negative d.whole (some fraction) e).text =
      d.text ++ [0x2E] ++ fraction ++ (Decimal.mk d.negative d.whole none e).exponentText := by
    intro e
    rw [Decimal.text, Decimal.text, Decimal.fractionText, Decimal.fractionText, hnone,
      Decimal.exponentText, Decimal.exponentText, hnone']
    simp [Decimal.signText, Decimal.exponentText]
  rcases Regexp.mem_zeroOrOne.1 hexponent with rfl | hexponent
  · refine ⟨_, hpartial none (fun _ _ _ h => by cases h), ?_⟩
    exact htext none
  · obtain ⟨mark, hmark, digits, hdigits, rfl⟩ := Regexp.mem_cat.1 hexponent
    obtain ⟨letter, hletter, sign, hsign, rfl⟩ := Regexp.mem_cat.1 hmark
    rw [Set.mem_singleton_iff.1 hletter]
    have he : ∀ l s ds, some (0x65, sign, digits) = some (l, s, ds) →
        l ∈ [0x45, 0x65] ∧ s ∈ [[], [0x2B], [0x2D]] ∧ Digits ds := by
      rintro l s ds h
      cases h
      exact ⟨.tail _ (.head _), (mem_exponentSign rfl).1 hsign, (mem_digits rfl).1 hdigits⟩
    exact ⟨_, hpartial _ he, htext _⟩

theorem mem_hexTree (h : w ∈ hexTree.language [xdigit]) :
    ∃ digits, w = 0x30 :: 0x78 :: digits ∧ digits ≠ [] ∧ ∀ r ∈ digits, xdigit.contains r = true := by
  rw [hexTree, Regexp.mem_cat] at h
  obtain ⟨mark, hmark, digits, hdigits, rfl⟩ := h
  obtain ⟨zero, hzero, x, hx, rfl⟩ := Regexp.mem_cat.1 hmark
  rw [Set.mem_singleton_iff.1 hzero, Set.mem_singleton_iff.1 hx]
  exact ⟨digits, rfl, (Regexp.mem_plus_classRef rfl).1 hdigits⟩

theorem mem_numberTree {d : Decimal} (hd : d.Proper) (hzero : d.NoLeadingZero) :
    d.text ∈ numberTree.language [oneToNine, digit, digit, expLetter, plusMinus, digit] := by
  have hsign : d.signText ∈ signTree.language
      [oneToNine, digit, digit, expLetter, plusMinus, digit] := mem_sign.2 ⟨d.negative, rfl⟩
  rw [numberTree, Regexp.mem_cat, Decimal.text]
  refine ⟨d.signText ++ d.whole ++ d.fractionText, ?_, d.exponentText, ?_, by simp⟩
  · refine Regexp.mem_cat.2 ⟨_, Regexp.mem_cat.2 ⟨_, hsign, d.whole, ?_, rfl⟩, _, ?_, rfl⟩
    · obtain ⟨hne, hdigits⟩ := hd.whole
      rcases hzero with hzero | hhead
      · rw [hzero]
        exact .inl rfl
      · obtain ⟨c, rest, hc⟩ := List.exists_cons_of_ne_nil hne
        rw [hc, List.forall_mem_cons] at hdigits
        rw [hc] at hhead ⊢
        have hne : c ≠ 0x30 := fun h => hhead (congrArg some h)
        refine .inr (Regexp.mem_cat.2 ⟨[c], ?_, rest, ?_, rfl⟩)
        · exact (Regexp.mem_classRef rfl).2 ⟨c, (oneToNine_contains c).2 ⟨hdigits.1, hne⟩, rfl⟩
        · exact (Regexp.mem_star_classRef rfl).2 fun r hr => (digit_contains r).2 (hdigits.2 r hr)
    · rw [Regexp.mem_zeroOrOne, Decimal.fractionText]
      cases hf : d.fraction with
      | none => exact .inl rfl
      | some digits =>
        exact .inr (Regexp.mem_cat.2
          ⟨[0x2E], rfl, digits, (mem_digits rfl).2 (hd.fraction digits hf), rfl⟩)
  · rw [Regexp.mem_zeroOrOne, Decimal.exponentText]
    cases he : d.exponent with
    | none => exact .inl rfl
    | some e =>
      obtain ⟨letter, sign, digits⟩ := e
      obtain ⟨hletter, hsign, hdigits⟩ := hd.exponent letter sign digits he
      have hletter : letter = 0x45 ∨ letter = 0x65 := by simpa using hletter
      refine .inr (Regexp.mem_cat.2 ⟨letter :: sign, Regexp.mem_cat.2
        ⟨[letter], ?_, sign, (mem_exponentSign rfl).2 hsign, rfl⟩, digits, ?_, rfl⟩)
      · exact (Regexp.mem_classRef rfl).2 ⟨letter, (expLetter_contains letter).2 hletter, rfl⟩
      · exact (mem_digits rfl).2 hdigits

def YamlDenotes (type : Token) (text : List UInt8) (q : Rat) : Prop :=
  if type = .yamlHex then
    ∃ digits, text = 0x30 :: 0x78 :: digits ∧ digits ≠ [] ∧
      (∀ b ∈ digits, (Utf8.hexDigit b).isSome = true) ∧ q = Utf8.ofDigits (Utf8.hexDigits digits)
  else ∃ d : Decimal, d.Proper ∧ d.text = text.map UInt8.toNat ∧ q = d.value

def JsonDenotes (out : List UInt8) (q : Rat) : Prop :=
  ∃ d : Decimal, d.Proper ∧ d.NoLeadingZero ∧ d.text = out.map UInt8.toNat ∧ q = d.value

/-- The scalar is written as a number of JSON of the same value, which is read again. -/
def KeepsNumber (type : Token) (text : List UInt8) : Prop :=
  ∃ out q, convertScalar type text = .ok (some (.jsonNumber, out)) ∧
    YamlDenotes type text q ∧ JsonDenotes out q ∧
    ∀ self ctx, MatchContext.LeftOver ctx →
      ((TRegex.init (patternEngine numberPattern)).fullMatch self out ctx).1 = true

/-- There is no leading zero, or the value of a hexadecimal number fits in 64 bits. -/
def Portable (type : Token) (text : List UInt8) : Prop :=
  (∀ b ∈ text, b.toNat < 0x80) ∧
    if type = .yamlHex then Utf8.ofDigits (Utf8.hexDigits (text.drop 2)) < 2 ^ 64
    else ¬ LeadingZero (text.map UInt8.toNat)

theorem JsonDenotes.fullMatch (h : JsonDenotes out q) (self : Nat)
    (hctx : MatchContext.LeftOver ctx) :
    ((TRegex.init (patternEngine numberPattern)).fullMatch self out ctx).1 = true := by
  obtain ⟨d, hd, hzero, htext, -⟩ := h
  have hascii : ∀ b ∈ out, b.toNat < 0x80 := by
    intro b hb
    exact Decimal.text_ascii hd _ (htext ▸ List.mem_map_of_mem hb)
  rw [number_reads.fullMatch_iff hctx, Json.runes_ascii hascii, ← htext]
  exact mem_numberTree hd hzero

theorem YamlDenotes.ascii (h : YamlDenotes type text q) : ∀ b ∈ text, b.toNat < 0x80 := by
  rw [YamlDenotes] at h
  split at h
  · obtain ⟨digits, rfl, -, hdigits, -⟩ := h
    have hhex : ∀ b, (Utf8.hexDigit b).isSome = true → b.toNat < 0x80 := fun b hb =>
      (Utf8.hexDigit_isSome_plain b hb).1
    rw [List.forall_mem_cons, List.forall_mem_cons]
    exact ⟨by decide, by decide, fun b hb => hhex b (hdigits b hb)⟩
  · obtain ⟨d, hd, htext, -⟩ := h
    intro b hb
    exact Decimal.text_ascii hd _ (htext ▸ List.mem_map_of_mem hb)

theorem stoul_hex (hne : digits ≠ []) (hdigits : ∀ b ∈ digits, (Utf8.hexDigit b).isSome = true) :
    Utf8.stoul (0x30 :: 0x78 :: digits) =
      if 2 ^ 64 ≤ Utf8.ofDigits (Utf8.hexDigits digits) then .error .outOfRange
      else .ok (Utf8.ofDigits (Utf8.hexDigits digits)) := by
  obtain ⟨d, rest, rfl⟩ := List.exists_cons_of_ne_nil hne
  have hd := hdigits d (.head _)
  have hfirst : Utf8.hexDigits (d :: rest) ≠ [] := by
    obtain ⟨value, hvalue⟩ := Option.isSome_iff_exists.1 hd
    rw [Utf8.hexDigits, hvalue]
    exact List.cons_ne_nil _ _
  have hspace : (0x30 :: 0x78 :: d :: rest).dropWhile Utf8.isSpace = 0x30 :: 0x78 :: d :: rest := rfl
  have hsign : Utf8.takeSign (0x30 :: 0x78 :: d :: rest) = (false, 0x30 :: 0x78 :: d :: rest) := rfl
  have hmark : Utf8.dropHexMark (0x30 :: 0x78 :: d :: rest) = d :: rest :=
    if_pos ⟨rfl, .inl rfl, hd⟩
  rw [Utf8.stoul, hspace, hsign]
  dsimp only
  rw [hmark, if_neg hfirst]
  rfl

theorem toDigits_denotes (value : Nat) :
    JsonDenotes ((Nat.toDigits 10 value).map Char.toUInt8) value := by
  have hnumeral := IsNumeral.of_toDigits value
  have hvalue := Nat.ofDigitChars_ten_toDigits (n := value)
  generalize Nat.toDigits 10 value = text at hnumeral hvalue
  have hdigit : ∀ c ∈ text.map Char.toNat, IsDigit c := by
    intro code hcode
    obtain ⟨c, hc, rfl⟩ := List.mem_map.1 hcode
    exact Char.isDigit_iff_toNat.1 (hnumeral.digits c hc)
  have hbytes : (text.map Char.toUInt8).map UInt8.toNat = text.map Char.toNat := by
    rw [List.map_map]
    apply List.map_congr_left
    intro c hc
    have hle := (hdigit _ (List.mem_map_of_mem hc)).2
    exact Nat.mod_eq_of_lt (Nat.lt_of_le_of_lt hle (by decide))
  have hsum : digitsValue (text.map Char.toNat) = value := by
    rw [digitsValue, List.foldl_map]
    exact hvalue
  have hwhole : Digits (text.map Char.toNat) :=
    ⟨fun h => hnumeral.ne_nil (List.map_eq_nil_iff.1 h), hdigit⟩
  refine ⟨⟨false, text.map Char.toNat, none, none⟩, ?_, ?_, ?_, ?_⟩
  · exact .integer hwhole false
  · by_cases hhead : text.head? = some '0'
    · left
      obtain ⟨rest, rfl⟩ := List.head?_eq_some_iff.1 hhead
      have hlen := hnumeral.zero hhead
      obtain rfl : rest = [] := List.eq_nil_of_length_eq_zero (by simpa using hlen)
      rfl
    · right
      intro hzero
      rw [List.head?_map, Option.map_eq_some_iff] at hzero
      obtain ⟨c, hc, hcode⟩ := hzero
      exact hhead (hc.trans (congrArg some (Char.toNat_inj.1 hcode)))
  · rw [hbytes]
    exact List.append_nil _
  · have hfraction : digitsValue [] = 0 := rfl
    simp [Decimal.value, Decimal.power, hsum, hfraction]

theorem classified {self : ValuePattern → Nat} (hctx : MatchContext.LeftOver ctx)
    (hclass : (classify self text valuePatterns ctx).1 = some type)
    (htype : type ∈ [.yamlInt, .yamlFloat, .yamlHex]) :
    type = .yamlHex ∧ runes text ∈ hexTree.language [xdigit] ∨
      (type = .yamlInt ∨ type = .yamlFloat) ∧
        ∃ d : Decimal, d.Proper ∧ d.text = runes text := by
  obtain ⟨p, hp, rfl, ctx', hctx', hmatch⟩ := classify_some hctx hclass
  simp only [valuePatterns, List.mem_cons, List.not_mem_nil, or_false] at hp
  rcases hp with rfl | rfl | rfl | rfl | rfl | rfl
  · exact .inr ⟨.inr rfl, decimal_of_float ((float_reads.fullMatch_iff hctx' _ _).1 hmatch)⟩
  · obtain ⟨d, hd, -, -, htext⟩ := decimal_of_int rfl ((int_reads.fullMatch_iff hctx' _ _).1 hmatch)
    exact .inr ⟨.inl rfl, d, hd, htext⟩
  · exact .inl ⟨rfl, (hex_reads.fullMatch_iff hctx' _ _).1 hmatch⟩
  all_goals exact absurd htype (by decide)

theorem hex_keepsNumber (hword : runes text ∈ hexTree.language [xdigit]) :
    KeepsNumber .yamlHex text ↔ Portable .yamlHex text := by
  rw [Portable, if_pos rfl]
  constructor
  · rintro ⟨out, q, hconvert, hyaml, -, -⟩
    refine ⟨hyaml.ascii, ?_⟩
    obtain ⟨digits, rfl, hne, hdigits, -⟩ := hyaml
    rw [convertScalar, stoul_hex hne hdigits] at hconvert
    by_contra hlarge
    have hlarge : 2 ^ 64 ≤ Utf8.ofDigits (Utf8.hexDigits digits) := Nat.le_of_not_lt hlarge
    rw [if_pos hlarge] at hconvert
    cases hconvert
  · rintro ⟨hascii, hsmall⟩
    rw [Json.runes_ascii hascii] at hword
    obtain ⟨codes, htext, hne, hcodes⟩ := mem_hexTree hword
    obtain ⟨zero, text, rfl, hzero, htext⟩ := List.map_eq_cons_iff.1 htext
    obtain ⟨x, digits, rfl, hx, rfl⟩ := List.map_eq_cons_iff.1 htext
    obtain rfl : zero = 0x30 := UInt8.toNat_inj.1 hzero
    obtain rfl : x = 0x78 := UInt8.toNat_inj.1 hx
    have hne : digits ≠ [] := fun h => hne (congrArg _ h)
    have hdigits : ∀ b ∈ digits, (Utf8.hexDigit b).isSome = true := by
      intro b hb
      exact (xdigit_contains b).1 (hcodes _ (List.mem_map_of_mem hb))
    have hsmall : ¬ 2 ^ 64 ≤ Utf8.ofDigits (Utf8.hexDigits digits) := Nat.not_le.2 hsmall
    have hjson := toDigits_denotes (Utf8.ofDigits (Utf8.hexDigits digits))
    refine ⟨_, _, ?_, ⟨digits, rfl, hne, hdigits, rfl⟩, hjson, fun self ctx => hjson.fullMatch self⟩
    rw [convertScalar, stoul_hex hne hdigits, if_neg hsmall]
    rfl

theorem decimal_keepsNumber (htype : type = .yamlInt ∨ type = .yamlFloat) {d : Decimal}
    (hd : d.Proper) (hword : d.text = runes text) :
    KeepsNumber type text ↔ Portable type text := by
  have hhex : type ≠ .yamlHex := by
    rcases htype with rfl | rfl
    all_goals decide
  rw [Portable, if_neg hhex]
  constructor
  · rintro ⟨out, q, hconvert, hyaml, ⟨d', hd', hzero, htext, -⟩, -⟩
    refine ⟨hyaml.ascii, ?_⟩
    rw [convertScalar, if_pos htype] at hconvert
    cases hconvert
    rw [← htext, Decimal.leadingZero_iff hd']
    exact not_not.2 hzero
  · rintro ⟨hascii, hzero⟩
    rw [Json.runes_ascii hascii] at hword
    rw [← hword, Decimal.leadingZero_iff hd, not_not] at hzero
    have hjson : JsonDenotes text d.value := ⟨d, hd, hzero, hword, rfl⟩
    refine ⟨text, d.value, if_pos htype, ?_, hjson, fun self ctx => hjson.fullMatch self⟩
    rw [YamlDenotes, if_neg hhex]
    exact ⟨d, hd, hword, rfl⟩

/-- Which numbers keep their value on the way to JSON. -/
theorem keepsNumber_iff (self : ValuePattern → Nat) (hctx : MatchContext.LeftOver ctx)
    (hclass : (classify self text valuePatterns ctx).1 = some type)
    (htype : type ∈ [.yamlInt, .yamlFloat, .yamlHex]) :
    KeepsNumber type text ↔ Portable type text := by
  rcases classified hctx hclass htype with ⟨rfl, hword⟩ | ⟨htype, d, hd, hword⟩
  · exact hex_keepsNumber hword
  · exact decimal_keepsNumber htype hd hword

theorem keepsNumber_hundred :
    KeepsNumber .yamlInt [0x31, 0x30, 0x30] ↔ Portable .yamlInt [0x31, 0x30, 0x30] :=
  keepsNumber_iff (fun _ => 0) .fresh (by decide +kernel) (.head _)

/-- The number `007` keeps its zeros, and `0x10000000000000000` is not converted. -/
theorem leadingZero_not_kept :
    (classify (fun _ => 0) [0x30, 0x30, 0x37] valuePatterns {}).1 = some .yamlInt ∧
      ¬ KeepsNumber .yamlInt [0x30, 0x30, 0x37] ∧
      (classify (fun _ => 0) (0x30 :: 0x78 :: 0x31 :: List.replicate 16 0x30) valuePatterns {}).1 =
        some .yamlHex ∧
      convertScalar .yamlHex (0x30 :: 0x78 :: 0x31 :: List.replicate 16 0x30) =
        .error .outOfRange := by
  refine ⟨by decide +kernel, ?_, by decide +kernel, by decide +kernel⟩
  rintro ⟨out, q, hconvert, -, ⟨d, hd, hzero, htext, -⟩, -⟩
  cases hconvert
  have hleading : LeadingZero d.text := by
    rw [htext]
    exact ⟨0x30, [0x37], rfl, by decide⟩
  exact (Decimal.leadingZero_iff hd).1 hleading hzero

end Yaml

end Trieste
