import Mathlib.Logic.Relation
import Trieste.Utf8
import Mathlib.Data.List.Sort

namespace Trieste.Regex
set_option autoImplicit true
open Relation

def catenation : Nat := 0xAFFF00
def alternation : Nat := 0xAFFF01
def zeroOrOne : Nat := 0xAFFF02
def zeroOrMore : Nat := 0xAFFF03
def oneOrMore : Nat := 0xAFFF04
def split : Nat := 0xAFFF05
def wordBoundary : Nat := 0xAFFF06
def lazyZeroOrOne : Nat := 0xAFFF07
def lazyZeroOrMore : Nat := 0xAFFF08
def lazyOneOrMore : Nat := 0xAFFF09
def startAnchor : Nat := 0xAFFF0A
def endAnchor : Nat := 0xAFFF0B
def matchLabel : Nat := 0xAFFFFF

def captureOpen : Nat := 0xAFFE00
def captureClose : Nat := 0xAFFD00
def captureGroup : Nat := 0xAFFC00
def maxCaptures : Nat := 64

def runeClassBase : Nat := 0xBF0000
def runeClassMax : Nat := 0xBFFFFF

def maxStates : Nat := 100000
def maxClosureCacheEntries : Nat := 1000000
def maxCaptureFrameEntries : Nat := 1000000

inductive ErrorCode
  | noError
  | errorBadEscape
  | errorMissingBracket
  | errorMissingParen
  | errorUnexpectedParen
  | errorTrailingBackslash
  | errorRepeatSize
  | errorRepeatOp
  | errorBadCharClass
  | errorBadCharRange
  | errorPatternTooLarge
  | errorNestingTooDeep
  | errorTooManyCaptures
  | errorStrictSyntax
  | errorStrictGroup
  | errorInternalError
  deriving DecidableEq, Repr

def isClassRef (label : Nat) : Bool := runeClassBase ≤ label && label ≤ runeClassMax

def classRefIndex (label : Nat) : Nat := label - runeClassBase

def isCaptureOpen (label : Nat) : Bool := captureOpen ≤ label && label < captureOpen + maxCaptures

def isCaptureClose (label : Nat) : Bool :=
  captureClose ≤ label && label < captureClose + maxCaptures

def captureIndex (label : Nat) : Nat :=
  if isCaptureOpen label then label - captureOpen else label - captureClose

def isWordChar (r : Nat) : Bool :=
  (0x30 ≤ r && r ≤ 0x39) || (0x41 ≤ r && r ≤ 0x5A) || (0x61 ≤ r && r ≤ 0x7A) || r == 0x5F

def isAscii (r : Nat) : Bool := r < 128

def decodeRune (utf8 : List UInt8) (pos : Nat) : Nat × Nat :=
  match utf8[pos]? with
  | none => (0, 1)
  | some byte => if isAscii byte.toNat then (byte.toNat, 1) else Utf8.utf8ToRune (utf8.drop pos)

/-- A set of numbers below 128 in two words. -/
structure Bitmap where
  word0 : BitVec 64 := 0
  word1 : BitVec 64 := 0
  deriving DecidableEq

namespace Bitmap

def word (b : Bitmap) (i : Nat) : BitVec 64 := if i >>> 6 = 0 then b.word0 else b.word1

def test (b : Bitmap) (i : Nat) : Bool := (b.word i >>> (i % 64)).getLsbD 0

def set (b : Bitmap) (i : Nat) : Bitmap :=
  if i >>> 6 = 0 then { b with word0 := b.word0 ||| 1#64 <<< (i % 64) }
  else { b with word1 := b.word1 ||| 1#64 <<< (i % 64) }

theorem test_empty (i : Nat) : ({} : Bitmap).test i = false := by
  simp [test, word]

theorem test_eq (b : Bitmap) (i : Nat) : b.test i = (b.word i).getLsbD (i % 64) := by
  simp [test]

theorem word_set (b : Bitmap) (hi : i < 128) (hj : j < 128) :
    (b.set i).word j = if i / 64 = j / 64 then b.word j ||| 1#64 <<< (i % 64) else b.word j := by
  have hi' : i / 64 = 0 ∨ i / 64 = 1 := by omega
  have hj' : j / 64 = 0 ∨ j / 64 = 1 := by omega
  rcases hi' with hi' | hi' <;> rcases hj' with hj' | hj' <;>
    simp [set, word, Nat.shiftRight_eq_div_pow, hi', hj']

theorem test_set (b : Bitmap) (hi : i < 128) (hj : j < 128) :
    (b.set i).test j = (decide (i = j) || b.test j) := by
  have hmod : j % 64 < 64 := Nat.mod_lt j (by omega)
  rw [test_eq, test_eq, word_set b hi hj]
  by_cases hw : i / 64 = j / 64
  · have hij : i = j ↔ i % 64 = j % 64 := by omega
    have hone : (1#64 <<< (i % 64)).getLsbD (j % 64) = decide (i % 64 = j % 64) := by
      rw [BitVec.getLsbD_shiftLeft, BitVec.getLsbD_one]
      simp only [hmod, decide_true, Bool.true_and]
      by_cases hm : i % 64 = j % 64
      · simp [hm]
      · simp [hm]
        omega
    rw [if_pos hw, BitVec.getLsbD_or, hone, Bool.or_comm]
    simp only [hij]
  · have hij : i ≠ j := fun h => hw (by rw [h])
    simp [hw, hij]

end Bitmap

/-- Sorted ranges with the bitmap of their members below 128. -/
structure RuneClass where
  ranges : List (Nat × Nat) := []
  asciiBitmap : Bitmap := {}

/-- The range before the upper bound of `r`, as found in sorted ranges. -/
def RuneClass.contains (c : RuneClass) (r : Nat) : Bool :=
  if isAscii r then c.asciiBitmap.test r
  else match (c.ranges.takeWhile fun range => !decide (r < range.1)).getLast? with
    | none => false
    | some range => range.1 ≤ r && r ≤ range.2

/-- A regex syntax tree. The flag of a quantifier says that it is lazy. -/
inductive Regexp
  | literal (r : Nat)
  | classRef (index : Nat)
  | startAnchor
  | endAnchor
  | wordBoundary
  | cat (p q : Regexp)
  | alt (p q : Regexp)
  | zeroOrOne (isLazy : Bool) (p : Regexp)
  | zeroOrMore (isLazy : Bool) (p : Regexp)
  | oneOrMore (isLazy : Bool) (p : Regexp)
  | capture (index : Nat) (p : Regexp)
  deriving DecidableEq

namespace Regexp

/-- The postfix tokens that denote the tree. -/
def toPostfix : Regexp → List Nat
  | literal r => [r]
  | classRef index => [runeClassBase + index]
  | startAnchor => [Regex.startAnchor]
  | endAnchor => [Regex.endAnchor]
  | wordBoundary => [Regex.wordBoundary]
  | cat p q => p.toPostfix ++ q.toPostfix ++ [catenation]
  | alt p q => p.toPostfix ++ q.toPostfix ++ [alternation]
  | zeroOrOne isLazy p => p.toPostfix ++ [if isLazy then lazyZeroOrOne else Regex.zeroOrOne]
  | zeroOrMore isLazy p => p.toPostfix ++ [if isLazy then lazyZeroOrMore else Regex.zeroOrMore]
  | oneOrMore isLazy p => p.toPostfix ++ [if isLazy then lazyOneOrMore else Regex.oneOrMore]
  | capture index p => p.toPostfix ++ [captureGroup + index]

/-- Literals lie below the sentinels, and indices refer to existing classes and captures. -/
def WellFormed (classes : List RuneClass) : Regexp → Prop
  | literal r => r < captureGroup
  | classRef index => runeClassBase + index ≤ runeClassMax ∧ index < classes.length
  | startAnchor | endAnchor | wordBoundary => True
  | cat p q | alt p q => p.WellFormed classes ∧ q.WellFormed classes
  | zeroOrOne _ p | zeroOrMore _ p | oneOrMore _ p => p.WellFormed classes
  | capture index p => index < maxCaptures ∧ p.WellFormed classes

/-- The tree with every quantifier greedy. -/
def greedy : Regexp → Regexp
  | cat p q => cat p.greedy q.greedy
  | alt p q => alt p.greedy q.greedy
  | zeroOrOne _ p => zeroOrOne false p.greedy
  | zeroOrMore _ p => zeroOrMore false p.greedy
  | oneOrMore _ p => oneOrMore false p.greedy
  | capture index p => capture index p.greedy
  | p => p

end Regexp

/-- What the assertions and labels of a match refer to. -/
structure Input where
  classes : List RuneClass
  runes : List Nat
  atStart : Bool

namespace Input

def wordAt (x : Input) (i : Nat) : Bool := (x.runes[i]?).any isWordChar

def wordBefore (x : Input) : Nat → Bool
  | 0 => false
  | i + 1 => x.wordAt i

def boundary (x : Input) (i : Nat) : Bool := x.wordBefore i != x.wordAt i

def startsAt (x : Input) (i : Nat) : Bool := x.atStart && i == 0

def endsAt (x : Input) (i : Nat) : Bool := i == x.runes.length

end Input

/-- The runes between two positions are in the language of the tree, where each assertion is
judged at its own position. -/
def Regexp.Matches (x : Input) : Regexp → Nat → Nat → Prop
  | literal r, i, j => x.runes[i]? = some r ∧ j = i + 1
  | classRef index, i, j =>
    (∃ c r, x.classes[index]? = some c ∧ x.runes[i]? = some r ∧ c.contains r = true) ∧ j = i + 1
  | startAnchor, i, j => x.startsAt i = true ∧ j = i
  | endAnchor, i, j => x.endsAt i = true ∧ j = i
  | wordBoundary, i, j => x.boundary i = true ∧ j = i
  | cat p q, i, j => Comp (p.Matches x) (q.Matches x) i j
  | alt p q, i, j => p.Matches x i j ∨ q.Matches x i j
  | zeroOrOne _ p, i, j => p.Matches x i j ∨ j = i
  | zeroOrMore _ p, i, j => ReflTransGen (p.Matches x) i j
  | oneOrMore _ p, i, j => TransGen (p.Matches x) i j
  | capture _ p, i, j => p.Matches x i j

/-- A position with the capture spans recorded so far. -/
abbrev Cursor := Nat × List (Option Nat)

/-- The matches of the tree with the spans that its groups record, where `place` gives the offset
of a position. -/
def Regexp.Records (x : Input) (place : Nat → Nat) : Regexp → Cursor → Cursor → Prop
  | literal r, c, c' => x.runes[c.1]? = some r ∧ c' = (c.1 + 1, c.2)
  | classRef index, c, c' =>
    (∃ cls r, x.classes[index]? = some cls ∧ x.runes[c.1]? = some r ∧ cls.contains r = true) ∧
      c' = (c.1 + 1, c.2)
  | startAnchor, c, c' => x.startsAt c.1 = true ∧ c' = c
  | endAnchor, c, c' => x.endsAt c.1 = true ∧ c' = c
  | wordBoundary, c, c' => x.boundary c.1 = true ∧ c' = c
  | cat p q, c, c' => Comp (p.Records x place) (q.Records x place) c c'
  | alt p q, c, c' => p.Records x place c c' ∨ q.Records x place c c'
  | zeroOrOne _ p, c, c' => p.Records x place c c' ∨ c' = c
  | zeroOrMore _ p, c, c' => ReflTransGen (p.Records x place) c c'
  | oneOrMore _ p, c, c' => TransGen (p.Records x place) c c'
  | capture index p, c, c' =>
    ∃ m, p.Records x place (c.1, c.2.set (index * 2) (some (place c.1))) m ∧
      c' = (m.1, m.2.set (index * 2 + 1) (some (place m.1)))

theorem Regexp.Records.matches {p : Regexp} (h : p.Records x place c c') :
    p.Matches x c.1 c'.1 := by
  induction p generalizing c c' with
  | literal | classRef | startAnchor | endAnchor | wordBoundary =>
    obtain ⟨hcond, rfl⟩ := h
    exact ⟨hcond, rfl⟩
  | cat p q ihp ihq =>
    obtain ⟨m, hp, hq⟩ := h
    exact ⟨m.1, ihp hp, ihq hq⟩
  | alt p q ihp ihq =>
    rcases h with hp | hq
    · exact .inl (ihp hp)
    · exact .inr (ihq hq)
  | zeroOrOne _ p ih =>
    rcases h with hp | rfl
    · exact .inl (ih hp)
    · exact .inr rfl
  | zeroOrMore _ p ih =>
    have hlift : ∀ c c', p.Records x place c c' → p.Matches x c.1 c'.1 := fun _ _ hp => ih hp
    exact ReflTransGen.lift Prod.fst hlift c c' h
  | oneOrMore _ p ih =>
    have hlift : ∀ c c', p.Records x place c c' → p.Matches x c.1 c'.1 := fun _ _ hp => ih hp
    exact TransGen.lift Prod.fst hlift c c' h
  | capture index p ih =>
    obtain ⟨m, hp, rfl⟩ := h
    have hm := ih hp
    exact hm

/-- Every match records spans, whatever was recorded before. -/
theorem Regexp.Matches.records {p : Regexp} (h : p.Matches x i j) (place : Nat → Nat)
    (spans : List (Option Nat)) : ∃ spans', p.Records x place (i, spans) (j, spans') := by
  induction p generalizing i j spans with
  | literal | classRef | startAnchor | endAnchor | wordBoundary =>
    obtain ⟨hcond, rfl⟩ := h
    exact ⟨spans, hcond, rfl⟩
  | cat p q ihp ihq =>
    obtain ⟨m, hp, hq⟩ := h
    obtain ⟨spans', hp'⟩ := ihp hp spans
    obtain ⟨spans'', hq'⟩ := ihq hq spans'
    exact ⟨spans'', (m, spans'), hp', hq'⟩
  | alt p q ihp ihq =>
    rcases h with hp | hq
    · obtain ⟨spans', hp'⟩ := ihp hp spans
      exact ⟨spans', .inl hp'⟩
    · obtain ⟨spans', hq'⟩ := ihq hq spans
      exact ⟨spans', .inr hq'⟩
  | zeroOrOne _ p ih =>
    rcases h with hp | rfl
    · obtain ⟨spans', hp'⟩ := ih hp spans
      exact ⟨spans', .inl hp'⟩
    · exact ⟨spans, .inr rfl⟩
  | zeroOrMore _ p ih =>
    induction h using ReflTransGen.head_induction_on generalizing spans with
    | refl => exact ⟨spans, .refl⟩
    | head hp _ ihs =>
      obtain ⟨spans', hp'⟩ := ih hp spans
      obtain ⟨spans'', hps⟩ := ihs spans'
      exact ⟨spans'', .head hp' hps⟩
  | oneOrMore _ p ih =>
    induction h using TransGen.head_induction_on generalizing spans with
    | single hp =>
      obtain ⟨spans', hp'⟩ := ih hp spans
      exact ⟨spans', .single hp'⟩
    | head hp _ ihs =>
      obtain ⟨spans', hp'⟩ := ih hp spans
      obtain ⟨spans'', hps⟩ := ihs spans'
      exact ⟨spans'', .head hp' hps⟩
  | capture index p ih =>
    obtain ⟨spans', hp'⟩ := ih h (spans.set (index * 2) (some (place i)))
    exact ⟨_, _, hp', rfl⟩

theorem Regexp.matches_greedy (x : Input) (p : Regexp) : p.greedy.Matches x = p.Matches x := by
  induction p with
  | literal | classRef | startAnchor | endAnchor | wordBoundary => rfl
  | cat p q ihp ihq => funext i j; simp only [greedy, Matches, ihp, ihq]
  | alt p q ihp ihq => funext i j; simp only [greedy, Matches, ihp, ihq]
  | zeroOrOne _ p ih | zeroOrMore _ p ih | oneOrMore _ p ih | capture _ p ih =>
    funext i j
    simp only [greedy, Matches, ih]

abbrev Range := Nat × Nat

def Range.le (a b : Range) : Bool := decide (a.1 < b.1) || (a.1 == b.1 && decide (a.2 ≤ b.2))

def asciiRunes (range : Range) : List Nat :=
  if 128 ≤ range.1 then []
  else List.range' range.1 ((if range.2 < 128 then range.2 else 127) + 1 - range.1)

def asciiBitmapOf (ranges : List Range) : Bitmap :=
  ranges.foldl (fun bitmap range => (asciiRunes range).foldl Bitmap.set bitmap) {}

namespace RuneClass

def rebuildAsciiBitmap (c : RuneClass) : RuneClass :=
  { c with asciiBitmap := asciiBitmapOf c.ranges }

def addRange (c : RuneClass) (lo hi : Nat) : RuneClass := { c with ranges := c.ranges ++ [(lo, hi)] }

def merge (c other : RuneClass) : RuneClass := { c with ranges := c.ranges ++ other.ranges }

/-- The loop of `finalize` over the sorted ranges, with the last merged one. -/
def mergeRanges (back : Range) : List Range → List Range
  | [] => [back]
  | range :: rest =>
    if range.1 ≤ back.2 + 1 then mergeRanges (back.1, max back.2 range.2) rest
    else back :: mergeRanges range rest

def finalize (c : RuneClass) : RuneClass :=
  if c.ranges.length ≤ 1 then c.rebuildAsciiBitmap
  else match c.ranges.insertionSort (Range.le · ·) with
    | [] => c.rebuildAsciiBitmap
    | first :: rest => rebuildAsciiBitmap { c with ranges := mergeRanges first rest }

def addGapExcludingSurrogates (lo hi : Nat) : List Range :=
  if lo < 0xD800 then
    if hi < 0xD800 then [(lo, hi)]
    else (lo, 0xD7FF) :: if 0xDFFF < hi then [(0xE000, hi)] else []
  else if lo < 0xE000 then [(0xE000, hi)]
  else [(lo, hi)]

/-- The loop of `complement` with what follows it. -/
def gaps (prev : Nat) : List Range → List Range
  | [] => if prev ≤ 0x10FFFF then addGapExcludingSurrogates prev 0x10FFFF else []
  | range :: rest =>
    (if prev < range.1 then addGapExcludingSurrogates prev (range.1 - 1) else []) ++
      gaps (range.2 + 1) rest

def complement (c : RuneClass) : RuneClass :=
  rebuildAsciiBitmap { ranges := gaps 0 c.ranges }

def dot : RuneClass := rebuildAsciiBitmap { ranges := [(0, 0xD7FF), (0xE000, 0x10FFFF)] }

end RuneClass

end Trieste.Regex
