import Trieste.Regex.Engine
import Trieste.Regex.Syntax

namespace Trieste.Regex
set_option autoImplicit true

inductive SyntaxMode
  | extended
  | iregexpStrict
  deriving DecidableEq

def backslash : Nat := '\\'.toNat
def lParen : Nat := '('.toNat
def rParen : Nat := ')'.toNat
def pipe : Nat := '|'.toNat
def question : Nat := '?'.toNat
def asterisk : Nat := '*'.toNat
def plus : Nat := '+'.toNat

def maxRepetition : Nat := 1000
def maxPostfixSize : Nat := 100000
def maxGroupNesting : Nat := 256

/-- The rest of a pattern, from its current position. -/
abbrev Bytes := List UInt8

def takeRune (s : Bytes) : Nat × Bytes := ((Utf8.utf8ToRune s).1, s.drop (Utf8.utf8ToRune s).2)

def startsWithChar (s : Bytes) (c : Char) : Bool := s.head? == some c.toUInt8

def isAsciiDigit (c : UInt8) : Bool := '0'.toUInt8 ≤ c && c ≤ '9'.toUInt8

def isAsciiDigitAt (s : Bytes) : Bool := s.head?.any isAsciiDigit

def isAsciiPunctuation (r : Nat) : Bool :=
  if r < 0x21 || 0x7E < r then false
  else !(('0'.toNat ≤ r && r ≤ '9'.toNat) || ('A'.toNat ≤ r && r ≤ 'Z'.toNat) ||
    ('a'.toNat ≤ r && r ≤ 'z'.toNat))

/-- The characters that may be escaped, besides `n`, `r` and `t`. -/
def metaCharacters : List Char :=
  ['(', ')', '*', '+', '-', '.', '?', '[', '\\', ']', '^', '$', '{', '|', '}', '/', ',']

def isClassEscape (r : Nat) : Bool :=
  r == 'n'.toNat || r == 'r'.toNat || r == 't'.toNat || (metaCharacters.map Char.toNat).contains r

def escapeToRune (r : Nat) : Nat :=
  if r = 'n'.toNat then 0x0A else if r = 'r'.toNat then 0x0D else if r = 't'.toNat then 0x09 else r

def shorthandRanges (r : Nat) : Option (List Range) :=
  if r = 'd'.toNat then some [('0'.toNat, '9'.toNat)]
  else if r = 's'.toNat then some [('\t'.toNat, '\r'.toNat), (' '.toNat, ' '.toNat)]
  else if r = 'w'.toNat then
    some [('0'.toNat, '9'.toNat), ('A'.toNat, 'Z'.toNat), ('_'.toNat, '_'.toNat),
      ('a'.toNat, 'z'.toNat)]
  else none

def shorthandClass (r : Nat) : Option RuneClass :=
  (shorthandRanges r).map fun ranges => RuneClass.finalize { ranges }

def hexDigit (c : UInt8) : Option Nat :=
  if '0'.toUInt8 ≤ c && c ≤ '9'.toUInt8 then some (c - '0'.toUInt8).toNat
  else if 'a'.toUInt8 ≤ c && c ≤ 'f'.toUInt8 then some ((c - 'a'.toUInt8).toNat + 10)
  else if 'A'.toUInt8 ≤ c && c ≤ 'F'.toUInt8 then some ((c - 'A'.toUInt8).toNat + 10)
  else none

def parseHexDigits : Nat → Nat → Bytes → Option (Nat × Bytes)
  | 0, out, s => some (out, s)
  | _ + 1, _, [] => none
  | count + 1, out, c :: s =>
    (hexDigit c).bind fun digit => parseHexDigits count ((out <<< 4) ||| digit) s

def posixRanges (name : Bytes) : Option (List Range) :=
  let named (s : String) : Bool := name == s.toList.map Char.toUInt8
  if named "alpha" then some [('A'.toNat, 'Z'.toNat), ('a'.toNat, 'z'.toNat)]
  else if named "digit" then some [('0'.toNat, '9'.toNat)]
  else if named "alnum" then
    some [('0'.toNat, '9'.toNat), ('A'.toNat, 'Z'.toNat), ('a'.toNat, 'z'.toNat)]
  else if named "blank" then some [(' '.toNat, ' '.toNat), ('\t'.toNat, '\t'.toNat)]
  else if named "space" then some [('\t'.toNat, '\r'.toNat), (' '.toNat, ' '.toNat)]
  else if named "xdigit" then
    some [('0'.toNat, '9'.toNat), ('A'.toNat, 'F'.toNat), ('a'.toNat, 'f'.toNat)]
  else if named "upper" then some [('A'.toNat, 'Z'.toNat)]
  else if named "lower" then some [('a'.toNat, 'z'.toNat)]
  else if named "print" then some [(0x20, 0x7E)]
  else if named "graph" then some [(0x21, 0x7E)]
  else if named "cntrl" then some [(0x00, 0x1F), (0x7F, 0x7F)]
  else if named "punct" then some [(0x21, 0x2F), (0x3A, 0x40), (0x5B, 0x60), (0x7B, 0x7E)]
  else if named "ascii" then some [(0x00, 0x7F)]
  else none

/-- `parse_posix_class`, after the `[:`. -/
def parsePosixClass (s : Bytes) : Option (List Range × Bytes) :=
  let isName (c : UInt8) : Bool := c != ':'.toUInt8 && c != ']'.toUInt8
  match s.dropWhile isName with
  | c :: d :: rest =>
    if c = ':'.toUInt8 ∧ d = ']'.toUInt8 then
      (posixRanges (s.takeWhile isName)).map fun ranges => (ranges, rest)
    else none
  | _ => none

structure GroupInfo where
  postfixIndex : Nat
  needConcat : Bool
  capturing : Bool
  captureId : Nat

/-- The operator stack has its top first. -/
structure PostfixBuilder where
  postfixRunes : List Nat := []
  runeClasses : List RuneClass := []
  numCaptures : Nat := 0
  errorCode : ErrorCode := .noError
  operatorStack : List Nat := []
  needConcat : Bool := false
  escaped : Bool := false
  atomStart : Nat := 0
  needConcatBeforeAtom : Bool := false
  atomIsQuantified : Bool := false
  groupStartStack : List GroupInfo := []

/-- An error ends the parse, with the first code that was set. -/
abbrev Parsed (α : Type) := Except ErrorCode α

namespace PostfixBuilder

def ok (b : PostfixBuilder) : Bool := b.errorCode = .noError

def setError (b : PostfixBuilder) (code : ErrorCode) : PostfixBuilder :=
  if b.errorCode = .noError then { b with errorCode := code } else b

def fail (b : PostfixBuilder) (code : ErrorCode) : Parsed α := .error (b.setError code).errorCode

/-- `make_class_ref`, which goes on after its error. -/
def makeClassRef (b : PostfixBuilder) (rc : RuneClass) : PostfixBuilder × Nat :=
  if runeClassMax - runeClassBase < b.runeClasses.length then
    (b.setError .errorPatternTooLarge, runeClassBase)
  else
    ({ b with runeClasses := b.runeClasses ++ [rc] }, runeClassBase + b.runeClasses.length)

section Classes
variable (findCategory : Bytes → Option RuneClass)

def parseUnicodeCategory (b : PostfixBuilder) (s : Bytes) (negate : Bool) :
    Parsed (PostfixBuilder × Nat × Bytes) :=
  match s with
  | [] => b.fail .errorBadCharClass
  | c :: s =>
    if c ≠ '{'.toUInt8 then b.fail .errorBadCharClass
    else
      let catName := s.takeWhile (· != '}'.toUInt8)
      match s.dropWhile (· != '}'.toUInt8) with
      | [] => b.fail .errorBadCharClass
      | _ :: s =>
        if catName = [] ∨ 3 < catName.length then b.fail .errorBadCharClass
        else match findCategory catName with
          | none => b.fail .errorBadCharClass
          | some info =>
            let rc := info.finalize
            let (b, ref) := b.makeClassRef (if negate then rc.complement else rc)
            .ok (b, ref, s)

variable (mode : SyntaxMode)

def allowExtendedIdentityEscape (r : Nat) : Bool := mode = .extended && isAsciiPunctuation r

/-- The rune of an escape that stands for one rune in a class. -/
def classEscape (r : Nat) (s : Bytes) : Option (Nat × Bytes) :=
  if r = 'x'.toNat then parseHexDigits 2 0 s
  else if isClassEscape r then some (escapeToRune r, s)
  else if allowExtendedIdentityEscape mode r then some (r, s)
  else none

/-- The end of a range, after its `-`. -/
def rangeEnd (s : Bytes) : Option (Nat × Bytes) :=
  match s with
  | [] => none
  | c :: rest =>
    if c = '\\'.toUInt8 then
      if rest = [] then none
      else
        let (r, rest) := takeRune rest
        classEscape mode r rest
    else some (takeRune (c :: rest))

/-- A rune in a class, or a range that starts with it. -/
def addRunes (b : PostfixBuilder) (rc : RuneClass) (ch : Nat) (s : Bytes) :
    Parsed (RuneClass × Bytes) :=
  match s with
  | c :: d :: rest =>
    if c = '-'.toUInt8 ∧ d ≠ ']'.toUInt8 then
      match rangeEnd mode (d :: rest) with
      | none => b.fail .errorBadEscape
      | some (hi, s) =>
        if hi < ch then b.fail .errorBadCharRange else .ok (rc.addRange ch hi, s)
    else .ok (rc.addRange ch ch, s)
  | _ => .ok (rc.addRange ch ch, s)

/-- The loop body of `parse_char_class`. -/
def classItem (b : PostfixBuilder) (rc : RuneClass) (c : UInt8) (s : Bytes) :
    Parsed (PostfixBuilder × RuneClass × Bytes) :=
  if c = '['.toUInt8 ∧ startsWithChar s ':' then
    if mode ≠ .extended then b.fail .errorBadCharClass
    else match parsePosixClass s.tail with
      | none => b.fail .errorBadCharClass
      | some (ranges, s) => .ok (b, { rc with ranges := rc.ranges ++ ranges }, s)
  else if c = '\\'.toUInt8 then
    if s = [] then b.fail .errorTrailingBackslash
    else
      let (r, s) := takeRune s
      let lower := r ||| 0x20
      if r = 'p'.toNat ∨ r = 'P'.toNat then do
        let (b, ref, s) ← b.parseUnicodeCategory findCategory s (r = 'P'.toNat)
        if b.ok then
          .ok (b, rc.merge (b.runeClasses.getD (classRefIndex ref) {}), s)
        else .error b.errorCode
      else match shorthandClass lower with
        | some shorthand =>
          if mode ≠ .extended then b.fail .errorBadEscape
          else .ok (b, rc.merge (if r ≠ lower then shorthand.complement else shorthand), s)
        | none =>
          match classEscape mode r s with
          | none => b.fail .errorBadEscape
          | some (ch, s) => (addRunes mode b rc ch s).map fun (rc, s) => (b, rc, s)
  else
    let (ch, s) := takeRune (c :: s)
    (addRunes mode b rc ch s).map fun (rc, s) => (b, rc, s)

end Classes

def pushConcat (b : PostfixBuilder) : PostfixBuilder :=
  { b with
    postfixRunes := b.postfixRunes ++ b.operatorStack.takeWhile (· == catenation)
    operatorStack := catenation :: b.operatorStack.dropWhile (· == catenation) }

/-- Pops the operators above the innermost open group. -/
def popOperators (b : PostfixBuilder) : PostfixBuilder :=
  { b with
    postfixRunes := b.postfixRunes ++ b.operatorStack.takeWhile (· != lParen)
    operatorStack := b.operatorStack.dropWhile (· != lParen) }

def pushAlternation (b : PostfixBuilder) : PostfixBuilder :=
  { b.popOperators with operatorStack := alternation :: b.popOperators.operatorStack }

def beginAtom (b : PostfixBuilder) : PostfixBuilder :=
  { b with
    atomStart := b.postfixRunes.length
    needConcatBeforeAtom := b.needConcat
    atomIsQuantified := false }

/-- `begin_atom` with the label and `need_concat` that follow it. -/
def pushAtom (b : PostfixBuilder) (label : Nat) : PostfixBuilder :=
  { b.beginAtom with postfixRunes := b.postfixRunes ++ [label], needConcat := true }

def emitAtom (b : PostfixBuilder) (label : Nat) : PostfixBuilder :=
  if b.needConcat then b.pushConcat.pushAtom label else b.pushAtom label

def canEmitStandaloneCloser (mode : SyntaxMode) (b : PostfixBuilder) : Bool :=
  !b.needConcat && mode = .extended

def isLiteralBraceAfterEscape (mode : SyntaxMode) (b : PostfixBuilder) (s : Bytes) : Bool :=
  b.needConcat && mode = .extended && !isAsciiDigitAt s &&
    decide (b.atomStart < b.postfixRunes.length) && b.postfixRunes.length == b.atomStart + 1 &&
    b.postfixRunes[b.atomStart]? == some backslash

def hasPendingConcatToUndo (b : PostfixBuilder) : Bool :=
  b.needConcatBeforeAtom && b.operatorStack.head? == some catenation

def lacksQuantifiableAtom (b : PostfixBuilder) : Bool := !b.needConcat || b.atomIsQuantified

def parseQuantifierSuffix (mode : SyntaxMode) (b : PostfixBuilder) (greedyOp lazyOp : Nat)
    (s : Bytes) : Parsed (PostfixBuilder × Bytes) :=
  if startsWithChar s '?' then
    if mode ≠ .extended then b.fail .errorStrictSyntax
    else .ok ({ b with postfixRunes := b.postfixRunes ++ [lazyOp], atomIsQuantified := true }, s.tail)
  else .ok ({ b with postfixRunes := b.postfixRunes ++ [greedyOp], atomIsQuantified := true }, s)

/-- `on_star`, `on_question` and `on_plus`. -/
def onQuantifier (mode : SyntaxMode) (b : PostfixBuilder) (greedyOp lazyOp : Nat) (s : Bytes) :
    Parsed (PostfixBuilder × Bytes) :=
  if b.lacksQuantifiableAtom then b.fail .errorRepeatOp
  else do
    let (b, s) ← parseQuantifierSuffix mode b greedyOp lazyOp s
    if b.ok then .ok (b, s) else .error b.errorCode

def onStar (mode : SyntaxMode) (b : PostfixBuilder) : Bytes → Parsed (PostfixBuilder × Bytes) :=
  b.onQuantifier mode zeroOrMore lazyZeroOrMore

def onQuestion (mode : SyntaxMode) (b : PostfixBuilder) :
    Bytes → Parsed (PostfixBuilder × Bytes) :=
  b.onQuantifier mode zeroOrOne lazyZeroOrOne

def onPlus (mode : SyntaxMode) (b : PostfixBuilder) : Bytes → Parsed (PostfixBuilder × Bytes) :=
  b.onQuantifier mode oneOrMore lazyOneOrMore

/-- A `]`, `{` or `}` with no atom before it. -/
def onCloser (mode : SyntaxMode) (b : PostfixBuilder) (label : Nat) : Parsed PostfixBuilder :=
  if b.canEmitStandaloneCloser mode then .ok (b.pushAtom label) else b.fail .errorStrictSyntax

/-- Decimal digits as a `size_t`. -/
def parseCount (s : Bytes) : Nat :=
  (s.takeWhile isAsciiDigit).foldl (fun n c => (n * 10 + (c - '0'.toUInt8).toNat) % 2 ^ 64) 0

/-- The counts of a range quantifier, after its `{`. There is no second one if it is unbounded. -/
def parseCounts (s : Bytes) : Option (Nat × Option Nat × Bytes) :=
  if !isAsciiDigitAt s then none
  else
    let n := parseCount s
    let s := s.dropWhile isAsciiDigit
    let (m, s) :=
      if startsWithChar s ',' then
        if isAsciiDigitAt s.tail then
          (some (parseCount s.tail), s.tail.dropWhile isAsciiDigit)
        else (none, s.tail)
      else (some n, s)
    if startsWithChar s '}' then some (n, m, s.tail) else none

/-- The copies of an atom that a range quantifier stands for. -/
def expansion (atom : List Nat) (n : Nat) (m : Option Nat) : List Nat :=
  ((List.range n).flatMap fun i => atom ++ if 0 < i then [catenation] else []) ++
    match m with
    | none => atom ++ [zeroOrMore] ++ if 0 < n then [catenation] else []
    | some m => (List.range (m - n)).flatMap fun i =>
      atom ++ [zeroOrOne] ++ if 0 < n ∨ 0 < i then [catenation] else []

def onRange (b : PostfixBuilder) (n : Nat) (m : Option Nat) (s : Bytes) :
    Parsed (PostfixBuilder × Bytes) :=
  if maxRepetition < n ∨ maxRepetition < m.getD 0 then b.fail .errorRepeatSize
  else if m.any (· < n) then b.fail .errorRepeatSize
  else
    let atom := b.postfixRunes.drop b.atomStart
    let copies := m.getD (n + 1)
    if maxPostfixSize < b.atomStart + copies * (atom.length + 2) then b.fail .errorPatternTooLarge
    else if n = 0 ∧ m = some 0 then
      .ok ({ b with
        postfixRunes := b.postfixRunes.take b.atomStart
        operatorStack :=
          if b.hasPendingConcatToUndo then b.operatorStack.tail else b.operatorStack
        needConcat := b.needConcatBeforeAtom
        atomIsQuantified := true }, s)
    else
      let postfixRunes := b.postfixRunes.take b.atomStart ++ expansion atom n m
      if maxPostfixSize < postfixRunes.length then b.fail .errorPatternTooLarge
      else .ok ({ b with postfixRunes, needConcat := true, atomIsQuantified := true }, s)

def onOpenBrace (mode : SyntaxMode) (b : PostfixBuilder) (s : Bytes) :
    Parsed (PostfixBuilder × Bytes) :=
  if b.canEmitStandaloneCloser mode then .ok (b.pushAtom '{'.toNat, s)
  else if b.isLiteralBraceAfterEscape mode s then .ok (b.pushConcat.pushAtom '{'.toNat, s)
  else if b.atomIsQuantified then b.fail .errorRepeatOp
  else match parseCounts s with
    | none => b.fail .errorRepeatOp
    | some (n, m, s) => b.onRange n m s

def isNoncapturingGroupPrefix (s : Bytes) : Bool := startsWithChar s '?' && startsWithChar s.tail ':'

def onOpenGroup (mode : SyntaxMode) (b : PostfixBuilder) (s : Bytes) :
    Parsed (PostfixBuilder × Bytes) :=
  let capturing := !isNoncapturingGroupPrefix s
  if mode ≠ .extended then b.fail .errorStrictGroup
  else
    let s := if capturing then s else s.drop 2
    let b := if b.needConcat then b.pushConcat else b
    let capId := if capturing then b.numCaptures else 0
    let b := if capturing then { b with numCaptures := b.numCaptures + 1 } else b
    if capturing ∧ maxCaptures < b.numCaptures then b.fail .errorTooManyCaptures
    else if maxGroupNesting ≤ b.groupStartStack.length then b.fail .errorNestingTooDeep
    else .ok ({ b with
      groupStartStack := ⟨b.postfixRunes.length, b.needConcat, capturing, capId⟩ :: b.groupStartStack
      operatorStack := lParen :: b.operatorStack
      needConcat := false }, s)

def onCloseGroup (b : PostfixBuilder) : Parsed PostfixBuilder :=
  let b := b.popOperators
  match b.operatorStack, b.groupStartStack with
  | _ :: operators, group :: groups =>
    .ok { b with
      operatorStack := operators
      postfixRunes :=
        if group.capturing then b.postfixRunes ++ [captureGroup + group.captureId] else b.postfixRunes
      atomStart := group.postfixIndex
      needConcatBeforeAtom := group.needConcat
      groupStartStack := groups
      atomIsQuantified := false
      needConcat := true }
  | _, _ => b.fail .errorUnexpectedParen

def onPipe (b : PostfixBuilder) : PostfixBuilder := { b.pushAlternation with needConcat := false }

/-- `finalize`, at the end of the pattern. -/
def finalize (b : PostfixBuilder) : Parsed PostfixBuilder :=
  let b := b.popOperators
  if b.operatorStack ≠ [] then b.fail .errorMissingParen
  else if b.escaped then b.fail .errorTrailingBackslash
  else if maxPostfixSize < b.postfixRunes.length then b.fail .errorPatternTooLarge
  else .ok b

section Patterns
variable (findCategory : Bytes → Option RuneClass) (mode : SyntaxMode)

/-- The loop of `parse_char_class`, with a step for each byte that is left. -/
def classItems : Nat → PostfixBuilder → RuneClass → Bytes →
    Parsed (PostfixBuilder × RuneClass × Bytes)
  | 0, b, rc, s => .ok (b, rc, s)
  | fuel + 1, b, rc, s =>
    match s with
    | [] => .ok (b, rc, s)
    | c :: rest =>
      if c = ']'.toUInt8 then .ok (b, rc, s)
      else do
        let (b, rc, s) ← classItem findCategory mode b rc c rest
        classItems fuel b rc s

/-- `parse_char_class`, after the `[`. -/
def parseCharClass (b : PostfixBuilder) (s : Bytes) : Parsed (PostfixBuilder × Nat × Bytes) :=
  let negated := startsWithChar s '^'
  let s := if negated then s.tail else s
  if s = [] ∨ startsWithChar s ']' then b.fail .errorMissingBracket
  else do
    let (b, rc, s) ← classItems findCategory mode s.length b {} s
    if s = [] then b.fail .errorMissingBracket
    else
      let rc := rc.finalize
      let (b, ref) := b.makeClassRef (if negated then rc.complement else rc)
      if b.ok then .ok (b, ref, s.tail) else .error b.errorCode

def onEscape (b : PostfixBuilder) (r : Nat) (s : Bytes) : Parsed (PostfixBuilder × Bytes) :=
  let b := { b with escaped := false }
  if r = 'p'.toNat ∨ r = 'P'.toNat then do
    let (b, ref, s) ← parseUnicodeCategory findCategory b s (r = 'P'.toNat)
    if b.ok then .ok (b.emitAtom ref, s) else .error b.errorCode
  else
    let lower := r ||| 0x20
    match shorthandClass lower with
    | some rc =>
      if mode ≠ .extended then b.fail .errorBadEscape
      else
        let (b, ref) := b.makeClassRef (if r ≠ lower then rc.complement else rc)
        .ok (b.emitAtom ref, s)
    | none =>
      if r = 'x'.toNat then
        match parseHexDigits 2 0 s with
        | none => b.fail .errorBadEscape
        | some (value, s) => .ok (b.emitAtom value, s)
      else if r = 'b'.toNat then
        if mode ≠ .extended then b.fail .errorBadEscape else .ok (b.emitAtom wordBoundary, s)
      else if isClassEscape r then .ok (b.emitAtom (escapeToRune r), s)
      else if allowExtendedIdentityEscape mode r then .ok (b.emitAtom r, s)
      else b.fail .errorBadEscape

def onDot (b : PostfixBuilder) : PostfixBuilder :=
  let (b, ref) := b.makeClassRef .dot
  b.emitAtom ref

/-- The loop body of `regexp_to_postfix_runes`, for a rune that is not escaped. -/
def onRune (b : PostfixBuilder) (r : Nat) (s : Bytes) : Parsed (PostfixBuilder × Bytes) :=
  if r = backslash then .ok ({ b with escaped := true }, s)
  else if r = '.'.toNat then .ok (b.onDot, s)
  else if r = '['.toNat then do
    let (b, ref, s) ← parseCharClass findCategory mode b s
    .ok (b.emitAtom ref, s)
  else if r = '^'.toNat then .ok (b.emitAtom startAnchor, s)
  else if r = '$'.toNat then .ok (b.emitAtom endAnchor, s)
  else if r = ']'.toNat then do return (← b.onCloser mode ']'.toNat, s)
  else if r = '{'.toNat then b.onOpenBrace mode s
  else if r = '}'.toNat then do return (← b.onCloser mode '}'.toNat, s)
  else if r = lParen then b.onOpenGroup mode s
  else if r = rParen then do return (← b.onCloseGroup, s)
  else if r = pipe then .ok (b.onPipe, s)
  else if r = asterisk then b.onStar mode s
  else if r = question then b.onQuestion mode s
  else if r = plus then b.onPlus mode s
  else .ok (b.emitAtom r, s)

/-- The loop of `regexp_to_postfix_runes`, with a step for each byte that is left. -/
def build : Nat → PostfixBuilder → Bytes → Parsed PostfixBuilder
  | 0, b, _ => b.finalize
  | fuel + 1, b, s =>
    if s = [] then b.finalize
    else do
      let (r, rest) := takeRune s
      let (b, s) ← if b.escaped then onEscape findCategory mode b r rest
        else onRune findCategory mode b r rest
      build fuel b s

end Patterns

end PostfixBuilder

/-- `regexp_to_postfix_runes` -/
def regexpToPostfixRunes (findCategory : Bytes → Option RuneClass) (mode : SyntaxMode)
    (pattern : Bytes) : Parsed PostfixBuilder :=
  PostfixBuilder.build findCategory mode pattern.length {} pattern

end Trieste.Regex
