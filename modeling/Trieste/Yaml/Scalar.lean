import Mathlib.Data.List.DropRight
import Trieste.Utf8.Unescape

namespace Trieste.Yaml
set_option autoImplicit true
open Utf8

def newline : UInt8 := 0x0A
def carriageReturn : UInt8 := 0x0D
def tab : UInt8 := 0x09
def quote : UInt8 := 0x22

/-- `is_space` -/
def isSpaceChar (c : UInt8) : Bool :=
  c = 0x20 || c = tab || c = carriageReturn || c = newline

/-- `escape_char` -/
def escapeChar (c : UInt8) : List UInt8 :=
  if c = newline then [backslash, 0x6E]
  else if c = carriageReturn then [backslash, 0x72]
  else if c = 0x08 then [backslash, 0x62]
  else if c = 0x0C then [backslash, 0x66]
  else if c = tab then [backslash, 0x74]
  else if c = 0x20 ∨ c = 0x2F then [c]
  else [backslash, c]

/-- The loop of `escape_chars`. -/
def escapeLoop (toEscape : List UInt8) : Bool → List UInt8 → List UInt8
  | _, [] => []
  | true, c :: input => escapeChar c ++ escapeLoop toEscape false input
  | false, c :: input =>
    if c ∈ toEscape then escapeChar c ++ escapeLoop toEscape false input
    else if c = backslash then escapeLoop toEscape true input
    else if isSpaceChar c then 0x20 :: escapeLoop toEscape false input
    else c :: escapeLoop toEscape false input

/-- `escape_chars` -/
def escapeChars (toEscape str : List UInt8) : Except Exception (List UInt8) :=
  (unescapeHexunicode str).map (escapeLoop toEscape false)

inductive Chomp where
  | clip
  | strip
  | keep
  deriving DecidableEq

inductive BlockKind where
  | literal
  | folded
  deriving DecidableEq

/-- A line of a plain scalar on several lines. -/
structure PlainLine where
  emptyLine : Bool
  view : List UInt8

/-- The nodes that `block_to_string` writes; a block scalar may also lack its lines. -/
inductive BlockNode where
  | plain (first : PlainLine) (rest : List PlainLine)
  | short (kind : BlockKind)
  | block (kind : BlockKind) (indent : Nat) (chomp : Chomp) (lines : List (List UInt8))

/-- What the characters of a block are escaped with. -/
def blockEscape (rawQuotes : Bool) : List UInt8 :=
  [backslash, newline, carriageReturn, tab] ++ if rawQuotes then [] else [quote]

/-- The text that stands for a line break. -/
def writtenNewline : List UInt8 := [backslash, 0x6E]

def startsSpace (view : List UInt8) : Bool := view.head?.any isSpace

def plainLines (toEscape : List UInt8) :
    PlainLine → List PlainLine → Except Exception (List UInt8)
  | last, [] => escapeChars toEscape last.view
  | line, next :: rest =>
    if line.emptyLine then (plainLines toEscape next rest).map (writtenNewline ++ ·)
    else
      (escapeChars toEscape line.view).bind fun text =>
        (plainLines toEscape next rest).map fun out =>
          text ++ (if startsSpace line.view || startsSpace next.view then [] else [0x20]) ++ out

/-- The lines that are no comments, up to the last one with content unless all are kept. -/
def blockLines (indent : Nat) (chomp : Chomp) (lines : List (List UInt8)) : List (List UInt8) :=
  let lines := lines.filter fun view => 0x23 ∉ view.take indent
  if chomp = .keep then lines else lines.rdropWhile fun line => line.length ≤ indent

/-- A line that starts with blanks behind the indentation. -/
def isIndentedLine (current : List UInt8) : Bool :=
  let blanks := (current.takeWhile fun c => c = 0x20 || c = tab).length
  current.head? = some tab || (0 < blanks && blanks < current.length)

/-- What is written between a line with content and the next one. -/
def lineBreak (kind : BlockKind) (indent : Nat) (indented : Bool) (next : List UInt8) :
    List UInt8 :=
  match kind with
  | .literal => writtenNewline
  | .folded =>
    if indented then writtenNewline
    else if indent < next.length ∧ next[indent]? ≠ some 0x20 then [0x20]
    else []

def lastLine (toEscape : List UInt8) (indent : Nat) (chomp : Chomp) (last : List UInt8) :
    Except Exception (List UInt8) :=
  if indent < last.length then
    let last := last.drop indent
    if last.head? = some newline then
      match chomp with
      | .clip => .ok writtenNewline
      | .keep => (escapeChars toEscape last).map (writtenNewline ++ ·)
      | .strip => .ok []
    else (escapeChars toEscape last).map (· ++ if chomp = .strip then [] else writtenNewline)
  else .ok (if chomp = .strip then [] else writtenNewline)

/-- The loop over the lines, with whether the line before was indented and none had content. -/
def blockLoop (toEscape : List UInt8) (kind : BlockKind) (indent : Nat) (chomp : Chomp) :
    Bool → Bool → List (List UInt8) → Except Exception (List UInt8)
  | _, _, [] => .ok []
  | _, _, [last] => lastLine toEscape indent chomp last
  | isIndented, onlyEmpty, line :: next :: rest =>
    if line = [newline] ∨ line.length ≤ indent then
      (blockLoop toEscape kind indent chomp isIndented onlyEmpty (next :: rest)).map
        (writtenNewline ++ ·)
    else
      let current := line.drop indent
      let indented := isIndentedLine current
      let before :=
        if indented ∧ ¬ isIndented ∧ ¬ onlyEmpty ∧ kind = .folded then writtenNewline else []
      (escapeChars toEscape current).bind fun text =>
        (blockLoop toEscape kind indent chomp indented false (next :: rest)).map fun out =>
          before ++ text ++ lineBreak kind indent indented next ++ out

/-- `block_to_string` -/
def blockToString (rawQuotes : Bool) : BlockNode → Except Exception (List UInt8)
  | .plain first rest => plainLines (blockEscape rawQuotes) first rest
  | .short _ => .ok []
  | .block kind indent chomp lines =>
    blockLoop (blockEscape rawQuotes) kind indent chomp false true (blockLines indent chomp lines)

def quoted (text : List UInt8) : List UInt8 := quote :: (text ++ [quote])

/-- The rule of `strings` for block scalars and plain scalars on several lines. -/
def blockString (node : BlockNode) : Except Exception (List UInt8) :=
  (blockToString false node).map quoted

/-- The rule of `strings` for values. -/
def valueString (view : List UInt8) : Except Exception (List UInt8) :=
  (escapeChars [backslash, quote] view).map quoted

end Trieste.Yaml
