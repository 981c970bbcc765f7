import Mathlib.Data.List.DropRight
import Mathlib.Data.List.Infix
import Mathlib.Logic.Relation
import Trieste.Source
import Trieste.Yaml.Scalar

namespace Trieste.Yaml
set_option autoImplicit true
open Utf8 Relation

abbrev Text := List UInt8

/-- The bytes of a location of the source with the given text. -/
def viewOf (text : Text) (l : Location) : Text := (text.drop l.pos).take l.len

/-- The column of `linecol`. -/
def column (text : Text) (pos : Nat) : Nat := ((text.take pos).rtakeWhile (· ≠ newline)).length

/-- `find_first_not_of`, from a position on. -/
def findFirstNotOf (set view : Text) (start : Nat) : Option Nat :=
  ((view.drop start).findIdx? (· ∉ set)).map (start + ·)

/-- `find_last_not_of` -/
def findLastNotOf (set view : Text) : Option Nat :=
  (view.reverse.findIdx? (· ∉ set)).map (view.length - 1 - ·)

section Trim
variable (text : Text) (minIndent : Nat)

def trimStart (l : Location) : Location :=
  let view := viewOf text l
  match findFirstNotOf [0x20] view 0 with
  | none => { l with len := 0 }
  | some indent =>
    let start := if minIndent ≤ indent then findFirstNotOf [0x20, tab] view indent else some indent
    match start with
    -- `npos` is -1, which is added to the position, one behind the quote at least, and subtracted
    -- from the length
    | none => { l with pos := l.pos - 1, len := l.len + 1 }
    | some start => { l with pos := l.pos + start, len := l.len - start }

def trimEnd (l : Location) : Location :=
  let view := viewOf text l
  match findLastNotOf [0x20, tab, carriageReturn, newline] view with
  | none => { l with len := 0 }
  | some stop =>
    if stop = view.length - 1 then l
    else
      let escaped := view[stop]? = some backslash ∧ view[stop + 1]? = some tab
      { l with len := (if escaped then stop + 1 else stop) + 1 }

def trim (l : Location) : Location := trimEnd text (trimStart text minIndent l)

/-- The locations of lines that start at the given position. -/
def placeLines (source : Option SourceDef) (pos : Nat) : List Text → List Location
  | [] => []
  | line :: lines =>
    { source, pos, len := line.length } :: placeLines source (pos + line.length + 1) lines

/-- A child of a quoted scalar; the text of an error is not looked at again. -/
inductive QuoteLine where
  | block (view : Text)
  | empty
  | error (msg : String)
  deriving DecidableEq

/-- `BlockLine`, or `EmptyLine`, with its location. -/
def middleLine (l : Location) : Bool × Location :=
  let line := trim text minIndent l
  (decide (line.len = 0 ∧ column text line.pos = 0), line)

def markOf (marker : String) : Text := marker.toList.map Char.toUInt8

/-- The last loop of `to_lines`. -/
def checkLine (line : Bool × Location) : QuoteLine :=
  let view := viewOf text line.2
  if line.2.len = 0 then if line.1 then .empty else .block view
  else if column text line.2.pos < minIndent then .error "Wrong indentation"
  else if markOf "... " <:+: view ∨ markOf "..." <:+ view then .error "Scalar contains '...'"
  else .block view

/-- The lines between the first and the last one, and the last one. -/
def restLines : List Location → List (Bool × Location)
  | [] => []
  | [last] => [(false, trimStart text minIndent last)]
  | line :: next :: rest => middleLine text minIndent line :: restLines (next :: rest)

/-- An empty first line is left out before an `EmptyLine`. -/
def dropFirst : List (Bool × Location) → List (Bool × Location)
  | first :: next :: rest =>
    if first.1 = false ∧ first.2.len = 0 ∧ next.1 then next :: rest else first :: next :: rest
  | lines => lines

/-- `to_lines`, for the location of a scalar with its quotes. -/
def toLines (l : Location) : List QuoteLine :=
  if l.len = 0 then []
  else
    let inner := ((viewOf text l).drop 1).dropLast
    match placeLines l.source (l.pos + 1) (inner.splitOn newline) with
    | [] => []
    | [line] => [.block (viewOf text line)]
    | first :: next :: rest =>
      (dropFirst ((false, trimEnd text first) :: restLines text minIndent (next :: rest))).map
        (checkLine text minIndent)

end Trim

namespace QuoteLine

def view : QuoteLine → Text
  | block view => view
  | empty | error _ => []

end QuoteLine

/-- The rules of the `anchors` pass that merge lines. -/
inductive Merge : List QuoteLine → List QuoteLine → Prop where
  | block (before after : List QuoteLine) :
    Merge (before ++ .block [] :: .block [] :: after) (before ++ .block [0x20] :: after)
  | empty (before after : List QuoteLine) :
    Merge (before ++ .empty :: .block [] :: after) (before ++ .empty :: after)

def Merged (lines : List QuoteLine) : Prop := ∀ lines', ¬ Merge lines lines'

inductive QuoteKind where
  | single
  | double
  deriving DecidableEq

/-- A round of the loop of `replace_all`, for two characters and one. -/
def replaceFirst (find : UInt8 × UInt8) (replace : UInt8) : Text → Option Text
  | c :: d :: rest =>
    if c = find.1 ∧ d = find.2 then some (replace :: rest)
    else (replaceFirst find replace (d :: rest)).map (c :: ·)
  | _ => none

/-- `replace_all`, which starts over after each change. Every change makes the text shorter. -/
def replaceAll (find : UInt8 × UInt8) (replace : UInt8) (s : Text) : Text :=
  go s.length s
where
  go : Nat → Text → Text
    | 0, s => s
    | fuel + 1, s =>
      match replaceFirst find replace s with
      | none => s
      | some s => go fuel s

section Write
variable (kind : QuoteKind) (rawQuote : Bool)

def quoteEscape : Text :=
  (match kind with
    | .double => [tab, carriageReturn, newline]
    | .single => [backslash]) ++ if rawQuote then [] else [quote]

/-- What is written for the characters of a line. -/
def quoteText (view : Text) : Except Exception Text :=
  (escapeChars (quoteEscape kind rawQuote) view).map fun text =>
    match kind with
    | .double => if rawQuote then replaceAll (backslash, quote) quote text else text
    | .single => replaceAll (0x27, 0x27) 0x27 text

/-- The loop of `quote_to_string`, with whether it is at the first line, and what follows it. -/
def quoteLoop : Bool → List QuoteLine → Except Exception Text
  | _, [] => .ok []
  | first, [last] =>
    if last = .empty then .ok writtenNewline
    else if last.view = [] ∧ first = false then .ok [0x20]
    else quoteText kind rawQuote last.view
  | first, line :: next :: rest =>
    if line = .empty then (quoteLoop false (next :: rest)).map (writtenNewline ++ ·)
    else if line.view = [] then
      (quoteLoop false (next :: rest)).map ((if first then [0x20] else writtenNewline) ++ ·)
    else
      (quoteText kind rawQuote line.view).bind fun text =>
        (quoteLoop false (next :: rest)).map fun out =>
          text ++ (if next.view ≠ [] ∧ line.view.getLast? ≠ some backslash then [0x20] else []) ++
            out

/-- `quote_to_string` -/
def quoteToString (lines : List QuoteLine) : Except Exception Text := quoteLoop kind rawQuote true lines

end Write

/-- The rule of `strings` for quoted scalars. -/
def quoteString (kind : QuoteKind) (lines : List QuoteLine) : Except Exception Text :=
  (quoteToString kind false lines).map quoted

end Trieste.Yaml
