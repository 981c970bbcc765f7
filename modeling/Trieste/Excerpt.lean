import Mathlib.Data.List.Basic

namespace Trieste.Excerpt
set_option autoImplicit true

abbrev Bytes := List UInt8

/-- A string, whose length is a `size_t`. -/
abbrev Text := { text : Bytes // text.length < UInt64.size }

structure SourceDef where
  address : Nat
  origin : Bytes
  text : Text
  offset : UInt64 := 0

abbrev SourceDef.contents (s : SourceDef) : Bytes := s.text.1

structure Location where
  source : Option SourceDef := none
  pos : UInt64 := 0
  len : UInt64 := 0

/-- `substr`, which throws when it starts after the end. -/
def substr (text : Bytes) (pos count : UInt64) : Option Bytes :=
  if pos.toNat ≤ text.length then some ((text.drop pos.toNat).take count.toNat) else none

def SourceDef.synthetic (address : Nat) (text : Text) (origin : Bytes) : SourceDef :=
  { address, origin, text }

def SourceDef.syntheticAtOffset (address : Nat) (text : Text) (origin : Bytes) (offset : UInt64) :
    SourceDef :=
  { SourceDef.synthetic address text origin with offset }

namespace SourceDef

def lines (s : SourceDef) : List UInt64 := (s.contents.findIdxs (· = 10)).map Nat.toUInt64

def linecol (s : SourceDef) (pos : UInt64) : Option (Nat × UInt64) :=
  match s.lines.findIdx (pos ≤ ·) with
  | 0 => some (0, pos)
  | line + 1 => s.lines[line]?.map fun start => (line + 1, pos - (start + 1))

def linepos (s : SourceDef) (line : Nat) : Option (UInt64 × UInt64) :=
  if s.lines.length < line then some (UInt64.ofNat (UInt64.size - 1), 0)
  else do
    let start ← match line with
      | 0 => some 0
      | line + 1 => s.lines[line]?.map (· + 1)
    let stop := (s.lines[line]?).getD s.contents.length.toUInt64
    return (start, stop - start)

end SourceDef

namespace Location

def ofString (address : Nat) (text : Text) : Location :=
  { source := some (.synthetic address text []), len := text.1.length.toUInt64 }

def view (l : Location) : Option Bytes :=
  match l.source with
  | none => some []
  | some source => substr source.contents (l.pos - source.offset) l.len

/-- The line and the column. A source with an offset knows no lines. -/
def linecol (l : Location) : Option (Nat × UInt64) :=
  match l.source with
  | none => some (0, 0)
  | some source => if source.offset ≠ 0 then some (0, l.pos) else source.linecol l.pos

def decimal (n : Nat) : Bytes := n.repr.toUTF8.toList

def originLinecol (l : Location) : Option Bytes :=
  match l.source with
  | none => some []
  | some source =>
    if source.origin = [] then some []
    else do
      let (line, col) ← l.linecol
      return source.origin ++ [58] ++ decimal ((line + 1) % UInt64.size) ++ [58] ++
        decimal (col + 1).toNat

def writeCharsSkippingR (text : Bytes) : Bytes := text.filter (· ≠ 13)

def writeIndexedSkippingR (text : Bytes) (write : Nat → UInt8) : Bytes :=
  (text.zipIdx.filter (·.1 ≠ 13)).map fun c => write c.2

def underline (col : UInt64) (index : Nat) : UInt8 := if index < col.toNat then 32 else 126

def str (l : Location) : Option Bytes :=
  match l.source with
  | none => some []
  | some source => do
    let (line, col) ← l.linecol
    let (linepos, linelen) ← source.linepos line
    if (← l.view).contains 10 then
      let first ← substr source.contents linepos linelen
      let (line2, col2) ← source.linecol (l.pos + l.len)
      let (linepos2, linelen2) ← source.linepos line2
      let last ← substr source.contents linepos2 linelen2
      let interimPos := linepos + linelen
      let interim ← substr source.contents interimPos (linepos2 - interimPos)
      let marked ← substr last 0 col2
      return writeIndexedSkippingR first (underline col) ++ [10] ++
        writeCharsSkippingR first ++ writeCharsSkippingR interim ++ writeCharsSkippingR last ++
        [10] ++ writeIndexedSkippingR marked (fun _ => 126) ++ [10]
    else
      let text ← substr source.contents linepos linelen
      -- the assertion of a debug build
      if l.pos < linepos then none
      else
        let marked ← substr text 0 (l.pos - linepos + l.len)
        return writeCharsSkippingR text ++ [10] ++ writeIndexedSkippingR marked (underline col) ++
          [10]

/-- `operator*` -/
def join (l that : Location) : Location :=
  match l.source, that.source with
  | none, _ => that
  | some _, none => l
  | some source, some source' =>
    if source.address ≠ source'.address then l
    else
      let lo := min l.pos that.pos
      { source := some source, pos := lo, len := max (l.pos + l.len) (that.pos + that.len) - lo }

end Location

/-- What stands after the type of a node in a dump. A name that is left out is that of the
parent. -/
inductive Annotation
  | absent
  | content (text : Text)
  | printed (filename : Option Bytes) (pos : UInt64) (text : Text)
  | span (filename : Option Bytes) (pos len : UInt64)

def parentOrigin (parent : Location) : Bytes := (parent.source.map SourceDef.origin).getD []

/-- `parse_location`, of a node with the text of its type and the location of its parent. A node
without a parent has an empty one. -/
def parseLocation (address : Nat) (type : Text) (parent : Location) : Annotation → Location
  | .absent => .ofString address type
  | .content text => .ofString address text
  | .printed filename pos text =>
    let origin := filename.getD (parentOrigin parent)
    { source := some (.syntheticAtOffset address text origin pos)
      pos := pos
      len := text.1.length.toUInt64 }
  | .span filename pos len =>
    let origin := filename.getD (parentOrigin parent)
    { source := some (.synthetic address ⟨[], by decide⟩ origin), pos := pos, len := len }

end Trieste.Excerpt
