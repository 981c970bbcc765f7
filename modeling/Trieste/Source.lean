namespace Trieste
set_option autoImplicit true

/-- A source, which is known by its address. -/
structure SourceDef where
  address : Nat
  contents : String
  offset : Nat := 0
  deriving DecidableEq

structure Location where
  source : Option SourceDef := none
  pos : Nat := 0
  len : Nat := 0
  deriving DecidableEq

namespace Location

/-- The location of a text of its own, in a synthetic source. -/
def ofString (s : String) : Location :=
  { source := some { address := 0, contents := s }, len := s.length }

def view (l : Location) : String :=
  match l.source with
  | none => ""
  | some source => String.ofList ((source.contents.toList.drop (l.pos - source.offset)).take l.len)

/-- `operator*`, the range from one location to the other in the same source. -/
def join (l that : Location) : Location :=
  match l.source, that.source with
  | none, _ => that
  | some _, none => l
  | some source, some source' =>
    if source.address ≠ source'.address then l
    else
      let lo := min l.pos that.pos
      { source := some source, pos := lo, len := max (l.pos + l.len) (that.pos + that.len) - lo }

end Location

end Trieste
