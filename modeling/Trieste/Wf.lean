import Trieste.Token

namespace Trieste
set_option autoImplicit true

namespace Wf

structure Choice where
  types : List Token
  deriving DecidableEq

structure Sequence where
  choice : Choice
  minLen : Nat := 0
  maxLen : Nat := UInt64.size - 1
  deriving DecidableEq

structure Field where
  name : Token
  choice : Choice
  deriving DecidableEq

structure Fields where
  fields : List Field
  deriving DecidableEq

inductive Shape
  | sequence (s : Sequence)
  | fields (f : Fields)
  deriving DecidableEq

namespace Shape

def choices : Shape → List Choice
  | sequence s => [s.choice]
  | fields f => f.fields.map Field.choice

end Shape

end Wf

/-- The shapes of a map, each under its own token. The order is that of the map. -/
structure Wellformed where
  shapes : List (Token × Wf.Shape)
  distinct : (shapes.map Prod.fst).Nodup

namespace Wf

/-- A map from tokens to numbers. A newer entry of a token hides the older one. -/
abbrev TokenTerminalDistance := List (Token × Nat)

namespace Choice

/-- The sum over the types, as a `size_t`. -/
def sumDistance (omitted : List Token) (maxDistance : Nat)
    (distance : Token → TokenTerminalDistance → Option (Nat × TokenTerminalDistance)) :
    List Token → Nat → TokenTerminalDistance → Option (Nat × TokenTerminalDistance)
  | [], acc, known => some (acc, known)
  | type :: types, acc, known =>
    if omitted.contains type then
      sumDistance omitted maxDistance distance types ((acc + maxDistance) % UInt64.size) known
    else do
      let d ← distance type known
      sumDistance omitted maxDistance distance types ((acc + d.1) % UInt64.size) d.2

def expectedDistanceToTerminal (c : Choice) (omitted : List Token) (maxDistance : Nat)
    (distance : Token → TokenTerminalDistance → Option (Nat × TokenTerminalDistance))
    (known : TokenTerminalDistance) : Option (Nat × TokenTerminalDistance) := do
  let (sum, known) ← sumDistance omitted maxDistance distance c.types 0 known
  return (sum / c.types.length, known)

end Choice

/-- The greatest distance of the choices of some fields. -/
def fieldsDistance (distance : Choice → TokenTerminalDistance → Option (Nat × TokenTerminalDistance)) :
    List Field → Nat → TokenTerminalDistance → Option (Nat × TokenTerminalDistance)
  | [], acc, known => some (acc, known)
  | field :: fields, acc, known => do
    let (d, known) ← distance field.choice known
    fieldsDistance distance fields (max acc d) known

end Wf

namespace Wellformed
open Wf

def find (wf : Wellformed) (token : Token) : Option Shape := wf.shapes.lookup token

/-- The distance of a token below the tokens of `above`, with the map after it. -/
def minDistToTerminal (wf : Wellformed) (maxDistance : Nat) : Nat → List Token → Token →
    TokenTerminalDistance → Option (Nat × TokenTerminalDistance)
  | 0, _, _, _ => none
  | fuel + 1, above, token, known =>
    match known.lookup token with
    | some d => some (d, known)
    | none =>
      let expected (c : Choice) (known : TokenTerminalDistance) :=
        c.expectedDistanceToTerminal (token :: above) maxDistance
          (wf.minDistToTerminal maxDistance fuel (token :: above)) known
      match wf.find token with
      | none => some (0, (token, 0) :: known)
      | some (.sequence s) => do
        let (d, known) ← expected s.choice known
        return (d, (token, d) :: known)
      | some (.fields f) => do
        let (d, known) ← fieldsDistance expected f.fields 0 known
        return (d, (token, d) :: known)

def computeFrom (wf : Wellformed) (maxDistance : Nat) :
    List (Token × Shape) → TokenTerminalDistance → Option TokenTerminalDistance
  | [], known => some known
  | (token, _) :: shapes, known => do
    let (d, known) ← wf.minDistToTerminal maxDistance (wf.shapes.length + 1) [] token known
    wf.computeFrom maxDistance shapes ((token, d) :: known)

def computeMinimumDistanceToTerminal (wf : Wellformed) (maxDistance : Nat) :
    Option TokenTerminalDistance := wf.computeFrom maxDistance wf.shapes []

end Wellformed

end Trieste
