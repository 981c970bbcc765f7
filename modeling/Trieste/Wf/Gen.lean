import Trieste.Wf
import Mathlib.Algebra.Order.Field.Rat

namespace Trieste
set_option autoImplicit true

namespace Wf

/-- What a choice throws. -/
inductive GenError
  | noCandidates (tokens : List Token) (parent : Token) (depth : Nat) (reason : String)
  | noDistance (token : Token)
  | outside
  deriving DecidableEq

/-- What decides the choices of a generator. -/
structure Gen where
  tokenTerminalDistance : TokenTerminalDistance
  targetDepth : Nat
  tokenWeights : List (Token × Nat) := []

/-- The results of the random numbers one after the other. -/
abbrev Draws := Nat → UInt32

namespace Gen

def ceilingDepth (g : Gen) : Nat := 2 * g.targetDepth % UInt64.size

def weightFor (g : Gen) (token : Token) : Nat := (g.tokenWeights.lookup token).getD 1

/-- `tokens[index]` -/
def token (tokens : List Token) (index : Nat) : Except GenError Token :=
  match tokens[index]? with
  | some t => .ok t
  | none => .error .outside

/-- `partial_sum` -/
def partialSum (offsets : List Rat) : List Rat :=
  (List.range offsets.length).map fun i => (offsets.take (i + 1)).sum

/-- A `double` is modelled by a rational. -/
def chooseFromCumulative (tokens : List Token) (cumulative : List Rat) (parent : Token)
    (depth : Nat) (result : UInt32) : Except GenError Token :=
  match cumulative.getLast? with
  | none => .error (.noCandidates tokens parent depth "no positive effective weights")
  | some total =>
    if total ≤ 0 then .error (.noCandidates tokens parent depth "no positive effective weights")
    else
      let value := (result.toNat : Rat) / (2 ^ 32 - 1) * total
      token tokens (cumulative.findIdx (value ≤ ·))

/-- `1 / (1 + alpha * (depth - target_depth) * distance)`, with the `alpha` of 1. -/
def offset (g : Gen) (depth distance : Nat) : Rat :=
  1 / (1 + ((depth - g.targetDepth : Nat) : Rat) * distance)

def offsets (g : Gen) (depth : Nat) (tokens : List Token) : Except GenError (List Rat) :=
  tokens.mapM fun t =>
    match g.tokenTerminalDistance.lookup t with
    | some distance => .ok (g.offset depth distance)
    | none => .error (.noDistance t)

/-- `max_element`, as an index. -/
def maxElement (offsets : List Rat) : Nat := offsets.findIdx fun x => offsets.all (· ≤ x)

/-- A token, with the number of results that are used up. -/
def choose (g : Gen) (tokens : List Token) (depth : Nat) (parent : Token) (draws : Draws)
    (i : Nat) : Except GenError (Token × Nat) :=
  match tokens with
  | [] => .error (.noCandidates tokens parent depth "empty token list")
  | [t] =>
    if g.tokenWeights ≠ [] ∧ g.weightFor t = 0 then
      .error (.noCandidates tokens parent depth "single token has zero effective weight")
    else .ok (t, i)
  | tokens =>
    if depth ≤ g.targetDepth then
      if g.tokenWeights ≠ [] then do
        let weights := partialSum (tokens.map fun t => (g.weightFor t : Rat))
        return (← chooseFromCumulative tokens weights parent depth (draws i), i + 1)
      else do return (← token tokens ((draws i).toNat % tokens.length), i + 1)
    else do
      let offsets ← g.offsets depth tokens
      if g.ceilingDepth ≤ depth then return (← token tokens (maxElement offsets), i)
      else
        let offsets :=
          if g.tokenWeights ≠ [] then
            offsets.zipWith (fun offset t => offset * (g.weightFor t : Rat)) tokens
          else offsets
        return (← chooseFromCumulative tokens (partialSum offsets) parent depth (draws i), i + 1)

end Gen

end Wf

end Trieste
