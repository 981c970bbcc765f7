import Trieste.Library.EpochSet
import Trieste.Regex.Syntax

namespace Trieste.Regex
set_option autoImplicit true
open Library

/-- A state is its index in the state storage, which is also its `closure_index`. -/
abbrev State := Nat

structure StateDef where
  label : Nat
  next : Option State := none
  nextAlt : Option State := none
  asciiAccept : Bitmap := {}
  trivialClosure : Bool := false
  deriving DecidableEq

/-- The `next` or `next_alt` member of a state. -/
structure Slot where
  state : State
  alt : Bool
  deriving DecidableEq

def StateDef.get (d : StateDef) (alt : Bool) : Option State := if alt then d.nextAlt else d.next

def StateDef.put (d : StateDef) (alt : Bool) (target : State) : StateDef :=
  if alt then { d with nextAlt := some target } else { d with next := some target }

structure Frag where
  start : State
  dangling : List Slot

/-- The engine while its NFA is built. -/
structure Builder where
  ownedStates : List StateDef := []
  capacity : Nat
  errorCode : ErrorCode := .noError

def acceptState : State := 0

def patchStates (states : List StateDef) (targets : List Slot) (target : State) : List StateDef :=
  targets.foldl (fun states entry => states.modify entry.state (StateDef.put · entry.alt target))
    states

namespace Builder

def setError (b : Builder) (code : ErrorCode) : Builder :=
  if b.errorCode = .noError then { b with errorCode := code } else b

def createState (b : Builder) (label : Nat) (next nextAlt : Option State) : Builder × State :=
  if b.capacity ≤ b.ownedStates.length then (b.setError .errorInternalError, acceptState)
  else ({ b with ownedStates := b.ownedStates ++ [{ label, next, nextAlt }] }, b.ownedStates.length)

def patch (b : Builder) (targets : List Slot) (target : State) : Builder :=
  { b with ownedStates := patchStates b.ownedStates targets target }

end Builder

inductive QuantifierKind
  | zeroOrOne
  | zeroOrMore
  | oneOrMore
  deriving DecidableEq

/-- The `Split` of a quantifier, whose branch that is not patched yet is the way past it. -/
def createSplit (b : Builder) (operand : State) (isLazy : Bool) : Builder × State :=
  if isLazy then b.createState split none (some operand)
  else b.createState split (some operand) none

def buildQuantifier (b : Builder) (stack : List Frag) (kind : QuantifierKind) (isLazy : Bool) :
    Builder × List Frag :=
  match stack with
  | [] => (b.setError .errorRepeatOp, [])
  | operand :: stack =>
    let (b, state) := createSplit b operand.start isLazy
    let unpatched : Slot := ⟨state, !isLazy⟩
    match kind with
    | .zeroOrOne => (b, ⟨state, operand.dangling ++ [unpatched]⟩ :: stack)
    | .zeroOrMore => (b.patch operand.dangling state, ⟨state, [unpatched]⟩ :: stack)
    | .oneOrMore => (b.patch operand.dangling state, ⟨operand.start, [unpatched]⟩ :: stack)

def quantifier? (label : Nat) : Option (QuantifierKind × Bool) :=
  if label = zeroOrOne ∨ label = lazyZeroOrOne then
    some (.zeroOrOne, label == lazyZeroOrOne)
  else if label = zeroOrMore ∨ label = lazyZeroOrMore then
    some (.zeroOrMore, label == lazyZeroOrMore)
  else if label = oneOrMore ∨ label = lazyOneOrMore then
    some (.oneOrMore, label == lazyOneOrMore)
  else none

/-- One token of `postfix_to_nfa`; no stack is left where it returns early. -/
def postfixToken (b : Builder) (stack : List Frag) (label : Nat) : Builder × Option (List Frag) :=
  if label = catenation then
    match stack with
    | right :: left :: stack =>
      (b.patch left.dangling right.start, some (⟨left.start, right.dangling⟩ :: stack))
    | _ => (b.setError .errorInternalError, none)
  else if label = alternation then
    match stack with
    | right :: left :: stack =>
      let (b, state) := b.createState split (some left.start) (some right.start)
      (b, some (⟨state, left.dangling ++ right.dangling⟩ :: stack))
    | _ => (b.setError .errorInternalError, none)
  else match quantifier? label with
    | some (kind, isLazy) =>
      let (b, stack) := buildQuantifier b stack kind isLazy
      if b.errorCode = .noError then (b, some stack) else (b, none)
    | none =>
      if captureGroup ≤ label ∧ label < captureGroup + maxCaptures then
        match stack with
        | operand :: stack =>
          let idx := label - captureGroup
          let (b, close) := b.createState (captureClose + idx) none none
          let b := b.patch operand.dangling close
          let (b, start) := b.createState (captureOpen + idx) (some operand.start) none
          (b, some (⟨start, [⟨close, false⟩]⟩ :: stack))
        | [] => (b.setError .errorInternalError, none)
      else
        let (b, state) := b.createState label none none
        (b, some (⟨state, [⟨state, false⟩]⟩ :: stack))

/-- The loop of `postfix_to_nfa` and what follows it. -/
def postfixLoop (b : Builder) (stack : List Frag) : List Nat → Builder × State
  | [] =>
    match stack with
    | [frag] => (b.patch frag.dangling acceptState, frag.start)
    | _ => (b.setError .errorInternalError, acceptState)
  | label :: rest =>
    match postfixToken b stack label with
    | (b, some stack) => postfixLoop b stack rest
    | (b, none) => (b, acceptState)

def postfixToNfa (b : Builder) (tokens : List Nat) : Builder × State :=
  if tokens = [] then (b, acceptState)
  else if maxStates < tokens.length then (b.setError .errorPatternTooLarge, acceptState)
  else postfixLoop b [] tokens

def isConditional (label : Nat) : Bool :=
  label == wordBoundary || label == startAnchor || label == endAnchor

/-- The flags under which conditional states let a match pass. -/
structure Flags where
  boundary : Bool
  atStart : Bool
  atEnd : Bool

/-- What the closure loops push for a state that consumes nothing, in the order in which it is
popped; nothing for a state that they collect. -/
def StateDef.epsilonNext (d : StateDef) (flags : Flags) : Option (List (Option State)) :=
  if d.label = split then some [d.next, d.nextAlt]
  else if isCaptureOpen d.label || isCaptureClose d.label then some [d.next]
  else if d.label = wordBoundary then some (if flags.boundary then [d.next] else [])
  else if d.label = startAnchor then some (if flags.atStart then [d.next] else [])
  else if d.label = endAnchor then some (if flags.atEnd then [d.next] else [])
  else none

/-- The loop of `compute_epsilon_closure`. -/
def closureLoop (states : List StateDef) (flags : Flags) :
    Nat → List (Option State) → EpochSet → List State → List State × EpochSet
  | 0, _, seen, closure => (closure, seen)
  | _, [], seen, closure => (closure, seen)
  | fuel + 1, none :: stack, seen, closure => closureLoop states flags fuel stack seen closure
  | fuel + 1, some s :: stack, seen, closure =>
    match states[s]? with
    | none => closureLoop states flags fuel stack seen closure
    | some d =>
      if seen.contains s then closureLoop states flags fuel stack seen closure
      else match d.epsilonNext flags with
        | some pushed => closureLoop states flags fuel (pushed ++ stack) (seen.insert s) closure
        | none => closureLoop states flags fuel stack (seen.insert s) (closure ++ [s])

def computeEpsilonClosure (states : List StateDef) (state : State) (flags : Flags)
    (seen : EpochSet) : List State × EpochSet :=
  closureLoop states flags (2 * states.length + 1) [some state] seen.advance []

def flagsOf (flags : Nat) : Flags where
  boundary := flags &&& 1 != 0
  atStart := flags &&& 2 != 0
  atEnd := flags &&& 4 != 0

def closureFlags (flags : Flags) : Nat :=
  (if flags.boundary then 1 else 0) ||| (if flags.atStart then 2 else 0) |||
    (if flags.atEnd then 4 else 0)

def closureFlagCombinations : Nat := 8

/-- The cache while it is filled. -/
structure ClosureCache where
  flat : List State := []
  offsets : List Nat
  seen : EpochSet
  totalEntries : Nat := 0

/-- The closures of one state for the given flags, and whether all of them are trivial; nothing
where there are too many entries. -/
def stateClosures (states : List StateDef) (numFlagCombos : Nat) (state : State) :
    List Nat → ClosureCache → Bool → Option (ClosureCache × Bool)
  | [], cache, trivial => some (cache, trivial)
  | flags :: rest, cache, trivial =>
    let slot := (state * numFlagCombos) ||| flags
    let (closure, seen) := computeEpsilonClosure states state (flagsOf flags) cache.seen
    let total := cache.totalEntries + closure.length
    if maxClosureCacheEntries < total then none
    else stateClosures states numFlagCombos state rest
      { flat := cache.flat ++ closure
        offsets := cache.offsets.set slot cache.flat.length
        seen
        totalEntries := total }
      (trivial && closure == [state])

/-- The closures of all states from a given one on, with the triviality of each. -/
def allClosures (states : List StateDef) (numFlagCombos : Nat) :
    List State → ClosureCache → Option (ClosureCache × List Bool)
  | [], cache => some (cache, [])
  | state :: rest, cache => do
    let (cache, trivial) ← stateClosures states numFlagCombos state (List.range numFlagCombos)
      cache true
    let (cache, trivials) ← allClosures states numFlagCombos rest cache
    return (cache, trivial :: trivials)

structure RegexEngine where
  ownedStates : List StateDef := []
  startState : State := acceptState
  errorCode : ErrorCode := .noError
  hasConditionals : Bool := false
  stateCount : Nat := 0
  runeClasses : List RuneClass := []
  numCaptures : Nat := 0
  closureCacheFlat : List State := []
  closureCacheOffsets : List Nat := []

namespace RegexEngine

def ok (e : RegexEngine) : Bool := e.errorCode = .noError

def detectConditionalStates (e : RegexEngine) : RegexEngine :=
  { e with hasConditionals := e.ownedStates.any fun s => isConditional s.label }

def numFlagCombos (e : RegexEngine) : Nat :=
  if e.hasConditionals then closureFlagCombinations else 1

def precomputeEpsilonClosures (e : RegexEngine) : RegexEngine :=
  if !e.ok then e
  else
    let stateCount := e.ownedStates.length
    let slotCount := stateCount * e.numFlagCombos
    let cache : ClosureCache :=
      { offsets := List.replicate (slotCount + 1) 0
        seen := ⟨List.replicate stateCount 0, 0⟩ }
    match allClosures e.ownedStates e.numFlagCombos (List.range stateCount) cache with
    | none => { e with errorCode := .errorPatternTooLarge }
    | some (cache, trivials) =>
      { e with
        ownedStates := e.ownedStates.zipWith (fun d trivial => { d with trivialClosure := trivial })
          trivials
        closureCacheFlat := cache.flat
        closureCacheOffsets := cache.offsets.set slotCount cache.flat.length }

def acceptBitmap (classes : List RuneClass) (label : Nat) : Bitmap :=
  if isClassRef label then (classes.getD (classRefIndex label) {}).asciiBitmap
  else if label < 128 then ({} : Bitmap).set label
  else {}

def finalizeStates (e : RegexEngine) : RegexEngine :=
  if !e.ok then e
  else
    { e with
      stateCount := e.ownedStates.length
      ownedStates := e.ownedStates.map fun d =>
        { d with asciiAccept := acceptBitmap e.runeClasses d.label } }

/-- The constructor, from the output of the pattern parser. -/
def compile (tokens : List Nat) (runeClasses : List RuneClass) (numCaptures : Nat) :
    RegexEngine :=
  let b : Builder := { capacity := 2 * tokens.length + 1 }
  let (b, _) := b.createState matchLabel none none
  let (b, startState) := postfixToNfa b tokens
  let e : RegexEngine :=
    { ownedStates := b.ownedStates
      errorCode := b.errorCode
      startState, runeClasses, numCaptures }
  e.detectConditionalStates.precomputeEpsilonClosures.finalizeStates

end RegexEngine

end Trieste.Regex
