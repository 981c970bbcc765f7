import Trieste.Regex.Engine
import Trieste.Regex.Text

namespace Trieste.Regex
set_option autoImplicit true
open Library

/-- What a call leaves in its context for the next one. The scratch lists are cleared before use.
An engine is known by its address, and a capture position that is not set is `npos`. -/
structure MatchContext where
  boundEngine : Option Nat := none
  visited : EpochSet := {}
  visitedBits : Bitmap := {}
  useBitset : Bool := false
  captureFrames : List (Option Nat) := []
  captureFrameSlots : Nat := 0

namespace MatchContext

def bitsetMaxStates : Nat := 128

def ensureVisitedCapacity (ctx : MatchContext) (stateCount : Nat) : MatchContext :=
  if ctx.visited.marks.length ≠ stateCount then
    { ctx with visited := { ctx.visited with marks := List.replicate stateCount 0 } }
  else ctx

def bindEngine (ctx : MatchContext) (engine stateCount : Nat) : MatchContext :=
  let ctx := { ctx with useBitset := stateCount ≤ bitsetMaxStates }
  if ctx.boundEngine ≠ some engine then
    { ctx with boundEngine := some engine, visited := ⟨List.replicate stateCount 0, 0⟩ }
  else ctx.ensureVisitedCapacity stateCount

def resetCaptureFrames (ctx : MatchContext) (slots : Nat) : MatchContext :=
  { ctx with captureFrameSlots := slots, captureFrames := [] }

def allocateCaptureFrame (ctx : MatchContext) : Option Nat × MatchContext :=
  if maxCaptureFrameEntries < ctx.captureFrames.length + ctx.captureFrameSlots then (none, ctx)
  else (some (ctx.captureFrames.length / ctx.captureFrameSlots),
    { ctx with captureFrames := ctx.captureFrames ++ List.replicate ctx.captureFrameSlots none })

def captureFrame (ctx : MatchContext) (frame : Nat) : List (Option Nat) :=
  (ctx.captureFrames.drop (frame * ctx.captureFrameSlots)).take ctx.captureFrameSlots

def cloneCaptureFrame (ctx : MatchContext) (frame : Nat) : Option Nat × MatchContext :=
  if maxCaptureFrameEntries < ctx.captureFrames.length + ctx.captureFrameSlots then (none, ctx)
  else (some (ctx.captureFrames.length / ctx.captureFrameSlots),
    { ctx with captureFrames := ctx.captureFrames ++ ctx.captureFrame frame })

def setCapture (ctx : MatchContext) (frame slot pos : Nat) : MatchContext :=
  let entry := frame * ctx.captureFrameSlots + slot
  { ctx with captureFrames := ctx.captureFrames.set entry (some pos) }

def advanceEpoch (ctx : MatchContext) : MatchContext :=
  { ctx with visited := ctx.visited.advance }

def clearVisitedBitset (ctx : MatchContext) : MatchContext := { ctx with visitedBits := {} }

/-- Empties the set in use, as `start_list` and `step` do. -/
def clearVisited (ctx : MatchContext) : MatchContext :=
  if ctx.useBitset then ctx.clearVisitedBitset else ctx.advanceEpoch

def markVisited (ctx : MatchContext) (state : State) : MatchContext :=
  { ctx with visited := ctx.visited.insert state }

def isVisited (ctx : MatchContext) (state : State) : Bool :=
  if ctx.useBitset then ctx.visitedBits.test state else ctx.visited.contains state

/-- Whether the state was already visited; it is afterwards. -/
def alreadyVisited (ctx : MatchContext) (state : State) : Bool × MatchContext :=
  if ctx.isVisited state then (true, ctx)
  else if ctx.useBitset then (false, { ctx with visitedBits := ctx.visitedBits.set state })
  else (false, ctx.markVisited state)

end MatchContext

/-- A capture span. -/
structure Capture where
  start : Option Nat := none
  «end» : Option Nat := none

structure Thread where
  state : State
  capsFrame : Nat

namespace RegexEngine

def isMatch (states : List State) : Bool := states.contains acceptState

def epsilonClosureCached (e : RegexEngine) (state : State) (flags : Flags) : List State :=
  let slot := if e.hasConditionals then
      (state * closureFlagCombinations) ||| closureFlags flags
    else state
  let start := e.closureCacheOffsets.getD slot 0
  let stop := e.closureCacheOffsets.getD (slot + 1) 0
  (e.closureCacheFlat.drop start).take (stop - start)

def addTerminal (acc : List State × MatchContext) (terminal : State) : List State × MatchContext :=
  match acc.2.alreadyVisited terminal with
  | (true, ctx) => (acc.1, ctx)
  | (false, ctx) => (acc.1 ++ [terminal], ctx)

def addState (e : RegexEngine) (states : List State) (state : Option State) (ctx : MatchContext)
    (flags : Flags) : List State × MatchContext :=
  match state with
  | none => (states, ctx)
  | some s =>
    if ((e.ownedStates[s]?).any fun d => d.trivialClosure) then addTerminal (states, ctx) s
    else (e.epsilonClosureCached s flags).foldl addTerminal (states, ctx)

def startList (e : RegexEngine) (ctx : MatchContext) (flags : Flags) : List State × MatchContext :=
  e.addState [] (some e.startState) ctx.clearVisited flags

/-- The test in the two loops of `step`. -/
def consumes (e : RegexEngine) (d : StateDef) (rune : Nat) : Bool :=
  if rune < 128 then d.asciiAccept.test rune
  else if isClassRef d.label then (e.runeClasses.getD (classRefIndex d.label) {}).contains rune
  else d.label == rune

/-- One round of the loops of `step`. -/
def stepState (e : RegexEngine) (rune : Nat) (flags : Flags) (acc : List State × MatchContext)
    (s : State) : List State × MatchContext :=
  match e.ownedStates[s]? with
  | none => acc
  | some d => if e.consumes d rune then e.addState acc.1 d.next acc.2 flags else acc

def step (e : RegexEngine) (current : List State) (rune : Nat) (ctx : MatchContext)
    (flags : Flags) : List State × MatchContext :=
  current.foldl (e.stepState rune flags) ([], ctx.clearVisited)

/-- Whether the next rune is a word character, looked at only for an engine that asks. -/
def nextIsWord (e : RegexEngine) (rune : Option (Nat × Nat)) : Bool :=
  e.hasConditionals && rune.any fun r => isWordChar r.1

def flagsAt (e : RegexEngine) (s : List UInt8) (pos : Nat) (prevIsWord nextIsWord atStart : Bool) :
    Flags where
  boundary := e.hasConditionals && (prevIsWord != nextIsWord)
  atStart := e.hasConditionals && atStart
  atEnd := e.hasConditionals && decide (s.length ≤ pos)

/-- The loop of `find_prefix_noncapturing_with_context`. Every round consumes a byte. -/
def prefixLoop (e : RegexEngine) (s : List UInt8) :
    Nat → List State → MatchContext → Nat → Option (Nat × Nat) → Bool → Option Nat →
      Option Nat × MatchContext
  | 0, _, ctx, _, _, _, best => (best, ctx)
  | _, _, ctx, _, none, _, best => (best, ctx)
  | fuel + 1, current, ctx, pos, some (rune, bytes), prevIsWord, best =>
    if current = [] then (best, ctx)
    else
      let pos := pos + bytes
      let next := nextRune s pos
      let nextWord := e.nextIsWord next
      let (current, ctx) := e.step current rune ctx (e.flagsAt s pos prevIsWord nextWord false)
      prefixLoop e s fuel current ctx pos next nextWord (if isMatch current then some pos else best)

def findPrefixNoncapturing (e : RegexEngine) (self : Nat) (s : List UInt8) (ctx : MatchContext)
    (atStart prevIsWord : Bool) : Option Nat × MatchContext :=
  let ctx := ctx.bindEngine self e.stateCount
  if !e.ok then (none, ctx)
  else
    let next := nextRune s 0
    let nextWord := e.nextIsWord next
    let (current, ctx) := e.startList ctx (e.flagsAt s 0 prevIsWord nextWord atStart)
    prefixLoop e s s.length current ctx 0 next nextWord (if isMatch current then some 0 else none)

/-- `find_prefix` without captures. -/
def findPrefix (e : RegexEngine) (self : Nat) (s : List UInt8) (ctx : MatchContext)
    (atStart : Bool) : Option Nat × MatchContext :=
  e.findPrefixNoncapturing self s ctx atStart false

/-- A capture state goes on in a copy of its frame, unless the frames are used up. -/
def captureNext (d : StateDef) (frame slot pos : Nat) (ctx : MatchContext) :
    List (Option State × Nat) × MatchContext :=
  match ctx.cloneCaptureFrame frame with
  | (none, ctx) => ([], ctx)
  | (some copy, ctx) => ([(d.next, copy)], ctx.setCapture copy slot pos)

/-- The loop of `add_state_capturing`. -/
def addStateCapturing (e : RegexEngine) (pos : Nat) (flags : Flags) :
    Nat → List (Option State × Nat) → List Thread → MatchContext → List Thread × MatchContext
  | 0, _, threads, ctx => (threads, ctx)
  | _, [], threads, ctx => (threads, ctx)
  | fuel + 1, (none, _) :: stack, threads, ctx =>
    addStateCapturing e pos flags fuel stack threads ctx
  | fuel + 1, (some s, frame) :: stack, threads, ctx =>
    match e.ownedStates[s]? with
    | none => addStateCapturing e pos flags fuel stack threads ctx
    | some d =>
      if ctx.visited.contains s then addStateCapturing e pos flags fuel stack threads ctx
      else
        let ctx := ctx.markVisited s
        if isCaptureOpen d.label then
          let (pushed, ctx) := captureNext d frame (captureIndex d.label * 2) pos ctx
          addStateCapturing e pos flags fuel (pushed ++ stack) threads ctx
        else if isCaptureClose d.label then
          let (pushed, ctx) := captureNext d frame (captureIndex d.label * 2 + 1) pos ctx
          addStateCapturing e pos flags fuel (pushed ++ stack) threads ctx
        else match d.epsilonNext flags with
          | some pushed =>
            addStateCapturing e pos flags fuel (pushed.map (·, frame) ++ stack) threads ctx
          | none => addStateCapturing e pos flags fuel stack (threads ++ [⟨s, frame⟩]) ctx

def addThread (e : RegexEngine) (threads : List Thread) (state : Option State) (frame pos : Nat)
    (ctx : MatchContext) (flags : Flags) : List Thread × MatchContext :=
  addStateCapturing e pos flags (2 * e.ownedStates.length + 1) [(state, frame)] threads ctx

def stepCapturing (e : RegexEngine) (current : List Thread) (rune pos : Nat) (ctx : MatchContext)
    (flags : Flags) : List Thread × MatchContext :=
  current.foldl (fun acc t =>
    match e.ownedStates[t.state]? with
    | none => acc
    | some d =>
      if e.consumes d rune then e.addThread acc.1 d.next t.capsFrame pos acc.2 flags else acc)
    ([], ctx.advanceEpoch)

/-- The frame of the first accepting thread. -/
def acceptedFrame (threads : List Thread) : Option Nat :=
  (threads.find? fun t => t.state == acceptState).map Thread.capsFrame

/-- The flags of the capturing loop, which looks at the text for every engine. -/
def capturingFlags (s : List UInt8) (pos : Nat) (prevIsWord nextIsWord atStart : Bool) :
    Flags where
  boundary := prevIsWord != nextIsWord
  atStart := atStart
  atEnd := decide (s.length ≤ pos)

/-- The loop of `find_prefix_with_context`. -/
def capturingLoop (e : RegexEngine) (s : List UInt8) :
    Nat → List Thread → MatchContext → Nat → Option (Nat × Nat) → Bool → Option (Nat × Nat) →
      Option (Nat × Nat) × MatchContext
  | 0, _, ctx, _, _, _, best => (best, ctx)
  | _, _, ctx, _, none, _, best => (best, ctx)
  | fuel + 1, current, ctx, pos, some (rune, bytes), prevIsWord, best =>
    if current.isEmpty then (best, ctx)
    else
      let pos := pos + bytes
      let next := nextRune s pos
      let nextWord := next.any fun r => isWordChar r.1
      let (current, ctx) := e.stepCapturing current rune pos ctx
        (capturingFlags s pos prevIsWord nextWord false)
      capturingLoop e s fuel current ctx pos next nextWord
        (((acceptedFrame current).map (pos, ·)).or best)

def readCaptures (e : RegexEngine) (frame : List (Option Nat)) : List Capture :=
  (List.range e.numCaptures).map fun i =>
    { start := (frame[i * 2]?).join, «end» := (frame[i * 2 + 1]?).join }

def findPrefixWithContext (e : RegexEngine) (self : Nat) (s : List UInt8) (ctx : MatchContext)
    (atStart prevIsWord : Bool) : Option Nat × List Capture × MatchContext :=
  let ctx := ctx.bindEngine self e.stateCount
  if !e.ok || e.numCaptures == 0 then
    let (result, ctx) := e.findPrefixNoncapturing self s ctx atStart prevIsWord
    (result, [], ctx)
  else
    let ctx := ctx.resetCaptureFrames (2 * e.numCaptures)
    let next := nextRune s 0
    let nextWord := next.any fun r => isWordChar r.1
    match ctx.allocateCaptureFrame with
    | (none, ctx) => (none, [], ctx)
    | (some frame, ctx) =>
      let (current, ctx) := e.addThread [] (some e.startState) frame 0 ctx.advanceEpoch
        (capturingFlags s 0 prevIsWord nextWord atStart)
      match e.capturingLoop s s.length current ctx 0 next nextWord
          ((acceptedFrame current).map (0, ·)) with
      | (none, ctx) => (none, [], ctx)
      | (some (pos, best), ctx) => (some pos, e.readCaptures (ctx.captureFrame best), ctx)

end RegexEngine

/-- A context after any calls on any engines. A search makes such calls at each probe. -/
inductive MatchContext.LeftOver : MatchContext → Prop
  | fresh : LeftOver {}
  | findPrefix (h : LeftOver ctx) (e : RegexEngine) (self : Nat) (s : List UInt8)
      (atStart : Bool) : LeftOver (e.findPrefix self s ctx atStart).2
  | findPrefixWithContext (h : LeftOver ctx) (e : RegexEngine) (self : Nat) (s : List UInt8)
      (atStart prevIsWord : Bool) :
      LeftOver (e.findPrefixWithContext self s ctx atStart prevIsWord).2.2

end Trieste.Regex
