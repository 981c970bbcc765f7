import Trieste.Bindings.Generator

namespace Trieste
set_option autoImplicit true
open Bindings (Generated)

abbrev TokenWeights := List (Token × Nat)

/-- The settings that the test of a pass reads. -/
structure Fuzzer where
  maxDepth : Nat := 10
  startSeed : UInt32
  seedCount : UInt32 := 100
  failfast : Bool := false
  maxRetries : Nat := 100
  boundVars : Bool := true
  tokenWeights : TokenWeights := []

structure SeedContext where
  currentSeed : UInt64 := 0
  retrySeed : UInt64 := 0
  retries : Nat := 0
  astHashes : List UInt64 := []

def SeedContext.retry (context : SeedContext) : SeedContext :=
  { context with
    currentSeed := context.retrySeed
    retrySeed := context.retrySeed + 1
    retries := context.retries + 1 }

def SeedContext.insert (context : SeedContext) (hash : UInt64) : SeedContext :=
  { context with astHashes := hash :: context.astHashes }

inductive RunResult
  | ok
  | fail
  | error
  deriving DecidableEq

/-- A pass with the definition before it: the trees of the seeds, the hash of a tree, and the tree
that the pass makes of one, with nothing where it throws. -/
structure Tested (A : Type) where
  gen : TokenWeights → UInt64 → Option (Generated A)
  hash : A → UInt64
  runPass : A → Option (A × RunResult)
  /-- `Trace` is active, so that the trees are printed before and after the pass. -/
  tracing : Bool := false

/-- What a test does. -/
inductive Event (A : Type)
  /-- A tree is generated from the seed of an iteration. -/
  | attempted (seed : UInt64)
  | retried (seed : UInt64)
  | ran (seed : UInt64) (ast : A)
  /-- A failure is reported with the tree that is shown as the input, if it can be generated. -/
  | reported (seed : UInt64) (shown : Option A) (newAst : A)

/-- The reasons for which a test ends. -/
inductive Stop
  | finished
  | failfast
  | raised
  | aborted
  | stuck
  deriving DecidableEq

abbrev Logged (A B : Type) := List (Event A) × B

/-- A generated tree, or the reason for which there is none. -/
def generated : Option (Generated A) → Except Stop A
  | none => .error .stuck
  | some (.tree ast) => .ok ast
  | some (.thrown _) => .error .raised
  | some .aborted => .error .aborted

namespace Fuzzer
variable (f : Fuzzer) (t : Tested A)

/-- The loop of `gen_fresh_ast`, with the retries that are left. -/
def retry : Nat → SeedContext → A → Logged A (Except Stop (Option A × SeedContext))
  | 0, context, ast =>
    if t.hash ast ∈ context.astHashes then ([], .ok (none, context))
    else ([], .ok (some ast, context.insert (t.hash ast)))
  | left + 1, context, ast =>
    if t.hash ast ∈ context.astHashes then
      match generated (t.gen f.tokenWeights context.retrySeed) with
      | .error stop => ([.retried context.retrySeed], .error stop)
      | .ok ast =>
        let (events, fresh) := retry left context.retry ast
        (.retried context.retrySeed :: events, fresh)
    else ([], .ok (some ast, context.insert (t.hash ast)))

/-- `gen_fresh_ast`, which gives no tree where the retries are used up. -/
def genFreshAst (context : SeedContext) : Logged A (Except Stop (Option A × SeedContext)) :=
  let seed := context.currentSeed
  match generated (t.gen f.tokenWeights seed) with
  | .error stop => ([.attempted seed], .error stop)
  | .ok ast =>
    let (events, fresh) := f.retry t (f.maxRetries - context.retries) context ast
    (.attempted seed :: events, fresh)

/-- The report of a failure. The tree has been printed before, or is generated once more. -/
def report (seed : UInt64) (ast newAst : A) : Logged A (Except Stop Unit) :=
  if t.tracing then ([.reported seed (some ast) newAst], .ok ())
  else
    match generated (t.gen [] seed) with
    | .error stop => ([.reported seed none newAst], .error stop)
    | .ok shown => ([.reported seed (some shown) newAst], .ok ())

/-- The pass on a tree, with a report where the result is no tree of its definition. -/
def checkPass (seed : UInt64) (ast : A) : Logged A (Except Stop Unit) :=
  match t.runPass ast with
  | none => ([.ran seed ast], .error .raised)
  | some (newAst, .fail) =>
    let (events, reported) := report t seed ast newAst
    (.ran seed ast :: events, reported.bind fun _ => if f.failfast then .error .failfast else .ok ())
  | some _ => ([.ran seed ast], .ok ())

/-- One round of the loop of `test_pass`. -/
def iteration (context : SeedContext) (seed : UInt64) : Logged A (Except Stop SeedContext) :=
  match f.genFreshAst t { context with currentSeed := seed } with
  | (events, .error stop) => (events, .error stop)
  | (events, .ok (none, context)) => (events, .ok context)
  | (events, .ok (some ast, context)) =>
    let (more, checked) := f.checkPass t context.currentSeed ast
    (events ++ more, checked.map fun _ => context)

def iterations : SeedContext → List UInt64 → Logged A Stop
  | _, [] => ([], .finished)
  | context, seed :: seeds =>
    match f.iteration t context seed with
    | (events, .error stop) => (events, stop)
    | (events, .ok context) =>
      let (more, stop) := iterations context seeds
      (events ++ more, stop)

/-- The seeds of the loop. The sum that they are compared with has 32 bits. -/
def seeds : List UInt64 :=
  (List.range' f.startSeed.toNat ((f.startSeed + f.seedCount).toNat - f.startSeed.toNat)).map
    UInt64.ofNat

def testPass (context : SeedContext) : Logged A Stop := f.iterations t context f.seeds

/-- The context with which `test` begins each pass. -/
def seedContext : SeedContext where retrySeed := (f.startSeed + f.seedCount).toUInt64

/-- `test`, restricted to one pass. -/
def test : Logged A Stop := f.testPass t f.seedContext

/-- The trees of a definition that the test generates. -/
def gen (wf : Bindings.Wellformed) (gloc : Bindings.Generator.FreshLocations) (fuel : Nat)
    (tokenWeights : TokenWeights) (seed : UInt64) : Option (Generated Bindings.Scopes) :=
  wf.gen gloc seed f.maxDepth f.boundVars tokenWeights fuel

end Fuzzer

end Trieste
