import Mathlib.Data.Finset.Insert
import Mathlib.Data.Finset.Card
import Mathlib.Logic.Function.Basic
import Trieste.Library.Transition

namespace Trieste
set_option autoImplicit true

inductive WorkerStatus
  | uninitialized
  | active
  | blocked
  | resolved
  deriving DecidableEq, Repr

/-- The base state of a node. A node absent from the state map has the default state. -/
structure NodeWorkerState (N : Type) where
  kind : WorkerStatus := .uninitialized
  blockedOnCount : Nat := 0
  dependents : Finset N := ∅

structure NodeWorker (N : Type) where
  state : N → NodeWorkerState N := fun _ => {}
  worklist : List N := []

namespace NodeWorker
variable {N : Type} [DecidableEq N]

def modify (w : NodeWorker N) (n : N) (f : NodeWorkerState N → NodeWorkerState N) :
    NodeWorker N :=
  { w with state := Function.update w.state n (f (w.state n)) }

def isResolved (w : NodeWorker N) (n : N) : Bool :=
  decide ((w.state n).kind = .resolved)

/-- `seed` is left out: it fills client fields that no method of the worker reads. -/
def add (w : NodeWorker N) (n : N) : NodeWorker N :=
  if (w.state n).kind = .uninitialized then
    { w.modify n fun s => { s with kind := .active } with worklist := w.worklist ++ [n] }
  else w

def blockOn (w : NodeWorker N) (dependent origin : N) : Bool × NodeWorker N :=
  let w := w.add origin
  if w.isResolved origin then (false, w)
  else (true, (w.modify origin fun s => { s with dependents := insert dependent s.dependents }).modify
    dependent fun s => { s with kind := .blocked })

/-- The loop shared by `blockOnAll` and `blockOnAny`, with the number of calls that blocked. -/
def blockOnEach (w : NodeWorker N) (dependent : N) : List N → Nat × NodeWorker N
  | [] => (0, w)
  | origin :: origins =>
    let first := w.blockOn dependent origin
    let rest := first.2.blockOnEach dependent origins
    (first.1.toNat + rest.1, rest.2)

def blockOnAll (w : NodeWorker N) (dependent : N) (origins : List N) : Bool × NodeWorker N :=
  let blocked := w.blockOnEach dependent origins
  if blocked.1 = 0 then (false, blocked.2)
  else
    let count := blocked.1 - 1
    (true, blocked.2.modify dependent fun s =>
      { s with blockedOnCount :=
          if s.blockedOnCount = 0 then count else min s.blockedOnCount count })

def blockOnAny (w : NodeWorker N) (dependent : N) (origins : List N) : Bool × NodeWorker N :=
  let blocked := w.blockOnEach dependent origins
  (decide (blocked.1 ≠ 0), blocked.2.modify dependent fun s => { s with blockedOnCount := 0 })

/-- One round of the loop in `unblockDependents`. -/
def signal (w : NodeWorker N) (dependent : N) : NodeWorker N :=
  if (w.state dependent).kind ≠ .blocked then w
  else if 0 < (w.state dependent).blockedOnCount then
    w.modify dependent fun s => { s with blockedOnCount := s.blockedOnCount - 1 }
  else { w.modify dependent fun s => { s with kind := .active } with
    worklist := w.worklist ++ [dependent] }

/-- `waiting` lists the dependents in the iteration order of the unordered set. -/
def unblockDependents (w : NodeWorker N) (origin : N) (waiting : List N) : NodeWorker N :=
  (waiting.foldl signal w).modify origin fun s => { s with dependents := ∅ }

/-- What `run` does with a node for which `process` returned true. -/
def resolve (w : NodeWorker N) (n : N) (waiting : List N) : NodeWorker N :=
  (w.modify n fun s => { s with kind := .resolved }).unblockDependents n waiting

/-- The calls that `process` can make on the worker for its node. -/
inductive Call (N : Type)
  | add (n : N)
  | blockOn (origin : N)
  | blockOnAll (origins : List N)
  | blockOnAny (origins : List N)

def Call.perform (w : NodeWorker N) (d : N) : Call N → Bool × NodeWorker N
  | .add n => (false, w.add n)
  | .blockOn origin => w.blockOn d origin
  | .blockOnAll origins => w.blockOnAll d origins
  | .blockOnAny origins => w.blockOnAny d origins

def Call.isBlocking : Call N → Bool
  | .add _ => false
  | _ => true

end NodeWorker

/-- The worker together with the node whose `process` call is in progress. -/
structure WorkerConfig (N : Type) where
  worker : NodeWorker N := {}
  current : Option N := none

inductive WorkerEvent (N : Type)
  | add (n : N)
  | skip (n : N)
  | pop (n : N)
  | call (d : N) (c : NodeWorker.Call N) (result : Bool)
  | finish (d : N) (done : Bool)

/-- The event is a blocking call of `d`. -/
def WorkerEvent.Blocks (d : N) : WorkerEvent N → Prop
  | .call d' c _ => d' = d ∧ c.isBlocking = true
  | _ => False

open NodeWorker in
/-- The steps of a worker under any `Work`: roots are added between `process` calls, `run` pops
the front of the worklist, and a `process` call makes any calls for its own node and then
returns either answer. -/
inductive WorkerStep [DecidableEq N] :
    WorkerConfig N → WorkerEvent N → WorkerConfig N → Prop
  | add (w : NodeWorker N) (n : N) : WorkerStep ⟨w, none⟩ (.add n) ⟨w.add n, none⟩
  | skip (w : NodeWorker N) (hl : w.worklist = n :: rest) (hn : (w.state n).kind = .resolved) :
      WorkerStep ⟨w, none⟩ (.skip n) ⟨{ w with worklist := rest }, none⟩
  | pop (w : NodeWorker N) (hl : w.worklist = n :: rest) (hn : (w.state n).kind = .active) :
      WorkerStep ⟨w, none⟩ (.pop n) ⟨{ w with worklist := rest }, some n⟩
  | call (w : NodeWorker N) (d : N) (c : Call N) :
      WorkerStep ⟨w, some d⟩ (.call d c (c.perform w d).1) ⟨(c.perform w d).2, some d⟩
  | wait (w : NodeWorker N) (d : N) : WorkerStep ⟨w, some d⟩ (.finish d false) ⟨w, none⟩
  | done (w : NodeWorker N) (d : N) (waiting : List N) (hnd : waiting.Nodup)
      (hw : waiting.toFinset = (w.state d).dependents) :
      WorkerStep ⟨w, some d⟩ (.finish d true) ⟨w.resolve d waiting, none⟩

end Trieste
