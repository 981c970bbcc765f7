import Mathlib.Data.Finset.Card
import Trieste.NodeWorker.Effects

namespace Trieste
set_option autoImplicit true
open NodeWorker Library

variable {N : Type} [DecidableEq N]

def WorkerReachable (c : WorkerConfig N) : Prop :=
  Reachable (WorkerStep (N := N)) {} c

/-- The node being processed is not resolved, and nobody waits for a resolved node. -/
structure WorkerOk (c : WorkerConfig N) : Prop where
  current : ∀ d, c.current = some d →
    (c.worker.state d).kind ≠ .resolved ∧ (c.worker.state d).kind ≠ .uninitialized
  resolved : ∀ o, (c.worker.state o).kind = .resolved → (c.worker.state o).dependents = ∅

/-- What the calls that a node makes can change. -/
structure CallFrame (w : NodeWorker N) (d : N) (w' : NodeWorker N) : Prop where
  kind_self : (w'.state d).kind ≠ .resolved ∧ (w'.state d).kind ≠ .uninitialized
  resolved : ∀ x, (w'.state x).kind = .resolved ↔ (w.state x).kind = .resolved
  kind_ne : ∀ x, x ≠ d → (w.state x).kind ≠ .uninitialized →
    (w'.state x).kind = (w.state x).kind
  blockedOnCount_ne : ∀ x, x ≠ d → (w'.state x).blockedOnCount = (w.state x).blockedOnCount
  dependents : ∀ o x, x ≠ d →
    (x ∈ (w'.state o).dependents ↔ x ∈ (w.state o).dependents)
  dependents_resolved : ∀ o, (w.state o).kind = .resolved →
    (w'.state o).dependents = (w.state o).dependents
  worklist : ∀ x ∈ w.worklist, x ∈ w'.worklist

theorem CallFrame.of_blockedOn {w w' : NodeWorker N} (h : BlockedOn w d os n w')
    (hd : (w.state d).kind ≠ .resolved) (hs : (w.state d).kind ≠ .uninitialized) :
    CallFrame w d w' := by
  obtain ⟨hc, hk, hne, hb, hdep, hw, hn⟩ := h
  refine ⟨?_, ?_, ?_, fun x _ => hb x, ?_, ?_, fun x hx => (hw x).2 (.inl hx)⟩
  · rw [hk]
    grind
  · intro x
    by_cases hx : x = d
    · subst x
      rw [hk]
      grind
    · rw [hne x hx]
      grind
  · intro x hx hxs
    rw [hne x hx, if_neg (fun h => hxs h.2)]
  · intro o x hx
    rw [hdep]
    grind
  · intro o ho
    rw [hdep, if_neg]
    rw [mem_unresolved]
    exact fun h => h.2 ho

theorem CallFrame.setCount {w w' : NodeWorker N} (h : CallFrame w d w') (f : Nat → Nat) :
    CallFrame w d (w'.modify d fun s => { s with blockedOnCount := f s.blockedOnCount }) := by
  obtain ⟨hk, hr, hne, hb, hdep, hres, hw⟩ := h
  constructor <;> simp only [modify_state, modify_worklist] <;> grind

theorem add_frame (w : NodeWorker N) (n : N) (hd : (w.state d).kind ≠ .resolved)
    (hs : (w.state d).kind ≠ .uninitialized) : CallFrame w d (w.add n) := by
  refine ⟨?_, add_resolved w n, fun x _ hx => add_kind_of_seen w n hx, ?_, ?_, ?_,
    fun x => mem_add_worklist w n⟩
  · rw [add_kind_of_seen w n hs]
    exact ⟨hd, hs⟩
  · exact fun x _ => add_blockedOnCount w n x
  · intro o x _
    rw [add_dependents]
  · exact fun o _ => add_dependents w n o

theorem call_frame (w : NodeWorker N) (c : Call N) (hd : (w.state d).kind ≠ .resolved)
    (hs : (w.state d).kind ≠ .uninitialized) : CallFrame w d (c.perform w d).2 := by
  have hf (os : List N) : CallFrame w d (w.blockOnEach d os).2 :=
    .of_blockedOn (blockOnEach_spec w d os hd hs) hd hs
  cases c with
  | add n => exact add_frame w n hd hs
  | blockOn o => exact hf [o]
  | blockOnAll os =>
    simp only [Call.perform, blockOnAll]
    split
    · exact hf os
    · exact (hf os).setCount fun b => if b = 0 then (w.blockOnEach d os).1 - 1
        else min b ((w.blockOnEach d os).1 - 1)
  | blockOnAny os => exact (hf os).setCount fun _ => 0

theorem WorkerOk.step {c c' : WorkerConfig N} (hok : WorkerOk c) (h : WorkerStep c e c') :
    WorkerOk c' := by
  cases h with
  | add w n =>
    refine ⟨nofun, fun o ho => ?_⟩
    rw [add_resolved] at ho
    rw [add_dependents]
    exact hok.resolved o ho
  | skip w hl hn => exact ⟨nofun, hok.resolved⟩
  | pop w hl hn =>
    refine ⟨?_, hok.resolved⟩
    rintro d hd
    cases hd
    rw [hn]
    exact ⟨WorkerStatus.noConfusion, WorkerStatus.noConfusion⟩
  | call w d c =>
    obtain ⟨hd, hs⟩ := hok.current d rfl
    have hf := call_frame w c hd hs
    refine ⟨?_, fun o ho => ?_⟩
    · rintro d' hd'
      cases hd'
      exact hf.kind_self
    · rw [hf.resolved] at ho
      rw [hf.dependents_resolved o ho]
      exact hok.resolved o ho
  | wait w d => exact ⟨nofun, hok.resolved⟩
  | done w d waiting hnd hw =>
    have hr := resolve_spec w d hnd hw
    refine ⟨nofun, fun o ho => ?_⟩
    rw [hr.dependents_eq]
    by_cases hod : o = d
    · rw [if_pos hod]
    · rw [if_neg hod]
      apply hok.resolved o
      rw [hr.kind_ne o hod] at ho
      grind

theorem WorkerReachable.ok {c : WorkerConfig N} (h : WorkerReachable c) : WorkerOk c := by
  refine Library.Reachable.invariant (fun _ _ _ hok hs => WorkerOk.step hok hs) ?_ h
  exact ⟨nofun, nofun⟩

/-- A step that is no blocking call of `d` keeps what `d` waits for, unless it resolves a node. -/
structure SameFor (d : N) (w w' : NodeWorker N) : Prop where
  kind : (w'.state d).kind = (w.state d).kind
  blockedOnCount : (w'.state d).blockedOnCount = (w.state d).blockedOnCount
  dependents : ∀ o, d ∈ (w'.state o).dependents ↔ d ∈ (w.state o).dependents
  resolved : ∀ o, (w.state o).kind = .resolved → (w'.state o).kind = .resolved

theorem WorkerStep.same_or_resolved {c c' : WorkerConfig N} (hok : WorkerOk c)
    (h : WorkerStep c e c') (hb : ¬ e.Blocks d) (hs : (c.worker.state d).kind ≠ .uninitialized) :
    SameFor d c.worker c'.worker ∨ ∃ n, e = .finish n true ∧ ResolvedBy c.worker n c'.worker := by
  cases h with
  | add w n =>
    refine .inl ⟨add_kind_of_seen w n hs, add_blockedOnCount w n d, fun o => ?_, fun o => ?_⟩
    · rw [add_dependents]
    · exact (add_resolved w n o).2
  | skip w hl hn => exact .inl ⟨rfl, rfl, fun _ => .rfl, fun _ => id⟩
  | pop w hl hn => exact .inl ⟨rfl, rfl, fun _ => .rfl, fun _ => id⟩
  | call w d' c =>
    obtain ⟨hd', hs'⟩ := hok.current d' rfl
    by_cases hdd : d = d'
    · subst d'
      cases c with
      | add n =>
        refine .inl ⟨add_kind_of_seen w n hs, add_blockedOnCount w n d, fun o => ?_, fun o => ?_⟩
        · simp only [Call.perform, add_dependents]
        · exact (add_resolved w n o).2
      | blockOn => exact (hb ⟨rfl, rfl⟩).elim
      | blockOnAll => exact (hb ⟨rfl, rfl⟩).elim
      | blockOnAny => exact (hb ⟨rfl, rfl⟩).elim
    · have hf := call_frame w c hd' hs'
      exact .inl ⟨hf.kind_ne d hdd hs, hf.blockedOnCount_ne d hdd, fun o => hf.dependents o d hdd,
        fun o => (hf.resolved o).2⟩
  | wait w d' => exact .inl ⟨rfl, rfl, fun _ => .rfl, fun _ => id⟩
  | done w d' waiting hnd hw => exact .inr ⟨d', rfl, resolve_spec w d' hnd hw⟩

end Trieste
