import Mathlib.Logic.Relation

namespace Trieste.Library
set_option autoImplicit true
open Relation

/-- The second computation returns what the first one does. -/
def Extends (x y : Option α) : Prop := ∀ r, x = some r → y = some r

/-- More fuel does not change what a computation returns. -/
def Monotonic (x : Nat → Option α) : Prop := ∀ n n', n ≤ n' → Extends (x n) (x n')

/-- The computation returns the result with enough fuel. -/
def Yields (x : Nat → Option α) (r : α) : Prop := ∃ n, x n = some r

def Halting (x : Nat → Option α) : Prop := ∃ r, Yields x r

/-- The computation returns the result from some amount of fuel on. -/
def Settles (x : Nat → Option α) (r : α) : Prop := ∃ bound, ∀ n, bound ≤ n → x n = some r

namespace Settles

theorem const (r : α) : Settles (fun _ => some r) r := ⟨0, fun _ _ => rfl⟩

theorem of_add {x : Nat → Option α} (bound : Nat) (h : ∀ n, x (n + bound) = some r) :
    Settles x r := by
  refine ⟨bound, fun n hn => ?_⟩
  obtain ⟨k, rfl⟩ := Nat.exists_eq_add_of_le' hn
  exact h k

/-- A computation that uses one unit of fuel itself. -/
theorem succ {x y : Nat → Option α} (hxy : ∀ n, x (n + 1) = y n) (h : Settles y r) :
    Settles x r := by
  obtain ⟨bound, h⟩ := h
  refine ⟨bound + 1, fun n hn => ?_⟩
  cases n with
  | zero => cases hn
  | succ n =>
    rw [hxy]
    exact h n (Nat.le_of_succ_le_succ hn)

theorem bind {x : Nat → Option α} {f : Nat → α → Option β} (hx : Settles x a)
    (hf : Settles (fun n => f n a) r) : Settles (fun n => (x n).bind (f n)) r := by
  obtain ⟨bound, hx⟩ := hx
  obtain ⟨bound', hf⟩ := hf
  refine ⟨max bound bound', fun n hn => ?_⟩
  have hle := Nat.max_le.1 hn
  simp only [hx n hle.1, Option.bind_some]
  exact hf n hle.2

theorem map {x : Nat → Option α} (hx : Settles x a) (f : α → β) :
    Settles (fun n => (x n).map f) (f a) := by
  obtain ⟨bound, hx⟩ := hx
  refine ⟨bound, fun n hn => ?_⟩
  simp only [hx n hn, Option.map_some]

theorem unique {x : Nat → Option α} (h : Settles x r) (h' : Settles x r') : r = r' := by
  obtain ⟨bound, h⟩ := h
  obtain ⟨bound', h'⟩ := h'
  have hr := h (max bound bound') (Nat.le_max_left bound bound')
  exact Option.some.inj (hr.symm.trans (h' (max bound bound') (Nat.le_max_right bound bound')))

end Settles

namespace Extends

theorem refl (x : Option α) : Extends x x := fun _ h => h

theorem bind {x y : Option α} {f g : α → Option β} (h : Extends x y)
    (hk : ∀ a, Extends (f a) (g a)) : Extends (x.bind f) (y.bind g) := by
  intro r hr
  obtain ⟨a, ha, hr⟩ := Option.bind_eq_some_iff.1 hr
  rw [h a ha]
  exact hk a r hr

theorem ite {c : Prop} [Decidable c] {x y x' y' : Option α} (h : Extends x y)
    (h' : Extends x' y') : Extends (if c then x else x') (if c then y else y') := by
  split
  · exact h
  · exact h'

end Extends

theorem halting_const (a : α) : Halting fun _ => some a := ⟨a, 0, rfl⟩

/-- A computation returns at most one result. -/
theorem Yields.unique {x : Nat → Option α} (hx : Monotonic x) (h : Yields x r) (h' : Yields x r') :
    r = r' := by
  obtain ⟨n, hn⟩ := h
  obtain ⟨n', hn'⟩ := h'
  have hr := hx n (max n n') (Nat.le_max_left n n') r hn
  have hr' := hx n' (max n n') (Nat.le_max_right n n') r' hn'
  exact Option.some.inj (hr.symm.trans hr')

theorem yields_bind {x : Nat → Option α} {f : Nat → α → Option β} (hx : Monotonic x)
    (hf : ∀ a, Monotonic fun n => f n a) :
    Yields (fun n => (x n).bind (f n)) r ↔ ∃ a, Yields x a ∧ Yields (fun n => f n a) r := by
  constructor
  · intro h
    obtain ⟨n, h⟩ := h
    obtain ⟨a, ha, hr⟩ := Option.bind_eq_some_iff.1 h
    exact ⟨a, ⟨n, ha⟩, n, hr⟩
  · intro h
    obtain ⟨a, ⟨n, ha⟩, k, hr⟩ := h
    have ha' := hx n (max n k) (Nat.le_max_left n k) a ha
    have hr' := hf a k (max n k) (Nat.le_max_right n k) r hr
    refine ⟨max n k, ?_⟩
    simp only [ha', Option.bind_some]
    exact hr'

theorem halting_bind {x : Nat → Option α} {f : Nat → α → Option β} (hx : Monotonic x)
    (hf : ∀ a, Monotonic fun n => f n a) :
    Halting (fun n => (x n).bind (f n)) ↔ ∃ a, Yields x a ∧ Halting fun n => f n a := by
  constructor
  · intro h
    obtain ⟨r, h⟩ := h
    obtain ⟨a, ha, hr⟩ := (yields_bind hx hf).1 h
    exact ⟨a, ha, r, hr⟩
  · intro h
    obtain ⟨a, ha, r, hr⟩ := h
    exact ⟨r, (yields_bind hx hf).2 ⟨a, ha, hr⟩⟩

/-- A computation goes on as its first part does, where the rest returns at once. -/
theorem halting_bind_of_total {x : Nat → Option α} {f : Nat → α → Option β}
    (hf : ∀ n a, ∃ b, f n a = some b) : Halting (fun n => (x n).bind (f n)) ↔ Halting x := by
  constructor
  · intro h
    obtain ⟨r, n, h⟩ := h
    obtain ⟨a, ha, -⟩ := Option.bind_eq_some_iff.1 h
    exact ⟨a, n, ha⟩
  · intro h
    obtain ⟨a, n, ha⟩ := h
    obtain ⟨b, hb⟩ := hf n a
    refine ⟨b, n, ?_⟩
    simp only [ha, Option.bind_some, hb]

/-- A loop, where a step may fail, stop, or go on with a new state. -/
def loop (step : σ → Except ε (Option σ)) : Nat → σ → Option (Except ε σ)
  | 0, _ => none
  | fuel + 1, s =>
    match step s with
    | .error e => some (.error e)
    | .ok none => some (.ok s)
    | .ok (some s) => loop step fuel s

section Loop
variable {step : σ → Except ε (Option σ)}

theorem loop_monotonic (step : σ → Except ε (Option σ)) (s : σ) :
    Monotonic fun n => loop step n s := by
  intro n n' hle r h
  induction n generalizing n' s with
  | zero => cases h
  | succ n ih =>
    cases n' with
    | zero => cases hle
    | succ n' =>
      simp only [loop] at h ⊢
      split at h
      · exact h
      · exact h
      · next s' _ => exact ih s' n' (Nat.le_of_succ_le_succ hle) h

theorem loop_next (h : step s = .ok (some s')) (n : Nat) : loop step (n + 1) s = loop step n s' := by
  rw [loop, h]

theorem loop_unique (hn : loop step n s = some r) (hm : loop step m s = some r') : r = r' :=
  Yields.unique (loop_monotonic step s) ⟨n, hn⟩ ⟨m, hm⟩

theorem reaches_loop (h : ReflTransGen (fun s s' => step s = .ok (some s')) s s')
    (hn : loop step n s' = some r) : ∃ m, loop step m s = some r := by
  induction h using ReflTransGen.head_induction_on with
  | refl => exact ⟨n, hn⟩
  | head hs _ ih =>
    obtain ⟨m, hm⟩ := ih
    exact ⟨m + 1, (loop_next hs m).trans hm⟩

theorem loop_acc (h : loop step n s = some r) :
    Acc (fun s' s => step s = .ok (some s')) s := by
  induction n generalizing s with
  | zero => cases h
  | succ n ih => exact .intro _ fun s' hs => ih ((loop_next hs n).symm.trans h)

/-- A loop ends where its steps keep an invariant and make a measure smaller. -/
theorem yields_loop {invariant : σ → Prop} (measure : σ → Nat)
    (hstep : ∀ s, invariant s → step s = .ok none ∨
      ∃ s', step s = .ok (some s') ∧ invariant s' ∧ measure s' < measure s)
    (h : invariant s) :
    ∃ s', Yields (fun n => loop step n s) (.ok s') ∧ invariant s' ∧ step s' = .ok none := by
  induction hn : measure s using Nat.strongRecOn generalizing s with
  | ind n ih =>
    rcases hstep s h with hstop | ⟨s', hs', h', hlt⟩
    · refine ⟨s, ⟨1, ?_⟩, h, hstop⟩
      simp only [loop, hstop]
    · obtain ⟨t, ⟨fuel, hfuel⟩, ht⟩ := ih (measure s') (hn ▸ hlt) h' rfl
      refine ⟨t, ⟨fuel + 1, ?_⟩, ht⟩
      simp only [loop, hs']
      exact hfuel

/-- A loop does not end where its steps keep an invariant under which they go on. -/
theorem not_halting_loop (invariant : σ → Prop)
    (hstep : ∀ s, invariant s → ∃ s', step s = .ok (some s') ∧ invariant s') (h : invariant s) :
    ¬ Halting fun n => loop step n s := by
  intro hhalt
  obtain ⟨r, n, hn⟩ := hhalt
  induction n generalizing s with
  | zero => cases hn
  | succ n ih =>
    obtain ⟨s', hs', h'⟩ := hstep s h
    simp only [loop, hs'] at hn
    exact ih h' hn

end Loop

end Trieste.Library
