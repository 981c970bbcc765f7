import Mathlib.Data.List.Forall2
import Mathlib.Data.List.Nodup

namespace Trieste.Library
set_option autoImplicit true

section Bind

theorem bind_eq_ok {x : Except ε α} {f : α → Except ε β} :
    (x >>= f) = .ok b ↔ ∃ a, x = .ok a ∧ f a = .ok b := by
  cases x <;> simp [bind, Except.bind]

theorem ok_bind (a : α) (f : α → Except ε β) : ((.ok a : Except ε α) >>= f) = f a := rfl

theorem map_bind (x : Except ε α) (f : α → β) (g : β → Except ε γ) :
    (x.map f >>= g) = x >>= fun a => g (f a) := by
  cases x <;> rfl

theorem bind_map (x : Except ε α) (f : β → γ) (g : α → Except ε β) :
    (x >>= g).map f = x >>= fun a => (g a).map f := by
  cases x <;> rfl

theorem map_eq_ok {x : Except ε α} {f : α → β} :
    x.map f = .ok b ↔ ∃ a, x = .ok a ∧ f a = b := by
  cases x <;> simp [Except.map]

end Bind

section AllM
variable {α β : Type} {f : α → Option Bool}

theorem allM_cons (x : α) (xs : List α) :
    (x :: xs).allM f = (f x).bind fun b => if b then xs.allM f else some false := by
  rw [List.allM]
  cases f x with
  | none => rfl
  | some b => cases b <;> rfl

/-- A test of elements that stand for others: it holds where it does for each of them, and returns
where it does on each one that it comes to. -/
theorem allM_spec {xs : List α} {ys : List β} {P Q : β → Prop}
    (h : List.Forall₂ (fun x y => (f x = some true ↔ P y) ∧ ((f x).isSome ↔ Q y)) xs ys) :
    (xs.allM f = some true ↔ ∀ y ∈ ys, P y) ∧
    ((xs.allM f).isSome ↔ ∀ before y after, ys = before ++ y :: after →
      (∀ z ∈ before, P z) → Q y) := by
  induction h with
  | nil =>
    refine ⟨iff_of_true rfl fun _ h => absurd h List.not_mem_nil, iff_of_true rfl ?_⟩
    intro before y after h _
    cases before <;> cases h
  | @cons x y xs ys hxy _ ih =>
    obtain ⟨hholds, hreturns⟩ := hxy
    rw [allM_cons, List.forall_mem_cons, ← hholds, ← ih.1]
    constructor
    · cases f x with
      | none => simp
      | some b => cases b <;> simp
    · constructor
      · intro h before z after hsplit hbefore
        cases before with
        | nil =>
          cases hsplit
          exact hreturns.1 (Option.isSome_of_isSome_bind h)
        | cons w before =>
          cases hsplit
          rw [List.forall_mem_cons] at hbefore
          rw [hholds.2 hbefore.1] at h
          exact ih.2.1 h before z after rfl hbefore.2
      · intro h
        have hx : (f x).isSome := by
          apply hreturns.2
          exact h [] y ys rfl fun _ hz => absurd hz List.not_mem_nil
        obtain ⟨b, hb⟩ := Option.isSome_iff_exists.1 hx
        rw [hb]
        cases b with
        | false => rfl
        | true =>
          apply ih.2.2
          intro before z after hsplit hbefore
          apply h (y :: before) z after
          · rw [hsplit, List.cons_append]
          · rw [List.forall_mem_cons]
            exact ⟨hholds.1 hb, hbefore⟩

end AllM

section Forall₂
variable {α β γ δ : Type} {R : α → β → Prop} {S : γ → δ → Prop}

theorem forall₂_zip (h : List.Forall₂ R xs ys) (h' : List.Forall₂ S zs ws) :
    List.Forall₂ (fun p q => R p.1 q.1 ∧ S p.2 q.2) (xs.zip zs) (ys.zip ws) := by
  induction h generalizing zs ws with
  | nil => exact .nil
  | cons hr _ ih =>
    cases h' with
    | nil => exact .nil
    | cons hs h' => exact .cons ⟨hr, hs⟩ (ih h')

end Forall₂

section Keyed
variable {α β : Type} [DecidableEq α]

theorem mem_of_lookup {l : List (α × β)} (h : l.lookup k = some v) : (k, v) ∈ l := by
  obtain ⟨before, after, heq, -⟩ := List.lookup_eq_some_iff.1 h
  rw [heq]
  exact List.mem_append_right _ List.mem_cons_self

theorem lookup_of_mem {l : List (α × β)} (hnodup : (l.map Prod.fst).Nodup) (h : (k, v) ∈ l) :
    l.lookup k = some v := by
  obtain ⟨before, after, rfl⟩ := List.append_of_mem h
  apply List.lookup_eq_some_iff.2
  refine ⟨before, after, rfl, fun entry hentry => bne_iff_ne.2 fun heq => ?_⟩
  rw [List.map_append, List.nodup_append] at hnodup
  exact hnodup.2.2 k (List.mem_map.2 ⟨entry, hentry, heq.symm⟩) k List.mem_cons_self rfl

theorem lookup_perm {l l' : List (α × β)} (h : l.Perm l') (hnodup : (l.map Prod.fst).Nodup)
    (k : α) : l.lookup k = l'.lookup k := by
  have hnodup' : (l'.map Prod.fst).Nodup := (h.map Prod.fst).nodup_iff.1 hnodup
  apply Option.ext
  intro v
  constructor
  · exact fun hv => lookup_of_mem hnodup' (h.mem_iff.1 (mem_of_lookup hv))
  · exact fun hv => lookup_of_mem hnodup (h.mem_iff.2 (mem_of_lookup hv))

end Keyed

end Trieste.Library
