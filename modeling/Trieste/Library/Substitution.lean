import Mathlib.Data.List.TakeDrop

namespace Trieste.Library
set_option autoImplicit true

/-- A part of a text, with what is known of it. -/
structure Span (β : Type u) where
  start : Nat
  len : Nat
  label : β

/-- The text from a position on, with each span replaced. -/
def substitute (text : List α) (f : Span β → List α) : Nat → List (Span β) → List α
  | pos, [] => text.drop pos
  | pos, m :: spans =>
    (text.drop pos).take (m.start - pos) ++ f m ++ substitute text f (m.start + m.len) spans

/-- The spans lie in a text of the given length one after the other, from a position on. -/
inductive InOrder (limit : Nat) : Nat → List (Span β) → Prop
  | nil (h : pos ≤ limit) : InOrder limit pos []
  | cons (hstart : pos ≤ m.start) (rest : InOrder limit (m.start + m.len) spans) :
      InOrder limit pos (m :: spans)

namespace InOrder

theorem mono {spans : List (Span β)} (h : InOrder limit pos spans) (hle : start ≤ pos) :
    InOrder limit start spans := by
  cases h with
  | nil h => exact .nil (Nat.le_trans hle h)
  | cons hstart rest => exact .cons (Nat.le_trans hle hstart) rest

theorem start_le {spans : List (Span β)} (h : InOrder limit pos spans) :
    ∀ m ∈ spans.head?, pos ≤ m.start := by
  intro m hm
  cases h with
  | nil _ => cases hm
  | cons hstart _ =>
    cases hm
    exact hstart

end InOrder

theorem take_drop_append {text : List α} (h : pos ≤ mid) (h' : mid ≤ stop) :
    (text.drop pos).take (stop - pos) =
      (text.drop pos).take (mid - pos) ++ (text.drop mid).take (stop - mid) := by
  have hmid : text.drop mid = (text.drop pos).drop (mid - pos) := by
    rw [List.drop_drop, Nat.add_sub_cancel' h]
  have hstop : stop - pos = mid - pos + (stop - mid) := by omega
  rw [hmid, hstop, List.take_add]

theorem drop_append {text : List α} (h : pos ≤ mid) :
    text.drop pos = (text.drop pos).take (mid - pos) ++ text.drop mid := by
  have hmid : text.drop mid = (text.drop pos).drop (mid - pos) := by
    rw [List.drop_drop, Nat.add_sub_cancel' h]
  rw [hmid, List.take_append_drop]

theorem substitute_copy (text : List α) (f : Span β → List α) (h : pos ≤ mid)
    (hspans : ∀ m ∈ spans.head?, mid ≤ m.start) : substitute text f pos spans =
      (text.drop pos).take (mid - pos) ++ substitute text f mid spans := by
  cases spans with
  | nil => exact drop_append h
  | cons m spans =>
    have hstart : mid ≤ m.start := hspans m rfl
    rw [substitute, substitute, take_drop_append h hstart, List.append_assoc, List.append_assoc,
      List.append_assoc]

theorem substitute_self {text : List α} {f : Span β → List α} {spans : List (Span β)}
    (h : InOrder text.length pos spans)
    (hf : ∀ m ∈ spans, f m = (text.drop m.start).take m.len) :
    substitute text f pos spans = text.drop pos := by
  induction spans generalizing pos with
  | nil => rfl
  | cons m spans ih =>
    cases h with
    | cons hstart rest =>
      have hself : f m = (text.drop m.start).take (m.start + m.len - m.start) := by
        rw [hf m (.head _), Nat.add_sub_cancel_left]
      have hrest := ih rest fun m' hm' => hf m' (.tail _ hm')
      rw [substitute, hrest, hself, List.append_assoc, ← drop_append (Nat.le_add_right ..),
        ← drop_append hstart]

end Trieste.Library
