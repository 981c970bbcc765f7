import Mathlib.Data.List.Infix
import Mathlib.Data.List.Nodup
import Mathlib.Logic.Relation

namespace Trieste.Library
set_option autoImplicit true
open Relation

variable {α : Type u} {lt : α → α → Prop}

/-- The lists go on with different elements behind a common start. -/
structure PartAt (before : List α) (x y : α) (l l' : List α) : Prop where
  left : before ++ [x] <+: l
  right : before ++ [y] <+: l'
  ne : x ≠ y

/-- Of two elements at which the lists part, that of the first list is less. -/
def LeftOf (lt : α → α → Prop) (l l' : List α) : Prop :=
  ∃ before x y, PartAt before x y l l' ∧ lt x y

namespace PartAt

theorem symm (h : PartAt before x y l l') : PartAt before y x l' l := ⟨h.right, h.left, h.ne.symm⟩

theorem next_unique (hx : before ++ [x] <+: l) (hy : before ++ [y] <+: l) : x = y := by
  have hlength : (before ++ [x]).length = (before ++ [y]).length := by
    rw [List.length_append, List.length_append]
    rfl
  have heq := (List.prefix_of_prefix_length_le hx hy (Nat.le_of_eq hlength)).eq_of_length hlength
  exact List.singleton_inj.1 (List.append_cancel_left heq)

theorem not_start (h : PartAt before x y l l') : ¬ l <+: l' := fun hl =>
  h.ne (next_unique (h.left.trans hl) h.right)

/-- Where two lists have parted, no later element is at the same place in both. -/
theorem length_le {before : List α} (h : PartAt before x y l l') (hl : before' <+: l) (hl' : before' <+: l') :
    before'.length ≤ before.length := by
  by_contra hlt
  have hle : ∀ z : α, (before ++ [z]).length ≤ before'.length := by
    intro z
    rw [List.length_append]
    exact Nat.lt_of_not_le hlt
  have hx := List.prefix_of_prefix_length_le h.left hl (hle x)
  have hy := List.prefix_of_prefix_length_le h.right hl' (hle y)
  exact h.ne (next_unique hx hy)

theorem start (h : PartAt before x y l l') : before <+: l ∧ before <+: l' :=
  ⟨(List.prefix_append _ _).trans h.left, (List.prefix_append _ _).trans h.right⟩

theorem unique (h : PartAt before x y l l') (h' : PartAt before' x' y' l l') :
    before = before' ∧ x = x' ∧ y = y' := by
  have hlength := Nat.le_antisymm (h'.length_le h.start.1 h.start.2)
    (h.length_le h'.start.1 h'.start.2)
  obtain rfl := (List.prefix_of_prefix_length_le h.start.1 h'.start.1
    (Nat.le_of_eq hlength)).eq_of_length hlength
  exact ⟨rfl, next_unique h.left h'.left, next_unique h.right h'.right⟩

end PartAt

/-- Two lists part, unless one of them starts with the other. -/
theorem exists_partAt (h : ¬ l <+: l') (h' : ¬ l' <+: l) : ∃ before x y, PartAt before x y l l' := by
  induction l generalizing l' with
  | nil => exact absurd List.nil_prefix h
  | cons a l ih =>
    cases l' with
    | nil => exact absurd List.nil_prefix h'
    | cons b l' =>
      by_cases hab : a = b
      · subst hab
        rw [List.cons_prefix_cons, and_iff_right rfl] at h h'
        obtain ⟨before, x, y, hpart⟩ := ih h h'
        refine ⟨a :: before, x, y, ?_, ?_, hpart.ne⟩
        · exact List.cons_prefix_cons.2 ⟨rfl, hpart.left⟩
        · exact List.cons_prefix_cons.2 ⟨rfl, hpart.right⟩
      · exact ⟨[], a, b, List.prefix_append [a] l, List.prefix_append [b] l', hab⟩

namespace LeftOf

theorem asymm (h : LeftOf lt l l') (hlt : ∀ x y, lt x y → ¬ lt y x) : ¬ LeftOf lt l' l := by
  obtain ⟨before, x, y, hpart, hxy⟩ := h
  intro hback
  obtain ⟨before', y', x', hpart', hyx⟩ := hback
  obtain ⟨-, rfl, rfl⟩ := hpart.unique hpart'.symm
  exact hlt x y hxy hyx

theorem trans (h : LeftOf lt l l') (h' : LeftOf lt l' l'')
    (hirrefl : ∀ x, ¬ lt x x) (hlt : ∀ x y z, lt x y → lt y z → lt x z) : LeftOf lt l l'' := by
  obtain ⟨before, x, y, hpart, hxy⟩ := h
  obtain ⟨before', y', z, hpart', hyz⟩ := h'
  rcases Nat.lt_trichotomy before.length before'.length with hlength | hlength | hlength
  · -- the last two lists are the same where the first two part
    have hle : (before ++ [y]).length ≤ before'.length := by
      rw [List.length_append]
      exact hlength
    have hstart := List.prefix_of_prefix_length_le hpart.right hpart'.start.1 hle
    exact ⟨before, x, y, ⟨hpart.left, hstart.trans hpart'.start.2, hpart.ne⟩, hxy⟩
  · obtain rfl := (List.prefix_of_prefix_length_le hpart.start.2 hpart'.start.1
      (Nat.le_of_eq hlength)).eq_of_length hlength
    obtain rfl := PartAt.next_unique hpart.right hpart'.left
    have hxz := hlt x y z hxy hyz
    refine ⟨before, x, z, ⟨hpart.left, hpart'.right, ?_⟩, hxz⟩
    rintro rfl
    exact hirrefl x hxz
  · have hle : (before' ++ [y']).length ≤ before.length := by
      rw [List.length_append]
      exact hlength
    have hstart := List.prefix_of_prefix_length_le hpart'.left hpart.start.2 hle
    exact ⟨before', y', z, ⟨hstart.trans hpart.start.1, hpart'.right, hpart'.ne⟩, hyz⟩

end LeftOf

/-- The path to an element from the element without a parent above it. -/
inductive Trail (up : α → Option α) : α → List α → Prop
  | root (h : up a = none) : Trail up a [a]
  | child (h : up a = some p) (hp : Trail up p l) : Trail up a (l ++ [a])

namespace Trail
variable {up : α → Option α}

theorem getLast (h : Trail up a l) : l.getLast? = some a := by
  cases h with
  | root => rfl
  | child => exact List.getLast?_concat

theorem length_pos (h : Trail up a l) : 0 < l.length := by
  cases h with
  | root => exact Nat.one_pos
  | child =>
    rw [List.length_append]
    exact Nat.succ_pos _

theorem unique (h : Trail up a l) (h' : Trail up a l') : l = l' := by
  induction h generalizing l' with
  | root h =>
    cases h' with
    | root => rfl
    | child h' =>
      rw [h] at h'
      cases h'
  | child h hp ih =>
    cases h' with
    | root h' =>
      rw [h] at h'
      cases h'
    | child h' hp' =>
      rw [h] at h'
      cases h'
      rw [ih hp']

/-- What stands before an element in its trail ends with its parent. -/
theorem parent (h : Trail up a (l ++ [a])) : up a = l.getLast? := by
  generalize htrail : l ++ [a] = trail at h
  cases h with
  | root h =>
    obtain rfl : l = [] := List.append_left_eq_self.1 htrail
    exact h
  | child h hp =>
    obtain rfl := List.append_cancel_right htrail
    rw [h, hp.getLast]

theorem child_inv (h : Trail up a (l ++ [a])) (hne : l ≠ []) : ∃ p, up a = some p ∧ Trail up p l := by
  generalize htrail : l ++ [a] = trail at h
  cases h with
  | root h => exact absurd (List.append_left_eq_self.1 htrail) hne
  | child h hp =>
    obtain rfl := List.append_cancel_right htrail
    exact ⟨_, h, hp⟩

/-- An element with something above it, whose trail goes on behind a start. -/
theorem step (h : Trail up a (before ++ x :: (after ++ [b]))) :
    a = b ∧ ∃ p, up a = some p ∧ Trail up p (before ++ x :: after) := by
  have hassoc : before ++ x :: (after ++ [b]) = (before ++ x :: after) ++ [b] :=
    (List.append_assoc before (x :: after) [b]).symm
  rw [hassoc] at h
  have hlast := h.getLast
  rw [List.getLast?_concat] at hlast
  obtain rfl := Option.some.inj hlast
  exact ⟨rfl, h.child_inv (List.append_ne_nil_of_right_ne_nil _ (List.cons_ne_nil _ _))⟩

/-- Every start of a trail is the trail of its last element. -/
theorem start (h : Trail up a l) (hx : before ++ [x] <+: l) : Trail up x (before ++ [x]) := by
  induction h with
  | @root a h =>
    obtain ⟨rest, hrest⟩ := hx
    rw [List.append_assoc] at hrest
    cases before with
    | nil =>
      obtain ⟨rfl, -⟩ := List.cons.inj hrest
      exact .root h
    | cons b before =>
      have hnil := (List.cons.inj hrest).2
      exact absurd hnil (by simp)
  | @child a p l h hp ih =>
    rcases List.prefix_concat_iff.1 hx with heq | hx
    · obtain ⟨rfl, hxa⟩ := List.append_inj' heq rfl
      cases hxa
      exact .child h hp
    · exact ih hx

theorem nodup (h : Trail up a l) : l.Nodup := by
  induction h with
  | root => exact List.nodup_singleton _
  | @child a p l h hp ih =>
    refine List.nodup_append.2 ⟨ih, List.nodup_singleton a, ?_⟩
    intro b hb c hc heq
    rw [List.mem_singleton.1 hc] at heq
    subst heq
    obtain ⟨before, after, rfl⟩ := List.append_of_mem hb
    have hbegins : before ++ [b] <+: before ++ b :: after := ⟨after, List.append_cons .. |>.symm⟩
    have hlength := congrArg List.length ((hp.start hbegins).unique (.child h hp))
    simp at hlength

theorem above_iff (h : Trail up a l) (h' : Trail up b l') :
    ReflTransGen (fun p c => up c = some p) a b ↔ l <+: l' := by
  constructor
  · intro hab
    induction hab generalizing l' with
    | refl =>
      rw [h.unique h']
    | @tail c b _ hcb ih =>
      cases h' with
      | root hroot =>
        rw [hcb] at hroot
        cases hroot
      | child hp hc =>
        rw [hcb] at hp
        cases hp
        exact (ih hc).trans (List.prefix_append _ _)
  · intro hl
    induction h' with
    | @root b hb =>
      cases l with
      | nil => cases h.getLast
      | cons c l =>
        obtain ⟨rfl, hnil⟩ := List.cons_prefix_cons.1 hl
        obtain rfl := List.prefix_nil.1 hnil
        cases h.getLast
        exact .refl
    | @child b p l' hb hp ih =>
      rcases List.prefix_concat_iff.1 hl with rfl | hl
      · have heq := h.getLast
        rw [List.getLast?_concat] at heq
        cases heq
        exact .refl
      · exact (ih hl).tail hb

end Trail

end Trieste.Library
