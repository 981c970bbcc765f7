import Mathlib.Logic.Relation
import Mathlib.Order.WellFounded
import Mathlib.Data.List.Basic

namespace Trieste.Library
set_option autoImplicit true

/-- A finite run with the events it performs. -/
inductive Run (step : σ → ε → σ → Prop) : σ → List ε → σ → Prop
  | nil (s : σ) : Run step s [] s
  | cons (h : step s e t) (hr : Run step t es u) : Run step s (e :: es) u

namespace Run
variable {step : σ → ε → σ → Prop}

theorem single (h : step s e t) : Run step s [e] t :=
  .cons h (.nil t)

/-- A property kept by the permitted steps is kept by a run of permitted events. -/
theorem preserves {P : ε → Prop} {I : σ → Prop}
    (hstep : ∀ s e t, P e → I s → step s e t → I t)
    (h : Run step s es t) (hP : ∀ e ∈ es, P e) (hs : I s) : I t := by
  induction h with
  | nil => exact hs
  | cons he _ ih =>
    have hI := hstep _ _ _ (hP _ (List.mem_cons_self ..)) hs he
    exact ih (fun e hm => hP e (List.mem_cons_of_mem _ hm)) hI

/-- A property kept by every step is kept by every run. -/
theorem invariant {I : σ → Prop} (hstep : ∀ s e t, I s → step s e t → I t)
    (h : Run step s es t) (hs : I s) : I t :=
  h.preserves (P := fun _ => True) (fun s e t _ => hstep s e t) (fun _ _ => trivial) hs

end Run

def Reachable (step : σ → ε → σ → Prop) (s t : σ) : Prop :=
  ∃ es, Run step s es t

theorem Reachable.invariant {step : σ → ε → σ → Prop} {I : σ → Prop}
    (hstep : ∀ s e t, I s → step s e t → I t) (hs : I s) (h : Reachable step s t) : I t := by
  obtain ⟨es, hr⟩ := h
  exact hr.invariant hstep hs

/-- What each step keeps is kept by a fold that succeeds. -/
theorem foldlM_invariant {step : σ → α → Option σ} {l : List α} {I : σ → Prop}
    (hstep : ∀ s a s', a ∈ l → I s → step s a = some s' → I s') (hs : I s)
    (hfold : l.foldlM step s = some s') : I s' := by
  induction l generalizing s with
  | nil =>
    cases hfold
    exact hs
  | cons a l ih =>
    rw [List.foldlM_cons] at hfold
    obtain ⟨s₁, ha, hfold⟩ := Option.bind_eq_some_iff.1 hfold
    apply ih _ (hstep s a s₁ (.head _) hs ha) hfold
    intro s b s' hb
    exact hstep s b s' (.tail _ hb)

section Worklist
open Relation

/-- The nodes seen and pending are reachable, and an edge out of the nodes seen leads to one of
them. -/
structure Explored (edge : α → α → Prop) (roots : α → Prop) (seen : α → Prop) (pending : List α) :
    Prop where
  sound : ∀ a, seen a ∨ a ∈ pending → ∃ r, roots r ∧ ReflTransGen edge r a
  starts : ∀ r, roots r → seen r ∨ r ∈ pending
  closed : ∀ a b, seen a → edge a b → seen b ∨ b ∈ pending

namespace Explored
variable {edge : α → α → Prop} {roots seen : α → Prop} {pending succs : List α}

theorem nothing (edge : α → α → Prop) :
    Explored edge (fun _ => False) (fun _ => False) [] := by
  refine ⟨?_, fun _ h => h.elim, fun _ _ h => h.elim⟩
  intro a h
  exact h.elim False.elim fun h => (List.not_mem_nil h).elim

theorem restart (h : Explored edge roots seen []) (root : α) :
    Explored edge (fun a => a = root ∨ roots a) seen [root] := by
  constructor
  · intro a ha
    rcases ha with ha | ha
    · obtain ⟨r, hr, hreach⟩ := h.sound a (.inl ha)
      exact ⟨r, .inr hr, hreach⟩
    · exact ⟨root, .inl rfl, List.mem_singleton.1 ha ▸ .refl⟩
  · intro r hr
    rcases hr with rfl | hr
    · exact .inr (List.mem_singleton_self r)
    · exact .inl ((h.starts r hr).resolve_right List.not_mem_nil)
  · intro a b ha hb
    exact .inl ((h.closed a b ha hb).resolve_right List.not_mem_nil)

theorem init (edge : α → α → Prop) (root : α) :
    Explored edge (· = root) (fun _ => False) [root] := by
  have h := (nothing edge).restart root
  simpa only [or_false] using h

/-- A node that was seen before is dropped. -/
theorem skip (h : Explored edge roots seen (a :: pending)) (ha : seen a) :
    Explored edge roots seen pending := by
  have hdrop : ∀ b, seen b ∨ b ∈ a :: pending → seen b ∨ b ∈ pending := by
    rintro b (hb | hb)
    · exact .inl hb
    · rcases List.mem_cons.1 hb with rfl | hb
      · exact .inl ha
      · exact .inr hb
  exact ⟨fun b hb => h.sound b (hb.imp_right (List.mem_cons_of_mem a)), fun r hr => hdrop r (h.starts r hr),
    fun b c hb hc => hdrop c (h.closed b c hb hc)⟩

/-- A new node is replaced by its successors. -/
theorem visit (h : Explored edge roots seen (a :: pending)) (hs : ∀ b, edge a b ↔ b ∈ succs) :
    Explored edge roots (fun b => b = a ∨ seen b) (succs ++ pending) := by
  have hkeep : ∀ b, seen b ∨ b ∈ a :: pending → (b = a ∨ seen b) ∨ b ∈ succs ++ pending := by
    rintro b (hb | hb)
    · exact .inl (.inr hb)
    · rcases List.mem_cons.1 hb with rfl | hb
      · exact .inl (.inl rfl)
      · exact .inr (List.mem_append_right succs hb)
  have ha := h.sound a (.inr List.mem_cons_self)
  refine ⟨?_, fun r hr => hkeep r (h.starts r hr), ?_⟩
  · rintro b ((rfl | hb) | hb)
    · exact ha
    · exact h.sound b (.inl hb)
    · rcases List.mem_append.1 hb with hb | hb
      · obtain ⟨r, hr, hreach⟩ := ha
        exact ⟨r, hr, hreach.tail ((hs b).2 hb)⟩
      · exact h.sound b (.inr (List.mem_cons_of_mem a hb))
  · rintro b c (rfl | hb) hc
    · exact .inr (List.mem_append_left pending ((hs c).1 hc))
    · exact hkeep c (h.closed b c hb hc)

/-- A new node without successors is dropped. -/
theorem visit_nil (h : Explored edge roots seen (a :: pending)) (hs : ∀ b, ¬ edge a b) :
    Explored edge roots (fun b => b = a ∨ seen b) pending := by
  have hnil : ∀ b, edge a b ↔ b ∈ ([] : List α) := fun b => by simp [hs b]
  exact h.visit hnil

/-- With nothing pending, the nodes seen are those that can be reached. -/
theorem reaches_iff (h : Explored edge roots seen []) (a : α) :
    seen a ↔ ∃ r, roots r ∧ ReflTransGen edge r a := by
  constructor
  · exact fun ha => h.sound a (.inl ha)
  · intro ha
    obtain ⟨r, hr, ha⟩ := ha
    induction ha with
    | refl => exact (h.starts r hr).resolve_right List.not_mem_nil
    | tail _ hb ih => exact (h.closed _ _ ih hb).resolve_right List.not_mem_nil

end Explored

end Worklist

section Supplies
open Relation

variable {next : (Nat → β) → α → α → Prop} {position : α → Nat}

/-- A step reads the supply between the positions before and after it. -/
structure Supplied (next : (Nat → β) → α → α → Prop) (position : α → Nat) : Prop where
  mono : ∀ d x y, next d x y → position x ≤ position y
  agree : ∀ d d' x y, next d x y → (∀ i, position x ≤ i → i < position y → d' i = d i) →
    next d' x y

def Leads (next : (Nat → β) → α → α → Prop) (x y : α) : Prop := ∃ d, next d x y

/-- The first supply up to a position, and the second one from there on. -/
def splice (n : Nat) (d d' : Nat → β) (i : Nat) : β := if i < n then d i else d' i

theorem splice_lt (h : i < n) (d d' : Nat → β) : splice n d d' i = d i := if_pos h

theorem splice_le (h : n ≤ i) (d d' : Nat → β) : splice n d d' i = d' i :=
  if_neg (Nat.not_lt.2 h)

namespace Supplied

theorem reaches_agree (h : Supplied next position) (hxy : ReflTransGen (next d) x y)
    (hd : ∀ i, position x ≤ i → d' i = d i) : ReflTransGen (next d') x y := by
  induction hxy using ReflTransGen.head_induction_on with
  | refl => exact .refl
  | head hxz _ ih =>
    have hle := h.mono _ _ _ hxz
    refine .head (h.agree _ _ _ _ hxz fun i hi _ => hd i hi) (ih fun i hi => ?_)
    exact hd i (Nat.le_trans hle hi)

theorem reaches_mono (h : Supplied next position) (hxy : ReflTransGen (Leads next) x y) :
    position x ≤ position y := by
  induction hxy with
  | refl => exact Nat.le_refl _
  | tail _ hs ih =>
    obtain ⟨d, hs⟩ := hs
    exact Nat.le_trans ih (h.mono d _ _ hs)

/-- Steps with several supplies are steps with one, which goes on as any other. -/
theorem reaches (h : Supplied next position) (hxy : ReflTransGen (Leads next) x y)
    (rest : Nat → β) :
    ∃ d, ReflTransGen (next d) x y ∧ ∀ i, position y ≤ i → d i = rest i := by
  induction hxy using ReflTransGen.head_induction_on with
  | refl => exact ⟨rest, .refl, fun _ _ => rfl⟩
  | @head x z hxz hzy ih =>
    obtain ⟨first, hxz⟩ := hxz
    obtain ⟨d, hd, hrest⟩ := ih
    have hle := h.reaches_mono hzy
    have hfirst : next (splice (position z) first d) x z :=
      h.agree _ _ _ _ hxz fun i _ hi => splice_lt hi first d
    refine ⟨splice (position z) first d, .head hfirst ?_, fun i hi => ?_⟩
    · exact h.reaches_agree hd fun i hi => splice_le hi first d
    · exact (splice_le (Nat.le_trans hle hi) first d).trans (hrest i hi)

/-- Steps without an end are steps with one supply. -/
theorem limit (h : Supplied next position) (f : Nat → α)
    (hf : ∀ n, Leads next (f n) (f (n + 1))) : ∃ d, ∀ n, next d (f n) (f (n + 1)) := by
  choose supply hsupply using hf
  have hmono : Monotone fun n => position (f n) :=
    monotone_nat_of_le_succ fun n => h.mono _ _ _ (hsupply n)
  have hunique {i m n : Nat} (hm : position (f m) ≤ i ∧ i < position (f (m + 1)))
      (hn : position (f n) ≤ i ∧ i < position (f (n + 1))) : m = n := by
    apply Nat.le_antisymm
    · exact Nat.lt_succ_iff.1 (hmono.reflect_lt (Nat.lt_of_le_of_lt hm.1 hn.2))
    · exact Nat.lt_succ_iff.1 (hmono.reflect_lt (Nat.lt_of_le_of_lt hn.1 hm.2))
  -- the result at a position is that of the step that reads it
  have hchoice (i : Nat) : ∃ b, ∀ n, position (f n) ≤ i → i < position (f (n + 1)) →
      b = supply n i := by
    by_cases hread : ∃ n, position (f n) ≤ i ∧ i < position (f (n + 1))
    · obtain ⟨m, hm⟩ := hread
      exact ⟨supply m i, fun n hn hn' => by rw [hunique hm ⟨hn, hn'⟩]⟩
    · exact ⟨supply 0 i, fun n hn hn' => absurd ⟨n, hn, hn'⟩ hread⟩
  choose d hd using hchoice
  exact ⟨d, fun n => h.agree _ _ _ _ (hsupply n) fun i hi hi' => hd i n hi hi'⟩

/-- Where the steps end with every supply, they end when the supply changes on the way. -/
theorem acc (h : Supplied next position) (hx : ∀ d, Acc (fun y x => next d x y) x) :
    Acc (fun y x => Leads next x y) x := by
  by_contra hacc
  obtain ⟨f, rfl, hf⟩ := not_acc_iff_exists_descending_chain.1 hacc
  obtain ⟨d, hd⟩ := h.limit f hf
  exact not_acc_iff_exists_descending_chain.2 ⟨f, rfl, hd⟩ (hx d)

end Supplied

end Supplies

end Trieste.Library
