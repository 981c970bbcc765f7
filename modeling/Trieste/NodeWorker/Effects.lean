import Mathlib.Tactic.Common
import Trieste.NodeWorker

namespace Trieste.NodeWorker
set_option autoImplicit true

variable {N : Type}

@[simp] theorem isResolved_iff (w : NodeWorker N) (n : N) :
    w.isResolved n = true ↔ (w.state n).kind = .resolved := by
  simp only [isResolved, decide_eq_true_eq]

variable [DecidableEq N]

@[simp] theorem modify_worklist (w : NodeWorker N) (n : N)
    (f : NodeWorkerState N → NodeWorkerState N) : (w.modify n f).worklist = w.worklist := rfl

theorem modify_state (w : NodeWorker N) (n x : N) (f : NodeWorkerState N → NodeWorkerState N) :
    (w.modify n f).state x = if x = n then f (w.state n) else w.state x := by
  simp only [modify, Function.update_apply]

theorem add_kind (w : NodeWorker N) (n x : N) :
    ((w.add n).state x).kind =
      if x = n ∧ (w.state x).kind = .uninitialized then .active else (w.state x).kind := by
  unfold add
  by_cases hn : (w.state n).kind = .uninitialized
  · simp only [hn, ↓reduceIte, modify_state]
    by_cases hx : x = n
    · subst x
      simp only [↓reduceIte, hn, and_self]
    · simp only [hx, ↓reduceIte, false_and]
  · simp only [hn, ↓reduceIte]
    by_cases hx : x = n
    · subst x
      simp only [hn, and_false, ↓reduceIte]
    · simp only [hx, false_and, ↓reduceIte]

@[simp] theorem add_blockedOnCount (w : NodeWorker N) (n x : N) :
    ((w.add n).state x).blockedOnCount = (w.state x).blockedOnCount := by
  unfold add
  split
  · simp only [modify_state]
    split
    · next h => rw [h]
    · rfl
  · rfl

@[simp] theorem add_dependents (w : NodeWorker N) (n x : N) :
    ((w.add n).state x).dependents = (w.state x).dependents := by
  unfold add
  split
  · simp only [modify_state]
    split
    · next h => rw [h]
    · rfl
  · rfl

theorem add_worklist (w : NodeWorker N) (n : N) :
    (w.add n).worklist =
      if (w.state n).kind = .uninitialized then w.worklist ++ [n] else w.worklist := by
  unfold add
  split <;> rfl

theorem add_resolved (w : NodeWorker N) (n x : N) :
    ((w.add n).state x).kind = .resolved ↔ (w.state x).kind = .resolved := by
  rw [add_kind]
  split
  · next h => simp only [h.2, reduceCtorEq]
  · rfl

theorem add_kind_of_seen (w : NodeWorker N) (n : N) (hx : (w.state x).kind ≠ .uninitialized) :
    ((w.add n).state x).kind = (w.state x).kind := by
  rw [add_kind, if_neg (fun h => hx h.2)]

theorem mem_add_worklist (w : NodeWorker N) (n : N) (h : x ∈ w.worklist) :
    x ∈ (w.add n).worklist := by
  rw [add_worklist]
  split
  · exact List.mem_append_left _ h
  · exact h

theorem blockOn_fst (w : NodeWorker N) (d o : N) :
    (w.blockOn d o).1 = !w.isResolved o := by
  have hr : (w.add o).isResolved o = w.isResolved o := by
    rw [Bool.eq_iff_iff, isResolved_iff, isResolved_iff, add_resolved]
  unfold blockOn
  simp only [hr]
  split
  · next h => simp only [h, Bool.not_true]
  · next h => simp only [Bool.not_eq_true] at h; simp only [h, Bool.not_false]

theorem blockOn_of_resolved (w : NodeWorker N) (d : N) (ho : (w.state o).kind = .resolved) :
    (w.blockOn d o).2 = w := by
  have ha : w.add o = w := by
    unfold add
    rw [if_neg (by simp only [ho, reduceCtorEq, not_false_eq_true])]
  have hr : w.isResolved o = true := (isResolved_iff w o).2 ho
  simp only [blockOn, ha, hr, ↓reduceIte]

theorem blockOn_state (w : NodeWorker N) (d x : N) (ho : (w.state o).kind ≠ .resolved) :
    ((w.blockOn d o).2.state x).kind =
        (if x = d then .blocked else ((w.add o).state x).kind) ∧
      ((w.blockOn d o).2.state x).blockedOnCount = (w.state x).blockedOnCount ∧
      ((w.blockOn d o).2.state x).dependents =
        if x = o then insert d (w.state x).dependents else (w.state x).dependents := by
  have hr : ¬ (w.add o).isResolved o = true := by
    rw [isResolved_iff, add_resolved]
    exact ho
  simp only [blockOn, hr, Bool.false_eq_true, ↓reduceIte, modify_state]
  refine ⟨?_, ?_, ?_⟩
  · by_cases hd : x = d
    · simp only [hd, ↓reduceIte]
    · simp only [hd, ↓reduceIte]
      split
      · next h => rw [h]
      · rfl
  · by_cases hd : x = d <;> by_cases hx : x = o <;> simp_all
  · by_cases hd : x = d <;> by_cases hx : x = o <;> simp_all

theorem blockOn_worklist (w : NodeWorker N) (d o : N) :
    (w.blockOn d o).2.worklist = (w.add o).worklist := by
  unfold blockOn
  simp only []
  split <;> rfl

theorem blockOn_kind_self (w : NodeWorker N) (d o : N) :
    ((w.blockOn d o).2.state d).kind =
      if (w.state o).kind = .resolved then (w.state d).kind else .blocked := by
  by_cases ho : (w.state o).kind = .resolved
  · rw [blockOn_of_resolved w d ho, if_pos ho]
  · rw [(blockOn_state w d d ho).1, if_pos rfl, if_neg ho]

theorem blockOn_kind_ne (w : NodeWorker N) (d o : N) (hx : x ≠ d) :
    ((w.blockOn d o).2.state x).kind = ((w.add o).state x).kind := by
  by_cases ho : (w.state o).kind = .resolved
  · rw [blockOn_of_resolved w d ho, add_kind, if_neg]
    rintro ⟨rfl, h⟩
    rw [ho] at h
    cases h
  · rw [(blockOn_state w d x ho).1, if_neg hx]

@[simp] theorem blockOn_blockedOnCount (w : NodeWorker N) (d o x : N) :
    ((w.blockOn d o).2.state x).blockedOnCount = (w.state x).blockedOnCount := by
  by_cases ho : (w.state o).kind = .resolved
  · rw [blockOn_of_resolved w d ho]
  · exact (blockOn_state w d x ho).2.1

theorem blockOn_dependents (w : NodeWorker N) (d o x : N) :
    ((w.blockOn d o).2.state x).dependents =
      if x = o ∧ (w.state o).kind ≠ .resolved then insert d (w.state x).dependents
      else (w.state x).dependents := by
  by_cases ho : (w.state o).kind = .resolved
  · simp only [blockOn_of_resolved w d ho, ho, ne_eq, not_true_eq_false, and_false, ↓reduceIte]
  · simp only [(blockOn_state w d x ho).2.2, ne_eq, ho, not_false_eq_true, and_true]

theorem blockOn_resolved (w : NodeWorker N) (o : N) (hd : (w.state d).kind ≠ .resolved) (x : N) :
    ((w.blockOn d o).2.state x).kind = .resolved ↔ (w.state x).kind = .resolved := by
  by_cases hx : x = d
  · subst x
    rw [blockOn_kind_self w d o]
    split
    · rfl
    · simp only [reduceCtorEq, hd]
  · rw [blockOn_kind_ne w d o hx, add_resolved]

/-- The origins that a blocking call counts, with repetitions. -/
def unresolved (w : NodeWorker N) (origins : List N) : List N :=
  origins.filter fun o => !w.isResolved o

omit [DecidableEq N] in
theorem mem_unresolved (w : NodeWorker N) : x ∈ w.unresolved origins ↔
    x ∈ origins ∧ (w.state x).kind ≠ .resolved := by
  simp only [unresolved, List.mem_filter, Bool.not_eq_eq_eq_not, Bool.not_true,
    ← Bool.not_eq_true, isResolved_iff, ne_eq]

/-- The effect of a whole blocking loop, in terms of the worker before it. -/
structure BlockedOn (w : NodeWorker N) (d : N) (origins : List N) (count : Nat)
    (w' : NodeWorker N) : Prop where
  count_eq : count = (w.unresolved origins).length
  kind_self : (w'.state d).kind = if count = 0 then (w.state d).kind else .blocked
  kind_ne : ∀ x, x ≠ d → (w'.state x).kind =
    if x ∈ origins ∧ (w.state x).kind = .uninitialized then .active else (w.state x).kind
  blockedOnCount_eq : ∀ x, (w'.state x).blockedOnCount = (w.state x).blockedOnCount
  dependents_eq : ∀ x, (w'.state x).dependents =
    if x ∈ w.unresolved origins then insert d (w.state x).dependents
    else (w.state x).dependents
  mem_worklist : ∀ x, x ∈ w'.worklist ↔
    x ∈ w.worklist ∨ x ∈ origins ∧ (w.state x).kind = .uninitialized
  nodup : (∀ x ∈ w.worklist, (w.state x).kind ≠ .uninitialized) →
    w.worklist.Nodup → w'.worklist.Nodup

theorem unresolved_blockOn (w : NodeWorker N) (o : N) (hd : (w.state d).kind ≠ .resolved)
    (origins : List N) : (w.blockOn d o).2.unresolved origins = w.unresolved origins := by
  unfold unresolved
  congr 1
  funext x
  apply congrArg not
  rw [Bool.eq_iff_iff, isResolved_iff, isResolved_iff, blockOn_resolved w o hd]

theorem blockOn_seen (w : NodeWorker N) (d o : N) (hs : (w.state x).kind ≠ .uninitialized) :
    ((w.blockOn d o).2.state x).kind ≠ .uninitialized := by
  by_cases hx : x = d
  · subst x
    rw [blockOn_kind_self]
    split
    · exact hs
    · exact WorkerStatus.noConfusion
  · rw [blockOn_kind_ne w d o hx, add_kind_of_seen w o hs]
    exact hs

theorem blockOn_uninitialized (w : NodeWorker N) (o : N)
    (hs : (w.state d).kind ≠ .uninitialized) :
    ((w.blockOn d o).2.state x).kind = .uninitialized ↔
      (w.state x).kind = .uninitialized ∧ x ≠ o := by
  by_cases hx : x = d
  · subst x
    simp only [blockOn_seen w d o hs, hs, false_and]
  · rw [blockOn_kind_ne w d o hx, add_kind]
    grind

theorem mem_blockOn_worklist (w : NodeWorker N) (d o : N) :
    x ∈ (w.blockOn d o).2.worklist ↔
      x ∈ w.worklist ∨ x = o ∧ (w.state x).kind = .uninitialized := by
  rw [blockOn_worklist, add_worklist]
  split <;> grind

theorem blockOn_nodup (w : NodeWorker N) (d o : N)
    (hseen : ∀ x ∈ w.worklist, (w.state x).kind ≠ .uninitialized) (hnd : w.worklist.Nodup) :
    (w.blockOn d o).2.worklist.Nodup := by
  rw [blockOn_worklist, add_worklist]
  split
  · next h =>
    rw [List.nodup_append]
    refine ⟨hnd, List.nodup_singleton _, ?_⟩
    rintro x hx _ hy rfl
    rw [List.mem_singleton] at hy
    subst x
    exact hseen _ hx h
  · exact hnd

theorem blockOnEach_spec (w : NodeWorker N) (d : N) (origins : List N)
    (hd : (w.state d).kind ≠ .resolved) (hs : (w.state d).kind ≠ .uninitialized) :
    BlockedOn w d origins (w.blockOnEach d origins).1 (w.blockOnEach d origins).2 := by
  induction origins generalizing w with
  | nil =>
    exact ⟨rfl, rfl, fun x _ => by simp [blockOnEach], fun _ => rfl,
      fun x => by simp [blockOnEach, unresolved], fun x => by simp [blockOnEach],
      fun _ h => h⟩
  | cons o os ih =>
    have hd' : ((w.blockOn d o).2.state d).kind ≠ .resolved := by
      rw [ne_eq, blockOn_resolved w o hd]
      exact hd
    obtain ⟨hc, hk, hne, hb, hdep, hw, hn⟩ := ih (w.blockOn d o).2 hd' (blockOn_seen w d o hs)
    rw [unresolved_blockOn w o hd] at hc hdep
    have hu : w.unresolved (o :: os) =
        if (w.state o).kind = .resolved then w.unresolved os else o :: w.unresolved os := by
      simp only [unresolved, List.filter_cons, Bool.not_eq_eq_eq_not, Bool.not_true,
        ← Bool.not_eq_true, isResolved_iff, ite_not]
    refine ⟨?_, ?_, ?_, ?_, ?_, ?_, ?_⟩
    · simp only [blockOnEach, blockOn_fst, hu, hc]
      by_cases ho : (w.state o).kind = .resolved
      · simp [ho, isResolved]
      · simp [ho, isResolved, Nat.add_comm]
    · simp only [blockOnEach, hk, blockOn_kind_self, blockOn_fst]
      by_cases ho : (w.state o).kind = .resolved
      · simp [ho, isResolved]
      · simp [ho, isResolved]
    · intro x hx
      simp only [blockOnEach, hne x hx, blockOn_kind_ne w d o hx, add_kind, List.mem_cons]
      grind
    · intro x
      simp only [blockOnEach, hb, blockOn_blockedOnCount]
    · intro x
      simp only [blockOnEach, hdep, blockOn_dependents, hu]
      grind [mem_unresolved]
    · intro x
      simp only [blockOnEach, hw, mem_blockOn_worklist, blockOn_uninitialized w o hs,
        List.mem_cons]
      grind
    · intro hseen hnd
      apply hn _ (blockOn_nodup w d o hseen hnd)
      intro x hx
      rw [mem_blockOn_worklist] at hx
      rw [ne_eq, blockOn_uninitialized w o hs]
      grind

/-- The effect of `blockOnAll`, in terms of the worker before it. -/
structure BlockedOnAll (w : NodeWorker N) (d : N) (origins : List N) (r : Bool × NodeWorker N) :
    Prop where
  result : r.1 = true ↔ w.unresolved origins ≠ []
  kind_self : (r.2.state d).kind =
    if w.unresolved origins = [] then (w.state d).kind else .blocked
  kind_ne : ∀ x, x ≠ d → (r.2.state x).kind =
    if x ∈ origins ∧ (w.state x).kind = .uninitialized then .active else (w.state x).kind
  blockedOnCount_self : (r.2.state d).blockedOnCount =
    if w.unresolved origins = [] then (w.state d).blockedOnCount
    else if (w.state d).blockedOnCount = 0 then (w.unresolved origins).length - 1
    else min (w.state d).blockedOnCount ((w.unresolved origins).length - 1)
  blockedOnCount_ne : ∀ x, x ≠ d → (r.2.state x).blockedOnCount = (w.state x).blockedOnCount
  dependents_eq : ∀ x, (r.2.state x).dependents =
    if x ∈ w.unresolved origins then insert d (w.state x).dependents
    else (w.state x).dependents
  mem_worklist : ∀ x, x ∈ r.2.worklist ↔
    x ∈ w.worklist ∨ x ∈ origins ∧ (w.state x).kind = .uninitialized
  nodup : (∀ x ∈ w.worklist, (w.state x).kind ≠ .uninitialized) →
    w.worklist.Nodup → r.2.worklist.Nodup

theorem blockOnAll_spec (w : NodeWorker N) (d : N) (origins : List N)
    (hd : (w.state d).kind ≠ .resolved) (hs : (w.state d).kind ≠ .uninitialized) :
    BlockedOnAll w d origins (w.blockOnAll d origins) := by
  obtain ⟨hc, hk, hne, hb, hdep, hm, hn⟩ := blockOnEach_spec w d origins hd hs
  have hz : (w.blockOnEach d origins).1 = 0 ↔ w.unresolved origins = [] := by
    rw [hc, List.length_eq_zero_iff]
  unfold blockOnAll
  by_cases hu : w.unresolved origins = []
  · have h0 := hz.2 hu
    rw [h0, if_pos rfl] at hk
    simp only [h0, ↓reduceIte]
    exact ⟨by simp [hu], by rw [hk, if_pos hu], hne, by rw [hb, if_pos hu], fun x _ => hb x,
      hdep, hm, hn⟩
  · have h0 : (w.blockOnEach d origins).1 ≠ 0 := fun h => hu (hz.1 h)
    rw [if_neg h0] at hk
    simp only [h0, ↓reduceIte]
    refine ⟨by simp [hu], ?_, fun x hx => ?_, ?_, fun x hx => ?_, fun x => ?_, hm, hn⟩
    · rw [modify_state, if_pos rfl, hk, if_neg hu]
    · rw [modify_state, if_neg hx, hne x hx]
    · rw [modify_state, if_pos rfl, if_neg hu, hc, hb]
    · rw [modify_state, if_neg hx, hb]
    · rw [modify_state, ← hdep]
      split
      · next h => rw [h]
      · rfl

/-- A signal wakes a node whose counter is used up. -/
def Ready (s : NodeWorkerState N) : Prop := s.kind = .blocked ∧ s.blockedOnCount = 0

instance (s : NodeWorkerState N) : Decidable (Ready s) := by
  unfold Ready
  infer_instance

def signalled (s : NodeWorkerState N) : NodeWorkerState N :=
  if s.kind ≠ .blocked then s
  else if 0 < s.blockedOnCount then { s with blockedOnCount := s.blockedOnCount - 1 }
  else { s with kind := .active }

theorem signal_state (w : NodeWorker N) (y x : N) :
    (w.signal y).state x = if x = y then signalled (w.state x) else w.state x := by
  unfold signal signalled
  by_cases hx : x = y
  · subst x
    simp only [↓reduceIte]
    split
    · rfl
    · split <;> simp only [modify_state, ↓reduceIte]
  · simp only [hx, ↓reduceIte]
    split
    · rfl
    · split <;> simp only [modify_state, hx, ↓reduceIte]

theorem signal_worklist (w : NodeWorker N) (y : N) :
    (w.signal y).worklist = w.worklist ++ if Ready (w.state y) then [y] else [] := by
  unfold signal Ready
  split
  · next h => simp only [h, false_and, ↓reduceIte, List.append_nil]
  · next h =>
    rw [not_not] at h
    split
    · next hb => simp only [Nat.ne_of_gt hb, and_false, ↓reduceIte, List.append_nil, modify_worklist]
    · next hb => simp only [h, Nat.eq_zero_of_not_pos hb, and_self, ↓reduceIte]

theorem foldl_signal_state (w : NodeWorker N) {waiting : List N} (hnd : waiting.Nodup) (x : N) :
    (waiting.foldl signal w).state x =
      if x ∈ waiting then signalled (w.state x) else w.state x := by
  induction waiting generalizing w with
  | nil => simp only [List.foldl_nil, List.not_mem_nil, ↓reduceIte]
  | cons y ys ih =>
    rw [List.nodup_cons] at hnd
    rw [List.foldl_cons, ih _ hnd.2, signal_state]
    by_cases hx : x = y
    · subst x
      simp only [hnd.1, ↓reduceIte, List.mem_cons, true_or]
    · simp only [hx, ↓reduceIte, List.mem_cons, false_or]

theorem foldl_signal_worklist (w : NodeWorker N) {waiting : List N} (hnd : waiting.Nodup) :
    (waiting.foldl signal w).worklist =
      w.worklist ++ waiting.filter fun x => Ready (w.state x) := by
  induction waiting generalizing w with
  | nil => simp only [List.foldl_nil, List.filter_nil, List.append_nil]
  | cons y ys ih =>
    rw [List.nodup_cons] at hnd
    have hy : (ys.filter fun x => Ready ((w.signal y).state x)) =
        ys.filter fun x => Ready (w.state x) := by
      apply List.filter_congr
      intro x hx
      have hne : x ≠ y := fun h => hnd.1 (h ▸ hx)
      rw [signal_state, if_neg hne]
    rw [List.foldl_cons, ih _ hnd.2, signal_worklist, hy, List.append_assoc, List.filter_cons]
    congr 1
    by_cases hr : Ready (w.state y) <;> simp [hr]

/-- The effect of resolving a node whose dependents are visited in the order `waiting`. -/
structure ResolvedBy (w : NodeWorker N) (n : N) (w' : NodeWorker N) : Prop where
  kind_self : (w'.state n).kind = .resolved
  blockedOnCount_self : (w'.state n).blockedOnCount = (w.state n).blockedOnCount
  kind_ne : ∀ x, x ≠ n → (w'.state x).kind =
    if x ∈ (w.state n).dependents ∧ Ready (w.state x) then .active else (w.state x).kind
  blockedOnCount_ne : ∀ x, x ≠ n → (w'.state x).blockedOnCount =
    if x ∈ (w.state n).dependents ∧ (w.state x).kind = .blocked then
      (w.state x).blockedOnCount - 1
    else (w.state x).blockedOnCount
  dependents_eq : ∀ x, (w'.state x).dependents = if x = n then ∅ else (w.state x).dependents
  mem_worklist : ∀ x, x ∈ w'.worklist ↔
    x ∈ w.worklist ∨ x ≠ n ∧ x ∈ (w.state n).dependents ∧ Ready (w.state x)
  nodup : (∀ x ∈ w.worklist, (w.state x).kind ≠ .blocked) →
    w.worklist.Nodup → w'.worklist.Nodup

theorem resolve_spec (w : NodeWorker N) (n : N) {waiting : List N} (hnd : waiting.Nodup)
    (hw : waiting.toFinset = (w.state n).dependents) : ResolvedBy w n (w.resolve n waiting) := by
  have hm (x : N) : x ∈ waiting ↔ x ∈ (w.state n).dependents := by
    rw [← hw, List.mem_toFinset]
  have hs (x : N) : (w.resolve n waiting).state x =
      if x = n then { w.state n with kind := .resolved, dependents := ∅ }
      else if x ∈ (w.state n).dependents then signalled (w.state x) else w.state x := by
    simp only [resolve, unblockDependents, modify_state, foldl_signal_state _ hnd, hm]
    by_cases hx : x = n
    · subst x
      simp [signalled]
    · simp only [hx, ↓reduceIte]
  have hl : (w.resolve n waiting).worklist = w.worklist ++ waiting.filter
      fun x => Ready ((w.modify n fun s => { s with kind := .resolved }).state x) := by
    simp only [resolve, unblockDependents, modify_worklist, foldl_signal_worklist _ hnd]
  refine ⟨?_, ?_, ?_, ?_, ?_, ?_, ?_⟩
  · rw [hs, if_pos rfl]
  · rw [hs, if_pos rfl]
  · intro x hx
    rw [hs, if_neg hx]
    unfold signalled Ready
    grind
  · intro x hx
    rw [hs, if_neg hx]
    unfold signalled
    grind
  · intro x
    rw [hs]
    unfold signalled
    grind
  · intro x
    rw [hl]
    simp only [List.mem_append, List.mem_filter, decide_eq_true_eq, modify_state, hm, Ready]
    grind
  · intro hb h
    rw [hl, List.nodup_append]
    refine ⟨h, hnd.filter _, ?_⟩
    rintro x hx _ hy rfl
    simp only [List.mem_filter, decide_eq_true_eq, modify_state, Ready] at hy
    grind

end Trieste.NodeWorker
