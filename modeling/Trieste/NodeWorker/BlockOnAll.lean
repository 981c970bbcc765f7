import Trieste.NodeWorker.Invariant

namespace Trieste
set_option autoImplicit true
open NodeWorker Library

variable {N : Type} [DecidableEq N]

/-- The origins in whose dependents `d` is still registered. -/
def awaited (w : NodeWorker N) (d : N) (origins : List N) : Finset N :=
  origins.toFinset.filter fun o => d ∈ (w.state o).dependents

theorem mem_awaited (w : NodeWorker N) (d : N) (origins : List N) :
    o ∈ awaited w d origins ↔ o ∈ origins ∧ d ∈ (w.state o).dependents := by
  simp only [awaited, Finset.mem_filter, List.mem_toFinset]

theorem SameFor.awaited {w w' : NodeWorker N} (h : SameFor d w w') (origins : List N) :
    awaited w' d origins = awaited w d origins := by
  ext o
  simp only [mem_awaited, h.dependents]

theorem awaited_resolvedBy {w w' : NodeWorker N} (h : ResolvedBy w n w') (origins : List N) :
    awaited w' d origins = (awaited w d origins).erase n := by
  ext o
  rw [Finset.mem_erase, mem_awaited, mem_awaited, h.dependents_eq]
  by_cases ho : o = n
  · simp only [ho, ↓reduceIte, Finset.notMem_empty, and_false, ne_eq, not_true_eq_false, false_and]
  · simp only [ho, ↓reduceIte, ne_eq, not_false_eq_true, true_and]

theorem WorkerStep.call_inv {c c' : WorkerConfig N} (h : WorkerStep c (.call d k r) c') :
    c.current = some d ∧ r = (k.perform c.worker d).1 ∧
      c' = ⟨(k.perform c.worker d).2, some d⟩ := by
  generalize he : WorkerEvent.call d k r = e at h
  cases h with
  | call w d' k' =>
    cases he
    exact ⟨rfl, rfl, rfl⟩
  | add => cases he
  | skip => cases he
  | pop => cases he
  | wait => cases he
  | done => cases he

/-- The counter of a blocked node is below the number of signals still to come. -/
def Counted (d : N) (origins : List N) (w : NodeWorker N) : Prop :=
  (w.state d).kind = .blocked → (w.state d).blockedOnCount < (awaited w d origins).card

theorem Counted.step {c c' : WorkerConfig N} (hok : WorkerOk c)
    (hs : (c.worker.state d).kind ≠ .uninitialized) (hc : Counted d origins c.worker)
    (h : WorkerStep c e c') (hb : ¬ e.Blocks d) : Counted d origins c'.worker := by
  rcases h.same_or_resolved hok hb hs with hsame | ⟨n, rfl, hr⟩
  · intro hk
    rw [hsame.blockedOnCount, hsame.awaited]
    exact hc (hsame.kind ▸ hk)
  · intro hk
    by_cases hdn : d = n
    · subst d
      rw [hr.kind_self] at hk
      cases hk
    · rw [awaited_resolvedBy hr, hr.blockedOnCount_ne d hdn]
      rw [hr.kind_ne d hdn] at hk
      have hkd : (c.worker.state d).kind = .blocked := by
        split at hk
        · cases hk
        · exact hk
      have hlt := hc hkd
      by_cases hn : n ∈ awaited c.worker d origins
      · -- The signal of `n` uses up one of the signals that were to come.
        have hdep := ((mem_awaited _ _ _).1 hn).2
        rw [Finset.card_erase_of_mem hn]
        unfold Ready at hk
        grind
      · rw [Finset.erase_eq_of_notMem hn]
        grind

theorem WorkerStep.seen {c c' : WorkerConfig N} (hok : WorkerOk c) (h : WorkerStep c e c')
    (hs : (c.worker.state d).kind ≠ .uninitialized) (hb : ¬ e.Blocks d) :
    (c'.worker.state d).kind ≠ .uninitialized := by
  rcases h.same_or_resolved hok hb hs with hsame | ⟨n, _, hr⟩
  · rw [hsame.kind]
    exact hs
  · by_cases hdn : d = n
    · subst d
      rw [hr.kind_self]
      exact WorkerStatus.noConfusion
    · rw [hr.kind_ne d hdn]
      grind

/-- A blocked node leaves that state only by a wakeup that puts it on the worklist. -/
theorem WorkerStep.woken {c c' : WorkerConfig N} (hok : WorkerOk c) (h : WorkerStep c e c')
    (hs : (c.worker.state d).kind ≠ .uninitialized) (hb : ¬ e.Blocks d)
    (hp : e ≠ .pop d) (hf : e ≠ .finish d true)
    (hd : (c.worker.state d).kind = .blocked ∨
      (c.worker.state d).kind = .active ∧ d ∈ c.worker.worklist) :
    (c'.worker.state d).kind = .blocked ∨
      (c'.worker.state d).kind = .active ∧ d ∈ c'.worker.worklist := by
  cases h with
  | add w n =>
    simp only [add_kind_of_seen w n hs]
    exact hd.imp_right fun h => ⟨h.1, mem_add_worklist w n h.2⟩
  | skip w hl hn =>
    refine hd.imp_right fun h => ⟨h.1, ?_⟩
    have hm := h.2
    simp only [hl, List.mem_cons] at hm
    refine hm.resolve_left ?_
    rintro rfl
    rw [h.1] at hn
    cases hn
  | pop w hl hn =>
    refine hd.imp_right fun h => ⟨h.1, ?_⟩
    have hm := h.2
    simp only [hl, List.mem_cons] at hm
    exact hm.resolve_left fun he => hp (he ▸ rfl)
  | call w d' c =>
    obtain ⟨hd', hs'⟩ := hok.current d' rfl
    by_cases hdd : d = d'
    · subst d'
      cases c with
      | add n =>
        simp only [Call.perform, add_kind_of_seen w n hs]
        exact hd.imp_right fun h => ⟨h.1, mem_add_worklist w n h.2⟩
      | blockOn => exact (hb ⟨rfl, rfl⟩).elim
      | blockOnAll => exact (hb ⟨rfl, rfl⟩).elim
      | blockOnAny => exact (hb ⟨rfl, rfl⟩).elim
    · have hfr := call_frame w c hd' hs'
      simp only [hfr.kind_ne d hdd hs]
      exact hd.imp_right fun h => ⟨h.1, hfr.worklist d h.2⟩
  | wait w d' => exact hd
  | done w n waiting hnd hw =>
    have hr := resolve_spec w n hnd hw
    have hdn : d ≠ n := by
      rintro rfl
      exact hf rfl
    simp only [hr.kind_ne d hdn, hr.mem_worklist, Ready]
    grind

/-- `d` was put back on the worklist, and has been popped unless it is still there. -/
def PutBack (d : N) (es : List (WorkerEvent N)) (c : WorkerConfig N) : Prop :=
  (c.worker.state d).kind ≠ .blocked ∧
    (d ∈ c.worker.worklist ∨ .pop d ∈ es ∨ .finish d true ∈ es)

/-- A node whose `block_on_all` call blocked is put back once all the origins are resolved. -/
def NoLostWakeup (N : Type) [DecidableEq N] (permitted : NodeWorker N → List N → Prop) : Prop :=
  ∀ (c c₀ c₁ : WorkerConfig N) (d : N) (origins : List N) (es : List (WorkerEvent N)),
    WorkerReachable c → WorkerStep c (.call d (.blockOnAll origins) true) c₀ →
    permitted c.worker origins → Run WorkerStep c₀ es c₁ → (∀ e ∈ es, ¬ e.Blocks d) →
    (∀ o ∈ origins, (c₁.worker.state o).kind = .resolved) → PutBack d es c₁

theorem no_lost_wakeup :
    NoLostWakeup N fun w origins => (w.unresolved origins).Nodup := by
  intro c c₀ c₁ d origins es hreach hcall hnodup hrun hes hall
  have hok := hreach.ok
  have hok₀ := hok.step hcall
  obtain ⟨hcur, hres, rfl⟩ := hcall.call_inv
  obtain ⟨hd, hs⟩ := hok.current d hcur
  have hspec := blockOnAll_spec c.worker d origins hd hs
  have hu := hspec.result.1 hres.symm
  have hk := hspec.kind_self
  have hs₀ := (hok₀.current d rfl).2
  rw [if_neg hu] at hk
  have hcount : Counted d origins (c.worker.blockOnAll d origins).2 := by
    intro _
    have hsub : (c.worker.unresolved origins).toFinset ⊆
        awaited (c.worker.blockOnAll d origins).2 d origins := by
      intro o ho
      rw [List.mem_toFinset] at ho
      rw [mem_awaited, hspec.dependents_eq, if_pos ho]
      exact ⟨((mem_unresolved _).1 ho).1, Finset.mem_insert_self _ _⟩
    have hle := Finset.card_le_card hsub
    have hpos := List.length_pos_iff.2 hu
    rw [List.toFinset_card_of_nodup hnodup] at hle
    rw [hspec.blockedOnCount_self, if_neg hu]
    grind
  -- Along the run the counter stays below the signals still to come.
  have hrun' := hrun.preserves (P := fun e => ¬ e.Blocks d)
    (I := fun c => WorkerOk c ∧ (c.worker.state d).kind ≠ .uninitialized ∧
      Counted d origins c.worker)
    (fun _ _ _ hb hI hstep => ⟨hI.1.step hstep, hstep.seen hI.1 hI.2.1 hb,
      hI.2.2.step hI.1 hI.2.1 hstep hb⟩) hes ⟨hok₀, hs₀, hcount⟩
  have hne : (c₁.worker.state d).kind ≠ .blocked := by
    intro hb
    have hlt := hrun'.2.2 hb
    have hempty : awaited c₁.worker d origins = ∅ := by
      rw [Finset.eq_empty_iff_forall_notMem]
      intro o ho
      rw [mem_awaited] at ho
      rw [hrun'.1.resolved o (hall o ho.1)] at ho
      exact Finset.notMem_empty _ ho.2
    rw [hempty, Finset.card_empty] at hlt
    exact Nat.not_lt_zero _ hlt
  refine ⟨hne, ?_⟩
  by_contra hnot
  simp only [not_or] at hnot
  have hput := hrun.preserves (P := fun e => ¬ e.Blocks d ∧ e ≠ .pop d ∧ e ≠ .finish d true)
    (I := fun c => (WorkerOk c ∧ (c.worker.state d).kind ≠ .uninitialized) ∧
      ((c.worker.state d).kind = .blocked ∨
        (c.worker.state d).kind = .active ∧ d ∈ c.worker.worklist))
    (fun _ _ _ hb hI hstep => ⟨⟨hI.1.1.step hstep, hstep.seen hI.1.1 hI.1.2 hb.1⟩,
      hstep.woken hI.1.1 hI.1.2 hb.1 hb.2.1 hb.2.2 hI.2⟩)
    (fun e he => ⟨hes e he, fun h => hnot.2.1 (h ▸ he), fun h => hnot.2.2 (h ▸ he)⟩)
    ⟨⟨hok₀, hs₀⟩, .inl hk⟩
  exact hput.2.elim hne fun h => hnot.1 h.2

def processing : WorkerConfig Nat :=
  ⟨{ (NodeWorker.add {} 0) with worklist := [] }, some 0⟩

theorem processing_reachable : WorkerReachable processing :=
  ⟨_, .cons (.add {} 0) (.single (.pop _ rfl (by decide)))⟩

/-- Waiting for the same node twice leaves a counter that its one signal does not use up. -/
theorem lost_wakeup : ¬ NoLostWakeup Nat fun _ _ => True := by
  intro h
  have hput := h processing _ _ 0 [1, 1] _ processing_reachable
    (.call _ 0 (.blockOnAll [1, 1])) trivial
    (.cons (.wait _ 0) (.cons (.pop _ rfl (by decide))
      (.single (.done _ 1 [0] (by decide) (by decide)))))
    (by simp [WorkerEvent.Blocks]) (by decide)
  exact hput.1 (by decide)

theorem no_lost_wakeup_two : ∃ c, PutBack 0
    [.finish 0 false, .pop 1, .finish 1 true, .pop 2, .finish 2 true] c ∧
      c.worker.worklist = [0] :=
  ⟨_, no_lost_wakeup processing _ _ 0 [1, 2] _ processing_reachable
    (.call _ 0 (.blockOnAll [1, 2])) (by decide)
    (.cons (.wait _ 0) (.cons (.pop _ rfl (by decide)) (.cons (.done _ 1 [0] (by decide) (by decide))
      (.cons (.pop _ rfl (by decide)) (.single (.done _ 2 [0] (by decide) (by decide)))))))
    (by simp [WorkerEvent.Blocks]) (by decide), by decide⟩

/-- The calling node is registered with no node outside the list, and its counter does not
cut the wait short. -/
structure FreshWait (w : NodeWorker N) (d : N) (origins : List N) : Prop where
  registered : ∀ o, d ∈ (w.state o).dependents → o ∈ origins
  count : (w.state d).blockedOnCount = 0 ∨
    (w.unresolved origins).toFinset.card ≤ (w.state d).blockedOnCount + 1

/-- The state of a node since its last `block_on_all` call. -/
structure WaitingFor (d : N) (origins : List N) (w : NodeWorker N) : Prop where
  registered : ∀ o, d ∈ (w.state o).dependents → o ∈ origins
  unresolved : ∀ o ∈ origins, (w.state o).kind ≠ .resolved → d ∈ (w.state o).dependents
  count : (w.state d).kind = .blocked → (awaited w d origins).card ≤ (w.state d).blockedOnCount + 1
  active : (w.state d).kind = .active → ∀ o ∈ origins, (w.state o).kind = .resolved

theorem WaitingFor.step {c c' : WorkerConfig N} (hok : WorkerOk c)
    (hs : (c.worker.state d).kind ≠ .uninitialized) (hc : WaitingFor d origins c.worker)
    (h : WorkerStep c e c') (hb : ¬ e.Blocks d) : WaitingFor d origins c'.worker := by
  rcases h.same_or_resolved hok hb hs with hsame | ⟨n, rfl, hr⟩
  · refine ⟨fun o ho => hc.registered o ((hsame.dependents o).1 ho), fun o ho hu => ?_, ?_, ?_⟩
    · rw [hsame.dependents]
      exact hc.unresolved o ho fun h => hu (hsame.resolved o h)
    · rw [hsame.kind, hsame.blockedOnCount, hsame.awaited]
      exact hc.count
    · intro hk o ho
      exact hsame.resolved o (hc.active (hsame.kind ▸ hk) o ho)
  · have hres (o : N) (ho : o ∈ origins) (hu : (c'.worker.state o).kind ≠ .resolved) :
        o ≠ n ∧ o ∈ awaited c.worker d origins := by
      have hon : o ≠ n := fun h => hu (h ▸ hr.kind_self)
      refine ⟨hon, (mem_awaited _ _ _).2 ⟨ho, hc.unresolved o ho fun h => hu ?_⟩⟩
      rw [hr.kind_ne o hon]
      grind [Ready]
    refine ⟨fun o ho => ?_, fun o ho hu => ?_, fun hk => ?_, fun hk => ?_⟩
    · rw [hr.dependents_eq] at ho
      split at ho
      · exact (Finset.notMem_empty _ ho).elim
      · exact hc.registered o ho
    · obtain ⟨hon, ha⟩ := hres o ho hu
      rw [hr.dependents_eq, if_neg hon]
      exact ((mem_awaited _ _ _).1 ha).2
    · have hdn : d ≠ n := by
        rintro rfl
        rw [hr.kind_self] at hk
        cases hk
      rw [awaited_resolvedBy hr, hr.blockedOnCount_ne d hdn]
      rw [hr.kind_ne d hdn] at hk
      have hkd : (c.worker.state d).kind = .blocked := by
        split at hk
        · cases hk
        · exact hk
      have hle := hc.count hkd
      by_cases hn : d ∈ (c.worker.state n).dependents
      · have hna : n ∈ awaited c.worker d origins := (mem_awaited _ _ _).2 ⟨hc.registered n hn, hn⟩
        rw [Finset.card_erase_of_mem hna]
        unfold Ready at hk
        grind
      · rw [if_neg fun h => hn h.1]
        exact (Finset.card_le_card (Finset.erase_subset _ _)).trans hle
    · intro o ho
      by_contra hu
      obtain ⟨hon, ha⟩ := hres o ho hu
      have hdn : d ≠ n := by
        rintro rfl
        rw [hr.kind_self] at hk
        cases hk
      rw [hr.kind_ne d hdn] at hk
      split at hk
      · next hready =>
        -- The waking signal is the last one that was to come, so no origin is left.
        have hle := hc.count hready.2.1
        rw [hready.2.2] at hle
        have hna : n ∈ awaited c.worker d origins :=
          (mem_awaited _ _ _).2 ⟨hc.registered n hready.1, hready.1⟩
        exact hon (Finset.card_le_one.1 hle _ ha _ hna)
      · have hro := hc.active hk o ho
        rw [hr.kind_ne o hon] at hu
        grind [Ready]

/-- A node whose last blocking call was `block_on_all` is Active only when the origins are
resolved. -/
def NoPrematureWakeup (N : Type) [DecidableEq N]
    (permitted : NodeWorker N → N → List N → Prop) : Prop :=
  ∀ (c c₀ c₁ : WorkerConfig N) (d : N) (origins : List N) (result : Bool)
    (es : List (WorkerEvent N)),
    WorkerReachable c → WorkerStep c (.call d (.blockOnAll origins) result) c₀ →
    permitted c.worker d origins → Run WorkerStep c₀ es c₁ → (∀ e ∈ es, ¬ e.Blocks d) →
    (c₁.worker.state d).kind = .active → ∀ o ∈ origins, (c₁.worker.state o).kind = .resolved

theorem no_premature_wakeup : NoPrematureWakeup N FreshWait := by
  intro c c₀ c₁ d origins result es hreach hcall hfresh hrun hes
  have hok := hreach.ok
  have hok₀ := hok.step hcall
  obtain ⟨hcur, hres, rfl⟩ := hcall.call_inv
  obtain ⟨hd, hs⟩ := hok.current d hcur
  have hspec := blockOnAll_spec c.worker d origins hd hs
  have hframe := call_frame c.worker (.blockOnAll origins) hd hs
  have hwait : WaitingFor d origins (c.worker.blockOnAll d origins).2 := by
    refine ⟨fun o ho => ?_, fun o ho hu => ?_, fun hk => ?_, fun hk o ho => ?_⟩
    · rw [hspec.dependents_eq] at ho
      split at ho
      · next h => exact ((mem_unresolved _).1 h).1
      · exact hfresh.registered o ho
    · have hu' : (c.worker.state o).kind ≠ .resolved := fun h => hu ((hframe.resolved o).2 h)
      rw [hspec.dependents_eq, if_pos ((mem_unresolved _).2 ⟨ho, hu'⟩)]
      exact Finset.mem_insert_self _ _
    · have hsub : awaited (c.worker.blockOnAll d origins).2 d origins ⊆
          (c.worker.unresolved origins).toFinset := by
        intro o ho
        rw [mem_awaited, hspec.dependents_eq] at ho
        rw [List.mem_toFinset, mem_unresolved]
        refine ⟨ho.1, fun hr => ?_⟩
        have hnot : o ∉ c.worker.unresolved origins := fun h => ((mem_unresolved _).1 h).2 hr
        rw [if_neg hnot, hok.resolved o hr] at ho
        exact Finset.notMem_empty _ ho.2
      have hle := Finset.card_le_card hsub
      have hlen := List.toFinset_card_le (c.worker.unresolved origins)
      have hcount := hfresh.count
      rw [hspec.blockedOnCount_self]
      have hnil : c.worker.unresolved origins = [] ↔ (c.worker.unresolved origins).length = 0 :=
        List.length_eq_zero_iff.symm
      split <;> grind
    · have hnil : c.worker.unresolved origins = [] := by
        by_contra hne
        rw [hspec.kind_self, if_neg hne] at hk
        cases hk
      by_contra hr
      have hmem := (mem_unresolved c.worker).2 ⟨ho, fun h => hr ((hframe.resolved o).2 h)⟩
      rw [hnil] at hmem
      exact List.not_mem_nil hmem
  have hrun' := hrun.preserves (P := fun e => ¬ e.Blocks d)
    (I := fun c => WorkerOk c ∧ (c.worker.state d).kind ≠ .uninitialized ∧
      WaitingFor d origins c.worker)
    (fun _ _ _ hb hI hstep => ⟨hI.1.step hstep, hstep.seen hI.1 hI.2.1 hb,
      hI.2.2.step hI.1 hI.2.1 hstep hb⟩) hes ⟨hok₀, (hok₀.current d rfl).2, hwait⟩
  exact hrun'.2.2.active

/-- Node 0 waited for either of 1 and 2, was woken by 1, and is processed again while 2 still
lists it as a dependent. -/
def stale : WorkerConfig Nat :=
  let w := (({ NodeWorker.add {} 0 with worklist := [] } : NodeWorker Nat).blockOnAny 0 [1, 2]).2
  let w := ({ w with worklist := [2] } : NodeWorker Nat).resolve 1 [0]
  let w := (({ w with worklist := [0] } : NodeWorker Nat).blockOn 2 3).2
  ⟨{ w with worklist := [3] }, some 0⟩

theorem stale_reachable : WorkerReachable stale :=
  ⟨_, .cons (.add {} 0) (.cons (.pop _ rfl (by decide)) (.cons (.call _ 0 (.blockOnAny [1, 2]))
    (.cons (.wait _ 0) (.cons (.pop _ rfl (by decide)) (.cons (.done _ 1 [0] (by decide) (by decide))
    (.cons (.pop _ rfl (by decide)) (.cons (.call _ 2 (.blockOn 3)) (.cons (.wait _ 2)
    (.single (.pop _ rfl (by decide)))))))))))⟩

/-- The signal of node 2, left over from the first wait, ends the wait for node 4. -/
theorem premature_wakeup : ¬ NoPrematureWakeup Nat fun _ _ _ => True := by
  intro h
  have hres := h stale _ _ 0 [4] _ _ stale_reachable (.call _ 0 (.blockOnAll [4])) trivial
    (.cons (.wait _ 0) (.cons (.pop _ rfl (by decide)) (.cons (.done _ 3 [2] (by decide) (by decide))
    (.cons (.pop _ rfl (by decide)) (.cons (.call _ 4 (.blockOn 5)) (.cons (.wait _ 4)
    (.cons (.pop _ rfl (by decide)) (.single (.done _ 2 [0] (by decide) (by decide))))))))))
    (by simp [WorkerEvent.Blocks]) (by decide) 4 (by decide)
  exact absurd hres (by decide)

theorem no_premature_wakeup_two : ∃ c : WorkerConfig Nat,
    (c.worker.state 0).kind = .active ∧ ∀ o ∈ [1, 2], (c.worker.state o).kind = .resolved :=
  ⟨_, by decide, no_premature_wakeup processing _ _ 0 [1, 2] _ _ processing_reachable
    (.call _ 0 (.blockOnAll [1, 2])) ⟨fun o ho => by simp [processing] at ho, .inl (by decide)⟩
    (.cons (.wait _ 0) (.cons (.pop _ rfl (by decide)) (.cons (.done _ 1 [0] (by decide) (by decide))
      (.cons (.pop _ rfl (by decide)) (.single (.done _ 2 [0] (by decide) (by decide)))))))
    (by simp [WorkerEvent.Blocks]) (by decide)⟩

end Trieste
