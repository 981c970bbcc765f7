import Mathlib.Data.List.Infix
import Mathlib.Data.List.Nodup
import Mathlib.Data.Set.Basic

namespace Trieste.Library
set_option autoImplicit true

theorem eq_of_head_suffix (hn : (c :: π).Nodup) (h : c :: κ <:+ c :: π) : c :: κ = c :: π := by
  rcases List.suffix_cons_iff.1 h with heq | hsuffix
  · exact heq
  · exact absurd (hsuffix.subset (.head _)) (List.nodup_cons.1 hn).1

/-- A run from the start that comes to no node twice, with its last node first. -/
inductive SimpleRun (step : α → α → Prop) (start : α) : List α → Prop
  | start : SimpleRun step start [start]
  | step {c c' : α} {π : List α} (h : SimpleRun step start (c :: π)) (hs : step c c')
      (hnew : c' ∉ c :: π) : SimpleRun step start (c' :: c :: π)

namespace SimpleRun
variable {step step' : α → α → Prop} {start : α}

theorem nodup (h : SimpleRun step start ρ) : ρ.Nodup := by
  induction h with
  | start => exact List.nodup_singleton start
  | step _ _ hnew ih => exact List.nodup_cons.2 ⟨hnew, ih⟩

theorem mono (h : SimpleRun step start ρ) (hsub : ∀ c c', step c c' → step' c c') :
    SimpleRun step' start ρ := by
  induction h with
  | start => exact .start
  | step _ hs hnew ih => exact ih.step (hsub _ _ hs) hnew

theorem start_suffix (h : SimpleRun step start ρ) : [start] <:+ ρ := by
  induction h with
  | start => exact List.suffix_refl _
  | step _ _ _ ih => exact ih.trans (List.suffix_cons _ _)

theorem eq_start (h : SimpleRun step start (start :: π)) : π = [] :=
  (List.cons.inj (eq_of_head_suffix h.nodup h.start_suffix)).2.symm

theorem next_of_suffix (h : SimpleRun step start ρ) (hsuffix : c :: π <:+ ρ) :
    c :: π = ρ ∨ ∃ c', step c c' ∧ c' :: c :: π <:+ ρ := by
  induction h with
  | start =>
    rcases List.suffix_cons_iff.1 hsuffix with heq | hnil
    · exact .inl heq
    · cases List.suffix_nil.1 hnil
  | @step a a' κ _ hs _ ih =>
    rcases List.suffix_cons_iff.1 hsuffix with heq | hsuffix
    · exact .inl heq
    · right
      rcases ih hsuffix with heq | ⟨c', hs', hsuffix'⟩
      · obtain ⟨rfl, rfl⟩ := List.cons.inj heq
        exact ⟨a', hs, List.suffix_refl _⟩
      · exact ⟨c', hs', hsuffix'.trans (List.suffix_cons _ _)⟩

end SimpleRun

/-- Which of two ways on from a node comes first. -/
structure Priority (α : Type u) where
  prefers : α → α → α → Prop
  irrefl : ∀ c t, ¬ prefers c t t
  trans : ∀ c t t' t'', prefers c t t' → prefers c t' t'' → prefers c t t''

namespace Priority
variable (P : Priority α) {ρ ρ' σ τ : List α}

/-- Where the two runs part, the first one goes on to what comes first. -/
def Preferred (ρ ρ' : List α) : Prop :=
  ∃ c t t' π, P.prefers c t t' ∧ t :: c :: π <:+ ρ ∧ t' :: c :: π <:+ ρ'

variable {P}

theorem Preferred.mono (h : P.Preferred ρ ρ') (hρ : ρ <:+ σ) (hρ' : ρ' <:+ τ) :
    P.Preferred σ τ := by
  obtain ⟨c, t, t', π, hprefers, ht, ht'⟩ := h
  exact ⟨c, t, t', π, hprefers, ht.trans hρ, ht'.trans hρ'⟩

theorem Preferred.trans (h : P.Preferred ρ σ) (h' : P.Preferred σ τ) : P.Preferred ρ τ := by
  obtain ⟨c, t, t', π, hprefers, hρ, hσ⟩ := h
  obtain ⟨d, u, u', κ, hprefers', hσ', hτ⟩ := h'
  -- the run that parts from the middle one first decides
  rcases List.suffix_or_suffix_of_suffix hσ hσ' with hle | hle
  · rcases List.suffix_cons_iff.1 hle with heq | hle
    · obtain ⟨rfl, rfl, rfl⟩ : t' = u ∧ c = d ∧ π = κ := by simpa using heq
      exact ⟨c, t, u', π, P.trans _ _ _ _ hprefers hprefers', hρ, hτ⟩
    · exact ⟨c, t, t', π, hprefers, hρ, (hle.trans (List.suffix_cons u' _)).trans hτ⟩
  · rcases List.suffix_cons_iff.1 hle with heq | hle
    · obtain ⟨rfl, rfl, rfl⟩ : u = t' ∧ d = c ∧ κ = π := by simpa using heq
      exact ⟨d, t, u', κ, P.trans _ _ _ _ hprefers hprefers', hρ, hτ⟩
    · exact ⟨d, u, u', κ, hprefers', (hle.trans (List.suffix_cons t _)).trans hρ, hτ⟩

variable (P)

/-- The run is a simple one to the node, and every other one comes after it. -/
structure First (step : α → α → Prop) (start node : α) (ρ : List α) : Prop where
  run : SimpleRun step start ρ
  head : ρ.head? = some node
  first : ∀ σ, SimpleRun step start σ → σ.head? = some node → σ = ρ ∨ P.Preferred ρ σ

variable {P}

end Priority

/-- The runs that a search has kept: those of earlier levels and those of this one. -/
def keptRuns (done : Set (List α)) (found : List (List α)) : Set (List α) :=
  { ρ | ρ ∈ done ∨ ρ ∈ found }

theorem keptRuns_append (done : Set (List α)) (found : List (List α)) (τ ρ : List α) :
    ρ ∈ keptRuns done (found ++ [τ]) ↔ ρ ∈ keptRuns done found ∨ ρ = τ := by
  have hmem : ρ ∈ found ++ [τ] ↔ ρ ∈ found ∨ ρ = τ := by rw [List.mem_append, List.mem_singleton]
  exact (or_congr_right hmem).trans or_assoc.symm

/-- One of the runs leads to the same node, and either comes first or is a part of this one. -/
def Overtaken (P : Priority α) (kept : Set (List α)) (τ : List α) : Prop :=
  ∃ ρ ∈ kept, ρ.head? = τ.head? ∧ (P.Preferred ρ τ ∨ ρ <:+ τ)

theorem Overtaken.mono (h : Overtaken P kept τ) (hsub : kept ⊆ kept') : Overtaken P kept' τ := by
  obtain ⟨ρ, hρ, hhead, horder⟩ := h
  exact ⟨ρ, hsub hρ, hhead, horder⟩

/-- A search of the nodes of a level, with the runs that it found to them in this order, and the
runs that are pending, the next one first. -/
structure Search (P : Priority α) (step : α → α → Prop) (start : α) (level : α → Prop)
    (done : Set (List α)) (found pending : List (List α)) : Prop where
  runs : ∀ ρ ∈ keptRuns done found, SimpleRun step start ρ
  parts : ∀ ρ ∈ keptRuns done found, ∀ c π, c :: π <:+ ρ → c :: π ∈ keptRuns done found
  origin : ∀ τ ∈ pending, τ = [start] ∨
    ∃ c c' π, τ = c' :: c :: π ∧ c :: π ∈ keptRuns done found ∧ step c c'
  first : [start] ∈ pending ∨ [start] ∈ keptRuns done found
  closed : ∀ c c' π, c :: π ∈ keptRuns done found → step c c' →
    c' :: c :: π ∈ pending ∨ Overtaken P (keptRuns done found) (c' :: c :: π)
  past : ∀ c π, c :: π ∈ done → ¬ level c
  present : ∀ c π, c :: π ∈ found ∨ c :: π ∈ pending → level c
  ahead : ∀ ρ ∈ found, ∀ τ ∈ pending, P.Preferred ρ τ ∨ ρ <:+ τ ∨ τ <:+ ρ
  order : pending.Pairwise fun σ τ => P.Preferred σ τ ∨ τ <:+ σ
  visits : found.Pairwise fun ρ σ => P.Preferred ρ σ ∨ ρ <:+ σ
  heads : (found.map List.head?).Nodup

namespace Search
variable {P : Priority α} {step step' : α → α → Prop} {start : α} {level level' : α → Prop}
  {done : Set (List α)} {found pending : List (List α)}

theorem unique (h : Search P step start level done found pending) (hπ : c :: π ∈ found)
    (hκ : c :: κ ∈ found) : π = κ := by
  have heq := List.inj_on_of_nodup_map h.heads hπ hκ rfl
  exact (List.cons.inj heq).2

/-- What was found is a run within the level or goes on from an earlier one. -/
theorem found_of_level (h : Search P step start level done found pending)
    (hπ : c :: π ∈ keptRuns done found) (hc : level c) : c :: π ∈ found :=
  hπ.resolve_left fun hdone => h.past c π hdone hc

/-- Before anything is found. -/
theorem initial (hlevel : level start) : Search P step start level ∅ [] [[start]] := by
  have hnone : ∀ {ρ : List α}, ρ ∉ keptRuns ∅ [] := fun hρ => hρ.elim id List.not_mem_nil
  constructor
  case runs => exact fun ρ hρ => absurd hρ hnone
  case parts => exact fun ρ hρ => absurd hρ hnone
  case origin => exact fun τ hτ => .inl (List.mem_singleton.1 hτ)
  case first => exact .inl (.head _)
  case closed => exact fun c c' π hπ => absurd hπ hnone
  case past => exact fun c π hπ => hπ.elim
  case present =>
    intro c π hπ
    obtain ⟨rfl, -⟩ := List.cons.inj (List.mem_singleton.1 (hπ.resolve_left List.not_mem_nil))
    exact hlevel
  case ahead => exact fun ρ hρ => absurd hρ List.not_mem_nil
  case order => exact List.pairwise_singleton _ _
  case visits => exact List.Pairwise.nil
  case heads => exact List.nodup_nil

/-- A pending run to a node that was visited is dropped. -/
theorem drop (h : Search P step start level done found ((c :: κ) :: pending))
    (hπ : c :: π ∈ found) : Search P step start level done found pending := by
  have hkept : c :: π ∈ keptRuns done found := .inr hπ
  have hrun := h.runs _ hkept
  have hovertaken : Overtaken P (keptRuns done found) (c :: κ) := by
    refine ⟨c :: π, hkept, rfl, ?_⟩
    rcases h.ahead _ hπ _ (.head _) with hpref | hsuffix | hsuffix
    · exact .inl hpref
    · exact .inr hsuffix
    · exact .inr (eq_of_head_suffix hrun.nodup hsuffix ▸ List.suffix_refl _)
  constructor
  case runs => exact h.runs
  case parts => exact h.parts
  case origin => exact fun τ hτ => h.origin τ (.tail _ hτ)
  case first =>
    rcases h.first with hmem | hmem
    · rcases List.mem_cons.1 hmem with heq | hmem
      · obtain ⟨rfl, rfl⟩ := List.cons.inj heq
        exact .inr (hrun.eq_start ▸ hkept)
      · exact .inl hmem
    · exact .inr hmem
  case closed =>
    intro d d' σ hσ hs
    rcases h.closed d d' σ hσ hs with hmem | hset
    · rcases List.mem_cons.1 hmem with heq | hmem
      · exact .inr (heq ▸ hovertaken)
      · exact .inl hmem
    · exact .inr hset
  case past => exact h.past
  case present => exact fun d σ hσ => h.present d σ (hσ.imp_right (.tail _))
  case ahead => exact fun ρ hρ τ hτ => h.ahead ρ hρ τ (.tail _ hτ)
  case order => exact (List.pairwise_cons.1 h.order).2
  case visits => exact h.visits
  case heads => exact h.heads

theorem not_mem_of_new (h : Search P step start level done found pending) (hc : level c)
    (hnew : ∀ π, c :: π ∉ found) : ∀ ρ ∈ keptRuns done found, c ∉ ρ := by
  intro ρ hρ hmem
  obtain ⟨front, π, rfl⟩ := List.append_of_mem hmem
  have hkept := h.parts _ hρ c π (List.suffix_append front _)
  exact hnew π (h.found_of_level hkept hc)

theorem run_of_new (h : Search P step start level done found pending) (hτ : c :: κ ∈ pending)
    (hnew : ∀ π, c :: π ∉ found) : SimpleRun step start (c :: κ) := by
  have hunseen := h.not_mem_of_new (h.present c κ (.inr hτ)) hnew
  rcases h.origin _ hτ with heq | ⟨d, d', σ, heq, hσ, hs⟩
  · exact heq ▸ .start
  · obtain ⟨rfl, rfl⟩ := List.cons.inj heq
    exact (h.runs _ hσ).step hs (hunseen _ hσ)

theorem parts_of_pending (h : Search P step start level done found pending)
    (hτ : c :: κ ∈ pending) (hsuffix : d :: π <:+ c :: κ) :
    d :: π = c :: κ ∨ d :: π ∈ keptRuns done found := by
  rcases List.suffix_cons_iff.1 hsuffix with heq | hsuffix
  · exact .inl heq
  · right
    rcases h.origin _ hτ with heq | ⟨_, _, σ, heq, hσ, -⟩
    · rw [(List.cons.inj heq).2] at hsuffix
      cases List.suffix_nil.1 hsuffix
    · obtain ⟨rfl, rfl⟩ := List.cons.inj heq
      exact h.parts _ hσ d π hsuffix

/-- A node is visited, and the ways on from it are pending. -/
theorem visit (h : Search P step start level done found ((c :: κ) :: pending))
    (hnew : ∀ π, c :: π ∉ found) {succs : List α} (hsuccs : ∀ c', step c c' ↔ c' ∈ succs)
    (hlevel : ∀ c' ∈ succs, level c')
    (hsorted : succs.Pairwise fun t t' => P.prefers c t t' ∨ t = t') :
    Search P step start level done (found ++ [c :: κ])
      (succs.map (· :: c :: κ) ++ pending) := by
  have hc : level c := h.present c κ (.inr (.head _))
  have hunseen := h.not_mem_of_new hc hnew
  have hsub : keptRuns done found ⊆ keptRuns done (found ++ [c :: κ]) :=
    fun ρ hρ => (keptRuns_append ..).2 (.inl hρ)
  have hself : c :: κ ∈ keptRuns done (found ++ [c :: κ]) := (keptRuns_append ..).2 (.inr rfl)
  obtain ⟨hfirst, hrest⟩ := List.pairwise_cons.1 h.order
  have hnosuffix : ∀ ρ ∈ found, ¬ c :: κ <:+ ρ := fun ρ hρ hsuffix =>
    hunseen ρ (.inr hρ) (hsuffix.subset (.head _))
  constructor
  case runs =>
    intro ρ hρ
    rcases (keptRuns_append ..).1 hρ with hρ | rfl
    · exact h.runs ρ hρ
    · exact h.run_of_new (.head _) hnew
  case parts =>
    intro ρ hρ d π hsuffix
    rcases (keptRuns_append ..).1 hρ with hρ | rfl
    · exact hsub (h.parts ρ hρ d π hsuffix)
    · rcases h.parts_of_pending (.head _) hsuffix with heq | hmem
      · exact heq ▸ hself
      · exact hsub hmem
  case origin =>
    intro τ hτ
    rcases List.mem_append.1 hτ with hτ | hτ
    · obtain ⟨c', hc', rfl⟩ := List.mem_map.1 hτ
      exact .inr ⟨c, c', κ, rfl, hself, (hsuccs c').2 hc'⟩
    · rcases h.origin τ (.tail _ hτ) with heq | ⟨d, d', σ, heq, hσ, hs⟩
      · exact .inl heq
      · exact .inr ⟨d, d', σ, heq, hsub hσ, hs⟩
  case first =>
    rcases h.first with hmem | hmem
    · rcases List.mem_cons.1 hmem with heq | hmem
      · exact .inr (heq ▸ hself)
      · exact .inl (List.mem_append_right _ hmem)
    · exact .inr (hsub hmem)
  case closed =>
    intro d d' σ hσ hs
    rcases (keptRuns_append ..).1 hσ with hσ | heq
    · rcases h.closed d d' σ hσ hs with hmem | hset
      · rcases List.mem_cons.1 hmem with heq | hmem
        · exact .inr ⟨c :: κ, hself, heq ▸ rfl, .inr (heq ▸ List.suffix_refl _)⟩
        · exact .inl (List.mem_append_right _ hmem)
      · exact .inr (hset.mono hsub)
    · obtain ⟨rfl, rfl⟩ := List.cons.inj heq
      exact .inl (List.mem_append_left _ (List.mem_map_of_mem ((hsuccs d').1 hs)))
  case past => exact h.past
  case present =>
    intro d σ hσ
    rcases hσ with hσ | hσ
    · rcases List.mem_append.1 hσ with hσ | hσ
      · exact h.present d σ (.inl hσ)
      · obtain ⟨rfl, -⟩ := List.cons.inj (List.mem_singleton.1 hσ)
        exact hc
    · rcases List.mem_append.1 hσ with hσ | hσ
      · obtain ⟨c', hc', heq⟩ := List.mem_map.1 hσ
        obtain ⟨rfl, -⟩ := List.cons.inj heq
        exact hlevel c' hc'
      · exact h.present d σ (.inr (.tail _ hσ))
  case ahead =>
    intro ρ hρ τ hτ
    rcases List.mem_append.1 hρ with hρ | hρ
    · rcases List.mem_append.1 hτ with hτ | hτ
      · obtain ⟨c', hc', rfl⟩ := List.mem_map.1 hτ
        rcases h.ahead ρ hρ _ (.head _) with hpref | hsuffix | hsuffix
        · exact .inl (hpref.mono (List.suffix_refl _) (List.suffix_cons _ _))
        · exact .inr (.inl (hsuffix.trans (List.suffix_cons _ _)))
        · exact absurd hsuffix (hnosuffix ρ hρ)
      · exact h.ahead ρ hρ τ (.tail _ hτ)
    · obtain rfl := List.mem_singleton.1 hρ
      rcases List.mem_append.1 hτ with hτ | hτ
      · obtain ⟨c', hc', rfl⟩ := List.mem_map.1 hτ
        exact .inr (.inl (List.suffix_cons _ _))
      · exact (hfirst τ hτ).imp_right .inr
  case order =>
    refine List.pairwise_append.2 ⟨?_, hrest, ?_⟩
    · rw [List.pairwise_map]
      refine hsorted.imp fun ht => ?_
      rcases ht with ht | rfl
      · exact .inl ⟨c, _, _, κ, ht, List.suffix_refl _, List.suffix_refl _⟩
      · exact .inr (List.suffix_refl _)
    · intro σ hσ τ hτ
      obtain ⟨c', hc', rfl⟩ := List.mem_map.1 hσ
      rcases hfirst τ hτ with hpref | hsuffix
      · exact .inl (hpref.mono (List.suffix_cons _ _) (List.suffix_refl _))
      · exact .inr (hsuffix.trans (List.suffix_cons _ _))
  case visits =>
    refine List.pairwise_append.2 ⟨h.visits, List.pairwise_singleton _ _, ?_⟩
    intro ρ hρ σ hσ
    obtain rfl := List.mem_singleton.1 hσ
    rcases h.ahead ρ hρ _ (.head _) with hpref | hsuffix | hsuffix
    · exact .inl hpref
    · exact .inr hsuffix
    · exact absurd hsuffix (hnosuffix ρ hρ)
  case heads =>
    rw [List.map_append, List.map_singleton]
    refine h.heads.append (List.nodup_singleton _) ?_
    intro node hnode hself
    obtain ⟨ρ, hρ, hhead⟩ := List.mem_map.1 hnode
    rw [List.mem_singleton.1 hself, List.head?_cons] at hhead
    obtain ⟨π, rfl⟩ := List.head?_eq_some_iff.1 hhead
    exact hnew π hρ

/-- Once nothing is pending, every simple run comes no earlier than one that was found. -/
theorem best (h : Search P step start level done found []) (hρ : SimpleRun step start (v :: π)) :
    ∃ κ, v :: κ ∈ keptRuns done found ∧ (κ = π ∨ P.Preferred (v :: κ) (v :: π)) := by
  generalize hrun : v :: π = ρ at hρ
  induction hρ generalizing v π with
  | start =>
    obtain ⟨rfl, rfl⟩ := List.cons.inj hrun
    exact ⟨[], h.first.resolve_left List.not_mem_nil, .inl rfl⟩
  | @step u w σ hσ hs hnew ih =>
    obtain ⟨rfl, rfl⟩ := List.cons.inj hrun
    obtain ⟨κ, hκ, hbest⟩ := ih rfl
    obtain ⟨ρ, hρ, hhead, horder⟩ := (h.closed u v κ hκ hs).resolve_left List.not_mem_nil
    obtain ⟨κ', rfl⟩ := List.head?_eq_some_iff.1 hhead
    refine ⟨κ', hρ, ?_⟩
    rcases horder with hpref | hsuffix
    · right
      rcases hbest with rfl | hbest
      · exact hpref
      · exact hpref.trans (hbest.mono (List.suffix_cons _ _) (List.suffix_cons _ _))
    · rcases List.suffix_cons_iff.1 hsuffix with heq | hsuffix
      · obtain ⟨-, rfl⟩ := List.cons.inj heq
        rcases hbest with rfl | hbest
        · exact .inl rfl
        · exact .inr (hbest.mono (List.suffix_cons _ _) (List.suffix_cons _ _))
      · -- the node is on the run that was found for the one before it, but not on the given run
        right
        rcases hbest with rfl | hbest
        · exact absurd (hsuffix.subset (.head _)) hnew
        · obtain ⟨c, t, t', τ, hprefers, ht, ht'⟩ := hbest
          have hnot : ¬ v :: κ' <:+ c :: τ := by
            intro hc
            have hmem := ht'.subset (.tail _ (hc.subset (.head _)))
            exact hnew hmem
          have hparts : t :: c :: τ <:+ v :: κ' := by
            rcases List.suffix_or_suffix_of_suffix hsuffix ht with hle | hle
            · rcases List.suffix_cons_iff.1 hle with heq | hle
              · exact heq ▸ List.suffix_refl _
              · exact absurd hle hnot
            · exact hle
          exact ⟨c, t, t', τ, hprefers, hparts, ht'.trans (List.suffix_cons _ _)⟩

/-- Runs that cannot go on within the level are in order. -/
theorem ordered {ends : List (List α)} (h : Search P step start level done found pending)
    (hends : ends.Sublist found)
    (hstuck : ∀ c π, c :: π ∈ ends → ∀ c', ¬ step c c') (hne : [] ∉ ends) :
    ends.Pairwise P.Preferred := by
  have hnodup := (List.Nodup.of_map _ h.heads).sublist hends
  refine ((h.visits.sublist hends).and hnodup).imp_of_mem fun hρ hσ hboth => ?_
  obtain ⟨horder, hdiff⟩ := hboth
  refine horder.resolve_right fun hsuffix => ?_
  rename_i ρ σ
  cases ρ with
  | nil => exact hne hρ
  | cons c π =>
    have hrun := h.runs σ (.inr (hends.subset hσ))
    rcases hrun.next_of_suffix hsuffix with heq | ⟨c', hs, -⟩
    · exact hdiff heq
    · exact hstuck c π hρ c' hs

/-- The search goes on with the next level. -/
theorem next (h : Search P step start level done found [])
    (hstep : ∀ c c', step c c' → step' c c')
    (hlevel : ∀ c π, c :: π ∈ keptRuns done found → ¬ level' c)
    (hclosed : ∀ c c' π, c :: π ∈ keptRuns done found → step' c c' →
      step c c' ∨ c' :: c :: π ∈ pending)
    (horigin : ∀ τ ∈ pending, ∃ c c' π, τ = c' :: c :: π ∧ c :: π ∈ keptRuns done found ∧
      step' c c' ∧ level' c')
    (horder : pending.Pairwise P.Preferred) :
    Search P step' start level' (keptRuns done found) [] pending := by
  have hkept : keptRuns (keptRuns done found) [] = keptRuns done found := by
    ext ρ
    exact or_iff_left List.not_mem_nil
  constructor
  case runs => exact fun ρ hρ => (h.runs ρ (hkept ▸ hρ)).mono hstep
  case parts => exact hkept.symm ▸ h.parts
  case origin =>
    intro τ hτ
    obtain ⟨c, c', π, heq, hπ, hs, -⟩ := horigin τ hτ
    exact .inr ⟨c, c', π, heq, .inl hπ, hs⟩
  case first => exact .inr (.inl (h.first.resolve_left List.not_mem_nil))
  case closed =>
    intro c c' π hπ hs
    rw [hkept] at hπ ⊢
    rcases hclosed c c' π hπ hs with hs | hmem
    · exact .inr ((h.closed c c' π hπ hs).resolve_left List.not_mem_nil)
    · exact .inl hmem
  case past => exact hlevel
  case present =>
    intro c π hπ
    obtain ⟨d, d', σ, heq, -, -, hd⟩ := horigin _ (hπ.resolve_left List.not_mem_nil)
    exact (List.cons.inj heq).1 ▸ hd
  case ahead => exact fun ρ hρ => absurd hρ List.not_mem_nil
  case order => exact horder.imp .inl
  case visits => exact List.Pairwise.nil
  case heads => exact List.nodup_nil

end Search

end Trieste.Library
