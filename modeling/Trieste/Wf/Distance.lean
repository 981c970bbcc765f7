import Trieste.Wf

namespace Trieste
set_option autoImplicit true

namespace Wf

def Known (known : TokenTerminalDistance) (t : Token) : Prop := (known.lookup t).isSome

theorem known_cons : Known ((u, d) :: known) t ↔ t = u ∨ Known known t := by
  rw [Known, Known, List.lookup_cons]
  by_cases h : t = u
  · simp [h]
  · have hne : (t == u) = false := beq_eq_false_iff_ne.2 h
    simp only [hne, h, false_or]

end Wf

namespace Wellformed
open Wf
variable {wf : Wellformed} {known known' : TokenTerminalDistance} {above : List Token}

/-- A type is one of those that a shape can give to a child. -/
def HasType (wf : Wellformed) (t c : Token) : Prop :=
  ∃ shape, wf.find t = some shape ∧ ∃ choice ∈ shape.choices, c ∈ choice.types

/-- The types of a token that is new are known or are being computed. -/
structure Grows (wf : Wellformed) (above : List Token) (known known' : TokenTerminalDistance) :
    Prop where
  keeps : ∀ t, Known known t → Known known' t
  types : ∀ t, Known known' t → ¬ Known known t → ∀ c, wf.HasType t c → Known known' c ∨ c ∈ above

theorem Grows.refl (wf : Wellformed) (above : List Token) (known : TokenTerminalDistance) :
    wf.Grows above known known :=
  ⟨fun _ h => h, fun _ h hn => absurd h hn⟩

theorem Grows.trans (h : wf.Grows above known known₁) (h' : wf.Grows above known₁ known₂) :
    wf.Grows above known known₂ := by
  refine ⟨fun t ht => h'.keeps t (h.keeps t ht), fun t ht hn c hc => ?_⟩
  by_cases hm : Known known₁ t
  · exact (h.types t hm hn c hc).imp_left (h'.keeps c)
  · exact h'.types t ht hm c hc

/-- An entry ends the computing of its token. -/
theorem Grows.enter (h : wf.Grows (token :: above) known known')
    (htypes : ∀ c, wf.HasType token c → Known known' c ∨ c ∈ token :: above) (d : Nat) :
    wf.Grows above known ((token, d) :: known') := by
  have hend (c : Token) (hc : Known known' c ∨ c ∈ token :: above) :
      Known ((token, d) :: known') c ∨ c ∈ above := by
    rcases hc with hc | hc
    · exact .inl (known_cons.2 (.inr hc))
    · rcases List.mem_cons.1 hc with rfl | hc
      · exact .inl (known_cons.2 (.inl rfl))
      · exact .inr hc
  refine ⟨fun t ht => known_cons.2 (.inr (h.keeps t ht)), fun t ht hn c hc => hend c ?_⟩
  rcases known_cons.1 ht with rfl | ht
  · exact htypes c hc
  · exact h.types t ht hn c hc

def Computes (wf : Wellformed) (above : List Token) (new : Token → Prop)
    (known : TokenTerminalDistance) (result : Option (Nat × TokenTerminalDistance)) : Prop :=
  ∃ d known', result = some (d, known') ∧ wf.Grows above known known' ∧
    ∀ t, new t → Known known' t ∨ t ∈ above

theorem sumDistance_computes
    (hf : ∀ t ∉ above, ∀ known, wf.Computes above (· = t) known (f t known)) (types : List Token)
    (acc : Nat) (known : TokenTerminalDistance) :
    wf.Computes above (· ∈ types) known (Choice.sumDistance above m f types acc known) := by
  induction types generalizing acc known with
  | nil => exact ⟨acc, known, rfl, .refl wf above known, fun t ht => absurd ht List.not_mem_nil⟩
  | cons u types ih =>
    rw [Choice.sumDistance]
    by_cases hu : u ∈ above
    · obtain ⟨d, known', hr, hg, hn⟩ := ih ((acc + m) % UInt64.size) known
      refine ⟨d, known', by rw [if_pos (List.contains_iff_mem.2 hu), hr], hg, fun t ht => ?_⟩
      rcases List.mem_cons.1 ht with rfl | ht
      · exact .inr hu
      · exact hn t ht
    · obtain ⟨d, known₁, hr₁, hg₁, hn₁⟩ := hf u hu known
      obtain ⟨s, known₂, hr₂, hg₂, hn₂⟩ := ih ((acc + d) % UInt64.size) known₁
      refine ⟨s, known₂, ?_, hg₁.trans hg₂, fun t ht => ?_⟩
      · rw [if_neg fun hc => hu (List.contains_iff_mem.1 hc), hr₁]
        exact hr₂
      · rcases List.mem_cons.1 ht with rfl | ht
        · exact (hn₁ t rfl).imp_left (hg₂.keeps t)
        · exact hn₂ t ht

theorem expectedDistance_computes
    (hf : ∀ t ∉ above, ∀ known, wf.Computes above (· = t) known (f t known)) (c : Choice)
    (known : TokenTerminalDistance) :
    wf.Computes above (· ∈ c.types) known (c.expectedDistanceToTerminal above m f known) := by
  obtain ⟨s, known', hr, hg, hn⟩ := sumDistance_computes (m := m) hf c.types 0 known
  refine ⟨s / c.types.length, known', ?_, hg, hn⟩
  rw [Choice.expectedDistanceToTerminal, hr]
  rfl

theorem fieldsDistance_computes
    (hf : ∀ (c : Choice) known, wf.Computes above (· ∈ c.types) known (f c known))
    (fields : List Field) (acc : Nat) (known : TokenTerminalDistance) :
    wf.Computes above (fun t => ∃ field ∈ fields, t ∈ field.choice.types) known
      (fieldsDistance f fields acc known) := by
  induction fields generalizing acc known with
  | nil => exact ⟨acc, known, rfl, .refl wf above known, by simp⟩
  | cons u fields ih =>
    obtain ⟨d, known₁, hr₁, hg₁, hn₁⟩ := hf u.choice known
    obtain ⟨s, known₂, hr₂, hg₂, hn₂⟩ := ih (max acc d) known₁
    refine ⟨s, known₂, ?_, hg₁.trans hg₂, fun t ht => ?_⟩
    · rw [fieldsDistance, hr₁]
      exact hr₂
    · obtain ⟨field, hm, ht⟩ := ht
      rcases List.mem_cons.1 hm with rfl | hm
      · exact (hn₁ t ht).imp_left (hg₂.keeps t)
      · exact hn₂ t ⟨field, hm, ht⟩

def unvisited (wf : Wellformed) (above : List Token) : List Token :=
  (wf.shapes.map Prod.fst).filter (· ∉ above)

theorem mem_of_find {shape : Shape} (h : wf.find t = some shape) : t ∈ wf.shapes.map Prod.fst := by
  obtain ⟨before, after, he, _⟩ := List.lookup_eq_some_iff.1 h
  rw [he, List.map_append, List.map_cons]
  exact List.mem_append_right _ List.mem_cons_self

theorem unvisited_lt {shape : Shape} (h : wf.find t = some shape) (ht : t ∉ above) :
    (wf.unvisited (t :: above)).length < (wf.unvisited above).length := by
  have hsplit : wf.unvisited (t :: above) = (wf.unvisited above).filter (· ≠ t) := by
    simp only [unvisited, List.filter_filter, List.mem_cons, not_or, Bool.decide_and]
  rw [hsplit]
  apply List.length_filter_lt_length_iff_exists.2
  exact ⟨t, List.mem_filter.2 ⟨mem_of_find h, by simpa using ht⟩, by simp⟩

theorem minDistToTerminal_computes (fuel : Nat) (h : (wf.unvisited above).length < fuel)
    (ht : t ∉ above) (known : TokenTerminalDistance) :
    wf.Computes above (· = t) known (wf.minDistToTerminal m fuel above t known) := by
  induction fuel generalizing above t known with
  | zero => exact absurd h (Nat.not_lt_zero _)
  | succ fuel ih =>
    rw [minDistToTerminal]
    cases hl : known.lookup t with
    | some d =>
      have hknown : Known known t := by rw [Known, hl]; rfl
      exact ⟨d, known, rfl, .refl wf above known, fun u hu => .inl (hu ▸ hknown)⟩
    | none =>
      have hnew (known' : TokenTerminalDistance) (d : Nat) (u : Token) (hu : u = t) :
          Known ((t, d) :: known') u ∨ u ∈ above := .inl (known_cons.2 (.inl hu))
      cases hs : wf.find t with
      | none =>
        refine ⟨0, _, rfl, (Grows.refl wf _ known).enter (fun c hc => ?_) 0, hnew known 0⟩
        obtain ⟨shape, hshape, _⟩ := hc
        cases hs.symm.trans hshape
      | some shape =>
        have hfuel : (wf.unvisited (t :: above)).length < fuel :=
          Nat.lt_of_lt_of_le (unvisited_lt hs ht) (Nat.lt_succ_iff.1 h)
        have hexpected (c : Choice) (known : TokenTerminalDistance) :
            wf.Computes (t :: above) (· ∈ c.types) known (c.expectedDistanceToTerminal (t :: above) m
              (wf.minDistToTerminal m fuel (t :: above)) known) :=
          expectedDistance_computes (fun u hu known => ih hfuel hu known) c known
        cases shape with
        | sequence s =>
          obtain ⟨d, known', hr, hg, hn⟩ := hexpected s.choice known
          refine ⟨d, _, by simp only [hr]; rfl, hg.enter (fun c hc => ?_) d, hnew known' d⟩
          obtain ⟨shape, hshape, choice, hchoice, hc⟩ := hc
          obtain rfl := Option.some.inj (hs.symm.trans hshape)
          obtain rfl := List.mem_singleton.1 hchoice
          exact hn c hc
        | fields f =>
          obtain ⟨d, known', hr, hg, hn⟩ := fieldsDistance_computes hexpected f.fields 0 known
          refine ⟨d, _, by simp only [hr]; rfl, hg.enter (fun c hc => ?_) d, hnew known' d⟩
          obtain ⟨shape, hshape, choice, hchoice, hc⟩ := hc
          obtain rfl := Option.some.inj (hs.symm.trans hshape)
          obtain ⟨field, hfield, rfl⟩ := List.mem_map.1 hchoice
          exact hn c ⟨field, hfield, hc⟩

theorem computeFrom_computes (wf : Wellformed) (m : Nat) (shapes : List (Token × Shape))
    (known : TokenTerminalDistance) : ∃ known', wf.computeFrom m shapes known = some known' ∧
      wf.Grows [] known known' ∧ ∀ t ∈ shapes.map Prod.fst, Known known' t := by
  induction shapes generalizing known with
  | nil => exact ⟨known, rfl, .refl wf [] known, fun t ht => absurd ht List.not_mem_nil⟩
  | cons entry shapes ih =>
    have hfuel : (wf.unvisited []).length < wf.shapes.length + 1 := by
      apply Nat.lt_succ_of_le
      exact Nat.le_trans (List.length_filter_le _ _) (Nat.le_of_eq (List.length_map _))
    obtain ⟨d, known₁, hr, hg, hn⟩ :=
      minDistToTerminal_computes (m := m) _ hfuel (t := entry.1) List.not_mem_nil known
    have hknown : Known known₁ entry.1 := (hn _ rfl).resolve_right List.not_mem_nil
    have hsame (t : Token) : Known ((entry.1, d) :: known₁) t ↔ Known known₁ t :=
      known_cons.trans ⟨fun h => h.elim (fun h => h ▸ hknown) id, .inr⟩
    have hg₁ : wf.Grows [] known ((entry.1, d) :: known₁) := {
      keeps := fun t ht => (hsame t).2 (hg.keeps t ht)
      types := fun t ht hn c hc =>
        (hg.types t ((hsame t).1 ht) hn c hc).imp_left (hsame c).2 }
    obtain ⟨known₂, hr₂, hg₂, hn₂⟩ := ih ((entry.1, d) :: known₁)
    refine ⟨known₂, ?_, hg₁.trans hg₂, fun t ht => ?_⟩
    · rw [computeFrom, hr]
      exact hr₂
    · rcases List.mem_cons.1 ht with rfl | ht
      · exact hg₂.keeps _ ((hsame _).2 hknown)
      · exact hn₂ t ht

/-- A distance of every type of every shape is computed. -/
theorem computeMinimumDistanceToTerminal_complete (wf : Wellformed) (maxDistance : Nat) :
    ∃ known, wf.computeMinimumDistanceToTerminal maxDistance = some known ∧
      ∀ t c, wf.HasType t c → Known known c := by
  obtain ⟨known, hr, hg, hn⟩ := computeFrom_computes wf maxDistance wf.shapes []
  refine ⟨known, hr, fun t c hc => ?_⟩
  obtain ⟨shape, hs, _⟩ := id hc
  have ht := hn t (mem_of_find hs)
  exact (hg.types t ht Bool.false_ne_true c hc).resolve_right List.not_mem_nil

end Wellformed

end Trieste
