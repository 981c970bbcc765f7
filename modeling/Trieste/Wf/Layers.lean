import Mathlib.Data.Set.Finite.List
import Trieste.Library.Acyclic
import Trieste.Library.ShortCircuit
import Trieste.Wf.Distance

namespace Trieste
set_option autoImplicit true

namespace Wf

def sumOf (value : Token → Nat) (types : List Token) (acc : Nat) : Nat :=
  types.foldl (fun acc type => (acc + value type) % UInt64.size) acc

def Choice.average (value : Token → Nat) (c : Choice) : Nat := sumOf value c.types 0 / c.types.length

/-- The distance of a shape, with those of its types given. -/
def Shape.distance (value : Token → Nat) : Shape → Nat
  | .sequence s => s.choice.average value
  | .fields f => f.fields.foldl (fun acc field => max acc (field.choice.average value)) 0

theorem sumOf_congr {value value' : Token → Nat} (h : ∀ u ∈ types, value u = value' u) (acc : Nat) :
    sumOf value types acc = sumOf value' types acc := by
  induction types generalizing acc with
  | nil => rfl
  | cons u types ih =>
    rw [List.forall_mem_cons] at h
    rw [sumOf, sumOf, List.foldl_cons, List.foldl_cons, h.1]
    exact ih h.2 _

theorem Choice.average_congr {value value' : Token → Nat} {c : Choice}
    (h : ∀ u ∈ c.types, value u = value' u) : c.average value = c.average value' := by
  rw [average, average, sumOf_congr h]

theorem Shape.distance_congr {value value' : Token → Nat} {shape : Shape}
    (h : ∀ c ∈ shape.choices, ∀ u ∈ c.types, value u = value' u) :
    shape.distance value = shape.distance value' := by
  cases shape with
  | sequence s => exact Choice.average_congr (h _ (List.mem_singleton_self _))
  | fields f =>
    apply List.foldl_ext
    intro acc field hfield
    rw [Choice.average_congr (h _ (List.mem_map.2 ⟨field, hfield, rfl⟩))]

theorem sumOf_zero (types : List Token) : sumOf (fun _ => 0) types 0 = 0 := by
  induction types with
  | nil => rfl
  | cons u types ih => exact ih

theorem Shape.distance_zero (shape : Shape) : shape.distance (fun _ => 0) = 0 := by
  have haverage (c : Choice) : c.average (fun _ => 0) = 0 := by
    rw [Choice.average, sumOf_zero, Nat.zero_div]
  cases shape with
  | sequence s => exact haverage s.choice
  | fields f =>
    rw [distance]
    induction f.fields with
    | nil => rfl
    | cons field fields ih => rw [List.foldl_cons, haverage, Nat.max_zero]; exact ih

end Wf

namespace Wellformed
open Wf Relation
variable {wf : Wellformed} {dist : Token → Nat} {known known' : TokenTerminalDistance}
  {above : List Token}

def Relevant (wf : Wellformed) (t : Token) : Prop :=
  (wf.find t).isSome = true ∨ ∃ p, wf.HasType p t

/-- The distances that are known are right ones. -/
structure Sound (wf : Wellformed) (dist : Token → Nat) (known : TokenTerminalDistance) : Prop where
  value : ∀ t d, known.lookup t = some d → d = dist t
  relevant : ∀ t, Known known t → wf.Relevant t

/-- The distances fulfil the equation of each shape, also below tokens that are being computed and
count as `m`. -/
structure Solves (wf : Wellformed) (m : Nat) (dist : Token → Nat) : Prop where
  leaf : ∀ t, wf.find t = none → dist t = 0
  node : ∀ t shape, wf.find t = some shape → ∀ above : List Token,
    (∀ a ∈ above, TransGen wf.HasType a t) →
      shape.distance (fun u => if u ∈ t :: above then m else dist u) = dist t

/-- A computation gives the value, and adds distances that are right. -/
def Gives (wf : Wellformed) (dist : Token → Nat) (value : Nat)
    (result : Option (Nat × TokenTerminalDistance)) : Prop :=
  ∀ d known, result = some (d, known) → d = value ∧ wf.Sound dist known

theorem Sound.cons (h : wf.Sound dist known) (hrelevant : wf.Relevant t) (hd : d = dist t) :
    wf.Sound dist ((t, d) :: known) := by
  refine ⟨fun u e hu => ?_, fun u hu => ?_⟩
  · rw [List.lookup_cons] at hu
    by_cases ht : u = t
    · rw [beq_iff_eq.2 ht] at hu
      cases hu
      rw [ht, hd]
    · rw [beq_eq_false_iff_ne.2 ht] at hu
      exact h.value u e hu
  · rcases known_cons.1 hu with rfl | hu
    · exact hrelevant
    · exact h.relevant u hu

theorem sumDistance_gives {f : Token → TokenTerminalDistance → Option (Nat × TokenTerminalDistance)}
    (hf : ∀ t ∈ types, t ∉ above → ∀ known, wf.Sound dist known →
      wf.Gives dist (dist t) (f t known)) (acc : Nat) (h : wf.Sound dist known) :
    wf.Gives dist (sumOf (fun u => if u ∈ above then m else dist u) types acc)
      (Choice.sumDistance above m f types acc known) := by
  induction types generalizing acc known with
  | nil =>
    intro d known' hr
    cases hr
    exact ⟨rfl, h⟩
  | cons u types ih =>
    have hmore : ∀ t ∈ types, t ∉ above → ∀ known, wf.Sound dist known →
        wf.Gives dist (dist t) (f t known) := fun t ht => hf t (List.mem_cons_of_mem _ ht)
    rw [Choice.sumDistance, sumOf, List.foldl_cons]
    by_cases hu : u ∈ above
    · rw [if_pos (List.contains_iff_mem.2 hu), if_pos hu]
      exact ih hmore _ h
    · rw [if_neg fun hc => hu (List.contains_iff_mem.1 hc), if_neg hu]
      intro d known' hr
      obtain ⟨⟨d₁, known₁⟩, hr₁, hr₂⟩ := Option.bind_eq_some_iff.1 hr
      obtain ⟨rfl, hsound⟩ := hf u List.mem_cons_self hu known h d₁ known₁ hr₁
      exact ih hmore _ hsound d known' hr₂

theorem expectedDistance_gives {c : Choice}
    {f : Token → TokenTerminalDistance → Option (Nat × TokenTerminalDistance)}
    (hf : ∀ t ∈ c.types, t ∉ above → ∀ known, wf.Sound dist known →
      wf.Gives dist (dist t) (f t known)) (h : wf.Sound dist known) :
    wf.Gives dist (c.average fun u => if u ∈ above then m else dist u)
      (c.expectedDistanceToTerminal above m f known) := by
  intro d known' hr
  obtain ⟨⟨s, known₁⟩, hr₁, hr₂⟩ := Option.bind_eq_some_iff.1 hr
  obtain ⟨rfl, hsound⟩ := sumDistance_gives hf 0 h s known₁ hr₁
  cases hr₂
  exact ⟨rfl, hsound⟩

theorem fieldsDistance_gives {value : Choice → Nat}
    {f : Choice → TokenTerminalDistance → Option (Nat × TokenTerminalDistance)} {fields : List Field}
    (hf : ∀ field ∈ fields, ∀ known, wf.Sound dist known →
      wf.Gives dist (value field.choice) (f field.choice known)) (acc : Nat)
    (h : wf.Sound dist known) :
    wf.Gives dist (fields.foldl (fun acc field => max acc (value field.choice)) acc)
      (fieldsDistance f fields acc known) := by
  induction fields generalizing acc known with
  | nil =>
    intro d known' hr
    cases hr
    exact ⟨rfl, h⟩
  | cons field fields ih =>
    rw [fieldsDistance, List.foldl_cons]
    intro d known' hr
    obtain ⟨⟨d₁, known₁⟩, hr₁, hr₂⟩ := Option.bind_eq_some_iff.1 hr
    obtain ⟨rfl, hsound⟩ := hf field List.mem_cons_self known h d₁ known₁ hr₁
    exact ih (fun field hfield => hf field (List.mem_cons_of_mem _ hfield)) _ hsound d known' hr₂

theorem Relevant.of_find {shape : Shape} (h : wf.find t = some shape) : wf.Relevant t :=
  .inl (h ▸ rfl)

theorem minDistToTerminal_gives (hdist : wf.Solves m dist) (fuel : Nat)
    (habove : ∀ a ∈ above, TransGen wf.HasType a t) (hrelevant : wf.Relevant t)
    (h : wf.Sound dist known) :
    wf.Gives dist (dist t) (wf.minDistToTerminal m fuel above t known) := by
  induction fuel generalizing above t known with
  | zero => exact fun _ _ hr => by cases hr
  | succ fuel ih =>
    intro d known' hr
    rw [minDistToTerminal] at hr
    cases hl : known.lookup t with
    | some e =>
      rw [hl] at hr
      cases hr
      exact ⟨h.value t d hl, h⟩
    | none =>
      rw [hl] at hr
      cases hs : wf.find t with
      | none =>
        rw [hs] at hr
        cases hr
        have hleaf := hdist.leaf t hs
        exact ⟨hleaf.symm, h.cons hrelevant hleaf.symm⟩
      | some shape =>
        have hexpected (c : Choice) (hc : c ∈ shape.choices) (known : TokenTerminalDistance)
            (h : wf.Sound dist known) :
            wf.Gives dist (c.average fun u => if u ∈ t :: above then m else dist u)
              (c.expectedDistanceToTerminal (t :: above) m
                (wf.minDistToTerminal m fuel (t :: above)) known) := by
          apply expectedDistance_gives _ h
          intro u hu _ known h
          have hchild : wf.HasType t u := ⟨shape, hs, c, hc, hu⟩
          apply ih _ (.inr ⟨t, hchild⟩) h
          intro a ha
          rcases List.mem_cons.1 ha with rfl | ha
          · exact .single hchild
          · exact (habove a ha).tail hchild
        have hnode := hdist.node t shape hs above habove
        rw [hs] at hr
        cases shape with
        | sequence s =>
          obtain ⟨⟨d₁, known₁⟩, hr₁, hr₂⟩ := Option.bind_eq_some_iff.1 hr
          obtain ⟨hd, hsound⟩ := hexpected _ (List.mem_singleton_self _) known h d₁ known₁ hr₁
          cases hr₂
          exact ⟨hd.trans hnode, hsound.cons hrelevant (hd.trans hnode)⟩
        | fields f =>
          obtain ⟨⟨d₁, known₁⟩, hr₁, hr₂⟩ := Option.bind_eq_some_iff.1 hr
          have hfield (field : Field) (hf : field ∈ f.fields) :=
            hexpected field.choice (List.mem_map.2 ⟨field, hf, rfl⟩)
          have hfields : wf.Gives dist
              ((Shape.fields f).distance fun u => if u ∈ t :: above then m else dist u)
              (fieldsDistance (fun c known => c.expectedDistanceToTerminal (t :: above) m
                (wf.minDistToTerminal m fuel (t :: above)) known) f.fields 0 known) :=
            fieldsDistance_gives hfield 0 h
          obtain ⟨hd, hsound⟩ := hfields d₁ known₁ hr₁
          cases hr₂
          exact ⟨hd.trans hnode, hsound.cons hrelevant (hd.trans hnode)⟩

theorem computeFrom_sound (hdist : wf.Solves m dist) {shapes : List (Token × Shape)}
    (hshapes : ∀ entry ∈ shapes, wf.Relevant entry.1) (h : wf.Sound dist known)
    (hr : wf.computeFrom m shapes known = some known') : wf.Sound dist known' := by
  induction shapes generalizing known with
  | nil =>
    cases hr
    exact h
  | cons entry shapes ih =>
    obtain ⟨⟨d, known₁⟩, hr₁, hr₂⟩ := Option.bind_eq_some_iff.1 hr
    have hrelevant := hshapes entry List.mem_cons_self
    obtain ⟨hd, hsound⟩ := minDistToTerminal_gives hdist _
      (fun a ha => absurd ha List.not_mem_nil) hrelevant h d known₁ hr₁
    exact ih (fun entry hentry => hshapes entry (List.mem_cons_of_mem _ hentry))
      (hsound.cons hrelevant hd) hr₂

theorem lookup_distance (hdist : wf.Solves m dist)
    (hr : wf.computeMinimumDistanceToTerminal m = some known) (t : Token) :
    (wf.Relevant t → known.lookup t = some (dist t)) ∧
      (¬ wf.Relevant t → known.lookup t = none) := by
  have hshapes : ∀ entry ∈ wf.shapes, wf.Relevant entry.1 := by
    intro entry hentry
    obtain ⟨shape, hshape⟩ : ∃ shape, wf.find entry.1 = some shape :=
      ⟨entry.2, Library.lookup_of_mem wf.distinct hentry⟩
    exact .of_find hshape
  have hempty : wf.Sound dist [] := ⟨nofun, nofun⟩
  have hsound := computeFrom_sound hdist hshapes hempty hr
  obtain ⟨known', hr', hg, hn⟩ := computeFrom_computes wf m wf.shapes []
  cases hr.symm.trans hr'
  constructor
  · intro hrelevant
    have hknown : Known known t := by
      rcases hrelevant with hfind | ⟨p, hchild⟩
      · obtain ⟨shape, hshape⟩ := Option.isSome_iff_exists.1 hfind
        exact hn t (mem_of_find hshape)
      · obtain ⟨shape, hshape, -⟩ := id hchild
        exact (hg.types p (hn p (mem_of_find hshape)) Bool.false_ne_true t hchild).resolve_right
          List.not_mem_nil
    obtain ⟨d, hd⟩ := Option.isSome_iff_exists.1 hknown
    rw [hd, hsound.value t d hd]
  · intro hrelevant
    by_contra hne
    exact hrelevant (hsound.relevant t (Option.isSome_iff_ne_none.2 hne))

theorem solves_zero (wf : Wellformed) : wf.Solves 0 fun _ => 0 := by
  constructor
  · exact fun _ _ => rfl
  · intro t shape _ above _
    have hzero : (fun u => if u ∈ t :: above then 0 else 0) = fun _ : Token => 0 :=
      funext fun _ => ite_self 0
    rw [hzero, Shape.distance_zero]

/-- No two tokens can be below each other, apart from a token below itself. -/
def Layered (wf : Wellformed) : Prop :=
  ∀ t u, TransGen wf.HasType t u → TransGen wf.HasType u t → t = u

theorem Layered.of_rank (rank : Token → Nat)
    (h : ∀ t c, wf.HasType t c → c = t ∨ rank c < rank t) : wf.Layered := by
  have hbelow {t u : Token} (hreach : TransGen wf.HasType t u) : u = t ∨ rank u < rank t := by
    induction hreach with
    | single hchild => exact h _ _ hchild
    | tail _ hchild ih =>
      rcases h _ _ hchild with rfl | hlt
      · exact ih
      · rcases ih with rfl | hlt'
        · exact .inr hlt
        · exact .inr (hlt.trans hlt')
  intro t u htu hut
  rcases hbelow htu with heq | hlt
  · exact heq.symm
  · rcases hbelow hut with heq | hlt'
    · exact heq
    · exact absurd hlt (Nat.lt_asymm hlt')

/-- A type of a token that is another one. -/
def Below (wf : Wellformed) (t c : Token) : Prop := wf.HasType t c ∧ c ≠ t

theorem below_finite (wf : Wellformed) (t : Token) : {u | ReflTransGen wf.Below t u}.Finite := by
  have hlist : ∀ u, ReflTransGen wf.Below t u →
      u ∈ t :: wf.shapes.flatMap fun entry => entry.2.choices.flatMap Choice.types := by
    intro u hu
    cases hu with
    | refl => exact List.mem_cons_self
    | tail _ hlast =>
      obtain ⟨shape, hshape, c, hc, hmem⟩ := hlast.1
      apply List.mem_cons_of_mem
      apply List.mem_flatMap.2
      exact ⟨_, Library.mem_of_lookup hshape, List.mem_flatMap.2 ⟨c, hc, hmem⟩⟩
  exact (List.finite_toSet _).subset hlist

theorem Layered.wellFounded (h : wf.Layered) : WellFounded fun u t => wf.Below t u := by
  constructor
  intro t
  apply Library.acc_of_not_cycleFrom (wf.below_finite t)
  rintro ⟨x, -, hcycle⟩
  obtain ⟨y, hxy, hyx⟩ := TransGen.head'_iff.1 hcycle
  have hback : TransGen wf.HasType y x := by
    rcases hyx.cases_head with heq | ⟨z, hyz, hzx⟩
    · exact absurd heq hxy.2
    · have hmono : wf.Below ≤ wf.HasType := fun _ _ hbelow => hbelow.1
      exact TransGen.head' hyz.1 (ReflTransGen.mono hmono z x hzx)
  exact hxy.2 (h x y (.single hxy.1) hback).symm

open Classical in
/-- The distance of a token in a layered definition. -/
noncomputable def distanceOf (wf : Wellformed) (m : Nat) (h : wf.Layered) : Token → Nat :=
  h.wellFounded.fix fun t below =>
    match wf.find t with
    | none => 0
    | some shape => shape.distance fun u => if hu : wf.Below t u then below u hu else m

theorem solves_distanceOf (h : wf.Layered) (m : Nat) : wf.Solves m (wf.distanceOf m h) := by
  constructor
  · intro t ht
    rw [distanceOf, WellFounded.fix_eq, ht]
  · intro t shape ht above habove
    conv_rhs => rw [distanceOf, WellFounded.fix_eq, ht]
    apply Shape.distance_congr
    intro c hc u hu
    have hchild : wf.HasType t u := ⟨shape, ht, c, hc, hu⟩
    by_cases hself : u = t
    · rw [dif_neg fun hbelow => hbelow.2 hself, if_pos (hself ▸ List.mem_cons_self)]
    · have hnot : u ∉ t :: above := by
        intro hmem
        rcases List.mem_cons.1 hmem with heq | hmem
        · exact hself heq
        · exact hself (h u t (habove u hmem) (.single hchild))
      rw [dif_pos ⟨hchild, hself⟩, if_neg hnot]
      rfl

end Wellformed

end Trieste
