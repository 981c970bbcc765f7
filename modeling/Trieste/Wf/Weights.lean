import Trieste.Wf.Returns

namespace Trieste
set_option autoImplicit true

namespace Wf

namespace Gen
variable {g : Gen} {tokens : List Token} {offsets : List Rat} {value : Rat}

@[simp] theorem partialSum_length (offsets : List Rat) :
    (partialSum offsets).length = offsets.length := by
  rw [partialSum, List.length_map, List.length_range]

theorem partialSum_getElem? (h : k < offsets.length) :
    (partialSum offsets)[k]? = some ((offsets.take k).sum + offsets[k]) := by
  simp only [partialSum, List.getElem?_map, List.getElem?_range h, Option.map_some,
    List.take_add_one, List.getElem?_eq_getElem h, Option.toList_some, List.sum_append,
    List.sum_singleton]

theorem exists_reached (hne : offsets ≠ []) (hv : value ≤ offsets.sum) :
    ∃ k, (partialSum offsets).findIdx (value ≤ ·) = k ∧ k < offsets.length := by
  refine ⟨_, rfl, ?_⟩
  rw [← partialSum_length offsets]
  exact List.findIdx_lt_length_of_exists
    ⟨offsets.sum, List.mem_of_getLast? (partialSum_getLast? hne), decide_eq_true hv⟩

theorem offset_reached_pos (hpos : 0 < value) (h : k < offsets.length)
    (hk : (partialSum offsets).findIdx (value ≤ ·) = k) : 0 < offsets[k] := by
  have hlen : k < (partialSum offsets).length := by rwa [partialSum_length]
  have hsum (i : Nat) (hi : i < offsets.length) (hi' : i < (partialSum offsets).length) :
      (partialSum offsets)[i] = (offsets.take i).sum + offsets[i] :=
    List.getElem_of_getElem? (partialSum_getElem? hi) |>.2
  obtain ⟨hreached, hbefore⟩ := (List.findIdx_eq hlen).1 hk
  rw [decide_eq_true_eq, hsum k h hlen] at hreached
  have hbelow : (offsets.take k).sum < value := by
    cases k with
    | zero => simpa using hpos
    | succ k =>
      have hk' : k < offsets.length := Nat.lt_of_succ_lt h
      have hlt := hbefore k (Nat.lt_succ_self k)
      rw [decide_eq_false_iff_not, hsum k hk' (Nat.lt_of_succ_lt hlen), not_le] at hlt
      rwa [List.take_add_one, List.getElem?_eq_getElem hk', Option.toList_some, List.sum_append,
        List.sum_singleton]
  exact (lt_add_iff_pos_right _).1 (hbelow.trans_le hreached)

theorem findIdx_zero (hx : 0 ≤ x) :
    (partialSum (x :: offsets)).findIdx ((0 : Rat) ≤ ·) = 0 := by
  have hlen : 0 < (partialSum (x :: offsets)).length := by simp
  rw [List.findIdx_eq hlen]
  simp [partialSum, hx]

theorem value_le (result : UInt32) (htotal : 0 ≤ total) :
    (result.toNat : Rat) / (2 ^ 32 - 1) * total ≤ total := by
  have hle : (result.toNat : Rat) + 1 ≤ 2 ^ 32 := by exact_mod_cast result.toNat_lt
  exact mul_le_of_le_one_left htotal (div_le_one_of_le₀ (le_sub_iff_add_le.2 hle) (by norm_num))

section Sample
variable {u : Token} {rest : List Token} {f : Token → Rat}

theorem sum_weights_pos (hf : ∀ t ∈ tokens, 0 ≤ f t) (hpos : ∃ t ∈ tokens, 0 < f t) :
    0 < (tokens.map f).sum := by
  obtain ⟨t, ht, h⟩ := hpos
  have hle : f t ≤ (tokens.map f).sum :=
    List.single_le_sum (List.forall_mem_map.2 hf) (f t) (List.mem_map_of_mem ht)
  exact h.trans_le hle

theorem chooseFromCumulative_eq (hne : tokens ≠ []) (hsum : 0 < (tokens.map f).sum)
    (parent : Token) (depth : Nat) (result : UInt32) :
    chooseFromCumulative tokens (partialSum (tokens.map f)) parent depth result =
      token tokens ((partialSum (tokens.map f)).findIdx
        ((result.toNat : Rat) / (2 ^ 32 - 1) * (tokens.map f).sum ≤ ·)) := by
  have hmap : tokens.map f ≠ [] := fun h => hne (List.map_eq_nil_iff.1 h)
  simp only [chooseFromCumulative, partialSum_getLast? hmap, not_le.2 hsum, if_false]

theorem chooseFromCumulative_pos (hf : ∀ t ∈ tokens, 0 ≤ f t) (hpos : ∃ t ∈ tokens, 0 < f t)
    (hresult : result ≠ 0) (parent : Token) (depth : Nat) :
    ∃ t, 0 < f t ∧
      chooseFromCumulative tokens (partialSum (tokens.map f)) parent depth result = .ok t := by
  have hsum := sum_weights_pos hf hpos
  obtain ⟨t, ht, _⟩ := hpos
  have hne : tokens ≠ [] := List.ne_nil_of_mem ht
  have hmap : tokens.map f ≠ [] := fun h => hne (List.map_eq_nil_iff.1 h)
  obtain ⟨k, hk, hlt⟩ := exists_reached hmap (value_le result hsum.le)
  have hnat : 0 < result.toNat := by
    apply Nat.pos_of_ne_zero
    intro h
    exact hresult (UInt32.toNat_inj.1 h)
  have hvalue : 0 < (result.toNat : Rat) / (2 ^ 32 - 1) * (tokens.map f).sum :=
    mul_pos (div_pos (Nat.cast_pos.2 hnat) (by norm_num)) hsum
  have hoffset := offset_reached_pos hvalue hlt hk
  have hlen : k < tokens.length := by rwa [List.length_map] at hlt
  rw [List.getElem_map] at hoffset
  refine ⟨tokens[k], hoffset, ?_⟩
  rw [chooseFromCumulative_eq hne hsum, hk, token, List.getElem?_eq_getElem hlen]

theorem chooseFromCumulative_zero (hf : ∀ t ∈ u :: rest, 0 ≤ f t)
    (hpos : ∃ t ∈ u :: rest, 0 < f t) (parent : Token) (depth : Nat) :
    chooseFromCumulative (u :: rest) (partialSum ((u :: rest).map f)) parent depth 0 = .ok u := by
  have hfirst : (partialSum (f u :: rest.map f)).findIdx ((0 : Rat) ≤ ·) = 0 :=
    findIdx_zero (hf u List.mem_cons_self)
  rw [chooseFromCumulative_eq (List.cons_ne_nil _ _) (sum_weights_pos hf hpos)]
  simp only [UInt32.toNat_zero, Nat.cast_zero, zero_div, zero_mul, List.map_cons, hfirst]
  rfl

end Sample

/-- A function whose zeros are the tokens of weight zero. -/
structure Scales (g : Gen) (tokens : List Token) (f : Token → Rat) : Prop where
  nonneg : ∀ t ∈ tokens, 0 ≤ f t
  zero : ∀ t, f t = 0 ↔ g.weightFor t = 0

theorem Scales.exists_pos (h : g.Scales tokens f) (hpos : ∃ t ∈ tokens, 0 < g.weightFor t) :
    ∃ t ∈ tokens, 0 < f t := by
  obtain ⟨t, ht, hw⟩ := hpos
  refine ⟨t, ht, lt_of_le_of_ne (h.nonneg t ht) ?_⟩
  intro hz
  exact Nat.ne_of_gt hw ((h.zero t).1 hz.symm)

theorem scales_weight (g : Gen) (tokens : List Token) :
    g.Scales tokens fun t => (g.weightFor t : Rat) :=
  ⟨fun _ _ => Nat.cast_nonneg _, fun _ => Nat.cast_eq_zero⟩

theorem scales_offset (g : Gen) (tokens : List Token) (depth : Nat) :
    g.Scales tokens fun t =>
      g.offset depth (distanceOf g.tokenTerminalDistance t) * (g.weightFor t : Rat) := by
  refine ⟨fun t _ => mul_nonneg (g.offset_pos _ _).le (Nat.cast_nonneg _), fun t => ?_⟩
  rw [mul_eq_zero, or_iff_right (g.offset_pos _ _).ne', Nat.cast_eq_zero]

theorem offsets_unknown (ht : t ∈ tokens) (hk : ¬ Known g.tokenTerminalDistance t) :
    ∃ e, g.offsets depth tokens = .error e := by
  induction tokens with
  | nil => cases ht
  | cons u tokens ih =>
    simp only [offsets, List.mapM_cons] at ih ⊢
    cases hu : g.tokenTerminalDistance.lookup u with
    | none => exact ⟨_, rfl⟩
    | some distance =>
      have htail : t ∈ tokens := by
        cases ht with
        | head =>
          rw [Known, hu] at hk
          exact absurd rfl hk
        | tail _ h => exact h
      obtain ⟨e, he⟩ := ih htail
      refine ⟨e, ?_⟩
      simp only [he]
      rfl

theorem choose_weighted (hw : g.tokenWeights ≠ []) (hd : depth < g.ceilingDepth)
    (hk : g.targetDepth < depth → ∀ t ∈ u :: v :: rest, Known g.tokenTerminalDistance t)
    (parent : Token) (draws : Draws) (i : Nat) :
    ∃ f, g.Scales (u :: v :: rest) f ∧ g.choose (u :: v :: rest) depth parent draws i =
      (chooseFromCumulative (u :: v :: rest) (partialSum ((u :: v :: rest).map f)) parent depth
        (draws i)).map (·, i + 1) := by
  by_cases ht : depth ≤ g.targetDepth
  · refine ⟨_, g.scales_weight _, ?_⟩
    simp only [choose, ht, if_true, hw, ne_eq, not_false_eq_true]
    rfl
  · refine ⟨_, g.scales_offset _ depth, ?_⟩
    simp only [choose, ht, if_false, offsets_known (hk (Nat.lt_of_not_le ht)), hw, ne_eq,
      not_false_eq_true, if_true, Nat.not_le.2 hd, List.zipWith_map_left, List.zipWith_self,
      bind, Except.bind]
    rfl

/-- The least draw takes a first token that has weight zero, and nothing makes the choice throw. -/
def TakesZero (g : Gen) (tokens : List Token) (depth : Nat) (result : UInt32) : Prop :=
  result = 0 ∧ (∃ u ∈ tokens.head?, g.weightFor u = 0) ∧
    (g.targetDepth < depth → ∀ t ∈ tokens, Known g.tokenTerminalDistance t)

/-- A token of weight zero is chosen exactly by the least draw, as the first of the tokens. -/
theorem choose_nonzero_iff (g : Gen) (tokens : List Token)
    (hpos : ∃ t ∈ tokens, 0 < g.weightFor t) (depth : Nat) (hd : depth < g.ceilingDepth)
    (parent : Token) (draws : Draws) (i : Nat) :
    (∀ t j, g.choose tokens depth parent draws i = .ok (t, j) → g.weightFor t ≠ 0) ↔
      ¬ g.TakesZero tokens depth (draws i) := by
  cases tokens with
  | nil =>
    obtain ⟨t, ht, _⟩ := hpos
    cases ht
  | cons u rest =>
  cases rest with
  | nil =>
    obtain ⟨t, ht, hw⟩ := hpos
    obtain rfl := List.mem_singleton.1 ht
    constructor
    · intro _ htakes
      obtain ⟨_, ⟨u, hu, hz⟩, _⟩ := htakes
      obtain rfl := Option.some.inj hu
      exact Nat.ne_of_gt hw hz
    · intro _ u j hu
      simp only [choose, Nat.ne_of_gt hw, and_false, if_false] at hu
      cases hu
      exact Nat.ne_of_gt hw
  | cons v rest =>
    by_cases hw : g.tokenWeights = []
    · have hone (t : Token) : g.weightFor t ≠ 0 := by simp [weightFor, hw]
      refine iff_of_true (fun t _ _ => hone t) ?_
      intro htakes
      obtain ⟨_, ⟨u, _, hz⟩, _⟩ := htakes
      exact hone u hz
    · by_cases hk : g.targetDepth < depth → ∀ t ∈ u :: v :: rest, Known g.tokenTerminalDistance t
      · obtain ⟨f, hf, hchoose⟩ := choose_weighted hw hd hk parent draws i
        have hfpos := hf.exists_pos hpos
        rw [hchoose]
        constructor
        · intro hnever htakes
          obtain ⟨hdraw, ⟨u, hu, hz⟩, _⟩ := htakes
          obtain rfl := Option.some.inj hu
          refine hnever u (i + 1) ?_ hz
          rw [hdraw, chooseFromCumulative_zero hf.nonneg hfpos]
          rfl
        · intro hnot t j ht hz
          by_cases hdraw : draws i = 0
          · rw [hdraw, chooseFromCumulative_zero hf.nonneg hfpos] at ht
            cases ht
            exact hnot ⟨hdraw, ⟨u, rfl, hz⟩, hk⟩
          · obtain ⟨t', ht', hsample⟩ :=
              chooseFromCumulative_pos hf.nonneg hfpos hdraw parent depth
            rw [hsample] at ht
            cases ht
            exact ht'.ne' ((hf.zero t).2 hz)
      · refine iff_of_true ?_ fun htakes => hk htakes.2.2
        intro t j ht
        obtain ⟨habove, x, hx, hunknown⟩ : g.targetDepth < depth ∧
            ∃ t ∈ u :: v :: rest, ¬ Known g.tokenTerminalDistance t := by
          push Not at hk
          exact hk
        obtain ⟨e, he⟩ : ∃ e, g.offsets depth (u :: v :: rest) = .error e :=
          offsets_unknown hx hunknown
        simp only [choose, Nat.not_le.2 habove, if_false, he] at ht
        cases ht

/-- The token `a` has weight zero and is before `b`. -/
def zeroFirst : Gen := {
  tokenTerminalDistance := [(⟨"a", 0⟩, 1), (⟨"b", 0⟩, 1)]
  targetDepth := 5
  tokenWeights := [(⟨"a", 0⟩, 0), (⟨"b", 0⟩, 5)] }

theorem choose_nonzero_second :
    (∀ t j, zeroFirst.choose [⟨"a", 0⟩, ⟨"b", 0⟩] 7 .top (fun _ => 1) 0 = .ok (t, j) →
      zeroFirst.weightFor t ≠ 0) ↔ ¬ zeroFirst.TakesZero [⟨"a", 0⟩, ⟨"b", 0⟩] 7 1 :=
  choose_nonzero_iff zeroFirst [⟨"a", 0⟩, ⟨"b", 0⟩] ⟨⟨"b", 0⟩, by decide, by decide⟩ 7 (by decide)
    .top (fun _ => 1) 0

theorem choose_zero_first : 0 < zeroFirst.ceilingDepth ∧ zeroFirst.weightFor ⟨"b", 0⟩ = 5 ∧
    zeroFirst.weightFor ⟨"a", 0⟩ = 0 ∧
    zeroFirst.choose [⟨"a", 0⟩, ⟨"b", 0⟩] 0 .top (fun _ => 0) 0 = .ok (⟨"a", 0⟩, 1) := by
  refine ⟨by decide, rfl, rfl, ?_⟩
  decide +kernel

end Gen

end Wf

end Trieste
