import Trieste.Wf.Distance
import Trieste.Wf.Gen
import Trieste.Library.Acyclic
import Trieste.Library.ShortCircuit
import Mathlib.Algebra.Order.Field.Basic
import Mathlib.Tactic.NormNum
import Mathlib.Tactic.Positivity

namespace Trieste
set_option autoImplicit true
open Library Relation

namespace Wf

def distanceOf (known : TokenTerminalDistance) (t : Token) : Nat := (known.lookup t).getD 0

def pick (known : TokenTerminalDistance) (tokens : List Token) : Option Token :=
  tokens.find? fun t => tokens.all (distanceOf known t ≤ distanceOf known ·)

namespace Gen
variable {g : Gen} {tokens : List Token}

/-- The depth from which on the token with the smallest distance is taken. -/
def greedyDepth (g : Gen) : Nat := max (g.targetDepth + 1) g.ceilingDepth

theorem offsets_known (h : ∀ t ∈ tokens, Known g.tokenTerminalDistance t) :
    g.offsets depth tokens =
      .ok (tokens.map fun t => g.offset depth (distanceOf g.tokenTerminalDistance t)) := by
  induction tokens with
  | nil => rfl
  | cons t tokens ih =>
    rw [List.forall_mem_cons] at h
    obtain ⟨d, hd⟩ := Option.isSome_iff_exists.1 h.1
    have hrest := ih h.2
    simp only [offsets] at hrest ⊢
    simp only [List.mapM_cons, hrest, hd, distanceOf, List.map_cons]
    rfl

theorem offset_pos (g : Gen) (depth distance : Nat) : 0 < g.offset depth distance := by
  rw [offset]
  positivity

theorem offset_le_iff (h : g.targetDepth < depth) :
    g.offset depth d ≤ g.offset depth e ↔ e ≤ d := by
  have hk : (0 : Rat) < ((depth - g.targetDepth : Nat) : Rat) :=
    Nat.cast_pos.2 (Nat.sub_pos_of_lt h)
  rw [offset, offset, one_div_le_one_div (by positivity) (by positivity), add_le_add_iff_left,
    mul_le_mul_iff_right₀ hk, Nat.cast_le]

theorem token_ok (h : i < tokens.length) : ∃ t ∈ tokens, token tokens i = .ok t := by
  refine ⟨tokens[i], List.getElem_mem h, ?_⟩
  rw [token, List.getElem?_eq_getElem h]

theorem partialSum_getLast? {offsets : List Rat} (h : offsets ≠ []) :
    (partialSum offsets).getLast? = some offsets.sum := by
  cases offsets with
  | nil => exact absurd rfl h
  | cons x offsets =>
    rw [partialSum, List.getLast?_map, List.length_cons, List.getLast?_range]
    simp

theorem chooseFromCumulative_ok (tokens : List Token) (offsets : List Rat) (h : offsets ≠ [])
    (hpos : ∀ x ∈ offsets, 0 < x) (hlen : offsets.length = tokens.length) (parent : Token)
    (depth : Nat) (result : UInt32) :
    ∃ t ∈ tokens, chooseFromCumulative tokens (partialSum offsets) parent depth result = .ok t := by
  have hlast := partialSum_getLast? h
  have hsum : 0 < offsets.sum := List.sum_pos offsets hpos h
  have hresult : (result.toNat : Rat) / (2 ^ 32 - 1) ≤ 1 := by
    have hle : (result.toNat : Rat) + 1 ≤ 2 ^ 32 := by exact_mod_cast result.toNat_lt
    exact div_le_one_of_le₀ (le_sub_iff_add_le.2 hle) (by norm_num)
  have hvalue : (result.toNat : Rat) / (2 ^ 32 - 1) * offsets.sum ≤ offsets.sum :=
    mul_le_of_le_one_left hsum.le hresult
  have hindex : (partialSum offsets).findIdx
      ((result.toNat : Rat) / (2 ^ 32 - 1) * offsets.sum ≤ ·) < tokens.length := by
    have hlength : (partialSum offsets).length = tokens.length := by simp [partialSum, hlen]
    rw [← hlength]
    exact List.findIdx_lt_length_of_exists
      ⟨offsets.sum, List.mem_of_getLast? hlast, decide_eq_true hvalue⟩
  simp only [chooseFromCumulative, hlast, not_le.2 hsum, if_false]
  exact token_ok hindex

theorem exists_smallest (h : tokens ≠ []) (f : Token → Nat) :
    ∃ t ∈ tokens, ∀ u ∈ tokens, f t ≤ f u := by
  obtain ⟨t, ht⟩ := List.exists_mem_of_ne_nil tokens h
  obtain ⟨m, hm, hmin⟩ := (measure f).wf.has_min {t | t ∈ tokens} ⟨t, ht⟩
  exact ⟨m, hm, fun u hu => Nat.le_of_not_lt (hmin u hu)⟩

theorem pick_some (known : TokenTerminalDistance) (h : tokens ≠ []) :
    ∃ t ∈ tokens, pick known tokens = some t := by
  obtain ⟨t, ht, hmin⟩ := exists_smallest h (distanceOf known)
  have hsome : (pick known tokens).isSome :=
    List.find?_isSome.2 ⟨t, ht, List.all_eq_true.2 fun u hu => decide_eq_true (hmin u hu)⟩
  obtain ⟨u, hu⟩ := Option.isSome_iff_exists.1 hsome
  exact ⟨u, List.mem_of_find?_eq_some hu, hu⟩

theorem maxElement_offset (h : g.targetDepth < depth) (tokens : List Token) :
    tokens[maxElement
        (tokens.map fun t => g.offset depth (distanceOf g.tokenTerminalDistance t))]? =
      pick g.tokenTerminalDistance tokens := by
  rw [pick, List.find?_eq_getElem?_findIdx, maxElement, List.findIdx_map]
  congr 2
  funext t
  simp only [Function.comp, List.all_map]
  congr 1
  funext u
  exact decide_eq_decide.2 (offset_le_iff h)

theorem choose_greedy (hw : g.tokenWeights = []) (hd : g.greedyDepth ≤ depth)
    (hk : ∀ t ∈ tokens, Known g.tokenTerminalDistance t) (hne : tokens ≠ []) (parent : Token)
    (draws : Draws) (i : Nat) : ∃ t, pick g.tokenTerminalDistance tokens = some t ∧
      g.choose tokens depth parent draws i = .ok (t, i) := by
  obtain ⟨t, _, ht⟩ := pick_some g.tokenTerminalDistance hne
  have hdepth : g.targetDepth < depth := Nat.lt_of_succ_le (Nat.le_trans (Nat.le_max_left _ _) hd)
  have hceiling : g.ceilingDepth ≤ depth := Nat.le_trans (Nat.le_max_right _ _) hd
  refine ⟨t, ht, ?_⟩
  cases tokens with
  | nil => exact absurd rfl hne
  | cons u rest =>
    cases rest with
    | nil =>
      have hu : u = t := by simpa [pick] using ht
      simp [choose, hw, hu]
    | cons v rest =>
      have hmax := (maxElement_offset hdepth (u :: v :: rest)).trans ht
      simp only [choose, Nat.not_le.2 hdepth, if_false, offsets_known hk, hceiling, if_true]
      simp only [bind, Except.bind, token, hmax, pure, Except.pure]

theorem choose_ok (hw : g.tokenWeights = []) (hk : ∀ t ∈ tokens, Known g.tokenTerminalDistance t)
    (hne : tokens ≠ []) (depth : Nat) (parent : Token) (draws : Draws) (i : Nat) :
    ∃ t ∈ tokens, ∃ j, g.choose tokens depth parent draws i = .ok (t, j) := by
  cases tokens with
  | nil => exact absurd rfl hne
  | cons u rest =>
    cases rest with
    | nil => exact ⟨u, List.mem_singleton_self u, i, by simp [choose, hw]⟩
    | cons v rest =>
      by_cases hd : depth ≤ g.targetDepth
      · have hindex : (draws i).toNat % (u :: v :: rest).length < (u :: v :: rest).length :=
          Nat.mod_lt _ (Nat.succ_pos _)
        obtain ⟨t, ht, htoken⟩ := token_ok hindex
        refine ⟨t, ht, i + 1, ?_⟩
        simp only [choose, hd, if_true, hw, ne_eq, not_true_eq_false, if_false, htoken]
        rfl
      · by_cases hc : g.ceilingDepth ≤ depth
        · have hgreedy : g.greedyDepth ≤ depth := Nat.max_le.2 ⟨Nat.lt_of_not_le hd, hc⟩
          obtain ⟨t, ht, hchoose⟩ := choose_greedy hw hgreedy hk hne parent draws i
          exact ⟨t, List.mem_of_find?_eq_some ht, i, hchoose⟩
        · obtain ⟨t, ht, hsample⟩ := chooseFromCumulative_ok (u :: v :: rest)
            ((u :: v :: rest).map fun t => g.offset depth (distanceOf g.tokenTerminalDistance t))
            (List.cons_ne_nil _ _) (List.forall_mem_map.2 fun t _ => g.offset_pos _ _)
            (List.length_map _) parent depth (draws i)
          refine ⟨t, ht, i + 1, ?_⟩
          simp only [choose, hd, if_false, offsets_known hk, hc, hw, ne_eq, not_true_eq_false]
          simp only [bind, Except.bind, hsample, pure, Except.pure]

theorem chooseFromCumulative_parent
    (h : chooseFromCumulative tokens cumulative parent depth result = .ok t) (parent' : Token) :
    chooseFromCumulative tokens cumulative parent' depth result = .ok t := by
  unfold chooseFromCumulative at h ⊢
  split at h
  · cases h
  · split at h
    · cases h
    · next hpos =>
      rw [if_neg hpos]
      exact h

theorem choose_congr (g : Gen) (tokens : List Token) (depth : Nat) (parent : Token)
    {draws draws' : Draws} (h : draws' i = draws i) :
    g.choose tokens depth parent draws' i = g.choose tokens depth parent draws i := by
  unfold choose
  rw [h]

/-- A choice reads one result or none, and the parent is only named in what it throws. -/
theorem choose_reads (h : g.choose tokens depth parent draws i = .ok (t, j)) :
    (j = i ∧ ∀ parent' draws' i', g.choose tokens depth parent' draws' i' = .ok (t, i')) ∨
      (j = i + 1 ∧ ∀ parent' (draws' : Draws) i', draws' i' = draws i →
        g.choose tokens depth parent' draws' i' = .ok (t, i' + 1)) := by
  cases tokens with
  | nil => cases h
  | cons u rest =>
    cases rest with
    | nil =>
      simp only [choose] at h ⊢
      split at h
      · cases h
      · next hw =>
        cases h
        exact .inl ⟨rfl, fun _ _ _ => if_neg hw⟩
    | cons v rest =>
      simp only [choose] at h ⊢
      by_cases hd : depth ≤ g.targetDepth
      · simp only [if_pos hd] at h ⊢
        refine .inr ?_
        by_cases hw : g.tokenWeights ≠ []
        · simp only [if_pos hw] at h ⊢
          obtain ⟨x, hx, hr⟩ := bind_eq_ok.1 h
          cases hr
          refine ⟨rfl, fun parent' draws' i' hdraw => ?_⟩
          rw [hdraw, chooseFromCumulative_parent hx parent']
          rfl
        · simp only [if_neg hw] at h ⊢
          obtain ⟨x, hx, hr⟩ := bind_eq_ok.1 h
          cases hr
          refine ⟨rfl, fun parent' draws' i' hdraw => ?_⟩
          rw [hdraw, hx]
          rfl
      · simp only [if_neg hd] at h ⊢
        obtain ⟨offsets, hoffsets, h⟩ := bind_eq_ok.1 h
        simp only [hoffsets, ok_bind]
        by_cases hc : g.ceilingDepth ≤ depth
        · simp only [if_pos hc] at h ⊢
          obtain ⟨x, hx, hr⟩ := bind_eq_ok.1 h
          cases hr
          refine .inl ⟨rfl, fun _ _ i' => ?_⟩
          rw [hx]
          rfl
        · simp only [if_neg hc] at h ⊢
          obtain ⟨x, hx, hr⟩ := bind_eq_ok.1 h
          cases hr
          refine .inr ⟨rfl, fun parent' draws' i' hdraw => ?_⟩
          rw [hdraw, chooseFromCumulative_parent hx parent']
          rfl

/-- Some random number makes the generator choose the token. -/
def Chooses (g : Gen) (tokens : List Token) (depth : Nat) (t : Token) : Prop :=
  ∃ parent draws i j, g.choose tokens depth parent draws i = .ok (t, j)

/-- The children of a sequence may be more than the least number. -/
def GoesOn (g : Gen) (depth : Nat) (s : Sequence) : Prop :=
  depth < g.targetDepth ∧ (s.choice.types.map g.weightFor).sum % UInt64.size ≠ 0

/-- The types of the children that a node of the shape can get. -/
inductive Lays (g : Gen) (depth : Nat) : Shape → List Token → Prop
  | fields (h : List.Forall₂ (fun field t => g.Chooses field.choice.types depth t) f.fields ts) :
    Lays g depth (.fields f) ts
  | sequence (hmin : s.minLen ≤ ts.length)
    (hmax : ts.length ≤ s.minLen ∨ ts.length ≤ s.maxLen ∧ g.GoesOn depth s)
    (h : ∀ t ∈ ts, g.Chooses s.choice.types depth t) : Lays g depth (.sequence s) ts

def Handles (g : Gen) (c : Choice) : Prop :=
  c.types ≠ [] ∧ ∀ t ∈ c.types, Known g.tokenTerminalDistance t

theorem Handles.exists_chooses {c : Choice} (hw : g.tokenWeights = []) (h : g.Handles c)
    (depth : Nat) : ∃ t, g.Chooses c.types depth t := by
  obtain ⟨t, -, j, ht⟩ := choose_ok hw h.2 h.1 depth .invalid (fun _ => 0) 0
  exact ⟨t, _, _, _, j, ht⟩

theorem Handles.chooses_greedy {c : Choice} (hw : g.tokenWeights = []) (h : g.Handles c)
    (hd : g.greedyDepth ≤ depth) :
    g.Chooses c.types depth t ↔ pick g.tokenTerminalDistance c.types = some t := by
  constructor
  · intro ht
    obtain ⟨parent, draws, i, j, ht⟩ := ht
    obtain ⟨u, hu, hchoose⟩ := choose_greedy hw hd h.2 h.1 parent draws i
    cases ht.symm.trans hchoose
    exact hu
  · intro ht
    obtain ⟨u, hu, hchoose⟩ := choose_greedy hw hd h.2 h.1 .invalid (fun _ => 0) 0
    cases ht.symm.trans hu
    exact ⟨_, _, _, _, hchoose⟩

def picks (known : TokenTerminalDistance) : Shape → List Token
  | .sequence s => (List.replicate s.minLen s.choice).filterMap fun c => pick known c.types
  | .fields f => (f.fields.map Field.choice).filterMap fun c => pick known c.types

theorem exists_lays (hw : g.tokenWeights = []) (depth : Nat) {shape : Shape}
    (h : ∀ c ∈ shape.choices, g.Handles c) : ∃ ts, g.Lays depth shape ts := by
  cases shape with
  | sequence s =>
    obtain ⟨t, ht⟩ := (h s.choice (List.mem_singleton_self _)).exists_chooses hw depth
    refine ⟨List.replicate s.minLen t, .sequence (by simp) (.inl (by simp)) fun u hu => ?_⟩
    rw [List.eq_of_mem_replicate hu]
    exact ht
  | fields f =>
    have hall : ∀ field ∈ f.fields, ∃ t, g.Chooses field.choice.types depth t := fun field hf =>
      (h _ (List.mem_map_of_mem hf)).exists_chooses hw depth
    have hne : Nonempty Token := ⟨.invalid⟩
    choose! type htype using hall
    refine ⟨f.fields.map type, .fields ?_⟩
    rw [List.forall₂_map_right_iff, List.forall₂_same]
    exact htype

theorem fields_greedy (hw : g.tokenWeights = []) (hd : g.greedyDepth ≤ depth) {fields : List Field}
    (h : ∀ field ∈ fields, g.Handles field.choice) :
    List.Forall₂ (fun field t => g.Chooses field.choice.types depth t) fields ts ↔
      ts = (fields.map Field.choice).filterMap fun c => pick g.tokenTerminalDistance c.types := by
  induction fields generalizing ts with
  | nil => rw [List.forall₂_nil_left_iff, List.map_nil, List.filterMap_nil]
  | cons field fields ih =>
    rw [List.forall_mem_cons] at h
    obtain ⟨t, ht⟩ := h.1.exists_chooses hw depth
    have hpick := (h.1.chooses_greedy hw hd).1 ht
    rw [List.forall₂_cons_left_iff, List.map_cons, List.filterMap_cons, hpick]
    constructor
    · intro hts
      obtain ⟨u, us, hu, hus, rfl⟩ := hts
      cases hpick.symm.trans ((h.1.chooses_greedy hw hd).1 hu)
      exact congrArg (t :: ·) ((ih h.2).1 hus)
    · intro hts
      exact ⟨t, _, ht, (ih h.2).2 rfl, hts⟩

theorem lays_greedy (hw : g.tokenWeights = []) (hd : g.greedyDepth ≤ depth) {shape : Shape}
    (h : ∀ c ∈ shape.choices, g.Handles c) :
    g.Lays depth shape ts ↔ ts = picks g.tokenTerminalDistance shape := by
  cases shape with
  | sequence s =>
    have hs := h s.choice (List.mem_singleton_self _)
    obtain ⟨t, ht⟩ := hs.exists_chooses hw depth
    have hpick := (hs.chooses_greedy hw hd).1 ht
    have hpicks : picks g.tokenTerminalDistance (.sequence s) = List.replicate s.minLen t := by
      rw [picks]
      induction s.minLen with
      | zero => rfl
      | succ n ih => rw [List.replicate_succ, List.filterMap_cons, hpick, List.replicate_succ, ih]
    have hdepth : g.targetDepth ≤ depth :=
      Nat.le_of_succ_le (Nat.le_trans (Nat.le_max_left _ _) hd)
    rw [hpicks, List.eq_replicate_iff]
    constructor
    · intro hlays
      cases hlays with
      | sequence hmin hmax hall =>
        refine ⟨Nat.le_antisymm ?_ hmin, fun u hu => ?_⟩
        · exact hmax.resolve_right fun hmore => Nat.not_lt.2 hdepth hmore.2.1
        · exact (Option.some.inj (hpick.symm.trans ((hs.chooses_greedy hw hd).1 (hall u hu)))).symm
    · intro hts
      exact .sequence (Nat.le_of_eq hts.1.symm) (.inl (Nat.le_of_eq hts.1)) fun u hu =>
        (hts.2 u hu).symm ▸ ht
  | fields f =>
    have hfields : List.Forall₂ (fun field t => g.Chooses field.choice.types depth t)
        f.fields ts ↔ _ :=
      fields_greedy hw hd fun field hf => h _ (List.mem_map_of_mem hf)
    constructor
    · intro hlays
      cases hlays with
      | fields h => exact hfields.1 h
    · intro hts
      exact .fields (hfields.2 hts)

end Gen

end Wf

namespace Wellformed
open Wf

/-- The choices of the well-formedness definition are not empty. -/
def NonemptyChoices (wf : Wellformed) : Prop :=
  ∀ t shape, wf.find t = some shape → ∀ choice ∈ shape.choices, choice.types ≠ []

def Picks (wf : Wellformed) (known : TokenTerminalDistance) (t c : Token) : Prop :=
  ∃ shape, wf.find t = some shape ∧ c ∈ Gen.picks known shape

def generator (wf : Wellformed) (targetDepth : Nat) : Gen :=
  { tokenTerminalDistance := (wf.computeMinimumDistanceToTerminal targetDepth).getD []
    targetDepth := targetDepth }

/-- A node of a depth can have the children. A token without a shape has none. -/
inductive Expands (wf : Wellformed) (g : Gen) : Nat × Token → List (Nat × Token) → Prop
  | leaf (h : wf.find t = none) : Expands wf g (depth, t) []
  | node (h : wf.find t = some shape) (hts : g.Lays depth shape ts) :
    Expands wf g (depth, t) (ts.map (depth + 1, ·))

def Makes (wf : Wellformed) (g : Gen) (a b : Nat × Token) : Prop := Expansion (wf.Expands g) a b

variable {wf : Wellformed} {g : Gen}

/-- The generator has no weights, and handles the choices of the shapes. -/
structure Serves (wf : Wellformed) (g : Gen) : Prop where
  weights : g.tokenWeights = []
  handles : ∀ t shape, wf.find t = some shape → ∀ choice ∈ shape.choices, g.Handles choice

theorem generator_serves (h : wf.NonemptyChoices) (targetDepth : Nat) :
    wf.Serves (wf.generator targetDepth) := by
  obtain ⟨known, hr, hk⟩ := wf.computeMinimumDistanceToTerminal_complete targetDepth
  refine ⟨rfl, fun t shape hs choice hc => ⟨h t shape hs choice hc, fun u hu => ?_⟩⟩
  rw [generator, hr]
  exact hk t u ⟨shape, hs, choice, hc, hu⟩

theorem Serves.total (h : wf.Serves g) (a : Nat × Token) : ∃ succs, wf.Expands g a succs := by
  obtain ⟨depth, t⟩ := a
  cases hs : wf.find t with
  | none => exact ⟨[], .leaf hs⟩
  | some shape =>
    obtain ⟨ts, hts⟩ := Gen.exists_lays h.weights depth (h.handles t shape hs)
    exact ⟨_, .node hs hts⟩

theorem Serves.makes_greedy (h : wf.Serves g) (hd : g.greedyDepth ≤ depth) :
    wf.Makes g (depth, t) b ↔ b.1 = depth + 1 ∧ wf.Picks g.tokenTerminalDistance t b.2 := by
  constructor
  · intro hm
    obtain ⟨_, hexpands, hb⟩ := hm
    cases hexpands with
    | leaf => cases hb
    | node hs hts =>
      obtain ⟨c, hc, rfl⟩ := List.mem_map.1 hb
      rw [Gen.lays_greedy h.weights hd (h.handles t _ hs)] at hts
      exact ⟨rfl, _, hs, hts ▸ hc⟩
  · intro hp
    obtain ⟨hdepth, shape, hs, hc⟩ := hp
    refine ⟨_, .node hs ((Gen.lays_greedy h.weights hd (h.handles t _ hs)).2 rfl), ?_⟩
    exact List.mem_map.2 ⟨b.2, hc, Prod.ext hdepth.symm rfl⟩

theorem makes_depth (h : wf.Makes g a b) : b.1 = a.1 + 1 := by
  obtain ⟨_, hexpands, hb⟩ := h
  cases hexpands with
  | leaf => cases hb
  | node hs hts =>
    obtain ⟨c, _, rfl⟩ := List.mem_map.1 hb
    rfl

theorem Serves.acc_of_picks (h : wf.Serves g)
    (ht : Acc (fun x y => wf.Picks g.tokenTerminalDistance y x) t) (hd : g.greedyDepth ≤ depth) :
    Acc (fun x y => wf.Makes g y x) (depth, t) := by
  induction ht generalizing depth with
  | intro t _ ih =>
    refine .intro _ fun b hb => ?_
    obtain ⟨hdepth, hp⟩ := (h.makes_greedy hd).1 hb
    have hb' : b = (depth + 1, b.2) := Prod.ext hdepth rfl
    rw [hb']
    exact ih b.2 hp (Nat.le_succ_of_le hd)

theorem Serves.picks_of_acc (h : wf.Serves g) (ha : Acc (fun x y => wf.Makes g y x) a)
    (hd : g.greedyDepth ≤ a.1) : Acc (fun x y => wf.Picks g.tokenTerminalDistance y x) a.2 := by
  induction ha with
  | intro a _ ih =>
    refine .intro _ fun c hc => ?_
    exact ih (a.1 + 1, c) ((h.makes_greedy hd).2 ⟨rfl, hc⟩) (Nat.le_succ_of_le hd)

theorem acc_of_greedy (hd : depth ≤ n) (h : ∀ t, ReflTransGen (wf.Makes g) (depth, u) (n, t) →
    Acc (fun x y => wf.Makes g y x) (n, t)) : Acc (fun x y => wf.Makes g y x) (depth, u) := by
  induction hd using Nat.decreasingInduction generalizing u with
  | self => exact h u .refl
  | of_succ k hk ih =>
    refine .intro _ fun b hb => ?_
    have hb' : b = (k + 1, b.2) := Prod.ext (makes_depth hb) rfl
    rw [hb'] at hb ⊢
    exact ih fun t ht => h t (.head hb ht)

theorem hasType_of_picks (h : wf.Picks known t c) : wf.HasType t c := by
  obtain ⟨shape, hs, hc⟩ := h
  have hpick {choices : List Choice} (hc : c ∈ choices.filterMap fun a => pick known a.types) :
      ∃ choice ∈ choices, c ∈ choice.types := by
    obtain ⟨choice, hm, hc⟩ := List.mem_filterMap.1 hc
    exact ⟨choice, hm, List.mem_of_find?_eq_some hc⟩
  cases shape with
  | sequence s =>
    obtain ⟨choice, hm, hc⟩ := hpick hc
    exact ⟨_, hs, choice, List.mem_singleton.2 (List.eq_of_mem_replicate hm), hc⟩
  | fields f =>
    obtain ⟨choice, hm, hc⟩ := hpick hc
    exact ⟨_, hs, choice, hm, hc⟩

theorem hasType_mem (h : wf.HasType t c) :
    c ∈ wf.shapes.flatMap fun e => e.2.choices.flatMap Choice.types := by
  obtain ⟨shape, hs, choice, hm, hc⟩ := h
  obtain ⟨before, after, he, _⟩ := List.lookup_eq_some_iff.1 hs
  have hentry : (t, shape) ∈ wf.shapes := he ▸ List.mem_append_right _ List.mem_cons_self
  exact List.mem_flatMap.2 ⟨_, hentry, List.mem_flatMap.2 ⟨choice, hm, hc⟩⟩

theorem picks_finite (wf : Wellformed) (known : TokenTerminalDistance) (t : Token) :
    {u | ReflTransGen (wf.Picks known) t u}.Finite := by
  let types := t :: wf.shapes.flatMap fun e => e.2.choices.flatMap Choice.types
  apply types.finite_toSet.subset
  intro u hu
  cases hu with
  | refl => exact List.mem_cons_self
  | tail _ hp => exact List.mem_cons_of_mem _ (hasType_mem (hasType_of_picks hp))

/-- Every tree is finite exactly when no greedy choice leads into a cycle. -/
theorem Serves.stackEnds_iff (h : wf.Serves g) :
    StackEnds (wf.Expands g) [(0, .top)] ↔
      ∀ t, ReflTransGen (wf.Makes g) (0, .top) (g.greedyDepth, t) →
        ¬ CycleFrom (wf.Picks g.tokenTerminalDistance) t := by
  rw [stackEnds_singleton h.total]
  constructor
  · intro hacc t ht
    exact not_cycleFrom_of_acc (h.picks_of_acc (acc_reaches hacc ht) (Nat.le_refl _))
  · intro hcycle
    exact acc_of_greedy (Nat.zero_le _) fun t ht =>
      h.acc_of_picks (acc_of_not_cycleFrom (wf.picks_finite _ t) (hcycle t ht)) (Nat.le_refl _)

/-- Some finite tree of the token is well-formed. -/
inductive Derives (wf : Wellformed) : Token → Prop
  | leaf {t : Token} (h : wf.find t = none) : Derives wf t
  | empty {t : Token} {s : Sequence} (h : wf.find t = some (.sequence s)) (hmin : s.minLen = 0) :
    Derives wf t
  | sequence {t c : Token} {s : Sequence} (h : wf.find t = some (.sequence s))
    (hc : c ∈ s.choice.types) (hd : Derives wf c) : Derives wf t
  | fields {t : Token} {f : Fields} (child : Field → Token) (h : wf.find t = some (.fields f))
    (hc : ∀ field ∈ f.fields, child field ∈ field.choice.types)
    (hd : ∀ field ∈ f.fields, Derives wf (child field)) : Derives wf t

end Wellformed

end Trieste
