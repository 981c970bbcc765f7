import Trieste.Regex.Tree
import Trieste.Regex.Language

namespace Trieste.Regex
set_option autoImplicit true
open Library Relation

def growth (label : Nat) : Int :=
  if label = catenation ∨ label = alternation then -1
  else if (quantifier? label).isSome ∨ captureGroup ≤ label ∧ label < captureGroup + maxCaptures then 0
  else 1

def totalGrowth (tokens : List Nat) : Int := (tokens.map growth).sum

theorem totalGrowth_append (xs ys : List Nat) :
    totalGrowth (xs ++ ys) = totalGrowth xs + totalGrowth ys := by
  rw [totalGrowth, List.map_append, List.sum_append, totalGrowth, totalGrowth]

theorem totalGrowth_singleton (label : Nat) : totalGrowth [label] = growth label := by
  rw [totalGrowth, List.map_singleton, List.sum_singleton]

theorem length_pushToken {stack stack' : List Regexp}
    (h : Regexp.pushToken stack label = some stack') :
    (stack'.length : Int) = stack.length + growth label := by
  unfold Regexp.pushToken at h
  unfold growth
  split at h
  · rename_i hcat
    rw [if_pos (.inl hcat)]
    split at h
    · cases h
      simp
    · cases h
  rename_i hcat
  split at h
  · rename_i halt
    rw [if_pos (.inr halt)]
    split at h
    · cases h
      simp
    · cases h
  rename_i halt
  rw [if_neg (not_or.2 ⟨hcat, halt⟩)]
  split at h
  · rename_i hquantifier
    cases h
    rw [if_pos (.inl (by rw [hquantifier]; rfl)), Int.add_zero]
    rfl
  · rename_i hquantifier
    cases h
    rw [if_pos (.inl (by rw [hquantifier]; rfl)), Int.add_zero]
    rfl
  · rename_i hquantifier
    cases h
    rw [if_pos (.inl (by rw [hquantifier]; rfl)), Int.add_zero]
    rfl
  · cases h
  rename_i hquantifier
  split at h
  · rename_i hgroup
    rw [if_pos (.inr hgroup), Int.add_zero]
    split at h
    · cases h
      rfl
    · cases h
  rename_i hgroup
  have hnone : ¬ (quantifier? label).isSome := by
    rw [hquantifier]
    exact Bool.false_ne_true
  rw [if_neg (not_or.2 ⟨hnone, hgroup⟩)]
  split at h
  · cases h
    rfl
  split at h
  · cases h
    rfl
  split at h
  · cases h
    rfl
  split at h
  · cases h
    rfl
  · cases h
    rfl

/-- A sequence denotes a tree only if it makes the stack one tree long. -/
theorem totalGrowth_of_ofPostfix {stack : List Regexp}
    (h : Regexp.ofPostfix stack tokens = some p) : stack.length + totalGrowth tokens = 1 := by
  induction tokens generalizing stack with
  | nil =>
    unfold Regexp.ofPostfix at h
    split at h
    · rfl
    · cases h
  | cons label tokens ih =>
    obtain ⟨stack', hpush, hrest⟩ := Option.bind_eq_some_iff.1 h
    have hlen := length_pushToken hpush
    have hrest := ih hrest
    rw [totalGrowth, List.map_cons, List.sum_cons, ← totalGrowth]
    omega

def Pushes (tokens : List Nat) (p : Regexp) : Prop :=
  ∀ stack rest, Regexp.ofPostfix stack (tokens ++ rest) = Regexp.ofPostfix (p :: stack) rest

theorem Pushes.binary (hp : Pushes xs p) (hq : Pushes ys q)
    (hlabel : ∀ stack, Regexp.pushToken (q :: p :: stack) label = some (r :: stack)) :
    Pushes (xs ++ ys ++ [label]) r := by
  intro stack rest
  rw [List.append_assoc, List.append_assoc, hp, hq, List.singleton_append, Regexp.ofPostfix, hlabel]
  rfl

theorem Pushes.unary (hp : Pushes xs p)
    (hlabel : ∀ stack, Regexp.pushToken (p :: stack) label = some (q :: stack)) :
    Pushes (xs ++ [label]) q := by
  intro stack rest
  rw [List.append_assoc, hp, List.singleton_append, Regexp.ofPostfix, hlabel]
  rfl

theorem Pushes.ofPostfix (h : Pushes tokens p) : Regexp.ofPostfix [] tokens = some p := by
  have hrest := h [] []
  rw [List.append_nil] at hrest
  exact hrest

/-- Tokens of a tree with a property, or too few of them for any tree. -/
structure Segment (P : Regexp → Prop) (tokens : List Nat) : Prop where
  growth : totalGrowth tokens ≤ 1
  pushes : totalGrowth tokens = 1 → ∃ p, Pushes tokens p ∧ P p

section Segments
variable {P Q R : Regexp → Prop}

theorem Segment.imp (h : Segment P tokens) (himp : ∀ p, P p → Q p) : Segment Q tokens := by
  refine ⟨h.growth, fun hone => ?_⟩
  obtain ⟨p, hpush, hp⟩ := h.pushes hone
  exact ⟨p, hpush, himp p hp⟩

theorem Segment.nil : Segment P [] :=
  ⟨by decide, fun h => absurd h (by decide)⟩

theorem Segment.binary (hx : Segment P xs) (hy : Segment Q ys) (hgrowth : Regex.growth label = -1)
    (hlabel : ∀ p q, P p → Q q → ∃ r, R r ∧
      ∀ stack, Regexp.pushToken (q :: p :: stack) label = some (r :: stack)) :
    Segment R (xs ++ ys ++ [label]) := by
  have hgx := hx.growth
  have hgy := hy.growth
  have htotal : totalGrowth (xs ++ ys ++ [label]) = totalGrowth xs + totalGrowth ys - 1 := by
    rw [totalGrowth_append, totalGrowth_append, totalGrowth_singleton, hgrowth]
    rfl
  constructor
  · omega
  · intro hone
    obtain ⟨p, hpush, hp⟩ := hx.pushes (by omega)
    obtain ⟨q, hpush', hq⟩ := hy.pushes (by omega)
    obtain ⟨r, hr, hlabel⟩ := hlabel p q hp hq
    exact ⟨r, hpush.binary hpush' hlabel, hr⟩

theorem Segment.unary (hx : Segment P xs) (hgrowth : Regex.growth label = 0)
    (hlabel : ∀ p, P p → ∃ q, Q q ∧
      ∀ stack, Regexp.pushToken (p :: stack) label = some (q :: stack)) :
    Segment Q (xs ++ [label]) := by
  have hgx := hx.growth
  have htotal : totalGrowth (xs ++ [label]) = totalGrowth xs := by
    rw [totalGrowth_append, totalGrowth_singleton, hgrowth, Int.add_zero]
  constructor
  · omega
  · intro hone
    obtain ⟨p, hpush, hp⟩ := hx.pushes (by omega)
    obtain ⟨q, hq, hlabel⟩ := hlabel p hp
    exact ⟨q, hpush.unary hlabel, hq⟩

theorem Segment.cat (hx : Segment P xs) (hy : Segment Q ys)
    (hcat : ∀ p q, P p → Q q → R (.cat p q)) : Segment R (xs ++ ys ++ [catenation]) :=
  hx.binary hy rfl fun p q hp hq => ⟨_, hcat p q hp hq, fun _ => rfl⟩

/-- An alternative that is missing leaves too few tokens. -/
theorem Segment.short (hx : Segment P xs) (hgrowth : Regex.growth label = -1) :
    Segment Q (xs ++ [label]) := by
  have hgx := hx.growth
  have htotal : totalGrowth (xs ++ [label]) = totalGrowth xs - 1 := by
    rw [totalGrowth_append, totalGrowth_singleton, hgrowth]
    rfl
  exact ⟨by omega, fun h => by omega⟩

end Segments

/-- The groups have numbers in a range, and each has one body, which does not contain the group. -/
structure Regexp.Numbered (lo hi : Nat) (p : Regexp) : Prop where
  range : ∀ index q, q ∈ p.bodies index → lo ≤ index ∧ index < hi
  flat : ∀ index, ∀ q ∈ p.bodies index, q.bodies index = []
  same : ∀ index, ∀ q ∈ p.bodies index, ∀ q' ∈ p.bodies index, q = q'

namespace Regexp

theorem Numbered.of_subset {p q : Regexp} (h : p.Numbered lo hi)
    (hsub : ∀ index, ∀ r ∈ q.bodies index, r ∈ p.bodies index) : q.Numbered lo hi :=
  ⟨fun index r hr => h.range index r (hsub index r hr), fun index r hr => h.flat index r (hsub index r hr),
    fun index r hr r' hr' => h.same index r (hsub index r hr) r' (hsub index r' hr')⟩

theorem Numbered.mono {p : Regexp} (h : p.Numbered lo hi) (hlo : lo' ≤ lo) (hhi : hi ≤ hi') :
    p.Numbered lo' hi' := by
  refine ⟨fun index q hq => ?_, h.flat, h.same⟩
  obtain ⟨hl, hh⟩ := h.range index q hq
  exact ⟨hlo.trans hl, hh.trans_le hhi⟩

theorem numbered_of_bodies {p : Regexp} (h : ∀ index, p.bodies index = []) : p.Numbered lo hi := by
  constructor
  · intro index q hq
    rw [h] at hq
    exact absurd hq List.not_mem_nil
  · intro index q hq
    rw [h] at hq
    exact absurd hq List.not_mem_nil
  · intro index q hq
    rw [h] at hq
    exact absurd hq List.not_mem_nil

/-- Two trees side by side, the numbers of the first one before those of the second one. -/
theorem Numbered.beside {p q r : Regexp} (hp : p.Numbered lo m) (hq : q.Numbered m hi)
    (hlo : lo ≤ m) (hhi : m ≤ hi) (hr : ∀ index, r.bodies index = p.bodies index ++ q.bodies index) :
    r.Numbered lo hi := by
  have hcases : ∀ index s, s ∈ r.bodies index → s ∈ p.bodies index ∨ s ∈ q.bodies index := by
    intro index s hs
    rw [hr] at hs
    exact List.mem_append.1 hs
  constructor
  · intro index s hs
    rcases hcases index s hs with hs | hs
    · obtain ⟨hl, hh⟩ := hp.range index s hs
      exact ⟨hl, hh.trans_le hhi⟩
    · obtain ⟨hl, hh⟩ := hq.range index s hs
      exact ⟨hlo.trans hl, hh⟩
  · intro index s hs
    rcases hcases index s hs with hs | hs
    · exact hp.flat index s hs
    · exact hq.flat index s hs
  · intro index s hs s' hs'
    rcases hcases index s hs with hs | hs
    · rcases hcases index s' hs' with hs' | hs'
      · exact hp.same index s hs s' hs'
      · have hlt := (hp.range index s hs).2
        have hge := (hq.range index s' hs').1
        omega
    · rcases hcases index s' hs' with hs' | hs'
      · have hge := (hq.range index s hs).1
        have hlt := (hp.range index s' hs').2
        omega
      · exact hq.same index s hs s' hs'

/-- A group around a tree whose groups have greater numbers. -/
theorem Numbered.capture {p : Regexp} (h : p.Numbered (number + 1) hi) (hnumber : number < hi) :
    (capture number p).Numbered number hi := by
  have hnone : p.bodies number = [] := by
    rw [List.eq_nil_iff_forall_not_mem]
    intro q hq
    exact absurd (h.range number q hq).1 (Nat.not_succ_le_self _)
  have hown : (Regexp.capture number p).bodies number = [p] := by
    rw [bodies, if_pos rfl, hnone]
  have hother : ∀ index, number ≠ index → (Regexp.capture number p).bodies index = p.bodies index := by
    intro index hne
    rw [bodies, if_neg hne]
  constructor
  · intro index q hq
    by_cases heq : number = index
    · subst heq
      exact ⟨Nat.le_refl _, hnumber⟩
    · rw [hother index heq] at hq
      obtain ⟨hl, hh⟩ := h.range index q hq
      exact ⟨(Nat.le_succ _).trans hl, hh⟩
  · intro index q hq
    by_cases heq : number = index
    · subst heq
      rw [hown] at hq
      rw [List.mem_singleton.1 hq]
      exact hnone
    · rw [hother index heq] at hq
      exact h.flat index q hq
  · intro index q hq q' hq'
    by_cases heq : number = index
    · subst heq
      rw [hown] at hq hq'
      rw [List.mem_singleton.1 hq, List.mem_singleton.1 hq']
    · rw [hother index heq] at hq hq'
      exact h.same index q hq q' hq'

end Regexp
/-- A token that pushes a tree without groups. -/
structure IsAtom (label : Nat) : Prop where
  growth : growth label = 1
  pushes : ∃ q : Regexp, (∀ index, q.bodies index = []) ∧
    ∀ stack, Regexp.pushToken stack label = some (q :: stack)

theorem quantifier?_of_lt (h : label < captureGroup) : quantifier? label = none := by
  unfold captureGroup at h
  unfold quantifier? zeroOrOne lazyZeroOrOne zeroOrMore lazyZeroOrMore oneOrMore lazyOneOrMore
  rw [if_neg (by omega), if_neg (by omega), if_neg (by omega)]

theorem quantifier?_of_ge (h : runeClassBase ≤ label) : quantifier? label = none := by
  unfold runeClassBase at h
  unfold quantifier? zeroOrOne lazyZeroOrOne zeroOrMore lazyZeroOrMore oneOrMore lazyOneOrMore
  rw [if_neg (by omega), if_neg (by omega), if_neg (by omega)]

theorem isAtom_of (hop : ¬ (label = catenation ∨ label = alternation))
    (hquantifier : quantifier? label = none)
    (hgroup : ¬ (captureGroup ≤ label ∧ label < captureGroup + maxCaptures)) : IsAtom label := by
  obtain ⟨hcat, halt⟩ := not_or.1 hop
  have hnone : ¬ ((quantifier? label).isSome = true ∨
      captureGroup ≤ label ∧ label < captureGroup + maxCaptures) := by
    rw [hquantifier]
    exact not_or.2 ⟨Bool.false_ne_true, hgroup⟩
  refine ⟨by rw [growth, if_neg hop, if_neg hnone], ?_⟩
  have hpush : ∀ stack, Regexp.pushToken stack label =
      some ((if label = startAnchor then Regexp.startAnchor else if label = endAnchor then .endAnchor
        else if label = wordBoundary then .wordBoundary
        else if runeClassBase ≤ label then .classRef (label - runeClassBase)
        else .literal label) :: stack) := by
    intro stack
    unfold Regexp.pushToken
    rw [if_neg hcat, if_neg halt, hquantifier]
    dsimp only
    rw [if_neg hgroup]
    repeat' split
    all_goals rfl
  refine ⟨_, fun index => ?_, hpush⟩
  repeat' split
  all_goals rfl

theorem isAtom_rune (h : label < captureGroup) : IsAtom label := by
  have hquantifier := quantifier?_of_lt h
  apply isAtom_of ?_ hquantifier
  · exact fun hg => absurd hg.1 (Nat.not_le.2 h)
  · unfold captureGroup at h
    unfold catenation alternation
    omega

theorem isAtom_classRef (h : runeClassBase ≤ label) : IsAtom label := by
  have hquantifier := quantifier?_of_ge h
  unfold runeClassBase at h
  apply isAtom_of ?_ hquantifier
  · unfold captureGroup maxCaptures
    omega
  · unfold catenation alternation
    omega

theorem isAtom_assertion (h : label ∈ [startAnchor, endAnchor, wordBoundary]) : IsAtom label := by
  simp only [List.mem_cons, List.not_mem_nil, or_false] at h
  rcases h with rfl | rfl | rfl
  · exact ⟨rfl, .startAnchor, fun _ => rfl, fun _ => rfl⟩
  · exact ⟨rfl, .endAnchor, fun _ => rfl, fun _ => rfl⟩
  · exact ⟨rfl, .wordBoundary, fun _ => rfl, fun _ => rfl⟩

theorem quantifier?_capture (h : number < maxCaptures) :
    quantifier? (captureGroup + number) = none := by
  unfold maxCaptures at h
  unfold quantifier? captureGroup zeroOrOne lazyZeroOrOne zeroOrMore lazyZeroOrMore oneOrMore
    lazyOneOrMore
  rw [if_neg (by omega), if_neg (by omega), if_neg (by omega)]

theorem capture_ne_operator (h : number < maxCaptures) :
    ¬ (captureGroup + number = catenation ∨ captureGroup + number = alternation) := by
  unfold maxCaptures at h
  unfold captureGroup catenation alternation
  omega

theorem growth_capture (h : number < maxCaptures) : growth (captureGroup + number) = 0 := by
  rw [growth, if_neg (capture_ne_operator h),
    if_pos (.inr ⟨Nat.le_add_right .., Nat.add_lt_add_left h _⟩)]

theorem pushToken_capture (h : number < maxCaptures) (p : Regexp) (stack : List Regexp) :
    Regexp.pushToken (p :: stack) (captureGroup + number) = some (.capture number p :: stack) := by
  obtain ⟨hcat, halt⟩ := not_or.1 (capture_ne_operator h)
  unfold Regexp.pushToken
  rw [if_neg hcat, if_neg halt, quantifier?_capture h]
  dsimp only
  rw [if_pos ⟨Nat.le_add_right .., Nat.add_lt_add_left h _⟩, Nat.add_sub_cancel_left]

theorem IsAtom.segment (h : IsAtom label) : Segment (Regexp.Numbered lo hi) [label] := by
  obtain ⟨hgrowth, q, hq, hpush⟩ := h
  refine ⟨by rw [totalGrowth_singleton, hgrowth], fun _ => ⟨q, ?_, Regexp.numbered_of_bodies hq⟩⟩
  intro stack rest
  rw [List.singleton_append, Regexp.ofPostfix, hpush]
  rfl
/-- The sequences one after the other, each but the first with a catenation behind it. -/
def chain : List (List Nat) → List Nat
  | [] => []
  | x :: xs => x ++ xs.flatMap (· ++ [catenation])

theorem chain_append (hx : xs ≠ []) (ys : List (List Nat)) :
    chain (xs ++ ys) = chain xs ++ ys.flatMap (· ++ [catenation]) := by
  cases xs with
  | nil => exact absurd rfl hx
  | cons x xs => rw [List.cons_append, chain, chain, List.flatMap_append, List.append_assoc]

theorem flatMap_range (k : Nat) (x : List Nat) :
    (List.range k).flatMap (fun _ => x ++ [catenation]) =
      (List.replicate k x).flatMap (· ++ [catenation]) := by
  induction k with
  | zero => rfl
  | succ k ih =>
    rw [List.range_succ, List.flatMap_append, ih, List.replicate_succ', List.flatMap_append]
    rfl

theorem chain_replicate (k : Nat) (x : List Nat) :
    (List.range k).flatMap (fun i => x ++ if 0 < i then [catenation] else []) =
      chain (List.replicate k x) := by
  cases k with
  | zero => rfl
  | succ k =>
    rw [List.range_succ_eq_map, List.flatMap_cons, List.flatMap_map, List.replicate_succ, chain,
      ← flatMap_range]
    simp

/-- The copies with what is behind the atom in each. -/
def copies (atom : List Nat) (n : Nat) (m : Option Nat) : List (List Nat) :=
  List.replicate n atom ++
    match m with
    | none => [atom ++ [zeroOrMore]]
    | some m => List.replicate (m - n) (atom ++ [zeroOrOne])

theorem expansion_eq (atom : List Nat) (n : Nat) (m : Option Nat) :
    PostfixBuilder.expansion atom n m = chain (copies atom n m) := by
  unfold PostfixBuilder.expansion copies
  rw [chain_replicate]
  cases n with
  | zero =>
    cases m with
    | none => simp [chain]
    | some m =>
      have h := chain_replicate (m - 0) (atom ++ [zeroOrOne])
      simpa [chain] using h
  | succ n =>
    have hne : List.replicate (n + 1) atom ≠ [] := by simp
    rw [chain_append hne]
    cases m with
    | none => simp
    | some m =>
      have h := flatMap_range (m - (n + 1)) (atom ++ [zeroOrOne])
      simpa using h

theorem segment_chain {P : Regexp → Prop} (hcat : ∀ p q, P p → P q → P (.cat p q))
    (hx : Segment P x) (hxs : ∀ y ∈ xs, Segment P y) : Segment P (chain (x :: xs)) := by
  induction xs generalizing x with
  | nil =>
    rw [chain, List.flatMap_nil, List.append_nil]
    exact hx
  | cons y xs ih =>
    have hchain : chain (x :: y :: xs) = chain ((x ++ y ++ [catenation]) :: xs) := by
      simp [chain]
    rw [hchain]
    apply ih
    · exact hx.cat (hxs y (.head _)) hcat
    · exact fun z hz => hxs z (.tail _ hz)

theorem segment_copies {P : Regexp → Prop} (hcat : ∀ p q, P p → P q → P (.cat p q))
    (hmore : ∀ p, P p → P (.zeroOrMore false p)) (hone : ∀ p, P p → P (.zeroOrOne false p))
    (hatom : Segment P atom) (hnm : ¬ (n = 0 ∧ m = some 0)) (hle : ∀ k, m = some k → n ≤ k) :
    Segment P (PostfixBuilder.expansion atom n m) := by
  rw [expansion_eq]
  have hcopies : ∀ y ∈ copies atom n m, Segment P y := by
    intro y hy
    rcases List.mem_append.1 hy with hy | hy
    · rw [List.eq_of_mem_replicate hy]
      exact hatom
    · cases m with
      | none =>
        rw [List.mem_singleton.1 hy]
        exact hatom.unary rfl fun p hp => ⟨_, hmore p hp, fun _ => rfl⟩
      | some m =>
        rw [List.eq_of_mem_replicate hy]
        exact hatom.unary rfl fun p hp => ⟨_, hone p hp, fun _ => rfl⟩
  have hne : copies atom n m ≠ [] := by
    unfold copies
    cases m with
    | none => simp
    | some k =>
      have hk := hle k rfl
      have hpos : ¬ (n = 0 ∧ k - n = 0) := by
        intro h
        obtain ⟨rfl, hzero⟩ := h
        exact hnm ⟨rfl, congrArg some hzero⟩
      simpa using hpos
  cases hc : copies atom n m with
  | nil => exact absurd hc hne
  | cons x xs =>
    rw [hc] at hcopies
    exact segment_chain hcat (hcopies x (.head _)) fun y hy => hcopies y (.tail _ hy)

theorem segment_expansion (hatom : Segment (Regexp.Numbered lo hi) atom)
    (hnm : ¬ (n = 0 ∧ m = some 0)) (hle : ∀ k, m = some k → n ≤ k) :
    Segment (Regexp.Numbered lo hi) (PostfixBuilder.expansion atom n m) := by
  by_cases hone : totalGrowth atom = 1
  · obtain ⟨t, hpush, ht⟩ := hatom.pushes hone
    have hsegment : Segment (fun p => ∀ index, ∀ r ∈ p.bodies index, r ∈ t.bodies index) atom :=
      ⟨hatom.growth, fun _ => ⟨t, hpush, fun _ _ hr => hr⟩⟩
    apply (segment_copies ?_ (fun p hp => hp) (fun p hp => hp) hsegment hnm hle).imp
    · exact fun p hp => ht.of_subset hp
    · intro p q hp hq index r hr
      rcases List.mem_append.1 hr with hr | hr
      · exact hp index r hr
      · exact hq index r hr
  · have hsegment : Segment (fun _ => False) atom :=
      ⟨hatom.growth, fun h => absurd h hone⟩
    apply (segment_copies (fun _ _ hp _ => hp) (fun _ hp => hp) (fun _ hp => hp) hsegment hnm hle).imp
    exact fun _ hp => hp.elim
end Trieste.Regex
