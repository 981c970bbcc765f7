import Mathlib.Data.List.Forall2
import Trieste.Rewrite.Runs

namespace Trieste
set_option autoImplicit true
open PatternItem

variable {N : Type}

namespace StackedIterator

/-- The nodes that a walk visits after the current one. -/
def behind : StackedIterator → List Reified
  | [] => []
  | group :: it => group.tail ++ behind it

def remaining : StackedIterator → List Reified
  | [] => []
  | group :: it => group ++ behind it

theorem remaining_next (it : StackedIterator) : it.next.remaining = it.behind := by
  induction it with
  | nil => rfl
  | cons group it ih =>
    simp only [next, behind]
    cases group.tail with
    | nil => exact ih
    | cons node rest => rfl

theorem remaining_push (it : StackedIterator) (group : List Reified) :
    (it.push group).remaining = group ++ it.behind := rfl

theorem get_eq {it : StackedIterator} {x : Reified} (h : it.get = some x) :
    it.remaining = x :: it.behind := by
  rcases it with _ | ⟨_ | ⟨_, rest⟩, it⟩
  · cases h
  · cases h
  · cases h
    rfl

end StackedIterator

/-- The objects of a chain with the objects of its captures in their place. -/
def PatternDef.flat : PatternDef N → List (PatternItem N)
  | null => []
  | cap _ p k => p.flat ++ k.flat
  | anything k => .anything :: k.flat
  | tokenMatch types k => .tokenMatch types :: k.flat
  | regexMatch type re k => .regexMatch type re :: k.flat
  | opt p k => .opt p :: k.flat
  | rep p k => .rep p :: k.flat
  | not p k => .not p :: k.flat
  | choice c p q k => .choice c p q :: k.flat
  | insideStar types k => .insideStar types :: k.flat
  | inside types k => .inside types :: k.flat
  | first k => .first :: k.flat
  | last => [.last]
  | children p c k => .children p c :: k.flat
  | pred p k => .pred p :: k.flat
  | negPred p k => .negPred p :: k.flat
  | action f p k => .action f p :: k.flat

namespace PatternItem

def flat : PatternItem N → List (PatternItem N)
  | cap _ p => p.flat
  | x => [x]

def flats (xs : List (PatternItem N)) : List (PatternItem N) := xs.flatMap flat

@[simp] theorem flats_nil : flats ([] : List (PatternItem N)) = [] := rfl

@[simp] theorem flats_cons (x : PatternItem N) (xs : List (PatternItem N)) :
    flats (x :: xs) = x.flat ++ flats xs := List.flatMap_cons

@[simp] theorem flats_append (xs ys : List (PatternItem N)) :
    flats (xs ++ ys) = flats xs ++ flats ys := List.flatMap_append

end PatternItem

theorem PatternDef.flats_items (p : PatternDef N) : flats p.items = p.flat := by
  induction p with
  | null | last => rfl
  | anything _ ih | tokenMatch _ _ ih | regexMatch _ _ _ ih | insideStar _ _ ih | inside _ _ ih
  | first _ ih | cap _ _ _ _ ih | opt _ _ _ ih | rep _ _ _ ih | not _ _ _ ih
  | choice _ _ _ _ _ _ ih | children _ _ _ _ _ ih | pred _ _ _ ih | negPred _ _ _ ih
  | action _ _ _ _ ih => simp only [items, flats_cons, ih, PatternItem.flat, flat, List.cons_append,
      List.nil_append]

theorem PatternDef.run_flat (v : NodeView N) (p : PatternDef N) (fuel : Nat) (parent : N) :
    runs v fuel parent p.flat = p.run v fuel parent := by
  induction p with
  | null => rfl
  | last => exact Run.andThen_skip _
  | cap _ p k ihp ihk => rw [flat, runs_append, ihp, ihk, run]
  | anything _ ih | tokenMatch _ _ ih | regexMatch _ _ _ ih | insideStar _ _ ih | inside _ _ ih
  | first _ ih | opt _ _ _ ih | rep _ _ _ ih | not _ _ _ ih
  | choice _ _ _ _ _ _ ih | children _ _ _ _ _ ih | pred _ _ _ ih | negPred _ _ _ ih
  | action _ _ _ _ ih => rw [flat, runs, ih, run, PatternItem.run]

theorem PatternDef.multiplicity_flat (p : PatternDef N) :
    groupMultiplicity .zero (p.flat.map node) = groupMultiplicity .zero p.reify := by
  induction p with
  | null | last => rfl
  | cap _ p k ihp ihk =>
    rw [flat, List.map_append, groupMultiplicity_append, ihp, ihk, reify, groupMultiplicity_cons,
      Reified.multiplicity]
  | anything _ ih | tokenMatch _ _ ih | regexMatch _ _ _ ih | insideStar _ _ ih | inside _ _ ih
  | first _ ih | opt _ _ _ ih | rep _ _ _ ih | not _ _ _ ih
  | choice _ _ _ _ _ _ ih | children _ _ _ _ _ ih | pred _ _ _ ih | negPred _ _ _ ih
  | action _ _ _ _ ih =>
    rw [flat, List.map_cons, groupMultiplicity_cons, ih, reify, groupMultiplicity_cons, node]

namespace PatternItem

theorem run_flat (v : NodeView N) (x : PatternItem N) (fuel : Nat) (parent : N) :
    runs v fuel parent x.flat = x.run v fuel parent := by
  cases x with
  | cap name p => exact p.run_flat v fuel parent
  | _ => exact Run.andThen_skip _

theorem runs_flats (v : NodeView N) (xs : List (PatternItem N)) (fuel : Nat) (parent : N) :
    runs v fuel parent (flats xs) = runs v fuel parent xs := by
  induction xs with
  | nil => rfl
  | cons x xs ih => rw [flats_cons, runs_append, run_flat, ih, runs]

theorem multiplicity_flat (x : PatternItem N) :
    groupMultiplicity .zero (x.flat.map node) = x.node.multiplicity := by
  cases x with
  | cap name p => exact p.multiplicity_flat
  | _ => exact groupMultiplicity_singleton _

end PatternItem

theorem PatternItem.flat_of_not_cap {x : PatternItem N} (hx : ∀ name p, x ≠ .cap name p) :
    x.flat = [x] := by
  cases x with
  | cap name p => exact absurd rfl (hx name p)
  | _ => rfl

/-- Two objects that the checker passes over together; `R` compares the patterns inside them. -/
inductive Pairs (R : List (PatternItem N) → List (PatternItem N) → Prop) :
    PatternItem N → PatternItem N → Prop
  | inside (types types' : List Token) (h : types' ⊆ types) :
    Pairs R (.inside types) (.inside types')
  | insideStar (types types' : List Token) (h : types' ⊆ types) :
    Pairs R (.insideStar types) (.insideStar types')
  | first : Pairs R .first .first
  | last : Pairs R .last .last
  | tokenMatch (types : List Token) (y : PatternItem N) (hy : ∀ name p, y ≠ .cap name p)
    (hne : y.node.onlyTokens ≠ []) (h : y.node.onlyTokens ⊆ types) : Pairs R (.tokenMatch types) y
  | children (p c q d : PatternDef N) (hp : R p.items q.items) (hc : R c.items d.items) :
    Pairs R (.children p c) (.children q d)
  | any (y : PatternItem N) (hy : y.node.multiplicity = .one) : Pairs R .anything y
  | rep (p q : PatternDef N) (h : R p.items q.items) (h' : R q.items p.items) :
    Pairs R (.rep p) (.rep q)
  | opt (p q : PatternDef N) (h : R p.items q.items) (h' : R q.items p.items) :
    Pairs R (.opt p) (.opt q)

/-- The walk over the objects of a prefix and of a pattern. -/
inductive Includes (R : List (PatternItem N) → List (PatternItem N) → Prop) :
    List (PatternItem N) → List (PatternItem N) → Prop
  | nil (ys : List (PatternItem N)) : Includes R [] ys
  | prefixCap (name : Token) (p : PatternDef N) (xs ys : List (PatternItem N))
    (h : Includes R (p.items ++ xs) ys) : Includes R (.cap name p :: xs) ys
  | patternCap (name : Token) (q : PatternDef N) (xs ys : List (PatternItem N))
    (h : Includes R xs (q.items ++ ys)) : Includes R xs (.cap name q :: ys)
  | skip (y : PatternItem N) (xs ys : List (PatternItem N)) (hy : y.node.multiplicity = .zero)
    (h : Includes R xs ys) : Includes R xs (y :: ys)
  | pair (x y : PatternItem N) (xs ys : List (PatternItem N)) (hxy : Pairs R x y)
    (h : Includes R xs ys) : Includes R (x :: xs) (y :: ys)

def IncludesUpTo : Nat → List (PatternItem N) → List (PatternItem N) → Prop
  | 0 => fun _ _ => False
  | n + 1 => Includes (IncludesUpTo n)

section
variable {R R' : List (PatternItem N) → List (PatternItem N) → Prop}

theorem Pairs.mono (hR : ∀ xs ys, R xs ys → R' xs ys) (h : Pairs R x y) : Pairs R' x y := by
  cases h with
  | inside types types' h => exact .inside types types' h
  | insideStar types types' h => exact .insideStar types types' h
  | first => exact .first
  | last => exact .last
  | tokenMatch types y hy hne h => exact .tokenMatch types y hy hne h
  | children p c q d hp hc => exact .children p c q d (hR _ _ hp) (hR _ _ hc)
  | any y hy => exact .any y hy
  | rep p q h h' => exact .rep p q (hR _ _ h) (hR _ _ h')
  | opt p q h h' => exact .opt p q (hR _ _ h) (hR _ _ h')

theorem Includes.mono (hR : ∀ xs ys, R xs ys → R' xs ys) (h : Includes R xs ys) :
    Includes R' xs ys := by
  induction h with
  | nil ys => exact .nil ys
  | prefixCap name p xs ys _ ih => exact .prefixCap name p xs ys ih
  | patternCap name q xs ys _ ih => exact .patternCap name q xs ys ih
  | skip y xs ys hy _ ih => exact .skip y xs ys hy ih
  | pair x y xs ys hxy _ ih => exact .pair x y xs ys (hxy.mono hR) ih

theorem IncludesUpTo.succ (n : Nat) {xs ys : List (PatternItem N)} (h : IncludesUpTo n xs ys) :
    IncludesUpTo (n + 1) xs ys := by
  induction n generalizing xs ys with
  | zero => exact h.elim
  | succ n ih => exact Includes.mono (fun _ _ h => ih h) h

theorem Pairs.left_flat (h : Pairs R x y) : x.flat = [x] := by
  cases h <;> rfl

theorem Pairs.right_ne_nil (h : Pairs R x y) : y.flat ≠ [] := by
  cases h with
  | tokenMatch types y hy => simp [flat_of_not_cap hy]
  | any y hy =>
    intro hn
    rw [← multiplicity_flat, hn] at hy
    cases hy
  | _ => simp [flat]

theorem Pairs.right_single (h : Pairs R x y) (hz : y.flat = [z]) : Pairs R x z := by
  cases h with
  | any y hy =>
    rw [← multiplicity_flat, hz, List.map_singleton, groupMultiplicity_singleton] at hy
    exact .any z hy
  | tokenMatch types y hy hne h =>
    rw [flat_of_not_cap hy] at hz
    cases hz
    exact .tokenMatch types y hy hne h
  | inside types types' h => cases hz; exact .inside types types' h
  | insideStar types types' h => cases hz; exact .insideStar types types' h
  | first => cases hz; exact .first
  | last => cases hz; exact .last
  | children p c q d hp hc => cases hz; exact .children p c q d hp hc
  | rep p q h h' => cases hz; exact .rep p q h h'
  | opt p q h h' => cases hz; exact .opt p q h h'

theorem Includes.length_le (h : Includes R xs ys) : (flats xs).length ≤ (flats ys).length := by
  induction h with
  | nil ys => exact Nat.zero_le _
  | prefixCap name p xs ys _ ih =>
    rwa [flats_cons, flat, ← p.flats_items, ← flats_append]
  | patternCap name q xs ys _ ih =>
    rwa [flats_cons, flat, ← q.flats_items, ← flats_append]
  | skip y xs ys _ _ ih =>
    rw [flats_cons, List.length_append]
    omega
  | pair x y xs ys hxy _ ih =>
    have hy : 0 < y.flat.length := List.length_pos_of_ne_nil hxy.right_ne_nil
    rw [flats_cons, flats_cons, hxy.left_flat, List.length_append, List.length_append,
      List.length_singleton]
    omega

/-- A walk that takes as many objects on both sides pairs them one by one. -/
theorem Includes.pairs (h : Includes R xs ys) (hlen : (flats xs).length = (flats ys).length) :
    List.Forall₂ (Pairs R) (flats xs) (flats ys) := by
  induction h with
  | nil ys =>
    rw [List.eq_nil_of_length_eq_zero hlen.symm]
    exact .nil
  | prefixCap name p xs ys _ ih =>
    rw [flats_cons, flat, ← p.flats_items, ← flats_append] at hlen ⊢
    exact ih hlen
  | patternCap name q xs ys _ ih =>
    rw [flats_cons, flat, ← q.flats_items, ← flats_append] at hlen ⊢
    exact ih hlen
  | skip y xs ys _ h ih =>
    have hle := h.length_le
    rw [flats_cons, List.length_append] at hlen
    have hnil : y.flat = [] := List.eq_nil_of_length_eq_zero (by omega)
    rw [flats_cons, hnil, List.nil_append]
    exact ih (by rw [hlen, hnil]; simp)
  | pair x y xs ys hxy h ih =>
    have hle := h.length_le
    have hy : 0 < y.flat.length := List.length_pos_of_ne_nil hxy.right_ne_nil
    simp only [flats_cons, hxy.left_flat, List.length_append, List.length_singleton] at hlen ⊢
    obtain ⟨z, hz⟩ := List.length_eq_one_iff.1 (by omega : y.flat.length = 1)
    rw [hz]
    exact .cons (hxy.right_single hz) (ih (by omega))

variable {v : NodeView N} {fuel : Nat}

theorem insideLoop_congr {types types' : List Token} (h : ∀ t, t ∈ types ↔ t ∈ types') (n : Nat)
    (p : Option N) : insideLoop v types n p = insideLoop v types' n p := by
  induction n generalizing p with
  | zero => cases p <;> rfl
  | succ n ih =>
    cases p with
    | none => rfl
    | some p => simp only [insideLoop, h, ih]

/-- Objects that pair with each other both ways match alike. -/
theorem Pairs.same {x y : PatternItem N} (hR : ∀ xs ys, R xs ys → R' ys xs → ∀ parent,
      runs v fuel parent xs = runs v fuel parent ys)
    (h : Pairs R x y) (h' : Pairs R' y x) (parent : N) :
    x.run v fuel parent = y.run v fuel parent := by
  cases h with
  | inside types types' hs =>
    cases h' with
    | inside _ _ hs' =>
      have ht (t : Token) : t ∈ types ↔ t ∈ types' := ⟨fun h => hs' h, fun h => hs h⟩
      simp only [PatternItem.run, ht]
  | insideStar types types' hs =>
    cases h' with
    | insideStar _ _ hs' =>
      have ht (t : Token) : t ∈ types ↔ t ∈ types' := ⟨fun h => hs' h, fun h => hs h⟩
      simp only [PatternItem.run, insideLoop_congr ht]
  | first | last => rfl
  | tokenMatch types y _ hne hs =>
    cases h' with
    | any => exact absurd rfl hne
    | tokenMatch types' _ _ _ hs' =>
      have ht (t : Token) : t ∈ types ↔ t ∈ types' := ⟨fun h => hs' h, fun h => hs h⟩
      simp only [PatternItem.run, ht]
  | children p c q d hp hc =>
    cases h' with
    | children _ _ _ _ hp' hc' =>
      have hc (n : N) : c.run v fuel n = d.run v fuel n := by
        rw [PatternDef.run_items, PatternDef.run_items]
        exact hR _ _ hc hc' n
      simp only [PatternItem.run, PatternDef.run_items p, PatternDef.run_items q, hR _ _ hp hp',
        funext hc]
  | any y _ =>
    cases h' with
    | any => rfl
    | tokenMatch _ _ _ hne => exact absurd rfl hne
  | rep p q h _ =>
    cases h' with
    | rep _ _ h' _ =>
      simp only [PatternItem.run, PatternDef.run_items p, PatternDef.run_items q, hR _ _ h h']
  | opt p q h _ =>
    cases h' with
    | opt _ _ h' _ =>
      simp only [PatternItem.run, PatternDef.run_items p, PatternDef.run_items q, hR _ _ h h']

theorem runs_same {xs ys : List (PatternItem N)} (hR : ∀ xs ys, R xs ys → R' ys xs → ∀ parent,
      runs v fuel parent xs = runs v fuel parent ys)
    (h : List.Forall₂ (Pairs R) xs ys) (h' : List.Forall₂ (Pairs R') ys xs) (parent : N) :
    runs v fuel parent xs = runs v fuel parent ys := by
  induction h with
  | nil => rfl
  | cons hxy _ ih =>
    cases h' with
    | cons hyx h' => rw [runs, runs, hxy.same hR hyx, ih h']

end

section
variable {v : NodeView N} {fuel : Nat}

/-- Patterns that include each other match alike. -/
theorem IncludesUpTo.same (n m : Nat) (xs ys : List (PatternItem N)) (h : IncludesUpTo n xs ys)
    (h' : IncludesUpTo m ys xs) (parent : N) :
    runs v fuel parent xs = runs v fuel parent ys := by
  induction n generalizing m xs ys parent with
  | zero => exact h.elim
  | succ n ih =>
    cases m with
    | zero => exact h'.elim
    | succ m =>
      have hlen : (flats xs).length = (flats ys).length :=
        Nat.le_antisymm (Includes.length_le h) (Includes.length_le h')
      rw [← runs_flats v xs, ← runs_flats v ys]
      exact runs_same (fun xs ys h h' => ih m xs ys h h') (Includes.pairs h hlen)
        (Includes.pairs h' hlen.symm) parent

end

/-- The parents that `<<` asks for match one node, along captures and children. -/
def PatternDef.SingleParents : PatternDef N → Prop
  | null | last => True
  | cap _ p k => p.SingleParents ∧ k.SingleParents
  | children p c k => groupMultiplicity .zero p.reify = .one ∧ p.SingleParents ∧
    c.SingleParents ∧ k.SingleParents
  | anything k | tokenMatch _ k | regexMatch _ _ k | insideStar _ k | inside _ k | first k =>
    k.SingleParents
  | opt _ k | rep _ k | not _ k | pred _ k | negPred _ k | action _ _ k => k.SingleParents
  | choice _ _ _ k => k.SingleParents

def PatternItem.SingleParents : PatternItem N → Prop
  | cap _ p => p.SingleParents
  | children p c => groupMultiplicity .zero p.reify = .one ∧ p.SingleParents ∧ c.SingleParents
  | _ => True

theorem PatternDef.singleParents_items {p : PatternDef N} (h : p.SingleParents) :
    ∀ x ∈ p.items, x.SingleParents := by
  induction p with
  | null => simp [items]
  | last => simp [items, PatternItem.SingleParents]
  | cap name p k _ ih => exact List.forall_mem_cons.2 ⟨h.1, ih h.2⟩
  | children p c k _ _ ih => exact List.forall_mem_cons.2 ⟨⟨h.1, h.2.1, h.2.2.1⟩, ih h.2.2.2⟩
  | anything _ ih | tokenMatch _ _ ih | regexMatch _ _ _ ih | insideStar _ _ ih | inside _ _ ih
  | first _ ih | opt _ _ _ ih | rep _ _ _ ih | not _ _ _ ih | choice _ _ _ _ _ _ ih
  | pred _ _ _ ih | negPred _ _ _ ih | action _ _ _ _ ih =>
    exact List.forall_mem_cons.2 ⟨trivial, ih h⟩

theorem groupAccepted_cons {inside : Enclosing} {x : Reified} {rest : List Reified}
    (h : groupAccepted inside (x :: rest) = true) :
    x.error? inside rest = none ∧ x.acceptedBelow inside = true ∧
      groupAccepted inside rest = true := by
  simpa [groupAccepted, and_assoc] using h

theorem PatternDef.singleParents_of_accepted {p : PatternDef N} {enclosing : Enclosing}
    (h : groupAccepted enclosing p.reify = true) : p.SingleParents := by
  induction p generalizing enclosing with
  | null | last => trivial
  | cap name p k ihp ihk =>
    obtain ⟨_, hb, hr⟩ := groupAccepted_cons h
    rw [Reified.acceptedBelow] at hb
    exact ⟨ihp hb, ihk hr⟩
  | children p c k ihp ihc ihk =>
    obtain ⟨he, hb, hr⟩ := groupAccepted_cons h
    simp only [Reified.acceptedBelow, Bool.and_eq_true] at hb
    have hm : groupMultiplicity .zero p.reify = .one := by
      by_contra hne
      simp [Reified.error?, hne] at he
    exact ⟨hm, ihp hb.1, ihc hb.2, ihk hr⟩
  | anything _ ih | tokenMatch _ _ ih | regexMatch _ _ _ ih | insideStar _ _ ih | inside _ _ ih
  | first _ ih | opt _ _ _ ih | rep _ _ _ ih | not _ _ _ ih | choice _ _ _ _ _ _ ih
  | pred _ _ _ ih | negPred _ _ _ ih | action _ _ _ _ ih =>
    exact ih (groupAccepted_cons h).2.2

theorem PatternItem.multiplicity_of_tokens {y : PatternItem N} (hs : y.SingleParents)
    (hy : ∀ name p, y ≠ .cap name p) (hne : y.node.onlyTokens ≠ []) :
    y.node.multiplicity = .one := by
  cases y with
  | tokenMatch | regexMatch => rfl
  | children p c => exact hs.1
  | cap name p => exact absurd rfl (hy name p)
  | _ => exact absurd rfl hne

section
variable {v : NodeView N} {fuel : Nat}

theorem Run.test_iff {c : NodeIt → Option Bool} :
    Run.test c it = some (some it') ↔ c it = some true ∧ it' = it := by
  simp only [Run.test]
  rcases c it with _ | _ | _ <;> simp [eq_comm]

theorem insideLoop_subset {types types' : List Token} (hs : types' ⊆ types) {p : Option N}
    (h : insideLoop v types' n p = some true) : insideLoop v types n p = some true := by
  induction n generalizing p with
  | zero => cases p <;> cases h
  | succ n ih =>
    cases p with
    | none => cases h
    | some p =>
      simp only [insideLoop] at h ⊢
      split
      · rfl
      · rw [if_neg fun ht => ‹¬ v.type p ∈ types› (hs ht)] at h
        exact ih h

/-- An object of the prefix matches where the one of the pattern does, with the same end. -/
theorem Pairs.matches {x y : PatternItem N} (h : Pairs (IncludesUpTo n) x y)
    (ih : ∀ p q : PatternDef N, IncludesUpTo n p.items q.items → p.SingleParents →
      q.SingleParents → ∀ parent it it', q.run v fuel parent it = some (some it') →
        ∃ j, p.run v fuel parent it = some (some j))
    (hx : x.SingleParents) (hy : y.SingleParents) {parent : N}
    (hr : y.run v fuel parent it = some (some it')) :
    x.run v fuel parent it = some (some it') := by
  cases h with
  | inside types types' hs =>
    rw [PatternItem.run] at hr ⊢
    obtain ⟨ht, rfl⟩ := Run.test_iff.1 hr
    have hmem : v.type parent ∈ types := hs (of_decide_eq_true (Option.some.inj ht))
    exact Run.test_iff.2 ⟨congrArg some (decide_eq_true hmem), rfl⟩
  | insideStar types types' hs =>
    rw [PatternItem.run] at hr ⊢
    obtain ⟨ht, rfl⟩ := Run.test_iff.1 hr
    exact Run.test_iff.2 ⟨insideLoop_subset hs ht, rfl⟩
  | first | last => exact hr
  | tokenMatch types y hc hne hs =>
    have hone := multiplicity_of_tokens hy hc hne
    have hm := y.run_multiplicity (v := v) fuel parent
    rw [hone] at hm
    obtain ⟨n, hn, ht⟩ := y.run_starts fuel parent hone hne it it' hr
    obtain ⟨_, rfl⟩ := hm it it' hr
    simp [PatternItem.run, Run.item, hn, hs ht]
  | children p c q d hp hc =>
    obtain ⟨hq, n, j, hn, hd⟩ := Run.children_eq hr
    obtain ⟨i, hi⟩ := ih p q hp hx.2.1 hy.2.1 parent it it' hq
    obtain ⟨k, hk⟩ := ih c d hc hx.2.2 hy.2.2 n 0 j hd
    have hpm := p.run_multiplicity (v := v) fuel parent
    have hqm := q.run_multiplicity (v := v) fuel parent
    rw [hx.1] at hpm
    rw [hy.1] at hqm
    obtain ⟨_, rfl⟩ := hqm it it' hq
    obtain ⟨_, rfl⟩ := hpm it i hi
    simp [PatternItem.run, Run.children, hi, hn, hk]
  | any y hone =>
    have hm := y.run_multiplicity (v := v) fuel parent
    rw [hone] at hm
    obtain ⟨hlast, rfl⟩ := hm it it' hr
    simp [PatternItem.run, Run.any, hlast]
  | rep p q h h' =>
    have hs : p.run v fuel parent = q.run v fuel parent := by
      rw [PatternDef.run_items, PatternDef.run_items]
      exact IncludesUpTo.same n n _ _ h h' parent
    rwa [PatternItem.run, hs]
  | opt p q h h' =>
    have hs : p.run v fuel parent = q.run v fuel parent := by
      rw [PatternDef.run_items, PatternDef.run_items]
      exact IncludesUpTo.same n n _ _ h h' parent
    rwa [PatternItem.run, hs]

/-- Where a pattern matches, so does a prefix that the walk includes in it. -/
theorem IncludesUpTo.matches {xs ys : List (PatternItem N)} (h : IncludesUpTo n xs ys)
    (hx : ∀ x ∈ xs, x.SingleParents) (hy : ∀ y ∈ ys, y.SingleParents) {parent : N}
    (hr : runs v fuel parent ys it = some (some it')) :
    ∃ j, runs v fuel parent xs it = some (some j) := by
  induction n generalizing xs ys parent it it' with
  | zero => exact h.elim
  | succ n ih =>
    have ihp (p q : PatternDef N) (h : IncludesUpTo n p.items q.items) (hp : p.SingleParents)
        (hq : q.SingleParents) (parent : N) (it it' : NodeIt)
        (hr : q.run v fuel parent it = some (some it')) :
        ∃ j, p.run v fuel parent it = some (some j) := by
      rw [PatternDef.run_items] at hr ⊢
      exact ih h (PatternDef.singleParents_items hp) (PatternDef.singleParents_items hq) hr
    simp only [IncludesUpTo] at h
    induction h generalizing it with
    | nil ys => exact ⟨it, rfl⟩
    | prefixCap name p xs ys _ ih =>
      obtain ⟨hp, hxs⟩ := List.forall_mem_cons.1 hx
      obtain ⟨j, hj⟩ := ih (List.forall_mem_append.2
        ⟨PatternDef.singleParents_items hp, hxs⟩) hy hr
      refine ⟨j, ?_⟩
      rwa [runs, PatternItem.run, PatternDef.run_items, ← runs_append]
    | patternCap name q xs ys _ ih =>
      obtain ⟨hq, hys⟩ := List.forall_mem_cons.1 hy
      rw [runs, PatternItem.run, PatternDef.run_items, ← runs_append] at hr
      exact ih hx (List.forall_mem_append.2 ⟨PatternDef.singleParents_items hq, hys⟩) hr
    | skip y xs ys hzero _ ih =>
      obtain ⟨it₁, h₁, h₂⟩ := Run.thenAt_eq hr
      have hm := y.run_multiplicity (v := v) fuel parent
      rw [hzero] at hm
      rw [hm it it₁ h₁] at h₂
      exact ih hx (List.forall_mem_cons.1 hy).2 h₂
    | pair x y xs ys hxy _ ih =>
      obtain ⟨hx, hxs⟩ := List.forall_mem_cons.1 hx
      obtain ⟨hy, hys⟩ := List.forall_mem_cons.1 hy
      obtain ⟨it₁, h₁, h₂⟩ := Run.thenAt_eq hr
      obtain ⟨j, hj⟩ := ih hxs hys h₂
      refine ⟨j, ?_⟩
      rw [runs, Run.andThen, hxy.matches ihp hx hy h₁]
      exact hj

end

theorem Includes.skips {R : List (PatternItem N) → List (PatternItem N) → Prop}
    {xs ys zs : List (PatternItem N)}
    (hz : ∀ z ∈ zs, z.node.multiplicity = .zero) (h : Includes R xs ys) :
    Includes R xs (zs ++ ys) := by
  induction zs with
  | nil => exact h
  | cons z zs ih =>
    obtain ⟨hz, hzs⟩ := List.forall_mem_cons.1 hz
    exact .skip z xs (zs ++ ys) hz (ih hzs)

theorem skipZero_eq (h : skipZero fuel it = some it') :
    ∃ passed, it.remaining = passed ++ it'.remaining ∧ ∀ z ∈ passed, z.multiplicity = .zero := by
  induction fuel generalizing it with
  | zero => cases h
  | succ fuel ih =>
    obtain ⟨x, hx, h⟩ := Option.bind_eq_some_iff.1 h
    split at h
    · split at h
      · cases h
      · obtain ⟨passed, hp, hz⟩ := ih h
        rw [StackedIterator.remaining_next] at hp
        refine ⟨x :: passed, ?_, List.forall_mem_cons.2 ⟨‹_›, hz⟩⟩
        rw [StackedIterator.get_eq hx, hp, List.cons_append]
    · cases h
      exact ⟨[], rfl, by simp⟩

theorem bind_and_eq {r : Option Bool} {s : Option Bool}
    (h : (r.bind fun ok => if ok then s else some false) = some true) :
    r = some true ∧ s = some true := by
  rcases r with _ | _ | _
  · cases h
  · cases h
  · exact ⟨rfl, h⟩

theorem Reified.covers_pairs {x y : PatternItem N}
    {R : List (PatternItem N) → List (PatternItem N) → Prop}
    (h : x.node.covers includes same y.node = some true)
    (hR : ∀ p q : PatternDef N, includes p.reify q.reify = some true → R p.items q.items)
    (hy : ∀ name p, y ≠ .cap name p) : Pairs R x y := by
  cases x with
  | inside types =>
    cases y with
    | inside types' => exact .inside types types' (of_decide_eq_true (Option.some.inj h))
    | _ => cases h
  | insideStar types =>
    cases y with
    | insideStar types' => exact .insideStar types types' (of_decide_eq_true (Option.some.inj h))
    | _ => cases h
  | first =>
    cases y with
    | first => exact .first
    | _ => cases h
  | last =>
    cases y with
    | last => exact .last
    | _ => cases h
  | tokenMatch types =>
    simp only [PatternItem.node, covers, Option.some.injEq, Bool.and_eq_true,
      decide_eq_true_eq] at h
    exact .tokenMatch types y hy h.1 h.2
  | children p c =>
    cases y with
    | children q d =>
      obtain ⟨hp, hc⟩ := bind_and_eq h
      exact .children p c q d (hR p q hp) (hR c d hc)
    | _ => cases h
  | rep p =>
    cases y with
    | rep q =>
      obtain ⟨hp, hq⟩ := bind_and_eq h
      exact .rep p q (hR p q hp) (hR q p hq)
    | _ => cases h
  | opt p =>
    cases y with
    | opt q =>
      obtain ⟨hp, hq⟩ := bind_and_eq h
      exact .opt p q (hR p q hp) (hR q p hq)
    | _ => cases h
  | _ => cases y <;> cases h

theorem PatternItem.node_cap {x : PatternItem N} (h : x.node = .cap group name) :
    ∃ p, x = .cap name p ∧ group = p.reify := by
  cases x with
  | cap name p =>
    cases h
    exact ⟨p, rfl, rfl⟩
  | _ => cases h

theorem PatternItem.node_any {x : PatternItem N} (h : x.node = .any) : x = .anything := by
  cases x with
  | anything => rfl
  | _ => cases h

theorem PatternItem.not_cap {x : PatternItem N} (h : ∀ group name, x.node ≠ .cap group name) :
    ∀ name p, x ≠ .cap name p := by
  rintro name p rfl
  exact h _ _ rfl

theorem Reified.context_zero {x : Reified} (h : x.isContext = true) : x.multiplicity = .zero := by
  cases x <;> first | rfl | cases h

theorem PatternDef.remaining_single (p : PatternDef N) :
    StackedIterator.remaining [p.reify] = p.items.map node := by
  rw [← p.reify_items]
  exact List.append_nil _

theorem includesStep_walk {includes : List Reified → List Reified → Option Bool}
    {R : List (PatternItem N) → List (PatternItem N) → Prop} {x y : PatternItem N}
    (h : includesStep includes same fuel S T = some (.go S' T'))
    (hR : ∀ p q : PatternDef N, includes p.reify q.reify = some true → R p.items q.items)
    (hx : S.remaining = (x :: xs).map node) (hy : T.remaining = (y :: ys).map node) :
    ∃ xs' ys' : List (PatternItem N), S'.remaining = xs'.map node ∧ T'.remaining = ys'.map node ∧
      (Includes R xs' ys' → Includes R (x :: xs) (y :: ys)) := by
  obtain ⟨a, ha, h⟩ := Option.bind_eq_some_iff.1 h
  obtain ⟨b, hb, h⟩ := Option.bind_eq_some_iff.1 h
  rw [StackedIterator.get_eq ha, List.map_cons] at hx
  rw [StackedIterator.get_eq hb, List.map_cons] at hy
  obtain ⟨rfl, hxs⟩ := List.cons.inj hx
  obtain ⟨rfl, hys⟩ := List.cons.inj hy
  split at h
  · rename_i group name hn
    cases h
    obtain ⟨p, rfl, rfl⟩ := node_cap hn
    refine ⟨p.items ++ xs, y :: ys, ?_, ?_, .prefixCap name p xs (y :: ys)⟩
    · rw [StackedIterator.remaining_push, hxs, p.reify_items, List.map_append]
    · rw [StackedIterator.get_eq hb, hys, List.map_cons]
  · rename_i group name hn _
    cases h
    obtain ⟨q, rfl, rfl⟩ := node_cap hn
    refine ⟨x :: xs, q.items ++ ys, ?_, ?_, .patternCap name q (x :: xs) ys⟩
    · rw [StackedIterator.get_eq ha, hxs, List.map_cons]
    · rw [StackedIterator.remaining_push, hys, q.reify_items, List.map_append]
  · rename_i hyc
    split at h
    · rename_i hcontext
      cases h
      rw [Bool.and_eq_true] at hcontext
      refine ⟨x :: xs, ys, ?_, ?_, .skip y (x :: xs) ys (Reified.context_zero hcontext.1)⟩
      · rw [StackedIterator.get_eq ha, hxs, List.map_cons]
      · rw [StackedIterator.remaining_next, hys]
    · split at h
      · rename_i hany
        obtain ⟨T₁, hskip, h⟩ := Option.bind_eq_some_iff.1 h
        obtain ⟨z, hz, h⟩ := Option.map_eq_some_iff.1 h
        split at h
        · rename_i hone
          cases h
          obtain rfl := node_any hany
          obtain ⟨passed, hp, hzero⟩ := skipZero_eq hskip
          rw [StackedIterator.get_eq hb, hy, StackedIterator.get_eq hz, ← List.map_cons] at hp
          obtain ⟨zs, rest, hsplit, rfl, hrest⟩ := List.map_eq_append_iff.1 hp
          obtain ⟨w, ws, rfl, rfl, hws⟩ := List.map_eq_cons_iff.1 hrest
          refine ⟨xs, ws, ?_, ?_, fun hi => ?_⟩
          · rw [StackedIterator.remaining_next, hxs]
          · rw [StackedIterator.remaining_next, hws]
          · rw [hsplit]
            exact .skips (List.forall_mem_map.1 hzero) (.pair .anything w xs ws (.any w hone) hi)
        · cases h
      · obtain ⟨ok, hok, h⟩ := Option.map_eq_some_iff.1 h
        split at h
        · rename_i htrue
          cases h
          subst htrue
          refine ⟨xs, ys, ?_, ?_, .pair x y xs ys ?_⟩
          · rw [StackedIterator.remaining_next, hxs]
          · rw [StackedIterator.remaining_next, hys]
          · exact Reified.covers_pairs hok hR (not_cap hyc)
        · cases h

theorem includesStep_answer (h : includesStep includes same fuel S T = some (.answer found)) :
    found = false := by
  obtain ⟨a, _, h⟩ := Option.bind_eq_some_iff.1 h
  obtain ⟨b, _, h⟩ := Option.bind_eq_some_iff.1 h
  split at h
  · cases h
  · cases h
  · split at h
    · cases h
    · split at h
      · obtain ⟨T₁, _, h⟩ := Option.bind_eq_some_iff.1 h
        obtain ⟨z, _, h⟩ := Option.map_eq_some_iff.1 h
        split at h <;> cases h
        rfl
      · obtain ⟨ok, _, h⟩ := Option.map_eq_some_iff.1 h
        split at h <;> cases h
        rfl

theorem includesLoop_includes {xs ys : List (PatternItem N)}
    (h : includesLoop same fuel S T = some true) (hx : S.remaining = xs.map node)
    (hy : T.remaining = ys.map node) : IncludesUpTo fuel xs ys := by
  induction fuel generalizing S T xs ys with
  | zero => cases h
  | succ fuel ih =>
    have hR (p q : PatternDef N) (h : includesLoop same fuel [p.reify] [q.reify] = some true) :
        IncludesUpTo fuel p.items q.items := ih h p.remaining_single q.remaining_single
    simp only [includesLoop] at h
    split at h
    · have hempty : S = [] := of_decide_eq_true (Option.some.inj h)
      subst hempty
      rw [List.map_eq_nil_iff.1 hx.symm]
      exact .nil ys
    · obtain ⟨walk, hw, h⟩ := Option.bind_eq_some_iff.1 h
      cases walk with
      | answer found =>
        cases h
        cases includesStep_answer hw
      | go S' T' =>
        have hgets : ∃ a b, S.get = some a ∧ T.get = some b := by
          obtain ⟨a, ha, hw⟩ := Option.bind_eq_some_iff.1 hw
          obtain ⟨b, hb, hw⟩ := Option.bind_eq_some_iff.1 hw
          exact ⟨a, b, ha, hb⟩
        obtain ⟨a, b, ha, hb⟩ := hgets
        have hxs := hx.symm.trans (StackedIterator.get_eq ha)
        have hys := hy.symm.trans (StackedIterator.get_eq hb)
        obtain ⟨x, xs, rfl, rfl, _⟩ := List.map_eq_cons_iff.1 hxs
        obtain ⟨y, ys, rfl, rfl, _⟩ := List.map_eq_cons_iff.1 hys
        obtain ⟨xs', ys', hx', hy', hwalk⟩ := includesStep_walk hw hR hx hy
        exact hwalk (IncludesUpTo.succ fuel (ih h hx' hy'))

theorem PatternDef.shadowed_matches {p q : PatternDef N} (hp : checkPattern p.reify = true)
    (hq : checkPattern q.reify = true)
    (h : includesPrefix same fuel p.reify q.reify = some true) {v : NodeView N} {parent : N}
    {m : Match N} (hm : q.matchAt v loops it parent m = some (true, it', m')) (m'' : Match N) :
    ∃ j m₁, p.matchAt v loops it parent m'' = some (true, j, m₁) := by
  have hpx := singleParents_of_accepted hp
  have hqx := singleParents_of_accepted hq
  have hinc := includesLoop_includes h p.remaining_single q.remaining_single
  have hrun := q.matchAt_run (v := v) loops it parent m
  rw [hm, run_items] at hrun
  obtain ⟨j, hj⟩ := hinc.matches (singleParents_items hpx) (singleParents_items hqx) hrun.symm
  rw [← run_items, ← p.matchAt_run loops it parent m''] at hj
  rcases hr : p.matchAt v loops it parent m'' with _ | ⟨_ | _, k, m₁⟩
  · rw [hr] at hj
    cases hj
  · rw [hr] at hj
    cases hj
  · exact ⟨k, m₁, rfl⟩

namespace Pattern

/-- Where a pattern matches that the checker reports as shadowed, the earlier pattern matches,
whatever has been captured before. -/
theorem shadowing_real (pref pattern : Pattern N) (same : Bool) (fuel : Nat)
    (hpref : checkPattern pref.pattern.reify = true)
    (hpattern : checkPattern pattern.pattern.reify = true)
    (h : includesPrefix same fuel pref.pattern.reify pattern.pattern.reify = some true)
    (v : NodeView N) (parent : N) (it : NodeIt) (m : Match N) (it' : NodeIt) (m' : Match N)
    (hm : pattern.Matches v parent it m true it' m') (m'' : Match N) :
    ∃ j m₁, pref.Matches v parent it m'' true j m₁ := by
  obtain ⟨loops, hm⟩ := hm
  obtain ⟨j, m₁, hj⟩ := PatternDef.shadowed_matches hpref hpattern h hm m''
  exact ⟨j, m₁, loops, hj⟩

/-- `T(a, b) * Any` shadows `In(root) * (T(a))[a] * T(b) * End`. -/
theorem shadowing_real_two : ∃ j m₁,
    Pattern.Matches ⟨.tokenMatch [⟨"a", 0⟩, ⟨"b", 0⟩] (.anything .null), .matchAny⟩
      (NodeView.leaves ⟨"root", 0⟩ [⟨"a", 0⟩, ⟨"b", 0⟩]) 0 0 {} true j m₁ := by
  refine shadowing_real _ ⟨.inside [⟨"root", 0⟩] (.cap ⟨"a", 0⟩ (.tokenMatch [⟨"a", 0⟩] .null)
    (.tokenMatch [⟨"b", 0⟩] .last)), .matchAny⟩ false 6 ?_ ?_ ?_ _ 0 0 {} 2 _ ⟨1, rfl⟩ {}
  · decide
  · decide
  · decide

end Pattern

end Trieste
