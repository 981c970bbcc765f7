import Mathlib.Data.Finset.Dedup
import Mathlib.Data.Finset.Sort
import Trieste.Rewrite.Dispatch

namespace Trieste
set_option autoImplicit true
open Library

variable {N α : Type}

/-- The fast pattern admits a match from `it` to `it'`. -/
structure FastPattern.Covers (fast : FastPattern) (v : NodeView N) (parent : N)
    (it it' : NodeIt) : Prop where
  parents : fast.parents = ∅ ∨ v.type parent ∈ fast.parents
  starts : fast.anyFirst = true ∨ (fast.passThrough = true ∧ it = it') ∨
    ∃ n, v.child? parent it = some n ∧ v.type n ∈ fast.starts

theorem FastPattern.anyFirst_iff {f : FastPattern} :
    f.anyFirst = true ↔ f.starts = ∅ ∧ f.passThrough = false := by
  simp [anyFirst]

namespace FastPattern.Covers
variable {v : NodeView N} {parent : N} {lhs rhs fast : FastPattern}

theorem matchAny : FastPattern.matchAny.Covers v parent it it' :=
  ⟨.inl rfl, .inl rfl⟩

theorem matchPred : FastPattern.matchPred.Covers v parent it it :=
  ⟨.inl rfl, .inr (.inl ⟨rfl, rfl⟩)⟩

theorem matchParent (h : v.type parent ∈ tokens) :
    (FastPattern.matchParent tokens).Covers v parent it it :=
  ⟨.inr h, .inr (.inl ⟨rfl, rfl⟩)⟩

theorem matchToken (hn : v.child? parent it = some n) (h : v.type n ∈ tokens) :
    (FastPattern.matchToken tokens).Covers v parent it it' :=
  ⟨.inl rfl, .inr (.inr ⟨n, hn, h⟩)⟩

theorem matchChoice (h : lhs.Covers v parent it it' ∨ rhs.Covers v parent it it') :
    (lhs.matchChoice rhs).Covers v parent it it' := by
  constructor
  · simp only [FastPattern.matchChoice]
    split
    · right
      rcases h with h | h <;> rcases h.parents with hp | hp <;> simp_all
    · exact .inl rfl
  · by_cases hany : lhs.anyFirst = true ∨ rhs.anyFirst = true
    · left
      rw [anyFirst_iff]
      rcases hany with hany | hany <;> simp [FastPattern.matchChoice, hany]
    · right
      simp only [not_or, Bool.not_eq_true] at hany
      obtain ⟨hl, hr⟩ := hany
      have hs : (lhs.matchChoice rhs).starts = lhs.starts ∪ rhs.starts := by
        simp [FastPattern.matchChoice, hl, hr]
      have hp : (lhs.matchChoice rhs).passThrough = (lhs.passThrough || rhs.passThrough) := by
        simp [FastPattern.matchChoice, hl, hr]
      rw [hs, hp]
      rcases h with h | h <;> rcases h.starts with h | ⟨h, rfl⟩ | ⟨n, hn, h⟩
      · simp [hl] at h
      · exact .inl ⟨by simp [*], rfl⟩
      · exact .inr ⟨n, hn, Finset.mem_union_left _ h⟩
      · simp [hr] at h
      · exact .inl ⟨by simp [*], rfl⟩
      · exact .inr ⟨n, hn, Finset.mem_union_right _ h⟩

theorem matchSeq (hl : lhs.Covers v parent it it₁) (hr : rhs.Covers v parent it₁ it') :
    (lhs.matchSeq rhs).Covers v parent it it' := by
  constructor
  · simp only [FastPattern.matchSeq]
    rcases hl.parents with hp | hp
    · rw [if_pos hp]
      exact hr.parents
    · rcases hr.parents with hq | hq
      · split
        · exact .inl hq
        · exact .inr (by simpa [hq] using hp)
      · right
        split
        · exact hq
        · split
          · exact hp
          · exact Finset.mem_inter.2 ⟨hp, hq⟩
  · by_cases hpass : lhs.passThrough = true
    · by_cases hany : rhs.anyFirst = true
      · left
        rw [anyFirst_iff]
        simp [FastPattern.matchSeq, hpass, hany]
      · right
        have hs : (lhs.matchSeq rhs).starts = lhs.starts ∪ rhs.starts := by
          simp [FastPattern.matchSeq, hpass, hany]
        have hp : (lhs.matchSeq rhs).passThrough = rhs.passThrough := by
          simp [FastPattern.matchSeq, hpass, hany]
        rw [hs, hp]
        rcases hl.starts with h | ⟨_, rfl⟩ | ⟨n, hn, h⟩
        · exact absurd hpass (by simp [(anyFirst_iff.1 h).2])
        · rcases hr.starts with h | h | ⟨n, hn, h⟩
          · exact absurd h hany
          · exact .inl h
          · exact .inr ⟨n, hn, Finset.mem_union_right _ h⟩
        · exact .inr ⟨n, hn, Finset.mem_union_left _ h⟩
    · have hs : (lhs.matchSeq rhs).starts = lhs.starts := by
        simp [FastPattern.matchSeq, hpass]
      rcases hl.starts with h | ⟨h, _⟩ | ⟨n, hn, h⟩
      · left
        rw [anyFirst_iff, hs]
        exact ⟨(anyFirst_iff.1 h).1, by simp [FastPattern.matchSeq, hpass]⟩
      · exact absurd h hpass
      · exact .inr (.inr ⟨n, hn, by rwa [hs]⟩)

theorem matchOpt_skip (h : fast.anyFirst = true → fast.parents = ∅) :
    fast.matchOpt.Covers v parent it it := by
  simp only [FastPattern.matchOpt]
  split
  · exact ⟨.inl (h ‹_›), .inl ‹_›⟩
  · exact ⟨.inl rfl, .inr (.inl ⟨rfl, rfl⟩)⟩

/-- After a first match that consumed something, an optional pattern may go on. -/
theorem matchOpt (h : fast.Covers v parent it it₁) (hne : it ≠ it₁) :
    fast.matchOpt.Covers v parent it it' := by
  simp only [FastPattern.matchOpt]
  split
  · exact ⟨h.parents, .inl ‹_›⟩
  · rcases h.starts with hs | ⟨_, hs⟩ | hs
    · exact absurd hs ‹_›
    · exact absurd hs hne
    · exact ⟨.inl rfl, .inr (.inr hs)⟩

end FastPattern.Covers

theorem star_first {f : Peg β} (h : f.star last it = some (it', a)) (hne : it ≠ it') :
    ∃ it₁ b, f it = some (it₁, b) ∧ it ≠ it₁ := by
  obtain ⟨n, hn⟩ : ∃ n, n = last - it := ⟨_, rfl⟩
  simp only [Peg.star, ← hn, Option.some.injEq, Prod.mk.injEq] at h
  cases n with
  | zero => exact absurd h.1 hne
  | succ n =>
    rcases hf : f it with _ | ⟨it₁, b⟩
    · simp [Peg.greedy, hf, hne] at h
    · refine ⟨it₁, b, rfl, ?_⟩
      rintro rfl
      simp [Peg.greedy, hf, hne] at h

namespace PatternExpr
variable {pat : Pattern N}

/-- No pattern that is made optional or repeated has a fast pattern that may start anywhere but
asks for certain parents. -/
def OptParentsFree : PatternExpr N → Prop
  | anything | first | last | tokenMatch _ _ | regexMatch _ _ | inside _ _ => True
  | action _ p | cap _ p | pred p | negPred p | not p => p.OptParentsFree
  | opt p => p.OptParentsFree ∧ ∀ pat, p.build = .ok pat →
      pat.fastPattern.anyFirst = true → pat.fastPattern.parents = ∅
  | rep p => p.OptParentsFree ∧ ∀ pat, p.build = .ok pat → pat.pattern.customRep = .ok none →
      pat.fastPattern.anyFirst = true → pat.fastPattern.parents = ∅
  | seq p q | choice p q | children p q => p.OptParentsFree ∧ q.OptParentsFree

theorem build_covers {e : PatternExpr N} (h : e.build = .ok pat) (hf : e.OptParentsFree)
    {v : NodeView N} {parent : N} (hit : it ≤ v.last parent)
    (hp : e.parse v parent it = some (it', a)) : pat.fastPattern.Covers v parent it it' := by
  induction e generalizing pat it it' a with
  | anything => cases h; exact .matchAny
  | not p ih =>
    obtain ⟨p, _, h⟩ := bind_eq_ok.1 h
    rw [(Pattern.not_ok h).1]
    exact .matchAny
  | first | last =>
    cases h
    simp only [parse, Peg.test] at hp
    split at hp
    · cases hp
      exact .matchPred
    · cases hp
  | tokenMatch type types =>
    cases h
    simp only [parse, item_children] at hp
    obtain ⟨n, hn, hp⟩ := Option.bind_eq_some_iff.1 hp
    split at hp
    · exact .matchToken hn (by simp_all)
    · cases hp
  | regexMatch type re =>
    cases h
    simp only [parse, item_children] at hp
    obtain ⟨n, hn, hp⟩ := Option.bind_eq_some_iff.1 hp
    split at hp
    · exact .matchToken hn (by simp_all)
    · cases hp
  | inside type types =>
    cases h
    simp only [parse, Peg.test] at hp
    split at hp
    · cases hp
      exact .matchParent (by simp_all)
    · cases hp
  | action f e ih =>
    obtain ⟨p, hb, h⟩ := bind_eq_ok.1 h
    cases h
    obtain ⟨⟨it₁, b⟩, hp', hp⟩ := Option.bind_eq_some_iff.1 hp
    dsimp only at hp
    split at hp
    · cases hp
      have hc := ih hb hf hit hp'
      exact hc
    · cases hp
  | cap name e ih =>
    obtain ⟨p, hb, h⟩ := bind_eq_ok.1 h
    cases h
    obtain ⟨⟨it₁, b⟩, hp', hp⟩ := Option.map_eq_some_iff.1 hp
    cases hp
    have hc := ih hb hf hit hp'
    exact hc
  | opt e ih =>
    obtain ⟨p, hb, h⟩ := bind_eq_ok.1 h
    cases h
    have hskip : p.opt.fastPattern.Covers v parent it it := .matchOpt_skip (hf.2 p hb)
    rcases Option.or_eq_some_iff.1 hp with hp | ⟨_, hp⟩
    · by_cases hne : it = it'
      · rwa [← hne]
      · exact (ih hb hf.1 hit hp).matchOpt hne
    · cases hp
      exact hskip
  | pred e ih =>
    obtain ⟨p, _, h⟩ := bind_eq_ok.1 h
    rw [(Pattern.pred_ok h).1]
    obtain ⟨_, _, hp⟩ := Option.map_eq_some_iff.1 hp
    cases hp
    exact .matchPred
  | negPred e ih =>
    obtain ⟨p, _, h⟩ := bind_eq_ok.1 h
    rw [(Pattern.negPred_ok h).1]
    simp only [parse, Peg.notLook] at hp
    split at hp
    · cases hp
    · cases hp
      exact .matchPred
  | rep e ih =>
    obtain ⟨p, hb, h⟩ := bind_eq_ok.1 h
    rcases Pattern.rep_ok h with ⟨_, _, rfl⟩ | ⟨_, _, rfl⟩ | ⟨hc, _, rfl⟩
    · exact .matchAny
    · exact .matchAny
    · have hskip : p.fastPattern.matchOpt.Covers v parent it it :=
        .matchOpt_skip (hf.2 p hb hc)
      rw [parse_rep] at hp
      · by_cases hne : it = it'
        · rwa [← hne]
        · obtain ⟨it₁, b, hp₁, hne₁⟩ := star_first hp hne
          exact (ih hb hf.1 hit hp₁).matchOpt hne₁
      · rintro type types rfl
        cases hb
        cases hc
  | seq e e' ih ih' =>
    obtain ⟨p, hb, h⟩ := bind_eq_ok.1 h
    obtain ⟨q, hb', h⟩ := bind_eq_ok.1 h
    rw [(Pattern.seq_ok h).2]
    obtain ⟨⟨it₁, b⟩, hp₁, hp⟩ := Option.bind_eq_some_iff.1 hp
    obtain ⟨⟨it₂, c⟩, hp₂, hp⟩ := Option.map_eq_some_iff.1 hp
    cases hp
    have hit₁ := (e.parse_bounded v parent it it₁ b hit hp₁).2
    exact (ih hb hf.1 hit hp₁).matchSeq (ih' hb' hf.2 hit₁ hp₂)
  | choice e e' ih ih' =>
    obtain ⟨p, hb, h⟩ := bind_eq_ok.1 h
    obtain ⟨q, hb', h⟩ := bind_eq_ok.1 h
    rw [(Pattern.choice_ok h).1]
    rcases Option.or_eq_some_iff.1 hp with hp | ⟨_, hp⟩
    · exact .matchChoice (.inl (ih hb hf.1 hit hp))
    · exact .matchChoice (.inr (ih' hb' hf.2 hit hp))
  | children e e' ih ih' =>
    obtain ⟨p, hb, h⟩ := bind_eq_ok.1 h
    obtain ⟨q, hb', h⟩ := bind_eq_ok.1 h
    cases h
    obtain ⟨⟨it₁, b⟩, hp₁, hp⟩ := Option.bind_eq_some_iff.1 hp
    obtain ⟨n, _, hp⟩ := Option.bind_eq_some_iff.1 hp
    obtain ⟨⟨_, c⟩, _, hp⟩ := Option.map_eq_some_iff.1 hp
    cases hp
    have hc := ih hb hf.1 hit hp₁
    exact hc

end PatternExpr

theorem bucketHits_pos (hash : DefaultMapHash) (order : SetOrder) {universal : Prop}
    [Decidable universal] (h : universal ∨ t ∈ s) : 0 < bucketHits hash order universal s t := by
  simp only [bucketHits]
  split
  · exact Nat.zero_lt_one
  · have ht : t ∈ order.list s := by
      rw [← List.mem_toFinset, order.toFinset]
      exact h.resolve_left ‹_›
    exact List.countP_pos_iff.2 ⟨t, ht, by simp⟩

theorem FastPattern.Covers.copies_pos {fast : FastPattern} {v : NodeView N} {parent n : N}
    (h : fast.Covers v parent it it') (hn : v.child? parent it = some n) (hash : DefaultMapHash)
    (order : SetOrder) : 0 < fast.copies hash order (v.type parent) (v.type n) := by
  refine Nat.mul_pos (bucketHits_pos hash order h.parents) (bucketHits_pos hash order ?_)
  rcases h.starts with hs | ⟨hs, _⟩ | ⟨n', hn', hs⟩
  · exact .inl (.inl (FastPattern.anyFirst_iff.1 hs).1)
  · exact .inl (.inr hs)
  · rw [hn] at hn'
    cases hn'
    exact .inr hs

/-- Every rule that matches at a child is among the rules tried there. -/
def NeverSkips (hash : DefaultMapHash) (order : SetOrder) (rules : List (Rule N α)) : Prop :=
  ∀ (v : NodeView N) parent it n m it' m', v.child? parent it = some n →
    ∀ rule ∈ rules, rule.1.Matches v parent it m true it' m' →
      rule ∈ (compileRules hash order rules).select hash (v.type parent) (v.type n)

def KeepsOrder (hash : DefaultMapHash) (order : SetOrder) (rules : List (Rule N α)) : Prop :=
  ∀ parent start, ∃ copies : Rule N α → Nat,
    (compileRules hash order rules).select hash parent start =
      rules.flatMap fun rule => List.replicate (copies rule) rule

theorem dispatch_complete (hash : DefaultMapHash) (order : SetOrder) (rules : List (Rule N α))
    (h : ∀ rule ∈ rules, ∃ e : PatternExpr N, e.build = .ok rule.1 ∧ e.OptParentsFree) :
    NeverSkips hash order rules ∧ KeepsOrder hash order rules := by
  refine ⟨fun v parent it n m it' m' hn rule hr hm => ?_,
    fun parent start => ⟨_, select_compileRules hash order rules parent start⟩⟩
  obtain ⟨e, hb, hf⟩ := h rule hr
  obtain ⟨fuel, hm⟩ := hm
  have hlt : it < v.last parent := (List.getElem?_eq_some_iff.1 hn).1
  obtain ⟨a, ha⟩ := reports_true.1 (e.build_agrees hb fuel parent it m true it' m' hlt.le hm)
  have hpos := (e.build_covers hb hf hlt.le ha).copies_pos hn hash order
  rw [select_compileRules, List.mem_flatMap]
  exact ⟨rule, hr, List.mem_replicate.2 ⟨Nat.pos_iff_ne_zero.1 hpos, rfl⟩⟩

/-- One rule `T(bar)`, with all tokens in one bucket. -/
theorem dispatch_complete_one :
    let rule : Rule Nat Unit := (.token ⟨"bar", 0⟩ [], ())
    let order : SetOrder := ⟨Finset.toList, Finset.toList_toFinset⟩
    (compileRules (fun _ => 0) order [rule]).select (fun _ => 0) ⟨"baz", 0⟩ ⟨"bar", 0⟩ ≠ [] := by
  intro rule order
  have hrule : ∀ r ∈ [rule], ∃ e : PatternExpr Nat, e.build = .ok r.1 ∧ e.OptParentsFree := by
    intro r hr
    rw [List.mem_singleton] at hr
    exact ⟨.tokenMatch ⟨"bar", 0⟩ [], by rw [hr]; rfl, trivial⟩
  have hmem := (dispatch_complete (fun _ => 0) order [rule] hrule).1
    (.leaves ⟨"baz", 0⟩ [⟨"bar", 0⟩]) 0 0 1 {} 1 _ rfl rule (List.mem_singleton_self _) ⟨0, rfl⟩
  exact List.ne_nil_of_mem hmem

namespace PatternExpr

/-- `~(In(foo) * Any) * T(bar)` -/
def optInside (foo bar : Token) : PatternExpr N :=
  seq (opt (seq (inside foo []) anything)) (tokenMatch bar [])

/-- Outside `foo` the optional part fails and the rule matches, but it is entered under `foo`. -/
theorem dispatch_skips : ∃ (hash : DefaultMapHash) (order : SetOrder) (rules : List (Rule Nat Unit)),
    (∀ rule ∈ rules, ∃ e : PatternExpr Nat, e.build = .ok rule.1) ∧
    ¬ NeverSkips hash order rules := by
  let foo : Token := ⟨"foo", 0⟩
  let bar : Token := ⟨"bar", 0⟩
  let hash : DefaultMapHash := fun t => if t = foo then 0 else 1
  let order : SetOrder := ⟨Finset.toList, Finset.toList_toFinset⟩
  let baz : Token := ⟨"baz", 0⟩
  obtain ⟨pat, hpat⟩ : ∃ pat : Pattern Nat, (optInside foo bar).build = .ok pat := ⟨_, rfl⟩
  refine ⟨hash, order, [(pat, ())], ?_, fun h => ?_⟩
  · intro rule hr
    rw [List.mem_singleton] at hr
    exact ⟨optInside foo bar, hr ▸ hpat⟩
  · have hm := h (NodeView.leaves baz [bar]) 0 0 1 {} 1 _ rfl (pat, ())
      (List.mem_singleton_self _) (by cases hpat; exact ⟨0, rfl⟩)
    have hparents : pat.fastPattern.parents = {foo} := by cases hpat; rfl
    have hfoo : hash foo ≠ hash baz := by decide
    have hcopies : pat.fastPattern.copies hash order baz bar = 0 := by
      simp [FastPattern.copies, bucketHits, hparents, order, hfoo]
    rw [select_compileRules] at hm
    change (pat, ()) ∈ List.flatMap (fun rule => List.replicate
      (rule.1.fastPattern.copies hash order baz bar) rule) [(pat, ())] at hm
    simp [hcopies] at hm

end PatternExpr

end Trieste
