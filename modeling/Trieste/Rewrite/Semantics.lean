import Mathlib.Logic.Relation
import Trieste.Library.Peg
import Trieste.Rewrite.Matching

namespace Trieste
set_option autoImplicit true
open Library Relation

variable {N : Type}

/-- Some node on the way from `n` to the root has one of the types. -/
def NodeView.InsideStar (v : NodeView N) (types : List Token) (n : N) : Prop :=
  ∃ a, ReflTransGen (fun n p => v.parent n = some p) n a ∧ v.type a ∈ types

/-- A repeated `In` asks for some parent on the way to the root; any other repetition is greedy. -/
noncomputable def PatternExpr.parseRep (v : NodeView N) (parent : N)
    (body : Peg (Token × NodeRange N)) : PatternExpr N → Peg (Token × NodeRange N)
  | inside type types => Peg.test fun _ => v.InsideStar (type :: types) parent
  | _ => body.star (v.last parent)

/-- The parsing expression that a pattern expression stands for, over the children of `parent`.
The operand of a repetition or a predicate captures nothing, and `children` looks into the node
at which its first operand starts. -/
noncomputable def PatternExpr.parse (v : NodeView N) :
    PatternExpr N → N → Peg (Token × NodeRange N)
  | anything, parent => Peg.item (v.children parent) fun _ => true
  | first, _ => Peg.test fun it => it = 0
  | last, parent => Peg.test fun it => it = v.last parent
  | tokenMatch type types, parent =>
    Peg.item (v.children parent) fun n => decide (v.type n ∈ type :: types)
  | regexMatch type re, parent =>
    Peg.item (v.children parent) fun n => decide (v.type n = type) && v.fullMatch (v.view n) re
  | inside type types, parent => Peg.test fun _ => v.type parent ∈ type :: types
  | action f p, parent => fun it =>
    (p.parse v parent it).bind fun (it', a) =>
      if f (v.slice parent it it') then some (it', a) else none
  | cap name p, parent => fun it =>
    (p.parse v parent it).map fun (it', a) => (it', a ++ [(name, v.range parent it it')])
  | opt p, parent => (p.parse v parent).opt
  | pred p, parent => (p.parse v parent).look
  | negPred p, parent => (p.parse v parent).notLook
  | rep p, parent => p.parseRep v parent (p.parse v parent)
  | not p, parent => (p.parse v parent).notLook.seq (Peg.item (v.children parent) fun _ => true)
  | seq p q, parent => (p.parse v parent).seq (q.parse v parent)
  | choice p q, parent => (p.parse v parent).choice (q.parse v parent)
  | children p q, parent => fun it =>
    (p.parse v parent it).bind fun (it', a) =>
      (v.child? parent it).bind fun n => (q.parse v n 0).map fun (_, b) => (it', a ++ b)

theorem PatternExpr.parse_bounded (v : NodeView N) (e : PatternExpr N) (parent : N) :
    (e.parse v parent).Bounded (v.last parent) := by
  induction e generalizing parent with
  | anything | tokenMatch | regexMatch => exact Peg.Bounded.item _ _
  | first | last | inside => exact Peg.Bounded.test _ _
  | action f p ih =>
    intro i j a hi h
    obtain ⟨⟨k, b⟩, hk, h⟩ := Option.bind_eq_some_iff.1 h
    dsimp only at h
    split at h
    · cases h
      exact ih parent i j a hi hk
    · cases h
  | cap name p ih =>
    intro i j a hi h
    obtain ⟨⟨k, b⟩, hk, h⟩ := Option.map_eq_some_iff.1 h
    cases h
    exact ih parent i j b hi hk
  | opt p ih => exact (ih parent).opt
  | pred p _ => exact Peg.Bounded.look _ _
  | negPred p _ => exact Peg.Bounded.notLook _ _
  | rep p ih =>
    cases p
    case inside => exact Peg.Bounded.test _ _
    all_goals exact (ih parent).star
  | not p _ => exact (Peg.Bounded.notLook _ _).seq (Peg.Bounded.item _ _)
  | seq p q ihp ihq => exact (ihp parent).seq (ihq parent)
  | choice p q ihp ihq => exact (ihp parent).choice (ihq parent)
  | children p q ihp _ =>
    intro i j a hi h
    obtain ⟨⟨k, b⟩, hk, h⟩ := Option.bind_eq_some_iff.1 h
    obtain ⟨n, _, h⟩ := Option.bind_eq_some_iff.1 h
    obtain ⟨_, _, h⟩ := Option.map_eq_some_iff.1 h
    cases h
    exact ihp parent i j b hi hk

/-- The parsing expression has the same outcome, and after a match the same position. -/
def Reports (r : Option (NodeIt × β)) (matched : Bool) (it' : NodeIt) : Prop :=
  r.map Prod.fst = if matched then some it' else none

@[simp] theorem reports_true {r : Option (NodeIt × β)} :
    Reports r true it' ↔ ∃ a, r = some (it', a) := by
  rcases r with _ | ⟨i, a⟩ <;> simp [Reports]

@[simp] theorem reports_false {r : Option (NodeIt × β)} : Reports r false it' ↔ r = none := by
  simp [Reports]

/-- Whenever a call returns, the parsing expression agrees with it. -/
def Agrees (v : NodeView N) (fuel : Nat) (p : PatternDef N) (parent : N)
    (q : Peg (Token × NodeRange N)) : Prop :=
  ∀ it m matched it' m', it ≤ v.last parent →
    p.matchAt v fuel it parent m = some (matched, it', m') → Reports (q it) matched it'

theorem item_children (v : NodeView N) (parent : N) (ok : N → Bool) (it : NodeIt) :
    (Peg.item (v.children parent) ok : Peg β) it =
      (v.child? parent it).bind fun n => if ok n then some (it + 1, []) else none := rfl

theorem child?_last (v : NodeView N) (parent : N) : v.child? parent (v.last parent) = none := by
  rw [NodeView.child?, List.getElem?_eq_none_iff]
  exact Nat.le_refl _

theorem child?_of_lt (v : NodeView N) (parent : N) (h : it ≤ v.last parent)
    (hne : it ≠ v.last parent) : ∃ n, v.child? parent it = some n := by
  have hlt : it < (v.children parent).length := Nat.lt_of_le_of_ne h hne
  exact ⟨_, List.getElem?_eq_getElem hlt⟩

namespace Agrees
variable {v : NodeView N} {fuel : Nat} {parent : N} {p q r : PatternDef N}
  {f g : Peg (Token × NodeRange N)}

theorem setContinuation (hp : Agrees v fuel p parent f) (hb : f.Bounded (v.last parent))
    (hq : Agrees v fuel q parent g) (h : p.setContinuation q = .ok r) :
    Agrees v fuel r parent (f.seq g) := by
  intro it m matched it' m' hit hr
  rw [PatternDef.matchAt_setContinuation h] at hr
  rcases hm : p.matchAt v fuel it parent m with _ | ⟨_ | _, it₁, m₁⟩
  · simp [hm] at hr
  · have hf := hp it m false it₁ m₁ hit hm
    simp only [hm, MatchResult.andThen_some] at hr
    cases hr
    simp_all [Peg.seq]
  · obtain ⟨a, ha⟩ := reports_true.1 (hp it m true it₁ m₁ hit hm)
    have hg := hq it₁ m₁ matched it' m' (hb it it₁ a hit ha).2 (by simpa [hm] using hr)
    cases matched <;> simp_all [Peg.seq]

theorem anything : Agrees v fuel (.anything .null) parent
    (Peg.item (v.children parent) fun _ => true) := by
  intro it m matched it' m' hit h
  simp only [PatternDef.matchAt] at h
  rw [item_children]
  split at h
  · subst it
    cases h
    simp [child?_last]
  · cases h
    obtain ⟨n, hn⟩ := child?_of_lt v parent hit ‹_›
    simp [hn]

theorem tokenMatch (types : List Token) : Agrees v fuel (.tokenMatch types .null) parent
    (Peg.item (v.children parent) fun n => decide (v.type n ∈ types)) := by
  intro it m matched it' m' _ h
  simp only [PatternDef.matchAt] at h
  rw [item_children]
  split at h
  · cases h
    simp [*]
  · split at h <;> cases h <;> simp [*]

theorem regexMatch (type : Token) (re : String) :
    Agrees v fuel (.regexMatch type re .null) parent
      (Peg.item (v.children parent) fun n =>
        decide (v.type n = type) && v.fullMatch (v.view n) re) := by
  intro it m matched it' m' _ h
  simp only [PatternDef.matchAt] at h
  rw [item_children]
  split at h
  · cases h
    simp [*]
  · split at h <;> cases h <;> simp [*]

theorem inside (types : List Token) : Agrees v fuel (.inside types .null) parent
    (Peg.test fun _ => v.type parent ∈ types) := by
  intro it m matched it' m' _ h
  simp only [PatternDef.matchAt] at h
  split at h <;> cases h <;> simp [Peg.test, *]

theorem first : Agrees v fuel (.first .null) parent (Peg.test fun it => it = 0) := by
  intro it m matched it' m' _ h
  simp only [PatternDef.matchAt] at h
  split at h <;> cases h <;> simp [Peg.test, *]

theorem last : Agrees v fuel .last parent (Peg.test fun it => it = v.last parent) := by
  intro it m matched it' m' _ h
  simp only [PatternDef.matchAt] at h
  cases h
  by_cases hl : it = v.last parent <;> simp [Peg.test, hl]

theorem action (hp : Agrees v fuel p parent f) (act : List N → Bool) :
    Agrees v fuel (.action act p .null) parent fun it =>
      (f it).bind fun (it', a) => if act (v.slice parent it it') then some (it', a) else none := by
  intro it m matched it' m' hit h
  simp only [PatternDef.matchAt] at h
  rcases hm : p.matchAt v fuel it parent m with _ | ⟨_ | _, it₁, m₁⟩
  · simp [hm] at h
  · have hf := hp it m false it₁ m₁ hit hm
    simp_all
  · obtain ⟨a, ha⟩ := reports_true.1 (hp it m true it₁ m₁ hit hm)
    by_cases hact : act (v.slice parent it it₁) <;> simp [hm, hact] at h <;> simp_all

theorem cap (hp : Agrees v fuel p parent f) (name : Token) :
    Agrees v fuel (.cap name p .null) parent fun it =>
      (f it).map fun (it', a) => (it', a ++ [(name, v.range parent it it')]) := by
  intro it m matched it' m' hit h
  simp only [PatternDef.matchAt] at h
  rcases hm : p.matchAt v fuel it parent m with _ | ⟨_ | _, it₁, m₁⟩
  · simp [hm] at h
  · have hf := hp it m false it₁ m₁ hit hm
    simp_all
  · obtain ⟨a, ha⟩ := reports_true.1 (hp it m true it₁ m₁ hit hm)
    simp_all

theorem opt (hp : Agrees v fuel p parent f) : Agrees v fuel (.opt p .null) parent f.opt := by
  intro it m matched it' m' hit h
  simp only [PatternDef.matchAt] at h
  rcases hm : p.matchAt v fuel it parent m.addFrame with _ | ⟨_ | _, it₁, m₁⟩
  · simp [hm] at h
  · have hf := hp it _ false it₁ m₁ hit hm
    simp_all [Peg.opt, Peg.choice, Peg.skip]
  · obtain ⟨a, ha⟩ := reports_true.1 (hp it _ true it₁ m₁ hit hm)
    simp_all [Peg.opt, Peg.choice, Peg.skip]

theorem pred (hp : Agrees v fuel p parent f) : Agrees v fuel (.pred p .null) parent f.look := by
  intro it m matched it' m' hit h
  simp only [PatternDef.matchAt] at h
  rcases hm : p.matchAt v fuel it parent m with _ | ⟨_ | _, it₁, m₁⟩
  · simp [hm] at h
  · have hf := hp it _ false it₁ m₁ hit hm
    simp_all [Peg.look]
  · obtain ⟨a, ha⟩ := reports_true.1 (hp it _ true it₁ m₁ hit hm)
    simp_all [Peg.look]

theorem negPred (hp : Agrees v fuel p parent f) :
    Agrees v fuel (.negPred p .null) parent f.notLook := by
  intro it m matched it' m' hit h
  simp only [PatternDef.matchAt] at h
  rcases hm : p.matchAt v fuel it parent m with _ | ⟨_ | _, it₁, m₁⟩
  · simp [hm] at h
  · have hf := hp it _ false it₁ m₁ hit hm
    simp_all [Peg.notLook]
  · obtain ⟨a, ha⟩ := reports_true.1 (hp it _ true it₁ m₁ hit hm)
    simp_all [Peg.notLook]

theorem not (hp : Agrees v fuel p parent f) : Agrees v fuel (.not p .null) parent
    (f.notLook.seq (Peg.item (v.children parent) fun _ => true)) := by
  intro it m matched it' m' hit h
  simp only [PatternDef.matchAt] at h
  split at h
  · subst it
    cases h
    cases hf : f (v.last parent) <;> simp [Peg.seq, Peg.notLook, item_children, child?_last, hf]
  · obtain ⟨n, hn⟩ := child?_of_lt v parent hit ‹_›
    rcases hm : p.matchAt v fuel it parent m with _ | ⟨_ | _, it₁, m₁⟩
    · simp [hm] at h
    · have hf := hp it _ false it₁ m₁ hit hm
      simp_all [Peg.notLook, Peg.seq, item_children]
    · obtain ⟨a, ha⟩ := reports_true.1 (hp it _ true it₁ m₁ hit hm)
      simp_all [Peg.notLook, Peg.seq]

theorem choice (hp : Agrees v fuel p parent f) (hq : Agrees v fuel q parent g) (c : Bool) :
    Agrees v fuel (.choice c p q .null) parent (f.choice g) := by
  intro it m matched it' m' hit h
  simp only [PatternDef.matchAt] at h
  rcases hm : p.matchAt v fuel it parent _ with _ | ⟨_ | _, it₁, m₁⟩
  · rw [hm] at h
    cases h
  · have hf := reports_false.1 (hp it _ false it₁ m₁ hit hm)
    rcases hn : q.matchAt v fuel it parent
      (if c then m₁.returnToFrame m.index else m₁) with _ | ⟨_ | _, it₂, m₂⟩
    · simp [hm, hn] at h
    · have hg := hq it _ false it₂ m₂ hit hn
      simp_all [Peg.choice]
    · obtain ⟨a, ha⟩ := reports_true.1 (hq it _ true it₂ m₂ hit hn)
      simp_all [Peg.choice]
  · obtain ⟨a, ha⟩ := reports_true.1 (hp it _ true it₁ m₁ hit hm)
    simp_all [Peg.choice]

theorem matchAt_merged (types types' : List Token) (it : NodeIt) (m : Match N) :
    (PatternDef.tokenMatch (types ++ types') .null).matchAt v fuel it parent m =
      (PatternDef.choice false (.tokenMatch types .null) (.tokenMatch types' .null) .null).matchAt
        v fuel it parent m := by
  simp only [PatternDef.matchAt]
  split
  · rfl
  · rename_i n _
    by_cases ht : v.type n ∈ types <;> by_cases ht' : v.type n ∈ types' <;> simp [ht, ht']

theorem mergedTokens (hp : Agrees v fuel (.tokenMatch types .null) parent f)
    (hq : Agrees v fuel (.tokenMatch types' .null) parent g) :
    Agrees v fuel (.tokenMatch (types ++ types') .null) parent (f.choice g) := by
  intro it m matched it' m' hit h
  rw [matchAt_merged] at h
  exact hp.choice hq false it m matched it' m' hit h

theorem children (hp : Agrees v fuel p parent f) {h : N → Peg (Token × NodeRange N)}
    (hq : ∀ n, Agrees v fuel q n (h n)) : Agrees v fuel (.children p q .null) parent fun it =>
      (f it).bind fun (it', a) =>
        (v.child? parent it).bind fun n => (h n 0).map fun (_, b) => (it', a ++ b) := by
  intro it m matched it' m' hit hr
  simp only [PatternDef.matchAt] at hr
  rcases hm : p.matchAt v fuel it parent m with _ | ⟨_ | _, it₁, m₁⟩
  · simp [hm] at hr
  · have hf := hp it m false it₁ m₁ hit hm
    simp_all
  · obtain ⟨a, ha⟩ := reports_true.1 (hp it m true it₁ m₁ hit hm)
    rcases hn : v.child? parent it with _ | n
    · simp [hm, hn] at hr
    · rcases hc : q.matchAt v fuel 0 n m₁ with _ | ⟨_ | _, it₂, m₂⟩
      · simp [hm, hn, hc] at hr
      · have hg := hq n 0 _ false it₂ m₂ (Nat.zero_le _) hc
        simp_all
      · obtain ⟨b, hb⟩ := reports_true.1 (hq n 0 _ true it₂ m₂ (Nat.zero_le _) hc)
        simp_all

theorem insideLoop_iff (types : List Token) (h : insideLoop v types n (some p₀) = some found) :
    found = true ↔ v.InsideStar types p₀ := by
  induction n generalizing p₀ with
  | zero => cases h
  | succ n ih =>
    simp only [insideLoop] at h
    split at h
    · cases h
      exact ⟨fun _ => ⟨p₀, .refl, ‹_›⟩, fun _ => rfl⟩
    · rcases hp : v.parent p₀ with _ | p₁
      · have hroot : ¬ v.InsideStar types p₀ := by
          rintro ⟨a, ha, ht⟩
          rcases ha.cases_head with rfl | ⟨p₁, hstep, _⟩
          · exact ‹¬ _› ht
          · rw [hp] at hstep
            cases hstep
        cases n <;> simp_all [insideLoop]
      · rw [hp] at h
        rw [ih h]
        constructor
        · rintro ⟨a, ha, ht⟩
          exact ⟨a, .head hp ha, ht⟩
        · rintro ⟨a, ha, ht⟩
          rcases ha.cases_head with rfl | ⟨p₂, hstep, ha⟩
          · exact absurd ht ‹_›
          · rw [hp] at hstep
            cases hstep
            exact ⟨a, ha, ht⟩

theorem insideStar (types : List Token) : Agrees v fuel (.insideStar types .null) parent
    (Peg.test fun _ => v.InsideStar types parent) := by
  intro it m matched it' m' _ h
  simp only [PatternDef.matchAt] at h
  obtain ⟨found, hf, h⟩ := Option.bind_eq_some_iff.1 h
  have hi := insideLoop_iff types hf
  cases found <;> cases h <;> simp_all [Peg.test]

theorem repLoop_star (hp : Agrees v fuel p parent f) (hb : f.Bounded (v.last parent))
    {it : NodeIt} {m : Match N} (hit : it ≤ v.last parent)
    (h : repLoop (fun it m => p.matchAt v fuel it parent m) (v.last parent) n it m =
      some (it', m')) : f.star (v.last parent) it = some (it', []) := by
  induction n generalizing it m with
  | zero => cases h
  | succ n ih =>
    simp only [repLoop] at h
    split at h
    · subst it
      cases h
      simp [Peg.star, hb.greedy_last]
    · obtain ⟨⟨matched, it₁, m₁⟩, hm, h⟩ := Option.bind_eq_some_iff.1 h
      cases matched with
      | false =>
        cases h
        exact Peg.star_of_none (reports_false.1 (hp _ m false it₁ _ hit hm))
      | true =>
        obtain ⟨a, ha⟩ := reports_true.1 (hp it m true it₁ m₁ hit hm)
        rw [hb.star_of_some hit ha]
        exact ih (hb it it₁ a hit ha).2 h

theorem rep (hp : Agrees v fuel p parent f) (hb : f.Bounded (v.last parent)) :
    Agrees v fuel (.rep p .null) parent (f.star (v.last parent)) := by
  intro it m matched it' m' hit h
  simp only [PatternDef.matchAt] at h
  obtain ⟨⟨it₁, m₁⟩, hl, h⟩ := Option.bind_eq_some_iff.1 h
  cases h
  exact reports_true.2 ⟨[], repLoop_star hp hb hit hl⟩

theorem repLoop_again {body : NodeIt → Match N → MatchResult N}
    (h : repLoop body stop n it m = some (it', m')) :
    ∃ m₁ m₂, ∀ k, repLoop body stop (k + 1) it' m₁ = some (it', m₂) := by
  induction n generalizing it m with
  | zero => cases h
  | succ n ih =>
    simp only [repLoop] at h
    split at h
    · cases h
      exact ⟨m', m', fun k => by simp [repLoop, *]⟩
    · obtain ⟨⟨matched, it₁, m₁⟩, hm, h⟩ := Option.bind_eq_some_iff.1 h
      cases matched with
      | false =>
        cases h
        exact ⟨m, m₁, fun k => by simp_all [repLoop]⟩
      | true => exact ih h

theorem rep_rep (hp : Agrees v fuel (.rep p .null) parent f) (hb : f.Bounded (v.last parent)) :
    Agrees v fuel (.rep p .null) parent (f.star (v.last parent)) := by
  intro it m matched it' m' hit h
  have hf := hp it m matched it' m' hit h
  simp only [PatternDef.matchAt] at h
  obtain ⟨⟨it₁, m₁⟩, hl, h⟩ := Option.bind_eq_some_iff.1 h
  cases h
  obtain ⟨a, ha⟩ := reports_true.1 hf
  obtain ⟨m₂, m₃, hagain⟩ := repLoop_again hl
  have hstuck : repLoop (fun it m => p.matchAt v fuel it parent m) (v.last parent) fuel it₁ m₂ =
      some (it₁, m₃) := by
    cases fuel with
    | zero => cases hl
    | succ fuel => exact hagain fuel
  obtain ⟨b, hstop⟩ := reports_true.1 <|
    hp it₁ m₂ true it₁ m₃ (hb it it₁ a hit ha).2 (by simp [PatternDef.matchAt, hstuck])
  exact reports_true.2 ⟨[], (hb.star_of_some hit ha).trans (Peg.star_of_stuck hstop)⟩

end Agrees

namespace PatternExpr
variable {v : NodeView N} {pat : Pattern N}

theorem parse_rep {e : PatternExpr N} (h : ∀ type types, e ≠ .inside type types) (parent : N) :
    (rep e).parse v parent = (e.parse v parent).star (v.last parent) := by
  cases e
  case inside type types => exact absurd rfl (h type types)
  all_goals rfl

theorem build_agrees {e : PatternExpr N} (h : e.build = .ok pat) (fuel : Nat) (parent : N) :
    Agrees v fuel pat.pattern parent (e.parse v parent) := by
  induction e generalizing pat parent with
  | anything => cases h; exact .anything
  | first => cases h; exact .first
  | last => cases h; exact .last
  | tokenMatch type types => cases h; exact .tokenMatch _
  | regexMatch type re => cases h; exact .regexMatch type re
  | inside type types => cases h; exact .inside _
  | action f e ih =>
    obtain ⟨p, hp, h⟩ := bind_eq_ok.1 h
    cases h
    exact (ih hp parent).action f
  | cap name e ih =>
    obtain ⟨p, hp, h⟩ := bind_eq_ok.1 h
    cases h
    exact (ih hp parent).cap name
  | opt e ih =>
    obtain ⟨p, hp, h⟩ := bind_eq_ok.1 h
    cases h
    exact (ih hp parent).opt
  | pred e ih =>
    obtain ⟨p, hp, h⟩ := bind_eq_ok.1 h
    rw [(Pattern.pred_ok h).1]
    exact (ih hp parent).pred
  | negPred e ih =>
    obtain ⟨p, hp, h⟩ := bind_eq_ok.1 h
    rw [(Pattern.negPred_ok h).1]
    exact (ih hp parent).negPred
  | not e ih =>
    obtain ⟨p, hp, h⟩ := bind_eq_ok.1 h
    rw [(Pattern.not_ok h).1]
    exact (ih hp parent).not
  | rep e ih =>
    obtain ⟨p, hp, h⟩ := bind_eq_ok.1 h
    have ha := ih hp parent
    have hb := e.parse_bounded v parent
    rcases Pattern.rep_ok h with ⟨p', hrep, rfl⟩ | ⟨types, hin, rfl⟩ | ⟨hc, _, rfl⟩
    · rw [parse_rep]
      · rw [hrep] at ha ⊢
        exact ha.rep_rep hb
      · rintro type types rfl
        cases hp
        cases hrep
    · obtain ⟨type, rest, rfl, rfl⟩ := build_inside hp hin
      exact .insideStar _
    · rw [parse_rep]
      · exact ha.rep hb
      · rintro type types rfl
        cases hp
        cases hc
  | seq e e' ih ih' =>
    obtain ⟨p, hp, h⟩ := bind_eq_ok.1 h
    obtain ⟨q, hq, h⟩ := bind_eq_ok.1 h
    exact (ih hp parent).setContinuation (e.parse_bounded v parent) (ih' hq parent)
      (Pattern.seq_ok h).1
  | choice e e' ih ih' =>
    obtain ⟨p, hp, h⟩ := bind_eq_ok.1 h
    obtain ⟨q, hq, h⟩ := bind_eq_ok.1 h
    have ha := ih hp parent
    have ha' := ih' hq parent
    obtain ⟨_, ⟨types, types', ht, ht', hr⟩ | hr⟩ := Pattern.choice_ok h
    · rw [hr]
      rw [ht] at ha
      rw [ht'] at ha'
      exact ha.mergedTokens ha'
    · rw [hr]
      exact ha.choice ha' _
  | children e e' ih ih' =>
    obtain ⟨p, hp, h⟩ := bind_eq_ok.1 h
    obtain ⟨q, hq, h⟩ := bind_eq_ok.1 h
    cases h
    exact (ih hp parent).children fun n => ih' hq n

theorem build_seq_assoc (p q r : PatternExpr N) (made : PatternDef N) :
    (∃ pat, (seq (seq p q) r).build = .ok pat ∧ pat.pattern = made) ↔
      ∃ pat, (seq p (seq q r)).build = .ok pat ∧ pat.pattern = made := by
  constructor
  · rintro ⟨pat, h, rfl⟩
    obtain ⟨a, ha, h⟩ := bind_eq_ok.1 h
    obtain ⟨c, hc, h⟩ := bind_eq_ok.1 h
    obtain ⟨a', ha', ha⟩ := bind_eq_ok.1 ha
    obtain ⟨b, hb, ha⟩ := bind_eq_ok.1 ha
    have hassoc := PatternDef.setContinuation_assoc a'.pattern b.pattern c.pattern
    rw [(Pattern.seq_ok ha).1, ok_bind, (Pattern.seq_ok h).1] at hassoc
    obtain ⟨k, hk, hr⟩ := bind_eq_ok.1 hassoc.symm
    refine ⟨⟨pat.pattern, a'.fastPattern.matchSeq (b.fastPattern.matchSeq c.fastPattern)⟩, ?_, rfl⟩
    simp only [build, ha', hb, hc, ok_bind, Pattern.seq, hk, hr, Except.map]
  · rintro ⟨pat, h, rfl⟩
    obtain ⟨a, ha, h⟩ := bind_eq_ok.1 h
    obtain ⟨c, hc, h⟩ := bind_eq_ok.1 h
    obtain ⟨b, hb, hc⟩ := bind_eq_ok.1 hc
    obtain ⟨c', hc', hc⟩ := bind_eq_ok.1 hc
    have hassoc := PatternDef.setContinuation_assoc a.pattern b.pattern c'.pattern
    rw [(Pattern.seq_ok hc).1, ok_bind, (Pattern.seq_ok h).1] at hassoc
    obtain ⟨k, hk, hr⟩ := bind_eq_ok.1 hassoc
    refine ⟨⟨pat.pattern, (a.fastPattern.matchSeq b.fastPattern).matchSeq c'.fastPattern⟩, ?_, rfl⟩
    simp only [build, ha, hb, hc', ok_bind, Pattern.seq, hk, hr, Except.map]

/-- Whenever `match` returns, it does what the parsing expression says. -/
theorem match_is_parse {N : Type} :
    (∀ (e : PatternExpr N) (pat : Pattern N), e.build = .ok pat →
      ∀ (v : NodeView N) (parent : N) (it : NodeIt) (m : Match N) matched it' m',
        it ≤ v.last parent → pat.Matches v parent it m matched it' m' →
          (e.parse v parent it).map Prod.fst = if matched then some it' else none) ∧
    (∀ (p q r : PatternExpr N) (made : PatternDef N),
      (∃ pat, (seq (seq p q) r).build = .ok pat ∧ pat.pattern = made) ↔
        ∃ pat, (seq p (seq q r)).build = .ok pat ∧ pat.pattern = made) ∧
    ∀ (a b : Token) (as bs : List Token), ∃ pat : Pattern N,
      (choice (tokenMatch a as) (tokenMatch b bs)).build = .ok pat ∧
      pat.pattern = .tokenMatch (a :: as ++ b :: bs) .null ∧
      ∀ (v : NodeView N) fuel it parent m, pat.pattern.matchAt v fuel it parent m =
        (PatternDef.choice false (.tokenMatch (a :: as) .null) (.tokenMatch (b :: bs) .null)
          .null).matchAt v fuel it parent m := by
  refine ⟨fun e pat h v parent it m matched it' m' hit hm => ?_, build_seq_assoc,
    fun a b as bs => ⟨_, rfl, rfl, fun v fuel it parent m => ?_⟩⟩
  · obtain ⟨fuel, hm⟩ := hm
    exact build_agrees h fuel parent it m matched it' m' hit hm
  · exact Agrees.matchAt_merged (a :: as) (b :: bs) it m

/-- `T(a) * ~T(b)` on `a c` -/
theorem match_is_parse_two :
    let e : PatternExpr Nat := seq (tokenMatch ⟨"a", 0⟩ []) (opt (tokenMatch ⟨"b", 0⟩ []))
    let v := NodeView.leaves ⟨"root", 0⟩ [⟨"a", 0⟩, ⟨"c", 0⟩]
    (e.parse v 0 0).map Prod.fst = some 1 := by
  intro e v
  exact match_is_parse.1 e _ rfl v 0 0 {} true 1 _ (by decide) ⟨0, rfl⟩

end PatternExpr

end Trieste
