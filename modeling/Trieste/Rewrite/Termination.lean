import Trieste.Library.Fuel
import Trieste.Rewrite.Semantics

namespace Trieste
set_option autoImplicit true
open Library Relation

variable {N : Type}

theorem insideLoop_mono {v : NodeView N} (h : insideLoop v types fuel p = some found)
    (hle : fuel ≤ fuel') : insideLoop v types fuel' p = some found := by
  induction fuel generalizing p fuel' with
  | zero =>
    cases p with
    | none => cases fuel' <;> exact h
    | some p => cases h
  | succ fuel ih =>
    cases p with
    | none => cases fuel' <;> exact h
    | some p =>
      cases fuel' with
      | zero => cases hle
      | succ fuel' =>
        rw [insideLoop] at h ⊢
        split at h
        · next htype => rwa [if_pos htype]
        · next htype =>
          rw [if_neg htype]
          exact ih h (Nat.le_of_succ_le_succ hle)

theorem repLoop_mono {body body' : NodeIt → Match N → MatchResult N}
    (hbody : ∀ it m r, body it m = some r → body' it m = some r)
    (h : repLoop body stop n it m = some r) (hle : n ≤ n') : repLoop body' stop n' it m = some r := by
  induction n generalizing it m n' with
  | zero => cases h
  | succ n ih =>
    cases n' with
    | zero => cases hle
    | succ n' =>
      rw [repLoop] at h ⊢
      split at h
      · next hstop => rwa [if_pos hstop]
      · next hstop =>
        obtain ⟨⟨matched, it', m'⟩, hm, h⟩ := Option.bind_eq_some_iff.1 h
        rw [if_neg hstop, hbody _ _ _ hm, Option.bind_some]
        cases matched with
        | false => exact h
        | true => exact ih h (Nat.le_of_succ_le_succ hle)

theorem extends_andThen {x y : MatchResult N} {k k' : NodeIt → Match N → MatchResult N}
    (h : Extends x y) (hk : ∀ it m, Extends (k it m) (k' it m)) :
    Extends (x.andThen k) (y.andThen k') := by
  apply h.bind
  intro r
  obtain ⟨matched, it, m⟩ := r
  exact .ite (hk it m) (.refl _)

namespace PatternDef
variable {v : NodeView N}

theorem matchAt_mono (hle : fuel ≤ fuel') (p : PatternDef N) (it : NodeIt) (parent : N)
    (m : Match N) : Extends (p.matchAt v fuel it parent m) (p.matchAt v fuel' it parent m) := by
  induction p generalizing it parent m with
  | null => exact .refl _
  | last => exact .refl _
  | cap name p k ihp ihk =>
    apply extends_andThen (ihp it parent m)
    intro it' m'
    exact ihk it' parent _
  | anything k ih => exact .ite (.refl _) (ih _ parent m)
  | tokenMatch types k ih =>
    rw [matchAt, matchAt]
    split
    · exact .refl _
    · exact .ite (ih _ parent m) (.refl _)
  | regexMatch type re k ih =>
    rw [matchAt, matchAt]
    split
    · exact .refl _
    · exact .ite (ih _ parent m) (.refl _)
  | opt p k ihp ihk =>
    apply (ihp it parent m.addFrame).bind
    intro r
    obtain ⟨matched, it', m'⟩ := r
    exact .ite (ihk it' parent m') (ihk it parent _)
  | rep p k ihp ihk =>
    rw [matchAt, matchAt]
    apply Extends.bind
    · intro r hr
      apply repLoop_mono _ hr hle
      intro it m r
      exact ihp it parent m r
    · intro r
      exact ihk r.1 parent r.2
  | not p k ihp ihk =>
    apply Extends.ite (.refl _)
    apply (ihp it parent m).bind
    intro r
    obtain ⟨matched, it', m'⟩ := r
    exact .ite (.refl _) (ihk _ parent m')
  | choice capturesLeft p q k ihp ihq ihk =>
    apply (ihp it parent _).bind
    intro r
    obtain ⟨matched, it', m'⟩ := r
    apply Extends.ite (ihk it' parent m')
    apply extends_andThen (ihq it parent _)
    intro it' m'
    exact ihk it' parent m'
  | insideStar types k ih =>
    rw [matchAt, matchAt]
    apply Extends.bind
    · intro found hfound
      exact insideLoop_mono hfound hle
    · intro found
      exact .ite (ih it parent m) (.refl _)
  | inside types k ih => exact .ite (ih it parent m) (.refl _)
  | first k ih => exact .ite (ih it parent m) (.refl _)
  | children p c k ihp ihc ihk =>
    apply extends_andThen (ihp it parent m)
    intro it' m'
    apply (Extends.refl (v.child? parent it)).bind
    intro begin
    apply (ihc 0 begin m').bind
    intro r
    obtain ⟨matched, it'', m''⟩ := r
    exact .ite (ihk it' parent m'') (.refl _)
  | pred p k ihp ihk =>
    apply (ihp it parent m).bind
    intro r
    obtain ⟨matched, it', m'⟩ := r
    exact .ite (ihk it parent m') (.refl _)
  | negPred p k ihp ihk =>
    apply (ihp it parent m).bind
    intro r
    obtain ⟨matched, it', m'⟩ := r
    exact .ite (.refl _) (ihk it parent m')
  | action f p k ihp ihk =>
    apply extends_andThen (ihp it parent m)
    intro it' m'
    exact .ite (ihk it' parent m') (.refl _)

end PatternDef

def Again (v : NodeView N) (parent : N) (f : Peg β) (it it' : NodeIt) : Prop :=
  it ≠ v.last parent ∧ ∃ a, f it = some (it', a)

/-- In every round before the end the body returns, and it does not match without consuming. -/
def Rounds (v : NodeView N) (parent : N) (f : Peg β) (returns : NodeIt → Prop)
    (it : NodeIt) : Prop :=
  ∀ j, ReflTransGen (Again v parent f) it j → j ≠ v.last parent →
    returns j ∧ ∀ a, f j ≠ some (j, a)

namespace PatternExpr

/-- A repeated `In` climbs to the root, and a repeated repetition is the repetition itself. -/
def haltsRep (v : NodeView N) (parent : N) (f : Peg (Token × NodeRange N)) (returns : NodeIt → Prop) :
    PatternExpr N → NodeIt → Prop
  | inside _ _, _ => True
  | rep _, it => returns it
  | _, it => Rounds v parent f returns it

/-- Every repetition that is reached comes to its end, and the first operand of `<<` does not
match at the end of the children. -/
def Halts (v : NodeView N) : PatternExpr N → N → NodeIt → Prop
  | anything, _, _ | first, _, _ | last, _, _ | tokenMatch _ _, _, _ | regexMatch _ _, _, _
  | inside _ _, _, _ => True
  | action _ p, parent, it | cap _ p, parent, it | opt p, parent, it | pred p, parent, it
  | negPred p, parent, it => p.Halts v parent it
  | rep p, parent, it => p.haltsRep v parent (p.parse v parent) (p.Halts v parent) it
  | not p, parent, it => it ≠ v.last parent → p.Halts v parent it
  | seq p q, parent, it =>
    p.Halts v parent it ∧ ∀ it' a, p.parse v parent it = some (it', a) → q.Halts v parent it'
  | choice p q, parent, it =>
    p.Halts v parent it ∧ (p.parse v parent it = none → q.Halts v parent it)
  | children p q, parent, it =>
    p.Halts v parent it ∧ ∀ it' a, p.parse v parent it = some (it', a) →
      ∃ n, v.child? parent it = some n ∧ q.Halts v n 0

end PatternExpr

namespace Rounds
variable {v : NodeView N} {parent : N} {f : Peg β} {returns : NodeIt → Prop}

theorem of_last : Rounds v parent f returns (v.last parent) := by
  intro j hj hne
  rcases hj.cases_head with rfl | ⟨c, hc, _⟩
  · exact absurd rfl hne
  · exact absurd rfl hc.1

theorem of_none (hreturns : returns it) (hf : f it = none) : Rounds v parent f returns it := by
  intro j hj _
  rcases hj.cases_head with rfl | ⟨c, hc, _⟩
  · exact ⟨hreturns, fun a ha => by rw [hf] at ha; cases ha⟩
  · obtain ⟨-, a, ha⟩ := hc
    rw [hf] at ha
    cases ha

theorem of_some (hreturns : returns it) (hne : it ≠ v.last parent) (hf : f it = some (it', a))
    (h : Rounds v parent f returns it') : Rounds v parent f returns it := by
  intro j hj hj'
  rcases hj.cases_head with rfl | ⟨c, hc, hcj⟩
  · apply And.intro hreturns
    intro b hb
    rw [hf] at hb
    cases hb
    exact (h _ .refl hne).2 a hf
  · obtain ⟨-, b, hb⟩ := hc
    rw [hf] at hb
    cases hb
    exact h j hcj hj'

theorem next (h : Rounds v parent f returns it) (hne : it ≠ v.last parent)
    (hf : f it = some (it', a)) : Rounds v parent f returns it' :=
  fun j hj => h j (hj.head ⟨hne, a, hf⟩)

end Rounds

/-- The body returns exactly where `returns` says so, from any captures. -/
def ReturnsAt (v : NodeView N) (p : PatternDef N) (parent : N) (returns : NodeIt → Prop) : Prop :=
  ∀ it m, it ≤ v.last parent →
    (Halting (fun fuel => p.matchAt v fuel it parent m) ↔ returns it)

section Loops
variable {v : NodeView N} {p : PatternDef N} {parent : N} {f : Peg (Token × NodeRange N)}
  {returns : NodeIt → Prop}

theorem rounds_of_repLoop (hp : ReturnsAt v p parent returns)
    (ha : Agrees v fuel p parent f) (hb : f.Bounded (v.last parent)) (hit : it ≤ v.last parent)
    (h : repLoop (fun it m => p.matchAt v fuel it parent m) (v.last parent) n it m = some r) :
    Rounds v parent f returns it := by
  induction n generalizing it m with
  | zero => cases h
  | succ n ih =>
    rw [repLoop] at h
    split at h
    · next hlast =>
      rw [hlast]
      exact .of_last
    · next hne =>
      obtain ⟨⟨matched, it', m'⟩, hm, h⟩ := Option.bind_eq_some_iff.1 h
      have hreturns : returns it := (hp it m hit).1 ⟨_, fuel, hm⟩
      have hreports := ha it m matched it' m' hit hm
      cases matched with
      | false => exact .of_none hreturns (reports_false.1 hreports)
      | true =>
        obtain ⟨a, hf⟩ := reports_true.1 hreports
        exact .of_some hreturns hne hf (ih (hb it it' a hit hf).2 h)

theorem repLoop_of_rounds (hp : ReturnsAt v p parent returns)
    (ha : ∀ fuel, Agrees v fuel p parent f) (hb : f.Bounded (v.last parent))
    (hit : it ≤ v.last parent) (h : Rounds v parent f returns it) (m : Match N) :
    Halting fun fuel =>
      repLoop (fun it m => p.matchAt v fuel it parent m) (v.last parent) fuel it m := by
  induction hd : v.last parent - it using Nat.strong_induction_on generalizing it m with
  | _ d ih =>
    by_cases hlast : it = v.last parent
    · refine ⟨(it, m), 1, ?_⟩
      simp only [repLoop, if_pos hlast]
    · obtain ⟨hreturns, hstuck⟩ := h it .refl hlast
      obtain ⟨⟨matched, it', m'⟩, n, hn⟩ := (hp it m hit).2 hreturns
      have hmore : ∀ k, n ≤ k → p.matchAt v k it parent m = some (matched, it', m') :=
        fun k hk => PatternDef.matchAt_mono hk p it parent m _ hn
      have hreports := ha n it m matched it' m' hit hn
      cases matched with
      | false =>
        refine ⟨(it, m'), n + 1, ?_⟩
        simp [repLoop, hlast, hmore (n + 1) (Nat.le_succ n)]
      | true =>
        obtain ⟨a, hf⟩ := reports_true.1 hreports
        obtain ⟨hle, hle'⟩ := hb it it' a hit hf
        have hne : it ≠ it' := by
          intro heq
          rw [← heq] at hf
          exact hstuck a hf
        have hlt : it < it' := Nat.lt_of_le_of_ne hle hne
        have hcloser : v.last parent - it' < d := by
          rw [← hd]
          exact Nat.sub_lt_sub_left (hlt.trans_le hle') hlt
        obtain ⟨r, k, hk⟩ := ih _ hcloser hle' (h.next hlast hf) m' rfl
        refine ⟨r, max n k + 1, ?_⟩
        have hbody := hmore (max n k + 1) ((Nat.le_max_left n k).trans (Nat.le_succ _))
        simp only [repLoop, if_neg hlast, hbody, Option.bind_some, if_true]
        apply repLoop_mono _ hk (Nat.le_max_right n k)
        intro i m₁ r₁
        exact PatternDef.matchAt_mono ((Nat.le_max_right n k).trans (Nat.le_succ _)) p i parent m₁ r₁

theorem halting_insideLoop (types : List Token)
    (hroot : Acc (fun a b => v.parent b = some a) n) :
    Halting fun fuel => insideLoop v types fuel (some n) := by
  induction hroot with
  | intro n _ ih =>
    by_cases ht : v.type n ∈ types
    · refine ⟨true, 1, ?_⟩
      simp only [insideLoop, if_pos ht]
    · rcases hpar : v.parent n with _ | a
      · refine ⟨false, 1, ?_⟩
        simp only [insideLoop, if_neg ht, hpar]
      · obtain ⟨found, k, hk⟩ := ih a hpar
        refine ⟨found, k + 1, ?_⟩
        simp only [insideLoop, if_neg ht, hpar, hk]

end Loops

namespace PatternExpr
variable {v : NodeView N} {pat : Pattern N} {parent : N}

theorem build_rep {e : PatternExpr N} (h : e.build = .ok pat) (hr : pat.pattern = .rep p .null) :
    ∃ e', e = rep e' := by
  cases e with
  | rep e => exact ⟨e, rfl⟩
  | anything | first | last | tokenMatch | regexMatch | inside =>
    cases h
    cases hr
  | action | cap | opt =>
    obtain ⟨q, _, h⟩ := bind_eq_ok.1 h
    cases h
    cases hr
  | pred =>
    obtain ⟨q, _, h⟩ := bind_eq_ok.1 h
    simp [(Pattern.pred_ok h).1] at hr
  | negPred =>
    obtain ⟨q, _, h⟩ := bind_eq_ok.1 h
    simp [(Pattern.negPred_ok h).1] at hr
  | not =>
    obtain ⟨q, _, h⟩ := bind_eq_ok.1 h
    simp [(Pattern.not_ok h).1] at hr
  | seq =>
    obtain ⟨q, hq, h⟩ := bind_eq_ok.1 h
    obtain ⟨q', hq', h⟩ := bind_eq_ok.1 h
    have hs := (Pattern.seq_ok h).1
    rw [hr] at hs
    exact absurd rfl (PatternDef.setContinuation_continuation hs (build_ne_null hq)
      (build_ne_null hq'))
  | choice =>
    obtain ⟨q, _, h⟩ := bind_eq_ok.1 h
    obtain ⟨q', _, h⟩ := bind_eq_ok.1 h
    obtain ⟨_, ⟨_, _, _, _, hc⟩ | hc⟩ := Pattern.choice_ok h <;> rw [hc] at hr <;> cases hr
  | children =>
    obtain ⟨q, _, h⟩ := bind_eq_ok.1 h
    obtain ⟨q', _, h⟩ := bind_eq_ok.1 h
    cases h
    cases hr

theorem matchAt_monotonic (p : PatternDef N) (it : NodeIt) (m : Match N) :
    Monotonic fun fuel => p.matchAt v fuel it parent m :=
  fun _ _ hle => PatternDef.matchAt_mono hle p it parent m

theorem matched_iff {e : PatternExpr N} (h : e.build = .ok pat) (hit : it ≤ v.last parent)
    (hy : Yields (fun fuel => pat.pattern.matchAt v fuel it parent m) (matched, it', m')) :
    Reports (e.parse v parent it) matched it' := by
  obtain ⟨fuel, hm⟩ := hy
  exact build_agrees h fuel parent it m matched it' m' hit hm

theorem ite_some {c : Prop} [Decidable c] {a b : α} :
    ∃ r, (if c then some a else some b) = some r := by
  split <;> exact ⟨_, rfl⟩

theorem halting_andThen {x : Nat → MatchResult N} {k : Nat → NodeIt → Match N → MatchResult N}
    (hx : Monotonic x) (hk : ∀ it m, Monotonic fun fuel => k fuel it m) :
    Halting (fun fuel => (x fuel).andThen (k fuel)) ↔
      ∃ matched it m, Yields x (matched, it, m) ∧
        (matched = true → Halting fun fuel => k fuel it m) := by
  have hk' : ∀ o : Bool × NodeIt × Match N,
      Monotonic fun fuel => if o.1 then k fuel o.2.1 o.2.2 else some (false, o.2.1, o.2.2) :=
    fun o n n' hle => .ite (hk o.2.1 o.2.2 n n' hle) (.refl _)
  refine (halting_bind hx hk').trans ⟨?_, ?_⟩
  · intro h
    obtain ⟨⟨matched, it, m⟩, hy, hrest⟩ := h
    refine ⟨matched, it, m, hy, ?_⟩
    intro hmatched
    simpa only [hmatched, if_true] using hrest
  · intro h
    obtain ⟨matched, it, m, hy, hrest⟩ := h
    refine ⟨(matched, it, m), hy, ?_⟩
    cases matched with
    | false => exact halting_const _
    | true => exact hrest rfl

theorem returnsAt_seq {e e' : PatternExpr N} {p q r : Pattern N} (hp : e.build = .ok p)
    (h : p.pattern.setContinuation q.pattern = .ok r.pattern)
    (ihp : ReturnsAt v p.pattern parent (e.Halts v parent))
    (ihq : ReturnsAt v q.pattern parent (e'.Halts v parent)) :
    ReturnsAt v r.pattern parent ((seq e e').Halts v parent) := by
  intro it m hit
  have hbound := e.parse_bounded v parent
  simp only [PatternDef.matchAt_setContinuation h]
  rw [halting_andThen (matchAt_monotonic _ _ _) (matchAt_monotonic _), Halts, ← ihp it m hit]
  constructor
  · intro h
    obtain ⟨matched, it', m', hy, hrest⟩ := h
    refine ⟨⟨_, hy⟩, ?_⟩
    intro j a hj
    have hreports := matched_iff hp hit hy
    cases matched with
    | false =>
      rw [reports_false.1 hreports] at hj
      cases hj
    | true =>
      obtain ⟨b, hb⟩ := reports_true.1 hreports
      rw [hb] at hj
      cases hj
      exact (ihq it' m' (hbound it it' _ hit hb).2).1 (hrest rfl)
  · intro h
    obtain ⟨⟨⟨matched, it', m'⟩, hy⟩, hrest⟩ := h
    refine ⟨matched, it', m', hy, ?_⟩
    rintro rfl
    obtain ⟨b, hb⟩ := reports_true.1 (matched_iff hp hit hy)
    exact (ihq it' m' (hbound it it' b hit hb).2).2 (hrest it' b hb)

theorem returnsAt_choice {e e' : PatternExpr N} {p q : Pattern N} (hp : e.build = .ok p)
    (c : Bool) (ihp : ReturnsAt v p.pattern parent (e.Halts v parent))
    (ihq : ReturnsAt v q.pattern parent (e'.Halts v parent)) :
    ReturnsAt v (.choice c p.pattern q.pattern .null) parent ((choice e e').Halts v parent) := by
  intro it m hit
  have hmono : ∀ o : Bool × NodeIt × Match N, Monotonic fun fuel =>
      if o.1 then PatternDef.null.matchAt v fuel o.2.1 parent o.2.2
      else MatchResult.andThen (q.pattern.matchAt v fuel it parent
        (if c then o.2.2.returnToFrame m.index else o.2.2)) fun it' m' =>
          PatternDef.null.matchAt v fuel it' parent m' := by
    intro o n n' hle
    apply Extends.ite (.refl _)
    apply extends_andThen (PatternDef.matchAt_mono hle _ _ _ _)
    intro it' m'
    exact .refl _
  refine (halting_bind (matchAt_monotonic _ _ _) hmono).trans ?_
  rw [Halts, ← ihp it (if c then m.addFrame else m) hit]
  constructor
  · intro h
    obtain ⟨⟨matched, it', m'⟩, hy, hrest⟩ := h
    refine ⟨⟨_, hy⟩, ?_⟩
    intro hnone
    have hreports := matched_iff hp hit hy
    cases matched with
    | false =>
      obtain ⟨o, n, hn⟩ := hrest
      obtain ⟨o', ho, -⟩ := Option.bind_eq_some_iff.1 hn
      exact (ihq it _ hit).1 ⟨o', n, ho⟩
    | true =>
      obtain ⟨b, hb⟩ := reports_true.1 hreports
      rw [hnone] at hb
      cases hb
  · intro h
    obtain ⟨⟨⟨matched, it', m'⟩, hy⟩, hrest⟩ := h
    refine ⟨(matched, it', m'), hy, ?_⟩
    cases matched with
    | true => exact halting_const _
    | false =>
      have hnone := reports_false.1 (matched_iff hp hit hy)
      obtain ⟨⟨matched', it₂, m₂⟩, n, hn⟩ :=
        (ihq it (if c then m'.returnToFrame m.index else m') hit).2 (hrest hnone)
      refine ⟨(matched', it₂, m₂), n, ?_⟩
      simp only [Bool.false_eq_true, if_false, hn, MatchResult.andThen_some]
      cases matched' <;> rfl

theorem returnsAt_children {e e' : PatternExpr N} {p q : Pattern N} (hp : e.build = .ok p)
    (ihp : ReturnsAt v p.pattern parent (e.Halts v parent))
    (ihq : ∀ n, ReturnsAt v q.pattern n (e'.Halts v n)) :
    ReturnsAt v (.children p.pattern q.pattern .null) parent
      ((children e e').Halts v parent) := by
  intro it m hit
  have hmono : ∀ (it' : NodeIt) (m' : Match N), Monotonic fun fuel =>
      (v.child? parent it).bind fun begin =>
        (q.pattern.matchAt v fuel 0 begin m').bind fun r =>
          if r.1 then PatternDef.null.matchAt v fuel it' parent r.2.2
          else some (false, it', r.2.2) := by
    intro it' m' n n' hle
    apply (Extends.refl _).bind
    intro begin
    exact (PatternDef.matchAt_mono hle _ _ _ _).bind fun r => .refl _
  refine (halting_andThen (matchAt_monotonic _ _ _) hmono).trans ?_
  rw [Halts, ← ihp it m hit]
  constructor
  · intro h
    obtain ⟨matched, it', m', hy, hrest⟩ := h
    refine ⟨⟨_, hy⟩, ?_⟩
    intro j a hj
    have hreports := matched_iff hp hit hy
    cases matched with
    | false =>
      rw [reports_false.1 hreports] at hj
      cases hj
    | true =>
      obtain ⟨r, n, hn⟩ := hrest rfl
      obtain ⟨begin, hbegin, hn⟩ := Option.bind_eq_some_iff.1 hn
      obtain ⟨o, ho, -⟩ := Option.bind_eq_some_iff.1 hn
      exact ⟨begin, hbegin, (ihq begin 0 m' (Nat.zero_le _)).1 ⟨o, n, ho⟩⟩
  · intro h
    obtain ⟨⟨⟨matched, it', m'⟩, hy⟩, hrest⟩ := h
    refine ⟨matched, it', m', hy, ?_⟩
    rintro rfl
    obtain ⟨b, hb⟩ := reports_true.1 (matched_iff hp hit hy)
    obtain ⟨begin, hbegin, hreturns⟩ := hrest it' b hb
    obtain ⟨⟨matched, it₂, m₂⟩, n, hn⟩ := (ihq begin 0 m' (Nat.zero_le _)).2 hreturns
    refine ⟨(matched, it', m₂), n, ?_⟩
    simp only [hbegin, hn, Option.bind_some]
    cases matched <;> rfl

theorem returnsAt_rep {e : PatternExpr N} {p : Pattern N} (hp : e.build = .ok p)
    (h : (rep e).build = .ok pat) (hroot : Acc (fun a b => v.parent b = some a) parent)
    (ih : ReturnsAt v p.pattern parent (e.Halts v parent)) :
    ReturnsAt v pat.pattern parent ((rep e).Halts v parent) := by
  intro it m hit
  obtain ⟨p', hp', h⟩ := bind_eq_ok.1 h
  rw [hp] at hp'
  cases hp'
  rcases Pattern.rep_ok h with ⟨p', hrep, rfl⟩ | ⟨types, hin, rfl⟩ | ⟨hc, _, rfl⟩
  · obtain ⟨e', rfl⟩ := build_rep hp hrep
    exact ih it m hit
  · obtain ⟨type, rest, rfl, rfl⟩ := build_inside hp hin
    apply iff_of_true _ trivial
    apply (halting_bind_of_total ?_).2 (halting_insideLoop (type :: rest) hroot)
    intro fuel found
    cases found <;> exact ⟨_, rfl⟩
  · have hrounds : (rep e).Halts v parent it =
        Rounds v parent (e.parse v parent) (e.Halts v parent) it := by
      cases e
      case inside =>
        cases hp
        cases hc
      case rep e =>
        obtain ⟨q, _, hq⟩ := bind_eq_ok.1 hp
        rcases Pattern.rep_ok hq with ⟨_, hrep, rfl⟩ | ⟨_, _, rfl⟩ | ⟨_, _, rfl⟩
        · simp only [hrep, PatternDef.customRep] at hc
          cases hc
        · cases hc
        · cases hc
      all_goals rfl
    rw [hrounds]
    refine (halting_bind_of_total fun fuel o => ⟨_, rfl⟩).trans ⟨?_, ?_⟩
    · intro hloop
      obtain ⟨r, fuel, hfuel⟩ := hloop
      exact rounds_of_repLoop ih (build_agrees hp fuel parent) (e.parse_bounded v parent) hit hfuel
    · intro hloop
      exact repLoop_of_rounds ih (fun fuel => build_agrees hp fuel parent)
        (e.parse_bounded v parent) hit hloop m

theorem returnsAt_of_total {p : PatternDef N}
    (h : ∀ it m, ∃ r, p.matchAt v 0 it parent m = some r) :
    ReturnsAt v p parent fun _ => True := by
  intro it m _
  obtain ⟨r, hr⟩ := h it m
  exact iff_of_true ⟨r, 0, hr⟩ trivial

theorem returnsAt_tokenMatch (types : List Token) :
    ReturnsAt v (.tokenMatch types .null) parent fun _ => True := by
  apply returnsAt_of_total
  intro it m
  rw [PatternDef.matchAt]
  split
  · exact ⟨_, rfl⟩
  · split <;> exact ⟨_, rfl⟩

theorem build_returnsAt {e : PatternExpr N} (h : e.build = .ok pat)
    (hroot : ∀ n, Acc (fun a b => v.parent b = some a) n) :
    ReturnsAt v pat.pattern parent (e.Halts v parent) := by
  induction e generalizing pat parent with
  | anything | first | inside =>
    cases h
    apply returnsAt_of_total
    intro it m
    apply ite_some
  | last =>
    cases h
    exact returnsAt_of_total fun it m => ⟨_, rfl⟩
  | tokenMatch =>
    cases h
    exact returnsAt_tokenMatch _
  | regexMatch =>
    cases h
    apply returnsAt_of_total
    intro it m
    simp only [Pattern.regex, PatternDef.matchAt]
    split
    · exact ⟨_, rfl⟩
    · split <;> exact ⟨_, rfl⟩
  | cap name e ih =>
    obtain ⟨p, hp, h⟩ := bind_eq_ok.1 h
    cases h
    intro it m hit
    refine (halting_bind_of_total ?_).trans (ih hp it m hit)
    intro fuel r
    apply ite_some
  | action f e ih =>
    obtain ⟨p, hp, h⟩ := bind_eq_ok.1 h
    cases h
    intro it m hit
    refine (halting_bind_of_total ?_).trans (ih hp it m hit)
    intro fuel r
    cases hm : r.1 <;> simp only [hm, Bool.false_eq_true, if_false, if_true]
    · exact ⟨_, rfl⟩
    · apply ite_some
  | opt e ih =>
    obtain ⟨p, hp, h⟩ := bind_eq_ok.1 h
    cases h
    intro it m hit
    refine (halting_bind_of_total ?_).trans (ih hp it m.addFrame hit)
    intro fuel r
    apply ite_some
  | pred e ih =>
    obtain ⟨p, hp, h⟩ := bind_eq_ok.1 h
    rw [(Pattern.pred_ok h).1]
    intro it m hit
    refine (halting_bind_of_total ?_).trans (ih hp it m hit)
    intro fuel r
    apply ite_some
  | negPred e ih =>
    obtain ⟨p, hp, h⟩ := bind_eq_ok.1 h
    rw [(Pattern.negPred_ok h).1]
    intro it m hit
    refine (halting_bind_of_total ?_).trans (ih hp it m hit)
    intro fuel r
    apply ite_some
  | not e ih =>
    obtain ⟨p, hp, h⟩ := bind_eq_ok.1 h
    rw [(Pattern.not_ok h).1]
    intro it m hit
    by_cases hlast : it = v.last parent
    · simp only [PatternDef.matchAt, Halts, hlast, if_true]
      exact iff_of_true (halting_const _) fun hne => absurd rfl hne
    · simp only [PatternDef.matchAt, Halts, hlast, if_false]
      refine (halting_bind_of_total ?_).trans ((ih hp it m hit).trans ⟨fun h _ => h, fun h => h hlast⟩)
      intro fuel r
      apply ite_some
  | rep e ih =>
    obtain ⟨p, hp, _⟩ := bind_eq_ok.1 h
    exact returnsAt_rep hp h (hroot parent) (ih hp)
  | seq e e' ihe ihe' =>
    obtain ⟨p, hp, h⟩ := bind_eq_ok.1 h
    obtain ⟨q, hq, h⟩ := bind_eq_ok.1 h
    exact returnsAt_seq hp (Pattern.seq_ok h).1 (ihe hp) (ihe' hq)
  | choice e e' ihe ihe' =>
    obtain ⟨p, hp, h⟩ := bind_eq_ok.1 h
    obtain ⟨q, hq, h⟩ := bind_eq_ok.1 h
    have hreturns : ReturnsAt v p.pattern parent (e.Halts v parent) := ihe hp
    have hreturns' : ReturnsAt v q.pattern parent (e'.Halts v parent) := ihe' hq
    obtain ⟨_, ⟨types, types', ht, ht', hr⟩ | hr⟩ := Pattern.choice_ok h
    · rw [hr]
      rw [ht] at hreturns
      rw [ht'] at hreturns'
      intro it m hit
      have hall (types : List Token) :
          ReturnsAt v (.tokenMatch types .null) parent fun _ => True := returnsAt_tokenMatch types
      have he := (hreturns it m hit).1 ((hall types it m hit).2 trivial)
      have he' := (hreturns' it m hit).1 ((hall types' it m hit).2 trivial)
      exact iff_of_true ((hall (types ++ types') it m hit).2 trivial) ⟨he, fun _ => he'⟩
    · rw [hr]
      exact returnsAt_choice hp _ hreturns hreturns'
  | children e e' ihe ihe' =>
    obtain ⟨p, hp, h⟩ := bind_eq_ok.1 h
    obtain ⟨q, hq, h⟩ := bind_eq_ok.1 h
    cases h
    exact returnsAt_children hp (ihe hp) fun n => ihe' hq

def consumes : PatternExpr N → Bool
  | anything | tokenMatch _ _ | regexMatch _ _ | not _ => true
  | first | last | inside _ _ | opt _ | pred _ | negPred _ | rep _ => false
  | action _ p | cap _ p | children p _ => p.consumes
  | seq p q => p.consumes || q.consumes
  | choice p q => p.consumes && q.consumes

/-- The operand of a repetition that never stays where it is, or is no loop of its own. -/
def movesRep : PatternExpr N → Bool
  | inside _ _ | rep _ => true
  | p => p.consumes

/-- Every repeated operand, and every first operand of `<<`, consumes a node. -/
def moves : PatternExpr N → Bool
  | anything | first | last | tokenMatch _ _ | regexMatch _ _ | inside _ _ => true
  | action _ p | cap _ p | opt p | pred p | negPred p | not p => p.moves
  | rep p => p.movesRep && p.moves
  | seq p q | choice p q => p.moves && q.moves
  | children p q => p.consumes && p.moves && q.moves

theorem item_lt {xs : List N} {ok : N → Bool} (h : (Peg.item xs ok : Peg β) it = some (it', a)) :
    it < it' := by
  obtain ⟨x, _, h⟩ := Option.bind_eq_some_iff.1 h
  split at h
  · cases h
    exact Nat.lt_succ_self it
  · cases h

theorem consumes_lt {e : PatternExpr N} (hc : e.consumes) (hit : it ≤ v.last parent)
    (h : e.parse v parent it = some (it', a)) : it < it' := by
  induction e generalizing it it' a with
  | anything | tokenMatch | regexMatch => exact item_lt h
  | first | last | inside | opt | pred | negPred | rep => cases hc
  | not p _ =>
    obtain ⟨⟨j, b⟩, hj, h⟩ := Option.bind_eq_some_iff.1 h
    obtain ⟨⟨k, c⟩, hk, h⟩ := Option.map_eq_some_iff.1 h
    cases h
    exact Nat.lt_of_le_of_lt (Peg.Bounded.notLook _ _ it j b hit hj).1 (item_lt hk)
  | action f p ih =>
    obtain ⟨⟨j, b⟩, hj, h⟩ := Option.bind_eq_some_iff.1 h
    dsimp only at h
    split at h
    · cases h
      exact ih hc hit hj
    · cases h
  | cap name p ih =>
    obtain ⟨⟨j, b⟩, hj, h⟩ := Option.map_eq_some_iff.1 h
    cases h
    exact ih hc hit hj
  | children p q ih _ =>
    obtain ⟨⟨j, b⟩, hj, h⟩ := Option.bind_eq_some_iff.1 h
    obtain ⟨n, _, h⟩ := Option.bind_eq_some_iff.1 h
    obtain ⟨_, _, h⟩ := Option.map_eq_some_iff.1 h
    cases h
    exact ih hc hit hj
  | seq p q ihp ihq =>
    obtain ⟨⟨j, b⟩, hj, h⟩ := Option.bind_eq_some_iff.1 h
    obtain ⟨⟨k, c⟩, hk, h⟩ := Option.map_eq_some_iff.1 h
    cases h
    obtain ⟨hle, hle'⟩ := p.parse_bounded v parent it j b hit hj
    rcases Bool.or_eq_true_iff.1 hc with hp | hq
    · exact (ihp hp hit hj).trans_le (q.parse_bounded v parent j _ c hle' hk).1
    · exact hle.trans_lt (ihq hq hle' hk)
  | choice p q ihp ihq =>
    obtain ⟨hp, hq⟩ := Bool.and_eq_true_iff.1 hc
    rcases Option.or_eq_some_iff.1 h with h | ⟨_, h⟩
    · exact ihp hp hit h
    · exact ihq hq hit h

theorem moves_halts {e : PatternExpr N} (hm : e.moves) (hit : it ≤ v.last parent) :
    e.Halts v parent it := by
  induction e generalizing parent it with
  | anything | first | last | tokenMatch | regexMatch | inside => trivial
  | action _ p ih | cap _ p ih | opt p ih | pred p ih | negPred p ih => exact ih hm hit
  | not p ih => exact fun _ => ih hm hit
  | seq p q ihp ihq =>
    obtain ⟨hp, hq⟩ := Bool.and_eq_true_iff.1 hm
    apply And.intro (ihp hp hit)
    intro it' a h
    exact ihq hq (p.parse_bounded v parent it it' a hit h).2
  | choice p q ihp ihq =>
    obtain ⟨hp, hq⟩ := Bool.and_eq_true_iff.1 hm
    exact ⟨ihp hp hit, fun _ => ihq hq hit⟩
  | children p q ihp ihq =>
    obtain ⟨hm, hq⟩ := Bool.and_eq_true_iff.1 hm
    obtain ⟨hc, hp⟩ := Bool.and_eq_true_iff.1 hm
    apply And.intro (ihp hp hit)
    intro it' a h
    have hlt : it < v.last parent :=
      (consumes_lt hc hit h).trans_le (p.parse_bounded v parent it it' a hit h).2
    obtain ⟨n, hn⟩ := child?_of_lt v parent hit hlt.ne
    exact ⟨n, hn, ihq hq (Nat.zero_le _)⟩
  | rep p ih =>
    obtain ⟨hrep, hp⟩ := Bool.and_eq_true_iff.1 hm
    have hrounds (hc : p.consumes) : Rounds v parent (p.parse v parent) (p.Halts v parent) it := by
      intro j hj _
      have hjle : j ≤ v.last parent := by
        induction hj with
        | refl => exact hit
        | tail _ hstep ihj =>
          obtain ⟨hne, a, ha⟩ := hstep
          exact (p.parse_bounded v parent _ _ a (ihj hne) ha).2
      exact ⟨ih hp hjle, fun a ha => absurd (consumes_lt hc hjle ha) (Nat.lt_irrefl j)⟩
    cases p
    case inside => trivial
    case rep => exact ih hp hit
    all_goals exact hrounds hrep

/-- `match` returns exactly where no repetition that is reached matches without consuming and
no first operand of `<<` matches at the end of the children; so it returns everywhere where all
these operands consume. -/
theorem match_returns {N : Type} :
    (∀ (e : PatternExpr N) (pat : Pattern N), e.build = .ok pat →
      ∀ v : NodeView N, (∀ n, Acc (fun a b => v.parent b = some a) n) →
        ∀ (parent : N) (it : NodeIt) (m : Match N), it ≤ v.last parent →
          ((∃ matched it' m', pat.Matches v parent it m matched it' m') ↔
            e.Halts v parent it)) ∧
    ∀ (e : PatternExpr N) (v : NodeView N) (parent : N) (it : NodeIt), e.moves = true →
      it ≤ v.last parent → e.Halts v parent it := by
  constructor
  · intro e pat h v hroot parent it m hit
    refine Iff.trans ⟨?_, ?_⟩ (build_returnsAt h hroot it m hit)
    · intro hr
      obtain ⟨matched, it', m', hr⟩ := hr
      exact ⟨_, hr⟩
    · intro hr
      obtain ⟨⟨matched, it', m'⟩, hr⟩ := hr
      exact ⟨matched, it', m', hr⟩
  · intro e v parent it hm hit
    exact moves_halts hm hit

theorem leaves_acc (root : Token) (types : List Token) (n : Nat) :
    Acc (fun a b => (NodeView.leaves root types).parent b = some a) n := by
  have hroot : Acc (fun a b => (NodeView.leaves root types).parent b = some a) 0 :=
    ⟨0, fun a ha => by cases ha⟩
  constructor
  intro a ha
  by_cases hn : n = 0
  · simp [NodeView.leaves, hn] at ha
  · simp only [NodeView.leaves, hn, if_false, Option.some.injEq] at ha
    rwa [← ha]

/-- `(T(a) / T(b))++ * T(c)` on `a b d` -/
theorem match_returns_three :
    let e : PatternExpr Nat := seq (rep (choice (tokenMatch ⟨"a", 0⟩ []) (tokenMatch ⟨"b", 0⟩ [])))
      (tokenMatch ⟨"c", 0⟩ [])
    let v := NodeView.leaves ⟨"root", 0⟩ [⟨"a", 0⟩, ⟨"b", 0⟩, ⟨"d", 0⟩]
    e.Halts v 0 0 := by
  intro e v
  exact (match_returns.1 e _ rfl v (leaves_acc _ _) 0 0 {} (by decide)).1 ⟨false, 2, _, 3, rfl⟩

/-- `(~T(a))++` on `b` goes round for ever. -/
theorem rep_opt_loops :
    let e : PatternExpr Nat := rep (opt (tokenMatch ⟨"a", 0⟩ []))
    let v := NodeView.leaves ⟨"root", 0⟩ [⟨"b", 0⟩]
    ∃ pat, e.build = .ok pat ∧ (∀ n, Acc (fun a b => v.parent b = some a) n) ∧ 0 ≤ v.last 0 ∧
      ∀ m, ¬ ∃ matched it' m', pat.Matches v 0 0 m matched it' m' := by
  intro e v
  refine ⟨_, rfl, leaves_acc _ _, Nat.zero_le _, ?_⟩
  intro m hreturns
  obtain ⟨matched, it', m', hreturns⟩ := hreturns
  have hhalts : e.Halts v 0 0 :=
    (build_returnsAt rfl (leaves_acc _ _) 0 m (Nat.zero_le _)).1 ⟨_, hreturns⟩
  exact (hhalts 0 .refl (by decide)).2 [] rfl

end PatternExpr

end Trieste
