import Trieste.Rewrite.Frames
import Trieste.Rewrite.Semantics

namespace Trieste
set_option autoImplicit true
open Library

variable {N : Type}

/-- Some object of the pattern is a `Cap`. -/
def PatternDef.containsCap : PatternDef N → Bool
  | null | last => false
  | cap _ _ _ => true
  | anything k | tokenMatch _ k | regexMatch _ _ k | insideStar _ k | inside _ k | first k =>
    k.containsCap
  | opt p k | rep p k | not p k | pred p k | negPred p k | action _ p k =>
    p.containsCap || k.containsCap
  | choice _ p q k | children p q k => p.containsCap || q.containsCap || k.containsCap

/-- A relation between the captures before and after a call, kept by the frame operations. -/
structure FrameRelation (R : Match N → Match N → Prop) : Prop where
  refl : ∀ m, R m m
  trans : ∀ {m₁ m₂ m₃}, R m₁ m₂ → R m₂ m₃ → R m₁ m₃
  addFrame : ∀ m, R m m.addFrame
  returned : ∀ {m m'}, R m.addFrame m' → R m (m'.returnToFrame m.index)

/-- Every outcome of the call is related to `m`. -/
def Relates (R : Match N → Match N → Prop) (m : Match N) (x : MatchResult N) : Prop :=
  ∀ matched it' m', x = some (matched, it', m') → R m m'

namespace Relates
variable {R : Match N → Match N → Prop} {x : MatchResult N}

theorem some (h : R m m') : Relates R m (some (matched, it', m')) := by
  intro _ _ _ he
  cases he
  exact h

theorem bind (hR : FrameRelation R) {f : Bool × NodeIt × Match N → MatchResult N}
    (hx : Relates R m x) (hf : ∀ matched it m', Relates R m' (f (matched, it, m'))) :
    Relates R m (x.bind f) := by
  intro matched it' m' h
  obtain ⟨⟨matched₁, it₁, m₁⟩, hx', h⟩ := Option.bind_eq_some_iff.1 h
  exact hR.trans (hx matched₁ it₁ m₁ hx') (hf matched₁ it₁ m₁ matched it' m' h)

theorem andThen (hR : FrameRelation R) {k : NodeIt → Match N → MatchResult N}
    (hx : Relates R m x) (hk : ∀ it m', Relates R m' (k it m')) :
    Relates R m (MatchResult.andThen x k) := by
  refine hx.bind hR fun matched it m' => ?_
  cases matched with
  | false => exact some (hR.refl m')
  | true => exact hk it m'

theorem repLoop (hR : FrameRelation R) {body : NodeIt → Match N → MatchResult N}
    (hbody : ∀ it m, Relates R m (body it m))
    (h : Trieste.repLoop body last n it m = Option.some (it', m')) : R m m' := by
  induction n generalizing it m with
  | zero => cases h
  | succ n ih =>
    simp only [Trieste.repLoop] at h
    split at h
    · cases h
      exact hR.refl _
    · obtain ⟨⟨matched, it₁, m₁⟩, hm, h⟩ := Option.bind_eq_some_iff.1 h
      have hstep := hbody _ m matched it₁ m₁ hm
      cases matched with
      | false =>
        cases h
        exact hstep
      | true => exact hR.trans hstep (ih h)

end Relates

theorem PatternDef.matchAt_relates {R : Match N → Match N → Prop} (hR : FrameRelation R)
    (p : PatternDef N) (hset : p.containsCap = true → ∀ m t r, R m (m.set t r))
    (v : NodeView N) (fuel : Nat) (it : NodeIt) (parent : N) (m : Match N) :
    Relates R m (p.matchAt v fuel it parent m) := by
  induction p generalizing it parent m with
  | null => exact .some (hR.refl m)
  | last => exact .some (hR.refl m)
  | cap name p k ihp ihk =>
    have hset := hset rfl
    refine Relates.andThen hR (ihp (fun _ => hset) it parent m) fun it' m' => ?_
    intro matched it₁ m₁ h
    exact hR.trans (hset m' _ _) (ihk (fun _ => hset) it' parent _ matched it₁ m₁ h)
  | anything k ih =>
    simp only [matchAt]
    split
    · exact .some (hR.refl m)
    · exact ih hset _ parent m
  | tokenMatch types k ih =>
    simp only [matchAt]
    split
    · exact .some (hR.refl m)
    · split
      · exact ih hset _ parent m
      · exact .some (hR.refl m)
  | regexMatch type re k ih =>
    simp only [matchAt]
    split
    · exact .some (hR.refl m)
    · split
      · exact ih hset _ parent m
      · exact .some (hR.refl m)
  | opt p k ihp ihk =>
    simp only [containsCap, Bool.or_eq_true] at hset
    intro matched it' m' h
    simp only [matchAt] at h
    obtain ⟨⟨matched₁, it₁, m₁⟩, hm, h⟩ := Option.bind_eq_some_iff.1 h
    have hp := ihp (fun hc => hset (.inl hc)) it parent m.addFrame matched₁ it₁ m₁ hm
    have hk := ihk (fun hc => hset (.inr hc))
    cases matched₁ with
    | false => exact hR.trans (hR.returned hp) (hk it parent _ matched it' m' h)
    | true => exact hR.trans (hR.trans (hR.addFrame m) hp) (hk it₁ parent m₁ matched it' m' h)
  | rep p k ihp ihk =>
    simp only [containsCap, Bool.or_eq_true] at hset
    intro matched it' m' h
    simp only [matchAt] at h
    obtain ⟨⟨it₁, m₁⟩, hm, h⟩ := Option.bind_eq_some_iff.1 h
    have hp := Relates.repLoop hR (fun it m => ihp (fun hc => hset (.inl hc)) it parent m) hm
    exact hR.trans hp (ihk (fun hc => hset (.inr hc)) it₁ parent m₁ matched it' m' h)
  | not p k ihp ihk =>
    simp only [containsCap, Bool.or_eq_true] at hset
    simp only [matchAt]
    split
    · exact .some (hR.refl m)
    · refine (ihp (fun hc => hset (.inl hc)) it parent m).bind hR fun matched _ m' => ?_
      cases matched with
      | false => exact ihk (fun hc => hset (.inr hc)) _ parent m'
      | true => exact .some (hR.refl m')
  | choice c p q k ihp ihq ihk =>
    simp only [containsCap, Bool.or_eq_true] at hset
    have hk := ihk (fun hc => hset (.inr hc))
    intro matched it' m' h
    simp only [matchAt] at h
    obtain ⟨⟨matched₁, it₁, m₁⟩, hm, h⟩ := Option.bind_eq_some_iff.1 h
    have hp := ihp (fun hc => hset (.inl (.inl hc))) it parent _ matched₁ it₁ m₁ hm
    cases matched₁ with
    | false =>
      have hback : R m (if c then m₁.returnToFrame m.index else m₁) := by
        cases c with
        | false => exact hp
        | true => exact hR.returned hp
      refine hR.trans hback ?_
      exact Relates.andThen hR (ihq (fun hc => hset (.inl (.inr hc))) it parent _)
        (fun it m => hk it parent m) matched it' m' h
    | true =>
      have hstart : R m m₁ := by
        cases c with
        | false => exact hp
        | true => exact hR.trans (hR.addFrame m) hp
      exact hR.trans hstart (hk it₁ parent m₁ matched it' m' h)
  | insideStar types k ih =>
    intro matched it' m' h
    simp only [matchAt] at h
    obtain ⟨found, _, h⟩ := Option.bind_eq_some_iff.1 h
    cases found with
    | false =>
      cases h
      exact hR.refl _
    | true => exact ih hset it parent m matched it' m' h
  | inside types k ih =>
    simp only [matchAt]
    split
    · exact ih hset it parent m
    · exact .some (hR.refl m)
  | first k ih =>
    simp only [matchAt]
    split
    · exact ih hset it parent m
    · exact .some (hR.refl m)
  | children p c k ihp ihc ihk =>
    simp only [containsCap, Bool.or_eq_true] at hset
    refine Relates.andThen hR (ihp (fun hc => hset (.inl (.inl hc))) it parent m) fun it₁ m₁ => ?_
    intro matched it' m' h
    obtain ⟨n, _, h⟩ := Option.bind_eq_some_iff.1 h
    refine (ihc (fun hc => hset (.inl (.inr hc))) 0 n m₁).bind hR (fun ok _ m₂ => ?_)
      matched it' m' h
    cases ok with
    | false => exact .some (hR.refl m₂)
    | true => exact ihk (fun hc => hset (.inr hc)) it₁ parent m₂
  | pred p k ihp ihk =>
    simp only [containsCap, Bool.or_eq_true] at hset
    refine (ihp (fun hc => hset (.inl hc)) it parent m).bind hR fun ok _ m₁ => ?_
    cases ok with
    | false => exact .some (hR.refl m₁)
    | true => exact ihk (fun hc => hset (.inr hc)) it parent m₁
  | negPred p k ihp ihk =>
    simp only [containsCap, Bool.or_eq_true] at hset
    refine (ihp (fun hc => hset (.inl hc)) it parent m).bind hR fun ok _ m₁ => ?_
    cases ok with
    | false => exact ihk (fun hc => hset (.inr hc)) it parent m₁
    | true => exact .some (hR.refl m₁)
  | action f p k ihp ihk =>
    simp only [containsCap, Bool.or_eq_true] at hset
    refine Relates.andThen hR (ihp (fun hc => hset (.inl hc)) it parent m) fun it₁ m₁ => ?_
    split
    · exact ihk (fun hc => hset (.inr hc)) it₁ parent m₁
    · exact .some (hR.refl m₁)

theorem Match.Above.frameRelation : FrameRelation (Match.Above (N := N)) where
  refl := .refl
  trans := .trans
  addFrame _ := Match.Above.addFrame (.refl _)
  returned := .returned

def Match.Silent (m m' : Match N) : Prop :=
  m.Above m' ∧ ∀ t r, m'.Sees t r → m.Sees t r

theorem Match.Silent.frameRelation : FrameRelation (N := N) Match.Silent where
  refl m := ⟨.refl m, fun _ _ h => h⟩
  trans h h' := ⟨h.1.trans h'.1, fun t r hs => h.2 t r (h'.2 t r hs)⟩
  addFrame _ := ⟨Match.Above.addFrame (.refl _), fun _ _ => Match.sees_addFrame⟩
  returned h := ⟨h.1.returned, fun _ _ => h.1.sees_returned⟩

namespace PatternDef
variable {v : NodeView N} {p q r : PatternDef N}

theorem matchAt_above (h : p.matchAt v fuel it parent m = some (matched, it', m')) :
    m.Above m' :=
  p.matchAt_relates Match.Above.frameRelation (fun _ => Match.Above.set) v fuel it parent m
    matched it' m' h

theorem matchAt_silent (hp : p.containsCap = false)
    (h : p.matchAt v fuel it parent m = some (matched, it', m')) (hs : m'.Sees t x) : m.Sees t x :=
  (p.matchAt_relates Match.Silent.frameRelation (by simp [hp]) v fuel it parent m
    matched it' m' h).2 t x hs

theorem containsCap_setContinuation (h : p.setContinuation q = .ok r) :
    r.containsCap = (p.containsCap || q.containsCap) := by
  induction p generalizing r with
  | null => cases h; rfl
  | last => cases h
  | anything k ih | tokenMatch _ k ih | regexMatch _ _ k ih | insideStar _ k ih | inside _ k ih
  | first k ih =>
    obtain ⟨k', hk, rfl⟩ := map_eq_ok.1 h
    simp only [containsCap, ih hk]
  | cap _ _ k =>
    obtain ⟨k', _, rfl⟩ := map_eq_ok.1 h
    rfl
  | opt _ k _ ih | rep _ k _ ih | not _ k _ ih | pred _ k _ ih | negPred _ k _ ih
  | action _ _ k _ ih | choice _ _ _ k _ _ ih | children _ _ k _ _ ih =>
    obtain ⟨k', hk, rfl⟩ := map_eq_ok.1 h
    simp only [containsCap, ih hk, Bool.or_assoc]

end PatternDef

namespace PatternExpr
variable {pat : Pattern N}

def containsCap : PatternExpr N → Bool
  | anything | first | last | tokenMatch _ _ | regexMatch _ _ | inside _ _ => false
  | cap _ _ => true
  | action _ p | opt p | pred p | negPred p | rep p | not p => p.containsCap
  | seq p q | choice p q | children p q => p.containsCap || q.containsCap

theorem build_containsCap {e : PatternExpr N} (h : e.build = .ok pat) :
    pat.pattern.containsCap = e.containsCap := by
  induction e generalizing pat with
  | anything | first | last | tokenMatch | regexMatch | inside => cases h; rfl
  | cap =>
    obtain ⟨p, _, h⟩ := bind_eq_ok.1 h
    cases h
    rfl
  | action _ e ih | opt e ih =>
    obtain ⟨p, hp, h⟩ := bind_eq_ok.1 h
    cases h
    exact (Bool.or_false _).trans (ih hp)
  | pred e ih =>
    obtain ⟨p, hp, h⟩ := bind_eq_ok.1 h
    rw [(Pattern.pred_ok h).1]
    exact (Bool.or_false _).trans (ih hp)
  | negPred e ih =>
    obtain ⟨p, hp, h⟩ := bind_eq_ok.1 h
    rw [(Pattern.negPred_ok h).1]
    exact (Bool.or_false _).trans (ih hp)
  | not e ih =>
    obtain ⟨p, hp, h⟩ := bind_eq_ok.1 h
    rw [(Pattern.not_ok h).1]
    exact (Bool.or_false _).trans (ih hp)
  | rep e ih =>
    obtain ⟨p, hp, h⟩ := bind_eq_ok.1 h
    rcases Pattern.rep_ok h with ⟨p', _, rfl⟩ | ⟨types, hin, rfl⟩ | ⟨_, _, rfl⟩
    · have hc := ih hp
      exact hc
    · have hc := ih hp
      rw [hin] at hc
      exact hc
    · exact (Bool.or_false _).trans (ih hp)
  | seq e e' ih ih' =>
    obtain ⟨p, hp, h⟩ := bind_eq_ok.1 h
    obtain ⟨q, hq, h⟩ := bind_eq_ok.1 h
    rw [PatternDef.containsCap_setContinuation (Pattern.seq_ok h).1, ih hp, ih' hq]
    rfl
  | choice e e' ih ih' =>
    obtain ⟨p, hp, h⟩ := bind_eq_ok.1 h
    obtain ⟨q, hq, h⟩ := bind_eq_ok.1 h
    have hc := ih hp
    have hc' := ih' hq
    obtain ⟨_, ⟨types, types', ht, ht', hr⟩ | hr⟩ := Pattern.choice_ok h
    · rw [ht] at hc
      rw [ht'] at hc'
      rw [hr, containsCap, ← hc, ← hc']
      rfl
    · rw [hr, containsCap, ← hc, ← hc']
      exact Bool.or_false _
  | children e e' ih ih' =>
    obtain ⟨p, hp, h⟩ := bind_eq_ok.1 h
    obtain ⟨q, hq, h⟩ := bind_eq_ok.1 h
    cases h
    rw [containsCap, ← ih hp, ← ih' hq]
    exact Bool.or_false _

/-- A capture in the expression is visible to `has_captures`. -/
def ShowsCaptures (e : PatternExpr N) : Prop :=
  e.containsCap = true → ∀ pat, e.build = .ok pat → pat.pattern.hasCaptures = true

/-- No capture is hidden in a first alternative or in an operand that must not capture. -/
def CapturesShown : PatternExpr N → Prop
  | anything | first | last | tokenMatch _ _ | regexMatch _ _ | inside _ _ => True
  | action _ p | cap _ p | opt p => p.CapturesShown
  | pred p | negPred p | rep p | not p => p.CapturesShown ∧ p.ShowsCaptures
  | choice p q => p.CapturesShown ∧ q.CapturesShown ∧ p.ShowsCaptures
  | seq p q | children p q => p.CapturesShown ∧ q.CapturesShown

theorem ShowsCaptures.containsCap_eq_false {e : PatternExpr N} (h : e.ShowsCaptures)
    (hb : e.build = .ok pat) (hc : pat.pattern.hasCaptures = false) : e.containsCap = false := by
  by_contra hcap
  have hshown := h (by simpa using hcap) pat hb
  simp [hc] at hshown

end PatternExpr

/-- After a match, only captures from before and of the branches taken are visible. -/
def Isolated (v : NodeView N) (fuel : Nat) (p : PatternDef N) (parent : N)
    (f : Peg (Token × NodeRange N)) : Prop :=
  ∀ it m it' m', it ≤ v.last parent → p.matchAt v fuel it parent m = some (true, it', m') →
    ∃ a, f it = some (it', a) ∧ ∀ t r, m'.Sees t r → m.Sees t r ∨ (t, r) ∈ a

namespace Isolated
variable {v : NodeView N} {fuel : Nat} {parent : N} {p q r : PatternDef N}
  {f g : Peg (Token × NodeRange N)}

theorem of_agrees (h : Agrees v fuel p parent f) (hc : p.containsCap = false) :
    Isolated v fuel p parent f := by
  intro it m it' m' hit hm
  obtain ⟨a, ha⟩ := reports_true.1 (h it m true it' m' hit hm)
  exact ⟨a, ha, fun t r hs => .inl (PatternDef.matchAt_silent hc hm hs)⟩

theorem action (h : Isolated v fuel p parent f) (act : List N → Bool) :
    Isolated v fuel (.action act p .null) parent fun it =>
      (f it).bind fun (it', a) => if act (v.slice parent it it') then some (it', a) else none := by
  intro it m it' m' hit hm
  simp only [PatternDef.matchAt] at hm
  rcases hp : p.matchAt v fuel it parent m with _ | ⟨_ | _, it₁, m₁⟩
  · simp [hp] at hm
  · simp [hp] at hm
  · obtain ⟨a, ha, hs⟩ := h it m it₁ m₁ hit hp
    by_cases hact : act (v.slice parent it it₁) <;> simp [hp, hact] at hm
    obtain ⟨rfl, rfl⟩ := hm
    exact ⟨a, by simp [ha, hact], hs⟩

theorem cap (h : Isolated v fuel p parent f) (name : Token) :
    Isolated v fuel (.cap name p .null) parent fun it =>
      (f it).map fun (it', a) => (it', a ++ [(name, v.range parent it it')]) := by
  intro it m it' m' hit hm
  simp only [PatternDef.matchAt] at hm
  rcases hp : p.matchAt v fuel it parent m with _ | ⟨_ | _, it₁, m₁⟩
  · simp [hp] at hm
  · simp [hp] at hm
  · obtain ⟨a, ha, hs⟩ := h it m it₁ m₁ hit hp
    simp only [hp, MatchResult.andThen_some, if_true, Option.some.injEq, Prod.mk.injEq,
      true_and] at hm
    obtain ⟨rfl, rfl⟩ := hm
    refine ⟨a ++ [(name, v.range parent it it₁)], by simp [ha], fun t r hsee => ?_⟩
    rcases Match.sees_set hsee with hsee | htr
    · rcases hs t r hsee with hm | hm
      · exact .inl hm
      · exact .inr (List.mem_append_left _ hm)
    · exact .inr (List.mem_append_right _ (List.mem_singleton.2 htr))

theorem opt (h : Isolated v fuel p parent f) (hagree : Agrees v fuel p parent f) :
    Isolated v fuel (.opt p .null) parent f.opt := by
  intro it m it' m' hit hm
  simp only [PatternDef.matchAt] at hm
  rcases hp : p.matchAt v fuel it parent m.addFrame with _ | ⟨_ | _, it₁, m₁⟩
  · simp [hp] at hm
  · have hf := reports_false.1 (hagree it _ false it₁ m₁ hit hp)
    simp only [hp, Option.bind_some, Bool.false_eq_true, if_false, Option.some.injEq,
      Prod.mk.injEq, true_and] at hm
    obtain ⟨rfl, rfl⟩ := hm
    refine ⟨[], by simp [Peg.opt, Peg.choice, Peg.skip, hf], fun t r hs => .inl ?_⟩
    exact (PatternDef.matchAt_above hp).sees_returned hs
  · obtain ⟨a, ha, hs⟩ := h it _ it₁ m₁ hit hp
    simp only [hp, Option.bind_some, if_true, Option.some.injEq, Prod.mk.injEq, true_and] at hm
    obtain ⟨rfl, rfl⟩ := hm
    refine ⟨a, by simp [Peg.opt, Peg.choice, ha], fun t r hsee => ?_⟩
    exact (hs t r hsee).imp_left Match.sees_addFrame

theorem setContinuation (hp : Isolated v fuel p parent f) (hb : f.Bounded (v.last parent))
    (hq : Isolated v fuel q parent g) (h : p.setContinuation q = .ok r) :
    Isolated v fuel r parent (f.seq g) := by
  intro it m it' m' hit hm
  rw [PatternDef.matchAt_setContinuation h] at hm
  rcases hm₁ : p.matchAt v fuel it parent m with _ | ⟨_ | _, it₁, m₁⟩
  · simp [hm₁] at hm
  · simp [hm₁] at hm
  · obtain ⟨a, ha, hs⟩ := hp it m it₁ m₁ hit hm₁
    obtain ⟨b, hb', hs'⟩ := hq it₁ m₁ it' m' (hb it it₁ a hit ha).2 (by simpa [hm₁] using hm)
    refine ⟨a ++ b, by simp [Peg.seq, ha, hb'], fun t x hsee => ?_⟩
    rcases hs' t x hsee with hsee | hx
    · exact (hs t x hsee).imp_right (List.mem_append_left b)
    · exact .inr (List.mem_append_right a hx)

/-- Where the first alternative can capture, its captures are in a frame of their own. -/
theorem choice (hp : Isolated v fuel p parent f) (hpa : Agrees v fuel p parent f)
    (hq : Isolated v fuel q parent g) (hc : c = true ∨ p.containsCap = false) :
    Isolated v fuel (.choice c p q .null) parent (f.choice g) := by
  intro it m it' m' hit hm
  simp only [PatternDef.matchAt] at hm
  have hstart (t : Token) (x : NodeRange N)
      (hs : (if c then m.addFrame else m).Sees t x) : m.Sees t x := by
    split at hs
    · exact Match.sees_addFrame hs
    · exact hs
  rcases hm₁ : p.matchAt v fuel it parent (if c then m.addFrame else m) with
    _ | ⟨_ | _, it₁, m₁⟩
  · simp [hm₁] at hm
  · have hf := reports_false.1 (hpa it _ false it₁ m₁ hit hm₁)
    have hback (t : Token) (x : NodeRange N)
        (hs : (if c then m₁.returnToFrame m.index else m₁).Sees t x) : m.Sees t x := by
      cases c with
      | false =>
        have hcap := hc.resolve_left Bool.false_ne_true
        exact PatternDef.matchAt_silent hcap hm₁ hs
      | true => exact (PatternDef.matchAt_above hm₁).sees_returned hs
    rcases hm₂ : q.matchAt v fuel it parent
      (if c then m₁.returnToFrame m.index else m₁) with _ | ⟨_ | _, it₂, m₂⟩
    · simp [hm₁, hm₂] at hm
    · simp [hm₁, hm₂] at hm
    · obtain ⟨b, hb, hs⟩ := hq it _ it₂ m₂ hit hm₂
      simp only [hm₁, hm₂, Option.bind_some, Bool.false_eq_true, if_false,
        MatchResult.andThen_some, if_true, Option.some.injEq, Prod.mk.injEq, true_and] at hm
      obtain ⟨rfl, rfl⟩ := hm
      refine ⟨b, by simp [Peg.choice, hf, hb], fun t x hsee => ?_⟩
      exact (hs t x hsee).imp_left (hback t x)
  · obtain ⟨a, ha, hs⟩ := hp it _ it₁ m₁ hit hm₁
    simp only [hm₁, Option.bind_some, if_true, Option.some.injEq, Prod.mk.injEq, true_and] at hm
    obtain ⟨rfl, rfl⟩ := hm
    exact ⟨a, by simp [Peg.choice, ha], fun t x hsee => (hs t x hsee).imp_left (hstart t x)⟩

theorem children (hp : Isolated v fuel p parent f) {h : N → Peg (Token × NodeRange N)}
    (hq : ∀ n, Isolated v fuel q n (h n)) :
    Isolated v fuel (.children p q .null) parent fun it =>
      (f it).bind fun (it', a) =>
        (v.child? parent it).bind fun n => (h n 0).map fun (_, b) => (it', a ++ b) := by
  intro it m it' m' hit hm
  simp only [PatternDef.matchAt] at hm
  rcases hm₁ : p.matchAt v fuel it parent m with _ | ⟨_ | _, it₁, m₁⟩
  · simp [hm₁] at hm
  · simp [hm₁] at hm
  · obtain ⟨a, ha, hs⟩ := hp it m it₁ m₁ hit hm₁
    rcases hn : v.child? parent it with _ | n
    · simp [hm₁, hn] at hm
    · rcases hc : q.matchAt v fuel 0 n m₁ with _ | ⟨_ | _, it₂, m₂⟩
      · simp [hm₁, hn, hc] at hm
      · simp [hm₁, hn, hc] at hm
      · obtain ⟨b, hb, hs'⟩ := hq n 0 m₁ it₂ m₂ (Nat.zero_le _) hc
        simp only [hm₁, hn, hc, Option.bind_some, MatchResult.andThen_some, if_true,
          Option.some.injEq, Prod.mk.injEq, true_and] at hm
        obtain ⟨rfl, rfl⟩ := hm
        refine ⟨a ++ b, by simp [ha, hn, hb], fun t x hsee => ?_⟩
        rcases hs' t x hsee with hsee | hx
        · exact (hs t x hsee).imp_right (List.mem_append_left b)
        · exact .inr (List.mem_append_right a hx)

end Isolated

namespace PatternExpr
variable {v : NodeView N} {pat : Pattern N}

theorem build_isolated {e : PatternExpr N} (h : e.build = .ok pat) (hs : e.CapturesShown)
    (fuel : Nat) (parent : N) : Isolated v fuel pat.pattern parent (e.parse v parent) := by
  have hsilent {e : PatternExpr N} {pat : Pattern N} (h : e.build = .ok pat) (parent : N)
      (hc : e.containsCap = false) : Isolated v fuel pat.pattern parent (e.parse v parent) :=
    .of_agrees (build_agrees h fuel parent) ((build_containsCap h).trans hc)
  induction e generalizing pat parent with
  | anything | first | last | tokenMatch | regexMatch | inside => exact hsilent h parent rfl
  | action f e ih =>
    obtain ⟨p, hp, h⟩ := bind_eq_ok.1 h
    cases h
    exact (ih hp hs parent).action f
  | cap name e ih =>
    obtain ⟨p, hp, h⟩ := bind_eq_ok.1 h
    cases h
    exact (ih hp hs parent).cap name
  | opt e ih =>
    obtain ⟨p, hp, h⟩ := bind_eq_ok.1 h
    cases h
    exact (ih hp hs parent).opt (build_agrees hp fuel parent)
  | pred e =>
    obtain ⟨p, hp, hpred⟩ := bind_eq_ok.1 h
    exact hsilent h parent (hs.2.containsCap_eq_false hp (Pattern.pred_ok hpred).2)
  | negPred e =>
    obtain ⟨p, hp, hpred⟩ := bind_eq_ok.1 h
    exact hsilent h parent (hs.2.containsCap_eq_false hp (Pattern.negPred_ok hpred).2)
  | not e =>
    obtain ⟨p, hp, hnot⟩ := bind_eq_ok.1 h
    exact hsilent h parent (hs.2.containsCap_eq_false hp (Pattern.not_ok hnot).2)
  | rep e =>
    obtain ⟨p, hp, hrep⟩ := bind_eq_ok.1 h
    refine hsilent h parent (hs.2.containsCap_eq_false hp ?_)
    rcases Pattern.rep_ok hrep with ⟨p', hr, _⟩ | ⟨types, hin, _⟩ | ⟨_, hc, _⟩
    · rw [hr]
      rfl
    · rw [hin]
      rfl
    · exact hc
  | seq e e' ih ih' =>
    obtain ⟨p, hp, h⟩ := bind_eq_ok.1 h
    obtain ⟨q, hq, h⟩ := bind_eq_ok.1 h
    exact (ih hp hs.1 parent).setContinuation (e.parse_bounded v parent) (ih' hq hs.2 parent)
      (Pattern.seq_ok h).1
  | choice e e' ih ih' =>
    obtain ⟨p, hp, hchoice⟩ := bind_eq_ok.1 h
    obtain ⟨q, hq, hchoice⟩ := bind_eq_ok.1 hchoice
    obtain ⟨_, ⟨types, types', ht, ht', hr⟩ | hr⟩ := Pattern.choice_ok hchoice
    · refine hsilent h parent ?_
      rw [containsCap, ← build_containsCap hp, ← build_containsCap hq, ht, ht']
      rfl
    · rw [hr]
      refine (ih hp hs.1 parent).choice (build_agrees hp fuel parent) (ih' hq hs.2.1 parent) ?_
      by_cases hc : e.containsCap = true
      · exact .inl (hs.2.2 hc p hp)
      · exact .inr ((build_containsCap hp).trans (by simpa using hc))
  | children e e' ih ih' =>
    obtain ⟨p, hp, h⟩ := bind_eq_ok.1 h
    obtain ⟨q, hq, h⟩ := bind_eq_ok.1 h
    cases h
    exact (ih hp hs.1 parent).children fun n => ih' hq hs.2 n

/-- After a match, `operator[]` and `operator()` find only captures of the branches taken. -/
def BindsOnlyTaken (e : PatternExpr N) : Prop :=
  ∀ pat, e.build = .ok pat → ∀ (v : NodeView N) parent it m it' m', it ≤ v.last parent →
    pat.Matches v parent it (Match.reset m) true it' m' →
      ∃ taken, e.parse v parent it = some (it', taken) ∧
        (∀ t r, m'.find t = some r → (t, r) ∈ taken) ∧
        ∀ t, m'.front t ≠ some none → ∃ r, (t, r) ∈ taken ∧ m'.front t = r.front.map some

theorem binds_only_taken (e : PatternExpr N) (hs : e.CapturesShown) : e.BindsOnlyTaken := by
  intro pat h v parent it m it' m' hit hm
  obtain ⟨fuel, hm⟩ := hm
  obtain ⟨taken, ht, hsees⟩ := build_isolated h hs fuel parent it m.reset it' m' hit hm
  have htaken (t : Token) (r : NodeRange N) (hsee : m'.Sees t r) : (t, r) ∈ taken :=
    (hsees t r hsee).resolve_left (m.not_sees_reset t r)
  refine ⟨taken, ht, fun t r hf => htaken t r (Match.sees_of_find hf), fun t hf => ?_⟩
  rw [Match.front_eq] at hf ⊢
  cases hr : m'.find t with
  | none => exact absurd (by rw [hr]; rfl) hf
  | some r => exact ⟨r, htaken t r (Match.sees_of_find hr), rfl⟩

/-- `((T(a)[A])(f) * T(b)) / (T(a) * T(c))` -/
def hiddenCapture (a b c A : Token) (f : List N → Bool) : PatternExpr N :=
  choice (seq (action f (cap A (tokenMatch a []))) (tokenMatch b []))
    (seq (tokenMatch a []) (tokenMatch c []))

/-- The action hides the capture of the first alternative, which stays visible after it failed. -/
theorem abandoned_capture_visible :
    ¬ (hiddenCapture ⟨"a", 0⟩ ⟨"b", 0⟩ ⟨"c", 0⟩ ⟨"A", 0⟩ fun _ : List Nat => true).BindsOnlyTaken := by
  intro h
  obtain ⟨taken, ht, hfind, _⟩ := h _ rfl (.leaves ⟨"root", 0⟩ [⟨"a", 0⟩, ⟨"c", 0⟩]) 0 0 {} 2 _
    (by decide) ⟨0, rfl⟩
  have hbound := hfind ⟨"A", 0⟩ ⟨[1, 2], 0, 1⟩ rfl
  cases ht
  exact absurd hbound (by decide)

/-- `(T(a)[A] * T(b)) / (T(a) * T(c))` on `a c` -/
theorem binds_only_taken_two :
    let shown : PatternExpr Nat := choice (seq (cap ⟨"A", 0⟩ (tokenMatch ⟨"a", 0⟩ []))
      (tokenMatch ⟨"b", 0⟩ [])) (seq (tokenMatch ⟨"a", 0⟩ []) (tokenMatch ⟨"c", 0⟩ []))
    shown.CapturesShown ∧ shown.BindsOnlyTaken := by
  intro shown
  have hs : shown.CapturesShown := by
    refine ⟨⟨trivial, trivial⟩, ⟨trivial, trivial⟩, fun _ pat h => ?_⟩
    cases h
    rfl
  exact ⟨hs, binds_only_taken shown hs⟩

end PatternExpr

end Trieste
