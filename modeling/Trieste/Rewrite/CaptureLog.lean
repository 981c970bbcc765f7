import Trieste.Rewrite.Isolation

namespace Trieste
set_option autoImplicit true

variable {N : Type}

abbrev CaptureLog (N : Type) := List (Token × NodeRange N)

abbrev LogResult (N : Type) := Option (Bool × NodeIt × CaptureLog N)

def LogResult.andThen (r : LogResult N) (k : NodeIt → CaptureLog N → LogResult N) :
    LogResult N :=
  r.bind fun (matched, it, log) => if matched then k it log else some (false, it, log)

def repLog (body : NodeIt → CaptureLog N → LogResult N) (last : NodeIt) :
    Nat → NodeIt → CaptureLog N → Option (NodeIt × CaptureLog N)
  | 0, _, _ => none
  | fuel + 1, it, log =>
    if it = last then some (it, log)
    else (body it log).bind fun (matched, it', log') =>
      if matched then repLog body last fuel it' log' else some (it, log')

/-- Matching with a log. What an optional pattern or a first alternative with captures has logged
is dropped when it fails; nothing else is. -/
def PatternDef.logAt (v : NodeView N) (fuel : Nat) :
    PatternDef N → NodeIt → N → CaptureLog N → LogResult N
  | null, it, _, log => some (true, it, log)
  | cap name p k, it, parent, log =>
    LogResult.andThen (p.logAt v fuel it parent log) fun it' log' =>
      k.logAt v fuel it' parent ((name, v.range parent it it') :: log')
  | anything k, it, parent, log =>
    if it = v.last parent then some (false, it, log) else k.logAt v fuel (it + 1) parent log
  | tokenMatch types k, it, parent, log =>
    match v.child? parent it with
    | none => some (false, it, log)
    | some n =>
      if v.type n ∈ types then k.logAt v fuel (it + 1) parent log else some (false, it, log)
  | regexMatch type re k, it, parent, log =>
    match v.child? parent it with
    | none => some (false, it, log)
    | some n =>
      if v.type n = type ∧ v.fullMatch (v.view n) re then k.logAt v fuel (it + 1) parent log
      else some (false, it, log)
  | opt p k, it, parent, log =>
    (p.logAt v fuel it parent log).bind fun (matched, it', log') =>
      if matched then k.logAt v fuel it' parent log' else k.logAt v fuel it parent log
  | rep p k, it, parent, log =>
    (repLog (fun it log => p.logAt v fuel it parent log) (v.last parent) fuel it log).bind
      fun (it', log') => k.logAt v fuel it' parent log'
  | not p k, it, parent, log =>
    if it = v.last parent then some (false, it, log)
    else (p.logAt v fuel it parent log).bind fun (matched, _, log') =>
      if matched then some (false, it + 1, log') else k.logAt v fuel (it + 1) parent log'
  | choice capturesLeft p q k, it, parent, log =>
    (p.logAt v fuel it parent log).bind fun (matched, it', log') =>
      if matched then k.logAt v fuel it' parent log'
      else LogResult.andThen (q.logAt v fuel it parent (if capturesLeft then log else log'))
        fun it' log' => k.logAt v fuel it' parent log'
  | insideStar types k, it, parent, log =>
    (insideLoop v types fuel (some parent)).bind fun found =>
      if found then k.logAt v fuel it parent log else some (false, it, log)
  | inside types k, it, parent, log =>
    if v.type parent ∈ types then k.logAt v fuel it parent log else some (false, it, log)
  | first k, it, parent, log =>
    if it = 0 then k.logAt v fuel it parent log else some (false, it, log)
  | last, it, parent, log => some (decide (it = v.last parent), it, log)
  | children p c k, it, parent, log =>
    LogResult.andThen (p.logAt v fuel it parent log) fun it' log' =>
      (v.child? parent it).bind fun begin =>
        (c.logAt v fuel 0 begin log').bind fun (matched, _, log'') =>
          if matched then k.logAt v fuel it' parent log'' else some (false, it', log'')
  | pred p k, it, parent, log =>
    (p.logAt v fuel it parent log).bind fun (matched, _, log') =>
      if matched then k.logAt v fuel it parent log' else some (false, it, log')
  | negPred p k, it, parent, log =>
    (p.logAt v fuel it parent log).bind fun (matched, _, log') =>
      if matched then some (false, it, log') else k.logAt v fuel it parent log'
  | action f p k, it, parent, log =>
    LogResult.andThen (p.logAt v fuel it parent log) fun it' log' =>
      if f (v.slice parent it it') then k.logAt v fuel it' parent log'
      else some (false, it', log')

/-- The frames in use bind each token to its latest capture. -/
structure LoggedAs (m : Match N) (log : CaptureLog N) : Prop where
  bound : m.index < m.captures.length
  find : ∀ t, m.find t = log.lookup t

namespace LoggedAs
variable {m m' : Match N} {log : CaptureLog N}

theorem set (h : LoggedAs m log) (t : Token) (r : NodeRange N) :
    LoggedAs (m.set t r) ((t, r) :: log) := by
  refine ⟨(m.length_set t r).symm ▸ h.bound, fun u => ?_⟩
  have hkept : ∀ i, i < m.index → ((m.set t r).frame i).find u = (m.frame i).find u :=
    fun i hi => by rw [m.frame_set t r hi.ne]
  have hset : (m.set t r).find u = if u = t then some r else m.find u := by
    have htop := m.find_set h.bound t u r
    rw [Match.find, Match.find, show (m.set t r).index = m.index from rfl]
    cases hidx : m.index with
    | zero =>
      rw [hidx] at htop
      exact htop
    | succ n =>
      rw [hidx] at htop hkept
      rw [Match.findFrom, Match.findFrom, htop,
        Match.findFrom_congr fun i hi => hkept i (Nat.lt_succ_of_le hi)]
      split <;> rfl
  rw [hset, List.lookup_cons]
  by_cases hu : u = t
  · rw [if_pos hu, beq_iff_eq.2 hu]
  · rw [if_neg hu, beq_eq_false_iff_ne.2 hu]
    exact h.find u

theorem addFrame (h : LoggedAs m log) : LoggedAs m.addFrame log := by
  refine ⟨Match.bound_addFrame h.bound, fun t => ?_⟩
  rw [← h.find t, Match.find, Match.index_addFrame, Match.findFrom, m.find_addFrame t,
    Option.none_or]
  exact Match.findFrom_congr fun i hi => by rw [m.frame_addFrame hi]

/-- Leaving a frame drops what was captured in it. -/
theorem returned (h : LoggedAs m log) (ha : Match.Above m.addFrame m')
    (hb : m'.index < m'.captures.length) : LoggedAs (m'.returnToFrame m.index) log := by
  have hidx := Match.index_addFrame m
  have hle : m.index < m'.index := Nat.lt_of_lt_of_le (by rw [hidx]; exact Nat.lt_succ_self _)
    ha.index
  refine ⟨hle.trans hb, fun t => ?_⟩
  rw [← h.find t]
  apply Match.findFrom_congr
  intro i hi
  have hi' : i < m.addFrame.index := hidx ▸ Nat.lt_succ_of_le hi
  rw [← m.frame_addFrame hi, ← ha.frames i hi']
  rfl

theorem reset (h : m.captures ≠ []) : LoggedAs m.reset ([] : CaptureLog N) := by
  refine ⟨?_, fun t => ?_⟩
  · simp only [Match.reset, List.length_modify]
    exact List.length_pos_iff.2 h
  · cases hf : m.reset.find t with
    | none => rfl
    | some r => exact absurd (Match.sees_of_find hf) (m.not_sees_reset t r)

end LoggedAs

/-- The calls return the same, with the same captures in force; or neither returns. -/
inductive Refines : MatchResult N → LogResult N → Prop
  | none : Refines none none
  | some : LoggedAs m log → Refines (some (matched, it, m)) (some (matched, it, log))

namespace Refines
variable {x : MatchResult N} {y : LogResult N}

theorem bind (h : Refines x y) {f : Bool × NodeIt × Match N → MatchResult N}
    {g : Bool × NodeIt × CaptureLog N → LogResult N}
    (hk : ∀ matched it m log, x = Option.some (matched, it, m) → LoggedAs m log →
      Refines (f (matched, it, m)) (g (matched, it, log))) : Refines (x.bind f) (y.bind g) := by
  cases h with
  | none => exact none
  | some hl => exact hk _ _ _ _ rfl hl

theorem andThen (h : Refines x y) {k : NodeIt → Match N → MatchResult N}
    {k' : NodeIt → CaptureLog N → LogResult N}
    (hk : ∀ it m log, LoggedAs m log → Refines (k it m) (k' it log)) :
    Refines (x.andThen k) (y.andThen k') := by
  apply h.bind
  intro matched it m log _ hl
  cases matched with
  | false => exact some hl
  | true => exact hk it m log hl

theorem repLoop {body : NodeIt → Match N → MatchResult N}
    {body' : NodeIt → CaptureLog N → LogResult N}
    (hbody : ∀ it m log, LoggedAs m log → Refines (body it m) (body' it log))
    (hl : LoggedAs m log) (last : NodeIt) (n : Nat) (it : NodeIt) :
    (Trieste.repLoop body last n it m = Option.none ∧ repLog body' last n it log = Option.none) ∨
      ∃ it' m' log', Trieste.repLoop body last n it m = Option.some (it', m') ∧
        repLog body' last n it log = Option.some (it', log') ∧ LoggedAs m' log' := by
  induction n generalizing it m log with
  | zero => exact .inl ⟨rfl, rfl⟩
  | succ n ih =>
    simp only [Trieste.repLoop, repLog]
    split
    · exact .inr ⟨it, m, log, rfl, rfl, hl⟩
    · generalize hx : body it m = x
      generalize hy : body' it log = y
      have hstep := hbody it m log hl
      rw [hx, hy] at hstep
      cases hstep with
      | none => exact .inl ⟨rfl, rfl⟩
      | @some m' log' matched it' hl' =>
        cases matched with
        | false => exact .inr ⟨it, m', log', rfl, rfl, hl'⟩
        | true => exact ih hl' it'

end Refines

theorem PatternDef.matchAt_refines (p : PatternDef N) (v : NodeView N) (fuel : Nat)
    (it : NodeIt) (parent : N) (m : Match N) (log : CaptureLog N) (hl : LoggedAs m log) :
    Refines (p.matchAt v fuel it parent m) (p.logAt v fuel it parent log) := by
  induction p generalizing it parent m log with
  | null => exact .some hl
  | last => exact .some hl
  | cap name p k ihp ihk =>
    apply (ihp it parent m log hl).andThen
    intro it' m' log' hl'
    exact ihk it' parent _ _ (hl'.set name (v.range parent it it'))
  | anything k ih =>
    simp only [matchAt, logAt]
    split
    · exact .some hl
    · exact ih _ parent m log hl
  | tokenMatch types k ih =>
    simp only [matchAt, logAt]
    cases v.child? parent it with
    | none => exact .some hl
    | some n =>
      simp only
      split
      · exact ih _ parent m log hl
      · exact .some hl
  | regexMatch type re k ih =>
    simp only [matchAt, logAt]
    cases v.child? parent it with
    | none => exact .some hl
    | some n =>
      simp only
      split
      · exact ih _ parent m log hl
      · exact .some hl
  | opt p k ihp ihk =>
    apply (ihp it parent m.addFrame log hl.addFrame).bind
    intro matched it' m' log' hm hl'
    cases matched with
    | false => exact ihk it parent _ log (hl.returned (matchAt_above hm) hl'.bound)
    | true => exact ihk it' parent m' log' hl'
  | rep p k ihp ihk =>
    simp only [matchAt, logAt]
    rcases Refines.repLoop (fun it m log hl => ihp it parent m log hl) hl
      (v.last parent) fuel it with ⟨hm, hlog⟩ | ⟨it', m', log', hm, hlog, hl'⟩
    · rw [hm, hlog]
      exact .none
    · rw [hm, hlog]
      exact ihk it' parent m' log' hl'
  | not p k ihp ihk =>
    simp only [matchAt, logAt]
    split
    · exact .some hl
    · apply (ihp it parent m log hl).bind
      intro matched it' m' log' _ hl'
      cases matched with
      | false => exact ihk _ parent m' log' hl'
      | true => exact .some hl'
  | choice capturesLeft p q k ihp ihq ihk =>
    have hstart : LoggedAs (if capturesLeft then m.addFrame else m) log := by
      split
      · exact hl.addFrame
      · exact hl
    apply (ihp it parent _ log hstart).bind
    intro matched it' m' log' hm hl'
    cases matched with
    | false =>
      have hback : LoggedAs (if capturesLeft then m'.returnToFrame m.index else m')
          (if capturesLeft then log else log') := by
        cases capturesLeft with
        | false => exact hl'
        | true => exact hl.returned (matchAt_above hm) hl'.bound
      exact (ihq it parent _ _ hback).andThen fun it₂ m₂ log₂ hl₂ => ihk it₂ parent m₂ log₂ hl₂
    | true => exact ihk it' parent m' log' hl'
  | insideStar types k ih =>
    simp only [matchAt, logAt]
    cases insideLoop v types fuel (some parent) with
    | none => exact .none
    | some found =>
      cases found with
      | false => exact .some hl
      | true => exact ih it parent m log hl
  | inside types k ih =>
    simp only [matchAt, logAt]
    split
    · exact ih it parent m log hl
    · exact .some hl
  | first k ih =>
    simp only [matchAt, logAt]
    split
    · exact ih it parent m log hl
    · exact .some hl
  | children p c k ihp ihc ihk =>
    apply (ihp it parent m log hl).andThen
    intro it' m' log' hl'
    cases v.child? parent it with
    | none => exact .none
    | some n =>
      apply (ihc 0 n m' log' hl').bind
      intro matched it₂ m₂ log₂ _ hl₂
      cases matched with
      | false => exact .some hl₂
      | true => exact ihk it' parent m₂ log₂ hl₂
  | pred p k ihp ihk =>
    apply (ihp it parent m log hl).bind
    intro matched it' m' log' _ hl'
    cases matched with
    | false => exact .some hl'
    | true => exact ihk it parent m' log' hl'
  | negPred p k ihp ihk =>
    apply (ihp it parent m log hl).bind
    intro matched it' m' log' _ hl'
    cases matched with
    | false => exact ihk it parent m' log' hl'
    | true => exact .some hl'
  | action f p k ihp ihk =>
    apply (ihp it parent m log hl).andThen
    intro it' m' log' hl'
    split
    · exact ihk it' parent m' log' hl'
    · exact .some hl'

theorem NodeRange.head?_toList {r : NodeRange N} (h : r.toList ≠ []) :
    r.toList.head? = r.front := by
  have hlt : r.first < r.second := by
    by_contra hle
    apply h
    rw [toList, List.drop_eq_nil_iff, List.length_take]
    exact (Nat.min_le_left _ _).trans (Nat.le_of_not_lt hle)
  rw [toList, List.head?_drop, List.getElem?_take, if_pos hlt]
  rfl

/-- `operator()` yields the first node of the range, or null where there is none. -/
def Match.FrontIsFirst (m : Match N) (t : Token) : Prop :=
  m.front t = some (m.range t).toList.head?

theorem Match.frontIsFirst_iff (m : Match N) (t : Token) :
    m.FrontIsFirst t ↔ ∀ r, m.find t = some r → r.toList ≠ [] := by
  rw [FrontIsFirst, front_eq, range]
  cases m.find t with
  | none =>
    constructor
    · rintro _ r ⟨⟩
    · exact fun _ => rfl
  | some r =>
    simp only [Option.elim_some, Option.getD_some]
    constructor
    · rintro h _ ⟨⟩ hnil
      rw [hnil] at h
      cases hr : r.front <;> rw [hr] at h <;> cases h
    · intro h
      have hne : r.toList ≠ [] := h r rfl
      rw [NodeRange.head?_toList hne]
      cases hr : r.front with
      | none =>
        rw [← NodeRange.head?_toList hne, List.head?_eq_none_iff] at hr
        exact absurd hr hne
      | some n => rfl

namespace Pattern

def Captures (p : Pattern N) (v : NodeView N) (fuel : Nat) (parent : N) (it : NodeIt)
    (log : CaptureLog N) : Prop :=
  ∃ it', p.pattern.logAt v fuel it parent [] = some (true, it', log)

def CapturesNode (p : Pattern N) (v : NodeView N) (fuel : Nat) (parent : N) (it : NodeIt)
    (t : Token) : Prop :=
  ∀ log r, p.Captures v fuel parent it log → log.lookup t = some r → r.toList ≠ []

theorem front_is_first_iff (p : Pattern N) (v : NodeView N) (m : Match N)
    (hframes : m.captures ≠ [])
    (hm : p.pattern.matchAt v fuel it parent m.reset = some (true, it', m')) (t : Token) :
    m'.FrontIsFirst t ↔ p.CapturesNode v fuel parent it t := by
  have href := p.pattern.matchAt_refines v fuel it parent m.reset [] (LoggedAs.reset hframes)
  rw [hm] at href
  generalize hlog : p.pattern.logAt v fuel it parent [] = result at href
  cases href with
  | some hl =>
    rw [m'.frontIsFirst_iff t, hl.find t]
    constructor
    · rintro h log r ⟨_, hcap⟩ hr
      rw [hlog] at hcap
      cases hcap
      exact h r hr
    · intro h r hr
      exact h _ r ⟨it', hlog⟩ hr

/-- `T(a)[A]` on `a` -/
theorem front_is_first_one :
    let p : Pattern Nat := (token ⟨"a", 0⟩ []).cap ⟨"A", 0⟩
    let v := NodeView.leaves ⟨"root", 0⟩ [⟨"a", 0⟩]
    ∃ m', p.pattern.matchAt v 0 0 0 (Match.reset {}) = some (true, 1, m') ∧
      (m'.FrontIsFirst ⟨"A", 0⟩ ↔ p.CapturesNode v 0 0 0 ⟨"A", 0⟩) := by
  intro p v
  exact ⟨_, rfl, p.front_is_first_iff v {} (by decide) rfl ⟨"A", 0⟩⟩

/-- `(~T(a))[A]` at the node `b`, which `_(A)` yields, and behind it, where `_(A)` reads past the
end. -/
theorem front_reads_neighbour :
    let p : Pattern Nat := (token ⟨"a", 0⟩ []).opt.cap ⟨"A", 0⟩
    let v := NodeView.leaves ⟨"root", 0⟩ [⟨"b", 0⟩]
    ∃ m₀ m₁, p.pattern.matchAt v 0 0 0 (Match.reset {}) = some (true, 0, m₀) ∧
      m₀.front ⟨"A", 0⟩ = some (some 1) ∧ ¬ m₀.FrontIsFirst ⟨"A", 0⟩ ∧
      p.pattern.matchAt v 0 1 0 (Match.reset {}) = some (true, 1, m₁) ∧
      m₁.front ⟨"A", 0⟩ = none ∧ ¬ m₁.FrontIsFirst ⟨"A", 0⟩ := by
  intro p v
  have hnode : ¬ some (some 1) = some (none : Option Nat) := by decide
  have hend : ¬ none = some (none : Option Nat) := by decide
  exact ⟨_, _, rfl, rfl, hnode, rfl, rfl, hend⟩

end Pattern

end Trieste
