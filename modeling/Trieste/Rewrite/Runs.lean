import Trieste.Rewrite.Matching
import Trieste.Rewrite.Reify

namespace Trieste
set_option autoImplicit true

/-- Nothing where a call does not return, and otherwise where it matched up to. -/
abbrev Run := NodeIt → Option (Option NodeIt)

namespace Run
variable {N : Type}

def skip : Run := fun it => some (some it)

def thenAt (r : Option (Option NodeIt)) (k : NodeIt → Option (Option NodeIt)) :
    Option (Option NodeIt) :=
  r.bind fun
    | none => some none
    | some it => k it

def andThen (f g : Run) : Run := fun it => thenAt (f it) g

def any (v : NodeView N) (parent : N) : Run := fun it =>
  some (if it = v.last parent then none else some (it + 1))

def item (v : NodeView N) (parent : N) (ok : N → Bool) : Run := fun it =>
  some ((v.child? parent it).bind fun n => if ok n then some (it + 1) else none)

def test (c : NodeIt → Option Bool) : Run := fun it =>
  (c it).map fun ok => if ok then some it else none

def opt (f : Run) : Run := fun it => (f it).map fun r => some (r.getD it)

def rep (f : Run) (last : NodeIt) : Nat → Run
  | 0, _ => none
  | fuel + 1, it =>
    if it = last then some (some it)
    else (f it).bind fun r => r.elim (some (some it)) (rep f last fuel)

def not (v : NodeView N) (parent : N) (f : Run) : Run := fun it =>
  if it = v.last parent then some none
  else (f it).map fun r => if r.isSome then none else some (it + 1)

def choice (f g : Run) : Run := fun it =>
  (f it).bind fun r => r.elim (g it) fun it' => some (some it')

def children (v : NodeView N) (parent : N) (f : Run) (g : N → Run) : Run := fun it =>
  thenAt (f it) fun it' =>
    (v.child? parent it).bind fun n => (g n 0).map fun r => r.map fun _ => it'

def look (f : Run) : Run := fun it => (f it).map fun r => r.map fun _ => it

def notLook (f : Run) : Run := fun it => (f it).map fun r => if r.isSome then none else some it

def guard (f : Run) (ok : NodeIt → NodeIt → Bool) : Run := fun it =>
  thenAt (f it) fun it' => some (if ok it it' then some it' else none)

@[simp] theorem thenAt_none (k : NodeIt → Option (Option NodeIt)) : thenAt none k = none := rfl

@[simp] theorem thenAt_failed (k : NodeIt → Option (Option NodeIt)) :
    thenAt (some none) k = some none := rfl

@[simp] theorem thenAt_matched (k : NodeIt → Option (Option NodeIt)) :
    thenAt (some (some it)) k = k it := rfl

theorem thenAt_eq {r : Option (Option NodeIt)} {k : NodeIt → Option (Option NodeIt)}
    (h : thenAt r k = some (some it')) : ∃ it, r = some (some it) ∧ k it = some (some it') := by
  rcases r with _ | _ | it
  · cases h
  · cases h
  · exact ⟨it, rfl, h⟩

theorem skip_andThen (f : Run) : skip.andThen f = f := rfl

theorem andThen_skip (f : Run) : f.andThen skip = f := by
  funext it
  rcases h : f it with _ | _ | it' <;> simp [andThen, h, skip]

theorem andThen_assoc (f g h : Run) : (f.andThen g).andThen h = f.andThen (g.andThen h) := by
  funext it
  rcases hf : f it with _ | _ | it' <;> simp [andThen, hf]

end Run

/-- A pattern object apart from its continuation. -/
inductive PatternItem (N : Type)
  | cap (name : Token) (pattern : PatternDef N)
  | anything
  | tokenMatch (types : List Token)
  | regexMatch (type : Token) (regex : String)
  | opt (pattern : PatternDef N)
  | rep (pattern : PatternDef N)
  | not (pattern : PatternDef N)
  | choice (capturesLeft : Bool) (first second : PatternDef N)
  | insideStar (types : List Token)
  | inside (types : List Token)
  | first
  | last
  | children (pattern children : PatternDef N)
  | pred (pattern : PatternDef N)
  | negPred (pattern : PatternDef N)
  | action (action : List N → Bool) (pattern : PatternDef N)

/-- The objects along a chain of continuations. -/
def PatternDef.items : PatternDef N → List (PatternItem N)
  | null => []
  | cap name p k => .cap name p :: k.items
  | anything k => .anything :: k.items
  | tokenMatch types k => .tokenMatch types :: k.items
  | regexMatch type re k => .regexMatch type re :: k.items
  | opt p k => .opt p :: k.items
  | rep p k => .rep p :: k.items
  | not p k => .not p :: k.items
  | choice c p q k => .choice c p q :: k.items
  | insideStar types k => .insideStar types :: k.items
  | inside types k => .inside types :: k.items
  | first k => .first :: k.items
  | last => [.last]
  | children p c k => .children p c :: k.items
  | pred p k => .pred p :: k.items
  | negPred p k => .negPred p :: k.items
  | action f p k => .action f p :: k.items

/-- The matching of an object and its continuation, apart from the captures. -/
def PatternDef.run (v : NodeView N) (fuel : Nat) : PatternDef N → N → Run
  | null, _ => Run.skip
  | cap _ p k, parent => (p.run v fuel parent).andThen (k.run v fuel parent)
  | anything k, parent => (Run.any v parent).andThen (k.run v fuel parent)
  | tokenMatch types k, parent =>
    (Run.item v parent fun n => decide (v.type n ∈ types)).andThen (k.run v fuel parent)
  | regexMatch type re k, parent =>
    (Run.item v parent fun n => decide (v.type n = type) && v.fullMatch (v.view n) re).andThen
      (k.run v fuel parent)
  | opt p k, parent => (p.run v fuel parent).opt.andThen (k.run v fuel parent)
  | rep p k, parent =>
    ((p.run v fuel parent).rep (v.last parent) fuel).andThen (k.run v fuel parent)
  | not p k, parent => ((p.run v fuel parent).not v parent).andThen (k.run v fuel parent)
  | choice _ p q k, parent =>
    ((p.run v fuel parent).choice (q.run v fuel parent)).andThen (k.run v fuel parent)
  | insideStar types k, parent =>
    (Run.test fun _ => insideLoop v types fuel (some parent)).andThen (k.run v fuel parent)
  | inside types k, parent =>
    (Run.test fun _ => some (decide (v.type parent ∈ types))).andThen (k.run v fuel parent)
  | first k, parent => (Run.test fun it => some (decide (it = 0))).andThen (k.run v fuel parent)
  | last, parent => Run.test fun it => some (decide (it = v.last parent))
  | children p c k, parent =>
    ((p.run v fuel parent).children v parent (c.run v fuel)).andThen (k.run v fuel parent)
  | pred p k, parent => (p.run v fuel parent).look.andThen (k.run v fuel parent)
  | negPred p k, parent => (p.run v fuel parent).notLook.andThen (k.run v fuel parent)
  | action f p k, parent =>
    ((p.run v fuel parent).guard fun it it' => f (v.slice parent it it')).andThen
      (k.run v fuel parent)

namespace PatternItem
variable {N : Type}

def run (v : NodeView N) (fuel : Nat) (parent : N) : PatternItem N → Run
  | cap _ p => p.run v fuel parent
  | anything => Run.any v parent
  | tokenMatch types => Run.item v parent fun n => decide (v.type n ∈ types)
  | regexMatch type re =>
    Run.item v parent fun n => decide (v.type n = type) && v.fullMatch (v.view n) re
  | opt p => (p.run v fuel parent).opt
  | rep p => (p.run v fuel parent).rep (v.last parent) fuel
  | not p => (p.run v fuel parent).not v parent
  | choice _ p q => (p.run v fuel parent).choice (q.run v fuel parent)
  | insideStar types => Run.test fun _ => insideLoop v types fuel (some parent)
  | inside types => Run.test fun _ => some (decide (v.type parent ∈ types))
  | first => Run.test fun it => some (decide (it = 0))
  | last => Run.test fun it => some (decide (it = v.last parent))
  | children p c => (p.run v fuel parent).children v parent (c.run v fuel)
  | pred p => (p.run v fuel parent).look
  | negPred p => (p.run v fuel parent).notLook
  | action f p => (p.run v fuel parent).guard fun it it' => f (v.slice parent it it')

def runs (v : NodeView N) (fuel : Nat) (parent : N) : List (PatternItem N) → Run
  | [] => Run.skip
  | x :: xs => (x.run v fuel parent).andThen (runs v fuel parent xs)

def node : PatternItem N → Reified
  | cap name p => .cap p.reify name
  | anything => .any
  | tokenMatch types => .tokenMatch types
  | regexMatch type re => .regexMatch type re
  | opt p => .opt p.reify
  | rep p => .rep p.reify
  | not p => .not p.reify
  | choice _ p q => .choice p.reify q.reify
  | insideStar types => .insideStar types
  | inside types => .inside types
  | first => .first
  | last => .last
  | children p c => .children p.reify c.reify
  | pred p => .pred p.reify
  | negPred p => .negPred p.reify
  | action _ p => .action p.reify

end PatternItem

open PatternItem
variable {N : Type} {v : NodeView N}

theorem PatternDef.reify_items (p : PatternDef N) : p.reify = p.items.map node := by
  induction p with
  | null | last => rfl
  | anything _ ih | tokenMatch _ _ ih | regexMatch _ _ _ ih | insideStar _ _ ih | inside _ _ ih
  | first _ ih | cap _ _ _ _ ih | opt _ _ _ ih | rep _ _ _ ih | not _ _ _ ih
  | choice _ _ _ _ _ _ ih | children _ _ _ _ _ ih | pred _ _ _ ih | negPred _ _ _ ih
  | action _ _ _ _ ih => simp only [reify, items, List.map_cons, node, ih]

theorem PatternDef.run_items (p : PatternDef N) (fuel : Nat) (parent : N) :
    p.run v fuel parent = runs v fuel parent p.items := by
  induction p with
  | null => rfl
  | last => exact (Run.andThen_skip _).symm
  | anything _ ih | tokenMatch _ _ ih | regexMatch _ _ _ ih | insideStar _ _ ih | inside _ _ ih
  | first _ ih | cap _ _ _ _ ih | opt _ _ _ ih | rep _ _ _ ih | not _ _ _ ih
  | choice _ _ _ _ _ _ ih | children _ _ _ _ _ ih | pred _ _ _ ih | negPred _ _ _ ih
  | action _ _ _ _ ih => simp only [run, items, runs, PatternItem.run, ih]

theorem PatternItem.runs_append (fuel : Nat) (parent : N) (xs ys : List (PatternItem N)) :
    runs v fuel parent (xs ++ ys) =
      (runs v fuel parent xs).andThen (runs v fuel parent ys) := by
  induction xs with
  | nil => rfl
  | cons x xs ih => simp only [List.cons_append, runs, ih, Run.andThen_assoc]

def MatchResult.outcome (r : MatchResult N) : Option (Option NodeIt) :=
  r.map fun (matched, it, _) => if matched then some it else none

@[simp] theorem MatchResult.outcome_none : MatchResult.outcome (none : MatchResult N) = none := rfl

@[simp] theorem MatchResult.outcome_some (m : Match N) :
    MatchResult.outcome (some (matched, it, m)) = some (if matched then some it else none) := rfl

theorem repLoop_run {body : NodeIt → Match N → MatchResult N} {f : Run}
    (hbody : ∀ it m, (body it m).outcome = f it) (stop : NodeIt) (fuel : Nat) (it : NodeIt)
    (m : Match N) :
    (repLoop body stop fuel it m).map (fun r => some r.1) = f.rep stop fuel it := by
  induction fuel generalizing it m with
  | zero => rfl
  | succ fuel ih =>
    simp only [repLoop, Run.rep]
    split
    · rfl
    · have hb := hbody it m
      rcases hr : body it m with _ | ⟨_ | _, it', m'⟩ <;> rw [hr] at hb <;> simp [← hb, ih]

/-- The captures have no influence on whether and where a pattern matches. -/
theorem PatternDef.matchAt_run (p : PatternDef N) (fuel : Nat) (it : NodeIt) (parent : N)
    (m : Match N) : (p.matchAt v fuel it parent m).outcome = p.run v fuel parent it := by
  induction p generalizing it parent m with
  | null => rfl
  | last => rfl
  | cap name p k ihp ihk =>
    have hp := ihp it parent m
    simp only [matchAt, run, Run.andThen]
    rcases hr : p.matchAt v fuel it parent m with _ | ⟨_ | _, it', m'⟩ <;> rw [hr] at hp <;>
      simp [← hp, ihk]
  | anything k ih =>
    simp only [matchAt, run, Run.andThen, Run.any]
    split <;> simp [ih]
  | tokenMatch types k ih =>
    simp only [matchAt, run, Run.andThen, Run.item]
    rcases v.child? parent it with _ | n
    · rfl
    · by_cases ht : v.type n ∈ types <;> simp [ht, ih]
  | regexMatch type re k ih =>
    simp only [matchAt, run, Run.andThen, Run.item]
    rcases v.child? parent it with _ | n
    · rfl
    · by_cases ht : v.type n = type ∧ v.fullMatch (v.view n) re <;> simp [ht, ih]
  | opt p k ihp ihk =>
    have hp := ihp it parent m.addFrame
    simp only [matchAt, run, Run.andThen, Run.opt]
    rcases hr : p.matchAt v fuel it parent m.addFrame with _ | ⟨_ | _, it', m'⟩ <;>
      rw [hr] at hp <;> simp [← hp, ihk]
  | rep p k ihp ihk =>
    have hp := repLoop_run (fun it m => ihp it parent m) (v.last parent) fuel it m
    simp only [matchAt, run, Run.andThen, ← hp]
    rcases repLoop _ (v.last parent) fuel it m with _ | ⟨it', m'⟩ <;> simp [ihk]
  | not p k ihp ihk =>
    have hp := ihp it parent m
    simp only [matchAt, run, Run.andThen, Run.not]
    split
    · rfl
    · rcases hr : p.matchAt v fuel it parent m with _ | ⟨_ | _, it', m'⟩ <;> rw [hr] at hp <;>
        simp [← hp, ihk]
  | choice c p q k ihp ihq ihk =>
    have hp := ihp it parent (if c then m.addFrame else m)
    simp only [matchAt, run, Run.andThen, Run.choice]
    rcases hr : p.matchAt v fuel it parent (if c then m.addFrame else m) with
      _ | ⟨_ | _, it', m'⟩ <;> rw [hr] at hp
    · simp [← hp]
    · have hq := ihq it parent (if c then m'.returnToFrame m.index else m')
      rcases hs : q.matchAt v fuel it parent (if c then m'.returnToFrame m.index else m') with
        _ | ⟨_ | _, it₂, m₂⟩ <;> rw [hs] at hq <;> simp [← hp, ← hq, hs, ihk]
    · simp [← hp, ihk]
  | insideStar types k ih =>
    simp only [matchAt, run, Run.andThen, Run.test]
    rcases insideLoop v types fuel (some parent) with _ | _ | _ <;> simp [ih]
  | inside types k ih =>
    simp only [matchAt, run, Run.andThen, Run.test]
    by_cases ht : v.type parent ∈ types <;> simp [ht, ih]
  | first k ih =>
    simp only [matchAt, run, Run.andThen, Run.test]
    by_cases hi : it = 0 <;> simp [hi, ih]
  | children p c k ihp ihc ihk =>
    have hp := ihp it parent m
    simp only [matchAt, run, Run.andThen, Run.children]
    rcases hr : p.matchAt v fuel it parent m with _ | ⟨_ | _, it', m'⟩ <;> rw [hr] at hp
    · simp [← hp]
    · simp [← hp]
    · rcases hn : v.child? parent it with _ | n
      · simp [← hp]
      · have hc := ihc 0 n m'
        rcases hs : c.matchAt v fuel 0 n m' with _ | ⟨_ | _, it₂, m₂⟩ <;> rw [hs] at hc <;>
          simp [← hp, ← hc, hs, ihk]
  | pred p k ihp ihk =>
    have hp := ihp it parent m
    simp only [matchAt, run, Run.andThen, Run.look]
    rcases hr : p.matchAt v fuel it parent m with _ | ⟨_ | _, it', m'⟩ <;> rw [hr] at hp <;>
      simp [← hp, ihk]
  | negPred p k ihp ihk =>
    have hp := ihp it parent m
    simp only [matchAt, run, Run.andThen, Run.notLook]
    rcases hr : p.matchAt v fuel it parent m with _ | ⟨_ | _, it', m'⟩ <;> rw [hr] at hp <;>
      simp [← hp, ihk]
  | action f p k ihp ihk =>
    have hp := ihp it parent m
    simp only [matchAt, run, Run.andThen, Run.guard]
    rcases hr : p.matchAt v fuel it parent m with _ | ⟨_ | _, it', m'⟩ <;> rw [hr] at hp
    · simp [← hp]
    · simp [← hp]
    · by_cases hf : f (v.slice parent it it') <;> simp [← hp, hf, ihk]

/-- The number of nodes that a match consumes. A match of one node starts before the end. -/
def Multiplicity.Allows (v : NodeView N) (parent : N) : Multiplicity → Run → Prop
  | .zero, f => ∀ it it', f it = some (some it') → it' = it
  | .one, f => ∀ it it', f it = some (some it') → it ≠ v.last parent ∧ it' = it + 1
  | .unknown, _ => True

namespace Multiplicity

@[simp] theorem zero_add (m : Multiplicity) : Multiplicity.zero.add m = m := by
  cases m <;> rfl

@[simp] theorem add_zero (m : Multiplicity) : m.add .zero = m := by
  cases m <;> rfl

theorem add_assoc (m m' m'' : Multiplicity) : (m.add m').add m'' = m.add (m'.add m'') := by
  cases m <;> cases m' <;> cases m'' <;> rfl

theorem add_eq_zero {m m' : Multiplicity} (h : m.add m' = .zero) : m = .zero ∧ m' = .zero := by
  cases m <;> cases m' <;> first | exact ⟨rfl, rfl⟩ | cases h

theorem add_eq_one {m m' : Multiplicity} (h : m.add m' = .one) :
    (m = .zero ∧ m' = .one) ∨ (m = .one ∧ m' = .zero) := by
  cases m <;> cases m' <;> first | exact .inl ⟨rfl, rfl⟩ | exact .inr ⟨rfl, rfl⟩ | cases h

theorem Allows.andThen {m m' : Multiplicity} {parent : N} {f g : Run} (hf : m.Allows v parent f)
    (hg : m'.Allows v parent g) : (m.add m').Allows v parent (f.andThen g) := by
  cases m with
  | zero =>
    rw [zero_add]
    have hstart {it it'} (h : f.andThen g it = some (some it')) : g it = some (some it') := by
      obtain ⟨it₁, h₁, h₂⟩ := Run.thenAt_eq h
      rwa [hf it it₁ h₁] at h₂
    cases m' with
    | zero => exact fun it it' h => hg it it' (hstart h)
    | one => exact fun it it' h => hg it it' (hstart h)
    | unknown => trivial
  | one =>
    cases m' with
    | zero =>
      intro it it' h
      obtain ⟨it₁, h₁, h₂⟩ := Run.thenAt_eq h
      rw [hg it₁ it' h₂]
      exact hf it it₁ h₁
    | one | unknown => trivial
  | unknown => cases m' <;> trivial

/-- A run whose matches are among those of another one. -/
theorem Allows.mono {m : Multiplicity} {parent : N} {f g : Run} (hf : m.Allows v parent f)
    (h : ∀ it it', g it = some (some it') → f it = some (some it')) : m.Allows v parent g := by
  cases m with
  | zero => exact fun it it' hg => hf it it' (h it it' hg)
  | one => exact fun it it' hg => hf it it' (h it it' hg)
  | unknown => trivial

theorem Allows.choice {m : Multiplicity} {parent : N} {f g : Run} (hf : m.Allows v parent f)
    (hg : m.Allows v parent g) : m.Allows v parent (f.choice g) := by
  have hsplit {it it'} (h : f.choice g it = some (some it')) :
      f it = some (some it') ∨ g it = some (some it') := by
    obtain ⟨r, hr, h⟩ := Option.bind_eq_some_iff.1 h
    cases r with
    | none => exact .inr h
    | some it₁ =>
      cases h
      exact .inl hr
  cases m with
  | zero => exact fun it it' h => (hsplit h).elim (hf it it') (hg it it')
  | one => exact fun it it' h => (hsplit h).elim (hf it it') (hg it it')
  | unknown => trivial

theorem Allows.test (c : NodeIt → Option Bool) (parent : N) :
    Multiplicity.zero.Allows v parent (Run.test c) := by
  intro it it' h
  obtain ⟨ok, _, h⟩ := Option.map_eq_some_iff.1 h
  cases ok <;> cases h
  rfl

theorem Allows.look (f : Run) (parent : N) : Multiplicity.zero.Allows v parent f.look := by
  intro it it' h
  obtain ⟨r, _, h⟩ := Option.map_eq_some_iff.1 h
  cases r <;> cases h
  rfl

theorem Allows.notLook (f : Run) (parent : N) : Multiplicity.zero.Allows v parent f.notLook := by
  intro it it' h
  obtain ⟨r, _, h⟩ := Option.map_eq_some_iff.1 h
  cases r <;> cases h
  rfl

theorem Allows.any (parent : N) : Multiplicity.one.Allows v parent (Run.any v parent) := by
  intro it it' h
  simp only [Run.any, Option.some.injEq] at h
  split at h
  · cases h
  · cases h
    exact ⟨‹_›, rfl⟩

theorem Allows.not (f : Run) (parent : N) : Multiplicity.one.Allows v parent (f.not v parent) := by
  intro it it' h
  simp only [Run.not] at h
  split at h
  · cases h
  · obtain ⟨r, _, h⟩ := Option.map_eq_some_iff.1 h
    cases r <;> cases h
    exact ⟨‹_›, rfl⟩

end Multiplicity

theorem Run.item_eq {parent : N} {ok : N → Bool}
    (h : Run.item v parent ok it = some (some it')) :
    ∃ n, v.child? parent it = some n ∧ ok n = true ∧ it' = it + 1 := by
  obtain ⟨n, hn, h⟩ := Option.bind_eq_some_iff.1 (Option.some.inj h)
  split at h
  · cases h
    exact ⟨n, hn, ‹_›, rfl⟩
  · cases h

theorem Run.children_eq {parent : N} {f : Run} {g : N → Run}
    (h : f.children v parent g it = some (some it')) : f it = some (some it') ∧
      ∃ n j, v.child? parent it = some n ∧ g n 0 = some (some j) := by
  obtain ⟨it₁, h₁, h⟩ := thenAt_eq h
  obtain ⟨n, hn, h⟩ := Option.bind_eq_some_iff.1 h
  obtain ⟨r, hr, h⟩ := Option.map_eq_some_iff.1 h
  cases r <;> cases h
  exact ⟨h₁, n, _, hn, hr⟩

theorem Run.guard_eq {f : Run} {ok : NodeIt → NodeIt → Bool}
    (h : f.guard ok it = some (some it')) : f it = some (some it') := by
  obtain ⟨it₁, h₁, h⟩ := thenAt_eq h
  simp only [Option.some.injEq] at h
  split at h <;> cases h
  exact h₁

theorem Multiplicity.Allows.item (parent : N) (ok : N → Bool) :
    Multiplicity.one.Allows v parent (Run.item v parent ok) := by
  intro it it' h
  obtain ⟨n, hn, _, rfl⟩ := Run.item_eq h
  refine ⟨?_, rfl⟩
  rintro rfl
  simp [NodeView.child?, NodeView.last] at hn

theorem groupMultiplicity_add (sum : Multiplicity) (group : List Reified) :
    groupMultiplicity sum group = sum.add (groupMultiplicity .zero group) := by
  induction group generalizing sum with
  | nil => simp [groupMultiplicity]
  | cons x rest ih =>
    rw [groupMultiplicity, ih, groupMultiplicity, ih (Multiplicity.zero.add _),
      Multiplicity.zero_add, Multiplicity.add_assoc]

@[simp] theorem groupMultiplicity_nil : groupMultiplicity .zero [] = .zero := by
  simp [groupMultiplicity]

theorem groupMultiplicity_cons (x : Reified) (rest : List Reified) :
    groupMultiplicity .zero (x :: rest) = x.multiplicity.add (groupMultiplicity .zero rest) := by
  rw [groupMultiplicity, groupMultiplicity_add, Multiplicity.zero_add]

theorem groupMultiplicity_singleton (x : Reified) :
    groupMultiplicity .zero [x] = x.multiplicity := by
  rw [groupMultiplicity_cons, groupMultiplicity_nil, Multiplicity.add_zero]

theorem groupMultiplicity_append (xs ys : List Reified) :
    groupMultiplicity .zero (xs ++ ys) =
      (groupMultiplicity .zero xs).add (groupMultiplicity .zero ys) := by
  induction xs with
  | nil => simp
  | cons x xs ih =>
    rw [List.cons_append, groupMultiplicity_cons, ih, groupMultiplicity_cons,
      Multiplicity.add_assoc]

theorem PatternDef.run_multiplicity (p : PatternDef N) (fuel : Nat) (parent : N) :
    (groupMultiplicity .zero p.reify).Allows v parent (p.run v fuel parent) := by
  induction p generalizing parent with
  | null =>
    simp only [reify, groupMultiplicity_nil, run]
    rintro it it' ⟨⟩
    rfl
  | last =>
    simp only [reify, groupMultiplicity_cons, Reified.multiplicity, groupMultiplicity_nil, run]
    exact .test _ parent
  | cap _ p k ihp ihk =>
    simp only [reify, groupMultiplicity_cons, Reified.multiplicity, run]
    exact (ihp parent).andThen (ihk parent)
  | anything k ih =>
    simp only [reify, groupMultiplicity_cons, Reified.multiplicity, run]
    exact (Multiplicity.Allows.any parent).andThen (ih parent)
  | tokenMatch _ k ih | regexMatch _ _ k ih =>
    simp only [reify, groupMultiplicity_cons, Reified.multiplicity, run]
    exact (Multiplicity.Allows.item parent _).andThen (ih parent)
  | opt p k _ ih | rep p k _ ih =>
    simp only [reify, groupMultiplicity_cons, Reified.multiplicity, run]
    exact Multiplicity.Allows.andThen (m := .unknown) trivial (ih parent)
  | not p k _ ih =>
    simp only [reify, groupMultiplicity_cons, Reified.multiplicity, run]
    exact (Multiplicity.Allows.not _ parent).andThen (ih parent)
  | choice _ p q k ihp ihq ihk =>
    simp only [reify, groupMultiplicity_cons, Reified.multiplicity, run]
    refine Multiplicity.Allows.andThen ?_ (ihk parent)
    split
    · rename_i heq
      exact (ihp parent).choice (heq ▸ ihq parent)
    · trivial
  | insideStar _ k ih | inside _ k ih | first k ih =>
    simp only [reify, groupMultiplicity_cons, Reified.multiplicity, run]
    exact (Multiplicity.Allows.test _ parent).andThen (ih parent)
  | children p c k ihp _ ihk =>
    simp only [reify, groupMultiplicity_cons, Reified.multiplicity, run]
    refine Multiplicity.Allows.andThen ((ihp parent).mono ?_) (ihk parent)
    exact fun it it' h => (Run.children_eq h).1
  | pred p k _ ih =>
    simp only [reify, groupMultiplicity_cons, Reified.multiplicity, run]
    exact (Multiplicity.Allows.look _ parent).andThen (ih parent)
  | negPred p k _ ih =>
    simp only [reify, groupMultiplicity_cons, Reified.multiplicity, run]
    exact (Multiplicity.Allows.notLook _ parent).andThen (ih parent)
  | action f p k ihp ihk =>
    simp only [reify, groupMultiplicity_cons, Reified.multiplicity, run]
    exact ((ihp parent).mono fun it it' h => Run.guard_eq h).andThen (ihk parent)

def PatternItem.alone : PatternItem N → PatternDef N
  | cap name p => .cap name p .null
  | anything => .anything .null
  | tokenMatch types => .tokenMatch types .null
  | regexMatch type re => .regexMatch type re .null
  | opt p => .opt p .null
  | rep p => .rep p .null
  | not p => .not p .null
  | choice c p q => .choice c p q .null
  | insideStar types => .insideStar types .null
  | inside types => .inside types .null
  | first => .first .null
  | last => .last
  | children p c => .children p c .null
  | pred p => .pred p .null
  | negPred p => .negPred p .null
  | action f p => .action f p .null

theorem PatternItem.alone_items (x : PatternItem N) : x.alone.items = [x] := by
  cases x <;> rfl

theorem PatternItem.alone_reify (x : PatternItem N) : x.alone.reify = [x.node] := by
  cases x <;> rfl

theorem PatternItem.alone_run (x : PatternItem N) (fuel : Nat) (parent : N) :
    x.alone.run v fuel parent = x.run v fuel parent := by
  rw [PatternDef.run_items, alone_items, runs, runs, Run.andThen_skip]

theorem PatternItem.run_multiplicity (x : PatternItem N) (fuel : Nat) (parent : N) :
    x.node.multiplicity.Allows v parent (x.run v fuel parent) := by
  have h := x.alone.run_multiplicity (v := v) fuel parent
  rwa [alone_reify, groupMultiplicity_singleton, alone_run] at h

def Run.StartsAt (v : NodeView N) (parent : N) (types : List Token) (f : Run) : Prop :=
  ∀ it it', f it = some (some it') → ∃ n, v.child? parent it = some n ∧ v.type n ∈ types

theorem groupTokens_zero (h : groupMultiplicity .zero group = .zero) (types : List Token) :
    groupTokens types group = types := by
  induction group with
  | nil => rfl
  | cons x rest ih =>
    rw [groupMultiplicity_cons] at h
    obtain ⟨hx, hr⟩ := Multiplicity.add_eq_zero h
    rw [groupTokens, hx]
    exact ih hr

/-- A node that is known to match one node starts at one of its tokens. -/
def Reified.Starts (v : NodeView N) (parent : N) (x : Reified) (f : Run) : Prop :=
  x.multiplicity = .one → x.onlyTokens ≠ [] → f.StartsAt v parent x.onlyTokens

def GroupStarts (v : NodeView N) (parent : N) (group : List Reified) (f : Run) : Prop :=
  groupMultiplicity .zero group = .one → groupTokens [] group ≠ [] →
    f.StartsAt v parent (groupTokens [] group)

theorem GroupStarts.cons {x : Reified} {parent : N} {f g : Run} (hx : x.Starts v parent f)
    (hf : x.multiplicity.Allows v parent f) (hr : GroupStarts v parent rest g) :
    GroupStarts v parent (x :: rest) (f.andThen g) := by
  intro hone hne it it' h
  rw [groupMultiplicity_cons] at hone
  obtain ⟨it₁, h₁, h₂⟩ := Run.thenAt_eq h
  rcases Multiplicity.add_eq_one hone with ⟨hm, hm'⟩ | ⟨hm, hm'⟩
  · have ht : groupTokens [] (x :: rest) = groupTokens [] rest := by rw [groupTokens, hm]
    rw [ht] at hne ⊢
    rw [hm] at hf
    rw [hf it it₁ h₁] at h₂
    exact hr hm' hne it it' h₂
  · have ht : groupTokens [] (x :: rest) = x.onlyTokens := by
      rw [groupTokens, hm]
      exact groupTokens_zero hm' _
    rw [ht] at hne ⊢
    exact hx hm hne it it₁ h₁

theorem Reified.Starts.of_nil {x : Reified} {parent : N} {f : Run} (h : x.onlyTokens = []) :
    x.Starts v parent f := by
  intro _ hne
  exact absurd h hne

theorem PatternDef.run_starts (p : PatternDef N) (fuel : Nat) (parent : N) :
    GroupStarts v parent p.reify (p.run v fuel parent) := by
  induction p generalizing parent with
  | null =>
    intro h
    cases h
  | last =>
    intro h
    cases h
  | cap name p k ihp ihk =>
    exact .cons (x := .cap p.reify name) (ihp parent) (p.run_multiplicity fuel parent) (ihk parent)
  | anything k ih =>
    exact .cons (x := .any) (.of_nil rfl) (.any parent) (ih parent)
  | tokenMatch types k ih =>
    refine .cons (x := .tokenMatch types) ?_ (.item parent _) (ih parent)
    intro _ _ it it' h
    obtain ⟨n, hn, ht, _⟩ := Run.item_eq h
    exact ⟨n, hn, of_decide_eq_true ht⟩
  | regexMatch type re k ih =>
    refine .cons (x := .regexMatch type re) ?_ (.item parent _) (ih parent)
    intro _ _ it it' h
    obtain ⟨n, hn, ht, _⟩ := Run.item_eq h
    simp only [Bool.and_eq_true, decide_eq_true_eq] at ht
    exact ⟨n, hn, List.mem_singleton.2 ht.1⟩
  | opt p k _ ih => exact .cons (x := .opt p.reify) (.of_nil rfl) trivial (ih parent)
  | rep p k _ ih => exact .cons (x := .rep p.reify) (.of_nil rfl) trivial (ih parent)
  | not p k _ ih =>
    exact .cons (x := .not p.reify) (.of_nil rfl) (.not _ parent) (ih parent)
  | choice c p q k _ _ ih =>
    exact .cons (x := .choice p.reify q.reify) (.of_nil rfl)
      ((PatternItem.choice c p q).run_multiplicity fuel parent) (ih parent)
  | insideStar types k ih =>
    exact .cons (x := .insideStar types) (.of_nil rfl) (.test _ parent) (ih parent)
  | inside types k ih =>
    exact .cons (x := .inside types) (.of_nil rfl) (.test _ parent) (ih parent)
  | first k ih => exact .cons (x := .first) (.of_nil rfl) (.test _ parent) (ih parent)
  | children p c k ihp _ ihk =>
    refine .cons (x := .children p.reify c.reify) ?_
      ((PatternItem.children p c).run_multiplicity fuel parent) (ihk parent)
    exact fun hm hne it it' h => ihp parent hm hne it it' (Run.children_eq h).1
  | pred p k _ ih => exact .cons (x := .pred p.reify) (.of_nil rfl) (.look _ parent) (ih parent)
  | negPred p k _ ih =>
    exact .cons (x := .negPred p.reify) (.of_nil rfl) (.notLook _ parent) (ih parent)
  | action f p k _ ih =>
    exact .cons (x := .action p.reify) (.of_nil rfl)
      ((PatternItem.action f p).run_multiplicity fuel parent) (ih parent)

theorem PatternItem.run_starts (x : PatternItem N) (fuel : Nat) (parent : N)
    (hm : x.node.multiplicity = .one) (hne : x.node.onlyTokens ≠ []) :
    (x.run v fuel parent).StartsAt v parent x.node.onlyTokens := by
  have h := x.alone.run_starts (v := v) fuel parent
  have ht : groupTokens [] [x.node] = x.node.onlyTokens := by simp [groupTokens, hm]
  rw [alone_reify, GroupStarts, groupMultiplicity_singleton, hm, ht, alone_run] at h
  exact h rfl hne

namespace Pattern

/-- A pattern that is expected to match no node leaves the iterator where it was, and one that is
expected to match one node moves it by one. -/
theorem multiplicity_sound (p : Pattern N) (v : NodeView N) (parent : N) (it : NodeIt)
    (m : Match N) (it' : NodeIt) (m' : Match N) (h : p.Matches v parent it m true it' m') :
    (groupMultiplicity .zero p.pattern.reify = .zero → it' = it) ∧
      (groupMultiplicity .zero p.pattern.reify = .one → it' = it + 1) := by
  obtain ⟨fuel, h⟩ := h
  have hrun := p.pattern.matchAt_run (v := v) fuel it parent m
  rw [h] at hrun
  have hallows := p.pattern.run_multiplicity (v := v) fuel parent
  constructor
  · intro hm
    rw [hm] at hallows
    exact hallows it it' hrun.symm
  · intro hm
    rw [hm] at hallows
    exact (hallows it it' hrun.symm).2

/-- `Start * ((T(a) / Any)[x](f) << End)`, at the only child. -/
theorem multiplicity_sound_one : ∃ p : Pattern Nat,
    groupMultiplicity .zero p.pattern.reify = .one ∧
      (groupMultiplicity .zero p.pattern.reify = .zero → 1 = 0) ∧
        (groupMultiplicity .zero p.pattern.reify = .one → 1 = 0 + 1) := by
  let a : Token := ⟨"a", 0⟩
  let p : Pattern Nat := ⟨.first (.children (.action (fun _ => true) (.cap ⟨"x", 0⟩
    (.choice false (.tokenMatch [a] .null) (.anything .null) .null) .null) .null) .last .null),
    .matchAny⟩
  refine ⟨p, by decide, ?_⟩
  exact p.multiplicity_sound (NodeView.leaves ⟨"root", 0⟩ [a]) 0 0 {} 1 _ ⟨1, rfl⟩

end Pattern

end Trieste
