import Trieste.Rewrite.Pattern

namespace Trieste
set_option autoImplicit true

def NodeView.leaves (root : Token) (types : List Token) : NodeView Nat where
  type n := if n = 0 then root else types.getD (n - 1) root
  view _ := ""
  children n := if n = 0 then List.range' 1 types.length else []
  parent n := if n = 0 then none else some 0
  fullMatch _ _ := false

/-- Whether a pattern matched, where it left the iterator and the captures; nothing where the
call does not return or dereferences the end of a child list. -/
abbrev MatchResult (N : Type) := Option (Bool × NodeIt × Match N)

def MatchResult.andThen (r : MatchResult N) (k : NodeIt → Match N → MatchResult N) :
    MatchResult N :=
  r.bind fun (matched, it, m) => if matched then k it m else some (false, it, m)

/-- The loop of `Rep`, which leaves the iterator after the last match. -/
def repLoop (body : NodeIt → Match N → MatchResult N) (last : NodeIt) :
    Nat → NodeIt → Match N → Option (NodeIt × Match N)
  | 0, _, _ => none
  | fuel + 1, it, m =>
    if it = last then some (it, m)
    else (body it m).bind fun (matched, it', m') =>
      if matched then repLoop body last fuel it' m' else some (it, m')

/-- The loop of `InsideStar` up the parents. -/
def insideLoop (v : NodeView N) (types : List Token) : Nat → Option N → Option Bool
  | _, none => some false
  | 0, some _ => none
  | fuel + 1, some p =>
    if v.type p ∈ types then some true else insideLoop v types fuel (v.parent p)

/-- `match`, with fuel for its loops. -/
def PatternDef.matchAt (v : NodeView N) (fuel : Nat) :
    PatternDef N → NodeIt → N → Match N → MatchResult N
  | null, it, _, m => some (true, it, m)
  | cap name p k, it, parent, m =>
    MatchResult.andThen (p.matchAt v fuel it parent m) fun it' m' =>
      k.matchAt v fuel it' parent (m'.set name (v.range parent it it'))
  | anything k, it, parent, m =>
    if it = v.last parent then some (false, it, m) else k.matchAt v fuel (it + 1) parent m
  | tokenMatch types k, it, parent, m =>
    match v.child? parent it with
    | none => some (false, it, m)
    | some n =>
      if v.type n ∈ types then k.matchAt v fuel (it + 1) parent m else some (false, it, m)
  | regexMatch type re k, it, parent, m =>
    match v.child? parent it with
    | none => some (false, it, m)
    | some n =>
      if v.type n = type ∧ v.fullMatch (v.view n) re then k.matchAt v fuel (it + 1) parent m
      else some (false, it, m)
  | opt p k, it, parent, m =>
    (p.matchAt v fuel it parent m.addFrame).bind fun (matched, it', m') =>
      if matched then k.matchAt v fuel it' parent m'
      else k.matchAt v fuel it parent (m'.returnToFrame m.index)
  | rep p k, it, parent, m =>
    (repLoop (fun it m => p.matchAt v fuel it parent m) (v.last parent) fuel it m).bind
      fun (it', m') => k.matchAt v fuel it' parent m'
  | not p k, it, parent, m =>
    if it = v.last parent then some (false, it, m)
    else (p.matchAt v fuel it parent m).bind fun (matched, _, m') =>
      if matched then some (false, it + 1, m') else k.matchAt v fuel (it + 1) parent m'
  | choice capturesLeft p q k, it, parent, m =>
    (p.matchAt v fuel it parent (if capturesLeft then m.addFrame else m)).bind
      fun (matched, it', m') =>
        if matched then k.matchAt v fuel it' parent m'
        else MatchResult.andThen
          (q.matchAt v fuel it parent (if capturesLeft then m'.returnToFrame m.index else m'))
          fun it' m' => k.matchAt v fuel it' parent m'
  | insideStar types k, it, parent, m =>
    (insideLoop v types fuel (some parent)).bind fun found =>
      if found then k.matchAt v fuel it parent m else some (false, it, m)
  | inside types k, it, parent, m =>
    if v.type parent ∈ types then k.matchAt v fuel it parent m else some (false, it, m)
  | first k, it, parent, m =>
    if it = 0 then k.matchAt v fuel it parent m else some (false, it, m)
  | last, it, parent, m => some (decide (it = v.last parent), it, m)
  | children p c k, it, parent, m =>
    MatchResult.andThen (p.matchAt v fuel it parent m) fun it' m' =>
      (v.child? parent it).bind fun begin =>
        (c.matchAt v fuel 0 begin m').bind fun (matched, _, m'') =>
          if matched then k.matchAt v fuel it' parent m'' else some (false, it', m'')
  | pred p k, it, parent, m =>
    (p.matchAt v fuel it parent m).bind fun (matched, _, m') =>
      if matched then k.matchAt v fuel it parent m' else some (false, it, m')
  | negPred p k, it, parent, m =>
    (p.matchAt v fuel it parent m).bind fun (matched, _, m') =>
      if matched then some (false, it, m') else k.matchAt v fuel it parent m'
  | action f p k, it, parent, m =>
    MatchResult.andThen (p.matchAt v fuel it parent m) fun it' m' =>
      if f (v.slice parent it it') then k.matchAt v fuel it' parent m' else some (false, it', m')

/-- `match` returns this result. -/
def Pattern.Matches (p : Pattern N) (v : NodeView N) (parent : N) (it : NodeIt) (m : Match N)
    (matched : Bool) (it' : NodeIt) (m' : Match N) : Prop :=
  ∃ fuel, p.pattern.matchAt v fuel it parent m = some (matched, it', m')

@[simp] theorem MatchResult.andThen_none (k : NodeIt → Match N → MatchResult N) :
    MatchResult.andThen none k = none := rfl

@[simp] theorem MatchResult.andThen_some (k : NodeIt → Match N → MatchResult N) :
    MatchResult.andThen (some (matched, it, m)) k =
      if matched then k it m else some (false, it, m) := rfl

namespace PatternDef
variable {N : Type} {v : NodeView N}
attribute [local simp] matchAt

theorem setContinuation_map_ok {k q r : PatternDef N} {f : PatternDef N → PatternDef N}
    (h : (k.setContinuation q).map f = .ok r) : ∃ k', k.setContinuation q = .ok k' ∧ r = f k' := by
  cases hk : k.setContinuation q with
  | error e => simp [hk, Except.map] at h
  | ok k' => exact ⟨k', rfl, by simpa [hk, Except.map] using h.symm⟩

/-- A continuation runs where the pattern matched. -/
theorem matchAt_setContinuation {p q r : PatternDef N} (h : p.setContinuation q = .ok r)
    (fuel : Nat) (it : NodeIt) (parent : N) (m : Match N) :
    r.matchAt v fuel it parent m = MatchResult.andThen (p.matchAt v fuel it parent m)
      fun it' m' => q.matchAt v fuel it' parent m' := by
  induction p generalizing r it m with
  | null =>
    cases h
    rfl
  | last => cases h
  | cap name p k _ ih =>
    obtain ⟨k', hk, rfl⟩ := setContinuation_map_ok h
    simp only [matchAt]
    rcases p.matchAt v fuel it parent m with _ | ⟨_ | _, it', m'⟩ <;> simp [ih hk]
  | anything k ih =>
    obtain ⟨k', hk, rfl⟩ := setContinuation_map_ok h
    simp only [matchAt]
    split <;> simp [ih hk]
  | tokenMatch types k ih =>
    obtain ⟨k', hk, rfl⟩ := setContinuation_map_ok h
    simp only [matchAt]
    split
    · rfl
    · split <;> simp [ih hk]
  | regexMatch type re k ih =>
    obtain ⟨k', hk, rfl⟩ := setContinuation_map_ok h
    simp only [matchAt]
    split
    · rfl
    · split <;> simp [ih hk]
  | opt p k _ ih =>
    obtain ⟨k', hk, rfl⟩ := setContinuation_map_ok h
    simp only [matchAt]
    rcases p.matchAt v fuel it parent m.addFrame with _ | ⟨_ | _, it', m'⟩ <;> simp [ih hk]
  | rep p k _ ih =>
    obtain ⟨k', hk, rfl⟩ := setContinuation_map_ok h
    simp only [matchAt]
    rcases repLoop _ (v.last parent) fuel it m with _ | ⟨it', m'⟩ <;> simp [ih hk]
  | not p k _ ih =>
    obtain ⟨k', hk, rfl⟩ := setContinuation_map_ok h
    simp only [matchAt]
    split
    · rfl
    · rcases p.matchAt v fuel it parent m with _ | ⟨_ | _, it', m'⟩ <;> simp [ih hk]
  | choice capturesLeft p q' k _ _ ih =>
    obtain ⟨k', hk, rfl⟩ := setContinuation_map_ok h
    simp only [matchAt]
    rcases p.matchAt v fuel it parent _ with _ | ⟨_ | _, it', m'⟩
    · rfl
    · rcases hq : q'.matchAt v fuel it parent
        (if capturesLeft then m'.returnToFrame m.index else m') with _ | ⟨_ | _, it'', m''⟩ <;>
        simp [ih hk, hq]
    · simp [ih hk]
  | insideStar types k ih =>
    obtain ⟨k', hk, rfl⟩ := setContinuation_map_ok h
    simp only [matchAt]
    rcases insideLoop v types fuel (some parent) with _ | _ | _ <;> simp [ih hk]
  | inside types k ih =>
    obtain ⟨k', hk, rfl⟩ := setContinuation_map_ok h
    simp only [matchAt]
    split <;> simp [ih hk]
  | first k ih =>
    obtain ⟨k', hk, rfl⟩ := setContinuation_map_ok h
    simp only [matchAt]
    split <;> simp [ih hk]
  | children p c k _ _ ih =>
    obtain ⟨k', hk, rfl⟩ := setContinuation_map_ok h
    simp only [matchAt]
    rcases p.matchAt v fuel it parent m with _ | ⟨_ | _, it', m'⟩
    · rfl
    · rfl
    · rcases v.child? parent it with _ | begin
      · rfl
      · rcases hc : c.matchAt v fuel 0 begin m' with _ | ⟨_ | _, it'', m''⟩ <;> simp [ih hk, hc]
  | pred p k _ ih =>
    obtain ⟨k', hk, rfl⟩ := setContinuation_map_ok h
    simp only [matchAt]
    rcases p.matchAt v fuel it parent m with _ | ⟨_ | _, it', m'⟩ <;> simp [ih hk]
  | negPred p k _ ih =>
    obtain ⟨k', hk, rfl⟩ := setContinuation_map_ok h
    simp only [matchAt]
    rcases p.matchAt v fuel it parent m with _ | ⟨_ | _, it', m'⟩ <;> simp [ih hk]
  | action f p k _ ih =>
    obtain ⟨k', hk, rfl⟩ := setContinuation_map_ok h
    simp only [matchAt]
    rcases p.matchAt v fuel it parent m with _ | ⟨_ | _, it', m'⟩
    · rfl
    · rfl
    · by_cases hf : f (v.slice parent it it') <;> simp [ih hk, hf]

end PatternDef

end Trieste
