import Mathlib.Data.List.Basic
import Mathlib.Data.Finset.Basic
import Mathlib.Data.Finset.Lattice.Basic
import Mathlib.Logic.Function.Basic
import Trieste.Library.ShortCircuit
import Trieste.Token

namespace Trieste
set_option autoImplicit true
open Library

/-- The nodes of a child list from `first` up to `second`. -/
structure NodeRange (N : Type) where
  nodes : List N := []
  first : Nat := 0
  second : Nat := 0
  deriving DecidableEq

namespace NodeRange
variable {N : Type}

def toList (r : NodeRange N) : List N := (r.nodes.take r.second).drop r.first

/-- `*first`, also where the range is empty; nothing where that is the end of the child list. -/
def front (r : NodeRange N) : Option N := r.nodes[r.first]?

end NodeRange

/-- One frame. The map of a frame that is not valid is stale. -/
structure Frame (N : Type) where
  valid : Bool := false
  map : Token → Option (NodeRange N) := fun _ => none

def Frame.find (f : Frame N) (t : Token) : Option (NodeRange N) :=
  if f.valid then f.map t else none

/-- The captures of a match in progress, with the frame in use. -/
structure Match (N : Type) where
  index : Nat := 0
  captures : List (Frame N) := List.replicate 16 {}

namespace Match
variable {N : Type}

def frame (m : Match N) (i : Nat) : Frame N := m.captures.getD i {}

/-- The loop of `operator[]`, from frame `i` downwards. -/
def findFrom (m : Match N) (t : Token) : Nat → Option (NodeRange N)
  | 0 => (m.frame 0).find t
  | i + 1 => ((m.frame (i + 1)).find t).or (m.findFrom t i)

def find (m : Match N) (t : Token) : Option (NodeRange N) := m.findFrom t m.index

/-- `operator[]`, which returns an empty range for a token that is not bound. -/
def range (m : Match N) (t : Token) : NodeRange N := (m.find t).getD {}

/-- The loop of `operator()`, from frame `i` downwards; `some none` is the null node, and nothing
is returned where `front` reads past the end of a child list. The nodes of a child list are not
null. -/
def frontFrom (m : Match N) (t : Token) : Nat → Option (Option N)
  | 0 => ((m.frame 0).find t).elim (some none) fun r => r.front.map some
  | i + 1 => ((m.frame (i + 1)).find t).elim (m.frontFrom t i) fun r => r.front.map some

/-- `operator()` -/
def front (m : Match N) (t : Token) : Option (Option N) := m.frontFrom t m.index

def set (m : Match N) (t : Token) (r : NodeRange N) : Match N :=
  { m with captures := m.captures.modify m.index fun f =>
      { valid := true
        map := Function.update (if f.valid then f.map else fun _ => none) t (some r) } }

def addFrame (m : Match N) : Match N :=
  let index := m.index + 1
  if m.captures.length = index then
    { index, captures := m.captures ++ List.replicate (index * 2 - m.captures.length) {} }
  else { index, captures := m.captures.modify index fun f => { f with valid := false } }

def returnToFrame (m : Match N) (index : Nat) : Match N := { m with index }

def reset (m : Match N) : Match N where
  index := 0
  captures := m.captures.modify 0 fun f => { f with valid := false }

end Match

/-- `starts` and `parents` are universal when empty; a pattern that is a pass through may
consume nothing. -/
structure FastPattern where
  starts : Finset Token
  parents : Finset Token
  passThrough : Bool
  deriving DecidableEq

namespace FastPattern

def anyFirst (f : FastPattern) : Bool := decide (f.starts = ∅) && !f.passThrough

def matchAny : FastPattern := ⟨∅, ∅, false⟩

def matchPred : FastPattern := ⟨∅, ∅, true⟩

def matchToken (tokens : Finset Token) : FastPattern := ⟨tokens, ∅, false⟩

def matchParent (tokens : Finset Token) : FastPattern := ⟨∅, tokens, true⟩

def matchChoice (lhs rhs : FastPattern) : FastPattern where
  starts := if !rhs.anyFirst && !lhs.anyFirst then lhs.starts ∪ rhs.starts else ∅
  parents := if rhs.parents ≠ ∅ ∧ lhs.parents ≠ ∅ then lhs.parents ∪ rhs.parents else ∅
  passThrough := !rhs.anyFirst && !lhs.anyFirst && (lhs.passThrough || rhs.passThrough)

def matchSeq (lhs rhs : FastPattern) : FastPattern where
  starts :=
    if lhs.passThrough then
      if rhs.anyFirst then ∅ else lhs.starts ∪ rhs.starts
    else lhs.starts
  parents :=
    if lhs.parents = ∅ then rhs.parents
    else if rhs.parents = ∅ then lhs.parents
    else lhs.parents ∩ rhs.parents
  passThrough := lhs.passThrough && !rhs.anyFirst && rhs.passThrough

def matchOpt (pattern : FastPattern) : FastPattern :=
  if pattern.anyFirst then pattern else ⟨pattern.starts, ∅, true⟩

end FastPattern

/-- What matching reads of the tree, with the full match of the regex library. -/
structure NodeView (N : Type) where
  type : N → Token
  view : N → String
  children : N → List N
  parent : N → Option N
  fullMatch : String → String → Bool

/-- A position among the children of a node. -/
abbrev NodeIt := Nat

namespace NodeView
variable {N : Type}

/-- The position of `end()`. -/
def last (v : NodeView N) (parent : N) : NodeIt := (v.children parent).length

def child? (v : NodeView N) (parent : N) (it : NodeIt) : Option N := (v.children parent)[it]?

def slice (v : NodeView N) (parent : N) (begin it : NodeIt) : List N :=
  ((v.children parent).take it).drop begin

def range (v : NodeView N) (parent : N) (begin it : NodeIt) : NodeRange N :=
  ⟨v.children parent, begin, it⟩

end NodeView

/-- A pattern object with its continuation; `null` is the absent continuation. Cloning copies
only objects that are never changed again, so a clone is the same value. -/
inductive PatternDef (N : Type)
  | null
  | cap (name : Token) (pattern continuation : PatternDef N)
  | anything (continuation : PatternDef N)
  | tokenMatch (types : List Token) (continuation : PatternDef N)
  | regexMatch (type : Token) (regex : String) (continuation : PatternDef N)
  | opt (pattern continuation : PatternDef N)
  | rep (pattern continuation : PatternDef N)
  | not (pattern continuation : PatternDef N)
  | choice (capturesLeft : Bool) (first second continuation : PatternDef N)
  | insideStar (types : List Token) (continuation : PatternDef N)
  | inside (types : List Token) (continuation : PatternDef N)
  | first (continuation : PatternDef N)
  | last
  | children (pattern children continuation : PatternDef N)
  | pred (pattern continuation : PatternDef N)
  | negPred (pattern continuation : PatternDef N)
  | action (action : List N → Bool) (pattern continuation : PatternDef N)

namespace PatternDef
variable {N : Type}

/-- Whether a match can bind a token. An action does not look into its pattern. -/
def hasCaptures : PatternDef N → Bool
  | null | last => false
  | cap _ _ _ => true
  | anything k | tokenMatch _ k | regexMatch _ _ k | insideStar _ k | inside _ k | first k =>
    k.hasCaptures
  | opt p k => p.hasCaptures || k.hasCaptures
  | rep _ k | not _ k | pred _ k | negPred _ k | action _ _ k => k.hasCaptures
  | choice _ p q k => p.hasCaptures || q.hasCaptures || k.hasCaptures
  | children p c k => p.hasCaptures || c.hasCaptures || k.hasCaptures

def onlyTokens : PatternDef N → List Token
  | tokenMatch types null => types
  | _ => []

/-- Appends to the end of the continuation chain. -/
def setContinuation : PatternDef N → PatternDef N → Except String (PatternDef N)
  | null, next => .ok next
  | cap name p k, next => (k.setContinuation next).map (cap name p)
  | anything k, next => (k.setContinuation next).map anything
  | tokenMatch types k, next => (k.setContinuation next).map (tokenMatch types)
  | regexMatch type re k, next => (k.setContinuation next).map (regexMatch type re)
  | opt p k, next => (k.setContinuation next).map (opt p)
  | rep p k, next => (k.setContinuation next).map (rep p)
  | not p k, next => (k.setContinuation next).map (not p)
  | choice c p q k, next => (k.setContinuation next).map (choice c p q)
  | insideStar types k, next => (k.setContinuation next).map (insideStar types)
  | inside types k, next => (k.setContinuation next).map (inside types)
  | first k, next => (k.setContinuation next).map first
  | last, _ => .error "Continuation not allowed after `End`"
  | children p c k, next => (k.setContinuation next).map (children p c)
  | pred p k, next => (k.setContinuation next).map (pred p)
  | negPred p k, next => (k.setContinuation next).map (negPred p)
  | action f p k, next => (k.setContinuation next).map (action f p)

def customRep : PatternDef N → Except String (Option (PatternDef N))
  | rep p null => .ok (some (rep p null))
  | inside types null => .ok (some (insideStar types null))
  | insideStar _ _ => .error "Rep(InsideStar) not allowed! ((In(T,...)++)++"
  | first _ => .error "Rep(First) not allowed! (Start)++"
  | last => .error "Rep(Last) not allowed! (End)++"
  | pred _ _ => .error "Rep(Pred) not allowed! (++Pattern)++"
  | negPred _ _ => .error "Rep(NegPred) not allowed! (--Pattern)++"
  | _ => .ok none

/-- The constructors of `Rep`, `Not`, `Pred` and `NegPred` refuse captures. -/
def withoutCaptures (p : PatternDef N) (message : String) (made : PatternDef N) :
    Except String (PatternDef N) :=
  if p.hasCaptures then .error message else .ok made

def makeRep (p : PatternDef N) : Except String (PatternDef N) :=
  p.withoutCaptures "Captures not allowed inside iteration (Pattern++)!" (rep p null)

def makeNot (p : PatternDef N) : Except String (PatternDef N) :=
  p.withoutCaptures "Captures not allowed inside Not (!Pattern)!" (not p null)

def makePred (p : PatternDef N) : Except String (PatternDef N) :=
  p.withoutCaptures "Captures not allowed inside Pred (++Pattern)!" (pred p null)

def makeNegPred (p : PatternDef N) : Except String (PatternDef N) :=
  p.withoutCaptures "Captures not allowed inside NegPred (--Pattern)!" (negPred p null)

def makeChoice (capturesLeft : Bool) (p q : PatternDef N) : Except String (PatternDef N) :=
  if capturesLeft ≠ p.hasCaptures then
    .error "Static and dynamic view of captures disagree."
  else .ok (choice capturesLeft p q null)

end PatternDef

/-- A pattern object with the tokens it can start at. -/
structure Pattern (N : Type) where
  pattern : PatternDef N
  fastPattern : FastPattern

namespace Pattern
variable {N : Type}

def any : Pattern N := ⟨.anything .null, .matchAny⟩

def start : Pattern N := ⟨.first .null, .matchPred⟩

def finish : Pattern N := ⟨.last, .matchPred⟩

def token (type : Token) (types : List Token) : Pattern N :=
  ⟨.tokenMatch (type :: types) .null, .matchToken (type :: types).toFinset⟩

def regex (type : Token) (re : String) : Pattern N :=
  ⟨.regexMatch type re .null, .matchToken {type}⟩

def inside (type : Token) (types : List Token) : Pattern N :=
  ⟨.inside (type :: types) .null, .matchParent (type :: types).toFinset⟩

def action (p : Pattern N) (f : List N → Bool) : Pattern N :=
  ⟨.action f p.pattern .null, p.fastPattern⟩

def cap (p : Pattern N) (name : Token) : Pattern N := ⟨.cap name p.pattern .null, p.fastPattern⟩

def opt (p : Pattern N) : Pattern N := ⟨.opt p.pattern .null, p.fastPattern.matchOpt⟩

def pred (p : Pattern N) : Except String (Pattern N) :=
  p.pattern.makePred.map (⟨·, .matchPred⟩)

def negPred (p : Pattern N) : Except String (Pattern N) :=
  p.pattern.makeNegPred.map (⟨·, .matchPred⟩)

def not (p : Pattern N) : Except String (Pattern N) :=
  p.pattern.makeNot.map (⟨·, .matchAny⟩)

def rep (p : Pattern N) : Except String (Pattern N) := do
  match ← p.pattern.customRep with
  | some result => return ⟨result, .matchAny⟩
  | none => return ⟨← p.pattern.makeRep, p.fastPattern.matchOpt⟩

def seq (p rhs : Pattern N) : Except String (Pattern N) :=
  (p.pattern.setContinuation rhs.pattern).map (⟨·, p.fastPattern.matchSeq rhs.fastPattern⟩)

def choice (p rhs : Pattern N) : Except String (Pattern N) :=
  let lhsTokens := p.pattern.onlyTokens
  let rhsTokens := rhs.pattern.onlyTokens
  let fast := p.fastPattern.matchChoice rhs.fastPattern
  if lhsTokens ≠ [] ∧ rhsTokens ≠ [] then
    .ok ⟨.tokenMatch (lhsTokens ++ rhsTokens) .null, fast⟩
  else (PatternDef.makeChoice p.pattern.hasCaptures p.pattern rhs.pattern).map (⟨·, fast⟩)

def children (p rhs : Pattern N) : Pattern N :=
  ⟨.children p.pattern rhs.pattern .null, p.fastPattern⟩

end Pattern

/-- An expression of the rewrite language. `first` and `last` are `Start` and `End`. -/
inductive PatternExpr (N : Type)
  | anything
  | first
  | last
  | tokenMatch (type : Token) (types : List Token)
  | regexMatch (type : Token) (regex : String)
  | inside (type : Token) (types : List Token)
  | action (action : List N → Bool) (p : PatternExpr N)
  | cap (name : Token) (p : PatternExpr N)
  | opt (p : PatternExpr N)
  | pred (p : PatternExpr N)
  | negPred (p : PatternExpr N)
  | rep (p : PatternExpr N)
  | not (p : PatternExpr N)
  | seq (p q : PatternExpr N)
  | choice (p q : PatternExpr N)
  | children (p q : PatternExpr N)

/-- The pattern an expression evaluates to, or the error it throws. -/
def PatternExpr.build : PatternExpr N → Except String (Pattern N)
  | anything => .ok .any
  | first => .ok .start
  | last => .ok .finish
  | tokenMatch type types => .ok (.token type types)
  | regexMatch type re => .ok (.regex type re)
  | inside type types => .ok (.inside type types)
  | action f p => return (← p.build).action f
  | cap name p => return (← p.build).cap name
  | opt p => return (← p.build).opt
  | pred p => do (← p.build).pred
  | negPred p => do (← p.build).negPred
  | rep p => do (← p.build).rep
  | not p => do (← p.build).not
  | seq p q => do (← p.build).seq (← q.build)
  | choice p q => do (← p.build).choice (← q.build)
  | children p q => return (← p.build).children (← q.build)

namespace PatternDef
variable {N : Type}

theorem withoutCaptures_ok {p made r : PatternDef N} (h : p.withoutCaptures message made = .ok r) :
    r = made ∧ p.hasCaptures = false := by
  unfold withoutCaptures at h
  split at h
  · cases h
  · cases h
    exact ⟨rfl, by simpa using ‹¬ p.hasCaptures = true›⟩

theorem onlyTokens_ne_nil {p : PatternDef N} (h : p.onlyTokens ≠ []) :
    p = tokenMatch p.onlyTokens null := by
  unfold onlyTokens at h ⊢
  split
  · rfl
  · simp at h

theorem setContinuation_ne_null {p q r : PatternDef N} (h : p.setContinuation q = .ok r)
    (hq : q ≠ null) : r ≠ null := by
  cases p <;> simp only [setContinuation, map_eq_ok] at h
  case null => cases h; exact hq
  case last => cases h
  all_goals obtain ⟨k, _, rfl⟩ := h; nofun

def continuation : PatternDef N → PatternDef N
  | null | last => null
  | anything k | tokenMatch _ k | regexMatch _ _ k | insideStar _ k | inside _ k | first k => k
  | cap _ _ k | opt _ k | rep _ k | not _ k | pred _ k | negPred _ k | action _ _ k => k
  | choice _ _ _ k | children _ _ k => k

theorem setContinuation_continuation {p q r : PatternDef N} (h : p.setContinuation q = .ok r)
    (hp : p ≠ null) (hq : q ≠ null) : r.continuation ≠ null := by
  cases p <;> simp only [setContinuation, map_eq_ok] at h
  case null => exact absurd rfl hp
  case last => cases h
  all_goals
    obtain ⟨k, hk, rfl⟩ := h
    exact setContinuation_ne_null hk hq

theorem setContinuation_error {p q : PatternDef N} (h : p.setContinuation q = .error message) :
    message = "Continuation not allowed after `End`" := by
  have hmap {k : PatternDef N} {f : PatternDef N → PatternDef N}
      (hk : (k.setContinuation q).map f = .error message) : k.setContinuation q = .error message := by
    cases hs : k.setContinuation q <;> simp_all [Except.map]
  induction p with
  | null => cases h
  | last => cases h; rfl
  | anything k ih | tokenMatch _ k ih | regexMatch _ _ k ih | insideStar _ k ih | inside _ k ih
  | first k ih => exact ih (hmap h)
  | cap _ _ k _ ih | opt _ k _ ih | rep _ k _ ih | not _ k _ ih | pred _ k _ ih
  | negPred _ k _ ih | action _ _ k _ ih => exact ih (hmap h)
  | choice _ _ _ k _ _ ih | children _ _ k _ _ ih => exact ih (hmap h)

theorem setContinuation_assoc (p q r : PatternDef N) :
    (p.setContinuation q >>= fun a => a.setContinuation r) =
      q.setContinuation r >>= fun b => p.setContinuation b := by
  have hmap {k : PatternDef N} (f : PatternDef N → PatternDef N)
      (hf : ∀ k s, (f k).setContinuation s = (k.setContinuation s).map f)
      (ih : (k.setContinuation q >>= fun a => a.setContinuation r) =
        q.setContinuation r >>= fun b => k.setContinuation b) :
      ((f k).setContinuation q >>= fun a => a.setContinuation r) =
        q.setContinuation r >>= fun b => (f k).setContinuation b := by
    simp only [hf, map_bind, ← bind_map, ih]
  induction p with
  | null => cases h : q.setContinuation r <;> simp_all [setContinuation, bind, Except.bind]
  | last =>
    cases h : q.setContinuation r with
    | ok b => rfl
    | error message =>
      rw [setContinuation_error h]
      rfl
  | cap name p k _ ih => exact hmap (cap name p) (fun _ _ => rfl) ih
  | anything k ih => exact hmap anything (fun _ _ => rfl) ih
  | tokenMatch types k ih => exact hmap (tokenMatch types) (fun _ _ => rfl) ih
  | regexMatch type re k ih => exact hmap (regexMatch type re) (fun _ _ => rfl) ih
  | opt p k _ ih => exact hmap (opt p) (fun _ _ => rfl) ih
  | rep p k _ ih => exact hmap (rep p) (fun _ _ => rfl) ih
  | not p k _ ih => exact hmap (not p) (fun _ _ => rfl) ih
  | choice c p p' k _ _ ih => exact hmap (choice c p p') (fun _ _ => rfl) ih
  | insideStar types k ih => exact hmap (insideStar types) (fun _ _ => rfl) ih
  | inside types k ih => exact hmap (inside types) (fun _ _ => rfl) ih
  | first k ih => exact hmap first (fun _ _ => rfl) ih
  | children p c k _ _ ih => exact hmap (children p c) (fun _ _ => rfl) ih
  | pred p k _ ih => exact hmap (pred p) (fun _ _ => rfl) ih
  | negPred p k _ ih => exact hmap (negPred p) (fun _ _ => rfl) ih
  | action f p k _ ih => exact hmap (action f p) (fun _ _ => rfl) ih

theorem customRep_ok {p r : PatternDef N} (h : p.customRep = .ok (some r)) :
    (∃ p', p = rep p' null ∧ r = p) ∨
      ∃ types, p = inside types null ∧ r = insideStar types null := by
  unfold customRep at h
  split at h <;> cases h
  · exact .inl ⟨_, rfl, rfl⟩
  · exact .inr ⟨_, rfl, rfl⟩

end PatternDef

namespace Pattern
variable {N : Type} {p q r : Pattern N}

theorem pred_ok (h : p.pred = .ok r) :
    r = ⟨.pred p.pattern .null, .matchPred⟩ ∧ p.pattern.hasCaptures = false := by
  obtain ⟨made, hm, rfl⟩ := map_eq_ok.1 h
  obtain ⟨rfl, hc⟩ := PatternDef.withoutCaptures_ok hm
  exact ⟨rfl, hc⟩

theorem negPred_ok (h : p.negPred = .ok r) :
    r = ⟨.negPred p.pattern .null, .matchPred⟩ ∧ p.pattern.hasCaptures = false := by
  obtain ⟨made, hm, rfl⟩ := map_eq_ok.1 h
  obtain ⟨rfl, hc⟩ := PatternDef.withoutCaptures_ok hm
  exact ⟨rfl, hc⟩

theorem not_ok (h : p.not = .ok r) :
    r = ⟨.not p.pattern .null, .matchAny⟩ ∧ p.pattern.hasCaptures = false := by
  obtain ⟨made, hm, rfl⟩ := map_eq_ok.1 h
  obtain ⟨rfl, hc⟩ := PatternDef.withoutCaptures_ok hm
  exact ⟨rfl, hc⟩

theorem seq_ok (h : p.seq q = .ok r) : p.pattern.setContinuation q.pattern = .ok r.pattern ∧
    r.fastPattern = p.fastPattern.matchSeq q.fastPattern := by
  obtain ⟨made, hm, rfl⟩ := map_eq_ok.1 h
  exact ⟨hm, rfl⟩

/-- A repetition is a custom one, or a `Rep` over a pattern without captures. -/
theorem rep_ok (h : p.rep = .ok r) :
    (∃ p', p.pattern = .rep p' .null ∧ r = ⟨p.pattern, .matchAny⟩) ∨
    (∃ types, p.pattern = .inside types .null ∧ r = ⟨.insideStar types .null, .matchAny⟩) ∨
    (p.pattern.customRep = .ok none ∧ p.pattern.hasCaptures = false ∧
      r = ⟨.rep p.pattern .null, p.fastPattern.matchOpt⟩) := by
  obtain ⟨custom, hc, h⟩ := bind_eq_ok.1 h
  cases custom with
  | some made =>
    cases h
    rcases PatternDef.customRep_ok hc with ⟨p', hp, rfl⟩ | ⟨types, hp, rfl⟩
    · exact .inl ⟨p', hp, rfl⟩
    · exact .inr (.inl ⟨types, hp, rfl⟩)
  | none =>
    obtain ⟨made, hm, h⟩ := bind_eq_ok.1 h
    cases h
    obtain ⟨rfl, hn⟩ := PatternDef.withoutCaptures_ok hm
    exact .inr (.inr ⟨hc, hn, rfl⟩)

/-- Two plain token matches are merged; any other two patterns make a `Choice`. -/
theorem choice_ok (h : p.choice q = .ok r) :
    r.fastPattern = p.fastPattern.matchChoice q.fastPattern ∧
    ((∃ types types', p.pattern = .tokenMatch types .null ∧ q.pattern = .tokenMatch types' .null ∧
        r.pattern = .tokenMatch (types ++ types') .null) ∨
      r.pattern = .choice p.pattern.hasCaptures p.pattern q.pattern .null) := by
  simp only [choice] at h
  split at h
  · rename_i ht
    cases h
    exact ⟨rfl, .inl ⟨_, _, PatternDef.onlyTokens_ne_nil ht.1,
      PatternDef.onlyTokens_ne_nil ht.2, rfl⟩⟩
  · obtain ⟨made, hm, rfl⟩ := map_eq_ok.1 h
    simp only [PatternDef.makeChoice, ne_eq, not_true, if_false] at hm
    cases hm
    exact ⟨rfl, .inr rfl⟩

end Pattern

namespace PatternExpr
variable {N : Type} {pat : Pattern N}

theorem build_ne_null {e : PatternExpr N} (h : e.build = .ok pat) : pat.pattern ≠ .null := by
  induction e generalizing pat with
  | anything | first | last | tokenMatch | regexMatch | inside =>
    cases h
    nofun
  | action | cap | opt =>
    obtain ⟨p, _, h⟩ := bind_eq_ok.1 h
    cases h
    nofun
  | pred =>
    obtain ⟨p, _, h⟩ := bind_eq_ok.1 h
    rw [(Pattern.pred_ok h).1]
    nofun
  | negPred =>
    obtain ⟨p, _, h⟩ := bind_eq_ok.1 h
    rw [(Pattern.negPred_ok h).1]
    nofun
  | not =>
    obtain ⟨p, _, h⟩ := bind_eq_ok.1 h
    rw [(Pattern.not_ok h).1]
    nofun
  | rep e ih =>
    obtain ⟨p, hp, h⟩ := bind_eq_ok.1 h
    rcases Pattern.rep_ok h with ⟨_, _, rfl⟩ | ⟨_, _, rfl⟩ | ⟨_, _, rfl⟩
    · have hn : p.pattern ≠ .null := ih hp
      exact hn
    · nofun
    · nofun
  | seq e e' ihe ihe' =>
    obtain ⟨p, hp, h⟩ := bind_eq_ok.1 h
    obtain ⟨q, hq, h⟩ := bind_eq_ok.1 h
    exact PatternDef.setContinuation_ne_null (Pattern.seq_ok h).1 (ihe' hq)
  | choice =>
    obtain ⟨p, _, h⟩ := bind_eq_ok.1 h
    obtain ⟨q, _, h⟩ := bind_eq_ok.1 h
    obtain ⟨_, ⟨_, _, _, _, hr⟩ | hr⟩ := Pattern.choice_ok h <;> rw [hr] <;>
      nofun
  | children =>
    obtain ⟨p, _, h⟩ := bind_eq_ok.1 h
    obtain ⟨q, _, h⟩ := bind_eq_ok.1 h
    cases h
    nofun

/-- Only `In` makes an `Inside` object without continuation. -/
theorem build_inside {e : PatternExpr N} (h : e.build = .ok pat)
    (hi : pat.pattern = .inside types .null) :
    ∃ type rest, e = .inside type rest ∧ types = type :: rest := by
  cases e with
  | inside type rest =>
    cases h
    cases hi
    exact ⟨type, rest, rfl, rfl⟩
  | anything | first | last | tokenMatch | regexMatch =>
    cases h
    cases hi
  | action | cap | opt =>
    obtain ⟨p, _, h⟩ := bind_eq_ok.1 h
    cases h
    cases hi
  | pred =>
    obtain ⟨p, _, h⟩ := bind_eq_ok.1 h
    simp [(Pattern.pred_ok h).1] at hi
  | negPred =>
    obtain ⟨p, _, h⟩ := bind_eq_ok.1 h
    simp [(Pattern.negPred_ok h).1] at hi
  | not =>
    obtain ⟨p, _, h⟩ := bind_eq_ok.1 h
    simp [(Pattern.not_ok h).1] at hi
  | rep =>
    obtain ⟨p, _, h⟩ := bind_eq_ok.1 h
    rcases Pattern.rep_ok h with ⟨_, hp, rfl⟩ | ⟨_, _, rfl⟩ | ⟨_, _, rfl⟩
    · rw [hp] at hi
      cases hi
    · cases hi
    · cases hi
  | seq =>
    obtain ⟨p, hp, h⟩ := bind_eq_ok.1 h
    obtain ⟨q, hq, h⟩ := bind_eq_ok.1 h
    have hs := (Pattern.seq_ok h).1
    rw [hi] at hs
    exact absurd rfl (PatternDef.setContinuation_continuation hs (build_ne_null hp) (build_ne_null hq))
  | choice =>
    obtain ⟨p, _, h⟩ := bind_eq_ok.1 h
    obtain ⟨q, _, h⟩ := bind_eq_ok.1 h
    obtain ⟨_, ⟨_, _, _, _, hr⟩ | hr⟩ := Pattern.choice_ok h <;> rw [hr] at hi <;> cases hi
  | children =>
    obtain ⟨p, _, h⟩ := bind_eq_ok.1 h
    obtain ⟨q, _, h⟩ := bind_eq_ok.1 h
    cases h
    cases hi

end PatternExpr

end Trieste
