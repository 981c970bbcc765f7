import Trieste.Rewrite.Pattern

namespace Trieste
set_option autoImplicit true

/-- A node of a reified pattern; a group is the list of its nodes. A token is stored by its name,
and a name is registered for one token, so reading it back gives the token. -/
inductive Reified
  | cap (group : List Reified) (name : Token)
  | any
  | tokenMatch (types : List Token)
  | regexMatch (type : Token) (regex : String)
  | opt (group : List Reified)
  | rep (group : List Reified)
  | not (group : List Reified)
  | choice (first last : List Reified)
  | insideStar (types : List Token)
  | inside (types : List Token)
  | first
  | last
  | children (group children : List Reified)
  | pred (group : List Reified)
  | negPred (group : List Reified)
  | action (group : List Reified)

/-- The nodes that an object and its continuation add to a group. -/
def PatternDef.reify : PatternDef N → List Reified
  | null => []
  | cap name p k => .cap p.reify name :: k.reify
  | anything k => .any :: k.reify
  | tokenMatch types k => .tokenMatch types :: k.reify
  | regexMatch type re k => .regexMatch type re :: k.reify
  | opt p k => .opt p.reify :: k.reify
  | rep p k => .rep p.reify :: k.reify
  | not p k => .not p.reify :: k.reify
  | choice _ p q k => .choice p.reify q.reify :: k.reify
  | insideStar types k => .insideStar types :: k.reify
  | inside types k => .inside types :: k.reify
  | first k => .first :: k.reify
  | last => [.last]
  | children p c k => .children p.reify c.reify :: k.reify
  | pred p k => .pred p.reify :: k.reify
  | negPred p k => .negPred p.reify :: k.reify
  | action _ p k => .action p.reify :: k.reify

/-- The number of nodes that a pattern is expected to match. -/
inductive Multiplicity
  | zero
  | one
  | unknown
  deriving DecidableEq

def Multiplicity.add : Multiplicity → Multiplicity → Multiplicity
  | .zero, child => child
  | sum, .zero => sum
  | _, _ => .unknown

mutual

def Reified.multiplicity : Reified → Multiplicity
  | .first | .last | .inside _ | .insideStar _ | .pred _ | .negPred _ => .zero
  | .any | .regexMatch _ _ | .tokenMatch _ | .not _ => .one
  | .opt _ | .rep _ => .unknown
  | .children group _ | .cap group _ | .action group => groupMultiplicity .zero group
  | .choice first last =>
    let left := groupMultiplicity .zero first
    if left = groupMultiplicity .zero last then left else .unknown

def groupMultiplicity (sum : Multiplicity) : List Reified → Multiplicity
  | [] => sum
  | child :: rest => groupMultiplicity (sum.add child.multiplicity) rest

end

mutual

/-- The tokens that a pattern for one node can match; nothing where they are not known. -/
def Reified.onlyTokens : Reified → List Token
  | .cap group _ | .children group _ => groupTokens [] group
  | .tokenMatch types => types
  | .regexMatch type _ => [type]
  | _ => []

def groupTokens (tokens : List Token) : List Reified → List Token
  | [] => tokens
  | child :: rest =>
    match child.multiplicity with
    | .zero => groupTokens tokens rest
    | .one => if tokens = [] then groupTokens child.onlyTokens rest else []
    | .unknown => []

end

/-- The errors of `check_pattern`. -/
inductive PatternError
  | captureInPredicate
  | captureInNegation
  | captureInRepetition
  | infiniteRepetition
  | patternAfterEnd
  | emptyCapture
  | parentMultiplicity
  | negatedMultiplicity
  | internalToken
  deriving DecidableEq

/-- The kinds of node that enclose a node, at any depth. -/
structure Enclosing where
  predicate : Bool := false
  negation : Bool := false
  repetition : Bool := false

/-- The error that the rules of `check_pattern` put at a node with these siblings after it. -/
def Reified.error? (inside : Enclosing) (after : List Reified) : Reified → Option PatternError
  | .cap group _ =>
    if inside.predicate then some .captureInPredicate
    else if inside.negation then some .captureInNegation
    else if inside.repetition then some .captureInRepetition
    else if groupMultiplicity .zero group = .zero then some .emptyCapture
    else none
  | .rep group =>
    if groupMultiplicity .zero group = .zero then some .infiniteRepetition else none
  | .last => if after.isEmpty then none else some .patternAfterEnd
  | .children group _ =>
    if groupMultiplicity .zero group = .one then none else some .parentMultiplicity
  | .not group =>
    if groupMultiplicity .zero group = .one then none else some .negatedMultiplicity
  | .tokenMatch types =>
    if types.any (·.has Flag.internal) then some .internalToken else none
  | _ => none

mutual

/-- `check_pattern` puts no error below the node. -/
def Reified.acceptedBelow (inside : Enclosing) : Reified → Bool
  | .cap group _ | .opt group | .action group => groupAccepted inside group
  | .rep group => groupAccepted { inside with repetition := true } group
  | .not group => groupAccepted { inside with negation := true } group
  | .pred group | .negPred group => groupAccepted { inside with predicate := true } group
  | .choice first last => groupAccepted inside first && groupAccepted inside last
  | .children group below => groupAccepted inside group && groupAccepted inside below
  | _ => true

def groupAccepted (inside : Enclosing) : List Reified → Bool
  | [] => true
  | child :: rest =>
    (child.error? inside rest).isNone && child.acceptedBelow inside && groupAccepted inside rest

end

/-- `check_pattern` reports nothing. -/
def checkPattern (group : List Reified) : Bool := groupAccepted {} group

/-- The groups that a depth-first walk is in, each from its current node on. -/
abbrev StackedIterator := List (List Reified)

namespace StackedIterator

def push (it : StackedIterator) (group : List Reified) : StackedIterator := group :: it

/-- The current node; nothing where the current group is empty. -/
def get (it : StackedIterator) : Option Reified := it.head?.bind List.head?

def next : StackedIterator → StackedIterator
  | [] => []
  | group :: it =>
    match group.tail with
    | [] => next it
    | node :: rest => (node :: rest) :: it

end StackedIterator

/-- The loop that passes over nodes that match nothing; nothing where it moves on from the last
node. -/
def skipZero : Nat → StackedIterator → Option StackedIterator
  | 0, _ => none
  | fuel + 1, it =>
    it.get.bind fun node =>
      if node.multiplicity = .zero then
        if it.next = [] then none else skipZero fuel it.next
      else some it

/-- `In`, `In++`, `Start` and `End` -/
def Reified.isContext : Reified → Bool
  | .inside _ | .insideStar _ | .first | .last => true
  | _ => false

/-- Whether a node of the prefix matches where this node of the pattern does. Nodes are compared
by identity, and only the nodes of one and the `same` tree can be identical. -/
def Reified.covers (includes : List Reified → List Reified → Option Bool) (same : Bool) :
    Reified → Reified → Option Bool
  | .inside types, .inside types' => some (decide (types' ⊆ types))
  | .insideStar types, .insideStar types' => some (decide (types' ⊆ types))
  | .first, .first => some same
  | .last, .last => some same
  | .tokenMatch types, node =>
    some (decide (node.onlyTokens ≠ []) && decide (node.onlyTokens ⊆ types))
  | .children group below, .children group' below' =>
    (includes group group').bind fun ok => if ok then includes below below' else some false
  | .rep group, .rep group' =>
    (includes group group').bind fun ok => if ok then includes group' group else some false
  | .opt group, .opt group' =>
    (includes group group').bind fun ok => if ok then includes group' group else some false
  | _, _ => some false

/-- What one iteration of the loop of `includes_prefix` does. -/
inductive Walk
  | answer (found : Bool)
  | go (prefixIt patternIt : StackedIterator)

def includesStep (includes : List Reified → List Reified → Option Bool) (same : Bool) (fuel : Nat)
    (prefixIt patternIt : StackedIterator) : Option Walk :=
  prefixIt.get.bind fun prefixNode =>
    patternIt.get.bind fun patternNode =>
      match prefixNode, patternNode with
      | .cap group _, _ => some (.go (prefixIt.push group) patternIt)
      | _, .cap group _ => some (.go prefixIt (patternIt.push group))
      | _, _ =>
        if patternNode.isContext && !prefixNode.isContext then some (.go prefixIt patternIt.next)
        else
          match prefixNode with
          | .any =>
            (skipZero fuel patternIt).bind fun patternIt =>
              patternIt.get.map fun patternNode =>
                if patternNode.multiplicity = .one then .go prefixIt.next patternIt.next
                else .answer false
          | _ =>
            (prefixNode.covers includes same patternNode).map fun ok =>
              if ok then .go prefixIt.next patternIt.next else .answer false

/-- The loop of `includes_prefix`; nothing where the code reads past a group or does not return. -/
def includesLoop (same : Bool) : Nat → StackedIterator → StackedIterator → Option Bool
  | 0, _, _ => none
  | fuel + 1, prefixIt, patternIt =>
    if prefixIt = [] ∨ patternIt = [] then some (decide (prefixIt = []))
    else
      (includesStep (fun p q => includesLoop same fuel [p] [q]) same fuel prefixIt
        patternIt).bind fun
        | .answer found => some found
        | .go prefixIt patternIt => includesLoop same fuel prefixIt patternIt

def includesPrefix (same : Bool) (fuel : Nat) (pref pattern : List Reified) : Option Bool :=
  includesLoop same fuel [pref] [pattern]

end Trieste
