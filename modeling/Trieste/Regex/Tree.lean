import Trieste.Regex.Pattern
import Trieste.Regex.PostfixBuilder

namespace Trieste.Regex
set_option autoImplicit true
open Library Relation

namespace Regexp

/-- One token of a postfix sequence, on the trees before it. -/
def pushToken (stack : List Regexp) (label : Nat) : Option (List Regexp) :=
  if label = catenation then
    match stack with
    | q :: p :: stack => some (.cat p q :: stack)
    | _ => none
  else if label = alternation then
    match stack with
    | q :: p :: stack => some (.alt p q :: stack)
    | _ => none
  else match quantifier? label, stack with
    | some (.zeroOrOne, isLazy), p :: stack => some (.zeroOrOne isLazy p :: stack)
    | some (.zeroOrMore, isLazy), p :: stack => some (.zeroOrMore isLazy p :: stack)
    | some (.oneOrMore, isLazy), p :: stack => some (.oneOrMore isLazy p :: stack)
    | some _, [] => none
    | none, stack =>
      if captureGroup ≤ label ∧ label < captureGroup + maxCaptures then
        match stack with
        | p :: stack => some (.capture (label - captureGroup) p :: stack)
        | [] => none
      else if label = Regex.startAnchor then some (.startAnchor :: stack)
      else if label = Regex.endAnchor then some (.endAnchor :: stack)
      else if label = Regex.wordBoundary then some (.wordBoundary :: stack)
      else if runeClassBase ≤ label then some (.classRef (label - runeClassBase) :: stack)
      else some (.literal label :: stack)

/-- The tree that a postfix sequence denotes. -/
def ofPostfix (stack : List Regexp) : List Nat → Option Regexp
  | [] =>
    match stack with
    | [p] => some p
    | _ => none
  | label :: rest => (pushToken stack label).bind fun stack => ofPostfix stack rest

def stackTokens (stack : List Regexp) : List Nat := stack.reverse.flatMap toPostfix

theorem stackTokens_cons (p : Regexp) (stack : List Regexp) :
    stackTokens (p :: stack) = stackTokens stack ++ p.toPostfix := by
  rw [stackTokens, List.reverse_cons, List.flatMap_append, List.flatMap_singleton, stackTokens]

theorem quantifier?_some (h : quantifier? label = some (kind, isLazy)) :
    label = kind.token isLazy := by
  unfold quantifier? at h
  split at h
  · next hl =>
    cases h
    rcases hl with rfl | rfl <;> rfl
  · split at h
    · next hl =>
      cases h
      rcases hl with rfl | rfl <;> rfl
    · split at h
      · next hl =>
        cases h
        rcases hl with rfl | rfl <;> rfl
      · cases h

theorem stackTokens_pushToken (h : pushToken stack label = some stack') :
    stackTokens stack' = stackTokens stack ++ [label] := by
  unfold pushToken at h
  split at h
  · next hl =>
    split at h
    · cases h
      simp only [stackTokens_cons, toPostfix, hl, List.append_assoc]
    · cases h
  · split at h
    · next hl =>
      split at h
      · cases h
        simp only [stackTokens_cons, toPostfix, hl, List.append_assoc]
      · cases h
    · split at h
      · next hq =>
        cases h
        simp only [stackTokens_cons, toPostfix, quantifier?_some hq, QuantifierKind.token,
          List.append_assoc]
      · next hq =>
        cases h
        simp only [stackTokens_cons, toPostfix, quantifier?_some hq, QuantifierKind.token,
          List.append_assoc]
      · next hq =>
        cases h
        simp only [stackTokens_cons, toPostfix, quantifier?_some hq, QuantifierKind.token,
          List.append_assoc]
      · cases h
      · split at h
        · next hl =>
          split at h
          · cases h
            simp only [stackTokens_cons, toPostfix, Nat.add_sub_cancel' hl.1, List.append_assoc]
          · cases h
        · repeat' split at h
          · next hl =>
            cases h
            simp only [stackTokens_cons, toPostfix, hl]
          · next hl =>
            cases h
            simp only [stackTokens_cons, toPostfix, hl]
          · next hl =>
            cases h
            simp only [stackTokens_cons, toPostfix, hl]
          · next hl =>
            cases h
            simp only [stackTokens_cons, toPostfix, Nat.add_sub_cancel' hl]
          · cases h
            simp only [stackTokens_cons, toPostfix]

/-- The tree of a postfix sequence has that sequence. -/
theorem toPostfix_ofPostfix (h : ofPostfix stack tokens = some p) :
    p.toPostfix = stackTokens stack ++ tokens := by
  induction tokens generalizing stack with
  | nil =>
    unfold ofPostfix at h
    split at h
    · cases h
      simp only [stackTokens, List.reverse_singleton, List.flatMap_singleton, List.append_nil]
    · cases h
  | cons label rest ih =>
    obtain ⟨stack', hpush, hrest⟩ := Option.bind_eq_some_iff.mp h
    rw [ih hrest, stackTokens_pushToken hpush, List.append_assoc, List.singleton_append]

/-- Whether the tree is built so that every match of it consumes a rune. -/
def consumes : Regexp → Bool
  | literal _ | classRef _ => true
  | startAnchor | endAnchor | wordBoundary => false
  | cat p q => p.consumes || q.consumes
  | alt p q => p.consumes && q.consumes
  | zeroOrOne _ _ | zeroOrMore _ _ => false
  | oneOrMore _ p => p.consumes
  | capture _ p => p.consumes

theorem Matches.le {p : Regexp} (h : p.Matches x i j) : i ≤ j := by
  obtain ⟨spans, h⟩ := h.records id []
  exact (Records.recorded monotone_id h rfl).forward

theorem Matches.lt {p : Regexp} (h : p.Matches x i j) (hp : p.consumes = true) : i < j := by
  induction p generalizing i j with
  | literal | classRef =>
    obtain ⟨-, rfl⟩ := h
    exact Nat.lt_succ_self i
  | startAnchor | endAnchor | wordBoundary | zeroOrOne | zeroOrMore => cases hp
  | cat p q ihp ihq =>
    obtain ⟨m, hm, hm'⟩ := h
    rcases Bool.or_eq_true_iff.1 hp with hp | hq
    · exact (ihp hm hp).trans_le (Matches.le hm')
    · exact (Matches.le hm).trans_lt (ihq hm' hq)
  | alt p q ihp ihq =>
    obtain ⟨hp, hq⟩ := Bool.and_eq_true_iff.1 hp
    rcases h with h | h
    · exact ihp h hp
    · exact ihq h hq
  | oneOrMore _ p ih =>
    induction h with
    | single h => exact ih h hp
    | tail _ h ihs => exact ihs.trans (ih h hp)
  | capture _ p ih => exact ih h hp

instance (classes : List RuneClass) : (p : Regexp) → Decidable (p.WellFormed classes)
  | literal r => inferInstanceAs (Decidable (r < captureGroup))
  | classRef index =>
    inferInstanceAs (Decidable (runeClassBase + index ≤ runeClassMax ∧ index < classes.length))
  | startAnchor | endAnchor | wordBoundary => inferInstanceAs (Decidable True)
  | cat p q | alt p q =>
    have := instDecidableWellFormed classes p
    have := instDecidableWellFormed classes q
    inferInstanceAs (Decidable (p.WellFormed classes ∧ q.WellFormed classes))
  | zeroOrOne _ p | zeroOrMore _ p | oneOrMore _ p => instDecidableWellFormed classes p
  | capture index p =>
    have := instDecidableWellFormed classes p
    inferInstanceAs (Decidable (index < maxCaptures ∧ p.WellFormed classes))

end Regexp

/-- The constructor, from a pattern in the extended syntax. -/
def RegexEngine.ofPattern (findCategory : Bytes → Option RuneClass) (pattern : Bytes) :
    RegexEngine :=
  match regexpToPostfixRunes findCategory .extended pattern with
  | .error code => { errorCode := code }
  | .ok b => .compile b.postfixRunes b.runeClasses b.numCaptures

end Trieste.Regex
