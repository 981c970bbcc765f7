import Trieste.Regex.Accepted
import Trieste.Regex.Segments

namespace Trieste.Regex
set_option autoImplicit true
open Library Relation

/-- The tokens behind the innermost open parenthesis, or those of a group around it: complete
alternatives, the left operand of a pending catenation and the last atom. -/
structure Level where
  done : Option (List Nat) := none
  left : Option (List Nat) := none
  atom : Option (List Nat) := none

namespace Level

def tokens (l : Level) : List Nat := l.done.getD [] ++ l.left.getD [] ++ l.atom.getD []

def operators (l : Level) : List Nat :=
  (if l.left.isSome then [catenation] else []) ++ if l.done.isSome then [alternation] else []

/-- An operand with what a pending catenation joins it to. -/
def joined (left : Option (List Nat)) (atom : List Nat) : List Nat :=
  match left with
  | none => atom
  | some left => left ++ atom ++ [catenation]

/-- The level with its operators behind its tokens. -/
def whole (l : Level) : List Nat := l.tokens ++ l.operators

/-- The groups of the parts have numbers in consecutive ranges. -/
def Numbered (lo hi : Nat) (l : Level) : Prop :=
  ∃ m₁ m₂, lo ≤ m₁ ∧ m₁ ≤ m₂ ∧ m₂ ≤ hi ∧
    (∀ x, l.done = some x → Segment (Regexp.Numbered lo m₁) x) ∧
    (∀ x, l.left = some x → Segment (Regexp.Numbered m₁ m₂) x) ∧
    ∀ x, l.atom = some x → Segment (Regexp.Numbered m₂ hi) x

theorem segment_mono (h : Segment (Regexp.Numbered lo hi) xs) (hlo : lo' ≤ lo) (hhi : hi ≤ hi') :
    Segment (Regexp.Numbered lo' hi') xs :=
  h.imp fun _ hp => hp.mono hlo hhi

theorem segment_joined {left : Option (List Nat)} {atom : List Nat} (hle : lo ≤ m) (hle' : m ≤ hi)
    (hleft : ∀ x, left = some x → Segment (Regexp.Numbered lo m) x)
    (hatom : Segment (Regexp.Numbered m hi) atom) :
    Segment (Regexp.Numbered lo hi) (joined left atom) := by
  cases left with
  | none => exact segment_mono hatom hle (Nat.le_refl _)
  | some left =>
    apply (hleft left rfl).cat hatom
    intro p q hp hq
    exact hp.beside hq hle hle' fun _ => rfl

/-- A closed level is a sequence for one tree, or too short for one. -/
theorem Numbered.whole {l : Level} (h : l.Numbered lo hi) (hleft : l.atom = none → l.left = none) :
    Segment (Regexp.Numbered lo hi) l.whole := by
  obtain ⟨done, left, atom⟩ := l
  obtain ⟨m₁, m₂, hlo, hm, hhi, hdone, hleft', hatom⟩ := h
  cases atom with
  | none =>
    obtain rfl := hleft rfl
    cases done with
    | none => exact .nil
    | some done =>
      have hw : Level.whole ⟨some done, none, none⟩ = done ++ [alternation] := by
        simp [Level.whole, tokens, operators]
      rw [hw]
      exact (hdone done rfl).short rfl
  | some atom =>
    have hoperand := segment_joined hm hhi hleft' (hatom atom rfl)
    cases done with
    | none =>
      have hw : Level.whole ⟨none, left, some atom⟩ = joined left atom := by
        cases left with
        | none => simp [Level.whole, tokens, operators, joined]
        | some left => simp [Level.whole, tokens, operators, joined]
      rw [hw]
      exact segment_mono hoperand hlo (Nat.le_refl _)
    | some done =>
      have hw : Level.whole ⟨some done, left, some atom⟩ =
          done ++ joined left atom ++ [alternation] := by
        cases left with
        | none => simp [Level.whole, tokens, operators, joined]
        | some left => simp [Level.whole, tokens, operators, joined]
      rw [hw]
      apply (hdone done rfl).binary hoperand rfl
      intro p q hp hq
      exact ⟨.alt p q, hp.beside hq hlo (hm.trans hhi) fun _ => rfl, fun _ => rfl⟩

def concat (l : Level) : Level :=
  match l.atom with
  | none => l
  | some atom => { done := l.done, left := some (joined l.left atom) }

theorem Numbered.concat {l : Level} (h : l.Numbered lo hi) : l.concat.Numbered lo hi := by
  obtain ⟨done, left, atom⟩ := l
  cases atom with
  | none => exact h
  | some atom =>
    obtain ⟨m₁, m₂, hlo, hm, hhi, hdone, hleft, hatom⟩ := h
    refine ⟨m₁, hi, hlo, hm.trans hhi, Nat.le_refl _, hdone, ?_, fun x hx => nomatch hx⟩
    intro x hx
    cases hx
    exact segment_joined hm hhi hleft (hatom atom rfl)

theorem Numbered.setAtom {l : Level} {atom : List Nat} (h : l.Numbered lo hi) (hhi : hi ≤ hi')
    (hatom : Segment (Regexp.Numbered hi hi') atom) : { l with atom := some atom }.Numbered lo hi' := by
  obtain ⟨m₁, m₂, hlo, hm, hle, hdone, hleft, -⟩ := h
  refine ⟨m₁, m₂, hlo, hm, hle.trans hhi, hdone, hleft, ?_⟩
  intro x hx
  cases hx
  exact segment_mono hatom hle (Nat.le_refl _)

theorem Numbered.changeAtom {l : Level} {atom atom' : List Nat} (h : l.Numbered lo hi)
    (ha : l.atom = some atom)
    (hatom : ∀ a b, Segment (Regexp.Numbered a b) atom → Segment (Regexp.Numbered a b) atom') :
    { l with atom := some atom' }.Numbered lo hi := by
  obtain ⟨m₁, m₂, hlo, hm, hle, hdone, hleft, hsegment⟩ := h
  refine ⟨m₁, m₂, hlo, hm, hle, hdone, hleft, ?_⟩
  intro x hx
  cases hx
  exact hatom m₂ hi (hsegment atom ha)

theorem Numbered.dropAtom {l : Level} (h : l.Numbered lo hi) :
    { done := l.done, atom := l.left : Level }.Numbered lo hi := by
  obtain ⟨m₁, m₂, hlo, hm, hle, hdone, hleft, -⟩ := h
  refine ⟨m₁, m₁, hlo, Nat.le_refl _, hm.trans hle, hdone, (fun x hx => nomatch hx), ?_⟩
  intro x hx
  exact segment_mono (hleft x hx) (Nat.le_refl _) hle

theorem Numbered.le {l : Level} (h : l.Numbered lo hi) : lo ≤ hi := by
  obtain ⟨m₁, m₂, hlo, hm, hhi, -⟩ := h
  exact hlo.trans (hm.trans hhi)

theorem numbered_empty (hle : lo ≤ hi) : ({} : Level).Numbered lo hi :=
  ⟨lo, lo, Nat.le_refl _, Nat.le_refl _, hle, (fun _ hx => nomatch hx), (fun _ hx => nomatch hx),
    fun _ hx => nomatch hx⟩

end Level

def tokensBelow : List Level → List Nat
  | [] => []
  | l :: outer => tokensBelow outer ++ l.tokens

/-- Their operators, behind the parenthesis that opened the level within. -/
def operatorsBelow : List Level → List Nat
  | [] => []
  | l :: outer => lParen :: (l.operators ++ operatorsBelow outer)

/-- The levels around the innermost one, whose groups are numbered from `lo` on. -/
inductive Opened : List Level → List GroupInfo → Nat → Prop
  | top : Opened [] [] 0
  | group (houter : Opened outer groups lo) (hnumbered : l.Numbered lo hi) (hatom : l.atom = none)
      (hindex : g.postfixIndex = (tokensBelow (l :: outer)).length)
      (hconcat : g.needConcat = l.left.isSome) (hid : g.capturing = true → g.captureId = hi) :
      Opened (l :: outer) (g :: groups) (if g.capturing then hi + 1 else hi)

/-- What the parser has read, as levels. -/
structure Framed (b : PostfixBuilder) (l : Level) (outer : List Level) (lo : Nat) : Prop where
  postfixRunes : b.postfixRunes = tokensBelow outer ++ l.tokens
  operatorStack : b.operatorStack = l.operators ++ operatorsBelow outer
  opened : Opened outer b.groupStartStack lo
  bound : lo ≤ b.numCaptures
  numbered : l.Numbered lo b.numCaptures
  needConcat : b.needConcat = l.atom.isSome
  left : l.atom = none → l.left = none
  atom : b.atomIsQuantified = false → ∀ t, l.atom = some t →
    b.atomStart + t.length = b.postfixRunes.length ∧ b.needConcatBeforeAtom = l.left.isSome

theorem Level.mem_operators {l : Level} (h : label ∈ l.operators) :
    label = catenation ∨ label = alternation := by
  unfold Level.operators at h
  rcases List.mem_append.1 h with h | h
  · split at h
    · exact .inl (List.mem_singleton.1 h)
    · exact absurd h List.not_mem_nil
  · split at h
    · exact .inr (List.mem_singleton.1 h)
    · exact absurd h List.not_mem_nil

namespace Framed
variable {b : PostfixBuilder} {l : Level} {outer : List Level} {lo : Nat}

theorem popOperators (h : Framed b l outer lo) :
    b.popOperators.postfixRunes = tokensBelow outer ++ l.whole ∧
      b.popOperators.operatorStack = operatorsBelow outer := by
  have hall : ∀ label ∈ l.operators, (label != lParen) = true := by
    intro label hl
    rcases Level.mem_operators hl with rfl | rfl
    · decide
    · decide
  have htake : (operatorsBelow outer).takeWhile (· != lParen) = [] := by
    cases outer with
    | nil => rfl
    | cons l outer => rfl
  have hdrop : (operatorsBelow outer).dropWhile (· != lParen) = operatorsBelow outer := by
    cases outer with
    | nil => rfl
    | cons l outer => rfl
  constructor
  · show b.postfixRunes ++ b.operatorStack.takeWhile (· != lParen) = _
    rw [h.operatorStack, h.postfixRunes, List.takeWhile_append_of_pos hall, htake, List.append_nil,
      Level.whole, List.append_assoc]
  · show b.operatorStack.dropWhile (· != lParen) = _
    rw [h.operatorStack, List.dropWhile_append_of_pos hall, hdrop]

/-- A pending catenation is done when there is an atom for it. -/
theorem pushConcat (h : Framed b l outer lo) (ha : l.atom = some t) :
    b.pushConcat.postfixRunes = tokensBelow outer ++ l.concat.tokens ∧
      b.pushConcat.operatorStack = l.concat.operators ++ operatorsBelow outer := by
  obtain ⟨done, left, atom⟩ := l
  obtain rfl : atom = some t := ha
  have hrunes := h.postfixRunes
  have hoperators := h.operatorStack
  have hrest : ∀ operators : List Nat, operators = (if done.isSome then [alternation] else []) ++
      operatorsBelow outer → operators.takeWhile (· == catenation) = [] ∧
        operators.dropWhile (· == catenation) = operators := by
    intro operators heq
    subst heq
    cases done with
    | none =>
      cases outer with
      | nil => exact ⟨rfl, rfl⟩
      | cons l outer => exact ⟨rfl, rfl⟩
    | some done => exact ⟨rfl, rfl⟩
  obtain ⟨htake, hdrop⟩ := hrest _ rfl
  cases left with
  | none =>
    have hstack : b.operatorStack = (if done.isSome then [alternation] else []) ++
        operatorsBelow outer := by simpa [Level.operators] using hoperators
    constructor
    · show b.postfixRunes ++ b.operatorStack.takeWhile (· == catenation) = _
      rw [hstack, htake, hrunes]
      simp [Level.tokens, Level.concat, Level.joined]
    · show catenation :: b.operatorStack.dropWhile (· == catenation) = _
      rw [hstack, hdrop]
      rfl
  | some left =>
    have hstack : b.operatorStack = catenation :: ((if done.isSome then [alternation] else []) ++
        operatorsBelow outer) := by simpa [Level.operators] using hoperators
    constructor
    · show b.postfixRunes ++ b.operatorStack.takeWhile (· == catenation) = _
      rw [hstack, List.takeWhile_cons_of_pos (by decide), htake, hrunes]
      simp [Level.tokens, Level.concat, Level.joined]
    · show catenation :: b.operatorStack.dropWhile (· == catenation) = _
      rw [hstack, List.dropWhile_cons_of_pos (by decide), hdrop]
      rfl

theorem congr {b b' : PostfixBuilder} (h : Framed b l outer lo)
    (hrunes : b'.postfixRunes = b.postfixRunes) (hcaptures : b'.numCaptures = b.numCaptures)
    (hoperators : b'.operatorStack = b.operatorStack)
    (hgroups : b'.groupStartStack = b.groupStartStack) (hconcat : b'.needConcat = b.needConcat)
    (hstart : b'.atomStart = b.atomStart) (hbefore : b'.needConcatBeforeAtom = b.needConcatBeforeAtom)
    (hquantified : b'.atomIsQuantified = b.atomIsQuantified) : Framed b' l outer lo := by
  constructor
  · exact hrunes.trans h.postfixRunes
  · exact hoperators.trans h.operatorStack
  · exact hgroups ▸ h.opened
  · exact hcaptures ▸ h.bound
  · exact hcaptures ▸ h.numbered
  · exact hconcat.trans h.needConcat
  · exact h.left
  · rw [hquantified, hstart, hrunes, hbefore]
    exact h.atom

end Framed

/-- An atom can follow, if need be behind a catenation. -/
structure Ready (b : PostfixBuilder) (l : Level) (outer : List Level) (lo : Nat) : Prop where
  postfixRunes : b.postfixRunes = tokensBelow outer ++ l.tokens
  operatorStack : b.operatorStack = l.operators ++ operatorsBelow outer
  opened : Opened outer b.groupStartStack lo
  bound : lo ≤ b.numCaptures
  numbered : l.Numbered lo b.numCaptures
  needConcat : b.needConcat = l.left.isSome
  atom : l.atom = none
namespace Framed
variable {b : PostfixBuilder} {l : Level} {outer : List Level} {lo : Nat}

theorem ready (h : Framed b l outer lo) :
    Ready (if b.needConcat then b.pushConcat else b) l.concat outer lo := by
  cases ha : l.atom with
  | none =>
    have hconcat : l.concat = l := by
      unfold Level.concat
      rw [ha]
    have hneed : b.needConcat = false := by rw [h.needConcat, ha]; rfl
    have hleft : l.left.isSome = false := by rw [h.left ha]; rfl
    rw [hneed, if_neg Bool.false_ne_true, hconcat]
    exact ⟨h.postfixRunes, h.operatorStack, h.opened, h.bound, h.numbered, hneed.trans hleft.symm, ha⟩
  | some t =>
    have hneed : b.needConcat = true := by rw [h.needConcat, ha]; rfl
    have hconcat : l.concat = { done := l.done, left := some (Level.joined l.left t) } := by
      unfold Level.concat
      rw [ha]
    obtain ⟨hrunes, hoperators⟩ := h.pushConcat ha
    rw [hneed, if_pos rfl]
    refine ⟨hrunes, hoperators, h.opened, h.bound, h.numbered.concat, ?_, ?_⟩
    · rw [hconcat]
      exact hneed
    · rw [hconcat]

end Framed

theorem Level.tokens_setAtom {l : Level} (ha : l.atom = none) (t : List Nat) :
    { l with atom := some t }.tokens = l.tokens ++ t := by
  rw [Level.tokens, Level.tokens, ha]
  simp

theorem Ready.pushAtom {b : PostfixBuilder} (h : Ready b l outer lo) (hlabel : IsAtom label) :
    Framed (b.pushAtom label) { l with atom := some [label] } outer lo := by
  constructor
  · show b.postfixRunes ++ [label] = _
    rw [Level.tokens_setAtom h.atom, h.postfixRunes, List.append_assoc]
  · exact h.operatorStack
  · exact h.opened
  · exact h.bound
  · exact h.numbered.setAtom (Nat.le_refl _) hlabel.segment
  · rfl
  · exact fun ha => nomatch ha
  · intro _ t ht
    cases ht
    refine ⟨?_, h.needConcat⟩
    show b.postfixRunes.length + 1 = (b.postfixRunes ++ [label]).length
    rw [List.length_append, List.length_singleton]

def Leveled (b : PostfixBuilder) : Prop := ∃ l outer lo, Framed b l outer lo

namespace PostfixBuilder

theorem emitAtom_eq (b : PostfixBuilder) (label : Nat) :
    b.emitAtom label = (if b.needConcat then b.pushConcat else b).pushAtom label := by
  unfold emitAtom
  split <;> rfl

end PostfixBuilder

theorem Leveled.emitAtom {b : PostfixBuilder} (h : Leveled b) (hlabel : IsAtom label) :
    Leveled (b.emitAtom label) := by
  obtain ⟨l, outer, lo, h⟩ := h
  rw [PostfixBuilder.emitAtom_eq]
  exact ⟨_, outer, lo, h.ready.pushAtom hlabel⟩

/-- Without an atom before it, an atom needs no catenation. -/
theorem Leveled.pushAtom {b : PostfixBuilder} (h : Leveled b) (hneed : b.needConcat = false)
    (hlabel : IsAtom label) : Leveled (b.pushAtom label) := by
  obtain ⟨l, outer, lo, h⟩ := h
  have hready := h.ready
  rw [hneed, if_neg Bool.false_ne_true] at hready
  exact ⟨_, outer, lo, hready.pushAtom hlabel⟩

theorem Leveled.pushConcat_pushAtom {b : PostfixBuilder} (h : Leveled b) (hneed : b.needConcat = true)
    (hlabel : IsAtom label) : Leveled (b.pushConcat.pushAtom label) := by
  obtain ⟨l, outer, lo, h⟩ := h
  have hready := h.ready
  rw [hneed, if_pos rfl] at hready
  exact ⟨_, outer, lo, hready.pushAtom hlabel⟩
namespace Leveled
open PostfixBuilder
variable {findCategory : Bytes → Option RuneClass} {b b' : PostfixBuilder}

theorem congr (h : Leveled b) (hrunes : b'.postfixRunes = b.postfixRunes)
    (hcaptures : b'.numCaptures = b.numCaptures) (hoperators : b'.operatorStack = b.operatorStack)
    (hgroups : b'.groupStartStack = b.groupStartStack) (hconcat : b'.needConcat = b.needConcat)
    (hstart : b'.atomStart = b.atomStart) (hbefore : b'.needConcatBeforeAtom = b.needConcatBeforeAtom)
    (hquantified : b'.atomIsQuantified = b.atomIsQuantified) : Leveled b' := by
  obtain ⟨l, outer, lo, h⟩ := h
  exact ⟨l, outer, lo, h.congr hrunes hcaptures hoperators hgroups hconcat hstart hbefore hquantified⟩

theorem setError (h : Leveled b) (code : ErrorCode) : Leveled (b.setError code) := by
  unfold PostfixBuilder.setError
  split
  · exact h.congr rfl rfl rfl rfl rfl rfl rfl rfl
  · exact h

theorem makeClassRef (h : Leveled b) (rc : RuneClass) :
    Leveled (b.makeClassRef rc).1 ∧ IsAtom (b.makeClassRef rc).2 := by
  unfold PostfixBuilder.makeClassRef
  split
  · exact ⟨h.setError _, isAtom_classRef (Nat.le_refl _)⟩
  · exact ⟨h.congr rfl rfl rfl rfl rfl rfl rfl rfl, isAtom_classRef (Nat.le_add_right ..)⟩

theorem exists_atom {l : Level} {outer : List Level} {lo : Nat} (h : Framed b l outer lo)
    (hneed : b.needConcat = true) : ∃ t, l.atom = some t := by
  rw [h.needConcat] at hneed
  exact Option.isSome_iff_exists.1 hneed

theorem appendToAtom {l : Level} {outer : List Level} {lo : Nat} (h : Framed b l outer lo)
    (ha : l.atom = some t) (labels : List Nat)
    (hlabels : ∀ lo hi, Segment (Regexp.Numbered lo hi) t → Segment (Regexp.Numbered lo hi) (t ++ labels)) :
    Leveled { b with postfixRunes := b.postfixRunes ++ labels, atomIsQuantified := true } := by
  refine ⟨{ l with atom := some (t ++ labels) }, outer, lo, ?_⟩
  constructor
  · show b.postfixRunes ++ labels = _
    rw [h.postfixRunes, Level.tokens, Level.tokens, ha]
    simp
  · exact h.operatorStack
  · exact h.opened
  · exact h.bound
  · exact h.numbered.changeAtom ha hlabels
  · have hneed := h.needConcat
    rw [ha] at hneed
    exact hneed
  · exact fun h => nomatch h
  · exact fun h => nomatch h

theorem onQuantifier (h : Leveled b) (hlabel : ∀ label, label = greedyOp ∨ label = lazyOp →
      ∀ lo hi t, Segment (Regexp.Numbered lo hi) t → Segment (Regexp.Numbered lo hi) (t ++ [label]))
    (hp : b.onQuantifier mode greedyOp lazyOp s = .ok (b', s')) : Leveled b' := by
  obtain ⟨l, outer, lo, h⟩ := h
  unfold PostfixBuilder.onQuantifier at hp
  split at hp
  · cases hp
  rename_i hatom
  have hneed : b.needConcat = true := by
    unfold lacksQuantifiableAtom at hatom
    simp at hatom
    exact hatom.1
  obtain ⟨t, ht⟩ := exists_atom h hneed
  obtain ⟨⟨b₁, s₁⟩, hsuffix, hp⟩ := bind_eq_ok.1 hp
  have h₁ : Leveled b₁ := by
    unfold PostfixBuilder.parseQuantifierSuffix at hsuffix
    split at hsuffix
    · split at hsuffix
      · cases hsuffix
      · cases hsuffix
        exact appendToAtom h ht [lazyOp] fun lo hi => hlabel lazyOp (.inr rfl) lo hi t
    · cases hsuffix
      exact appendToAtom h ht [greedyOp] fun lo hi => hlabel greedyOp (.inl rfl) lo hi t
  dsimp only at hp
  split at hp
  · cases hp
    exact h₁
  · cases hp

theorem onCloser (h : Leveled b) (hlabel : IsAtom label) (hp : b.onCloser mode label = .ok b') :
    Leveled b' := by
  unfold PostfixBuilder.onCloser at hp
  split at hp
  · rename_i hcloser
    cases hp
    have hneed : b.needConcat = false := by
      unfold canEmitStandaloneCloser at hcloser
      simp at hcloser
      exact hcloser.1
    exact h.pushAtom hneed hlabel
  · cases hp

/-- A range quantifier repeats the last atom, or takes it away. -/
theorem onRange (h : Leveled b) (hneed : b.needConcat = true) (hquantified : b.atomIsQuantified = false)
    (hp : b.onRange n m s = .ok (b', s')) : Leveled b' := by
  obtain ⟨l, outer, lo, h⟩ := h
  obtain ⟨t, ht⟩ := exists_atom h hneed
  obtain ⟨hstart, hbefore⟩ := h.atom hquantified t ht
  have htokens : b.postfixRunes = tokensBelow outer ++ (l.done.getD [] ++ l.left.getD []) ++ t := by
    rw [h.postfixRunes, Level.tokens, ht]
    simp
  have hlen : (tokensBelow outer ++ (l.done.getD [] ++ l.left.getD [])).length = b.atomStart := by
    rw [htokens, List.length_append] at hstart
    omega
  have htake : b.postfixRunes.take b.atomStart =
      tokensBelow outer ++ (l.done.getD [] ++ l.left.getD []) := by
    rw [htokens, ← hlen, List.take_left]
  have hdrop : b.postfixRunes.drop b.atomStart = t := by
    rw [htokens, ← hlen, List.drop_left]
  unfold PostfixBuilder.onRange at hp
  split at hp
  · cases hp
  split at hp
  · cases hp
  rename_i hm
  dsimp only at hp
  split at hp
  · cases hp
  split at hp
  · cases hp
    refine ⟨{ done := l.done, atom := l.left }, outer, lo, ?_⟩
    constructor
    · show b.postfixRunes.take b.atomStart = _
      rw [htake, Level.tokens]
      simp
    · show (if b.hasPendingConcatToUndo then b.operatorStack.tail else b.operatorStack) = _
      unfold hasPendingConcatToUndo
      rw [hbefore, h.operatorStack, Level.operators, Level.operators]
      cases l.left with
      | none => simp
      | some left => simp
    · exact h.opened
    · exact h.bound
    · exact h.numbered.dropAtom
    · exact hbefore
    · exact fun _ => rfl
    · exact fun h => nomatch h
  rename_i hnm
  split at hp
  · cases hp
  · cases hp
    refine ⟨{ l with atom := some (expansion t n m) }, outer, lo, ?_⟩
    constructor
    · show b.postfixRunes.take b.atomStart ++ expansion (b.postfixRunes.drop b.atomStart) n m = _
      rw [htake, hdrop, Level.tokens]
      simp
    · exact h.operatorStack
    · exact h.opened
    · exact h.bound
    · apply h.numbered.changeAtom ht
      intro lo hi hsegment
      apply segment_expansion hsegment hnm
      rintro k rfl
      simp at hm
      exact hm
    · rfl
    · exact fun h => nomatch h
    · exact fun h => nomatch h

theorem onOpenBrace (h : Leveled b) (hp : b.onOpenBrace .extended s = .ok (b', s')) : Leveled b' := by
  have hbrace : IsAtom '{'.toNat := isAtom_rune (by decide)
  unfold PostfixBuilder.onOpenBrace at hp
  split at hp
  · rename_i hcloser
    cases hp
    have hneed : b.needConcat = false := by
      unfold canEmitStandaloneCloser at hcloser
      simp at hcloser
      exact hcloser
    exact h.pushAtom hneed hbrace
  rename_i hcloser
  have hneed : b.needConcat = true := by
    unfold canEmitStandaloneCloser at hcloser
    simpa using hcloser
  split at hp
  · cases hp
    exact h.pushConcat_pushAtom hneed hbrace
  split at hp
  · cases hp
  rename_i hquantified
  split at hp
  · cases hp
  · exact h.onRange hneed (Bool.not_eq_true _ ▸ hquantified) hp

theorem onPipe (h : Leveled b) : Leveled b.onPipe := by
  obtain ⟨l, outer, lo, h⟩ := h
  obtain ⟨hrunes, hoperators⟩ := h.popOperators
  refine ⟨{ done := some l.whole }, outer, lo, ?_⟩
  constructor
  · show b.popOperators.postfixRunes = _
    rw [hrunes]
    simp [Level.tokens]
  · show alternation :: b.popOperators.operatorStack = _
    rw [hoperators]
    rfl
  · exact h.opened
  · exact h.bound
  · have hwhole := h.numbered.whole h.left
    refine ⟨_, _, h.bound, Nat.le_refl _, Nat.le_refl _, ?_, (fun _ hx => nomatch hx),
      fun _ hx => nomatch hx⟩
    intro x hx
    cases hx
    exact hwhole
  · rfl
  · exact fun _ => rfl
  · exact fun _ _ ht => nomatch ht

/-- Behind an open parenthesis there is an empty level. -/
theorem openGroup {l : Level} {outer : List Level} {lo : Nat} (h : Ready b l outer lo)
    (capturing : Bool) : Leveled (b.openGroup capturing) := by
  refine ⟨{}, l :: outer, if capturing then b.numCaptures + 1 else b.numCaptures, ?_⟩
  constructor
  · show b.postfixRunes = tokensBelow outer ++ l.tokens ++ []
    rw [List.append_nil]
    exact h.postfixRunes
  · show lParen :: b.operatorStack = lParen :: (l.operators ++ operatorsBelow outer)
    rw [h.operatorStack]
  · apply Opened.group h.opened h.numbered h.atom
    · exact congrArg List.length h.postfixRunes
    · exact h.needConcat
    · intro hcapturing
      exact if_pos hcapturing
  · exact Nat.le_refl _
  · exact Level.numbered_empty (Nat.le_refl _)
  · rfl
  · exact fun _ => rfl
  · exact fun _ _ ht => nomatch ht

theorem onOpenGroup (h : Leveled b) (hp : b.onOpenGroup mode s = .ok (b', s')) : Leveled b' := by
  obtain ⟨l, outer, lo, h⟩ := h
  obtain ⟨capturing, b₁, -, rfl, -, rfl, -⟩ := onOpenGroup_eq hp
  exact openGroup h.ready capturing

/-- A closed group is the last atom of the level around it. -/
theorem onCloseGroup (h : Leveled b) (hcaptures : ∀ g ∈ b.groupStartStack, g.capturing = true →
    g.captureId < maxCaptures) (hp : b.onCloseGroup = .ok b') : Leveled b' := by
  obtain ⟨l, outer, lo, h⟩ := h
  obtain ⟨hrunes, hoperators⟩ := h.popOperators
  have hwhole := h.numbered.whole h.left
  have hopened := h.opened
  have hbound := h.bound
  unfold PostfixBuilder.onCloseGroup at hp
  dsimp only at hp
  have hgroups : b.popOperators.groupStartStack = b.groupStartStack := rfl
  have hnum : b.popOperators.numCaptures = b.numCaptures := rfl
  rw [← hgroups] at hopened hcaptures
  rw [← hnum] at hwhole hbound
  generalize b.popOperators = b₁ at hp hrunes hoperators hopened hcaptures hwhole hbound
  split at hp
  · rename_i operators group groups hoperators' hgroups'
    rw [hgroups'] at hopened hcaptures
    cases hopened with
    | group houter hnumbered hatom hindex hconcat hid =>
      rename_i outer lo l hi
      rw [hoperators'] at hoperators
      obtain ⟨-, rfl⟩ := List.cons.inj hoperators
      cases hp
      have hbody : ∃ t : List Nat, (if group.capturing then
          b₁.postfixRunes ++ [captureGroup + group.captureId] else b₁.postfixRunes) =
            tokensBelow (l :: outer) ++ t ∧ Segment (Regexp.Numbered hi b₁.numCaptures) t ∧
              hi ≤ b₁.numCaptures := by
        cases hcapturing : group.capturing with
        | false =>
          rw [hcapturing, if_neg Bool.false_ne_true] at hwhole hbound
          exact ⟨_, hrunes, hwhole, hbound⟩
        | true =>
          rw [hcapturing, if_pos rfl] at hwhole hbound
          have hlt := hcaptures group (.head _) hcapturing
          obtain rfl := hid hcapturing
          refine ⟨_, by rw [if_pos rfl, hrunes, List.append_assoc], ?_, Nat.le_of_succ_le hbound⟩
          apply hwhole.unary (growth_capture hlt)
          intro p hp
          exact ⟨_, hp.capture hbound, fun stack => pushToken_capture hlt p stack⟩
      obtain ⟨t, htokens, hsegment, hle⟩ := hbody
      refine ⟨{ l with atom := some t }, outer, lo, ?_⟩
      constructor
      · dsimp only
        rw [htokens, tokensBelow, Level.tokens_setAtom hatom, List.append_assoc]
      · rfl
      · exact houter
      · exact hnumbered.le.trans hle
      · exact hnumbered.setAtom hle hsegment
      · rfl
      · exact fun h => nomatch h
      · intro _ t' ht'
        cases ht'
        dsimp only
        rw [htokens, List.length_append, hindex]
        exact ⟨rfl, hconcat⟩
  · cases hp

theorem refs (h : Leveled b) (hrefs : ReflTransGen MakesRef b b') : Leveled b' := by
  induction hrefs with
  | refl => exact h
  | tail _ href ih =>
    obtain ⟨rc, rfl⟩ := href
    exact (ih.makeClassRef rc).1

theorem emitRef (h : Leveled b) (rc : RuneClass) (href : b.makeClassRef rc = (b₁, ref)) :
    Leveled (b₁.emitAtom ref) := by
  have hclass := h.makeClassRef rc
  rw [href] at hclass
  exact hclass.1.emitAtom hclass.2

theorem escapes (h : Leveled b) (hp : Escapes b b') : Leveled b' := by
  have hescaped : Leveled { b with escaped := false } := h.congr rfl rfl rfl rfl rfl rfl rfl rfl
  cases hp with
  | classRef rc href => exact hescaped.emitRef rc href
  | rune hr => exact hescaped.emitAtom (isAtom_rune hr)
  | boundary => exact hescaped.emitAtom (isAtom_assertion (by decide))

theorem reads (h : Leveled b) (htidy : b.Tidy) (hr : r < captureGroup)
    (hp : Reads findCategory .extended b s r b' s') : Leveled b' := by
  cases hp with
  | escape => exact h.congr rfl rfl rfl rfl rfl rfl rfl rfl
  | dot => exact h.emitRef .dot rfl
  | charClass hclass =>
    obtain ⟨b₁, rc, hrefs, href⟩ := parseCharClass_eq hclass
    exact (h.refs hrefs).emitRef rc href
  | start => exact h.emitAtom (isAtom_assertion (by decide))
  | stop => exact h.emitAtom (isAtom_assertion (by decide))
  | closer _ hcloser => exact h.onCloser (isAtom_rune hr) hcloser
  | brace hbrace => exact h.onOpenBrace hbrace
  | openGroup hgroup => exact h.onOpenGroup hgroup
  | closeGroup hgroup =>
    exact h.onCloseGroup (fun g hg hc => (htidy.groups g hg hc).trans_le htidy.captures) hgroup
  | pipe => exact h.onPipe
  | quantifier hmem hquantifier =>
    simp only [List.mem_cons, Prod.mk.injEq, List.not_mem_nil, or_false] at hmem
    rcases hmem with ⟨-, rfl, rfl⟩ | ⟨-, rfl, rfl⟩ | ⟨-, rfl, rfl⟩
    · apply h.onQuantifier ?_ hquantifier
      rintro label (rfl | rfl) lo hi t ht
      · exact ht.unary rfl fun p hp => ⟨.zeroOrMore false p, hp.of_subset fun _ _ hr => hr, fun _ => rfl⟩
      · exact ht.unary rfl fun p hp => ⟨.zeroOrMore true p, hp.of_subset fun _ _ hr => hr, fun _ => rfl⟩
    · apply h.onQuantifier ?_ hquantifier
      rintro label (rfl | rfl) lo hi t ht
      · exact ht.unary rfl fun p hp => ⟨.zeroOrOne false p, hp.of_subset fun _ _ hr => hr, fun _ => rfl⟩
      · exact ht.unary rfl fun p hp => ⟨.zeroOrOne true p, hp.of_subset fun _ _ hr => hr, fun _ => rfl⟩
    · apply h.onQuantifier ?_ hquantifier
      rintro label (rfl | rfl) lo hi t ht
      · exact ht.unary rfl fun p hp => ⟨.oneOrMore false p, hp.of_subset fun _ _ hr => hr, fun _ => rfl⟩
      · exact ht.unary rfl fun p hp => ⟨.oneOrMore true p, hp.of_subset fun _ _ hr => hr, fun _ => rfl⟩
  | literal _ => exact h.emitAtom (isAtom_rune hr)

theorem empty : Leveled {} := by
  refine ⟨{}, [], 0, ?_⟩
  constructor
  · rfl
  · rfl
  · exact .top
  · exact Nat.le_refl _
  · exact Level.numbered_empty (Nat.le_refl _)
  · rfl
  · exact fun _ => rfl
  · exact fun _ _ ht => nomatch ht

/-- At the end of a pattern there is one level left. -/
theorem finalize (h : Leveled b) (hp : b.finalize = .ok b') :
    Segment (Regexp.Numbered 0 b'.numCaptures) b'.postfixRunes := by
  obtain ⟨l, outer, lo, h⟩ := h
  obtain ⟨hrunes, hoperators⟩ := h.popOperators
  have hwhole := h.numbered.whole h.left
  have hopened := h.opened
  unfold PostfixBuilder.finalize at hp
  dsimp only at hp
  rw [hoperators] at hp
  generalize b.groupStartStack = groups at hopened
  cases hopened with
  | group => cases hp
  | top =>
    split at hp
    · cases hp
    split at hp
    · cases hp
    split at hp
    · cases hp
    · cases hp
      rw [hrunes]
      exact hwhole

theorem build {fuel : Nat} (hp : PostfixBuilder.build findCategory .extended fuel {} s = .ok b) :
    Segment (Regexp.Numbered 0 b.numCaptures) b.postfixRunes := by
  obtain ⟨b₁, h₁, hfinal⟩ := build_keeps (P := fun b => b.Tidy ∧ Leveled b)
    (fun _ _ h hp => ⟨h.1.escapes hp, h.2.escapes hp⟩)
    (fun _ _ _ _ _ h hr hp => ⟨h.1.reads hr hp, h.2.reads h.1 hr hp⟩) ⟨tidy_empty, empty⟩ hp
  exact h₁.2.finalize hfinal

end Leveled
end Trieste.Regex
