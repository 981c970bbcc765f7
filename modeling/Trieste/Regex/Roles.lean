import Trieste.Regex.ParserSteps

namespace Trieste.Regex
set_option autoImplicit true
open Library Relation

/-- What a rune of a pattern stands for. A `literal` is a brace or bracket on its own. -/
inductive Role
  | escape
  | atom
  | literal
  | quantifier
  | openGroup
  | closeGroup
  | pipe
  deriving DecidableEq

def Role.isAtom : Role → Bool
  | atom | literal | closeGroup => true
  | escape | quantifier | openGroup | pipe => false

namespace PostfixBuilder
variable (findCategory : Bytes → Option RuneClass) (mode : SyntaxMode)

/-- The role of a rune that the loop of the parser reads, from what follows it. -/
def roleOf (b : PostfixBuilder) (r : Nat) (s : Bytes) : Role :=
  if b.escaped then .atom
  else if r = backslash then .escape
  else if r = '{'.toNat then
    if b.canEmitStandaloneCloser mode || b.isLiteralBraceAfterEscape mode s then .literal
    else .quantifier
  else if r = ']'.toNat ∨ r = '}'.toNat then .literal
  else if r = lParen then .openGroup
  else if r = rParen then .closeGroup
  else if r = Regex.pipe then .pipe
  else if r = asterisk ∨ r = question ∨ r = plus then .quantifier
  else .atom

/-- The roles of the runes that the loop of the parser reads. -/
def roles : Nat → PostfixBuilder → Bytes → List Role
  | 0, _, _ => []
  | fuel + 1, b, s =>
    if s = [] then []
    else
      let rest := (takeRune s).2
      let r := (takeRune s).1
      b.roleOf mode r rest ::
        match if b.escaped then onEscape findCategory mode b r rest
          else onRune findCategory mode b r rest with
        | .ok next => roles fuel next.1 next.2
        | .error _ => []

end PostfixBuilder

def Follows (last role : Role) : Prop := role = .quantifier → last.isAtom = true

instance : DecidableRel Follows := fun last role =>
  inferInstanceAs (Decidable (role = .quantifier → last.isAtom = true))

/-- Every quantifier of the pattern follows an atom that has none, and in the strict syntax no brace
or bracket stands for itself. The start of the pattern is like a `|`. -/
def QuantifiersFollow (findCategory : Bytes → Option RuneClass) (mode : SyntaxMode)
    (pattern : Bytes) : Prop :=
  (Role.pipe :: PostfixBuilder.roles findCategory mode pattern.length {} pattern).IsChain Follows ∧
    (mode = .iregexpStrict →
      Role.literal ∉ PostfixBuilder.roles findCategory mode pattern.length {} pattern)

instance (findCategory : Bytes → Option RuneClass) (mode : SyntaxMode) (pattern : Bytes) :
    Decidable (QuantifiersFollow findCategory mode pattern) := inferInstanceAs (Decidable (_ ∧ _))

/-- The state behind a rune with the role. -/
structure Behind (mode : SyntaxMode) (b : PostfixBuilder) (last : Role) : Prop where
  escape : b.escaped = true ↔ last = .escape
  atom : b.escaped = false → (last.isAtom = true ↔ b.needConcat = true ∧ b.atomIsQuantified = false)
  quantifier : last = .quantifier → b.atomIsQuantified = true
  openGroup : last = .openGroup → mode = .extended

/-- The state behind an atom. -/
structure AtomBehind (b : PostfixBuilder) : Prop where
  needConcat : b.needConcat = true
  atomIsQuantified : b.atomIsQuantified = false

theorem AtomBehind.behind (h : AtomBehind b) (hescaped : b.escaped = false)
    (hrole : role.isAtom = true) : Behind mode b role := by
  constructor
  · rw [hescaped]
    exact ⟨fun h => (nomatch h), fun h => by rw [h] at hrole; cases hrole⟩
  · intro _
    exact iff_of_true hrole ⟨h.needConcat, h.atomIsQuantified⟩
  · intro heq
    rw [heq] at hrole
    cases hrole
  · intro heq
    rw [heq] at hrole
    cases hrole

namespace PostfixBuilder
variable {findCategory : Bytes → Option RuneClass} {mode : SyntaxMode} {b b' : PostfixBuilder}

theorem pushAtom_behind (b : PostfixBuilder) (label : Nat) : AtomBehind (b.pushAtom label) := ⟨rfl, rfl⟩

theorem emitAtom_behind (b : PostfixBuilder) (label : Nat) :
    AtomBehind (b.emitAtom label) ∧ (b.emitAtom label).escaped = b.escaped := by
  unfold emitAtom
  split
  · exact ⟨⟨rfl, rfl⟩, rfl⟩
  · exact ⟨⟨rfl, rfl⟩, rfl⟩

theorem escaped_makeClassRef (b : PostfixBuilder) (rc : RuneClass) :
    (b.makeClassRef rc).1.escaped = b.escaped := by
  unfold makeClassRef setError
  split
  · dsimp only
    split <;> rfl
  · rfl

theorem escaped_refs (h : ReflTransGen MakesRef b b') : b'.escaped = b.escaped := by
  induction h with
  | refl => rfl
  | tail _ href ih =>
    obtain ⟨rc, rfl⟩ := href
    exact (escaped_makeClassRef _ rc).trans ih

theorem emitRef_behind (rc : RuneClass) (href : b.makeClassRef rc = (b₁, ref)) :
    AtomBehind (b₁.emitAtom ref) ∧ (b₁.emitAtom ref).escaped = b.escaped := by
  have hescaped := escaped_makeClassRef b rc
  rw [href] at hescaped
  exact ⟨(emitAtom_behind b₁ ref).1, (emitAtom_behind b₁ ref).2.trans hescaped⟩

theorem behind_of_escapes (h : Escapes b b') : Behind mode b' .atom := by
  cases h with
  | classRef rc href =>
    obtain ⟨hatom, hescaped⟩ := emitRef_behind rc href
    exact hatom.behind hescaped rfl
  | rune _ =>
    obtain ⟨hatom, hescaped⟩ := emitAtom_behind { b with escaped := false } _
    exact hatom.behind hescaped rfl
  | boundary =>
    obtain ⟨hatom, hescaped⟩ := emitAtom_behind { b with escaped := false } wordBoundary
    exact hatom.behind hescaped rfl

theorem behind_quantifier (hquantified : b.atomIsQuantified = true) (hescaped : b.escaped = false) :
    Behind mode b .quantifier := by
  constructor
  · rw [hescaped]
    exact ⟨fun h => (nomatch h), fun h => (nomatch h)⟩
  · intro _
    rw [hquantified]
    exact ⟨fun h => (nomatch h), fun h => (nomatch h.2)⟩
  · exact fun _ => hquantified
  · exact fun h => nomatch h

theorem behind_start (hneed : b.needConcat = false) (hescaped : b.escaped = false)
    (hrole : role = .pipe ∨ role = .openGroup ∧ mode = .extended) : Behind mode b role := by
  rcases hrole with rfl | ⟨rfl, hmode⟩
  · constructor
    · rw [hescaped]
      exact ⟨fun h => (nomatch h), fun h => (nomatch h)⟩
    · intro _
      rw [hneed]
      exact ⟨fun h => (nomatch h), fun h => (nomatch h.1)⟩
    · exact fun h => nomatch h
    · exact fun h => nomatch h
  · constructor
    · rw [hescaped]
      exact ⟨fun h => (nomatch h), fun h => (nomatch h)⟩
    · intro _
      rw [hneed]
      exact ⟨fun h => (nomatch h), fun h => (nomatch h.1)⟩
    · exact fun h => nomatch h
    · exact fun _ => hmode

variable (mode) in
theorem roleOf_special (hescaped : b.escaped = false) (s : Bytes) :
    b.roleOf mode backslash s = .escape ∧ b.roleOf mode '.'.toNat s = .atom ∧
      b.roleOf mode '['.toNat s = .atom ∧ b.roleOf mode '^'.toNat s = .atom ∧
      b.roleOf mode '$'.toNat s = .atom ∧ b.roleOf mode ']'.toNat s = .literal ∧
      b.roleOf mode '}'.toNat s = .literal ∧ b.roleOf mode lParen s = .openGroup ∧
      b.roleOf mode rParen s = .closeGroup ∧ b.roleOf mode Regex.pipe s = .pipe ∧
      b.roleOf mode asterisk s = .quantifier ∧ b.roleOf mode question s = .quantifier ∧
      b.roleOf mode plus s = .quantifier := by
  unfold roleOf
  rw [hescaped]
  exact ⟨rfl, rfl, rfl, rfl, rfl, rfl, rfl, rfl, rfl, rfl, rfl, rfl, rfl⟩

theorem roleOf_brace (hescaped : b.escaped = false) (s : Bytes) : b.roleOf mode '{'.toNat s =
    if b.canEmitStandaloneCloser mode || b.isLiteralBraceAfterEscape mode s then .literal
    else .quantifier := by
  unfold roleOf
  rw [hescaped]
  rfl

theorem roleOf_literal (hescaped : b.escaped = false) (hr : r ∉ [backslash, '.'.toNat, '['.toNat,
    '^'.toNat, '$'.toNat, ']'.toNat, '{'.toNat, '}'.toNat, lParen, rParen, Regex.pipe, asterisk,
    question, plus]) (s : Bytes) : b.roleOf mode r s = .atom := by
  simp only [List.mem_cons, List.not_mem_nil, or_false, not_or] at hr
  obtain ⟨h₁, -, -, -, -, h₂, h₃, h₄, h₅, h₆, h₇, h₈, h₉, h₁₀⟩ := hr
  unfold roleOf
  rw [hescaped, if_neg Bool.false_ne_true, if_neg h₁, if_neg h₃, if_neg (not_or.2 ⟨h₂, h₄⟩), if_neg h₅,
    if_neg h₆, if_neg h₇, if_neg (not_or.2 ⟨h₈, not_or.2 ⟨h₉, h₁₀⟩⟩)]

theorem onQuantifier_behind (hp : b.onQuantifier mode greedy idle s = .ok (b', s')) :
    b.needConcat = true ∧ b.atomIsQuantified = false ∧ b'.atomIsQuantified = true ∧
      b'.escaped = b.escaped ∧ (mode = .iregexpStrict → s' = s) := by
  unfold onQuantifier at hp
  split at hp
  · cases hp
  rename_i hatom
  have hatom : b.needConcat = true ∧ b.atomIsQuantified = false := by
    simpa [lacksQuantifiableAtom] using hatom
  obtain ⟨⟨b₁, s₁⟩, hsuffix, hp⟩ := bind_eq_ok.1 hp
  have h₁ : b₁.atomIsQuantified = true ∧ b₁.escaped = b.escaped ∧
      (mode = .iregexpStrict → s₁ = s) := by
    unfold parseQuantifierSuffix at hsuffix
    split at hsuffix
    · split at hsuffix
      · cases hsuffix
      · rename_i hmode
        cases hsuffix
        exact ⟨rfl, rfl, fun hstrict => absurd hstrict (by rw [Decidable.not_not.1 hmode]; decide)⟩
    · cases hsuffix
      exact ⟨rfl, rfl, fun _ => rfl⟩
  dsimp only at hp
  split at hp
  · cases hp
    exact ⟨hatom.1, hatom.2, h₁⟩
  · cases hp

theorem onRange_behind (hp : b.onRange n m s = .ok (b', s')) :
    b'.atomIsQuantified = true ∧ b'.escaped = b.escaped := by
  unfold onRange at hp
  dsimp only at hp
  split at hp
  · cases hp
  split at hp
  · cases hp
  split at hp
  · cases hp
  split at hp
  · cases hp
    exact ⟨rfl, rfl⟩
  split at hp
  · cases hp
  · cases hp
    exact ⟨rfl, rfl⟩

theorem onOpenBrace_behind (hescaped : b.escaped = false)
    (hp : b.onOpenBrace mode s = .ok (b', s')) :
    Behind mode b' (b.roleOf mode '{'.toNat s) ∧ (b.roleOf mode '{'.toNat s = .quantifier →
      b.atomIsQuantified = false ∧ (mode = .extended → b.needConcat = true) ∧
        ∃ n m, parseCounts s = some (n, m, s')) := by
  rw [roleOf_brace hescaped]
  unfold onOpenBrace at hp
  split at hp
  · rename_i hcloser
    cases hp
    rw [hcloser, Bool.true_or, if_pos rfl]
    exact ⟨(pushAtom_behind b _).behind hescaped rfl, fun h => nomatch h⟩
  rename_i hcloser
  rw [Bool.not_eq_true] at hcloser
  split at hp
  · rename_i hliteral
    cases hp
    rw [hliteral, Bool.or_true, if_pos rfl]
    exact ⟨(pushAtom_behind b.pushConcat _).behind hescaped rfl, fun h => nomatch h⟩
  rename_i hliteral
  rw [Bool.not_eq_true] at hliteral
  rw [hcloser, hliteral, Bool.or_self, if_neg Bool.false_ne_true]
  split at hp
  · cases hp
  rename_i hquantified
  rw [Bool.not_eq_true] at hquantified
  split at hp
  · cases hp
  · rename_i hcounts
    have hrest := onRange_rest hp
    obtain ⟨hquantified', hescaped'⟩ := onRange_behind hp
    refine ⟨behind_quantifier hquantified' (hescaped'.trans hescaped), fun _ => ⟨hquantified, ?_, ?_⟩⟩
    · intro hmode
      rw [hmode] at hcloser
      simpa [canEmitStandaloneCloser] using hcloser
    · exact ⟨_, _, hrest ▸ hcounts⟩

/-- Each step leaves the state of its role, and a quantifier other than a range has an atom. -/
theorem behind_of_reads (hescaped : b.escaped = false) (h : Reads findCategory mode b s r b' s') :
    Behind mode b' (b.roleOf mode r s) ∧ (b.roleOf mode r s = .quantifier →
      b.atomIsQuantified = false ∧ (mode = .extended ∨ r ≠ '{'.toNat → b.needConcat = true)) := by
  obtain ⟨hbackslash, hdot, hbracket, hstart, hstop, hclose, hclosebrace, hopen, hgroup, hpipe, hstar,
    hquestion, hplus⟩ := roleOf_special mode hescaped s
  cases h with
  | escape =>
    rw [hbackslash]
    refine ⟨⟨iff_of_true rfl rfl, fun h => (nomatch h), fun h => (nomatch h), fun h => nomatch h⟩,
      fun h => nomatch h⟩
  | dot =>
    rw [hdot]
    obtain ⟨hatom, hesc⟩ := emitRef_behind (b := b) .dot rfl
    exact ⟨hatom.behind (hesc.trans hescaped) rfl, fun h => nomatch h⟩
  | charClass hclass =>
    rw [hbracket]
    obtain ⟨b₁, rc, hrefs, href⟩ := parseCharClass_eq hclass
    obtain ⟨hatom, hesc⟩ := emitRef_behind rc href
    exact ⟨hatom.behind (hesc.trans ((escaped_refs hrefs).trans hescaped)) rfl, fun h => nomatch h⟩
  | start =>
    rw [hstart]
    obtain ⟨hatom, hesc⟩ := emitAtom_behind b startAnchor
    exact ⟨hatom.behind (hesc.trans hescaped) rfl, fun h => nomatch h⟩
  | stop =>
    rw [hstop]
    obtain ⟨hatom, hesc⟩ := emitAtom_behind b endAnchor
    exact ⟨hatom.behind (hesc.trans hescaped) rfl, fun h => nomatch h⟩
  | closer hr hcloser =>
    have hrole : b.roleOf mode r s = .literal := by
      rcases hr with rfl | rfl
      · exact hclose
      · exact hclosebrace
    rw [hrole]
    unfold onCloser at hcloser
    split at hcloser
    · cases hcloser
      exact ⟨(pushAtom_behind b r).behind hescaped rfl, fun h => nomatch h⟩
    · cases hcloser
  | brace hbrace =>
    obtain ⟨hbehind, hquantifier⟩ := onOpenBrace_behind hescaped hbrace
    refine ⟨hbehind, fun hrole => ?_⟩
    obtain ⟨hquantified, hneed, -⟩ := hquantifier hrole
    refine ⟨hquantified, fun hmode => ?_⟩
    rcases hmode with hmode | hne
    · exact hneed hmode
    · exact absurd rfl hne
  | openGroup hgroup' =>
    rw [hopen]
    obtain ⟨capturing, b₁, hmode, rfl, -, rfl, -⟩ := onOpenGroup_eq hgroup'
    have hesc : (if b.needConcat then b.pushConcat else b).escaped = false := by
      split
      · exact hescaped
      · exact hescaped
    exact ⟨behind_start rfl hesc (.inr ⟨rfl, hmode⟩), fun h => nomatch h⟩
  | closeGroup hgroup' =>
    rw [hgroup]
    unfold onCloseGroup at hgroup'
    dsimp only at hgroup'
    split at hgroup'
    · cases hgroup'
      exact ⟨AtomBehind.behind ⟨rfl, rfl⟩ hescaped rfl, fun h => nomatch h⟩
    · cases hgroup'
  | pipe =>
    rw [hpipe]
    exact ⟨behind_start rfl hescaped (.inl rfl), fun h => nomatch h⟩
  | quantifier hr hquantifier =>
    have hrole : b.roleOf mode r s = .quantifier := by
      simp only [List.mem_cons, Prod.mk.injEq, List.not_mem_nil, or_false] at hr
      rcases hr with ⟨rfl, -, -⟩ | ⟨rfl, -, -⟩ | ⟨rfl, -, -⟩
      · exact hstar
      · exact hquestion
      · exact hplus
    obtain ⟨hneed, hquantified, hquantified', hesc, -⟩ := onQuantifier_behind hquantifier
    rw [hrole]
    exact ⟨behind_quantifier hquantified' (hesc.trans hescaped), fun _ => ⟨hquantified, fun _ => hneed⟩⟩
  | literal hr =>
    rw [roleOf_literal hescaped hr]
    obtain ⟨hatom, hesc⟩ := emitAtom_behind b r
    exact ⟨hatom.behind (hesc.trans hescaped) rfl, fun h => nomatch h⟩

end PostfixBuilder

end Trieste.Regex
