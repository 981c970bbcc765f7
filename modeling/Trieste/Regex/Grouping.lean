import Trieste.Regex.Levels

namespace Trieste.Regex
set_option autoImplicit true
open Library Relation

namespace PostfixBuilder
variable {findCategory : Bytes → Option RuneClass} {b b' : PostfixBuilder}

theorem numCaptures_makeClassRef (b : PostfixBuilder) (rc : RuneClass) :
    (b.makeClassRef rc).1.numCaptures = b.numCaptures := by
  unfold makeClassRef setError
  split
  · dsimp only
    split <;> rfl
  · rfl

theorem numCaptures_emitAtom (b : PostfixBuilder) (label : Nat) :
    (b.emitAtom label).numCaptures = b.numCaptures := by
  unfold emitAtom
  split <;> rfl

theorem numCaptures_emitRef (rc : RuneClass) (href : b.makeClassRef rc = (b₁, ref)) :
    (b₁.emitAtom ref).numCaptures = b.numCaptures := by
  have hcaptures := numCaptures_makeClassRef b rc
  rw [href] at hcaptures
  exact (numCaptures_emitAtom b₁ ref).trans hcaptures

theorem numCaptures_refs (h : ReflTransGen MakesRef b b') : b'.numCaptures = b.numCaptures := by
  induction h with
  | refl => rfl
  | tail _ href ih =>
    obtain ⟨rc, rfl⟩ := href
    exact (numCaptures_makeClassRef _ rc).trans ih

theorem numCaptures_escapes (h : Escapes b b') : b'.numCaptures = b.numCaptures := by
  cases h with
  | classRef rc href =>
    have hcaptures := numCaptures_emitRef rc href
    exact hcaptures
  | rune _ => exact numCaptures_emitAtom _ _
  | boundary => exact numCaptures_emitAtom _ _

theorem numCaptures_onRange (hp : b.onRange n m s = .ok (b', s')) :
    b'.numCaptures = b.numCaptures := by
  unfold onRange at hp
  dsimp only at hp
  split at hp
  · cases hp
  split at hp
  · cases hp
  split at hp
  · cases hp
  split at hp
  · cases hp
    rfl
  split at hp
  · cases hp
  · cases hp
    rfl

theorem numCaptures_reads (h : Reads findCategory .iregexpStrict b s r b' s') :
    b'.numCaptures = b.numCaptures := by
  cases h with
  | escape => rfl
  | dot => exact numCaptures_emitRef .dot rfl
  | charClass hclass =>
    obtain ⟨b₁, rc, hrefs, href⟩ := parseCharClass_eq hclass
    exact (numCaptures_emitRef rc href).trans (numCaptures_refs hrefs)
  | start => exact numCaptures_emitAtom _ _
  | stop => exact numCaptures_emitAtom _ _
  | closer _ hcloser =>
    unfold onCloser at hcloser
    split at hcloser
    · cases hcloser
      rfl
    · cases hcloser
  | brace hbrace =>
    unfold onOpenBrace at hbrace
    split at hbrace
    · cases hbrace
      rfl
    split at hbrace
    · cases hbrace
      rfl
    split at hbrace
    · cases hbrace
    split at hbrace
    · cases hbrace
    · exact numCaptures_onRange hbrace
  | openGroup hgroup => cases hgroup
  | closeGroup hgroup =>
    unfold onCloseGroup at hgroup
    dsimp only at hgroup
    split at hgroup
    · cases hgroup
      rfl
    · cases hgroup
  | pipe => rfl
  | quantifier _ hquantifier =>
    unfold onQuantifier at hquantifier
    split at hquantifier
    · cases hquantifier
    obtain ⟨⟨b₁, s₁⟩, hsuffix, hquantifier⟩ := bind_eq_ok.1 hquantifier
    have h₁ : b₁.numCaptures = b.numCaptures := by
      unfold parseQuantifierSuffix at hsuffix
      split at hsuffix
      · cases hsuffix
      · cases hsuffix
        rfl
    dsimp only at hquantifier
    split at hquantifier
    · cases hquantifier
      exact h₁
    · cases hquantifier
  | literal _ => exact numCaptures_emitAtom _ _

theorem numCaptures_strict {fuel : Nat}
    (hp : PostfixBuilder.build findCategory .iregexpStrict fuel {} s = .ok b) : b.numCaptures = 0 := by
  obtain ⟨b₁, h₁, hfinal⟩ := build_keeps (P := fun b => b.numCaptures = 0)
    (fun _ _ h hp => (numCaptures_escapes hp).trans h)
    (fun _ _ _ _ _ h _ hp => (numCaptures_reads hp).trans h) rfl hp
  unfold finalize at hfinal
  dsimp only at hfinal
  split at hfinal
  · cases hfinal
  split at hfinal
  · cases hfinal
  split at hfinal
  · cases hfinal
  · cases hfinal
    exact h₁

end PostfixBuilder

theorem Regexp.bodies_of_over {p : Regexp} (h : p.Over classes 0) (index : Nat) :
    p.bodies index = [] := by
  induction p with
  | literal | classRef | startAnchor | endAnchor | wordBoundary => rfl
  | cat p q ihp ihq | alt p q ihp ihq => rw [bodies, ihp h.1, ihq h.2, List.append_nil]
  | zeroOrOne _ p ih | zeroOrMore _ p ih | oneOrMore _ p ih => exact ih h
  | capture number p ih => exact absurd h.1.1 (Nat.not_lt_zero _)

namespace RegexEngine
variable {findCategory : Bytes → Option RuneClass} {mode : SyntaxMode} {pattern : Bytes}

/-- An accepted pattern is compiled from a tree whose groups are numbered. -/
theorem ofSyntax_numbered (hok : (ofSyntax findCategory mode pattern).ok = true) :
    ∃ (p : Pattern) (classes : List RuneClass) (n : Nat),
      ofSyntax findCategory mode pattern = .compile p.toPostfix classes n ∧
        ∀ r, p = some r → r.Over classes n ∧ r.Numbered 0 n := by
  obtain ⟨b, hparse, htidy, hcompile⟩ := ofSyntax_parsed hok
  rw [hcompile] at hok
  obtain ⟨p, hp, hover⟩ := exists_pattern htidy.tokens hok
  refine ⟨p, b.runeClasses, b.numCaptures, by rw [hp, hcompile], fun r hr => ?_⟩
  obtain ⟨hover, htree⟩ := hover r hr
  refine ⟨hover, ?_⟩
  cases mode with
  | extended =>
    have hsegment := Leveled.build hparse
    have hgrowth := totalGrowth_of_ofPostfix htree
    obtain ⟨q, hpush, hq⟩ := hsegment.pushes (by simpa using hgrowth)
    have heq := Option.some.inj (hpush.ofPostfix.symm.trans htree)
    exact heq ▸ hq
  | iregexpStrict =>
    have hzero := PostfixBuilder.numCaptures_strict hparse
    rw [hzero] at hover
    exact Regexp.numbered_of_bodies (Regexp.bodies_of_over hover)

end RegexEngine

end Trieste.Regex
