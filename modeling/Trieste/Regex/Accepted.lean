import Trieste.Regex.ParserSteps

namespace Trieste.Regex
set_option autoImplicit true
open Library Relation

/-- A token over so many classes and groups. -/
inductive TokenOf (classes groups : Nat) : Nat → Prop
  | rune : r < captureGroup → TokenOf classes groups r
  | classRef : i < classes → runeClassBase + i ≤ runeClassMax → TokenOf classes groups (runeClassBase + i)
  | group : i < groups → i < maxCaptures → TokenOf classes groups (captureGroup + i)
  | operator : label ∈ [catenation, alternation, zeroOrOne, zeroOrMore, oneOrMore, lazyZeroOrOne,
      lazyZeroOrMore, lazyOneOrMore, startAnchor, endAnchor, wordBoundary] →
      TokenOf classes groups label

theorem TokenOf.mono (h : TokenOf c g label) (hc : c ≤ c') (hg : g ≤ g') : TokenOf c' g' label := by
  cases h with
  | rune h => exact .rune h
  | classRef h hmax => exact .classRef (Nat.lt_of_lt_of_le h hc) hmax
  | group h hmax => exact .group (Nat.lt_of_lt_of_le h hg) hmax
  | operator h => exact .operator h

def Regexp.Over (classes : List RuneClass) (groups : Nat) : Regexp → Prop
  | literal r => r < captureGroup
  | classRef index => runeClassBase + index ≤ runeClassMax ∧ index < classes.length
  | startAnchor | endAnchor | wordBoundary => True
  | cat p q | alt p q => p.Over classes groups ∧ q.Over classes groups
  | zeroOrOne _ p | zeroOrMore _ p | oneOrMore _ p => p.Over classes groups
  | capture index p => (index < groups ∧ index < maxCaptures) ∧ p.Over classes groups

theorem Regexp.Over.wellFormed {p : Regexp} (h : p.Over classes groups) : p.WellFormed classes := by
  induction p with
  | literal | classRef => exact h
  | startAnchor | endAnchor | wordBoundary => trivial
  | cat p q ihp ihq | alt p q ihp ihq => exact ⟨ihp h.1, ihq h.2⟩
  | zeroOrOne _ p ih | zeroOrMore _ p ih | oneOrMore _ p ih => exact ih h
  | capture index p ih => exact ⟨h.1.2, ih h.2⟩

section Tokens
variable {stack : List Regexp} {classes : List RuneClass} {groups : Nat}

theorem mem_cons_of_forall {P : Regexp → Prop} (hp : P p) (hstack : ∀ q ∈ stack, P q) :
    ∀ q ∈ p :: stack, P q := by
  intro q hq
  rcases List.mem_cons.1 hq with rfl | hq
  · exact hp
  · exact hstack q hq

theorem pushToken_over (ht : TokenOf classes.length groups label)
    (hstack : ∀ p ∈ stack, p.Over classes groups)
    (h : Regexp.pushToken stack label = some stack') : ∀ p ∈ stack', p.Over classes groups := by
  unfold Regexp.pushToken at h
  split at h
  · split at h
    · cases h
      obtain ⟨hq, hrest⟩ := List.forall_mem_cons.1 hstack
      obtain ⟨hp, hrest⟩ := List.forall_mem_cons.1 hrest
      exact mem_cons_of_forall ⟨hp, hq⟩ hrest
    · cases h
  rename_i hcat
  split at h
  · split at h
    · cases h
      obtain ⟨hq, hrest⟩ := List.forall_mem_cons.1 hstack
      obtain ⟨hp, hrest⟩ := List.forall_mem_cons.1 hrest
      exact mem_cons_of_forall ⟨hp, hq⟩ hrest
    · cases h
  rename_i halt
  split at h
  · cases h
    obtain ⟨hp, hrest⟩ := List.forall_mem_cons.1 hstack
    exact mem_cons_of_forall hp hrest
  · cases h
    obtain ⟨hp, hrest⟩ := List.forall_mem_cons.1 hstack
    exact mem_cons_of_forall hp hrest
  · cases h
    obtain ⟨hp, hrest⟩ := List.forall_mem_cons.1 hstack
    exact mem_cons_of_forall hp hrest
  · cases h
  rename_i hquantifier
  split at h
  · rename_i hgroup
    split at h
    · cases h
      obtain ⟨hp, hrest⟩ := List.forall_mem_cons.1 hstack
      refine mem_cons_of_forall ⟨?_, hp⟩ hrest
      simp only [captureGroup, maxCaptures] at hgroup ⊢
      cases ht with
      | rune h => simp only [captureGroup] at h; omega
      | classRef _ _ => simp only [runeClassBase] at hgroup; omega
      | group h hmax =>
        simp only [captureGroup, maxCaptures] at hmax ⊢
        omega
      | operator h =>
        simp only [List.mem_cons, List.not_mem_nil, or_false] at h
        rcases h with rfl | rfl | rfl | rfl | rfl | rfl | rfl | rfl | rfl | rfl | rfl <;>
          exact absurd hgroup (by decide)
    · cases h
  rename_i hgroup
  split at h
  · cases h
    exact mem_cons_of_forall trivial hstack
  rename_i hstart
  split at h
  · cases h
    exact mem_cons_of_forall trivial hstack
  rename_i hend
  split at h
  · cases h
    exact mem_cons_of_forall trivial hstack
  rename_i hword
  split at h
  · rename_i hbase
    cases h
    refine mem_cons_of_forall ?_ hstack
    cases ht with
    | rune h => simp only [captureGroup, runeClassBase] at h hbase; omega
    | classRef h hmax =>
      rw [Regexp.Over, Nat.add_sub_cancel_left]
      exact ⟨hmax, h⟩
    | group h hmax => simp only [captureGroup, runeClassBase, maxCaptures] at hmax hbase; omega
    | operator h =>
      simp only [List.mem_cons, List.not_mem_nil, or_false] at h
      rcases h with rfl | rfl | rfl | rfl | rfl | rfl | rfl | rfl | rfl | rfl | rfl <;>
        exact absurd hbase (by decide)
  · rename_i hbase
    cases h
    refine mem_cons_of_forall ?_ hstack
    cases ht with
    | rune h => exact h
    | classRef h hmax => exact absurd (Nat.le_add_right ..) hbase
    | group h hmax => exact absurd ⟨Nat.le_add_right .., Nat.add_lt_add_left hmax _⟩ hgroup
    | operator h =>
      simp only [List.mem_cons, List.not_mem_nil, or_false] at h
      rcases h with rfl | rfl | rfl | rfl | rfl | rfl | rfl | rfl | rfl | rfl | rfl
      · exact absurd rfl hcat
      · exact absurd rfl halt
      · cases hquantifier
      · cases hquantifier
      · cases hquantifier
      · cases hquantifier
      · cases hquantifier
      · cases hquantifier
      · exact absurd rfl hstart
      · exact absurd rfl hend
      · exact absurd rfl hword

theorem ofPostfix_over {tokens : List Nat} {p : Regexp}
    (ht : ∀ label ∈ tokens, TokenOf classes.length groups label)
    (hstack : ∀ p ∈ stack, p.Over classes groups) (h : Regexp.ofPostfix stack tokens = some p) :
    p.Over classes groups := by
  induction tokens generalizing stack with
  | nil =>
    unfold Regexp.ofPostfix at h
    split at h
    · cases h
      exact hstack _ (.head _)
    · cases h
  | cons label tokens ih =>
    obtain ⟨stack', hpush, hrest⟩ := Option.bind_eq_some_iff.1 h
    exact ih (fun l hl => ht l (.tail _ hl)) (pushToken_over (ht label (.head _)) hstack hpush) hrest

theorem setError_ne (b : Builder) {code : ErrorCode} (h : code ≠ .noError) :
    (b.setError code).errorCode ≠ .noError := by
  unfold Builder.setError
  split
  · exact h
  · assumption

theorem length_buildQuantifier (b : Builder) (frags : List Frag) (kind : QuantifierKind)
    (isLazy : Bool) (hok : (buildQuantifier b frags kind isLazy).1.errorCode = .noError) :
    ∃ operand rest, frags = operand :: rest ∧
      (buildQuantifier b frags kind isLazy).2.length = (operand :: rest).length := by
  cases frags with
  | nil => exact absurd hok (setError_ne b (by decide))
  | cons operand rest =>
    refine ⟨operand, rest, rfl, ?_⟩
    cases kind with
    | zeroOrOne => rfl
    | zeroOrMore => rfl
    | oneOrMore => rfl

theorem pushToken_of_postfixToken {frags : List Frag} (hlen : frags.length = stack.length)
    (h : postfixToken b frags label = (b', some frags')) :
    ∃ stack', Regexp.pushToken stack label = some stack' ∧ frags'.length = stack'.length := by
  unfold postfixToken at h
  unfold Regexp.pushToken
  split at h
  · rename_i hcat
    rw [if_pos hcat]
    split at h
    · cases h
      match stack, hlen with
      | q :: p :: stack, hlen => exact ⟨_, rfl, by simpa using hlen⟩
    · cases h
  rename_i hcat
  rw [if_neg hcat]
  split at h
  · rename_i halt
    rw [if_pos halt]
    split at h
    · cases h
      match stack, hlen with
      | q :: p :: stack, hlen => exact ⟨_, rfl, by simpa using hlen⟩
    · cases h
  rename_i halt
  rw [if_neg halt]
  cases hq : quantifier? label with
  | some quantifier =>
    obtain ⟨kind, isLazy⟩ := quantifier
    rw [hq] at h
    dsimp only at h
    split at h
    · rename_i hbuild
      cases h
      obtain ⟨operand, rest, hfrags, hrest⟩ := length_buildQuantifier b frags kind isLazy hbuild
      rw [hfrags] at hlen
      match stack, hlen with
      | p :: stack, hlen =>
        have hlen' : (buildQuantifier b frags kind isLazy).2.length = (p :: stack).length :=
          hrest.trans hlen
        cases kind with
        | zeroOrOne => exact ⟨_, rfl, hlen'⟩
        | zeroOrMore => exact ⟨_, rfl, hlen'⟩
        | oneOrMore => exact ⟨_, rfl, hlen'⟩
    · cases h
  | none =>
    rw [hq] at h
    dsimp only at h ⊢
    split at h
    · rename_i hgroup
      rw [if_pos hgroup]
      split at h
      · cases h
        match stack, hlen with
        | p :: stack, hlen => exact ⟨_, rfl, by simpa using hlen⟩
      · cases h
    · rename_i hgroup
      rw [if_neg hgroup]
      cases h
      have hatom : ∃ p : Regexp, (if label = startAnchor then some (Regexp.startAnchor :: stack)
          else if label = endAnchor then some (.endAnchor :: stack)
          else if label = wordBoundary then some (.wordBoundary :: stack)
          else if runeClassBase ≤ label then some (.classRef (label - runeClassBase) :: stack)
          else some (.literal label :: stack)) = some (p :: stack) := by
        repeat' split
        all_goals exact ⟨_, rfl⟩
      obtain ⟨p, hp⟩ := hatom
      exact ⟨p :: stack, hp, congrArg (· + 1) hlen⟩

theorem error_of_postfixToken {frags : List Frag} (h : postfixToken b frags label = (b', none)) :
    b'.errorCode ≠ .noError := by
  unfold postfixToken at h
  split at h
  · split at h
    · cases h
    · cases h
      exact setError_ne b (by decide)
  split at h
  · split at h
    · cases h
    · cases h
      exact setError_ne b (by decide)
  split at h
  · dsimp only at h
    split at h
    · cases h
    · cases h
      assumption
  · split at h
    · split at h
      · cases h
      · cases h
        exact setError_ne b (by decide)
    · cases h

theorem ofPostfix_of_postfixLoop {tokens : List Nat} {frags : List Frag}
    (hlen : frags.length = stack.length)
    (hok : (postfixLoop b frags tokens).1.errorCode = .noError) :
    ∃ p, Regexp.ofPostfix stack tokens = some p := by
  induction tokens generalizing b frags stack with
  | nil =>
    unfold postfixLoop at hok
    split at hok
    · match stack, hlen with
      | [p], hlen => exact ⟨p, rfl⟩
    · exact absurd hok (setError_ne b (by decide))
  | cons label tokens ih =>
    rw [postfixLoop] at hok
    generalize htoken : postfixToken b frags label = result at hok
    obtain ⟨b', result⟩ := result
    cases result with
    | none => exact absurd hok (error_of_postfixToken htoken)
    | some frags' =>
      obtain ⟨stack', hpush, hlen'⟩ := pushToken_of_postfixToken hlen htoken
      obtain ⟨p, hp⟩ := ih hlen' hok
      exact ⟨p, Option.bind_eq_some_iff.2 ⟨stack', hpush, hp⟩⟩

theorem RegexEngine.exists_pattern {tokens : List Nat}
    (ht : ∀ label ∈ tokens, TokenOf classes.length groups label)
    (hok : (RegexEngine.compile tokens classes groups).ok = true) :
    ∃ p : Pattern, p.toPostfix = tokens ∧ ∀ r, p = some r →
      r.Over classes groups ∧ Regexp.ofPostfix [] tokens = some r := by
  by_cases hnil : tokens = []
  · exact ⟨none, hnil.symm, fun r hr => nomatch hr⟩
  · have hlen := length_le_of_ok hok
    have hnfa : postfixToNfa (acceptBuilder (2 * tokens.length + 1)) tokens =
        postfixLoop (acceptBuilder (2 * tokens.length + 1)) [] tokens := by
      rw [postfixToNfa, if_neg hnil, if_neg (Nat.not_lt.2 hlen)]
    rcases hloop : postfixLoop (acceptBuilder (2 * tokens.length + 1)) [] tokens with ⟨b, start⟩
    rw [hloop] at hnfa
    rw [compile_eq classes groups hnfa, finalizeStates_ok] at hok
    have hok' := of_decide_eq_true (ok_of_precompute hok)
    have hempty : ([] : List Frag).length = ([] : List Regexp).length := rfl
    have hloopok : (postfixLoop (acceptBuilder (2 * tokens.length + 1)) [] tokens).1.errorCode =
        .noError := hloop ▸ hok'
    obtain ⟨r, hr⟩ := ofPostfix_of_postfixLoop hempty hloopok
    refine ⟨some r, Regexp.toPostfix_ofPostfix hr, fun r' hr' => ?_⟩
    cases hr'
    exact ⟨ofPostfix_over ht (fun p hp => absurd hp List.not_mem_nil) hr, hr⟩

end Tokens

namespace PostfixBuilder

/-- The tokens that the parser has made. -/
structure Tidy (b : PostfixBuilder) : Prop where
  tokens : ∀ label ∈ b.postfixRunes, TokenOf b.runeClasses.length b.numCaptures label
  operators : ∀ label ∈ b.operatorStack, label = catenation ∨ label = alternation ∨ label = lParen
  captures : b.numCaptures ≤ maxCaptures
  groups : ∀ g ∈ b.groupStartStack, g.capturing = true → g.captureId < b.numCaptures

/-- The states that differ in what is not a token only. -/
theorem Tidy.congr (h : Tidy b) (htokens : b'.postfixRunes = b.postfixRunes)
    (hclasses : b'.runeClasses = b.runeClasses) (hcaptures : b'.numCaptures = b.numCaptures)
    (hoperators : b'.operatorStack = b.operatorStack)
    (hgroups : b'.groupStartStack = b.groupStartStack) : Tidy b' := by
  constructor
  · rw [htokens, hclasses, hcaptures]
    exact h.tokens
  · rw [hoperators]
    exact h.operators
  · rw [hcaptures]
    exact h.captures
  · rw [hgroups, hcaptures]
    exact h.groups

theorem operator_token {c g : Nat} (h : label = catenation ∨ label = alternation ∨ label = lParen) :
    TokenOf c g label := by
  rcases h with rfl | rfl | rfl
  · exact .operator (by decide)
  · exact .operator (by decide)
  · exact .rune (by decide)

/-- Operators go over to the tokens. -/
theorem Tidy.move (h : Tidy b) (moved : List Nat) (hmoved : ∀ label ∈ moved, label ∈ b.operatorStack)
    (operators : List Nat) (hoperators : ∀ label ∈ operators, label ∈ b.operatorStack) :
    Tidy { b with postfixRunes := b.postfixRunes ++ moved, operatorStack := operators } := by
  refine ⟨?_, fun label hl => h.operators label (hoperators label hl), h.captures, h.groups⟩
  intro label hl
  rcases List.mem_append.1 hl with hl | hl
  · exact h.tokens label hl
  · exact operator_token (h.operators label (hmoved label hl))

theorem Tidy.push (h : Tidy b) (label : Nat)
    (hl : label = catenation ∨ label = alternation ∨ label = lParen) :
    Tidy { b with operatorStack := label :: b.operatorStack } := by
  refine ⟨h.tokens, ?_, h.captures, h.groups⟩
  intro l hmem
  rcases List.mem_cons.1 hmem with rfl | hmem
  · exact hl
  · exact h.operators l hmem

theorem Tidy.append (h : Tidy b) (labels : List Nat)
    (hl : ∀ label ∈ labels, TokenOf b.runeClasses.length b.numCaptures label) :
    Tidy { b with postfixRunes := b.postfixRunes ++ labels } := by
  refine ⟨?_, h.operators, h.captures, h.groups⟩
  intro label hmem
  rcases List.mem_append.1 hmem with hmem | hmem
  · exact h.tokens label hmem
  · exact hl label hmem

theorem Tidy.pushConcat (h : Tidy b) : Tidy b.pushConcat :=
  (h.move (b.operatorStack.takeWhile (· == catenation)) (fun _ hl => (List.takeWhile_prefix _).mem hl)
    (b.operatorStack.dropWhile (· == catenation))
    (fun _ hl => (List.dropWhile_suffix _).mem hl)).push catenation (.inl rfl)

theorem Tidy.popOperators (h : Tidy b) : Tidy b.popOperators :=
  h.move _ (fun _ hl => (List.takeWhile_prefix _).mem hl) _ (fun _ hl => (List.dropWhile_suffix _).mem hl)

theorem Tidy.pushAtom (h : Tidy b) (hl : TokenOf b.runeClasses.length b.numCaptures label) :
    Tidy (b.pushAtom label) :=
  (h.append [label] fun _ hmem => List.mem_singleton.1 hmem ▸ hl).congr rfl rfl rfl rfl rfl

theorem Tidy.emitAtom (h : Tidy b) (hl : TokenOf b.runeClasses.length b.numCaptures label) :
    Tidy (b.emitAtom label) := by
  unfold PostfixBuilder.emitAtom
  split
  · exact h.pushConcat.pushAtom hl
  · exact h.pushAtom hl

theorem Tidy.onPipe (h : Tidy b) : Tidy b.onPipe :=
  (h.popOperators.push alternation (.inr (.inl rfl))).congr rfl rfl rfl rfl rfl

theorem Tidy.setError (h : Tidy b) (code : ErrorCode) : Tidy (b.setError code) := by
  unfold PostfixBuilder.setError
  split
  · exact h.congr rfl rfl rfl rfl rfl
  · exact h

/-- A reference to a class is a token, also where there are too many of them. -/
theorem Tidy.makeClassRef (h : Tidy b) (rc : RuneClass) :
    Tidy (b.makeClassRef rc).1 ∧
      TokenOf (b.makeClassRef rc).1.runeClasses.length (b.makeClassRef rc).1.numCaptures
        (b.makeClassRef rc).2 := by
  unfold PostfixBuilder.makeClassRef
  split
  · rename_i hfull
    refine ⟨h.setError _, ?_⟩
    have hclasses : (b.setError .errorPatternTooLarge).runeClasses = b.runeClasses := by
      unfold PostfixBuilder.setError
      split <;> rfl
    dsimp only
    rw [hclasses]
    exact .classRef (i := 0) (Nat.lt_of_le_of_lt (Nat.zero_le _) hfull) (by decide)
  · rename_i hroom
    have hle : b.runeClasses.length ≤ (b.runeClasses ++ [rc]).length := by simp
    refine ⟨⟨fun label hl => (h.tokens label hl).mono hle (Nat.le_refl _), h.operators, h.captures,
      h.groups⟩, .classRef (by simp) ?_⟩
    have hmax : runeClassBase ≤ runeClassMax := by decide
    omega

section Loop
variable {findCategory : Bytes → Option RuneClass} {mode : SyntaxMode}

theorem Tidy.refs (h : Tidy b) (hrefs : ReflTransGen MakesRef b b') : Tidy b' := by
  induction hrefs with
  | refl => exact h
  | tail _ href ih =>
    obtain ⟨rc, rfl⟩ := href
    exact (ih.makeClassRef rc).1

theorem Tidy.onQuantifier (h : Tidy b) (hgreedy : ∀ c g, TokenOf c g greedyOp)
    (hlazy : ∀ c g, TokenOf c g lazyOp) (hp : b.onQuantifier mode greedyOp lazyOp s = .ok (b', s')) :
    Tidy b' := by
  unfold PostfixBuilder.onQuantifier at hp
  split at hp
  · cases hp
  obtain ⟨⟨b₁, s₁⟩, hsuffix, hp⟩ := bind_eq_ok.1 hp
  have h₁ : Tidy b₁ := by
    unfold PostfixBuilder.parseQuantifierSuffix at hsuffix
    split at hsuffix
    · split at hsuffix
      · cases hsuffix
      · cases hsuffix
        exact (h.append [lazyOp] fun l hl => List.mem_singleton.1 hl ▸ hlazy _ _).congr rfl rfl rfl
          rfl rfl
    · cases hsuffix
      exact (h.append [greedyOp] fun l hl => List.mem_singleton.1 hl ▸ hgreedy _ _).congr rfl rfl
        rfl rfl rfl
  dsimp only at hp
  split at hp
  · cases hp
    exact h₁
  · cases hp

theorem Tidy.onCloser (h : Tidy b) (hlabel : ∀ c g, TokenOf c g label)
    (hp : b.onCloser mode label = .ok b') : Tidy b' := by
  unfold PostfixBuilder.onCloser at hp
  split at hp
  · cases hp
    exact h.pushAtom (hlabel _ _)
  · cases hp

theorem expansion_token {atom : List Nat} (hatom : ∀ label ∈ atom, TokenOf c g label)
    (hlabel : label ∈ expansion atom n m) : TokenOf c g label := by
  have hoperator : ∀ op ∈ [catenation, zeroOrMore, zeroOrOne], TokenOf c g op := by
    intro op hop
    simp only [List.mem_cons, List.not_mem_nil, or_false] at hop
    rcases hop with rfl | rfl | rfl <;> exact .operator (by decide)
  have hcat : ∀ {P : Prop} [Decidable P], label ∈ (if P then [catenation] else []) →
      TokenOf c g label := by
    intro P _ hl
    split at hl
    · exact hoperator label (by simp_all)
    · exact absurd hl List.not_mem_nil
  rcases List.mem_append.1 hlabel with hl | hl
  · obtain ⟨i, -, hl⟩ := List.mem_flatMap.1 hl
    rcases List.mem_append.1 hl with hl | hl
    · exact hatom label hl
    · exact hcat hl
  · cases m with
    | none =>
      rcases List.mem_append.1 hl with hl | hl
      · rcases List.mem_append.1 hl with hl | hl
        · exact hatom label hl
        · exact hoperator label (by simp_all)
      · exact hcat hl
    | some m =>
      obtain ⟨i, -, hl⟩ := List.mem_flatMap.1 hl
      rcases List.mem_append.1 hl with hl | hl
      · rcases List.mem_append.1 hl with hl | hl
        · exact hatom label hl
        · exact hoperator label (by simp_all)
      · exact hcat hl

theorem Tidy.onRange (h : Tidy b) (hp : b.onRange n m s = .ok (b', s')) : Tidy b' := by
  unfold PostfixBuilder.onRange at hp
  split at hp
  · cases hp
  split at hp
  · cases hp
  dsimp only at hp
  split at hp
  · cases hp
  split at hp
  · cases hp
    refine ⟨fun label hl => h.tokens label (List.mem_of_mem_take hl), ?_, h.captures, h.groups⟩
    intro label hl
    dsimp only at hl
    split at hl
    · exact h.operators label (List.mem_of_mem_tail hl)
    · exact h.operators label hl
  split at hp
  · cases hp
  · cases hp
    refine ⟨?_, h.operators, h.captures, h.groups⟩
    intro label hl
    rcases List.mem_append.1 hl with hl | hl
    · exact h.tokens label (List.mem_of_mem_take hl)
    · exact expansion_token (fun l hl => h.tokens l (List.mem_of_mem_drop hl)) hl

theorem rune_token (r : Nat) (h : r < captureGroup) (c g : Nat) : TokenOf c g r := .rune h

theorem Tidy.onOpenBrace (h : Tidy b) (hp : b.onOpenBrace mode s = .ok (b', s')) : Tidy b' := by
  unfold PostfixBuilder.onOpenBrace at hp
  split at hp
  · cases hp
    exact h.pushAtom (rune_token _ (by decide) _ _)
  split at hp
  · cases hp
    exact h.pushConcat.pushAtom (rune_token _ (by decide) _ _)
  split at hp
  · cases hp
  split at hp
  · cases hp
  · exact h.onRange hp

theorem Tidy.ifConcat (h : Tidy b) : Tidy (if b.needConcat then b.pushConcat else b) := by
  split
  · exact h.pushConcat
  · exact h

theorem Tidy.openGroup (h : Tidy b) (hcaptures : capturing = true → b.numCaptures < maxCaptures) :
    Tidy (b.openGroup capturing) := by
  have hoperators := (h.push lParen (.inr (.inr rfl))).operators
  cases capturing with
  | true =>
    have hle : b.numCaptures ≤ b.numCaptures + 1 := Nat.le_succ _
    refine ⟨fun label hl => (h.tokens label hl).mono (Nat.le_refl _) hle, hoperators, hcaptures rfl, ?_⟩
    intro g hg hcapture
    rcases List.mem_cons.1 hg with rfl | hg
    · exact Nat.lt_succ_self _
    · exact Nat.lt_of_lt_of_le (h.groups g hg hcapture) hle
  | false =>
    refine ⟨h.tokens, hoperators, h.captures, ?_⟩
    intro g hg hcapture
    rcases List.mem_cons.1 hg with rfl | hg
    · cases hcapture
    · exact h.groups g hg hcapture

theorem Tidy.onOpenGroup (h : Tidy b) (hp : b.onOpenGroup mode s = .ok (b', s')) : Tidy b' := by
  obtain ⟨capturing, b₁, -, rfl, hcaptures, rfl, -⟩ := onOpenGroup_eq hp
  exact h.ifConcat.openGroup hcaptures

theorem Tidy.onCloseGroup (h : Tidy b) (hp : b.onCloseGroup = .ok b') : Tidy b' := by
  have hpop := h.popOperators
  unfold PostfixBuilder.onCloseGroup at hp
  dsimp only at hp
  generalize b.popOperators = b₁ at hp hpop
  split at hp
  · rename_i hoperators hgroups
    cases hp
    have hgroup := hpop.groups
    have hoperator := hpop.operators
    rw [hgroups] at hgroup
    rw [hoperators] at hoperator
    refine ⟨?_, fun label hl => hoperator label (.tail _ hl), hpop.captures,
      fun g hg => hgroup g (.tail _ hg)⟩
    intro label hl
    dsimp only at hl
    split at hl
    · rename_i hcapturing
      rcases List.mem_append.1 hl with hl | hl
      · exact hpop.tokens label hl
      · cases List.mem_singleton.1 hl
        have hid := hgroup _ (.head _) hcapturing
        exact .group hid (Nat.lt_of_lt_of_le hid hpop.captures)
    · exact hpop.tokens label hl
  · cases hp

theorem Tidy.finalize (h : Tidy b) (hp : b.finalize = .ok b') : Tidy b' := by
  unfold PostfixBuilder.finalize at hp
  dsimp only at hp
  split at hp
  · cases hp
  split at hp
  · cases hp
  split at hp
  · cases hp
  · cases hp
    exact h.popOperators

theorem Tidy.emitRef (h : Tidy b) (rc : RuneClass) (href : b.makeClassRef rc = (b₁, ref)) : Tidy (b₁.emitAtom ref) := by
  have hclass := h.makeClassRef rc
  rw [href] at hclass
  exact hclass.1.emitAtom hclass.2

theorem Tidy.escapes (h : Tidy b) (hp : Escapes b b') : Tidy b' := by
  have hescaped : Tidy { b with escaped := false } := h.congr rfl rfl rfl rfl rfl
  cases hp with
  | classRef rc href => exact hescaped.emitRef rc href
  | rune hr => exact hescaped.emitAtom (.rune hr)
  | boundary => exact hescaped.emitAtom (.operator (by decide))

theorem Tidy.reads (h : Tidy b) (hr : r < captureGroup)
    (hp : Reads findCategory mode b s r b' s') : Tidy b' := by
  cases hp with
  | escape => exact h.congr rfl rfl rfl rfl rfl
  | dot => exact h.emitRef .dot rfl
  | charClass hclass =>
    obtain ⟨b₁, rc, hrefs, href⟩ := parseCharClass_eq hclass
    exact (h.refs hrefs).emitRef rc href
  | start => exact h.emitAtom (.operator (by decide))
  | stop => exact h.emitAtom (.operator (by decide))
  | closer _ hcloser => exact h.onCloser (rune_token _ hr) hcloser
  | brace hbrace => exact h.onOpenBrace hbrace
  | openGroup hgroup => exact h.onOpenGroup hgroup
  | closeGroup hgroup => exact h.onCloseGroup hgroup
  | pipe => exact h.onPipe
  | quantifier hmem hquantifier =>
    simp only [List.mem_cons, Prod.mk.injEq, List.not_mem_nil, or_false] at hmem
    rcases hmem with ⟨-, rfl, rfl⟩ | ⟨-, rfl, rfl⟩ | ⟨-, rfl, rfl⟩
    · exact h.onQuantifier (fun _ _ => .operator (by decide)) (fun _ _ => .operator (by decide))
        hquantifier
    · exact h.onQuantifier (fun _ _ => .operator (by decide)) (fun _ _ => .operator (by decide))
        hquantifier
    · exact h.onQuantifier (fun _ _ => .operator (by decide)) (fun _ _ => .operator (by decide))
        hquantifier
  | literal _ => exact h.emitAtom (.rune hr)

theorem tidy_empty : Tidy {} := by
  constructor
  · intro label hl
    exact absurd hl List.not_mem_nil
  · intro label hl
    exact absurd hl List.not_mem_nil
  · exact Nat.zero_le _
  · intro g hg
    exact absurd hg List.not_mem_nil

theorem tidy_build {fuel : Nat} (hp : build findCategory mode fuel {} s = .ok b) : Tidy b := by
  obtain ⟨b₁, h₁, hfinal⟩ := build_keeps (fun _ _ h hp => h.escapes hp)
    (fun _ _ _ _ _ h hr hp => h.reads hr hp) tidy_empty hp
  exact h₁.finalize hfinal

end Loop

end PostfixBuilder

/-- The constructor, from a pattern in either syntax. -/
def RegexEngine.ofSyntax (findCategory : Bytes → Option RuneClass) (mode : SyntaxMode)
    (pattern : Bytes) : RegexEngine :=
  match regexpToPostfixRunes findCategory mode pattern with
  | .error code => { errorCode := code }
  | .ok b => .compile b.postfixRunes b.runeClasses b.numCaptures

theorem RegexEngine.ofPattern_eq_ofSyntax (findCategory : Bytes → Option RuneClass)
    (pattern : Bytes) :
    RegexEngine.ofPattern findCategory pattern = .ofSyntax findCategory .extended pattern := rfl

namespace RegexEngine
variable {findCategory : Bytes → Option RuneClass} {mode : SyntaxMode} {pattern : Bytes}

/-- What the constructor accepts is compiled from what the parser made. -/
theorem ofSyntax_parsed (hok : (ofSyntax findCategory mode pattern).ok = true) :
    ∃ b, regexpToPostfixRunes findCategory mode pattern = .ok b ∧ b.Tidy ∧
      ofSyntax findCategory mode pattern = .compile b.postfixRunes b.runeClasses b.numCaptures := by
  unfold ofSyntax at hok ⊢
  cases hb : regexpToPostfixRunes findCategory mode pattern with
  | error code =>
    rw [hb] at hok
    have hcode : code = .noError := of_decide_eq_true hok
    rw [hcode] at hb
    exact absurd hb (PostfixBuilder.proper_build _ _ _)
  | ok b => exact ⟨b, rfl, PostfixBuilder.tidy_build hb, rfl⟩

/-- What the constructor accepts is compiled from the tokens of a pattern. -/
theorem ofSyntax_pattern (hok : (ofSyntax findCategory mode pattern).ok = true) :
    ∃ (p : Pattern) (classes : List RuneClass) (n : Nat),
      ofSyntax findCategory mode pattern = .compile p.toPostfix classes n ∧
        ∀ r, p = some r → r.Over classes n := by
  obtain ⟨b, -, htidy, hcompile⟩ := ofSyntax_parsed hok
  rw [hcompile] at hok
  obtain ⟨p, hp, hover⟩ := exists_pattern htidy.tokens hok
  exact ⟨p, b.runeClasses, b.numCaptures, by rw [hp, hcompile], fun r hr => (hover r hr).1⟩

end RegexEngine

end Trieste.Regex
