import Trieste.Regex.Accepted

namespace Trieste.Regex
set_option autoImplicit true
open Library Relation

/-- Decimal digits. -/
structure Numeral where
  digits : Bytes
  ne_nil : digits ≠ []
  isDigit : ∀ c ∈ digits, isAsciiDigit c = true

/-- The natural number that the digits denote. -/
def Numeral.value (n : Numeral) : Nat :=
  n.digits.foldl (fun k c => k * 10 + (c - '0'.toUInt8).toNat) 0

/-- A range quantifier: `{n}`, `{n,}` or `{n,m}`. -/
inductive Counts
  | exactly (n : Numeral)
  | atLeast (n : Numeral)
  | between (n m : Numeral)

namespace Counts

/-- The text of a range quantifier, after its `{`. -/
def body : Counts → Bytes
  | exactly n => n.digits ++ ['}'.toUInt8]
  | atLeast n => n.digits ++ [','.toUInt8, '}'.toUInt8]
  | between n m => n.digits ++ ','.toUInt8 :: (m.digits ++ ['}'.toUInt8])

def text (counts : Counts) : Bytes := '{'.toUInt8 :: counts.body

def lower : Counts → Nat
  | exactly n | atLeast n | between n _ => n.value

def upper : Counts → Option Nat
  | exactly n => some n.value
  | atLeast _ => none
  | between _ m => some m.value

end Counts

/-- Both counts are at most the limit, and the second one is at least the first one. -/
def InBounds (n : Nat) (m : Option Nat) : Prop :=
  n ≤ maxRepetition ∧ ∀ k, m = some k → k ≤ maxRepetition ∧ n ≤ k

/-- A natural number as a `size_t`. -/
def wrap (n : Nat) : Nat := n % 2 ^ 64

namespace PostfixBuilder

theorem parseCount_eq (s : Bytes) : parseCount s =
    wrap ((s.takeWhile isAsciiDigit).foldl (fun k c => k * 10 + (c - '0'.toUInt8).toNat) 0) := by
  show List.foldl _ (wrap 0) _ = _
  apply List.foldl_hom wrap
  intro k c
  unfold wrap
  omega

theorem takeWhile_digits (n : Numeral) (h : isAsciiDigit c = false) (s : Bytes) :
    (n.digits ++ c :: s).takeWhile isAsciiDigit = n.digits := by
  rw [List.takeWhile_append_of_pos n.isDigit, List.takeWhile_cons_of_neg, List.append_nil]
  rw [h]
  exact Bool.false_ne_true

theorem dropWhile_digits (n : Numeral) (h : isAsciiDigit c = false) (s : Bytes) :
    (n.digits ++ c :: s).dropWhile isAsciiDigit = c :: s := by
  rw [List.dropWhile_append_of_pos n.isDigit, List.dropWhile_cons_of_neg]
  rw [h]
  exact Bool.false_ne_true

theorem parseCount_digits (n : Numeral) (h : isAsciiDigit c = false) (s : Bytes) :
    parseCount (n.digits ++ c :: s) = wrap n.value := by
  rw [parseCount_eq, takeWhile_digits n h, Numeral.value]

theorem isAsciiDigitAt_digits (n : Numeral) (s : Bytes) : isAsciiDigitAt (n.digits ++ s) = true := by
  obtain ⟨c, cs, hdigits⟩ := List.exists_cons_of_ne_nil n.ne_nil
  rw [hdigits]
  exact n.isDigit c (hdigits ▸ .head _)

theorem parseCounts_body (counts : Counts) :
    parseCounts counts.body = some (wrap counts.lower, counts.upper.map wrap, []) := by
  have hclose : isAsciiDigit '}'.toUInt8 = false := by decide
  have hcomma : isAsciiDigit ','.toUInt8 = false := by decide
  unfold parseCounts
  cases counts with
  | exactly n =>
    rw [Counts.body, isAsciiDigitAt_digits, parseCount_digits n hclose, dropWhile_digits n hclose]
    rfl
  | atLeast n =>
    rw [Counts.body, isAsciiDigitAt_digits, parseCount_digits n hcomma, dropWhile_digits n hcomma]
    rfl
  | between n m =>
    rw [Counts.body, isAsciiDigitAt_digits, parseCount_digits n hcomma, dropWhile_digits n hcomma]
    have hdigit : isAsciiDigitAt (m.digits ++ ['}'.toUInt8]) = true := isAsciiDigitAt_digits m _
    have hstarts : startsWithChar (','.toUInt8 :: (m.digits ++ ['}'.toUInt8])) ',' = true := rfl
    dsimp only
    rw [hstarts, List.tail_cons, hdigit, parseCount_digits m hclose, dropWhile_digits m hclose]
    rfl

section Reads
variable {findCategory : Bytes → Option RuneClass} {mode : SyntaxMode} {b : PostfixBuilder}
  {counts : Counts}

def Loops (findCategory : Bytes → Option RuneClass) (mode : SyntaxMode)
    (x y : PostfixBuilder × Bytes) : Prop :=
  x.2 ≠ [] ∧ (if x.1.escaped then onEscape findCategory mode x.1 (takeRune x.2).1 (takeRune x.2).2
    else onRune findCategory mode x.1 (takeRune x.2).1 (takeRune x.2).2) = .ok y

theorem build_of_loops {fuel : Nat} (h : Loops findCategory mode x y) (hfuel : x.2.length ≤ fuel) :
    ∃ k, y.2.length ≤ k ∧ build findCategory mode fuel x.1 x.2 = build findCategory mode k y.1 y.2 := by
  obtain ⟨hne, hstep⟩ := h
  have hlen := length_takeRune_lt hne
  cases fuel with
  | zero => exact absurd (List.eq_nil_of_length_eq_zero (Nat.le_zero.1 hfuel)) hne
  | succ k =>
    rw [build, if_neg hne]
    dsimp only
    split at hstep
    · rename_i hescaped
      have hshort := onEscape_length hstep
      rw [if_pos hescaped, hstep]
      exact ⟨k, by omega, rfl⟩
    · rename_i hescaped
      have hshort := (reads_of_onRune hstep).length_le
      rw [if_neg hescaped, hstep]
      exact ⟨k, by omega, rfl⟩

theorem build_of_run {fuel : Nat} (h : ReflTransGen (Loops findCategory mode) x y)
    (hfuel : x.2.length ≤ fuel) :
    ∃ k, y.2.length ≤ k ∧ build findCategory mode fuel x.1 x.2 = build findCategory mode k y.1 y.2 := by
  induction h with
  | refl => exact ⟨fuel, hfuel, rfl⟩
  | tail _ hstep ih =>
    obtain ⟨k, hk, hbuild⟩ := ih
    obtain ⟨k', hk', hbuild'⟩ := build_of_loops hstep hk
    exact ⟨k', hk', hbuild.trans hbuild'⟩

/-- From the start of a pattern the parser reads an atom that has no quantifier, up to the rest. -/
structure ReadsAtom (findCategory : Bytes → Option RuneClass) (mode : SyntaxMode) (atom rest : Bytes)
    (b : PostfixBuilder) : Prop where
  reads : ReflTransGen (Loops findCategory mode) ({}, atom ++ rest) (b, rest)
  escaped : b.escaped = false
  needConcat : b.needConcat = true
  atomIsQuantified : b.atomIsQuantified = false
  atomStart : b.atomStart = 0
  operatorStack : b.operatorStack = []

/-- What the parser makes of an atom fits when it is repeated. -/
def Fits (b : PostfixBuilder) (n : Nat) (m : Option Nat) : Prop :=
  m.getD (n + 1) * (b.postfixRunes.length + 2) ≤ maxPostfixSize ∧
    (RegexEngine.compile (expansion b.postfixRunes n m) b.runeClasses b.numCaptures).ok = true

theorem onOpenBrace_counts (h : ReadsAtom findCategory mode atom counts.text b) :
    b.onOpenBrace mode counts.body = b.onRange (wrap counts.lower) (counts.upper.map wrap) [] := by
  have hcloser : b.canEmitStandaloneCloser mode = false := by
    rw [canEmitStandaloneCloser, h.needConcat]
    rfl
  have hdigit : isAsciiDigitAt counts.body = true := by
    cases counts with
    | exactly n | atLeast n | between n _ => exact isAsciiDigitAt_digits n _
  have hliteral : b.isLiteralBraceAfterEscape mode counts.body = false := by
    rw [isLiteralBraceAfterEscape, hdigit]
    simp
  rw [onOpenBrace, hcloser, hliteral, h.atomIsQuantified, parseCounts_body]
  rfl

theorem popOperators_nil (h : b.operatorStack = []) : b.popOperators = b := by
  cases b
  cases h
  simp [popOperators]

theorem inBounds_iff (n : Nat) (m : Option Nat) : InBounds n m ↔
    ¬ (maxRepetition < n ∨ maxRepetition < m.getD 0) ∧ ¬ m.any (· < n) = true := by
  cases m with
  | none => simp [InBounds]
  | some k => simp [InBounds, and_assoc]

/-- The state behind a range quantifier of an atom at the start. -/
def repeated (b : PostfixBuilder) (n : Nat) (m : Option Nat) : PostfixBuilder :=
  { b with
    postfixRunes := expansion b.postfixRunes n m
    needConcat := if n = 0 ∧ m = some 0 then b.needConcatBeforeAtom else true
    atomIsQuantified := true }

theorem onRange_iff (hstart : b.atomStart = 0) (hoperators : b.operatorStack = []) (s : Bytes) :
    b.onRange n m s = .ok (b', s') ↔ InBounds n m ∧
      m.getD (n + 1) * (b.postfixRunes.length + 2) ≤ maxPostfixSize ∧
      (expansion b.postfixRunes n m).length ≤ maxPostfixSize ∧ b' = b.repeated n m ∧ s' = s := by
  rw [inBounds_iff]
  unfold onRange repeated
  dsimp only
  rw [hstart, List.take_zero, List.drop_zero, Nat.zero_add, List.nil_append, hoperators, List.tail_nil,
    ite_self]
  by_cases hlimit : maxRepetition < n ∨ maxRepetition < m.getD 0
  · rw [if_pos hlimit]
    exact iff_of_false (fun h => nomatch h) fun h => h.1.1 hlimit
  rw [if_neg hlimit]
  by_cases horder : m.any (· < n) = true
  · rw [if_pos horder]
    exact iff_of_false (fun h => nomatch h) fun h => h.1.2 horder
  rw [if_neg horder]
  by_cases hsize : maxPostfixSize < m.getD (n + 1) * (b.postfixRunes.length + 2)
  · rw [if_pos hsize]
    exact iff_of_false (fun h => nomatch h) fun h => absurd hsize (Nat.not_lt.2 h.2.1)
  rw [if_neg hsize, and_iff_right (And.intro hlimit horder), and_iff_right (Nat.not_lt.1 hsize)]
  by_cases hzero : n = 0 ∧ m = some 0
  · have hnil : expansion b.postfixRunes n m = [] := by
      rw [hzero.1, hzero.2]
      rfl
    rw [if_pos hzero, if_pos hzero, hnil, List.length_nil, and_iff_right (Nat.zero_le _),
      Except.ok.injEq, Prod.mk.injEq]
    exact and_congr eq_comm eq_comm
  rw [if_neg hzero, if_neg hzero]
  by_cases hlength : maxPostfixSize < (expansion b.postfixRunes n m).length
  · rw [if_pos hlength]
    exact iff_of_false (fun h => nomatch h) fun h => absurd hlength (Nat.not_lt.2 h.1)
  · rw [if_neg hlength, and_iff_right (Nat.not_lt.1 hlength), Except.ok.injEq, Prod.mk.injEq]
    exact and_congr eq_comm eq_comm

theorem finalize_iff (hoperators : b.operatorStack = []) (hescaped : b.escaped = false) :
    b.finalize = .ok b' ↔ b.postfixRunes.length ≤ maxPostfixSize ∧ b' = b := by
  unfold finalize
  dsimp only
  rw [popOperators_nil hoperators, hescaped, if_neg (not_not_intro hoperators),
    if_neg Bool.false_ne_true]
  by_cases hlength : maxPostfixSize < b.postfixRunes.length
  · rw [if_pos hlength]
    exact iff_of_false (fun h => nomatch h) fun h => absurd hlength (Nat.not_lt.2 h.1)
  · rw [if_neg hlength, and_iff_right (Nat.not_lt.1 hlength), Except.ok.injEq]
    exact eq_comm

theorem build_counts (h : ReadsAtom findCategory mode atom counts.text b) :
    regexpToPostfixRunes findCategory mode (atom ++ counts.text) = .ok b' ↔
      InBounds (wrap counts.lower) (counts.upper.map wrap) ∧
      (counts.upper.map wrap).getD (wrap counts.lower + 1) * (b.postfixRunes.length + 2) ≤
        maxPostfixSize ∧
      (expansion b.postfixRunes (wrap counts.lower) (counts.upper.map wrap)).length ≤
        maxPostfixSize ∧
      b' = b.repeated (wrap counts.lower) (counts.upper.map wrap) := by
  obtain ⟨fuel, hfuel, hbuild⟩ := build_of_run h.reads (Nat.le_refl _)
  obtain ⟨fuel, rfl⟩ : ∃ k, fuel = k + 1 :=
    Nat.exists_eq_succ_of_ne_zero fun hzero => absurd (hzero ▸ hfuel) (Nat.not_succ_le_zero _)
  have hrune : takeRune counts.text = ('{'.toNat, counts.body) := takeRune_ascii _ (by decide) _
  have hstep : onRune findCategory mode b '{'.toNat counts.body = b.onOpenBrace mode counts.body := rfl
  have hnil : counts.text ≠ [] := List.cons_ne_nil _ _
  rw [regexpToPostfixRunes]
  dsimp only at hbuild
  rw [hbuild, build, if_neg hnil, hrune]
  dsimp only
  rw [h.escaped, if_neg Bool.false_ne_true, hstep, onOpenBrace_counts h, bind_eq_ok]
  generalize wrap counts.lower = n
  generalize counts.upper.map wrap = m
  have hend : ∀ b : PostfixBuilder, build findCategory mode fuel b [] = b.finalize := by
    intro b
    cases fuel with
    | zero => rfl
    | succ fuel => rfl
  have hfinal : (b.repeated n m).finalize = .ok b' ↔
      (b.repeated n m).postfixRunes.length ≤ maxPostfixSize ∧ b' = b.repeated n m :=
    finalize_iff h.operatorStack h.escaped
  constructor
  · intro hp
    obtain ⟨x, hrange, hp⟩ := hp
    have hrange : b.onRange n m [] = .ok (x.1, x.2) := hrange
    obtain ⟨hbounds, hcopies, hlength, hb, hs⟩ :=
      (onRange_iff h.atomStart h.operatorStack []).1 hrange
    rw [hb, hs, hend] at hp
    exact ⟨hbounds, hcopies, hlength, (hfinal.1 hp).2⟩
  · intro hp
    obtain ⟨hbounds, hcopies, hlength, rfl⟩ := hp
    refine ⟨(b.repeated n m, []), ?_, ?_⟩
    · exact (onRange_iff h.atomStart h.operatorStack []).2 ⟨hbounds, hcopies, hlength, rfl, rfl⟩
    · exact (hend _).trans (hfinal.2 ⟨hlength, rfl⟩)

end Reads
end PostfixBuilder

open PostfixBuilder

section Counts
variable {findCategory : Bytes → Option RuneClass} {mode : SyntaxMode} {atom : Bytes} {counts : Counts}
  {b : PostfixBuilder}

/-- The constructor accepts the repeated atom where its counts are allowed as `size_t`s and what they
stand for fits. -/
theorem accepts_counts (h : ReadsAtom findCategory mode atom counts.text b) :
    (RegexEngine.ofSyntax findCategory mode (atom ++ counts.text)).ok = true ↔
      InBounds (wrap counts.lower) (counts.upper.map wrap) ∧
        b.Fits (wrap counts.lower) (counts.upper.map wrap) := by
  constructor
  · intro hok
    obtain ⟨b', hp, -, hcompile⟩ := RegexEngine.ofSyntax_parsed hok
    obtain ⟨hbounds, hcopies, -, rfl⟩ := (build_counts h).1 hp
    rw [hcompile] at hok
    exact ⟨hbounds, hcopies, hok⟩
  · intro hallowed
    obtain ⟨hbounds, hcopies, hcompile⟩ := hallowed
    have hp := (build_counts h).2 ⟨hbounds, hcopies, RegexEngine.length_le_of_ok hcompile, rfl⟩
    unfold RegexEngine.ofSyntax
    rw [hp]
    exact hcompile

/-- Counts that a `size_t` holds are in bounds wherever the pattern is accepted. -/
theorem inBounds_of_small (h : ReadsAtom findCategory mode atom counts.text b)
    (hlower : counts.lower < 2 ^ 64) (hupper : ∀ m ∈ counts.upper, m < 2 ^ 64)
    (hok : (RegexEngine.ofSyntax findCategory mode (atom ++ counts.text)).ok = true) :
    InBounds counts.lower counts.upper := by
  have hbounds := ((accepts_counts h).1 hok).1
  have hmap : counts.upper.map wrap = counts.upper := by
    cases hm : counts.upper with
    | none => rfl
    | some m => exact congrArg some (Nat.mod_eq_of_lt (hupper m hm))
  rwa [hmap, wrap, Nat.mod_eq_of_lt hlower] at hbounds

/-- The bounds hold of every repeated atom that is accepted, except where a count that is not allowed
is so as a `size_t` and what it then stands for fits. -/
theorem inBounds_of_accepts_iff (h : ReadsAtom findCategory mode atom counts.text b) :
    ((RegexEngine.ofSyntax findCategory mode (atom ++ counts.text)).ok = true →
      InBounds counts.lower counts.upper) ↔
    InBounds counts.lower counts.upper ∨
      ¬ InBounds (wrap counts.lower) (counts.upper.map wrap) ∨
      ¬ b.Fits (wrap counts.lower) (counts.upper.map wrap) := by
  rw [accepts_counts h, ← Classical.not_and_iff_not_or_not]
  tauto

end Counts

theorem readsAtom_literal (findCategory : Bytes → Option RuneClass) (mode : SyntaxMode) {c : UInt8}
    (hc : c.toNat < 128) (hliteral : c.toNat ∉ [backslash, '.'.toNat, '['.toNat, '^'.toNat, '$'.toNat,
      ']'.toNat, '{'.toNat, '}'.toNat, lParen, rParen, pipe, asterisk, question, plus])
    (rest : Bytes) :
    ReadsAtom findCategory mode [c] rest (({} : PostfixBuilder).pushAtom c.toNat) where
  reads := by
    have hrune : takeRune (c :: rest) = (c.toNat, rest) := takeRune_ascii c hc rest
    have hstep : onRune findCategory mode {} c.toNat rest =
        .ok (({} : PostfixBuilder).pushAtom c.toNat, rest) := by
      simp only [List.mem_cons, List.not_mem_nil, or_false, not_or] at hliteral
      simp only [onRune, hliteral, if_false]
      rfl
    apply ReflTransGen.single
    refine ⟨List.cons_ne_nil c rest, ?_⟩
    rw [List.singleton_append, hrune]
    exact hstep
  escaped := rfl
  needConcat := rfl
  atomIsQuantified := rfl
  atomStart := rfl
  operatorStack := rfl

/-- The numeral `2`. -/
def two : Numeral := ⟨[0x32], List.cons_ne_nil _ _, fun c hc => by rw [List.mem_singleton.1 hc]; rfl⟩

/-- The numeral `18446744073709551617`, one more than the size of a `size_t`. -/
def beyond : Numeral :=
  ⟨"18446744073709551617".toList.map Char.toUInt8, by decide +kernel, by decide +kernel⟩

theorem inBounds_of_accepts_two :
    (RegexEngine.ofSyntax (fun _ => none) .extended ([0x61] ++ (Counts.exactly two).text)).ok =
      true ∧ InBounds 2 (some 2) := by
  have hreads := readsAtom_literal (fun _ => none) .extended (c := 0x61) (by decide) (by decide)
    (Counts.exactly two).text
  have hbounds : InBounds 2 (some 2) := ⟨by decide, fun k hk => by cases hk; decide⟩
  have hok : (RegexEngine.ofSyntax (fun _ => none) .extended
      ([0x61] ++ (Counts.exactly two).text)).ok = true := by decide +kernel
  exact ⟨hok, (inBounds_of_accepts_iff hreads).2 (.inl hbounds) hok⟩

/-- A count that is not allowed is accepted. -/
theorem accepts_beyond :
    (RegexEngine.ofSyntax (fun _ => none) .extended ([0x61] ++ (Counts.exactly beyond).text)).ok =
      true ∧ ¬ InBounds (Counts.exactly beyond).lower (Counts.exactly beyond).upper := by
  refine ⟨by decide +kernel, ?_⟩
  intro h
  exact absurd h.1 (by decide +kernel)

end Trieste.Regex
