import Trieste.Regex.Roles
import Trieste.Regex.Accepted

namespace Trieste.Regex
set_option autoImplicit true
open Library Relation

/-- What follows the next `}`. -/
def behindBrace (s : Bytes) : Bytes := (s.dropWhile (· != '}'.toUInt8)).tail

def behindEscape (r : Nat) (s : Bytes) : Bytes :=
  if r = 'p'.toNat ∨ r = 'P'.toNat then behindBrace s else if r = 'x'.toNat then s.drop 2 else s

/-- The class that a text is in ends, and the rest follows it. -/
inductive ClassEnds : Bytes → Bytes → Prop
  | close : ClassEnds (']'.toUInt8 :: s) s
  | escape (h : ClassEnds (behindEscape (takeRune s).1 (takeRune s).2) rest) :
      ClassEnds ('\\'.toUInt8 :: s) rest
  | rune (hclose : c ≠ ']'.toUInt8) (hescape : c ≠ '\\'.toUInt8)
      (h : ClassEnds (takeRune (c :: s)).2 rest) : ClassEnds (c :: s) rest

/-- An element of a pattern, with its first rune and what follows it: an escape, a class, a range
quantifier or another rune. -/
inductive Element (s : Bytes) : Nat → Bytes → Prop
  | escape (hr : (takeRune s).1 = backslash) : Element s backslash
      (behindEscape (takeRune (takeRune s).2).1 (takeRune (takeRune s).2).2)
  | charClass (hr : (takeRune s).1 = '['.toNat)
      (h : ClassEnds (if startsWithChar (takeRune s).2 '^' then (takeRune s).2.tail
        else (takeRune s).2) rest) : Element s '['.toNat rest
  | range (hr : (takeRune s).1 = '{'.toNat) : Element s '{'.toNat (behindBrace (takeRune s).2)
  | rune (hr : (takeRune s).1 ∉ [backslash, '['.toNat, '{'.toNat]) :
      Element s (takeRune s).1 (takeRune s).2

/-- A brace stands where an alternative starts, outside classes and escapes. The flag says that the
text starts an alternative. -/
inductive BraceFirst : Bool → Bytes → Prop
  | here (hs : s ≠ []) (hr : (takeRune s).1 = '{'.toNat) : BraceFirst true s
  | next (hs : s ≠ []) (h : Element s r rest) (hrest : BraceFirst (r == pipe) rest) :
      BraceFirst starts s

theorem ClassEnds.unique (h : ClassEnds s rest) (h' : ClassEnds s rest') : rest = rest' := by
  induction h with
  | close =>
    cases h' with
    | close => rfl
    | rune hclose => exact absurd rfl hclose
  | escape _ ih =>
    cases h' with
    | escape h' => exact ih h'
    | rune _ hescape => exact absurd rfl hescape
  | rune hclose hescape _ ih =>
    cases h' with
    | close => exact absurd rfl hclose
    | escape => exact absurd rfl hescape
    | rune _ _ h' => exact ih h'

theorem Element.head (h : Element s r rest) : (takeRune s).1 = r := by
  cases h with
  | escape hr => exact hr
  | charClass hr _ => exact hr
  | range hr => exact hr
  | rune _ => rfl

theorem Element.unique (h : Element s r rest) (h' : Element s r' rest') : r = r' ∧ rest = rest' := by
  refine ⟨h.head.symm.trans h'.head, ?_⟩
  cases h with
  | escape hr =>
    cases h' with
    | escape => rfl
    | charClass hr' => exact absurd (hr.symm.trans hr') (by decide)
    | range hr' => exact absurd (hr.symm.trans hr') (by decide)
    | rune hr' => exact absurd (hr ▸ .head _) hr'
  | charClass hr h =>
    cases h' with
    | escape hr' => exact absurd (hr.symm.trans hr') (by decide)
    | charClass _ h' => exact h.unique h'
    | range hr' => exact absurd (hr.symm.trans hr') (by decide)
    | rune hr' => exact absurd (hr ▸ .tail _ (.head _)) hr'
  | range hr =>
    cases h' with
    | escape hr' => exact absurd (hr.symm.trans hr') (by decide)
    | charClass hr' => exact absurd (hr.symm.trans hr') (by decide)
    | range => rfl
    | rune hr' => exact absurd (hr ▸ .tail _ (.tail _ (.head _))) hr'
  | rune hr =>
    cases h' with
    | escape hr' => exact absurd (hr' ▸ .head _) hr
    | charClass hr' => exact absurd (hr' ▸ .tail _ (.head _)) hr
    | range hr' => exact absurd (hr' ▸ .tail _ (.tail _ (.head _))) hr
    | rune _ => rfl

theorem braceFirst_iff (hs : s ≠ []) (h : Element s r rest) (hr : starts = true → r ≠ '{'.toNat) :
    BraceFirst starts s ↔ BraceFirst (r == pipe) rest := by
  constructor
  · intro hfirst
    cases hfirst with
    | here _ hbrace => exact absurd (h.head.symm.trans hbrace) (hr rfl)
    | next _ h' hrest =>
      obtain ⟨rfl, rfl⟩ := h.unique h'
      exact hrest
  · exact fun hrest => .next hs h hrest

theorem not_braceFirst_nil : ¬ BraceFirst starts [] := by
  intro h
  cases h with
  | here hs => exact hs rfl
  | next hs => exact hs rfl

theorem startsWithChar_eq (h : startsWithChar s c = true) : s = c.toUInt8 :: s.tail := by
  cases s with
  | nil => cases h
  | cons d s =>
    have hd : d = c.toUInt8 := by simpa [startsWithChar] using h
    rw [hd]
    rfl

theorem behindBrace_cons (h : c ≠ '}'.toUInt8) (s : Bytes) : behindBrace (c :: s) = behindBrace s := by
  have hne : (c != '}'.toUInt8) = true := bne_iff_ne.2 h
  rw [behindBrace, behindBrace, List.dropWhile_cons, if_pos hne]

theorem behindBrace_digits (s : Bytes) : behindBrace (s.dropWhile isAsciiDigit) = behindBrace s := by
  induction s with
  | nil => rfl
  | cons c s ih =>
    cases hc : isAsciiDigit c with
    | true =>
      have hne : c ≠ '}'.toUInt8 := by
        rintro rfl
        exact absurd hc (by decide)
      rw [List.dropWhile_cons_of_pos hc, ih, behindBrace_cons hne]
    | false => rw [List.dropWhile_cons_of_neg (by rw [hc]; exact Bool.false_ne_true)]

namespace PostfixBuilder
variable {findCategory : Bytes → Option RuneClass} {b b' : PostfixBuilder}

theorem parseCounts_rest (h : parseCounts s = some (n, m, s')) : s' = behindBrace s := by
  have hclose : ∀ t : Bytes, startsWithChar t '}' = true → t.tail = behindBrace t := by
    intro t ht
    rw [startsWithChar_eq ht]
    rfl
  unfold parseCounts at h
  split at h
  · cases h
  dsimp only at h
  rw [← behindBrace_digits s]
  generalize s.dropWhile isAsciiDigit = t at h ⊢
  split at h
  · rename_i hcomma
    have htail : behindBrace t = behindBrace t.tail := by
      conv => lhs; rw [startsWithChar_eq hcomma]
      exact behindBrace_cons (by decide) _
    rw [htail]
    split at h
    · rw [← behindBrace_digits]
      split at h
      · rename_i hbrace
        cases h
        exact hclose _ hbrace
      · cases h
    · split at h
      · rename_i hbrace
        cases h
        exact hclose _ hbrace
      · cases h
  · split at h
    · rename_i hbrace
      cases h
      exact hclose _ hbrace
    · cases h

theorem parseHexDigits_rest {count out : Nat} (h : parseHexDigits count out s = some (value, s')) :
    s' = s.drop count := by
  induction count generalizing out s with
  | zero =>
    cases h
    rfl
  | succ count ih =>
    cases s with
    | nil => cases h
    | cons c s =>
      obtain ⟨digit, -, h⟩ := Option.bind_eq_some_iff.1 h
      exact ih h

theorem parseUnicodeCategory_rest
    (hp : parseUnicodeCategory findCategory b s negate = .ok (b', ref, s')) : s' = behindBrace s := by
  unfold parseUnicodeCategory at hp
  split at hp
  · cases hp
  rename_i c s
  split at hp
  · cases hp
  rename_i hopen
  have hopen : c = '{'.toUInt8 := Decidable.not_not.1 hopen
  have hne : c ≠ '}'.toUInt8 := by
    rw [hopen]
    decide
  rw [behindBrace_cons hne, behindBrace]
  dsimp only at hp
  split at hp
  · cases hp
  rename_i hdrop
  split at hp
  · cases hp
  split at hp
  · cases hp
  · cases hp
    rw [hdrop]
    rfl

theorem behindEscape_classEscape (h : isClassEscape r = true) (s : Bytes) : behindEscape r s = s := by
  have hne : r ≠ 'p'.toNat ∧ r ≠ 'P'.toNat ∧ r ≠ 'x'.toNat := by
    refine ⟨?_, ?_, ?_⟩
    all_goals
      rintro rfl
      exact absurd h (by decide)
  rw [behindEscape, if_neg (not_or.2 ⟨hne.1, hne.2.1⟩), if_neg hne.2.2]

theorem classEscape_rest (h : classEscape .iregexpStrict r s = some (ch, s')) :
    s' = behindEscape r s := by
  unfold classEscape at h
  split at h
  · rename_i hx
    rw [parseHexDigits_rest h, behindEscape, hx, if_neg (by decide), if_pos rfl]
  split at h
  · rename_i hescape
    cases h
    exact (behindEscape_classEscape hescape _).symm
  · cases h

theorem rangeEnd_ends (hc : c ≠ ']'.toUInt8) (h : rangeEnd .iregexpStrict (c :: s) = some (hi, s'))
    (hends : ClassEnds s' t) : ClassEnds (c :: s) t := by
  unfold rangeEnd at h
  dsimp only at h
  split at h
  · rename_i hescape
    split at h
    · cases h
    · rw [hescape]
      exact .escape (classEscape_rest h ▸ hends)
  · rename_i hescape
    injection h with h
    have hrest : (takeRune (c :: s)).2 = s' := congrArg Prod.snd h
    exact .rune hc hescape (hrest ▸ hends)

theorem addRunes_ends (hp : addRunes .iregexpStrict b rc ch s = .ok (rc', s'))
    (hends : ClassEnds s' t) : ClassEnds s t := by
  unfold addRunes at hp
  split at hp
  · split at hp
    · rename_i hdash
      split at hp
      · cases hp
      rename_i hend
      split at hp
      · cases hp
      · cases hp
        rw [hdash.1]
        apply ClassEnds.rune (by decide) (by decide)
        rw [takeRune_ascii _ (by decide)]
        exact rangeEnd_ends hdash.2 hend hends
    · cases hp
      exact hends
  · cases hp
    exact hends

theorem classItem_ends (hc : c ≠ ']'.toUInt8)
    (hp : classItem findCategory .iregexpStrict b rc c s = .ok (b', rc', s'))
    (hends : ClassEnds s' t) : ClassEnds (c :: s) t := by
  unfold classItem at hp
  split at hp
  · cases hp
  split at hp
  · rename_i hescape
    rw [hescape]
    apply ClassEnds.escape
    split at hp
    · cases hp
    dsimp only at hp
    split at hp
    · rename_i hcategory
      obtain ⟨⟨b₁, ref, s₁⟩, hparsed, hp⟩ := bind_eq_ok.1 hp
      dsimp only at hp
      split at hp
      · cases hp
        rw [behindEscape, if_pos hcategory, ← parseUnicodeCategory_rest hparsed]
        exact hends
      · cases hp
    split at hp
    · cases hp
    split at hp
    · cases hp
    · rename_i hrune
      obtain ⟨result, hadd, hp⟩ := map_eq_ok.1 hp
      cases hp
      rw [← classEscape_rest hrune]
      exact addRunes_ends hadd hends
  · rename_i hescape
    obtain ⟨result, hadd, hp⟩ := map_eq_ok.1 hp
    cases hp
    exact .rune hc hescape (addRunes_ends hadd hends)

theorem classItems_ends {fuel : Nat} (hfuel : s.length ≤ fuel)
    (hp : classItems findCategory .iregexpStrict fuel b rc s = .ok (b', rc', s')) (hs : s' ≠ []) :
    ClassEnds s s'.tail := by
  induction fuel generalizing b rc s with
  | zero =>
    cases hp
    exact absurd (List.eq_nil_of_length_eq_zero (Nat.le_zero.1 hfuel)) hs
  | succ fuel ih =>
    unfold classItems at hp
    split at hp
    · cases hp
      exact absurd rfl hs
    split at hp
    · rename_i hclose
      cases hp
      rw [hclose]
      exact .close
    · rename_i hclose
      obtain ⟨⟨b₁, rc₁, s₁⟩, hitem, hp⟩ := bind_eq_ok.1 hp
      have hlen := classItem_length hitem
      rw [List.length_cons] at hfuel
      exact classItem_ends hclose hitem (ih (hlen.trans (Nat.le_of_succ_le_succ hfuel)) hp)

theorem parseCharClass_ends
    (hp : parseCharClass findCategory .iregexpStrict b s = .ok (b', ref, s')) :
    ClassEnds (if startsWithChar s '^' then s.tail else s) s' := by
  unfold parseCharClass at hp
  dsimp only at hp
  generalize (if startsWithChar s '^' = true then s.tail else s) = s₀ at hp ⊢
  split at hp
  · cases hp
  obtain ⟨⟨b₁, rc₁, s₁⟩, hitems, hp⟩ := bind_eq_ok.1 hp
  dsimp only at hp
  generalize (if startsWithChar s '^' = true then rc₁.finalize.complement else rc₁.finalize) = rc
    at hp
  split at hp
  · cases hp
  rename_i hne
  split at hp
  · cases hp
    exact classItems_ends (Nat.le_refl _) hitems hne
  · cases hp

theorem onEscape_rest (hp : onEscape findCategory .iregexpStrict b r s = .ok (b', s')) :
    s' = behindEscape r s := by
  unfold onEscape at hp
  dsimp only at hp
  split at hp
  · rename_i hcategory
    obtain ⟨⟨b₁, ref, s₁⟩, hparsed, hp⟩ := bind_eq_ok.1 hp
    dsimp only at hp
    split at hp
    · cases hp
      rw [behindEscape, if_pos hcategory]
      exact parseUnicodeCategory_rest hparsed
    · cases hp
  rename_i hcategory
  split at hp
  · cases hp
  split at hp
  · rename_i hx
    split at hp
    · cases hp
    · rename_i hhex
      cases hp
      rw [behindEscape, if_neg hcategory, if_pos hx]
      exact parseHexDigits_rest hhex
  split at hp
  · cases hp
  split at hp
  · rename_i hescape
    cases hp
    exact (behindEscape_classEscape hescape _).symm
  · cases hp

theorem element_of_reads (hr : (takeRune s).1 = r) (hescape : r ≠ backslash)
    (h : Reads findCategory .iregexpStrict b (takeRune s).2 r b' s') : Element s r s' := by
  have hrune : r ≠ '['.toNat → r ≠ '{'.toNat → Element s r (takeRune s).2 := by
    intro hbracket hbrace
    subst hr
    refine .rune ?_
    simp only [List.mem_cons, List.not_mem_nil, or_false, not_or]
    exact ⟨hescape, hbracket, hbrace⟩
  cases h with
  | escape => exact absurd rfl hescape
  | dot | start | stop | closeGroup | pipe => exact hrune (by decide) (by decide)
  | charClass hclass => exact .charClass hr (parseCharClass_ends hclass)
  | closer hcloser =>
    rcases hcloser with rfl | rfl
    · exact hrune (by decide) (by decide)
    · exact hrune (by decide) (by decide)
  | brace hbrace =>
    unfold onOpenBrace at hbrace
    split at hbrace
    · rename_i hcloser
      exact absurd hcloser (by simp [canEmitStandaloneCloser])
    split at hbrace
    · rename_i hliteral
      exact absurd hliteral (by simp [isLiteralBraceAfterEscape])
    split at hbrace
    · cases hbrace
    split at hbrace
    · cases hbrace
    · rename_i hcounts
      rw [onRange_rest hbrace, parseCounts_rest hcounts]
      exact .range hr
  | openGroup hgroup => cases hgroup
  | quantifier hquantifier hparsed =>
    have hrest := (onQuantifier_behind hparsed).2.2.2.2 rfl
    rw [hrest]
    simp only [List.mem_cons, Prod.mk.injEq, List.not_mem_nil, or_false] at hquantifier
    rcases hquantifier with ⟨rfl, -, -⟩ | ⟨rfl, -, -⟩ | ⟨rfl, -, -⟩
    all_goals exact hrune (by decide) (by decide)
  | literal hliteral =>
    apply hrune
    · rintro rfl
      exact hliteral (by decide)
    · rintro rfl
      exact hliteral (by decide)

def textOf (b : PostfixBuilder) (s : Bytes) : Bytes :=
  if b.escaped then behindEscape (takeRune s).1 (takeRune s).2 else s

theorem textOf_plain (h : b.escaped = false) (s : Bytes) : b.textOf s = s := by
  rw [textOf, h, if_neg Bool.false_ne_true]

theorem escaped_finalize (hp : b.finalize = .ok b') : b.escaped = false := by
  unfold finalize at hp
  dsimp only at hp
  split at hp
  · cases hp
  split at hp
  · cases hp
  · rename_i hescaped
    exact eq_false_of_ne_true hescaped

theorem roles_nil (fuel : Nat) (b : PostfixBuilder) : roles findCategory mode fuel b [] = [] := by
  cases fuel with
  | zero => rfl
  | succ fuel => exact if_pos rfl

section Runs
variable {mode : SyntaxMode}

theorem roles_induct {P : Nat → PostfixBuilder → Role → Bytes → Prop}
    (hdone : ∀ fuel b last, b.escaped = false → P fuel b last [])
    (hescape : ∀ fuel b last s b₁ s₁, s ≠ [] → b.escaped = true → Behind mode b last →
      onEscape findCategory mode b (takeRune s).1 (takeRune s).2 = .ok (b₁, s₁) →
      roles findCategory mode (fuel + 1) b s = .atom :: roles findCategory mode fuel b₁ s₁ →
      P fuel b₁ .atom s₁ → P (fuel + 1) b last s)
    (hrune : ∀ fuel b last s b₁ s₁, s ≠ [] → b.escaped = false → Behind mode b last →
      Reads findCategory mode b (takeRune s).2 (takeRune s).1 b₁ s₁ →
      roles findCategory mode (fuel + 1) b s =
        b.roleOf mode (takeRune s).1 (takeRune s).2 :: roles findCategory mode fuel b₁ s₁ →
      P fuel b₁ (b.roleOf mode (takeRune s).1 (takeRune s).2) s₁ → P (fuel + 1) b last s)
    {fuel : Nat} (hfuel : s.length ≤ fuel) (hbehind : Behind mode b last)
    (hp : build findCategory mode fuel b s = .ok b') : P fuel b last s := by
  induction fuel generalizing b s last with
  | zero =>
    obtain rfl : s = [] := List.eq_nil_of_length_eq_zero (Nat.le_zero.1 hfuel)
    exact hdone 0 b last (escaped_finalize hp)
  | succ fuel ih =>
    unfold build at hp
    split at hp
    · rename_i hs
      rw [hs]
      exact hdone _ b last (escaped_finalize hp)
    rename_i hs
    have hlen := length_takeRune_lt hs
    dsimp only at hp
    cases hescaped : b.escaped with
    | true =>
      rw [hescaped, if_pos rfl] at hp
      obtain ⟨⟨b₁, s₁⟩, hstep, hp⟩ := bind_eq_ok.1 hp
      have hshort := onEscape_length hstep
      apply hescape fuel b last s b₁ s₁ hs hescaped hbehind hstep
      · simp only [roles, if_neg hs, roleOf, hescaped, if_true, hstep]
      · exact ih (by omega) (behind_of_escapes (escapes_of_onEscape (takeRune_lt s) hstep)) hp
    | false =>
      rw [hescaped, if_neg Bool.false_ne_true] at hp
      obtain ⟨⟨b₁, s₁⟩, hstep, hp⟩ := bind_eq_ok.1 hp
      have hreads := reads_of_onRune hstep
      have hshort := hreads.length_le
      apply hrune fuel b last s b₁ s₁ hs hescaped hbehind hreads
      · simp only [roles, if_neg hs, hescaped, Bool.false_eq_true, if_false, hstep]
      · exact ih (by omega) (behind_of_reads hescaped hreads).1 hp

end Runs

theorem roles_extended {fuel : Nat} (hfuel : s.length ≤ fuel) (hbehind : Behind .extended b last)
    (hp : build findCategory .extended fuel b s = .ok b') :
    (last :: roles findCategory .extended fuel b s).IsChain Follows := by
  apply roles_induct (P := fun fuel b last s =>
    (last :: roles findCategory .extended fuel b s).IsChain Follows) _ _ _ hfuel hbehind hp
  · intro fuel b last _
    rw [roles_nil]
    exact .singleton last
  · intro fuel b last s b₁ s₁ _ _ _ _ hroles ih
    rw [hroles]
    exact .cons_cons (fun h => nomatch h) ih
  · intro fuel b last s b₁ s₁ _ hescaped hbehind hreads hroles ih
    rw [hroles]
    apply List.IsChain.cons_cons _ ih
    intro hquantifier
    obtain ⟨hquantified, hneed⟩ := (behind_of_reads hescaped hreads).2 hquantifier
    exact (hbehind.atom hescaped).2 ⟨hneed (.inl rfl), hquantified⟩

theorem roleOf_strict (hescaped : b.escaped = false) (h : Reads findCategory .iregexpStrict b s r b' s') :
    b.roleOf .iregexpStrict r s ≠ .literal ∧
      (r = '{'.toNat → b.roleOf .iregexpStrict r s = .quantifier) := by
  have hbrace : b.roleOf .iregexpStrict '{'.toNat s = .quantifier := by
    rw [roleOf_brace hescaped]
    simp [canEmitStandaloneCloser, isLiteralBraceAfterEscape]
  refine ⟨?_, fun hr => hr ▸ hbrace⟩
  obtain ⟨hbackslash, hdot, hbracket, hstart, hstop, -, -, hopen, hgroup, hpipe, hstar,
    hquestion, hplus⟩ := roleOf_special .iregexpStrict hescaped s
  cases h with
  | closer hr hcloser =>
    unfold onCloser at hcloser
    split at hcloser
    · rename_i hextended
      exact absurd hextended (by simp [canEmitStandaloneCloser])
    · cases hcloser
  | quantifier hr =>
    simp only [List.mem_cons, Prod.mk.injEq, List.not_mem_nil, or_false] at hr
    rcases hr with ⟨rfl, -, -⟩ | ⟨rfl, -, -⟩ | ⟨rfl, -, -⟩
    all_goals simp [hstar, hquestion, hplus]
  | literal hr => simp [roleOf_literal hescaped hr]
  | escape | dot | charClass | start | stop | brace | openGroup | closeGroup | pipe =>
    simp only [hbackslash, hdot, hbracket, hstart, hstop, hbrace, hopen, hgroup, hpipe]
    decide

theorem literal_notMem_roles {fuel : Nat} (hfuel : s.length ≤ fuel)
    (hbehind : Behind .iregexpStrict b last)
    (hp : build findCategory .iregexpStrict fuel b s = .ok b') :
    Role.literal ∉ roles findCategory .iregexpStrict fuel b s := by
  apply roles_induct (P := fun fuel b _ s => Role.literal ∉ roles findCategory .iregexpStrict fuel b s)
    _ _ _ hfuel hbehind hp
  · intro fuel b _ _
    rw [roles_nil]
    exact List.not_mem_nil
  · intro fuel b last s b₁ s₁ _ _ _ _ hroles ih
    rw [hroles]
    exact List.not_mem_cons_of_ne_of_not_mem (by decide) ih
  · intro fuel b last s b₁ s₁ _ hescaped _ hreads hroles ih
    rw [hroles]
    exact List.not_mem_cons_of_ne_of_not_mem (roleOf_strict hescaped hreads).1.symm ih

theorem roleOf_pipe (hescaped : b.escaped = false) (h : Reads findCategory mode b s r b' s') :
    (b.roleOf mode r s == .pipe) = (r == Regex.pipe) := by
  obtain ⟨hbackslash, hdot, hbracket, hstart, hstop, hclose, hclosebrace, hopen, hgroup, hpipe, hstar,
    hquestion, hplus⟩ := roleOf_special mode hescaped s
  cases h with
  | closer hr =>
    rcases hr with rfl | rfl
    · rw [hclose]
      rfl
    · rw [hclosebrace]
      rfl
  | brace =>
    rw [roleOf_brace hescaped]
    split <;> rfl
  | quantifier hr =>
    simp only [List.mem_cons, Prod.mk.injEq, List.not_mem_nil, or_false] at hr
    rcases hr with ⟨rfl, -, -⟩ | ⟨rfl, -, -⟩ | ⟨rfl, -, -⟩
    · rw [hstar]
      rfl
    · rw [hquestion]
      rfl
    · rw [hplus]
      rfl
  | literal hr =>
    rw [roleOf_literal hescaped hr]
    have hne : r ≠ Regex.pipe := by
      rintro rfl
      exact hr (by decide)
    exact (beq_eq_false_iff_ne.2 hne).symm
  | escape | dot | charClass | start | stop | openGroup | closeGroup | pipe =>
    simp only [hbackslash, hdot, hbracket, hstart, hstop, hopen, hgroup, hpipe]
    rfl

theorem roleOf_ne_escape (hescaped : b.escaped = false) (hr : r ≠ backslash) :
    b.roleOf mode r s ≠ .escape := by
  unfold roleOf
  rw [hescaped, if_neg Bool.false_ne_true, if_neg hr]
  repeat' split
  all_goals decide

theorem reads_backslash (h : Reads findCategory mode b s r b' s') (hr : r = backslash) :
    b'.escaped = true ∧ s' = s := by
  cases h with
  | escape => exact ⟨rfl, rfl⟩
  | closer hcloser =>
    rw [hr] at hcloser
    exact absurd hcloser (by decide)
  | quantifier hquantifier =>
    rw [hr] at hquantifier
    simp only [List.mem_cons, Prod.mk.injEq, List.not_mem_nil, or_false] at hquantifier
    rcases hquantifier with ⟨hr, -⟩ | ⟨hr, -⟩ | ⟨hr, -⟩
    all_goals exact absurd hr (by decide)
  | literal hliteral => exact absurd (hr ▸ .head _) hliteral
  | dot | charClass | start | stop | brace | openGroup | closeGroup | pipe =>
    exact absurd hr (by decide)

theorem element_of_step (hescaped : b.escaped = false)
    (h : Reads findCategory .iregexpStrict b (takeRune s).2 (takeRune s).1 b' s') :
    Element s (takeRune s).1 (b'.textOf s') := by
  by_cases hr : (takeRune s).1 = backslash
  · obtain ⟨hescaped', hrest⟩ := reads_backslash h hr
    rw [textOf, hescaped', if_pos rfl, hrest, hr]
    exact .escape hr
  · have hescaped' : b'.escaped = false := by
      apply eq_false_of_ne_true
      intro h'
      exact roleOf_ne_escape hescaped hr ((behind_of_reads hescaped h).1.escape.1 h')
    rw [textOf_plain hescaped']
    exact element_of_reads rfl hr h

theorem follows_strict (hescaped : b.escaped = false) (hbehind : Behind .iregexpStrict b last)
    (h : Reads findCategory .iregexpStrict b s r b' s') :
    Follows last (b.roleOf .iregexpStrict r s) ↔ (last = .pipe → r ≠ '{'.toNat) := by
  obtain ⟨hquantified, hneed⟩ := And.intro
    (fun hrole => ((behind_of_reads hescaped h).2 hrole).1)
    (fun hrole => ((behind_of_reads hescaped h).2 hrole).2)
  constructor
  · intro hfollows hlast hr
    have hatom := hfollows ((roleOf_strict hescaped h).2 hr)
    rw [hlast] at hatom
    cases hatom
  · intro hpipe hrole
    cases last with
    | atom | literal | closeGroup => rfl
    | escape => exact absurd (hbehind.escape.2 rfl) (by rw [hescaped]; decide)
    | quantifier => exact absurd (hbehind.quantifier rfl) (by rw [hquantified hrole]; decide)
    | openGroup => cases hbehind.openGroup rfl
    | pipe => exact (hbehind.atom hescaped).2 ⟨hneed hrole (.inr (hpipe rfl)), hquantified hrole⟩

theorem roles_strict {fuel : Nat} (hfuel : s.length ≤ fuel) (hbehind : Behind .iregexpStrict b last)
    (hp : build findCategory .iregexpStrict fuel b s = .ok b') :
    (last :: roles findCategory .iregexpStrict fuel b s).IsChain Follows ↔
      ¬ BraceFirst (last == .pipe) (b.textOf s) := by
  apply roles_induct (P := fun fuel b last s =>
    (last :: roles findCategory .iregexpStrict fuel b s).IsChain Follows ↔
      ¬ BraceFirst (last == .pipe) (b.textOf s)) _ _ _ hfuel hbehind hp
  · intro fuel b last hescaped
    rw [roles_nil, textOf_plain hescaped]
    exact iff_of_true (.singleton last) not_braceFirst_nil
  · intro fuel b last s b₁ s₁ hs hescaped hbehind hstep hroles ih
    have hlast : last = .escape := hbehind.escape.1 hescaped
    have hbehind₁ : Behind .iregexpStrict b₁ .atom :=
      behind_of_escapes (escapes_of_onEscape (takeRune_lt s) hstep)
    have hescaped₁ : b₁.escaped = false := by
      apply eq_false_of_ne_true
      intro h
      exact absurd (hbehind₁.escape.1 h) (by decide)
    rw [textOf_plain hescaped₁] at ih
    have hatom : Follows last .atom := by
      intro h
      cases h
    rw [hroles, List.isChain_cons_cons, and_iff_right hatom, ih, textOf, hescaped, if_pos rfl,
      ← onEscape_rest hstep, hlast]
    rfl
  · intro fuel b last s b₁ s₁ hs hescaped hbehind hreads hroles ih
    have helement := element_of_step hescaped hreads
    rw [roleOf_pipe hescaped hreads] at ih
    rw [hroles, List.isChain_cons_cons, textOf_plain hescaped, follows_strict hescaped hbehind hreads,
      ih]
    by_cases hfirst : last = .pipe → (takeRune s).1 ≠ '{'.toNat
    · rw [and_iff_right hfirst, braceFirst_iff hs helement fun hlast => hfirst (eq_of_beq hlast)]
    · obtain ⟨rfl, hbrace⟩ := Classical.not_imp.1 hfirst
      apply iff_of_false (fun h => hfirst h.1)
      exact not_not_intro (.here hs (Decidable.not_not.1 hbrace))

theorem behind_initial (mode : SyntaxMode) : Behind mode {} .pipe := behind_start rfl rfl (.inl rfl)

end PostfixBuilder

/-- Every quantifier of an accepted pattern follows an unquantified atom, and in the strict syntax no
brace or bracket stands for itself, except that the strict syntax takes a brace at the start of an
alternative for a range. -/
theorem quantifiersFollow_iff (findCategory : Bytes → Option RuneClass) (mode : SyntaxMode)
    (pattern : Bytes) (hok : (RegexEngine.ofSyntax findCategory mode pattern).ok = true) :
    QuantifiersFollow findCategory mode pattern ↔ mode = .extended ∨ ¬ BraceFirst true pattern := by
  obtain ⟨b, hp, -, -⟩ := RegexEngine.ofSyntax_parsed hok
  have hfuel : pattern.length ≤ pattern.length := Nat.le_refl _
  have hbehind := PostfixBuilder.behind_initial mode
  cases mode with
  | extended =>
    apply iff_of_true _ (.inl rfl)
    exact ⟨PostfixBuilder.roles_extended hfuel hbehind hp, fun h => nomatch h⟩
  | iregexpStrict =>
    rw [QuantifiersFollow, PostfixBuilder.roles_strict hfuel hbehind hp, or_iff_right (by decide)]
    exact and_iff_left fun _ => PostfixBuilder.literal_notMem_roles hfuel hbehind hp

theorem quantifiersFollow_group :
    QuantifiersFollow (fun _ => none) .extended [0x28, 0x61, 0x7C, 0x62, 0x7B, 0x32, 0x7D, 0x29, 0x2A] :=
  (quantifiersFollow_iff _ _ _ (by decide +kernel)).2 (.inl rfl)

/-- The strict syntax accepts a range that has no atom. -/
theorem strict_brace :
    (RegexEngine.ofSyntax (fun _ => none) .iregexpStrict [0x7B, 0x30, 0x7D]).ok = true ∧
      ¬ QuantifiersFollow (fun _ => none) .iregexpStrict [0x7B, 0x30, 0x7D] := by
  decide +kernel

end Trieste.Regex
