import Trieste.Library.ShortCircuit
import Trieste.Regex.Tree

namespace Trieste.Regex
set_option autoImplicit true
open Library Relation

theorem extend_lt (h : value < 2 ^ k) (c : UInt8) : Utf8.extend value c < 2 ^ (k + 6) := by
  have hlow : (c &&& Utf8.valueX).toNat < 2 ^ 6 := by
    rw [UInt8.toNat_and]
    exact Nat.and_lt_two_pow _ (by decide)
  rw [Utf8.extend, Utf8.shiftX, ← Nat.shiftLeft_add_eq_or_of_lt hlow, Nat.shiftLeft_eq, Nat.pow_add]
  have hle : (value + 1) * 2 ^ 6 ≤ 2 ^ k * 2 ^ 6 := Nat.mul_le_mul_right _ h
  rw [Nat.add_mul, Nat.one_mul] at hle
  omega

theorem and_lt (c mask : UInt8) (h : mask.toNat < 2 ^ k) : (c &&& mask).toNat < 2 ^ k := by
  rw [UInt8.toNat_and]
  exact Nat.and_lt_two_pow _ h

theorem takeRune_lt (s : Bytes) : (takeRune s).1 < captureGroup := by
  have hsmall : ∀ n, n < 2 ^ 21 → n < captureGroup := fun n hn => Nat.lt_trans hn (by decide)
  apply hsmall
  unfold takeRune Utf8.utf8ToRune
  have hbad : Utf8.bad < 2 ^ 21 := by decide
  repeat' split
  · exact hbad
  · exact Nat.lt_trans (and_lt _ _ (by decide : Utf8.value1.toNat < 2 ^ 7)) (by decide)
  · exact Nat.lt_trans (extend_lt (and_lt _ _ (by decide : Utf8.value2.toNat < 2 ^ 5)) _) (by decide)
  · exact hbad
  · exact hbad
  · exact Nat.lt_trans (extend_lt (extend_lt (and_lt _ _ (by decide : Utf8.value3.toNat < 2 ^ 4)) _) _)
      (by decide)
  · exact hbad
  · exact hbad
  · exact extend_lt (extend_lt (extend_lt (and_lt _ _ (by decide : Utf8.value4.toNat < 2 ^ 3)) _) _) _
  · exact hbad
  · exact hbad
  · exact hbad
namespace PostfixBuilder

section Steps
variable {findCategory : Bytes → Option RuneClass} {mode : SyntaxMode}

def MakesRef (b b' : PostfixBuilder) : Prop := ∃ rc, b' = (b.makeClassRef rc).1

theorem parseUnicodeCategory_eq
    (hp : parseUnicodeCategory findCategory b s negate = .ok (b', ref, s')) :
    ∃ rc, b.makeClassRef rc = (b', ref) := by
  unfold PostfixBuilder.parseUnicodeCategory at hp
  split at hp
  · cases hp
  split at hp
  · cases hp
  dsimp only at hp
  split at hp
  · cases hp
  split at hp
  · cases hp
  split at hp
  · cases hp
  · cases hp
    exact ⟨_, rfl⟩

theorem classItem_refs (hp : classItem findCategory mode b rc c s = .ok (b', rc', s')) :
    ReflTransGen MakesRef b b' := by
  unfold PostfixBuilder.classItem at hp
  split at hp
  · split at hp
    · cases hp
    split at hp
    · cases hp
    · cases hp
      exact .refl
  split at hp
  · split at hp
    · cases hp
    dsimp only at hp
    split at hp
    · obtain ⟨⟨b₁, ref, s₁⟩, hcategory, hp⟩ := bind_eq_ok.1 hp
      obtain ⟨rc, href⟩ := parseUnicodeCategory_eq hcategory
      dsimp only at hp
      split at hp
      · cases hp
        exact .single ⟨rc, congrArg Prod.fst href.symm⟩
      · cases hp
    split at hp
    · split at hp
      · cases hp
      · cases hp
        exact .refl
    split at hp
    · cases hp
    · obtain ⟨_, -, hp⟩ := map_eq_ok.1 hp
      cases hp
      exact .refl
  · obtain ⟨_, -, hp⟩ := map_eq_ok.1 hp
    cases hp
    exact .refl

theorem classItems_refs {fuel : Nat}
    (hp : classItems findCategory mode fuel b rc s = .ok (b', rc', s')) :
    ReflTransGen MakesRef b b' := by
  induction fuel generalizing b rc s with
  | zero =>
    cases hp
    exact .refl
  | succ fuel ih =>
    unfold PostfixBuilder.classItems at hp
    split at hp
    · cases hp
      exact .refl
    split at hp
    · cases hp
      exact .refl
    · obtain ⟨⟨b₁, rc₁, s₁⟩, hitem, hp⟩ := bind_eq_ok.1 hp
      exact (classItem_refs hitem).trans (ih hp)

theorem parseCharClass_eq (hp : parseCharClass findCategory mode b s = .ok (b', ref, s')) :
    ∃ b₁ rc, ReflTransGen MakesRef b b₁ ∧ b₁.makeClassRef rc = (b', ref) := by
  unfold PostfixBuilder.parseCharClass at hp
  dsimp only at hp
  generalize (if startsWithChar s '^' = true then s.tail else s) = s₀ at hp
  split at hp
  · cases hp
  obtain ⟨⟨b₁, rc₁, s₁⟩, hitems, hp⟩ := bind_eq_ok.1 hp
  dsimp only at hp
  generalize (if startsWithChar s '^' = true then rc₁.finalize.complement else rc₁.finalize) = rc
    at hp
  split at hp
  · cases hp
  split at hp
  · cases hp
    exact ⟨b₁, rc, classItems_refs hitems, rfl⟩
  · cases hp

/-- An escape adds an atom: a class, a rune or the assertion. -/
inductive Escapes (b : PostfixBuilder) : PostfixBuilder → Prop
  | classRef (rc : RuneClass) (href : { b with escaped := false }.makeClassRef rc = (b₁, ref)) :
      Escapes b (b₁.emitAtom ref)
  | rune (hr : r < captureGroup) : Escapes b ({ b with escaped := false }.emitAtom r)
  | boundary : Escapes b ({ b with escaped := false }.emitAtom wordBoundary)

theorem parseHexDigits_lt {count out : Nat} (h : parseHexDigits count out s = some (value, s')) :
    value < (out + 1) * 16 ^ count := by
  induction count generalizing out s with
  | zero =>
    cases h
    omega
  | succ count ih =>
    cases s with
    | nil => cases h
    | cons c s =>
      obtain ⟨digit, hdigit, h⟩ := Option.bind_eq_some_iff.1 h
      have hlt : digit < 2 ^ 4 := by
        have hall : ∀ c, (hexDigit c).all (· < 2 ^ 4) := Utf8.forall_byte (by decide +kernel)
        have hc := hall c
        rw [hdigit] at hc
        exact of_decide_eq_true hc
      have hor : (out <<< 4) ||| digit = out * 16 + digit := by
        rw [← Nat.shiftLeft_add_eq_or_of_lt hlt, Nat.shiftLeft_eq]
      have hstep := ih h
      rw [hor] at hstep
      calc value < (out * 16 + digit + 1) * 16 ^ count := hstep
        _ ≤ ((out + 1) * 16) * 16 ^ count := Nat.mul_le_mul_right _ (by omega)
        _ = (out + 1) * 16 ^ (count + 1) := by rw [Nat.mul_assoc, Nat.pow_succ']

theorem escapeToRune_lt (h : r < captureGroup) : escapeToRune r < captureGroup := by
  unfold escapeToRune
  repeat' split
  · decide
  · decide
  · decide
  · exact h

theorem escapes_of_onEscape (hr : r < captureGroup)
    (hp : onEscape findCategory mode b r s = .ok (b', s')) : Escapes b b' := by
  unfold PostfixBuilder.onEscape at hp
  dsimp only at hp
  split at hp
  · obtain ⟨⟨b₁, ref, s₁⟩, hcategory, hp⟩ := bind_eq_ok.1 hp
    obtain ⟨rc, href⟩ := parseUnicodeCategory_eq hcategory
    dsimp only at hp
    split at hp
    · cases hp
      exact .classRef rc href
    · cases hp
  split at hp
  · rename_i rc _
    split at hp
    · cases hp
    · generalize (if r ≠ r ||| 0x20 then rc.complement else rc) = rc at hp
      cases hp
      exact .classRef rc rfl
  split at hp
  · split at hp
    · cases hp
    · rename_i hhex
      cases hp
      exact .rune (Nat.lt_trans (parseHexDigits_lt hhex) (by decide))
  split at hp
  · split at hp
    · cases hp
    · cases hp
      exact .boundary
  split at hp
  · cases hp
    exact .rune (escapeToRune_lt hr)
  split at hp
  · cases hp
    exact .rune hr
  · cases hp

/-- What a rune outside classes and escapes does. -/
inductive Reads (findCategory : Bytes → Option RuneClass) (mode : SyntaxMode) (b : PostfixBuilder)
    (s : Bytes) : Nat → PostfixBuilder → Bytes → Prop
  | escape : Reads findCategory mode b s backslash { b with escaped := true } s
  | dot : Reads findCategory mode b s '.'.toNat b.onDot s
  | charClass (hclass : parseCharClass findCategory mode b s = .ok (b₁, ref, s')) :
      Reads findCategory mode b s '['.toNat (b₁.emitAtom ref) s'
  | start : Reads findCategory mode b s '^'.toNat (b.emitAtom startAnchor) s
  | stop : Reads findCategory mode b s '$'.toNat (b.emitAtom endAnchor) s
  | closer (hr : r = ']'.toNat ∨ r = '}'.toNat) (hcloser : b.onCloser mode r = .ok b') :
      Reads findCategory mode b s r b' s
  | brace (hbrace : b.onOpenBrace mode s = .ok (b', s')) :
      Reads findCategory mode b s '{'.toNat b' s'
  | openGroup (hgroup : b.onOpenGroup mode s = .ok (b', s')) :
      Reads findCategory mode b s lParen b' s'
  | closeGroup (hgroup : b.onCloseGroup = .ok b') : Reads findCategory mode b s rParen b' s
  | pipe : Reads findCategory mode b s pipe b.onPipe s
  | quantifier (hr : (r, greedy, idle) ∈ [(asterisk, zeroOrMore, lazyZeroOrMore),
        (question, zeroOrOne, lazyZeroOrOne), (plus, oneOrMore, lazyOneOrMore)])
      (hquantifier : b.onQuantifier mode greedy idle s = .ok (b', s')) :
      Reads findCategory mode b s r b' s'
  | literal (hr : r ∉ [backslash, '.'.toNat, '['.toNat, '^'.toNat, '$'.toNat, ']'.toNat, '{'.toNat,
        '}'.toNat, lParen, rParen, Regex.pipe, asterisk, question, plus]) :
      Reads findCategory mode b s r (b.emitAtom r) s

theorem reads_of_onRune (hp : onRune findCategory mode b r s = .ok (b', s')) :
    Reads findCategory mode b s r b' s' := by
  unfold PostfixBuilder.onRune at hp
  by_cases hbackslash : r = backslash
  · rw [if_pos hbackslash] at hp
    cases hp
    exact hbackslash ▸ .escape
  rw [if_neg hbackslash] at hp
  by_cases hdot : r = '.'.toNat
  · rw [if_pos hdot] at hp
    cases hp
    exact hdot ▸ .dot
  rw [if_neg hdot] at hp
  by_cases hbracket : r = '['.toNat
  · rw [if_pos hbracket] at hp
    obtain ⟨⟨b₁, ref, s₁⟩, hclass, hp⟩ := bind_eq_ok.1 hp
    cases hp
    exact hbracket ▸ .charClass hclass
  rw [if_neg hbracket] at hp
  by_cases hstart : r = '^'.toNat
  · rw [if_pos hstart] at hp
    cases hp
    exact hstart ▸ .start
  rw [if_neg hstart] at hp
  by_cases hend : r = '$'.toNat
  · rw [if_pos hend] at hp
    cases hp
    exact hend ▸ .stop
  rw [if_neg hend] at hp
  by_cases hclose : r = ']'.toNat
  · rw [if_pos hclose] at hp
    obtain ⟨b₁, hcloser, hp⟩ := bind_eq_ok.1 hp
    cases hp
    exact .closer (.inl hclose) (hclose ▸ hcloser)
  rw [if_neg hclose] at hp
  by_cases hbrace : r = '{'.toNat
  · rw [if_pos hbrace] at hp
    exact hbrace ▸ .brace hp
  rw [if_neg hbrace] at hp
  by_cases hclosebrace : r = '}'.toNat
  · rw [if_pos hclosebrace] at hp
    obtain ⟨b₁, hcloser, hp⟩ := bind_eq_ok.1 hp
    cases hp
    exact .closer (.inr hclosebrace) (hclosebrace ▸ hcloser)
  rw [if_neg hclosebrace] at hp
  by_cases hopen : r = lParen
  · rw [if_pos hopen] at hp
    exact hopen ▸ .openGroup hp
  rw [if_neg hopen] at hp
  by_cases hgroup : r = rParen
  · rw [if_pos hgroup] at hp
    obtain ⟨b₁, hclosed, hp⟩ := bind_eq_ok.1 hp
    cases hp
    exact hgroup ▸ .closeGroup hclosed
  rw [if_neg hgroup] at hp
  by_cases hpipe : r = Regex.pipe
  · rw [if_pos hpipe] at hp
    cases hp
    exact hpipe ▸ .pipe
  rw [if_neg hpipe] at hp
  by_cases hstar : r = asterisk
  · rw [if_pos hstar] at hp
    exact .quantifier (hstar ▸ .head _) hp
  rw [if_neg hstar] at hp
  by_cases hquestion : r = question
  · rw [if_pos hquestion] at hp
    exact .quantifier (hquestion ▸ .tail _ (.head _)) hp
  rw [if_neg hquestion] at hp
  by_cases hplus : r = plus
  · rw [if_pos hplus] at hp
    exact .quantifier (hplus ▸ .tail _ (.tail _ (.head _))) hp
  · rw [if_neg hplus] at hp
    cases hp
    apply Reads.literal
    simp only [List.mem_cons, List.not_mem_nil, or_false, not_or]
    exact ⟨hbackslash, hdot, hbracket, hstart, hend, hclose, hbrace, hclosebrace, hopen, hgroup, hpipe,
      hstar, hquestion, hplus⟩

def openGroup (b : PostfixBuilder) (capturing : Bool) : PostfixBuilder :=
  { b with
    numCaptures := if capturing then b.numCaptures + 1 else b.numCaptures
    groupStartStack := ⟨b.postfixRunes.length, b.needConcat, capturing,
      if capturing then b.numCaptures else 0⟩ :: b.groupStartStack
    operatorStack := lParen :: b.operatorStack
    needConcat := false }

theorem onOpenGroup_eq {b : PostfixBuilder} (hp : b.onOpenGroup mode s = .ok (b', s')) :
    ∃ (capturing : Bool) (b₁ : PostfixBuilder), mode = .extended ∧ b₁ = (if b.needConcat then b.pushConcat else b) ∧
      (capturing = true → b₁.numCaptures < maxCaptures) ∧ b' = b₁.openGroup capturing ∧
      s' = if capturing then s else s.drop 2 := by
  unfold PostfixBuilder.onOpenGroup at hp
  dsimp only at hp
  split at hp
  · cases hp
  rename_i hmode
  have hmode := Decidable.not_not.1 hmode
  refine ⟨!isNoncapturingGroupPrefix s, _, hmode, rfl, ?_⟩
  generalize (if b.needConcat then b.pushConcat else b) = b₁ at hp ⊢
  cases hcapturing : !isNoncapturingGroupPrefix s with
  | true =>
    rw [hcapturing] at hp
    simp only [if_true, true_and] at hp
    split at hp
    · cases hp
    rename_i hcaptures
    split at hp
    · cases hp
    · cases hp
      exact ⟨fun _ => Nat.not_lt.1 hcaptures, rfl, rfl⟩
  | false =>
    rw [hcapturing] at hp
    simp only [Bool.false_eq_true, if_false, false_and] at hp
    split at hp
    · cases hp
    · cases hp
      exact ⟨fun h => absurd h Bool.false_ne_true, rfl, rfl⟩

/-- A property of the state that every step and the end of the pattern keep holds of what is built. -/
theorem build_keeps {P : PostfixBuilder → Prop} (hescape : ∀ b b', P b → Escapes b b' → P b')
    (hrune : ∀ b s r b' s', P b → r < captureGroup → Reads findCategory mode b s r b' s' → P b')
    {fuel : Nat} (h : P b) (hp : build findCategory mode fuel b s = .ok b') :
    ∃ b₁, P b₁ ∧ b₁.finalize = .ok b' := by
  induction fuel generalizing b s with
  | zero => exact ⟨b, h, hp⟩
  | succ fuel ih =>
    unfold PostfixBuilder.build at hp
    split at hp
    · exact ⟨b, h, hp⟩
    · dsimp only at hp
      split at hp
      · obtain ⟨⟨b₁, s₁⟩, hstep, hp⟩ := bind_eq_ok.1 hp
        exact ih (hescape b b₁ h (escapes_of_onEscape (takeRune_lt s) hstep)) hp
      · obtain ⟨⟨b₁, s₁⟩, hstep, hp⟩ := bind_eq_ok.1 hp
        exact ih (hrune b _ _ b₁ s₁ h (takeRune_lt s) (reads_of_onRune hstep)) hp

end Steps
end PostfixBuilder

namespace PostfixBuilder

def Proper (x : Parsed α) : Prop := x ≠ .error .noError

section Proper
variable {findCategory : Bytes → Option RuneClass} {mode : SyntaxMode} {b : PostfixBuilder}

theorem proper_ok (a : α) : Proper (.ok a : Parsed α) := nofun

theorem proper_fail (b : PostfixBuilder) {code : ErrorCode} (h : code ≠ .noError) :
    Proper (b.fail code : Parsed α) := by
  intro herror
  injection herror with herror
  unfold PostfixBuilder.setError at herror
  split at herror
  · exact h herror
  · contradiction

theorem proper_ite {c : Prop} [Decidable c] {x y : Parsed α} (hx : Proper x) (hy : Proper y) :
    Proper (if c then x else y) := by
  split
  · exact hx
  · exact hy

theorem proper_check (b : PostfixBuilder) (a : α) :
    Proper (if b.ok then .ok a else .error b.errorCode : Parsed α) := by
  split
  · exact proper_ok a
  · rename_i hok
    intro herror
    injection herror with herror
    exact hok (decide_eq_true herror)

theorem proper_bind {α β : Type} {x : Parsed α} {f : α → Parsed β} (hx : Proper x)
    (hf : ∀ a, Proper (f a)) : Proper (x >>= f) := by
  cases x with
  | ok a => exact hf a
  | error code => exact fun h => hx (congrArg Except.error (Except.error.inj h))

theorem proper_map {α β : Type} {x : Parsed α} (f : α → β) (hx : Proper x) : Proper (x.map f) := by
  cases x with
  | ok a => exact proper_ok _
  | error code => exact fun h => hx (congrArg Except.error (Except.error.inj h))

theorem proper_parseUnicodeCategory (s : Bytes) (negate : Bool) :
    Proper (parseUnicodeCategory findCategory b s negate) := by
  unfold PostfixBuilder.parseUnicodeCategory
  dsimp only
  repeat' split
  all_goals first
    | exact proper_fail b (by decide)
    | exact proper_ok _

theorem proper_addRunes (rc : RuneClass) (ch : Nat) (s : Bytes) :
    Proper (addRunes mode b rc ch s) := by
  unfold PostfixBuilder.addRunes
  repeat' split
  all_goals first
    | exact proper_fail b (by decide)
    | exact proper_ok _

theorem proper_classItem (rc : RuneClass) (c : UInt8) (s : Bytes) :
    Proper (classItem findCategory mode b rc c s) := by
  unfold PostfixBuilder.classItem
  dsimp only
  split
  · repeat' split
    all_goals first
      | exact proper_fail b (by decide)
      | exact proper_ok _
  split
  · split
    · exact proper_fail b (by decide)
    split
    · exact proper_bind (proper_parseUnicodeCategory _ _) fun _ => proper_check _ _
    · repeat' split
      all_goals first
        | exact proper_fail b (by decide)
        | exact proper_ok _
        | exact proper_map _ (proper_addRunes _ _ _)
  · exact proper_map _ (proper_addRunes _ _ _)

theorem proper_classItems (fuel : Nat) (b : PostfixBuilder) (rc : RuneClass) (s : Bytes) :
    Proper (classItems findCategory mode fuel b rc s) := by
  induction fuel generalizing b rc s with
  | zero => exact proper_ok _
  | succ fuel ih =>
    unfold PostfixBuilder.classItems
    split
    · exact proper_ok _
    split
    · exact proper_ok _
    · exact proper_bind (proper_classItem _ _ _) fun _ => ih _ _ _

theorem proper_parseCharClass (s : Bytes) : Proper (parseCharClass findCategory mode b s) := by
  unfold PostfixBuilder.parseCharClass
  dsimp only
  generalize (if startsWithChar s '^' = true then s.tail else s) = s₀
  split
  · exact proper_fail b (by decide)
  · apply proper_bind (proper_classItems _ _ _ _)
    exact fun _ => proper_ite (proper_fail _ (by decide)) (proper_check _ _)

theorem proper_onQuantifier (greedy idle : Nat) (s : Bytes) :
    Proper (b.onQuantifier mode greedy idle s) := by
  unfold PostfixBuilder.onQuantifier
  split
  · exact proper_fail b (by decide)
  · apply proper_bind
    · unfold PostfixBuilder.parseQuantifierSuffix
      repeat' split
      · exact proper_fail b (by decide)
      · exact proper_ok _
      · exact proper_ok _
    · exact fun _ => proper_check _ _

theorem proper_onCloser (label : Nat) : Proper (b.onCloser mode label) := by
  unfold PostfixBuilder.onCloser
  split
  · exact proper_ok _
  · exact proper_fail b (by decide)

theorem proper_onRange (n : Nat) (m : Option Nat) (s : Bytes) : Proper (b.onRange n m s) := by
  unfold PostfixBuilder.onRange
  dsimp only
  repeat' split
  all_goals first
    | exact proper_fail b (by decide)
    | exact proper_ok _

theorem proper_onOpenBrace (s : Bytes) : Proper (b.onOpenBrace mode s) := by
  unfold PostfixBuilder.onOpenBrace
  repeat' split
  · exact proper_ok _
  · exact proper_ok _
  · exact proper_fail b (by decide)
  · exact proper_fail b (by decide)
  · exact proper_onRange _ _ _

theorem proper_onOpenGroup (s : Bytes) : Proper (b.onOpenGroup mode s) := by
  unfold PostfixBuilder.onOpenGroup
  dsimp only
  repeat' split
  all_goals first
    | exact proper_fail _ (by decide)
    | exact proper_ok _

theorem proper_onCloseGroup : Proper b.onCloseGroup := by
  unfold PostfixBuilder.onCloseGroup
  dsimp only
  split
  · exact proper_ok _
  · exact proper_fail _ (by decide)

theorem proper_finalize : Proper b.finalize := by
  unfold PostfixBuilder.finalize
  dsimp only
  repeat' split
  · exact proper_fail _ (by decide)
  · exact proper_fail _ (by decide)
  · exact proper_fail _ (by decide)
  · exact proper_ok _

theorem proper_onEscape (r : Nat) (s : Bytes) : Proper (onEscape findCategory mode b r s) := by
  unfold PostfixBuilder.onEscape
  dsimp only
  split
  · exact proper_bind (proper_parseUnicodeCategory _ _) fun _ => proper_check _ _
  · repeat' split
    all_goals first
      | exact proper_fail _ (by decide)
      | exact proper_ok _

theorem proper_onRune (r : Nat) (s : Bytes) : Proper (onRune findCategory mode b r s) := by
  have hcloser : ∀ label : Nat, Proper (do return (← b.onCloser mode label, s)) :=
    fun label => proper_bind (proper_onCloser label) fun _ => proper_ok _
  unfold PostfixBuilder.onRune
  apply proper_ite (proper_ok _)
  apply proper_ite (proper_ok _)
  apply proper_ite (proper_bind (proper_parseCharClass s) fun _ => proper_ok _)
  apply proper_ite (proper_ok _)
  apply proper_ite (proper_ok _)
  apply proper_ite (hcloser _)
  apply proper_ite (proper_onOpenBrace s)
  apply proper_ite (hcloser _)
  apply proper_ite (proper_onOpenGroup s)
  apply proper_ite (proper_bind proper_onCloseGroup fun _ => proper_ok _)
  apply proper_ite (proper_ok _)
  apply proper_ite (proper_onQuantifier _ _ s)
  apply proper_ite (proper_onQuantifier _ _ s)
  exact proper_ite (proper_onQuantifier _ _ s) (proper_ok _)

theorem proper_build (fuel : Nat) (b : PostfixBuilder) (s : Bytes) :
    Proper (build findCategory mode fuel b s) := by
  induction fuel generalizing b s with
  | zero => exact proper_finalize
  | succ fuel ih =>
    unfold PostfixBuilder.build
    split
    · exact proper_finalize
    dsimp only
    split
    · exact proper_bind (proper_onEscape _ _) fun _ => ih _ _
    · exact proper_bind (proper_onRune _ _) fun _ => ih _ _

end Proper

end PostfixBuilder
theorem length_takeRune_le (s : Bytes) : (takeRune s).2.length ≤ s.length := by
  rw [takeRune, List.length_drop]
  exact Nat.sub_le ..

theorem length_takeRune_lt (h : s ≠ []) : (takeRune s).2.length < s.length := by
  have hpos := Utf8.utf8ToRune_pos s
  have hlen := List.length_pos_iff.2 h
  rw [takeRune, List.length_drop]
  omega

theorem takeRune_ascii : ∀ c : UInt8, c.toNat < 128 → ∀ s, takeRune (c :: s) = (c.toNat, s) := by
  have hall : ∀ c : UInt8, c.toNat < 128 → (c &&& Utf8.mask1 == Utf8.mark1) = true ∧
      (c &&& Utf8.value1).toNat = c.toNat := Utf8.forall_byte (by decide +kernel)
  intro c hc s
  obtain ⟨hmark, hvalue⟩ := hall c hc
  simp only [takeRune, Utf8.utf8ToRune]
  rw [if_pos hmark, hvalue]
  rfl

namespace PostfixBuilder

section Lengths
variable {findCategory : Bytes → Option RuneClass} {mode : SyntaxMode} {b b' : PostfixBuilder}

theorem parseHexDigits_length {count out : Nat} (h : parseHexDigits count out s = some (value, s')) :
    s'.length ≤ s.length := by
  induction count generalizing out s with
  | zero =>
    cases h
    exact Nat.le_refl _
  | succ count ih =>
    cases s with
    | nil => cases h
    | cons c s =>
      obtain ⟨digit, -, h⟩ := Option.bind_eq_some_iff.1 h
      exact (ih h).trans (Nat.le_succ _)

theorem length_dropWhile_le {s : Bytes} {p : UInt8 → Bool} (h : s.dropWhile p = c :: s') :
    s'.length ≤ s.length := by
  have hsuffix := (List.dropWhile_suffix (l := s) p).length_le
  rw [h, List.length_cons] at hsuffix
  exact Nat.le_of_succ_le hsuffix

theorem parseUnicodeCategory_length
    (hp : parseUnicodeCategory findCategory b s negate = .ok (b', ref, s')) : s'.length ≤ s.length := by
  unfold PostfixBuilder.parseUnicodeCategory at hp
  split at hp
  · cases hp
  split at hp
  · cases hp
  dsimp only at hp
  split at hp
  · cases hp
  rename_i hdrop
  split at hp
  · cases hp
  split at hp
  · cases hp
  · cases hp
    exact (length_dropWhile_le hdrop).trans (Nat.le_succ _)

theorem classEscape_length (h : classEscape mode r s = some (ch, s')) : s'.length ≤ s.length := by
  unfold PostfixBuilder.classEscape at h
  split at h
  · exact parseHexDigits_length h
  split at h
  · cases h
    exact Nat.le_refl _
  split at h
  · cases h
    exact Nat.le_refl _
  · cases h

theorem rangeEnd_length (h : rangeEnd mode s = some (hi, s')) : s'.length ≤ s.length := by
  unfold PostfixBuilder.rangeEnd at h
  split at h
  · cases h
  split at h
  · split at h
    · cases h
    · exact (classEscape_length h).trans ((length_takeRune_le _).trans (Nat.le_succ _))
  · cases h
    exact length_takeRune_le _

theorem addRunes_length (h : addRunes mode b rc ch s = .ok (rc', s')) : s'.length ≤ s.length := by
  unfold PostfixBuilder.addRunes at h
  split at h
  · split at h
    · split at h
      · cases h
      · rename_i hend
        split at h
        · cases h
        · cases h
          exact (rangeEnd_length hend).trans (Nat.le_succ _)
    · cases h
      exact Nat.le_refl _
  · cases h
    exact Nat.le_refl _

theorem parsePosixClass_length (h : parsePosixClass s = some (ranges, s')) : s'.length ≤ s.length := by
  unfold parsePosixClass at h
  dsimp only at h
  split at h
  · rename_i hdrop
    split at h
    · obtain ⟨_, -, heq⟩ := Option.map_eq_some_iff.1 h
      cases heq
      exact (Nat.le_succ _).trans (length_dropWhile_le hdrop)
    · cases h
  · cases h

theorem classItem_length (hp : classItem findCategory mode b rc c s = .ok (b', rc', s')) :
    s'.length ≤ s.length := by
  unfold PostfixBuilder.classItem at hp
  split at hp
  · split at hp
    · cases hp
    split at hp
    · cases hp
    · rename_i hposix
      cases hp
      exact (parsePosixClass_length hposix).trans (by rw [List.length_tail]; exact Nat.sub_le ..)
  split at hp
  · split at hp
    · cases hp
    rename_i hne
    dsimp only at hp
    have hrune := length_takeRune_le s
    split at hp
    · obtain ⟨⟨b₁, ref, s₁⟩, hcategory, hp⟩ := bind_eq_ok.1 hp
      dsimp only at hp
      split at hp
      · cases hp
        exact (parseUnicodeCategory_length hcategory).trans hrune
      · cases hp
    split at hp
    · split at hp
      · cases hp
      · cases hp
        exact hrune
    split at hp
    · cases hp
    · rename_i hescape
      obtain ⟨result, hadd, hp⟩ := map_eq_ok.1 hp
      cases hp
      exact (addRunes_length hadd).trans ((classEscape_length hescape).trans hrune)
  · obtain ⟨result, hadd, hp⟩ := map_eq_ok.1 hp
    cases hp
    have hlt := length_takeRune_lt (List.cons_ne_nil c s)
    exact (addRunes_length hadd).trans (Nat.le_of_lt_succ hlt)

theorem classItems_length {fuel : Nat}
    (hp : classItems findCategory mode fuel b rc s = .ok (b', rc', s')) : s'.length ≤ s.length := by
  induction fuel generalizing b rc s with
  | zero =>
    cases hp
    exact Nat.le_refl _
  | succ fuel ih =>
    unfold PostfixBuilder.classItems at hp
    split at hp
    · cases hp
      exact Nat.le_refl _
    split at hp
    · cases hp
      exact Nat.le_refl _
    · obtain ⟨⟨b₁, rc₁, s₁⟩, hitem, hp⟩ := bind_eq_ok.1 hp
      exact (ih hp).trans ((classItem_length hitem).trans (Nat.le_succ _))

theorem parseCharClass_length (hp : parseCharClass findCategory mode b s = .ok (b', ref, s')) :
    s'.length ≤ s.length := by
  unfold PostfixBuilder.parseCharClass at hp
  dsimp only at hp
  have hnegated : (if startsWithChar s '^' = true then s.tail else s).length ≤ s.length := by
    split
    · rw [List.length_tail]
      exact Nat.sub_le ..
    · exact Nat.le_refl _
  generalize (if startsWithChar s '^' = true then s.tail else s) = s₀ at hp hnegated
  split at hp
  · cases hp
  obtain ⟨⟨b₁, rc₁, s₁⟩, hitems, hp⟩ := bind_eq_ok.1 hp
  dsimp only at hp
  generalize (if startsWithChar s '^' = true then rc₁.finalize.complement else rc₁.finalize) = rc
    at hp
  split at hp
  · cases hp
  split at hp
  · cases hp
    have hitems := classItems_length hitems
    rw [List.length_tail]
    exact (Nat.sub_le ..).trans (hitems.trans hnegated)
  · cases hp

theorem onQuantifier_length (hp : b.onQuantifier mode greedy idle s = .ok (b', s')) :
    s'.length ≤ s.length := by
  unfold PostfixBuilder.onQuantifier at hp
  split at hp
  · cases hp
  obtain ⟨⟨b₁, s₁⟩, hsuffix, hp⟩ := bind_eq_ok.1 hp
  have h₁ : s₁.length ≤ s.length := by
    unfold PostfixBuilder.parseQuantifierSuffix at hsuffix
    split at hsuffix
    · split at hsuffix
      · cases hsuffix
      · cases hsuffix
        rw [List.length_tail]
        exact Nat.sub_le ..
    · cases hsuffix
      exact Nat.le_refl _
  dsimp only at hp
  split at hp
  · cases hp
    exact h₁
  · cases hp

theorem onRange_rest (hp : b.onRange n m s = .ok (b', s')) : s' = s := by
  unfold PostfixBuilder.onRange at hp
  dsimp only at hp
  split at hp
  · cases hp
  split at hp
  · cases hp
  split at hp
  · cases hp
  split at hp
  · cases hp
    rfl
  split at hp
  · cases hp
  · cases hp
    rfl

theorem parseCounts_length (h : parseCounts s = some (n, m, s')) : s'.length ≤ s.length := by
  have hdigits : ∀ t : Bytes, (t.dropWhile isAsciiDigit).length ≤ t.length :=
    fun t => (List.dropWhile_suffix _).length_le
  have htail : ∀ t : Bytes, t.tail.length ≤ t.length := by
    intro t
    rw [List.length_tail]
    exact Nat.sub_le ..
  unfold parseCounts at h
  split at h
  · cases h
  dsimp only at h
  split at h
  · split at h
    · split at h
      · cases h
        exact (htail _).trans ((hdigits _).trans ((htail _).trans (hdigits _)))
      · cases h
    · split at h
      · cases h
        exact (htail _).trans ((htail _).trans (hdigits _))
      · cases h
  · split at h
    · cases h
      exact (htail _).trans (hdigits _)
    · cases h

theorem onOpenBrace_length (hp : b.onOpenBrace mode s = .ok (b', s')) : s'.length ≤ s.length := by
  unfold PostfixBuilder.onOpenBrace at hp
  split at hp
  · cases hp
    exact Nat.le_refl _
  split at hp
  · cases hp
    exact Nat.le_refl _
  split at hp
  · cases hp
  split at hp
  · cases hp
  · rename_i hcounts
    rw [onRange_rest hp]
    exact parseCounts_length hcounts

theorem onOpenGroup_length (hp : b.onOpenGroup mode s = .ok (b', s')) : s'.length ≤ s.length := by
  obtain ⟨capturing, _, -, -, -, -, rfl⟩ := onOpenGroup_eq hp
  split
  · exact Nat.le_refl _
  · rw [List.length_drop]
    exact Nat.sub_le ..

theorem onEscape_length (hp : onEscape findCategory mode b r s = .ok (b', s')) :
    s'.length ≤ s.length := by
  unfold PostfixBuilder.onEscape at hp
  dsimp only at hp
  split at hp
  · obtain ⟨⟨b₁, ref, s₁⟩, hcategory, hp⟩ := bind_eq_ok.1 hp
    dsimp only at hp
    split at hp
    · cases hp
      exact parseUnicodeCategory_length hcategory
    · cases hp
  split at hp
  · split at hp
    · cases hp
    · cases hp
      exact Nat.le_refl _
  split at hp
  · split at hp
    · cases hp
    · rename_i hhex
      cases hp
      exact parseHexDigits_length hhex
  split at hp
  · split at hp
    · cases hp
    · cases hp
      exact Nat.le_refl _
  split at hp
  · cases hp
    exact Nat.le_refl _
  split at hp
  · cases hp
    exact Nat.le_refl _
  · cases hp

theorem Reads.length_le (h : Reads findCategory mode b s r b' s') : s'.length ≤ s.length := by
  cases h with
  | escape | dot | start | stop | closer | closeGroup | pipe | literal => exact Nat.le_refl _
  | charClass hclass => exact parseCharClass_length hclass
  | brace hbrace => exact onOpenBrace_length hbrace
  | openGroup hgroup => exact onOpenGroup_length hgroup
  | quantifier _ hquantifier => exact onQuantifier_length hquantifier

end Lengths

end PostfixBuilder

end Trieste.Regex
