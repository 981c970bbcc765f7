import Trieste.Json.Escape
import Trieste.Regex.ClassAlgebra
import Trieste.Regex.FullMatch
import Trieste.Regex.Groups
import Trieste.Utf8.WellFormed

namespace Trieste.Json
set_option autoImplicit true
open Regex Relation Utf8

/-- The pattern of the rule for strings in `parse.cc`. -/
def stringPattern : String :=
  "\"(?:[^\"\\\\\\x00-\\x1F]+|\\\\[\"\\\\\\/bfnrt]|\\\\u[[:xdigit:]]{4})*\""

def stringEngine : RegexEngine :=
  .ofPattern (fun _ => none) (stringPattern.toList.map Char.toUInt8)

/-- The double quote, the backslash and the characters below the space. -/
def delimiters : ClassTerm :=
  .addRange (.addRange (.addRange .empty 0x22 0x22 (by decide)) 0x5C 0x5C (by decide)) 0 0x1F
    (by decide)

/-- A run of ordinary characters, an escape of two characters, or a code of four digits. -/
def stringItem : Regexp :=
  .alt
    (.alt (.oneOrMore false (.classRef 0)) (.cat (.literal 0x5C) (.classRef 1)))
    (.cat (.cat (.literal 0x5C) (.literal 0x75))
      (.cat (.cat (.cat (.classRef 2) (.classRef 2)) (.classRef 2)) (.classRef 2)))

def stringTree : Regexp :=
  .cat (.cat (.literal 0x22) (.zeroOrMore false stringItem)) (.literal 0x22)

deriving instance DecidableEq for RuneClass, PatternTree

def letters : RuneClass := RuneClass.finalize
  { ranges := [0x22, 0x5C, 0x2F, 0x62, 0x66, 0x6E, 0x72, 0x74].map fun c => (c, c) }

def hexDigits : RuneClass := RuneClass.finalize { ranges := [(0x30, 0x39), (0x41, 0x46), (0x61, 0x66)] }

def stringClasses : List RuneClass := [delimiters.build.finalize.complement, letters, hexDigits]

theorem stringPattern_tree : PatternTree.parse (fun _ => none)
    (stringPattern.toList.map Char.toUInt8) = some ⟨stringTree, stringClasses, 0⟩ := by
  decide +kernel

theorem stringEngine_compile : stringEngine = .compile stringTree.toPostfix stringClasses 0 :=
  RegexEngine.ofPattern_eq stringPattern_tree

theorem stringEngine_ok : stringEngine.ok = true := by
  rw [stringEngine_compile]
  decide +kernel

theorem stringTree_wellFormed : stringTree.WellFormed stringClasses := by
  simp only [stringTree, stringItem, Regexp.WellFormed]
  decide

theorem fullMatch_string (hctx : MatchContext.LeftOver ctx) (self : Nat) (text : List UInt8) :
    ((TRegex.init stringEngine).fullMatch self text ctx).1 = true ↔
      stringTree.Matches (.ofText stringClasses text true) 0 (runes text).length := by
  have hok := stringEngine_ok
  simp only [TRegex.fullMatch, TRegex.init, hok, TRegex.matchText, Bool.not_true,
    Bool.false_eq_true, if_false, beq_iff_eq]
  rw [stringEngine_compile] at hok ⊢
  exact RegexEngine.findPrefix_whole stringTree_wellFormed hok hctx self text true

theorem nextRune_encode (c : Char) (rest : List UInt8) :
    nextRune (String.utf8EncodeChar c ++ rest) 0 =
      some (c.toNat, (String.utf8EncodeChar c).length) := by
  have hdecode := utf8ToRune_encode c rest
  have hne : String.utf8EncodeChar c ≠ [] := List.ne_nil_of_length_pos
    (String.length_utf8EncodeChar c ▸ c.utf8Size_pos)
  rw [nextRune, if_pos (List.length_pos_of_ne_nil (List.append_ne_nil_of_left_ne_nil hne rest))]
  apply congrArg
  rw [← hdecode]
  obtain ⟨b, bytes, hb⟩ := List.exists_cons_of_ne_nil hne
  rw [hb, List.cons_append, decodeRune, List.getElem?_cons_zero]
  dsimp only
  split
  · next hb =>
    have hone := utf8ToRune_one (of_decide_eq_true hb) (bytes ++ rest)
    rw [UInt8.ofNat_toNat] at hone
    exact hone.symm
  · rfl

theorem runes_cons (c : Char) (rest : List UInt8) :
    runes (String.utf8EncodeChar c ++ rest) = c.toNat :: runes rest := by
  have hnext := nextRune_encode c rest
  have hoffset : offset (String.utf8EncodeChar c ++ rest) 1 = (String.utf8EncodeChar c).length :=
    (offset_succ hnext).trans (Nat.zero_add _)
  have hdrop := runes_drop (String.utf8EncodeChar c ++ rest) 1
  have hhead := getElem?_runes (String.utf8EncodeChar c ++ rest) 0
  rw [hoffset, List.drop_left] at hdrop
  change _ = (nextRune (String.utf8EncodeChar c ++ rest) 0).map Prod.fst at hhead
  rw [hnext, Option.map_some] at hhead
  rw [hdrop]
  cases hr : runes (String.utf8EncodeChar c ++ rest) with
  | nil =>
    rw [hr] at hhead
    cases hhead
  | cons r runes =>
    rw [hr, List.getElem?_cons_zero] at hhead
    cases hhead
    rfl

theorem runes_encode (text : List Char) : runes (encode text) = text.map Char.toNat := by
  induction text with
  | nil => rfl
  | cons c text ih =>
    rw [encode, List.flatMap_cons, runes_cons, List.map_cons]
    exact congrArg _ ih

theorem utf8EncodeChar_ascii (b : UInt8) (h : b.toNat < 0x80) :
    String.utf8EncodeChar (Char.ofUInt8 b) = [b] := by
  have hval : (Char.ofUInt8 b).val.toNat = b.toNat := rfl
  have hle : (Char.ofUInt8 b).val.toNat ≤ 0x7F := Nat.le_of_lt_succ h
  rw [String.utf8EncodeChar, if_pos hle, hval, UInt8.ofNat_toNat]

theorem runes_ascii (h : ∀ b ∈ text, b.toNat < 0x80) : runes text = text.map UInt8.toNat := by
  induction text with
  | nil => rfl
  | cons b text ih =>
    rw [List.forall_mem_cons] at h
    have hcons := runes_cons (Char.ofUInt8 b) text
    rw [utf8EncodeChar_ascii b h.1, ih h.2] at hcons
    exact hcons

theorem escape_append (s t : List UInt8) : escape (s ++ t) = escape s ++ escape t := by
  induction s with
  | nil => rfl
  | cons c s ih =>
    rw [List.cons_append, escape, escape, ih]
    split <;> rfl

theorem escape_of_none (h : ∀ b ∈ s, escapeLetter b = none) : escape s = s := by
  induction s with
  | nil => rfl
  | cons b s ih =>
    rw [List.forall_mem_cons] at h
    rw [escape, h.1, ih h.2]

def escapedChar (c : Char) : List Char :=
  match (if c.toNat < 0x80 then escapeLetter (.ofNat c.toNat) else none) with
  | some letter => ['\\', Char.ofUInt8 letter]
  | none => [c]

theorem escapeLetter_lt (h : escapeLetter b = some letter) : b.toNat < 0x80 ∧
    encode ['\\', Char.ofUInt8 letter] = [Utf8.backslash, letter] := by
  unfold escapeLetter at h
  repeat' split at h
  all_goals cases h
  all_goals subst b; decide

theorem utf8EncodeChar_high (hc : 0x80 ≤ c.toNat) :
    ∀ b ∈ String.utf8EncodeChar c, 0x80 ≤ b.toNat := by
  have hval : c.toNat = c.val.toNat := rfl
  have hge : ∀ n mark, 0x80 ≤ mark → n + mark < 256 → 0x80 ≤ (UInt8.ofNat (n + mark)).toNat := by
    intro n mark hmark hlt
    rw [UInt8.toNat_ofNat_of_lt' hlt]
    omega
  rw [hval] at hc
  rw [String.utf8EncodeChar]
  generalize c.val.toNat = v at hc
  rw [if_neg (Nat.not_le.2 hc)]
  repeat' split
  all_goals simp only [List.forall_mem_cons, List.not_mem_nil, false_implies, implies_true]
  all_goals repeat' constructor
  all_goals exact hge _ _ (by decide) (by omega)

theorem escape_utf8EncodeChar (c : Char) :
    escape (String.utf8EncodeChar c) = encode (escapedChar c) := by
  have hval : c.toNat = c.val.toNat := rfl
  rw [escapedChar]
  by_cases hc : c.toNat < 0x80
  · have hone : String.utf8EncodeChar c = [UInt8.ofNat c.toNat] :=
      if_pos (Nat.le_of_lt_succ hc)
    rw [if_pos hc, hone, escape]
    cases hletter : escapeLetter (.ofNat c.toNat) with
    | some letter => exact (escapeLetter_lt hletter).2.symm
    | none => exact hone.symm.trans (List.append_nil _).symm
  · rw [if_neg hc, escape_of_none]
    · exact (List.append_nil _).symm
    · intro b hb
      have hhigh := utf8EncodeChar_high (Nat.le_of_not_lt hc) b hb
      cases hletter : escapeLetter b with
      | none => rfl
      | some letter => exact absurd (escapeLetter_lt hletter).1 (Nat.not_lt.2 hhigh)

theorem escape_encode (text : List Char) :
    escape (encode text) = encode (text.flatMap escapedChar) := by
  induction text with
  | nil => rfl
  | cons c text ih =>
    have hcons : encode (c :: text) = String.utf8EncodeChar c ++ encode text := List.flatMap_cons
    rw [hcons, escape_append, escape_utf8EncodeChar, ih, encode, encode, encode,
      List.flatMap_cons, List.flatMap_append]

theorem plain_contains {c : Char} (hcontrol : 0x20 ≤ c.toNat) (hquote : c.toNat ≠ 0x22)
    (hbackslash : c.toNat ≠ 0x5C) :
    (delimiters.build.finalize.complement).contains c.toNat = true := by
  obtain ⟨hhas, hnot⟩ := delimiters.contains_build c
  rw [hnot, Bool.not_eq_true', ← Bool.not_eq_true, hhas]
  simp only [delimiters, ClassTerm.Has, false_or]
  omega

theorem letter_contains (h : escapeLetter b = some letter) :
    letters.contains (Char.ofUInt8 letter).toNat = true := by
  unfold escapeLetter at h
  repeat' split at h
  all_goals cases h
  all_goals decide +kernel

theorem contains_control : ∀ c ∈ stringClasses, ∀ r < 0x20, c.contains r = false := by
  decide +kernel

theorem stringTree_all : stringTree.All stringClasses (0x20 ≤ ·) := by
  have hclass : ∀ index, (Regexp.classRef index).All stringClasses (0x20 ≤ ·) := by
    intro index c hc r hr
    apply Nat.le_of_not_lt
    intro hlt
    rw [contains_control c (List.mem_of_getElem? hc) r hlt] at hr
    cases hr
  have hquote : (Regexp.literal 0x22).All stringClasses (0x20 ≤ ·) :=
    (by decide : 0x20 ≤ 0x22)
  have hbackslash : (Regexp.literal 0x5C).All stringClasses (0x20 ≤ ·) :=
    (by decide : 0x20 ≤ 0x5C)
  have hcode : (Regexp.literal 0x75).All stringClasses (0x20 ≤ ·) :=
    (by decide : 0x20 ≤ 0x75)
  have hdigits : (Regexp.cat (.classRef 2) (.classRef 2)).All stringClasses (0x20 ≤ ·) :=
    ⟨hclass 2, hclass 2⟩
  exact ⟨⟨hquote, ⟨hclass 0, hbackslash, hclass 1⟩, ⟨hbackslash, hcode⟩,
    ⟨hdigits, hclass 2⟩, hclass 2⟩, hquote⟩

theorem matched_runes {text : List UInt8}
    (h : stringTree.Matches (.ofText stringClasses text true) 0 (runes text).length) :
    ∀ r ∈ runes text, 0x20 ≤ r := by
  have hall := h.all stringTree_all
  rwa [Input.slice, List.drop_zero, Nat.sub_zero, Input.ofText, List.take_length] at hall

theorem escapedChar_matches {x : Input} {c : Char} (hx : x.classes = stringClasses)
    (hc : c.toNat < 0x20 → needsEscape (.ofNat c.toNat) = true)
    (hrunes : x.runes.drop i = (escapedChar c).map Char.toNat ++ rest) :
    stringItem.Matches x i (i + (escapedChar c).length) := by
  have hrune : ∀ k, x.runes[i + k]? = ((escapedChar c).map Char.toNat ++ rest)[k]? := by
    intro k
    rw [← hrunes, List.getElem?_drop]
  rw [escapedChar] at hrune ⊢
  split at hrune
  · next letter hletter =>
    split at hletter
    · refine .inl (.inr ⟨i + 1, ⟨hrune 0, rfl⟩, ⟨letters, (Char.ofUInt8 letter).toNat, ?_⟩, rfl⟩)
      exact ⟨by rw [hx]; rfl, hrune 1, letter_contains hletter⟩
    · cases hletter
  · next hnone =>
    have hplain : c.toNat < 0x80 → escapeLetter (.ofNat c.toNat) = none := by
      intro hlt
      rwa [if_pos hlt] at hnone
    refine .inl (.inl (.single ⟨⟨delimiters.build.finalize.complement, c.toNat, ?_⟩, rfl⟩))
    refine ⟨by rw [hx]; rfl, hrune 0, plain_contains ?_ ?_ ?_⟩
    · apply Nat.le_of_not_lt
      intro hlt
      have hneeds := hc hlt
      rw [needsEscape, hplain (hlt.trans (by decide))] at hneeds
      cases hneeds
    · intro heq
      have hquote := hplain (heq ▸ by decide)
      rw [heq] at hquote
      cases hquote
    · intro heq
      have hbackslash := hplain (heq ▸ by decide)
      rw [heq] at hbackslash
      cases hbackslash

theorem text_matches {x : Input} {text : List Char} (hx : x.classes = stringClasses)
    (hc : ∀ c ∈ text, c.toNat < 0x20 → needsEscape (.ofNat c.toNat) = true)
    (hrunes : x.runes.drop i = (text.flatMap escapedChar).map Char.toNat ++ rest) :
    (Regexp.zeroOrMore false stringItem).Matches x i (i + (text.flatMap escapedChar).length) := by
  induction text generalizing i with
  | nil => exact .refl
  | cons c text ih =>
    rw [List.forall_mem_cons] at hc
    rw [List.flatMap_cons, List.map_append, List.append_assoc] at hrunes
    have hfirst := escapedChar_matches hx hc.1 hrunes
    have hdrop : x.runes.drop (i + (escapedChar c).length) =
        (text.flatMap escapedChar).map Char.toNat ++ rest := by
      rw [← List.drop_drop, hrunes, ← List.length_map Char.toNat, List.drop_left]
    rw [List.flatMap_cons, List.length_append, ← Nat.add_assoc]
    exact ReflTransGen.head hfirst (ih hc.2 hdrop)

/-- The control characters of a string are among those that `escape` writes with a letter. -/
def ControlsEscaped (s : List UInt8) : Prop := ∀ b ∈ s, b < 0x20 → needsEscape b = true

theorem controlsEscaped_encode (text : List Char) : ControlsEscaped (encode text) ↔
    ∀ c ∈ text, c.toNat < 0x20 → needsEscape (.ofNat c.toNat) = true := by
  have hbytes : ∀ c : Char, c.toNat < 0x80 → String.utf8EncodeChar c = [.ofNat c.toNat] :=
    fun c hc => if_pos (Nat.le_of_lt_succ hc)
  constructor
  · intro h c hc hlt
    have hmem : UInt8.ofNat c.toNat ∈ encode text := by
      apply List.mem_flatMap_of_mem hc
      rw [hbytes c (hlt.trans (by decide))]
      exact List.mem_singleton_self _
    apply h _ hmem
    rwa [UInt8.lt_iff_toNat_lt, UInt8.toNat_ofNat_of_lt' (hlt.trans (by decide))]
  · intro h b hb hlt
    obtain ⟨c, hc, hb⟩ := List.mem_flatMap.1 hb
    have hc' : c.toNat < 0x80 := by
      apply Nat.lt_of_not_le
      intro hge
      exact absurd (utf8EncodeChar_high hge b hb) (Nat.not_le.2 (hlt.trans (by decide)))
    rw [hbytes c hc', List.mem_singleton] at hb
    subst hb
    rw [UInt8.lt_iff_toNat_lt, UInt8.toNat_ofNat_of_lt' (hc'.trans (by decide))] at hlt
    exact h c hc hlt

/-- Between quotes, an escaped string is read whole exactly where every control character in it has
an escape of two characters. -/
theorem escape_matched_iff (hs : WellFormed s) (hctx : MatchContext.LeftOver ctx) (self : Nat) :
    ((TRegex.init stringEngine).fullMatch self (0x22 :: escape s ++ [0x22]) ctx).1 = true ↔
      ControlsEscaped s := by
  obtain ⟨text, rfl⟩ := hs
  have hquoted : 0x22 :: escape (encode text) ++ [0x22] =
      encode ('"' :: text.flatMap escapedChar ++ ['"']) := by
    rw [escape_encode, encode, encode, List.flatMap_append]
    rfl
  have hrunes : runes (0x22 :: escape (encode text) ++ [0x22]) =
      0x22 :: (text.flatMap escapedChar).map Char.toNat ++ [0x22] := by
    rw [hquoted, runes_encode, List.map_append]
    rfl
  rw [fullMatch_string hctx, controlsEscaped_encode]
  constructor
  · intro hm c hc hlt
    have hall := matched_runes hm
    rw [hrunes] at hall
    cases hneeds : needsEscape (.ofNat c.toNat) with
    | true => rfl
    | false =>
      have hchar : escapedChar c = [c] := by
        rw [needsEscape, Option.isSome_eq_false_iff, Option.isNone_iff_eq_none] at hneeds
        rw [escapedChar, hneeds, ite_self]
      have hmem : c ∈ text.flatMap escapedChar := by
        apply List.mem_flatMap_of_mem hc
        rw [hchar]
        exact List.mem_singleton_self c
      refine absurd (hall c.toNat ?_) (Nat.not_le.2 hlt)
      exact List.mem_append_left _ (List.mem_cons_of_mem _ (List.mem_map_of_mem hmem))
  · intro h
    have hlength : (runes (0x22 :: escape (encode text) ++ [0x22])).length =
        1 + (text.flatMap escapedChar).length + 1 := by
      rw [hrunes, List.length_append, List.length_cons, List.length_map, Nat.add_comm 1]
      rfl
    have hopen : (runes (0x22 :: escape (encode text) ++ [0x22]))[0]? = some 0x22 := by
      rw [hrunes]
      rfl
    have hclose : (runes (0x22 :: escape (encode text) ++ [0x22]))[
        1 + (text.flatMap escapedChar).length]? = some 0x22 := by
      have hpos : 1 + (text.flatMap escapedChar).length =
          (0x22 :: (text.flatMap escapedChar).map Char.toNat).length := by
        rw [List.length_cons, List.length_map, Nat.add_comm]
      rw [hrunes, hpos, List.getElem?_concat_length]
    have hdrop : (runes (0x22 :: escape (encode text) ++ [0x22])).drop 1 =
        (text.flatMap escapedChar).map Char.toNat ++ [0x22] := congrArg (List.drop 1) hrunes
    rw [hlength]
    exact ⟨_, ⟨1, ⟨hopen, rfl⟩, text_matches rfl h hdrop⟩, hclose, rfl⟩

/-- A text with a quote, a backslash, a tabulator and a character of two bytes. -/
theorem escape_matched_quote :
    ((TRegex.init stringEngine).fullMatch 1
      (0x22 :: escape [0x61, 0x22, 0x5C, 0x09, 0xC3, 0xA9] ++ [0x22]) {}).1 = true ↔
        ControlsEscaped [0x61, 0x22, 0x5C, 0x09, 0xC3, 0xA9] :=
  escape_matched_iff ⟨['a', '"', '\\', '\t', 'é'], by decide⟩ .fresh 1

/-- The control character U+0001 is written as it is. -/
theorem escape_matched_control :
    WellFormed [0x01] ∧ escape [0x01] = [0x01] ∧
    ((TRegex.init stringEngine).fullMatch 1 (0x22 :: escape [0x01] ++ [0x22]) {}).1 = false := by
  refine ⟨⟨[Char.ofNat 1], by decide⟩, rfl, ?_⟩
  rw [Bool.eq_false_iff]
  intro hm
  have hall := matched_runes ((fullMatch_string .fresh 1 _).1 hm)
  exact absurd (hall 1 (by decide)) (by decide)

end Trieste.Json
