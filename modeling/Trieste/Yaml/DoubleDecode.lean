import Mathlib.Tactic.Ring
import Trieste.Yaml.DoubleQuoted

namespace Trieste.Yaml
set_option autoImplicit true
open Utf8 Json Library

/-- The marks of a text, where a backslash takes the character behind it along. -/
def readMarks : Bool → Text → Nat
  | _, [] => 0
  | false, c :: input =>
    if c = backslash then readMarks true input else marks [c] + readMarks false input
  | true, c :: input => marks [c] + readMarks false input

theorem readMarks_backslash (input : Text) :
    readMarks false (backslash :: input) = readMarks true input := if_pos rfl

theorem readMarks_cons (h : c ≠ backslash) (input : Text) :
    readMarks false (c :: input) = marks [c] + readMarks false input := if_neg h

theorem marks_backslash : marks [backslash] = 1 := rfl

theorem readMarks_pending (input : Text) : readMarks false input ≤ readMarks true input ∧
    readMarks true input ≤ readMarks false input + 1 := by
  induction input with
  | nil => exact ⟨Nat.le_refl 0, Nat.zero_le 1⟩
  | cons c input ih =>
    obtain ⟨hle, hle'⟩ := ih
    by_cases hc : c = backslash
    · subst hc
      rw [readMarks_backslash, readMarks, marks_backslash]
      omega
    · rw [readMarks_cons hc, readMarks]
      omega

theorem readMarks_high {bytes : Text} (h : ∀ c ∈ bytes, 0x80 ≤ c) (input : Text) :
    readMarks false (bytes ++ input) = readMarks false input := by
  induction bytes with
  | nil => rfl
  | cons c bytes ih =>
    have hc := h c List.mem_cons_self
    have hne : c ≠ backslash := by
      rintro rfl
      exact absurd hc (by decide)
    have hmark : marks [c] = 0 := marks_high fun d hd => by rwa [List.mem_singleton.1 hd]
    rw [List.cons_append, readMarks_cons hne, hmark, Nat.zero_add,
      ih fun d hd => h d (List.mem_cons_of_mem _ hd)]

theorem readMarks_rune (pending : Bool) (value : Nat) (input : Text) :
    readMarks pending (writeRune value ++ input) ≤
      marks (writeRune value) + readMarks false input := by
  by_cases hv : value ≤ max1
  · rw [writeRune_ascii hv, List.singleton_append]
    cases pending with
    | true => exact Nat.le_refl _
    | false =>
      by_cases hc : UInt8.ofNat value = backslash
      · rw [hc, readMarks_backslash, marks_backslash]
        have hle := (readMarks_pending input).2
        omega
      · rw [readMarks_cons hc]
  · have hhigh := writeRune_high hv
    rw [marks_high hhigh]
    cases pending with
    | false => rw [readMarks_high hhigh, Nat.zero_add]
    | true =>
      obtain ⟨c, bytes, hrune⟩ := List.exists_cons_of_ne_nil (writeRune_ne_nil value)
      rw [hrune] at hhigh ⊢
      have hmark : marks [c] = 0 := marks_high fun d hd => by
        rw [List.mem_singleton.1 hd]
        exact hhigh c List.mem_cons_self
      rw [List.cons_append, readMarks, hmark,
        readMarks_high fun d hd => hhigh d (List.mem_cons_of_mem _ hd)]

theorem escapeChar_cases (c : UInt8) :
    (∃ item : Item, escapeChar c = item.text ∧ marks item.denotes ≤ marks [c]) ∨
      escapeChar c = [backslash, c] ∧ ∀ letter : Letter, letter.byte ≠ c := by
  rw [escapeChar]
  split
  · exact .inl ⟨.escape .n, rfl, Nat.zero_le _⟩
  split
  · exact .inl ⟨.escape .r, rfl, Nat.zero_le _⟩
  split
  · exact .inl ⟨.escape .b, rfl, Nat.zero_le _⟩
  split
  · exact .inl ⟨.escape .f, rfl, Nat.zero_le _⟩
  split
  · exact .inl ⟨.escape .t, rfl, Nat.zero_le _⟩
  split
  · next hc =>
    rcases hc with rfl | rfl
    · exact .inl ⟨.plain 0x20 (by decide), rfl, Nat.zero_le _⟩
    · exact .inl ⟨.plain 0x2F (by decide), rfl, Nat.zero_le _⟩
  · by_cases hletter : ∃ letter : Letter, letter.byte = c
    · obtain ⟨letter, rfl⟩ := hletter
      refine .inl ⟨.escape letter, rfl, ?_⟩
      cases letter with
      | backslash => exact Nat.le_refl 1
      | _ => exact Nat.zero_le _
    · exact .inr ⟨rfl, fun letter heq => hletter ⟨letter, heq⟩⟩

theorem escapeChar_head (c : UInt8) :
    ∃ d rest, escapeChar c = d :: rest ∧ hexDigit d = none := by
  rcases escapeChar_cases c with ⟨item, htext, -⟩ | ⟨htext, -⟩
  · have hall : ∀ c, (escapeChar c).head?.any fun d => hexDigit d = none :=
      forall_byte (by decide +kernel)
    cases hchar : escapeChar c with
    | nil => exact absurd (htext.symm.trans hchar) (List.append_nil item.text ▸ text_ne_nil item [])
    | cons d rest =>
      have hd := hall c
      rw [hchar] at hd
      exact ⟨d, rest, rfl, of_decide_eq_true hd⟩
  · exact ⟨backslash, [c], htext, rfl⟩

theorem escapeLoop_digit (d : Hex) (h : escapeLoop toEscape false input = d.byte :: out) :
    ∃ input', input = d.byte :: input' ∧ out = escapeLoop toEscape false input' := by
  have hchar : ∀ c rest, escapeChar c ++ rest ≠ d.byte :: out := by
    intro c rest heq
    obtain ⟨e, tail, htext, hnone⟩ := escapeChar_head c
    rw [htext, List.cons_append] at heq
    rw [(List.cons.inj heq).1, d.read] at hnone
    cases hnone
  cases input with
  | nil => cases h
  | cons c input =>
    rw [escapeLoop] at h
    split at h
    · exact absurd h (hchar c _)
    · split at h
      · cases input with
        | nil => cases h
        | cons c input =>
          rw [escapeLoop_pending] at h
          exact absurd h (hchar c _)
      · split at h
        · have hspace := (List.cons.inj h).1
          have hread := d.read
          rw [← hspace] at hread
          cases hread
        · obtain ⟨rfl, rfl⟩ := List.cons.inj h
          exact ⟨input, rfl, rfl⟩

theorem escapeLoop_digits (digits : List Hex) (out : Text)
    (h : escapeLoop toEscape false input = digits.map Hex.byte ++ out) :
    ∃ input', input = digits.map Hex.byte ++ input' ∧ out = escapeLoop toEscape false input' := by
  induction digits generalizing input with
  | nil => exact ⟨input, rfl, h.symm⟩
  | cons d digits ih =>
    obtain ⟨input', rfl, hout⟩ := escapeLoop_digit d h
    obtain ⟨input'', rfl, hrest⟩ := ih hout.symm
    exact ⟨input'', rfl, hrest⟩

theorem readMarks_digits (digits : List Hex) (input : Text) :
    readMarks false (digits.map Hex.byte ++ input) = readMarks false input := by
  induction digits with
  | nil => rfl
  | cons d digits ih =>
    have hmark : marks [d.byte] = 0 := marks_of_not_mark (isMark_hex d) []
    rw [List.map_cons, List.cons_append, readMarks_cons d.ne_backslash, hmark, ih, Nat.zero_add]

theorem weight_le_readMarks (pending : Bool) (input : Text) (items : List Item)
    (h : escapeLoop toEscape pending input = body items) :
    weight items ≤ readMarks pending input := by
  cases input with
  | nil =>
    rw [escapeLoop] at h
    cases items with
    | nil => exact Nat.zero_le _
    | cons item rest => exact absurd (h.trans (body_cons item rest)).symm (text_ne_nil item _)
  | cons c input =>
    have hitem : ∀ item : Item, body items = item.text ++ escapeLoop toEscape false input →
        weight items ≤ marks item.denotes + readMarks false input := by
      intro item hbody
      cases items with
      | nil => exact absurd hbody.symm (text_ne_nil item _)
      | cons item' rest =>
        rw [body_cons] at hbody
        obtain ⟨rfl, hrest⟩ := text_append_inj hbody
        rw [weight_cons]
        exact Nat.add_le_add_left (weight_le_readMarks false input rest hrest.symm) _
    have hchar : body items = escapeChar c ++ escapeLoop toEscape false input →
        weight items ≤ marks [c] + readMarks false input := by
      intro hbody
      rcases escapeChar_cases c with ⟨item, htext, hle⟩ | ⟨htext, hletter⟩
      · rw [htext] at hbody
        exact Nat.le_trans (hitem item hbody) (Nat.add_le_add_right hle _)
      · rw [htext] at hbody
        cases items with
        | nil => cases hbody
        | cons item rest =>
          rw [body_cons] at hbody
          cases item with
          | plain c' hc' => exact absurd (List.cons.inj hbody).1 hc'.2.2
          | escape letter =>
            exact absurd (List.cons.inj (List.cons.inj hbody).2).1 (hletter letter)
          | code d₁ d₂ d₃ d₄ =>
            -- the digits of a code unit are read one by one, and have no marks
            obtain ⟨rfl, hrest⟩ := List.cons.inj (List.cons.inj hbody).2
            obtain ⟨input', rfl, hloop⟩ :=
              escapeLoop_digits [d₁, d₂, d₃, d₄] (body rest) hrest.symm
            have ih := weight_le_readMarks false input' rest hloop.symm
            have hone : marks (Item.code d₁ d₂ d₃ d₄).denotes ≤ 1 := by
              rw [Item.denotes, encodeUtf8_eq]
              exact marks_writeRune _
            have hu : marks [0x75] = 1 := rfl
            rw [weight_cons, readMarks_digits, hu]
            omega
    cases pending with
    | true =>
      rw [escapeLoop_pending] at h
      exact hchar h.symm
    | false =>
      by_cases hc : c = backslash
      · subst hc
        rw [escapeLoop_backslash] at h
        rw [readMarks_backslash]
        exact weight_le_readMarks true input items h
      · rw [readMarks_cons hc]
        rw [escapeLoop] at h
        split at h
        · exact hchar h.symm
        · next hmem =>
          split at h
          · exact Nat.le_trans (hitem (.plain 0x20 (by decide)) h.symm)
              (Nat.add_le_add_right (Nat.zero_le _) _)
          · have hge : 0x20 ≤ c := body_ge items c (by rw [← h]; exact List.mem_cons_self)
            have hquote : c ≠ 0x22 := by
              rintro rfl
              exact hmem (by decide)
            exact hitem (.plain c ⟨hge, hquote, hc⟩) h.symm
termination_by input.length

theorem marks_le_of_denotes (h : Denotes (escapeLoop toEscape pending input) string) :
    marks string ≤ readMarks pending input := by
  obtain ⟨items, hbody, rfl⟩ := h
  rw [marks_assigned]
  exact weight_le_readMarks pending input items hbody

def scalarWeight (items : List QuotedChar) : Nat := marks (scalarString items)

theorem scalarWeight_cons (item : QuotedChar) (rest : List QuotedChar) :
    scalarWeight (item :: rest) = marks item.denotes + scalarWeight rest := by
  rw [scalarWeight, scalarString_cons, marks_append]
  rfl

theorem scalarWeight_suffix (h : rest <:+ items) : scalarWeight rest ≤ scalarWeight items := by
  obtain ⟨front, rfl⟩ := h
  have happend : scalarString (front ++ rest) = scalarString front ++ scalarString rest :=
    List.flatMap_append
  rw [scalarWeight, scalarWeight, happend, marks_append]
  exact Nat.le_add_left _ _

/-- What is left of a scalar when so many bytes are taken from it. -/
inductive ScalarCut (items : List QuotedChar) (n : Nat) : Text → Prop
  | whole (rest : List QuotedChar) : rest <:+ items → ScalarCut items n (scalarText rest)
  | half : (.escape .backslash :: rest) <:+ items →
      ScalarCut items n (backslash :: scalarText rest)
  | calm : (∀ c ∈ s, isMark c = false) → rest <:+ items → ScalarCut items n (s ++ scalarText rest)
  | code (front rest : List QuotedChar) (kind : UInt8) (digits : List Hex)
      (hkind : escapeDigits kind = some digits.length) (hvalid : (codeOf digits).isValidChar) :
      items = front ++ .code kind digits hkind hvalid :: rest →
      n = (scalarText front).length + 1 →
      ScalarCut items n (kind :: (digits.map Hex.byte ++ scalarText rest))

theorem isMark_escape {e : QuotedEscape} (h : e ≠ .backslash) : isMark e.byte = false := by
  cases e
  case backslash => exact absurd rfl h
  all_goals rfl

theorem isMark_digits (digits : List Hex) : ∀ c ∈ digits.map Hex.byte, isMark c = false := by
  intro c hc
  obtain ⟨d, -, rfl⟩ := List.mem_map.1 hc
  exact isMark_hex d

theorem ScalarCut.cons (h : ScalarCut rest n text) (item : QuotedChar) :
    ScalarCut (item :: rest) (n + item.text.length) text := by
  have hrest : rest <:+ item :: rest := List.suffix_cons item rest
  cases h with
  | whole _ hs => exact .whole _ (hs.trans hrest)
  | half hs => exact .half (hs.trans hrest)
  | calm hcalm hs => exact .calm hcalm (hs.trans hrest)
  | code front _ _ _ hkind hvalid he hn =>
    apply ScalarCut.code (item :: front) _ _ _ hkind hvalid
    · rw [he, List.cons_append]
    · rw [hn, scalarText_cons, List.length_append]
      omega

theorem cut_char (item : QuotedChar) (rest : List QuotedChar) (hn : n < item.text.length) :
    ScalarCut (item :: rest) n (item.text.drop n ++ scalarText rest) := by
  have hrest : rest <:+ item :: rest := List.suffix_cons item rest
  cases n with
  | zero => exact .whole (item :: rest) List.suffix_rfl
  | succ n =>
    cases item with
    | plain c h => exact absurd hn (by simp [QuotedChar.text])
    | escape e =>
      obtain rfl : n = 0 := by
        simp only [QuotedChar.text, List.length_cons, List.length_nil] at hn
        omega
      by_cases he : e = .backslash
      · rw [he]
        exact .half List.suffix_rfl
      · refine .calm (fun c hc => ?_) hrest
        obtain rfl := List.mem_singleton.1 hc
        exact isMark_escape he
    | code kind digits hkind hvalid =>
      cases n with
      | zero => exact .code [] rest kind digits hkind hvalid rfl rfl
      | succ n => exact .calm (fun c hc => isMark_digits digits c (List.mem_of_mem_drop hc)) hrest

theorem cut_scalar (items : List QuotedChar) (n : Nat) :
    ScalarCut items n ((scalarText items).drop n) := by
  induction items generalizing n with
  | nil =>
    rw [scalarText, List.flatMap_nil, List.drop_nil]
    exact .whole [] List.suffix_rfl
  | cons item rest ih =>
    by_cases hn : n < item.text.length
    · rw [scalarText_cons, List.drop_append_of_le_length (Nat.le_of_lt hn)]
      exact cut_char item rest hn
    · obtain ⟨k, rfl⟩ := Nat.exists_eq_add_of_le' (Nat.le_of_not_lt hn)
      rw [scalarText_cons, Nat.add_comm, List.drop_length_add_append, Nat.add_comm]
      exact (ih k).cons item

theorem unescape_calm {s : Text} (hs : ∀ c ∈ s, isMark c = false) (text : Text) :
    unescapeHexunicode (s ++ text) = (unescapeHexunicode text).map (s ++ ·) := by
  induction s with
  | nil =>
    rw [List.nil_append]
    cases unescapeHexunicode text <;> rfl
  | cons c s ih =>
    have hc : c ≠ backslash := by
      rintro rfl
      cases hs backslash List.mem_cons_self
    rw [List.cons_append, unescapeHexunicode_cons hc, ih fun d hd => hs d (List.mem_cons_of_mem _ hd)]
    cases unescapeHexunicode text <;> rfl

theorem readMarks_calm {s : Text} (hs : ∀ c ∈ s, isMark c = false) (input : Text) :
    readMarks false (s ++ input) = readMarks false input := by
  induction s with
  | nil => rfl
  | cons c s ih =>
    have hmark := hs c List.mem_cons_self
    have hc : c ≠ backslash := by
      rintro rfl
      cases hmark
    have hzero : marks [c] = 0 := marks_of_not_mark hmark []
    rw [List.cons_append, readMarks_cons hc, hzero, Nat.zero_add,
      ih fun d hd => hs d (List.mem_cons_of_mem _ hd)]

theorem kind_ne_backslash (h : escapeDigits kind = some n) : kind ≠ backslash := by
  rintro rfl
  cases h

/-- What is unescaped of the items, and of the items behind a backslash, has no more marks than
they stand for. -/
def ScalarBounded (items : List QuotedChar) : Prop :=
  (∀ input, unescapeHexunicode (scalarText items) = .ok input →
    readMarks false input ≤ scalarWeight items) ∧
  ∀ input, unescapeHexunicode (backslash :: scalarText items) = .ok input →
    readMarks true input ≤ scalarWeight items + 1

/-- Nor has a scalar that is cut, unless the cut is right behind the backslash of a code. -/
theorem readMarks_cut (hcut : ScalarCut items n text)
    (ih : ∀ rest, rest <:+ items → ScalarBounded rest) (h : unescapeHexunicode text = .ok input) :
    readMarks true input ≤ scalarWeight items + 1 ∧ (readMarks false input ≤ scalarWeight items ∨
      ∃ front kind digits hkind hvalid rest input',
        items = front ++ .code kind digits hkind hvalid :: rest ∧
        n = (scalarText front).length + 1 ∧ unescapeHexunicode (scalarText rest) = .ok input' ∧
        input = kind :: (digits.map Hex.byte ++ input')) := by
  have hpending := readMarks_pending input
  cases hcut with
  | whole rest hs =>
    have hle := (ih rest hs).1 input h
    have hweight := scalarWeight_suffix hs
    exact ⟨by omega, .inl (by omega)⟩
  | @half rest hs =>
    have hle := (ih rest ((List.suffix_cons _ rest).trans hs)).2 input h
    have hweight := scalarWeight_suffix hs
    have hone : marks (QuotedChar.escape .backslash).denotes = 1 := rfl
    rw [scalarWeight_cons, hone] at hweight
    exact ⟨by omega, .inl (by omega)⟩
  | @calm s rest hcalm hs =>
    rw [unescape_calm hcalm] at h
    obtain ⟨input', hinput, rfl⟩ := map_eq_ok.1 h
    have hle := (ih rest hs).1 input' hinput
    have hweight := scalarWeight_suffix hs
    have heq := readMarks_calm hcalm input'
    exact ⟨by omega, .inl (by omega)⟩
  | code front rest kind digits hkind hvalid he hn =>
    rw [unescapeHexunicode_cons (kind_ne_backslash hkind), unescape_calm (isMark_digits digits)] at h
    obtain ⟨input₁, hinput₁, rfl⟩ := map_eq_ok.1 h
    obtain ⟨input', hinput', rfl⟩ := map_eq_ok.1 hinput₁
    have hs : rest <:+ items := by
      rw [he, List.append_cons]
      exact List.suffix_append _ rest
    have hle := (ih rest hs).1 input' hinput'
    have hweight := scalarWeight_suffix hs
    have hone := marks_single kind
    refine ⟨?_, .inr ⟨front, kind, digits, hkind, hvalid, rest, input', he, hn, hinput', rfl⟩⟩
    rw [readMarks, readMarks_digits]
    omega

theorem startsEscape_scalar (h : startsEscape (scalarText items) = true) :
    ∃ kind hkind rest n, items = .plain kind hkind :: rest ∧ escapeDigits kind = some n ∧
      StartsEscape (scalarText items) (scalarText rest) n := by
  obtain ⟨digits, n, hs⟩ := startsEscape_iff.1 h
  obtain ⟨kind, he, hn, hlen⟩ := hs
  cases items with
  | nil => cases he
  | cons item rest =>
    cases item with
    | plain c hc =>
      cases he
      exact ⟨kind, hc, rest, n, rfl, hn, kind, rfl, hn, hlen⟩
    | escape e =>
      cases he
      cases hn
    | code kind' digits' =>
      cases he
      cases hn

theorem marks_kind (h : escapeDigits kind = some n) : marks [kind] = 1 := by
  have hmark : isMark kind = true := by rw [isMark, h, Option.isSome_some, Bool.or_true]
  rw [marks, List.countP_cons_of_pos hmark]
  rfl

theorem bounded_pending
    (hfirst : ∀ input, unescapeHexunicode (scalarText items) = .ok input →
      readMarks false input ≤ scalarWeight items)
    (ih : ∀ rest, rest.length < items.length → ScalarBounded rest)
    (h : unescapeHexunicode (backslash :: scalarText items) = .ok input) :
    readMarks true input ≤ scalarWeight items + 1 := by
  cases hs : startsEscape (scalarText items) with
  | false =>
    rw [unescapeHexunicode_of_not_starts (not_starts hs)] at h
    obtain ⟨input', hinput, rfl⟩ := map_eq_ok.1 h
    have hle := hfirst input' hinput
    rw [readMarks, marks_backslash]
    omega
  | true =>
    obtain ⟨kind, hkind, rest, n, rfl, hn, hstarts⟩ := startsEscape_scalar hs
    rw [unescapeHexunicode_of_starts hstarts] at h
    obtain ⟨value, -, h⟩ := bind_eq_ok.1 h
    obtain ⟨input', hinput, rfl⟩ := map_eq_ok.1 h
    have hcut := readMarks_cut (cut_scalar rest n)
      (fun rest' hrest' => ih rest' (Nat.lt_succ_of_le hrest'.length_le)) hinput
    have hle := (readMarks_pending input').1
    have hrune := readMarks_rune true (value % 2 ^ 32) input'
    have hone := marks_writeRune (value % 2 ^ 32)
    have hkind' : marks (QuotedChar.plain kind hkind).denotes = 1 := marks_kind hn
    rw [scalarWeight_cons, hkind']
    have hpending := hcut.1
    omega

theorem bounded_first (item : QuotedChar) (ih : ScalarBounded rest)
    (h : unescapeHexunicode (scalarText (item :: rest)) = .ok input) :
    readMarks false input ≤ scalarWeight (item :: rest) := by
  rw [scalarText_cons] at h
  rw [scalarWeight_cons]
  cases item with
  | plain c hc =>
    rw [QuotedChar.text, List.singleton_append, unescapeHexunicode_cons hc.2.2] at h
    obtain ⟨input', hinput, rfl⟩ := map_eq_ok.1 h
    rw [readMarks_cons hc.2.2]
    exact Nat.add_le_add_left (ih.1 input' hinput) _
  | escape e =>
    by_cases he : e = .backslash
    · subst he
      have hnot : startsEscape (backslash :: scalarText rest) = false := startsEscape_of_none rfl _
      rw [QuotedChar.text, List.cons_append, List.singleton_append] at h
      replace h := (unescapeHexunicode_of_not_starts (not_starts hnot)).symm.trans h
      obtain ⟨input', hinput, rfl⟩ := map_eq_ok.1 h
      have hle := ih.2 input' hinput
      have hone : marks (QuotedChar.escape .backslash).denotes = 1 := rfl
      rw [readMarks_backslash]
      omega
    · rw [QuotedChar.text, List.cons_append, List.singleton_append, unescape_quoted he] at h
      obtain ⟨input', hinput, rfl⟩ := map_eq_ok.1 h
      have hzero : marks [e.byte] = 0 := marks_of_not_mark (isMark_escape he) []
      have hle := ih.1 input' hinput
      rw [readMarks_backslash, readMarks, hzero]
      omega
  | code kind digits hkind hvalid =>
    rw [QuotedChar.text, List.cons_append, List.cons_append, unescape_code hkind hvalid] at h
    obtain ⟨input', hinput, rfl⟩ := map_eq_ok.1 h
    have hle := ih.1 input' hinput
    have hrune := readMarks_rune false (codeOf digits) input'
    rw [QuotedChar.denotes, encodeUtf8_eq]
    omega

theorem scalarBounded (items : List QuotedChar) : ScalarBounded items := by
  have ih : ∀ rest : List QuotedChar, rest.length < items.length → ScalarBounded rest :=
    fun rest _ => scalarBounded rest
  have hfirst : ∀ input, unescapeHexunicode (scalarText items) = .ok input →
      readMarks false input ≤ scalarWeight items := by
    intro input h
    cases items with
    | nil =>
      rw [scalarText, List.flatMap_nil, unescapeHexunicode] at h
      cases h
      exact Nat.zero_le _
    | cons item rest => exact bounded_first item (ih rest (Nat.lt_succ_self _)) h
  exact ⟨hfirst, fun input h => bounded_pending hfirst ih h⟩
termination_by items.length

theorem ofDigits_append_list (ds es : List Nat) :
    ofDigits (ds ++ es) = ofDigits ds * 16 ^ es.length + ofDigits es := by
  induction es using List.reverseRecOn with
  | nil => rw [List.append_nil, List.length_nil, Nat.pow_zero, Nat.mul_one]; rfl
  | append_singleton es d ih =>
    rw [← List.append_assoc, ofDigits_append, ofDigits_append, ih, List.length_append,
      List.length_singleton, Nat.pow_succ]
    ring

theorem codeOf_take {digits : List Hex} (h : codeOf digits < 0x80) (hk : k < digits.length) :
    codeOf (digits.take k) < 8 := by
  have hsplit : codeOf digits =
      codeOf (digits.take k) * 16 ^ (digits.drop k).length + codeOf (digits.drop k) := by
    have happend := ofDigits_append_list ((digits.take k).map Hex.digit)
      ((digits.drop k).map Hex.digit)
    rwa [← List.map_append, List.take_append_drop, List.length_map] at happend
  have hpow : 16 ^ 1 ≤ 16 ^ (digits.drop k).length := by
    apply Nat.pow_le_pow_right (by decide)
    rw [List.length_drop]
    omega
  have hmul : codeOf (digits.take k) * 16 ≤
      codeOf (digits.take k) * 16 ^ (digits.drop k).length := Nat.mul_le_mul_left _ hpow
  omega

theorem digits_front {front : List QuotedChar} {digits : List Hex}
    (h : scalarString front = digits.map Hex.byte) : ∃ k tail, k ≤ digits.length ∧
      scalarText front ++ [backslash] = (digits.take k).map Hex.byte ++ backslash :: tail := by
  induction front generalizing digits with
  | nil => exact ⟨0, [], Nat.zero_le _, rfl⟩
  | cons item front ih =>
    rw [scalarString_cons] at h
    rw [scalarText_cons, List.append_assoc]
    cases item with
    | plain c hc =>
      cases digits with
      | nil => cases h
      | cons d digits =>
        obtain ⟨rfl, hfront⟩ := List.cons.inj h
        obtain ⟨k, tail, hk, htext⟩ := ih hfront
        exact ⟨k + 1, tail, Nat.succ_le_succ hk, congrArg (d.byte :: ·) htext⟩
    | escape e => exact ⟨0, _, Nat.zero_le _, rfl⟩
    | code kind ds => exact ⟨0, _, Nat.zero_le _, rfl⟩

theorem length_scalarString_le (items : List QuotedChar) :
    (scalarString items).length ≤ (scalarText items).length := by
  induction items with
  | nil => exact Nat.le_refl 0
  | cons item rest ih =>
    have hitem : item.denotes.length ≤ item.text.length := by
      cases item with
      | plain c h => exact Nat.le_refl 1
      | escape e => exact Nat.le_succ 1
      | code kind digits hkind hvalid =>
        have hrune := length_writeRune_le (codeOf digits)
        have hlow := (kind_digits hkind).1
        rw [QuotedChar.denotes, encodeUtf8_eq, QuotedChar.text, List.length_cons, List.length_cons,
          List.length_map]
        omega
    rw [scalarString_cons, scalarText_cons, List.length_append, List.length_append]
    exact Nat.add_le_add hitem ih

/-- Digits in front of the backslash of a code do not stand for a backslash where the digits of
the code stand for these digits and for the character of the code. -/
theorem digits_ne_string {front rest : List QuotedChar} {digits : List Hex}
    (hkind : escapeDigits kind = some digits.length)
    (hlen : digits.length = (scalarText front).length + 1)
    (hvalue : stoul (scalarText front ++ [backslash]) = .ok value)
    (hbackslash : value % 2 ^ 32 = 0x5C) : digits.map Hex.byte ++ string ≠
      scalarString front ++ (encodeUtf8 (codeOf digits) ++ scalarString rest) := by
  intro heq
  have hfront := length_scalarString_le front
  have hlt : (scalarString front).length < digits.length := by omega
  have htake : scalarString front = (digits.take (scalarString front).length).map Hex.byte := by
    have h := congrArg (List.take (scalarString front).length) heq
    rw [List.take_left, List.take_append_of_le_length (by rw [List.length_map]; omega),
      ← List.map_take] at h
    exact h.symm
  have hbyte : ∃ d : Hex, ∃ tail, encodeUtf8 (codeOf digits) = d.byte :: tail := by
    have h := congrArg (List.drop (scalarString front).length) heq
    rw [List.drop_left, List.drop_append_of_le_length (by rw [List.length_map]; omega),
      ← List.map_drop, List.drop_eq_getElem_cons hlt, encodeUtf8_eq] at h
    obtain ⟨c, tail, hrune⟩ := List.exists_cons_of_ne_nil (writeRune_ne_nil (codeOf digits))
    rw [hrune] at h
    rw [encodeUtf8_eq, hrune]
    exact ⟨_, tail, congrArg (· :: tail) (List.cons.inj h).1.symm⟩
  have hone : codeOf digits < 0x80 := by
    obtain ⟨d, tail, hd⟩ := hbyte
    rw [encodeUtf8_eq] at hd
    by_contra hge
    have hlarge : ¬ codeOf digits ≤ max1 := fun hle => hge (Nat.lt_succ_of_le hle)
    have hhigh := writeRune_high hlarge d.byte (by rw [hd]; exact List.mem_cons_self)
    exact absurd d.plain.1 (UInt8.not_lt.2 hhigh)
  obtain ⟨k, tail, hk, htext⟩ := digits_front htake
  rw [List.length_take] at hk
  rw [htext, List.take_take, Nat.min_eq_left (by omega)] at hvalue
  have hsmall := codeOf_take (k := k) hone (by omega)
  cases hdigits : digits.take k with
  | nil =>
    rw [hdigits, List.map_nil, List.nil_append, stoul_backslash] at hvalue
    cases hvalue
  | cons d ds =>
    have hshort : ds.length < 16 := by
      have hlen' := congrArg List.length hdigits
      have hhigh := (kind_digits hkind).2
      rw [List.length_take, List.length_cons] at hlen'
      omega
    have hread := stoul_hexes d ds hshort rfl (not_hexMark_backslash tail)
    rw [hdigits] at hvalue hsmall
    obtain rfl : codeOf (d :: ds) = value := Except.ok.inj (hread.symm.trans hvalue)
    omega

theorem kind_plain (h : escapeDigits kind = some n) : 0x20 ≤ kind ∧ hexDigit kind = none ∧
    kind ∉ toEscape ∧ isSpaceChar kind = false ∧ escapeChar kind = [backslash, kind] ∧
      ∀ letter : Letter, letter.byte ≠ kind := by
  have hkind : kind = 0x78 ∨ kind = 0x75 ∨ kind = 0x55 := by
    rw [escapeDigits] at h
    split at h
    · exact .inl ‹_›
    · split at h
      · exact .inr (.inl ‹_›)
      · split at h
        · exact .inr (.inr ‹_›)
        · cases h
  rcases hkind with rfl | rfl | rfl
  all_goals
    refine ⟨by decide, rfl, by decide, rfl, rfl, fun letter => ?_⟩
    cases letter <;> decide

theorem hex_ge (d : Hex) : 0x20 ≤ d.byte :=
  item_text_ge (.code d d d d) d.byte (List.mem_cons_of_mem _ (List.mem_cons_of_mem _ List.mem_cons_self))

theorem not_decodes_hidden (h : startsEscape (scalarText items) = true) (pending : Bool) :
    ¬ Decodes pending (backslash :: backslash :: scalarText items)
      ((if pending then [backslash] else []) ++ backslash :: scalarString items) := by
  intro hd
  obtain ⟨kind, hkind, rest, n, rfl, hn, hstarts⟩ := startsEscape_scalar h
  obtain ⟨out, hout, hd⟩ := hd
  have hnot : startsEscape (backslash :: scalarText (.plain kind hkind :: rest)) = false :=
    startsEscape_of_none rfl _
  rw [unescapeHexunicode_of_not_starts (not_starts hnot), unescapeHexunicode_of_starts hstarts]
    at hout
  obtain ⟨out', hout', rfl⟩ := map_eq_ok.1 hout
  obtain ⟨value, hvalue, hout'⟩ := bind_eq_ok.1 hout'
  obtain ⟨input, hinput, rfl⟩ := map_eq_ok.1 hout'
  obtain ⟨hle, hcut⟩ := readMarks_cut (cut_scalar rest n) (fun rest' _ => scalarBounded rest') hinput
  have hrune := marks_writeRune (value % 2 ^ 32)
  have hweight : marks (backslash :: scalarString (.plain kind hkind :: rest)) =
      2 + scalarWeight rest := by
    rw [marks_cons, scalarString_cons, QuotedChar.denotes, List.singleton_append,
      marks_cons kind, marks_kind hn, marks_backslash, scalarWeight]
    omega
  cases pending with
  | true =>
    rw [escapeLoop_pending] at hd
    have hd : Denotes (escapeLoop toEscape false (writeRune (value % 2 ^ 32) ++ input))
      (backslash :: scalarString (.plain kind hkind :: rest)) := denotes_backslash.1 hd
    by_cases hbackslash : value % 2 ^ 32 = 0x5C
    · rw [hbackslash] at hd
      have hmarks := marks_le_of_denotes hd
      have hpending : readMarks false (writeRune 0x5C ++ input) = readMarks true input :=
        readMarks_backslash input
      rw [hpending, hweight] at hmarks
      omega
    · obtain ⟨c, bytes, hbytes⟩ := List.exists_cons_of_ne_nil (writeRune_ne_nil (value % 2 ^ 32))
      have hc : c ≠ backslash := by
        rintro rfl
        by_cases hv : value % 2 ^ 32 ≤ max1
        · rw [writeRune_ascii hv] at hbytes
          exact ofNat_ne_backslash hv hbackslash (List.cons.inj hbytes).1
        · have hhigh := writeRune_high hv backslash (by rw [hbytes]; exact List.mem_cons_self)
          exact absurd hhigh (by decide)
      rw [hbytes] at hd
      exact hc (denotes_plain_head hc _ hd).symm
  | false =>
    rw [escapeLoop_backslash] at hd
    have hd : Denotes (escapeLoop toEscape true (writeRune (value % 2 ^ 32) ++ input))
      (backslash :: scalarString (.plain kind hkind :: rest)) := hd
    have hmarks := marks_le_of_denotes hd
    have hread := readMarks_rune true (value % 2 ^ 32) input
    have hpending := (readMarks_pending input).1
    rw [hweight] at hmarks
    obtain ⟨front, kind', digits, hkind', hvalid, rest', input', rfl, hlen, -, rfl⟩ :=
      hcut.resolve_left (by omega)
    have hv : value % 2 ^ 32 ≤ max1 := by
      by_contra hv
      rw [marks_high (writeRune_high hv)] at hread
      omega
    rw [writeRune_ascii hv] at hd hread hmarks
    rw [List.singleton_append, escapeLoop_pending] at hd
    by_cases hbackslash : value % 2 ^ 32 = 0x5C
    · -- the kinds are the same, and their digits are not
      rw [hbackslash] at hd
      have hd := denotes_backslash.1 hd
      have hw : isWritable kind' := .inl (kind_plain hkind').1
      obtain ⟨rfl, hd⟩ := (denotes_plain (kind_ne_backslash hkind') hw _).1 hd
      obtain rfl : n = digits.length := Option.some.inj (hn.symm.trans hkind')
      obtain ⟨string, hstring⟩ := denotes_bytes_head (fun c hc => by
        obtain ⟨d, -, rfl⟩ := List.mem_map.1 hc
        exact ⟨d.ne_backslash, .inl (hex_ge d)⟩) input' hd
      have happend : scalarString (front ++ .code kind digits hkind' hvalid :: rest') =
          scalarString front ++ (encodeUtf8 (codeOf digits) ++ scalarString rest') :=
        List.flatMap_append
      have htake : (scalarText (front ++ .code kind digits hkind' hvalid :: rest')).take
          digits.length = scalarText front ++ [backslash] := by
        have htext : scalarText (front ++ .code kind digits hkind' hvalid :: rest') =
            (scalarText front ++ [backslash]) ++ (kind :: (digits.map Hex.byte) ++ scalarText rest') := by
          rw [List.append_assoc]
          exact List.flatMap_append
        rw [htext]
        exact List.take_left' (by rw [List.length_append, List.length_singleton, hlen])
      rw [htake] at hvalue
      exact digits_ne_string hkind' hlen hvalue hbackslash (hstring.symm.trans happend)
    · -- a kind of an escape stands behind a backslash, and no digits are there
      have hne := ofNat_ne_backslash hv hbackslash
      have hmark : isMark (UInt8.ofNat (value % 2 ^ 32)) = true := by
        by_contra hnot
        have hzero : marks [UInt8.ofNat (value % 2 ^ 32)] = 0 :=
          marks_of_not_mark (Bool.eq_false_iff.2 hnot) []
        omega
      rw [isMark, decide_eq_false hne, Bool.false_or] at hmark
      obtain ⟨m, hm⟩ := Option.isSome_iff_exists.1 hmark
      obtain ⟨-, -, -, -, hchar, hletter⟩ := kind_plain hm
      obtain ⟨-, hdigit, hescape, hspace, -, -⟩ := kind_plain hkind'
      rw [hchar] at hd
      refine not_denotes_escape hletter (fun _ d hmem => ?_) hd
      rw [escapeLoop, if_neg hescape, if_neg (kind_ne_backslash hkind'), hspace,
        if_neg Bool.false_ne_true] at hmem
      obtain rfl := Option.some.inj hmem
      exact hdigit

theorem not_decodes_pending {item : QuotedChar} {rest : List QuotedChar}
    (h : ∀ e, item ≠ .escape e) : ¬ Decodes true (scalarText (item :: rest))
      (backslash :: scalarString (item :: rest)) := by
  intro hd
  obtain ⟨out, hout, hd⟩ := hd
  have hmarks := marks_le_of_denotes hd
  rw [marks_cons, marks_backslash] at hmarks
  change 1 + scalarWeight (item :: rest) ≤ readMarks true out at hmarks
  rw [scalarWeight_cons] at hmarks
  rw [scalarText_cons] at hout
  cases item with
  | plain c hc =>
    rw [QuotedChar.text, List.singleton_append, unescapeHexunicode_cons hc.2.2] at hout
    obtain ⟨input, hinput, rfl⟩ := map_eq_ok.1 hout
    have hle := (scalarBounded rest).1 input hinput
    rw [readMarks, QuotedChar.denotes] at hmarks
    omega
  | escape e => exact h e rfl
  | code kind digits hkind hvalid =>
    rw [QuotedChar.text, List.cons_append, List.cons_append, unescape_code hkind hvalid] at hout
    obtain ⟨input, hinput, rfl⟩ := map_eq_ok.1 hout
    have hle := (scalarBounded rest).1 input hinput
    have hrune := readMarks_rune true (codeOf digits) input
    rw [QuotedChar.denotes, encodeUtf8_eq] at hmarks
    omega

theorem decodes_iff (items : List QuotedChar) (pending : Bool) :
    Decodes pending (scalarText items)
        ((if pending then [backslash] else []) ++ scalarString items) ↔
      escapesKept pending items = true := by
  induction items generalizing pending with
  | nil =>
    have hempty : unescapeHexunicode [] = .ok [] := by rw [unescapeHexunicode]
    constructor
    · intro hd
      obtain ⟨out, hout, hd⟩ := hd
      cases pending with
      | false => rfl
      | true =>
        cases hempty.symm.trans hout
        cases denotes_nil.1 hd
    · intro h
      cases pending with
      | false => exact ⟨[], hempty, denotes_nil.2 rfl⟩
      | true => cases h
  | cons item rest ih =>
    cases item with
    | plain c hc =>
      cases pending with
      | true =>
        exact iff_of_false (not_decodes_pending fun e heq => by cases heq) Bool.false_ne_true
      | false =>
        have hw : isWritable c := hc.1.imp_right fun htab => by rw [htab]; rfl
        exact (decodes_plain hc.2.2 hw _).trans (ih false)
    | escape e =>
      by_cases he : e = .backslash
      · subst he
        rw [escapesKept, if_pos rfl, Bool.and_eq_true, Bool.not_eq_true', ← ih pending]
        have hstring : (if pending then [backslash] else []) ++
            scalarString (.escape .backslash :: rest) =
              backslash :: ((if pending then [backslash] else []) ++ scalarString rest) := by
          cases pending <;> rfl
        cases hs : startsEscape (scalarText rest) with
        | true =>
          refine iff_of_false (fun hd => ?_) fun hboth => Bool.false_ne_true hboth.1.symm
          exact not_decodes_hidden hs pending hd
        | false =>
          rw [and_iff_right rfl, hstring]
          exact decodes_backslash hs pending
      · rw [escapesKept, if_neg he, Bool.and_eq_true, ← ih false]
        cases pending with
        | false => exact decodes_escape he _
        | true => exact decodes_escape_pending he _
    | code kind digits hkind hvalid =>
      cases pending with
      | true =>
        exact iff_of_false (not_decodes_pending fun e heq => by cases heq) Bool.false_ne_true
      | false =>
        rw [escapesKept]
        by_cases hcode : codeOf digits = 0x5C
        · rw [if_pos hcode, ← ih true]
          have hstring : encodeUtf8 (codeOf digits) = [backslash] := by
            rw [hcode, encodeUtf8_eq]
            rfl
          rw [if_neg Bool.false_ne_true, List.nil_append, scalarString_cons, QuotedChar.denotes,
            hstring]
          exact decodes_code_backslash hkind hvalid hcode _
        · rw [if_neg hcode, Bool.and_eq_true, Bool.or_eq_true, decide_eq_true_eq, decide_eq_true_eq,
            ← ih false]
          exact decodes_code hkind hvalid hcode _

theorem escapeAt_cons (h : c ≠ backslash) :
    EscapeAt (c :: rest) c' rest' ↔ EscapeAt rest c' rest' := by
  constructor
  · intro hat
    cases hat with
    | here => exact absurd rfl h
    | escape => exact absurd rfl h
    | plain _ hat => exact hat
  · exact .plain h

theorem escapeAt_backslash : EscapeAt (backslash :: c :: rest) c' rest' ↔
    (c' = c ∧ rest' = rest) ∨ EscapeAt rest c' rest' := by
  constructor
  · intro hat
    cases hat with
    | here => exact .inl ⟨rfl, rfl⟩
    | escape hat => exact .inr hat
    | plain h => exact absurd rfl h
  · intro h
    rcases h with ⟨rfl, rfl⟩ | hat
    · exact .here
    · exact .escape hat

theorem not_escapeAt_nil : ¬ EscapeAt [] c' rest' := nofun

theorem not_escapeAt_single (c : UInt8) : ¬ EscapeAt [c] c' rest' := by
  intro hat
  cases hat with
  | plain _ hat => exact not_escapeAt_nil hat

theorem hasInvalidElement_iff (inner : Text) : hasInvalidElement inner = true ↔
    ∃ c rest, EscapeAt inner c rest ∧ c ≠ backslash ∧ c ∉ knownEscapes := by
  induction inner using hasInvalidElement.induct with
  | case1 rest ih =>
    rw [hasInvalidElement, if_pos rfl, if_pos rfl, ih]
    constructor
    · intro h
      obtain ⟨c, rest', hat, hc⟩ := h
      exact ⟨c, rest', .escape hat, hc⟩
    · intro h
      obtain ⟨c, rest', hat, hne, hc⟩ := h
      rcases escapeAt_backslash.1 hat with ⟨rfl, -⟩ | hat
      · exact absurd rfl hne
      · exact ⟨c, rest', hat, hne, hc⟩
  | case2 d rest hd hknown ih =>
    rw [hasInvalidElement, if_pos rfl, if_neg hd, if_pos hknown, ih]
    constructor
    · intro h
      obtain ⟨c, rest', hat, hc⟩ := h
      exact ⟨c, rest', .escape ((escapeAt_cons hd).1 hat), hc⟩
    · intro h
      obtain ⟨c, rest', hat, hne, hc⟩ := h
      rcases escapeAt_backslash.1 hat with ⟨rfl, -⟩ | hat
      · exact absurd hknown hc
      · exact ⟨c, rest', (escapeAt_cons hd).2 hat, hne, hc⟩
  | case3 d rest hd hknown =>
    rw [hasInvalidElement, if_pos rfl, if_neg hd, if_neg hknown]
    exact iff_of_true rfl ⟨d, rest, .here, hd, hknown⟩
  | case4 c d rest hc ih =>
    rw [hasInvalidElement, if_neg hc, ih]
    simp only [escapeAt_cons hc]
  | case5 inner hshort =>
    cases inner with
    | nil => exact iff_of_false Bool.false_ne_true fun h => not_escapeAt_nil h.choose_spec.choose_spec.1
    | cons c inner =>
      cases inner with
      | nil =>
        exact iff_of_false Bool.false_ne_true fun h =>
          not_escapeAt_single c h.choose_spec.choose_spec.1
      | cons d inner => exact absurd rfl (hshort c d inner)

theorem escapeAt_digits (digits : List Hex) (rest : Text) :
    EscapeAt (digits.map Hex.byte ++ rest) c' rest' ↔ EscapeAt rest c' rest' := by
  induction digits with
  | nil => exact Iff.rfl
  | cons d digits ih => exact (escapeAt_cons d.ne_backslash).trans ih

theorem not_truncated (items : List QuotedChar) : ¬ Truncated (scalarText items) := by
  intro h
  obtain ⟨kind, rest', n, hat, hn, hlack⟩ := h
  apply hlack
  clear hlack
  induction items with
  | nil => exact absurd hat not_escapeAt_nil
  | cons item rest ih =>
    rw [scalarText_cons] at hat
    cases item with
    | plain c hc => exact ih ((escapeAt_cons hc.2.2).1 hat)
    | escape e =>
      rcases escapeAt_backslash.1 hat with ⟨rfl, -⟩ | hat
      · have hnone : escapeDigits e.byte = none := by cases e <;> rfl
        cases hnone.symm.trans hn
      · exact ih hat
    | code kind' digits hkind hvalid =>
      rcases escapeAt_backslash.1 hat with ⟨rfl, rfl⟩ | hat
      · obtain rfl : n = digits.length := Option.some.inj (hn.symm.trans hkind)
        have hlen : (digits.map Hex.byte).length = digits.length := List.length_map _
        refine ⟨?_, fun c hc => ?_⟩
        · change digits.length ≤ (digits.map Hex.byte ++ scalarText rest).length
          rw [List.length_append, hlen]
          exact Nat.le_add_right _ _
        · change c ∈ (digits.map Hex.byte ++ scalarText rest).take digits.length at hc
          rw [List.take_left' hlen] at hc
          obtain ⟨d, -, rfl⟩ := List.mem_map.1 hc
          rw [d.read]
          rfl
      · exact ih ((escapeAt_digits digits _).1 hat)

/-- A double-quoted scalar on one line. -/
structure QuotedLine (text : Text) (l : Location) (inner : Text) : Prop where
  view : viewOf text l = quote :: (inner ++ [quote])
  single : newline ∉ inner ∧ carriageReturn ∉ inner

/-- A scalar that the reader accepts is written as a JSON string for what YAML says that it stands
for, and the reader accepts no scalar that lacks hexadecimal digits. -/
def DecodesAsYaml (text : Text) (l : Location) (minIndent : Nat) (inner : Text) : Prop :=
  (∀ lines, doubleQuote text minIndent l = .ok lines → Accepted lines →
    ∃ items, inner = scalarText items ∧ ∃ literal, quoteString .double lines = .ok literal ∧
      IsLiteral literal (scalarString items)) ∧
  (Truncated inner → ∃ message, doubleQuote text minIndent l = .error message)

theorem toLines_one {inner : Text} (h : QuotedLine text l inner) (minIndent : Nat) :
    toLines text minIndent l = [.block inner] :=
  toLines_single h.view h.single.1 minIndent

theorem quoteString_one (inner string : Text) :
    (∃ literal, quoteString .double [.block inner] = .ok literal ∧ IsLiteral literal string) ↔
      Decodes false inner string := by
  have hwritten : quoteString .double [.block inner] =
      (unescapeHexunicode inner).map fun input => quoted (escapeLoop toEscape false input) := by
    have hloop : quoteLoop .double false true [.block inner] = escapeChars toEscape inner := by
      rw [quoteLoop, if_neg (by simp), if_neg (by simp)]
      show (escapeChars toEscape inner).map (fun text => text) = _
      cases escapeChars toEscape inner <;> rfl
    rw [quoteString, quoteToString, hloop, escapeChars]
    cases unescapeHexunicode inner <;> rfl
  rw [hwritten]
  constructor
  · intro h
    obtain ⟨literal, hliteral, h⟩ := h
    obtain ⟨input, hinput, rfl⟩ := map_eq_ok.1 hliteral
    exact ⟨input, hinput, isLiteral_quoted.1 h⟩
  · intro h
    obtain ⟨input, hinput, h⟩ := h
    refine ⟨_, ?_, isLiteral_quoted.2 h⟩
    rw [hinput]
    rfl

theorem doubleQuote_one {inner : Text} (h : QuotedLine text l inner) (minIndent : Nat) :
    doubleQuote text minIndent l =
      if hasInvalidElement inner then .error "Invalid escape sequence" else .ok [.block inner] := by
  have hmessage : containsInvalidElements [.block inner] =
      if hasInvalidElement inner then "Invalid escape sequence" else "" := by
    simp [containsInvalidElements, QuoteLine.view]
  rw [doubleQuote, toLines_one h, hmessage]
  cases hasInvalidElement inner <;> rfl

/-- A double-quoted scalar on one line is decoded as YAML says if the reader rejects it for an
escape that it does not know, or if all its escapes are kept. -/
theorem double_quoted_iff {inner : Text} (h : QuotedLine text l inner) (minIndent : Nat) :
    DecodesAsYaml text l minIndent inner ↔
      (∃ c rest, EscapeAt inner c rest ∧ c ≠ backslash ∧ c ∉ knownEscapes) ∨
        ∃ items, inner = scalarText items ∧ escapesKept false items = true := by
  rw [← hasInvalidElement_iff, DecodesAsYaml, doubleQuote_one h]
  cases hinvalid : hasInvalidElement inner with
  | true =>
    refine iff_of_true ⟨fun lines hlines => ?_, fun _ => ⟨_, rfl⟩⟩ (.inl rfl)
    rw [if_pos rfl] at hlines
    cases hlines
  | false =>
    have haccepted : Accepted [.block inner] := by
      intro line hline msg heq
      rw [List.mem_singleton.1 hline] at heq
      cases heq
    rw [if_neg Bool.false_ne_true]
    constructor
    · intro hdecodes
      obtain ⟨items, rfl, hliteral⟩ := hdecodes.1 _ rfl haccepted
      exact .inr ⟨items, rfl, (decodes_iff items false).1 ((quoteString_one _ _).1 hliteral)⟩
    · intro hkept
      obtain ⟨items, rfl, hescapes⟩ := hkept.resolve_left Bool.false_ne_true
      refine ⟨fun lines hlines _ => ?_, fun htruncated => absurd htruncated (not_truncated items)⟩
      obtain rfl := Except.ok.inj hlines
      exact ⟨items, rfl, (quoteString_one _ _).2 ((decodes_iff items false).2 hescapes)⟩

/-- The scalar `a\x41\n`, with a character of its own, a code and a line break. -/
theorem double_quoted_code : DecodesAsYaml
    [quote, 0x61, backslash, 0x78, 0x34, 0x31, backslash, 0x6E, quote]
    { source := none, pos := 0, len := 9 } 0 [0x61, backslash, 0x78, 0x34, 0x31, backslash, 0x6E] := by
  apply (double_quoted_iff ⟨rfl, by decide⟩ 0).2
  exact .inr ⟨[.plain 0x61 (by decide), .code 0x78 [⟨0x34, 4, rfl⟩, ⟨0x31, 1, rfl⟩] rfl (by decide),
    .escape .n], rfl, by decide⟩

/-- The scalar `\a`, whose escape JSON does not have. -/
theorem bell_not_decoded :
    QuotedLine [quote, backslash, 0x61, quote] { source := none, pos := 0, len := 4 }
      [backslash, 0x61] ∧
    ¬ DecodesAsYaml [quote, backslash, 0x61, quote] { source := none, pos := 0, len := 4 } 0
      [backslash, 0x61] := by
  have hline : QuotedLine [quote, backslash, 0x61, quote] { source := none, pos := 0, len := 4 }
      [backslash, 0x61] := ⟨rfl, by decide⟩
  refine ⟨hline, fun h => ?_⟩
  have haccepted : Accepted [.block [backslash, 0x61]] := by
    intro line hline msg heq
    rw [List.mem_singleton.1 hline] at heq
    cases heq
  obtain ⟨items, hitems, hliteral⟩ := h.1 _ (doubleQuote_one hline 0) haccepted
  obtain ⟨out, hout, hd⟩ := (quoteString_one _ _).1 hliteral
  have hescape : QuotedEscape.a ≠ .backslash := by decide
  have hempty : unescapeHexunicode [] = .ok [] := by rw [unescapeHexunicode]
  have hread : unescapeHexunicode [backslash, 0x61] = .ok [backslash, 0x61] := by
    refine (unescape_quoted hescape []).trans ?_
    rw [hempty]
    rfl
  obtain rfl := Except.ok.inj (hread.symm.trans hout)
  have hwritten : escapeLoop toEscape false [backslash, 0x61] = [backslash, 0x61] := by decide
  have hu : (0x61 : UInt8) ≠ 0x75 := by decide
  rw [hwritten] at hd
  exact not_denotes_escape (fun letter => by cases letter <;> decide) (fun heq => absurd heq hu) hd

end Trieste.Yaml
