import Mathlib.Order.Nat
import Trieste.Json.StringBody

namespace Trieste.Json
set_option autoImplicit true
open Utf8 Library

/-- `unescape`, also with the second decoder behind a backslash. -/
def resume (pending : Bool) (text : List UInt8) : Except Exception (List UInt8) :=
  (unescapeHexunicode text).bind fun temp =>
    unescapeLetters (if pending then backslash :: temp else temp)

def afterRune (pending : Bool) (value : Nat) (text : List UInt8) :
    Except Exception (List UInt8) :=
  (unescapeHexunicode text).bind fun temp =>
    unescapeLetters (if pending then backslash :: (writeRune value ++ temp)
      else writeRune value ++ temp)

theorem map_bind' {α β γ : Type} (x : Except Exception α) (f : α → β)
    (g : β → Except Exception γ) : (x.map f).bind g = x.bind fun a => g (f a) :=
  map_bind x f g

theorem bind_map' {α β γ : Type} (x : Except Exception α) (f : β → γ)
    (g : α → Except Exception β) : (x.bind g).map f = x.bind fun a => (g a).map f :=
  bind_map x f g

theorem resume_plain (hc : c ≠ backslash) (text : List UInt8) :
    resume false (c :: text) = (resume false text).map (c :: ·) := unescape_cons hc text

theorem resume_letter (hc : c ≠ backslash) (hl : unescapeLetter c = some letter)
    (text : List UInt8) : resume true (c :: text) = (resume false text).map (letter :: ·) := by
  rw [resume, unescapeHexunicode_cons hc, map_bind', resume, bind_map']
  simp only [if_true, unescapeLetters_backslash, hl, Bool.false_eq_true, if_false]

theorem resume_letter_ok (hc : c ≠ backslash) (h : resume true (c :: text) = .ok out) :
    ∃ letter, unescapeLetter c = some letter := by
  rw [resume, unescapeHexunicode_cons hc, map_bind'] at h
  obtain ⟨temp, -, h⟩ := bind_eq_ok.1 h
  simp only [if_true, unescapeLetters_backslash] at h
  split at h
  · exact ⟨_, ‹_›⟩
  · cases h

theorem resume_nil : resume true [] ≠ .ok out := by
  intro h
  rw [resume, unescapeHexunicode] at h
  cases h

theorem resume_backslash (h : startsEscape text = false) :
    resume false (backslash :: text) = resume true text := by
  rw [resume, unescapeHexunicode_of_not_starts (not_starts h), map_bind']
  rfl

theorem resume_backslashes (h : startsEscape text = false) :
    resume true (backslash :: text) = (resume false text).map (backslash :: ·) := by
  rw [resume, unescapeHexunicode_of_not_starts (not_starts h), map_bind', resume, bind_map']
  rfl

theorem resume_escape (h : StartsEscape text digits n) (pending : Bool) :
    resume pending (backslash :: text) = (stoul (digits.take n)).bind fun value =>
      afterRune pending (value % 2 ^ 32) (digits.drop n) := by
  rw [resume, unescapeHexunicode_of_starts h]
  cases stoul (digits.take n) with
  | error e => rfl
  | ok value =>
    show ((unescapeHexunicode (digits.drop n)).map _).bind _ = _
    rw [map_bind']
    rfl

theorem ofNat_ne_backslash (hv : value ≤ max1) (h : value ≠ 0x5C) :
    UInt8.ofNat value ≠ backslash := by
  intro hb
  have hmod : value % 256 = 0x5C := congrArg UInt8.toNat hb
  have hlt : value < 256 := Nat.lt_of_le_of_lt hv (by decide)
  exact h (by rwa [Nat.mod_eq_of_lt hlt] at hmod)

theorem afterRune_plain (h : value ≠ 0x5C) (text : List UInt8) :
    afterRune false value text = (resume false text).map (writeRune value ++ ·) := by
  rw [afterRune, resume, bind_map']
  apply congrArg
  funext temp
  by_cases hv : value ≤ max1
  · rw [writeRune_ascii hv]
    exact unescapeLetters_cons (ofNat_ne_backslash hv h) temp
  · exact unescapeLetters_high (writeRune_high hv) temp

theorem afterRune_backslash (text : List UInt8) : afterRune false 0x5C text = resume true text :=
  rfl

theorem afterRune_letter_ok (h : afterRune true value text = .ok out) :
    ∃ letter out', value ≤ max1 ∧ unescapeLetter (UInt8.ofNat value) = some letter ∧
      resume false text = .ok out' ∧ out = letter :: out' := by
  rw [afterRune] at h
  obtain ⟨temp, htemp, h⟩ := bind_eq_ok.1 h
  rw [if_pos rfl] at h
  by_cases hv : value ≤ max1
  · rw [writeRune_ascii hv, List.singleton_append, unescapeLetters_backslash] at h
    split at h
    · obtain ⟨out', hout, rfl⟩ := map_eq_ok.1 h
      refine ⟨_, out', hv, ‹_›, ?_, rfl⟩
      rw [resume, htemp]
      exact hout
    · cases h
  · rcases hw : writeRune value with _ | ⟨c, bytes⟩
    · exact absurd hw (writeRune_ne_nil value)
    · have hc : 0x80 ≤ c := writeRune_high hv c (by simp [hw])
      rw [hw, List.cons_append, unescapeLetters_backslash, unescapeLetter_high hc] at h
      cases h

theorem resume_code (pending : Bool) (d₁ d₂ d₃ d₄ : Hex) (rest : List Item) :
    resume pending (body (.code d₁ d₂ d₃ d₄ :: rest)) =
      afterRune pending (codeUnit d₁ d₂ d₃ d₄) (body rest) := by
  have hstarts : StartsEscape (0x75 :: ([d₁, d₂, d₃, d₄].map Hex.byte ++ body rest))
      ([d₁, d₂, d₃, d₄].map Hex.byte ++ body rest) 4 :=
    ⟨0x75, rfl, rfl, Nat.le_add_left 4 _⟩
  have hunit : codeUnit d₁ d₂ d₃ d₄ % 2 ^ 32 = codeUnit d₁ d₂ d₃ d₄ :=
    Nat.mod_eq_of_lt (Nat.lt_trans (codeUnit_lt d₁ d₂ d₃ d₄) (by decide))
  rw [body_cons]
  refine (resume_escape hstarts pending).trans ?_
  have htake : ([d₁, d₂, d₃, d₄].map Hex.byte ++ body rest).take 4 =
      [d₁.byte, d₂.byte, d₃.byte, d₄.byte] := rfl
  rw [htake, stoul_code]
  exact congrArg (fun unit => afterRune pending unit (body rest)) hunit

theorem byte_ne_backslash {letter : Letter} (h : letter ≠ .backslash) :
    letter.byte ≠ backslash := by
  cases letter
  case backslash => exact absurd rfl h
  all_goals decide

theorem resume_letter_item {letter : Letter} (h : letter ≠ .backslash) (rest : List Item) :
    resume false (body (.escape letter :: rest)) =
      (resume false (body rest)).map (letter.denotes :: ·) := by
  have hnot := startsEscape_of_none (escapeDigits_letter letter) (body rest)
  rw [body_cons]
  refine (resume_backslash hnot).trans ?_
  exact resume_letter (byte_ne_backslash h) (unescapeLetter_byte letter) (body rest)

theorem resume_pending_letter_item {letter : Letter} (h : letter ≠ .backslash)
    (rest : List Item) : resume true (body (.escape letter :: rest)) =
      (resume false (body rest)).map ([backslash, letter.byte] ++ ·) := by
  have hnot := startsEscape_of_none (escapeDigits_letter letter) (body rest)
  rw [body_cons]
  refine (resume_backslashes hnot).trans ?_
  rw [resume_plain (byte_ne_backslash h)]
  cases resume false (body rest) <;> rfl

theorem resume_backslash_item (rest : List Item) :
    resume false (body (.escape .backslash :: rest)) = resume true (backslash :: body rest) := by
  rw [body_cons]
  exact resume_backslash (startsEscape_of_none rfl (body rest))

theorem resume_pending_backslash_item (rest : List Item) :
    resume true (body (.escape .backslash :: rest)) =
      (resume false (backslash :: body rest)).map (backslash :: ·) := by
  rw [body_cons]
  exact resume_backslashes (startsEscape_of_none rfl (body rest))

theorem startsEscape_body (h : startsEscape (body items) = true) :
    ∃ kind hkind rest n, items = .plain kind hkind :: rest ∧ escapeDigits kind = some n ∧
      StartsEscape (body items) (body rest) n := by
  obtain ⟨digits, n, hs⟩ := startsEscape_iff.1 h
  obtain ⟨kind, he, hn, hlen⟩ := hs
  cases items with
  | nil => cases he
  | cons item rest =>
    cases item with
    | plain c hc =>
      cases he
      exact ⟨kind, hc, rest, n, rfl, hn, kind, rfl, hn, hlen⟩
    | escape letter =>
      cases he
      cases hn
    | code d₁ d₂ d₃ d₄ =>
      cases he
      cases hn

/-- A backslash or a letter that can start an escape of several digits. -/
def isMark (c : UInt8) : Bool := c = backslash || (escapeDigits c).isSome

def marks (bytes : List UInt8) : Nat := bytes.countP isMark

theorem marks_cons (c : UInt8) (bytes : List UInt8) :
    marks (c :: bytes) = marks [c] + marks bytes := by
  rw [marks, marks, marks, ← List.countP_append]
  rfl

theorem marks_append (bytes bytes' : List UInt8) :
    marks (bytes ++ bytes') = marks bytes + marks bytes' := List.countP_append

theorem marks_single (c : UInt8) : marks [c] ≤ 1 := List.countP_le_length

theorem isMark_high : ∀ c, 0x80 ≤ c → isMark c = false := forall_byte (by decide +kernel)

theorem isMark_letter : ∀ c, c ≠ backslash → ∀ letter, unescapeLetter c = some letter →
    isMark letter = false := by
  have h : ∀ c, c ≠ backslash → (unescapeLetter c).all fun letter => !isMark letter :=
    forall_byte (by decide +kernel)
  intro c hc letter hl
  have hall := h c hc
  rw [hl] at hall
  exact Bool.not_eq_true' _ ▸ hall

theorem marks_of_not_mark (h : isMark c = false) (bytes : List UInt8) :
    marks (c :: bytes) = marks bytes := List.countP_cons_of_neg (by rw [h]; exact Bool.false_ne_true)

theorem marks_high {bytes : List UInt8} (h : ∀ c ∈ bytes, 0x80 ≤ c) : marks bytes = 0 := by
  rw [marks, List.countP_eq_zero]
  intro c hc
  rw [isMark_high c (h c hc)]
  exact Bool.false_ne_true

theorem marks_writeRune (value : Nat) : marks (writeRune value) ≤ 1 := by
  by_cases hv : value ≤ max1
  · rw [writeRune_ascii hv]
    exact marks_single _
  · rw [marks_high (writeRune_high hv)]
    exact Nat.zero_le 1

def weight (items : List Item) : Nat := (items.map fun item => marks item.denotes).sum

theorem weight_cons (item : Item) (rest : List Item) :
    weight (item :: rest) = marks item.denotes + weight rest := List.sum_cons

theorem weight_suffix (h : rest <:+ items) : weight rest ≤ weight items := by
  obtain ⟨front, rfl⟩ := h
  rw [weight, weight, List.map_append, List.sum_append]
  exact Nat.le_add_left _ _

theorem marks_surrogate {item : Item} (h : ∃ unit, item.high? = some unit ∨ item.low? = some unit) :
    marks item.denotes = 0 := by
  have hunit : ∃ d₁ d₂ d₃ d₄, item = .code d₁ d₂ d₃ d₄ ∧ max1 < codeUnit d₁ d₂ d₃ d₄ := by
    obtain ⟨unit, h | h⟩ := h
    · obtain ⟨hle, -, d₁, d₂, d₃, d₄, hitem, rfl⟩ := high?_eq_some h
      exact ⟨d₁, d₂, d₃, d₄, hitem, Nat.lt_of_lt_of_le (by decide) hle⟩
    · obtain ⟨hle, -, d₁, d₂, d₃, d₄, hitem, rfl⟩ := low?_eq_some h
      exact ⟨d₁, d₂, d₃, d₄, hitem, Nat.lt_of_lt_of_le (by decide) hle⟩
  obtain ⟨d₁, d₂, d₃, d₄, rfl, hlt⟩ := hunit
  rw [Item.denotes, encodeUtf8_eq]
  exact marks_high (writeRune_high (Nat.not_le.2 hlt))

theorem marks_assigned (items : List Item) : marks (assigned items) = weight items := by
  induction items using assigned.induct with
  | case1 => rfl
  | case2 item => exact (Nat.add_zero _).symm
  | case3 item next rest value hpair ih =>
    obtain ⟨hlow, -, high, low, hh, hl⟩ := pair?_eq_some hpair
    have hv : ¬ value ≤ max1 := Nat.not_le.2 (Nat.lt_of_lt_of_le (by decide) hlow)
    rw [assigned, hpair, weight_cons, weight_cons, marks_surrogate ⟨high, .inl hh⟩,
      marks_surrogate ⟨low, .inr hl⟩]
    simp only [marks_append, encodeUtf8_eq, marks_high (writeRune_high hv), ih, Nat.zero_add]
  | case4 item next rest hpair ih =>
    rw [assigned, hpair, weight_cons, ← ih]
    exact marks_append _ _

/-- What is left of a body when so many characters are taken from it. -/
inductive Cut (items : List Item) (n : Nat) : List UInt8 → Prop
  | whole (rest : List Item) : rest <:+ items → Cut items n (body rest)
  | half : (.escape .backslash :: rest) <:+ items → Cut items n (backslash :: body rest)
  | calm : (∀ c ∈ s, isMark c = false) → rest <:+ items → Cut items n (s ++ body rest)
  | unit (front rest : List Item) (d₁ d₂ d₃ d₄ : Hex) :
      items = front ++ .code d₁ d₂ d₃ d₄ :: rest → n = (body front).length + 1 → Cut items n (0x75 :: ([d₁, d₂, d₃, d₄].map Hex.byte ++ body rest))

theorem isMark_hex (d : Hex) : isMark d.byte = false := by
  have h : ∀ c, (hexDigit c).isSome → isMark c = false := forall_byte (by decide +kernel)
  apply h
  rw [d.read]
  rfl

theorem isMark_byte {letter : Letter} (h : letter ≠ .backslash) : isMark letter.byte = false := by
  cases letter
  case backslash => exact absurd rfl h
  all_goals rfl

theorem Cut.cons (h : Cut rest n text) (item : Item) :
    Cut (item :: rest) (n + item.text.length) text := by
  have hrest : rest <:+ item :: rest := List.suffix_cons item rest
  cases h with
  | whole _ hs => exact .whole _ (hs.trans hrest)
  | half hs => exact .half (hs.trans hrest)
  | calm hcalm hs => exact .calm hcalm (hs.trans hrest)
  | unit front _ _ _ _ _ he hn =>
    apply Cut.unit (item :: front) _ _ _ _ _ _ _
    · rw [he, List.cons_append]
    · rw [hn, body_cons, List.length_append]
      omega

theorem cut_code (d₁ d₂ d₃ d₄ : Hex) (rest : List Item) (n : Nat) (hn : n < 6) :
    Cut (.code d₁ d₂ d₃ d₄ :: rest) n ((Item.code d₁ d₂ d₃ d₄).text.drop n ++ body rest) := by
  rcases n with _ | _ | n
  · exact .whole (.code d₁ d₂ d₃ d₄ :: rest) List.suffix_rfl
  · exact .unit [] rest d₁ d₂ d₃ d₄ rfl rfl
  · apply Cut.calm _ (List.suffix_cons _ rest)
    intro c hc
    have hmem : c ∈ [d₁, d₂, d₃, d₄].map Hex.byte := List.mem_of_mem_drop hc
    obtain ⟨d, -, rfl⟩ := List.mem_map.1 hmem
    exact isMark_hex d

theorem cut_escape (letter : Letter) (rest : List Item) (n : Nat) (hn : n < 2) :
    Cut (.escape letter :: rest) n ((Item.escape letter).text.drop n ++ body rest) := by
  rcases n with _ | _ | n
  · exact .whole (.escape letter :: rest) List.suffix_rfl
  · by_cases hl : letter = .backslash
    · rw [hl]
      exact .half List.suffix_rfl
    · apply Cut.calm _ (List.suffix_cons _ rest)
      intro c hc
      obtain rfl := List.mem_singleton.1 hc
      exact isMark_byte hl
  · exact absurd hn (by omega)

theorem cut_drop (items : List Item) (n : Nat) : Cut items n ((body items).drop n) := by
  induction items generalizing n with
  | nil =>
    rw [body, List.flatMap_nil, List.drop_nil]
    exact .whole [] List.suffix_rfl
  | cons item rest ih =>
    by_cases hn : n < item.text.length
    · rw [body_cons, List.drop_append_of_le_length (Nat.le_of_lt hn)]
      cases item with
      | plain c h =>
        obtain rfl : n = 0 := Nat.lt_one_iff.1 hn
        exact .whole (.plain c h :: rest) List.suffix_rfl
      | escape letter => exact cut_escape letter rest n hn
      | code d₁ d₂ d₃ d₄ => exact cut_code d₁ d₂ d₃ d₄ rest n hn
    · obtain ⟨k, rfl⟩ := Nat.exists_eq_add_of_le' (Nat.le_of_not_lt hn)
      rw [body_cons, Nat.add_comm, List.drop_length_add_append, Nat.add_comm]
      exact (ih k).cons item

/-- What the decoders make of the items, and of the items behind a backslash. -/
def Bounded (items : List Item) : Prop :=
  (∀ pending out, resume pending (body items) = .ok out →
    marks out ≤ weight items + pending.toNat) ∧
  ∀ pending out, resume pending (backslash :: body items) = .ok out →
    marks out ≤ weight items + 1

theorem marks_map {x : Except Exception (List UInt8)} (bytes : List UInt8)
    (h : x.map (bytes ++ ·) = .ok out) (hx : ∀ out', x = .ok out' → marks out' ≤ k) :
    marks out ≤ marks bytes + k := by
  obtain ⟨out', hout, rfl⟩ := map_eq_ok.1 h
  rw [marks_append]
  exact Nat.add_le_add_left (hx out' hout) _

theorem resume_calm {s : List UInt8} (hs : ∀ c ∈ s, isMark c = false) (text : List UInt8) :
    resume false (s ++ text) = (resume false text).map (s ++ ·) := by
  induction s with
  | nil =>
    rw [List.nil_append]
    cases resume false text <;> rfl
  | cons c s ih =>
    have hc : c ≠ backslash := by
      rintro rfl
      cases hs backslash (.head _)
    rw [List.cons_append, resume_plain hc, ih fun d hd => hs d (.tail _ hd)]
    cases resume false text <;> rfl

/-- Unescaping a body that is cut yields no more marks than the items hold, unless the cut is
right behind the backslash of four digits. -/
theorem marks_cut (hcut : Cut items n text) (ih : ∀ rest, rest <:+ items → Bounded rest)
    (h : resume false text = .ok out) :
    marks out ≤ weight items ∨
      ∃ front d₁ d₂ d₃ d₄ rest out', items = front ++ .code d₁ d₂ d₃ d₄ :: rest ∧
        n = (body front).length + 1 ∧ resume false (body rest) = .ok out' ∧
        out = 0x75 :: ([d₁, d₂, d₃, d₄].map Hex.byte ++ out') := by
  cases hcut with
  | whole _ hs => exact .inl (((ih _ hs).1 false out h).trans (weight_suffix hs))
  | @half rest hs =>
    have hrest := (ih rest ((List.suffix_cons _ rest).trans hs)).2 false out h
    have hle := weight_suffix hs
    rw [weight_cons] at hle
    exact .inl (by
      have hone : marks (Item.escape .backslash).denotes = 1 := rfl
      omega)
  | @calm s rest hcalm hs =>
    rw [resume_calm hcalm] at h
    have hzero : marks s = 0 := by
      rw [marks, List.countP_eq_zero]
      intro c hc
      rw [hcalm c hc]
      exact Bool.false_ne_true
    have hle := marks_map _ h ((ih rest hs).1 false)
    rw [hzero, Nat.zero_add] at hle
    exact .inl (hle.trans (weight_suffix hs))
  | unit front rest d₁ d₂ d₃ d₄ he hn =>
    rw [resume_plain (by decide), resume_calm] at h
    · obtain ⟨out₁, hout₁, rfl⟩ := map_eq_ok.1 h
      obtain ⟨out', hout', rfl⟩ := map_eq_ok.1 hout₁
      exact .inr ⟨front, d₁, d₂, d₃, d₄, rest, out', he, hn, hout', rfl⟩
    · intro c hc
      obtain ⟨d, -, rfl⟩ := List.mem_map.1 hc
      exact isMark_hex d

theorem marks_cut_le (hcut : Cut items n text) (ih : ∀ rest, rest <:+ items → Bounded rest)
    (h : resume false text = .ok out) : marks out ≤ weight items + 1 := by
  rcases marks_cut hcut ih h with hle | ⟨front, d₁, d₂, d₃, d₄, rest, out', he, -, hout', rfl⟩
  · exact Nat.le_succ_of_le hle
  · have hs : rest <:+ items := by
      rw [he, List.append_cons]
      exact List.suffix_append _ rest
    have hrest := (ih rest hs).1 false out' hout'
    have hcalm : marks ([d₁, d₂, d₃, d₄].map Hex.byte) = 0 := by
      rw [marks, List.countP_eq_zero]
      intro c hc
      obtain ⟨d, -, rfl⟩ := List.mem_map.1 hc
      rw [isMark_hex d]
      exact Bool.false_ne_true
    have hle := weight_suffix hs
    rw [marks_cons, marks_append, hcalm]
    have hone := marks_single 0x75
    rw [Bool.toNat_false] at hrest
    omega

theorem marks_cut_pending (hcut : Cut items n text) (ih : ∀ rest, rest <:+ items → Bounded rest)
    (h : resume true text = .ok out) : marks out ≤ weight items + 1 := by
  cases hcut with
  | whole _ hs => exact ((ih _ hs).1 true out h).trans (Nat.succ_le_succ (weight_suffix hs))
  | @half rest hs =>
    have hs' : rest <:+ items := (List.suffix_cons _ rest).trans hs
    exact ((ih rest hs').2 true out h).trans (Nat.succ_le_succ (weight_suffix hs'))
  | @calm s rest hcalm hs =>
    have hle := weight_suffix hs
    cases s with
    | nil => exact ((ih rest hs).1 true out h).trans (Nat.succ_le_succ hle)
    | cons c s =>
      have hc : c ≠ backslash := by
        rintro rfl
        cases hcalm backslash (.head _)
      rw [List.cons_append] at h
      obtain ⟨letter, hl⟩ := resume_letter_ok hc h
      rw [resume_letter hc hl] at h
      obtain ⟨out', hout', rfl⟩ := map_eq_ok.1 h
      have hcut' : Cut items n (s ++ body rest) := .calm (fun d hd => hcalm d (.tail _ hd)) hs
      rw [marks_of_not_mark (isMark_letter c hc letter hl)]
      exact marks_cut_le hcut' ih hout'
  | unit =>
    obtain ⟨letter, hl⟩ := resume_letter_ok (by decide) h
    cases hl

theorem bounded_nil (pending : Bool) (h : resume pending (body []) = .ok out) :
    marks out ≤ weight [] + pending.toNat := by
  cases pending with
  | false =>
    rw [body, List.flatMap_nil, resume, unescapeHexunicode] at h
    cases h
    exact Nat.zero_le _
  | true => exact absurd h resume_nil

theorem bounded_cons (item : Item) (ih : Bounded rest) (pending : Bool)
    (h : resume pending (body (item :: rest)) = .ok out) :
    marks out ≤ weight (item :: rest) + pending.toNat := by
  rw [weight_cons]
  cases item with
  | plain c hc =>
    have hne : c ≠ backslash := hc.2.2
    rw [body_cons] at h
    cases pending with
    | false =>
      have h := (resume_plain hne (body rest)).symm.trans h
      exact (marks_map [c] h (ih.1 false)).trans_eq (Nat.add_assoc _ _ _).symm
    | true =>
      obtain ⟨letter, hl⟩ := resume_letter_ok hne h
      have h := (resume_letter hne hl (body rest)).symm.trans h
      have hle := marks_map [letter] h (ih.1 false)
      have hzero : marks [letter] = 0 := marks_of_not_mark (isMark_letter c hne letter hl) []
      rw [hzero, Bool.toNat_false] at hle
      omega
  | escape letter =>
    by_cases hl : letter = .backslash
    · subst hl
      have hone : marks (Item.escape .backslash).denotes = 1 := rfl
      rw [hone]
      cases pending with
      | false =>
        rw [resume_backslash_item] at h
        have hle := ih.2 true out h
        omega
      | true =>
        rw [resume_pending_backslash_item] at h
        have hle := marks_map [backslash] h (ih.2 false)
        have hone : marks [backslash] = 1 := rfl
        rw [hone] at hle
        rw [Bool.toNat_true]
        omega
    · cases pending with
      | false =>
        rw [resume_letter_item hl] at h
        exact (marks_map [letter.denotes] h (ih.1 false)).trans_eq
          (Nat.add_assoc _ _ _).symm
      | true =>
        rw [resume_pending_letter_item hl] at h
        have hle := marks_map _ h (ih.1 false)
        have hone : marks [backslash, letter.byte] = 1 := by
          rw [marks_cons, marks_of_not_mark (isMark_byte hl)]
          rfl
        rw [hone, Bool.toNat_false] at hle
        rw [Bool.toNat_true]
        omega
  | code d₁ d₂ d₃ d₄ =>
    rw [resume_code] at h
    rw [Item.denotes, encodeUtf8_eq]
    cases pending with
    | false =>
      by_cases hunit : codeUnit d₁ d₂ d₃ d₄ = 0x5C
      · rw [hunit, afterRune_backslash] at h
        have hone : marks (writeRune 0x5C) = 1 := rfl
        have hle := ih.1 true out h
        rw [hunit, hone]
        rw [Bool.toNat_true] at hle
        rw [Bool.toNat_false]
        omega
      · rw [afterRune_plain hunit] at h
        exact (marks_map _ h (ih.1 false)).trans_eq (Nat.add_assoc _ _ _).symm
    | true =>
      obtain ⟨letter, out', -, -, hout', rfl⟩ := afterRune_letter_ok h
      have hle := ih.1 false out' hout'
      have hone := marks_single letter
      rw [marks_cons, Bool.toNat_true]
      rw [Bool.toNat_false] at hle
      omega

theorem bounded_backslash (hitems : ∀ pending out, resume pending (body items) = .ok out →
      marks out ≤ weight items + pending.toNat)
    (ih : ∀ rest, rest.length < items.length → Bounded rest)
    (h : resume pending (backslash :: body items) = .ok out) : marks out ≤ weight items + 1 := by
  cases hs : startsEscape (body items) with
  | false =>
    cases pending with
    | false =>
      rw [resume_backslash hs] at h
      exact hitems true out h
    | true =>
      rw [resume_backslashes hs] at h
      have hle := marks_map [backslash] h (hitems false)
      have hone : marks [backslash] = 1 := rfl
      rw [hone, Bool.toNat_false] at hle
      omega
  | true =>
    obtain ⟨kind, hkind, rest, n, rfl, hn, hs⟩ := startsEscape_body hs
    rw [resume_escape hs] at h
    obtain ⟨value, -, h⟩ := bind_eq_ok.1 h
    have hcut := cut_drop rest n
    have ih' : ∀ rest', rest' <:+ rest → Bounded rest' := by
      intro rest' hrest
      exact ih rest' (Nat.lt_succ_of_le hrest.length_le)
    have hone : marks [kind] = 1 := by
      have hmark : isMark kind = true := by
        rw [isMark, hn, Option.isSome_some, Bool.or_true]
      rw [marks, List.countP_cons_of_pos hmark]
      rfl
    rw [weight_cons]
    change marks out ≤ marks [kind] + weight rest + 1
    rw [hone]
    cases pending with
    | false =>
      by_cases hvalue : value % 2 ^ 32 = 0x5C
      · rw [hvalue, afterRune_backslash] at h
        have hle := marks_cut_pending hcut ih' h
        omega
      · rw [afterRune_plain hvalue] at h
        have hle := marks_map _ h fun out' hout' => marks_cut_le hcut ih' hout'
        have hrune := marks_writeRune (value % 2 ^ 32)
        omega
    | true =>
      obtain ⟨letter, out', -, -, hout', rfl⟩ := afterRune_letter_ok h
      have hle := marks_cut_le hcut ih' hout'
      have hletter := marks_single letter
      rw [marks_cons]
      omega

theorem bounded (items : List Item) : Bounded items := by
  have ih : ∀ rest : List Item, rest.length < items.length → Bounded rest :=
    fun rest _ => bounded rest
  have hfirst : ∀ pending out, resume pending (body items) = .ok out →
      marks out ≤ weight items + pending.toNat := by
    intro pending out h
    cases items with
    | nil => exact bounded_nil pending h
    | cons item rest => exact bounded_cons item (ih rest (Nat.lt_succ_self _)) pending h
  exact ⟨hfirst, fun pending out h => bounded_backslash hfirst ih h⟩
termination_by items.length

theorem stoul_backslash (text : List UInt8) :
    stoul (backslash :: text) = .error .invalidArgument := by
  have hmark : dropHexMark (backslash :: text) = backslash :: text := by
    rcases text with _ | ⟨x, _ | ⟨d, text⟩⟩
    · rfl
    · rfl
    · rw [dropHexMark, if_neg]
      intro hzero
      cases hzero.1
  have hsign : takeSign ((backslash :: text).dropWhile isSpace) = (false, backslash :: text) := rfl
  rw [stoul, hsign]
  simp only [hmark]
  rfl

theorem not_hexMark_backslash (text : List UInt8) :
    ∀ x ∈ (backslash :: text).head?, x ≠ 0x78 ∧ x ≠ 0x58 := by
  intro x hx
  cases hx
  decide

theorem body_pos (item : Item) (rest : List Item) : 0 < (body (item :: rest)).length := by
  rw [body_cons, List.length_append]
  cases item <;> exact Nat.lt_add_right _ (Nat.succ_pos _)

theorem assigned_plain (c : UInt8) (h : 0x20 ≤ c ∧ c ≠ 0x22 ∧ c ≠ backslash) (rest : List Item) :
    assigned (.plain c h :: rest) = c :: assigned rest :=
  assigned_cons (startsPair_eq_false rfl rest)

theorem assigned_code_ne (d₁ d₂ d₃ d₄ d : Hex) (rest : List Item)
    (h : max1 < codeUnit d₁ d₂ d₃ d₄) :
    assigned (.code d₁ d₂ d₃ d₄ :: rest) ≠ d.byte :: out := by
  intro he
  have hd : ¬ 0x80 ≤ d.byte := UInt8.not_le.2 d.plain.1
  have hrune {value : Nat} {tail : List UInt8} (hv : max1 < value)
      (he : encodeUtf8 value ++ tail = d.byte :: out) : False := by
    rw [encodeUtf8_eq] at he
    rcases hw : writeRune value with _ | ⟨c, bytes⟩
    · exact writeRune_ne_nil value hw
    · rw [hw] at he
      cases he
      exact hd (writeRune_high (Nat.not_le.2 hv) _ (by simp [hw]))
  cases hp : startsPair (.code d₁ d₂ d₃ d₄ :: rest) with
  | false =>
    rw [assigned_cons hp] at he
    exact hrune h he
  | true =>
    obtain ⟨value, next, rest', -, hpair, hassigned⟩ := startsPair_eq_true hp
    rw [hassigned] at he
    exact hrune (Nat.lt_of_lt_of_le (by decide) (pair?_eq_some hpair).1) he

theorem body_one {items : List Item} (hlen : (body items).length = 1) :
    ∃ c h, items = [.plain c h] := by
  cases items with
  | nil => cases hlen
  | cons item rest =>
    rw [body_cons, List.length_append] at hlen
    cases item with
    | plain c h =>
      cases rest with
      | nil => exact ⟨c, h, rfl⟩
      | cons item rest =>
        have hpos := body_pos item rest
        simp only [Item.text, List.length_singleton] at hlen
        omega
    | escape | code =>
      simp only [Item.text, List.length_cons, List.length_nil] at hlen
      omega

theorem body_three {items : List Item} (hlen : (body items).length = 3) :
    (∃ letter rest, items = .escape letter :: rest) ∨
      (∃ c h letter rest, items = .plain c h :: .escape letter :: rest) ∨
      ∃ c₁ h₁ c₂ h₂ c₃ h₃, items = [.plain c₁ h₁, .plain c₂ h₂, .plain c₃ h₃] := by
  cases items with
  | nil => cases hlen
  | cons item rest =>
    rw [body_cons, List.length_append] at hlen
    cases item with
    | escape letter => exact .inl ⟨letter, rest, rfl⟩
    | code =>
      simp only [Item.text, List.length_cons, List.length_nil] at hlen
      omega
    | plain c₁ h₁ =>
      cases rest with
      | nil => cases hlen
      | cons item rest =>
        rw [body_cons, List.length_append] at hlen
        simp only [Item.text, List.length_singleton] at hlen
        cases item with
        | escape letter => exact .inr (.inl ⟨c₁, h₁, letter, rest, rfl⟩)
        | code =>
          simp only [List.length_cons, List.length_nil] at hlen
          omega
        | plain c₂ h₂ =>
          simp only [List.length_singleton] at hlen
          have hone : (body rest).length = 1 := by omega
          obtain ⟨c₃, h₃, rfl⟩ := body_one hone
          exact .inr (.inr ⟨c₁, h₁, c₂, h₂, c₃, h₃, rfl⟩)

theorem digits_ne_assigned (hlen : (body front).length = 3)
    (hvalue : stoul ((body (front ++ .code d₁ d₂ d₃ d₄ :: rest)).take 4) = .ok value)
    (hbackslash : value % 2 ^ 32 = 0x5C) : assigned (front ++ .code d₁ d₂ d₃ d₄ :: rest) ≠
      d₁.byte :: d₂.byte :: d₃.byte :: d₄.byte :: out := by
  intro h
  have htake : (body (front ++ .code d₁ d₂ d₃ d₄ :: rest)).take 4 = body front ++ [backslash] := by
    have happend : body (front ++ .code d₁ d₂ d₃ d₄ :: rest) =
        body front ++ body (.code d₁ d₂ d₃ d₄ :: rest) := List.flatMap_append
    rw [happend, List.take_append, hlen, List.take_of_length_le (by omega)]
    rfl
  rw [htake] at hvalue
  have h₁ := d₁.digit_lt
  rcases body_three hlen with ⟨letter, front', rfl⟩ | ⟨c₁, hc₁, letter, front', rfl⟩ |
    ⟨c₁, hc₁, c₂, hc₂, c₃, hc₃, rfl⟩
  · cases (stoul_backslash _).symm.trans hvalue
  · -- one digit in front of a backslash is not enough
    rw [List.cons_append, assigned_plain] at h
    obtain ⟨rfl, -⟩ := List.cons.inj h
    have hread := stoul_hexes d₁ [] (by simp) rfl
      (not_hexMark_backslash (letter.byte :: (body front' ++ [backslash])))
    cases hread.symm.trans hvalue
    simp only [ofDigits, List.map_cons, List.map_nil, List.foldl_cons, List.foldl_nil]
      at hbackslash
    omega
  · -- the code unit of the digits starts with the three that make a backslash
    simp only [List.cons_append, List.nil_append, assigned_plain, List.cons.injEq] at h
    obtain ⟨rfl, rfl, rfl, h⟩ := h
    have hread := stoul_hexes d₁ [d₂, d₃] (by simp) rfl (not_hexMark_backslash [])
    cases hread.symm.trans hvalue
    simp only [ofDigits, List.map_cons, List.map_nil, List.foldl_cons, List.foldl_nil]
      at hbackslash
    have h₂ := d₂.digit_lt
    have h₃ := d₃.digit_lt
    apply assigned_code_ne d₁ d₂ d₃ d₄ d₄ rest _ h
    simp only [codeUnit, ofDigits, List.foldl_cons, List.foldl_nil, max1]
    omega

theorem hidden_ne (h : startsEscape (body items) = true) (pending : Bool) :
    resume pending (backslash :: body items) ≠ .ok (backslash :: assigned items) := by
  intro hout
  obtain ⟨kind, hkind, rest, n, rfl, hn, hs⟩ := startsEscape_body h
  rw [resume_escape hs] at hout
  obtain ⟨value, hvalue, hout⟩ := bind_eq_ok.1 hout
  rw [assigned_plain] at hout
  have hmark : marks [kind] = 1 := by
    have hmark : isMark kind = true := by
      rw [isMark, hn, Option.isSome_some, Bool.or_true]
    rw [marks, List.countP_cons_of_pos hmark]
    rfl
  have hcut := cut_drop rest n
  have hbounded : ∀ rest', rest' <:+ rest → Bounded rest' := fun rest' _ => bounded rest'
  cases pending with
  | false =>
    by_cases hbackslash : value % 2 ^ 32 = 0x5C
    · rw [hbackslash, afterRune_backslash] at hout
      have hle := marks_cut_pending hcut hbounded hout
      rw [marks_cons, marks_cons kind, marks_assigned, hmark] at hle
      have hone : marks [backslash] = 1 := rfl
      omega
    · rw [afterRune_plain hbackslash] at hout
      obtain ⟨out', -, he⟩ := map_eq_ok.1 hout
      by_cases hv : value % 2 ^ 32 ≤ max1
      · rw [writeRune_ascii hv, List.singleton_append] at he
        exact ofNat_ne_backslash hv hbackslash (List.cons.inj he).1
      · rcases hw : writeRune (value % 2 ^ 32) with _ | ⟨c, bytes⟩
        · exact writeRune_ne_nil _ hw
        · rw [hw, List.cons_append] at he
          have hc : 0x80 ≤ c := writeRune_high hv c (by rw [hw]; exact .head _)
          rw [(List.cons.inj he).1] at hc
          exact absurd hc (by decide)
  | true =>
    obtain ⟨letter, out', hv, hl, hout', he⟩ := afterRune_letter_ok hout
    obtain ⟨rfl, rfl⟩ := List.cons.inj he
    have hbackslash : value % 2 ^ 32 = 0x5C := by
      by_contra hne
      have hcalm := isMark_letter _ (ofNat_ne_backslash hv hne) _ hl
      cases hcalm
    rcases marks_cut hcut hbounded hout' with hle | ⟨front, d₁, d₂, d₃, d₄, rest', out'', he', hlen,
      -, hassigned⟩
    · rw [marks_cons, marks_assigned, hmark] at hle
      omega
    · obtain ⟨rfl, hdigits⟩ := List.cons.inj hassigned
      cases hn
      subst he'
      exact digits_ne_assigned (Nat.succ.inj hlen).symm hvalue hbackslash hdigits

theorem ok_map_append {x : Except Exception (List UInt8)} (bytes tail : List UInt8) :
    x.map (bytes ++ ·) = .ok (bytes ++ tail) ↔ x = .ok tail := by
  constructor
  · intro h
    obtain ⟨out, hout, he⟩ := map_eq_ok.1 h
    rw [hout, List.append_cancel_left he]
  · intro h
    rw [h]
    rfl

theorem ok_map_cons {x : Except Exception (List UInt8)} (c : UInt8) (tail : List UInt8) :
    x.map (c :: ·) = .ok (c :: tail) ↔ x = .ok tail := ok_map_append [c] tail

/-- The decoders yield the string of the items, and behind a backslash the backslash with it. -/
def Decodes (items : List Item) : Prop :=
  (resume false (body items) = .ok (assigned items) ↔ decodesOnce items = true) ∧
  (resume true (body items) = .ok (backslash :: assigned items) ↔
    closesBackslash items = true ∧ decodesOnce items = true)

theorem decodes_plain (c : UInt8) (h : 0x20 ≤ c ∧ c ≠ 0x22 ∧ c ≠ backslash)
    (ih : Decodes rest) : Decodes (.plain c h :: rest) := by
  rw [Decodes, assigned_plain, body_cons]
  constructor
  · rw [decodesOnce, Item.readOnce, Bool.true_and, ← ih.1]
    exact (resume_plain h.2.2 (body rest)).symm ▸ ok_map_cons c (assigned rest)
  · apply iff_of_false
    · intro hout
      obtain ⟨letter, hl⟩ := resume_letter_ok h.2.2 hout
      have hmark := isMark_letter c h.2.2 letter hl
      have hout := (resume_letter h.2.2 hl (body rest)).symm.trans hout
      obtain ⟨out', -, he⟩ := map_eq_ok.1 hout
      rw [(List.cons.inj he).1] at hmark
      cases hmark
    · intro hcloses
      cases hcloses.1

theorem decodes_letter {letter : Letter} (hl : letter ≠ .backslash) (ih : Decodes rest) :
    Decodes (.escape letter :: rest) := by
  have hassigned : assigned (.escape letter :: rest) = letter.denotes :: assigned rest :=
    assigned_cons (startsPair_eq_false rfl rest)
  have honce : decodesOnce (.escape letter :: rest) = decodesOnce rest := by
    rw [decodesOnce, Item.readOnce, decide_eq_true hl, Bool.true_or, Bool.true_and]
  rw [Decodes, hassigned, resume_letter_item hl, resume_pending_letter_item hl, honce, ← ih.1]
  apply And.intro (ok_map_cons letter.denotes (assigned rest))
  cases letter
  case backslash => exact absurd rfl hl
  case quote | slash =>
    rw [closesBackslash, and_iff_right rfl]
    exact ok_map_append [_, _] (assigned rest)
  all_goals
    apply iff_of_false
    · intro hout
      obtain ⟨out, -, he⟩ := map_eq_ok.1 hout
      cases (List.cons.inj (List.cons.inj he).2).1
    · intro hcloses
      cases hcloses.1

theorem decodes_backslash (ih : Decodes rest) : Decodes (.escape .backslash :: rest) := by
  have hassigned : assigned (.escape .backslash :: rest) = backslash :: assigned rest :=
    assigned_cons (startsPair_eq_false rfl rest)
  rw [Decodes, hassigned, resume_backslash_item, resume_pending_backslash_item, ok_map_cons,
    closesBackslash]
  cases hs : startsEscape (body rest) with
  | true =>
    have hnot : decodesOnce (.escape .backslash :: rest) = false := by
      rw [decodesOnce, Item.readOnce, hs]
      rfl
    rw [hnot]
    exact ⟨iff_of_false (hidden_ne hs true) Bool.false_ne_true,
      iff_of_false (hidden_ne hs false) fun h => Bool.false_ne_true h.2⟩
  | false =>
    have honce : decodesOnce (.escape .backslash :: rest) = decodesOnce rest := by
      rw [decodesOnce, Item.readOnce, hs]
      rfl
    rw [honce, resume_backslashes hs, resume_backslash hs, ok_map_cons]
    exact ih

theorem writeRune_pair_ne (hhigh : 0xD800 ≤ high ∧ high ≤ 0xDBFF)
    (hvalue : 0x10000 ≤ value ∧ value ≤ max4) (out tail : List UInt8) :
    writeRune high ++ out ≠ writeRune value ++ tail := by
  intro he
  have h1 : ¬ high ≤ max1 := Nat.not_le.2 (Nat.lt_of_lt_of_le (by decide) hhigh.1)
  have h2 : ¬ high ≤ max2 := Nat.not_le.2 (Nat.lt_of_lt_of_le (by decide) hhigh.1)
  have h3 : high ≤ max3 := hhigh.2.trans (by decide)
  have h1' : ¬ value ≤ max1 := Nat.not_le.2 (Nat.lt_of_lt_of_le (by decide) hvalue.1)
  have h2' : ¬ value ≤ max2 := Nat.not_le.2 (Nat.lt_of_lt_of_le (by decide) hvalue.1)
  have h3' : ¬ value ≤ max3 := Nat.not_le.2 (Nat.lt_of_lt_of_le (by decide) hvalue.1)
  rw [writeRune, if_neg h1, if_neg h2, if_pos h3, writeRune3_eq (Nat.lt_succ_of_le h3),
    writeRune, if_neg h1', if_neg h2', if_neg h3', if_pos hvalue.2, shift_three] at he
  have hlead : value / 262144 < 2 ^ 3 := by
    have := hvalue.2
    simp only [max4] at this
    omega
  have hmark : mark4.toNat ||| value / 262144 = value / 262144 + 0xF0 := mark_or hlead 30
  have hfirst := congrArg UInt8.toNat (List.cons.inj he).1
  rw [hmark, UInt8.toNat_ofNat', UInt8.toNat_ofNat'] at hfirst
  omega

theorem decodes_code (d₁ d₂ d₃ d₄ : Hex) (ih : Decodes rest) :
    Decodes (.code d₁ d₂ d₃ d₄ :: rest) := by
  rw [Decodes, resume_code, resume_code]
  constructor
  · cases hp : startsPair (.code d₁ d₂ d₃ d₄ :: rest) with
    | true =>
      rw [decodesOnce, Item.readOnce, hp]
      apply iff_of_false _ Bool.false_ne_true
      intro hout
      obtain ⟨value, next, rest', -, hpair, hassigned⟩ := startsPair_eq_true hp
      obtain ⟨hlow, hle, high, low, hhigh, -⟩ := pair?_eq_some hpair
      obtain ⟨hhigh₁, hhigh₂, e₁, e₂, e₃, e₄, he, hunit⟩ := high?_eq_some hhigh
      cases he
      have hne : codeUnit d₁ d₂ d₃ d₄ ≠ 0x5C := by
        rw [hunit]
        omega
      rw [hassigned, afterRune_plain hne, encodeUtf8_eq, hunit] at hout
      obtain ⟨out, -, he⟩ := map_eq_ok.1 hout
      exact writeRune_pair_ne ⟨hhigh₁, hhigh₂⟩ ⟨hlow, hle⟩ out (assigned rest') he
    | false =>
      rw [assigned_cons hp, Item.denotes, encodeUtf8_eq, decodesOnce, Item.readOnce, hp]
      by_cases hunit : codeUnit d₁ d₂ d₃ d₄ = 0x5C
      · rw [hunit, afterRune_backslash]
        refine Iff.trans ih.2 ?_
        simp
      · rw [afterRune_plain hunit, ok_map_append, ih.1]
        simp [hunit]
  · apply iff_of_false
    · intro hout
      obtain ⟨letter, out', hv, hl, hout', he⟩ := afterRune_letter_ok hout
      obtain ⟨rfl, rfl⟩ := List.cons.inj he
      have hunit : codeUnit d₁ d₂ d₃ d₄ = 0x5C := by
        by_contra hne
        have hcalm := isMark_letter _ (ofNat_ne_backslash hv hne) _ hl
        cases hcalm
      have hhigh : (Item.code d₁ d₂ d₃ d₄).high? = none := by
        simp [Item.high?, hunit]
      rw [assigned_cons (startsPair_eq_false hhigh rest), Item.denotes, encodeUtf8_eq, hunit] at hout'
      have hle := (bounded rest).1 false _ hout'
      rw [marks_append, marks_assigned] at hle
      have hone : marks (writeRune 0x5C) = 1 := rfl
      rw [Bool.toNat_false] at hle
      omega
    · intro hcloses
      cases hcloses.1

theorem decodes (items : List Item) : Decodes items := by
  induction items with
  | nil =>
    constructor
    · apply iff_of_true _ rfl
      rw [body, List.flatMap_nil, resume, unescapeHexunicode]
      rfl
    · apply iff_of_false resume_nil
      intro h
      cases h.1
  | cons item rest ih =>
    cases item with
    | plain c h => exact decodes_plain c h ih
    | escape letter =>
      by_cases hl : letter = .backslash
      · rw [hl]
        exact decodes_backslash ih
      · exact decodes_letter hl ih
    | code d₁ d₂ d₃ d₄ => exact decodes_code d₁ d₂ d₃ d₄ ih

/-- Unescaping a body yields the string that the RFC assigns to it exactly where no surrogate
pair stands in it, no escaped backslash has the start of an escape of several digits behind it,
and every `\u005c` has an escaped quote or slash behind it, after escaped backslashes. -/
theorem unescape_assigned (items : List Item) :
    unescape (body items) = .ok (assigned items) ↔ decodesOnce items = true :=
  (decodes items).1

/-- The text `\u005cn`. -/
def escapedBackslashN : List Item :=
  [.code ⟨0x30, 0, rfl⟩ ⟨0x30, 0, rfl⟩ ⟨0x35, 5, rfl⟩ ⟨0x63, 12, rfl⟩, .plain 0x6E (by decide)]

theorem unescape_escapedBackslashN :
    unescape (body escapedBackslashN) = .ok [0x0A] ∧
      assigned escapedBackslashN = [0x5C, 0x6E] := by
  have hletter : unescapeLetter 0x6E = some 0x0A := rfl
  have hnil : resume false [] = .ok [] := by
    rw [resume, unescapeHexunicode]
    rfl
  have hn := resume_letter (by decide) hletter []
  rw [hnil] at hn
  exact ⟨(resume_code false _ _ _ _ _).trans hn, rfl⟩

end Trieste.Json
